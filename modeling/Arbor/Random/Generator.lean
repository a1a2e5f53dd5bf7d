import Arbor.Scalar
import Arbor.Random.ChaCha

namespace Arbor

/-- A place in a stream of 64-bit words, so a draw is a function of the seed and of how many draws
came before it. -/
structure Generator where
  key : ChaCha.Key
  drawn : Nat
deriving DecidableEq, Repr

namespace Generator

/-- The step of the sequence that spreads a seed over the key. -/
def spread (s : UInt64) : UInt64 := s * 6364136223846793005 + 11634580027462260723

def keyWord (s : UInt64) : UInt32 :=
  let x := (((s >>> 18) ^^^ s) >>> 27).toUInt32
  let r := (s >>> 59).toUInt32
  (x >>> r) ||| (x <<< (32 - r))

def ofSeed (seed : UInt64) : Generator :=
  let s0 := spread seed
  let s1 := spread s0
  let s2 := spread s1
  let s3 := spread s2
  let s4 := spread s3
  let s5 := spread s4
  let s6 := spread s5
  let s7 := spread s6
  ⟨⟨keyWord s0, keyWord s1, keyWord s2, keyWord s3, keyWord s4, keyWord s5, keyWord s6,
    keyWord s7⟩, 0⟩

def word (g : Generator) : UInt64 :=
  (ChaCha.block g.key (g.drawn / 8).toUInt64).pair (g.drawn % 8)

def advance (g : Generator) (n : Nat) : Generator := { g with drawn := g.drawn + n }

def next (g : Generator) : UInt64 × Generator := (g.word, g.advance 1)

/-- A number in `[0, 1)` with 53 random bits. -/
def uniform {α : Type} [Scalar α] (g : Generator) : α × Generator :=
  (Scalar.ofNat (g.word >>> 11).toNat / Scalar.ofNat (Nat.pow 2 53), g.advance 1)

/-- An integer between `lo` and `hi`, both included, or `none` if there is none. A word is scaled
to the count of integers; a second word decides where the first one leaves the result open. -/
def integer (g : Generator) (lo hi : Int64) : Option (Int64 × Generator) :=
  if hi < lo then none
  else
    let count := hi.toUInt64 - lo.toUInt64 + 1
    if count = 0 then some (g.word.toInt64, g.advance 1)
    else
      let scaled := g.word.toNat * count.toNat
      let whole := (scaled / UInt64.size).toUInt64
      let rest := scaled % UInt64.size
      let settled (offset : UInt64) := (lo.toUInt64 + offset).toInt64
      if rest ≤ UInt64.size - count.toNat then some (settled whole, g.advance 1)
      else
        let carry := (g.advance 1).word.toNat * count.toNat / UInt64.size
        some (settled (if rest + carry < UInt64.size then whole else whole + 1), g.advance 2)

end Generator

abbrev Draw := StateM Generator

def Draw.uniform {α : Type} [Scalar α] : Draw α := modifyGet Generator.uniform

end Arbor
