
namespace Arbor.ChaCha

structure Key where
  k0 : UInt32
  k1 : UInt32
  k2 : UInt32
  k3 : UInt32
  k4 : UInt32
  k5 : UInt32
  k6 : UInt32
  k7 : UInt32
deriving DecidableEq, Repr

structure Square where
  a0 : UInt32
  a1 : UInt32
  a2 : UInt32
  a3 : UInt32
  b0 : UInt32
  b1 : UInt32
  b2 : UInt32
  b3 : UInt32
  c0 : UInt32
  c1 : UInt32
  c2 : UInt32
  c3 : UInt32
  d0 : UInt32
  d1 : UInt32
  d2 : UInt32
  d3 : UInt32
deriving DecidableEq, Repr

structure Column where
  a : UInt32
  b : UInt32
  c : UInt32
  d : UInt32

@[inline] def rotate (x n : UInt32) : UInt32 := (x <<< n) ||| (x >>> (32 - n))

@[inline] def quarter (a b c d : UInt32) : Column :=
  let a := a + b
  let d := rotate (d ^^^ a) 16
  let c := c + d
  let b := rotate (b ^^^ c) 12
  let a := a + b
  let d := rotate (d ^^^ a) 8
  let c := c + d
  let b := rotate (b ^^^ c) 7
  ⟨a, b, c, d⟩

def doubleRound (s : Square) : Square :=
  let p := quarter s.a0 s.b0 s.c0 s.d0
  let q := quarter s.a1 s.b1 s.c1 s.d1
  let r := quarter s.a2 s.b2 s.c2 s.d2
  let t := quarter s.a3 s.b3 s.c3 s.d3
  let p' := quarter p.a q.b r.c t.d
  let q' := quarter q.a r.b t.c p.d
  let r' := quarter r.a t.b p.c q.d
  let t' := quarter t.a p.b q.c r.d
  ⟨p'.a, q'.a, r'.a, t'.a, t'.b, p'.b, q'.b, r'.b, r'.c, t'.c, p'.c, q'.c, q'.d, r'.d, t'.d, p'.d⟩

def add (s t : Square) : Square :=
  ⟨s.a0 + t.a0, s.a1 + t.a1, s.a2 + t.a2, s.a3 + t.a3, s.b0 + t.b0, s.b1 + t.b1, s.b2 + t.b2,
    s.b3 + t.b3, s.c0 + t.c0, s.c1 + t.c1, s.c2 + t.c2, s.c3 + t.c3, s.d0 + t.d0, s.d1 + t.d1,
    s.d2 + t.d2, s.d3 + t.d3⟩

def start (key : Key) (number : UInt64) : Square :=
  ⟨0x61707865, 0x3320646e, 0x79622d32, 0x6b206574, key.k0, key.k1, key.k2, key.k3, key.k4, key.k5,
    key.k6, key.k7, number.toUInt32, (number >>> 32).toUInt32, 0, 0⟩

def block (key : Key) (number : UInt64) : Square :=
  let s := start key number
  add (Nat.repeat doubleRound 6 s) s

@[inline] def join (low high : UInt32) : UInt64 := low.toUInt64 ||| (high.toUInt64 <<< 32)

def Square.pair (s : Square) : Nat → UInt64
  | 0 => join s.a0 s.a1
  | 1 => join s.a2 s.a3
  | 2 => join s.b0 s.b1
  | 3 => join s.b2 s.b3
  | 4 => join s.c0 s.c1
  | 5 => join s.c2 s.c3
  | 6 => join s.d0 s.d1
  | _ => join s.d2 s.d3

end Arbor.ChaCha
