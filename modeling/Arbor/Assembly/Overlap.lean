import Arbor.Assembly.Settings
import Arbor.Assembly.Volume

namespace Arbor

structure OverlapChecker (α : Type) where
  resolution : Nat
  tolerance : α
  limit : Nat
  generator : Generator

structure ScanState where
  violations : Nat := 0
  generator : Generator

/-- A check that may end early; the draws before its end stay drawn. -/
abbrev Scan := ExceptT Unit (StateM ScanState)

def Scan.draw {β : Type} (d : Draw β) : Scan β := do
  let s ← get
  let (b, generator) := d.run s.generator
  set { s with generator }
  return b

namespace OverlapChecker

variable {α : Type}

/-- Draws start from the configured seed. Where there is none they start from `chance`, of which
nothing is known. -/
def ofSettings (s : Settings α) (chance : Generator := .ofSeed 0) : OverlapChecker α where
  resolution := s.resolution
  tolerance := s.tolerance
  limit := max s.maximumErrorNumber 1
  generator := s.overlapSeed.elim chance Generator.ofSeed

def violate (c : OverlapChecker α) : Scan Unit := do
  modify fun s => { s with violations := s.violations + 1 }
  if c.limit ≤ (← get).violations then throw ()

variable [Scalar α]

def escapes (c : OverlapChecker α) (world : Shape α) (p : Vec3 α) : Bool :=
  world.location p == .outside && c.tolerance < world.distanceToIn p

def intrudes (c : OverlapChecker α) (shape : Shape α) (p : Vec3 α) : Bool :=
  shape.location p == .inside && c.tolerance < shape.distanceToOut p

/-- Checks a point against one daughter, and with the first sample the daughter against the
candidate. -/
def inspectDaughter (c : OverlapChecker α) (candidate : Tessellation α) (first : Bool) (p : Vec3 α)
    (shape : Shape α) : Scan Unit := do
  if c.intrudes shape p then c.violate
  if first then
    let probe ← Scan.draw shape.pointOnSurface
    if candidate.location probe == .inside then c.violate

def inspectDaughters (c : OverlapChecker α) (candidate : Tessellation α) (parent : Option Nat)
    (first : Bool) (p : Vec3 α) (index : Nat) : List (Volume α) → Scan Unit
  | [] => return ()
  | v :: vs => do
    unless parent == some index do c.inspectDaughter candidate first p v.shape
    inspectDaughters c candidate parent first p (index + 1) vs

def inspect (c : OverlapChecker α) (candidate : Tessellation α) (world : Volume α)
    (parent : Option Nat) (first : Bool) : Scan Unit := do
  let p ← Scan.draw candidate.pointOnSurface
  if c.escapes world.shape p then c.violate
  c.inspectDaughters candidate parent first p 0 world.children

def scan (c : OverlapChecker α) (candidate : Tessellation α) (world : Volume α)
    (parent : Option Nat) : Bool → Nat → Scan Unit
  | _, 0 => return ()
  | first, n + 1 => do
    c.inspect candidate world parent first
    scan c candidate world parent false n

/-- Whether a candidate reaches out of the world or into a daughter other than `parent`, and the
checker with the draws made. Points are drawn on the candidate, and with the first of them one on
every daughter. -/
def overlaps (c : OverlapChecker α) (candidate : Tessellation α) (world : Volume α)
    (parent : Option Nat) : Bool × OverlapChecker α :=
  let (outcome, s) :=
    ((c.scan candidate world parent true c.resolution).run.run { generator := c.generator })
  let verdict := match outcome with
    | .ok () => 0 < s.violations
    | .error () => true
  (verdict, { c with generator := s.generator })

end OverlapChecker

end Arbor
