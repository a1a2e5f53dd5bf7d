import Arbor.Fault
import Arbor.Json.Decoding
import Arbor.Json.Printer
import Arbor.Json.Reader

namespace Arbor

structure Materials where
  trunk : String := "pv-aluminium"
  floor : String := "pv-concrete"
  air : String := "pv-air"
  leafFront : String := "pv-glass"
  leafSensitive : String := "pv-silicon"
  leafBack : String := "pv-glass"
deriving DecidableEq, Repr, Inhabited

structure Settings (α : Type) where
  resolution : Nat
  /-- How deep a point may lie in something else. -/
  tolerance : α
  /-- How many violations reject a leaf. -/
  maximumErrorNumber : Nat
  overlapSeed : Option UInt64
  /-- Inner branches with a smaller radius bear leaves at their base. -/
  thinBranchHalfWidth : α
  /-- Branches without children end in a point. -/
  taperTerminalBranches : Bool
  includeGround : Bool
  materials : Materials
deriving BEq, Repr

namespace Settings

def standard {α : Type} [Scalar α] : Settings α where
  resolution := 1000
  tolerance := 0.0
  maximumErrorNumber := 1
  overlapSeed := none
  thinBranchHalfWidth := 0.04
  taperTerminalBranches := false
  includeGround := true
  materials := {}

def seeded {α : Type} [Scalar α] (seed : UInt64) : Settings α :=
  { standard with overlapSeed := some seed }

end Settings

namespace Materials

def toJson (m : Materials) : Json :=
  .record [("trunk", .text m.trunk), ("floor", .text m.floor), ("air", .text m.air),
    ("leaf_front", .text m.leafFront), ("leaf_sensitive", .text m.leafSensitive),
    ("leaf_back", .text m.leafBack)]

def ofJson? (v : Json) : Option Materials := do
  let standard : Materials := {}
  match ← v.fields? ["trunk", "floor", "air", "leaf_front", "leaf_sensitive", "leaf_back"] with
  | [trunk, floor, air, leafFront, leafSensitive, leafBack] =>
    some {
      trunk := ← Json.orDefault? standard.trunk Json.text? trunk
      floor := ← Json.orDefault? standard.floor Json.text? floor
      air := ← Json.orDefault? standard.air Json.text? air
      leafFront := ← Json.orDefault? standard.leafFront Json.text? leafFront
      leafSensitive := ← Json.orDefault? standard.leafSensitive Json.text? leafSensitive
      leafBack := ← Json.orDefault? standard.leafBack Json.text? leafBack }
  | _ => none

end Materials

namespace Settings

def toJson (s : Settings Float) : Json :=
  .record [("resolution", .integer s.resolution), ("tolerance", .double s.tolerance),
    ("maximum_error_number", .integer s.maximumErrorNumber),
    ("overlap_seed", match s.overlapSeed with
      | some seed => .integer seed.toNat
      | none => .null),
    ("thin_branch_half_width", .double s.thinBranchHalfWidth),
    ("taper_terminal_branches", .bool s.taperTerminalBranches),
    ("include_ground", .bool s.includeGround), ("materials", s.materials.toJson)]

def count? (v : Json) : Option Nat := v.nat64?.map UInt64.toNat

def ofJson? (v : Json) : Option (Settings Float) := do
  let standard : Settings Float := standard
  match ← v.fields? ["resolution", "tolerance", "maximum_error_number", "overlap_seed",
      "thin_branch_half_width", "taper_terminal_branches", "include_ground", "materials"] with
  | [resolution, tolerance, maximum, seed, thin, taper, ground, materials] =>
    some {
      resolution := ← Json.orDefault? standard.resolution count? resolution
      tolerance := ← Json.orDefault? standard.tolerance Json.double? tolerance
      maximumErrorNumber := ← Json.orDefault? standard.maximumErrorNumber count? maximum
      overlapSeed := ← Json.optional? Json.nat64? seed
      thinBranchHalfWidth := ← Json.orDefault? standard.thinBranchHalfWidth Json.double? thin
      taperTerminalBranches := ← Json.orDefault? standard.taperTerminalBranches Json.bool? taper
      includeGround := ← Json.orDefault? standard.includeGround Json.bool? ground
      materials := ← Json.orDefault? standard.materials Materials.ofJson? materials }
  | _ => none

def document (s : Settings Float) : String := s.toJson.pretty

def ofDocument (text : String) : Except (Fault Float) (Settings Float) :=
  match (Json.parse? text).bind ofJson? with
  | none => .error .malformedDocument
  | some s => .ok s

end Settings

end Arbor
