import Arbor.Assembly.Branches
import Arbor.Assembly.Overlap

namespace Arbor

structure Site (α : Type) where
  plant : Structure α
  checker : OverlapChecker α

variable {α : Type} [Scalar α]

def worldScale : α := 10.1

def leafWorldScale : α := 1.5

def sqrtThree : α := Scalar.sqrt (Scalar.ofNat 3)

def groundFraction : α := 0.95

def floorTop (radius : α) : α := Scalar.lesser (0.001 * radius) 0.05

namespace Settings

def leafVolume (settings : Settings α) (shells : LeafShells α) : Volume α :=
  let m := settings.materials
  { name := "LeafEnvelope", material := m.air, shape := .tessellated shells.envelope
    children := [
      { name := "LeafFront", material := m.leafFront, shape := .tessellated shells.front },
      { name := "LeafSensitive", material := m.leafSensitive,
        shape := .tessellated shells.sensitive },
      { name := "LeafBack", material := m.leafBack, shape := .tessellated shells.back }] }

def reject (plant : Structure α) : Structure α :=
  plant.modifyMetrics fun m => { m with rejectedLeaves := m.rejectedLeaves + 1 }

def accept (settings : Settings α) (shells : LeafShells α) (plant : Structure α) : Structure α :=
  (plant.add (settings.leafVolume shells)).modifyMetrics fun m =>
    { m with sensitiveArea := m.sensitiveArea + shells.sensitiveArea, leaves := m.leaves + 1 }

/-- Adds a leaf that has a surface and overlaps nothing but the branch that bears it; any other one
is counted as rejected. -/
def tryPlaceLeaf (settings : Settings α) (shells : LeafShells α) (branch : Option Nat) :
    StateM (Site α) Bool := do
  let site ← get
  if shells.envelope.isEmpty then
    set { site with plant := reject site.plant }
    return false
  let (overlaps, checker) := site.checker.overlaps shells.envelope site.plant.world branch
  if overlaps then
    set { plant := reject site.plant, checker : Site α }
    return false
  set { plant := settings.accept shells site.plant, checker : Site α }
  return true

def placeLeaves (settings : Settings α) (leaf : LeafPattern α) :
    List (Candidate α) → Site α → Except (Fault α) (Site α)
  | [], site => .ok site
  | c :: cs, site => do
    let shells ← leaf.shells c.pose
    placeLeaves settings leaf cs ((settings.tryPlaceLeaf shells (some c.branch)).run site).2

def emptyWorld (settings : Settings α) (reach : Vec3 α) (radius : α) : Structure α :=
  let orb : Orb α := ⟨0, sqrtThree * radius⟩
  let world : Volume α := { name := "World", material := settings.materials.air, shape := .orb orb }
  (Structure.ofWorld world).modifyMetrics fun m => { m with reach }

def placeGround (settings : Settings α) (radius : α) (plant : Structure α) : Structure α :=
  let top := floorTop radius
  let reach := sqrtThree * groundFraction * radius
  let floor := settings.materials.floor
  (plant.add { name := "Floor", material := floor, shape := .dome ⟨⟨0, 0, -top⟩, reach⟩ }).add
    { name := "FloorTop", material := floor, shape := .tube ⟨0, reach, top⟩ }

def build (settings : Settings α) (tree : Plant TreeSpecies α) (leaf : Plant LeafSpecies α)
    (chance : Generator := .ofSeed 0) : Except (Fault α) (Structure α) := do
  let grown ← tree.grow
  let pattern ← LeafPattern.ofPlant leaf
  let iterations ← tree.parameters.integer "iterationNumber"
  let reach := (← grown.extents pattern).maxAbs
  let radius := (reach * (worldScale : α)).length
  let world := settings.emptyWorld reach radius
  let grounded := if settings.includeGround then settings.placeGround radius world else world
  let scaffold := settings.placeBranches grown iterations grounded
  let site ← settings.placeLeaves pattern scaffold.candidates
    ⟨scaffold.plant, OverlapChecker.ofSettings settings chance⟩
  return site.plant

def buildLeaf (settings : Settings α) (leaf : Plant LeafSpecies α) :
    Except (Fault α) (Structure α) := do
  let pattern ← LeafPattern.ofPlant leaf
  let shells ← pattern.shells Pose.start
  let reach := match shells.envelope.extents? with
    | some box => box.maxAbs
    | none => 0
  let world := settings.emptyWorld reach (reach * (leafWorldScale : α)).length
  return settings.accept shells world

end Settings

end Arbor
