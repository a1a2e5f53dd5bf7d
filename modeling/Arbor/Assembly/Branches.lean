import Arbor.Assembly.Settings
import Arbor.Assembly.Structure
import Arbor.Leaf.Pattern

namespace Arbor

structure Candidate (α : Type) where
  pose : Pose α
  branch : Nat

structure Scaffold (α : Type) where
  plant : Structure α
  candidates : List (Candidate α) := []

variable {α : Type} [Scalar α]

def quarterTurn : α := Scalar.pi / Scalar.ofNat 2

/-- One of the two poses at the base of a branch, to the side `side` of it. On a sloped branch the
heading turns back by the inclination, and the leaf starts closer to the axis. -/
def Pose.atBase (p : Pose α) (inclination side : α) : Pose α :=
  let turn := side * quarterTurn
  { p with
    orientation := p.orientation.withAzimuth (p.orientation.azimuth + turn - inclination)
    left := p.left.withAzimuth (p.left.azimuth + turn)
    length := p.width / Scalar.ofNat 2 * Scalar.cos inclination }

def Pose.basePair (p : Pose α) (inclination : α) : List (Pose α) :=
  [p.atBase inclination (-1), p.atBase inclination 1]

def Frustum.inclination (s : Frustum α) : α :=
  if s.isCylinder then 0
  else quarterTurn - Scalar.atan (s.halfLength / (s.startRadius - s.endRadius))

namespace Settings

/-- The radius at the end of a turtle's segment: that of its first child, if it has one. -/
def endRadius (settings : Settings α) (grown : Interpretation α) (t : Turtle α) : α :=
  match t.children.head?.bind grown.pose? with
  | some child => child.width / Scalar.ofNat 2
  | none => if settings.taperTerminalBranches then 0 else t.pose.width / Scalar.ofNat 2

def branchOf (settings : Settings α) (grown : Interpretation α) (t : Turtle α) : Frustum α :=
  Frustum.along t.pose.position t.pose.orientation t.pose.length (t.pose.width / Scalar.ofNat 2)
    (settings.endRadius grown t)

def leafPoses (settings : Settings α) (iterations : Int64) (t : Turtle α) (branch : Frustum α) :
    List (Pose α) :=
  if t.children.isEmpty then
    t.pose :: if iterations = 0 then [] else t.pose.basePair 0
  else if branch.startRadius < settings.thinBranchHalfWidth then t.pose.basePair branch.inclination
  else []

def trunk (settings : Settings α) (branch : Frustum α) : Volume α :=
  { name := "Trunk", material := settings.materials.trunk, shape := .frustum branch }

/-- Places the branch of a turtle, then those of its children, and then notes its own leaves.
Turtles `fuel` or more generations below are left out. -/
def placeBranch (settings : Settings α) (grown : Interpretation α) (iterations : Int64) :
    Nat → TurtleId → Scaffold α → Scaffold α
  | 0, _, s => s
  | fuel + 1, id, s =>
    match grown.forest.get? id with
    | none => s
    | some t =>
      let branch := settings.branchOf grown t
      let index := s.plant.daughters.length
      let placed := (s.plant.add (settings.trunk branch)).modifyMetrics fun m =>
        { m with branches := m.branches + 1 }
      let below := t.children.foldl
        (fun s child => placeBranch settings grown iterations fuel child s)
        { s with plant := placed }
      let leaves := (settings.leafPoses iterations t branch).map fun pose => ⟨pose, index⟩
      { below with candidates := below.candidates ++ leaves }

/-- Places all branches of a tree. No turtle lies deeper than there are turtles. -/
def placeBranches (settings : Settings α) (grown : Interpretation α) (iterations : Int64)
    (plant : Structure α) : Scaffold α :=
  grown.roots.foldl
    (fun s root => settings.placeBranch grown iterations grown.forest.slots.size root s) { plant }

end Settings

/-- Extends a box over the segments on a stack of turtles and those below them, and over the leaves
at their ends. At most `fuel` turtles are visited. -/
def Interpretation.extendOver (grown : Interpretation α) (leaf : LeafPattern α) :
    Nat → List TurtleId → Box α → Except (Fault α) (Box α)
  | 0, _, box => .ok box
  | _ + 1, [], box => .ok box
  | fuel + 1, id :: pending, box =>
    match grown.forest.get? id with
    | none => extendOver grown leaf fuel pending box
    | some t => do
      let segment := (box.expand t.pose.position).expand t.pose.endPoint
      let extended ←
        if t.children.isEmpty then
          -- leaves are measured from the base of the segment
          let pose := Pose.ofFrame t.pose.position t.pose.orientation t.pose.left
          (leaf.extents? pose).map fun
            | some leafBox => segment.merge leafBox
            | none => segment
        else pure segment
      extendOver grown leaf fuel (t.children.reverse ++ pending) extended

def Interpretation.extents (grown : Interpretation α) (leaf : LeafPattern α) :
    Except (Fault α) (Box α) :=
  let start := match grown.retired.head?.bind grown.pose? with
    | some first => first.position
    | none => 0
  grown.extendOver leaf grown.forest.slots.size grown.roots.reverse (Box.ofPoint start)

end Arbor
