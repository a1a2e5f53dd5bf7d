import Arbor.Scalar

namespace Arbor

@[ext]
structure Vec3 (α : Type) where
  x : α
  y : α
  z : α
deriving DecidableEq, Repr, Inhabited

namespace Vec3

variable {α : Type} [Scalar α]

instance : Add (Vec3 α) where
  add v w := ⟨v.x + w.x, v.y + w.y, v.z + w.z⟩

instance : Sub (Vec3 α) where
  sub v w := ⟨v.x - w.x, v.y - w.y, v.z - w.z⟩

instance : Neg (Vec3 α) where
  neg v := ⟨-v.x, -v.y, -v.z⟩

instance : HMul (Vec3 α) α (Vec3 α) where
  hMul v s := ⟨v.x * s, v.y * s, v.z * s⟩

instance : Zero (Vec3 α) where
  zero := ⟨0, 0, 0⟩

def map (f : α → α) (v : Vec3 α) : Vec3 α := ⟨f v.x, f v.y, f v.z⟩

def map₂ (f : α → α → α) (v w : Vec3 α) : Vec3 α := ⟨f v.x w.x, f v.y w.y, f v.z w.z⟩

def dot (v w : Vec3 α) : α := v.x * w.x + v.y * w.y + v.z * w.z

def cross (v w : Vec3 α) : Vec3 α :=
  ⟨v.y * w.z - w.y * v.z, v.z * w.x - w.z * v.x, v.x * w.y - w.x * v.y⟩

section Components

variable (v w : Vec3 α) (a : α)

@[simp]
theorem x_zero : (0 : Vec3 α).x = 0 := rfl

@[simp]
theorem y_zero : (0 : Vec3 α).y = 0 := rfl

@[simp]
theorem z_zero : (0 : Vec3 α).z = 0 := rfl

@[simp]
theorem x_add : (v + w).x = v.x + w.x := rfl

@[simp]
theorem y_add : (v + w).y = v.y + w.y := rfl

@[simp]
theorem z_add : (v + w).z = v.z + w.z := rfl

@[simp]
theorem x_sub : (v - w).x = v.x - w.x := rfl

@[simp]
theorem y_sub : (v - w).y = v.y - w.y := rfl

@[simp]
theorem z_sub : (v - w).z = v.z - w.z := rfl

@[simp]
theorem x_neg : (-v).x = -v.x := rfl

@[simp]
theorem y_neg : (-v).y = -v.y := rfl

@[simp]
theorem z_neg : (-v).z = -v.z := rfl

@[simp]
theorem x_mul : (v * a).x = v.x * a := rfl

@[simp]
theorem y_mul : (v * a).y = v.y * a := rfl

@[simp]
theorem z_mul : (v * a).z = v.z * a := rfl

@[simp]
theorem x_cross : (v.cross w).x = v.y * w.z - w.y * v.z := rfl

@[simp]
theorem y_cross : (v.cross w).y = v.z * w.x - w.z * v.x := rfl

@[simp]
theorem z_cross : (v.cross w).z = v.x * w.y - w.x * v.y := rfl

theorem dot_eq : v.dot w = v.x * w.x + v.y * w.y + v.z * w.z := rfl

end Components

def lengthSq (v : Vec3 α) : α := v.dot v

def length (v : Vec3 α) : α := Scalar.sqrt v.lengthSq

def vertical : Vec3 α := ⟨0, 0, 1⟩

/-- The unit vector along `v`, unless the length of `v` has no usable reciprocal. -/
def normalize? (v : Vec3 α) : Option (Vec3 α) :=
  let r : α := 1 / v.length
  -- only a finite number differs from itself by zero
  if 0 < r ∧ (r - r == 0) = true then some (v * r) else none

def normalizeOrZero (v : Vec3 α) : Vec3 α := v.normalize?.getD 0

/-- A vector perpendicular to `v`, made of its two largest components. -/
def orthogonal (v : Vec3 α) : Vec3 α :=
  let x := Scalar.abs v.x
  let y := Scalar.abs v.y
  let z := Scalar.abs v.z
  if x < y then
    if x < z then ⟨0, v.z, -v.y⟩ else ⟨v.y, -v.x, 0⟩
  else if y < z then ⟨-v.z, 0, v.x⟩
  else ⟨v.y, -v.x, 0⟩

/-- The rotation of `v` about a unit axis, through the quaternion of half the angle. -/
def rotateUnit (v axis : Vec3 α) (angle : α) : Vec3 α :=
  let half : α := angle * 0.5
  let b := axis * Scalar.sin half
  let w := Scalar.cos half
  v * (w * w - b.dot b) + b * (v.dot b * Scalar.ofNat 2) + b.cross v * (w * Scalar.ofNat 2)

/-- Rotates `v` by an angle in radians; an axis without direction leaves it as it is. -/
def rotateAbout (v axis : Vec3 α) (angle : α) : Vec3 α :=
  if (angle == 0) = true then v
  else match axis.normalize? with
    | some axis => v.rotateUnit axis angle
    | none => v

def angleBetween (v w : Vec3 α) : α :=
  let denominator := Scalar.sqrt (v.lengthSq * w.lengthSq)
  if (denominator == 0) = true then 0
  else Scalar.acos (Scalar.clamp (v.dot w / denominator) (-1) 1)

def azimuth (v : Vec3 α) : α :=
  if (v.x == 0 && v.y == 0) = true then 0 else Scalar.atan2 v.y v.x

def perp (v : Vec3 α) : α := Scalar.sqrt (v.x * v.x + v.y * v.y)

def polar (v : Vec3 α) : α :=
  if (v.perp == 0 && v.z == 0) = true then 0 else Scalar.atan2 v.perp v.z

def withAzimuth (v : Vec3 α) (azimuth : α) : Vec3 α :=
  ⟨v.perp * Scalar.cos azimuth, v.perp * Scalar.sin azimuth, v.z⟩

/-- The vector scaled to a length; a zero vector stays zero. -/
def withLength (v : Vec3 α) (length : α) : Vec3 α :=
  if (v.length == 0) = true then v else v * (length / v.length)

/-- Two unit vectors that complete an axis to a right-handed frame. -/
def frameFor (axis : Vec3 α) : Vec3 α × Vec3 α :=
  let w := axis.normalizeOrZero
  let u := w.orthogonal.normalizeOrZero
  (u, w.cross u)

end Vec3

end Arbor
