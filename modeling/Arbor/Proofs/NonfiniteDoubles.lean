import Arbor.Mesh.Basic
import Arbor.Proofs.ComparedNumbers

namespace Arbor

open Float.Model Float.Model.UnpackedFloat

theorem sub_self_eq (u : UnpackedFloat) :
    UnpackedFloat.sub Format.binary64 u u =
      if u.isFinite then .zero .positive else .notANumber := by
  cases u with
  | notANumber => rfl
  | infinity s => cases s <;> rfl
  | zero s => cases s <;> rfl
  | finite s m e hm =>
      simp only [UnpackedFloat.sub, Int.sub_self, UnpackedFloat.normalize]
      rfl

theorem sub_not_finite {u v : UnpackedFloat} (hu : u.isFinite = false) :
    (UnpackedFloat.sub Format.binary64 u v).isFinite = false := by
  cases u with
  | zero s => cases hu
  | finite s m e hm => cases hu
  | notANumber => cases v <;> rfl
  | infinity s =>
      cases v with
      | infinity t => cases s <;> cases t <;> rfl
      | _ => rfl

theorem mul_not_finite {u v : UnpackedFloat} (hv : v.isFinite = false) :
    (UnpackedFloat.mul Format.binary64 u v).isFinite = false := by
  cases v with
  | zero s => cases hv
  | finite s m e hm => cases hv
  | notANumber => cases u <;> rfl
  | infinity s => cases u <;> rfl

theorem add_not_finite {u v : UnpackedFloat} (h : u.isFinite = false ∨ v.isFinite = false) :
    (UnpackedFloat.add Format.binary64 u v).isFinite = false := by
  cases u with
  | notANumber => cases v <;> rfl
  | infinity s =>
      cases v with
      | infinity t => cases s <;> cases t <;> rfl
      | _ => rfl
  | zero | finite =>
      cases v with
      | notANumber | infinity => rfl
      | zero | finite => rcases h with h | h <;> cases h

theorem pack_not_finite {u : UnpackedFloat} (hu : u.isFinite = false) :
    (Float.ofModel (Float.Model.pack u)).isFinite = false := by
  cases u with
  | zero s => cases hu
  | finite s m e hm => cases hu
  | notANumber => rfl
  | infinity s => cases s <;> rfl

theorem double_sub_self (x : Float) : x - x =
    .ofModel (Float.Model.pack (if x.isFinite then .zero .positive else .notANumber)) :=
  congrArg (fun u => Float.ofModel (Float.Model.pack u)) (sub_self_eq x.toModel.unpack)

theorem not_sqrt_lt {x : Float} (hx : x.isFinite = false) (y : Float) : ¬ x.sqrt < y := by
  have hroot (u : UnpackedFloat) (hu : u ∈ [infinity .positive, .notANumber]) :
      ¬ Float.ofModel (Float.Model.pack u) < y := by
    intro hlt
    have hlt : (Float.Model.pack u).unpack.lt y.toModel.unpack = true := of_decide_eq_true hlt
    rw [UnpackedDouble.unpack_pack_special u (List.mem_cons_of_mem _ hu)] at hlt
    rcases List.mem_pair.mp hu with rfl | rfl
    · generalize y.toModel.unpack = v at hlt
      cases v with
      | infinity t => cases t <;> cases hlt
      | _ => cases hlt
    · cases hlt
  have hunpacked : x.toModel.unpack.isFinite = false := hx
  refine hroot (UnpackedFloat.sqrt Format.binary64 x.toModel.unpack) ?_
  cases hu : x.toModel.unpack with
  | zero s | finite s m e hm =>
      rw [hu] at hunpacked
      cases hunpacked
  | notANumber => simp [UnpackedFloat.sqrt]
  | infinity s => cases s <;> simp [UnpackedFloat.sqrt]

namespace Vec3

theorem finite_of_length_lt {p q : Vec3 Float} {r : Float} (h : (p - q).length < r) :
    p.x.isFinite = true ∧ p.y.isFinite = true ∧ p.z.isFinite = true := by
  have hsq {a b : Float} (ha : a.isFinite = false) : ((a - b) * (a - b)).isFinite = false :=
    pack_not_finite (mul_not_finite (pack_not_finite (sub_not_finite ha)))
  have hadd {a b : Float} (h : a.isFinite = false ∨ b.isFinite = false) :
      (a + b).isFinite = false := pack_not_finite (add_not_finite h)
  have hfinite (hx : (p - q).lengthSq.isFinite = false) : False := not_sqrt_lt hx r h
  refine ⟨?_, ?_, ?_⟩
  · by_contra hx
    rw [Bool.not_eq_true] at hx
    exact hfinite (hadd (.inl (hadd (.inl (hsq hx)))))
  · by_contra hy
    rw [Bool.not_eq_true] at hy
    exact hfinite (hadd (.inl (hadd (.inr (hsq hy)))))
  · by_contra hz
    rw [Bool.not_eq_true] at hz
    exact hfinite (hadd (.inr (hsq hz)))

/-- A point of doubles with a close neighbour is finite, so it is close to itself. -/
theorem length_sub_self_lt {p q : Vec3 Float} (h : (p - q).length < Mesh.mergeTolerance) :
    (p - p).length < Mesh.degenerateTolerance := by
  obtain ⟨hx, hy, hz⟩ := finite_of_length_lt h
  have hsub : p - p = ⟨p.x - p.x, p.y - p.y, p.z - p.z⟩ := rfl
  rw [hsub, double_sub_self, double_sub_self, double_sub_self, if_pos hx, if_pos hy, if_pos hz]
  decide +kernel

end Vec3

end Arbor
