import Arbor.Geometry.Box
import Arbor.Proofs.ComparedNumbers

namespace Arbor

variable {α : Type} [Scalar α]

namespace Vec3

structure Numeric (p : Vec3 α) : Prop where
  x : (p.x == p.x) = true
  y : (p.y == p.y) = true
  z : (p.z == p.z) = true

structure AtMost (p q : Vec3 α) : Prop where
  x : p.x ≤ q.x
  y : p.y ≤ q.y
  z : p.z ≤ q.z

theorem numeric (p : Vec3 ℝ) : p.Numeric :=
  ⟨decide_eq_true rfl, decide_eq_true rfl, decide_eq_true rfl⟩

namespace AtMost

variable {p q r : Vec3 α}

theorem refl [OrderedScalar α] (h : p.Numeric) : p.AtMost p :=
  ⟨Scalar.le_self h.x, Scalar.le_self h.y, Scalar.le_self h.z⟩

variable [ComparedScalar α]

theorem trans (hpq : p.AtMost q) (hqr : q.AtMost r) : p.AtMost r :=
  ⟨ComparedScalar.trans hpq.x hqr.x, ComparedScalar.trans hpq.y hqr.y,
    ComparedScalar.trans hpq.z hqr.z⟩

theorem numeric (h : p.AtMost q) : p.Numeric ∧ q.Numeric :=
  ⟨⟨(ComparedScalar.number h.x).1, (ComparedScalar.number h.y).1, (ComparedScalar.number h.z).1⟩,
    ⟨(ComparedScalar.number h.x).2, (ComparedScalar.number h.y).2, (ComparedScalar.number h.z).2⟩⟩

end AtMost

end Vec3

namespace Box

variable {a b c outer : Box α} {p : Vec3 α}

structure Numeric (b : Box α) : Prop where
  low : b.low.Numeric
  high : b.high.Numeric

/-- `c` reaches no further than `b` to any side. -/
structure Covers (b c : Box α) : Prop where
  low : b.low.AtMost c.low
  high : c.high.AtMost b.high

structure Holds (b : Box α) (p : Vec3 α) : Prop where
  low : b.low.AtMost p
  high : p.AtMost b.high

theorem covers_ofPoint : b.Covers (ofPoint p) ↔ b.Holds p :=
  ⟨fun h => ⟨h.low, h.high⟩, fun h => ⟨h.low, h.high⟩⟩

theorem Covers.refl [OrderedScalar α] (h : b.Numeric) : b.Covers b :=
  ⟨.refl h.low, .refl h.high⟩

theorem Covers.merge (hb : outer.Covers b) (hc : outer.Covers c) : outer.Covers (b.merge c) where
  low := ⟨Scalar.le_lesser hb.low.x hc.low.x, Scalar.le_lesser hb.low.y hc.low.y,
    Scalar.le_lesser hb.low.z hc.low.z⟩
  high := ⟨Scalar.greater_le hb.high.x hc.high.x, Scalar.greater_le hb.high.y hc.high.y,
    Scalar.greater_le hb.high.z hc.high.z⟩

theorem merge_covers_right [OrderedScalar α] (b : Box α) (hc : c.Numeric) :
    (b.merge c).Covers c where
  low := ⟨Scalar.lesser_le _ hc.low.x, Scalar.lesser_le _ hc.low.y, Scalar.lesser_le _ hc.low.z⟩
  high := ⟨Scalar.le_greater _ hc.high.x, Scalar.le_greater _ hc.high.y,
    Scalar.le_greater _ hc.high.z⟩

variable [ComparedScalar α]

namespace Covers

theorem numeric (h : b.Covers c) : b.Numeric ∧ c.Numeric :=
  ⟨⟨h.low.numeric.1, h.high.numeric.2⟩, ⟨h.low.numeric.2, h.high.numeric.1⟩⟩

theorem trans (hab : a.Covers b) (hbc : b.Covers c) : a.Covers c :=
  ⟨hab.low.trans hbc.low, hbc.high.trans hab.high⟩

theorem holds (h : b.Covers c) (hp : c.Holds p) : b.Holds p :=
  ⟨h.low.trans hp.low, hp.high.trans h.high⟩

theorem merge_left (h : b.Covers c) (d : Box α) : (b.merge d).Covers c where
  low := .trans ⟨Scalar.lesser_le_left h.numeric.1.low.x _,
    Scalar.lesser_le_left h.numeric.1.low.y _, Scalar.lesser_le_left h.numeric.1.low.z _⟩ h.low
  high := h.high.trans ⟨Scalar.le_greater_left h.numeric.1.high.x _,
    Scalar.le_greater_left h.numeric.1.high.y _, Scalar.le_greater_left h.numeric.1.high.z _⟩

end Covers

theorem covers_merge (hb : b.Numeric) (hc : c.Numeric) :
    outer.Covers (b.merge c) ↔ outer.Covers b ∧ outer.Covers c :=
  ⟨fun h => ⟨h.trans ((Covers.refl hb).merge_left c), h.trans (merge_covers_right b hc)⟩,
    fun h => h.1.merge h.2⟩

/-- What a list is merged into is covered by the boxes that cover all of the list. -/
theorem covers_foldl_merge {boxes : List (Box α)} (hboxes : ∀ c ∈ boxes, c.Numeric)
    (hb : b.Numeric) :
    outer.Covers (boxes.foldl merge b) ↔ outer.Covers b ∧ ∀ c ∈ boxes, outer.Covers c := by
  induction boxes generalizing b with
  | nil => simp
  | cons c cs ih =>
      obtain ⟨hc, hcs⟩ := List.forall_mem_cons.mp hboxes
      have hmerged : (b.merge c).Numeric := (merge_covers_right b hc).numeric.1
      rw [List.foldl_cons, ih hcs hmerged, covers_merge hb hc, List.forall_mem_cons, and_assoc]

theorem numeric_foldl_merge {boxes : List (Box α)} (hboxes : ∀ c ∈ boxes, c.Numeric)
    (hb : b.Numeric) : (boxes.foldl merge b).Numeric := by
  induction boxes generalizing b with
  | nil => exact hb
  | cons c cs ih =>
      obtain ⟨hc, hcs⟩ := List.forall_mem_cons.mp hboxes
      exact ih hcs (merge_covers_right b hc).numeric.1

omit [ComparedScalar α] in
theorem ofPoints?_cons (p : Vec3 α) (ps : List (Vec3 α)) :
    ofPoints? (p :: ps) = some ((ps.map ofPoint).foldl merge (ofPoint p)) := by
  rw [List.foldl_map]
  rfl

omit [ComparedScalar α] in
theorem exists_ofPoints? {ps : List (Vec3 α)} (h : p ∈ ps) : ∃ b, ofPoints? ps = some b := by
  obtain ⟨q, qs, rfl⟩ := List.exists_cons_of_ne_nil (List.ne_nil_of_mem h)
  exact ⟨_, rfl⟩

theorem numeric_of_ofPoints? {ps : List (Vec3 α)} (hps : ∀ p ∈ ps, p.Numeric)
    (h : ofPoints? ps = some b) : b.Numeric := by
  cases ps with
  | nil => cases h
  | cons q qs =>
      obtain ⟨hq, hqs⟩ := List.forall_mem_cons.mp hps
      rw [ofPoints?_cons] at h
      obtain rfl := Option.some.inj h
      exact numeric_foldl_merge (List.forall_mem_map.mpr fun r hr => ⟨hqs r hr, hqs r hr⟩) ⟨hq, hq⟩

theorem covers_ofPoints? {ps : List (Vec3 α)} (hps : ∀ p ∈ ps, p.Numeric)
    (h : ofPoints? ps = some b) : outer.Covers b ↔ ∀ p ∈ ps, outer.Holds p := by
  cases ps with
  | nil => cases h
  | cons q qs =>
      obtain ⟨hq, hqs⟩ := List.forall_mem_cons.mp hps
      rw [ofPoints?_cons] at h
      obtain rfl := Option.some.inj h
      rw [covers_foldl_merge (List.forall_mem_map.mpr fun r hr => ⟨hqs r hr, hqs r hr⟩) ⟨hq, hq⟩,
        List.forall_mem_map, List.forall_mem_cons, covers_ofPoint]
      simp only [covers_ofPoint]

theorem Holds.maxAbs (h : b.Holds p) : (p.map Scalar.abs).AtMost b.maxAbs :=
  ⟨Scalar.abs_le_greater h.low.x h.high.x, Scalar.abs_le_greater h.low.y h.high.y,
    Scalar.abs_le_greater h.low.z h.high.z⟩

end Box

namespace Box

variable {box : Box ℝ} {p q r : Vec3 ℝ}

theorem contains_iff : box.contains p 0 = true ↔ (box.low.x ≤ p.x ∧ p.x ≤ box.high.x) ∧
    (box.low.y ≤ p.y ∧ p.y ≤ box.high.y) ∧ box.low.z ≤ p.z ∧ p.z ≤ box.high.z := by
  simp [contains, and_assoc]

theorem contains_iff_holds : box.contains p 0 = true ↔ box.Holds p := by
  rw [contains_iff]
  exact ⟨fun ⟨hx, hy, hz⟩ => ⟨⟨hx.1, hy.1, hz.1⟩, hx.2, hy.2, hz.2⟩,
    fun ⟨hlow, hhigh⟩ => ⟨⟨hlow.x, hhigh.x⟩, ⟨hlow.y, hhigh.y⟩, hlow.z, hhigh.z⟩⟩

theorem contains_of_mem {ps : List (Vec3 ℝ)} (h : p ∈ ps) :
    ∃ box, ofPoints? ps = some box ∧ ∀ q ∈ ps, box.contains q 0 = true := by
  obtain ⟨box, hbox⟩ := exists_ofPoints? h
  have hnumeric (r : Vec3 ℝ) (_ : r ∈ ps) : r.Numeric := r.numeric
  have hholds := (covers_ofPoints? hnumeric hbox).mp (.refl (numeric_of_ofPoints? hnumeric hbox))
  exact ⟨box, hbox, fun q hq => contains_iff_holds.mpr (hholds q hq)⟩

theorem contains_mix (hp : box.contains p 0 = true) (hq : box.contains q 0 = true)
    (hr : box.contains r 0 = true) {u v w : ℝ} (hu : 0 ≤ u) (hv : 0 ≤ v) (hw : 0 ≤ w)
    (hsum : u + v + w = 1) : box.contains (p * u + q * v + r * w) 0 = true := by
  have hmix {lo hi a b c : ℝ} (ha : lo ≤ a ∧ a ≤ hi) (hb : lo ≤ b ∧ b ≤ hi)
      (hc : lo ≤ c ∧ c ≤ hi) :
      lo ≤ a * u + b * v + c * w ∧ a * u + b * v + c * w ≤ hi := by
    have hlow := add_le_add_three (mul_le_mul_of_nonneg_right ha.1 hu)
      (mul_le_mul_of_nonneg_right hb.1 hv) (mul_le_mul_of_nonneg_right hc.1 hw)
    have hhigh := add_le_add_three (mul_le_mul_of_nonneg_right ha.2 hu)
      (mul_le_mul_of_nonneg_right hb.2 hv) (mul_le_mul_of_nonneg_right hc.2 hw)
    rw [← mul_add, ← mul_add, hsum, mul_one] at hlow hhigh
    exact ⟨hlow, hhigh⟩
  rw [contains_iff] at hp hq hr ⊢
  exact ⟨hmix hp.1 hq.1 hr.1, hmix hp.2.1 hq.2.1 hr.2.1, hmix hp.2.2 hq.2.2 hr.2.2⟩

theorem contains_between (hp : box.contains p 0 = true) (hq : box.contains q 0 = true) {s : ℝ}
    (hs : 0 ≤ s) (hs' : s ≤ 1) : box.contains (p * (1 - s) + q * s) 0 = true := by
  have hmix := contains_mix hp hq hq (sub_nonneg.mpr hs') hs le_rfl (by ring)
  have hpoint : p * (1 - s) + q * s + q * (0 : ℝ) = p * (1 - s) + q * s := by
    ext <;> simp
  rwa [hpoint] at hmix

end Box

end Arbor
