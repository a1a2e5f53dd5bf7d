import Arbor.Parameter.Document
import Arbor.Proofs.RoundedIntegers
import Arbor.Proofs.StoreRuns
import Arbor.Species.Plant

namespace Arbor

namespace Store

variable {α : Type} [Scalar α]

/-- A range in the wrong order that is accepted. -/
def Hidden (lo hi : Int64) : Prop := hi < lo ∧ (ofInteger lo : Float) ≤ ofInteger hi

instance (lo hi : Int64) : Decidable (Hidden lo hi) := inferInstanceAs (Decidable (_ ∧ _))

theorem not_le_iff {lo hi : Int64} :
    ¬ (ofInteger lo : Float) ≤ ofInteger hi ↔ hi < lo ∧ ¬ Hidden lo hi := by
  refine ⟨fun h => ?_, fun h hle => h.2 ⟨h.1, hle⟩⟩
  have hlt : hi < lo := by
    by_contra hle
    exact h (ofInteger_mono (Int64.not_lt.mp hle))
  exact ⟨hlt, fun hhidden => h hhidden.2⟩

theorem le_iff {lo hi : Int64} :
    (ofInteger lo : Float) ≤ ofInteger hi ↔ lo ≤ hi ∨ Hidden lo hi := by
  rw [← not_iff_not, not_le_iff, not_or, Int64.not_le]

theorem Hidden.large {lo hi : Int64} (h : Hidden lo hi) :
    2 ^ 53 < lo.toInt.natAbs ∨ 2 ^ 53 < hi.toInt.natAbs := by
  by_contra hsmall
  rw [not_or, not_lt, not_lt] at hsmall
  have hle := (ofInteger_exact hsmall.1 hsmall.2).mp h.2
  exact Int64.not_le.mpr h.1 hle

theorem inverted_setIntegerRange_iff (s : Store Float) (name : String) (lo hi : Int64) :
    ((setIntegerRange name lo hi).on s).1 =
        .error (.invertedRange name (ofInteger lo) (ofInteger hi)) ↔ hi < lo ∧ ¬ Hidden lo hi := by
  rw [← not_le_iff, on_setIntegerRange]
  split
  next hle =>
    split
    · exact iff_of_false nofun (not_not_intro hle)
    · exact iff_of_false nofun (not_not_intro hle)
  next hnot => exact iff_of_true rfl hnot

theorem accepts_setIntegerRange_iff (s : Store Float) (name : String) (lo hi : Int64) :
    ((setIntegerRange name lo hi).on s).1 = .ok () ↔
      lo ≤ hi ∨ Hidden lo hi ∧ ¬ s.containsInteger name := by
  rw [on_setIntegerRange]
  split
  next hle =>
    split
    next h =>
      exact iff_of_false nofun (not_or_intro (Int64.not_le.mpr h.1) fun hhidden => hhidden.2 h.2)
    next h =>
      refine iff_of_true rfl ((le_iff.mp hle).imp_right fun hhidden => ⟨hhidden, fun hthere => ?_⟩)
      exact h ⟨hhidden.1, hthere⟩
  next hnot =>
    obtain ⟨hlt, hhidden⟩ := not_le_iff.mp hnot
    exact iff_of_false nofun (not_or_intro (Int64.not_le.mpr hlt) fun h => hhidden h.1)

theorem panics_setIntegerRange_iff (s : Store Float) (name : String) (lo hi : Int64) :
    ((setIntegerRange name lo hi).on s).1 = .error .emptyInterval ↔
      Hidden lo hi ∧ s.containsInteger name := by
  rw [on_setIntegerRange]
  split
  next hle =>
    split
    next h => exact iff_of_true rfl ⟨⟨h.1, hle⟩, h.2⟩
    next h => exact iff_of_false nofun fun hhidden => h ⟨hhidden.1.1, hhidden.2⟩
  next hnot => exact iff_of_false nofun fun hhidden => hnot hhidden.1.2

theorem checkRange_eq_ok {name : String} {lo hi : α} :
    checkRange name lo hi = .ok () ↔ lo ≤ hi := by
  unfold checkRange
  split
  next h => exact iff_of_true rfl h
  next h => exact iff_of_false nofun h

theorem validate_eq_ok (s : Store Float) : s.validate = .ok () ↔
    (∀ p ∈ s.doubles, p.minimum ≤ p.maximum) ∧
      ∀ p ∈ s.integers, p.minimum ≤ p.maximum ∨ Hidden p.minimum p.maximum := by
  have hsteps : s.validate = .ok () ↔
      (s.doubles.forM fun p => checkRange p.name p.minimum p.maximum) = .ok () ∧
      (s.integers.forM fun p => checkRange (α := Float) p.name (ofInteger p.minimum)
        (ofInteger p.maximum)) = .ok () :=
    bind_eq_ok.trans ⟨fun ⟨⟨⟩, h⟩ => h, fun h => ⟨(), h⟩⟩
  simp only [hsteps, forM_eq_ok, checkRange_eq_ok, le_iff]

theorem ofDocument_eq_ok {text : String} {s : Store Float} : ofDocument text = .ok s ↔
    (Json.parse? text).bind ofJson? = some s ∧ s.validate = .ok () := by
  unfold ofDocument
  cases (Json.parse? text).bind ofJson? with
  | none => exact iff_of_false nofun nofun
  | some s' => exact checked_eq_ok validate

end Store

theorem Plant.ofDocument_eq_ok {σ : Type} [Species σ] {text : String} {p : Plant σ Float} :
    ofDocument text = .ok p ↔
      (Json.parse? text).bind ofJson? = some p ∧ p.parameters.validate = .ok () := by
  unfold ofDocument
  cases (Json.parse? text).bind (ofJson? (σ := σ)) with
  | none => exact iff_of_false nofun nofun
  | some p' => exact checked_eq_ok fun p : Plant σ Float => p.parameters.validate

namespace Operation

def Trips (s : Store Float) : Operation Float → Prop
  | setIntegerRange name lo hi => Store.Hidden lo hi ∧ s.containsInteger name
  | defineInteger _ _ lo hi => Store.Hidden lo hi
  | randomizeParameter _ name => ∃ p, s.integers.find? name = some p ∧ ¬ p.Ordered
  | randomize _ => ∃ p ∈ s.integers, ¬ p.Ordered
  | _ => False

def Hides (op : Operation Float) : Prop := ∃ lo hi, op.range? = some (lo, hi) ∧ Store.Hidden lo hi

theorem panics_iff (op : Operation Float) (s : Store Float) :
    (op.edit.on s).1 = .error .emptyInterval ↔ op.Trips s := by
  have hdouble (name : String) (lo hi : Float) (s : Store Float) :
      ((Store.setDoubleRange name lo hi).on s).1 ≠ .error .emptyInterval := by
    rw [Store.on_setDoubleRange]
    split
    · exact nofun
    · exact nofun
  cases op with
  | setDouble | setInteger => exact iff_of_false nofun nofun
  | setParameter name v =>
      cases v with
      | integer => exact iff_of_false nofun nofun
      | double => exact iff_of_false nofun nofun
  | setDoubleRange name lo hi => exact iff_of_false (hdouble name lo hi s) nofun
  | defineDouble name v lo hi => exact iff_of_false (hdouble name lo hi (s.setDouble name v)) nofun
  | setIntegerRange name lo hi => exact Store.panics_setIntegerRange_iff s name lo hi
  | defineInteger name v lo hi =>
      have hthere := s.containsInteger_setInteger name v
      rw [edit, Store.on_defineInteger, Store.panics_setIntegerRange_iff]
      exact and_iff_left hthere
  | randomizeParameter seed name => exact (Store.randomizeParameter_spec seed name s).1
  | randomize seed => exact (Store.randomize_spec seed s).1

theorem ordered_after {op : Operation Float} (hop : ¬ op.Hides) {s : Store Float}
    (h : ∀ p ∈ s.integers, p.Ordered) : ∀ p ∈ (op.after s).integers, p.Ordered := by
  refine (op.integers_change s).ordered (fun lo hi ⟨hrange, hle⟩ => ?_) h
  rcases Store.le_iff.mp hle with hle | hhidden
  · exact hle
  · exact absurd ⟨lo, hi, hrange, hhidden⟩ hop

theorem ordered_of_run {ops : List (Operation Float)} (hops : ∀ op ∈ ops, ¬ op.Hides)
    {s : Store Float} (h : ∀ p ∈ s.integers, p.Ordered) :
    ∀ p ∈ (ops.foldl (fun s op => op.after s) s).integers, p.Ordered := by
  -- no admitted range is hidden, so ranges stay in order step by step
  refine List.foldlRecOn (motive := fun s : Store Float => ∀ p ∈ s.integers, p.Ordered)
    ops _ h fun s h op hop => ?_
  exact ordered_after (hops op hop) h

theorem Trips.hides {op : Operation Float} {s : Store Float} (h : op.Trips s)
    (hs : ∀ p ∈ s.integers, p.Ordered) : op.Hides := by
  cases op with
  | setIntegerRange name lo hi => exact ⟨lo, hi, rfl, h.1⟩
  | defineInteger name v lo hi => exact ⟨lo, hi, rfl, h⟩
  | randomizeParameter seed name =>
      obtain ⟨p, hfind, hp⟩ := h
      exact absurd (hs p (List.mem_of_find?_eq_some hfind)) hp
  | randomize seed =>
      obtain ⟨p, hmem, hp⟩ := h
      exact absurd (hs p hmem) hp
  | setDouble | setInteger | setParameter | setDoubleRange | defineDouble => cases h

/-- A panic goes back to a hidden range, from the accepted store or from an operation. -/
theorem hidden_of_panic {s : Store Float} (hs : s.validate = .ok ())
    (ops : List (Operation Float)) (op : Operation Float)
    (h : (op.edit.on (ops.foldl (fun s op => op.after s) s)).1 = .error .emptyInterval) :
    (∃ p ∈ s.integers, Store.Hidden p.minimum p.maximum) ∨ ∃ o ∈ op :: ops, o.Hides := by
  by_contra hnone
  obtain ⟨hstored, hops⟩ := not_or.mp hnone
  push Not at hstored hops
  obtain ⟨hop, hops⟩ := List.forall_mem_cons.mp hops
  have hordered : ∀ p ∈ s.integers, p.Ordered := fun p hp =>
    ((s.validate_eq_ok.mp hs).2 p hp).resolve_right (hstored p hp)
  have htrips := (op.panics_iff _).mp h
  exact hop (htrips.hides (ordered_of_run hops hordered))

end Operation

namespace Store

theorem Hidden.panics {lo hi : Int64} (h : Hidden lo hi) (name : String) (seed : UInt64) :
    let ranged := (setIntegerRange name lo hi).on (empty : Store Float)
    ranged.1 = .ok () ∧ ((randomize seed).on ranged.2).1 = .error .emptyInterval := by
  have haccepted : (setIntegerRange name lo hi).on (empty : Store Float) =
      (.ok (), ⟨[], [⟨name, lo, lo, hi⟩]⟩) := by
    rw [on_setIntegerRange, if_pos h.2, if_neg]
    · rfl
    · exact fun hthere => nomatch hthere.2
  rw [haccepted]
  refine ⟨rfl, (randomize_spec seed _).1.mpr ?_⟩
  exact ⟨_, List.mem_cons_self, Int64.not_le.mpr h.1⟩

/-- A range in the wrong order gets past the checks if it is hidden, and not otherwise; a range in
order is never refused. Panics go back to hidden ranges, which have a bound beyond `2 ^ 53`; every
one of them can be stored, and panics once it is drawn from. -/
theorem faults_of_ranges (s : Store Float) (name : String) (v lo hi : Int64) (text : String)
    (ops : List (Operation Float)) (op : Operation Float) :
    (((setIntegerRange name lo hi).on s).1 =
        .error (.invertedRange name (ofInteger lo) (ofInteger hi)) ↔ hi < lo ∧ ¬ Hidden lo hi) ∧
    (((setIntegerRange name lo hi).on s).1 = .ok () ↔
      lo ≤ hi ∨ Hidden lo hi ∧ ¬ s.containsInteger name) ∧
    (((defineInteger name v lo hi).on s).1 =
        .error (.invertedRange name (ofInteger lo) (ofInteger hi)) ↔ hi < lo ∧ ¬ Hidden lo hi) ∧
    (((defineInteger name v lo hi).on s).1 = .ok () ↔ lo ≤ hi) ∧
    (s.validate = .ok () ↔ (∀ p ∈ s.doubles, p.minimum ≤ p.maximum) ∧
      ∀ p ∈ s.integers, p.minimum ≤ p.maximum ∨ Hidden p.minimum p.maximum) ∧
    (ofDocument text = .ok s ↔
      (Json.parse? text).bind ofJson? = some s ∧ s.validate = .ok ()) ∧
    (∀ (σ : Type) [Species σ] (p : Plant σ Float), Plant.ofDocument text = .ok p ↔
      (Json.parse? text).bind Plant.ofJson? = some p ∧ p.parameters.validate = .ok ()) ∧
    ((op.edit.on s).1 = .error .emptyInterval ↔ op.Trips s) ∧
    (s = empty ∨ s.validate = .ok () →
      (op.edit.on (ops.foldl (fun s op => op.after s) s)).1 = .error .emptyInterval →
      (∃ p ∈ s.integers, Hidden p.minimum p.maximum) ∨ ∃ o ∈ op :: ops, o.Hides) ∧
    (Hidden lo hi → (2 ^ 53 < lo.toInt.natAbs ∨ 2 ^ 53 < hi.toInt.natAbs) ∧
      ∀ seed : UInt64,
        let ranged := (setIntegerRange name lo hi).on (empty : Store Float)
        ranged.1 = .ok () ∧ ((randomize seed).on ranged.2).1 = .error .emptyInterval) := by
  refine ⟨?_, ?_, ?_, ?_, ?_, ?_, ?_, ?_, ?_, ?_⟩
  · exact inverted_setIntegerRange_iff s name lo hi
  · exact accepts_setIntegerRange_iff s name lo hi
  · exact inverted_setIntegerRange_iff (s.setInteger name v) name lo hi
  · have hthere := s.containsInteger_setInteger name v
    rw [on_defineInteger, accepts_setIntegerRange_iff]
    exact or_iff_left fun h => h.2 hthere
  · exact validate_eq_ok s
  · exact ofDocument_eq_ok
  · exact fun σ _ p => Plant.ofDocument_eq_ok
  · exact op.panics_iff s
  · rintro (rfl | hs) h
    · exact Operation.hidden_of_panic rfl ops op h
    · exact Operation.hidden_of_panic hs ops op h
  · exact fun h => ⟨h.large, h.panics name⟩

example : Hidden 9007199254740993 9007199254740992 := by decide

end Store

end Arbor
