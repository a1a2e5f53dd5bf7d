import Arbor.Proofs.DrawnValues
import Arbor.Proofs.Outcomes
import Arbor.Proofs.WrittenRows

namespace Arbor

theorem Rows.redrawn_putAll {ν : Type} [LE ν] {rows drawn : Rows ν} {name : String}
    (h : List.Forall₂ Parameter.Redrawn (rows.find? name).toList drawn) :
    List.Forall₂ Parameter.Redrawn rows (rows.putAll drawn) := by
  cases hfind : rows.find? name with
  | none =>
      rw [hfind] at h
      cases h
      exact redrawn_refl rows
  | some p =>
      rw [hfind] at h
      obtain ⟨q, rest, hq, hnil, rfl⟩ := List.forall₂_cons_left_iff.mp h
      cases hnil
      cases hq.name.trans (name_of_find? hfind)
      exact upsert_redrawn hfind hq

namespace Store

variable {α : Type} [Scalar α]

theorem on_setDoubleRange (name : String) (minimum maximum : α) (s : Store α) :
    (setDoubleRange name minimum maximum).on s =
      if minimum ≤ maximum then
        (.ok (), { s with doubles := s.doubles.confine name minimum maximum })
      else (.error (.invertedRange name minimum maximum), s) := by
  unfold setDoubleRange checkRange
  split
  · rfl
  · rfl

theorem on_setIntegerRange (name : String) (minimum maximum : Int64) (s : Store α) :
    (setIntegerRange name minimum maximum).on s =
      if (ofInteger minimum : α) ≤ ofInteger maximum then
        if maximum < minimum ∧ s.containsInteger name then (.error .emptyInterval, s)
        else (.ok (), { s with integers := s.integers.confine name minimum maximum })
      else (.error (.invertedRange name (ofInteger minimum) (ofInteger maximum)), s) := by
  unfold setIntegerRange checkRange
  split
  · let write : Edit α Unit :=
      modify fun s => { s with integers := s.integers.confine name minimum maximum }
    change Edit.on (if (decide (maximum < minimum) && s.containsInteger name) = true
      then throw Fault.emptyInterval >>= fun _ => write else write) s = _
    simp only [Bool.and_eq_true, decide_eq_true_eq]
    split
    · rfl
    · rfl
  · rfl

omit [Scalar α] in
theorem containsInteger_iff (s : Store α) (name : String) :
    s.containsInteger name ↔ name ∈ s.integers.names := by
  simp [containsInteger, Rows.find?, Rows.names]

omit [Scalar α] in
theorem containsInteger_setInteger (s : Store α) (name : String) (v : Int64) :
    (s.setInteger name v).containsInteger name := by
  rw [containsInteger_iff]
  change name ∈ (s.integers.assign name v).names
  rw [Rows.names_assign]
  exact Rows.mem_addName name s.integers.names

theorem on_defineInteger (name : String) (v minimum maximum : Int64) (s : Store α) :
    (defineInteger name v minimum maximum).on s =
      (setIntegerRange name minimum maximum).on (s.setInteger name v) := rfl

theorem setDoubleRange_spec (name : String) (minimum maximum : α) (s : Store α) :
    let s' := ((setDoubleRange name minimum maximum).on s).2
    s'.integers = s.integers ∧ (s'.doubles = s.doubles ∨
      minimum ≤ maximum ∧ s'.doubles = s.doubles.confine name minimum maximum) := by
  rw [on_setDoubleRange]
  split
  next h => exact ⟨rfl, .inr ⟨h, rfl⟩⟩
  next => exact ⟨rfl, .inl rfl⟩

theorem setIntegerRange_spec (name : String) (minimum maximum : Int64) (s : Store α) :
    let s' := ((setIntegerRange name minimum maximum).on s).2
    s'.doubles = s.doubles ∧ (s'.integers = s.integers ∨
      (ofInteger minimum : α) ≤ ofInteger maximum ∧
        s'.integers = s.integers.confine name minimum maximum) := by
  rw [on_setIntegerRange]
  split
  next h =>
    split
    · exact ⟨rfl, .inl rfl⟩
    · exact ⟨rfl, .inr ⟨h, rfl⟩⟩
  next => exact ⟨rfl, .inl rfl⟩

theorem on_randomize (seed : UInt64) (s : Store α) :
    (randomize seed).on s =
      let drawn := drawDoubles s.doubles (Generator.ofSeed seed)
      match drawIntegers (α := α) s.integers drawn.2 with
      | .ok (integers, _) => (.ok (), ⟨drawn.1, integers⟩)
      | .error fault => (.error fault, s) := by
  change Edit.on (liftM (drawIntegers (α := α) s.integers
    (drawDoubles s.doubles (Generator.ofSeed seed)).2) >>= fun integers =>
      set (⟨(drawDoubles s.doubles (Generator.ofSeed seed)).1, integers.1⟩ : Store α)) s = _
  dsimp only
  cases drawIntegers (α := α) s.integers (drawDoubles s.doubles (Generator.ofSeed seed)).2 with
  | ok integers => rfl
  | error fault => rfl

omit [Scalar α] in
theorem drawInteger_meets (p : Parameter Int64) (g : Generator) :
    Meets (fun fault : Fault α => fault = .emptyInterval ∧ ¬ p.Ordered)
      (fun drawn => p.Redrawn drawn.1 ∧ p.Ordered) (drawInteger p g) := by
  unfold drawInteger
  cases h : g.integer p.minimum p.maximum with
  | none => exact ⟨rfl, Int64.not_le.mpr (Generator.integer_eq_none.mp h)⟩
  | some drawn =>
      have hmem := Generator.integer_mem h
      exact ⟨.inr ⟨drawn.1, rfl, fun _ => hmem⟩, Int64.le_trans hmem.1 hmem.2⟩

omit [Scalar α] in
theorem drawIntegers_meets (rows : Rows Int64) (g : Generator) :
    Meets (fun fault : Fault α => fault = .emptyInterval ∧ ∃ p ∈ rows, ¬ p.Ordered)
      (fun drawn => List.Forall₂ Parameter.Redrawn rows drawn.1 ∧ ∀ p ∈ rows, p.Ordered)
      (drawIntegers rows g) := by
  induction rows generalizing g with
  | nil => exact ⟨.nil, List.forall_mem_nil _⟩
  | cons p ps ih =>
      unfold drawIntegers
      refine ((drawInteger_meets p g).mono (fun _ => id) ?_).bind ?_
      · exact fun fault h => ⟨h.1, p, List.mem_cons_self, h.2⟩
      · rintro ⟨q, g⟩ ⟨hpq, hp⟩
        refine ((ih g).mono (fun _ => id) ?_).bind ?_
        · exact fun fault ⟨hfault, r, hr, hinverted⟩ =>
            ⟨hfault, r, List.mem_cons_of_mem _ hr, hinverted⟩
        · exact fun drawn ⟨hps, hordered⟩ =>
            ⟨.cons hpq hps, List.forall_mem_cons.mpr ⟨hp, hordered⟩⟩

theorem randomize_spec (seed : UInt64) (s : Store α) :
    let drawn := (randomize seed).on s
    (drawn.1 = .error .emptyInterval ↔ ∃ p ∈ s.integers, ¬ p.Ordered) ∧
      List.Forall₂ Parameter.Redrawn s.integers drawn.2.integers ∧
      (drawn.2.doubles = s.doubles ∨ ∃ g, drawn.2.doubles = (drawDoubles s.doubles g).1) := by
  have hmeets := drawIntegers_meets (α := α) s.integers
    (drawDoubles s.doubles (Generator.ofSeed seed)).2
  rw [on_randomize]
  dsimp only
  cases hdrawn : drawIntegers (α := α) s.integers
      (drawDoubles s.doubles (Generator.ofSeed seed)).2 with
  | ok drawn =>
      rw [hdrawn] at hmeets
      refine ⟨iff_of_false nofun ?_, hmeets.1, .inr ⟨_, rfl⟩⟩
      rintro ⟨p, hp, hinverted⟩
      exact hinverted (hmeets.2 p hp)
  | error fault =>
      rw [hdrawn] at hmeets
      obtain ⟨rfl, hinverted⟩ := hmeets
      exact ⟨iff_of_true rfl hinverted, Rows.redrawn_refl _, .inl rfl⟩

omit [Scalar α] in
theorem on_get_bind (f : Store α → Edit α Unit) (s : Store α) :
    Edit.on (get >>= f) s = (f s).on s := rfl

def named (s : Store α) (name : String) : Store α :=
  ⟨(s.doubles.find? name).toList, (s.integers.find? name).toList⟩

theorem randomizeParameter_missing {s : Store α} {name : String} (h : s.named name = empty)
    (seed : UInt64) :
    (randomizeParameter seed name).on s = (.error (.missingParameter .any name), s) := by
  obtain ⟨hdouble, hinteger⟩ := Store.mk.inj h
  rw [randomizeParameter, on_get_bind, Option.toList_eq_nil_iff.mp hdouble,
    Option.toList_eq_nil_iff.mp hinteger]
  rfl

omit [Scalar α] in
theorem on_drawNamed (p : Parameter Int64) (g : Generator) (doubles : Rows α) (s : Store α) :
    Edit.on (liftM (drawInteger (α := α) p g) >>= fun drawn =>
      set (⟨doubles, s.integers.upsert p.name (fun _ => drawn.1) drawn.1⟩ : Store α)) s =
        match drawIntegers (α := α) [p] g with
        | .ok (integers, _) => (.ok (), ⟨doubles, s.integers.putAll integers⟩)
        | .error fault => (.error fault, s) := by
  have hmeets := drawInteger_meets (α := α) p g
  unfold drawIntegers
  cases hdrawn : drawInteger (α := α) p g with
  | error fault => rfl
  | ok drawn =>
      rw [hdrawn] at hmeets
      have hname : drawn.1.name = p.name := Parameter.Redrawn.name hmeets.1
      rw [← hname]
      rfl

/-- To draw for a name is to draw the parameters that are found under it, and to write them back. -/
theorem on_randomizeParameter {s : Store α} {name : String} (h : s.named name ≠ empty)
    (seed : UInt64) :
    (randomizeParameter seed name).on s = match (randomize seed).on (s.named name) with
      | (.ok _, drawn) => (.ok (), s.write drawn.doubles drawn.integers)
      | (.error fault, _) => (.error fault, s) := by
  rw [randomizeParameter, on_get_bind, on_randomize]
  unfold named at h ⊢
  cases hinteger : s.integers.find? name with
  | none =>
      cases hdouble : s.doubles.find? name with
      | none =>
          rw [hdouble, hinteger] at h
          exact absurd rfl h
      | some d =>
          cases Rows.name_of_find? hdouble
          rfl
  | some i =>
      cases Rows.name_of_find? hinteger
      cases hdouble : s.doubles.find? i.name with
      | none =>
          refine (on_drawNamed i (Generator.ofSeed seed) s.doubles s).trans ?_
          simp only [Option.toList_none, Option.toList_some, drawDoubles]
          rcases drawIntegers (α := α) [i] (Generator.ofSeed seed) with fault | ⟨integers, g⟩
          · rfl
          · rfl
      | some d =>
          let drawn := drawDouble d (Generator.ofSeed seed)
          have hput : s.doubles.upsert i.name (fun _ => drawn.1) drawn.1 = s.doubles.put drawn.1 :=
            congrArg (s.doubles.upsert · (fun _ => drawn.1) drawn.1)
              (Rows.name_of_find? hdouble).symm
          refine (on_drawNamed i drawn.2 (s.doubles.upsert i.name (fun _ => drawn.1) drawn.1)
            s).trans ?_
          rw [hput]
          simp only [Option.toList_some, drawDoubles]
          rcases drawIntegers (α := α) [i] drawn.2 with fault | ⟨integers, g⟩
          · rfl
          · rfl

theorem randomizeParameter_spec (seed : UInt64) (name : String) (s : Store α) :
    let drawn := (randomizeParameter seed name).on s
    (drawn.1 = .error .emptyInterval ↔ ∃ p, s.integers.find? name = some p ∧ ¬ p.Ordered) ∧
      List.Forall₂ Parameter.Redrawn s.integers drawn.2.integers ∧
      (drawn.2.doubles = s.doubles ∨ ∃ p g, s.doubles.find? name = some p ∧
        drawn.2.doubles =
          s.doubles.upsert name (fun _ => (drawDouble p g).1) (drawDouble p g).1) := by
  have hfound : (∃ p ∈ (s.named name).integers, ¬ p.Ordered) ↔
      ∃ p, s.integers.find? name = some p ∧ ¬ p.Ordered := by simp [named]
  by_cases h : s.named name = empty
  · rw [randomizeParameter_missing h, ← hfound, h]
    exact ⟨iff_of_false nofun nofun, Rows.redrawn_refl _, .inl rfl⟩
  · obtain ⟨houtcome, hintegers, hdoubles⟩ := randomize_spec seed (s.named name)
    rw [on_randomizeParameter h, ← hfound]
    generalize (randomize seed).on (s.named name) = r at houtcome hintegers hdoubles ⊢
    obtain ⟨fault | _, drawn⟩ := r
    · exact ⟨houtcome, Rows.redrawn_refl _, .inl rfl⟩
    · refine ⟨houtcome, Rows.redrawn_putAll hintegers, ?_⟩
      change drawn.doubles = (s.doubles.find? name).toList ∨
        ∃ g, drawn.doubles = (drawDoubles (s.doubles.find? name).toList g).1 at hdoubles
      change s.doubles.putAll drawn.doubles = _ ∨ ∃ p g, _ ∧ s.doubles.putAll drawn.doubles = _
      cases hfind : s.doubles.find? name with
      | none =>
          rw [hfind] at hdoubles
          obtain hdoubles | ⟨g, hdoubles⟩ := hdoubles
          · exact .inl (by rw [hdoubles]; rfl)
          · exact .inl (by rw [hdoubles]; rfl)
      | some d =>
          cases Rows.name_of_find? hfind
          rw [hfind] at hdoubles
          obtain hdoubles | ⟨g, hdoubles⟩ := hdoubles
          · exact .inl (by rw [hdoubles]; exact Rows.put_eq_self_iff.mpr hfind)
          · exact .inr ⟨d, g, rfl, by rw [hdoubles]; rfl⟩

theorem drawDouble_redrawn (p : Parameter ℝ) (g : Generator) : p.Redrawn (drawDouble p g).1 := by
  refine .inr ⟨_, rfl, fun hordered => ?_⟩
  obtain ⟨hlo, hhi⟩ := g.uniform_mem
  have hspan : 0 ≤ p.maximum - p.minimum := sub_nonneg.mpr hordered
  constructor
  · have hstep := mul_nonneg hlo hspan
    change p.minimum ≤ p.minimum + (g.uniform (α := ℝ)).1 * (p.maximum - p.minimum)
    linarith
  · have hstep := mul_le_of_le_one_left hspan hhi.le
    change p.minimum + (g.uniform (α := ℝ)).1 * (p.maximum - p.minimum) ≤ p.maximum
    linarith

theorem drawDoubles_redrawn (rows : Rows ℝ) (g : Generator) :
    List.Forall₂ Parameter.Redrawn rows (drawDoubles rows g).1 := by
  induction rows generalizing g with
  | nil => exact .nil
  | cons p ps ih => exact .cons (drawDouble_redrawn p g) (ih _)

end Store

end Arbor
