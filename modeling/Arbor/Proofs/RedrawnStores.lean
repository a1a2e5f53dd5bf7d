import Arbor.Proofs.StoreEdits

namespace Arbor

def Parameter.range {ν : Type} (p : Parameter ν) : String × ν × ν := (p.name, p.minimum, p.maximum)

namespace Rows

variable {ν : Type}

def ranges (rows : Rows ν) : List (String × ν × ν) := rows.map Parameter.range

theorem ranges_eq_iff {rows rows' : Rows ν} : rows.ranges = rows'.ranges ↔
    List.Forall₂ (fun p q => p.range = q.range) rows rows' := by
  have hequal : (rows.ranges = rows'.ranges) = List.Forall₂ (· = ·) rows.ranges rows'.ranges :=
    congrFun₂ List.forall₂_eq_eq_eq.symm _ _
  rw [hequal, ranges, ranges, List.forall₂_map_left_iff, List.forall₂_map_right_iff]

theorem ranges_of_redrawn [LE ν] {rows rows' : Rows ν}
    (h : List.Forall₂ Parameter.Redrawn rows rows') : rows'.ranges = rows.ranges := by
  induction h with
  | nil => rfl
  | cons hp _ ih =>
      refine congrArg₂ List.cons ?_ ih
      rcases hp with rfl | ⟨v, rfl, -⟩
      · rfl
      · rfl

/-- At most the value of the first parameter of that name is another one. -/
structure ChangedAt (name : String) (rows rows' : Rows ν) : Prop where
  ranges : rows'.ranges = rows.ranges
  others : ∀ i, i ≠ rows.names.idxOf name → rows'[i]? = rows[i]?

theorem changedAt_refl (name : String) (rows : Rows ν) : ChangedAt name rows rows where
  ranges := rfl
  others _ _ := rfl

theorem changedAt_put {rows : Rows ν} {p q : Parameter ν} (hfind : rows.find? q.name = some p)
    (h : q.range = p.range) : ChangedAt q.name rows (rows.put q) where
  ranges := by
    refine List.ext_getElem? fun i => ?_
    rw [Rows.ranges, Rows.ranges, List.getElem?_map, List.getElem?_map, getElem?_put]
    split
    next hi =>
      subst hi
      rw [← find?_eq_getElem?, hfind]
      exact congrArg some h
    next => rfl
  others i hi := by rw [getElem?_put, if_neg hi]

theorem changedAt_redrawn {rows drawn : Rows ν} {name : String}
    (h : drawn.ranges = ranges (rows.find? name).toList) :
    ChangedAt name rows (rows.putAll drawn) ∧ ((rows.putAll drawn).find? name).toList = drawn := by
  cases hfind : rows.find? name with
  | none =>
      rw [hfind] at h
      cases List.map_eq_nil_iff.mp h
      exact ⟨changedAt_refl name rows, congrArg Option.toList hfind⟩
  | some p =>
      rw [hfind] at h
      obtain ⟨q, rfl, hq⟩ := List.map_eq_singleton_iff.mp h
      have hname : q.name = name := (congrArg Prod.fst hq).trans (name_of_find? hfind)
      subst hname
      refine ⟨changedAt_put hfind hq, ?_⟩
      change ((rows.put q).find? q.name).toList = [q]
      rw [find?_put, if_pos rfl]
      rfl

end Rows

namespace Store

variable {α : Type} [Scalar α]

theorem drawDouble_congr {p q : Parameter α} (h : p.range = q.range) (g : Generator) :
    drawDouble p g = drawDouble q g := by
  obtain ⟨name, v, lo, hi⟩ := p
  obtain ⟨name', v', lo', hi'⟩ := q
  cases h
  rfl

omit [Scalar α] in
theorem drawInteger_congr {p q : Parameter Int64} (h : p.range = q.range) (g : Generator) :
    drawInteger (α := α) p g = drawInteger q g := by
  obtain ⟨name, v, lo, hi⟩ := p
  obtain ⟨name', v', lo', hi'⟩ := q
  cases h
  rfl

theorem drawDoubles_congr {rows rows' : Rows α} (h : rows.ranges = rows'.ranges) (g : Generator) :
    drawDoubles rows g = drawDoubles rows' g := by
  induction Rows.ranges_eq_iff.mp h generalizing g with
  | nil => rfl
  | cons hp hps ih => simp only [drawDoubles, drawDouble_congr hp, ih (Rows.ranges_eq_iff.mpr hps)]

omit [Scalar α] in
theorem drawIntegers_congr {rows rows' : Rows Int64} (h : rows.ranges = rows'.ranges)
    (g : Generator) : drawIntegers (α := α) rows g = drawIntegers rows' g := by
  induction Rows.ranges_eq_iff.mp h generalizing g with
  | nil => rfl
  | cons hp hps ih =>
      simp only [drawIntegers, drawInteger_congr hp, ih (Rows.ranges_eq_iff.mpr hps)]

theorem ranges_drawDoubles (rows : Rows α) (g : Generator) :
    (drawDoubles rows g).1.ranges = rows.ranges := by
  induction rows generalizing g with
  | nil => rfl
  | cons p ps ih => exact congrArg (p.range :: ·) (ih _)

theorem drawDoubles_append (v w : Rows α) (g : Generator) :
    (drawDoubles (v ++ w) g).1 = (drawDoubles v g).1 ++ (drawDoubles w (drawDoubles v g).2).1 := by
  induction v generalizing g with
  | nil => rfl
  | cons p ps ih => exact congrArg ((drawDouble p g).1 :: ·) (ih _)

omit [Scalar α] in
/-- Later integers are drawn from the place where the draws of the earlier ones end. -/
theorem drawIntegers_append {v w v' w' : Rows Int64} {g g' g'' : Generator}
    (hv : drawIntegers (α := α) v g = .ok (v', g'))
    (hw : drawIntegers (α := α) w g' = .ok (w', g'')) :
    drawIntegers (α := α) (v ++ w) g = .ok (v' ++ w', g'') := by
  induction v generalizing g v' with
  | nil =>
      cases hv
      exact hw
  | cons p ps ih =>
      rw [drawIntegers] at hv
      rw [List.cons_append, drawIntegers]
      obtain ⟨⟨q, k⟩, hdrawn, hrest⟩ := bind_eq_ok.mp hv
      obtain ⟨⟨qs, k'⟩, hdrawn', hend⟩ := bind_eq_ok.mp hrest
      cases hend
      refine bind_eq_ok.mpr ⟨(q, k), hdrawn, ?_⟩
      exact bind_eq_ok.mpr ⟨(qs ++ w', g''), ih hdrawn', rfl⟩

omit [Scalar α] in
theorem drawIntegers_ok {rows : Rows Int64} (h : ∀ p ∈ rows, p.Ordered) (g : Generator) :
    ∃ drawn g', drawIntegers (α := α) rows g = .ok (drawn, g') ∧ drawn.ranges = rows.ranges := by
  have hmeets := drawIntegers_meets (α := α) rows g
  cases hdrawn : drawIntegers (α := α) rows g with
  | error fault =>
      rw [hdrawn] at hmeets
      obtain ⟨-, p, hp, hinverted⟩ := hmeets
      exact absurd (h p hp) hinverted
  | ok drawn =>
      rw [hdrawn] at hmeets
      exact ⟨drawn.1, drawn.2, rfl, Rows.ranges_of_redrawn hmeets.1⟩

/-- The same names and ranges in the same order, with any values. -/
structure Alike (s t : Store α) : Prop where
  doubles : s.doubles.ranges = t.doubles.ranges
  integers : s.integers.ranges = t.integers.ranges

omit [Scalar α] in
theorem Alike.eq_empty {s t : Store α} (h : s.Alike t) (ht : t = empty) : s = empty := by
  obtain ⟨doubles, integers⟩ := s
  subst ht
  cases List.map_eq_nil_iff.mp h.doubles
  cases List.map_eq_nil_iff.mp h.integers
  rfl

omit [Scalar α] in
theorem Alike.ordered {s t : Store α} (h : s.Alike t) (hs : ∀ p ∈ s.integers, p.Ordered) :
    ∀ p ∈ t.integers, p.Ordered := by
  intro q hq
  have hrange : q.range ∈ s.integers.ranges := h.integers ▸ List.mem_map_of_mem hq
  obtain ⟨p, hp, he⟩ := List.mem_map.mp hrange
  have hordered := hs p hp
  obtain ⟨-, hminimum, hmaximum⟩ : p.name = q.name ∧ p.minimum = q.minimum ∧
      p.maximum = q.maximum := by simpa [Parameter.range] using he
  rwa [Parameter.Ordered, hminimum, hmaximum] at hordered

theorem randomize_ok {s : Store α} (h : ∀ p ∈ s.integers, p.Ordered) (seed : UInt64) :
    ∃ integers g, integers.ranges = s.integers.ranges ∧
      drawIntegers (α := α) s.integers (drawDoubles s.doubles (Generator.ofSeed seed)).2 =
        .ok (integers, g) ∧
      (randomize seed).on s =
        (.ok (), ⟨(drawDoubles s.doubles (Generator.ofSeed seed)).1, integers⟩) := by
  obtain ⟨integers, g, hdrawn, hranges⟩ :=
    drawIntegers_ok (α := α) h (drawDoubles s.doubles (Generator.ofSeed seed)).2
  refine ⟨integers, g, hranges, hdrawn, ?_⟩
  rw [on_randomize]
  dsimp only
  rw [hdrawn]

theorem randomize_congr {s t drawn : Store α} {seed : UInt64} (halike : s.Alike t)
    (h : (randomize seed).on s = (.ok (), drawn)) : (randomize seed).on t = (.ok (), drawn) := by
  rw [on_randomize] at h ⊢
  dsimp only at h ⊢
  rw [← drawDoubles_congr halike.doubles, ← drawIntegers_congr halike.integers]
  split at h
  next => exact h
  next => cases h

theorem exists_randomize {s : Store α} (h : ∀ p ∈ s.integers, p.Ordered) (seed : UInt64) :
    ∃ drawn : Store α, (randomize seed).on s = (.ok (), drawn) ∧ s.Alike drawn := by
  obtain ⟨integers, g, hranges, -, hrun⟩ := randomize_ok h seed
  exact ⟨_, hrun, (ranges_drawDoubles _ _).symm, hranges.symm⟩

theorem randomize_integers {s drawn : Store α} {seed : UInt64} (h : ∀ p ∈ s.integers, p.Ordered)
    (hdrawn : (randomize seed).on s = (.ok (), drawn)) {more : Rows Int64}
    (hmore : ∀ p ∈ more, p.Ordered) :
    ∃ more', more'.ranges = more.ranges ∧
      (randomize seed).on ⟨s.doubles, s.integers ++ more⟩ =
        (.ok (), ⟨drawn.doubles, drawn.integers ++ more'⟩) := by
  obtain ⟨integers, g, -, hintegers, hrun⟩ := randomize_ok h seed
  obtain ⟨more', g', hdrawn', hranges⟩ := drawIntegers_ok (α := α) hmore g
  rw [hrun] at hdrawn
  cases hdrawn
  refine ⟨more', hranges, ?_⟩
  rw [on_randomize]
  dsimp only
  rw [drawIntegers_append hintegers hdrawn']

theorem randomize_doubles {doubles : Rows α} {drawn : Store α} {seed : UInt64}
    (hdrawn : (randomize seed).on ⟨doubles, []⟩ = (.ok (), drawn)) (more : Rows α) :
    ∃ more', more'.ranges = more.ranges ∧
      (randomize seed).on ⟨doubles ++ more, []⟩ = (.ok (), ⟨drawn.doubles ++ more', []⟩) := by
  cases hdrawn
  refine ⟨_, ranges_drawDoubles more (drawDoubles doubles (Generator.ofSeed seed)).2, ?_⟩
  rw [← drawDoubles_append]
  rfl

omit [Scalar α] in
theorem named_eq_empty {s : Store α} {name : String} :
    s.named name = empty ↔ name ∉ s.doubles.names ∧ name ∉ s.integers.names := by
  simp [named, empty, Rows.find?, Rows.names]

theorem randomizeParameter_eq_missing_iff {s : Store α} {name : String} {seed : UInt64}
    (h : ∀ p ∈ (s.named name).integers, p.Ordered) :
    (randomizeParameter seed name).on s = (.error (.missingParameter .any name), s) ↔
      name ∉ s.doubles.names ∧ name ∉ s.integers.names := by
  rw [← named_eq_empty]
  refine ⟨fun hrun => ?_, fun hempty => randomizeParameter_missing hempty seed⟩
  by_contra hfound
  obtain ⟨drawn, hdrawn, -⟩ := exists_randomize h seed
  rw [on_randomizeParameter hfound, hdrawn] at hrun
  cases hrun

theorem randomizeParameter_ok {s : Store α} {name : String} (hname : s.named name ≠ empty)
    (h : ∀ p ∈ (s.named name).integers, p.Ordered) (seed : UInt64) :
    ∃ s' : Store α, (randomizeParameter seed name).on s = (.ok (), s') ∧
      s.doubles.ChangedAt name s'.doubles ∧ s.integers.ChangedAt name s'.integers ∧
      (randomize seed).on (s.named name) = (.ok (), s'.named name) := by
  obtain ⟨drawn, hdrawn, halike⟩ := exists_randomize h seed
  obtain ⟨hdoubles, hdouble⟩ := Rows.changedAt_redrawn halike.doubles.symm
  obtain ⟨hintegers, hinteger⟩ := Rows.changedAt_redrawn halike.integers.symm
  refine ⟨s.write drawn.doubles drawn.integers, ?_, hdoubles, hintegers, hdrawn.trans ?_⟩
  · rw [on_randomizeParameter hname, hdrawn]
  refine congrArg (Prod.mk _) (congrArg₂ Store.mk ?_ ?_)
  · exact hdouble.symm
  · exact hinteger.symm

/-- Stores with the same names and ranges become the same store, and what comes behind them does not
matter. For a single name only the ranges of that name count, and nothing else changes. -/
theorem draws_of_ranges (seed : UInt64) :
    (∀ s t : Store α, s.Alike t → (∀ p ∈ s.integers, p.Ordered) →
      ∃ drawn : Store α,
        (randomize seed).on s = (.ok (), drawn) ∧ (randomize seed).on t = (.ok (), drawn) ∧
        s.Alike drawn ∧ (randomize seed).on drawn = (.ok (), drawn) ∧
        (∀ more : Rows Int64, (∀ p ∈ more, p.Ordered) →
          ∃ more', more'.ranges = more.ranges ∧
            (randomize seed).on ⟨s.doubles, s.integers ++ more⟩ =
              (.ok (), ⟨drawn.doubles, drawn.integers ++ more'⟩)) ∧
        (s.integers = [] → ∀ more : Rows α, ∃ more', more'.ranges = more.ranges ∧
          (randomize seed).on ⟨s.doubles ++ more, []⟩ =
            (.ok (), ⟨drawn.doubles ++ more', []⟩))) ∧
    ∀ (name : String) (s t : Store α), (s.named name).Alike (t.named name) →
      (∀ p ∈ (s.named name).integers, p.Ordered) →
      ((randomizeParameter seed name).on s = (.error (.missingParameter .any name), s) ↔
        name ∉ s.doubles.names ∧ name ∉ s.integers.names) ∧
      (name ∈ s.doubles.names ∨ name ∈ s.integers.names →
        ∃ s' t' : Store α, (randomizeParameter seed name).on s = (.ok (), s') ∧
          (randomizeParameter seed name).on t = (.ok (), t') ∧
          s.doubles.ChangedAt name s'.doubles ∧ s.integers.ChangedAt name s'.integers ∧
          s'.named name = t'.named name) := by
  constructor
  · intro s t halike hordered
    obtain ⟨drawn, hdrawn, hagain⟩ := exists_randomize hordered seed
    refine ⟨_, hdrawn, randomize_congr halike hdrawn, hagain, randomize_congr hagain hdrawn,
      fun more hmore => randomize_integers hordered hdrawn hmore, ?_⟩
    obtain ⟨doubles, _⟩ := s
    rintro rfl more
    exact randomize_doubles hdrawn more
  · intro name s t halike hordered
    refine ⟨randomizeParameter_eq_missing_iff hordered, fun hname => ?_⟩
    have hs : s.named name ≠ empty := by
      rw [Ne, named_eq_empty]
      tauto
    have ht : t.named name ≠ empty := fun ht => hs (halike.eq_empty ht)
    obtain ⟨s', hs', hdoubles, hintegers, hdrawn⟩ := randomizeParameter_ok hs hordered seed
    obtain ⟨t', ht', -, -, hdrawn'⟩ := randomizeParameter_ok ht (halike.ordered hordered) seed
    rw [randomize_congr halike hdrawn] at hdrawn'
    exact ⟨s', t', hs', ht', hdoubles, hintegers, congrArg Prod.snd hdrawn'⟩

theorem draws_of_ranges_values :
    let s : Store Float := ⟨[⟨"angle", 30, 10, 60⟩], [⟨"levels", 2, 1, 6⟩]⟩
    let t : Store Float := ⟨[⟨"angle", 45, 10, 60⟩], [⟨"levels", 5, 1, 6⟩]⟩
    s.Alike t ∧ (∀ p ∈ s.integers, p.Ordered) ∧
      ∃ drawn, (randomize 7).on s = (.ok (), drawn) ∧ (randomize 7).on t = (.ok (), drawn) := by
  intro s t
  have halike : s.Alike t := by constructor <;> simp [Rows.ranges, Parameter.range, s, t]
  have hordered : ∀ p ∈ s.integers, p.Ordered := by
    intro p hp
    cases List.mem_singleton.mp hp
    exact Int64.le_of_lt (by decide)
  obtain ⟨drawn, hs, ht, -⟩ := (draws_of_ranges 7).1 s t halike hordered
  exact ⟨halike, hordered, drawn, hs, ht⟩

end Store

end Arbor
