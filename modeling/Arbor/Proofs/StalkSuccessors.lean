import Arbor.Proofs.Calculations

namespace Arbor.Helical

open Word

variable {α : Type} {params : Store α}

def SplitsAt (params : Store α) (c : Int) : Prop :=
  ∃ branchless ∈ (params.integer "branchlessPoints").toOption,
    ∃ steps ∈ (params.integer "stepsBetweenSplit").toOption,
      branchless.toInt < c ∧ steps ≠ 0 ∧ steps.toInt ∣ c - branchless.toInt

instance (c : Int) : Decidable (SplitsAt params c) :=
  inferInstanceAs (Decidable (∃ branchless ∈ (params.integer "branchlessPoints").toOption,
    ∃ steps ∈ (params.integer "stepsBetweenSplit").toOption,
      branchless.toInt < c ∧ steps ≠ 0 ∧ steps.toInt ∣ c - branchless.toInt))

def Simple (params : Store α) : Prop := (params.integer "simpleBranch").toOption = some 1

instance : Decidable (Simple params) :=
  inferInstanceAs (Decidable ((params.integer "simpleBranch").toOption = some 1))

theorem splitsAt_iff {branchless steps : Int64} {c : Int}
    (hbranchless : params.integer "branchlessPoints" = .ok branchless)
    (hsteps : params.integer "stepsBetweenSplit" = .ok steps) :
    SplitsAt params c ↔
      branchless.toInt < c ∧ steps ≠ 0 ∧ steps.toInt ∣ c - branchless.toInt := by
  simp [SplitsAt, hbranchless, hsteps, Except.toOption]

theorem simple_iff {simple : Int64} (h : params.integer "simpleBranch" = .ok simple) :
    Simple params ↔ simple = 1 := by
  simp [Simple, h, Except.toOption]

/-- The difference that is computed is positive, so the remainder behind it fits. -/
theorem safe_checks {count branchless steps : Int64} (hlt : branchless < count) (hsteps : steps ≠ 0)
    (hfits : (Calculation.difference count branchless).Fits) :
    Calculation.Safe
      [.difference count branchless, .remainder (count - branchless) steps] := by
  have hpos : 0 < (count - branchless).toInt := by
    have hexact := Calculation.toInt_result hfits
    have hlt := Int64.lt_iff_toInt_lt.mp hlt
    simp only [Calculation.result, Calculation.exact] at hexact
    omega
  have hmin : count - branchless ≠ Int64.minValue := by
    intro he
    rw [he] at hpos
    exact absurd hpos (by decide)
  exact List.forall_mem_cons.mpr
    ⟨hfits, List.forall_mem_singleton.mpr ⟨hsteps, fun hover => hmin hover.1⟩⟩

theorem splits?_outcome {branchless steps : Int64}
    (hbranchless : params.integer "branchlessPoints" = .ok branchless)
    (hsteps : params.integer "stepsBetweenSplit" = .ok steps) (count : Int64) :
    Meets (fun fault => fault = .overflow ∧ ¬ Calculation.Safe (checks params count))
      (fun split => (split = true ↔ SplitsAt params count.toInt) ∧
        Calculation.Safe (checks params count))
      (splits? count branchless steps : Except (Fault α) Bool) := by
  rw [splitsAt_iff hbranchless hsteps, checks_eq hbranchless hsteps]
  unfold splits?
  split
  next h =>
    have hlt := Int64.lt_iff_toInt_lt.mp h.1
    refine ((Count.ofInt_outcome _).mono (fun _ => id) fun fault hfault => ?_).map ?_
    · exact ⟨hfault.1, fun hsafe => hfault.2 (hsafe _ List.mem_cons_self)⟩
    · rintro grown ⟨hgrown, hfits⟩
      refine ⟨?_, safe_checks h.1 h.2 hfits⟩
      rw [beq_iff_eq, ← Int64.toInt_inj, Int64.toInt_mod, hgrown, Int64.toInt_zero,
        ← Int.dvd_iff_tmod_eq_zero]
      exact ⟨fun hdvd => ⟨hlt, h.2, hdvd⟩, fun hsplit => hsplit.2.2⟩
  next h =>
    refine ⟨iff_of_false nofun fun hsplit => h ⟨?_, hsplit.2.1⟩, Calculation.safe_nil⟩
    exact Int64.lt_iff_toInt_lt.mpr hsplit.1

/-- Where a stalk overflows: its difference is too great, or there is no next count. -/
def Spills (params : Store α) (count : Int64) (c : Calculation) : Prop :=
  (∃ branchless steps, params.integer "branchlessPoints" = .ok branchless ∧
    params.integer "stepsBetweenSplit" = .ok steps ∧ steps ≠ 0 ∧
    Int64.maxValue.toInt < count.toInt - branchless.toInt ∧ c = .difference count branchless) ∨
  count = Int64.maxValue ∧ c = .sum count 1

theorem unfit_checks {count : Int64} {c : Calculation}
    (h : Calculation.firstUnfit (checks params count) = some c) : Spills params count c := by
  unfold checks at h
  split at h
  next branchless steps hbranchless hsteps =>
    split at h
    next hguard =>
      have hunfit : ¬ (Calculation.difference count branchless).Fits := fun hfits => by
        rw [Calculation.firstUnfit_eq_none.mpr (safe_checks hguard.1 hguard.2 hfits)] at h
        cases h
      rw [Calculation.firstUnfit, List.find?_cons_of_pos (by simpa)] at h
      have hlt := Int64.lt_iff_toInt_lt.mp hguard.1
      have hover := Int.not_le.mp fun hle => hunfit ⟨?_, hle⟩
      · cases h
        exact .inl ⟨branchless, steps, hbranchless, hsteps, hguard.2, hover, rfl⟩
      · rw [Int64.toInt_minValue]
        omega
    next => cases h
  next => cases h

theorem unfit_stalk {length width angle : α} {count : Int64} {c : Calculation}
    (h : Calculation.firstUnfit (calculations params (stalk length width angle count)) = some c) :
    Spills params count c := by
  have hunfit := Calculation.not_fits_of_firstUnfit h
  rw [Calculation.firstUnfit, calculations, List.find?_append, Option.or_eq_some_iff] at h
  rcases h with h | ⟨-, h⟩
  · exact unfit_checks h
  · cases List.mem_singleton.mp (List.mem_of_find?_eq_some h)
    exact .inr ⟨Count.eq_maxValue_of_unfit hunfit, rfl⟩

variable [Scalar α]

def Clamped (params : Store α) (width : α) : Prop :=
  ∃ minimum, params.double "minimumWidth" = .ok minimum ∧
    ∃ w, width = Scalar.greater w minimum

def segment (rise width length : α) : Word Helical α :=
  op (.pitch rise) ++ op (.width width none) ++ op (.advance length)

def onward (turning : α) (p : Helical α) : Word Helical α := op (.turnLeft turning) ++ grow p

def Renews (count : Int64) : Helical α → Prop
  | stalk _ _ _ next => next.toInt = count.toInt + 1
  | shoot _ _ => False

/-- What can become of a production in one generation: a segment and a stalk behind it, two stalks,
or a stalk and a side shoot. A side shoot becomes a segment only. -/
inductive Sprouts (params : Store α) : Helical α → Word Helical α → Prop
  | onward {length width angle : α} {count : Int64} (rise w turning : α) (next : Helical α)
      (clamped : Clamped params w) (renews : Renews count next)
      (splits : ¬ SplitsAt params count.toInt) :
      Sprouts params (stalk length width angle count)
        (segment rise w length ++ onward turning next)
  | sideShoot {length width angle : α} {count : Int64}
      (rise w turning roll pitch length' width' : α) (next : Helical α)
      (clamped : Clamped params w) (renews : Renews count next)
      (splits : SplitsAt params count.toInt) (simple : Simple params) :
      Sprouts params (stalk length width angle count)
        (segment rise w length ++
          branch (op (.roll roll) ++ op (.pitch pitch) ++ grow (shoot length' width')) ++
          onward turning next)
  | fork {length width angle : α} {count : Int64} (rise w turning up down : α) (next : Helical α)
      (clamped : Clamped params w) (renews : Renews count next)
      (splits : SplitsAt params count.toInt) (simple : ¬ Simple params) :
      Sprouts params (stalk length width angle count)
        (segment rise w length ++ branch (op (.pitch up) ++ onward turning next) ++
          branch (op (.pitch down) ++ onward turning next))
  | shoot {length width : α} (w elongation : α) (clamped : Clamped params w) :
      Sprouts params (shoot length width)
        (op (.width w none) ++ op (.setLength length elongation) ++ op (.advance length))

theorem setWidth_clamps (width : α) :
    Meets params.Lacks (fun i => ∃ w, i = .width w none ∧ Clamped params w)
      (setWidth params width) :=
  Store.meets_double.bind fun minimum hminimum =>
    Meets.pure ⟨_, rfl, minimum, hminimum, width, rfl⟩

/-- Unless a parameter is missing, a production has successors exactly where its calculations
fit. -/
theorem successor_outcome (p : Helical α) :
    Meets (params.Excuses (¬ Calculation.Safe (calculations params p)))
      (fun w => Sprouts params p w ∧ Calculation.Safe (calculations params p))
      (successor params p) := by
  have hclamps (width : α) : Meets (params.Excuses (¬ Calculation.Safe (calculations params p)))
      (fun i => ∃ w, i = .width w none ∧ Clamped params w) (setWidth params width) :=
    (setWidth_clamps width).mono (fun _ => id) fun _ => .inl
  cases p with
  | shoot length width =>
      refine (hclamps width).bind ?_
      rintro _ ⟨w, rfl, hw⟩
      exact Store.bind_double fun elongation => Meets.pure ⟨.shoot w elongation hw, nofun⟩
  | stalk length width angle count =>
      refine Store.bind_integer fun branchless hbranchless => ?_
      refine Store.bind_integer fun steps hsteps => Store.bind_double fun turning => ?_
      refine Store.bind_double fun elongation => Store.bind_double fun contraction => ?_
      refine Store.bind_double fun branching => Store.bind_double fun rise => ?_
      refine (hclamps width).bind ?_
      rintro _ ⟨w, rfl, hw⟩
      rw [calculations, Calculation.safe_append, Calculation.safe_singleton]
      have hdecides := splits?_outcome hbranchless hsteps count
      refine (Store.excuse_overflow hdecides fun h hsafe => h hsafe.1).bind ?_
      rintro split ⟨hsplit, hchecks⟩
      have hnext : Meets (params.Excuses (¬ (Calculation.Safe (checks params count) ∧
          (Calculation.sum count 1).Fits))) _ (Count.next count) :=
        Store.excuse_overflow (Count.next_outcome count) fun h hsafe => h hsafe.2
      cases split with
      | false =>
          refine hnext.bind fun k hk => Meets.pure ⟨?_, hchecks, hk.2⟩
          exact .onward rise w turning (stalk _ _ _ k) hw hk.1 fun hs => nomatch hsplit.mpr hs
      | true =>
          refine Store.bind_integer fun simple hsimple => hnext.bind fun k hk => ?_
          have hsplits := hsplit.mp rfl
          split
          next h =>
            refine Meets.pure ⟨?_, hchecks, hk.2⟩
            exact .sideShoot rise w turning angle _ _ _ (stalk _ _ _ k) hw hk.1 hsplits
              ((simple_iff hsimple).mpr h)
          next h =>
            refine Meets.pure ⟨?_, hchecks, hk.2⟩
            exact .fork rise w turning angle (-angle) (stalk _ _ _ k) hw hk.1 hsplits
              ((simple_iff hsimple).not.mpr h)

theorem successor_sprouts (p : Helical α) :
    Meets (fun _ => True) (Sprouts params p) (successor params p) :=
  (successor_outcome p).mono (fun _ h => h.1) fun _ _ => trivial

end Arbor.Helical
