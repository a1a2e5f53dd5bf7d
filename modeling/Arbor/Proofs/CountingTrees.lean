import Arbor.Proofs.StalkSuccessors
import Arbor.Proofs.WordDerivation

namespace Arbor

variable {α : Type} [Scalar α] {params : Store α} {overrun : Prop}

namespace Stochastic

open Word

/-- Nodes are nested at most as deep as there were generations. -/
def Aged (n : Nat) : Stochastic α → Prop
  | apex _ depth => 0 ≤ depth.toInt ∧ depth.toInt ≤ n
  | twig _ => True

omit [Scalar α] in
theorem start_meets : Meets (params.Excuses overrun) (Word.Sound (Aged 0)) (start params) := by
  refine Store.bind_integer fun seed _ => Store.bind_double fun width => ?_
  refine Store.bind_double fun rate => Store.bind_double fun height => ?_
  refine Store.bind_double fun orientation => Store.bind_double fun probability => ?_
  refine Meets.pure ⟨(wellFormed_iff _).mpr ⟨false, rfl⟩, ?_⟩
  intro p hp
  simp only [List.mem_append, Word.mem_op, Word.mem_grow, false_or] at hp
  rw [hp]
  exact ⟨Int.le_refl 0, Int.le_refl 0⟩

theorem regrow_meets (i : Instruction α) :
    Meets (params.Excuses overrun) (fun j => ∀ o : Outline, o.next? j = o.next? i)
      (Dialect.regrow Stochastic params i) := by
  cases i with
  | advance => exact Store.bind_double fun rate => Meets.pure fun _ => rfl
  | width _ rate =>
      cases rate with
      | none => exact Meets.pure fun _ => rfl
      | some rate => exact Meets.pure fun _ => rfl
  | _ => exact Meets.pure fun _ => rfl

omit [Scalar α] in
theorem shoot_sound {sort : Stochastic α → Prop} (angle scale : α) {p : Stochastic α}
    (hp : sort p) : (branch (op (.pitch angle) ++ op (.advance scale) ++ grow p)).Sound sort :=
  (((Sound.op fun _ => rfl).append (.op fun _ => rfl)).append (.grow hp)).branch

def spray (width rate towardsVertical scale angle roll₁ roll₂ : α) (p : Stochastic α) :
    Word Stochastic α :=
  let shoot := branch (op (.pitch angle) ++ op (.advance scale) ++ grow p)
  op (.width width (some rate)) ++ op (.verticate towardsVertical) ++ op (.advance scale) ++
    shoot ++ op (.roll roll₁) ++ shoot ++ op (.roll roll₂) ++ shoot

omit [Scalar α] in
theorem spray_sound {sort : Stochastic α → Prop} (width rate towardsVertical scale angle roll₁
    roll₂ : α) {p : Stochastic α} (hp : sort p) :
    (spray width rate towardsVertical scale angle roll₁ roll₂ p).Sound sort := by
  have hshoot := shoot_sound angle scale hp
  have hnode : Sound sort (op (.width width (some rate)) ++ op (.verticate towardsVertical) ++
      op (.advance scale)) :=
    .append (.append (.op fun _ => rfl) (.op fun _ => rfl)) (.op fun _ => rfl)
  have hone := hnode.append hshoot
  have htwo := (hone.append (.op (i := .roll roll₁) fun _ => rfl)).append hshoot
  exact (htwo.append (.op fun _ => rfl)).append hshoot

theorem twig_outcome (remaining : Int64) :
    Drawing.Meets (params.Excuses overrun)
      (fun w => if remaining < 0 then w = [] else
        ∃ width rate towardsVertical scale angle roll₁ roll₂,
          w = spray width rate towardsVertical scale angle roll₁ roll₂ (twig (remaining - 1)))
      (successor params (twig remaining)) := by
  refine Drawing.bind_double fun width => Drawing.bind_double fun rate => ?_
  refine Drawing.bind_double fun roll₁ => Drawing.bind_double fun roll₂ => ?_
  change Drawing.Meets _ _ (if remaining < 0 then _ else _)
  split
  next => exact Drawing.meets_pure rfl
  next =>
    refine Drawing.bind_double fun scale => Drawing.bind_double fun angle => ?_
    refine Drawing.bind_double fun towardsVertical => Drawing.meets_pure ?_
    exact ⟨width, rate, towardsVertical, scale, angle, roll₁, roll₂, rfl⟩

theorem successor_outcome {n : Nat} (p : Stochastic α) (hp : Aged n p) :
    Drawing.Meets (params.Excuses (¬ Calculation.Safe (calculations p)))
      (Word.Sound (Aged (n + 1))) (successor params p) := by
  cases p with
  | apex probability depth =>
      refine Drawing.bind_double fun width => Drawing.bind_double fun rate => ?_
      refine Drawing.bind_double fun roll₁ => Drawing.bind_double fun roll₂ => ?_
      refine Drawing.bind_double fun scale => Drawing.bind_double fun angle => ?_
      refine Drawing.bind_double fun reduction => Drawing.bind_integer fun leafDepth => ?_
      refine Drawing.bind_integer fun generations => ?_
      extract_lets shoot sprout
      rw [calculations, Calculation.safe_singleton]
      have hsprout : Drawing.Meets (params.Excuses (¬ (Calculation.sum depth 1).Fits))
          (Word.Sound (Aged (n + 1))) sprout := by
        refine Drawing.meets_uniform.bind fun u _ => ?_
        split
        · have hnext := Store.excuse_overflow (s := params) (Count.next_outcome depth) id
          refine (Drawing.meets_lift hnext).bind fun k ⟨hk, _⟩ => ?_
          refine Drawing.meets_pure (shoot_sound angle scale ⟨?_, ?_⟩)
          · rw [hk]
            exact Int.le_add_one hp.1
          · rw [hk]
            exact Int.add_le_add_right hp.2 1
        · split
          · exact Drawing.meets_pure (shoot_sound angle scale trivial)
          · exact Drawing.meets_pure Sound.nil.branch
      refine hsprout.bind fun first hfirst => hsprout.bind fun second hsecond => ?_
      refine hsprout.bind fun third hthird => Drawing.meets_pure ?_
      have hnode : Sound (Aged (n + 1)) (op (.width width (some rate)) ++ op (.advance scale)) :=
        .append (.op fun _ => rfl) (.op fun _ => rfl)
      have hone := hnode.append hfirst
      have htwo := (hone.append (.op (i := .roll roll₁) fun _ => rfl)).append hsecond
      exact (htwo.append (.op fun _ => rfl)).append hthird
  | twig remaining =>
      refine (twig_outcome remaining).mono (fun w hw => ?_) fun _ => id
      split at hw
      · exact hw ▸ .nil
      · obtain ⟨width, rate, towardsVertical, scale, angle, roll₁, roll₂, rfl⟩ := hw
        exact spray_sound width rate towardsVertical scale angle roll₁ roll₂ trivial

omit [Scalar α] in
theorem eq_maxValue_of_spills {p : Stochastic α} (h : ¬ Calculation.Safe (calculations p)) :
    ∃ probability, p = apex probability Int64.maxValue := by
  cases p with
  | apex probability depth =>
      rw [calculations, Calculation.safe_singleton] at h
      exact ⟨probability, congrArg _ (Count.eq_maxValue_of_unfit h)⟩
  | twig remaining => exact (h (safe_twig remaining)).elim

theorem successor_meets {m : Int64} {n : Nat} (hn : n < m.toNatClampNeg) (p : Stochastic α)
    (hp : Aged n p) :
    Drawing.Meets (params.Excuses overrun) (Word.Sound (Aged (n + 1))) (successor params p) := by
  refine (successor_outcome p hp).mono (fun _ => id) fun fault hfault => hfault.imp_right ?_
  rintro ⟨-, hspills⟩
  obtain ⟨probability, rfl⟩ := eq_maxValue_of_spills hspills
  have hdepth := hp.2
  have hm := m.toNatClampNeg_lt
  rw [Int64.toInt_maxValue] at hdepth
  omega

theorem sound : grammar.Sound params overrun :=
  Grammar.sound_of_tame Aged start_meets fun _ _ => ⟨fun _ hn => successor_meets hn, regrow_meets⟩

end Stochastic

namespace Helical

open Word

/-- Counts that the last generation but one subtracts do not fit into 64 bits. -/
def Overruns (params : Store α) : Prop :=
  ∃ stalks generations branchless steps,
    params.integer "stalkPoints" = .ok stalks ∧ 0 < stalks.toInt ∧
    params.integer "iterationNumber" = .ok generations ∧ 0 < generations.toInt ∧
    params.integer "branchlessPoints" = .ok branchless ∧
    Int64.maxValue.toInt < generations.toInt - 1 - branchless.toInt ∧
    params.integer "stepsBetweenSplit" = .ok steps ∧ steps ≠ 0

example : Overruns (Store.setInteger "branchlessPoints" Int64.minValue (defaults (α := Float))) :=
  ⟨8, 17, Int64.minValue, 4, rfl, by decide, rfl, by decide, rfl, by decide, rfl, by decide⟩

def Aged (params : Store α) (n : Nat) : Helical α → Prop
  | stalk _ _ _ count => count.toInt = n ∧
    ∃ stalks, params.integer "stalkPoints" = .ok stalks ∧ 0 < stalks.toInt
  | shoot _ _ => True

theorem start_meets :
    Meets (params.Excuses overrun) (Sound (Aged params 0)) (start params) := by
  refine Store.bind_integer fun stalks hstalks => Store.bind_double fun radius => ?_
  refine Store.bind_double fun inclination => Store.bind_double fun length => ?_
  refine Store.bind_double fun even => Store.bind_double fun odd => ?_
  refine Store.bind_double fun orientation => Meets.pure ?_
  refine .append (.op fun _ => rfl) (.flatMap fun i hi => .branch ?_)
  have hpos : 0 < stalks.toInt := by
    have hlt := List.mem_range.mp hi
    rw [Int64.toNatClampNeg] at hlt
    omega
  refine ⟨(wellFormed_iff _).mpr ⟨false, rfl⟩, ?_⟩
  intro p hp
  simp only [List.mem_append, mem_op, mem_grow, false_or] at hp
  rw [hp]
  exact ⟨rfl, stalks, hstalks, hpos⟩

theorem regrow_meets (i : Instruction α) :
    Meets (params.Excuses overrun) (fun j => ∀ o : Outline, o.next? j = o.next? i)
      (Dialect.regrow Helical params i) := by
  cases i <;> exact Meets.pure fun _ => rfl

omit [Scalar α] in
theorem overruns_of_spills {m count : Int64} {n : Nat} {c : Calculation}
    (hm : params.integer "iterationNumber" = .ok m) (hn : n < m.toNatClampNeg)
    (hcount : count.toInt = n)
    (hring : ∃ stalks, params.integer "stalkPoints" = .ok stalks ∧ 0 < stalks.toInt)
    (h : Spills params count c) : Overruns params := by
  have hgenerations : (n : Int) < m.toInt := by
    rw [Int64.toNatClampNeg] at hn
    omega
  rcases h with ⟨branchless, steps, hbranchless, hsteps, hzero, hover, -⟩ | ⟨hlast, -⟩
  · obtain ⟨stalks, hstalks, hpos⟩ := hring
    exact ⟨stalks, m, branchless, steps, hstalks, hpos, hm, by omega, hbranchless, by omega, hsteps,
      hzero⟩
  · have hmax := m.toInt_lt
    rw [hlast, Int64.toInt_maxValue] at hcount
    omega

theorem Sprouts.sound {p : Helical α} {w : Word Helical α} (h : Sprouts params p w) {n : Nat}
    (hp : Aged params n p) : w.Sound (Aged params (n + 1)) := by
  have hnext {count : Int64} {next : Helical α} (hcount : count.toInt = n)
      (hring : ∃ stalks, params.integer "stalkPoints" = .ok stalks ∧ 0 < stalks.toInt)
      (hrenews : Renews count next) (turning : α) :
      (Helical.onward turning next).Sound (Aged params (n + 1)) := by
    cases next with
    | stalk => exact .append (.op fun _ => rfl) (.grow ⟨by rw [hrenews, hcount]; rfl, hring⟩)
    | shoot => exact hrenews.elim
  have hsegment (rise w length : α) : (segment rise w length).Sound (Aged params (n + 1)) :=
    ((Sound.op fun _ => rfl).append (.op fun _ => rfl)).append (.op fun _ => rfl)
  cases h with
  | onward rise w turning next _ hrenews => exact (hsegment ..).append (hnext hp.1 hp.2 hrenews _)
  | sideShoot rise w turning roll pitch length' width' next _ hrenews =>
      have hshoot : (op (.roll roll) ++ op (.pitch pitch) ++
          grow (Helical.shoot length' width')).Sound (Aged params (n + 1)) :=
        ((Sound.op fun _ => rfl).append (.op fun _ => rfl)).append (.grow trivial)
      exact ((hsegment ..).append hshoot.branch).append (hnext hp.1 hp.2 hrenews _)
  | fork rise w turning up down next _ hrenews =>
      have hfork (pitch : α) := (Sound.op (i := .pitch pitch) fun _ => rfl).append
        (hnext hp.1 hp.2 hrenews turning)
      exact ((hsegment ..).append (hfork up).branch).append (hfork down).branch
  | shoot => exact ((Sound.op fun _ => rfl).append (.op fun _ => rfl)).append (.op fun _ => rfl)

theorem successor_meets {m : Int64} {n : Nat} (hm : params.integer "iterationNumber" = .ok m)
    (hn : n < m.toNatClampNeg) (p : Helical α) (hp : Aged params n p) :
    Meets (params.Excuses (Overruns params)) (Sound (Aged params (n + 1)))
      (successor params p) := by
  refine (successor_outcome p).mono (fun w hw => hw.1.sound hp) fun fault hfault => ?_
  refine hfault.imp_right fun ⟨hoverflow, hspills⟩ => ⟨hoverflow, ?_⟩
  obtain ⟨c, hc⟩ := Calculation.exists_firstUnfit hspills
  cases p with
  | stalk => exact overruns_of_spills hm hn hp.1 hp.2 (unfit_stalk hc)
  | shoot => cases hc

theorem replaceAll_aged {n : Nat} {w : Word Helical α} (hw : w.Sound (Aged params n)) :
    Drawing.Meets (fun _ => True) (Sound (Aged params (n + 1)))
      (Derivation.replaceAll params w) := by
  refine Derivation.replaceAll_sound (fun p hp => ?_) (fun i => ?_) hw
  · exact Drawing.meets_lift ((successor_sprouts p).mono (fun _ hv => hv.sound hp) fun _ => id)
  · exact Store.any_of_excused (regrow_meets i)

def HasStalk (n : Nat) (w : Word Helical α) : Prop :=
  ∃ length width angle, ∃ count : Int64,
    .production (stalk length width angle count) ∈ w ∧ count.toInt = n

namespace HasStalk

omit [Scalar α]
variable {n : Nat} {v w : Word Helical α}

theorem grow {length width angle : α} {count : Int64} (h : count.toInt = n) :
    HasStalk n (grow (stalk length width angle count)) :=
  ⟨length, width, angle, count, by simp, h⟩

theorem mono (h : HasStalk n v) (hw : ∀ s ∈ v, s ∈ w) : HasStalk n w := by
  obtain ⟨length, width, angle, count, hmem, hcount⟩ := h
  exact ⟨length, width, angle, count, hw _ hmem, hcount⟩

theorem flatMap {ι : Type} {is : List ι} {f : ι → Word Helical α} {i : ι} (hi : i ∈ is)
    (h : HasStalk n (f i)) : HasStalk n (is.flatMap f) :=
  h.mono fun _ hs => List.mem_flatMap.mpr ⟨i, hi, hs⟩

theorem append_right (h : HasStalk n w) : HasStalk n (v ++ w) :=
  h.mono fun _ => List.mem_append_right v

theorem branch (h : HasStalk n w) : HasStalk n w.branch :=
  h.mono fun _ hs => List.mem_append_left _ (List.mem_append_right _ hs)

end HasStalk

theorem Sprouts.hasStalk {length width angle : α} {count : Int64} {w : Word Helical α} {n : Nat}
    (h : Sprouts params (stalk length width angle count) w) (hcount : count.toInt = n) :
    HasStalk (n + 1) w := by
  have hnext {next : Helical α} (hrenews : Renews count next) (turning : α) :
      HasStalk (n + 1) (Helical.onward turning next) := by
    cases next with
    | stalk => exact (HasStalk.grow (by rw [hrenews, hcount]; rfl)).append_right
    | shoot => exact hrenews.elim
  cases h with
  | onward _ _ turning _ _ hrenews => exact (hnext hrenews turning).append_right
  | sideShoot _ _ turning _ _ _ _ _ _ hrenews => exact (hnext hrenews turning).append_right
  | fork _ _ turning _ _ _ _ hrenews =>
      exact (hnext hrenews turning).append_right.branch.append_right

/-- As long as the counts fit, a stalk is not in the last generation. -/
theorem successor_stalk {m branchless steps : Int64} {n : Nat}
    (hbranchless : params.integer "branchlessPoints" = .ok branchless)
    (hsteps : params.integer "stepsBetweenSplit" = .ok steps) (hzero : steps ≠ 0)
    (hover : Int64.maxValue.toInt < m.toInt - 1 - branchless.toInt) (hn : n < m.toNatClampNeg)
    (length width angle : α) {count : Int64} (hcount : count.toInt = n) :
    Meets (params.Excuses True)
      (fun w => n + 1 < m.toNatClampNeg ∧ HasStalk (n + 1) w)
      (successor params (stalk length width angle count)) := by
  refine (successor_outcome _).mono (fun w ⟨hw, hsafe⟩ => ⟨?_, hw.hasStalk hcount⟩) fun fault h =>
    h.imp_right fun h => ⟨h.1, trivial⟩
  by_contra hlast
  have hdiff : Int64.maxValue.toInt < count.toInt - branchless.toInt := by
    rw [Int64.toNatClampNeg] at hn hlast
    omega
  have hlt : branchless < count := by
    rw [Int64.lt_iff_toInt_lt]
    rw [Int64.toInt_maxValue] at hdiff
    omega
  have hfits : (Calculation.difference count branchless).Fits := by
    refine hsafe _ (List.mem_append_left _ ?_)
    rw [checks_eq hbranchless hsteps, if_pos ⟨hlt, hzero⟩]
    exact List.mem_cons_self
  exact Int.not_lt.mpr hfits.2 hdiff

theorem start_stalk {stalks : Int64} (hstalks : params.integer "stalkPoints" = .ok stalks)
    (hpos : 0 < stalks.toInt) :
    Meets (params.Excuses True) (HasStalk 0) (start params) := by
  refine Store.bind_integer fun n hn => Store.bind_double fun radius => ?_
  cases hstalks.symm.trans hn
  refine Store.bind_double fun inclination => Store.bind_double fun length => ?_
  refine Store.bind_double fun even => Store.bind_double fun odd => ?_
  refine Store.bind_double fun orientation => Meets.pure (HasStalk.append_right ?_)
  have hzero : 0 ∈ List.range stalks.toNatClampNeg := by
    rw [List.mem_range, Int64.toNatClampNeg]
    omega
  exact .flatMap hzero (HasStalk.grow rfl).append_right.branch

theorem fails_of_overruns (h : Overruns params) :
    Meets (fun _ => True) (fun _ => False) (grammar.start params >>= derive params) := by
  obtain ⟨stalks, m, branchless, steps, hstalks, hpos, hm, hgenerations, hbranchless, hover, hsteps,
    hzero⟩ := h
  have hstart := (start_stalk hstalks hpos).mono (fun _ => id) fun _ _ => trivial
  refine Meets.bind hstart fun w hw => ?_
  have hfirst : 0 < m.toNatClampNeg := by
    rw [Int64.toNatClampNeg]
    omega
  -- a word of generation `n` has a stalk that counts `n`, and the last generation has no word
  let inv (n : Nat) (w : Word Helical α) : Prop := n < m.toNatClampNeg ∧ HasStalk n w
  have hstep (n : Nat) (w : Word Helical α) (hinv : inv n w) :
      Drawing.Meets (fun _ => True) (inv (n + 1)) (Derivation.replaceAll params w) := by
    obtain ⟨hn, length, width, angle, count, hmem, hcount⟩ := hinv
    have hstalk := successor_stalk hbranchless hsteps hzero hover hn length width angle hcount
    intro g
    refine (Derivation.replaceAll_member hmem (Drawing.meets_lift (hstalk.mono (fun _ => id)
      fun _ _ => trivial)) g).mono ?_ fun _ => id
    rintro all ⟨v, ⟨hlt, hv⟩, hall⟩
    exact ⟨hlt, hv.mono hall⟩
  refine (derive_meets inv (fun _ _ => trivial) ⟨hfirst, hw⟩
    fun _ _ n w _ hinv => hstep n w hinv).mono ?_ fun _ => id
  rintro ⟨n, word⟩ ⟨⟨hlt, -⟩, m', hm', hn⟩
  cases hm.symm.trans hm'
  exact Nat.ne_of_lt hlt hn

theorem sound : grammar.Sound params (Overruns params) :=
  Grammar.sound_of_tame (Aged params) start_meets fun _ hm =>
    ⟨fun _ hn p hp => Drawing.meets_lift (successor_meets hm hn p hp),
      regrow_meets⟩

end Helical

end Arbor
