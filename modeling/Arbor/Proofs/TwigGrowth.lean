import Arbor.Proofs.SeededDraws

namespace Arbor

theorem advances_append {α : Type} (p q : List (Instruction α)) :
    advances (p ++ q) = advances p + advances q :=
  List.countP_append

variable {α : Type} [Scalar α] {params : Store α}

namespace Stochastic

open Word Arbor.Derivation

def twigs (w : Word Stochastic α) : Nat :=
  w.countP fun
    | .production (twig _) => true
    | _ => false

omit [Scalar α] in
theorem twigs_append (v w : Word Stochastic α) : twigs (v ++ w) = twigs v + twigs w :=
  List.countP_append

def lifetime (n : Int64) : Nat := (n.toInt + 1).toNat

/-- A twig that another one, with `n` generations to go, has become after `m` generations. -/
def Aging (n : Int64) (m : Nat) : Stochastic α → Prop
  | twig remaining => remaining.toInt = n.toInt - m ∧ m ≤ lifetime n
  | apex _ _ => False

omit [Scalar α] in
theorem Aging.forks_iff {n remaining : Int64} {m : Nat}
    (h : Aging n m (twig remaining : Stochastic α)) : ¬ remaining < 0 ↔ m < lifetime n := by
  obtain ⟨hcount, hle⟩ := h
  rw [Int64.lt_iff_toInt_lt, hcount, Int64.toInt_zero]
  unfold lifetime at hle ⊢
  omega

omit [Scalar α] in
theorem Aging.next {n remaining : Int64} {m : Nat}
    (h : Aging n m (twig remaining : Stochastic α)) (hforks : ¬ remaining < 0) :
    Aging n (m + 1) (twig (remaining - 1) : Stochastic α) := by
  have hsafe := safe_twig (α := α) remaining
  rw [calculations, if_neg hforks, Calculation.safe_singleton] at hsafe
  have hexact := Calculation.toInt_result hsafe
  refine ⟨?_, h.forks_iff.mp hforks⟩
  have hone : (1 : Int64).toInt = 1 := rfl
  simp only [Calculation.result, Calculation.exact, hone] at hexact
  rw [hexact, h.1]
  omega

/-- What becomes of a twig, where all twigs of its generation fork or none. -/
theorem twig_becomes {n remaining : Int64} {m : Nat}
    (h : Aging n m (twig remaining : Stochastic α)) :
    Drawing.Meets (fun _ => True)
      (fun w => w.Sound (Aging n (m + 1)) ∧
        twigs w = (if m < lifetime n then 3 else 0) ∧
        advances w.program = if m < lifetime n then 4 else 0)
      (successor params (twig remaining)) := by
  refine (Drawing.any_of_excused (twig_outcome remaining)).mono (fun w hw => ?_) fun _ => id
  by_cases hover : remaining < 0
  · have hlast : ¬ m < lifetime n := fun hlt => h.forks_iff.mpr hlt hover
    rw [if_pos hover] at hw
    rw [if_neg hlast, if_neg hlast, hw]
    exact ⟨.nil, rfl, rfl⟩
  · rw [if_neg hover] at hw
    obtain ⟨width, rate, towardsVertical, scale, angle, roll₁, roll₂, rfl⟩ := hw
    rw [if_pos (h.forks_iff.mp hover), if_pos (h.forks_iff.mp hover)]
    exact ⟨spray_sound width rate towardsVertical scale angle roll₁ roll₂ (h.next hover), rfl, rfl⟩

/-- A word that a twig with `n` generations to go has become after `m` generations. -/
structure Twiggy (n : Int64) (m : Nat) (w : Word Stochastic α) : Prop where
  sound : w.Sound (Aging n m)
  twigs : m ≤ lifetime n → twigs w = 3 ^ m
  advances : advances w.program = 2 * (3 ^ min m (lifetime n) - 1)

omit [Scalar α] in
theorem twiggy_start (n : Int64) : Twiggy n 0 (grow (twig n) : Word Stochastic α) :=
  ⟨.grow ⟨by simp, Nat.zero_le _⟩, fun _ => rfl, by simp [advances]⟩

theorem regrow_advances (i : Instruction α) :
    Meets (fun _ => True) (fun j => advances [j] = advances [i])
      (Dialect.regrow Stochastic params i) := by
  cases i with
  | advance => exact Meets.bind_any fun rate => Meets.pure rfl
  | width _ rate => cases rate <;> exact Meets.pure rfl
  | _ => exact Meets.pure rfl

theorem replaceAll_twigs {n : Int64} {m : Nat} {w : Word Stochastic α}
    (hw : w.Sound (Aging n m)) :
    Drawing.Meets (fun _ => True)
      (fun w' => twigs w' = (if m < lifetime n then 3 else 0) * twigs w ∧
        advances w'.program = advances w.program + (if m < lifetime n then 4 else 0) * twigs w)
      (replaceAll params w) := by
  let rel (v v' : Word Stochastic α) : Prop :=
    twigs v' = (if m < lifetime n then 3 else 0) * twigs v ∧
      advances v'.program = advances v.program + (if m < lifetime n then 4 else 0) * twigs v
  have happend (v v' w w' : Word Stochastic α) (hv : rel v v') (hw : rel w w') :
      rel (v ++ w) (v' ++ w') := by
    constructor
    · rw [twigs_append, twigs_append, hv.1, hw.1, Nat.mul_add]
    · rw [program_append, program_append, advances_append, advances_append, hv.2, hw.2,
        twigs_append, Nat.mul_add, Nat.add_add_add_comm]
  refine replaceAll_relates rel ⟨rfl, rfl⟩ happend w (fun _ => ⟨rfl, rfl⟩)
    (fun i _ => ?_) fun p hp => ?_
  · exact (regrow_advances i).mono (fun j hj => ⟨rfl, hj⟩) fun _ => id
  · cases p with
    | apex => exact (hw.productions _ hp).elim
    | twig remaining =>
        refine (twig_becomes (hw.productions _ hp)).mono (fun v hv => ?_) fun _ => id
        have hone : twigs (grow (twig remaining : Stochastic α)) = 1 := rfl
        constructor
        · rw [hone, Nat.mul_one, hv.2.1]
        · rw [hone, Nat.mul_one, hv.2.2]
          exact (Nat.zero_add _).symm

theorem replaceAll_aging {n : Int64} {m : Nat} {w : Word Stochastic α}
    (hw : w.Sound (Aging n m)) :
    Drawing.Meets (fun _ => True) (Sound (Aging n (m + 1))) (replaceAll params w) := by
  refine replaceAll_sound (fun p hp => ?_) (fun i => ?_) hw
  · cases p with
    | apex => exact hp.elim
    | twig remaining => exact (twig_becomes hp).mono (fun _ hv => hv.1) fun _ => id
  · exact Store.any_of_excused (regrow_meets i)

theorem Twiggy.step {n : Int64} {m : Nat} {w : Word Stochastic α} (h : Twiggy n m w) :
    Drawing.Meets (fun _ => True) (Twiggy n (m + 1)) (replaceAll params w) := by
  refine ((replaceAll_aging h.sound).and (replaceAll_twigs h.sound)).mono ?_ fun _ => id
  rintro v ⟨hsound, htwigs, hadvances⟩
  refine ⟨hsound, fun hle => ?_, ?_⟩
  · have hlt : m < lifetime n := hle
    rw [htwigs, if_pos hlt, h.twigs hlt.le, Nat.pow_succ, Nat.mul_comm]
  · rw [hadvances, h.advances]
    by_cases hlt : m < lifetime n
    · have hpos : 0 < 3 ^ m := Nat.pow_pos (by decide)
      rw [if_pos hlt, h.twigs hlt.le, Nat.min_eq_left hlt.le, Nat.min_eq_left hlt, Nat.pow_succ]
      omega
    · have hle := Nat.not_lt.mp hlt
      rw [if_neg hlt, Nat.min_eq_right hle, Nat.min_eq_right (Nat.le_succ_of_le hle)]
      simp

omit [Scalar α] in
theorem drawn_of_aging {n : Int64} {m : Nat} {w : Word Stochastic α}
    (h : ∀ p, .production p ∈ w → Aging n m p) : drawn w = 0 := by
  induction w with
  | nil => rfl
  | cons s rest ih =>
      have hrest := ih fun p hp => h p (List.mem_cons_of_mem _ hp)
      cases s with
      | instruction => exact (Nat.zero_add _).trans hrest
      | production p =>
          cases p with
          | twig => exact (Nat.zero_add _).trans hrest
          | apex => exact (h _ List.mem_cons_self).elim

theorem replaceAll_over {n : Int64} (hn : n < 0) {w : Word Stochastic α}
    (hw : ∀ s ∈ w, s = .production (twig n)) :
    Drawing.Meets (fun _ => True) (fun w' => w' = []) (replaceAll params w) := by
  refine replaceAll_relates (fun _ w' => w' = []) rfl (fun _ v' _ w' hv hw => ?_) w
    (fun _ => rfl) (fun i hi => nomatch hw _ hi) fun p hp => ?_
  · rw [hv, hw, List.append_nil]
  · cases hw _ hp
    refine (Drawing.any_of_excused (twig_outcome n)).mono (fun v hv => ?_) fun _ => id
    rwa [if_pos hn] at hv

variable {n : Int64} {m : Nat} {g : Generator} {l : LSystem Stochastic α}

theorem nil_of_over (hgrown : LSystem.after params m (grow (twig n)) g = (.ok (), l)) (hn : n < 0)
    (hm : 1 ≤ m) : l.word = [] := by
  let inv (m : Nat) (w : Word Stochastic α) : Prop :=
    (∀ s ∈ w, s = .production (twig n)) ∧ (1 ≤ m → w = [])
  have hstart : inv 0 (grow (twig n)) := ⟨fun s hs => List.mem_singleton.mp hs, nofun⟩
  refine (LSystem.after_keeps inv hgrown hstart fun k w hw => ?_).2 hm
  refine (replaceAll_over hn hw.1).mono (fun v hv => ?_) fun _ => id
  rw [hv]
  exact ⟨nofun, fun _ => rfl⟩

theorem generator_of_twig (hgrown : LSystem.after params m (grow (twig n)) g = (.ok (), l)) :
    l.generator = g := by
  let inv (k : Nat) (l : LSystem Stochastic α) : Prop :=
    l.word.Sound (Aging n k) ∧ l.word.Seedless ∧ l.generator = g
  have hstart : inv 0 { word := grow (twig n), generator := g } :=
    ⟨(twiggy_start n).sound, seedless_grow _, rfl⟩
  refine (LSystem.iterate_keeps inv hgrown hstart fun k l l' hl hstep => ?_).2.2
  obtain ⟨hsound, hseedless, hplace⟩ := hl
  obtain ⟨hseedless', hgenerator⟩ := step_generator hseedless hstep
  have haging : Drawing.Meets _ _ (replaceAll params l.word) := replaceAll_aging hsound
  have hnext := haging l.generator
  rw [LSystem.step_eq_ok hstep] at hnext
  refine ⟨hnext, hseedless', ?_⟩
  rw [hgenerator, drawn_of_aging hsound.productions, hplace]
  rfl

/-- What a single twig has become after `m` generations is balanced, and nothing was drawn for it.
With a negative count it is gone after a generation. Otherwise it has become `3 ^ m` twigs as long
as they fork; one generation later there is no production any more, and from the last fork on the
number of segments is known. -/
theorem twigs_of_generations
    (hgrown : LSystem.after params m (grow (twig n)) g = (.ok (), l)) :
    WellBracketed l.word.program ∧ l.generator = g ∧
      (n < 0 → 1 ≤ m → l.word = []) ∧
      (0 ≤ n →
        (m ≤ n.toInt + 1 → twigs l.word = 3 ^ m) ∧
        (n.toInt + 2 ≤ m → ∀ p, .production p ∉ l.word) ∧
        (n.toInt + 1 ≤ m → advances l.word.program = 2 * (3 ^ (n.toInt + 1).toNat - 1))) := by
  have htwiggy := LSystem.after_keeps _ hgrown (twiggy_start n) fun _ _ => Twiggy.step
  refine ⟨htwiggy.sound.program.toWellBracketed, generator_of_twig hgrown, nil_of_over hgrown, ?_⟩
  intro hn
  have hpos := Int64.le_iff_toInt_le.mp hn
  rw [Int64.toInt_zero] at hpos
  have hlifetime : (lifetime n : Int) = n.toInt + 1 := Int.toNat_of_nonneg (by omega)
  refine ⟨fun hle => htwiggy.twigs (by omega), fun hlate p hp => ?_, fun hlate => ?_⟩
  · have haging := htwiggy.sound.productions p hp
    cases p with
    | twig =>
        have hle := haging.2
        omega
    | apex => exact haging
  · rw [htwiggy.advances, Nat.min_eq_right (by omega)]
    rfl

theorem twigs_of_generations_two :
    ∃ l, LSystem.after (defaults (α := Float)) 2 (grow (twig 1)) (Generator.ofSeed 0) =
      (.ok (), l) ∧ advances l.word.program = 16 := by
  obtain ⟨l, hgrown⟩ : ∃ l, LSystem.after (defaults (α := Float)) 2 (grow (twig 1))
      (Generator.ofSeed 0) = (.ok (), l) := ⟨_, rfl⟩
  obtain ⟨-, -, -, hforks⟩ := twigs_of_generations hgrown
  exact ⟨l, hgrown, (hforks (by decide)).2.2 (by decide)⟩

end Stochastic

end Arbor
