import Arbor.Proofs.ComparedNumbers
import Arbor.Proofs.CountingTrees
import Arbor.Proofs.TreeShapes

namespace Arbor

variable {α : Type} [Scalar α] {params : Store α}

namespace Helical

open Word Arbor.Derivation

/-- The number of the first `n` generations in which stalks split. -/
def splits (params : Store α) (n : Nat) : Nat :=
  (List.range n).countP fun c : Nat => SplitsAt params (c : Int)

omit [Scalar α] in
theorem splits_succ (n : Nat) :
    splits params (n + 1) = splits params n + if SplitsAt params n then 1 else 0 := by
  rw [splits, List.range_succ, List.countP_append, List.countP_singleton]
  simp [splits]

def stalks (w : Word Helical α) : Nat :=
  w.countP fun
    | .production (stalk ..) => true
    | _ => false

section

omit [Scalar α]

@[simp]
theorem stalks_append (v w : Word Helical α) : stalks (v ++ w) = stalks v + stalks w :=
  List.countP_append

@[simp]
theorem stalks_op (i : Instruction α) : stalks (op i) = 0 := rfl

@[simp]
theorem stalks_branch (w : Word Helical α) : stalks w.branch = stalks w := by simp [branch]

@[simp]
theorem stalks_stalk (length width angle : α) (count : Int64) :
    stalks (grow (stalk length width angle count)) = 1 := rfl

@[simp]
theorem stalks_shoot (length width : α) : stalks (grow (shoot length width)) = 0 := rfl

@[simp]
theorem stalks_segment (rise width length : α) : stalks (segment rise width length) = 0 := rfl

theorem stalks_onward {count : Int64} {p : Helical α} (hp : Renews count p) (turning : α) :
    stalks (onward turning p) = 1 := by
  cases p with
  | stalk => rfl
  | shoot => exact hp.elim

end

def offspring (params : Store α) (c : Int) : Nat :=
  if SplitsAt params c ∧ ¬ Simple params then 2 else 1

/-- How many stalks come of one in the first `n` generations. -/
def tips (params : Store α) (n : Nat) : Nat :=
  if Simple params then 1 else 2 ^ splits params n

omit [Scalar α] in
theorem tips_succ (n : Nat) : tips params (n + 1) = tips params n * offspring params n := by
  unfold tips offspring
  rw [splits_succ]
  by_cases hsimple : Simple params
  · simp [hsimple]
  · by_cases hsplits : SplitsAt params n
    · simp [hsimple, hsplits, Nat.pow_succ]
    · simp [hsimple, hsplits]

def Wide (params : Store α) (w : Word Helical α) : Prop :=
  ∀ width rate, .instruction (.width width rate) ∈ w → Clamped params width

section

variable {v w : Word Helical α}

@[simp]
theorem wide_append : Wide params (v ++ w) ↔ Wide params v ∧ Wide params w := by
  simp [Wide, or_imp, forall_and]

theorem wide_op {i : Instruction α} (h : ∀ w rate, i ≠ .width w rate) : Wide params (op i) := by
  simp [Wide, op, eq_comm, h]

@[simp]
theorem wide_grow (p : Helical α) : Wide params (grow p) := by simp [Wide, grow]

@[simp]
theorem wide_branch : Wide params w.branch ↔ Wide params w := by simp [Wide, branch, op]

@[simp]
theorem wide_width {width : α} {rate : Option α} :
    Wide params (op (.width width rate)) ↔ Clamped params width := by
  simp [Wide, op]

end

namespace Sprouts

variable {p : Helical α} {w : Word Helical α}

theorem wide (h : Sprouts params p w) : Wide params w := by
  cases h with
  | onward | sideShoot | fork => simp [segment, Helical.onward, wide_op, *]
  | shoot => simp [wide_op, *]

theorem stalks_eq (h : Sprouts params p w) {n : Nat} (hp : Aged params n p) :
    stalks w = stalks (grow p) * offspring params n := by
  cases h with
  | onward _ _ _ _ _ hrenews hsplits =>
      rw [hp.1] at hsplits
      simp [offspring, hsplits, stalks_onward hrenews]
  | sideShoot _ _ _ _ _ _ _ _ _ hrenews _ hsimple =>
      simp [offspring, hsimple, stalks_onward hrenews]
  | fork _ _ _ _ _ _ _ hrenews hsplits hsimple =>
      rw [hp.1] at hsplits
      simp [offspring, hsplits, hsimple, stalks_onward hrenews]
  | shoot => simp

end Sprouts

/-- A word in which `k` stalks have grown for `n` generations. -/
structure Scheduled (params : Store α) (k n : Nat) (w : Word Helical α) : Prop where
  sound : w.Sound (Aged params n)
  number : stalks w = k * tips params n
  wide : Wide params w

theorem replaceAll_branches {n : Nat} {w : Word Helical α} (hw : w.Sound (Aged params n)) :
    Drawing.Meets (fun _ => True)
      (fun w' => stalks w' = stalks w * offspring params n ∧ (Wide params w → Wide params w'))
      (replaceAll params w) := by
  let rel (v v' : Word Helical α) : Prop :=
    stalks v' = stalks v * offspring params n ∧ (Wide params v → Wide params v')
  have happend (v v' w w' : Word Helical α) (hv : rel v v') (hw : rel w w') :
      rel (v ++ w) (v' ++ w') := by
    refine ⟨?_, fun hwide => ?_⟩
    · rw [stalks_append, stalks_append, hv.1, hw.1, Nat.add_mul]
    · exact wide_append.mpr ⟨hv.2 (wide_append.mp hwide).1, hw.2 (wide_append.mp hwide).2⟩
  have hnil : rel [] [] := ⟨(Nat.zero_mul _).symm, id⟩
  have hseed (seed : UInt64) : rel (op (.reseed seed)) [] := ⟨(Nat.zero_mul _).symm, fun _ => nofun⟩
  refine replaceAll_relates rel hnil happend w hseed (fun i _ => ?_) fun p hp => ?_
  · refine Meets.pure ⟨(Nat.zero_mul _).symm, fun hwide => ?_⟩
    cases i with
    | setLength => exact wide_op nofun
    | _ => exact hwide
  · refine Drawing.meets_lift ((successor_sprouts p).mono (fun v hv => ?_) fun _ => id)
    exact ⟨hv.stalks_eq (hw.productions p hp), fun _ => hv.wide⟩

theorem Scheduled.step {k n : Nat} {w : Word Helical α} (h : Scheduled params k n w) :
    Drawing.Meets (fun _ => True) (Scheduled params k (n + 1)) (replaceAll params w) := by
  refine ((replaceAll_aged h.sound).and (replaceAll_branches h.sound)).mono ?_ fun _ => id
  rintro v ⟨hsound, hnumber, hwide⟩
  refine ⟨hsound, ?_, hwide h.wide⟩
  rw [hnumber, h.number, tips_succ, Nat.mul_assoc]

def arm (roll radius inclination length width : α) : Word Helical α :=
  op (.roll roll) ++ op (.pitch 90.0) ++ op (.move radius) ++ op (.turnLeft 90.0) ++
    op (.pitch inclination) ++ grow (stalk length width 0 0)

theorem start_eq_ok {w : Word Helical α} (h : start params = .ok w) :
    ∃ points, params.integer "stalkPoints" = .ok points ∧
      ∃ orientation radius inclination length, ∃ roll width : Nat → α,
        w = op (.roll orientation) ++ (List.range points.toNatClampNeg).flatMap fun i =>
          branch (arm (roll i) radius inclination length (width i)) := by
  simp only [start, bind_eq_ok] at h
  obtain ⟨points, hpoints, radius, -, inclination, -, length, -, even, -, odd, -, orientation, -,
    h⟩ := h
  cases h
  exact ⟨points, hpoints, orientation, radius, -inclination, length, _, _, rfl⟩

omit [Scalar α] in
theorem stalks_flatMap {ι : Type} {is : List ι} {f : ι → Word Helical α}
    (h : ∀ i, stalks (f i) = 1) : stalks (is.flatMap f) = is.length := by
  induction is with
  | nil => rfl
  | cons i is ih => rw [List.flatMap_cons, stalks_append, h, ih, List.length_cons, Nat.add_comm]

theorem wide_flatMap {ι : Type} {is : List ι} {f : ι → Word Helical α}
    (h : ∀ i, Wide params (f i)) : Wide params (is.flatMap f) := by
  intro width rate hmem
  obtain ⟨i, -, hi⟩ := List.mem_flatMap.mp hmem
  exact h i width rate hi

theorem start_scheduled {w : Word Helical α} (h : start params = .ok w) :
    ∃ points, params.integer "stalkPoints" = .ok points ∧
      Scheduled params points.toNatClampNeg 0 w := by
  obtain ⟨points, hpoints, orientation, radius, inclination, length, roll, width, rfl⟩ :=
    start_eq_ok h
  have hsound : Meets (params.Excuses True) (Sound (Aged params 0)) (start params) := start_meets
  rw [h] at hsound
  refine ⟨points, hpoints, hsound, ?_, ?_⟩
  · rw [stalks_append, stalks_flatMap fun i => by simp [arm]]
    simp [tips, splits]
  · exact wide_append.mpr ⟨wide_op nofun, wide_flatMap fun i => by simp [arm, wide_op]⟩

def sprig : Nat → Bush
  | 0 => .nil
  | _ + 1 => .node .nil .nil

/-- What a stalk that starts at the count `c` has grown to after `n` generations. -/
def spire (params : Store α) : Nat → Int → Bush
  | 0, _ => .nil
  | n + 1, c =>
    let next := spire params n (c + 1)
    .node (if SplitsAt params c then (if Simple params then sprig n else next) ++ next else next)
      .nil

theorem steady (params : Store α) : Steady Helical params := by
  refine ⟨undrawn.drawless, fun i j hi h => ?_⟩
  cases i with
  | setLength =>
      cases h
      exact ⟨trivial, nofun⟩
  | _ =>
      cases h
      exact Instruction.kin_self hi

theorem grows_shoot (n : Nat) (length width : α) :
    Grows params n (grow (shoot length width)) (sprig n) := by
  cases n with
  | zero => exact grows_zero _
  | succ n =>
      refine grows_succ (x := successor params (shoot length width)) rfl ?_
      refine (successor_sprouts (shoot length width)).mono (fun v hv => ?_) fun _ => id
      have h := steady params
      cases hv
      simp only [List.append_assoc]
      refine h.grows_plain trivial nofun (h.grows_plain trivial nofun ?_)
      have hend := h.grows_advance (n := n) (e := length) grows_nil
      rwa [List.append_nil] at hend

theorem grows_segment {n : Nat} {w : Word Helical α} {t : Bush} (rise width length : α)
    (hw : Grows params n w t) : Grows params n (segment rise width length ++ w) (.node t .nil) := by
  have h := steady params
  simp only [segment, List.append_assoc]
  have hpitch (seed : UInt64) : Instruction.pitch rise ≠ .reseed seed := by simp
  have hwidth (seed : UInt64) : Instruction.width width none ≠ .reseed seed := by simp
  exact h.grows_plain trivial hpitch (h.grows_plain trivial hwidth (h.grows_advance hw))

theorem grows_stalk (n : Nat) (length width angle : α) {count : Int64} {c : Int}
    (hc : count.toInt = c) :
    Grows params n (grow (stalk length width angle count)) (spire params n c) := by
  induction n generalizing length width angle count c with
  | zero => exact grows_zero _
  | succ n ih =>
      refine grows_succ (x := successor params (stalk length width angle count)) rfl ?_
      refine (successor_sprouts _).mono (fun v hv => ?_) fun _ => id
      have h := steady params
      have hnext {next : Helical α} (hrenews : Renews count next) (turning : α) :
          Grows params n (onward turning next) (spire params n (c + 1)) := by
        cases next with
        | stalk => exact h.grows_plain trivial nofun (ih _ _ _ (hc ▸ hrenews))
        | shoot => exact hrenews.elim
      rw [spire]
      cases hv with
      | onward rise w turning next _ hrenews hsplits =>
          rw [if_neg (hc ▸ hsplits)]
          exact grows_segment _ _ _ (hnext hrenews turning)
      | sideShoot rise w turning roll pitch length' width' next _ hrenews hsplits hsimple =>
          rw [if_pos (hc ▸ hsplits), if_pos hsimple, List.append_assoc]
          refine grows_segment _ _ _ (h.grows_branch ?_ (hnext hrenews turning))
          rw [List.append_assoc]
          exact h.grows_plain trivial nofun (h.grows_plain trivial nofun (grows_shoot n _ _))
      | fork rise w turning up down next _ hrenews hsplits hsimple =>
          rw [if_pos (hc ▸ hsplits), if_neg hsimple, List.append_assoc]
          refine grows_segment _ _ _ (h.grows_branch ?_ (h.grows_enclosed ?_))
          · exact h.grows_plain trivial nofun (hnext hrenews turning)
          · exact h.grows_plain trivial nofun (hnext hrenews turning)

end Helical

namespace Bush

def copies (t : Bush) : Nat → Bush
  | 0 => nil
  | k + 1 => t ++ t.copies k

theorem tops_copies (t : Bush) (k : Nat) : (t.copies k).tops = k * t.tops := by
  induction k with
  | zero => simp [copies]
  | succ k ih => rw [copies, tops_append, ih, Nat.succ_mul, Nat.add_comm]

end Bush

namespace Helical

open Word Arbor.Derivation

theorem start_grows {w : Word Helical α} (h : start params = .ok w) (n : Nat) :
    ∃ points, params.integer "stalkPoints" = .ok points ∧
      Grows params n w ((spire params n 0).copies points.toNatClampNeg) := by
  obtain ⟨points, hpoints, orientation, radius, inclination, length, roll, width, rfl⟩ :=
    start_eq_ok h
  have h := steady params
  have harm (i : Nat) : Grows params n (arm (roll i) radius inclination length (width i))
      (spire params n 0) := by
    simp only [arm, List.append_assoc]
    refine h.grows_plain trivial nofun (h.grows_plain trivial nofun ?_)
    refine h.grows_plain trivial nofun (h.grows_plain trivial nofun ?_)
    exact h.grows_plain trivial nofun (grows_stalk n _ _ _ rfl)
  have hring (is : List Nat) : Grows params n
      (is.flatMap fun i => branch (arm (roll i) radius inclination length (width i)))
      ((spire params n 0).copies is.length) := by
    induction is with
    | nil => exact grows_nil
    | cons i is ih =>
        rw [List.flatMap_cons]
        exact h.grows_branch (harm i) ih
  have hgrows := h.grows_plain (i := .roll orientation) trivial nofun
    (hring (List.range points.toNatClampNeg))
  rw [List.length_range] at hgrows
  exact ⟨points, hpoints, hgrows⟩

/-- After `n` generations all stalks have the count `n`. Every arm of the ring has one stalk, which
is doubled wherever stalks split and get no side shoots instead; every arm has become a tree of its
own, and no width is below the minimum. -/
theorem stalks_of_generations [OrderedScalar α] {start : Word Helical α} {n : Nat} {g : Generator}
    {l : LSystem Helical α} (hstart : Helical.start params = .ok start)
    (hgrown : LSystem.after params n start g = (.ok (), l)) :
    ∃ points, params.integer "stalkPoints" = .ok points ∧
      (∀ length width angle (count : Int64),
        .production (stalk length width angle count) ∈ l.word → count.toInt = n) ∧
      stalks l.word = (max points.toInt 0).toNat *
        (if Simple params then 1 else 2 ^ splits params n) ∧
      (0 < n → ∀ pose, ∃ out, interpret l.word.program pose = .ok out ∧
        out.roots.length = (max points.toInt 0).toNat) ∧
      ∀ width rate, .instruction (.width width rate) ∈ l.word →
        ∃ minimum, params.double "minimumWidth" = .ok minimum ∧
          ((minimum == minimum) = true → minimum ≤ width) := by
  obtain ⟨points, hpoints, hscheduled⟩ := start_scheduled hstart
  have hkept := LSystem.after_keeps _ hgrown hscheduled fun _ _ => Scheduled.step
  have hclamp : (max points.toInt 0).toNat = points.toNatClampNeg := by
    rw [Int64.toNatClampNeg]
    omega
  refine ⟨points, hpoints, ?_, hclamp ▸ hkept.number, fun hn pose => ?_, fun width rate hmem => ?_⟩
  · exact fun length width angle count hmem => (hkept.sound.productions _ hmem).1
  · obtain ⟨_, hpoints', hgrows⟩ := start_grows hstart n
    cases hpoints.symm.trans hpoints'
    have hexpands := (LSystem.iterate_eq_ok undrawn.drawless).mp ⟨l, hgrown, rfl⟩
    obtain ⟨drawing, hrun⟩ := (wellFormed_iff _).mp hkept.sound.program
    obtain ⟨out, hout⟩ := interpret_of_run pose hrun
    refine ⟨out, hout, ?_⟩
    rw [hclamp, (hgrows _ hexpands).roots_length hout, Bush.tops_copies]
    obtain ⟨m, rfl⟩ := Nat.exists_eq_add_of_lt hn
    rw [Nat.zero_add, spire]
    exact Nat.mul_one _
  · obtain ⟨minimum, hminimum, w, rfl⟩ := hkept.wide width rate hmem
    exact ⟨minimum, hminimum, Scalar.le_greater w⟩

/-- A single stalk that may split in every generation, and does so from the second one on. -/
def forking : Store Float :=
  Store.setInteger "stepsBetweenSplit" 1 (Store.setInteger "stalkPoints" 1 defaults)

theorem stalks_of_generations_fork :
    ∃ w l, Helical.start forking = .ok w ∧
      LSystem.after forking 2 w (Generator.ofSeed 0) = (.ok (), l) ∧ stalks l.word = 2 := by
  obtain ⟨w, l, hstart, hgrown⟩ : ∃ w l, Helical.start forking = .ok w ∧
      LSystem.after forking 2 w (Generator.ofSeed 0) = (.ok (), l) := ⟨_, _, rfl, rfl⟩
  refine ⟨w, l, hstart, hgrown, ?_⟩
  obtain ⟨points, hpoints, -, hstalks, -⟩ := stalks_of_generations hstart hgrown
  have hone : points = 1 := Except.ok.inj (hpoints.symm.trans rfl)
  rw [hstalks, hone]
  decide

end Helical

end Arbor
