import Arbor.Assembly.Overlap
import Mathlib.Algebra.Ring.Nat

namespace Arbor

/-- The points that a full scan draws. -/
structure Sampling (α : Type) where
  points : List (Vec3 α)
  probes : List (Vec3 α)

theorem Draw.run_bind {β γ : Type} {d : Draw β} {g g' : Generator} {b : β} (h : d.run g = (b, g'))
    (next : β → Draw γ) : (d >>= next).run g = (next b).run g' := by
  rw [StateT.run_bind, h]
  rfl

theorem Scan.run_bind {β γ : Type} (scan : Scan β) (next : β → Scan γ) (s : ScanState) :
    (scan >>= next).run.run s =
      match scan.run.run s with
      | (.ok b, s) => (next b).run.run s
      | (.error e, s) => (.error e, s) := by
  change (match scan.run.run s with
    | (outcome, s) => StateT.run (ExceptT.bindCont next outcome) s) = _
  rcases scan.run.run s with ⟨_ | b, s⟩
  · rfl
  · rfl

/-- From a generator a scan comes to an answer by way of `n` violations, unless it ends at the
violation that reaches the limit. -/
def Scan.Finds {β : Type} (limit : Nat) (scan : Scan β) (g : Generator) (b : β) (n : Nat)
    (g' : Generator) : Prop :=
  ∀ found < limit,
    if found + n < limit then scan.run.run ⟨found, g⟩ = (.ok b, ⟨found + n, g'⟩)
    else ∃ s, scan.run.run ⟨found, g⟩ = (.error (), s)

namespace Scan.Finds

variable {β γ : Type} {limit n k : Nat} {g g' g'' : Generator} {b : β}

theorem pure (b : β) (g : Generator) : Finds limit (Pure.pure b) g b 0 g := by
  intro found hfound
  rw [Nat.add_zero, if_pos hfound]
  rfl

theorem draw {d : Draw β} {next : β → Scan γ} {c : γ} (h : d.run g = (b, g'))
    (hnext : Finds limit (next b) g' c k g'') : Finds limit (Scan.draw d >>= next) g c k g'' := by
  intro found hfound
  have hrun : (Scan.draw d).run.run ⟨found, g⟩ = (.ok b, ⟨found, g'⟩) := by
    change ((.ok (d.run g).1, ⟨found, (d.run g).2⟩) : Except Unit β × ScanState) = _
    rw [h]
  rw [run_bind, hrun]
  exact hnext found hfound

theorem bind {scan : Scan β} {next : β → Scan γ} {c : γ} (h : Finds limit scan g b n g')
    (hnext : Finds limit (next b) g' c k g'') : Finds limit (scan >>= next) g c (n + k) g'' := by
  intro found hfound
  have hfirst := h found hfound
  rw [run_bind, ← Nat.add_assoc]
  by_cases hn : found + n < limit
  · rw [if_pos hn] at hfirst
    rw [hfirst]
    exact hnext _ hn
  · rw [if_neg hn] at hfirst
    obtain ⟨s, hs⟩ := hfirst
    rw [hs, if_neg fun hlt => hn (by omega)]
    exact ⟨s, rfl⟩

end Scan.Finds

namespace OverlapChecker

open Scan

variable {α : Type} [Scalar α] {g g' : Generator}

def obstaclesAmong (parent : Option Nat) (index : Nat) (vs : List (Volume α)) : List (Shape α) :=
  ((vs.zipIdx index).filter fun v => parent != some v.2).map fun v => v.1.shape

def obstacles (world : Volume α) (parent : Option Nat) : List (Shape α) :=
  obstaclesAmong parent 0 world.children

/-- Probes are drawn with the first point only. -/
def probing (first : Bool) (obstacles : List (Shape α)) : Draw (List (Vec3 α)) :=
  if first then obstacles.mapM Shape.pointOnSurface else return []

def drawSampling (candidate : Tessellation α) (obstacles : List (Shape α)) :
    Nat → Draw (Sampling α)
  | 0 => return ⟨[], []⟩
  | n + 1 => do
    let p ← candidate.pointOnSurface
    let probes ← probing true obstacles
    let points ← (List.replicate n candidate).mapM Tessellation.pointOnSurface
    return ⟨p :: points, probes⟩

def intrusions (c : OverlapChecker α) (obstacles : List (Shape α)) (p : Vec3 α) : Nat :=
  obstacles.countP fun shape => c.intrudes shape p

def violations (c : OverlapChecker α) (candidate : Tessellation α) (world : Shape α)
    (obstacles : List (Shape α)) (s : Sampling α) : Nat :=
  s.points.countP (c.escapes world) + (s.points.map (c.intrusions obstacles)).sum +
    s.probes.countP fun q => candidate.location q == .inside

theorem intrusions_append (c : OverlapChecker α) (shape : Shape α) (ss : List (Shape α))
    (p : Vec3 α) :
    c.intrusions ([shape] ++ ss) p = (c.intrudes shape p).toNat + c.intrusions ss p := by
  unfold intrusions
  rw [List.countP_append]
  cases h : c.intrudes shape p <;> simp [h]

theorem violations_cons (c : OverlapChecker α) (candidate : Tessellation α) (world : Shape α)
    (obstacles : List (Shape α)) (p : Vec3 α) (ps probes : List (Vec3 α)) :
    c.violations candidate world obstacles ⟨p :: ps, probes⟩ =
      ((c.escapes world p).toNat + (c.intrusions obstacles p +
        probes.countP fun q => candidate.location q == .inside)) +
      c.violations candidate world obstacles ⟨ps, []⟩ := by
  have hescapes : (p :: ps).countP (c.escapes world) =
      (c.escapes world p).toNat + ps.countP (c.escapes world) := by
    cases h : c.escapes world p <;> simp [h, Nat.add_comm]
  unfold violations
  dsimp only
  rw [hescapes, List.map_cons, List.sum_cons, List.countP_nil]
  omega

omit [Scalar α] in
theorem violate_finds (c : OverlapChecker α) (g : Generator) :
    Finds c.limit c.violate g () 1 g := by
  intro found _
  have hrun : c.violate.run.run ⟨found, g⟩ =
      if c.limit ≤ found + 1 then (.error (), ⟨found + 1, g⟩) else (.ok (), ⟨found + 1, g⟩) := by
    change StateT.run (m := Id) (ExceptT.run (if c.limit ≤ found + 1 then throw () else pure ()))
      (⟨found + 1, g⟩ : ScanState) = _
    split
    · rfl
    · rfl
  rw [hrun]
  split
  next hlt => rw [if_neg (Nat.not_le.mpr hlt)]
  next hle => exact ⟨_, if_pos (Nat.not_lt.mp hle)⟩

omit [Scalar α] in
theorem violateIf_finds (c : OverlapChecker α) (b : Bool) (g : Generator) :
    Finds c.limit (if b then c.violate else pure ()) g () b.toNat g := by
  cases b with
  | false => exact .pure () g
  | true => exact c.violate_finds g

omit [Scalar α] in
theorem violateThen_finds (c : OverlapChecker α) (b : Bool) {next : Scan Unit} {n : Nat}
    (h : Finds c.limit next g () n g') :
    Finds c.limit (if b then c.violate >>= fun _ => next else next) g () (b.toNat + n) g' := by
  cases b with
  | false =>
      rw [Bool.toNat_false, Nat.zero_add]
      exact h
  | true => exact (c.violate_finds g).bind h

theorem inspectDaughter_finds (c : OverlapChecker α) (candidate : Tessellation α) (first : Bool)
    (p : Vec3 α) (shape : Shape α) {probes : List (Vec3 α)}
    (h : (probing first [shape]).run g = (probes, g')) :
    Finds c.limit (c.inspectDaughter candidate first p shape) g ()
      ((c.intrudes shape p).toNat + probes.countP fun q => candidate.location q == .inside) g' := by
  apply c.violateThen_finds
  cases first with
  | false =>
      cases h
      exact .pure () g
  | true =>
      rcases hprobe : shape.pointOnSurface.run g with ⟨q, g₁⟩
      have hprobes : (probing true [shape]).run g = ([q], g₁) := Draw.run_bind hprobe _
      cases hprobes.symm.trans h
      refine .draw hprobe ?_
      have hcount : [q].countP (fun q => candidate.location q == .inside) =
          (candidate.location q == .inside).toNat := by
        cases hq : candidate.location q == .inside <;> simp [hq]
      rw [hcount]
      exact c.violateIf_finds _ g'

omit [Scalar α] in
theorem obstaclesAmong_parent {parent : Option Nat} {index : Nat}
    (h : (parent == some index) = true) (v : Volume α) (vs : List (Volume α)) :
    obstaclesAmong parent index (v :: vs) = obstaclesAmong parent (index + 1) vs := by
  rw [obstaclesAmong, List.zipIdx_cons, List.filter_cons_of_neg (by simp [bne, h])]
  rfl

omit [Scalar α] in
theorem obstaclesAmong_other {parent : Option Nat} {index : Nat}
    (h : (parent == some index) = false) (v : Volume α) (vs : List (Volume α)) :
    obstaclesAmong parent index (v :: vs) =
      [v.shape] ++ obstaclesAmong parent (index + 1) vs := by
  rw [obstaclesAmong, List.zipIdx_cons, List.filter_cons_of_pos (by simp [bne, h])]
  rfl

theorem probing_append (first : Bool) {ss ts : List (Shape α)} {g g₁ g₂ : Generator}
    {ps qs : List (Vec3 α)} (hps : (probing first ss).run g = (ps, g₁))
    (hqs : (probing first ts).run g₁ = (qs, g₂)) :
    (probing first (ss ++ ts)).run g = (ps ++ qs, g₂) := by
  have happend : probing first (ss ++ ts) = (do
      let ps ← probing first ss
      let qs ← probing first ts
      return ps ++ qs) := by
    cases first with
    | false => rfl
    | true => exact List.mapM_append
  rw [happend, Draw.run_bind hps, Draw.run_bind hqs]
  rfl

theorem inspectDaughters_finds (c : OverlapChecker α) (candidate : Tessellation α)
    (parent : Option Nat) (first : Bool) (p : Vec3 α) (index : Nat) (vs : List (Volume α))
    {probes : List (Vec3 α)}
    (h : (probing first (obstaclesAmong parent index vs)).run g = (probes, g')) :
    Finds c.limit (c.inspectDaughters candidate parent first p index vs) g ()
      (c.intrusions (obstaclesAmong parent index vs) p +
        probes.countP fun q => candidate.location q == .inside) g' := by
  induction vs generalizing index g probes with
  | nil =>
      have hnone : (probing first ([] : List (Shape α))).run g = ([], g) := by
        cases first <;> rfl
      cases hnone.symm.trans h
      exact .pure () _
  | cons v vs ih =>
      rw [inspectDaughters]
      cases hparent : parent == some index with
      | true =>
          rw [obstaclesAmong_parent hparent] at h ⊢
          exact ih _ h
      | false =>
          rw [obstaclesAmong_other hparent] at h ⊢
          rcases hfirst : (probing first [v.shape]).run g with ⟨ps, g₁⟩
          rcases hrest : (probing first (obstaclesAmong parent (index + 1) vs)).run g₁ with ⟨qs, g₂⟩
          cases (probing_append first hfirst hrest).symm.trans h
          have hcount : c.intrusions ([v.shape] ++ obstaclesAmong parent (index + 1) vs) p +
              ((ps ++ qs).countP fun q => candidate.location q == .inside) =
              ((c.intrudes v.shape p).toNat +
                ps.countP fun q => candidate.location q == .inside) +
              (c.intrusions (obstaclesAmong parent (index + 1) vs) p +
                qs.countP fun q => candidate.location q == .inside) := by
            rw [intrusions_append, List.countP_append]
            omega
          rw [hcount]
          exact (c.inspectDaughter_finds candidate first p v.shape hfirst).bind (ih _ hrest)

theorem inspect_finds (c : OverlapChecker α) (candidate : Tessellation α) (world : Volume α)
    (parent : Option Nat) (first : Bool) {p : Vec3 α} {probes : List (Vec3 α)} {g₁ : Generator}
    (hp : candidate.pointOnSurface.run g = (p, g₁))
    (hprobes : (probing first (obstacles world parent)).run g₁ = (probes, g')) :
    Finds c.limit (c.inspect candidate world parent first) g ()
      ((c.escapes world.shape p).toNat + (c.intrusions (obstacles world parent) p +
        probes.countP fun q => candidate.location q == .inside)) g' := by
  refine .draw hp ?_
  apply c.violateThen_finds
  exact c.inspectDaughters_finds candidate parent first p 0 world.children hprobes

theorem scan_finds (c : OverlapChecker α) (candidate : Tessellation α) (world : Volume α)
    (parent : Option Nat) (n : Nat) {points : List (Vec3 α)}
    (h : ((List.replicate n candidate).mapM Tessellation.pointOnSurface).run g = (points, g')) :
    Finds c.limit (c.scan candidate world parent false n) g ()
      (c.violations candidate world.shape (obstacles world parent) ⟨points, []⟩) g' := by
  induction n generalizing g points with
  | zero =>
      cases h
      exact .pure () _
  | succ n ih =>
      rcases hp : candidate.pointOnSurface.run g with ⟨p, g₁⟩
      rcases hps : ((List.replicate n candidate).mapM Tessellation.pointOnSurface).run g₁ with
        ⟨ps, g₂⟩
      rw [List.replicate_succ, List.mapM_cons, Draw.run_bind hp, Draw.run_bind hps] at h
      cases h
      rw [violations_cons]
      exact (c.inspect_finds candidate world parent false hp rfl).bind (ih hps)

theorem scan_finds_sampling (c : OverlapChecker α) (candidate : Tessellation α) (world : Volume α)
    (parent : Option Nat) (n : Nat) {s : Sampling α}
    (h : (drawSampling candidate (obstacles world parent) n).run g = (s, g')) :
    Finds c.limit (c.scan candidate world parent true n) g ()
      (c.violations candidate world.shape (obstacles world parent) s) g' := by
  cases n with
  | zero =>
      cases h
      exact .pure () _
  | succ n =>
      rcases hp : candidate.pointOnSurface.run g with ⟨p, g₁⟩
      rcases hprobes : (probing true (obstacles world parent)).run g₁ with ⟨probes, g₂⟩
      rcases hps : ((List.replicate n candidate).mapM Tessellation.pointOnSurface).run g₂ with
        ⟨ps, g₃⟩
      rw [drawSampling, Draw.run_bind hp, Draw.run_bind hprobes, Draw.run_bind hps] at h
      cases h
      rw [violations_cons]
      exact (c.inspect_finds candidate world parent true hp hprobes).bind
        (c.scan_finds candidate world parent n hps)

theorem overlaps_of_sampling (c : OverlapChecker α) (candidate : Tessellation α) (world : Volume α)
    (parent : Option Nat) (hlimit : 0 < c.limit) :
    let sampled := (drawSampling candidate (obstacles world parent) c.resolution).run c.generator
    let found := c.violations candidate world.shape (obstacles world parent) sampled.1
    if found < c.limit then
      c.overlaps candidate world parent = (decide (0 < found), { c with generator := sampled.2 })
    else (c.overlaps candidate world parent).1 = true := by
  intro sampled found
  have hrun := c.scan_finds_sampling candidate world parent c.resolution
    (Prod.eta sampled).symm 0 hlimit
  rw [Nat.zero_add] at hrun
  unfold overlaps
  split
  next hfew =>
    rw [if_pos hfew] at hrun
    rw [hrun]
  next hmany =>
    rw [if_neg hmany] at hrun
    obtain ⟨s, hs⟩ := hrun
    rw [hs]

/-- A candidate overlaps something as soon as there is one violation among the points of the full
scan. So the verdict is that of the limit unless there are violations, but fewer than the limit. A
check that finds fewer makes all the draws of the full scan. -/
theorem overlaps_iff_violations (settings : Settings α) (g : Generator)
    (candidate : Tessellation α) (world : Volume α) (parent : Option Nat) :
    let c : OverlapChecker α := { ofSettings settings with generator := g }
    let obstacles := obstacles world parent
    let sampled := (drawSampling candidate obstacles settings.resolution).run g
    let found := c.violations candidate world.shape obstacles sampled.1
    let limit := max 1 settings.maximumErrorNumber
    ((c.overlaps candidate world parent).1 = true ↔ 0 < found) ∧
      ((c.overlaps candidate world parent).1 = decide (limit ≤ found) ↔
        ¬ (0 < found ∧ found < limit)) ∧
      (found < limit →
        (c.overlaps candidate world parent).2 = { c with generator := sampled.2 }) := by
  intro c obstacles sampled found limit
  have hlimit : c.limit = limit := Nat.max_comm _ _
  have hpositive : 0 < limit := Nat.le_max_left 1 _
  have hverdict : if found < c.limit then
      c.overlaps candidate world parent = (decide (0 < found), { c with generator := sampled.2 })
      else (c.overlaps candidate world parent).1 = true :=
    c.overlaps_of_sampling candidate world parent (hlimit ▸ hpositive)
  by_cases hfew : found < limit
  · rw [if_pos (hlimit ▸ hfew)] at hverdict
    rw [hverdict]
    refine ⟨decide_eq_true_iff, ?_, fun _ => rfl⟩
    rw [decide_eq_decide]
    omega
  · rw [if_neg (hlimit ▸ hfew)] at hverdict
    rw [hverdict]
    refine ⟨iff_of_true rfl (by omega), ?_, fun h => absurd h hfew⟩
    rw [eq_comm, decide_eq_true_iff]
    omega

end OverlapChecker

end Arbor
