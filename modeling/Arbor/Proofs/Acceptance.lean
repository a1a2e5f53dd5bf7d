import Arbor.Proofs.Brackets
import Arbor.Proofs.ReplayRuns

namespace Arbor

variable {α : Type} [Scalar α]

namespace Replay

variable {s s' : Replay α} {i : Instruction α}

structure Follows (s : Replay α) (o : Outline) : Prop where
  depth : s.stack.length = o.depth + 1
  drawing : s.polygons ≠ [] ↔ o.drawing = true

omit [Scalar α] in
theorem Follows.start (pose : Pose α) : Follows (Replay.start pose) ⟨0, false⟩ :=
  ⟨rfl, by simp [Replay.start]⟩

namespace Settled

omit [Scalar α] in
theorem onTop_ok (hs : s.Settled) (hne : s.stack ≠ []) (change : Pose α → Pose α) :
    ∃ s', s.onTop change = .ok s' ∧ s'.polygons = s.polygons ∧ s'.stack = s.stack := by
  obtain ⟨id, rest, t, hstack, ht, -⟩ := hs.top hne
  refine ⟨{ s with forest := s.forest.modifyPose id change }, ?_, rfl, rfl⟩
  simp [onTop, hstack, ht]

omit [Scalar α] in
theorem vertex_ok (hs : s.Settled) (hne : s.stack ≠ []) (hdrawn : s.polygons ≠ []) :
    ∃ s', s.vertex = .ok s' ∧ s'.polygons ≠ [] ∧ s'.stack = s.stack := by
  obtain ⟨id, rest, t, hstack, ht, -⟩ := hs.top hne
  obtain ⟨polygon, older, hpolygons⟩ := List.exists_cons_of_ne_nil hdrawn
  refine ⟨{ s with polygons := (t.pose.position :: polygon) :: older }, ?_,
    List.cons_ne_nil _ _, rfl⟩
  simp [vertex, hstack, ht, hpolygons]

omit [Scalar α] in
theorem vertex_error (hs : s.Settled) (hne : s.stack ≠ []) (hdrawn : s.polygons = []) :
    s.vertex = .error .noOpenPolygon := by
  obtain ⟨id, rest, t, hstack, ht, -⟩ := hs.top hne
  simp [vertex, hstack, ht, hdrawn]

theorem step_onTop (hs : s.Settled) (hne : s.stack ≠ []) {change : Pose α → Pose α}
    (hi : s.step i = s.onTop change) (hopen : .openPolygon ≠ i)
    (hbrackets : closings [i] = openings [i]) :
    ∃ s', s.step i = .ok s' ∧ (s'.polygons ≠ [] ↔ s.polygons ≠ [] ∨ .openPolygon = i) ∧
      s'.stack.length + closings [i] = s.stack.length + openings [i] := by
  obtain ⟨s', hstep, hpolygons, hstack⟩ := hs.onTop_ok hne change
  exact ⟨s', hi.trans hstep, by simp [hpolygons, hopen], by rw [hstack, hbrackets]⟩

theorem step_ok (hs : s.Settled) (hne : s.stack ≠ []) (hv : i = .vertex → s.polygons ≠ []) :
    ∃ s', s.step i = .ok s' ∧ (s'.polygons ≠ [] ↔ s.polygons ≠ [] ∨ .openPolygon = i) ∧
      s'.stack.length + closings [i] = s.stack.length + openings [i] := by
  cases i with
  | advance e =>
      obtain ⟨s', hstep, hpolygons, he⟩ := hs.advance_ok hne e
      refine ⟨s', hstep, by simp [hpolygons], ?_⟩
      cases he with
      | stay _ _ plain => exact plain.elim
      | advance _ id rest t _ top here stack => simp [stack, top, closings, openings]
  | push =>
      obtain ⟨s', hstep, hpolygons, he⟩ := hs.push_ok hne
      refine ⟨s', hstep, by simp [hpolygons], ?_⟩
      cases he with
      | stay _ _ plain => exact plain.elim
      | push id rest t _ top here stack => simp [stack, top, closings, openings]
  | pop =>
      obtain ⟨s', hstep, hpolygons, he⟩ := hs.pop_ok hne
      refine ⟨s', hstep, by simp [hpolygons], ?_⟩
      cases he with
      | stay _ _ plain => exact plain.elim
      | pop id rest t _ top here stack => simp [stack, top, closings, openings]
  | vertex =>
      obtain ⟨s', hstep, hpolygons, hstack⟩ := hs.vertex_ok hne (hv rfl)
      refine ⟨s', hstep, by simp [hpolygons, hv], ?_⟩
      simp [hstack, closings, openings]
  | rest | closePolygon | reseed => exact ⟨s, rfl, by simp, by simp [closings, openings]⟩
  | openPolygon => exact ⟨_, rfl, by simp, by simp [closings, openings]⟩
  | move | grow | width | setLength | roll | pitch | turnLeft | turnRight | verticate | descend =>
      refine hs.step_onTop hne rfl (by simp) ?_
      simp [closings, openings]

theorem step_error (hs : s.Settled) {obstacle : Obstacle} (h : s.step i = .error obstacle) :
    s.stack = [] ∧ obstacle = .emptyStack ∨ i = .vertex ∧ obstacle = .noOpenPolygon := by
  by_cases hne : s.stack = []
  · left
    refine ⟨hne, ?_⟩
    cases i <;> simp_all [step, Replay.advance, onTop, push, pop, vertex]
  · right
    by_cases hv : i = .vertex ∧ s.polygons = []
    · obtain ⟨rfl, hpolygons⟩ := hv
      cases (hs.vertex_error hne hpolygons).symm.trans h
      exact ⟨rfl, rfl⟩
    · obtain ⟨s', hstep, -⟩ := hs.step_ok hne fun hi hp => hv ⟨hi, hp⟩
      cases hstep.symm.trans h

theorem step_follows (hs : s.Settled) {o o' : Outline} (h : Follows s o)
    (ho : o.next? i = some o') : ∃ s', s.step i = .ok s' ∧ Follows s' o' := by
  obtain ⟨hvertex, hdepth, hdrawing⟩ := Outline.next?_eq_some ho
  have hne : s.stack ≠ [] := List.ne_nil_of_length_eq_add_one h.depth
  obtain ⟨s', hstep, hpolygons, hstack⟩ :=
    hs.step_ok hne fun hi => h.drawing.mpr (hvertex hi)
  refine ⟨s', hstep, ?_, ?_⟩
  · have hlength := h.depth
    omega
  · rw [hpolygons, hdrawing, h.drawing]

theorem run_follows (hs : s.Settled) {program : List (Instruction α)} (index : Nat)
    {o o' : Outline} (h : Follows s o) (ho : o.run program = some o') :
    ∃ s', s.run index program = .ok s' ∧ Follows s' o' := by
  induction program generalizing s index o with
  | nil =>
      cases ho
      exact ⟨s, rfl, h⟩
  | cons i is ih =>
      obtain ⟨r, hr, hrun⟩ := Option.bind_eq_some_iff.mp ho
      obtain ⟨s₁, hstep, hfollows⟩ := hs.step_follows h hr
      rw [Replay.run, hstep]
      exact ih (hs.after (hs.effect hstep)) _ hfollows hrun

end Settled

theorem step_drained (hnil : s.stack = []) (h : s.step i = .ok s') : s'.stack = [] := by
  cases i with
  | openPolygon | rest | closePolygon | reseed =>
      cases h
      exact hnil
  | _ => simp [step, Replay.advance, onTop, push, pop, vertex, hnil] at h

theorem run_drained {program : List (Instruction α)} {index : Nat} (hnil : s.stack = [])
    (h : s.run index program = .ok s') : s'.stack = [] := by
  induction program generalizing s index with
  | nil =>
      cases h
      exact hnil
  | cons i is ih =>
      obtain ⟨r, hr, hrun⟩ := run_cons_ok h
      exact ih (step_drained hnil hr) hrun

/-- Where the outline ends, a run is obstructed or loses its last turtle. -/
theorem Settled.run_astray (hs : s.Settled) {program : List (Instruction α)} {index : Nat}
    {o : Outline} (h : Follows s o) (ho : o.run program = none)
    (hrun : s.run index program = .ok s') : s'.stack = [] := by
  induction program generalizing s index o with
  | nil => cases ho
  | cons i is ih =>
      obtain ⟨r, hr, hrest⟩ := run_cons_ok hrun
      cases hnext : o.next? i with
      | some o₁ =>
          obtain ⟨r', hr', hfollows⟩ := hs.step_follows h hnext
          cases hr.symm.trans hr'
          rw [Outline.run, hnext] at ho
          exact ih (hs.after (hs.effect hr)) hfollows ho hrest
      | none =>
          have hne : s.stack ≠ [] := List.ne_nil_of_length_eq_add_one h.depth
          rcases Outline.next?_eq_none hnext with ⟨rfl, hdepth⟩ | ⟨rfl, hdrawing⟩
          · obtain ⟨r', hr', -, hstack⟩ := hs.step_ok hne (i := .pop) (by simp)
            cases hr.symm.trans hr'
            have hlength := h.depth
            have hzero : r.stack.length = 0 := by
              simp only [closings, openings, List.countP_singleton] at hstack
              simp at hstack
              omega
            exact run_drained (List.eq_nil_of_length_eq_zero hzero) hrest
          · have hpolygons : s.polygons = [] := by
              simpa [hdrawing] using h.drawing
            cases (hs.vertex_error hne hpolygons).symm.trans hr

theorem Settled.run_outline (hs : s.Settled) {program : List (Instruction α)} {index : Nat}
    {o : Outline} (h : Follows s o) (hrun : s.run index program = .ok s') (hne : s'.stack ≠ []) :
    ∃ o', o.run program = some o' ∧ Follows s' o' := by
  cases ho : o.run program with
  | none => exact (hne (hs.run_astray h ho hrun)).elim
  | some o' =>
      obtain ⟨r, hr, hfollows⟩ := hs.run_follows index h ho
      cases hr.symm.trans hrun
      exact ⟨o', rfl, hfollows⟩

theorem Settled.run_error (hs : s.Settled) {program : List (Instruction α)} {index : Nat}
    {fault : Fault α} (h : s.run index program = .error fault) :
    ∃ obstacle n i, fault = .obstructed obstacle (index + n) i ∧ program[n]? = some i ∧
      obstacle ≠ .removedTurtle := by
  induction program generalizing s index with
  | nil => cases h
  | cons i is ih =>
      rw [Replay.run] at h
      cases hstep : s.step i with
      | error obstacle =>
          rw [hstep] at h
          cases h
          refine ⟨obstacle, 0, i, rfl, rfl, ?_⟩
          rcases hs.step_error hstep with ⟨-, rfl⟩ | ⟨-, rfl⟩ <;> simp
      | ok r =>
          rw [hstep] at h
          obtain ⟨obstacle, n, j, rfl, hj, hobstacle⟩ := ih (hs.after (hs.effect hstep)) h
          exact ⟨obstacle, n + 1, j, by rw [Nat.add_right_comm, Nat.add_assoc], hj, hobstacle⟩

end Replay

theorem interpret_of_run {program : List (Instruction α)} {drawing : Bool} (pose : Pose α)
    (h : Outline.run ⟨0, false⟩ program = some ⟨0, drawing⟩) :
    ∃ out, interpret program pose = .ok out := by
  obtain ⟨s, hrun, hfollows⟩ :=
    (Replay.Settled.start pose).run_follows 0 (.start pose) h
  obtain ⟨id, hid⟩ := List.length_eq_one_iff.mp hfollows.depth
  unfold interpret
  rw [hrun]
  simp [hid]

/-- The well formed programs are accepted and no others; faults name what is malformed. -/
theorem interpret_ok_iff (program : List (Instruction α)) (pose : Pose α) :
    ((∃ out, interpret program pose = .ok out) ↔ WellFormed program) ∧
    ∀ fault, interpret program pose = .error fault →
      (∃ obstacle index i, fault = .obstructed obstacle index i ∧ program[index]? = some i ∧
        obstacle ≠ .removedTurtle) ∨ ∃ turtles, fault = .unbalanced turtles := by
  have hs := Replay.Settled.start pose
  refine ⟨⟨?_, ?_⟩, ?_⟩
  · rintro ⟨out, hout⟩
    unfold interpret at hout
    split at hout
    next => cases hout
    next s hrun =>
      split at hout
      next id hstack =>
        have hne : s.stack ≠ [] := by simp [hstack]
        obtain ⟨o, ho, hfollows⟩ := hs.run_outline (.start pose) hrun hne
        have hdepth := hfollows.depth
        rw [hstack] at hdepth
        have hzero : o.depth = 0 := by simpa using hdepth.symm
        refine (wellFormed_iff program).mpr ⟨o.drawing, ho.trans ?_⟩
        rw [← hzero]
      next => cases hout
  · intro hwell
    obtain ⟨drawing, hrun⟩ := (wellFormed_iff program).mp hwell
    exact interpret_of_run pose hrun
  · intro fault hfault
    unfold interpret at hfault
    split at hfault
    next fault' hrun =>
      cases hfault
      obtain ⟨obstacle, n, i, rfl, hi, hobstacle⟩ := hs.run_error hrun
      rw [Nat.zero_add]
      exact .inl ⟨obstacle, n, i, rfl, hi, hobstacle⟩
    next =>
      split at hfault
      next => cases hfault
      next =>
        cases hfault
        exact .inr ⟨_, rfl⟩

end Arbor
