import Arbor.Proofs.ReplayEffects

namespace Arbor

namespace Replay

variable {α : Type} [Scalar α] {s s' : Replay α} {i : Instruction α}

theorem run_cons_ok {program : List (Instruction α)} {index : Nat}
    (h : s.run index (i :: program) = .ok s') :
    ∃ r, s.step i = .ok r ∧ r.run (index + 1) program = .ok s' := by
  rw [run] at h
  cases hstep : s.step i with
  | error obstacle => simp [hstep] at h
  | ok r =>
      rw [hstep] at h
      exact ⟨r, rfl, h⟩

namespace Settled

theorem of_effect (hs : s.Settled) (he : Effect s i s')
    (hdistinct : (s'.stack ++ s'.retired).Nodup)
    (hliving : ∀ id t, s'.forest.get? id = some t → id ∈ s'.stack ++ s'.retired)
    (hpending : ∀ id ∈ s'.stack,
      ∃ t, s'.forest.get? id = some t ∧ t.complete = false ∧ t.children = []) : s'.Settled :=
  ⟨hdistinct, hliving, hpending, fun _ hid => he.finished hs hid,
    fun _ _ _ hu hp => he.lineage hs hu hp⟩

theorem after_advance (hs : s.Settled) {e : α} (he : Effect s (.advance e) s') : s'.Settled := by
  have hsettled := hs.of_effect he
  have hbelow {j : Nat} (hj : j ∈ s.stack) (htop : s.stack.head? ≠ some j) :=
    he.get?_below hs hj htop
  cases he with
  | stay _ _ plain => exact plain.elim
  | advance _ id rest t _ top here stack retired size slot =>
      have hmem (j : Nat) : j ∈ s'.stack ++ s'.retired ↔
          j = s.forest.slots.size ∨ j ∈ s.stack ++ s.retired := by
        simp only [stack, retired, top, List.mem_append, List.mem_cons]
        tauto
      refine hsettled ?_ ?_ ?_
      · have hdistinct : (id :: (rest ++ s.retired)).Nodup := by simpa [top] using hs.distinct
        have hfresh := hs.fresh
        rw [stack, retired]
        refine List.nodup_cons.mpr ⟨?_, List.nodup_middle.mpr hdistinct⟩
        simpa [top, or_left_comm] using hfresh
      · intro j u h
        rw [hmem]
        rw [slot] at h
        split at h
        next hj => exact .inl hj
        next =>
          right
          split at h
          next hji => exact hs.living j t (hji ▸ here)
          next => exact hs.living j u h
      · intro j hj
        rw [stack] at hj
        rcases List.mem_cons.mp hj with rfl | hj
        · exact ⟨_, by rw [slot, if_pos rfl], rfl, rfl⟩
        · have hjs : j ∈ s.stack := top ▸ List.mem_cons_of_mem _ hj
          rw [hbelow hjs (hs.head?_ne top (List.mem_append_left _ hj))]
          exact hs.pending j hjs

theorem after_push (hs : s.Settled) (he : Effect s .push s') : s'.Settled := by
  have hsettled := hs.of_effect he
  cases he with
  | stay _ _ plain => exact plain.elim
  | push id rest t _ top here stack retired size slot =>
      have hstack : s'.stack = s.forest.slots.size :: s.stack := by rw [stack, top]
      refine hsettled ?_ ?_ ?_
      · rw [hstack, retired]
        exact List.nodup_cons.mpr ⟨hs.fresh, hs.distinct⟩
      · intro j u h
        rw [hstack, retired, List.cons_append, List.mem_cons]
        by_cases hj : j = s.forest.slots.size
        · exact .inl hj
        · have hbare : s'.forest.bare? j = s.forest.bare? j :=
            Forest.bare?_relist (by rw [slot, if_neg hj])
          obtain ⟨v, hv, -⟩ := Forest.get?_of_bare? hbare h
          exact .inr (hs.living j v hv)
      · intro j hj
        rw [hstack] at hj
        rcases List.mem_cons.mp hj with rfl | hj
        · exact ⟨_, by rw [slot, if_pos rfl], rfl, rfl⟩
        · have hne := hs.ne_fresh (List.mem_append_left _ hj)
          rw [slot, if_neg hne, if_neg (hs.not_parent here hj)]
          exact hs.pending j hj

theorem after_pop (hs : s.Settled) (he : Effect s .pop s') : s'.Settled := by
  have hsettled := hs.of_effect he
  have hbelow {j : Nat} (hj : j ∈ s.stack) (htop : s.stack.head? ≠ some j) :=
    he.get?_below hs hj htop
  cases he with
  | stay _ _ plain => exact plain.elim
  | pop id rest t _ top here stack retired size slot =>
      refine hsettled ?_ ?_ ?_
      · have hdistinct : (id :: (rest ++ s.retired)).Nodup := by simpa [top] using hs.distinct
        rw [stack, retired]
        exact (List.nodup_cons.mp hdistinct).2
      · intro j u h
        have hji : j ≠ id := by
          rintro rfl
          rw [slot, if_pos rfl] at h
          cases h
        have hbare : s'.forest.bare? j = s.forest.bare? j :=
          Forest.bare?_relist (by rw [slot, if_neg hji])
        obtain ⟨v, hv, -⟩ := Forest.get?_of_bare? hbare h
        have hj := hs.living j v hv
        rw [top, List.cons_append] at hj
        rw [stack, retired]
        exact (List.mem_cons.mp hj).resolve_left hji
      · intro j hj
        rw [stack] at hj
        have hjs : j ∈ s.stack := top ▸ List.mem_cons_of_mem _ hj
        rw [hbelow hjs (hs.head?_ne top (List.mem_append_left _ hj))]
        exact hs.pending j hjs

theorem after_stay (hs : s.Settled) (hplain : i.IsPlain) (he : Effect s i s') : s'.Settled := by
  have hsettled := hs.of_effect he
  cases he with
  | advance | push | pop => exact hplain.elim
  | stay _ _ _ stack retired size slot =>
      refine hsettled ?_ ?_ ?_
      · rw [stack, retired]
        exact hs.distinct
      · intro j u h
        rw [stack, retired]
        rw [slot] at h
        split at h
        · obtain ⟨v, hv, -⟩ := Option.map_eq_some_iff.mp h
          exact hs.living j v hv
        · exact hs.living j u h
      · intro j hj
        obtain ⟨v, hv, hopen, hchild⟩ := hs.pending j (stack ▸ hj)
        rw [slot, hv]
        split
        · exact ⟨_, rfl, hopen, hchild⟩
        · exact ⟨v, rfl, hopen, hchild⟩

theorem after (hs : s.Settled) (he : Effect s i s') : s'.Settled := by
  cases i with
  | advance => exact hs.after_advance he
  | push => exact hs.after_push he
  | pop => exact hs.after_pop he
  | _ =>
      refine hs.after_stay ?_ he
      exact trivial

/-- A relation to a second state that every effect keeps holds along a run. The second state is
led along by the instructions alone. -/
theorem run_related {σ : Type} (rel : Replay α → σ → Prop) (next : σ → Instruction α → σ)
    (hstep : ∀ s i s' g, s.Settled → rel s g → Effect s i s' → rel s' (next g i))
    {program : List (Instruction α)} {index : Nat} {g : σ} (hs : s.Settled) (hrel : rel s g)
    (h : s.run index program = .ok s') : s'.Settled ∧ rel s' (program.foldl next g) := by
  induction program generalizing s index g with
  | nil =>
      cases h
      exact ⟨hs, hrel⟩
  | cons i is ih =>
      obtain ⟨r, hr, hrun⟩ := run_cons_ok h
      have he := hs.effect hr
      exact ih (hs.after he) (hstep s i r g hs hrel he) hrun

theorem run_kept (inv : Replay α → Prop)
    (hstep : ∀ s i s', s.Settled → inv s → Effect s i s' → inv s')
    {program : List (Instruction α)} {index : Nat} (hs : s.Settled) (hinv : inv s)
    (h : s.run index program = .ok s') : s'.Settled ∧ inv s' :=
  hs.run_related (fun s (_ : Unit) => inv s) (fun g _ => g)
    (fun s i s' _ hs h he => hstep s i s' hs h he) (g := ()) hinv h

theorem run (hs : s.Settled) {program : List (Instruction α)} {index : Nat}
    (h : s.run index program = .ok s') : s'.Settled :=
  (hs.run_kept (fun _ => True) (fun _ _ _ _ _ _ => trivial) trivial h).1

end Settled

theorem run_append (s : Replay α) (index : Nat) (p q : List (Instruction α)) :
    s.run index (p ++ q) = (s.run index p).bind fun s' => s'.run (index + p.length) q := by
  induction p generalizing s index with
  | nil => rfl
  | cons i is ih =>
      simp only [List.cons_append, run]
      cases s.step i with
      | error obstacle => rfl
      | ok r =>
          change r.run (index + 1) (is ++ q) = (r.run (index + 1) is).bind _
          rw [ih, List.length_cons, Nat.add_assoc, Nat.add_comm 1]

theorem run_append_ok {p q : List (Instruction α)} {index : Nat}
    (h : s.run index (p ++ q) = .ok s') :
    ∃ r, s.run index p = .ok r ∧ r.run (index + p.length) q = .ok s' := by
  rw [run_append] at h
  cases hp : s.run index p with
  | error fault => simp [hp, Except.bind] at h
  | ok r =>
      rw [hp] at h
      exact ⟨r, rfl, h⟩

end Replay

/-- An accepted program leaves what a run leaves that goes on with one more closing bracket. -/
theorem interpret_run {α : Type} [Scalar α] {program : List (Instruction α)} {pose : Pose α}
    {out : Interpretation α} (h : interpret program pose = .ok out) :
    ∃ s, (Replay.start pose).run 0 (program ++ [.pop]) = .ok s ∧ s.stack = [] ∧
      out.forest = s.forest ∧ out.retired = s.retired.reverse := by
  unfold interpret at h
  split at h
  next => cases h
  next s hrun =>
    split at h
    next id hstack =>
      cases h
      refine ⟨{ s with forest := s.forest.remove id, stack := [] }, ?_, rfl, rfl, rfl⟩
      rw [Replay.run_append, hrun]
      simp [Except.bind, Replay.run, Replay.step, Replay.pop, hstack]
    next => cases h

end Arbor
