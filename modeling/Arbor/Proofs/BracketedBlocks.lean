import Arbor.Proofs.Brackets
import Arbor.Proofs.ReplayRuns

namespace Arbor.Replay

variable {α : Type}

/-- The state `s` has `n` turtles of its own above the stack of `base`, and leaves the turtles of
`base` alone. -/
structure Shelters (base : Replay α) (n : Nat) (s : Replay α) : Prop where
  own : ∃ own, s.stack = own ++ base.stack ∧ own.length = n ∧
    ∀ id ∈ own, base.forest.get? id = none
  below : ∀ id ∈ base.stack, s.forest.get? id = base.forest.get? id
  kept : ∀ id t, base.forest.get? id = some t → s.forest.bare? id = base.forest.bare? id

namespace Shelters

variable {base s s' : Replay α} {n : Nat} {i : Instruction α}

theorem refl (s : Replay α) : Shelters s 0 s :=
  ⟨⟨[], rfl, rfl, nofun⟩, fun _ _ => rfl, fun _ _ _ => rfl⟩

theorem live (h : Shelters base n s) {id : TurtleId} {t : Turtle α}
    (ht : base.forest.get? id = some t) : ∃ u, s.forest.get? id = some u := by
  obtain ⟨u, hu, -⟩ := Forest.get?_of_bare? (h.kept id t ht).symm ht
  exact ⟨u, hu⟩

theorem fresh (h : Shelters base n s) : base.forest.get? s.forest.slots.size = none := by
  cases ht : base.forest.get? s.forest.slots.size with
  | none => rfl
  | some t =>
      obtain ⟨u, hu⟩ := h.live ht
      exact (Nat.lt_irrefl _ (Forest.lt_size hu)).elim

theorem top (h : Shelters base (n + 1) s) : ∃ id own, s.stack = id :: (own ++ base.stack) ∧
    own.length = n ∧ base.forest.get? id = none ∧ ∀ j ∈ own, base.forest.get? j = none := by
  obtain ⟨own, hstack, hlen, hown⟩ := h.own
  obtain ⟨id, own, rfl⟩ := List.exists_cons_of_length_eq_add_one hlen
  exact ⟨id, own, hstack, by simpa using hlen, hown id List.mem_cons_self,
    fun j hj => hown j (List.mem_cons_of_mem _ hj)⟩

theorem next (h : Shelters base n s) (hbase : base.Settled) {own : List TurtleId}
    (hstack : s'.stack = own ++ base.stack) (hown : ∀ id ∈ own, base.forest.get? id = none)
    (hbare : ∀ id t, base.forest.get? id = some t → s'.forest.bare? id = s.forest.bare? id)
    (hbelow : ∀ id t, base.forest.get? id = some t → id ∈ base.stack →
      s'.forest.get? id = s.forest.get? id) : Shelters base own.length s' := by
  refine ⟨⟨own, hstack, rfl, hown⟩, ?_, ?_⟩
  · intro id hid
    obtain ⟨t, ht, -⟩ := hbase.pending id hid
    rw [hbelow id t ht hid, h.below id hid]
  · intro id t ht
    rw [hbare id t ht, h.kept id t ht]

variable [Scalar α]

theorem next_of_top (h : Shelters base (n + 1) s) (hbase : base.Settled) (hs : s.Settled)
    (he : Effect s i s') (own : List TurtleId) (hstack : s'.stack = own ++ base.stack)
    (hown : ∀ id ∈ own, base.forest.get? id = none) : Shelters base own.length s' := by
  obtain ⟨id, lower, htop, -, hid, -⟩ := h.top
  have hhead (j : TurtleId) (t : Turtle α) (ht : base.forest.get? j = some t) :
      s.stack.head? ≠ some j := by
    rw [htop, List.head?_cons]
    rintro ⟨rfl⟩
    simp [ht] at hid
  refine h.next hbase hstack hown ?_ ?_
  · intro j t ht
    exact he.bare?_eq (Forest.ne_of_get? ht h.fresh) (hhead j t ht)
  · intro j t ht hj
    have hjs : j ∈ s.stack := by simp [htop, hj]
    exact he.get?_below hs hjs (hhead j t ht)

theorem after_advance (h : Shelters base (n + 1) s) (hbase : base.Settled) (hs : s.Settled) {e : α}
    (he : Effect s (.advance e) s') : Shelters base (n + 1) s' := by
  obtain ⟨id, own, htop, rfl, -, hown⟩ := h.top
  have hnext := h.next_of_top hbase hs he (s.forest.slots.size :: own)
  cases he with
  | stay _ _ plain => exact plain.elim
  | advance _ id' rest t _ top here stack =>
      obtain ⟨rfl, rfl⟩ := List.cons.inj (top.symm.trans htop)
      exact hnext stack (List.forall_mem_cons.mpr ⟨h.fresh, hown⟩)

theorem after_push (h : Shelters base n s) (hbase : base.Settled) (hs : s.Settled)
    (he : Effect s .push s') : Shelters base (n + 1) s' := by
  cases he with
  | stay _ _ plain => exact plain.elim
  | push id rest t _ top here stack retired size slot =>
      obtain ⟨own, hown, rfl, hnone⟩ := h.own
      have hstack : s'.stack = (s.forest.slots.size :: own) ++ base.stack := by
        rw [stack, ← top, hown, List.cons_append]
      refine h.next hbase hstack ?_ ?_ ?_
      · exact List.forall_mem_cons.mpr ⟨h.fresh, hnone⟩
      · intro j t ht
        exact Forest.bare?_relist (by rw [slot, if_neg (Forest.ne_of_get? ht h.fresh)])
      · intro j t ht hj
        have hjs : j ∈ s.stack := hown ▸ List.mem_append_right _ hj
        rw [slot, if_neg (Forest.ne_of_get? ht h.fresh), if_neg (hs.not_parent here hjs)]

theorem after_pop (h : Shelters base (n + 1) s) (hbase : base.Settled) (hs : s.Settled)
    (he : Effect s .pop s') : Shelters base n s' := by
  obtain ⟨id, own, htop, rfl, -, hown⟩ := h.top
  have hnext := h.next_of_top hbase hs he own
  cases he with
  | stay _ _ plain => exact plain.elim
  | pop id' rest t _ top here stack =>
      obtain ⟨rfl, rfl⟩ := List.cons.inj (top.symm.trans htop)
      exact hnext stack hown

theorem after_stay (h : Shelters base (n + 1) s) (hbase : base.Settled) (hs : s.Settled)
    (hplain : i.IsPlain) (he : Effect s i s') : Shelters base (n + 1) s' := by
  obtain ⟨id, own, htop, rfl, hid, hown⟩ := h.top
  have hnext := h.next_of_top hbase hs he (id :: own)
  cases he with
  | advance | push | pop => exact hplain.elim
  | stay _ _ _ stack => exact hnext (stack.trans htop) (List.forall_mem_cons.mpr ⟨hid, hown⟩)

/-- The turtles above `base` are as many as the brackets opened since, and one more. -/
theorem after {o o' : Outline} (h : Shelters base (o.depth + 1) s) (hbase : base.Settled)
    (hs : s.Settled) (he : Effect s i s') (ho : o.next? i = some o') :
    Shelters base (o'.depth + 1) s' := by
  obtain ⟨-, hdepth, -⟩ := Outline.next?_eq_some ho
  cases i with
  | push =>
      have hd : o'.depth = o.depth + 1 := by simpa [closings, openings] using hdepth
      exact hd ▸ h.after_push hbase hs he
  | pop =>
      have hd : o.depth = o'.depth + 1 := by simpa [closings, openings] using hdepth.symm
      exact (hd ▸ h).after_pop hbase hs he
  | advance e =>
      have hd : o'.depth = o.depth := by simpa [closings, openings] using hdepth
      exact hd ▸ h.after_advance hbase hs he
  | _ =>
      have hd : o'.depth = o.depth := by simpa [closings, openings] using hdepth
      refine hd ▸ h.after_stay hbase hs ?_ he
      exact trivial

end Shelters

variable [Scalar α] {s s' : Replay α} {block : List (Instruction α)} {index : Nat}

theorem Settled.run_block (hs : s.Settled) (hblock : WellBracketed block)
    (h : s.run index (.push :: block ++ [.pop]) = .ok s') : Shelters s 0 s' := by
  obtain ⟨opened, hpush, hrun⟩ := run_cons_ok h
  have heffect := hs.effect hpush
  obtain ⟨inner, hinner, hpop⟩ := run_append_ok hrun
  have hrel : Shelters s 1 opened := (Shelters.refl s).after_push hs hs heffect
  -- the run is followed by an outline that starts at depth zero inside the bracket
  let rel (r : Replay α) (o : Option Outline) : Prop :=
    ∀ o', o = some o' → Shelters s (o'.depth + 1) r
  have hstep (r : Replay α) (i : Instruction α) (r' : Replay α) (o : Option Outline)
      (hr : r.Settled) (h : rel r o) (he : Effect r i r') :
      rel r' (o.bind fun o => o.next? i) := by
    intro o' ho
    obtain ⟨o, rfl, hnext⟩ := Option.bind_eq_some_iff.mp ho
    exact (h o rfl).after hs hr he hnext
  have hzero : rel opened (some ⟨0, true⟩) := by
    rintro o' ⟨rfl⟩
    exact hrel
  obtain ⟨hsettled, hend⟩ := (hs.after heffect).run_related rel _ hstep hzero hinner
  rw [Outline.foldl_next?, Option.bind_some, (wellBracketed_iff block).mp hblock] at hend
  obtain ⟨r, hr, hlast⟩ := run_cons_ok hpop
  cases hlast
  exact (hend _ rfl).after_pop hs hsettled (hsettled.effect hr)

end Arbor.Replay
