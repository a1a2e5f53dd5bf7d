import Arbor.Assembly.Branches
import Arbor.Proofs.Sketches

namespace Arbor

variable {α : Type}

namespace Forest

/-- Children lists hold the turtles that name the parent, in order of creation. -/
structure Listed (f : Forest α) : Prop where
  sorted : ∀ id t, f.get? id = some t → t.children.Pairwise (· < ·)
  linked : ∀ id t c, f.get? id = some t → (c ∈ t.children ↔ f.parent? c = some id)

theorem parent?_congr {f g : Forest α} {id : TurtleId} (h : g.bare? id = f.bare? id) :
    g.parent? id = f.parent? id := by
  have hbare (f : Forest α) : f.parent? id = (f.bare? id).bind Turtle.parent := by
    rw [bare?, Option.bind_map]
    rfl
  rw [hbare, hbare, h]

theorem Listed.start (pose : Pose α) : (Replay.start pose).forest.Listed := by
  have hget (j : Nat) (t : Turtle α) (h : (Replay.start pose).forest.get? j = some t) :
      t = { pose } := by
    change (Forest.empty.spawn pose).2.get? j = _ at h
    rw [get?_spawn, get?_empty] at h
    split at h
    · exact (Option.some.inj h).symm
    · cases h
  constructor
  · intro id t h
    rw [hget id t h]
    exact .nil
  · intro id t c h
    rw [hget id t h]
    refine ⟨fun hc => (List.not_mem_nil hc).elim, fun hc => ?_⟩
    obtain ⟨u, hu, hparent⟩ := Option.bind_eq_some_iff.mp hc
    rw [hget c u hu] at hparent
    cases hparent

end Forest

namespace Replay

variable {s s' : Replay α} {i : Instruction α}

namespace Settled

theorem parent?_mem (hs : s.Settled) {c p : Nat} (h : s.forest.parent? c = some p) :
    p ∈ s.retired ∧ c < s.forest.slots.size := by
  obtain ⟨t, ht, hparent⟩ := Option.bind_eq_some_iff.mp h
  exact ⟨(hs.lineage c t p ht hparent).1, Forest.lt_size ht⟩

theorem parent?_ne (hs : s.Settled) {c j : Nat} (hj : j ∈ s.stack) :
    s.forest.parent? c ≠ some j := by
  intro h
  exact (List.nodup_append.mp hs.distinct).2.2 j hj j (hs.parent?_mem h).1 rfl

end Settled

variable [Scalar α]

theorem Effect.listed_advance (hs : s.Settled) (h : s.forest.Listed) {e : α}
    (he : Effect s (.advance e) s') : s'.forest.Listed := by
  cases he with
  | stay _ _ plain => exact plain.elim
  | advance _ id rest t _ top here stack retired size slot =>
      have hid : id ≠ s.forest.slots.size := Nat.ne_of_lt (Forest.lt_size here)
      have hparent (c : Nat) : s'.forest.parent? c =
          if c = s.forest.slots.size then some id else s.forest.parent? c := by
        rw [Forest.parent?, slot]
        split
        · rfl
        · split
          next hc => rw [hc, Forest.parent?_eq here]; rfl
          next => rfl
      constructor
      · intro p u hu
        rw [slot] at hu
        split at hu
        · cases hu
          exact .nil
        · split at hu
          · cases hu
            exact List.pairwise_singleton _ _
          · exact h.sorted p u hu
      · intro p u c hu
        rw [slot] at hu
        rw [hparent]
        by_cases hp : p = s.forest.slots.size
        · rw [if_pos hp] at hu
          cases hu
          refine ⟨fun hc => (List.not_mem_nil hc).elim, fun hc => ?_⟩
          split at hc
          · cases hc
            exact (hid hp).elim
          · exact (hs.fresh (List.mem_append_right _ (hp ▸ (hs.parent?_mem hc).1))).elim
        · rw [if_neg hp] at hu
          by_cases hpi : p = id
          · rw [if_pos hpi] at hu
            cases hu
            have hnot := hs.parent?_ne (c := c) (j := id) (by rw [top]; exact List.mem_cons_self)
            by_cases hc : c = s.forest.slots.size
            · simp [hc, hpi]
            · simp [hc, hpi, hnot]
          · rw [if_neg hpi] at hu
            rw [h.linked p u c hu]
            by_cases hc : c = s.forest.slots.size
            · have hold : s.forest.parent? c ≠ some p := fun hcp =>
                Nat.lt_irrefl _ (hc ▸ (hs.parent?_mem hcp).2)
              simp [hc, Ne.symm hpi]
              exact hc ▸ hold
            · rw [if_neg hc]

theorem Effect.listed_push (hs : s.Settled) (h : s.forest.Listed) (he : Effect s .push s') :
    s'.forest.Listed := by
  cases he with
  | stay _ _ plain => exact plain.elim
  | push id rest t _ top here stack retired size slot =>
      have hnew (p : Nat) (hp : p = s.forest.slots.size) (q : Nat) (hq : q ∈ s.retired) : q ≠ p :=
        fun he => hs.fresh (List.mem_append_right _ (hp ▸ he ▸ hq))
      have hparent (c : Nat) : s'.forest.parent? c =
          if c = s.forest.slots.size then t.parent else s.forest.parent? c := by
        by_cases hc : c = s.forest.slots.size
        · rw [if_pos hc, Forest.parent?, slot, if_pos hc]
          rfl
        · rw [if_neg hc]
          exact Forest.parent?_congr (Forest.bare?_relist (by rw [slot, if_neg hc]))
      have hold (c p : Nat) (hcp : s.forest.parent? c = some p) : c < s.forest.slots.size :=
        (hs.parent?_mem hcp).2
      constructor
      · intro p u hu
        rw [slot] at hu
        split at hu
        · cases hu
          exact .nil
        · split at hu
          · obtain ⟨v, hv, rfl⟩ := Option.map_eq_some_iff.mp hu
            refine List.pairwise_append.mpr ⟨h.sorted p v hv, List.pairwise_singleton _ _, ?_⟩
            intro c hc d hd
            rw [List.mem_singleton.mp hd]
            exact hold c p ((h.linked p v c hv).mp hc)
          · exact h.sorted p u hu
      · intro p u c hu
        rw [slot] at hu
        rw [hparent]
        by_cases hp : p = s.forest.slots.size
        · rw [if_pos hp] at hu
          cases hu
          refine ⟨fun hc => (List.not_mem_nil hc).elim, fun hc => ?_⟩
          split at hc
          · exact (hnew p hp p (hs.lineage id t p here hc).1 rfl).elim
          · exact (hnew p hp p (hs.parent?_mem hc).1 rfl).elim
        · rw [if_neg hp] at hu
          by_cases hc : c = s.forest.slots.size
          · rw [if_pos hc]
            have hnot (v : Turtle α) (hv : s.forest.get? p = some v) : c ∉ v.children :=
              fun hm => Nat.lt_irrefl _ (hc ▸ hold c p ((h.linked p v c hv).mp hm))
            split at hu
            next htp =>
              obtain ⟨v, hv, rfl⟩ := Option.map_eq_some_iff.mp hu
              simp [htp, hc]
            next htp => simp [htp, hnot u hu]
          · rw [if_neg hc]
            split at hu
            · obtain ⟨v, hv, rfl⟩ := Option.map_eq_some_iff.mp hu
              rw [List.mem_append, List.mem_singleton, h.linked p v c hv]
              simp [hc]
            · exact h.linked p u c hu

theorem Effect.listed_pop (h : s.forest.Listed) (he : Effect s .pop s') :
    s'.forest.Listed := by
  cases he with
  | stay _ _ plain => exact plain.elim
  | pop id rest t _ top here stack retired size slot =>
      have hparent (c : Nat) : s'.forest.parent? c =
          if c = id then none else s.forest.parent? c := by
        by_cases hc : c = id
        · rw [if_pos hc, Forest.parent?, slot, if_pos hc]
          rfl
        · rw [if_neg hc]
          exact Forest.parent?_congr (Forest.bare?_relist (by rw [slot, if_neg hc]))
      have hid : s.forest.parent? id = t.parent := Forest.parent?_eq here
      constructor
      · intro p u hu
        rw [slot] at hu
        split at hu
        · cases hu
        · split at hu
          · obtain ⟨v, hv, rfl⟩ := Option.map_eq_some_iff.mp hu
            exact (h.sorted p v hv).filter _
          · exact h.sorted p u hu
      · intro p u c hu
        rw [slot] at hu
        rw [hparent]
        split at hu
        next => cases hu
        next =>
          split at hu
          next htp =>
            obtain ⟨v, hv, rfl⟩ := Option.map_eq_some_iff.mp hu
            rw [List.mem_filter, h.linked p v c hv]
            by_cases hc : c = id <;> simp [hc]
          next htp =>
            rw [h.linked p u c hu]
            by_cases hc : c = id
            · simp [hc, hid, htp]
            · rw [if_neg hc]

theorem Effect.listed_stay (h : s.forest.Listed) (hplain : i.IsPlain) (he : Effect s i s') :
    s'.forest.Listed := by
  cases he with
  | advance | push | pop => exact hplain.elim
  | stay _ _ _ stack retired size slot =>
      have hold (j : Nat) (u : Turtle α) (hu : s'.forest.get? j = some u) :
          ∃ v, s.forest.get? j = some v ∧ u.children = v.children := by
        rw [slot] at hu
        split at hu
        · obtain ⟨v, hv, rfl⟩ := Option.map_eq_some_iff.mp hu
          exact ⟨v, hv, rfl⟩
        · exact ⟨u, hu, rfl⟩
      have hparent (c : Nat) : s'.forest.parent? c = s.forest.parent? c := by
        rw [Forest.parent?, slot]
        split
        · rw [Option.bind_map]
          rfl
        · rfl
      constructor
      · intro p u hu
        obtain ⟨v, hv, hchildren⟩ := hold p u hu
        exact hchildren ▸ h.sorted p v hv
      · intro p u c hu
        obtain ⟨v, hv, hchildren⟩ := hold p u hu
        rw [hchildren, hparent, h.linked p v c hv]

theorem Effect.listed (hs : s.Settled) (h : s.forest.Listed) (he : Effect s i s') :
    s'.forest.Listed := by
  cases i with
  | advance => exact he.listed_advance hs h
  | push => exact he.listed_push hs h
  | pop => exact he.listed_pop h
  | _ =>
      refine he.listed_stay h ?_
      exact trivial

/-- Turtle `next` was the first one to be attached under `id`. -/
structure Continues (s : Replay α) (id next : Nat) : Prop where
  created : next < s.forest.slots.size
  attached : ∀ t, s.forest.get? next = some t → t.parent = some id
  first : ∀ c t, s.forest.get? c = some t → t.parent = some id → next ≤ c

namespace Continues

variable {id next : Nat}

theorem after (h : Continues s id next) (he : Effect s i s') : Continues s' id next := by
  constructor
  · exact Nat.lt_of_lt_of_le h.created he.size_le
  · intro u hu
    obtain ⟨v, hv, hparent⟩ := he.old hu h.created
    exact hparent.trans (h.attached v hv)
  · intro c u hu hparent
    rcases Nat.lt_or_ge c s.forest.slots.size with hc | hc
    · obtain ⟨v, hv, hold⟩ := he.old hu hc
      exact h.first c v hv (hold ▸ hparent)
    · exact Nat.le_trans (Nat.le_of_lt h.created) hc

theorem run (h : Continues s id next) (hs : s.Settled) {program : List (Instruction α)}
    {index : Nat} (hrun : s.run index program = .ok s') : Continues s' id next :=
  (hs.run_kept (fun r => Continues r id next) (fun _ _ _ _ h he => h.after he) h hrun).2

omit [Scalar α] in
theorem head? (h : Continues s id next) (hlisted : s.forest.Listed) {t u : Turtle α}
    (ht : s.forest.get? id = some t) (hu : s.forest.get? next = some u) :
    t.children.head? = some next := by
  have hmem : next ∈ t.children := by
    rw [hlisted.linked id t next ht, Forest.parent?_eq hu]
    exact h.attached u hu
  cases hchildren : t.children with
  | nil =>
      rw [hchildren] at hmem
      cases hmem
  | cons c cs =>
      have hc := (hlisted.linked id t c ht).mp (by rw [hchildren]; exact List.mem_cons_self)
      obtain ⟨v, hv, hparent⟩ := Option.bind_eq_some_iff.mp hc
      have hle : next ≤ c := h.first c v hv hparent
      have hsorted := hlisted.sorted id t ht
      rw [hchildren] at hmem hsorted
      rcases List.mem_cons.mp hmem with rfl | hlater
      · rfl
      · exact (Nat.not_lt_of_le hle ((List.pairwise_cons.mp hsorted).1 next hlater)).elim

end Continues

theorem Effect.continues (hs : s.Settled) {e : α} (he : Effect s (.advance e) s') :
    ∃ id next rest, s.stack = id :: rest ∧ s'.stack = next :: rest ∧ s'.retired = id :: s.retired ∧
      Continues s' id next := by
  cases he with
  | stay _ _ plain => exact plain.elim
  | advance _ id rest t _ top here stack retired size slot =>
      refine ⟨id, s.forest.slots.size, rest, top, stack, retired, ?_⟩
      have hid : id ∈ s.stack := by rw [top]; exact List.mem_cons_self
      constructor
      · rw [size]
        exact Nat.lt_succ_self _
      · intro u hu
        rw [slot, if_pos rfl] at hu
        cases hu
        rfl
      · intro c u hu hparent
        rw [slot] at hu
        split at hu
        next hc => exact Nat.le_of_eq hc.symm
        next =>
          split at hu
          next =>
            cases hu
            exact (hs.not_parent here hid hparent).elim
          next => exact (hs.not_parent hu hid hparent).elim

theorem Effect.retired_length (he : Effect s i s') :
    s'.retired.length = s.retired.length + advances [i] := by
  cases he with
  | advance _ id rest t _ top here stack retired => simp [retired, advances]
  | push id rest t _ top here stack retired => simp [retired, advances]
  | pop id rest t _ top here stack retired => simp [retired, advances]
  | stay _ _ plain stack retired =>
      cases i with
      | advance | push | pop => exact plain.elim
      | _ => simp [retired, advances]

theorem Settled.run_retired (hs : s.Settled) {program : List (Instruction α)} {index : Nat}
    (h : s.run index program = .ok s') :
    s.retired <:+ s'.retired ∧ s'.retired.length = s.retired.length + advances program := by
  induction program generalizing s index with
  | nil =>
      cases h
      exact ⟨List.suffix_refl _, rfl⟩
  | cons i is ih =>
      obtain ⟨r, hr, hrun⟩ := run_cons_ok h
      have he := hs.effect hr
      obtain ⟨hsuffix, hlength⟩ := ih (hs.after he) hrun
      refine ⟨he.retired_suffix.trans hsuffix, ?_⟩
      rw [hlength, he.retired_length, advances_cons i is]
      omega

theorem Settled.run_listed (hs : s.Settled) (h : s.forest.Listed)
    {program : List (Instruction α)} {index : Nat} (hrun : s.run index program = .ok s') :
    s'.forest.Listed :=
  (hs.run_kept (fun r => r.forest.Listed) (fun _ _ _ hs h he => he.listed hs h) h hrun).2

omit [Scalar α] in
theorem Settled.live_iff (hs : s.Settled) (hnil : s.stack = []) (id : Nat) :
    (∃ t, s.forest.get? id = some t) ↔ id ∈ s.retired := by
  constructor
  · rintro ⟨t, ht⟩
    simpa [hnil] using hs.living id t ht
  · intro hid
    obtain ⟨t, ht, -⟩ := hs.finished id hid
    exact ⟨t, ht⟩

end Replay

theorem Draws.parent_earlier {s : Replay α} {k : Sketch α} (h : Draws s k) {n : Nat}
    {id p : TurtleId} (hid : s.retired.reverse[n]? = some id)
    (hparent : s.forest.parent? id = some p) :
    ∃ m, m < n ∧ s.retired.reverse[m]? = some p := by
  obtain ⟨hn, -⟩ := List.getElem?_eq_some_iff.mp hid
  have hdepicts := h.segments n id _ hid (List.getElem?_eq_getElem (h.count ▸ hn))
  rw [hdepicts.parent] at hparent
  obtain ⟨m, -, hm⟩ := Option.bind_eq_some_iff.mp hparent
  rcases Nat.lt_or_ge m n with hmn | hmn
  · exact ⟨m, hmn, by rwa [List.getElem?_take_of_lt hmn] at hm⟩
  · rw [List.getElem?_take_eq_none hmn] at hm
    cases hm

variable [Scalar α]

/-- The forest of an accepted program is made of its retired turtles, and the copy that takes the
place of a turtle on the stack becomes its first child. -/
theorem interpret_forest {program : List (Instruction α)} {pose : Pose α} {out : Interpretation α}
    (h : interpret program pose = .ok out) :
    out.retired.Nodup ∧ out.retired.length = advances program ∧
    (∀ id, (∃ t, out.forest.get? id = some t) ↔ id ∈ out.retired) ∧
    (∀ id t, out.forest.get? id = some t → t.complete = true) ∧
    (∀ (n : Nat) id p, out.retired[n]? = some id → out.forest.parent? id = some p →
      ∃ m, m < n ∧ out.retired[m]? = some p) ∧
    (∀ id t, out.forest.get? id = some t → t.children.Pairwise (· < ·) ∧
      ∀ c, c ∈ t.children ↔ c ∈ out.retired ∧ out.forest.parent? c = some id) ∧
    ∀ before e after, program = before ++ .advance e :: after → ∃ s s' id next rest,
      (Replay.start pose).run 0 before = .ok s ∧ s.step (.advance e) = .ok s' ∧
      s.stack = id :: rest ∧ s'.stack = next :: rest ∧ id ∈ out.retired ∧
      (next ∈ out.retired → ∃ t child, out.forest.get? id = some t ∧
        out.forest.get? next = some child ∧ t.children.head? = some next ∧
        ∀ settings : Settings α,
          settings.endRadius out t = child.pose.width / Scalar.ofNat 2) := by
  obtain ⟨s, hrun, hnil, hforest, hretired⟩ := interpret_run h
  have hstart := Replay.Settled.start pose
  have hs := hstart.run hrun
  have hlisted := hstart.run_listed (Forest.Listed.start pose) hrun
  have hmem (id : TurtleId) : id ∈ out.retired ↔ id ∈ s.retired := by
    rw [hretired, List.mem_reverse]
  have hlive (id : TurtleId) : (∃ t, out.forest.get? id = some t) ↔ id ∈ out.retired := by
    rw [hforest, hmem, hs.live_iff hnil]
  rw [← hforest] at hlisted
  refine ⟨?_, ?_, hlive, ?_, ?_, ?_, ?_⟩
  · rw [hretired, List.nodup_reverse]
    simpa [hnil] using hs.distinct
  · rw [hretired, List.length_reverse, (hstart.run_retired hrun).2]
    simp [Replay.start, advances]
  · intro id t ht
    obtain ⟨u, hu, hcomplete⟩ := hs.finished id ((hmem id).mp ((hlive id).mp ⟨t, ht⟩))
    rw [hforest, hu] at ht
    cases ht
    exact hcomplete
  · intro n id p hid hparent
    rw [hretired] at hid ⊢
    exact ((Draws.start pose).run hstart hrun).parent_earlier hid (hforest ▸ hparent)
  · intro id t ht
    refine ⟨hlisted.sorted id t ht, fun c => ?_⟩
    rw [hlisted.linked id t c ht]
    refine ⟨fun hc => ⟨?_, hc⟩, fun hc => hc.2⟩
    obtain ⟨u, hu, -⟩ := Option.bind_eq_some_iff.mp hc
    exact (hlive c).mp ⟨u, hu⟩
  · rintro before e after rfl
    rw [List.append_assoc] at hrun
    obtain ⟨r, hr, hrest⟩ := Replay.run_append_ok hrun
    obtain ⟨r', hr', hlast⟩ := Replay.run_cons_ok hrest
    have hsettled := hstart.run hr
    have he := hsettled.effect hr'
    obtain ⟨id, next, rest, hstack, hstack', hnew, hcontinues⟩ := he.continues hsettled
    have hsettled' := hsettled.after he
    have hid : id ∈ out.retired := by
      rw [hmem]
      exact (hsettled'.run_retired hlast).1.subset (hnew ▸ List.mem_cons_self)
    refine ⟨r, r', id, next, rest, hr, hr', hstack, hstack', hid, fun hnext => ?_⟩
    obtain ⟨t, ht⟩ := (hlive id).mpr hid
    obtain ⟨child, hchild⟩ := (hlive next).mpr hnext
    have hhead : t.children.head? = some next :=
      (hcontinues.run hsettled' hlast).head? (hforest ▸ hlisted) (hforest ▸ ht) (hforest ▸ hchild)
    refine ⟨t, child, ht, hchild, hhead, fun settings => ?_⟩
    simp [Settings.endRadius, hhead, Interpretation.pose?, hchild]

/-- The turtle that goes on retires after the branch, and yet is the first child. -/
theorem interpret_forest_fork :
    let program : List (Instruction Float) :=
      [.advance 1, .push, .pitch 30, .advance 1, .pop, .advance 1]
    ∃ out t child, interpret program Pose.start = .ok out ∧ out.retired = [0, 2, 1] ∧
      out.forest.get? 0 = some t ∧ out.forest.get? 1 = some child ∧
      t.children.head? = some 1 ∧ ∀ settings : Settings Float,
        settings.endRadius out t = child.pose.width / Scalar.ofNat 2 := by
  intro program
  have hretired : (interpret program Pose.start).toOption.map Interpretation.retired =
      some [0, 2, 1] := rfl
  have hrun : Outline.run ⟨0, false⟩ program = some ⟨0, false⟩ := rfl
  obtain ⟨out, hout⟩ := interpret_of_run Pose.start hrun
  rw [hout] at hretired
  replace hretired : out.retired = [0, 2, 1] := Option.some.inj hretired
  obtain ⟨-, -, -, -, -, -, hchild⟩ := interpret_forest hout
  obtain ⟨s, s', id, next, rest, hs, hs', htop, htop', -, hfirst⟩ := hchild [] 1 _ rfl
  cases hs
  cases htop
  cases hs'
  cases htop'
  obtain ⟨t, child, ht, hc, hhead, hradius⟩ := hfirst (by rw [hretired]; decide)
  exact ⟨out, t, child, hout, hretired, ht, hc, hhead, hradius⟩

end Arbor
