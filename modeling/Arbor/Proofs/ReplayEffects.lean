import Arbor.Grammar.Interpretation
import Arbor.Proofs.ForestSlots
import Mathlib.Data.List.Nodup

namespace Arbor

variable {α : Type}

def Instruction.IsPlain : Instruction α → Prop
  | .advance _ | .push | .pop => False
  | _ => True

def Instruction.change [Scalar α] : Instruction α → Pose α → Pose α
  | .move e, p | .grow e _, p => p.glide e
  | .width w _, p => { p with width := w }
  | .setLength l _, p => { p with length := l }
  | .roll angle, p => p.roll (Scalar.radians angle)
  | .pitch angle, p => p.pitch (Scalar.radians angle)
  | .turnLeft angle, p => p.turn (Scalar.radians angle)
  | .turnRight angle, p => p.turn (-Scalar.radians angle)
  | .verticate angle, p => p.verticate (Scalar.radians angle)
  | .descend distance, p => p.moveAlong ⟨0, 0, -distance⟩
  | _, p => p

namespace Replay

/-- Turtles on the stack are incomplete and childless, all others that live are retired, and parents
are retired turtles. -/
structure Settled (s : Replay α) : Prop where
  distinct : (s.stack ++ s.retired).Nodup
  living : ∀ id t, s.forest.get? id = some t → id ∈ s.stack ++ s.retired
  pending : ∀ id ∈ s.stack,
    ∃ t, s.forest.get? id = some t ∧ t.complete = false ∧ t.children = []
  finished : ∀ id ∈ s.retired, ∃ t, s.forest.get? id = some t ∧ t.complete = true
  lineage : ∀ (id : Nat) t (p : Nat), s.forest.get? id = some t → t.parent = some p →
    p ∈ s.retired ∧ p < id

namespace Settled

variable {s : Replay α}

theorem not_parent (hs : s.Settled) {id j : Nat} {t : Turtle α} (h : s.forest.get? id = some t)
    (hj : j ∈ s.stack) : t.parent ≠ some j := by
  intro hp
  have hr := (hs.lineage id t j h hp).1
  exact (List.nodup_append.mp hs.distinct).2.2 j hj j hr rfl

theorem get?_of_mem (hs : s.Settled) {id : Nat} (h : id ∈ s.stack ++ s.retired) :
    ∃ t, s.forest.get? id = some t := by
  rcases List.mem_append.mp h with h | h
  · obtain ⟨t, ht, -⟩ := hs.pending id h
    exact ⟨t, ht⟩
  · obtain ⟨t, ht, -⟩ := hs.finished id h
    exact ⟨t, ht⟩

theorem top (hs : s.Settled) (hne : s.stack ≠ []) :
    ∃ id rest t, s.stack = id :: rest ∧ s.forest.get? id = some t ∧ t.complete = false ∧
      t.children = [] := by
  obtain ⟨id, rest, hstack⟩ := List.exists_cons_of_ne_nil hne
  obtain ⟨t, ht, hopen, hchild⟩ := hs.pending id (by simp [hstack])
  exact ⟨id, rest, t, hstack, ht, hopen, hchild⟩

theorem fresh (hs : s.Settled) : s.forest.slots.size ∉ s.stack ++ s.retired := by
  intro h
  obtain ⟨t, ht⟩ := hs.get?_of_mem h
  exact Nat.lt_irrefl _ (Forest.lt_size ht)

theorem ne_fresh (hs : s.Settled) {j : Nat} (hj : j ∈ s.stack ++ s.retired) :
    j ≠ s.forest.slots.size :=
  fun he => hs.fresh (he ▸ hj)

theorem head?_ne (hs : s.Settled) {id j : Nat} {rest : List TurtleId} (htop : s.stack = id :: rest)
    (hj : j ∈ rest ++ s.retired) : s.stack.head? ≠ some j := by
  rw [htop, List.head?_cons]
  rintro ⟨rfl⟩
  have hdistinct := hs.distinct
  rw [htop, List.cons_append] at hdistinct
  exact (List.nodup_cons.mp hdistinct).1 hj

theorem head?_ne_retired (hs : s.Settled) {j : Nat} (hj : j ∈ s.retired) :
    s.stack.head? ≠ some j := fun htop =>
  (List.nodup_append.mp hs.distinct).2.2 j (List.mem_of_head? htop) j hj rfl

theorem completeAbove (hs : s.Settled) {id : Nat} {t : Turtle α}
    (h : s.forest.get? id = some t) :
    s.forest.completeAbove? s.forest.slots.size id = if t.complete then some id else t.parent := by
  apply Forest.completeAbove?_eq h
  intro p hp
  obtain ⟨hr, hlt⟩ := hs.lineage id t p h hp
  exact ⟨hlt, hs.finished p hr⟩

end Settled

variable [Scalar α]

inductive Effect (s : Replay α) : Instruction α → Replay α → Prop
  | advance (e : α) (id : Nat) (rest : List TurtleId) (t : Turtle α) (s' : Replay α)
      (top : s.stack = id :: rest) (here : s.forest.get? id = some t)
      (stack : s'.stack = s.forest.slots.size :: rest)
      (retired : s'.retired = id :: s.retired)
      (size : s'.forest.slots.size = s.forest.slots.size + 1)
      (slot : ∀ j, s'.forest.get? j =
        if j = s.forest.slots.size then some { pose := t.pose.glide e, parent := some id }
        else if j = id then
          some { t with
            pose := { t.pose with length := t.pose.length + e }
            complete := true
            children := [s.forest.slots.size] }
        else s.forest.get? j) : Effect s (.advance e) s'
  | push (id : Nat) (rest : List TurtleId) (t : Turtle α) (s' : Replay α)
      (top : s.stack = id :: rest) (here : s.forest.get? id = some t)
      (stack : s'.stack = s.forest.slots.size :: id :: rest)
      (retired : s'.retired = s.retired)
      (size : s'.forest.slots.size = s.forest.slots.size + 1)
      (slot : ∀ j, s'.forest.get? j =
        if j = s.forest.slots.size then some { pose := t.pose, parent := t.parent }
        else if t.parent = some j then
          (s.forest.get? j).map fun q => { q with children := q.children ++ [s.forest.slots.size] }
        else s.forest.get? j) : Effect s .push s'
  | pop (id : Nat) (rest : List TurtleId) (t : Turtle α) (s' : Replay α)
      (top : s.stack = id :: rest) (here : s.forest.get? id = some t)
      (stack : s'.stack = rest)
      (retired : s'.retired = s.retired)
      (size : s'.forest.slots.size = s.forest.slots.size)
      (slot : ∀ j, s'.forest.get? j =
        if j = id then none
        else if t.parent = some j then
          (s.forest.get? j).map fun q => { q with children := q.children.filter (· != id) }
        else s.forest.get? j) : Effect s .pop s'
  | stay (i : Instruction α) (s' : Replay α) (plain : i.IsPlain)
      (stack : s'.stack = s.stack)
      (retired : s'.retired = s.retired)
      (size : s'.forest.slots.size = s.forest.slots.size)
      (slot : ∀ j, s'.forest.get? j =
        if s.stack.head? = some j then
          (s.forest.get? j).map fun t => { t with pose := i.change t.pose }
        else s.forest.get? j) : Effect s i s'

variable {s s' : Replay α} {i : Instruction α}

namespace Effect

theorem size_le (he : Effect s i s') : s.forest.slots.size ≤ s'.forest.slots.size := by
  cases he with
  | advance _ id rest t _ top here stack retired size => omega
  | push id rest t _ top here stack retired size => omega
  | pop id rest t _ top here stack retired size => omega
  | stay _ _ _ stack retired size => omega

theorem retired_suffix (he : Effect s i s') : s.retired <:+ s'.retired := by
  cases he with
  | advance _ id rest t _ top here stack retired => exact retired ▸ List.suffix_cons id s.retired
  | push id rest t _ top here stack retired => exact retired ▸ List.suffix_refl _
  | pop id rest t _ top here stack retired => exact retired ▸ List.suffix_refl _
  | stay _ _ _ stack retired => exact retired ▸ List.suffix_refl _

/-- Of all turtles but the one on top an effect changes lists of children at most. -/
theorem bare?_eq (he : Effect s i s') {j : Nat} (hsize : j ≠ s.forest.slots.size)
    (htop : s.stack.head? ≠ some j) : s'.forest.bare? j = s.forest.bare? j := by
  have hid {id : Nat} {rest : List TurtleId} (top : s.stack = id :: rest) : j ≠ id := by
    rintro rfl
    simp [top] at htop
  cases he with
  | advance _ id rest t _ top here stack retired size slot =>
      rw [Forest.bare?, slot, if_neg hsize, if_neg (hid top), Forest.bare?]
  | push id rest t _ top here stack retired size slot =>
      exact Forest.bare?_relist (by rw [slot, if_neg hsize])
  | pop id rest t _ top here stack retired size slot =>
      exact Forest.bare?_relist (by rw [slot, if_neg (hid top)])
  | stay _ _ _ stack retired size slot => rw [Forest.bare?, slot, if_neg htop, Forest.bare?]

theorem bare?_retired (he : Effect s i s') (hs : s.Settled) {j : Nat} (hj : j ∈ s.retired) :
    s'.forest.bare? j = s.forest.bare? j :=
  he.bare?_eq (hs.ne_fresh (List.mem_append_right _ hj)) (hs.head?_ne_retired hj)

theorem bare?_below (he : Effect s i s') (hs : s.Settled) {id j : Nat} {rest : List TurtleId}
    (htop : s.stack = id :: rest) (hj : j ∈ rest) : s'.forest.bare? j = s.forest.bare? j :=
  he.bare?_eq (hs.ne_fresh (by simp [htop, hj])) (hs.head?_ne htop (List.mem_append_left _ hj))

/-- Turtles on the stack have no children, so below the top nothing changes. -/
theorem get?_below (he : Effect s i s') (hs : s.Settled) {j : Nat} (hj : j ∈ s.stack)
    (htop : s.stack.head? ≠ some j) : s'.forest.get? j = s.forest.get? j := by
  have hsize := hs.ne_fresh (List.mem_append_left _ hj)
  have hid {id : Nat} {rest : List TurtleId} (top : s.stack = id :: rest) : j ≠ id := by
    rintro rfl
    simp [top] at htop
  cases he with
  | advance _ id rest t _ top here stack retired size slot =>
      rw [slot, if_neg hsize, if_neg (hid top)]
  | push id rest t _ top here stack retired size slot =>
      rw [slot, if_neg hsize, if_neg (hs.not_parent here hj)]
  | pop id rest t _ top here stack retired size slot =>
      rw [slot, if_neg (hid top), if_neg (hs.not_parent here hj)]
  | stay _ _ _ stack retired size slot => rw [slot, if_neg htop]

theorem old (he : Effect s i s') {c : Nat} {u : Turtle α}
    (hu : s'.forest.get? c = some u) (hc : c < s.forest.slots.size) :
    ∃ v, s.forest.get? c = some v ∧ u.parent = v.parent := by
  have hne : c ≠ s.forest.slots.size := Nat.ne_of_lt hc
  cases he with
  | advance _ id rest t _ top here stack retired size slot =>
      rw [slot, if_neg hne] at hu
      split at hu
      next hid =>
        cases hu
        exact ⟨t, hid ▸ here, rfl⟩
      next => exact ⟨u, hu, rfl⟩
  | push id rest t _ top here stack retired size slot =>
      rw [slot, if_neg hne] at hu
      split at hu
      · obtain ⟨v, hv, rfl⟩ := Option.map_eq_some_iff.mp hu
        exact ⟨v, hv, rfl⟩
      · exact ⟨u, hu, rfl⟩
  | pop id rest t _ top here stack retired size slot =>
      rw [slot] at hu
      split at hu
      · cases hu
      · split at hu
        · obtain ⟨v, hv, rfl⟩ := Option.map_eq_some_iff.mp hu
          exact ⟨v, hv, rfl⟩
        · exact ⟨u, hu, rfl⟩
  | stay _ _ _ stack retired size slot =>
      rw [slot] at hu
      split at hu
      · obtain ⟨v, hv, rfl⟩ := Option.map_eq_some_iff.mp hu
        exact ⟨v, hv, rfl⟩
      · exact ⟨u, hu, rfl⟩

theorem finished (he : Effect s i s') (hs : s.Settled) {j : Nat} (hj : j ∈ s'.retired) :
    ∃ t, s'.forest.get? j = some t ∧ t.complete = true := by
  have hold (hj : j ∈ s.retired) : ∃ t, s'.forest.get? j = some t ∧ t.complete = true := by
    obtain ⟨v, hv, hc⟩ := hs.finished j hj
    obtain ⟨u, hu, -, huc, -⟩ := Forest.get?_of_bare? (he.bare?_retired hs hj).symm hv
    exact ⟨u, hu, huc.trans hc⟩
  cases he with
  | advance _ id rest t _ top here stack retired size slot =>
      rw [retired] at hj
      rcases List.mem_cons.mp hj with rfl | hj
      · exact ⟨_, by rw [slot, if_neg (Nat.ne_of_lt (Forest.lt_size here)), if_pos rfl], rfl⟩
      · exact hold hj
  | push id rest t _ top here stack retired => exact hold (retired ▸ hj)
  | pop id rest t _ top here stack retired => exact hold (retired ▸ hj)
  | stay _ _ _ stack retired => exact hold (retired ▸ hj)

theorem lineage (he : Effect s i s') (hs : s.Settled) {j p : Nat} {u : Turtle α}
    (hu : s'.forest.get? j = some u) (hp : u.parent = some p) : p ∈ s'.retired ∧ p < j := by
  rcases Nat.lt_or_ge j s.forest.slots.size with hj | hj
  · obtain ⟨v, hv, hparent⟩ := he.old hu hj
    obtain ⟨hr, hlt⟩ := hs.lineage j v p hv (hparent ▸ hp)
    exact ⟨he.retired_suffix.subset hr, hlt⟩
  · -- only copies get a new slot
    have hlt := Forest.lt_size hu
    cases he with
    | advance _ id rest t _ top here stack retired size slot =>
        obtain rfl : j = s.forest.slots.size := by omega
        rw [slot, if_pos rfl] at hu
        cases hu
        cases hp
        exact ⟨retired ▸ List.mem_cons_self, Forest.lt_size here⟩
    | push id rest t _ top here stack retired size slot =>
        obtain rfl : j = s.forest.slots.size := by omega
        rw [slot, if_pos rfl] at hu
        cases hu
        obtain ⟨hr, hlt⟩ := hs.lineage id t p here hp
        exact ⟨retired ▸ hr, Nat.lt_trans hlt (Forest.lt_size here)⟩
    | pop id rest t _ top here stack retired size => omega
    | stay _ _ _ stack retired size => omega

end Effect

namespace Settled

omit [Scalar α] in
theorem start (pose : Pose α) : (Replay.start pose).Settled := by
  have hget (j : Nat) :
      (Replay.start pose).forest.get? j = if j = 0 then some { pose } else none := by
    change (Forest.empty.spawn pose).2.get? j = _
    rw [Forest.get?_spawn, Forest.get?_empty]
    rfl
  have hpose (id : Nat) (t : Turtle α) (h : (Replay.start pose).forest.get? id = some t) :
      id = 0 ∧ t = { pose } := by
    rw [hget] at h
    by_cases hid : id = 0
    · rw [if_pos hid] at h
      exact ⟨hid, (Option.some.inj h).symm⟩
    · simp [hid] at h
  constructor
  · simp [Replay.start, Forest.spawn]
  · intro id t h
    simp [(hpose id t h).1, Replay.start, Forest.spawn, Forest.empty]
  · intro id hid
    have hz : id = 0 := by simpa [Replay.start, Forest.spawn, Forest.empty] using hid
    exact ⟨_, by rw [hget, if_pos hz], rfl, rfl⟩
  · intro id hid
    cases hid
  · intro id t p h hp
    rw [(hpose id t h).2] at hp
    cases hp

theorem effect_onTop (hplain : i.IsPlain) (h : s.onTop i.change = .ok s') : Effect s i s' := by
  unfold onTop at h
  split at h
  next => cases h
  next id rest hstack =>
    split at h
    next =>
      cases h
      refine .stay i _ hplain rfl rfl (Forest.size_modify ..) ?_
      intro j
      by_cases hj : j = id
      · simp [hstack, Forest.modifyPose, Forest.get?_modify, hj]
      · simp [hstack, Forest.modifyPose, Forest.get?_modify, hj, Ne.symm hj]
    next => cases h

theorem effect_idle (hplain : i.IsPlain) (hpose : ∀ p : Pose α, i.change p = p)
    (hforest : s'.forest = s.forest) (hstack : s'.stack = s.stack)
    (hretired : s'.retired = s.retired) : Effect s i s' := by
  refine .stay i s' hplain hstack hretired (by rw [hforest]) ?_
  intro j
  rw [hforest]
  simp only [hpose]
  split
  · exact Option.map_id'.symm
  · rfl

theorem advance_ok (hs : s.Settled) (hne : s.stack ≠ []) (e : α) :
    ∃ s', s.advance e = .ok s' ∧ s'.polygons = s.polygons ∧ Effect s (.advance e) s' := by
  obtain ⟨id, rest, t, hstack, ht, -, hchild⟩ := hs.top hne
  have hsize := Forest.lt_size ht
  let grown : Turtle α :=
    { t with pose := { t.pose with length := t.pose.length + e }, complete := true }
  let retiring := s.forest.modify id fun t =>
    { t with pose := { t.pose with length := t.pose.length + e }, complete := true }
  have hgrown : retiring.get? id = some grown := by
    simp [retiring, grown, Forest.get?_modify, ht]
  have hsame : retiring.slots.size = s.forest.slots.size := Forest.size_modify ..
  -- the retired turtle is complete, so its copy is attached to itself
  have habove : retiring.completeAbove? retiring.slots.size id = some id := by
    obtain ⟨n, hn⟩ : ∃ n, retiring.slots.size = n + 1 := ⟨retiring.slots.size - 1, by omega⟩
    simp [hn, Forest.completeAbove?, hgrown, grown]
  have hspawn := Forest.spawnFrom?_eq hgrown
  rw [habove, hsame] at hspawn
  let moved := (retiring.sprout grown.pose (some id)).modifyPose s.forest.slots.size fun p =>
    { p.moveForward with length := 0 }
  have hstep : s.advance e = .ok { s with
      forest := moved, stack := s.forest.slots.size :: rest, retired := id :: s.retired } := by
    simp only [advance, hstack]
    rw [hspawn]
  refine ⟨_, hstep, rfl, ?_⟩
  refine .advance e id rest t _ hstack ht rfl rfl (by simp [moved, Forest.modifyPose, hsame]) ?_
  intro j
  have hsprout := Forest.get?_sprout retiring grown.pose (some id)
    (fun p hp => by cases hp; omega) j
  rw [hsame] at hsprout
  simp only [moved, Forest.modifyPose, Forest.get?_modify, hsprout]
  by_cases hj : j = s.forest.slots.size
  · simp [hj, grown, Pose.glide]
  · by_cases hid : j = id
    · subst j
      simp [hj, hgrown, grown, hchild]
    · simp [hj, hid, Ne.symm hid, retiring, Forest.get?_modify]

theorem push_ok (hs : s.Settled) (hne : s.stack ≠ []) :
    ∃ s', s.push = .ok s' ∧ s'.polygons = s.polygons ∧ Effect s .push s' := by
  obtain ⟨id, rest, t, hstack, ht, hopen, -⟩ := hs.top hne
  have habove : s.forest.completeAbove? s.forest.slots.size id = t.parent := by
    rw [hs.completeAbove ht, hopen]
    rfl
  have hspawn := Forest.spawnFrom?_eq ht
  rw [habove] at hspawn
  have hstep : s.push = .ok { s with
      forest := s.forest.sprout t.pose t.parent, stack := s.forest.slots.size :: id :: rest } := by
    simp only [push, hstack]
    rw [hspawn]
  refine ⟨_, hstep, rfl, ?_⟩
  refine .push id rest t _ hstack ht rfl rfl (Forest.size_sprout ..) ?_
  intro j
  apply Forest.get?_sprout
  intro p hp
  obtain ⟨q, hq, -⟩ := hs.finished p (hs.lineage id t p ht hp).1
  exact Forest.lt_size hq

theorem pop_ok (hs : s.Settled) (hne : s.stack ≠ []) :
    ∃ s', s.pop = .ok s' ∧ s'.polygons = s.polygons ∧ Effect s .pop s' := by
  obtain ⟨id, rest, t, hstack, ht, -, hchild⟩ := hs.top hne
  have hstep : s.pop = .ok { s with forest := s.forest.remove id, stack := rest } := by
    simp only [pop, hstack]
  refine ⟨_, hstep, rfl, ?_⟩
  refine .pop id rest t _ hstack ht rfl rfl (Forest.size_remove ..) ?_
  intro j
  exact Forest.get?_remove ht hchild j

/-- The effect of every instruction that is obeyed. -/
theorem effect (hs : s.Settled) (h : s.step i = .ok s') : Effect s i s' := by
  cases i with
  | advance e =>
      have hne : s.stack ≠ [] := fun hnil => by simp [step, Replay.advance, hnil] at h
      obtain ⟨r, hr, -, he⟩ := hs.advance_ok hne e
      cases hr.symm.trans h
      exact he
  | push =>
      have hne : s.stack ≠ [] := fun hnil => by simp [step, Replay.push, hnil] at h
      obtain ⟨r, hr, -, he⟩ := hs.push_ok hne
      cases hr.symm.trans h
      exact he
  | pop =>
      have hne : s.stack ≠ [] := fun hnil => by simp [step, Replay.pop, hnil] at h
      obtain ⟨r, hr, -, he⟩ := hs.pop_ok hne
      cases hr.symm.trans h
      exact he
  | move | grow | width | setLength | roll | pitch | turnLeft | turnRight | verticate | descend =>
      exact effect_onTop trivial h
  | rest | closePolygon | reseed | openPolygon =>
      cases h
      exact effect_idle trivial (fun _ => rfl) rfl rfl rfl
  | vertex =>
      simp only [step, Replay.vertex] at h
      split at h
      · cases h
      · split at h
        · cases h
        · cases h
        · cases h
          exact effect_idle trivial (fun _ => rfl) rfl rfl rfl

end Settled

end Replay

end Arbor
