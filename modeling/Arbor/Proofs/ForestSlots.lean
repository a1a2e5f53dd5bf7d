import Arbor.Turtle.Forest

namespace Arbor.Forest

variable {α : Type}

theorem get?_eq_none {f : Forest α} {id : TurtleId} (h : f.slots.size ≤ id) :
    f.get? id = none := by
  simp [get?, Array.getElem?_eq_none h]

theorem lt_size {f : Forest α} {id : Nat} {t : Turtle α} (h : f.get? id = some t) :
    id < f.slots.size := by
  rcases Nat.lt_or_ge id f.slots.size with hlt | hge
  · exact hlt
  · rw [get?_eq_none hge] at h
    cases h

theorem ne_of_get? {f : Forest α} {id j : TurtleId} {t : Turtle α} (hj : f.get? j = some t)
    (hid : f.get? id = none) : j ≠ id := by
  rintro rfl
  simp [hj] at hid

theorem parent?_eq {f : Forest α} {id : TurtleId} {t : Turtle α} (h : f.get? id = some t) :
    f.parent? id = t.parent := by
  simp [parent?, h]

/-- The turtle in a slot, without its list of children. -/
def bare? (f : Forest α) (id : TurtleId) : Option (Turtle α) :=
  (f.get? id).map fun t => { t with children := [] }

theorem bare?_eq {f : Forest α} {id : TurtleId} {t : Turtle α} (h : f.get? id = some t) :
    f.bare? id = some { t with children := [] } := by
  simp [bare?, h]

theorem get?_of_bare? {f g : Forest α} {id : TurtleId} {t : Turtle α}
    (h : f.bare? id = g.bare? id) (ht : f.get? id = some t) :
    ∃ u, g.get? id = some u ∧ u.pose = t.pose ∧ u.complete = t.complete ∧ u.parent = t.parent := by
  rw [bare?_eq ht] at h
  obtain ⟨u, hu, he⟩ := Option.map_eq_some_iff.mp h.symm
  injection he with hpose hcomplete hparent
  exact ⟨u, hu, hpose, hcomplete, hparent⟩

theorem bare?_relist {f g : Forest α} {id : TurtleId} {p : Prop} [Decidable p]
    {list : Turtle α → List TurtleId}
    (h : g.get? id = if p then (f.get? id).map fun t => { t with children := list t }
      else f.get? id) : g.bare? id = f.bare? id := by
  rw [bare?, bare?, h]
  split
  · rw [Option.map_map]; rfl
  · rfl

@[simp]
theorem get?_empty (j : TurtleId) : (empty : Forest α).get? j = none :=
  get?_eq_none (Nat.zero_le j)

@[simp]
theorem size_modify (f : Forest α) (id : TurtleId) (change : Turtle α → Turtle α) :
    (f.modify id change).slots.size = f.slots.size := by
  simp [modify]

theorem get?_modify (f : Forest α) (id : TurtleId) (change : Turtle α → Turtle α) (j : TurtleId) :
    (f.modify id change).get? j = if j = id then (f.get? j).map change else f.get? j := by
  by_cases hj : j = id
  · subst j
    simp only [get?, modify, Array.getElem?_modify, if_true]
    cases f.slots[id]? <;> rfl
  · simp [get?, modify, Array.getElem?_modify, hj, Ne.symm hj]

@[simp]
theorem size_spawn (f : Forest α) (pose : Pose α) :
    (f.spawn pose).2.slots.size = f.slots.size + 1 := by
  simp [spawn]

theorem get?_spawn (f : Forest α) (pose : Pose α) (j : TurtleId) :
    (f.spawn pose).2.get? j = if j = f.slots.size then some { pose } else f.get? j := by
  by_cases hj : j = f.slots.size
  · simp [get?, spawn, hj]
  · simp [get?, spawn, hj, Array.getElem?_push]

theorem get?_link (f : Forest α) {parent child : TurtleId} (hne : child ≠ parent) (j : TurtleId) :
    (f.link parent child).get? j =
      if j = child then (f.get? j).map fun t => { t with parent := some parent }
      else if j = parent then (f.get? j).map fun t => { t with children := t.children ++ [child] }
      else f.get? j := by
  simp only [link, get?_modify]
  by_cases hc : j = child
  · subst j; simp [hne]
  · simp [hc]

def sprout (f : Forest α) (pose : Pose α) (above : Option TurtleId) : Forest α :=
  match above with
  | some p => (f.spawn pose).2.link p f.slots.size
  | none => (f.spawn pose).2

@[simp]
theorem size_sprout (f : Forest α) (pose : Pose α) (above : Option TurtleId) :
    (f.sprout pose above).slots.size = f.slots.size + 1 := by
  cases above <;> simp [sprout, link]

theorem get?_sprout (f : Forest α) (pose : Pose α) (above : Option TurtleId)
    (hlive : ∀ p : Nat, above = some p → p < f.slots.size) (j : TurtleId) :
    (f.sprout pose above).get? j =
      if j = f.slots.size then some { pose, parent := above }
      else if above = some j then
        (f.get? j).map fun t => { t with children := t.children ++ [f.slots.size] }
      else f.get? j := by
  cases above with
  | none => simp [sprout, get?_spawn]
  | some p =>
      have hp : f.slots.size ≠ p := Nat.ne_of_gt (hlive p rfl)
      simp only [sprout, get?_link _ hp, get?_spawn, Option.some.injEq, eq_comm (a := p)]
      by_cases hj : j = f.slots.size <;> simp [hj]

theorem spawnFrom?_eq {f : Forest α} {source : TurtleId} {t : Turtle α}
    (h : f.get? source = some t) :
    f.spawnFrom? source =
      some (f.slots.size, f.sprout t.pose (f.completeAbove? f.slots.size source)) := by
  unfold spawnFrom?
  rw [h]
  cases f.completeAbove? f.slots.size source <;> rfl

/-- Where only complete turtles are parents, a turtle is complete itself or its parent is the
nearest complete one. -/
theorem completeAbove?_eq {f : Forest α} {id : Nat} {t : Turtle α} (h : f.get? id = some t)
    (hp : ∀ p : Nat, t.parent = some p → p < id ∧ ∃ q, f.get? p = some q ∧ q.complete = true) :
    f.completeAbove? f.slots.size id = if t.complete then some id else t.parent := by
  have hsize := lt_size h
  obtain ⟨n, hn⟩ : ∃ n, f.slots.size = n + 1 := ⟨f.slots.size - 1, by omega⟩
  rw [hn, completeAbove?]
  simp only [h]
  cases hc : t.complete with
  | true => rfl
  | false =>
      cases hpar : t.parent with
      | none => rfl
      | some p =>
          obtain ⟨hlt, q, hq, hqc⟩ := hp p hpar
          -- the parent stands below `id`, so one more turtle may be looked at
          obtain ⟨m, rfl⟩ : ∃ m, n = m + 1 := ⟨n - 1, by omega⟩
          simp [completeAbove?, hq, hqc]

theorem size_setParents (parent : Option TurtleId) (ids : List TurtleId) (f : Forest α) :
    (setParents parent ids f).slots.size = f.slots.size := by
  induction ids generalizing f with
  | nil => rfl
  | cons id ids ih => rw [setParents, ih, size_modify]

theorem size_remove (f : Forest α) (id : TurtleId) :
    (f.remove id).slots.size = f.slots.size := by
  simp only [remove, remove?]
  cases f.get? id with
  | none => rfl
  | some t => cases hp : t.parent <;> simp [hp, size_setParents]

theorem get?_setParents (parent : Option TurtleId) (ids : List TurtleId) (f : Forest α)
    (j : TurtleId) : (setParents parent ids f).get? j =
      if j ∈ ids then (f.get? j).map fun t => { t with parent } else f.get? j := by
  induction ids generalizing f with
  | nil => simp [setParents]
  | cons id ids ih =>
      rw [setParents, ih, get?_modify]
      by_cases hid : j = id
      · by_cases hmem : j ∈ ids <;> simp [hid, hid ▸ hmem, Function.comp_def]
      · simp [hid]

theorem remove?_eq {f : Forest α} {id : TurtleId} {t : Turtle α} (h : f.get? id = some t) :
    f.remove? id = some ({ t with parent := none, children := [] }, f.remove id) := by
  unfold remove remove?
  rw [h]

theorem get?_remove_splice {f : Forest α} {id : TurtleId} {t : Turtle α} (h : f.get? id = some t)
    (j : TurtleId) : (f.remove id).get? j =
      if j = id then none
      else (f.get? j).map fun u => { u with
        parent := if j ∈ t.children then t.parent else u.parent
        children := if t.parent = some j then u.children.filter (· != id) ++ t.children
          else u.children } := by
  have horphaned (j : TurtleId) :
      (setParents t.parent t.children ⟨f.slots.setIfInBounds id none⟩).get? j =
        if j = id then none
        else (f.get? j).map fun u =>
          { u with parent := if j ∈ t.children then t.parent else u.parent } := by
    have hsize := lt_size h
    rw [get?_setParents]
    by_cases hj : j = id
    · subst j; simp [get?, hsize]
    · by_cases hmem : j ∈ t.children <;> simp [get?, hj, hmem, Ne.symm hj]
  cases hp : t.parent with
  | none =>
      rw [hp] at horphaned
      simp [remove, remove?, h, hp, horphaned]
  | some p =>
      rw [hp] at horphaned
      by_cases hj : j = id
      · simp [remove, remove?, h, hp, get?_modify, horphaned, hj]
      · by_cases hjp : j = p
        · subst j
          simp [remove, remove?, h, hp, get?_modify, horphaned, hj, Function.comp_def]
        · simp [remove, remove?, h, hp, get?_modify, horphaned, hj, hjp, Ne.symm hjp]

theorem get?_remove {f : Forest α} {id : TurtleId} {t : Turtle α} (h : f.get? id = some t)
    (hchild : t.children = []) (j : TurtleId) :
    (f.remove id).get? j =
      if j = id then none
      else if t.parent = some j then
        (f.get? j).map fun q => { q with children := q.children.filter (· != id) }
      else f.get? j := by
  rw [get?_remove_splice h]
  by_cases hj : t.parent = some j <;> simp [hchild, hj]

end Arbor.Forest
