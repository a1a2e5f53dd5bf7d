import Arbor.Proofs.ForestSlots
import Arbor.Scalar.Double
import Mathlib.Data.List.Nodup
import Mathlib.Data.List.Perm.Subperm
import Mathlib.Logic.Relation

namespace Arbor

open Relation

theorem transGen_link {β : Type} {r r' : β → β → Prop} {p c a b : β}
    (hr : ∀ x y, r' x y → r x y ∨ x = p ∧ y = c) (h : TransGen r' a b) :
    TransGen r a b ∨ ReflTransGen r a p ∧ ReflTransGen r c b := by
  induction h with
  | single h =>
      rcases hr _ _ h with h | ⟨rfl, rfl⟩
      · exact .inl (.single h)
      · exact .inr ⟨.refl, .refl⟩
  | tail _ h ih =>
      rcases hr _ _ h with h | ⟨rfl, rfl⟩
      · rcases ih with ih | ⟨hap, hcb⟩
        · exact .inl (ih.tail h)
        · exact .inr ⟨hap, hcb.tail h⟩
      · rcases ih with ih | ⟨hap, -⟩
        · exact .inr ⟨ih.to_reflTransGen, .refl⟩
        · exact .inr ⟨hap, .refl⟩

namespace Forest

variable {α : Type}

def Lives (f : Forest α) (id : TurtleId) : Prop := ∃ t, f.get? id = some t

def Complete (f : Forest α) (id : TurtleId) : Prop := ∃ t, f.get? id = some t ∧ t.complete = true

def Parent (f : Forest α) (p c : TurtleId) : Prop := f.parent? c = some p

def Ancestor (f : Forest α) : TurtleId → TurtleId → Prop := TransGen f.Parent

def AtOrAbove (f : Forest α) : TurtleId → TurtleId → Prop := ReflTransGen f.Parent

structure Genealogy (f : Forest α) : Prop where
  listed : ∀ p t c, f.get? p = some t → (c ∈ t.children ↔ f.Parent p c)
  distinct : ∀ p t, f.get? p = some t → t.children.Nodup
  living : ∀ p c, f.Parent p c → f.Lives p
  acyclic : ∀ a, ¬ f.Ancestor a a

/-- The climb to a complete turtle, one turtle after the other. -/
inductive Climbs (f : Forest α) : TurtleId → Option TurtleId → Prop
  | gone (id : TurtleId) (h : f.get? id = none) : Climbs f id none
  | found (id : TurtleId) (t : Turtle α) (h : f.get? id = some t) (hc : t.complete = true) :
      Climbs f id (some id)
  | top (id : TurtleId) (t : Turtle α) (h : f.get? id = some t) (hc : t.complete = false)
      (hp : t.parent = none) : Climbs f id none
  | up (id p : TurtleId) (t : Turtle α) (above : Option TurtleId) (h : f.get? id = some t)
      (hc : t.complete = false) (hp : t.parent = some p) (rest : Climbs f p above) :
      Climbs f id above

/-- A complete turtle at or above `id` below all others of that kind, if there is any. -/
structure Nearest (f : Forest α) (id : TurtleId) (above : Option TurtleId) : Prop where
  found : ∀ p, above = some p → f.AtOrAbove p id ∧ f.Complete p
  nearest : ∀ q, f.AtOrAbove q id → f.Complete q → ∃ p, above = some p ∧ f.AtOrAbove q p

/-- The forests that operations on turtles lead to. -/
inductive Reachable : Forest α → Prop
  | empty : Reachable empty
  | spawn (f : Forest α) (pose : Pose α) : Reachable f → Reachable (f.spawn pose).2
  | spawnFrom (f g : Forest α) (source id : TurtleId) (h : f.spawnFrom? source = some (id, g)) :
      Reachable f → Reachable g
  | remove (f : Forest α) (id : TurtleId) : Reachable f → Reachable (f.remove id)
  | setComplete (f : Forest α) (id : TurtleId) (complete : Bool) :
      Reachable f → Reachable (f.modify id fun t => { t with complete })
  | link (f : Forest α) (parent child : TurtleId) (hparent : f.Lives parent)
      (hchild : f.Lives child) (hroot : f.parent? child = none) (hne : child ≠ parent)
      (hfree : ¬ f.Ancestor child parent) : Reachable f → Reachable (f.link parent child)

theorem parent_of_get? {f : Forest α} {id p : TurtleId} {t : Turtle α} (h : f.get? id = some t) :
    f.Parent p id ↔ t.parent = some p := by
  rw [Parent, parent?_eq h]

theorem lives_of_parent {f : Forest α} {p c : TurtleId} (h : f.Parent p c) : f.Lives c := by
  obtain ⟨t, ht, -⟩ := Option.bind_eq_some_iff.mp h
  exact ⟨t, ht⟩

theorem parent?_spawn (f : Forest α) (pose : Pose α) (j : TurtleId) :
    (f.spawn pose).2.parent? j = f.parent? j := by
  rw [parent?, get?_spawn, parent?]
  split
  next hj => rw [get?_eq_none (Nat.le_of_eq hj.symm)]; rfl
  next => rfl

theorem parent_spawn (f : Forest α) (pose : Pose α) : (f.spawn pose).2.Parent = f.Parent := by
  funext p c
  rw [Parent, parent?_spawn, Parent]

theorem parent_link {f : Forest α} {p c : TurtleId} (hc : f.Lives c)
    (hroot : f.parent? c = none) (hne : c ≠ p) (x y : TurtleId) :
    (f.link p c).Parent x y ↔ f.Parent x y ∨ x = p ∧ y = c := by
  obtain ⟨t, ht⟩ := hc
  rw [Parent, Parent, parent?, get?_link f hne]
  by_cases hy : y = c
  · subst y
    simp [ht, hroot, eq_comm]
  · by_cases hp : y = p
    · subst y
      cases hget : f.get? p <;> simp [hy, parent?, hget]
    · simp [hy, hp, parent?]

theorem children_eq {f : Forest α} {id : TurtleId} {t : Turtle α} (h : f.get? id = some t) :
    f.children id = t.children := by
  simp [children, h]

theorem atOrAbove_iff {f : Forest α} {id : TurtleId} {t : Turtle α} (h : f.get? id = some t)
    (q : TurtleId) :
    f.AtOrAbove q id ↔ q = id ∨ ∃ p, t.parent = some p ∧ f.AtOrAbove q p := by
  constructor
  · intro hq
    rcases ReflTransGen.cases_tail hq with he | ⟨p, hqp, hp⟩
    · exact .inl he.symm
    · exact .inr ⟨p, (parent_of_get? h).mp hp, hqp⟩
  · rintro (rfl | ⟨p, hp, hqp⟩)
    · exact .refl
    · exact ReflTransGen.tail hqp ((parent_of_get? h).mpr hp)

theorem not_complete {f : Forest α} {id : TurtleId} {t : Turtle α} (h : f.get? id = some t)
    (hc : t.complete = false) : ¬ f.Complete id := by
  rintro ⟨u, hu, huc⟩
  cases h.symm.trans hu
  simp [hc] at huc

theorem Climbs.nearest {f : Forest α} {id : TurtleId} {found : Option TurtleId}
    (h : f.Climbs id found) : f.Nearest id found := by
  induction h with
  | gone id h =>
      refine ⟨by simp, ?_⟩
      rintro q hq ⟨u, hu, -⟩
      rcases ReflTransGen.cases_tail hq with rfl | ⟨p, -, hp⟩
      · simp [h] at hu
      · obtain ⟨v, hv⟩ := lives_of_parent hp
        simp [h] at hv
  | found id t h hc =>
      constructor
      · rintro p ⟨rfl⟩
        exact ⟨.refl, t, h, hc⟩
      · exact fun q hq _ => ⟨id, rfl, hq⟩
  | top id t h hc hp =>
      refine ⟨by simp, fun q hq hqc => ?_⟩
      rcases (atOrAbove_iff h q).mp hq with rfl | ⟨p, hp', -⟩
      · exact (not_complete h hc hqc).elim
      · simp [hp] at hp'
  | up id p t above h hc hp rest ih =>
      constructor
      · intro a ha
        obtain ⟨hap, hac⟩ := ih.found a ha
        exact ⟨(atOrAbove_iff h a).mpr (.inr ⟨p, hp, hap⟩), hac⟩
      · intro q hq hqc
        rcases (atOrAbove_iff h q).mp hq with rfl | ⟨p', hp', hqp⟩
        · exact (not_complete h hc hqc).elim
        · cases hp.symm.trans hp'
          exact ih.nearest q hqp hqc

namespace Genealogy

variable {f : Forest α}

theorem climbs_of_passed (hf : f.Genealogy) (fuel : Nat) {id : TurtleId} (hid : f.Lives id)
    (passed : List Nat) (hdistinct : passed.Nodup)
    (hpassed : ∀ b ∈ passed, f.Ancestor id b ∧ b < f.slots.size)
    (hfuel : f.slots.size ≤ passed.length + fuel) : f.Climbs id (f.completeAbove? fuel id) := by
  induction fuel generalizing id passed with
  | zero =>
      obtain ⟨t, ht⟩ := hid
      have hnew : id ∉ passed := fun hmem => hf.acyclic id (hpassed id hmem).1
      have hsubset : id :: passed ⊆ List.range f.slots.size := by
        intro b hb
        rw [List.mem_range]
        rcases List.mem_cons.mp hb with rfl | hb
        · exact lt_size ht
        · exact (hpassed b hb).2
      have hlength := ((List.nodup_cons.mpr ⟨hnew, hdistinct⟩).subperm hsubset).length_le
      rw [List.length_cons, List.length_range] at hlength
      omega
  | succ fuel ih =>
      obtain ⟨t, ht⟩ := hid
      cases hc : t.complete with
      | true => simpa [completeAbove?, ht, hc] using Climbs.found id t ht hc
      | false =>
          cases hp : t.parent with
          | none => simpa [completeAbove?, ht, hc, hp] using Climbs.top id t ht hc hp
          | some p =>
              have hparent : f.Parent p id := (parent_of_get? ht).mpr hp
              have hnew : id ∉ passed := fun hmem => hf.acyclic id (hpassed id hmem).1
              have hrest := ih (hf.living p id hparent) (id :: passed)
                (List.nodup_cons.mpr ⟨hnew, hdistinct⟩)
                (List.forall_mem_cons.mpr ⟨⟨.single hparent, lt_size ht⟩, fun b hb =>
                  ⟨.head hparent (hpassed b hb).1, (hpassed b hb).2⟩⟩)
                (by rw [List.length_cons]; omega)
              simpa [completeAbove?, ht, hc, hp] using Climbs.up id p t _ ht hc hp hrest

theorem climbs (hf : f.Genealogy) {id : TurtleId} (hid : f.Lives id) :
    f.Climbs id (f.completeAbove? f.slots.size id) :=
  hf.climbs_of_passed _ hid [] .nil nofun (by simp)

theorem empty : (empty : Forest α).Genealogy := by
  have hnone (p c : TurtleId) : ¬ (Forest.empty : Forest α).Parent p c := by
    simp [Parent, parent?]
  refine ⟨?_, ?_, fun p c h => (hnone p c h).elim, fun a h => ?_⟩
  · intro p t c h
    simp at h
  · intro p t h
    simp at h
  · obtain ⟨b, hb, -⟩ := TransGen.head'_iff.mp h
    exact hnone a b hb

theorem not_parent_fresh (hf : f.Genealogy) (c : TurtleId) : ¬ f.Parent f.slots.size c := by
  intro h
  obtain ⟨t, ht⟩ := hf.living _ c h
  exact Nat.lt_irrefl _ (lt_size ht)

theorem spawn (hf : f.Genealogy) (pose : Pose α) : (f.spawn pose).2.Genealogy := by
  have hslot (p : TurtleId) (t : Turtle α) (h : (f.spawn pose).2.get? p = some t) :
      p = f.slots.size ∧ t = { pose } ∨ f.get? p = some t := by
    rw [get?_spawn] at h
    split at h
    next hp => exact .inl ⟨hp, (Option.some.inj h).symm⟩
    next => exact .inr h
  constructor
  · intro p t c h
    rw [parent_spawn]
    rcases hslot p t h with ⟨rfl, rfl⟩ | hold
    · simpa using hf.not_parent_fresh c
    · exact hf.listed p t c hold
  · intro p t h
    rcases hslot p t h with ⟨rfl, rfl⟩ | hold
    · exact .nil
    · exact hf.distinct p t hold
  · intro p c h
    rw [parent_spawn] at h
    obtain ⟨t, ht⟩ := hf.living p c h
    exact ⟨t, by rw [get?_spawn, if_neg (Nat.ne_of_lt (lt_size ht)), ht]⟩
  · rw [Ancestor, parent_spawn]
    exact hf.acyclic

theorem setComplete (hf : f.Genealogy) (id : TurtleId) (complete : Bool) :
    (f.modify id fun t => { t with complete }).Genealogy := by
  let g := f.modify id fun t => { t with complete }
  have hslot (j : TurtleId) : g.get? j =
      (f.get? j).map fun t => { t with complete := if j = id then complete else t.complete } := by
    rw [get?_modify]
    split <;> simp
  have hparent : g.Parent = f.Parent := by
    funext p c
    rw [Parent, parent?, hslot, Option.bind_map]
    rfl
  constructor
  · intro p t c h
    obtain ⟨u, hu, rfl⟩ := Option.map_eq_some_iff.mp ((hslot p).symm.trans h)
    exact hparent ▸ hf.listed p u c hu
  · intro p t h
    obtain ⟨u, hu, rfl⟩ := Option.map_eq_some_iff.mp ((hslot p).symm.trans h)
    exact hf.distinct p u hu
  · intro p c h
    obtain ⟨u, hu⟩ := hf.living p c (hparent ▸ h)
    exact ⟨_, by rw [hslot, hu]; rfl⟩
  · intro a h
    rw [Ancestor, hparent] at h
    exact hf.acyclic a h

section Link

variable {p c : TurtleId}

theorem acyclic_link (hf : f.Genealogy) {g : Forest α} (hne : c ≠ p) (hfree : ¬ f.Ancestor c p)
    (hparent : ∀ x y, g.Parent x y → f.Parent x y ∨ x = p ∧ y = c) (a : TurtleId) :
    ¬ g.Ancestor a a := by
  intro h
  rcases transGen_link hparent h with hold | ⟨hap, hca⟩
  · exact hf.acyclic a hold
  · -- a cycle through the new link leads down from `c` to `p`
    rcases (hca.trans hap).cases_head with rfl | ⟨b, hb, hbp⟩
    · exact hne rfl
    · exact hfree (TransGen.head' hb hbp)

theorem link (hf : f.Genealogy) (hp : f.Lives p) (hc : f.Lives c) (hroot : f.parent? c = none)
    (hne : c ≠ p) (hfree : ¬ f.Ancestor c p) : (f.link p c).Genealogy := by
  have hparent := parent_link hc hroot hne
  have hslot (j : TurtleId) (t : Turtle α) (h : (f.link p c).get? j = some t) :
      ∃ u, f.get? j = some u ∧ t.children = if j = p then u.children ++ [c] else u.children := by
    rw [get?_link f hne] at h
    split at h
    next hj =>
      obtain ⟨u, hu, rfl⟩ := Option.map_eq_some_iff.mp h
      exact ⟨u, hu, by rw [if_neg (hj ▸ hne)]⟩
    next =>
      split at h
      next hj =>
        obtain ⟨u, hu, rfl⟩ := Option.map_eq_some_iff.mp h
        exact ⟨u, hu, by rw [if_pos hj]⟩
      next hj => exact ⟨t, h, by rw [if_neg hj]⟩
  have hnot (x : TurtleId) : ¬ f.Parent x c := by
    intro h
    simp [Parent, hroot] at h
  constructor
  · intro j t d h
    obtain ⟨u, hu, hchildren⟩ := hslot j t h
    rw [hparent, hchildren, ← hf.listed j u d hu]
    split
    next hj => simp [hj]
    next hj => simp [hj]
  · intro j t h
    obtain ⟨u, hu, hchildren⟩ := hslot j t h
    rw [hchildren]
    split
    · have hnew : c ∉ u.children := fun hmem => hnot j ((hf.listed j u c hu).mp hmem)
      simpa using List.Nodup.concat hnew (hf.distinct j u hu)
    · exact hf.distinct j u hu
  · intro x y h
    have hx : f.Lives x := by
      rcases (hparent x y).mp h with hold | ⟨rfl, -⟩
      · exact hf.living x y hold
      · exact hp
    obtain ⟨u, hu⟩ := hx
    by_cases hxc : x = c
    · exact ⟨_, by rw [get?_link f hne, if_pos hxc, hu]; rfl⟩
    · by_cases hxp : x = p
      · exact ⟨_, by rw [get?_link f hne, if_neg hxc, if_pos hxp, hu]; rfl⟩
      · exact ⟨u, by rw [get?_link f hne, if_neg hxc, if_neg hxp, hu]⟩
  · exact hf.acyclic_link hne hfree fun x y => (hparent x y).mp

end Link

theorem sprout (hf : f.Genealogy) (pose : Pose α) {found : Option TurtleId}
    (hfound : ∀ p, found = some p → f.Lives p) : (f.sprout pose found).Genealogy := by
  cases found with
  | none => exact hf.spawn pose
  | some p =>
      obtain ⟨t, ht⟩ := hfound p rfl
      have hlt := lt_size ht
      refine (hf.spawn pose).link ?_ ?_ ?_ (Nat.ne_of_gt hlt) ?_
      · exact ⟨t, by rw [get?_spawn, if_neg (Nat.ne_of_lt hlt), ht]⟩
      · exact ⟨_, by rw [get?_spawn, if_pos rfl]⟩
      · rw [parent?_spawn, parent?, get?_eq_none (Nat.le_refl _)]
        rfl
      · intro h
        rw [Ancestor, parent_spawn] at h
        obtain ⟨b, hb, -⟩ := TransGen.head'_iff.mp h
        exact hf.not_parent_fresh b hb

theorem lives_of_nearest {source : TurtleId} {found : Option TurtleId} (h : f.Nearest source found)
    (p : TurtleId) (hp : found = some p) : f.Lives p := by
  obtain ⟨t, ht, -⟩ := (h.found p hp).2
  exact ⟨t, ht⟩

theorem spawnFrom (hf : f.Genealogy) {g : Forest α} {source id : TurtleId}
    (h : f.spawnFrom? source = some (id, g)) : g.Genealogy := by
  cases ht : f.get? source with
  | none => simp [spawnFrom?, ht] at h
  | some t =>
      rw [spawnFrom?_eq ht] at h
      cases h
      exact hf.sprout t.pose (lives_of_nearest (hf.climbs ⟨t, ht⟩).nearest)

section Remove

variable {x : TurtleId} {t : Turtle α}

theorem parent_remove (hf : f.Genealogy) (ht : f.get? x = some t) (a b : TurtleId) :
    (f.remove x).Parent a b ↔
      a ≠ x ∧ b ≠ x ∧ (f.Parent a b ∨ f.Parent a x ∧ f.Parent x b) := by
  have hself (h : f.Parent x x) : False := hf.acyclic x (.single h)
  rw [Parent, parent?, get?_remove_splice ht]
  by_cases hb : b = x
  · simp [hb]
  · cases hu : f.get? b with
    | none => simp [hb, Parent, parent?, hu]
    | some u =>
        have hmem := hf.listed x t b ht
        rw [parent_of_get? hu] at hmem
        rw [parent_of_get? ht] at hself
        rw [if_neg hb, parent_of_get? hu, parent_of_get? ht, parent_of_get? hu, Option.map_some,
          Option.bind_some]
        by_cases hx : u.parent = some x
        · have hne (ha : t.parent = some a) : a ≠ x := fun he => hself (he ▸ ha)
          simp only [if_pos (hmem.mpr hx), hx, Option.some.injEq, and_true]
          refine ⟨fun ha => ⟨hne ha, hb, .inr ha⟩, ?_⟩
          rintro ⟨ha, -, he | h⟩
          · exact (ha he.symm).elim
          · exact h
        · simp only [if_neg (mt hmem.mp hx), hx, and_false, or_false]
          exact ⟨fun ha => ⟨fun he => hx (he ▸ ha), hb, ha⟩, fun h => h.2.2⟩

theorem ancestor_of_remove (hf : f.Genealogy) (ht : f.get? x = some t) {a b : TurtleId}
    (h : (f.remove x).Ancestor a b) : f.Ancestor a b := by
  refine TransGen.closed ?_ a b h
  intro a b hab
  rcases ((hf.parent_remove ht a b).mp hab).2.2 with hab | ⟨hax, hxb⟩
  · exact .single hab
  · exact .tail (.single hax) hxb

theorem ancestor_remove (hf : f.Genealogy) (ht : f.get? x = some t) {a b : TurtleId} (ha : a ≠ x)
    (h : f.Ancestor a b) : (b ≠ x → (f.remove x).Ancestor a b) ∧
      (b = x → ∀ c, f.Parent x c → (f.remove x).Ancestor a c) := by
  have hself (c : TurtleId) (h : f.Parent x c) : c ≠ x := by
    rintro rfl
    exact hf.acyclic c (.single h)
  induction h with
  | single hab =>
      refine ⟨fun hb => .single ((hf.parent_remove ht _ _).mpr ⟨ha, hb, .inl hab⟩), ?_⟩
      rintro rfl c hc
      exact .single ((hf.parent_remove ht _ _).mpr ⟨ha, hself c hc, .inr ⟨hab, hc⟩⟩)
  | @tail m b _ hmb ih =>
      constructor
      · intro hb
        by_cases hm : m = x
        · exact ih.2 hm b (hm ▸ hmb)
        · exact (ih.1 hm).tail ((hf.parent_remove ht _ _).mpr ⟨hm, hb, .inl hmb⟩)
      · rintro rfl c hc
        have hm : m ≠ b := by
          rintro rfl
          exact hf.acyclic m (.single hmb)
        exact (ih.1 hm).tail
          ((hf.parent_remove ht _ _).mpr ⟨hm, hself c hc, .inr ⟨hmb, hc⟩⟩)

theorem ancestor_remove_iff (hf : f.Genealogy) (ht : f.get? x = some t) {a b : TurtleId}
    (ha : a ≠ x) (hb : b ≠ x) : (f.remove x).Ancestor a b ↔ f.Ancestor a b :=
  ⟨hf.ancestor_of_remove ht, fun h => (hf.ancestor_remove ht ha h).1 hb⟩

theorem get?_of_remove (ht : f.get? x = some t) {j : TurtleId} {u : Turtle α}
    (hu : (f.remove x).get? j = some u) : j ≠ x ∧ ∃ v, f.get? j = some v ∧
      u.children = if t.parent = some j then v.children.filter (· != x) ++ t.children
        else v.children := by
  rw [get?_remove_splice ht] at hu
  split at hu
  next => cases hu
  next hj =>
    obtain ⟨v, hv, rfl⟩ := Option.map_eq_some_iff.mp hu
    exact ⟨hj, v, hv, rfl⟩

theorem lives_remove (ht : f.get? x = some t) {j : TurtleId} (hj : j ≠ x) (h : f.Lives j) :
    (f.remove x).Lives j := by
  obtain ⟨u, hu⟩ := h
  exact ⟨_, by rw [get?_remove_splice ht, if_neg hj, hu]; rfl⟩

theorem remove_of_get? (hf : f.Genealogy) (ht : f.get? x = some t) : (f.remove x).Genealogy := by
  have hself (h : f.Parent x x) : False := hf.acyclic x (.single h)
  constructor
  · intro p u c hu
    obtain ⟨hp, v, hv, hchildren⟩ := get?_of_remove ht hu
    rw [hchildren, hf.parent_remove ht, parent_of_get? ht]
    by_cases htp : t.parent = some p
    · rw [if_pos htp, List.mem_append, List.mem_filter, hf.listed p v c hv, hf.listed x t c ht]
      by_cases hc : c = x
      · subst c
        simpa using hself
      · simp [hp, hc, htp]
    · rw [if_neg htp, hf.listed p v c hv]
      by_cases hc : c = x
      · subst c
        simp [parent_of_get? ht, htp]
      · simp [hp, hc, htp]
  · intro p u hu
    obtain ⟨-, v, hv, hchildren⟩ := get?_of_remove ht hu
    rw [hchildren]
    by_cases htp : t.parent = some p
    · rw [if_pos htp]
      refine List.nodup_append.mpr ⟨(hf.distinct p v hv).filter _, hf.distinct x t ht, ?_⟩
      -- a child of both would have two parents
      rintro c hcv d hdt rfl
      obtain ⟨hcv, hcx⟩ := List.mem_filter.mp hcv
      have hp : f.Parent p c := (hf.listed p v c hv).mp hcv
      have hx : f.Parent x c := (hf.listed x t c ht).mp hdt
      obtain rfl : p = x := Option.some.inj (hp.symm.trans hx)
      exact hself ((parent_of_get? ht).mpr htp)
    · rw [if_neg htp]
      exact hf.distinct p v hv
  · intro p c h
    obtain ⟨hp, -, hpc⟩ := (hf.parent_remove ht p c).mp h
    refine lives_remove ht hp ?_
    rcases hpc with hpc | ⟨hpx, -⟩
    · exact hf.living p c hpc
    · exact hf.living p x hpx
  · exact fun a h => hf.acyclic a (hf.ancestor_of_remove ht h)

theorem remove (hf : f.Genealogy) (id : TurtleId) : (f.remove id).Genealogy := by
  cases ht : f.get? id with
  | none =>
      have hsame : f.remove id = f := by simp [Forest.remove, remove?, ht]
      rw [hsame]
      exact hf
  | some t => exact hf.remove_of_get? ht

end Remove

end Genealogy

theorem Reachable.genealogy {f : Forest α} (h : Reachable f) : f.Genealogy := by
  induction h with
  | empty => exact .empty
  | spawn f pose _ ih => exact ih.spawn pose
  | spawnFrom f g source id h _ ih => exact ih.spawnFrom h
  | remove f id _ ih => exact ih.remove id
  | setComplete f id complete _ ih => exact ih.setComplete id complete
  | link f parent child hparent hchild hroot hne hfree _ ih =>
      exact ih.link hparent hchild hroot hne hfree

/-- Parents and children agree in every forest that can be reached, nobody is their own ancestor,
copies go under the nearest complete turtle, and removing a turtle keeps all other lineage. -/
theorem lineage_of_reachable {f : Forest α} (h : Reachable f) :
    (∀ p c, f.Lives p → f.Lives c → (c ∈ f.children p ↔ f.parent? c = some p)) ∧
    (∀ p, (f.children p).Nodup ∧ ∀ c ∈ f.children p, f.Lives c) ∧
    (∀ a, ¬ f.Ancestor a a) ∧
    (∀ source t, f.get? source = some t → ∃ above g,
      f.Climbs source above ∧ f.Nearest source above ∧
      f.spawnFrom? source = some (f.slots.size, g) ∧
      g.get? f.slots.size = some { pose := t.pose, parent := above } ∧
      ∀ p, above = some p → g.children p = f.children p ++ [f.slots.size]) ∧
    ∀ x t, f.get? x = some t →
      f.remove? x = some ({ t with parent := none, children := [] }, f.remove x) ∧
      (∀ a, (f.remove x).Lives a ↔ f.Lives a ∧ a ≠ x) ∧
      (∀ a b, f.Lives a → f.Lives b → a ≠ x → b ≠ x →
        ((f.remove x).Ancestor a b ↔ f.Ancestor a b)) ∧
      (∀ c ∈ t.children, (f.remove x).parent? c = t.parent) ∧
      ∀ p, t.parent = some p →
        (f.remove x).children p = (f.children p).filter (· != x) ++ t.children := by
  have hf := h.genealogy
  refine ⟨?_, ?_, hf.acyclic, ?_, ?_⟩
  · rintro p c ⟨t, ht⟩ -
    rw [children_eq ht]
    exact hf.listed p t c ht
  · intro p
    cases ht : f.get? p with
    | none => simp [children, ht]
    | some t =>
        rw [children_eq ht]
        exact ⟨hf.distinct p t ht, fun c hc => lives_of_parent ((hf.listed p t c ht).mp hc)⟩
  · intro source t ht
    have hclimbs := hf.climbs ⟨t, ht⟩
    have hlive := Genealogy.lives_of_nearest hclimbs.nearest
    have hslot := get?_sprout f t.pose _ fun p hp => by
      obtain ⟨u, hu⟩ := hlive p hp
      exact lt_size hu
    refine ⟨_, _, hclimbs, hclimbs.nearest, spawnFrom?_eq ht, by rw [hslot, if_pos rfl], ?_⟩
    intro p hp
    obtain ⟨u, hu⟩ := hlive p hp
    have hnew : (f.sprout t.pose (f.completeAbove? f.slots.size source)).get? p =
        some { u with children := u.children ++ [f.slots.size] } := by
      rw [hslot, if_neg (Nat.ne_of_lt (lt_size hu)), if_pos hp, hu]
      rfl
    rw [children_eq hnew, children_eq hu]
  · intro x t ht
    refine ⟨remove?_eq ht, ?_, ?_, ?_, ?_⟩
    · intro a
      constructor
      · rintro ⟨u, hu⟩
        obtain ⟨ha, v, hv, -⟩ := Genealogy.get?_of_remove ht hu
        exact ⟨⟨v, hv⟩, ha⟩
      · exact fun ⟨ha, hne⟩ => Genealogy.lives_remove ht hne ha
    · exact fun a b _ _ ha hb => hf.ancestor_remove_iff ht ha hb
    · intro c hc
      have hx : f.Parent x c := (hf.listed x t c ht).mp hc
      have hne : c ≠ x := by
        rintro rfl
        exact hf.acyclic c (.single hx)
      obtain ⟨u, hu⟩ := lives_of_parent hx
      rw [parent?, get?_remove_splice ht, if_neg hne, hu]
      simp [hc]
    · intro p hp
      have hne : p ≠ x := by
        rintro rfl
        exact hf.acyclic p (.single ((parent_of_get? ht).mpr hp))
      obtain ⟨u, hu⟩ := hf.living p x ((parent_of_get? ht).mpr hp)
      have hnew := get?_remove_splice ht p
      rw [if_neg hne, hu, Option.map_some] at hnew
      rw [children_eq hnew, children_eq hu, if_pos hp]

/-- The copy of the incomplete turtle 3 goes under turtle 2, which then leaves both to turtle 0. -/
theorem lineage_of_five :
    ∃ f : Forest Float, Reachable f ∧ f.children 0 = [1, 2] ∧ f.children 2 = [3, 4] ∧
      f.Climbs 3 (some 2) ∧ f.Nearest 3 (some 2) ∧ (f.remove 2).children 0 = [1, 3, 4] ∧
      ((f.remove 2).Ancestor 0 4 ↔ f.Ancestor 0 4) := by
  have hgrown : ∃ f : Forest Float, Reachable f ∧ f.children 0 = [1, 2] ∧
      f.children 2 = [3, 4] ∧ f.slots.size = 5 ∧
      (∃ t, f.get? 2 = some t ∧ t.parent = some 0 ∧ t.children = [3, 4]) ∧
      (∃ g, f.spawnFrom? 3 = some (5, g) ∧ g.parent? 5 = some 2) ∧
      f.Lives 0 ∧ f.Lives 3 ∧ f.Lives 4 := by
    refine ⟨_, .spawnFrom _ _ 3 4 rfl (.spawnFrom _ _ 2 3 rfl (.setComplete _ 2 true
      (.spawnFrom _ _ 0 2 rfl (.spawnFrom _ _ 0 1 rfl (.setComplete _ 0 true
      (.spawn _ (Pose.start : Pose Float) .empty)))))), rfl, rfl, rfl, ⟨_, rfl, rfl, rfl⟩,
      ⟨_, rfl, rfl⟩, ⟨_, rfl⟩, ⟨_, rfl⟩, ⟨_, rfl⟩⟩
  obtain ⟨f, hf, hzero, htwo, hsize, ⟨t, ht, hparent, hchildren⟩, ⟨g, hg, habove⟩, hlive₀, ⟨u, hu⟩,
    hlive₄⟩ := hgrown
  obtain ⟨-, -, -, hcopy, hremove⟩ := lineage_of_reachable hf
  obtain ⟨above, g', hclimbs, hnearest, hg', hslot, -⟩ := hcopy 3 u hu
  obtain ⟨-, -, hancestor, -, hspliced⟩ := hremove 2 t ht
  rw [hsize] at hg' hslot
  cases hg.symm.trans hg'
  obtain rfl : above = some 2 := (parent?_eq hslot).symm.trans habove
  refine ⟨f, hf, hzero, htwo, hclimbs, hnearest, ?_, ?_⟩
  · rw [hspliced 0 hparent, hzero, hchildren]
    rfl
  · exact hancestor 0 4 hlive₀ hlive₄ (by decide) (by decide)

end Forest

end Arbor
