import Arbor.Proofs.ForestLineage

namespace Arbor.Forest

open Relation

variable {α : Type}

/-- Every turtle stands once on the list of its parent and on no other list. -/
def Registered (f : Forest α) : Prop :=
  ∀ q x, (f.children q).count x = if f.parent? x = some q then 1 else 0

theorem Genealogy.registered {f : Forest α} (hf : f.Genealogy) : f.Registered := by
  intro q x
  cases hq : f.get? q with
  | none =>
      have hnot : f.parent? x ≠ some q := by
        intro hparent
        obtain ⟨t, ht⟩ := hf.living q x hparent
        cases hq.symm.trans ht
      rw [if_neg hnot]
      simp [children, hq]
  | some t =>
      rw [children_eq hq, (hf.distinct q t hq).count]
      exact if_congr (hf.listed q t x hq) rfl rfl

section Link

variable {f : Forest α} {p c : TurtleId}

theorem parent?_link (hc : f.Lives c) (hne : c ≠ p) (x : TurtleId) :
    (f.link p c).parent? x = if x = c then some p else f.parent? x := by
  obtain ⟨t, ht⟩ := hc
  rw [parent?, get?_link f hne]
  split
  next hx => rw [hx, ht]; rfl
  next =>
    split
    next => rw [Option.bind_map]; rfl
    next => rfl

theorem children_link (hp : f.Lives p) (hne : c ≠ p) (q : TurtleId) :
    (f.link p c).children q = if q = p then f.children p ++ [c] else f.children q := by
  obtain ⟨t, ht⟩ := hp
  rw [children, children, children, get?_link f hne]
  by_cases hq : q = p
  · simp [hq, hne.symm, ht]
  · by_cases hqc : q = c
    · subst q
      cases f.get? c <;> simp [hne]
    · simp [hq, hqc]

theorem count_children_link (hf : f.Genealogy) (hp : f.Lives p) (hne : c ≠ p) (q x : TurtleId) :
    ((f.link p c).children q).count x =
      (if f.parent? x = some q then 1 else 0) + if q = p ∧ x = c then 1 else 0 := by
  rw [children_link hp hne, ← hf.registered q x]
  by_cases hq : q = p
  · subst q
    rw [if_pos rfl, List.count_append, List.count_singleton]
    simp only [beq_iff_eq, true_and, eq_comm (a := c)]
  · rw [if_neg hq, if_neg fun h => hq h.1, Nat.add_zero]

/-- Lists and pointers agree behind a link just if the child was a root. Otherwise its old parent
still lists it, or its new one lists it twice. The pointers are without a cycle in any case. -/
theorem link_registers_iff (hf : f.Genealogy) (hp : f.Lives p) (hc : f.Lives c) (hne : c ≠ p)
    (hfree : ¬ f.Ancestor c p) :
    (∀ x, (f.link p c).parent? x = if x = c then some p else f.parent? x) ∧
    (∀ a, ¬ (f.link p c).Ancestor a a) ∧
    (∀ q x, ((f.link p c).children q).count x =
      (if f.parent? x = some q then 1 else 0) + if q = p ∧ x = c then 1 else 0) ∧
    ((f.link p c).Registered ↔ f.parent? c = none) ∧
    (f.parent? c = none → (f.link p c).Genealogy) := by
  have hcount := count_children_link hf hp hne
  have hparent (x y : TurtleId) (h : (f.link p c).Parent x y) :
      f.Parent x y ∨ x = p ∧ y = c := by
    rw [Parent, parent?_link hc hne] at h
    split at h
    next hy => exact .inr ⟨(Option.some.inj h).symm, hy⟩
    next => exact .inl h
  refine ⟨parent?_link hc hne, hf.acyclic_link hne hfree hparent, hcount, ⟨?_, ?_⟩, ?_⟩
  · intro hregistered
    cases hold : f.parent? c with
    | none => rfl
    | some q =>
        -- the list of the old parent `q` counts the child once too often
        have hq := hcount q c
        rw [hregistered q c, parent?_link hc hne, if_pos rfl, hold, if_pos rfl] at hq
        by_cases hqp : q = p
        · simp [hqp] at hq
        · simp [hqp, Ne.symm hqp] at hq
  · exact fun hroot => (hf.link hp hc hroot hne hfree).registered
  · exact fun hroot => hf.link hp hc hroot hne hfree

end Link

def family : Forest Float :=
  let pose : Pose Float := .start
  ((((empty.spawn pose).2.spawn pose).2.spawn pose).2).link 0 2

theorem not_ancestor_of_root {f : Forest α} {id : TurtleId} (h : f.parent? id = none)
    (a : TurtleId) : ¬ f.Ancestor a id := by
  intro ha
  obtain ⟨b, -, hb⟩ := TransGen.tail'_iff.mp ha
  cases h.symm.trans hb

theorem family_genealogy : family.Genealogy :=
  (((Genealogy.empty.spawn _).spawn _).spawn _).link ⟨_, rfl⟩ ⟨_, rfl⟩ rfl (by decide)
    (not_ancestor_of_root rfl 2)

theorem link_registers_iff_family : family.Genealogy ∧ family.parent? 2 = some 0 ∧
    ((family.link 1 2).children 0).count 2 = 1 ∧ ((family.link 1 2).children 1).count 2 = 1 ∧
    ((family.link 1 2).Registered ↔ family.parent? 2 = none) := by
  obtain ⟨-, -, hcount, hregistered, -⟩ := link_registers_iff family_genealogy (p := 1) (c := 2)
    ⟨_, rfl⟩ ⟨_, rfl⟩ (by decide) (not_ancestor_of_root rfl 2)
  exact ⟨family_genealogy, rfl, (hcount 0 2).trans rfl, (hcount 1 2).trans rfl, hregistered⟩

/-- Moved under the second turtle, the last one stays on the list of the first. -/
theorem family_relinked_unregistered : family.Genealogy ∧ family.Lives 1 ∧ family.Lives 2 ∧
    2 ≠ 1 ∧ ¬ family.Ancestor 2 1 ∧ ¬ (family.link 1 2).Registered := by
  refine ⟨family_genealogy, ⟨_, rfl⟩, ⟨_, rfl⟩, by decide, not_ancestor_of_root rfl 2, fun h => ?_⟩
  have hzero : 1 = 0 := h 0 2
  cases hzero

end Arbor.Forest
