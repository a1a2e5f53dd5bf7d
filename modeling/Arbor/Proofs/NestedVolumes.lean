import Mathlib.Data.List.Perm.Basic
import Mathlib.Data.List.Shortlex
import Arbor.Assembly.Volume

namespace Arbor

variable {α : Type}

/-- The way from a volume down to one nested in it. Volumes at different places may be equal. -/
abbrev Place := List Nat

namespace Volume

def at? (v : Volume α) : Place → Option (Volume α)
  | [] => some v
  | k :: p => (v.children[k]?).bind fun c => c.at? p

theorem at?_append (v : Volume α) (p : Place) (k : Nat) :
    v.at? (p ++ [k]) = (v.at? p).bind fun u => u.children[k]? := by
  induction p generalizing v with
  | nil => simp [at?]
  | cons i p ih => simp [at?, ih, Option.bind_assoc]

/-- The volumes at all the places there are, each once and in that order. -/
structure Lists (before : Place → Place → Prop) (v : Volume α) (ps : List Place)
    (vs : List (Volume α)) : Prop where
  ordered : ps.Pairwise before
  complete : ∀ p, p ∈ ps ↔ (v.at? p).isSome
  placed : ps.map v.at? = vs.map some

namespace Lists

variable {before before' : Place → Place → Prop} {v : Volume α} {ps qs : List Place}
  {vs ws : List (Volume α)}

theorem distinct [Std.Irrefl before] (h : Lists before v ps vs) : ps.Nodup := by
  refine h.ordered.imp ?_
  rintro p _ hp rfl
  exact Std.Irrefl.irrefl p hp

theorem perm [Std.Irrefl before] [Std.Irrefl before'] (h : Lists before v ps vs)
    (h' : Lists before' v qs ws) : vs.Perm ws := by
  have hplaces : ps.Perm qs := by
    refine (List.perm_ext_iff_of_nodup h.distinct h'.distinct).mpr fun p => ?_
    rw [h.complete, h'.complete]
  have hsome : (vs.map some).Perm (ws.map some) := by
    rw [← h.placed, ← h'.placed]
    exact hplaces.map v.at?
  simpa [List.filterMap_map] using hsome.filterMap id

end Lists

mutual

def places : Volume α → List Place
  | ⟨_, _, _, children⟩ => [] :: placesFrom 0 children

def placesFrom (k : Nat) : List (Volume α) → List Place
  | [] => []
  | v :: vs => v.places.map (k :: ·) ++ placesFrom (k + 1) vs

end

theorem places_eq (v : Volume α) : v.places = [] :: placesFrom 0 v.children := by
  cases v
  rw [places]

theorem mem_placesFrom {k : Nat} {vs : List (Volume α)} {p : Place} :
    p ∈ placesFrom k vs ↔ ∃ i q c, p = (k + i) :: q ∧ vs[i]? = some c ∧ q ∈ c.places := by
  induction vs generalizing k with
  | nil => simp [placesFrom]
  | cons v vs ih =>
      rw [placesFrom, List.mem_append, List.mem_map, ih]
      constructor
      · rintro (⟨q, hq, rfl⟩ | ⟨i, q, c, rfl, hc, hq⟩)
        · exact ⟨0, q, v, rfl, rfl, hq⟩
        · exact ⟨i + 1, q, c, by rw [Nat.add_assoc, Nat.add_comm 1], hc, hq⟩
      · rintro ⟨i, q, c, rfl, hc, hq⟩
        cases i with
        | zero =>
            cases hc
            exact .inl ⟨q, hq, rfl⟩
        | succ i => exact .inr ⟨i, q, c, by rw [Nat.add_assoc, Nat.add_comm 1], hc, hq⟩

theorem mem_places (v : Volume α) (p : Place) : p ∈ v.places ↔ (v.at? p).isSome := by
  induction p generalizing v with
  | nil => simp [places_eq, at?]
  | cons k q ih =>
      rw [places_eq, List.mem_cons, mem_placesFrom, at?]
      simp only [reduceCtorEq, false_or, List.cons.injEq, Nat.zero_add]
      cases hc : v.children[k]? with
      | none =>
          refine iff_of_false ?_ (by simp)
          rintro ⟨_, _, c, ⟨rfl, rfl⟩, hc', -⟩
          cases hc.symm.trans hc'
      | some c =>
          rw [Option.bind_some, ← ih c]
          constructor
          · rintro ⟨_, _, c', ⟨rfl, rfl⟩, hc', hq⟩
            cases hc.symm.trans hc'
            exact hq
          · exact fun hq => ⟨k, q, c, ⟨rfl, rfl⟩, hc, hq⟩

mutual

theorem ordered_places : ∀ v : Volume α, v.places.Pairwise (List.Lex (· < ·))
  | ⟨name, material, shape, children⟩ => by
    rw [places]
    refine List.pairwise_cons.mpr ⟨fun p hp => ?_, ordered_placesFrom 0 children⟩
    obtain ⟨i, q, -, rfl, -⟩ := mem_placesFrom.mp hp
    exact .nil

theorem ordered_placesFrom (k : Nat) :
    ∀ vs : List (Volume α), (placesFrom k vs).Pairwise (List.Lex (· < ·))
  | [] => .nil
  | v :: vs => by
    rw [placesFrom]
    refine List.pairwise_append.mpr ⟨?_, ordered_placesFrom (k + 1) vs, fun p hp q hq => ?_⟩
    · exact (ordered_places v).map _ fun _ _ h => .cons h
    · obtain ⟨p, -, rfl⟩ := List.mem_map.mp hp
      obtain ⟨i, q, -, rfl, -⟩ := mem_placesFrom.mp hq
      exact .rel (by omega)

end

end Volume

end Arbor
