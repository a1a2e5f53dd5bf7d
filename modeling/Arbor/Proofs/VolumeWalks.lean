import Arbor.Proofs.NestedVolumes

namespace Arbor

variable {α : Type}

namespace Volume

def tier (v : Volume α) : Nat → List (Place × Volume α)
  | 0 => [([], v)]
  | d + 1 => (v.tier d).flatMap fun (p, u) => u.children.zipIdx.map fun (c, k) => (p ++ [k], c)

theorem mem_tier {v : Volume α} {d : Nat} {p : Place} {u : Volume α} :
    (p, u) ∈ v.tier d ↔ p.length = d ∧ v.at? p = some u := by
  induction d generalizing p u with
  | zero =>
      rw [tier, List.mem_singleton, Prod.mk.injEq, List.length_eq_zero_iff]
      refine and_congr_right fun hp => ?_
      rw [hp, at?, Option.some.injEq, eq_comm]
  | succ d ih =>
      simp only [tier, List.mem_flatMap, List.mem_map, Prod.exists, Prod.mk.injEq, ih,
        List.mem_zipIdx_iff_getElem?]
      constructor
      · rintro ⟨q, w, ⟨rfl, hw⟩, c, k, hc, rfl, rfl⟩
        exact ⟨by simp, by rw [at?_append, hw]; exact hc⟩
      · rintro ⟨hlength, hu⟩
        obtain rfl | ⟨q, k, rfl⟩ := List.eq_nil_or_concat' p
        · cases hlength
        · rw [at?_append] at hu
          obtain ⟨w, hw, hc⟩ := Option.bind_eq_some_iff.mp hu
          exact ⟨q, w, ⟨by simpa using hlength, hw⟩, u, k, hc, rfl, rfl⟩

theorem mem_map_tier {v : Volume α} {d : Nat} {p : Place} :
    p ∈ (v.tier d).map Prod.fst ↔ p.length = d ∧ (v.at? p).isSome := by
  simp [mem_tier, Option.isSome_iff_exists]

/-- Places of the same depth keep their order when one goes on from them. -/
theorem lex_append {p q : Place} (h : List.Lex (· < ·) p q) (hlength : p.length = q.length)
    (p' q' : Place) : List.Lex (· < ·) (p ++ p') (q ++ q') := by
  induction h with
  | nil => cases hlength
  | cons _ ih => exact .cons (ih (Nat.succ.inj hlength))
  | rel h => exact .rel h

theorem ordered_tier (v : Volume α) (d : Nat) :
    (v.tier d).Pairwise fun a b => List.Lex (· < ·) a.1 b.1 := by
  induction d with
  | zero => exact List.pairwise_singleton _ _
  | succ d ih =>
      rw [tier, List.pairwise_flatMap]
      constructor
      · rintro ⟨p, u⟩ -
        have hindices : (u.children.zipIdx.map Prod.snd).Pairwise (· < ·) := by
          rw [List.zipIdx_map_snd]
          exact List.pairwise_lt_range'
        rw [List.pairwise_map] at hindices ⊢
        exact hindices.imp fun {a b} h => List.Lex.append_left (· < ·) (.rel h) p
      · refine ih.imp_of_mem fun {a b} ha hb h => ?_
        intro x hx y hy
        obtain ⟨⟨c, k⟩, -, rfl⟩ := List.mem_map.mp hx
        obtain ⟨⟨c', k'⟩, -, rfl⟩ := List.mem_map.mp hy
        refine lex_append h ?_ [k] [k']
        rw [(mem_tier.mp ha).1, (mem_tier.mp hb).1]

theorem tier_add_of_nil {v : Volume α} {d : Nat} (h : v.tier d = []) (e : Nat) :
    v.tier (d + e) = [] := by
  induction e with
  | zero => exact h
  | succ e ih => rw [← Nat.add_assoc, tier, ih, List.flatMap_nil]

theorem map_snd_tier_succ (v : Volume α) (d : Nat) :
    (v.tier (d + 1)).map Prod.snd = ((v.tier d).map Prod.snd).flatMap children := by
  rw [tier, List.map_flatMap, List.flatMap_map]
  refine List.flatMap_congr fun (p, u) _ => ?_
  rw [List.map_map]
  exact List.zipIdx_map_fst 0 u.children

section Levels

variable {β : Type}

@[simp]
theorem joinLevels_nil_left (ls : List (List β)) : joinLevels [] ls = ls := by
  rw [joinLevels]

@[simp]
theorem joinLevels_nil_right (ks : List (List β)) : joinLevels ks [] = ks := by
  cases ks <;> simp [joinLevels]

@[simp]
theorem joinLevels_cons (k l : List β) (ks ls : List (List β)) :
    joinLevels (k :: ks) (l :: ls) = (k ++ l) :: joinLevels ks ls := by
  rw [joinLevels]

theorem joinLevels_assoc (js ks ls : List (List β)) :
    joinLevels (joinLevels js ks) ls = joinLevels js (joinLevels ks ls) := by
  induction js generalizing ks ls with
  | nil => simp
  | cons j js ih => cases ks <;> cases ls <;> simp [ih]

end Levels

theorem levels_eq (v : Volume α) : v.levels = [v] :: levelsOf v.children := by
  cases v
  rw [levels]

theorem levelsOf_append (vs ws : List (Volume α)) :
    levelsOf (vs ++ ws) = joinLevels (levelsOf vs) (levelsOf ws) := by
  induction vs with
  | nil => simp [levelsOf]
  | cons v vs ih => simp [levelsOf, ih, joinLevels_assoc]

/-- Under some volumes next to each other come their children, and what is under these. -/
theorem levelsOf_eq {vs : List (Volume α)} (h : vs ≠ []) :
    levelsOf vs = vs :: levelsOf (vs.flatMap children) := by
  induction vs with
  | nil => exact (h rfl).elim
  | cons v vs ih =>
      rw [levelsOf, levels_eq, List.flatMap_cons, levelsOf_append]
      by_cases hvs : vs = []
      · simp [hvs, levelsOf]
      · rw [ih hvs, joinLevels_cons]
        rfl

theorem levelsOf_tier (v : Volume α) (d : Nat) :
    ∃ height, levelsOf ((v.tier d).map Prod.snd) =
        (List.range' d height).map (fun e => (v.tier e).map Prod.snd) ∧
      v.tier (d + height) = [] := by
  generalize hlevels : levelsOf ((v.tier d).map Prod.snd) = levels
  induction levels generalizing d with
  | nil =>
      refine ⟨0, rfl, ?_⟩
      by_contra hne
      have hsome : (v.tier d).map Prod.snd ≠ [] := List.map_eq_nil_iff.not.mpr hne
      rw [levelsOf_eq hsome] at hlevels
      cases hlevels
  | cons level levels ih =>
      have hne : (v.tier d).map Prod.snd ≠ [] := by
        intro hnil
        rw [hnil, levelsOf] at hlevels
        cases hlevels
      rw [levelsOf_eq hne, ← map_snd_tier_succ, List.cons.injEq] at hlevels
      obtain ⟨height, hbelow, hend⟩ := ih (d + 1) hlevels.2
      refine ⟨height + 1, ?_, by rw [Nat.add_comm height, ← Nat.add_assoc, hend]⟩
      rw [List.range'_succ, List.map_cons, ← hbelow, hlevels.1]

theorem walk_eq (v : Volume α) : v.walk = (levelsOf [v]).flatten := by
  rw [walk, levelsOf, levelsOf, joinLevels_nil_right]

theorem lists_walk (v : Volume α) : ∃ ps, Lists (List.Shortlex (· < ·)) v ps v.walk := by
  obtain ⟨height, hlevels, hend⟩ := levelsOf_tier v 0
  have hwalk : v.walk = (List.range' 0 height).flatMap fun d => (v.tier d).map Prod.snd := by
    rw [walk_eq, List.flatMap_def, ← hlevels]
    rfl
  refine ⟨(List.range' 0 height).flatMap fun d => (v.tier d).map Prod.fst, ?_, fun p => ?_, ?_⟩
  · rw [List.pairwise_flatMap]
    constructor
    · intro d _
      rw [List.pairwise_map]
      refine (ordered_tier v d).imp_of_mem fun ha hb h => .of_lex ?_ h
      rw [(mem_tier.mp ha).1, (mem_tier.mp hb).1]
    · have hdepths : (List.range' 0 height).Pairwise (· < ·) := List.pairwise_lt_range'
      refine hdepths.imp fun {d e} hlt => ?_
      intro p hp q hq
      refine .of_length_lt ?_
      rwa [(mem_map_tier.mp hp).1, (mem_map_tier.mp hq).1]
  · simp only [List.mem_flatMap, mem_map_tier]
    refine ⟨fun ⟨_, _, _, hp⟩ => hp, fun hp => ⟨p.length, ?_, rfl, hp⟩⟩
    by_contra hdeep
    have hbeyond : v.tier p.length = [] := by
      rw [List.mem_range'_1] at hdeep
      rw [← Nat.add_sub_of_le (show 0 + height ≤ p.length by omega)]
      exact tier_add_of_nil hend _
    have hmem : p ∈ (v.tier p.length).map Prod.fst := mem_map_tier.mpr ⟨rfl, hp⟩
    rw [hbeyond] at hmem
    cases hmem
  · rw [hwalk, List.map_flatMap, List.map_flatMap]
    refine List.flatMap_congr fun d _ => ?_
    rw [List.map_map, List.map_map]
    exact List.map_congr_left fun _ h => (mem_tier.mp h).2

/-- One round of a walk: the volume at the index hands its children to the end of the list. -/
def look : List (Volume α) × Nat → Option (List (Volume α) × Nat)
  | (found, index) => found[index]?.map fun v => (found ++ v.children, index + 1)

def lookTimes : Nat → List (Volume α) × Nat → Option (List (Volume α) × Nat)
  | 0, s => some s
  | n + 1, s => (look s).bind (lookTimes n)

theorem lookTimes_add (m n : Nat) (s : List (Volume α) × Nat) :
    lookTimes (m + n) s = (lookTimes m s).bind (lookTimes n) := by
  induction m generalizing s with
  | zero => rw [Nat.zero_add, lookTimes, Option.bind_some]
  | succ m ih =>
      rw [Nat.add_right_comm, lookTimes, lookTimes, Option.bind_assoc]
      exact Option.bind_congr fun s' _ => ih s'

/-- The volumes of a level are looked at in a row, and the next level comes behind what was found
already. -/
theorem lookTimes_level (found level tail : List (Volume α)) :
    lookTimes level.length (found ++ level ++ tail, found.length) =
      some (found ++ level ++ tail ++ level.flatMap children, (found ++ level).length) := by
  induction level generalizing found tail with
  | nil => simp [lookTimes]
  | cons v level ih =>
      have hlook : look (found ++ v :: level ++ tail, found.length) =
          some (found ++ [v] ++ level ++ (tail ++ v.children), (found ++ [v]).length) := by
        simp [look]
      rw [List.length_cons, lookTimes, hlook, Option.bind_some, ih]
      simp

theorem lookTimes_levels (found vs : List (Volume α)) :
    lookTimes (levelsOf vs).flatten.length (found ++ vs, found.length) =
      some (found ++ (levelsOf vs).flatten, (found ++ (levelsOf vs).flatten).length) := by
  generalize hlevels : levelsOf vs = levels
  induction levels generalizing found vs with
  | nil =>
      have hnil : vs = [] := by
        by_contra hne
        rw [levelsOf_eq hne] at hlevels
        cases hlevels
      simp [hnil, lookTimes]
  | cons level levels ih =>
      have hne : vs ≠ [] := by
        rintro rfl
        rw [levelsOf] at hlevels
        cases hlevels
      rw [levelsOf_eq hne, List.cons.injEq] at hlevels
      obtain ⟨rfl, hbelow⟩ := hlevels
      have hlevel := lookTimes_level found vs []
      rw [List.append_nil] at hlevel
      rw [List.flatten_cons, List.length_append, lookTimes_add, hlevel, Option.bind_some,
        ih _ _ hbelow, List.append_assoc]

/-- A walk ends: when it has looked at as many volumes as it found, these are all levels. -/
theorem lookTimes_walk (v : Volume α) :
    lookTimes v.walk.length ([v], 0) = some (v.walk, v.walk.length) := by
  have h := lookTimes_levels [] [v]
  rwa [← walk_eq] at h

example (shape : Shape α) : (walk ⟨"World", "air", shape,
    [⟨"Envelope", "air", shape, [⟨"Leaf", "silicon", shape, []⟩]⟩,
      ⟨"Trunk", "wood", shape, []⟩]⟩).map name = ["World", "Envelope", "Trunk", "Leaf"] := rfl

end Volume

end Arbor
