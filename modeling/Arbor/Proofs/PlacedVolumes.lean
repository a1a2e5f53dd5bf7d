import Mathlib.Data.List.Forall2
import Arbor.Assembly.Structure
import Arbor.Proofs.VolumeWalks

namespace Arbor

variable {α σ η : Type}

structure Placing (α η : Type) where
  volume : Volume α
  parent : Option η
  handle : η

/-- The consumer that also writes down how it is called. -/
def watch (place : Volume α → Option η → StateM σ η) (volume : Volume α) (parent : Option η) :
    StateM (σ × List (Placing α η)) η :=
  fun (s, log) =>
    let (handle, s) := (place volume parent).run s
    (handle, s, log ++ [⟨volume, parent, handle⟩])

theorem run_watch (place : Volume α → Option η → StateM σ η) (v : Volume α) (parent : Option η)
    (s : σ) (log : List (Placing α η)) :
    (watch place v parent).run (s, log) =
      let (handle, s) := (place v parent).run s
      (handle, s, log ++ [⟨v, parent, handle⟩]) := rfl

/-- Calls of a consumer in a row, each in the state that the one before it left. -/
inductive Placed (place : Volume α → Option η → StateM σ η) : σ → List (Placing α η) → σ → Prop
  | nil (s : σ) : Placed place s [] s
  | cons (s s' s'' : σ) (c : Placing α η) (log : List (Placing α η))
      (here : (place c.volume c.parent).run s = (c.handle, s')) (rest : Placed place s' log s'') :
      Placed place s (c :: log) s''

namespace Placed

variable {place : Volume α → Option η → StateM σ η} {s s' s'' : σ} {log log' : List (Placing α η)}

theorem append (h : Placed place s log s') (h' : Placed place s' log' s'') :
    Placed place s (log ++ log') s'' := by
  induction h with
  | nil => exact h'
  | cons s r _ c log here _ ih => exact .cons s r _ c _ here (ih h')

theorem watched {written : List (Placing α η)} {t : σ × List (Placing α η)}
    (h : Placed (watch place) (s, written) log t) :
    Placed place s log t.1 ∧ t.2 = written ++ log := by
  generalize hstart : (s, written) = start at h
  induction h generalizing s written with
  | nil =>
      cases hstart
      exact ⟨.nil s, by simp⟩
  | cons _ r _ c log here _ ih =>
      cases hstart
      cases hrun : (place c.volume c.parent).run s with
      | mk handle next =>
          rw [run_watch, hrun] at here
          cases here
          obtain ⟨hrest, hlog⟩ := ih rfl
          exact ⟨.cons s next _ c log hrun hrest, by simp [hlog]⟩

end Placed

namespace Volume

/-- The volumes at all the places are placed in the order of the places, which puts each behind the
one it is in and next to its siblings. It gets the handle of the volume it is in; only the outermost
one gets none. -/
structure Orderly (world : Volume α) (ps : List Place) (log : List (Placing α η)) : Prop
    extends Lists (List.Lex (· < ·)) world ps (log.map Placing.volume) where
  outermost : ∀ (i : Nat) (c : Placing α η), ps[i]? = some [] → log[i]? = some c → c.parent = none
  nested : ∀ (i : Nat) (p : Place) (k : Nat) (c : Placing α η), ps[i]? = some (p ++ [k]) →
    log[i]? = some c →
      ∃ j < i, ∃ d : Placing α η, ps[j]? = some p ∧ log[j]? = some d ∧ c.parent = some d.handle

structure CalledAt (world : Volume α) (outer : Option η) (given : Place → η) (p : Place)
    (c : Placing α η) : Prop where
  volume : world.at? p = some c.volume
  handle : c.handle = given p
  parent : c.parent = if p = [] then outer else some (given p.dropLast)

/-- The handles of a tree, in which those of the `k`-th subtree are known apart. -/
def graft (k : Nat) (inner outer : Place → η) : Place → η
  | [] => outer []
  | j :: q => if j = k then inner q else outer (j :: q)

namespace CalledAt

variable {v world : Volume α} {outer : Option η} {inner rest : Place → η} {j k : Nat} {q : Place}
  {c : Placing α η}

theorem inside (hv : world.children[k]? = some v)
    (h : CalledAt v (some (rest [])) inner q c) :
    CalledAt world outer (graft k inner rest) (k :: q) c := by
  obtain ⟨hvolume, hhandle, hparent⟩ := h
  refine ⟨by rw [at?, hv, Option.bind_some, hvolume], by simp [graft, hhandle], ?_⟩
  cases q with
  | nil => simp [graft, hparent]
  | cons i q => simp [graft, hparent]

theorem beside (hj : j ≠ k) (h : CalledAt world outer rest (j :: q) c) :
    CalledAt world outer (graft k inner rest) (j :: q) c := by
  obtain ⟨hvolume, hhandle, hparent⟩ := h
  refine ⟨hvolume, by simp [graft, hj, hhandle], ?_⟩
  cases q with
  | nil => simp [graft, hparent]
  | cons i q => simp [graft, hparent, hj]

end CalledAt

structure Emits (place : Volume α → Option η → StateM σ η) (world : Volume α) (outer : Option η)
    (ps : List Place) (given : Place → η) (log : List (Placing α η)) (s : σ)
    (answer : List η × σ) : Prop where
  placed : Placed place s log answer.2
  answered : answer.1.Perm (log.map Placing.handle)
  called : List.Forall₂ (CalledAt world outer given) ps log

variable (place : Volume α → Option η → StateM σ η)

theorem run_emit (v : Volume α) (parent : Option η) (s : σ) :
    (v.emit place parent).run s =
      let (handle, s) := (place v parent).run s
      let (below, s) := (emitAll place handle v.children).run s
      (below ++ [handle], s) := by
  cases v
  rw [emit]
  rfl

theorem run_emitAll_cons (v : Volume α) (vs : List (Volume α)) (parent : η) (s : σ) :
    (emitAll place parent (v :: vs)).run s =
      let (here, s) := (v.emit place (some parent)).run s
      let (rest, s) := (emitAll place parent vs).run s
      (here ++ rest, s) := by
  rw [emitAll]
  rfl

mutual

theorem emits : ∀ (v : Volume α) (parent : Option η) (s : σ), ∃ given log,
    Emits place v parent v.places given log s ((v.emit place parent).run s)
  | ⟨name, material, shape, children⟩, parent, s => by
    generalize hv : (⟨name, material, shape, children⟩ : Volume α) = v
    have hchildren : v.children.drop 0 = children := by rw [← hv, List.drop_zero]
    cases hplace : (place v parent).run s with
    | mk top s' =>
        obtain ⟨given, log, rfl, h⟩ := emits_all children v parent top 0 s' hchildren
        rw [← hchildren, List.drop_zero] at h
        refine ⟨given, ⟨v, parent, given []⟩ :: log, ?_⟩
        rw [run_emit, hplace, places_eq]
        refine ⟨.cons s s' _ _ log hplace h.placed, ?_, .cons ⟨rfl, rfl, rfl⟩ h.called⟩
        exact (List.perm_append_singleton _ _).trans (h.answered.cons _)

theorem emits_all : ∀ (vs : List (Volume α)) (world : Volume α) (outer : Option η) (top : η)
    (k : Nat) (s : σ), world.children.drop k = vs → ∃ given log, given [] = top ∧
      Emits place world outer (placesFrom k vs) given log s ((emitAll place top vs).run s)
  | [], _, _, top, _, s, _ => by
    refine ⟨fun _ => top, [], rfl, ?_⟩
    rw [emitAll, placesFrom]
    exact ⟨.nil s, .nil, .nil⟩
  | v :: vs, world, outer, top, k, s, h => by
    obtain ⟨inner, log, hv⟩ := emits v (some top) s
    have hrest : world.children.drop (k + 1) = vs := by
      rw [← List.tail_drop, h, List.tail_cons]
    have hchild : world.children[k]? = some v := by
      rw [← List.head?_drop, h, List.head?_cons]
    obtain ⟨rest, log', rfl, hvs⟩ := emits_all vs world outer top (k + 1)
      ((v.emit place (some top)).run s).2 hrest
    refine ⟨graft k inner rest, log ++ log', rfl, ?_⟩
    rw [run_emitAll_cons, placesFrom]
    refine ⟨hv.placed.append hvs.placed, ?_, ?_⟩
    · rw [List.map_append]
      exact hv.answered.append hvs.answered
    · refine List.rel_append ?_ ?_
      · exact List.forall₂_map_left_iff.mpr (hv.called.imp fun _ _ => CalledAt.inside hchild)
      · have hbeside (p : Place) (hp : p ∈ placesFrom (k + 1) vs) :
            ∃ j q, p = j :: q ∧ j ≠ k := by
          obtain ⟨i, q, -, rfl, -⟩ := mem_placesFrom.mp hp
          exact ⟨_, q, rfl, by omega⟩
        refine ((List.forall₂_and_left _ _).mpr ⟨hbeside, hvs.called⟩).imp ?_
        rintro _ c ⟨⟨j, q, rfl, hj⟩, hc⟩
        exact hc.beside hj

end

mutual

theorem run_emit_watch : ∀ (v : Volume α) (parent : Option η) (s : σ) (log : List (Placing α η)),
    ∃ log', (v.emit (watch place) parent).run (s, log) =
      (((v.emit place parent).run s).1, ((v.emit place parent).run s).2, log')
  | ⟨name, material, shape, children⟩, parent, s, log => by
    generalize hv : (⟨name, material, shape, children⟩ : Volume α) = v
    have hchildren : v.children = children := by rw [← hv]
    cases hplace : (place v parent).run s with
    | mk top s' =>
        obtain ⟨log', h⟩ := run_emitAll_watch children top s' (log ++ [⟨v, parent, top⟩])
        refine ⟨log', ?_⟩
        rw [run_emit, run_emit, run_watch, hplace, hchildren]
        simp only [h]
        rfl

theorem run_emitAll_watch : ∀ (vs : List (Volume α)) (top : η) (s : σ) (log : List (Placing α η)),
    ∃ log', (emitAll (watch place) top vs).run (s, log) =
      (((emitAll place top vs).run s).1, ((emitAll place top vs).run s).2, log')
  | [], _, _, log => ⟨log, by rw [emitAll, emitAll]; rfl⟩
  | v :: vs, top, s, log => by
    obtain ⟨log', hv⟩ := run_emit_watch v (some top) s log
    obtain ⟨log'', hvs⟩ := run_emitAll_watch vs top ((v.emit place (some top)).run s).2 log'
    refine ⟨log'', ?_⟩
    rw [run_emitAll_cons, run_emitAll_cons, hv]
    simp only [hvs]
    rfl

end

theorem map_at?_of_calls {world : Volume α} {outer : Option η} {given : Place → η}
    {ps : List Place} {log : List (Placing α η)}
    (h : List.Forall₂ (CalledAt world outer given) ps log) :
    ps.map world.at? = (log.map Placing.volume).map some := by
  induction h with
  | nil => rfl
  | cons hc _ ih => rw [List.map_cons, List.map_cons, List.map_cons, hc.volume, ih]

section Calls

variable {world : Volume α} {given : Place → η} {log : List (Placing α η)}
  (h : List.Forall₂ (CalledAt world none given) world.places log)

include h

theorem calledAt_of_getElem? {i : Nat} {p : Place} {c : Placing α η}
    (hp : world.places[i]? = some p) (hc : log[i]? = some c) :
    CalledAt world none given p c := by
  obtain ⟨hi, rfl⟩ := List.getElem?_eq_some_iff.mp hp
  obtain ⟨hi', rfl⟩ := List.getElem?_eq_some_iff.mp hc
  exact h.get hi hi'

theorem orderly_of_calls : Orderly world world.places log := by
  refine ⟨⟨ordered_places world, mem_places world, map_at?_of_calls h⟩,
    fun i c hp hc => (calledAt_of_getElem? h hp hc).parent, fun i p k c hp hc => ?_⟩
  have hcall := calledAt_of_getElem? h hp hc
  have habove : p ∈ world.places := by
    have hmem := (mem_places world _).mp (List.mem_of_getElem? hp)
    rw [at?_append] at hmem
    exact (mem_places world p).mpr (Option.isSome_of_isSome_bind hmem)
  obtain ⟨j, hj⟩ := List.getElem?_of_mem habove
  obtain ⟨d, hd⟩ : ∃ d, log[j]? = some d := by
    obtain ⟨hlt, -⟩ := List.getElem?_eq_some_iff.mp hj
    exact ⟨_, List.getElem?_eq_getElem (h.length_eq ▸ hlt)⟩
  refine ⟨j, ?_, d, hj, hd, ?_⟩
  · have hless : List.Lex (· < ·) p (p ++ [k]) := by
      simpa using List.Lex.append_left (· < ·) (.nil : List.Lex (· < ·) [] [k]) p
    by_contra hle
    obtain rfl | hlt := Nat.eq_or_lt_of_le (Nat.not_lt.mp hle)
    · simpa using hp.symm.trans hj
    · obtain ⟨hi, hp⟩ := List.getElem?_eq_some_iff.mp hp
      obtain ⟨hj, hp'⟩ := List.getElem?_eq_some_iff.mp hj
      have hmore := List.pairwise_iff_getElem.mp (ordered_places world) i j hi hj hlt
      rw [hp, hp'] at hmore
      exact asymm hless hmore
  · rw [hcall.parent, (calledAt_of_getElem? h hj hd).handle]
    simp

end Calls

end Volume

namespace Structure

theorem run_emit (place : Volume α → Option η → StateM σ η) (s : Structure α) (state : σ) :
    (s.emit place).run state =
      let (world, state) := (place s.world none).run state
      let (below, state) := (Volume.emitAll place world s.daughters).run state
      (world :: below, state) := rfl

/-- What a consumer is told of a structure: a call for every volume, in order. The handles are
answered, that of the world in front. -/
structure Emission (s : Structure α) (place : Volume α → Option η → StateM σ η) (state : σ)
    (log : List (Placing α η)) (answer : List η × σ) : Prop where
  placed : Placed place state log answer.2
  orderly : ∃ ps, s.world.Orderly ps log
  first : ∃ c, log.head? = some c ∧ c.volume = s.world ∧ answer.1.head? = some c.handle
  answered : answer.1.Perm (log.map Placing.handle)

theorem exists_emission (s : Structure α) (place : Volume α → Option η → StateM σ η) (state : σ) :
    ∃ log, s.Emission place state log ((s.emit place).run state) := by
  cases hplace : (place s.world none).run state with
  | mk top next =>
      obtain ⟨given, log, rfl, h⟩ :=
        Volume.emits_all place s.daughters s.world none top 0 next (List.drop_zero)
      refine ⟨⟨s.world, none, given []⟩ :: log, ?_⟩
      rw [run_emit, hplace]
      refine ⟨.cons state next _ _ log hplace h.placed, ?_, ⟨_, rfl, rfl, rfl⟩, h.answered.cons _⟩
      have hcalls : List.Forall₂ (Volume.CalledAt s.world none given) s.world.places
          (⟨s.world, none, given []⟩ :: log) := by
        rw [Volume.places_eq]
        exact .cons ⟨rfl, rfl, rfl⟩ h.called
      exact ⟨s.world.places, Volume.orderly_of_calls hcalls⟩

theorem run_emit_watch (s : Structure α) (place : Volume α → Option η → StateM σ η) (state : σ) :
    ∃ log, (s.emit (watch place)).run (state, []) =
      (((s.emit place).run state).1, ((s.emit place).run state).2, log) := by
  cases hplace : (place s.world none).run state with
  | mk top next =>
      obtain ⟨log, h⟩ :=
        Volume.run_emitAll_watch place s.daughters top next [⟨s.world, none, top⟩]
      refine ⟨log, ?_⟩
      rw [run_emit, run_emit, run_watch, hplace]
      simp only [List.nil_append, h]
      rfl

theorem emission_watched (s : Structure α) (place : Volume α → Option η → StateM σ η) (state : σ) :
    ∃ log, (s.emit (watch place)).run (state, []) =
        (((s.emit place).run state).1, ((s.emit place).run state).2, log) ∧
      s.Emission place state log ((s.emit place).run state) := by
  obtain ⟨written, hwatch⟩ := s.run_emit_watch place state
  obtain ⟨log, hplaced, horderly, hfirst, hanswered⟩ :=
    s.exists_emission (watch place) (state, [])
  rw [hwatch] at hplaced hfirst hanswered
  obtain ⟨hplaced, rfl⟩ := hplaced.watched
  exact ⟨written, hwatch, hplaced, horderly, hfirst, hanswered⟩

theorem Emission.perm_walk {s : Structure α} {place : Volume α → Option η → StateM σ η}
    {state : σ} {log : List (Placing α η)} {answer : List η × σ}
    (h : s.Emission place state log answer) : (log.map Placing.volume).Perm s.world.walk := by
  obtain ⟨ps, hps⟩ := h.orderly
  obtain ⟨qs, hqs⟩ := s.world.lists_walk
  exact hps.perm hqs

end Structure

end Arbor
