import Arbor.Assembly.Build
import Arbor.Proofs.Descents

namespace Arbor

variable {α : Type} [Scalar α]

namespace Settings

def withBranch (settings : Settings α) (grown : Interpretation α) (t : Turtle α)
    (plant : Structure α) : Structure α :=
  (plant.add (settings.trunk (settings.branchOf grown t))).modifyMetrics fun m =>
    { m with branches := m.branches + 1 }

def borneAt (settings : Settings α) (grown : Interpretation α) (iterations : Int64) (t : Turtle α)
    (index : Nat) : List (Candidate α) :=
  (settings.leafPoses iterations t (settings.branchOf grown t)).map fun pose => ⟨pose, index⟩

/-- How the branches of turtles and of those below them are placed, however deep they lie. -/
inductive Places (settings : Settings α) (grown : Interpretation α) (iterations : Int64) :
    List TurtleId → Scaffold α → Scaffold α → Prop
  | nil (s : Scaffold α) : Places settings grown iterations [] s s
  | gone (id : TurtleId) (ids : List TurtleId) (s s' : Scaffold α)
      (h : grown.forest.get? id = none) (rest : Places settings grown iterations ids s s') :
      Places settings grown iterations (id :: ids) s s'
  | branch (id : TurtleId) (ids : List TurtleId) (t : Turtle α) (s below s' : Scaffold α)
      (h : grown.forest.get? id = some t)
      (down : Places settings grown iterations t.children
        { s with plant := settings.withBranch grown t s.plant } below)
      (rest : Places settings grown iterations ids
        { below with candidates := below.candidates ++
            settings.borneAt grown iterations t s.plant.daughters.length } s') :
      Places settings grown iterations (id :: ids) s s'

variable {settings : Settings α} {grown : Interpretation α} {iterations : Int64}

/-- Children are younger than their parents, so nobody lies deeper than there are turtles left. -/
theorem foldl_placeBranch (h : grown.Grown) (fuel : Nat) (ids : List TurtleId)
    (hfuel : ∀ id ∈ ids, grown.forest.slots.size ≤ id + fuel) (s : Scaffold α) :
    settings.Places grown iterations ids s
      (ids.foldl (fun s id => settings.placeBranch grown iterations fuel id s) s) := by
  -- the fuel is for the generations, the inner induction for the siblings
  induction fuel generalizing ids s with
  | zero =>
      have hplace (s : Scaffold α) (id : TurtleId) :
          settings.placeBranch grown iterations 0 id s = s := rfl
      induction ids generalizing s with
      | nil => exact .nil s
      | cons id ids ih =>
          rw [List.foldl_cons, hplace]
          refine .gone id ids s _ (Forest.get?_eq_none (hfuel id List.mem_cons_self)) ?_
          exact ih (fun id hid => hfuel id (List.mem_cons_of_mem _ hid)) s
  | succ fuel ihfuel =>
      induction ids generalizing s with
      | nil => exact .nil s
      | cons id ids ih =>
          rw [List.foldl_cons]
          have hrest := ih fun id hid => hfuel id (List.mem_cons_of_mem _ hid)
          cases ht : grown.forest.get? id with
          | none =>
              have hplace : settings.placeBranch grown iterations (fuel + 1) id s = s := by
                simp [placeBranch, ht]
              rw [hplace]
              exact .gone id ids s _ ht (hrest s)
          | some t =>
              have hdown := ihfuel t.children (fun c hc => ?_)
                { s with plant := settings.withBranch grown t s.plant }
              · refine .branch id ids t s _ _ ht hdown ?_
                have hplace := hrest (settings.placeBranch grown iterations (fuel + 1) id s)
                simp only [placeBranch, ht] at hplace ⊢
                exact hplace
              · have hlt := h.younger id c ((h.genealogy.listed id t c ht).mp hc)
                have hle := hfuel id List.mem_cons_self
                omega

theorem placeBranches_places (settings : Settings α) (h : grown.Grown) (iterations : Int64)
    (plant : Structure α) :
    settings.Places grown iterations grown.roots { plant }
      (settings.placeBranches grown iterations plant) :=
  foldl_placeBranch h _ _ (fun _ _ => Nat.le_add_left ..) _

/-- The branches of the turtles `visits` and their candidates, as they were added to a scaffold. In
`queue` the turtles stand in the order of their candidates, with the places of their branches. -/
structure Covers (settings : Settings α) (grown : Interpretation α) (iterations : Int64)
    (visits : List (TurtleId × Turtle α)) (queue : List ((TurtleId × Turtle α) × Nat))
    (s s' : Scaffold α) : Prop where
  living : ∀ v ∈ visits, grown.forest.get? v.1 = some v.2
  daughters : s'.plant.daughters =
    s.plant.daughters ++ visits.map fun v => settings.trunk (settings.branchOf grown v.2)
  metrics : s'.plant.metrics =
    { s.plant.metrics with branches := s.plant.metrics.branches + visits.length }
  indexed : queue.Perm (visits.zipIdx s.plant.daughters.length)
  candidates : s'.candidates =
    s.candidates ++ queue.flatMap fun b => settings.borneAt grown iterations b.1.2 b.2

theorem daughters_withBranch (t : Turtle α) (plant : Structure α) :
    (settings.withBranch grown t plant).daughters =
      plant.daughters ++ [settings.trunk (settings.branchOf grown t)] := rfl

namespace Covers

variable {visits visits' : List (TurtleId × Turtle α)}
  {queue queue' : List ((TurtleId × Turtle α) × Nat)} {s below s' : Scaffold α}

theorem nil (s : Scaffold α) : settings.Covers grown iterations [] [] s s where
  living := List.forall_mem_nil _
  daughters := (List.append_nil _).symm
  metrics := rfl
  indexed := .nil
  candidates := (List.append_nil _).symm

theorem branch {id : TurtleId} {t : Turtle α} (ht : grown.forest.get? id = some t)
    (hdown : settings.Covers grown iterations visits queue
      { s with plant := settings.withBranch grown t s.plant } below)
    (hrest : settings.Covers grown iterations visits' queue'
      { below with candidates := below.candidates ++
          settings.borneAt grown iterations t s.plant.daughters.length } s') :
    settings.Covers grown iterations ((id, t) :: visits ++ visits')
      (queue ++ ((id, t), s.plant.daughters.length) :: queue') s s' := by
  have hdaughters : below.plant.daughters = s.plant.daughters ++
      ((id, t) :: visits).map fun v => settings.trunk (settings.branchOf grown v.2) := by
    rw [hdown.daughters, daughters_withBranch, List.append_assoc, List.map_cons,
      List.singleton_append]
  constructor
  · intro v hv
    rcases List.mem_append.mp hv with hv | hv
    · rcases List.mem_cons.mp hv with rfl | hv
      · exact ht
      · exact hdown.living v hv
    · exact hrest.living v hv
  · rw [hrest.daughters, hdaughters, List.append_assoc, List.map_append]
  · rw [hrest.metrics, hdown.metrics]
    simp [withBranch, Structure.modifyMetrics, Structure.add]
    omega
  · have hlength : (below.plant.daughters).length =
        s.plant.daughters.length + (visits.length + 1) := by
      rw [hdaughters, List.length_append, List.length_map, List.length_cons]
    have hbelow := hdown.indexed
    rw [daughters_withBranch, List.length_append, List.length_singleton] at hbelow
    have hbeside := hrest.indexed
    rw [hlength] at hbeside
    -- a turtle is noted after those below it, but its branch comes before theirs
    rw [List.zipIdx_append, List.zipIdx_cons, List.length_cons]
    exact List.perm_middle.trans (.cons _ (hbelow.append hbeside))
  · rw [hrest.candidates, hdown.candidates, List.flatMap_append, List.flatMap_cons]
    simp only [List.append_assoc]

theorem mem_visits (h : settings.Covers grown iterations visits queue s s')
    {b : (TurtleId × Turtle α) × Nat} (hb : b ∈ queue) : b.1 ∈ visits := by
  obtain ⟨hle, hlt, he⟩ := List.mem_zipIdx (h.indexed.mem_iff.mp hb)
  exact he ▸ List.getElem_mem _

theorem getElem? (h : settings.Covers grown iterations visits queue s s')
    {v : TurtleId × Turtle α} {i : Nat} (hv : (v, i) ∈ queue) :
    s'.plant.daughters[i]? = some (settings.trunk (settings.branchOf grown v.2)) := by
  obtain ⟨hle, hlt, he⟩ := List.mem_zipIdx (h.indexed.mem_iff.mp hv)
  rw [h.daughters, List.getElem?_append_right hle, List.getElem?_map,
    List.getElem?_eq_getElem (by omega), ← he]
  rfl

end Covers

theorem Places.covers {ids : List TurtleId} {s s' : Scaffold α}
    (h : settings.Places grown iterations ids s s') :
    ∃ visits queue, grown.forest.Descends ids (visits.map Prod.fst) ∧
      settings.Covers grown iterations visits queue s s' := by
  induction h with
  | nil s => exact ⟨[], [], .nil, .nil s⟩
  | gone id ids s s' h rest ih =>
      obtain ⟨visits, queue, hdescends, hcovers⟩ := ih
      exact ⟨visits, queue, .gone id ids _ h hdescends, hcovers⟩
  | branch id ids t s below s' h down rest ihdown ihrest =>
      obtain ⟨visits, queue, hbelow, hdown⟩ := ihdown
      obtain ⟨visits', queue', hbeside, hrest⟩ := ihrest
      refine ⟨_, _, ?_, .branch h hdown hrest⟩
      rw [List.map_append, List.map_cons]
      exact .branch id ids t _ _ h hbelow hbeside

/-- Branches are placed for all retired turtles, and for each of them once. -/
theorem placeBranches_covers (settings : Settings α) (h : grown.Grown) (iterations : Int64)
    (plant : Structure α) :
    ∃ visits queue, (visits.map Prod.fst).Perm grown.retired ∧
      settings.Covers grown iterations visits queue { plant }
        (settings.placeBranches grown iterations plant) := by
  obtain ⟨visits, queue, hdescends, hcovers⟩ :=
    (settings.placeBranches_places h iterations plant).covers
  exact ⟨visits, queue, h.perm_retired hdescends, hcovers⟩

end Settings

end Arbor
