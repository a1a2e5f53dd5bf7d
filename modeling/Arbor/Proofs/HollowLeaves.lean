import Arbor.Proofs.AssembledPlants

namespace Arbor

variable {α : Type}

/-- A leaf of whose envelope nothing is left. -/
def Volume.IsHollow (v : Volume α) : Prop :=
  v.name = "LeafEnvelope" ∧ ∃ s, v.shape = .tessellated s ∧ s.isEmpty = true

namespace Volume

theorem mem_flatten_joinLevels {β : Type} {b : β} (ks ls : List (List β)) :
    b ∈ (joinLevels ks ls).flatten ↔ b ∈ ks.flatten ∨ b ∈ ls.flatten := by
  induction ks generalizing ls with
  | nil => simp [joinLevels]
  | cons k ks ih =>
      cases ls with
      | nil => simp [joinLevels]
      | cons l ls =>
          simp only [joinLevels, List.flatten_cons, List.mem_append, ih]
          tauto

theorem mem_flatten_levelsOf {v : Volume α} (vs : List (Volume α)) :
    v ∈ (levelsOf vs).flatten ↔ ∃ w ∈ vs, v ∈ w.walk := by
  induction vs with
  | nil => simp [levelsOf]
  | cons w vs ih =>
      rw [levelsOf, mem_flatten_joinLevels, ih, List.exists_mem_cons_iff]
      rfl

theorem mem_walk {v w : Volume α} : v ∈ w.walk ↔ v = w ∨ ∃ c ∈ w.children, v ∈ c.walk := by
  rcases w with ⟨name, material, shape, children⟩
  rw [walk, levels, List.flatten_cons, List.mem_append, mem_flatten_levelsOf, List.mem_singleton]

theorem mem_walk_of_children {v w : Volume α} (h : w.children = []) : v ∈ w.walk ↔ v = w := by
  rw [mem_walk, h]
  simp

end Volume

namespace Structure

structure Extends (plant plant' : Structure α) : Prop where
  name : plant'.world.name = plant.world.name
  shape : plant'.world.shape = plant.world.shape

theorem Extends.refl (plant : Structure α) : plant.Extends plant := ⟨rfl, rfl⟩

theorem Extends.trans {p q r : Structure α} (hpq : p.Extends q) (hqr : q.Extends r) :
    p.Extends r :=
  ⟨hqr.name.trans hpq.name, hqr.shape.trans hpq.shape⟩

theorem mem_walk_of_hollow (plant : Structure α) (hname : plant.world.name = "World")
    {v : Volume α} (hmem : v ∈ plant.world.walk) (hv : v.IsHollow) :
    ∃ w ∈ plant.daughters, v ∈ w.walk := by
  refine (Volume.mem_walk.mp hmem).resolve_left ?_
  rintro rfl
  rw [Volume.IsHollow, hname] at hv
  exact absurd hv.1 (by decide)

end Structure

variable [Scalar α]

namespace Settings

variable {settings : Settings α}

omit [Scalar α] in
theorem leafVolume_hollow_iff (settings : Settings α) (shells : LeafShells α) :
    (settings.leafVolume shells).IsHollow ↔ shells.envelope.isEmpty = true := by
  constructor
  · rintro ⟨-, s, hs, hempty⟩
    cases hs
    exact hempty
  · exact fun hempty => ⟨rfl, _, rfl, hempty⟩

omit [Scalar α] in
theorem hollow_of_mem_leafVolume {shells : LeafShells α} {v : Volume α}
    (hmem : v ∈ (settings.leafVolume shells).walk) (hv : v.IsHollow) :
    v = settings.leafVolume shells := by
  rcases Volume.mem_walk.mp hmem with rfl | ⟨c, hc, hv'⟩
  · rfl
  · have hlayer : c.children = [] ∧ c.name ∈ ["LeafFront", "LeafSensitive", "LeafBack"] := by
      simp only [leafVolume, List.mem_cons, List.not_mem_nil, or_false] at hc
      rcases hc with rfl | rfl | rfl <;> simp
    rw [Volume.mem_walk_of_children hlayer.1] at hv'
    cases hv'
    rw [hv.1] at hlayer
    exact absurd hlayer.2 (by decide)

theorem extends_tryPlaceLeaf (settings : Settings α) (shells : LeafShells α) (branch : Option Nat)
    (site : Site α) :
    site.plant.Extends ((settings.tryPlaceLeaf shells branch).run site).2.plant := by
  rcases settings.tryPlaceLeaf_cases shells branch site with ⟨checker, hrun⟩ | ⟨checker, hrun⟩
  · rw [hrun]
    exact ⟨rfl, rfl⟩
  · rw [hrun]
    exact ⟨rfl, rfl⟩

theorem filled_of_tryPlaceLeaf {shells : LeafShells α} {branch : Option Nat} {site : Site α}
    (h : ((settings.tryPlaceLeaf shells branch).run site).1 = true) :
    shells.envelope.isEmpty = false := by
  rw [run_tryPlaceLeaf] at h
  by_contra hempty
  rw [if_pos (Bool.eq_true_of_not_eq_false hempty)] at h
  cases h

def tryLeaves (settings : Settings α) (calls : List (LeafShells α × Option Nat)) :
    StateM (Site α) (List (Trial α)) :=
  calls.mapM fun c => do return ⟨c.1, ← settings.tryPlaceLeaf c.1 c.2⟩

theorem run_tryLeaves_cons (settings : Settings α) (c : LeafShells α × Option Nat)
    (calls : List (LeafShells α × Option Nat)) (site : Site α) :
    (settings.tryLeaves (c :: calls)).run site =
      let first := (settings.tryPlaceLeaf c.1 c.2).run site
      let rest := (settings.tryLeaves calls).run first.2
      (⟨c.1, first.1⟩ :: rest.1, rest.2) := by
  rw [tryLeaves, List.mapM_cons]
  rfl

/-- Trials of which those that succeed leave an envelope behind, as they change a plant. -/
structure Fills (settings : Settings α) (trials : List (Trial α)) (plant plant' : Structure α) :
    Prop where
  accounts : settings.Accounts trials plant plant'
  world : plant.Extends plant'
  filled : ∀ t ∈ trials, t.shells.envelope.isEmpty = true → t.placed = false

namespace Fills

variable {trials : List (Trial α)} {plant plant' : Structure α}

theorem nil (plant : Structure α) : settings.Fills [] plant plant :=
  ⟨.nil plant, .refl plant, List.forall_mem_nil _⟩

theorem cons {shells : LeafShells α} {branch : Option Nat} {site : Site α}
    (h : settings.Fills trials ((settings.tryPlaceLeaf shells branch).run site).2.plant plant') :
    settings.Fills (⟨shells, ((settings.tryPlaceLeaf shells branch).run site).1⟩ :: trials)
      site.plant plant' := by
  refine ⟨?_, (settings.extends_tryPlaceLeaf shells branch site).trans h.world, ?_⟩
  · have haccounts := h.accounts
    rcases settings.tryPlaceLeaf_cases shells branch site with ⟨checker, hrun⟩ | ⟨checker, hrun⟩
    · rw [hrun] at haccounts ⊢
      exact .placed haccounts
    · rw [hrun] at haccounts ⊢
      exact .rejected haccounts
  · refine List.forall_mem_cons.mpr ⟨fun hempty => ?_, h.filled⟩
    by_contra hplaced
    have hfilled := filled_of_tryPlaceLeaf (Bool.eq_true_of_not_eq_false hplaced)
    exact nomatch hempty.symm.trans hfilled

theorem of_mem_accepted (h : settings.Fills trials plant plant') {shells : LeafShells α}
    (hshells : shells ∈ Trial.accepted trials) : shells.envelope.isEmpty = false := by
  obtain ⟨t, ht, rfl⟩ := List.mem_map.mp hshells
  obtain ⟨hmem, hplaced⟩ := List.mem_filter.mp ht
  by_contra hempty
  have hrejected := h.filled t hmem (Bool.eq_true_of_not_eq_false hempty)
  exact nomatch hplaced.symm.trans hrejected

theorem hollow (h : settings.Fills trials plant plant') {v w : Volume α}
    (hw : w ∈ plant'.daughters) (hmem : v ∈ w.walk) (hv : v.IsHollow) : w ∈ plant.daughters := by
  rw [h.accounts.daughters] at hw
  refine (List.mem_append.mp hw).resolve_right fun hleaf => ?_
  obtain ⟨shells, hshells, rfl⟩ := List.mem_map.mp hleaf
  rw [hollow_of_mem_leafVolume hmem hv, leafVolume_hollow_iff, h.of_mem_accepted hshells] at hv
  cases hv

theorem leaves (h : settings.Fills trials plant plant') :
    plant'.metrics.leaves = plant.metrics.leaves + trials.countP Trial.placed := by
  rw [h.accounts.leaves, Trial.accepted, List.length_map, List.countP_eq_length_filter]

theorem rejectedLeaves (h : settings.Fills trials plant plant') :
    plant'.metrics.rejectedLeaves =
      plant.metrics.rejectedLeaves + trials.countP fun t => !t.placed := by
  have hleaves := h.leaves
  have htried := h.accounts.tried
  have hcount : trials.length = trials.countP Trial.placed + trials.countP fun t => !t.placed := by
    rw [List.length_eq_countP_add_countP Trial.placed]
    simp only [Bool.not_eq_true, Bool.decide_eq_false]
  omega

end Fills

theorem run_tryLeaves_fills (settings : Settings α) (calls : List (LeafShells α × Option Nat))
    (site : Site α) :
    settings.Fills ((settings.tryLeaves calls).run site).1 site.plant
        ((settings.tryLeaves calls).run site).2.plant ∧
      ((settings.tryLeaves calls).run site).1.map Trial.shells = calls.map Prod.fst := by
  induction calls generalizing site with
  | nil => exact ⟨.nil site.plant, rfl⟩
  | cons c calls ih =>
      obtain ⟨hfills, hshells⟩ := ih ((settings.tryPlaceLeaf c.1 c.2).run site).2
      rw [run_tryLeaves_cons]
      exact ⟨.cons hfills, congrArg (c.1 :: ·) hshells⟩

theorem Tries.fills {leaf : LeafPattern α} {cs : List (Candidate α)} {site site' : Site α}
    {trials : List (Trial α)} (h : settings.Tries leaf cs site trials site') :
    settings.Fills trials site.plant site'.plant := by
  induction h with
  | nil site => exact .nil site.plant
  | cons c cs site shells trials site' h rest ih => exact .cons ih

variable {tree : Plant TreeSpecies α} {leaf : Plant LeafSpecies α} {plant : Structure α}

theorem Places.extends {grown : Interpretation α} {iterations : Int64} {ids : List TurtleId}
    {s s' : Scaffold α} (h : settings.Places grown iterations ids s s') :
    s.plant.Extends s'.plant := by
  induction h with
  | nil s => exact .refl s.plant
  | gone id ids s s' h rest ih => exact ih
  | branch id ids t s below s' h down rest ihdown ihrest =>
      have hbranch : s.plant.Extends (settings.withBranch grown t s.plant) := ⟨rfl, rfl⟩
      exact (hbranch.trans ihdown).trans ihrest

theorem world_plot_name (settings : Settings α) (box : Box α) :
    (settings.plot box).world.name = "World" := by
  unfold plot
  dsimp only
  split
  · rfl
  · rfl

theorem children_of_mem_plot {box : Box α} {v : Volume α} (h : v ∈ (settings.plot box).daughters) :
    v.children = [] := by
  unfold plot at h
  dsimp only at h
  split at h
  · rcases List.mem_cons.mp h with rfl | h
    · rfl
    · cases List.mem_singleton.mp h
      rfl
  · cases h

theorem Raises.not_hollow {grown : Interpretation α} {pattern : LeafPattern α} {iterations : Int64}
    {plot : Structure α} {scaffold : Scaffold α}
    (h : settings.Raises tree leaf grown pattern iterations plot scaffold) {v w : Volume α}
    (hw : w ∈ scaffold.plant.daughters) (hmem : v ∈ w.walk) : ¬ v.IsHollow := by
  obtain ⟨visits, queue, -, hcovers⟩ := h.covers
  obtain ⟨box, -, rfl⟩ := h.clears
  rw [hcovers.daughters] at hw
  have hplain : w.children = [] ∧ w.name ∈ ["Floor", "FloorTop", "Trunk"] := by
    rcases List.mem_append.mp hw with hground | htrunk
    · refine ⟨children_of_mem_plot hground, ?_⟩
      have hname := List.mem_map_of_mem (f := Volume.name) hground
      rw [daughters_plot_names] at hname
      split at hname
      · exact List.mem_append_left ["Trunk"] hname
      · cases hname
    · obtain ⟨visit, -, rfl⟩ := List.mem_map.mp htrunk
      exact ⟨rfl, List.mem_append_right ["Floor", "FloorTop"] (List.mem_singleton.mpr rfl)⟩
  rw [Volume.mem_walk_of_children hplain.1] at hmem
  cases hmem
  rintro ⟨hname, -⟩
  rw [hname] at hplain
  exact absurd hplain.2 (by decide)

theorem Raises.world_name {grown : Interpretation α} {pattern : LeafPattern α} {iterations : Int64}
    {plot : Structure α} {scaffold : Scaffold α}
    (h : settings.Raises tree leaf grown pattern iterations plot scaffold) :
    scaffold.plant.world.name = "World" := by
  rw [h.places, (settings.placeBranches_places h.grown_tree iterations plot).extends.name]
  obtain ⟨box, -, rfl⟩ := h.clears
  exact settings.world_plot_name box

theorem leafVolume_mem_walk (settings : Settings α) (shells : LeafShells α)
    (plant : Structure α) :
    settings.leafVolume shells ∈ (settings.accept shells plant).world.walk := by
  refine Volume.mem_walk.mpr (.inr ⟨_, ?_, Volume.mem_walk.mpr (.inl rfl)⟩)
  exact List.mem_append_right _ (List.mem_singleton.mpr rfl)

theorem accept_of_buildLeaf (h : settings.buildLeaf leaf = .ok plant) :
    ∃ pattern shells reach radius, LeafPattern.ofPlant leaf = .ok pattern ∧
      pattern.shells Pose.start = .ok shells ∧
      plant = settings.accept shells (settings.emptyWorld reach radius) := by
  obtain ⟨pattern, hpattern, h⟩ := bind_eq_ok.mp h
  obtain ⟨shells, hshells, h⟩ := bind_eq_ok.mp h
  cases h
  exact ⟨pattern, shells, _, _, hpattern, hshells, rfl⟩

/-- A hollow leaf is rejected whenever it is tried, so no assembled plant has one. A single leaf is
placed and counted even if it is hollow. -/
theorem hollow_leaves_rejected (settings : Settings α) :
    (∀ calls site,
      let trials := ((settings.tryLeaves calls).run site).1
      let plant := ((settings.tryLeaves calls).run site).2.plant
      trials.map Trial.shells = calls.map Prod.fst ∧
      (∀ t ∈ trials, t.shells.envelope.isEmpty = true → t.placed = false) ∧
      plant.metrics.leaves = site.plant.metrics.leaves + trials.countP Trial.placed ∧
      plant.metrics.rejectedLeaves =
        site.plant.metrics.rejectedLeaves + (trials.countP fun t => !t.placed) ∧
      ∀ w ∈ plant.daughters, ∀ v ∈ w.walk, v.IsHollow → w ∈ site.plant.daughters) ∧
    (∀ (tree : Plant TreeSpecies α) (leaf : Plant LeafSpecies α) (chance : Generator)
      (plant : Structure α), settings.build tree leaf chance = .ok plant →
        (∀ v ∈ plant.world.walk, ¬ v.IsHollow) ∧
        ∃ grown pattern iterations plot scaffold trials checker,
          settings.Raises tree leaf grown pattern iterations plot scaffold ∧
          settings.Tries pattern scaffold.candidates
            ⟨scaffold.plant, OverlapChecker.ofSettings settings chance⟩ trials ⟨plant, checker⟩ ∧
          (∀ t ∈ trials, t.shells.envelope.isEmpty = true → t.placed = false) ∧
          plant.metrics.leaves = trials.countP Trial.placed ∧
          plant.metrics.rejectedLeaves = trials.countP fun t => !t.placed) ∧
    ∀ (leaf : Plant LeafSpecies α) (plant : Structure α), settings.buildLeaf leaf = .ok plant →
      ∃ pattern shells, LeafPattern.ofPlant leaf = .ok pattern ∧
        pattern.shells Pose.start = .ok shells ∧
        plant.metrics.leaves = 1 ∧ plant.metrics.rejectedLeaves = 0 ∧
        ((∀ v ∈ plant.world.walk, ¬ v.IsHollow) ↔ shells.envelope.isEmpty = false) := by
  refine ⟨?_, ?_, ?_⟩
  · intro calls site trials plant
    obtain ⟨hfills, hshells⟩ := settings.run_tryLeaves_fills calls site
    exact ⟨hshells, hfills.filled, hfills.leaves, hfills.rejectedLeaves,
      fun w hw v hmem hv => hfills.hollow hw hmem hv⟩
  · intro tree leaf chance plant h
    obtain ⟨grown, pattern, iterations, plot, scaffold, checker, hraises, hleaves⟩ :=
      build_eq_ok.mp h
    obtain ⟨trials, htries⟩ := placeLeaves_eq_ok.mp hleaves
    have hfills := htries.fills
    obtain ⟨visits, queue, -, hcovers⟩ := hraises.covers
    obtain ⟨reach, radius, hmetrics⟩ := hraises.metrics hcovers
    refine ⟨fun v hmem hv => ?_, grown, pattern, iterations, plot, scaffold, trials, checker,
      hraises, htries, hfills.filled, ?_, ?_⟩
    · obtain ⟨w, hw, hbelow⟩ := plant.mem_walk_of_hollow
        (hfills.world.name.trans hraises.world_name) hmem hv
      exact hraises.not_hollow (hfills.hollow hw hbelow hv) hbelow hv
    · rw [hfills.leaves, hmetrics]
      exact Nat.zero_add _
    · rw [hfills.rejectedLeaves, hmetrics]
      exact Nat.zero_add _
  · intro leaf plant h
    obtain ⟨pattern, shells, reach, radius, hpattern, hshells, rfl⟩ := accept_of_buildLeaf h
    refine ⟨pattern, shells, hpattern, hshells, rfl, rfl, ?_⟩
    constructor
    · intro hnone
      by_contra hempty
      have hhollow := (settings.leafVolume_hollow_iff shells).mpr
        (Bool.eq_true_of_not_eq_false hempty)
      exact hnone _ (settings.leafVolume_mem_walk shells _) hhollow
    · intro hfilled v hmem hv
      obtain ⟨w, hw, hbelow⟩ := Structure.mem_walk_of_hollow _ rfl hmem hv
      cases List.mem_singleton.mp hw
      rw [hollow_of_mem_leafVolume hbelow hv, leafVolume_hollow_iff, hfilled] at hv
      cases hv

/-- A leaf that has not grown for any generation. -/
theorem hollow_leaf_of_buildLeaf :
    let leaf : Plant LeafSpecies Float :=
      ⟨.cordate, (Species.defaults LeafSpecies.cordate).setInteger "iterationNumber" 0⟩
    ∃ plant, standard.buildLeaf leaf = .ok plant ∧ plant.metrics.leaves = 1 ∧
      plant.metrics.rejectedLeaves = 0 ∧ ∃ v ∈ plant.world.walk, v.IsHollow := by
  intro leaf
  obtain ⟨plant, hplant⟩ : ∃ plant, standard.buildLeaf leaf = .ok plant := ⟨_, rfl⟩
  obtain ⟨pattern, shells, reach, radius, hpattern, hshells, rfl⟩ := accept_of_buildLeaf hplant
  have hempty : (LeafPattern.ofPlant leaf >>= fun pattern => pattern.shells Pose.start).map
      (fun shells => shells.envelope.isEmpty) = .ok true := rfl
  rw [bind_eq_ok.mpr ⟨pattern, hpattern, hshells⟩] at hempty
  refine ⟨_, hplant, rfl, rfl, _, standard.leafVolume_mem_walk shells _, ?_⟩
  exact (standard.leafVolume_hollow_iff shells).mpr (Except.ok.inj hempty)

end Settings

end Arbor
