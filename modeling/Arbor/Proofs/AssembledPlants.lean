import Arbor.Proofs.LeafLayers
import Arbor.Proofs.PlacedBranches
import Arbor.Proofs.TriedLeaves

namespace Arbor

variable {α : Type} [Scalar α]

theorem Interpretation.extendOver_yields {leaf : Plant LeafSpecies α} {pattern : LeafPattern α}
    (h : LeafPattern.ofPlant leaf = .ok pattern) (grown : Interpretation α) (fuel : Nat)
    (pending : List TurtleId) (box : Box α) :
    Yields (fun _ => True) (grown.extendOver pattern fuel pending box) := by
  induction fuel generalizing pending box with
  | zero => trivial
  | succ fuel ih =>
      cases pending with
      | nil => trivial
      | cons id pending =>
          rw [extendOver]
          cases grown.forest.get? id with
          | none => exact ih _ _
          | some t =>
              dsimp only
              split
              · exact ((LeafPattern.extents?_yields h _).map fun _ _ => trivial).bind
                  fun box (_ : True) => ih _ box
              · exact ih _ _

namespace Settings

variable {settings : Settings α} {tree : Plant TreeSpecies α} {leaf : Plant LeafSpecies α}
  {chance : Generator} {plant : Structure α}

/-- The world of a tree that reaches as far as a box, with its ground. -/
def plot (settings : Settings α) (box : Box α) : Structure α :=
  let radius := (box.maxAbs * (worldScale : α)).length
  let world := settings.emptyWorld box.maxAbs radius
  if settings.includeGround then settings.placeGround radius world else world

/-- A tree has been grown and its branches stand on the plot; `scaffold` notes the candidates. -/
structure Raises (settings : Settings α) (tree : Plant TreeSpecies α) (leaf : Plant LeafSpecies α)
    (grown : Interpretation α) (pattern : LeafPattern α) (iterations : Int64) (plot : Structure α)
    (scaffold : Scaffold α) : Prop where
  grows : tree.grow = .ok grown
  traces : LeafPattern.ofPlant leaf = .ok pattern
  iterates : tree.parameters.integer "iterationNumber" = .ok iterations
  clears : ∃ box, grown.extents pattern = .ok box ∧ plot = settings.plot box
  places : scaffold = settings.placeBranches grown iterations plot

theorem build_eq_ok : settings.build tree leaf chance = .ok plant ↔
    ∃ grown pattern iterations plot scaffold checker,
      settings.Raises tree leaf grown pattern iterations plot scaffold ∧
      settings.placeLeaves pattern scaffold.candidates
        ⟨scaffold.plant, OverlapChecker.ofSettings settings chance⟩ = .ok ⟨plant, checker⟩ := by
  unfold build
  simp only [bind_eq_ok]
  constructor
  · rintro ⟨grown, hgrown, pattern, hpattern, iterations, hiterations, box, hbox, site, hsite, h⟩
    cases h
    exact ⟨grown, pattern, iterations, _, _, site.checker,
      ⟨hgrown, hpattern, hiterations, ⟨box, hbox, rfl⟩, rfl⟩, hsite⟩
  · rintro ⟨grown, pattern, iterations, plot, scaffold, checker,
      ⟨hgrown, hpattern, hiterations, ⟨box, hbox, rfl⟩, rfl⟩, hsite⟩
    exact ⟨grown, hgrown, pattern, hpattern, iterations, hiterations, box, hbox, _, hsite, rfl⟩

theorem placeLeaves_yields (settings : Settings α) {pattern : LeafPattern α}
    (h : LeafPattern.ofPlant leaf = .ok pattern) (cs : List (Candidate α))
    (site : Site α) : Yields (fun _ => True) (settings.placeLeaves pattern cs site) := by
  induction cs generalizing site with
  | nil => trivial
  | cons c cs ih => exact (LeafPattern.shells_yields h c.pose).bind fun _ _ => ih _

theorem iterationNumber_of_grow {grown : Interpretation α} (h : tree.grow = .ok grown) :
    ∃ iterations, tree.parameters.integer "iterationNumber" = .ok iterations := by
  obtain ⟨program, hprogram, -⟩ := bind_eq_ok.mp h
  obtain ⟨word, hword, -⟩ := map_eq_ok.mp hprogram
  obtain ⟨start, -, hderive⟩ := bind_eq_ok.mp hword
  obtain ⟨iterations, hiterations, -⟩ := bind_eq_ok.mp hderive
  exact ⟨iterations, hiterations⟩

theorem exists_build_iff : (∃ plant, settings.build tree leaf chance = .ok plant) ↔
    (∃ grown, tree.grow = .ok grown) ∧ ∃ pattern, LeafPattern.ofPlant leaf = .ok pattern := by
  constructor
  · rintro ⟨plant, h⟩
    obtain ⟨grown, pattern, _, _, _, _, hraises, -⟩ := build_eq_ok.mp h
    exact ⟨⟨grown, hraises.grows⟩, ⟨pattern, hraises.traces⟩⟩
  · rintro ⟨⟨grown, hgrown⟩, ⟨pattern, hpattern⟩⟩
    obtain ⟨iterations, hiterations⟩ := iterationNumber_of_grow hgrown
    obtain ⟨box, hbox, -⟩ := yields_iff.mp
      (Interpretation.extendOver_yields hpattern grown _ grown.roots.reverse _)
    obtain ⟨site, hsite, -⟩ := yields_iff.mp (settings.placeLeaves_yields hpattern
      (settings.placeBranches grown iterations (settings.plot box)).candidates
      ⟨(settings.placeBranches grown iterations (settings.plot box)).plant,
        OverlapChecker.ofSettings settings chance⟩)
    exact ⟨site.plant, build_eq_ok.mpr ⟨grown, pattern, iterations, _, _, site.checker,
      ⟨hgrown, hpattern, hiterations, ⟨box, hbox, rfl⟩, rfl⟩, hsite⟩⟩

theorem daughters_plot_names (settings : Settings α) (box : Box α) :
    (settings.plot box).daughters.map Volume.name =
      if settings.includeGround then ["Floor", "FloorTop"] else [] := by
  unfold plot
  dsimp only
  split
  · rfl
  · rfl

theorem metrics_plot (settings : Settings α) (box : Box α) :
    ∃ reach radius, (settings.plot box).metrics = { Metrics.ofRadius radius with reach } := by
  unfold plot
  dsimp only
  split
  · exact ⟨_, _, rfl⟩
  · exact ⟨_, _, rfl⟩

omit [Scalar α] in
theorem filter_name {vs : List (Volume α)} {own : String} (h : ∀ v ∈ vs, v.name = own)
    (name : String) : vs.filter (fun v => v.name == name) = if own = name then vs else [] := by
  split
  next heq =>
    refine List.filter_eq_self.mpr fun v hv => ?_
    rw [h v hv, heq, beq_self_eq_true]
  next hne =>
    refine List.filter_eq_nil_iff.mpr fun v hv => ?_
    rw [h v hv, beq_iff_eq]
    exact hne

theorem named_of_daughters {box : Box α} {trunks leaves : List (Volume α)}
    (h : plant.daughters = (settings.plot box).daughters ++ trunks ++ leaves)
    (htrunks : ∀ v ∈ trunks, v.name = "Trunk") (hleaves : ∀ v ∈ leaves, v.name = "LeafEnvelope") :
    plant.named "Trunk" = trunks ∧ plant.named "LeafEnvelope" = leaves := by
  have hground (name : String) (hname : name ∉ ["Floor", "FloorTop"]) :
      (settings.plot box).daughters.filter (fun v => v.name == name) = [] := by
    refine List.filter_eq_nil_iff.mpr fun v hv hv' => hname ?_
    have hmem : v.name ∈ (settings.plot box).daughters.map Volume.name := List.mem_map_of_mem hv
    rw [daughters_plot_names, eq_of_beq hv'] at hmem
    split at hmem
    · exact hmem
    · cases hmem
  have hnamed (name : String) (hname : name ∉ ["Floor", "FloorTop"]) : plant.named name =
      (if "Trunk" = name then trunks else []) ++ if "LeafEnvelope" = name then leaves else [] := by
    rw [Structure.named, h, List.filter_append, List.filter_append, hground name hname,
      filter_name htrunks, filter_name hleaves, List.nil_append]
  constructor
  · rw [hnamed _ (by decide), if_pos rfl, if_neg (by decide), List.append_nil]
  · rw [hnamed _ (by decide), if_neg (by decide), if_pos rfl, List.nil_append]

theorem length_leafPoses (settings : Settings α) (iterations : Int64) (t : Turtle α)
    (branch : Frustum α) :
    (settings.leafPoses iterations t branch).length =
      if t.children = [] then 1 + if iterations = 0 then 0 else 2
      else if branch.startRadius < settings.thinBranchHalfWidth then 2 else 0 := by
  unfold leafPoses
  simp only [List.isEmpty_iff]
  split
  · split
    · rfl
    · rfl
  · split
    · rfl
    · rfl

/-- The frustum of a turtle: it begins where the turtle stands, follows the heading for the length
of the segment, and narrows to the width of the first child. -/
structure Spans (settings : Settings α) (grown : Interpretation α) (t : Turtle α) (s : Frustum α) :
    Prop where
  axis : s.axis = t.pose.orientation.normalizeOrZero
  center : s.center = t.pose.position +
    t.pose.orientation.normalizeOrZero * (t.pose.length / Scalar.ofNat 2)
  halfLength : s.halfLength = t.pose.length / Scalar.ofNat 2
  startRadius : s.startRadius = t.pose.width / Scalar.ofNat 2
  joined : ∀ c cs, t.children = c :: cs → ∃ child, grown.forest.get? c = some child ∧
    s.endRadius = child.pose.width / Scalar.ofNat 2
  ended : t.children = [] → s.endRadius =
    if settings.taperTerminalBranches then 0 else t.pose.width / Scalar.ofNat 2

def IsTrunk (settings : Settings α) (grown : Interpretation α) (t : Turtle α) (v : Volume α) :
    Prop :=
  ∃ s, v = { name := "Trunk", material := settings.materials.trunk, shape := .frustum s } ∧
    settings.Spans grown t s

namespace Raises

variable {grown : Interpretation α} {pattern : LeafPattern α} {iterations : Int64}
  {plot : Structure α} {scaffold : Scaffold α}

theorem grown_tree (h : settings.Raises tree leaf grown pattern iterations plot scaffold) :
    grown.Grown := by
  obtain ⟨program, -, hinterpret⟩ := bind_eq_ok.mp h.grows
  exact grown_of_interpret hinterpret

theorem covers (h : settings.Raises tree leaf grown pattern iterations plot scaffold) :
    ∃ visits queue, (visits.map Prod.fst).Perm grown.retired ∧
      settings.Covers grown iterations visits queue { plant := plot } scaffold := by
  rw [h.places]
  exact settings.placeBranches_covers h.grown_tree iterations plot

variable {visits : List (TurtleId × Turtle α)} {queue : List ((TurtleId × Turtle α) × Nat)}

theorem metrics (h : settings.Raises tree leaf grown pattern iterations plot scaffold)
    (hcovers : settings.Covers grown iterations visits queue { plant := plot } scaffold) :
    ∃ reach radius, scaffold.plant.metrics =
      { Metrics.ofRadius radius with reach, branches := visits.length } := by
  obtain ⟨box, -, rfl⟩ := h.clears
  obtain ⟨reach, radius, hplot⟩ := metrics_plot settings box
  have hscaffold := hcovers.metrics
  rw [hplot] at hscaffold
  refine ⟨reach, radius, hscaffold.trans ?_⟩
  simp only [Metrics.ofRadius, Nat.zero_add]

theorem isTrunk_trunk (h : settings.Raises tree leaf grown pattern iterations plot scaffold)
    {id : TurtleId} {t : Turtle α} (ht : grown.forest.get? id = some t) :
    settings.IsTrunk grown t (settings.trunk (settings.branchOf grown t)) := by
  refine ⟨_, rfl, rfl, rfl, rfl, rfl, fun c cs hchildren => ?_, fun hchildren => ?_⟩
  · have hparent := (h.grown_tree.genealogy.listed id t c ht).mp (hchildren ▸ List.mem_cons_self)
    obtain ⟨child, hchild⟩ := Forest.lives_of_parent hparent
    refine ⟨child, hchild, ?_⟩
    simp [branchOf, Frustum.along, endRadius, hchildren, Interpretation.pose?, hchild]
  · simp [branchOf, Frustum.along, endRadius, hchildren]

theorem stands (h : settings.Raises tree leaf grown pattern iterations plot scaffold)
    (hcovers : settings.Covers grown iterations visits queue { plant := plot } scaffold)
    {trials : List (Trial α)} (haccounts : settings.Accounts trials scaffold.plant plant) :
    let trunks := visits.map fun v => settings.trunk (settings.branchOf grown v.2)
    let leaves := (Trial.accepted trials).map settings.leafVolume
    plant.daughters = plot.daughters ++ trunks ++ leaves ∧
      plant.named "Trunk" = trunks ∧ plant.named "LeafEnvelope" = leaves := by
  intro trunks leaves
  have hdaughters : plant.daughters = plot.daughters ++ trunks ++ leaves := by
    rw [haccounts.daughters, hcovers.daughters]
  refine ⟨hdaughters, ?_⟩
  obtain ⟨box, -, rfl⟩ := h.clears
  apply named_of_daughters hdaughters
  · exact List.forall_mem_map.mpr fun _ _ => rfl
  · exact List.forall_mem_map.mpr fun _ _ => rfl

end Raises

/-- The branches of an assembled plant are those of the retired turtles, each where its turtle
stands. A turtle bears leaves if nothing grows from it or if its branch is thin. Whenever a leaf is
tried, the branches still are where they were when the leaves were noted, whatever the draws start
from. -/
theorem branches_of_build (h : settings.build tree leaf chance = .ok plant) :
    ∃ grown pattern iterations plot scaffold visits queue,
      settings.Raises tree leaf grown pattern iterations plot scaffold ∧
      settings.Places grown iterations grown.roots { plant := plot } scaffold ∧
      settings.Covers grown iterations visits queue { plant := plot } scaffold ∧
      (visits.map Prod.fst).Perm grown.retired ∧
      List.Forall₂ (fun visit v => grown.forest.get? visit.1 = some visit.2 ∧
        settings.IsTrunk grown visit.2 v) visits (plant.named "Trunk") ∧
      plant.metrics.branches = grown.retired.length ∧
      (∀ b ∈ queue, (settings.borneAt grown iterations b.1.2 b.2).length =
        if b.1.2.children = [] then 1 + if iterations = 0 then 0 else 2
        else if b.1.2.pose.width / Scalar.ofNat 2 < settings.thinBranchHalfWidth then 2 else 0) ∧
      (∀ b ∈ queue, ∀ c ∈ settings.borneAt grown iterations b.1.2 b.2, c.branch = b.2) ∧
      ∀ before after, scaffold.candidates = before ++ after →
        ∃ site, settings.placeLeaves pattern before
            ⟨scaffold.plant, OverlapChecker.ofSettings settings chance⟩ = .ok site ∧
          ∀ b ∈ queue, ∃ v, site.plant.daughters[b.2]? = some v ∧
            settings.IsTrunk grown b.1.2 v := by
  obtain ⟨grown, pattern, iterations, plot, scaffold, checker, hraises, hleaves⟩ := build_eq_ok.mp h
  obtain ⟨visits, queue, hperm, hcovers⟩ := hraises.covers
  obtain ⟨trials, htries⟩ := placeLeaves_eq_ok.mp hleaves
  obtain ⟨haccounts, -⟩ := htries.accounts
  refine ⟨grown, pattern, iterations, plot, scaffold, visits, queue, hraises, ?_, hcovers, hperm,
    ?_, ?_, ?_, ?_, ?_⟩
  · rw [hraises.places]
    exact settings.placeBranches_places hraises.grown_tree iterations plot
  · rw [(hraises.stands hcovers haccounts).2.1, List.forall₂_map_right_iff, List.forall₂_same]
    exact fun visit hvisit => ⟨hcovers.living visit hvisit,
      hraises.isTrunk_trunk (hcovers.living visit hvisit)⟩
  · obtain ⟨reach, radius, hmetrics⟩ := hraises.metrics hcovers
    rw [haccounts.branches, hmetrics, ← hperm.length_eq, List.length_map]
  · intro b _
    rw [borneAt, List.length_map, length_leafPoses]
    rfl
  · intro b _ c hc
    obtain ⟨pose, -, rfl⟩ := List.mem_map.mp hc
    rfl
  · intro before after hsplit
    rw [hsplit] at hleaves
    obtain ⟨site, hsite, -⟩ := placeLeaves_append hleaves
    refine ⟨site, hsite, fun b hb => ⟨_, getElem?_of_placeLeaves hsite (hcovers.getElem? hb), ?_⟩⟩
    exact hraises.isTrunk_trunk (hcovers.living _ (hcovers.mem_visits hb))

/-- Without a seed the draws may start from anything. -/
theorem branches_of_build_stump :
    let tree : Plant TreeSpecies Float := Plant.ofSpecies .stump
    let leaf : Plant LeafSpecies Float := Plant.ofSpecies .planar
    let chance : Generator := ⟨(Generator.ofSeed 11).key, 5⟩
    ∃ plant, standard.build tree leaf chance = .ok plant ∧ plant.metrics.branches = 2 ∧
      (plant.named "Trunk").length = 2 := by
  intro tree leaf chance
  obtain ⟨plant, hplant⟩ : ∃ plant, standard.build tree leaf chance = .ok plant :=
    exists_build_iff.mpr ⟨⟨_, rfl⟩, ⟨_, rfl⟩⟩
  obtain ⟨grown, pattern, iterations, plot, scaffold, visits, queue, hraises, -, -, hperm, htrunks,
    hbranches, -⟩ := branches_of_build hplant
  have hretired : tree.grow.map (fun out => out.retired.length) = .ok 2 := rfl
  rw [hraises.grows] at hretired
  replace hretired : grown.retired.length = 2 := Except.ok.inj hretired
  refine ⟨plant, hplant, hbranches.trans hretired, ?_⟩
  rw [← htrunks.length_eq, ← hretired, ← hperm.length_eq, List.length_map]

end Settings

end Arbor
