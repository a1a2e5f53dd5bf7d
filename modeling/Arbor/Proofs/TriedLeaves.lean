import Arbor.Assembly.Build
import Arbor.Proofs.Outcomes

namespace Arbor

variable {α : Type} [Scalar α]

/-- A leaf that was tried, and whether it was placed. -/
structure Trial (α : Type) where
  shells : LeafShells α
  placed : Bool

def Trial.accepted {α : Type} (trials : List (Trial α)) : List (LeafShells α) :=
  (trials.filter Trial.placed).map Trial.shells

namespace Settings

variable {settings : Settings α} {leaf : LeafPattern α}

theorem run_tryPlaceLeaf (settings : Settings α) (shells : LeafShells α) (branch : Option Nat)
    (site : Site α) :
    (settings.tryPlaceLeaf shells branch).run site =
      if shells.envelope.isEmpty then (false, { site with plant := reject site.plant })
      else match site.checker.overlaps shells.envelope site.plant.world branch with
        | (true, checker) => (false, ⟨reject site.plant, checker⟩)
        | (false, checker) => (true, ⟨settings.accept shells site.plant, checker⟩) := by
  rw [tryPlaceLeaf, StateT.run_bind, StateT.run_get, pure_bind]
  cases hempty : shells.envelope.isEmpty with
  | true => rfl
  | false =>
      rw [if_neg nofun, if_neg nofun]
      rcases site.checker.overlaps shells.envelope site.plant.world branch with ⟨_ | _, checker⟩
      · rfl
      · rfl

theorem tryPlaceLeaf_cases (settings : Settings α) (shells : LeafShells α) (branch : Option Nat)
    (site : Site α) :
    (∃ checker, (settings.tryPlaceLeaf shells branch).run site =
      (true, ⟨settings.accept shells site.plant, checker⟩)) ∨
    ∃ checker, (settings.tryPlaceLeaf shells branch).run site =
      (false, ⟨reject site.plant, checker⟩) := by
  rw [run_tryPlaceLeaf]
  split
  · exact .inr ⟨site.checker, rfl⟩
  · split
    · exact .inr ⟨_, rfl⟩
    · exact .inl ⟨_, rfl⟩

/-- Candidates tried in order, each at the site that the ones before it have left. -/
inductive Tries (settings : Settings α) (leaf : LeafPattern α) :
    List (Candidate α) → Site α → List (Trial α) → Site α → Prop
  | nil (site : Site α) : Tries settings leaf [] site [] site
  | cons (c : Candidate α) (cs : List (Candidate α)) (site : Site α) (shells : LeafShells α)
      (trials : List (Trial α)) (site' : Site α) (h : leaf.shells c.pose = .ok shells)
      (rest : Tries settings leaf cs
        ((settings.tryPlaceLeaf shells (some c.branch)).run site).2 trials site') :
      Tries settings leaf (c :: cs) site
        (⟨shells, ((settings.tryPlaceLeaf shells (some c.branch)).run site).1⟩ :: trials) site'

theorem placeLeaves_eq_ok {cs : List (Candidate α)} {site site' : Site α} :
    settings.placeLeaves leaf cs site = .ok site' ↔
      ∃ trials, settings.Tries leaf cs site trials site' := by
  induction cs generalizing site with
  | nil =>
      constructor
      · rintro ⟨⟩
        exact ⟨[], .nil _⟩
      · rintro ⟨-, ⟨⟩⟩
        rfl
  | cons c cs ih =>
      rw [placeLeaves, bind_eq_ok]
      constructor
      · rintro ⟨shells, hshells, hrest⟩
        obtain ⟨trials, htries⟩ := ih.mp hrest
        exact ⟨_, .cons c cs site shells trials site' hshells htries⟩
      · rintro ⟨-, _ | ⟨_, _, _, shells, trials, _, hshells, htries⟩⟩
        exact ⟨shells, hshells, ih.mpr ⟨trials, htries⟩⟩

theorem placeLeaves_append {before after : List (Candidate α)} {site site' : Site α}
    (h : settings.placeLeaves leaf (before ++ after) site = .ok site') :
    ∃ between, settings.placeLeaves leaf before site = .ok between ∧
      settings.placeLeaves leaf after between = .ok site' := by
  induction before generalizing site with
  | nil => exact ⟨site, rfl, h⟩
  | cons c cs ih =>
      rw [List.cons_append, placeLeaves, bind_eq_ok] at h
      obtain ⟨shells, hshells, hrest⟩ := h
      obtain ⟨between, hbetween, hafter⟩ := ih hrest
      exact ⟨between, by rw [placeLeaves, hshells]; exact hbetween, hafter⟩

structure Accounts (settings : Settings α) (trials : List (Trial α)) (plant plant' : Structure α) :
    Prop where
  daughters : plant'.daughters =
    plant.daughters ++ (Trial.accepted trials).map settings.leafVolume
  leaves : plant'.metrics.leaves = plant.metrics.leaves + (Trial.accepted trials).length
  tried : plant'.metrics.leaves + plant'.metrics.rejectedLeaves =
    plant.metrics.leaves + plant.metrics.rejectedLeaves + trials.length
  area : plant'.metrics.sensitiveArea = (Trial.accepted trials).foldl
    (fun total shells => total + shells.sensitiveArea) plant.metrics.sensitiveArea
  branches : plant'.metrics.branches = plant.metrics.branches

namespace Accounts

variable {plant plant' : Structure α} {trials : List (Trial α)}

theorem nil (plant : Structure α) : settings.Accounts [] plant plant where
  daughters := (List.append_nil _).symm
  leaves := rfl
  tried := rfl
  area := rfl
  branches := rfl

theorem placed {shells : LeafShells α}
    (h : settings.Accounts trials (settings.accept shells plant) plant') :
    settings.Accounts (⟨shells, true⟩ :: trials) plant plant' := by
  have haccepted : Trial.accepted (⟨shells, true⟩ :: trials) = shells :: Trial.accepted trials :=
    rfl
  constructor
  · rw [h.daughters, haccepted, List.map_cons, ← List.singleton_append, ← List.append_assoc]
    rfl
  · rw [h.leaves, haccepted, List.length_cons]
    simp only [accept, Structure.modifyMetrics, Structure.add]
    omega
  · rw [h.tried, List.length_cons]
    simp only [accept, Structure.modifyMetrics, Structure.add]
    omega
  · rw [h.area, haccepted, List.foldl_cons]
    rfl
  · exact h.branches

theorem rejected {shells : LeafShells α} (h : settings.Accounts trials (reject plant) plant') :
    settings.Accounts (⟨shells, false⟩ :: trials) plant plant' := by
  have haccepted : Trial.accepted (⟨shells, false⟩ :: trials) = Trial.accepted trials := rfl
  constructor
  · rw [h.daughters, haccepted]
    rfl
  · rw [h.leaves, haccepted]
    rfl
  · rw [h.tried, List.length_cons]
    simp only [reject, Structure.modifyMetrics]
    omega
  · rw [h.area, haccepted]
    rfl
  · exact h.branches

end Accounts

theorem Tries.accounts {cs : List (Candidate α)} {site site' : Site α} {trials : List (Trial α)}
    (h : settings.Tries leaf cs site trials site') :
    settings.Accounts trials site.plant site'.plant ∧ trials.length = cs.length := by
  induction h with
  | nil site => exact ⟨.nil site.plant, rfl⟩
  | cons c cs site shells trials site' h rest ih =>
      obtain ⟨haccounts, hlength⟩ := ih
      refine ⟨?_, congrArg (· + 1) hlength⟩
      rcases settings.tryPlaceLeaf_cases shells (some c.branch) site with
        ⟨checker, hrun⟩ | ⟨checker, hrun⟩
      · rw [hrun] at haccounts ⊢
        exact .placed haccounts
      · rw [hrun] at haccounts ⊢
        exact .rejected haccounts

/-- Leaves come behind what is there, which stays where it is. -/
theorem getElem?_of_placeLeaves {cs : List (Candidate α)} {site site' : Site α}
    (h : settings.placeLeaves leaf cs site = .ok site') {i : Nat} {v : Volume α}
    (hv : site.plant.daughters[i]? = some v) : site'.plant.daughters[i]? = some v := by
  obtain ⟨trials, htries⟩ := placeLeaves_eq_ok.mp h
  rw [htries.accounts.1.daughters,
    List.getElem?_append_left (List.getElem?_eq_some_iff.mp hv).1, hv]

end Settings

end Arbor
