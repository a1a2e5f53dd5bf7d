import Arbor.Assembly.Branches
import Arbor.Proofs.Descents
import Arbor.Proofs.EnclosingBoxes
import Arbor.Proofs.LeafLayers
import Arbor.Proofs.SpreadTriangles
import Arbor.Proofs.TurtleFrames

namespace Arbor

open Relation

variable {α : Type} [Scalar α]

omit [Scalar α] in
theorem Tessellation.mem_corners {facets : List (Triangle α)} {p : Vec3 α} :
    p ∈ corners facets ↔ ∃ facet ∈ facets, p = facet.a ∨ p = facet.b ∨ p = facet.c := by
  simp [corners, Triangle.toList]

namespace Turtle

def measured? (t : Turtle α) (leaf : LeafPattern α) : Except (Fault α) (Option (Box α)) :=
  leaf.extents? (Pose.ofFrame t.pose.position t.pose.orientation t.pose.left)

/-- A box that is extended over the segment of a turtle and, at an end of the tree, its leaf. -/
def extend (t : Turtle α) (leaf : LeafPattern α) (box : Box α) : Except (Fault α) (Box α) :=
  let segment := (box.expand t.pose.position).expand t.pose.endPoint
  if t.children.isEmpty then
    (t.measured? leaf).map fun
      | some b => segment.merge b
      | none => segment
  else .ok segment

def boxes (t : Turtle α) (leaf : LeafPattern α) : List (Box α) :=
  let leafBox? := if t.children.isEmpty then (t.measured? leaf).toOption.join else none
  .ofPoint t.pose.position :: .ofPoint t.pose.endPoint :: leafBox?.toList

variable {t : Turtle α} {leaf : LeafPattern α} {box box' : Box α}

theorem extend_eq (h : t.extend leaf box = .ok box') :
    box' = (t.boxes leaf).foldl Box.merge box := by
  unfold extend at h
  dsimp only at h
  split at h
  next hend =>
    cases hb : t.measured? leaf with
    | error fault =>
        rw [hb] at h
        cases h
    | ok b? =>
        rw [hb] at h
        cases h
        simp only [boxes, hend, hb, if_true]
        cases b? <;> rfl
  next hinner =>
    cases h
    simp only [boxes, hinner]
    rfl

theorem extend_ok (h : t.children = [] → ∃ b?, t.measured? leaf = .ok b?) (box : Box α) :
    ∃ box', t.extend leaf box = .ok box' := by
  unfold extend
  dsimp only
  split
  next hend =>
    obtain ⟨b?, hb⟩ := h (List.isEmpty_iff.mp hend)
    rw [hb]
    exact ⟨_, rfl⟩
  next => exact ⟨_, rfl⟩

theorem mem_boxes {b : Box α} : b ∈ t.boxes leaf ↔ b = .ofPoint t.pose.position ∨
    b = .ofPoint t.pose.endPoint ∨ t.children = [] ∧ t.measured? leaf = .ok (some b) := by
  rw [boxes, List.mem_cons, List.mem_cons, Option.mem_toList]
  cases t.children with
  | nil =>
      cases t.measured? leaf with
      | error fault => simp [Except.toOption]
      | ok b? => simp [Except.toOption]
  | cons => simp

theorem measured?_eq_ok {b? : Option (Box α)} : t.measured? leaf = .ok b? ↔
    ∃ solid, leaf.envelope (Pose.ofFrame t.pose.position t.pose.orientation t.pose.left) =
      .ok solid ∧ solid.extents? = b? :=
  map_eq_ok

end Turtle

namespace Interpretation

/-- The points that the box around a tree is for: where the turtles stand, where their segments end,
and the corners of the leaves at the ends of the tree, which are traced at the base of the
segment. -/
inductive Marks (grown : Interpretation α) (leaf : LeafPattern α) : Vec3 α → Prop
  | position (id : TurtleId) (t : Turtle α) (hid : id ∈ grown.retired)
      (ht : grown.forest.get? id = some t) : Marks grown leaf t.pose.position
  | endPoint (id : TurtleId) (t : Turtle α) (hid : id ∈ grown.retired)
      (ht : grown.forest.get? id = some t) : Marks grown leaf t.pose.endPoint
  | corner (id : TurtleId) (t : Turtle α) (hid : id ∈ grown.retired)
      (ht : grown.forest.get? id = some t) (hend : t.children = []) (solid : Tessellation α)
      (hsolid : leaf.envelope (Pose.ofFrame t.pose.position t.pose.orientation t.pose.left) =
        .ok solid) (facet : Triangle α) (hfacet : facet ∈ solid.facets) (p : Vec3 α)
      (hp : p = facet.a ∨ p = facet.b ∨ p = facet.c) : Marks grown leaf p

structure Measurable (grown : Interpretation α) (leaf : LeafPattern α) : Prop where
  position : ∀ id ∈ grown.retired, ∀ t, grown.forest.get? id = some t →
    t.pose.position.Numeric ∧ t.pose.endPoint.Numeric
  envelope : ∀ id ∈ grown.retired, ∀ t, grown.forest.get? id = some t → t.children = [] →
    ∃ solid, leaf.envelope (Pose.ofFrame t.pose.position t.pose.orientation t.pose.left) =
      .ok solid ∧ ∀ facet ∈ solid.facets, facet.a.Numeric ∧ facet.b.Numeric ∧ facet.c.Numeric

structure Hull (grown : Interpretation α) (leaf : LeafPattern α) (box : Box α) : Prop where
  holds : ∀ p, grown.Marks leaf p → box.Holds p
  least : ∀ outer : Box α, (∀ p, grown.Marks leaf p → outer.Holds p) → outer.Covers box

def firstPosition (grown : Interpretation α) : Vec3 α :=
  match grown.retired.head?.bind grown.pose? with
  | some first => first.position
  | none => 0

variable {grown : Interpretation α} {leaf : LeafPattern α}

theorem exists_first (h : grown.Grown) (hne : grown.retired ≠ []) :
    ∃ id ∈ grown.retired, ∃ t, grown.forest.get? id = some t ∧
      grown.firstPosition = t.pose.position := by
  obtain ⟨id, ids, hcons⟩ := List.exists_cons_of_ne_nil hne
  have hid : id ∈ grown.retired := hcons ▸ List.mem_cons_self
  obtain ⟨t, ht⟩ := (h.living id).mpr hid
  refine ⟨id, hid, t, ht, ?_⟩
  rw [firstPosition, hcons, List.head?_cons, Option.bind_some, pose?, ht]
  rfl

namespace Measurable

theorem numeric_corners (hm : grown.Measurable leaf) {id : TurtleId} (hid : id ∈ grown.retired)
    {t : Turtle α} (ht : grown.forest.get? id = some t) (hend : t.children = [])
    {solid : Tessellation α}
    (hsolid : leaf.envelope (Pose.ofFrame t.pose.position t.pose.orientation t.pose.left) =
      .ok solid) : ∀ p ∈ Tessellation.corners solid.facets, p.Numeric := by
  obtain ⟨solid', hsolid', hnumeric⟩ := hm.envelope id hid t ht hend
  cases hsolid.symm.trans hsolid'
  intro p hp
  obtain ⟨facet, hfacet, hp⟩ := Tessellation.mem_corners.mp hp
  obtain ⟨ha, hb, hc⟩ := hnumeric facet hfacet
  rcases hp with rfl | rfl | rfl
  · exact ha
  · exact hb
  · exact hc

variable [ComparedScalar α]

theorem numeric (hm : grown.Measurable leaf) {id : TurtleId} (hid : id ∈ grown.retired)
    {t : Turtle α} (ht : grown.forest.get? id = some t) {b : Box α} (hb : b ∈ t.boxes leaf) :
    b.Numeric := by
  obtain ⟨hposition, hend⟩ := hm.position id hid t ht
  rcases Turtle.mem_boxes.mp hb with rfl | rfl | ⟨hchildren, hb⟩
  · exact ⟨hposition, hposition⟩
  · exact ⟨hend, hend⟩
  · obtain ⟨solid, hsolid, hbox⟩ := Turtle.measured?_eq_ok.mp hb
    exact Box.numeric_of_ofPoints? (hm.numeric_corners hid ht hchildren hsolid) hbox

theorem covers_iff (hm : grown.Measurable leaf) (outer : Box α) :
    (∀ id ∈ grown.retired, ∀ t, grown.forest.get? id = some t →
      ∀ b ∈ t.boxes leaf, outer.Covers b) ↔ ∀ p, grown.Marks leaf p → outer.Holds p := by
  constructor
  · intro h p hp
    cases hp with
    | position id t hid ht =>
        exact Box.covers_ofPoint.mp (h id hid t ht _ (Turtle.mem_boxes.mpr (.inl rfl)))
    | endPoint id t hid ht =>
        exact Box.covers_ofPoint.mp (h id hid t ht _ (Turtle.mem_boxes.mpr (.inr (.inl rfl))))
    | corner id t hid ht hend solid hsolid facet hfacet p hp =>
        have hcorner := Tessellation.mem_corners.mpr ⟨facet, hfacet, hp⟩
        obtain ⟨b, hb⟩ := Box.exists_ofPoints? hcorner
        have hcovers := h id hid t ht b (Turtle.mem_boxes.mpr (.inr (.inr
          ⟨hend, Turtle.measured?_eq_ok.mpr ⟨solid, hsolid, hb⟩⟩)))
        exact (Box.covers_ofPoints? (hm.numeric_corners hid ht hend hsolid) hb).mp hcovers p hcorner
  · intro h id hid t ht b hmem
    rcases Turtle.mem_boxes.mp hmem with rfl | rfl | ⟨hend, hb⟩
    · exact Box.covers_ofPoint.mpr (h _ (.position id t hid ht))
    · exact Box.covers_ofPoint.mpr (h _ (.endPoint id t hid ht))
    · obtain ⟨solid, hsolid, hb⟩ := Turtle.measured?_eq_ok.mp hb
      refine (Box.covers_ofPoints? (hm.numeric_corners hid ht hend hsolid) hb).mpr fun p hp => ?_
      obtain ⟨facet, hfacet, hp⟩ := Tessellation.mem_corners.mp hp
      exact h p (.corner id t hid ht hend solid hsolid facet hfacet p hp)

end Measurable

end Interpretation

structure Survey (α : Type) where
  visited : List TurtleId
  pending : List TurtleId
  box : Box α

namespace Survey

variable {grown : Interpretation α} {leaf : LeafPattern α} {s s' : Survey α}

def start (grown : Interpretation α) : Survey α where
  visited := []
  pending := grown.roots.reverse
  box := .ofPoint grown.firstPosition

/-- Any turtle that waits is visited next, and its children join the others at any place. -/
inductive Step (grown : Interpretation α) (leaf : LeafPattern α) : Survey α → Survey α → Prop
  | visit (s : Survey α) (id : TurtleId) (t : Turtle α) (others pending : List TurtleId)
      (box : Box α) (hid : s.pending.Perm (id :: others)) (ht : grown.forest.get? id = some t)
      (hpending : pending.Perm (t.children ++ others)) (hbox : t.extend leaf s.box = .ok box) :
      Step grown leaf s ⟨id :: s.visited, pending, box⟩

/-- Those that were visited and those to be passed from here are the retired turtles. -/
structure Sound (grown : Interpretation α) (leaf : LeafPattern α) (s : Survey α) : Prop where
  living : ∀ id ∈ s.pending, grown.forest.Lives id
  ahead : ∃ order, grown.forest.Descends s.pending order ∧
    (s.visited ++ order).Perm grown.retired
  box : ∃ boxes : List (Box α), s.box = boxes.foldl Box.merge (.ofPoint grown.firstPosition) ∧
    ∀ b, b ∈ boxes ↔ ∃ id ∈ s.visited, ∃ t, grown.forest.get? id = some t ∧ b ∈ t.boxes leaf

namespace Sound

theorem start (h : grown.Grown) (leaf : LeafPattern α) : (Survey.start grown).Sound grown leaf := by
  obtain ⟨order, horder⟩ := h.exists_descends _ grown.roots fun _ _ => Nat.le_add_left ..
  obtain ⟨order', horder', hperm⟩ := horder.perm (List.reverse_perm _).symm
  refine ⟨fun id hid => ?_, ⟨order', horder', hperm.symm.trans (h.perm_retired horder)⟩, [], rfl,
    fun b => ?_⟩
  · exact ((h.mem_roots id).mp (List.mem_reverse.mp hid)).1
  · simp [Survey.start]

theorem step (h : grown.Grown) (hs : s.Sound grown leaf) (hstep : Step grown leaf s s') :
    s'.Sound grown leaf := by
  cases hstep with
  | visit id t others pending box hid ht hpending hextend =>
      constructor
      · intro c hc
        rcases List.mem_append.mp (hpending.mem_iff.mp hc) with hc | hc
        · exact Forest.lives_of_parent ((h.genealogy.listed id t c ht).mp hc)
        · exact hs.living c (hid.mem_iff.mpr (List.mem_cons_of_mem id hc))
      · obtain ⟨order, horder, hretired⟩ := hs.ahead
        obtain ⟨order, horder', hperm⟩ := horder.perm hid
        cases horder' with
        | gone _ _ _ hgone => cases hgone.symm.trans ht
        | branch _ _ u below beside hu down rest =>
            cases ht.symm.trans hu
            obtain ⟨order', horder', hperm'⟩ := (down.append rest).perm hpending.symm
            refine ⟨order', horder', .trans ?_ hretired⟩
            have hahead := (hperm'.symm.cons id).trans hperm.symm
            exact List.perm_middle.symm.trans (hahead.append_left s.visited)
      · obtain ⟨boxes, hbox, hmem⟩ := hs.box
        refine ⟨boxes ++ t.boxes leaf, ?_, fun b => ?_⟩
        · rw [Turtle.extend_eq hextend, hbox, List.foldl_append]
        · rw [List.mem_append, hmem, List.exists_mem_cons_iff, or_comm]
          simp [ht]

theorem steps (h : grown.Grown) (hs : s.Sound grown leaf)
    (hsteps : ReflTransGen (Step grown leaf) s s') : s'.Sound grown leaf := by
  induction hsteps with
  | refl => exact hs
  | tail _ hstep ih => exact ih.step h hstep

theorem visited_once (h : grown.Grown) (hs : s.Sound grown leaf) :
    s.visited.Nodup ∧ s.visited ⊆ grown.retired := by
  obtain ⟨order, -, hperm⟩ := hs.ahead
  exact ⟨(hperm.nodup_iff.mpr h.distinct).of_append_left,
    fun id hid => hperm.mem_iff.mp (List.mem_append_left order hid)⟩

theorem finished (hs : s.Sound grown leaf) (hpending : s.pending = []) :
    s.visited.Perm grown.retired := by
  obtain ⟨order, horder, hperm⟩ := hs.ahead
  rw [hpending] at horder
  cases horder
  rwa [List.append_nil] at hperm

theorem length_visited (h : grown.Grown) (hs : s.Sound grown leaf) :
    s.visited.length ≤ grown.retired.length := by
  obtain ⟨hnodup, hsubset⟩ := hs.visited_once h
  exact (hnodup.subperm hsubset).length_le

theorem extends_box (hm : grown.Measurable leaf) (h : grown.Grown) (hs : s.Sound grown leaf)
    {id : TurtleId} (hid : id ∈ s.pending) :
    ∃ t box, grown.forest.get? id = some t ∧ t.extend leaf s.box = .ok box := by
  obtain ⟨t, ht⟩ := hs.living id hid
  have hmeasured (hend : t.children = []) : ∃ b?, t.measured? leaf = .ok b? := by
    obtain ⟨solid, hsolid, -⟩ := hm.envelope id ((h.living id).mp ⟨t, ht⟩) t ht hend
    exact ⟨_, Turtle.measured?_eq_ok.mpr ⟨solid, hsolid, rfl⟩⟩
  obtain ⟨box, hbox⟩ := Turtle.extend_ok hmeasured s.box
  exact ⟨t, box, ht, hbox⟩

theorem proceeds (hm : grown.Measurable leaf) (h : grown.Grown) (hs : s.Sound grown leaf)
    (hpending : s.pending ≠ []) : ∃ s', Step grown leaf s s' := by
  obtain ⟨id, others, hcons⟩ := List.exists_cons_of_ne_nil hpending
  obtain ⟨t, box, ht, hbox⟩ := hs.extends_box hm h (hcons ▸ List.mem_cons_self)
  exact ⟨_, .visit s id t others _ box (hcons ▸ .refl _) ht (.refl _) hbox⟩

theorem hull [ComparedScalar α] (hm : grown.Measurable leaf) (h : grown.Grown)
    (hne : grown.retired ≠ []) (hs : s.Sound grown leaf) (hpending : s.pending = []) :
    grown.Hull leaf s.box := by
  have hvisited := hs.finished hpending
  obtain ⟨boxes, hbox, hmem⟩ := hs.box
  obtain ⟨first, hfirst, t, ht, hposition⟩ := Interpretation.exists_first h hne
  have hnumeric : ∀ b ∈ boxes, b.Numeric := by
    intro b hb
    obtain ⟨id, hid, u, hu, hb⟩ := (hmem b).mp hb
    exact hm.numeric (hvisited.mem_iff.mp hid) hu hb
  have hstart : (Box.ofPoint t.pose.position).Numeric :=
    hm.numeric hfirst ht (Turtle.mem_boxes.mpr (.inl rfl))
  rw [hposition] at hbox
  have hcovers (outer : Box α) :
      outer.Covers s.box ↔ ∀ p, grown.Marks leaf p → outer.Holds p := by
    rw [hbox, Box.covers_foldl_merge hnumeric hstart, ← hm.covers_iff]
    constructor
    · intro hall id hid u hu b hb
      exact hall.2 b ((hmem b).mpr ⟨id, hvisited.mem_iff.mpr hid, u, hu, hb⟩)
    · intro hall
      refine ⟨hall first hfirst t ht _ (Turtle.mem_boxes.mpr (.inl rfl)), fun b hb => ?_⟩
      obtain ⟨id, hid, u, hu, hb⟩ := (hmem b).mp hb
      exact hall id (hvisited.mem_iff.mp hid) u hu b hb
  have hself : s.box.Covers s.box := .refl (hbox ▸ Box.numeric_foldl_merge hnumeric hstart)
  exact ⟨(hcovers s.box).mp hself, fun outer => (hcovers outer).mpr⟩

end Sound

end Survey

namespace Interpretation

variable {grown : Interpretation α} {leaf : LeafPattern α}

theorem extendOver_cons {id : TurtleId} {t : Turtle α} (ht : grown.forest.get? id = some t)
    {box box' : Box α} (hbox : t.extend leaf box = .ok box') (fuel : Nat)
    (pending : List TurtleId) : grown.extendOver leaf (fuel + 1) (id :: pending) box =
      grown.extendOver leaf fuel (t.children.reverse ++ pending) box' := by
  have hcons : grown.extendOver leaf (fuel + 1) (id :: pending) box =
      t.extend leaf box >>= grown.extendOver leaf fuel (t.children.reverse ++ pending) := by
    rw [extendOver, ht, Turtle.extend]
    dsimp only
    split
    · rfl
    · rfl
  rw [hcons, hbox]
  rfl

/-- While there is fuel for the turtles that are left, the top of the stack is visited next. -/
theorem extendOver_surveys (hm : grown.Measurable leaf) (h : grown.Grown) (fuel : Nat)
    {s : Survey α} (hs : s.Sound grown leaf)
    (hfuel : grown.retired.length ≤ s.visited.length + fuel) :
    ∃ s', ReflTransGen (Survey.Step grown leaf) s s' ∧ s'.pending = [] ∧
      grown.extendOver leaf fuel s.pending s.box = .ok s'.box := by
  induction fuel generalizing s with
  | zero =>
      refine ⟨s, .refl, ?_, rfl⟩
      by_contra hpending
      obtain ⟨s', hstep⟩ := hs.proceeds hm h hpending
      have hlength := (hs.step h hstep).length_visited h
      cases hstep
      rw [List.length_cons] at hlength
      omega
  | succ fuel ih =>
      cases hpending : s.pending with
      | nil => exact ⟨s, .refl, hpending, rfl⟩
      | cons id pending =>
          obtain ⟨t, box, ht, hbox⟩ := hs.extends_box hm h (hpending ▸ List.mem_cons_self)
          have hstep : Survey.Step grown leaf s
              ⟨id :: s.visited, t.children.reverse ++ pending, box⟩ :=
            .visit s id t pending _ box (hpending ▸ .refl _) ht
              ((List.reverse_perm _).append_right _) hbox
          obtain ⟨s', hsteps, hdone, hextents⟩ := ih (hs.step h hstep)
            (by rw [List.length_cons]; omega)
          exact ⟨s', hsteps.head hstep, hdone,
            (extendOver_cons ht hbox fuel pending).trans hextents⟩

/-- The extents of a tree are the least box around its segments and the leaves at their ends, so
they cover the boxes of these leaves, and no coordinate of a point exceeds them. All retired turtles
are visited, each of them once, in whatever order the turtles that wait are taken. -/
theorem extents_least [ComparedScalar α] {tree : Plant TreeSpecies α}
    (hgrow : tree.grow = .ok grown) (hne : grown.retired ≠ []) (hm : grown.Measurable leaf) :
    ∃ box, grown.extents leaf = .ok box ∧ grown.Hull leaf box ∧
      (∀ id ∈ grown.retired, ∀ t, grown.forest.get? id = some t → t.children = [] →
        ∀ b, leaf.extents? (Pose.ofFrame t.pose.position t.pose.orientation t.pose.left) =
          .ok (some b) → box.Covers b) ∧
      (∀ p, grown.Marks leaf p → (p.map Scalar.abs).AtMost box.maxAbs) ∧
      (∃ s, ReflTransGen (Survey.Step grown leaf) (.start grown) s ∧ s.pending = [] ∧
        s.box = box) ∧
      ∀ s, ReflTransGen (Survey.Step grown leaf) (.start grown) s →
        s.visited.Nodup ∧ s.visited.length ≤ grown.retired.length ∧
        (s.pending ≠ [] → ∃ s', Survey.Step grown leaf s s') ∧
        (s.pending = [] →
          s.visited.Perm grown.retired ∧ box.Covers s.box ∧ s.box.Covers box) := by
  obtain ⟨program, -, hinterpret⟩ := bind_eq_ok.mp hgrow
  have h := grown_of_interpret hinterpret
  have hstart : (Survey.start grown).Sound grown leaf := .start h leaf
  obtain ⟨s, hsteps, hpending, hextents⟩ :=
    extendOver_surveys hm h grown.forest.slots.size hstart
      (h.length_retired.trans (Nat.le_add_left ..))
  have hhull := (hstart.steps h hsteps).hull hm h hne hpending
  refine ⟨s.box, hextents, hhull, fun id hid t ht hend b hb => ?_,
    fun p hp => (hhull.holds p hp).maxAbs, ⟨s, hsteps, hpending, rfl⟩, fun s' hsteps' => ?_⟩
  · exact (hm.covers_iff s.box).mpr hhull.holds id hid t ht b
      (Turtle.mem_boxes.mpr (.inr (.inr ⟨hend, hb⟩)))
  · have hs' := hstart.steps h hsteps'
    refine ⟨(hs'.visited_once h).1, hs'.length_visited h, hs'.proceeds hm h, fun hpending' => ?_⟩
    have hhull' := hs'.hull hm h hne hpending'
    exact ⟨hs'.finished hpending', hhull'.least s.box hhull.holds, hhull.least s'.box hhull'.holds⟩

noncomputable def foil : LeafPattern ℝ :=
  { LeafPattern.sail with thickness := Mesh.degenerateTolerance }

theorem envelope_foil {q h l : Vec3 ℝ} (hunit : h.dot h = 1)
    (htilted : LeafPattern.filterTolerance ≤ (h + ⟨0, 0, -1⟩).length) :
    ∃ solid, foil.envelope (.ofFrame q h l) = .ok solid ∧ ∃ facet, facet ∈ solid.facets := by
  have hsurface : foil.surface (.ofFrame q h l) = .ok [[q, q + h, q + h + ⟨0, 0, -1⟩]] :=
    LeafPattern.surface_sail_of_tilted hunit htilted
  have hthin : 2 * |Layer.envelope.frontOffset foil.thickness| + 2 * Mesh.mergeTolerance +
      Mesh.degenerateTolerance ≤ (LeafPattern.filterTolerance : ℝ) := by
    norm_num [Layer.frontOffset, Layer.offsets, foil, Mesh.mergeTolerance,
      Mesh.degenerateTolerance, LeafPattern.filterTolerance, abs_of_pos]
  obtain ⟨shell, hshell, facet, hfacet⟩ := (LeafPattern.spread_of_surface hsurface).exists_triangle
    (List.cons_ne_nil _ _) hthin (Layer.envelope.backOffset foil.thickness)
  refine ⟨.ofMesh shell, ?_, facet, hfacet⟩
  rw [LeafPattern.envelope, hsurface]
  change (Surface.extrapolate _ _ _).map Tessellation.ofMesh = _
  rw [hshell]
  rfl

theorem grow_stump : ∃ (grown : Interpretation ℝ) (base tip : Turtle ℝ),
    (Plant.ofSpecies .stump : Plant TreeSpecies ℝ).grow = .ok grown ∧
    grown.retired = [0, 1] ∧
    grown.forest.get? 0 = some base ∧ base.children = [1] ∧
    grown.forest.get? 1 = some tip ∧ tip.children = [] ∧
    tip.pose.orientation.dot tip.pose.orientation = 1 ∧
    LeafPattern.filterTolerance ≤ (tip.pose.orientation + ⟨0, 0, -1⟩).length := by
  let a : Vec3 ℝ := (Pose.start : Pose ℝ).left.rotateAbout Vec3.vertical (Scalar.radians 180.0)
  let h : Vec3 ℝ := Vec3.vertical.rotateAbout a (Scalar.radians (90.0 - 45.0))
  have hframe : Vec3.vertical.Orthonormal a := Pose.Framed.start.rotate_snd _
  have hunit : h.dot h = 1 := (hframe.rotate_fst _).fst_dot
  have htilted : LeafPattern.filterTolerance ≤ (h + ⟨0, 0, -1⟩).length := by
    have hangle : (Scalar.radians (90.0 - 45.0) : ℝ) = Real.pi / 4 := by
      norm_num [Scalar.radians, Scalar.ofNat_eq_cast, Scalar.pi]
      ring
    have hcos : Vec3.vertical.dot h = Real.cos (Scalar.radians (90.0 - 45.0)) :=
      hframe.dot_rotate_fst _
    have hroot : √2 ≤ 3 / 2 := Real.sqrt_le_iff.mpr (by norm_num)
    rw [hangle, Real.cos_pi_div_four, Vec3.dot_eq] at hcos
    rw [Vec3.dot_eq] at hunit
    simp only [Vec3.vertical, zero_mul, one_mul, zero_add] at hcos
    refine Real.le_sqrt_of_sq_le ?_
    norm_num [LeafPattern.filterTolerance, Vec3.lengthSq, Vec3.dot_eq]
    linarith
  exact ⟨_, _, _, rfl, rfl, rfl, rfl, rfl, rfl, hunit, htilted⟩

theorem extents_least_stump : ∃ (grown : Interpretation ℝ) (tip : Turtle ℝ)
    (solid : Tessellation ℝ) (facet : Triangle ℝ) (box : Box ℝ),
    (Plant.ofSpecies .stump : Plant TreeSpecies ℝ).grow = .ok grown ∧ grown.retired = [0, 1] ∧
    grown.Measurable foil ∧ grown.extents foil = .ok box ∧ grown.Hull foil box ∧
    grown.forest.get? 1 = some tip ∧ tip.children = [] ∧
    foil.envelope (Pose.ofFrame tip.pose.position tip.pose.orientation tip.pose.left) =
      .ok solid ∧
    facet ∈ solid.facets ∧ box.Holds facet.a ∧ box.Holds facet.b ∧ box.Holds facet.c ∧
    ∃ s, ReflTransGen (Survey.Step grown foil) (.start grown) s ∧ s.visited.Perm [0, 1] := by
  obtain ⟨grown, base, tip, hgrow, hretired, hbase, hbranch, htip, hend, hunit, htilted⟩ :=
    grow_stump
  have hm : grown.Measurable foil := by
    refine ⟨fun _ _ t _ => ⟨t.pose.position.numeric, t.pose.endPoint.numeric⟩,
      fun id hid t ht hleaf => ?_⟩
    rw [hretired] at hid
    rcases List.mem_pair.mp hid with rfl | rfl
    · cases ht.symm.trans hbase
      rw [hbranch] at hleaf
      cases hleaf
    · cases ht.symm.trans htip
      obtain ⟨solid, hsolid, -⟩ := envelope_foil hunit htilted
      exact ⟨solid, hsolid, fun facet _ => ⟨facet.a.numeric, facet.b.numeric, facet.c.numeric⟩⟩
  have hne : grown.retired ≠ [] := hretired ▸ List.cons_ne_nil 0 [1]
  have htipRetired : 1 ∈ grown.retired := hretired ▸ by decide
  obtain ⟨box, hbox, hhull, -, -, ⟨s, hsteps, hpending, -⟩, hsurvey⟩ :=
    extents_least hgrow hne hm
  obtain ⟨-, -, -, hvisited⟩ := hsurvey s hsteps
  obtain ⟨solid, hsolid, facet, hfacet⟩ := envelope_foil hunit htilted
  have hcorner (p : Vec3 ℝ) (hp : p = facet.a ∨ p = facet.b ∨ p = facet.c) : box.Holds p :=
    hhull.holds p (.corner 1 tip htipRetired htip hend solid hsolid facet hfacet p hp)
  exact ⟨grown, tip, solid, facet, box, hgrow, hretired, hm, hbox, hhull, htip, hend, hsolid,
    hfacet, hcorner _ (.inl rfl), hcorner _ (.inr (.inl rfl)), hcorner _ (.inr (.inr rfl)), s,
    hsteps, hretired ▸ (hvisited hpending).1⟩

end Interpretation

end Arbor
