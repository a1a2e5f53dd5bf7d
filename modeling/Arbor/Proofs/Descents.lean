import Arbor.Proofs.ForestLineage
import Arbor.Proofs.RetiredForest

namespace Arbor

open Relation

variable {α : Type}

namespace Forest

/-- The turtles passed on the way down from a list, each before those below it. -/
inductive Descends (f : Forest α) : List TurtleId → List TurtleId → Prop
  | nil : Descends f [] []
  | gone (id : TurtleId) (ids order : List TurtleId) (h : f.get? id = none)
      (rest : Descends f ids order) : Descends f (id :: ids) order
  | branch (id : TurtleId) (ids : List TurtleId) (t : Turtle α) (below beside : List TurtleId)
      (h : f.get? id = some t) (down : Descends f t.children below)
      (rest : Descends f ids beside) : Descends f (id :: ids) (id :: below ++ beside)

namespace Descends

variable {f : Forest α}

theorem append {ids ids' order order' : List TurtleId} (h : f.Descends ids order)
    (h' : f.Descends ids' order') : f.Descends (ids ++ ids') (order ++ order') := by
  induction h with
  | nil => exact h'
  | gone id ids order hid _ ih => exact .gone id _ _ hid ih
  | branch id ids t below beside hid down _ _ ih =>
      rw [List.append_assoc]
      exact .branch id _ t below _ hid down ih

theorem of_cons {id : TurtleId} {ids order : List TurtleId} (h : f.Descends (id :: ids) order) :
    ∃ first rest, order = first ++ rest ∧ f.Descends [id] first ∧ f.Descends ids rest := by
  cases h with
  | gone _ _ _ hid rest => exact ⟨[], order, rfl, .gone id [] [] hid .nil, rest⟩
  | branch _ _ t below beside hid down rest =>
      refine ⟨id :: below, beside, rfl, ?_, rest⟩
      simpa using Descends.branch id [] t below [] hid down .nil

theorem perm {ids ids' : List TurtleId} (hperm : ids.Perm ids') {order : List TurtleId}
    (h : f.Descends ids order) : ∃ order', f.Descends ids' order' ∧ order.Perm order' := by
  induction hperm generalizing order with
  | nil => exact ⟨order, h, .refl order⟩
  | cons id _ ih =>
      obtain ⟨first, rest, rfl, hfirst, hrest⟩ := h.of_cons
      obtain ⟨rest', hrest', hperm⟩ := ih hrest
      exact ⟨first ++ rest', hfirst.append hrest', hperm.append_left first⟩
  | swap a b ids =>
      obtain ⟨first, rest, rfl, hfirst, hrest⟩ := h.of_cons
      obtain ⟨second, rest, rfl, hsecond, hrest⟩ := hrest.of_cons
      exact ⟨second ++ (first ++ rest), hsecond.append (hfirst.append hrest),
        List.perm_append_comm_assoc first second rest⟩
  | trans _ _ ih ih' =>
      obtain ⟨order', horder', hperm⟩ := ih h
      obtain ⟨order'', horder'', hperm'⟩ := ih' horder'
      exact ⟨order'', horder'', hperm.trans hperm'⟩

end Descends

namespace Genealogy

variable {f : Forest α}

theorem parent_unique {p q c : TurtleId} (hp : f.Parent p c) (hq : f.Parent q c) : p = q :=
  Option.some.inj (hp.symm.trans hq)

theorem apart_of_siblings (hf : f.Genealogy) {a b : TurtleId} (hne : a ≠ b)
    (hparent : f.parent? a = f.parent? b) {x : TurtleId} (ha : f.AtOrAbove a x) :
    ¬ f.AtOrAbove b x := by
  have hcycle {a b p : TurtleId} (hparent : f.parent? a = f.parent? b) (hp : f.Parent p b)
      (hap : f.AtOrAbove a p) : False :=
    hf.acyclic a (TransGen.tail' hap (hparent.trans hp))
  induction ha with
  | refl =>
      intro hb
      rcases hb.cases_tail with rfl | ⟨p, hbp, hpa⟩
      · exact hne rfl
      · exact hcycle hparent.symm hpa hbp
  | tail hay hyx ih =>
      intro hb
      rcases hb.cases_tail with rfl | ⟨p, hbp, hpx⟩
      · exact hcycle hparent hyx hay
      · exact ih (parent_unique hpx hyx ▸ hbp)

theorem mem_descends (hf : f.Genealogy) {ids order : List TurtleId} (h : f.Descends ids order)
    (x : TurtleId) : x ∈ order ↔ f.Lives x ∧ ∃ id ∈ ids, f.AtOrAbove id x := by
  induction h with
  | nil => simp
  | gone id ids order hid rest ih =>
      -- parents live, so nothing living is below `id`
      have hdead (hx : f.Lives x) : ¬ f.AtOrAbove id x := by
        intro hab
        have hlives : f.Lives id := by
          rcases hab.cases_head with rfl | ⟨c, hc, -⟩
          · exact hx
          · exact hf.living id c hc
        obtain ⟨t, ht⟩ := hlives
        cases hid.symm.trans ht
      rw [ih, List.exists_mem_cons_iff]
      exact and_congr_right fun hx => (or_iff_right (hdead hx)).symm
  | branch id ids t below beside hid down rest ihdown ihrest =>
      have hhead : f.AtOrAbove id x ↔ x = id ∨ ∃ c ∈ t.children, f.AtOrAbove c x := by
        rw [AtOrAbove, ReflTransGen.cases_head_iff, eq_comm]
        simp only [hf.listed id t _ hid]
      have hself : f.Lives x ∧ x = id ↔ x = id := and_iff_right_of_imp fun hx => hx ▸ ⟨t, hid⟩
      rw [List.cons_append, List.mem_cons, List.mem_append, ihdown, ihrest,
        List.exists_mem_cons_iff, hhead, and_or_left, and_or_left, hself, or_assoc]

theorem nodup_descends (hf : f.Genealogy) {ids order : List TurtleId} (h : f.Descends ids order)
    (hdistinct : ids.Nodup) (hsiblings : ∀ a ∈ ids, ∀ b ∈ ids, f.parent? a = f.parent? b) :
    order.Nodup := by
  induction h with
  | nil => exact .nil
  | gone id ids order _ _ ih =>
      refine ih (List.nodup_cons.mp hdistinct).2 fun a ha b hb => ?_
      exact hsiblings a (List.mem_cons_of_mem _ ha) b (List.mem_cons_of_mem _ hb)
  | branch id ids t below beside hid down rest ihdown ihrest =>
      obtain ⟨hnew, hdistinct⟩ := List.nodup_cons.mp hdistinct
      have hchild (c : TurtleId) (hc : c ∈ t.children) : f.parent? c = some id :=
        (hf.listed id t c hid).mp hc
      have hbelow : below.Nodup := by
        refine ihdown (hf.distinct id t hid) fun a ha b hb => ?_
        rw [hchild a ha, hchild b hb]
      have hbeside : beside.Nodup := by
        refine ihrest hdistinct fun a ha b hb => ?_
        exact hsiblings a (List.mem_cons_of_mem _ ha) b (List.mem_cons_of_mem _ hb)
      have hunder (x : TurtleId) (hx : x ∈ below) : f.Ancestor id x := by
        obtain ⟨-, c, hc, hcx⟩ := (hf.mem_descends down x).mp hx
        exact TransGen.head' (hchild c hc) hcx
      refine List.nodup_append.mpr ⟨List.nodup_cons.mpr ⟨?_, hbelow⟩, hbeside, ?_⟩
      · exact fun hx => hf.acyclic id (hunder id hx)
      · -- below `id` and below one of its siblings at once
        rintro x hx y hy rfl
        have hleft : f.AtOrAbove id x := by
          rcases List.mem_cons.mp hx with rfl | hx
          · exact .refl
          · exact (hunder x hx).to_reflTransGen
        obtain ⟨-, b, hb, hright⟩ := (hf.mem_descends rest x).mp hy
        have hne : id ≠ b := fun he => hnew (he ▸ hb)
        refine hf.apart_of_siblings hne ?_ hleft hright
        exact hsiblings id List.mem_cons_self b (List.mem_cons_of_mem _ hb)

end Genealogy

end Forest

namespace Interpretation

/-- What an accepted program leaves: retired turtles, each of them younger than its parent. -/
structure Grown (out : Interpretation α) : Prop where
  genealogy : out.forest.Genealogy
  younger : ∀ p c : Nat, out.forest.Parent p c → p < c
  distinct : out.retired.Nodup
  living : ∀ id, out.forest.Lives id ↔ id ∈ out.retired

namespace Grown

variable {out : Interpretation α}

theorem mem_roots (h : out.Grown) (id : TurtleId) :
    id ∈ out.roots ↔ out.forest.Lives id ∧ out.forest.parent? id = none := by
  rw [roots, List.mem_filter, ← h.living, Option.isNone_iff_eq_none]

theorem exists_root (h : out.Grown) (x : TurtleId) (hx : out.forest.Lives x) :
    ∃ root ∈ out.roots, out.forest.AtOrAbove root x := by
  induction x using Nat.strong_induction_on with
  | _ x ih =>
      cases hp : out.forest.parent? x with
      | none => exact ⟨x, (h.mem_roots x).mpr ⟨hx, hp⟩, .refl⟩
      | some p =>
          obtain ⟨root, hroot, hab⟩ := ih p (h.younger p x hp) (h.genealogy.living p x hp)
          exact ⟨root, hroot, hab.tail hp⟩

theorem length_retired (h : out.Grown) : out.retired.length ≤ out.forest.slots.size := by
  have hsubset : out.retired ⊆ List.range out.forest.slots.size := by
    intro id hid
    obtain ⟨t, ht⟩ := (h.living id).mpr hid
    exact List.mem_range.mpr (Forest.lt_size ht)
  exact (h.distinct.subperm hsubset).length_le.trans_eq List.length_range

theorem exists_descends (h : out.Grown) (fuel : Nat) (ids : List TurtleId)
    (hfuel : ∀ id ∈ ids, out.forest.slots.size ≤ id + fuel) :
    ∃ order, out.forest.Descends ids order := by
  -- as deep as `fuel` generations, and along the siblings of each
  induction fuel generalizing ids with
  | zero =>
      induction ids with
      | nil => exact ⟨[], .nil⟩
      | cons id ids ih =>
          obtain ⟨hid, hids⟩ := List.forall_mem_cons.mp hfuel
          obtain ⟨order, horder⟩ := ih hids
          exact ⟨order, .gone id ids order (Forest.get?_eq_none hid) horder⟩
  | succ fuel ihfuel =>
      induction ids with
      | nil => exact ⟨[], .nil⟩
      | cons id ids ih =>
          obtain ⟨hid, hids⟩ := List.forall_mem_cons.mp hfuel
          obtain ⟨beside, hbeside⟩ := ih hids
          cases ht : out.forest.get? id with
          | none => exact ⟨beside, .gone id ids beside ht hbeside⟩
          | some t =>
              have hbelow : ∃ below, out.forest.Descends t.children below := by
                refine ihfuel t.children fun c hc => ?_
                have hlt := h.younger id c ((h.genealogy.listed id t c ht).mp hc)
                omega
              obtain ⟨below, hbelow⟩ := hbelow
              exact ⟨_, .branch id ids t below beside ht hbelow hbeside⟩

/-- Going down from the roots passes the retired turtles, each of them once. -/
theorem perm_retired (h : out.Grown) {order : List TurtleId}
    (hd : out.forest.Descends out.roots order) : order.Perm out.retired := by
  have hnodup : order.Nodup := by
    refine h.genealogy.nodup_descends hd (h.distinct.filter _) fun a ha b hb => ?_
    rw [((h.mem_roots a).mp ha).2, ((h.mem_roots b).mp hb).2]
  refine (List.perm_ext_iff_of_nodup hnodup h.distinct).mpr fun x => ?_
  rw [h.genealogy.mem_descends hd, ← h.living]
  exact and_iff_left_of_imp (h.exists_root x)

end Grown

end Interpretation

theorem grown_of_interpret [Scalar α] {program : List (Instruction α)} {pose : Pose α}
    {out : Interpretation α} (h : interpret program pose = .ok out) : out.Grown := by
  obtain ⟨s, hrun, hnil, hforest, hretired⟩ := interpret_run h
  have hs := (Replay.Settled.start pose).run hrun
  have hlisted := (Replay.Settled.start pose).run_listed (Forest.Listed.start pose) hrun
  have hliving (id : TurtleId) : s.forest.Lives id ↔ id ∈ s.retired := hs.live_iff hnil id
  have hparent (p c : TurtleId) (hpc : s.forest.Parent p c) : p ∈ s.retired ∧ p < c := by
    obtain ⟨t, ht, hparent⟩ := Option.bind_eq_some_iff.mp hpc
    exact hs.lineage c t p ht hparent
  have hdescend (a b : TurtleId) (hab : s.forest.Ancestor a b) : a < b := by
    induction hab with
    | single hab => exact (hparent _ _ hab).2
    | tail _ hbc ih => exact ih.trans (hparent _ _ hbc).2
  have hgenealogy : s.forest.Genealogy := by
    refine ⟨hlisted.linked, fun p t ht => ?_, fun p c hpc => ?_, fun a haa => ?_⟩
    · exact (hlisted.sorted p t ht).imp Nat.ne_of_lt
    · exact (hliving p).mpr (hparent p c hpc).1
    · exact Nat.lt_irrefl a (hdescend a a haa)
  constructor
  · rw [hforest]
    exact hgenealogy
  · rw [hforest]
    exact fun p c hpc => (hparent p c hpc).2
  · rw [hretired, List.nodup_reverse]
    simpa [hnil] using hs.distinct
  · intro id
    rw [hforest, hretired, List.mem_reverse]
    exact hliving id

end Arbor
