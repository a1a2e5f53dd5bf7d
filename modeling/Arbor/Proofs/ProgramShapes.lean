import Arbor.Proofs.Descents

namespace Arbor

variable {α : Type}

/-- A row of trees. What is below the first one is again a row, and the others are beside it. -/
inductive Bush where
  | nil
  | node (below beside : Bush)

namespace Bush

def append : Bush → Bush → Bush
  | nil, t => t
  | node below beside, t => node below (beside.append t)

instance : Append Bush := ⟨append⟩

def tops : Bush → Nat
  | nil => 0
  | node _ beside => 1 + beside.tops

def size : Bush → Nat
  | nil => 0
  | node below beside => 1 + below.size + beside.size

def leaves : Bush → Nat
  | nil => 0
  | node below beside => (if below.tops = 0 then 1 else below.leaves) + beside.leaves

/-- The parents of the nodes, each node before those below it, when nodes are counted from `n` on
and the row hangs from `parent`. -/
def parents : Bush → Option Nat → Nat → List (Option Nat)
  | nil, _, _ => []
  | node below beside, parent, n =>
    parent :: below.parents (some n) (n + 1) ++ beside.parents parent (n + 1 + below.size)

def Everywhere (cond : Nat → Nat → Prop) : Bush → Nat → Prop
  | nil, _ => True
  | node below beside, d =>
    cond d below.tops ∧ below.Everywhere cond (d + 1) ∧ beside.Everywhere cond d

variable (s t u : Bush)

@[simp]
theorem nil_append : nil ++ t = t := rfl

@[simp]
theorem node_append : node s t ++ u = node s (t ++ u) := rfl

@[simp]
theorem append_nil : s ++ nil = s := by
  induction s with
  | nil => rfl
  | node below beside _ ih => rw [node_append, ih]

@[simp]
theorem tops_nil : nil.tops = 0 := rfl

@[simp]
theorem tops_node : (node s t).tops = 1 + t.tops := rfl

@[simp]
theorem tops_append : (s ++ t).tops = s.tops + t.tops := by
  induction s with
  | nil => simp
  | node below beside _ ih => simp [ih, Nat.add_assoc]

@[simp]
theorem size_nil : nil.size = 0 := rfl

@[simp]
theorem size_node : (node s t).size = 1 + s.size + t.size := rfl

@[simp]
theorem size_append : (s ++ t).size = s.size + t.size := by
  induction s with
  | nil => simp
  | node below beside _ ih => simp [ih, Nat.add_assoc]

@[simp]
theorem leaves_nil : nil.leaves = 0 := rfl

@[simp]
theorem leaves_node :
    (node s t).leaves = (if s.tops = 0 then 1 else s.leaves) + t.leaves := rfl

@[simp]
theorem leaves_append : (s ++ t).leaves = s.leaves + t.leaves := by
  induction s with
  | nil => simp
  | node below beside _ ih => simp [ih, Nat.add_assoc]

theorem parents_append (parent : Option Nat) (n : Nat) :
    (s ++ t).parents parent n = s.parents parent n ++ t.parents parent (n + s.size) := by
  induction s generalizing n with
  | nil => rfl
  | node below beside _ ih =>
      rw [node_append, parents, parents, ih]
      simp [Nat.add_assoc]

theorem length_parents (parent : Option Nat) (n : Nat) : (s.parents parent n).length = s.size := by
  induction s generalizing parent n with
  | nil => rfl
  | node below beside ihbelow ihbeside =>
      simp [parents, ihbelow, ihbeside, Nat.add_assoc, Nat.add_comm]

theorem everywhere_append {cond : Nat → Nat → Prop} {d : Nat} :
    (s ++ t).Everywhere cond d ↔ s.Everywhere cond d ∧ t.Everywhere cond d := by
  induction s with
  | nil => simp [Everywhere]
  | node below beside _ ih => simp [Everywhere, ih, and_assoc]

end Bush

/-- The segments of a program form the bush, in a row where the program starts. -/
inductive Shapes : List (Instruction α) → Bush → Prop
  | nil : Shapes [] .nil
  | plain (i : Instruction α) (p : List (Instruction α)) (t : Bush) (h : i.IsPlain)
      (rest : Shapes p t) : Shapes (i :: p) t
  | advance (e : α) (p : List (Instruction α)) (t : Bush) (rest : Shapes p t) :
      Shapes (.advance e :: p) (.node t .nil)
  | branch (b p : List (Instruction α)) (s t : Bush) (inner : Shapes b s) (rest : Shapes p t) :
      Shapes (.push :: b ++ .pop :: p) (s ++ t)

theorem Shapes.sketch [Scalar α] {p : List (Instruction α)} {t : Bush} (h : Shapes p t)
    (k : Sketch α) {c : Cursor α} {rest : List (Cursor α)} (hk : k.stack = c :: rest) :
    ∃ c' drawn, p.foldl Sketch.obey k = ⟨c' :: rest, k.segments ++ drawn⟩ ∧
      drawn.map Segment.parent = t.parents c.last k.segments.length := by
  induction h generalizing k c rest with
  | nil =>
      obtain ⟨stack, segments⟩ := k
      cases hk
      exact ⟨c, [], by simp, rfl⟩
  | plain i p t hplain _ ih =>
      obtain ⟨c', drawn, hrun, hparents⟩ := ih (k.obey i) (by rw [Sketch.obey_plain hplain hk])
      rw [Sketch.obey_plain hplain hk] at hrun hparents
      exact ⟨c', drawn, by rw [List.foldl_cons, Sketch.obey_plain hplain hk, hrun], hparents⟩
  | advance e p t _ ih =>
      have hobey : k.obey (.advance e) = ⟨⟨c.pose.glide e, some k.segments.length⟩ :: rest,
          k.segments ++ [⟨{ c.pose with length := c.pose.length + e }, c.last⟩]⟩ := by
        simp [Sketch.obey, hk, Pose.glide]
      obtain ⟨c', drawn, hrun, hparents⟩ := ih (k.obey (.advance e)) (by rw [hobey])
      rw [hobey] at hrun hparents
      refine ⟨c', ⟨{ c.pose with length := c.pose.length + e }, c.last⟩ :: drawn, ?_, ?_⟩
      · rw [List.foldl_cons, hobey, hrun]
        simp
      · simpa [Bush.parents] using hparents
  | branch b p s t _ _ ihb ihp =>
      have hpush : k.obey .push = ⟨c :: c :: rest, k.segments⟩ := by simp [Sketch.obey, hk]
      obtain ⟨c', inner, hinner, hs⟩ := ihb (k.obey .push) (by rw [hpush])
      rw [hpush] at hinner hs
      have hpop : (p.foldl Sketch.obey ((b.foldl Sketch.obey (k.obey .push)).obey .pop)) =
          p.foldl Sketch.obey ⟨c :: rest, k.segments ++ inner⟩ := by
        rw [hpush, hinner]
        rfl
      obtain ⟨c'', outer, houter, ht⟩ := ihp ⟨c :: rest, k.segments ++ inner⟩ rfl
      have hlength : inner.length = s.size := by
        rw [← s.length_parents c.last k.segments.length, ← hs, List.length_map]
      refine ⟨c'', inner ++ outer, ?_, ?_⟩
      · rw [List.cons_append, List.foldl_cons, List.foldl_append, List.foldl_cons, hpop, houter]
        simp
      · rw [List.map_append, hs, ht, Bush.parents_append]
        simp [hlength]

namespace Forest

variable (f : Forest α)

/-- The turtles hang from `parent` like the nodes of the bush, each listed before those below. -/
inductive Hangs : Option TurtleId → Bush → List TurtleId → Prop
  | nil (parent : Option TurtleId) : Hangs parent .nil []
  | node (parent : Option TurtleId) (id : TurtleId) (s t : Bush) (below beside : List TurtleId)
      (here : f.parent? id = parent) (down : Hangs (some id) s below)
      (rest : Hangs parent t beside) : Hangs parent (.node s t) (id :: below ++ beside)

/-- Besides hanging like the nodes, the turtles have as many children as the nodes. -/
inductive Fits : Option TurtleId → Bush → List TurtleId → Prop
  | nil (parent : Option TurtleId) : Fits parent .nil []
  | node (parent : Option TurtleId) (id : TurtleId) (s t : Bush) (below beside : List TurtleId)
      (here : f.parent? id = parent) (children : (f.children id).length = s.tops)
      (down : Fits (some id) s below) (rest : Fits parent t beside) :
      Fits parent (.node s t) (id :: below ++ beside)

/-- There is no turtle at depth zero, roots are at depth one, and so on. -/
inductive Depth : Option TurtleId → Nat → Prop
  | ground : Depth none 0
  | turtle (id : TurtleId) (d : Nat) (h : f.Lives id) (above : Depth (f.parent? id) d) :
      Depth (some id) (d + 1)

variable {f} {parent : Option TurtleId} {t : Bush} {order : List TurtleId}

theorem Depth.unique {place : Option TurtleId} {d e : Nat} (hd : f.Depth place d)
    (he : f.Depth place e) : d = e := by
  induction hd generalizing e with
  | ground => cases he; rfl
  | turtle id d _ _ ih =>
      cases he with
      | turtle _ e _ he => rw [ih he]

theorem Genealogy.length_children (hf : f.Genealogy) {id : TurtleId} (hid : f.Lives id)
    {ids : List TurtleId} (hdistinct : ids.Nodup) (hids : ∀ c, f.parent? c = some id → c ∈ ids) :
    (f.children id).length = ids.countP fun c => f.parent? c = some id := by
  obtain ⟨u, hu⟩ := hid
  have hlist : f.children id = u.children := by rw [children, hu]
  have hperm : u.children.Perm (ids.filter fun c => f.parent? c = some id) := by
    refine (List.perm_ext_iff_of_nodup (hf.distinct id u hu) (hdistinct.filter _)).mpr fun c => ?_
    rw [hf.listed id u c hu, List.mem_filter, decide_eq_true_eq]
    exact ⟨fun hc => ⟨hids c hc, hc⟩, And.right⟩
  rw [hlist, hperm.length_eq, List.countP_eq_length_filter]

namespace Hangs

theorem parent_mem (h : f.Hangs parent t order) {c : TurtleId} (hc : c ∈ order) :
    f.parent? c = parent ∨ ∃ p ∈ order, f.parent? c = some p := by
  induction h with
  | nil => cases hc
  | node parent id s t below beside here down rest ihdown ihrest =>
      rw [List.cons_append, List.mem_cons, List.mem_append] at hc
      rcases hc with rfl | hc | hc
      · exact .inl here
      · right
        rcases ihdown hc with h | ⟨p, hp, h⟩
        · exact ⟨id, by simp, h⟩
        · exact ⟨p, by simp [hp], h⟩
      · refine (ihrest hc).imp_right fun ⟨p, hp, h⟩ => ⟨p, by simp [hp], h⟩

theorem countP_parent (h : f.Hangs parent t order) (hdistinct : order.Nodup)
    (hparent : ∀ p, parent = some p → p ∉ order) :
    order.countP (fun c => f.parent? c = parent) = t.tops := by
  induction h with
  | nil => rfl
  | node parent id s t below beside here down rest ihdown ihrest =>
      obtain ⟨hhead, hbeside, -⟩ := List.nodup_append.mp hdistinct
      obtain ⟨hid, -⟩ := List.nodup_cons.mp hhead
      have hbelow : below.countP (fun c => f.parent? c = parent) = 0 := by
        refine List.countP_eq_zero.mpr fun c hc he => ?_
        rw [decide_eq_true_eq] at he
        rcases down.parent_mem hc with h | ⟨p, hp, h⟩
        · exact hparent id (he.symm.trans h) (by simp)
        · exact hparent p (he.symm.trans h) (by simp [hp])
      have hrest := ihrest hbeside fun p hp hm => hparent p hp (by simp [hm])
      rw [List.cons_append, List.countP_cons, List.countP_append, hbelow, hrest]
      simp [here, Nat.add_comm]

section Rows

variable {id : TurtleId} {s : Bush} {below beside : List TurtleId} {p c : TurtleId}
  (here : f.parent? id = parent) (hdistinct : (id :: below ++ beside).Nodup)
  (hparent : ∀ p, parent = some p → p ∉ id :: below ++ beside)
  (hc : c ∈ id :: below ++ beside) (hpc : f.parent? c = some p)

include here hdistinct hparent hc hpc

theorem mem_below (rest : f.Hangs parent t beside) (hp : p ∈ id :: below) : c ∈ below := by
  have hout : parent ≠ some p := fun he => hparent p he (List.mem_append_left _ hp)
  rw [List.cons_append, List.mem_cons, List.mem_append] at hc
  rcases hc with rfl | hc | hc
  · exact (hout (here.symm.trans hpc)).elim
  · exact hc
  · rcases rest.parent_mem hc with h | ⟨q, hq, h⟩
    · exact (hout (h.symm.trans hpc)).elim
    · cases h.symm.trans hpc
      exact ((List.nodup_append.mp hdistinct).2.2 p hp p hq rfl).elim

theorem mem_beside (down : f.Hangs (some id) s below) (hp : p ∈ beside) : c ∈ beside := by
  have hapart := (List.nodup_append.mp hdistinct).2.2
  rw [List.cons_append, List.mem_cons, List.mem_append] at hc
  rcases hc with rfl | hc | hc
  · exact (hparent p (here.symm.trans hpc) (List.mem_append_right _ hp)).elim
  · rcases down.parent_mem hc with h | ⟨q, hq, h⟩
    · cases h.symm.trans hpc
      exact (hapart id List.mem_cons_self id hp rfl).elim
    · cases h.symm.trans hpc
      exact (hapart p (List.mem_cons_of_mem _ hq) p hp rfl).elim
  · exact hc

end Rows

theorem fits (h : f.Hangs parent t order) (hf : f.Genealogy) (hlive : ∀ id ∈ order, f.Lives id)
    (hdistinct : order.Nodup) (hparent : ∀ p, parent = some p → p ∉ order)
    (hclosed : ∀ p c, f.parent? c = some p → p ∈ order → c ∈ order) : f.Fits parent t order := by
  induction h with
  | nil parent => exact .nil parent
  | node parent id s t below beside here down rest ihdown ihrest =>
      obtain ⟨hhead, hbeside, -⟩ := List.nodup_append.mp hdistinct
      obtain ⟨hid, hbelow⟩ := List.nodup_cons.mp hhead
      have hleft (p c : TurtleId) (hpc : f.parent? c = some p) (hp : p ∈ id :: below) :
          c ∈ below :=
        mem_below here hdistinct hparent (hclosed p c hpc (List.mem_append_left _ hp)) hpc rest hp
      have hright (p c : TurtleId) (hpc : f.parent? c = some p) (hp : p ∈ beside) : c ∈ beside :=
        mem_beside here hdistinct hparent (hclosed p c hpc (List.mem_append_right _ hp)) hpc down hp
      have hroot (p : TurtleId) (hp : some id = some p) : p ∉ below := Option.some.inj hp ▸ hid
      have hchildren : (f.children id).length = s.tops := by
        rw [hf.length_children (hlive id (by simp)) hbelow fun c hc => hleft id c hc (by simp)]
        exact down.countP_parent hbelow hroot
      refine .node parent id s t below beside here hchildren ?_ ?_
      · refine ihdown (fun c hc => hlive c (by simp [hc])) hbelow hroot fun p c hpc hp => ?_
        exact hleft p c hpc (List.mem_cons_of_mem _ hp)
      · refine ihrest (fun c hc => hlive c (by simp [hc])) hbeside (fun p hp hm => ?_) hright
        exact hparent p hp (List.mem_append_right _ hm)

end Hangs

theorem hangs_of_parents {order : List TurtleId} {t : Bush} {parent : Option Nat}
    {before block after : List TurtleId} (horder : order = before ++ block ++ after)
    (h : List.Forall₂ (fun p id => f.parent? id = p.bind fun n => order[n]?)
      (t.parents parent before.length) block) :
    f.Hangs (parent.bind fun n => order[n]?) t block := by
  induction t generalizing parent before block after with
  | nil =>
      cases h
      exact .nil _
  | node s t ihs iht =>
      rw [Bush.parents, List.cons_append] at h
      obtain ⟨id, others, hid, hothers, rfl⟩ := List.forall₂_cons_left_iff.mp h
      have hbelow := (List.forall₂_take_append _ _ _ hothers.flip).flip
      have hbeside := (List.forall₂_drop_append _ _ _ hothers.flip).flip
      rw [Bush.length_parents] at hbelow hbeside
      have hsplit := List.take_append_drop s.size others
      generalize others.take s.size = below at hbelow hsplit
      generalize others.drop s.size = beside at hbeside hsplit
      subst hsplit
      have hlength : below.length = s.size := by
        rw [← s.length_parents (some before.length) (before.length + 1)]
        exact hbelow.length_eq.symm
      have hhere : (some before.length).bind (fun n => order[n]?) = some id := by
        simp [horder]
      refine .node _ id s t below beside hid ?_ ?_
      · rw [← hhere]
        have hsplit : order = before ++ [id] ++ below ++ (beside ++ after) := by simp [horder]
        refine ihs hsplit ?_
        simpa using hbelow
      · have hsplit : order = before ++ id :: below ++ beside ++ after := by simp [horder]
        refine iht hsplit ?_
        simpa [hlength, Nat.add_assoc, Nat.add_comm] using hbeside

namespace Fits

theorem hangs (h : f.Fits parent t order) : f.Hangs parent t order := by
  induction h with
  | nil parent => exact .nil parent
  | node parent id s t below beside here _ _ _ ihdown ihrest =>
      exact .node parent id s t below beside here ihdown ihrest

theorem length_eq (h : f.Fits parent t order) : order.length = t.size := by
  induction h with
  | nil => rfl
  | node parent id s t below beside here children down rest ihdown ihrest =>
      simp [ihdown, ihrest, Nat.add_assoc, Nat.add_comm]

theorem countP_childless (h : f.Fits parent t order) :
    order.countP (fun id => (f.children id).isEmpty) = t.leaves := by
  induction h with
  | nil => rfl
  | node parent id s t below beside here children down rest ihdown ihrest =>
      rw [List.cons_append, List.countP_cons, List.countP_append, ihdown, ihrest]
      cases s with
      | nil =>
          have hnone : (f.children id).isEmpty = true := by
            rw [List.isEmpty_iff_length_eq_zero, children, Bush.tops_nil]
          simp [hnone, Nat.add_comm]
      | node =>
          have hsome : (f.children id).isEmpty = false := by
            rw [Bool.eq_false_iff, ne_eq, List.isEmpty_iff_length_eq_zero, children, Bush.tops_node]
            omega
          simp [hsome]

theorem everywhere (h : f.Fits parent t order) (hlive : ∀ id ∈ order, f.Lives id)
    {cond : Nat → Nat → Prop} {d : Nat} (hparent : f.Depth parent d)
    (ht : t.Everywhere cond (d + 1)) {id : TurtleId} (hid : id ∈ order) :
    ∃ e, f.Depth (some id) e ∧ cond e (f.children id).length := by
  induction h generalizing d with
  | nil => cases hid
  | node parent top s t below beside here children down rest ihdown ihrest =>
      obtain ⟨hcond, hbelow, hbeside⟩ := ht
      have htop : f.Depth (some top) (d + 1) := .turtle top d (hlive top (by simp)) (here ▸ hparent)
      rw [List.cons_append, List.mem_cons, List.mem_append] at hid
      rcases hid with rfl | hid | hid
      · exact ⟨d + 1, htop, children ▸ hcond⟩
      · exact ihdown (fun c hc => hlive c (by simp [hc])) htop hbelow hid
      · exact ihrest (fun c hc => hlive c (by simp [hc])) hparent hbeside hid

end Fits

end Forest

variable [Scalar α]

/-- The retired turtles of a program, in order, form the bush of its segments. -/
theorem Shapes.interpret {program : List (Instruction α)} {t : Bush} (h : Shapes program t)
    {pose : Pose α} {out : Interpretation α} (hout : Arbor.interpret program pose = .ok out) :
    out.forest.Fits none t out.retired := by
  have hgrown := grown_of_interpret hout
  obtain ⟨s, hrun, -, hforest, hretired⟩ := interpret_run hout
  have hdraws := (Draws.start pose).run (Replay.Settled.start pose) hrun
  obtain ⟨c, drawn, hsketch, hparents⟩ := h.sketch { stack := [{ pose }] } rfl
  have hsegments : (List.foldl Sketch.obey { stack := [{ pose }] } (program ++ [.pop])).segments =
      drawn := by
    rw [List.foldl_append, hsketch]
    exact List.nil_append drawn
  obtain ⟨-, hcount, hdrawn⟩ := hdraws
  rw [hsegments, ← hretired] at hcount
  rw [hsegments, ← hretired, ← hforest] at hdrawn
  have hall : List.Forall₂ (fun p id => out.forest.parent? id = p.bind fun n => out.retired[n]?)
      (t.parents none 0) out.retired := by
    change _ = t.parents none 0 at hparents
    rw [← hparents, List.forall₂_map_left_iff, List.forall₂_iff_get]
    refine ⟨hcount.symm, fun n hn hn' => ?_⟩
    have hdepicts := hdrawn n _ _ (List.getElem?_eq_getElem hn') (List.getElem?_eq_getElem hn)
    rw [List.get_eq_getElem, List.get_eq_getElem, hdepicts.parent]
    cases hparent : drawn[n].parent with
    | none => rfl
    | some m =>
        have hlt : m < n := Nat.lt_of_lt_of_le (hdepicts.drawn m hparent) (List.length_take_le _ _)
        exact List.getElem?_take_of_lt hlt
  have horder : out.retired = [] ++ out.retired ++ [] := by simp
  have hhangs := Forest.hangs_of_parents horder hall
  refine hhangs.fits hgrown.genealogy (fun id hid => (hgrown.living id).mpr hid) hgrown.distinct
    nofun fun p c hpc _ => ?_
  obtain ⟨u, hu, -⟩ := Option.bind_eq_some_iff.mp hpc
  exact (hgrown.living c).mp ⟨u, hu⟩

theorem Shapes.roots_length {program : List (Instruction α)} {t : Bush} (h : Shapes program t)
    {pose : Pose α} {out : Interpretation α} (hout : Arbor.interpret program pose = .ok out) :
    out.roots.length = t.tops := by
  rw [← (h.interpret hout).hangs.countP_parent (grown_of_interpret hout).distinct nofun,
    Interpretation.roots, List.countP_eq_length_filter]
  refine congrArg List.length (List.filter_congr fun id _ => ?_)
  cases out.forest.parent? id <;> rfl

end Arbor
