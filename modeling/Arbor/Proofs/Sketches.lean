import Arbor.Proofs.Acceptance
import Arbor.Proofs.BracketedBlocks
import Mathlib.Data.List.Forall2

namespace Arbor

/-- A value on the stack: a pose, and the index of the last segment on the way there. -/
structure Cursor (α : Type) where
  pose : Pose α
  last : Option Nat := none

structure Segment (α : Type) where
  pose : Pose α
  parent : Option Nat

structure Sketch (α : Type) where
  stack : List (Cursor α)
  segments : List (Segment α) := []

variable {α : Type}

/-- Turtle `id` has the pose, and its parent is the one that `last` counts to in `order`. -/
structure Depicts (f : Forest α) (order : List TurtleId) (id : TurtleId) (pose : Pose α)
    (last : Option Nat) : Prop where
  pose : (f.get? id).map Turtle.pose = some pose
  parent : f.parent? id = last.bind fun n => order[n]?
  drawn : ∀ n, last = some n → n < order.length

namespace Depicts

variable {f g : Forest α} {order : List TurtleId} {id : TurtleId} {pose : Pose α}
  {last : Option Nat}

theorem of_get? {t : Turtle α} (h : f.get? id = some t)
    (hparent : t.parent = last.bind fun n => order[n]?)
    (hdrawn : ∀ n, last = some n → n < order.length) : Depicts f order id t.pose last :=
  ⟨by simp [h], by rw [Forest.parent?_eq h, hparent], hdrawn⟩

theorem get? (h : Depicts f order id pose last) : ∃ t, f.get? id = some t ∧ t.pose = pose ∧
    t.parent = last.bind fun n => order[n]? := by
  obtain ⟨t, ht, hpose⟩ := Option.map_eq_some_iff.mp h.pose
  exact ⟨t, ht, hpose, by rw [← Forest.parent?_eq ht, h.parent]⟩

theorem congr (h : Depicts f order id pose last) (hbare : g.bare? id = f.bare? id) :
    Depicts g order id pose last := by
  obtain ⟨t, ht, rfl, hparent⟩ := h.get?
  obtain ⟨u, hu, hpose, -, hup⟩ := Forest.get?_of_bare? hbare.symm ht
  exact hpose ▸ of_get? hu (hup.trans hparent) h.drawn

theorem append (h : Depicts f order id pose last) (later : List TurtleId) :
    Depicts f (order ++ later) id pose last := by
  refine ⟨h.pose, ?_, fun n hn => ?_⟩
  · rw [h.parent]
    cases last with
    | none => rfl
    | some n => exact (List.getElem?_append_left (h.drawn n rfl)).symm
  · rw [List.length_append]
    exact Nat.lt_add_right _ (h.drawn n hn)

end Depicts

/-- The turtles of a replay are those of a sketch, on the stack and retired. -/
structure Draws (s : Replay α) (k : Sketch α) : Prop where
  stack : List.Forall₂ (fun id c => Depicts s.forest s.retired.reverse id c.pose c.last)
    s.stack k.stack
  count : s.retired.reverse.length = k.segments.length
  segments : ∀ n id g, s.retired.reverse[n]? = some id → k.segments[n]? = some g →
    Depicts s.forest (s.retired.reverse.take n) id g.pose g.parent

namespace Draws

variable {s s' : Replay α} {k : Sketch α}

theorem keep_stack {ids : List TurtleId} {cs : List (Cursor α)} (later : List TurtleId)
    (h : List.Forall₂ (fun id c => Depicts s.forest s.retired.reverse id c.pose c.last) ids cs)
    (hbare : ∀ id ∈ ids, s'.forest.bare? id = s.forest.bare? id) :
    List.Forall₂ (fun id c => Depicts s'.forest (s.retired.reverse ++ later) id c.pose c.last)
      ids cs := by
  have hboth := (List.forall₂_and_left (p := fun id => id ∈ ids) ids cs).mpr ⟨fun _ hid => hid, h⟩
  exact hboth.imp fun id c hc => (hc.2.congr (hbare id hc.1)).append later

end Draws

variable [Scalar α]

def Sketch.obey (k : Sketch α) (i : Instruction α) : Sketch α :=
  match k.stack, i with
  | [], _ => k
  | c :: rest, .push => { k with stack := c :: c :: rest }
  | _ :: rest, .pop => { k with stack := rest }
  | c :: rest, .advance e =>
    let grown := { c.pose with length := c.pose.length + e }
    { stack := ⟨{ grown.moveForward with length := 0 }, some k.segments.length⟩ :: rest
      segments := k.segments ++ [⟨grown, c.last⟩] }
  | c :: rest, i => { k with stack := { c with pose := i.change c.pose } :: rest }

def Sketch.ofProgram (program : List (Instruction α)) (pose : Pose α) : Sketch α :=
  program.foldl Sketch.obey { stack := [{ pose }] }

theorem Sketch.obey_nil {k : Sketch α} {i : Instruction α} (h : k.stack = []) : k.obey i = k := by
  unfold Sketch.obey
  rw [h]

theorem Sketch.obey_plain {k : Sketch α} {i : Instruction α} {c : Cursor α}
    {rest : List (Cursor α)} (hplain : i.IsPlain) (h : k.stack = c :: rest) :
    k.obey i = { k with stack := { c with pose := i.change c.pose } :: rest } := by
  unfold Sketch.obey
  rw [h]
  cases i with
  | advance | push | pop => exact hplain.elim
  | _ => rfl

namespace Draws

variable {s s' : Replay α} {k : Sketch α} {i : Instruction α}

omit [Scalar α] in
theorem start (pose : Pose α) : Draws (Replay.start pose) { stack := [{ pose }] } := by
  have hget : (Replay.start pose).forest.get? 0 = some { pose } := by
    change (Forest.empty.spawn pose).2.get? 0 = _
    rw [Forest.get?_spawn]
    rfl
  constructor
  · exact .cons (Depicts.of_get? hget rfl nofun) .nil
  · rfl
  · intro n id g hn
    simp [Replay.start] at hn

theorem keep_segments (h : Draws s k) (hs : s.Settled) (he : Replay.Effect s i s') {n : Nat}
    {id : TurtleId} {g : Segment α} (hid : s.retired.reverse[n]? = some id)
    (hg : k.segments[n]? = some g) :
    Depicts s'.forest (s.retired.reverse.take n) id g.pose g.parent := by
  have hmem : id ∈ s.retired := List.mem_reverse.mp (List.mem_of_getElem? hid)
  exact (h.segments n id g hid hg).congr (he.bare?_retired hs hmem)

theorem of_stack (h : Draws s k) (hs : s.Settled) (he : Replay.Effect s i s')
    (hretired : s'.retired = s.retired) {cs : List (Cursor α)}
    (hstack : List.Forall₂ (fun id c => Depicts s'.forest s.retired.reverse id c.pose c.last)
      s'.stack cs) : Draws s' { k with stack := cs } := by
  refine ⟨hretired ▸ hstack, hretired ▸ h.count, ?_⟩
  intro n id g hid hg
  rw [hretired] at hid ⊢
  exact h.keep_segments hs he hid hg

theorem after_advance (h : Draws s k) (hs : s.Settled) {e : α}
    (he : Replay.Effect s (.advance e) s') : Draws s' (k.obey (.advance e)) := by
  have heffect := he
  cases he with
  | stay _ _ plain => exact plain.elim
  | advance _ id rest t _ top here stack retired size slot =>
      have horder : s'.retired.reverse = s.retired.reverse ++ [id] := by simp [retired]
      obtain ⟨c, cs, htop, hrest, hk⟩ := List.forall₂_cons_left_iff.mp (top ▸ h.stack)
      obtain ⟨u, hu, hpose, hparent⟩ := htop.get?
      cases here.symm.trans hu
      have hobey : k.obey (.advance e) =
          { stack := ⟨c.pose.glide e, some k.segments.length⟩ :: cs
            segments := k.segments ++
              [⟨{ c.pose with length := c.pose.length + e }, c.last⟩] } := by
        simp [Sketch.obey, hk, Pose.glide]
      rw [hobey, ← hpose]
      constructor
      · have hnext : Depicts s'.forest (s.retired.reverse ++ [id]) s.forest.slots.size
            (t.pose.glide e) (some k.segments.length) := by
          refine Depicts.of_get? (by rw [slot, if_pos rfl]) ?_ ?_
          · simp [← h.count]
          · rintro n ⟨rfl⟩
            simp [← h.count]
        rw [stack, horder]
        exact .cons hnext (keep_stack [id] hrest fun j hj => heffect.bare?_below hs top hj)
      · simp [horder, ← h.count]
      · intro n j g hj hg
        rw [horder] at hj ⊢
        rcases Nat.lt_or_ge n s.retired.reverse.length with hn | hn
        · rw [List.getElem?_append_left hn] at hj
          rw [List.getElem?_append_left (h.count ▸ hn)] at hg
          rw [List.take_append_of_le_length (Nat.le_of_lt hn)]
          exact h.keep_segments hs heffect hj hg
        · -- the segment drawn just now
          have hlt : n < (s.retired.reverse ++ [id]).length := (List.getElem?_eq_some_iff.mp hj).1
          rw [List.length_append, List.length_singleton] at hlt
          obtain rfl : n = s.retired.reverse.length := by omega
          rw [List.getElem?_concat_length] at hj
          rw [h.count, List.getElem?_concat_length] at hg
          cases hj
          cases hg
          rw [List.take_left]
          have hid : s'.forest.get? id = some { t with
              pose := { t.pose with length := t.pose.length + e }
              complete := true
              children := [s.forest.slots.size] } := by
            rw [slot, if_neg (Nat.ne_of_lt (Forest.lt_size here)), if_pos rfl]
          exact Depicts.of_get? hid hparent htop.drawn

theorem after_push (h : Draws s k) (hs : s.Settled) (he : Replay.Effect s .push s') :
    Draws s' (k.obey .push) := by
  have heffect := he
  cases he with
  | stay _ _ plain => exact plain.elim
  | push id rest t _ top here stack retired size slot =>
      obtain ⟨c, cs, htop, -, hk⟩ := List.forall₂_cons_left_iff.mp (top ▸ h.stack)
      obtain ⟨u, hu, hpose, hparent⟩ := htop.get?
      cases here.symm.trans hu
      have hobey : k.obey .push = { k with stack := c :: c :: cs } := by simp [Sketch.obey, hk]
      have hcopy : s'.forest.get? s.forest.slots.size =
          some { pose := t.pose, parent := t.parent } := by rw [slot, if_pos rfl]
      have hnext := Depicts.of_get? hcopy hparent htop.drawn
      have hkeep := keep_stack [] h.stack fun j hj => Forest.bare?_relist <| by
        rw [slot, if_neg (hs.ne_fresh (List.mem_append_left _ hj))]
      rw [List.append_nil, top, hk] at hkeep
      rw [hobey]
      refine h.of_stack hs heffect retired ?_
      rw [stack]
      exact .cons (hpose ▸ hnext) hkeep

theorem after_pop (h : Draws s k) (hs : s.Settled) (he : Replay.Effect s .pop s') :
    Draws s' (k.obey .pop) := by
  have heffect := he
  cases he with
  | stay _ _ plain => exact plain.elim
  | pop id rest t _ top here stack retired size slot =>
      obtain ⟨c, cs, -, hrest, hk⟩ := List.forall₂_cons_left_iff.mp (top ▸ h.stack)
      have hobey : k.obey .pop = { k with stack := cs } := by simp [Sketch.obey, hk]
      have hkeep := keep_stack [] hrest fun j hj => heffect.bare?_below hs top hj
      rw [List.append_nil] at hkeep
      rw [hobey]
      exact h.of_stack hs heffect retired (stack ▸ hkeep)

theorem after_stay (h : Draws s k) (hs : s.Settled) (hplain : i.IsPlain)
    (he : Replay.Effect s i s') : Draws s' (k.obey i) := by
  have heffect := he
  cases he with
  | advance | push | pop => exact hplain.elim
  | stay _ _ _ stack retired size slot =>
      cases htop : s.stack with
      | nil =>
          have hk : k.stack = [] := List.forall₂_nil_left_iff.mp (htop ▸ h.stack)
          rw [Sketch.obey_nil hk]
          refine h.of_stack hs heffect retired ?_
          rw [stack, htop, hk]
          exact .nil
      | cons id rest =>
          obtain ⟨c, cs, hid, hrest, hk⟩ := List.forall₂_cons_left_iff.mp (htop ▸ h.stack)
          obtain ⟨u, hu, hpose, hparent⟩ := hid.get?
          have hhere := slot id
          rw [htop, List.head?_cons, if_pos rfl, hu] at hhere
          have hnext := Depicts.of_get? hhere hparent hid.drawn
          have hkeep := keep_stack [] hrest fun j hj => heffect.bare?_below hs htop hj
          rw [List.append_nil] at hkeep
          rw [Sketch.obey_plain hplain hk]
          refine h.of_stack hs heffect retired ?_
          rw [stack, htop]
          exact .cons (hpose ▸ hnext) hkeep

theorem after (h : Draws s k) (hs : s.Settled) (he : Replay.Effect s i s') :
    Draws s' (k.obey i) := by
  cases i with
  | advance => exact h.after_advance hs he
  | push => exact h.after_push hs he
  | pop => exact h.after_pop hs he
  | _ =>
      refine h.after_stay hs ?_ he
      exact trivial

theorem run {program : List (Instruction α)} {index : Nat} (h : Draws s k) (hs : s.Settled)
    (hrun : s.run index program = .ok s') : Draws s' (program.foldl Sketch.obey k) :=
  (hs.run_related Draws Sketch.obey (fun _ _ _ _ hs h he => h.after hs he) h hrun).2

end Draws

theorem Sketch.segments_obey_pop (k : Sketch α) : (k.obey .pop).segments = k.segments := by
  unfold Sketch.obey
  split <;> simp_all

/-- Accepted programs draw their sketches, and bracketed blocks leave the turtles below alone. -/
theorem interpret_draws_sketch {program : List (Instruction α)} {pose : Pose α}
    {out : Interpretation α} (h : interpret program pose = .ok out) :
    out.retired.length = (Sketch.ofProgram program pose).segments.length ∧
    (∀ n id (g : Segment α), out.retired[n]? = some id →
      (Sketch.ofProgram program pose).segments[n]? = some g →
      out.pose? id = some g.pose ∧
      out.forest.parent? id = g.parent.bind (fun m => out.retired[m]?) ∧
      ∀ m, g.parent = some m → m < n) ∧
    ∀ before block after, program = before ++ .push :: block ++ .pop :: after →
      WellBracketed block → ∃ s s', (Replay.start pose).run 0 before = .ok s ∧
        s.run before.length (.push :: block ++ [.pop]) = .ok s' ∧ s'.stack = s.stack ∧
        (∀ id ∈ s.stack, s'.forest.get? id = s.forest.get? id) ∧
        ∀ id t, s.forest.get? id = some t → s'.forest.bare? id = s.forest.bare? id := by
  obtain ⟨s, hrun, -, hforest, hretired⟩ := interpret_run h
  have hdraws := (Draws.start pose).run (Replay.Settled.start pose) hrun
  have hsegments : (List.foldl Sketch.obey { stack := [{ pose }] } (program ++ [.pop])).segments =
      (Sketch.ofProgram program pose).segments := by
    rw [List.foldl_append]
    exact Sketch.segments_obey_pop _
  obtain ⟨-, hcount, hdrawn⟩ := hdraws
  rw [hsegments] at hcount hdrawn
  rw [← hretired] at hcount hdrawn
  refine ⟨hcount, ?_, ?_⟩
  · intro n id g hid hg
    have hdepicts := hdrawn n id g hid hg
    rw [← hforest] at hdepicts
    have hlt (m : Nat) (hm : g.parent = some m) : m < n :=
      Nat.lt_of_lt_of_le (hdepicts.drawn m hm) (List.length_take_le _ _)
    refine ⟨hdepicts.pose, ?_, hlt⟩
    rw [hdepicts.parent]
    cases hparent : g.parent with
    | none => rfl
    | some m => exact List.getElem?_take_of_lt (hlt m hparent)
  · rintro before block after rfl hblock
    have hsplit : before ++ .push :: block ++ .pop :: after ++ [.pop] =
        before ++ ((.push :: block ++ [.pop]) ++ (after ++ [.pop])) := by simp
    rw [hsplit] at hrun
    obtain ⟨r, hr, hrest⟩ := Replay.run_append_ok hrun
    obtain ⟨r', hr', -⟩ := Replay.run_append_ok hrest
    rw [Nat.zero_add] at hr'
    have hsettled := (Replay.Settled.start pose).run hr
    obtain ⟨⟨own, hstack, hnone, -⟩, hbelow, hkept⟩ := hsettled.run_block hblock hr'
    rw [List.eq_nil_of_length_eq_zero hnone, List.nil_append] at hstack
    exact ⟨r, r', hr, hr', hstack, hbelow, hkept⟩

/-- The segment behind a branch goes on from the segment before it. -/
theorem interpret_draws_sketch_fork :
    let program : List (Instruction Float) :=
      [.advance 1, .push, .pitch 30, .advance 1, .pop, .advance 1]
    ∃ out a b c, interpret program Pose.start = .ok out ∧ out.retired = [a, b, c] ∧
      (out.pose? a).map Pose.position = some ⟨0, 0, 0⟩ ∧
      (out.pose? b).map Pose.position = some ⟨0, 0, 1⟩ ∧
      (out.pose? c).map Pose.endPoint = some ⟨0, 0, 2⟩ ∧
      out.forest.parent? b = some a ∧ out.forest.parent? c = some a ∧
      ∃ s s', (Replay.start (Pose.start : Pose Float)).run 0 [.advance 1] = .ok s ∧
        s.run 1 [.push, .pitch 30, .advance 1, .pop] = .ok s' ∧ s'.stack = s.stack := by
  intro program
  have hrun : Outline.run ⟨0, false⟩ program = some ⟨0, false⟩ := rfl
  obtain ⟨out, hout⟩ := interpret_of_run Pose.start hrun
  obtain ⟨hlength, hsegments, hblocks⟩ := interpret_draws_sketch hout
  obtain ⟨a, b, c, habc⟩ := List.length_eq_three.mp hlength
  obtain ⟨ha, -⟩ := hsegments 0 a _ (by rw [habc]; rfl) rfl
  obtain ⟨hb, hparentB, -⟩ := hsegments 1 b _ (by rw [habc]; rfl) rfl
  obtain ⟨hc, hparentC, -⟩ := hsegments 2 c _ (by rw [habc]; rfl) rfl
  rw [habc] at hparentB hparentC
  have hblock : WellBracketed [.pitch 30, .advance (1 : Float)] := (wellBracketed_iff _).mpr rfl
  obtain ⟨s, s', hs, hs', hstack, -⟩ := hblocks [.advance 1] _ [.advance 1] rfl hblock
  refine ⟨out, a, b, c, hout, habc, ?_, ?_, ?_, hparentB, hparentC, s, s', hs, hs', hstack⟩
  · rw [ha]
    decide +kernel
  · rw [hb]
    decide +kernel
  · rw [hc]
    decide +kernel

end Arbor
