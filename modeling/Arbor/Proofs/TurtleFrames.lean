import Arbor.Leaf.Pattern
import Arbor.Proofs.RetiredForest
import Arbor.Proofs.Rotations

namespace Arbor

structure Vec3.Orthonormal (v w : Vec3 ℝ) : Prop where
  fst : v.length = 1
  snd : w.length = 1
  perpendicular : v.dot w = 0

namespace Vec3

variable {v w a : Vec3 ℝ}

theorem Orthonormal.fst_dot (h : Orthonormal v w) : v.dot v = 1 := length_eq_one.mp h.fst

theorem Orthonormal.snd_dot (h : Orthonormal v w) : w.dot w = 1 := length_eq_one.mp h.snd

theorem Orthonormal.rotate (h : Orthonormal v w) (ha : a.dot a = 1) (angle : ℝ) :
    Orthonormal (v.rotateAbout a angle) (w.rotateAbout a angle) := by
  rw [rotateAbout_eq ha, rotateAbout_eq ha]
  refine ⟨length_eq_one.mpr ?_, length_eq_one.mpr ?_, ?_⟩
  · rw [dot_rotated ha, h.fst_dot]
  · rw [dot_rotated ha, h.snd_dot]
  · rw [dot_rotated ha, h.perpendicular]

theorem rotateAbout_self (ha : a.dot a = 1) (angle : ℝ) : a.rotateAbout a angle = a := by
  rw [rotateAbout_eq ha, rotated_self ha]

theorem Orthonormal.rotate_fst (h : Orthonormal v w) (angle : ℝ) :
    Orthonormal (v.rotateAbout w angle) w := by
  have hrotated := h.rotate h.snd_dot angle
  rwa [rotateAbout_self h.snd_dot] at hrotated

theorem Orthonormal.rotate_snd (h : Orthonormal v w) (angle : ℝ) :
    Orthonormal v (w.rotateAbout v angle) := by
  have hrotated := h.rotate h.fst_dot angle
  rwa [rotateAbout_self h.fst_dot] at hrotated

theorem Orthonormal.dot_rotate_fst (h : Orthonormal v w) (angle : ℝ) :
    v.dot (v.rotateAbout w angle) = Real.cos angle := by
  have hone := h.fst_dot
  have hperpendicular := h.perpendicular
  rw [rotateAbout_eq h.snd_dot]
  simp only [rotated, dot_eq, x_add, y_add, z_add, x_mul, y_mul, z_mul, x_cross, y_cross,
    z_cross] at hone hperpendicular ⊢
  linear_combination Real.cos angle * hone + (v.x * w.x + v.y * w.y + v.z * w.z) *
    (1 - Real.cos angle) * hperpendicular

theorem dot_vertical : (vertical : Vec3 ℝ).dot vertical = 1 := by
  rw [dot_eq]
  simp [vertical]

end Vec3

namespace Pose

variable {p : Pose ℝ}

def Framed (p : Pose ℝ) : Prop := p.orientation.Orthonormal p.left

theorem Framed.start : (Pose.start : Pose ℝ).Framed := by
  have hleft : (Pose.start : Pose ℝ).left = ⟨-1, 0, 0⟩ := by
    have hzero : ¬ |(0 : ℝ)| < |0| := lt_irrefl _
    have hone : |(0 : ℝ)| < |1| := by simp
    exact (if_neg hzero).trans (if_pos hone)
  refine ⟨Vec3.length_eq_one.mpr Vec3.dot_vertical, ?_, ?_⟩
  · rw [hleft, Vec3.length_eq_one, Vec3.dot_eq]
    norm_num
  · rw [hleft, Vec3.dot_eq]
    simp [Pose.start, ofFrame, Vec3.vertical]

theorem Framed.verticate (h : p.Framed) (radians : ℝ) : (p.verticate radians).Framed := by
  unfold Pose.verticate
  dsimp only
  split
  · exact h.rotate_fst radians
  · exact h.rotate_fst (-radians)

theorem Framed.change (h : p.Framed) (i : Instruction ℝ) : (i.change p).Framed := by
  cases i with
  | roll angle => exact h.rotate_snd _
  | pitch angle => exact h.rotate_fst _
  | turnLeft angle | turnRight angle => exact h.rotate Vec3.dot_vertical _
  | verticate angle => exact h.verticate _
  | _ => exact h

theorem Framed.endPoint_eq (h : p.Framed) :
    p.endPoint = (LeafPattern.startPose p).position := by
  have hunit : p.orientation.length = 1 := h.fst
  have hscaled : p.orientation.withLength p.length = p.orientation * p.length := by
    rw [Vec3.withLength, hunit, div_one]
    exact if_neg fun hzero => one_ne_zero (of_decide_eq_true hzero)
  rw [endPoint, hscaled]
  rfl

end Pose

namespace Replay

variable {s s' : Replay ℝ} {i : Instruction ℝ}

def Framed (s : Replay ℝ) : Prop := ∀ id t, s.forest.get? id = some t → t.pose.Framed

theorem Framed.start {pose : Pose ℝ} (h : pose.Framed) : (Replay.start pose).Framed := by
  intro id t ht
  change (Forest.empty.spawn pose).2.get? id = _ at ht
  rw [Forest.get?_spawn, Forest.get?_empty] at ht
  split at ht
  · cases ht
    exact h
  · cases ht

theorem Framed.after (h : s.Framed) (he : Effect s i s') : s'.Framed := by
  intro j u hu
  cases he with
  | advance e id rest t _ top here stack retired size slot =>
      rw [slot] at hu
      split at hu
      · cases hu
        exact h id t here
      · split at hu
        · cases hu
          exact h id t here
        · exact h j u hu
  | push id rest t _ top here stack retired size slot =>
      rw [slot] at hu
      split at hu
      · cases hu
        exact h id t here
      · split at hu
        · obtain ⟨v, hv, rfl⟩ := Option.map_eq_some_iff.mp hu
          exact h j v hv
        · exact h j u hu
  | pop id rest t _ top here stack retired size slot =>
      rw [slot] at hu
      split at hu
      · cases hu
      · split at hu
        · obtain ⟨v, hv, rfl⟩ := Option.map_eq_some_iff.mp hu
          exact h j v hv
        · exact h j u hu
  | stay _ _ _ stack retired size slot =>
      rw [slot] at hu
      split at hu
      · obtain ⟨v, hv, rfl⟩ := Option.map_eq_some_iff.mp hu
        exact (h j v hv).change i
      · exact h j u hu

theorem Framed.run {pose : Pose ℝ} (h : pose.Framed) {program : List (Instruction ℝ)}
    (hrun : (Replay.start pose).run 0 program = .ok s) : s.Settled ∧ s.Framed :=
  (Settled.start pose).run_kept Replay.Framed (fun _ _ _ _ h he => h.after he) (Framed.start h) hrun

end Replay

/-- Behind any part of a program, and in the forest that it leaves, all turtles are framed. So the
end of a retired segment is where a leaf on it starts. -/
theorem frames_of_run {pose : Pose ℝ} (hpose : pose.Framed) (program : List (Instruction ℝ)) :
    (∀ before after s, program = before ++ after → (Replay.start pose).run 0 before = .ok s →
      (∀ id ∈ s.stack ++ s.retired, ∃ t, s.forest.get? id = some t ∧ t.pose.Framed) ∧
      ∀ id t, s.forest.get? id = some t → t.pose.Framed) ∧
    ∀ out, interpret program pose = .ok out → ∀ id ∈ out.retired, ∃ p, out.pose? id = some p ∧
      p.Framed ∧ p.endPoint = (LeafPattern.startPose p).position := by
  refine ⟨fun before _ s _ hrun => ?_, fun out hout id hid => ?_⟩
  · obtain ⟨hsettled, hframed⟩ := Replay.Framed.run hpose hrun
    refine ⟨fun id hid => ?_, hframed⟩
    obtain ⟨t, ht⟩ := hsettled.get?_of_mem hid
    exact ⟨t, ht, hframed id t ht⟩
  · obtain ⟨s, hrun, -, hforest, hretired⟩ := interpret_run hout
    obtain ⟨hsettled, hframed⟩ := Replay.Framed.run hpose hrun
    rw [hretired, List.mem_reverse] at hid
    obtain ⟨t, ht⟩ := hsettled.get?_of_mem (List.mem_append_right _ hid)
    have hpose? : out.pose? id = some t.pose := by rw [Interpretation.pose?, hforest, ht]; rfl
    have hframe := hframed id t ht
    exact ⟨t.pose, hpose?, hframe, hframe.endPoint_eq⟩

theorem frames_of_run_branch :
    let program : List (Instruction ℝ) := [.roll 40, .pitch 30, .advance 1, .push, .turnLeft 25,
      .verticate 10, .advance 2, .pop]
    (Pose.start : Pose ℝ).Framed ∧ ∃ out, interpret program Pose.start = .ok out ∧
      out.retired.length = 2 ∧ ∀ id ∈ out.retired, ∃ p, out.pose? id = some p ∧ p.Framed ∧
        p.endPoint = (LeafPattern.startPose p).position := by
  intro program
  have houtline : Outline.run ⟨0, false⟩ program = some ⟨0, false⟩ := rfl
  obtain ⟨out, hout⟩ := interpret_of_run Pose.start houtline
  obtain ⟨s, hrun, -, -, hretired⟩ := interpret_run hout
  have hlength : out.retired.length = 2 := by
    rw [hretired, List.length_reverse, ((Replay.Settled.start Pose.start).run_retired hrun).2]
    rfl
  have hframes := (frames_of_run Pose.Framed.start program).2 out hout
  exact ⟨Pose.Framed.start, out, hout, hlength, hframes⟩

end Arbor
