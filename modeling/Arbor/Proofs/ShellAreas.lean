import Arbor.Proofs.MisshapenFaces

namespace Arbor

theorem Tessellation.getLastD_runningArea (total : ℝ) (ts : List (Triangle ℝ)) :
    (runningArea total ts).getLastD total = total + (ts.map Triangle.area).sum := by
  induction ts generalizing total with
  | nil => simp [runningArea]
  | cons t ts ih =>
      rw [runningArea, List.getLastD_cons, ih, List.map_cons, List.sum_cons, add_assoc]

theorem Tessellation.area_ofMesh (m : Mesh ℝ) :
    (Tessellation.ofMesh m).area = (m.triangles.map Triangle.area).sum :=
  (Tessellation.getLastD_runningArea 0 m.triangles).trans (zero_add _)

namespace Mesh

variable {m : Mesh ℝ} {f : Nat}

theorem foldlM_shellArea {fs : List FaceId} (hfs : ∀ f ∈ fs, (m.corners f).length = 3)
    (total : ℝ) :
    fs.foldlM (fun total f => do
      let area ← m.faceArea f
      return if m.isDegenerate f degenerateTolerance then total else total + area) total =
      .ok (total + (((fs.filter fun f => !m.isDegenerate f degenerateTolerance).filterMap
        fun f => m.triangleOf? (m.corners f)).map Triangle.area).sum) := by
  induction fs generalizing total with
  | nil => simp [Pure.pure, Except.pure]
  | cons f fs ih =>
      obtain ⟨hf, hfs⟩ := List.forall_mem_cons.mp hfs
      obtain ⟨t, ht, htriangle⟩ := triangle_ok hf
      have harea : m.faceArea f = .ok t.area := by rw [faceArea, htriangle]; rfl
      rw [List.foldlM_cons, harea]
      change fs.foldlM _ (if _ then _ else _) = _
      rw [ih hfs]
      by_cases hdegenerate : m.isDegenerate f degenerateTolerance = true
      · simp [hdegenerate]
      · simp [hdegenerate, ht, add_assoc]

theorem shellArea_eq_sum (h : m.Triangular) :
    m.shellArea = .ok (m.triangles.map Triangle.area).sum := by
  have htriangular : ∀ f ∈ m.faceIds, (m.corners f).length = 3 := fun f hf =>
    triangular_iff.mp h f (List.mem_range.mp hf)
  rw [shellArea, foldlM_shellArea htriangular, zero_add, triangles]

end Mesh

namespace Surface

open Mesh

variable {surface : Surface ℝ} {front back area : ℝ} {shell : Mesh ℝ}

theorem triangles_of_extrapolate (h : ∀ p ∈ surface, p.length = 3) (front back : ℝ) :
    ∃ frontCopy offsetCopy backCopy skirt shell,
      surface.merged.2.offsetAlongNormals surface.merged.1 front = .ok frontCopy ∧
      Copies surface.merged.1 surface.merged.2 front frontCopy ∧
      surface.merged.2.offsetAlongNormals surface.merged.1 back = .ok offsetCopy ∧
      offsetCopy.invertAll = .ok backCopy ∧
      surface.merged.2.edgeSurface front back = .ok skirt ∧ skirt.Triangular ∧
      surface.extrapolate front back = .ok shell ∧
      shell.triangles = frontCopy.triangles ++ backCopy.triangles ++ skirt.triangles := by
  have hm := merged_triangles h
  obtain ⟨frontCopy, hfront, hfrontCopy⟩ := yields_iff.mp (hm.copies_yields front)
  obtain ⟨offsetCopy, hback, hbackCopy⟩ := yields_iff.mp (hm.copies_yields back)
  have hmerged : surface.merged.2.Triangular := triangular_iff.mpr hm.contracted.triangular
  obtain ⟨skirt, hskirt, htriangular⟩ := yields_iff.mp
    ((edgeSurface_meets hm.indexed front back).mono (fun _ => id) hmerged.not_misshapen)
  refine ⟨frontCopy, offsetCopy, _, skirt, _, hfront, hfrontCopy, hback,
    invertAll_eq (hbackCopy.triangular hm), hskirt, htriangular,
    extrapolate_eq hfront hback (hbackCopy.triangular hm) hskirt, ?_⟩
  rw [triangles_append (hfrontCopy.indexed.append hbackCopy.indexed.turned),
    triangles_append hfrontCopy.indexed]

theorem area_of_extrapolate (hshell : surface.extrapolate front back = .ok shell)
    (harea : surface.extrapolatedArea front back = .ok area) :
    ∃ offsetCopy backCopy,
      surface.merged.2.offsetAlongNormals surface.merged.1 back = .ok offsetCopy ∧
      offsetCopy.invertAll = .ok backCopy ∧
      (Tessellation.ofMesh shell).area = area + (backCopy.triangles.map Triangle.area).sum := by
  have hlength : ∀ p ∈ surface, p.length = 3 := by
    have hmeets := surface.extrapolate_meets front back
    rwa [hshell] at hmeets
  obtain ⟨frontCopy, offsetCopy, backCopy, skirt, shell', hfront, hfrontCopy, hback, hturned,
    hskirt, htriangular, hshell', htriangles⟩ := triangles_of_extrapolate hlength front back
  have hm := merged_triangles hlength
  obtain rfl := Except.ok.inj (hshell.symm.trans hshell')
  rw [extrapolatedArea_eq hfront hskirt, shellArea_eq_sum htriangular,
    shellArea_eq_sum (triangular_iff.mpr (hfrontCopy.triangular hm))] at harea
  obtain rfl := Except.ok.inj harea
  refine ⟨offsetCopy, backCopy, hback, hturned, ?_⟩
  rw [Tessellation.area_ofMesh, htriangles]
  simp only [List.map_append, List.sum_append]
  ring

/-- A surface can be extruded, and its sensitive area be measured, if and only if all polygons are
triangles; the fault is structural and names one that is none. Without rounding the shell has the
sensitive area and the area of its back copy. -/
theorem extrusions_agree :
    (∀ {α : Type} [Scalar α] (surface : Surface α) (front back : α),
      ((∃ fault, surface.extrapolate front back = .error fault) ↔
        ∃ p ∈ surface, p.length ≠ 3) ∧
      ((∃ fault, surface.extrapolatedArea front back = .error fault) ↔
        ∃ p ∈ surface, p.length ≠ 3) ∧
      ∀ fault, surface.extrapolate front back = .error fault ∨
        surface.extrapolatedArea front back = .error fault →
          Misshapen (surface.map List.length) fault) ∧
    (∀ (surface : Surface Float) (front back : Float) fault,
      surface.extrapolate front back = .error fault ∨
        surface.extrapolatedArea front back = .error fault →
          ∃ text, fault.message = Fault.structural text) ∧
    ∀ (surface : Surface ℝ) (front back : ℝ) shell area,
      surface.extrapolate front back = .ok shell →
      surface.extrapolatedArea front back = .ok area →
      ∃ offsetCopy backCopy,
        surface.merged.2.offsetAlongNormals surface.merged.1 back = .ok offsetCopy ∧
        offsetCopy.invertAll = .ok backCopy ∧
        (Tessellation.ofMesh shell).area =
          area + (backCopy.triangles.map Triangle.area).sum := by
  have hmisshapen {α : Type} [Scalar α] (surface : Surface α) (front back : α) (fault : Fault α)
      (h : surface.extrapolate front back = .error fault ∨
        surface.extrapolatedArea front back = .error fault) :
      Misshapen (surface.map List.length) fault := by
    rcases h with h | h
    · have hmeets := surface.extrapolate_meets front back
      rwa [h] at hmeets
    · have hmeets := surface.extrapolatedArea_meets front back
      rwa [h] at hmeets
  refine ⟨fun surface front back => ⟨?_, ?_, hmisshapen surface front back⟩,
    fun surface front back fault h =>
      structural_of_misshapen (hmisshapen surface front back fault h),
    fun surface front back shell area => area_of_extrapolate⟩
  · exact fails_iff (surface.extrapolate_meets front back) fun h =>
      triangles_extrapolate h front back
  · exact fails_iff (surface.extrapolatedArea_meets front back) fun h =>
      triangles_extrapolatedArea h front back

theorem extrusions_agree_unitTriangle :
    (∃ fault, extrapolate ([[]] : Surface Float) 1 (-1) = .error fault) ∧
    ∃ (shell : Mesh ℝ) (area : ℝ) (backCopy : Mesh ℝ),
      unitTriangle.extrapolate 1 (-1) = .ok shell ∧
      unitTriangle.extrapolatedArea 1 (-1) = .ok area ∧
      (Tessellation.ofMesh shell).area = area + (backCopy.triangles.map Triangle.area).sum := by
  obtain ⟨hfails, -, harea⟩ := extrusions_agree
  refine ⟨(hfails _ 1 (-1)).1.mpr ⟨[], List.mem_singleton_self _, by decide⟩, ?_⟩
  have h : ∀ p ∈ unitTriangle, p.length = 3 := by simp [unitTriangle]
  obtain ⟨shell, hshell, -⟩ := yields_iff.mp (triangles_extrapolate h 1 (-1))
  obtain ⟨area, hsensitive, -⟩ := yields_iff.mp (triangles_extrapolatedArea h 1 (-1))
  obtain ⟨_, backCopy, -, -, hsum⟩ := harea unitTriangle 1 (-1) shell area hshell hsensitive
  exact ⟨shell, area, backCopy, hshell, hsensitive, hsum⟩

end Surface

end Arbor
