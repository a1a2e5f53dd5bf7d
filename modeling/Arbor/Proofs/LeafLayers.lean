import Arbor.Proofs.ClosedShells
import Arbor.Proofs.PlantPrograms

namespace Arbor

variable {α : Type} [Scalar α]

namespace Mesh

variable {m : Mesh α}

theorem faceArea_ok {f : FaceId} (hf : (m.corners f).length = 3) :
    ∃ area, m.faceArea f = .ok area := by
  obtain ⟨n, hn⟩ := faceNormal_ok hf
  unfold faceNormal at hn
  cases ht : m.triangle f with
  | error fault =>
      rw [ht] at hn
      cases hn
  | ok t => exact ⟨t.area, by rw [faceArea, ht]; rfl⟩

theorem shellArea_yields (h : ∀ f < m.faces.size, (m.corners f).length = 3) :
    Yields (fun _ => True) m.shellArea := by
  apply yields_foldlM trivial
  intro f hf total _
  obtain ⟨area, harea⟩ := faceArea_ok (h f (List.mem_range.mp hf))
  rw [harea]
  trivial

end Mesh

namespace Surface

open Mesh

variable {surface : Surface α}

theorem triangles_extrapolate (h : ∀ p ∈ surface, p.length = 3) (front back : α) :
    Yields (fun _ => True) (surface.extrapolate front back) :=
  (extrapolate_yields (Prod.eta _).symm (merged_triangles h) front back).mono
    (fun _ _ => trivial) fun _ => id

theorem triangles_extrapolatedArea (h : ∀ p ∈ surface, p.length = 3) (front back : α) :
    Yields (fun _ => True) (surface.extrapolatedArea front back) := by
  have hmerged := merged_triangles h
  generalize hm : surface.merged = merged at hmerged
  obtain ⟨kept, m⟩ := merged
  have hcopies : ∀ t ∈ m.faces.toList.map (List.map (·, Side.front)), t.length = 3 := by
    intro t ht
    obtain ⟨corners, hcorners, rfl⟩ := List.mem_map.mp ht
    rw [List.length_map, hmerged.length_of_mem hcorners]
  have hstrips : ∀ t ∈ [] ++ m.boundaryEdges.flatMap stripTriangles, t.length = 3 := by
    intro t ht
    obtain ⟨e, -, ht⟩ := List.mem_flatMap.mp ht
    exact length_stripTriangles e t ht
  unfold extrapolatedArea
  rw [hm]
  refine (hmerged.offset_yields front back .front).bind fun frontCopy hfront => ?_
  refine (hmerged.foldlM_addSkirt_yields (fun e => hmerged.boundary_kept) .empty
    (List.forall_mem_nil _)).bind fun skirt hskirt => ?_
  refine (shellArea_yields fun f => hfront.corners_length hcopies).bind fun area _ => ?_
  exact (shellArea_yields fun f => hskirt.corners_length hstrips).bind fun _ _ => trivial

end Surface

namespace LeafPattern

variable {leaf : Plant LeafSpecies α} {pattern : LeafPattern α} {surface : Surface α}

theorem length_of_isUsable {p : List (Vec3 α)} (h : isUsable p = true) : p.length = 3 := by
  match p with
  | [_, _, _] => rfl
  | [] | [_] | [_, _] | _ :: _ :: _ :: _ :: _ => cases h

theorem length_of_surface {pose : Pose α} (h : pattern.surface pose = .ok surface) :
    ∀ p ∈ surface, p.length = 3 := by
  obtain ⟨out, -, hout⟩ := bind_eq_ok.mp h
  obtain rfl := Except.ok.inj hout
  exact fun p hp => length_of_isUsable (List.mem_filter.mp hp).2

theorem surface_yields (h : ofPlant leaf = .ok pattern) (pose : Pose α) :
    Yields (fun surface : Surface α => ∀ p ∈ surface, p.length = 3) (pattern.surface pose) := by
  obtain ⟨out, hout⟩ := Plant.accepted leaf.leaf_sound (program_ofPlant h) (startPose pose)
  have hsurface : pattern.surface pose = .ok (out.polygons.filter isUsable) := by
    rw [LeafPattern.surface, hout]
    rfl
  exact yields_iff.mpr ⟨_, hsurface, length_of_surface hsurface⟩

theorem layer_yields (h : ∀ p ∈ surface, p.length = 3) (l : Layer) :
    Yields (fun _ => True) (pattern.layer surface l) :=
  (Surface.triangles_extrapolate h _ _).map fun _ _ => trivial

theorem shells_of_surface {pose : Pose α} (h : pattern.surface pose = .ok surface) :
    Yields (fun _ => True) (pattern.shells pose) := by
  have htriangles := length_of_surface h
  unfold shells
  rw [h]
  refine (layer_yields htriangles .front).bind fun _ _ => ?_
  refine (layer_yields htriangles .sensitive).bind fun _ _ => ?_
  refine (layer_yields htriangles .back).bind fun _ _ => ?_
  refine (layer_yields htriangles .envelope).bind fun _ _ => ?_
  exact (Surface.triangles_extrapolatedArea htriangles _ _).bind fun _ _ => trivial

theorem shells_yields (h : ofPlant leaf = .ok pattern) (pose : Pose α) :
    Yields (fun _ => True) (pattern.shells pose) := by
  obtain ⟨surface, hsurface, -⟩ := yields_iff.mp (surface_yields h pose)
  exact shells_of_surface hsurface

theorem extents?_yields (h : ofPlant leaf = .ok pattern) (pose : Pose α) :
    Yields (fun _ => True) (pattern.extents? pose) := by
  have henvelope : Yields (fun _ => True) (pattern.envelope pose) :=
    (surface_yields h pose).bind fun surface htriangles => layer_yields htriangles .envelope
  exact henvelope.map fun _ _ => trivial

end LeafPattern

end Arbor
