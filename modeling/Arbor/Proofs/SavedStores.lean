import Arbor.Proofs.ComparedStores
import Arbor.Proofs.HiddenRanges
import Arbor.Proofs.PrintedDocuments

namespace Arbor

namespace Parameter

theorem ofJson?_toJson {ν : Type} {read : Json → Option ν} {write : ν → Json}
    (hread : ∀ v, read (write v) = some v) (p : Parameter ν) :
    ofJson? read (p.toJson write) = some p := by
  have hfields : (p.toJson write).fields? ["name", "value", "minimum", "maximum"] =
      some [some (.text p.name), some (write p.value), some (write p.minimum),
        some (write p.maximum)] := rfl
  rw [ofJson?, hfields]
  simp only [Option.bind_eq_bind, Option.bind_some, hread]
  rfl

theorem printable_toJson {ν : Type} {write : ν → Json} {p : Parameter ν}
    (hvalue : (write p.value).Printable) (hminimum : (write p.minimum).Printable)
    (hmaximum : (write p.maximum).Printable) : (p.toJson write).Printable := by
  refine .record fun f hf => ?_
  simp only [List.mem_cons, List.not_mem_nil, or_false] at hf
  rcases hf with rfl | rfl | rfl | rfl
  · exact .text p.name
  · exact hvalue
  · exact hminimum
  · exact hmaximum

end Parameter

theorem int64?_integer (n : Int64) : (Json.integer n.toInt).int64? = some n := by
  rw [Json.int64?, if_pos ⟨n.le_toInt, Int64.le_iff_toInt_le.mp n.le_maxValue⟩, Int64.ofInt_toInt]

theorem printable_integer (n : Int64) : (Json.integer n.toInt).Printable :=
  .integer n.le_toInt (n.toInt_lt.trans (by decide))

namespace Store

theorem rows?_list {ν : Type} {read : Json → Option ν} {write : ν → Json}
    (hread : ∀ v, read (write v) = some v) (rows : Rows ν) :
    rows? read (.list (rows.map (Parameter.toJson write))) = some rows :=
  Json.mapM_map_eq_some (Parameter.ofJson?_toJson hread) rows

theorem ofJson?_toJson (s : Store Float) : ofJson? s.toJson = some s := by
  have hfields : s.toJson.fields? ["doubles", "integers"] =
      some [some (.list (s.doubles.map (Parameter.toJson .double))),
        some (.list (s.integers.map (Parameter.toJson fun n => .integer n.toInt)))] := rfl
  have hread (x : Float) : Json.double? (.double x) = some x := rfl
  rw [ofJson?, hfields]
  simp only [Option.bind_eq_bind, Option.bind_some, Json.orDefault?, rows?_list hread,
    rows?_list int64?_integer]

theorem printable_toJson {s : Store Float} (h : s.Finite) : s.toJson.Printable := by
  refine .record fun f hf => ?_
  simp only [List.mem_cons, List.not_mem_nil, or_false] at hf
  rcases hf with rfl | rfl
  · refine .list fun v hv => ?_
    obtain ⟨p, hp, rfl⟩ := List.mem_map.mp hv
    obtain ⟨hvalue, hminimum, hmaximum⟩ := h p hp
    exact Parameter.printable_toJson (.double hvalue) (.double hminimum) (.double hmaximum)
  · refine .list fun v hv => ?_
    obtain ⟨p, hp, rfl⟩ := List.mem_map.mp hv
    exact Parameter.printable_toJson (printable_integer _) (printable_integer _)
      (printable_integer _)

theorem ofDocument_document {s : Store Float} (hfinite : s.Finite) (hvalid : s.validate = .ok ()) :
    ofDocument s.document = .ok s := by
  refine ofDocument_eq_ok.mpr ⟨?_, hvalid⟩
  rw [document, Json.parse?_pretty (printable_toJson hfinite), Option.bind_some, ofJson?_toJson]

end Store

namespace Plant

variable {σ : Type} [Species σ]

theorem ofJson?_toJson {p : Plant σ Float}
    (hspecies : Species.ofJson? (Species.toJson p.species) = some p.species) :
    ofJson? (.record [("species", Species.toJson p.species), ("parameters", p.parameters.toJson)]) =
      some p := by
  have hfields (v w : Json) : (Json.record [("species", v), ("parameters", w)]).fields?
      ["species", "parameters"] = some [some v, some w] := rfl
  rw [ofJson?, hfields]
  simp only [Option.bind_eq_bind, Option.bind_some, hspecies, Store.ofJson?_toJson]

theorem ofDocument_document {p : Plant σ Float}
    (hspecies : Species.ofJson? (Species.toJson p.species) = some p.species)
    (hfinite : p.parameters.Finite) (hvalid : p.parameters.validate = .ok ()) :
    ofDocument p.document = .ok p := by
  have hprintable : (Json.record [("species", Species.toJson p.species),
      ("parameters", p.parameters.toJson)]).Printable := by
    refine .record fun f hf => ?_
    simp only [List.mem_cons, List.not_mem_nil, or_false] at hf
    rcases hf with rfl | rfl
    · exact .text _
    · exact Store.printable_toJson hfinite
  refine ofDocument_eq_ok.mpr ⟨?_, hvalid⟩
  rw [document, Json.parse?_pretty hprintable, Option.bind_some, ofJson?_toJson hspecies]

omit [Species σ] in
theorem same_self [DecidableEq σ] (p : Plant σ Float) : p.same p = true ↔ p.parameters.Finite := by
  rw [same, beq_self_eq_true, Bool.true_and, Store.same_self]

end Plant

theorem TreeSpecies.ofJson?_toJson (species : TreeSpecies) :
    Species.ofJson? (Species.toJson species) = some species := by
  cases species <;> rfl

theorem LeafSpecies.ofJson?_toJson (species : LeafSpecies) :
    Species.ofJson? (Species.toJson species) = some species := by
  cases species <;> rfl

namespace Store

/-- A store of finite doubles in ranges that are in order comes back from its document, with any
names, and so does a plant of any species with such parameters. A draw leaves both stores as one
store; it is the same as itself as long as the drawn doubles are finite, which they are not in a
range that is wider than all doubles. -/
theorem saved_and_drawn {s : Store Float} (hfinite : s.Finite) (hvalid : s.validate = .ok ()) :
    (ofDocument s.document = .ok s ∧ s.same s = true) ∧
    (∀ species : TreeSpecies, let p : Plant TreeSpecies Float := ⟨species, s⟩
      Plant.ofDocument p.document = .ok p ∧ p.same p = true) ∧
    (∀ species : LeafSpecies, let p : Plant LeafSpecies Float := ⟨species, s⟩
      Plant.ofDocument p.document = .ok p ∧ p.same p = true) ∧
    ∀ t, ofDocument s.document = .ok t → ∀ seed,
      let original := (randomize seed).on s
      let reloaded := (randomize seed).on t
      reloaded = original ∧
      (original.2.same reloaded.2 = true ↔ ∀ p ∈ original.2.doubles, p.value.isFinite = true) ∧
      ((∃ p ∈ s.doubles, (p.maximum - p.minimum).isFinite = false) → original.1 = .ok () →
        original.2.same reloaded.2 = false) := by
  have hsame := (same_self s).mpr hfinite
  have hstore := ofDocument_document hfinite hvalid
  refine ⟨⟨hstore, hsame⟩, fun species => ?_, fun species => ?_, fun t ht seed => ?_⟩
  · exact ⟨Plant.ofDocument_document species.ofJson?_toJson hfinite hvalid,
      (Plant.same_self _).mpr hfinite⟩
  · exact ⟨Plant.ofDocument_document species.ofJson?_toJson hfinite hvalid,
      (Plant.same_self _).mpr hfinite⟩
  · obtain rfl : s = t := Except.ok.inj (hstore.symm.trans ht)
    refine ⟨rfl, same_randomize hfinite seed, fun ⟨p, hp, hwide⟩ hdrawn => ?_⟩
    exact not_same_randomize hp hwide (Prod.ext hdrawn rfl)

theorem saved_and_drawn_mixed :
    let s : Store Float :=
      ⟨[⟨"Größe \"1\"\n", 0.1, -1e-7, 1.7e308⟩, ⟨"", 1e21, 0.0, 1e21⟩, ⟨"", 2.0, 2.0, 3.0⟩],
        [⟨"n", -1, -9223372036854775808, 9223372036854775807⟩]⟩
    s.Finite ∧ s.validate = .ok () ∧ ofDocument s.document = .ok s ∧ s.same s = true ∧
      Plant.ofDocument (Plant.document ⟨TreeSpecies.helical, s⟩) = .ok ⟨TreeSpecies.helical, s⟩ ∧
      Plant.ofDocument (Plant.document ⟨LeafSpecies.rose, s⟩) = .ok ⟨LeafSpecies.rose, s⟩ := by
  intro s
  have hfinite : s.Finite := by
    intro p hp
    simp only [s, List.mem_cons, List.not_mem_nil, or_false] at hp
    rcases hp with rfl | rfl | rfl <;>
      exact ⟨by decide +kernel, by decide +kernel, by decide +kernel⟩
  have hvalid : s.validate = .ok () := (validate_eq_ok s).mpr (by decide +kernel)
  obtain ⟨hstore, htrees, hleaves, -⟩ := saved_and_drawn hfinite hvalid
  exact ⟨hfinite, hvalid, hstore.1, hstore.2, (htrees .helical).1, (hleaves .rose).1⟩

/-- A reloaded store can differ from the original once both are drawn with one seed. -/
theorem unequal_once_drawn :
    let s : Store Float := ⟨[⟨"x", 0.0, -1.7e308, 1.7e308⟩], []⟩
    s.Finite ∧ ofDocument s.document = .ok s ∧ ∀ seed, ∃ drawn,
      (randomize seed).on s = (.ok (), drawn) ∧ drawn.same drawn = false := by
  intro s
  have hfinite : s.Finite := by
    intro p hp
    obtain rfl := List.mem_singleton.mp hp
    exact ⟨by decide +kernel, by decide +kernel, by decide +kernel⟩
  have hvalid : s.validate = .ok () := (validate_eq_ok s).mpr (by decide +kernel)
  have hwide : ((1.7e308 : Float) - -1.7e308).isFinite = false := by decide +kernel
  exact ⟨hfinite, ofDocument_document hfinite hvalid, fun seed =>
    ⟨((randomize seed).on s).2, rfl, not_same_randomize (s := s) List.mem_cons_self hwide rfl⟩⟩

end Store

end Arbor
