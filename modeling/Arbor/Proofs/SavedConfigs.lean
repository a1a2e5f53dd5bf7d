import Arbor.Parameter.Config
import Arbor.Proofs.SavedStores

namespace Arbor

open Float.Model Float.Model.UnpackedFloat Rounding in
theorem beq_self_of_isFinite {x : Float} (h : x.isFinite = true) : (x == x) = true := by
  have hbeq : (x == x) = (x.toModel.unpack.compare x.toModel.unpack == some .eq) := rfl
  rw [hbeq, Dyadic.unpack_eq h]
  split
  next => rfl
  next => cases signOf x <;> simp [UnpackedFloat.compare]

theorem list_beq_self {β : Type} [BEq β] {xs : List β} (h : ∀ x ∈ xs, (x == x) = true) :
    (xs == xs) = true := by
  induction xs with
  | nil => rfl
  | cons x xs ih =>
      obtain ⟨hx, hxs⟩ := List.forall_mem_cons.mp h
      rw [List.cons_beq_cons, hx, ih hxs, Bool.and_self]

theorem option_beq_self {β : Type} [BEq β] {o : Option β} (h : ∀ x ∈ o, (x == x) = true) :
    (o == o) = true := by
  cases o with
  | none => rfl
  | some x => exact h x rfl

namespace Setting

def Finite : Setting Float → Prop
  | integer _ => True
  | double x => x.isFinite = true

theorem ofJson?_toJson (v : Setting Float) : ofJson? v.toJson = some v := by
  cases v with
  | integer n =>
      have hint : (Setting.integer n : Setting Float).toJson.int64? = some n := int64?_integer n
      rw [ofJson?, hint]
  | double x => rfl

theorem optional?_toJson (b : Option (Setting Float)) :
    Json.optional? ofJson? (b.map toJson) = some b := by
  cases b with
  | none => rfl
  | some v =>
      have hread : Json.optional? ofJson? (some v.toJson) = (ofJson? v.toJson).map some := by
        cases v <;> rfl
      rw [Option.map_some, hread, ofJson?_toJson, Option.map_some]

theorem printable_toJson {v : Setting Float} (h : v.Finite) : v.toJson.Printable := by
  cases v with
  | integer n => exact printable_integer n
  | double x => exact .double h

theorem beq_self {v : Setting Float} (h : v.Finite) : (v == v) = true := by
  cases v with
  | integer n => exact beq_self_eq_true n
  | double x => exact beq_self_of_isFinite h

end Setting

namespace Entry

structure Finite (e : Entry Float) : Prop where
  value : e.value.Finite
  minimum : ∀ b ∈ e.minimum, b.Finite
  maximum : ∀ b ∈ e.maximum, b.Finite

theorem fields?_toJson (e : Entry Float) :
    e.toJson.fields? ["name", "value", "minimum", "maximum"] =
      some [some (.text e.name), some e.value.toJson, e.minimum.map Setting.toJson,
        e.maximum.map Setting.toJson] := by
  obtain ⟨name, value, minimum, maximum⟩ := e
  cases minimum <;> cases maximum <;> rfl

theorem ofJson?_toJson (e : Entry Float) : ofJson? e.toJson = some e := by
  rw [ofJson?, fields?_toJson]
  simp only [Option.bind_eq_bind, Option.bind_some, Json.text?, Setting.ofJson?_toJson,
    Setting.optional?_toJson]

theorem printable_toJson {e : Entry Float} (h : e.Finite) : e.toJson.Printable := by
  have hbound (name : String) {b : Option (Setting Float)} (hb : ∀ v ∈ b, v.Finite) :
      ∀ f ∈ (b.map fun v => (name, v.toJson)).toList, f.2.Printable := by
    intro f hf
    obtain ⟨v, hv, rfl⟩ := Option.map_eq_some_iff.mp (Option.mem_toList.mp hf)
    exact Setting.printable_toJson (hb v hv)
  refine .record fun f hf => ?_
  rcases List.mem_append.mp hf with hf | hf
  · rcases List.mem_append.mp hf with hf | hf
    · rcases List.mem_pair.mp hf with rfl | rfl
      · exact .text _
      · exact Setting.printable_toJson h.value
    · exact hbound "minimum" h.minimum f hf
  · exact hbound "maximum" h.maximum f hf

theorem beq_self {e : Entry Float} (h : e.Finite) : (e == e) = true := by
  have hparts : (e == e) = (e.name == e.name && (e.value == e.value &&
      (e.minimum == e.minimum && e.maximum == e.maximum))) := rfl
  rw [hparts, beq_self_eq_true, Setting.beq_self h.value,
    option_beq_self fun b hb => Setting.beq_self (h.minimum b hb),
    option_beq_self fun b hb => Setting.beq_self (h.maximum b hb)]
  rfl

end Entry

namespace Config

variable {α : Type}

def Distinct (c : Config α) : Prop := (c.species.map Prod.fst).Nodup

theorem put_of_mem {name : String} {es : List (Entry α)}
    {species : List (String × List (Entry α))} (h : name ∈ species.map Prod.fst) :
    (put name es species).map Prod.fst = species.map Prod.fst := by
  induction species with
  | nil => cases h
  | cons p species ih =>
      obtain ⟨n, fs⟩ := p
      rw [put]
      split
      next hn => rw [List.map_cons, List.map_cons, hn]
      next hn =>
        rw [List.map_cons, List.map_cons, ih ((List.mem_cons.mp h).resolve_left (Ne.symm hn))]

theorem put_of_not_mem {name : String} {es : List (Entry α)}
    {species : List (String × List (Entry α))} (h : name ∉ species.map Prod.fst) :
    put name es species = species ++ [(name, es)] := by
  induction species with
  | nil => rfl
  | cons p species ih =>
      obtain ⟨n, fs⟩ := p
      obtain ⟨hn, hrest⟩ := not_or.mp fun hmem => h (List.mem_cons.mpr hmem)
      rw [put, if_neg (Ne.symm hn), ih hrest, List.cons_append]

theorem nodup_put {name : String} {es : List (Entry α)}
    {species : List (String × List (Entry α))} (h : (species.map Prod.fst).Nodup) :
    ((put name es species).map Prod.fst).Nodup := by
  by_cases hmem : name ∈ species.map Prod.fst
  · rwa [put_of_mem hmem]
  · rw [put_of_not_mem hmem, List.map_append]
    simpa using h.concat hmem

theorem Distinct.insert {c : Config α} (h : c.Distinct) (name : String) (e : Entry α) :
    (c.insert name e).Distinct := nodup_put h

/-- What has been read of distinct species is kept in the order of reading. -/
theorem foldl_put {read species : List (String × List (Entry α))}
    (h : ((read ++ species).map Prod.fst).Nodup) :
    species.foldl (fun all (name, es) => put name es all) read = read ++ species := by
  induction species generalizing read with
  | nil => rw [List.foldl_nil, List.append_nil]
  | cons p species ih =>
      obtain ⟨name, es⟩ := p
      have hnew : name ∉ read.map Prod.fst := by
        rw [List.map_append, List.map_cons, List.nodup_append] at h
        exact fun hmem => h.2.2 name hmem name List.mem_cons_self rfl
      rw [List.foldl_cons]
      dsimp only
      rw [put_of_not_mem hnew, ih (by rwa [← List.append_cons]), ← List.append_cons]

theorem distinct_of_ofDocument {text : String} {c : Config Float} (h : ofDocument text = .ok c) :
    c.Distinct := by
  unfold ofDocument at h
  split at h
  next => cases h
  next hread =>
    cases h
    obtain ⟨v, -, hv⟩ := Option.bind_eq_some_iff.mp hread
    cases v with
    | record fields =>
        obtain ⟨species, -, hc⟩ := Option.bind_eq_some_iff.mp hv
        cases hc
        exact List.foldlRecOn (motive := fun all : List (String × List (Entry Float)) =>
          (all.map Prod.fst).Nodup) _ _ List.nodup_nil fun all h _ _ => nodup_put h
    | _ => cases hv

theorem entries?_eq_some {c : Config α} (h : c.Distinct) {name : String} {es : List (Entry α)} :
    c.entries? name = some es ↔ (name, es) ∈ c.species := by
  obtain ⟨species⟩ := c
  change (species.map Prod.fst).Nodup at h
  change species.lookup name = some es ↔ (name, es) ∈ species
  induction species with
  | nil => exact ⟨nofun, nofun⟩
  | cons p species ih =>
      obtain ⟨n, fs⟩ := p
      obtain ⟨hnew, hrest⟩ := List.nodup_cons.mp h
      rw [List.lookup_cons, List.mem_cons, Prod.mk.injEq]
      by_cases hn : name = n
      · subst hn
        have habsent : (name, es) ∉ species := fun hmem => hnew (List.mem_map.mpr ⟨_, hmem, rfl⟩)
        simp [habsent, eq_comm]
      · rw [beq_eq_false_iff_ne.mpr hn, ih hrest]
        simp [hn]

theorem entries?_perm {c d : Config α} (hc : c.Distinct) (h : d.species.Perm c.species) :
    d.entries? = c.entries? := by
  have hd : d.Distinct := (h.map Prod.fst).nodup_iff.mpr hc
  funext name
  refine Option.ext fun es => ?_
  rw [entries?_eq_some hd, entries?_eq_some hc, h.mem_iff]

def Finite (c : Config Float) : Prop := ∀ p ∈ c.species, ∀ e ∈ p.2, e.Finite

theorem ofJson?_toJson {c : Config Float} (h : c.Distinct) : ofJson? c.toJson = some c := by
  have hnodup : (([] ++ c.species).map Prod.fst).Nodup := h
  rw [toJson, ofJson?]
  dsimp only
  rw [Json.mapM_map_eq_some fun p => ?_, Option.bind_eq_bind, Option.bind_some, foldl_put hnodup]
  · rfl
  · have hread := Json.mapM_map_eq_some Entry.ofJson?_toJson p.2
    simp only [Json.list?, Option.bind_eq_bind, Option.bind_some, hread]

theorem printable_toJson {c : Config Float} (h : c.Finite) : c.toJson.Printable := by
  refine .record fun f hf => ?_
  obtain ⟨⟨name, es⟩, hp, rfl⟩ := List.mem_map.mp hf
  refine .list fun v hv => ?_
  obtain ⟨e, he, rfl⟩ := List.mem_map.mp hv
  exact Entry.printable_toJson (h _ hp e he)

theorem ofDocument_document {c : Config Float} (hdistinct : c.Distinct) (hfinite : c.Finite) :
    ofDocument c.document = .ok c := by
  rw [ofDocument, document, Json.parse?_pretty (printable_toJson hfinite), Option.bind_some,
    ofJson?_toJson hdistinct]

/-- A configuration of finite doubles comes back from its document, in whichever order its species
are written: the entries of every species are the same ones, equal to themselves, and they change
every store alike. -/
theorem reloaded_of_saved {c saved : Config Float} (hdistinct : c.Distinct) (hfinite : c.Finite)
    (hsaved : saved.species.Perm c.species) :
    ofDocument saved.document = .ok saved ∧
    (∀ name, saved.entries? name = c.entries? name ∧
      (saved.entries? name == c.entries? name) = true) ∧
    ∀ name s, (saved.applyTo name).on s = (c.applyTo name).on s := by
  have hentries := entries?_perm hdistinct hsaved
  refine ⟨ofDocument_document ((hsaved.map Prod.fst).nodup_iff.mpr hdistinct) fun p hp => ?_,
    fun name => ⟨congrFun hentries name, ?_⟩, fun name s => ?_⟩
  · exact hfinite p (hsaved.mem_iff.mp hp)
  · rw [hentries]
    refine option_beq_self fun es hes => list_beq_self fun e he => ?_
    exact Entry.beq_self (hfinite _ ((entries?_eq_some hdistinct).mp hes) e he)
  · rw [applyTo, applyTo, hentries]

/-- Whole doubles, a zero with a sign and the ends of the integers, under two species that are
written in the other order. -/
theorem reloaded_of_inserted :
    let turning : Entry Float := ⟨"turningAngle", .double 14, some (.double (-0)), none⟩
    let count : Entry Float := ⟨"iterationNumber", .integer (-9223372036854775808), none,
      some (.integer 9223372036854775807)⟩
    let width : Entry Float := ⟨"Größe \"1\"", .double 1e16, some (.integer 3), some (.double 1e300)⟩
    let c := ((({} : Config Float).insert "helical" turning).insert "rose" count).insert
      "helical" width
    let saved : Config Float := ⟨[("rose", [count]), ("helical", [turning, width])]⟩
    c.Distinct ∧ c.Finite ∧ saved.species.Perm c.species ∧ ofDocument saved.document = .ok saved ∧
      saved.entries? "helical" = some [turning, width] ∧
      ∀ s, (saved.applyTo "rose").on s = (c.applyTo "rose").on s := by
  intro turning count width c saved
  have hdistinct : c.Distinct :=
    ((Distinct.insert (c := {}) List.nodup_nil "helical" turning).insert "rose" count).insert
      "helical" width
  have hspecies : c.species = [("helical", [turning, width]), ("rose", [count])] := rfl
  have hturning : turning.Finite := by
    refine ⟨?_, ?_, nofun⟩
    · exact (by decide +kernel : (14 : Float).isFinite = true)
    · rintro b ⟨⟩
      exact (by decide +kernel : (-0 : Float).isFinite = true)
  have hcount : count.Finite := by
    refine ⟨trivial, nofun, ?_⟩
    rintro b ⟨⟩
    trivial
  have hwidth : width.Finite := by
    refine ⟨?_, ?_, ?_⟩
    · exact (by decide +kernel : (1e16 : Float).isFinite = true)
    · rintro b ⟨⟩
      trivial
    · rintro b ⟨⟩
      exact (by decide +kernel : (1e300 : Float).isFinite = true)
  have hfinite : c.Finite := by
    rw [Config.Finite, hspecies]
    simp [hturning, hcount, hwidth]
  have hsaved : saved.species.Perm c.species := hspecies ▸ List.Perm.swap ..
  obtain ⟨hread, hentries, happly⟩ := reloaded_of_saved hdistinct hfinite hsaved
  exact ⟨hdistinct, hfinite, hsaved, hread, rfl, happly "rose"⟩

end Config

end Arbor
