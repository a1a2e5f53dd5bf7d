import Arbor.Proofs.RowChanges

namespace Arbor

namespace Rows

variable {ν : Type} {name : String} {p q : Parameter ν}

def put (rows : Rows ν) (p : Parameter ν) : Rows ν := rows.upsert p.name (fun _ => p) p

theorem names_cons (p : Parameter ν) (ps : Rows ν) : names (p :: ps) = p.name :: names ps := rfl

theorem find?_cons (p : Parameter ν) (ps : Rows ν) (name : String) :
    find? (p :: ps) name = if p.name = name then some p else find? ps name := by
  rw [find?, List.find?_cons]
  split
  next h => rw [if_pos (beq_iff_eq.mp h)]
  next h => rw [if_neg (beq_eq_false_iff_ne.mp h), find?]

theorem name_of_find? {rows : Rows ν} (h : rows.find? name = some p) : p.name = name := by
  have hname := List.find?_some (p := fun p : Parameter ν => p.name == name) h
  exact beq_iff_eq.mp hname

theorem find?_eq_getElem? (rows : Rows ν) (name : String) :
    rows.find? name = rows[rows.names.idxOf name]? := by
  induction rows with
  | nil => rfl
  | cons p ps ih =>
      rw [find?_cons, names_cons, List.idxOf_cons]
      split
      next h => rw [beq_iff_eq.mpr h, cond_true, List.getElem?_cons_zero]
      next h => rw [beq_eq_false_iff_ne.mpr h, cond_false, List.getElem?_cons_succ, ih]

theorem put_cons (p q : Parameter ν) (ps : Rows ν) :
    put (p :: ps) q = if p.name = q.name then q :: ps else p :: put ps q := rfl

theorem find?_put (rows : Rows ν) (p : Parameter ν) (name : String) :
    (rows.put p).find? name = if p.name = name then some p else rows.find? name := by
  induction rows with
  | nil => exact find?_cons p [] name
  | cons q qs ih =>
      rw [put_cons]
      split
      next h =>
        rw [find?_cons, find?_cons, h]
        split
        · rfl
        · rfl
      next h =>
        rw [find?_cons, find?_cons, ih]
        split
        next hq =>
          rw [if_neg]
          exact fun hp => h (hq.trans hp.symm)
        next => rfl

theorem names_put (rows : Rows ν) (p : Parameter ν) :
    (rows.put p).names = addName p.name rows.names :=
  names_upsert (fun _ _ => rfl) rfl rows

theorem getElem?_put (rows : Rows ν) (p : Parameter ν) (i : Nat) :
    (rows.put p)[i]? = if i = rows.names.idxOf p.name then some p else rows[i]? := by
  induction rows generalizing i with
  | nil => cases i <;> rfl
  | cons q qs ih =>
      rw [put_cons, names_cons, List.idxOf_cons]
      split
      next h =>
        rw [beq_iff_eq.mpr h, cond_true]
        cases i <;> rfl
      next h =>
        rw [beq_eq_false_iff_ne.mpr h, cond_false]
        cases i with
        | zero => rfl
        | succ i => simp [ih]

theorem put_put (h : p.name = q.name) (rows : Rows ν) : (rows.put p).put q = rows.put q := by
  induction rows with
  | nil =>
      change put [p] q = [q]
      rw [put_cons, if_pos h]
  | cons r rs ih =>
      rw [put_cons r p, put_cons r q, h]
      split
      · rw [put_cons, if_pos h]
      next hr => rw [put_cons, if_neg hr, ih]

theorem put_eq_self_iff {rows : Rows ν} : rows.put p = rows ↔ rows.find? p.name = some p := by
  induction rows with
  | nil => exact iff_of_false nofun nofun
  | cons q qs ih =>
      rw [put_cons, find?_cons]
      split
      · rw [List.cons.injEq, Option.some.injEq, eq_comm]
        exact and_iff_left rfl
      · rw [List.cons.injEq, ← ih]
        exact and_iff_right rfl

theorem upsert_eq_put {change : Parameter ν → Parameter ν} {new : Parameter ν}
    (hchange : ∀ p, p.name = name → (change p).name = name) (hnew : new.name = name)
    (rows : Rows ν) :
    rows.upsert name change new = rows.put ((rows.find? name).elim new change) := by
  induction rows with
  | nil => rfl
  | cons p ps ih =>
      rw [upsert, find?_cons]
      split
      next h =>
        rw [Option.elim_some, put_cons, if_pos (h.trans (hchange p h).symm)]
      next h =>
        have hname : ((find? ps name).elim new change).name = name := by
          cases hfind : find? ps name with
          | none => exact hnew
          | some q => exact hchange q (name_of_find? hfind)
        rw [put_cons, hname, if_neg h, ih]

def putAll (rows written : Rows ν) : Rows ν := written.foldl put rows

theorem putAll_cons (rows : Rows ν) (p : Parameter ν) (written : Rows ν) :
    rows.putAll (p :: written) = (rows.put p).putAll written := rfl

theorem find?_putAll (rows written : Rows ν) (name : String) :
    (rows.putAll written).find? name =
      (find? written.reverse name).or (rows.find? name) := by
  induction written generalizing rows with
  | nil => rfl
  | cons p written ih =>
      rw [putAll_cons, ih, find?_put, List.reverse_cons]
      simp only [find?, List.find?_append, Option.or_assoc]
      congr 1
      exact (find?_cons p [] name ▸ apply_ite (Option.or · (rows.find? name)) _ _ _).symm

/-- New names come behind all others, in the order in which they are first written. -/
theorem names_putAll (rows written : Rows ν) :
    (rows.putAll written).names =
      rows.names ++ (written.names.filter (· ∉ rows.names)).eraseDups := by
  induction written generalizing rows with
  | nil => exact (List.append_nil _).symm
  | cons p written ih =>
      rw [putAll_cons, ih, names_put, names_cons, addName]
      by_cases hp : p.name ∈ rows.names
      · simp [hp]
      · simp [hp, List.eraseDups_cons, List.filter_filter, Bool.and_comm, beq_eq_decide]

theorem idxOf_addName {names : List String} (h : name ∈ names) (new : String) :
    (addName new names).idxOf name = names.idxOf name := by
  unfold addName
  split
  · rfl
  · exact List.idxOf_append_of_mem h

theorem getElem?_putAll {rows written : Rows ν} {i : Nat} (hi : rows[i]? = some q)
    (h : q.name ∈ written.names → i ≠ rows.names.idxOf q.name) :
    (rows.putAll written)[i]? = some q := by
  induction written generalizing rows with
  | nil => exact hi
  | cons p written ih =>
      have hname : rows.names[i]? = some q.name := by
        rw [names, List.getElem?_map, hi, Option.map_some]
      have hne : i ≠ rows.names.idxOf p.name := by
        rintro rfl
        obtain ⟨hlt, hget⟩ := List.getElem?_eq_some_iff.mp hname
        rw [List.getElem_idxOf hlt] at hget
        exact h (hget ▸ List.mem_cons_self) (congrArg rows.names.idxOf hget)
      refine ih ?_ fun hwritten => ?_
      · rw [getElem?_put, if_neg hne, hi]
      · rw [names_put, idxOf_addName (List.mem_of_getElem? hname)]
        exact h (List.mem_cons_of_mem _ hwritten)

theorem putAll_eq_self {rows written : Rows ν}
    (h : ∀ name ∈ written.names, ∃ p, find? written.reverse name = some p ∧
      rows.find? name = some p) : rows.putAll written = rows := by
  have hnames : (rows.putAll written).names = rows.names := by
    have hfilter : written.names.filter (· ∉ rows.names) = [] := by
      refine List.filter_eq_nil_iff.mpr fun name hname => ?_
      obtain ⟨p, -, hp⟩ := h name hname
      have hmem : p.name ∈ rows.names := List.mem_map_of_mem (List.mem_of_find?_eq_some hp)
      rw [name_of_find? hp] at hmem
      simpa using hmem
    rw [names_putAll, hfilter]
    exact List.append_nil _
  refine List.ext_getElem? fun i => ?_
  cases hi : rows[i]? with
  | none =>
      have hlength := congrArg List.length hnames
      rw [names, names, List.length_map, List.length_map] at hlength
      rw [List.getElem?_eq_none_iff] at hi ⊢
      exact hlength ▸ hi
  | some q =>
      by_cases hq : q.name ∈ written.names ∧ i = rows.names.idxOf q.name
      · obtain ⟨hwritten, rfl⟩ := hq
        obtain ⟨p, hlast, hfind⟩ := h q.name hwritten
        rw [← find?_eq_getElem?] at hi
        rw [← hnames, ← find?_eq_getElem?, find?_putAll, hlast, Option.some_or, ← hi, hfind]
      · exact getElem?_putAll hi fun hwritten he => hq ⟨hwritten, he⟩

/-- Parameters have been written into rows: the last one of every name stands where the first row of
that name was, or behind all rows in the order in which the new names first come. The other rows are
as before. -/
structure Written (written rows rows' : Rows ν) : Prop where
  last : ∀ before p after, written = before ++ p :: after → p.name ∉ names after →
    rows'.find? p.name = some p
  others : ∀ (i : Nat) (q : Parameter ν), rows[i]? = some q →
    q.name ∉ names written ∨ i ≠ rows.names.idxOf q.name → rows'[i]? = some q
  names : rows'.names = rows.names ++ ((names written).filter (· ∉ rows.names)).eraseDups

theorem written_putAll (rows written : Rows ν) : Written written rows (rows.putAll written) where
  last before p after h hafter := by
    have hlast : find? written.reverse p.name = some p := by
      have hnone : find? after.reverse p.name = none := by
        refine List.find?_eq_none.mpr fun q hq he => hafter ?_
        rw [← beq_iff_eq.mp he]
        exact List.mem_map_of_mem (List.mem_reverse.mp hq)
      rw [find?] at hnone
      rw [h, List.reverse_append, List.reverse_cons, find?, List.find?_append, List.find?_append,
        hnone]
      simp
    rw [find?_putAll, hlast, Option.some_or]
  others i q hi h := getElem?_putAll hi fun hwritten he => h.elim (· hwritten) (· he)
  names := names_putAll rows written

theorem putAll_putAll (rows written : Rows ν) :
    (rows.putAll written).putAll written = rows.putAll written := by
  refine putAll_eq_self fun name hname => ?_
  obtain ⟨p, hp⟩ : ∃ p, find? written.reverse name = some p := by
    rw [← Option.isSome_iff_exists, find?, List.find?_isSome]
    obtain ⟨p, hp, rfl⟩ := List.mem_map.mp hname
    exact ⟨p, List.mem_reverse.mpr hp, beq_self_eq_true _⟩
  exact ⟨p, hp, by rw [find?_putAll, hp, Option.some_or]⟩

end Rows

namespace Store

variable {α : Type}

def write (s : Store α) (doubles : Rows α) (integers : Rows Int64) : Store α :=
  ⟨s.doubles.putAll doubles, s.integers.putAll integers⟩

theorem write_write (s : Store α) (ds ds' : Rows α) (is is' : Rows Int64) :
    (s.write ds is).write ds' is' = s.write (ds ++ ds') (is ++ is') := by
  simp only [write, Rows.putAll, List.foldl_append]

theorem write_again (s : Store α) (ds : Rows α) (is : Rows Int64) :
    (s.write ds is).write ds is = s.write ds is := by
  simp only [write, Rows.putAll_putAll]

end Store

end Arbor
