import Arbor.Parameter.Store
import Arbor.Scalar.Real
import Mathlib.Data.List.Forall2

namespace Arbor

class LawfulRanged (ν : Type) [LE ν] [Ranged ν] : Prop where
  refl (a : ν) : a ≤ a
  trans (a b c : ν) : a ≤ b → b ≤ c → a ≤ c
  lesser_le (a b : ν) : Ranged.lesser a b ≤ b
  le_greater (a b : ν) : b ≤ Ranged.greater a b
  clamp_mem (x lo hi : ν) : lo ≤ hi → lo ≤ Ranged.clamp x lo hi ∧ Ranged.clamp x lo hi ≤ hi

instance : LawfulRanged ℝ where
  refl := le_refl
  trans _ _ _ := le_trans
  lesser_le a b := by
    simp only [Ranged.lesser, Scalar.lesser]
    split
    · split
      · exact le_refl b
      · exact le_of_not_ge ‹_›
    · exact le_refl b
  le_greater a b := by
    simp only [Ranged.greater, Scalar.greater]
    split
    · split
      · exact le_refl b
      · exact le_of_not_ge ‹_›
    · exact le_refl b
  clamp_mem x lo hi h := by
    simp only [Ranged.clamp, Scalar.clamp]
    split
    · split
      · exact ⟨h, le_refl hi⟩
      · exact ⟨le_refl lo, h⟩
    · split
      · exact ⟨h, le_refl hi⟩
      · exact ⟨not_lt.mp ‹_›, not_lt.mp ‹_›⟩

instance : LawfulRanged Int64 where
  refl := Int64.le_refl
  trans _ _ _ := Int64.le_trans
  lesser_le a b := by
    simp only [Ranged.lesser]
    split
    · exact Int64.le_refl b
    · exact Int64.not_lt.mp ‹_›
  le_greater a b := by
    simp only [Ranged.greater]
    split
    · exact Int64.le_refl b
    · exact Int64.not_lt.mp ‹_›
  clamp_mem x lo hi h := by
    simp only [Ranged.clamp]
    split
    · exact ⟨Int64.le_refl lo, h⟩
    · split
      · exact ⟨h, Int64.le_refl hi⟩
      · exact ⟨Int64.not_lt.mp ‹_›, Int64.not_lt.mp ‹_›⟩

namespace Parameter

variable {ν : Type} [LE ν]

def Ordered (p : Parameter ν) : Prop := p.minimum ≤ p.maximum

def Within (p : Parameter ν) : Prop := p.minimum ≤ p.value ∧ p.value ≤ p.maximum

/-- A parameter whose value may have been drawn anew, from its range if that is in order. -/
def Redrawn (p q : Parameter ν) : Prop :=
  q = p ∨ ∃ v, q = { p with value := v } ∧ (p.Ordered → q.Within)

theorem Redrawn.name {p q : Parameter ν} (h : p.Redrawn q) : q.name = p.name := by
  rcases h with rfl | ⟨v, rfl, -⟩
  · rfl
  · rfl

theorem Redrawn.ordered {p q : Parameter ν} (h : p.Redrawn q) (hp : p.Ordered) : q.Ordered := by
  rcases h with rfl | ⟨v, rfl, -⟩
  · exact hp
  · exact hp

variable [Ranged ν] [LawfulRanged ν]

theorem Within.ordered {p : Parameter ν} (h : p.Within) : p.Ordered :=
  LawfulRanged.trans _ _ _ h.1 h.2

theorem Redrawn.within {p q : Parameter ν} (h : p.Redrawn q) (hp : p.Within) : q.Within := by
  rcases h with rfl | ⟨v, rfl, hdrawn⟩
  · exact hp
  · exact hdrawn hp.ordered

theorem within_fixed (name : String) (v : ν) : (fixed name v).Within :=
  ⟨LawfulRanged.refl v, LawfulRanged.refl v⟩

theorem within_assign (v : ν) (p : Parameter ν) : (p.assign v).Within :=
  ⟨LawfulRanged.lesser_le _ v, LawfulRanged.le_greater _ v⟩

theorem within_confine {lo hi : ν} (h : lo ≤ hi) (p : Parameter ν) : (p.confine lo hi).Within :=
  LawfulRanged.clamp_mem p.value lo hi h

end Parameter

namespace Rows

variable {ν : Type}

def names (rows : Rows ν) : List String := rows.map Parameter.name

def addName (name : String) (names : List String) : List String :=
  if name ∈ names then names else names ++ [name]

section upsert

variable {name : String} {change : Parameter ν → Parameter ν} {new : Parameter ν}

theorem names_upsert (hchange : ∀ p, p.name = name → (change p).name = name)
    (hnew : new.name = name) (rows : Rows ν) :
    (rows.upsert name change new).names = addName name rows.names := by
  induction rows with
  | nil => simp [upsert, names, addName, hnew]
  | cons p ps ih =>
      unfold upsert
      split
      next hp => simp [names, addName, hp, hchange p hp]
      next hp =>
        have hmem : name ∈ Rows.names (p :: ps) ↔ name ∈ Rows.names ps := by
          simp [names, Ne.symm hp]
        have hcons : Rows.names (p :: upsert name change new ps) =
            p.name :: addName name (Rows.names ps) := congrArg (p.name :: ·) ih
        rw [hcons]
        simp only [addName, hmem]
        split
        · rfl
        · rfl

theorem forall_upsert {post : Parameter ν → Prop} {rows : Rows ν} (hrows : ∀ p ∈ rows, post p)
    (hchange : ∀ p ∈ rows, post (change p)) (hnew : post new) :
    ∀ p ∈ rows.upsert name change new, post p := by
  induction rows with
  | nil => simpa [upsert] using hnew
  | cons p ps ih =>
      obtain ⟨hp, hps⟩ := List.forall_mem_cons.mp hrows
      obtain ⟨hchange, hchanges⟩ := List.forall_mem_cons.mp hchange
      unfold upsert
      split
      · exact List.forall_mem_cons.mpr ⟨hchange, hps⟩
      · exact List.forall_mem_cons.mpr ⟨hp, ih hps hchanges⟩

theorem redrawn_refl [LE ν] (rows : Rows ν) : List.Forall₂ Parameter.Redrawn rows rows :=
  List.forall₂_same.mpr fun _ _ => .inl rfl

theorem upsert_redrawn [LE ν] {rows : Rows ν} {p q : Parameter ν}
    (hfind : rows.find? name = some p) (h : p.Redrawn q) :
    List.Forall₂ Parameter.Redrawn rows (rows.upsert name (fun _ => q) q) := by
  induction rows with
  | nil => cases hfind
  | cons r rows ih =>
      unfold upsert
      unfold find? at hfind
      split
      next hr =>
        rw [List.find?_cons, beq_iff_eq.mpr hr] at hfind
        cases hfind
        exact .cons h (redrawn_refl rows)
      next hr =>
        rw [List.find?_cons, beq_eq_false_iff_ne.mpr hr] at hfind
        exact .cons (.inl rfl) (ih hfind)

end upsert

variable [LE ν] [Ranged ν]

/-- Everything that can happen to rows, where ranges may be written if they are admitted. -/
inductive Change (admits : ν → ν → Prop) : Rows ν → Rows ν → Prop
  | keep (rows : Rows ν) : Change admits rows rows
  | assign (name : String) (v : ν) (rows : Rows ν) : Change admits rows (rows.assign name v)
  | confine (name : String) (lo hi : ν) (rows : Rows ν) (h : admits lo hi) :
      Change admits rows (rows.confine name lo hi)
  | define (name : String) (v lo hi : ν) (rows : Rows ν) (h : admits lo hi) :
      Change admits rows ((rows.assign name v).confine name lo hi)
  | redraw (rows rows' : Rows ν) (h : List.Forall₂ Parameter.Redrawn rows rows') :
      Change admits rows rows'

omit [LE ν] in
theorem names_assign (name : String) (v : ν) (rows : Rows ν) :
    (rows.assign name v).names = addName name rows.names := by
  apply names_upsert
  · exact fun _ hp => hp
  · rfl

omit [LE ν] in
theorem names_confine (name : String) (lo hi : ν) (rows : Rows ν) :
    (rows.confine name lo hi).names = addName name rows.names := by
  apply names_upsert
  · exact fun _ hp => hp
  · rfl

omit [Ranged ν] in
theorem names_redrawn {rows rows' : Rows ν} (h : List.Forall₂ Parameter.Redrawn rows rows') :
    rows'.names = rows.names := by
  induction h with
  | nil => rfl
  | cons hp _ ih => exact congrArg₂ List.cons hp.name ih

omit [Ranged ν] in
theorem exists_of_redrawn {rows rows' : Rows ν} (h : List.Forall₂ Parameter.Redrawn rows rows')
    {q : Parameter ν} (hq : q ∈ rows') : ∃ p ∈ rows, p.Redrawn q := by
  induction h with
  | nil => cases hq
  | cons hp _ ih =>
      rcases List.mem_cons.mp hq with rfl | hq
      · exact ⟨_, List.mem_cons_self, hp⟩
      · obtain ⟨p, hmem, hpq⟩ := ih hq
        exact ⟨p, List.mem_cons_of_mem _ hmem, hpq⟩

theorem mem_addName (name : String) (names : List String) : name ∈ addName name names := by
  unfold addName
  split
  next h => exact h
  next => exact List.mem_append_right _ List.mem_cons_self

theorem addName_addName (name : String) (names : List String) :
    addName name (addName name names) = addName name names := if_pos (mem_addName name names)

namespace Change

variable {admits : ν → ν → Prop} {rows rows' : Rows ν}

theorem of_confine {name : String} {lo hi : ν}
    (h : rows' = rows ∨ admits lo hi ∧ rows' = rows.confine name lo hi) :
    Change admits rows rows' := by
  rcases h with rfl | ⟨h, rfl⟩
  · exact .keep _
  · exact .confine name lo hi rows h

theorem of_define {name : String} {v lo hi : ν} (h : rows' = rows.assign name v ∨
      admits lo hi ∧ rows' = (rows.assign name v).confine name lo hi) :
    Change admits rows rows' := by
  rcases h with rfl | ⟨h, rfl⟩
  · exact .assign name v rows
  · exact .define name v lo hi rows h

theorem names_eq (h : Change admits rows rows') :
    rows'.names = rows.names ∨ ∃ name, rows'.names = addName name rows.names := by
  cases h with
  | keep => exact .inl rfl
  | assign name v => exact .inr ⟨name, names_assign name v rows⟩
  | confine name lo hi => exact .inr ⟨name, names_confine name lo hi rows⟩
  | define name v lo hi =>
      refine .inr ⟨name, ?_⟩
      rw [names_confine, names_assign, addName_addName]
  | redraw _ _ h => exact .inl (names_redrawn h)

theorem names (h : Change admits rows rows') :
    rows'.names = rows.names ∨ ∃ name ∉ rows.names, rows'.names = rows.names ++ [name] := by
  rcases h.names_eq with h | ⟨name, h⟩
  · exact .inl h
  · unfold addName at h
    split at h
    · exact .inl h
    · exact .inr ⟨name, ‹_›, h⟩

theorem nodup_names (h : Change admits rows rows') (hrows : rows.names.Nodup) :
    rows'.names.Nodup := by
  rcases h.names with h | ⟨name, hname, h⟩
  · rw [h]
    exact hrows
  · rw [h]
    exact List.concat_eq_append ▸ hrows.concat hname

variable [LawfulRanged ν]

/-- What a change has not put into its range itself was there before. -/
theorem origin (h : Change admits rows rows') (hadmits : ∀ lo hi, admits lo hi → lo ≤ hi) :
    ∀ q ∈ rows', q.Within ∨ ∃ p ∈ rows, p.Redrawn q := by
  have hkeep (p : Parameter ν) (hp : p ∈ rows) : p.Within ∨ ∃ r ∈ rows, r.Redrawn p :=
    .inr ⟨p, hp, .inl rfl⟩
  have hassign (name : String) (v : ν) :
      ∀ q ∈ rows.assign name v, q.Within ∨ ∃ p ∈ rows, p.Redrawn q := by
    apply forall_upsert hkeep
    · exact fun p _ => .inl (Parameter.within_assign v p)
    · exact .inl (Parameter.within_fixed name v)
  have hconfine {rows₁ : Rows ν} (hrows : ∀ q ∈ rows₁, q.Within ∨ ∃ p ∈ rows, p.Redrawn q)
      (name : String) {lo hi : ν} (hle : lo ≤ hi) :
      ∀ q ∈ rows₁.confine name lo hi, q.Within ∨ ∃ p ∈ rows, p.Redrawn q := by
    apply forall_upsert hrows
    · exact fun p _ => .inl (Parameter.within_confine hle p)
    · exact .inl ⟨LawfulRanged.refl lo, hle⟩
  cases h with
  | keep => exact hkeep
  | assign name v => exact hassign name v
  | confine name lo hi _ h => exact hconfine hkeep name (hadmits lo hi h)
  | define name v lo hi _ h => exact hconfine (hassign name v) name (hadmits lo hi h)
  | redraw _ _ h =>
      intro q hq
      exact .inr (exists_of_redrawn h hq)

theorem within (h : Change admits rows rows') (hadmits : ∀ lo hi, admits lo hi → lo ≤ hi)
    (hrows : ∀ p ∈ rows, p.Within) : ∀ p ∈ rows', p.Within := by
  intro q hq
  rcases h.origin hadmits q hq with hq | ⟨p, hp, hpq⟩
  · exact hq
  · exact hpq.within (hrows p hp)

theorem ordered (h : Change admits rows rows') (hadmits : ∀ lo hi, admits lo hi → lo ≤ hi)
    (hrows : ∀ p ∈ rows, p.Ordered) : ∀ p ∈ rows', p.Ordered := by
  intro q hq
  rcases h.origin hadmits q hq with hq | ⟨p, hp, hpq⟩
  · exact hq.ordered
  · exact hpq.ordered (hrows p hp)

end Change

end Rows

end Arbor
