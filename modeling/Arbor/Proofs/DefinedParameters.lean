import Arbor.Parameter.Config
import Arbor.Proofs.StoreEdits

namespace Arbor

def Parameter.defined {ν : Type} [Ranged ν] (name : String) (v minimum maximum : ν) :
    Parameter ν :=
  ⟨name, Ranged.clamp v minimum maximum, minimum, maximum⟩

/-- The bounds are those given, and a value is moved only if it lies beyond one of them, namely to
that one. -/
structure Parameter.Confines {ν : Type} [LT ν] (name : String) (v lo hi : ν) (p : Parameter ν) :
    Prop where
  name : p.name = name
  minimum : p.minimum = lo
  maximum : p.maximum = hi
  below : v < lo → ¬ hi < lo → p.value = lo
  above : ¬ v < lo → hi < v → p.value = hi
  within : ¬ v < lo → ¬ hi < v → p.value = v

theorem Parameter.confines_double {α : Type} [Scalar α] (name : String) (v lo hi : α) :
    (defined name v lo hi).Confines name v lo hi where
  name := rfl
  minimum := rfl
  maximum := rfl
  below hv hle := by simp only [defined, Ranged.clamp, Scalar.clamp, if_pos hv, if_neg hle]
  above hv hhi := by simp only [defined, Ranged.clamp, Scalar.clamp, if_neg hv, if_pos hhi]
  within hv hhi := by simp only [defined, Ranged.clamp, Scalar.clamp, if_neg hv, if_neg hhi]

theorem Parameter.confines_integer (name : String) (v lo hi : Int64) :
    (defined name v lo hi).Confines name v lo hi where
  name := rfl
  minimum := rfl
  maximum := rfl
  below hv _ := if_pos hv
  above hv hhi := by simp only [defined, Ranged.clamp, if_neg hv, if_pos hhi]
  within hv hhi := by simp only [defined, Ranged.clamp, if_neg hv, if_neg hhi]

namespace Rows

variable {ν : Type} [Ranged ν] {name : String} {v : ν} {rows : Rows ν}

/-- The parameter that stands under a name once it is given a value. -/
def assigned (rows : Rows ν) (name : String) (v : ν) : Parameter ν :=
  (rows.find? name).elim (.fixed name v) (Parameter.assign v)

theorem assigned_eq (rows : Rows ν) (name : String) (v : ν) :
    rows.assigned name v =
      ⟨name, v, (rows.assigned name v).minimum, (rows.assigned name v).maximum⟩ := by
  unfold assigned
  cases h : rows.find? name with
  | none => rfl
  | some p => exact congrArg (Parameter.mk · v _ _) (name_of_find? h)

theorem name_assigned (rows : Rows ν) (name : String) (v : ν) :
    (rows.assigned name v).name = name :=
  congrArg Parameter.name (rows.assigned_eq name v)

theorem assign_eq_put (name : String) (v : ν) (rows : Rows ν) :
    rows.assign name v = rows.put (rows.assigned name v) := by
  apply upsert_eq_put
  · exact fun _ hp => hp
  · rfl

theorem define_eq_put (name : String) (v lo hi : ν) (rows : Rows ν) :
    (rows.assign name v).confine name lo hi = rows.put (.defined name v lo hi) := by
  have hname := rows.name_assigned name v
  have hconfined : (rows.assigned name v).confine lo hi = .defined name v lo hi :=
    congrArg (Parameter.confine lo hi) (rows.assigned_eq name v)
  have hconfine (rows : Rows ν) : rows.confine name lo hi =
      rows.put ((rows.find? name).elim ⟨name, lo, lo, hi⟩ (Parameter.confine lo hi)) := by
    apply upsert_eq_put
    · exact fun _ hp => hp
    · rfl
  rw [hconfine, assign_eq_put, find?_put, if_pos hname, Option.elim_some, hconfined]
  exact put_put hname rows

def Holds (rows : Rows ν) (name : String) (v : ν) : Prop :=
  ∃ p, rows.find? name = some p ∧ p.assign v = p

theorem assign_eq_self_iff : rows.assign name v = rows ↔ rows.Holds name v := by
  rw [assign_eq_put, put_eq_self_iff, name_assigned, assigned, Holds]
  cases rows.find? name with
  | none => exact iff_of_false nofun fun ⟨_, hp, _⟩ => nomatch hp
  | some p => simp [eq_comm]

end Rows

namespace Store

variable {α : Type} [Scalar α]

def assign (s : Store α) (name : String) : Setting α → Store α
  | .integer n => s.setInteger name n
  | .double x => s.setDouble name x

theorem on_defineDouble (name : String) (v lo hi : α) (s : Store α) :
    (defineDouble name v lo hi).on s =
      if lo ≤ hi then (.ok (), s.write [.defined name v lo hi] [])
      else (.error (.invertedRange name lo hi), s.assign name (.double v)) := by
  have hset : (defineDouble name v lo hi).on s =
      (setDoubleRange name lo hi).on (s.setDouble name v) := rfl
  have hdoubles : (s.setDouble name v).doubles.confine name lo hi =
      s.doubles.put (.defined name v lo hi) := Rows.define_eq_put name v lo hi s.doubles
  rw [hset, on_setDoubleRange, hdoubles]
  rfl

theorem defineInteger_spec (name : String) (v lo hi : Int64) (s : Store α) :
    (defineInteger name v lo hi).on s =
      if (ofInteger lo : α) ≤ ofInteger hi then
        if hi < lo then (.error .emptyInterval, s.assign name (.integer v))
        else (.ok (), s.write [] [.defined name v lo hi])
      else
        (.error (.invertedRange name (ofInteger lo) (ofInteger hi)),
          s.assign name (.integer v)) := by
  have hthere := s.containsInteger_setInteger name v
  have hintegers : (s.setInteger name v).integers.confine name lo hi =
      s.integers.put (.defined name v lo hi) := Rows.define_eq_put name v lo hi s.integers
  rw [on_defineInteger, on_setIntegerRange, hintegers]
  simp only [hthere, and_true]
  rfl

end Store

namespace Entry

variable {α : Type} [Scalar α]

def bound (x : α) (b : Option (Setting α)) : α := (b.map Setting.toScalar).getD x

def double? (e : Entry α) : Option (Parameter α) :=
  match e.value with
  | .integer _ => none
  | .double x => some (.defined e.name x (bound x e.minimum) (bound x e.maximum))

def integer? (e : Entry α) : Option (Parameter Int64) :=
  match e.value with
  | .integer n =>
    match integerBound e.name n e.minimum, integerBound e.name n e.maximum with
    | .ok lo, .ok hi => some (.defined e.name n lo hi)
    | _, _ => none
  | .double _ => none

omit [Scalar α] in
theorem integerBound_meets (name : String) (n : Int64) (b : Option (Setting α)) :
    Meets (fun fault => fault = .fractionalBound name) (fun _ => True) (integerBound name n b) := by
  rcases b with _ | (m | x)
  · trivial
  · trivial
  · rfl

/-- Whether an entry is accepted does not depend on the store. A fractional bound is refused before
anything is written, and an unusable range behind the value. -/
theorem apply_cases (e : Entry α) :
    (e.double?.isSome = !e.integer?.isSome ∧
      ∀ s, e.apply.on s = (.ok (), s.write e.double?.toList e.integer?.toList)) ∨
    (∀ s, e.apply.on s = (.error (.fractionalBound e.name), s)) ∨
    ∃ fault, (fault = .emptyInterval ∨ ∃ lo hi, ¬ lo ≤ hi ∧ fault = .invertedRange e.name lo hi) ∧
      ∀ s, e.apply.on s = (.error fault, s.assign e.name e.value) := by
  obtain ⟨name, value, minimum, maximum⟩ := e
  cases value with
  | double x =>
      have happly (s : Store α) : Edit.on (apply ⟨name, .double x, minimum, maximum⟩) s =
          (Store.defineDouble name x (bound x minimum) (bound x maximum)).on s := rfl
      simp only [happly, Store.on_defineDouble]
      split
      · exact .inl ⟨rfl, fun s => rfl⟩
      next h => exact .inr (.inr ⟨_, .inr ⟨_, _, h, rfl⟩, fun s => rfl⟩)
  | integer n =>
      have hlo := integerBound_meets name n minimum
      have hhi := integerBound_meets name n maximum
      have happly (s : Store α) : Edit.on (apply ⟨name, .integer n, minimum, maximum⟩) s =
          Edit.on (liftM (integerBound name n minimum) >>= fun lo =>
            liftM (integerBound name n maximum) >>= fun hi =>
              Store.defineInteger name n lo hi) s := rfl
      simp only [happly, integer?, double?]
      cases hmin : integerBound name n minimum with
      | error fault =>
          rw [hmin] at hlo
          cases hlo
          exact .inr (.inl fun s => rfl)
      | ok lo =>
          cases hmax : integerBound name n maximum with
          | error fault =>
              rw [hmax] at hhi
              cases hhi
              exact .inr (.inl fun s => rfl)
          | ok hi =>
              have hdefine (s : Store α) :
                  Edit.on (liftM (.ok lo : Except (Fault α) Int64) >>= fun lo =>
                    liftM (.ok hi : Except (Fault α) Int64) >>= fun hi =>
                      Store.defineInteger name n lo hi) s =
                    (Store.defineInteger name n lo hi).on s := rfl
              simp only [hdefine, Store.defineInteger_spec]
              split
              · split
                · exact .inr (.inr ⟨_, .inl rfl, fun s => rfl⟩)
                · exact .inl ⟨rfl, fun s => rfl⟩
              next h => exact .inr (.inr ⟨_, .inr ⟨_, _, h, rfl⟩, fun s => rfl⟩)

inductive Bounds (x : α) : Option (Setting α) → α → Prop
  | absent : Bounds x none x
  | integer (n : Int64) : Bounds x (some (.integer n)) (Store.ofInteger n)
  | double (y : α) : Bounds x (some (.double y)) y

/-- What a bound of the integer `n` stands for; it cannot be fractional. -/
inductive IntegerBounds {α : Type} (n : Int64) : Option (Setting α) → Int64 → Prop
  | absent : IntegerBounds n none n
  | integer (m : Int64) : IntegerBounds n (some (.integer m)) m

inductive Defines : Entry α → Option (Parameter α) → Option (Parameter Int64) → Prop
  | double (name : String) (x lo hi : α) (minimum maximum : Option (Setting α)) (p : Parameter α)
      (hlo : Bounds x minimum lo) (hhi : Bounds x maximum hi) (hp : p.Confines name x lo hi) :
      Defines ⟨name, .double x, minimum, maximum⟩ (some p) none
  | integer (name : String) (n lo hi : Int64) (minimum maximum : Option (Setting α))
      (p : Parameter Int64) (hlo : IntegerBounds n minimum lo) (hhi : IntegerBounds n maximum hi)
      (hp : p.Confines name n lo hi) : Defines ⟨name, .integer n, minimum, maximum⟩ none (some p)

theorem bounds_bound (x : α) (b : Option (Setting α)) : Bounds x b (bound x b) := by
  rcases b with _ | (n | y)
  · exact .absent
  · exact .integer n
  · exact .double y

omit [Scalar α] in
theorem bounds_integerBound {name : String} {n m : Int64} {b : Option (Setting α)}
    (h : integerBound name n b = .ok m) : IntegerBounds n b m := by
  rcases b with _ | (k | x)
  · cases h
    exact .absent
  · cases h
    exact .integer m
  · cases h

theorem defines (e : Entry α) (h : e.double?.isSome = !e.integer?.isSome) :
    e.Defines e.double? e.integer? := by
  obtain ⟨name, value, minimum, maximum⟩ := e
  cases value with
  | double x =>
      exact .double name x _ _ minimum maximum _ (bounds_bound x minimum) (bounds_bound x maximum)
        (Parameter.confines_double ..)
  | integer n =>
      unfold double? integer? at *
      dsimp only at h ⊢
      split at h
      next lo hi hlo hhi =>
        exact .integer name n lo hi minimum maximum _ (bounds_integerBound hlo)
          (bounds_integerBound hhi) (Parameter.confines_integer ..)
      next => cases h

theorem Defines.confines {e : Entry α} {p : Parameter α} {q? : Option (Parameter Int64)}
    (h : e.Defines (some p) q?) : ∃ x lo hi, e.value = .double x ∧ Bounds x e.minimum lo ∧
      Bounds x e.maximum hi ∧ p.Confines e.name x lo hi := by
  cases h with
  | double name x lo hi minimum maximum p hlo hhi hp => exact ⟨x, lo, hi, rfl, hlo, hhi, hp⟩

end Entry

end Arbor
