import Arbor.Grammar.Derivation
import Mathlib.Data.List.Forall2

namespace Arbor

variable {ε α β γ : Type}

def Meets (bad : ε → Prop) (post : β → Prop) : Except ε β → Prop
  | .ok b => post b
  | .error e => bad e

namespace Meets

variable {bad : ε → Prop} {mid : β → Prop} {post : γ → Prop}

theorem pure {c : γ} (h : post c) : Meets bad post (Pure.pure c) := h

theorem bind {x : Except ε β} {f : β → Except ε γ} (hx : Meets bad mid x)
    (hf : ∀ b, mid b → Meets bad post (f b)) : Meets bad post (x >>= f) := by
  cases x with
  | error e => exact hx
  | ok b => exact hf b hx

theorem map {x : Except ε β} {f : β → γ} (hx : Meets bad mid x) (hf : ∀ b, mid b → post (f b)) :
    Meets bad post (x.map f) := by
  cases x with
  | error e => exact hx
  | ok b => exact hf b hx

theorem mono {worse : ε → Prop} {post' : β → Prop} {x : Except ε β} (hx : Meets bad mid x)
    (hpost : ∀ b, mid b → post' b) (hbad : ∀ e, bad e → worse e) : Meets worse post' x := by
  cases x with
  | error e => exact hbad e hx
  | ok b => exact hpost b hx

theorem and {post' : β → Prop} {x : Except ε β} (h : Meets bad mid x) (h' : Meets bad post' x) :
    Meets bad (fun b => mid b ∧ post' b) x := by
  cases x with
  | error e => exact h
  | ok b => exact ⟨h, h'⟩

end Meets

/-- Results that meet a condition without any fault. -/
abbrev Yields (post : β → Prop) (x : Except ε β) : Prop := Meets (fun _ => False) post x

theorem yields_iff {post : β → Prop} {x : Except ε β} :
    Yields post x ↔ ∃ b, x = .ok b ∧ post b := by
  cases x with
  | error e => simp [Meets]
  | ok b => simp [Meets]

theorem yields_foldlM {ι : Type} {inv : β → Prop} {step : β → ι → Except ε β} {xs : List ι} {b : β}
    (h : inv b) (hstep : ∀ x ∈ xs, ∀ b, inv b → Yields inv (step b x)) :
    Yields inv (xs.foldlM step b) := by
  induction xs generalizing b with
  | nil => exact h
  | cons x xs ih =>
      rw [List.foldlM_cons]
      refine (hstep x List.mem_cons_self b h).bind fun c hc => ih hc fun y hy => ?_
      exact hstep y (List.mem_cons_of_mem _ hy)

theorem foldlM_congr {ι : Type} {step step' : β → ι → Except ε β} {xs : List ι}
    (h : ∀ b, ∀ x ∈ xs, step' b x = step b x) (b : β) : xs.foldlM step' b = xs.foldlM step b := by
  induction xs generalizing b with
  | nil => rfl
  | cons x xs ih =>
      rw [List.foldlM_cons, List.foldlM_cons, h b x List.mem_cons_self]
      exact bind_congr fun c => ih (fun b y hy => h b y (List.mem_cons_of_mem _ hy)) c

theorem foldlM_ok {ι : Type} {step : β → ι → Except ε β} {next : β → ι → β} {xs : List ι}
    (h : ∀ x ∈ xs, ∀ b, step b x = .ok (next b x)) (b : β) :
    xs.foldlM step b = .ok (xs.foldl next b) := by
  induction xs generalizing b with
  | nil => rfl
  | cons x xs ih =>
      obtain ⟨hx, hxs⟩ := List.forall_mem_cons.mp h
      rw [List.foldlM_cons, hx, List.foldl_cons]
      exact ih hxs _

theorem yields_mapM {ι : Type} {post : ι → β → Prop} {f : ι → Except ε β} {xs : List ι}
    (h : ∀ x ∈ xs, Yields (post x) (f x)) : Yields (List.Forall₂ post xs) (xs.mapM f) := by
  induction xs with
  | nil => exact .nil
  | cons x xs ih =>
      rw [List.mapM_cons]
      refine (h x List.mem_cons_self).bind fun b hb => ?_
      exact (ih fun y hy => h y (List.mem_cons_of_mem _ hy)).bind fun bs hbs => .cons hb hbs

theorem bind_eq_ok {x : Except ε β} {f : β → Except ε γ} {c : γ} :
    x >>= f = .ok c ↔ ∃ b, x = .ok b ∧ f b = .ok c := by
  cases x with
  | error e => simp [Bind.bind, Except.bind]
  | ok b => simp [Bind.bind, Except.bind]

theorem forM_eq_ok {ι : Type} {f : ι → Except ε Unit} {xs : List ι} :
    xs.forM f = .ok () ↔ ∀ x ∈ xs, f x = .ok () := by
  induction xs with
  | nil => exact iff_of_true rfl (List.forall_mem_nil _)
  | cons x xs ih =>
      change (f x >>= fun _ => xs.forM f) = .ok () ↔ _
      rw [bind_eq_ok, List.forall_mem_cons, ← ih]
      exact ⟨fun ⟨⟨⟩, hx, hxs⟩ => ⟨hx, hxs⟩, fun ⟨hx, hxs⟩ => ⟨(), hx, hxs⟩⟩

theorem checked_eq_ok (check : β → Except ε Unit) {b c : β} :
    (check c >>= fun _ => Except.ok c) = .ok b ↔ some c = some b ∧ check b = .ok () := by
  rw [bind_eq_ok]
  constructor
  · rintro ⟨⟨⟩, hcheck, ⟨⟩⟩
    exact ⟨rfl, hcheck⟩
  · rintro ⟨⟨⟩, hcheck⟩
    exact ⟨(), hcheck, rfl⟩

theorem map_eq_ok {x : Except ε β} {f : β → γ} {c : γ} :
    x.map f = .ok c ↔ ∃ b, x = .ok b ∧ f b = c := by
  cases x with
  | error e => simp [Except.map]
  | ok b => simp [Except.map]

namespace Store

def Lacks (s : Store α) : Fault α → Prop
  | .missingParameter .double name => s.containsDouble name = false
  | .missingParameter .integer name => s.containsInteger name = false
  | _ => False

/-- Besides looking up what is missing, a count may overflow where `overrun` says so. -/
def Excuses (s : Store α) (overrun : Prop) (f : Fault α) : Prop :=
  s.Lacks f ∨ f = .overflow ∧ overrun

variable {s : Store α} {overrun : Prop} {post : γ → Prop} {name : String}

theorem meets_double : Meets s.Lacks (fun v => s.double name = .ok v) (s.double name) := by
  cases h : s.doubles.find? name with
  | none => simp [double, findDouble, h, Except.map, Meets, Lacks, containsDouble]
  | some p => simp [double, findDouble, h, Except.map, Meets]

theorem meets_integer : Meets s.Lacks (fun n => s.integer name = .ok n) (s.integer name) := by
  cases h : s.integers.find? name with
  | none => simp [integer, findInteger, h, Except.map, Meets, Lacks, containsInteger]
  | some p => simp [integer, findInteger, h, Except.map, Meets]

theorem bind_double {f : α → Except (Fault α) γ}
    (h : ∀ v, Meets (s.Excuses overrun) post (f v)) :
    Meets (s.Excuses overrun) post (s.double name >>= f) :=
  (meets_double.mono (fun _ => id) fun _ => Or.inl).bind fun v _ => h v

theorem bind_integer {f : Int64 → Except (Fault α) γ}
    (h : ∀ n, s.integer name = .ok n → Meets (s.Excuses overrun) post (f n)) :
    Meets (s.Excuses overrun) post (s.integer name >>= f) :=
  (meets_integer.mono (fun _ => id) fun _ => Or.inl).bind h

theorem excuse_overflow {x : Except (Fault α) γ} {cause : Prop}
    (hx : Meets (fun fault => fault = .overflow ∧ cause) post x) (h : cause → overrun) :
    Meets (s.Excuses overrun) post x :=
  hx.mono (fun _ => id) fun _ hfault => .inr ⟨hfault.1, h hfault.2⟩

theorem any_of_excused {x : Except (Fault α) γ} (h : Meets (s.Excuses True) post x) :
    Meets (fun _ => True) post x :=
  h.mono (fun _ => id) fun _ _ => trivial

end Store

theorem run_run_bind {σ : Type} (x : ExceptT ε (StateM σ) β) (f : β → ExceptT ε (StateM σ) γ)
    (s : σ) : (x >>= f).run.run s = match x.run.run s with
      | (.ok b, s) => (f b).run.run s
      | (.error e, s) => (.error e, s) := by
  rw [ExceptT.run_bind, StateT.run_bind]
  rcases x.run.run s with ⟨_ | b, s'⟩ <;> rfl

namespace Drawing

variable {bad : Fault α → Prop} {mid : β → Prop} {post : γ → Prop}

/-- What a computation yields, whatever it draws. -/
def Meets (bad : Fault α → Prop) (post : β → Prop) (x : Drawing α β) : Prop :=
  ∀ g, Arbor.Meets bad post (x.run.run g).1

theorem meets_pure {c : γ} (h : post c) : Meets bad post (Pure.pure c : Drawing α γ) := fun _ => h

theorem meets_lift {x : Except (Fault α) γ} (hx : Arbor.Meets bad post x) :
    Meets bad post (liftM x : Drawing α γ) := by
  intro g
  cases x with
  | error e => exact hx
  | ok b => exact hx

theorem Meets.bind {x : Drawing α β} {f : β → Drawing α γ} (hx : Meets bad mid x)
    (hf : ∀ b, mid b → Meets bad post (f b)) : Meets bad post (x >>= f) := by
  intro g
  have h := hx g
  rw [run_run_bind]
  cases hrun : x.run.run g with
  | mk r g' =>
      rw [hrun] at h
      cases r with
      | error e => exact h
      | ok b => exact hf b h g'

theorem Meets.mono {worse : Fault α → Prop} {post' : β → Prop} {x : Drawing α β}
    (hx : Meets bad mid x) (hpost : ∀ b, mid b → post' b)
    (hbad : ∀ fault, bad fault → worse fault) : Meets worse post' x :=
  fun g => Arbor.Meets.mono (hx g) hpost hbad

theorem Meets.and {post' : β → Prop} {x : Drawing α β} (h : Meets bad mid x)
    (h' : Meets bad post' x) : Meets bad (fun b => mid b ∧ post' b) x := fun g =>
  Arbor.Meets.and (h g) (h' g)

theorem any_of_excused {s : Store α} {x : Drawing α γ} (h : Meets (s.Excuses True) post x) :
    Meets (fun _ => True) post x :=
  h.mono (fun _ => id) fun _ _ => trivial

theorem bind_double {s : Store α} {overrun : Prop} {name : String} {f : α → Drawing α γ}
    (h : ∀ v, Meets (s.Excuses overrun) post (f v)) :
    Meets (s.Excuses overrun) post (liftM (s.double name) >>= f) :=
  (meets_lift (Store.meets_double.mono (fun _ => id) fun _ => Or.inl)).bind fun v _ => h v

theorem bind_integer {s : Store α} {overrun : Prop} {name : String} {f : Int64 → Drawing α γ}
    (h : ∀ n, Meets (s.Excuses overrun) post (f n)) :
    Meets (s.Excuses overrun) post (liftM (s.integer name) >>= f) :=
  (meets_lift (Store.meets_integer.mono (fun _ => id) fun _ => Or.inl)).bind fun n _ => h n

theorem meets_any (x : Drawing α β) : Meets (fun _ => True) (fun _ => True) x := by
  intro g
  cases (x.run.run g).1 <;> trivial

theorem meets_uniform [Scalar α] : Meets bad (fun _ => True) (uniform : Drawing α α) :=
  fun _ => trivial

end Drawing

end Arbor
