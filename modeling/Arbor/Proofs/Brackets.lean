import Arbor.Grammar.Instruction
import Mathlib.Data.List.Infix

namespace Arbor

variable {α : Type}

def openings (p : List (Instruction α)) : Nat := p.countP fun i => i matches .push

def closings (p : List (Instruction α)) : Nat := p.countP fun i => i matches .pop

def advances (p : List (Instruction α)) : Nat := p.countP fun i => i matches .advance _

theorem advances_cons (i : Instruction α) (p : List (Instruction α)) :
    advances (i :: p) = advances p + advances [i] := by
  simp [advances, List.countP_cons]

theorem closings_cons (i : Instruction α) (p : List (Instruction α)) :
    closings (i :: p) = closings p + closings [i] := by
  simp [closings, List.countP_cons]

theorem openings_cons (i : Instruction α) (p : List (Instruction α)) :
    openings (i :: p) = openings p + openings [i] := by
  simp [openings, List.countP_cons]

structure WellBracketed (p : List (Instruction α)) : Prop where
  opened : ∀ q, q <+: p → closings q ≤ openings q
  closed : openings p = closings p

structure WellFormed (p : List (Instruction α)) : Prop extends WellBracketed p where
  drawn : ∀ before after, p = before ++ .vertex :: after → .openPolygon ∈ before

/-- What is known of a program behind its first instructions: how many brackets are open, and
whether there is a polygon. -/
structure Outline where
  depth : Nat
  drawing : Bool
deriving DecidableEq, Repr

namespace Outline

def next? (o : Outline) : Instruction α → Option Outline
  | .push => some { o with depth := o.depth + 1 }
  | .pop =>
    match o.depth with
    | 0 => none
    | d + 1 => some { o with depth := d }
  | .openPolygon => some { o with drawing := true }
  | .vertex => if o.drawing then some o else none
  | _ => some o

def run (o : Outline) : List (Instruction α) → Option Outline
  | [] => some o
  | i :: is => (o.next? i).bind fun o => run o is

theorem run_append (o : Outline) (p q : List (Instruction α)) :
    o.run (p ++ q) = (o.run p).bind fun o => o.run q := by
  induction p generalizing o with
  | nil => rfl
  | cons i is ih => simp [run, ih, Option.bind_assoc]

theorem foldl_next? (o : Option Outline) (p : List (Instruction α)) :
    p.foldl (fun o i => o.bind fun o => o.next? i) o = o.bind fun o => o.run p := by
  induction p generalizing o with
  | nil => cases o <;> rfl
  | cons i is ih =>
      rw [List.foldl_cons, ih, Option.bind_assoc]
      rfl

theorem next?_eq_none {o : Outline} {i : Instruction α} (h : o.next? i = none) :
    i = .pop ∧ o.depth = 0 ∨ i = .vertex ∧ o.drawing = false := by
  obtain ⟨depth, drawing⟩ := o
  cases i with
  | pop =>
      cases depth with
      | zero => exact .inl ⟨rfl, rfl⟩
      | succ d => cases h
  | vertex =>
      cases drawing with
      | false => exact .inr ⟨rfl, rfl⟩
      | true => cases h
  | _ => cases h

theorem next?_eq_some {o o' : Outline} {i : Instruction α} (h : o.next? i = some o') :
    (i = .vertex → o.drawing = true) ∧ o'.depth + closings [i] = o.depth + openings [i] ∧
      (o'.drawing = true ↔ o.drawing = true ∨ .openPolygon = i) := by
  obtain ⟨depth, drawing⟩ := o
  cases i with
  | pop =>
      cases depth with
      | zero => cases h
      | succ d => cases h; simp [closings, openings]
  | vertex =>
      cases drawing with
      | false => cases h
      | true => cases h; simp [closings, openings]
  | _ => cases h; simp [closings, openings]

structure Admits (o : Outline) (p : List (Instruction α)) : Prop where
  opened : ∀ q, q <+: p → closings q ≤ o.depth + openings q
  drawn : ∀ before after, p = before ++ .vertex :: after →
    o.drawing = true ∨ .openPolygon ∈ before

theorem admits_nil (o : Outline) : o.Admits ([] : List (Instruction α)) := by
  constructor
  · intro q hq
    rw [List.prefix_nil.mp hq]
    simp [closings]
  · intro before after h
    simp at h

theorem admits_cons_iff (o : Outline) (i : Instruction α) (is : List (Instruction α)) :
    o.Admits (i :: is) ↔
      (∀ q, q <+: is → closings (i :: q) ≤ o.depth + openings (i :: q)) ∧
      (i = .vertex → o.drawing = true) ∧
      ∀ before after, is = before ++ .vertex :: after →
        o.drawing = true ∨ .openPolygon ∈ i :: before := by
  constructor
  · intro h
    refine ⟨fun q hq => h.opened _ (List.cons_prefix_cons.mpr ⟨rfl, hq⟩), ?_, ?_⟩
    · rintro rfl
      simpa using h.drawn [] is rfl
    · intro before after he
      exact h.drawn (i :: before) after (by rw [he]; rfl)
  · rintro ⟨hopened, hfirst, hdrawn⟩
    constructor
    · intro q hq
      rcases List.prefix_cons_iff.mp hq with rfl | ⟨r, rfl, hr⟩
      · simp [closings]
      · exact hopened r hr
    · intro before after he
      cases before with
      | nil =>
          simp only [List.nil_append, List.cons.injEq] at he
          exact .inl (hfirst he.1)
      | cons j before =>
          simp only [List.cons_append, List.cons.injEq] at he
          exact he.1 ▸ hdrawn before after he.2

theorem admits_cons (o : Outline) (i : Instruction α) (is : List (Instruction α)) :
    o.Admits (i :: is) ↔ ∃ o', o.next? i = some o' ∧ o'.Admits is := by
  rw [admits_cons_iff]
  cases hnext : o.next? i with
  | none =>
      simp only [reduceCtorEq, false_and, exists_false, iff_false]
      rintro ⟨hopened, hfirst, -⟩
      rcases next?_eq_none hnext with ⟨rfl, hdepth⟩ | ⟨rfl, hdrawing⟩
      · have h := hopened [] List.nil_prefix
        simp [closings, openings, hdepth] at h
      · simp [hdrawing] at hfirst
  | some r =>
      obtain ⟨hfirst, hdepth, hdrawing⟩ := next?_eq_some hnext
      simp only [Option.some.injEq, exists_eq_left']
      constructor
      · rintro ⟨hopened, -, hdrawn⟩
        constructor
        · intro q hq
          have h := hopened q hq
          rw [closings_cons, openings_cons] at h
          omega
        · intro before after he
          have h := hdrawn before after he
          rw [hdrawing]
          simpa [or_assoc] using h
      · intro h
        refine ⟨?_, hfirst, ?_⟩
        · intro q hq
          have hle := h.opened q hq
          rw [closings_cons, openings_cons]
          omega
        · intro before after he
          have hd := h.drawn before after he
          rw [hdrawing] at hd
          simpa [or_assoc] using hd

theorem admits_iff (o : Outline) (p : List (Instruction α)) :
    o.Admits p ↔ ∃ o', o.run p = some o' := by
  induction p generalizing o with
  | nil => exact ⟨fun _ => ⟨o, rfl⟩, fun _ => admits_nil o⟩
  | cons i is ih =>
      rw [admits_cons]
      simp only [ih, run]
      cases o.next? i <;> simp

theorem depth_run {o o' : Outline} {p : List (Instruction α)} (h : o.run p = some o') :
    o'.depth + closings p = o.depth + openings p := by
  induction p generalizing o with
  | nil =>
      cases h
      simp [closings, openings]
  | cons i is ih =>
      obtain ⟨r, hr, hrun⟩ := Option.bind_eq_some_iff.mp h
      have hi := (next?_eq_some hr).2.1
      have his := ih hrun
      rw [closings_cons, openings_cons]
      omega

theorem drawing_run {o o' : Outline} {p : List (Instruction α)} (h : o.run p = some o')
    (hd : o.drawing = true) : o'.drawing = true := by
  induction p generalizing o with
  | nil =>
      cases h
      exact hd
  | cons i is ih =>
      obtain ⟨r, hr, hrun⟩ := Option.bind_eq_some_iff.mp h
      exact ih hrun ((next?_eq_some hr).2.2.mpr (.inl hd))

theorem Admits.run {o : Outline} {p : List (Instruction α)} (h : o.Admits p)
    (hclosed : openings p = closings p) : ∃ drawing, o.run p = some ⟨o.depth, drawing⟩ := by
  obtain ⟨⟨depth, drawing⟩, hrun⟩ := (admits_iff o p).mp h
  have hdepth := depth_run hrun
  have hsame : depth = o.depth := by simp only at hdepth; omega
  exact ⟨drawing, hsame ▸ hrun⟩

theorem wellBracketed_of_run {p : List (Instruction α)} {drawing drawing' : Bool}
    (hrun : Outline.run ⟨0, drawing⟩ p = some ⟨0, drawing'⟩) : WellBracketed p := by
  have hadmits := (admits_iff _ p).mpr ⟨_, hrun⟩
  constructor
  · intro q hq
    simpa using hadmits.opened q hq
  · simpa using (depth_run hrun).symm

end Outline

theorem wellBracketed_iff (p : List (Instruction α)) :
    WellBracketed p ↔ Outline.run ⟨0, true⟩ p = some ⟨0, true⟩ := by
  constructor
  · intro h
    have hadmits : Outline.Admits ⟨0, true⟩ p :=
      ⟨fun q hq => by simpa using h.opened q hq, fun _ _ _ => .inl rfl⟩
    obtain ⟨drawing, hrun⟩ := hadmits.run h.closed
    have hdrawn : drawing = true := Outline.drawing_run hrun rfl
    rw [hrun, hdrawn]
  · exact Outline.wellBracketed_of_run

theorem wellFormed_iff (p : List (Instruction α)) :
    WellFormed p ↔ ∃ drawing, Outline.run ⟨0, false⟩ p = some ⟨0, drawing⟩ := by
  constructor
  · intro h
    have hadmits : Outline.Admits ⟨0, false⟩ p :=
      ⟨fun q hq => by simpa using h.opened q hq,
        fun before after he => .inr (h.drawn before after he)⟩
    exact hadmits.run h.closed
  · rintro ⟨drawing, hrun⟩
    have hadmits := (Outline.admits_iff _ p).mpr ⟨_, hrun⟩
    refine ⟨Outline.wellBracketed_of_run hrun, ?_⟩
    intro before after he
    simpa using hadmits.drawn before after he

instance (p : List (Instruction α)) : Decidable (WellBracketed p) :=
  decidable_of_iff _ (wellBracketed_iff p).symm

instance (p : List (Instruction α)) : Decidable (WellFormed p) :=
  decidable_of_iff _ (wellFormed_iff p).symm

end Arbor
