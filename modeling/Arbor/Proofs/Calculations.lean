import Arbor.Proofs.Outcomes
import Arbor.Species.Tree.Helical
import Arbor.Species.Tree.Stochastic

namespace Arbor

variable {α : Type} {params : Store α}

namespace Count

def Holds (n : Int) : Prop := Int64.minValue.toInt ≤ n ∧ n ≤ Int64.maxValue.toInt

instance (n : Int) : Decidable (Holds n) :=
  inferInstanceAs (Decidable (Int64.minValue.toInt ≤ n ∧ n ≤ Int64.maxValue.toInt))

theorem toInt_ofInt_of_holds {n : Int} (h : Holds n) : (Int64.ofInt n).toInt = n :=
  Int64.toInt_ofInt_of_le h.1 (Int.lt_of_le_sub_one h.2)

theorem ofInt_outcome (n : Int) :
    Meets (fun fault => fault = .overflow ∧ ¬ Holds n) (fun k => k.toInt = n ∧ Holds n)
      (ofInt n : Except (Fault α) Int64) := by
  unfold ofInt
  split
  next h => exact ⟨toInt_ofInt_of_holds h, h⟩
  next h => exact ⟨rfl, h⟩

end Count

inductive Calculation where
  | sum (a b : Int64)
  | difference (a b : Int64)
  | remainder (a b : Int64)
deriving DecidableEq, Repr

namespace Calculation

/-- What the calculation yields on 64 bits, where sums and differences wrap around. -/
def result : Calculation → Int64
  | sum a b => a + b
  | difference a b => a - b
  | remainder a b => a % b

def exact : Calculation → Int
  | sum a b => a.toInt + b.toInt
  | difference a b => a.toInt - b.toInt
  | remainder a b => a.toInt.tmod b.toInt

/-- The calculation neither overflows nor divides by zero. A remainder overflows with its
quotient. -/
def Fits : Calculation → Prop
  | sum a b => Count.Holds (a.toInt + b.toInt)
  | difference a b => Count.Holds (a.toInt - b.toInt)
  | remainder a b => b ≠ 0 ∧ ¬ (a = Int64.minValue ∧ b = -1)

instance (c : Calculation) : Decidable c.Fits := by
  cases c
  · exact inferInstanceAs (Decidable (Count.Holds _))
  · exact inferInstanceAs (Decidable (Count.Holds _))
  · exact inferInstanceAs (Decidable (_ ∧ ¬ (_ ∧ _)))

theorem toInt_result {c : Calculation} (h : c.Fits) : c.result.toInt = c.exact := by
  have hwrap {n : Int} (hn : Count.Holds n) : n.bmod (2 ^ 64) = n := by
    rw [Count.Holds, Int64.toInt_minValue, Int64.toInt_maxValue] at hn
    exact Int.bmod_eq_of_le (by omega) (by omega)
  cases c with
  | sum a b => exact (Int64.toInt_add a b).trans (hwrap h)
  | difference a b => exact (Int64.toInt_sub a b).trans (hwrap h)
  | remainder a b => exact Int64.toInt_mod a b

def Safe (cs : List Calculation) : Prop := ∀ c ∈ cs, c.Fits

instance (cs : List Calculation) : Decidable (Safe cs) :=
  inferInstanceAs (Decidable (∀ c ∈ cs, c.Fits))

theorem safe_append {cs cs' : List Calculation} : Safe (cs ++ cs') ↔ Safe cs ∧ Safe cs' := by
  simp [Safe, or_imp, forall_and]

theorem safe_singleton {c : Calculation} : Safe [c] ↔ c.Fits := by simp [Safe]

theorem safe_nil : Safe [] := nofun

/-- The first of the calculations that does not fit; those behind it are not performed. -/
def firstUnfit (cs : List Calculation) : Option Calculation := cs.find? fun c => ¬ c.Fits

theorem not_fits_of_firstUnfit {cs : List Calculation} {c : Calculation}
    (h : firstUnfit cs = some c) : ¬ c.Fits := by
  simpa using List.find?_some h

theorem firstUnfit_eq_none {cs : List Calculation} : firstUnfit cs = none ↔ Safe cs := by
  simp [firstUnfit, Safe]

theorem exists_firstUnfit {cs : List Calculation} (h : ¬ Safe cs) : ∃ c, firstUnfit cs = some c :=
  Option.ne_none_iff_exists'.mp fun hnone => h (firstUnfit_eq_none.mp hnone)

end Calculation

theorem Count.next_outcome (count : Int64) :
    Meets (fun fault => fault = .overflow ∧ ¬ (Calculation.sum count 1).Fits)
      (fun next => next.toInt = count.toInt + 1 ∧ (Calculation.sum count 1).Fits)
      (Count.next count : Except (Fault α) Int64) :=
  Count.ofInt_outcome (count.toInt + 1)

theorem Count.eq_maxValue_of_unfit {count : Int64} (h : ¬ (Calculation.sum count 1).Fits) :
    count = Int64.maxValue := by
  have hmin := count.le_toInt
  have hmax := count.toInt_lt
  have hone : (1 : Int64).toInt = 1 := rfl
  rw [Calculation.Fits, Count.Holds, Int64.toInt_minValue, Int64.toInt_maxValue, hone] at h
  rw [← Int64.toInt_inj, Int64.toInt_maxValue]
  omega

namespace Helical

def checks (params : Store α) (count : Int64) : List Calculation :=
  match params.integer "branchlessPoints", params.integer "stepsBetweenSplit" with
  | .ok branchless, .ok steps =>
    if branchless < count ∧ steps ≠ 0 then
      [.difference count branchless, .remainder (count - branchless) steps]
    else []
  | _, _ => []

/-- The calculations of a production in their order. The last one is the next count. -/
def calculations (params : Store α) : Helical α → List Calculation
  | stalk _ _ _ count => checks params count ++ [.sum count 1]
  | shoot _ _ => []

theorem checks_eq {branchless steps : Int64}
    (hbranchless : params.integer "branchlessPoints" = .ok branchless)
    (hsteps : params.integer "stepsBetweenSplit" = .ok steps) (count : Int64) :
    checks params count = if branchless < count ∧ steps ≠ 0 then
      [.difference count branchless, .remainder (count - branchless) steps] else [] := by
  simp only [checks, hbranchless, hsteps]

end Helical

namespace Stochastic

/-- The calculations of a production. A node counts its depth where it sprouts another node. -/
def calculations : Stochastic α → List Calculation
  | apex _ depth => [.sum depth 1]
  | twig remaining => if remaining < 0 then [] else [.difference remaining 1]

theorem safe_twig (remaining : Int64) :
    Calculation.Safe (calculations (twig remaining : Stochastic α)) := by
  change Calculation.Safe (if remaining < 0 then [] else [.difference remaining 1])
  split
  next => exact Calculation.safe_nil
  next h =>
    have hpos := Int64.le_iff_toInt_le.mp (Int64.not_lt.mp h)
    have hmax := remaining.toInt_lt
    have hone : (1 : Int64).toInt = 1 := rfl
    rw [Calculation.safe_singleton, Calculation.Fits, Count.Holds, hone, Int64.toInt_minValue,
      Int64.toInt_maxValue]
    rw [Int64.toInt_zero] at hpos
    omega

end Stochastic

end Arbor
