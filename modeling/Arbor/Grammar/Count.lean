import Arbor.Fault

namespace Arbor.Count

variable {α : Type}

/-- A count is computed exactly first; one that does not fit into 64 bits is an error. -/
def ofInt (n : Int) : Except (Fault α) Int64 :=
  if Int64.minValue.toInt ≤ n ∧ n ≤ Int64.maxValue.toInt then .ok (.ofInt n)
  else .error .overflow

def next (n : Int64) : Except (Fault α) Int64 := ofInt (n.toInt + 1)

def above (start n : Int64) : Except (Fault α) Int64 := ofInt (n.toInt - start.toInt)

end Arbor.Count
