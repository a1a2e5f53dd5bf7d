import Arbor.Scalar
import Arbor.Decimal.Binary

namespace Arbor

instance : Scalar Float where
  zero := 0.0
  one := 1.0
  decLt := Float.decLt
  decLe := Float.decLe
  ofInt := Float.ofInt
  abs := Float.abs
  rem := floatRem
  pi := 3.141592653589793
  sqrt := Float.sqrt
  sin := Float.sin
  cos := Float.cos
  acos := Float.acos
  atan := Float.atan
  atan2 := Float.atan2

end Arbor
