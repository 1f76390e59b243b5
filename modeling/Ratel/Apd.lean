import Ratel.Lib.Radix

/- Decimals of the library `apd`: their fields, and the numbers they stand for. The order of SQL has
   NaN first, then the negative infinity, the finite ones by their numbers, and the positive infinity. -/
namespace Ratel

open Ratel.Lib

structure Decimal where
  form : Nat
  negative : Bool
  exponent : Int
  coeff : Nat
deriving DecidableEq, Repr

namespace Decimal

/-! `apd.Form`. -/

def finite : Nat := 0
def infinite : Nat := 1
def nan : Nat := 3

/-- `IsZero`: no infinity and no NaN is zero, whatever its coefficient. -/
def isZero (d : Decimal) : Bool := decide (d.form = finite) && decide (d.coeff = 0)

/-- The decimal digits of the coefficient, as `Append` writes them and `SetString` reads them. -/
def digits (coeff : Nat) : List Nat := (Nat.digits 10 coeff).reverse

/-- The number of a finite decimal without its sign. -/
def magnitude (d : Decimal) : ℚ := d.coeff * (10 : ℚ) ^ d.exponent

/-- The number of a finite decimal. -/
def value (d : Decimal) : ℚ := if d.negative then - d.magnitude else d.magnitude

/-- The place of a decimal in the order of SQL. -/
def rank (d : Decimal) : Nat ×ₗ ℚ :=
  if d.form = nan then toLex (0, 0)
  else if d.form = infinite then (if d.negative then toLex (1, 0) else toLex (3, 0))
  else toLex (2, d.value)

/-- A decimal that the encodings take: one of the forms, an `int32` exponent and a coefficient with
    so few digits that they can be counted. -/
structure Valid (d : Decimal) : Prop where
  form : d.form = finite ∨ d.form = infinite ∨ d.form = nan
  exponent : - 2 ^ 31 ≤ d.exponent ∧ d.exponent < 2 ^ 31
  coeff : (digits d.coeff).length < 2 ^ 62

end Decimal

end Ratel
