import Mathlib.Algebra.Field.Rat
import Mathlib.Algebra.Order.Ring.Unbundled.Rat
import Mathlib.Data.Rat.Floor
import Hachee.Foundation.Rounding

/-!
# Numbers

A quotient of whole numbers or ratios is exact, and `divide` signals the error of a division by
zero.

A double-float is a number with 53 binary digits, and an operation with one is the exact
operation and then a rounding.  The other operand of it is made a double-float first.  The
exponents are not bounded here, so the numbers are meant to be neither huge nor tiny.
-/

namespace Hachee.Lisp

open Hachee.Foundation

/-- `(/ a b)` -/
def divide {K : Type*} [Field K] [DecidableEq K] (a b : K) : Option K :=
  if b = 0 then none else some (a / b)

theorem divide_of_ne_zero {K : Type*} [Field K] [DecidableEq K] (a : K) {b : K}
    (h : b ≠ 0) : divide a b = some (a / b) := if_neg h

namespace DoubleFloat

/-- `(coerce x 'double-float)` -/
def ofRational (x : Rat) : Rat := Rounding.round 53 x

/-- `(* x y)` -/
def mul (x y : Rat) : Rat := ofRational (x * y)

/-- `(+ x y)` -/
def add (x y : Rat) : Rat := ofRational (x + y)

/-- `(/ x y)` -/
def div (x y : Rat) : Option Rat := (divide x y).map ofRational

/-- A unit in the last place. -/
def unit (x : Rat) : Rat := 2 ^ Rounding.place 53 x

@[simp] theorem ofRational_zero : ofRational 0 = 0 := Rounding.round_zero 53

@[simp] theorem mul_zero (x : Rat) : mul x 0 = 0 := by
  rw [mul, Rat.mul_zero, ofRational_zero]

@[simp] theorem add_zero (x : Rat) : add x 0 = ofRational x := by
  rw [add, Rat.add_zero]

@[simp] theorem div_zero (x : Rat) : div x 0 = none := rfl

theorem div_of_ne_zero (x : Rat) {y : Rat} (h : y ≠ 0) : div x y = some (ofRational (x / y)) := by
  rw [div, divide_of_ne_zero x h, Option.map_some]

end DoubleFloat

end Hachee.Lisp
