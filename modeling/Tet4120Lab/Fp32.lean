import Tet4120Lab.Lib.Rounding

/-!
# types.hpp: fp32_t

The arithmetic of the program is a parameter of the functions that use it.

* `FloatOps`: the `fp32_t` operations used;
* `FloatOps.exact`: exact arithmetic;
* `FloatOps.rounded rnd`: exact arithmetic with `rnd` after every operation that rounds, and
  `FloatOps.fp32`, where `rnd` rounds to the 24 bits of a `float`.
-/

namespace Tet4120

/-- The operations on `fp32_t`: the value of a literal, `*`, `+`, unary `-`, and `x >= 0.0`. -/
structure FloatOps (F : Type*) where
  lit : ℚ → F
  mul : F → F → F
  add : F → F → F
  neg : F → F
  nonneg : F → Bool

namespace FloatOps

/-- Exact arithmetic; `lit` says what becomes of a literal. -/
def exact (lit : ℚ → ℚ) : FloatOps ℚ where
  lit := lit
  mul := (· * ·)
  add := (· + ·)
  neg := (- ·)
  nonneg x := decide (0 ≤ x)

/-- Literals, products and sums are rounded; negation and comparison are exact. -/
def rounded (rnd : ℚ → ℚ) : FloatOps ℚ where
  lit := rnd
  mul x y := rnd (x * y)
  add x y := rnd (x + y)
  neg := (- ·)
  nonneg x := decide (0 ≤ x)

/-- Rounding to nearest, ties to even, with a significand of 24 bits. -/
def fp32 : FloatOps ℚ := rounded (Rounding.roundNE 24)

end FloatOps

end Tet4120
