import Mathlib.Tactic
import Mathlib.Data.Rat.Floor

/-!
# Hypura.Rust.F64

What the program uses of `f64`. The scheduler's definitions are written over any type
with these operations, so that

* a result that only needs *some* answer from each comparison (which tensor sorts
  first, which cutoff is cheaper) holds however the arithmetic rounds, and
* a result about the arithmetic itself is stated at `ℚ`, the exact instance.
-/

namespace Hypura.Rust

/-- The operations of `f64` the program uses. -/
class F64 (F : Type) extends Add F, Sub F, Mul F, Div F, Max F, NatCast F, OfScientific F,
    LT F where
  decLt : DecidableLT F
  /-- `as u64`: truncation, clamped to the type. -/
  toU64 : F → Nat
  /-- `f64::MAX`. -/
  maxValue : F
  /-- The number a finite value stands for. -/
  toRat : F → ℚ
  toRat_zero : toRat 0.0 = 0
  toRat_one : toRat 1.0 = 1
  /-- Comparison with `0.5` separates the two values of a binary variable. -/
  half_lt_of_toRat_eq_one : ∀ x : F, toRat x = 1 → (0.5 : F) < x
  not_half_lt_of_toRat_eq_zero : ∀ x : F, toRat x = 0 → ¬ (0.5 : F) < x

instance F64.decidableLT {F : Type} [F64 F] : DecidableLT F := F64.decLt

/-- Exact arithmetic. -/
instance : F64 ℚ where
  decLt := inferInstance
  toU64 x := min (⌊x⌋.toNat) (2 ^ 64 - 1)
  maxValue := 2 ^ 1024 - 2 ^ 971
  toRat x := x
  toRat_zero := by norm_num
  toRat_one := by norm_num
  half_lt_of_toRat_eq_one x h := by
    change x = 1 at h
    rw [h]
    norm_num
  not_half_lt_of_toRat_eq_zero x h := by
    change x = 0 at h
    rw [h]
    norm_num

/-- `f64::min`. -/
def minF64 {F : Type} [F64 F] (x y : F) : F := if x < y then x else y

/-- The sum of a sequence of terms added to `acc` from the left, as `sum` and `+=` do. -/
def sumFrom {F : Type} [F64 F] (acc : F) (xs : List F) : F :=
  xs.foldl (· + ·) acc

end Hypura.Rust
