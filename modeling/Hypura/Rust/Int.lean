import Mathlib.Tactic

/-!
# Hypura.Rust.Int

The cast from `u32` to `i32`.
-/

namespace Hypura.Rust

/-- `n as i32`, of a `u32`. -/
def asI32 (n : Nat) : Int := (n : Int).bmod (2 ^ 32)

theorem asI32_eq {n : Nat} (h : n < 2 ^ 31) : asI32 n = n := by
  refine Int.bmod_eq_of_le ?_ ?_ <;> omega

end Hypura.Rust
