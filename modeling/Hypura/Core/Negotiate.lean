import Mathlib.Tactic
import Mathlib.Data.List.Basic

/-!
# Hypura.Core.Negotiate

A function that fills a buffer of the caller's, called until the buffer is large enough.

The function returns how many elements it wrote, or the negated number that it would have
written when the buffer is too short (`Fills`). The caller then makes the buffer as long as
asked for and calls again (`negotiate`).
-/

namespace Hypura.Core

section Negotiate
variable {α : Type}

/-- `Vec::resize`. -/
def resize (out : List α) (n : Nat) (fill : α) : List α :=
  out.take n ++ List.replicate (n - out.length) fill

/-- Call with a buffer of the given size, and again with one of the size asked for. -/
def negotiate (call : List α → Int × List α) (fill : α) (size : Nat) : List α :=
  let (n, out) := call (List.replicate size fill)
  if n < 0 then
    let (n, out) := call (resize out (-n).toNat fill)
    out.take (max n 0).toNat
  else out.take n.toNat

/-- The function fills a buffer with `as`, from its start, if that fits. -/
structure Fills (call : List α → Int × List α) (as : List α) : Prop where
  fits : ∀ out, as.length ≤ out.length → call out = (↑as.length, as ++ out.drop as.length)
  short : ∀ out, out.length < as.length → (call out).1 = -↑as.length

theorem length_resize (out : List α) (n : Nat) (fill : α) : (resize out n fill).length = n := by
  simp only [resize, List.length_append, List.length_take, List.length_replicate]
  omega

/-- Two calls are enough. -/
theorem negotiate_eq {call : List α → Int × List α} {as : List α} (h : Fills call as) (fill : α)
    (size : Nat) : negotiate call fill size = as := by
  by_cases hsize : as.length ≤ size
  · have hfirst := h.fits (List.replicate size fill) (by simpa using hsize)
    rw [negotiate, hfirst]
    simp
  · have hfirst := h.short (List.replicate size fill) (by simpa using hsize)
    have hneg : -(as.length : Int) < 0 := by omega
    have hlen : (- -(as.length : Int)).toNat = as.length := by omega
    unfold negotiate
    simp only [hfirst, hneg, if_true, hlen]
    rw [h.fits _ (length_resize _ _ _).ge]
    simp

/-- A function that fills its buffer with `as`. -/
def fillWith (as : List α) (out : List α) : Int × List α :=
  if as.length ≤ out.length then (as.length, as ++ out.drop as.length) else (-as.length, out)

theorem fills_fillWith (as : List α) : Fills (fillWith as) as :=
  ⟨fun _ h => if_pos h, fun _ h => congrArg Prod.fst (if_neg (Nat.not_le.mpr h))⟩

end Negotiate

end Hypura.Core
