import Mathlib.Tactic
import Mathlib.Data.List.Basic

/-!
# Hypura.Core.Regex

Regular expressions that are sequences of characters and anchors, searched in a text.

* `parse` reads a pattern in the ECMAScript grammar; a pattern that uses more of it
  (quantifiers, groups, classes, alternatives) has no reading here,
* `escape` writes a text as a pattern of its characters (`parse_escape`),
* between two anchors such a pattern matches its text only (`search_whole`), after the
  first alone the texts that start with it (`search_start`).

Whether the anchors also match at line breaks depends on the engine: the parameter
`multiline` says so.
-/

namespace Hypura.Core.Regex

inductive Atom
  | char (c : Char)
  /-- Any character but a line break. -/
  | any
  | start
  | stop
  deriving DecidableEq, Repr

/-- The characters that stand for something else than themselves. -/
def syntaxChars : List Char :=
  ['^', '$', '\\', '.', '*', '+', '?', '(', ')', '[', ']', '{', '}', '|']

def isLineBreak (c : Char) : Bool :=
  c = '\n' || c = '\r' || c = Char.ofNat 0x2028 || c = Char.ofNat 0x2029

/-- The reading of a pattern. -/
def parse : List Char → Option (List Atom)
  | [] => some []
  | '\\' :: c :: cs => if c ∈ syntaxChars then (parse cs).map (.char c :: ·) else none
  | c :: cs =>
    if c = '^' then (parse cs).map (.start :: ·)
    else if c = '$' then (parse cs).map (.stop :: ·)
    else if c = '.' then (parse cs).map (.any :: ·)
    else if c ∈ syntaxChars then none
    else (parse cs).map (.char c :: ·)

/-! ### Matching -/

section Match
variable (multiline : Bool)

/-- The atoms match at a place: `prev` is the character before it. -/
def matchHere : List Atom → Option Char → List Char → Bool
  | [], _, _ => true
  | .char c :: r, _, x :: xs => x = c && matchHere r (some x) xs
  | .any :: r, _, x :: xs => !isLineBreak x && matchHere r (some x) xs
  | .char _ :: _, _, [] => false
  | .any :: _, _, [] => false
  | .start :: r, prev, xs => prev.all (multiline && isLineBreak ·) && matchHere r prev xs
  | .stop :: r, prev, xs => xs.head?.all (multiline && isLineBreak ·) && matchHere r prev xs

/-- The atoms match at this place or after it. -/
def searchFrom (r : List Atom) : Option Char → List Char → Bool
  | prev, [] => matchHere multiline r prev []
  | prev, x :: xs => matchHere multiline r prev (x :: xs) || searchFrom r (some x) xs

/-- The atoms match somewhere in the text. -/
def search (r : List Atom) (cs : List Char) : Bool := searchFrom multiline r none cs

end Match

/-- A text, as atoms. -/
def literal (cs : List Char) : List Atom := cs.map .char

/-- A text, as a pattern. -/
def escape (cs : List Char) : List Char :=
  cs.flatMap fun c => if c ∈ syntaxChars then ['\\', c] else [c]

section Lemmas
variable {multiline : Bool} {r : List Atom} {lit cs rest : List Char} {prev : Option Char}
  {c x : Char}

/-! ### Patterns -/

theorem parse_escaped (h : c ∈ syntaxChars) :
    parse ('\\' :: c :: cs) = (parse cs).map (.char c :: ·) := by
  rw [parse, if_pos h]

theorem parse_plain (h : c ∉ syntaxChars) : parse (c :: cs) = (parse cs).map (.char c :: ·) := by
  have hne : ∀ d ∈ syntaxChars, c ≠ d := fun d hd heq => h (heq ▸ hd)
  rw [parse, if_neg (hne '^' (by decide)), if_neg (hne '$' (by decide)),
    if_neg (hne '.' (by decide)), if_neg h]
  exact fun d ds heq => absurd heq (hne '\\' (by decide))

theorem parse_start : parse ('^' :: cs) = (parse cs).map (.start :: ·) := rfl

theorem parse_stop : parse ['$'] = some [.stop] := rfl

/-- An escaped text reads as its characters. -/
theorem parse_escape (lit rest : List Char) :
    parse (escape lit ++ rest) = (parse rest).map (literal lit ++ ·) := by
  induction lit with
  | nil => exact Option.map_id'.symm
  | cons c lit ih =>
      have htail : parse (escape (c :: lit) ++ rest) =
          (parse (escape lit ++ rest)).map (.char c :: ·) := by
        by_cases h : c ∈ syntaxChars
        · have hcons : escape (c :: lit) = '\\' :: c :: escape lit := by
            simp [escape, h]
          rw [hcons]
          exact parse_escaped h
        · have hcons : escape (c :: lit) = c :: escape lit := by
            simp [escape, h]
          rw [hcons]
          exact parse_plain h
      rw [htail, ih, Option.map_map]
      rfl

/-- A text without syntax characters is its own pattern. -/
theorem escape_eq_self (h : ∀ c ∈ lit, c ∉ syntaxChars) : escape lit = lit := by
  induction lit with
  | nil => rfl
  | cons c lit ih =>
      have hc := h c List.mem_cons_self
      have htail := ih fun d hd => h d (List.mem_cons_of_mem _ hd)
      rw [escape, List.flatMap_cons, if_neg hc, ← escape, htail]
      rfl

theorem escape_append (lit lit' : List Char) : escape (lit ++ lit') = escape lit ++ escape lit' :=
  List.flatMap_append

/-! ### Texts -/

/-- A literal matches where its text stands. -/
theorem matchHere_literal (lit : List Char) : matchHere multiline (literal lit ++ r) prev cs ↔
    ∃ rest, cs = lit ++ rest ∧ matchHere multiline r (lit.foldl (fun _ c => some c) prev) rest := by
  induction lit generalizing prev cs with
  | nil =>
      constructor
      · intro h
        exact ⟨cs, rfl, h⟩
      · rintro ⟨_, rfl, h⟩
        exact h
  | cons c lit ih =>
      cases cs with
      | nil => simp [literal, matchHere]
      | cons x xs =>
          have hstep : matchHere multiline (literal (c :: lit) ++ r) prev (x :: xs) ↔
              x = c ∧ matchHere multiline (literal lit ++ r) (some x) xs := by
            simp [literal, matchHere]
          rw [hstep, ih]
          constructor
          · rintro ⟨rfl, rest, rfl, h⟩
            exact ⟨rest, rfl, h⟩
          · rintro ⟨rest, heq, h⟩
            obtain ⟨rfl, rfl⟩ := List.cons.inj heq
            exact ⟨rfl, rest, rfl, h⟩

/-- Inside a line the first anchor does not match. -/
theorem not_matchHere_start (h : isLineBreak c = false) :
    matchHere multiline (.start :: r) (some c) cs = false := by
  simp [matchHere, h]

theorem not_searchFrom_start (hc : isLineBreak c = false) (h : ∀ x ∈ cs, isLineBreak x = false) :
    searchFrom multiline (.start :: r) (some c) cs = false := by
  induction cs generalizing c with
  | nil => exact not_matchHere_start hc
  | cons x xs ih =>
      rw [searchFrom, not_matchHere_start hc, Bool.false_or]
      exact ih (h x List.mem_cons_self) fun y hy => h y (List.mem_cons_of_mem _ hy)

/-- In a text of one line, what starts with the first anchor matches at its start. -/
theorem search_anchored (h : ∀ x ∈ cs, isLineBreak x = false) :
    search multiline (.start :: r) cs = matchHere multiline r none cs := by
  have hhere : matchHere multiline (.start :: r) none cs = matchHere multiline r none cs :=
    Bool.true_and _
  cases cs with
  | nil => exact hhere
  | cons x xs =>
      rw [search, searchFrom, hhere, not_searchFrom_start (h x List.mem_cons_self)
        fun y hy => h y (List.mem_cons_of_mem _ hy), Bool.or_false]

/-- The first anchor matches at the start, or after a line break if it sees them. -/
theorem searchFrom_start : searchFrom multiline (.start :: r) prev cs ↔
    matchHere multiline (.start :: r) prev cs ∨
      ∃ u c v, cs = u ++ c :: v ∧ (multiline && isLineBreak c) = true ∧
        matchHere multiline r (some c) v := by
  induction cs generalizing prev with
  | nil => simp [searchFrom]
  | cons x xs ih =>
      rw [searchFrom, Bool.or_eq_true, ih]
      refine or_congr_right ?_
      have hhere : matchHere multiline (.start :: r) (some x) xs ↔
          (multiline && isLineBreak x) = true ∧ matchHere multiline r (some x) xs := by
        rw [matchHere, Option.all_some, Bool.and_eq_true]
      rw [hhere]
      constructor
      · rintro (⟨hx, h⟩ | ⟨u, c, v, rfl, hc, h⟩)
        · exact ⟨[], x, xs, rfl, hx, h⟩
        · exact ⟨x :: u, c, v, rfl, hc, h⟩
      · rintro ⟨u, c, v, heq, hc, h⟩
        cases u with
        | nil =>
            obtain ⟨rfl, rfl⟩ := List.cons.inj heq
            exact .inl ⟨hc, h⟩
        | cons y u =>
            obtain ⟨rfl, rfl⟩ := List.cons.inj heq
            exact .inr ⟨u, c, v, rfl, hc, h⟩

theorem matchHere_literal_iff : matchHere multiline (literal lit) prev cs ↔ lit <+: cs := by
  rw [← List.append_nil (literal lit), matchHere_literal]
  constructor
  · rintro ⟨rest, rfl, _⟩
    exact List.prefix_append lit rest
  · rintro ⟨rest, rfl⟩
    exact ⟨rest, rfl, rfl⟩

/-- **After the first anchor**: the texts that start with the literal, and if the anchor sees
line breaks, those with a later line that does. -/
theorem search_start_iff : search multiline (.start :: literal lit) cs ↔
    lit <+: cs ∨ multiline = true ∧
      ∃ u c v, cs = u ++ c :: v ∧ isLineBreak c = true ∧ lit <+: v := by
  have hhere : matchHere multiline (.start :: literal lit) none cs =
      matchHere multiline (literal lit) none cs := Bool.true_and _
  rw [search, searchFrom_start, hhere, matchHere_literal_iff]
  simp only [matchHere_literal_iff, Bool.and_eq_true]
  refine or_congr_right ⟨?_, ?_⟩
  · rintro ⟨u, c, v, rfl, ⟨hm, hc⟩, h⟩
    exact ⟨hm, u, c, v, rfl, hc, h⟩
  · rintro ⟨hm, u, c, v, rfl, hc, h⟩
    exact ⟨u, c, v, rfl, ⟨hm, hc⟩, h⟩

/-- In a text of one line: those that start with it. -/
theorem search_start (h : ∀ x ∈ cs, isLineBreak x = false) :
    search multiline (.start :: literal lit) cs ↔ lit <+: cs := by
  rw [search_start_iff]
  refine or_iff_left ?_
  rintro ⟨-, u, c, v, rfl, hc, -⟩
  rw [h c (List.mem_append_right _ List.mem_cons_self)] at hc
  cases hc

/-- **Between the two anchors**: the literal itself. -/
theorem search_whole (h : ∀ x ∈ cs, isLineBreak x = false) :
    search multiline (.start :: (literal lit ++ [.stop])) cs ↔ cs = lit := by
  rw [search_anchored h, matchHere_literal]
  constructor
  · rintro ⟨rest, rfl, hstop⟩
    cases rest with
    | nil => exact List.append_nil lit
    | cons x xs =>
        have hx := h x (List.mem_append_right _ List.mem_cons_self)
        simp [matchHere, hx] at hstop
  · rintro rfl
    exact ⟨[], (List.append_nil _).symm, rfl⟩

end Lemmas

end Hypura.Core.Regex
