import Mathlib.Tactic

/-!
# Hypura.Rust.Text

The functions of Rust's `str` and `u32::from_str` that the program calls on tensor
names, over the characters of a Lean `String`. Every delimiter the program searches
for is ASCII, so splitting at characters and splitting at bytes agree.
-/

namespace Hypura.Rust

/-- `s.contains(pat)`. -/
def contains (s pat : String) : Bool :=
  s.toList.tails.any fun t => pat.toList.isPrefixOf t

/-- The characters after the first occurrence of `pat`: `&s[s.find(pat)? + pat.len()..]`. -/
def afterFirst (s pat : String) : Option (List Char) :=
  (s.toList.tails.find? fun t => pat.toList.isPrefixOf t).map fun t => t.drop pat.length

/-- `s.starts_with(pat)`. -/
def startsWith (s pat : String) : Bool :=
  pat.toList.isPrefixOf s.toList

/-- `s.split(c)`. -/
def split (s : String) (c : Char) : List (List Char) :=
  s.toList.splitOn c

/-- `c.is_ascii_digit()`. -/
def isAsciiDigit (c : Char) : Bool :=
  '0' ≤ c && c ≤ '9'

/-- The digit loop of `u32::from_str`: `None` at the first character that is not a
digit, and as soon as the accumulated value leaves the type. -/
def parseDigits : List Char → Nat → Option Nat
  | [], acc => some acc
  | c :: cs, acc =>
    if isAsciiDigit c then
      let acc' := acc * 10 + (c.toNat - '0'.toNat)
      if acc' < 2 ^ 32 then parseDigits cs acc' else none
    else none

/-- `s.parse::<u32>().ok()`: one leading `+` is accepted, an empty number is not. -/
def parseU32 : List Char → Option Nat
  | [] => none
  | ['+'] => none
  | '+' :: cs => parseDigits cs 0
  | cs => parseDigits cs 0

theorem parseDigits_lt {cs : List Char} {acc n : Nat} (hacc : acc < 2 ^ 32)
    (h : parseDigits cs acc = some n) : n < 2 ^ 32 := by
  induction cs generalizing acc with
  | nil => cases h; exact hacc
  | cons c cs ih =>
      simp only [parseDigits] at h
      split at h
      · split at h
        · next hlt => exact ih hlt h
        · cases h
      · cases h

/-- A parsed number is a `u32`. -/
theorem parseU32_lt {cs : List Char} {n : Nat} (h : parseU32 cs = some n) : n < 2 ^ 32 := by
  unfold parseU32 at h
  split at h
  · cases h
  · cases h
  · exact parseDigits_lt (by norm_num) h
  · exact parseDigits_lt (by norm_num) h

/-! ### Printed numbers -/

theorem le_ofDigitChars (cs : List Char) (acc : Nat) : acc ≤ Nat.ofDigitChars 10 cs acc := by
  induction cs generalizing acc with
  | nil => simp
  | cons c cs ih =>
      rw [Nat.ofDigitChars_cons]
      exact le_trans (by omega) (ih _)

/-- The digit loop computes the number its digits write, if that is a `u32`. -/
theorem parseDigits_eq {cs : List Char} {acc : Nat} (hdigits : ∀ c ∈ cs, isAsciiDigit c = true)
    (hlt : Nat.ofDigitChars 10 cs acc < 2 ^ 32) :
    parseDigits cs acc = some (Nat.ofDigitChars 10 cs acc) := by
  induction cs generalizing acc with
  | nil => simp [parseDigits]
  | cons c cs ih =>
      rw [Nat.ofDigitChars_cons, Nat.mul_comm 10] at hlt ⊢
      have hacc := lt_of_le_of_lt (le_ofDigitChars cs _) hlt
      rw [parseDigits, if_pos (hdigits c List.mem_cons_self)]
      simp only [hacc, if_true]
      exact ih (fun c' hc' => hdigits c' (List.mem_cons_of_mem _ hc')) hlt

theorem isAsciiDigit_of_mem_toDigits {n : Nat} {c : Char} (h : c ∈ Nat.toDigits 10 n) :
    isAsciiDigit c = true := by
  have hdigit := Nat.isDigit_of_mem_toDigits (by decide) (by decide) h
  simpa [isAsciiDigit, Char.isDigit, Char.le_def] using hdigit

/-- A printed `u32` parses back. -/
theorem parseU32_toDigits {n : Nat} (h : n < 2 ^ 32) : parseU32 (Nat.toDigits 10 n) = some n := by
  have hdigits : ∀ c ∈ Nat.toDigits 10 n, isAsciiDigit c = true :=
    fun c hc => isAsciiDigit_of_mem_toDigits hc
  have hparse : parseDigits (Nat.toDigits 10 n) 0 = some _ := parseDigits_eq hdigits (by simpa using h)
  rw [Nat.ofDigitChars_ten_toDigits] at hparse
  cases hd : Nat.toDigits 10 n with
  | nil => exact absurd hd Nat.toDigits_ne_nil
  | cons c cs =>
      rw [hd] at hparse hdigits
      have hplus : c ≠ '+' := by
        intro hc
        have hfirst := hdigits c List.mem_cons_self
        rw [hc] at hfirst
        exact absurd hfirst (by decide)
      rw [← hparse]
      unfold parseU32
      split
      · next heq => cases heq
      · next heq => exact absurd (List.cons.inj heq).1 hplus
      · next heq => exact absurd (List.cons.inj heq).1 hplus
      · rfl

/-! ### Parts between dots -/

section Parts
variable {cs part num : List Char} {parts : List (List Char)}

/-- Two parts or more: the first ends at the first dot. -/
theorem splitOn_eq_cons_cons : cs.splitOn '.' = part :: num :: parts ↔
    '.' ∉ part ∧ ∃ rest, cs = part ++ '.' :: rest ∧ rest.splitOn '.' = num :: parts := by
  constructor
  · intro h
    have hdot : '.' ∈ cs := by
      by_contra hno
      rw [List.splitOn_eq_singleton hno] at h
      cases h
    obtain ⟨p, rest, rfl, hp⟩ := List.eq_append_cons_of_mem hdot
    rw [List.splitOn_append_cons_self_of_not_mem hp] at h
    obtain ⟨rfl, hrest⟩ := List.cons.inj h
    exact ⟨hp, rest, rfl, hrest⟩
  · rintro ⟨hdot, rest, rfl, h⟩
    rw [List.splitOn_append_cons_self_of_not_mem hdot, h]

/-- The first dot of a text of two parts or more. -/
theorem findIdx?_dot (h : '.' ∉ part) (rest : List Char) :
    (part ++ '.' :: rest).findIdx? (· = '.') = some part.length := by
  have hfirst : part.findIdx? (· = '.') = none := by
    rw [List.findIdx?_eq_none_iff]
    intro c hc
    have hne : c ≠ '.' := fun heq => h (heq ▸ hc)
    simpa using hne
  rw [List.findIdx?_append, hfirst, List.findIdx?_cons]
  simp

/-- A name starts with a text that ends in a dot if and only if the text's part is the first
of several. -/
theorem prefix_dot_iff (h : '.' ∉ part) : part ++ ['.'] <+: cs ↔
    ∃ num parts, cs.splitOn '.' = part :: num :: parts := by
  constructor
  · rintro ⟨rest, rfl⟩
    obtain ⟨num, parts, hrest⟩ := List.exists_cons_of_ne_nil (List.splitOn_ne_nil '.' rest)
    exact ⟨num, parts, splitOn_eq_cons_cons.mpr ⟨h, rest, by simp, hrest⟩⟩
  · rintro ⟨num, parts, hsplit⟩
    obtain ⟨-, rest, rfl, -⟩ := splitOn_eq_cons_cons.mp hsplit
    exact ⟨rest, by simp⟩

end Parts

theorem notMem_toDigits_dot (l : Nat) : '.' ∉ Nat.toDigits 10 l := fun hdot =>
  absurd (isAsciiDigit_of_mem_toDigits hdot) (by decide)

end Hypura.Rust
