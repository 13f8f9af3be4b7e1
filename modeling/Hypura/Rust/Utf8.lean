import Mathlib.Tactic
import Mathlib.Data.List.Basic

/-!
# Hypura.Rust.Utf8

`String::from_utf8_lossy`, over lists of bytes: what is not UTF-8 is replaced by U+FFFD.

Decoding in pieces replaces more than decoding the whole. A character whose bytes are
divided between two pieces is replaced in both, so the pieces have more characters than the
whole (`flatten_lossy_eq_iff`).
-/

namespace Hypura.Rust

/-! ### Characters -/

/-- The UTF-8 bytes of a text. -/
def utf8Encode (cs : List Char) : List UInt8 := cs.flatMap String.utf8EncodeChar

/-- `s.as_bytes()`. -/
def utf8Bytes (s : String) : List UInt8 := s.toByteArray.data.toList

/-- The character whose bytes are in front. -/
def decodeChar? (bs : List UInt8) : Option Char := bs.toByteArray.utf8DecodeChar? 0

section Chars
variable {c : Char} {bs rest : List UInt8} {cs : List Char}

theorem utf8Encode_cons : utf8Encode (c :: cs) = String.utf8EncodeChar c ++ utf8Encode cs :=
  List.flatMap_cons

theorem utf8Encode_append (cs ds : List Char) :
    utf8Encode (cs ++ ds) = utf8Encode cs ++ utf8Encode ds :=
  List.flatMap_append

theorem utf8Bytes_eq (s : String) : utf8Bytes s = utf8Encode s.toList := by
  have hbytes := congrArg (fun b : ByteArray => b.data.toList) (String.utf8Encode_toList (b := s))
  simpa [List.utf8Encode, utf8Bytes, utf8Encode] using hbytes.symm

theorem decodeChar?_encode (c : Char) (rest : List UInt8) :
    decodeChar? (String.utf8EncodeChar c ++ rest) = some c := by
  rw [decodeChar?, List.toByteArray_append]
  exact ByteArray.utf8DecodeChar?_utf8EncodeChar_append

theorem eq_of_decodeChar? (h : decodeChar? bs = some c) :
    ∃ rest, bs = String.utf8EncodeChar c ++ rest := by
  obtain ⟨l, hl⟩ := ByteArray.exists_of_utf8DecodeChar?_eq_some h
  refine ⟨l.data.toList, ?_⟩
  have := congrArg (fun b : ByteArray => b.data.toList) hl
  simpa using this

end Chars

/-- What may stand in a character after its first byte. -/
def isContinuation (b : UInt8) : Bool := 0x80 ≤ b && b ≤ 0xBF

/-- A byte that may follow the first one of a character of three bytes or four. -/
def secondByteFits (b next : UInt8) : Bool :=
  (b = 0xE0 && 0xA0 ≤ next && next ≤ 0xBF) || (0xE1 ≤ b && b ≤ 0xEC && isContinuation next) ||
  (b = 0xED && 0x80 ≤ next && next ≤ 0x9F) || (0xEE ≤ b && b ≤ 0xEF && isContinuation next) ||
  (b = 0xF0 && 0x90 ≤ next && next ≤ 0xBF) || (0xF1 ≤ b && b ≤ 0xF3 && isContinuation next) ||
  (b = 0xF4 && 0x80 ≤ next && next ≤ 0x8F)

/-- Where no character is in front: the number of bytes that are replaced together. -/
def illFormedLength : List UInt8 → Nat
  | b :: next :: rest =>
    if secondByteFits b next then if 0xF0 ≤ b && rest.head?.any isContinuation then 3 else 2
    else 1
  | _ => 1

/-- The next character of the result, and the number of bytes that it stands for. -/
def nextChar (bs : List UInt8) : Char × Nat :=
  match decodeChar? bs with
  | some c => (c, c.utf8Size)
  | none => ('\uFFFD', illFormedLength bs)

/-- The loop of `from_utf8_lossy`, for at most so many characters. -/
def lossyFrom : Nat → List UInt8 → List Char
  | 0, _ => []
  | _, [] => []
  | n + 1, b :: bs => (nextChar (b :: bs)).1 :: lossyFrom n ((b :: bs).drop (nextChar (b :: bs)).2)

/-- `String::from_utf8_lossy`. -/
def fromUtf8Lossy (bs : List UInt8) : List Char := lossyFrom bs.length bs

example : fromUtf8Lossy [0xE2, 0x82, 0xAC, 0x41, 0xE2, 0x82, 0x41, 0xAC] =
    ['€', 'A', '\uFFFD', 'A', '\uFFFD'] := by decide +kernel

/-! ### The loop -/

section Loop
variable {b : UInt8} {bs rest : List UInt8} {c : Char}

theorem illFormedLength_pos (bs : List UInt8) : 0 < illFormedLength bs := by
  unfold illFormedLength
  split
  · split
    · split <;> decide
    · decide
  · decide

theorem nextChar_pos (bs : List UInt8) : 0 < (nextChar bs).2 := by
  unfold nextChar
  split
  · next c _ => exact c.utf8Size_pos
  · exact illFormedLength_pos bs

theorem lossyFrom_eq {n : Nat} (h : bs.length ≤ n) : lossyFrom n bs = fromUtf8Lossy bs := by
  have hstable : ∀ n m : Nat, ∀ bs : List UInt8, bs.length ≤ n → bs.length ≤ m →
      lossyFrom n bs = lossyFrom m bs := by
    intro n
    induction n with
    | zero =>
        intro m bs hn _
        obtain rfl := List.length_eq_zero_iff.mp (Nat.le_zero.mp hn)
        cases m <;> rfl
    | succ n ih =>
        intro m bs hn hm
        cases bs with
        | nil => cases m <;> rfl
        | cons b bs =>
            cases m with
            | zero => exact absurd hm (by simp)
            | succ m =>
                have hpos := nextChar_pos (b :: bs)
                rw [lossyFrom, lossyFrom]
                rw [List.length_cons] at hn hm
                rw [ih m _ (by rw [List.length_drop, List.length_cons]; omega)
                  (by rw [List.length_drop, List.length_cons]; omega)]
  exact hstable n bs.length bs h le_rfl

theorem fromUtf8Lossy_cons (b : UInt8) (bs : List UInt8) : fromUtf8Lossy (b :: bs) =
    (nextChar (b :: bs)).1 :: fromUtf8Lossy ((b :: bs).drop (nextChar (b :: bs)).2) := by
  have hpos := nextChar_pos (b :: bs)
  rw [fromUtf8Lossy, List.length_cons, lossyFrom, lossyFrom_eq]
  rw [List.length_drop, List.length_cons]
  omega

theorem nextChar_encode (c : Char) (rest : List UInt8) :
    nextChar (String.utf8EncodeChar c ++ rest) = (c, c.utf8Size) := by
  rw [nextChar, decodeChar?_encode]

/-- A text is read back from its bytes. -/
theorem fromUtf8Lossy_encode (cs : List Char) : fromUtf8Lossy (utf8Encode cs) = cs := by
  induction cs with
  | nil => rfl
  | cons c cs ih =>
      have hlen := String.length_utf8EncodeChar c
      obtain ⟨b, bs, hbs⟩ := List.exists_cons_of_length_pos (l := String.utf8EncodeChar c)
        (hlen ▸ c.utf8Size_pos)
      rw [utf8Encode_cons, hbs, List.cons_append, fromUtf8Lossy_cons, ← List.cons_append, ← hbs,
        nextChar_encode, ← hlen, List.drop_left, ih]

theorem utf8Encode_injective : Function.Injective utf8Encode :=
  Function.LeftInverse.injective fromUtf8Lossy_encode

end Loop

/-! ### First bytes -/

/-- The number of bytes that can begin a character. -/
def firstBytes (bs : List UInt8) : Nat := bs.countP fun b => decide b.IsUTF8FirstByte

section FirstBytes
variable {b : UInt8} {p q bs rest : List UInt8} {c : Char} {cs : List Char}

theorem firstBytes_append (p q : List UInt8) : firstBytes (p ++ q) = firstBytes p + firstBytes q :=
  List.countP_append

theorem not_first_of_continuation (h : isContinuation b = true) : ¬ b.IsUTF8FirstByte := by
  have hall : ∀ n : Fin 256, isContinuation (.ofNat n) = true → ¬ (UInt8.ofNat n).IsUTF8FirstByte := by
    decide +kernel
  have hb := hall ⟨b.toNat, b.toNat_lt⟩
  rw [UInt8.ofNat_toNat] at hb
  exact hb h

theorem isContinuation_of_secondByteFits {next : UInt8} (h : secondByteFits b next = true) :
    isContinuation next = true := by
  simp only [secondByteFits, isContinuation, Bool.or_eq_true, Bool.and_eq_true, decide_eq_true_eq,
    UInt8.le_iff_toNat_le] at h ⊢
  have h80 : (0x80 : UInt8).toNat = 0x80 := rfl
  have h8F : (0x8F : UInt8).toNat = 0x8F := rfl
  have h90 : (0x90 : UInt8).toNat = 0x90 := rfl
  have h9F : (0x9F : UInt8).toNat = 0x9F := rfl
  have hA0 : (0xA0 : UInt8).toNat = 0xA0 := rfl
  have hBF : (0xBF : UInt8).toNat = 0xBF := rfl
  omega

/-- A character has one first byte: the first. -/
theorem utf8EncodeChar_eq_cons (c : Char) : ∃ b bs, String.utf8EncodeChar c = b :: bs ∧
    b.IsUTF8FirstByte ∧ ∀ x ∈ bs, ¬ x.IsUTF8FirstByte := by
  obtain ⟨b, bs, hbs⟩ := List.exists_cons_of_length_pos (l := String.utf8EncodeChar c)
    (String.length_utf8EncodeChar c ▸ c.utf8Size_pos)
  have hfirst : ∀ i (hi : i < (b :: bs).length), (b :: bs)[i].IsUTF8FirstByte ↔ i = 0 := by
    rw [← hbs]
    exact fun i hi => UInt8.isUTF8FirstByte_getElem_utf8EncodeChar
  refine ⟨b, bs, hbs, (hfirst 0 (by simp)).mpr rfl, fun x hx => ?_⟩
  obtain ⟨i, hi, rfl⟩ := List.mem_iff_getElem.mp hx
  exact fun h => absurd ((hfirst (i + 1) (by simpa using hi)).mp h) (Nat.succ_ne_zero i)

theorem firstBytes_eq_zero (h : ∀ x ∈ bs, ¬ x.IsUTF8FirstByte) : firstBytes bs = 0 :=
  List.countP_eq_zero.mpr fun x hx => by simpa using h x hx

theorem firstBytes_cons (h : ∀ x ∈ bs, ¬ x.IsUTF8FirstByte) :
    firstBytes (b :: bs) = if b.IsUTF8FirstByte then 1 else 0 := by
  rw [firstBytes, List.countP_cons, ← firstBytes, firstBytes_eq_zero h]
  simp

/-- A text has as many first bytes as characters. -/
theorem firstBytes_encode (cs : List Char) : firstBytes (utf8Encode cs) = cs.length := by
  induction cs with
  | nil => rfl
  | cons c cs ih =>
      obtain ⟨b, bs, hbs, hb, hrest⟩ := utf8EncodeChar_eq_cons c
      rw [utf8Encode_cons, firstBytes_append, ih, hbs, firstBytes_cons hrest, if_pos hb,
        List.length_cons, Nat.add_comm]

/-- What one character of the result stands for has no first byte but its own first. -/
theorem firstBytes_take_nextChar (b : UInt8) (bs : List UInt8) :
    firstBytes ((b :: bs).take (nextChar (b :: bs)).2) = if b.IsUTF8FirstByte then 1 else 0 := by
  cases hdecode : decodeChar? (b :: bs) with
  | some c =>
      obtain ⟨rest, hrest⟩ := eq_of_decodeChar? hdecode
      have hwidth : (nextChar (b :: bs)).2 = (String.utf8EncodeChar c).length := by
        rw [nextChar, hdecode, String.length_utf8EncodeChar]
      obtain ⟨b', bs', hbs', hb', hrest'⟩ := utf8EncodeChar_eq_cons c
      obtain rfl : b = b' := by
        rw [hbs'] at hrest
        exact (List.cons.inj hrest).1
      rw [hwidth, hrest, List.take_left, hbs', firstBytes_cons hrest']
  | none =>
      have hwidth : (nextChar (b :: bs)).2 = illFormedLength (b :: bs) := by
        rw [nextChar, hdecode]
      rw [hwidth]
      cases bs with
      | nil => exact firstBytes_cons (by simp)
      | cons next rest =>
          rw [illFormedLength]
          split
          · next hfits =>
              have hnext := not_first_of_continuation (isContinuation_of_secondByteFits hfits)
              split
              · next hthird =>
                  obtain ⟨-, hthird⟩ := Bool.and_eq_true_iff.mp hthird
                  cases rest with
                  | nil => cases hthird
                  | cons third rest =>
                      refine firstBytes_cons fun x hx => ?_
                      rcases List.mem_cons.mp hx with rfl | hx
                      · exact hnext
                      · obtain rfl := List.mem_singleton.mp hx
                        exact not_first_of_continuation hthird
              · refine firstBytes_cons fun x hx => ?_
                obtain rfl := List.mem_singleton.mp hx
                exact hnext
          · exact firstBytes_cons (by simp)

/-- One character of the result accounts for its own first byte. -/
theorem firstBytes_step (b : UInt8) (bs : List UInt8) : firstBytes (b :: bs) =
    (if b.IsUTF8FirstByte then 1 else 0) + firstBytes ((b :: bs).drop (nextChar (b :: bs)).2) := by
  rw [← firstBytes_take_nextChar b bs, ← firstBytes_append, List.take_append_drop]

/-- There are at least as many characters in the result as first bytes. -/
theorem firstBytes_le_lossy (bs : List UInt8) : firstBytes bs ≤ (fromUtf8Lossy bs).length := by
  induction hn : bs.length using Nat.strongRecOn generalizing bs with
  | ind n ih =>
      cases bs with
      | nil => exact Nat.zero_le _
      | cons b bs =>
          have hpos := nextChar_pos (b :: bs)
          have hdrop : ((b :: bs).drop (nextChar (b :: bs)).2).length < n := by
            rw [← hn, List.length_drop, List.length_cons]
            omega
          have hrest := ih _ hdrop _ rfl
          rw [firstBytes_step, fromUtf8Lossy_cons, List.length_cons]
          split <;> omega

/-- There are more of them, if it begins with another byte. -/
theorem firstBytes_lt_lossy (hb : ¬ b.IsUTF8FirstByte) (bs : List UInt8) :
    firstBytes (b :: bs) < (fromUtf8Lossy (b :: bs)).length := by
  rw [firstBytes_step, if_neg hb, Nat.zero_add, fromUtf8Lossy_cons, List.length_cons]
  exact Nat.lt_succ_of_le (firstBytes_le_lossy _)

/-- The bytes begin a character, if there are any. -/
def BeginsChar (bs : List UInt8) : Prop := ∀ b ∈ bs.head?, b.IsUTF8FirstByte

/-- A text that is cut before a first byte is cut between two characters. -/
theorem exists_encode_of_append (h : utf8Encode cs = p ++ q) (hq : BeginsChar q) :
    ∃ ds es, p = utf8Encode ds ∧ q = utf8Encode es := by
  induction cs generalizing p with
  | nil =>
      obtain ⟨rfl, rfl⟩ := List.append_eq_nil_iff.mp h.symm
      exact ⟨[], [], rfl, rfl⟩
  | cons c cs ih =>
      cases p with
      | nil => exact ⟨[], c :: cs, rfl, h.symm⟩
      | cons b p =>
          obtain ⟨b', bs, hbs, -, hrest⟩ := utf8EncodeChar_eq_cons c
          rw [utf8Encode_cons, hbs, List.cons_append, List.cons_append] at h
          obtain ⟨rfl, htail⟩ := List.cons.inj h
          rcases List.append_eq_append_iff.mp htail with ⟨p', rfl, hq'⟩ | ⟨q', hbs', hq'⟩
          · obtain ⟨ds, es, rfl, hes⟩ := ih hq'
            refine ⟨c :: ds, es, ?_, hes⟩
            rw [utf8Encode_cons, hbs, List.cons_append]
          · cases q' with
            | nil =>
                rw [List.append_nil] at hbs'
                refine ⟨[c], cs, ?_, hq'⟩
                rw [utf8Encode_cons, hbs, hbs']
                exact (List.append_nil _).symm
            | cons x q' =>
                -- the cut would be inside the character
                have hx : x ∈ bs := hbs' ▸ List.mem_append_right _ List.mem_cons_self
                exact absurd (hq x (by rw [hq']; rfl)) (hrest x hx)

end FirstBytes

/-! ### Decoding in pieces -/

/-- The bytes are those of a text. -/
def IsUtf8 (bs : List UInt8) : Prop := ∃ cs, bs = utf8Encode cs

section Pieces
variable {cs : List Char} {pieces : List (List UInt8)}

theorem flatten_of_isUtf8 (h : ∀ p ∈ pieces, IsUtf8 p) :
    pieces.flatten = utf8Encode (pieces.map fromUtf8Lossy).flatten := by
  induction pieces with
  | nil => rfl
  | cons p pieces ih =>
      obtain ⟨ds, rfl⟩ := h p List.mem_cons_self
      rw [List.flatten_cons, List.map_cons, List.flatten_cons, utf8Encode_append,
        fromUtf8Lossy_encode, ← ih fun q hq => h q (List.mem_cons_of_mem _ hq)]

theorem firstBytes_flatten_le (pieces : List (List UInt8)) :
    firstBytes pieces.flatten ≤ (pieces.map fromUtf8Lossy).flatten.length := by
  induction pieces with
  | nil => exact Nat.zero_le _
  | cons p pieces ih =>
      rw [List.flatten_cons, firstBytes_append, List.map_cons, List.flatten_cons, List.length_append]
      exact Nat.add_le_add (firstBytes_le_lossy p) ih

/-- Where the pieces have no more characters than first bytes, each begins a character. -/
theorem beginsChar_of_length_le
    (h : (pieces.map fromUtf8Lossy).flatten.length ≤ firstBytes pieces.flatten) :
    ∀ p ∈ pieces, BeginsChar p := by
  induction pieces with
  | nil => exact fun _ hp => by cases hp
  | cons p pieces ih =>
      rw [List.flatten_cons, firstBytes_append, List.map_cons, List.flatten_cons,
        List.length_append] at h
      have hp := firstBytes_le_lossy p
      have hpieces := firstBytes_flatten_le pieces
      refine List.forall_mem_cons.mpr ⟨fun b hb => ?_, ih (by omega)⟩
      by_contra hnot
      cases p with
      | nil => cases hb
      | cons x xs =>
          obtain rfl : x = b := by simpa using hb
          have hlt := firstBytes_lt_lossy hnot xs
          omega

/-- If every piece of a text begins a character, every piece is a text. -/
theorem isUtf8_of_beginsChar (h : pieces.flatten = utf8Encode cs)
    (hbegins : ∀ p ∈ pieces, BeginsChar p) : ∀ p ∈ pieces, IsUtf8 p := by
  induction pieces generalizing cs with
  | nil => exact fun _ hp => by cases hp
  | cons p pieces ih =>
      obtain ⟨hp, hpieces⟩ := List.forall_mem_cons.mp hbegins
      have hrest : BeginsChar pieces.flatten := fun b hb => by
        rw [List.head?_flatten] at hb
        obtain ⟨q, hq, hqb⟩ := List.exists_of_findSome?_eq_some hb
        exact hpieces q hq b hqb
      obtain ⟨ds, es, hds, hes⟩ := exists_encode_of_append (p := p) h.symm hrest
      exact List.forall_mem_cons.mpr ⟨⟨ds, hds⟩, ih hes hpieces⟩

/-- **Decoding in pieces**: the pieces of a text decode to the text if and only if each of
them is one. -/
theorem flatten_lossy_eq_iff (h : pieces.flatten = utf8Encode cs) :
    (pieces.map fromUtf8Lossy).flatten = cs ↔ ∀ p ∈ pieces, IsUtf8 p := by
  constructor
  · intro heq
    refine isUtf8_of_beginsChar h (beginsChar_of_length_le ?_)
    rw [h, firstBytes_encode, heq]
  · intro hpieces
    exact utf8Encode_injective ((flatten_of_isUtf8 hpieces).symm.trans h)

end Pieces

end Hypura.Rust
