import Hypura.Core.Exec
import Mathlib.Data.List.Basic

/-!
# Hypura.Core.Codec

A small library for **byte readers**: total decoders that walk a byte string from
the left, and the two properties that make one worth having.

* `Reads p b a`: reading `b`, whatever follows it, makes `p` return `a` and leaves
  exactly what followed. This is the form that composes through concatenation.
* `Consumes p G`: whenever `p` succeeds, the bytes it consumed are related to its
  result by `G`. Nothing is invented.

A reader that touches no byte and cannot fail is `Silent`; it has both.

A reader also writes a log of *events* (allocation requests, overflows); the log is
kept when the reader fails, and none of the lemmas here looks at it. Fixed-width
little-endian integers are described once (`Scalar`) and read by one function.
-/

namespace Hypura.Core

/-! ### Readers -/

/-- Where a reader stands: the bytes not yet read, how many were read, and the
events logged so far. -/
structure Cursor (η : Type) where
  rest : List UInt8
  pos : Nat
  events : List η

/-- A reader over a byte string: it fails with an `ε` or returns an `α`, and in both
cases leaves a cursor. -/
abbrev Reader (η ε α : Type) := EStateM ε (Cursor η) α

section Reader
variable {η ε α β γ : Type}

/-- Append an event to the log. -/
def logEvent (e : η) : Reader η ε Unit :=
  modify fun c => { c with events := c.events ++ [e] }

/-- Read exactly `n` bytes, or fail with `eof`. -/
def readExact (eof : ε) (n : Nat) : Reader η ε (List UInt8) := fun c =>
  if n ≤ c.rest.length then
    .ok (c.rest.take n) { c with rest := c.rest.drop n, pos := c.pos + n }
  else .error eof c

/-- Run the same reader `n` times and collect the results in order. -/
def readMany (p : Reader η ε α) : Nat → Reader η ε (List α)
  | 0 => pure []
  | n + 1 => do
    let a ← p
    let as ← readMany p n
    pure (a :: as)

/-! ### The two properties -/

/-- `p` reads exactly the bytes `b` as `a`, whatever follows them. -/
def Reads (p : Reader η ε α) (b : List UInt8) (a : α) : Prop :=
  ∀ r pos log, ∃ log', p ⟨b ++ r, pos, log⟩ = .ok a ⟨r, pos + b.length, log'⟩

/-- Whenever `p` succeeds, it consumed a prefix related by `G` to its result. -/
def Consumes (p : Reader η ε α) (G : List UInt8 → α → Prop) : Prop :=
  ∀ c a c', p c = .ok a c' →
    ∃ b, c.rest = b ++ c'.rest ∧ c'.pos = c.pos + b.length ∧ G b a

/-- The bytes `b` encode something that satisfies `P` and stands for `a`. -/
def EncodingOf (P : β → Prop) (enc : β → List UInt8) (val : β → α) (b : List UInt8) (a : α) : Prop :=
  ∃ x, P x ∧ b = enc x ∧ a = val x

/-- `p` reads nothing, cannot fail and returns `a`. -/
def Silent (p : Reader η ε α) (a : α) : Prop :=
  ∀ c, ∃ log', p c = .ok a ⟨c.rest, c.pos, log'⟩

namespace Silent

theorem pure (a : α) : Silent (Pure.pure a : Reader η ε α) a :=
  fun c => ⟨c.events, rfl⟩

theorem logEvent (e : η) : Silent (Core.logEvent e : Reader η ε Unit) () :=
  fun c => ⟨c.events ++ [e], rfl⟩

theorem bind {p : Reader η ε α} {f : α → Reader η ε β} {a : α} {b : β}
    (hp : Silent p a) (hf : Silent (f a) b) : Silent (p >>= f) b := by
  intro c
  obtain ⟨log₁, h₁⟩ := hp c
  obtain ⟨log₂, h₂⟩ := hf ⟨c.rest, c.pos, log₁⟩
  exact ⟨log₂, by rw [bind_eq_of_ok h₁, h₂]⟩

theorem reads {p : Reader η ε α} {a : α} (hp : Silent p a) : Reads p [] a := by
  intro r pos log
  obtain ⟨log', h⟩ := hp ⟨[] ++ r, pos, log⟩
  exact ⟨log', by simpa using h⟩

end Silent

namespace Reads

theorem map {p : Reader η ε α} {b : List UInt8} {a : α} (hp : Reads p b a) (f : α → β) :
    Reads (f <$> p) b (f a) := by
  intro r pos log
  obtain ⟨log', h⟩ := hp r pos log
  exact ⟨log', map_eq_of_ok h⟩

theorem pure (a : α) : Reads (Pure.pure a : Reader η ε α) [] a :=
  fun _ _ log => ⟨log, rfl⟩

theorem bind {p : Reader η ε α} {f : α → Reader η ε β} {b b' : List UInt8} {a : α} {a' : β}
    (hp : Reads p b a) (hf : Reads (f a) b' a') : Reads (p >>= f) (b ++ b') a' := by
  intro r pos log
  obtain ⟨l₁, h₁⟩ := hp (b' ++ r) pos log
  obtain ⟨l₂, h₂⟩ := hf r (pos + b.length) l₁
  refine ⟨l₂, ?_⟩
  rw [List.append_assoc, bind_eq_of_ok h₁, h₂, List.length_append, Nat.add_assoc]

/-- Sequencing where the continuation reads nothing more. -/
theorem bind_nil {p : Reader η ε α} {f : α → Reader η ε β} {b : List UInt8} {a : α} {a' : β}
    (hp : Reads p b a) (hf : Reads (f a) [] a') : Reads (p >>= f) b a' := by
  simpa using hp.bind hf

theorem logEvent (e : η) : Reads (Core.logEvent e : Reader η ε Unit) [] () :=
  fun _ _ log => ⟨log ++ [e], rfl⟩

/-- A logged event reads no byte, so it can be skipped. -/
theorem log_bind {e : η} {f : Unit → Reader η ε β} {b : List UInt8} {a : β}
    (hf : Reads (f ()) b a) : Reads (Core.logEvent e >>= f) b a := by
  simpa using (logEvent e).bind hf

theorem readExact (eof : ε) {n : Nat} {b : List UInt8} (h : b.length = n) :
    Reads (Core.readExact (η := η) eof n) b b := by
  intro r pos log
  subst h
  exact ⟨log, by simp [Core.readExact]⟩

/-- A repeated reader: each block reads as the image of the item it encodes. -/
theorem readMany {p : Reader η ε α} {enc : β → List UInt8} {val : β → α} :
    ∀ {bs : List β}, (∀ b ∈ bs, Reads p (enc b) (val b)) →
      Reads (Core.readMany p bs.length) (bs.flatMap enc) (bs.map val)
  | [], _ => .pure []
  | b :: bs, h => by
      have ih := readMany fun y (hy : y ∈ bs) => h y (List.mem_cons_of_mem _ hy)
      rw [List.flatMap_cons]
      exact (h b List.mem_cons_self).bind (ih.bind_nil (.pure _))

/-- The special case where each block reads as the item itself. -/
theorem readMany_self {p : Reader η ε α} {enc : α → List UInt8} {as : List α}
    (h : ∀ a ∈ as, Reads p (enc a) a) :
    Reads (Core.readMany p as.length) (as.flatMap enc) as := by
  have hid := readMany h
  rwa [List.map_id'] at hid

end Reads

namespace Consumes

theorem mono {p : Reader η ε α} {G H : List UInt8 → α → Prop} (hp : Consumes p G)
    (h : ∀ b a, G b a → H b a) : Consumes p H := by
  intro c a c' hok
  obtain ⟨b, hb, hpos, hG⟩ := hp c a c' hok
  exact ⟨b, hb, hpos, h b a hG⟩

theorem map {p : Reader η ε α} {G : List UInt8 → α → Prop} (hp : Consumes p G) (f : α → β) :
    Consumes (f <$> p) fun b x => ∃ a, G b a ∧ x = f a := by
  intro c x c' hok
  obtain ⟨a, hp', rfl⟩ := map_ok hok
  obtain ⟨b, hb, hpos, hG⟩ := hp c a c' hp'
  exact ⟨b, hb, hpos, a, hG, rfl⟩

theorem pure (a : α) : Consumes (Pure.pure a : Reader η ε α) fun b x => b = [] ∧ x = a := by
  intro c x c' hok
  obtain ⟨rfl, rfl⟩ := pure_ok hok
  exact ⟨[], rfl, rfl, rfl, rfl⟩

theorem silent {p : Reader η ε α} {a : α} (hp : Silent p a) :
    Consumes p fun b x => b = [] ∧ x = a := by
  intro c x c' hok
  obtain ⟨log', h⟩ := hp c
  rw [h] at hok
  cases hok
  exact ⟨[], rfl, rfl, rfl, rfl⟩

/-- Sequencing: the first reader's block, then the second's. -/
theorem bind {p : Reader η ε α} {f : α → Reader η ε β} {G : List UInt8 → α → Prop}
    {H : α → List UInt8 → β → Prop} (hp : Consumes p G) (hf : ∀ a, Consumes (f a) (H a)) :
    Consumes (p >>= f) fun b x => ∃ b₁ b₂ a, b = b₁ ++ b₂ ∧ G b₁ a ∧ H a b₂ x := by
  intro c x c' hok
  obtain ⟨a, c₁, h₁, h₂⟩ := bind_ok hok
  obtain ⟨b₁, hb₁, hpos₁, hG⟩ := hp _ _ _ h₁
  obtain ⟨b₂, hb₂, hpos₂, hH⟩ := hf a _ _ _ h₂
  refine ⟨b₁ ++ b₂, ?_, ?_, b₁, b₂, a, rfl, hG, hH⟩
  · rw [hb₁, hb₂, List.append_assoc]
  · rw [hpos₂, hpos₁, List.length_append, Nat.add_assoc]

/-- A logged event consumes nothing. -/
theorem log_bind {e : η} {f : Unit → Reader η ε β} {G : List UInt8 → β → Prop}
    (hf : Consumes (f ()) G) : Consumes (Core.logEvent e >>= f) G :=
  fun c x c' hok => hf ⟨c.rest, c.pos, c.events ++ [e]⟩ x c' hok

end Consumes

theorem readExact_consumes (eof : ε) (n : Nat) :
    Consumes (readExact (η := η) eof n) fun b a => a = b ∧ b.length = n := by
  intro c a c' h
  unfold readExact at h
  split at h
  · next hn =>
      cases h
      exact ⟨c.rest.take n, by simp, by simp [hn], rfl, by simp [hn]⟩
  · cases h

/-- A repeated reader accepts the encodings of lists. -/
theorem readMany_consumes {p : Reader η ε α} {P : β → Prop} {enc : β → List UInt8} {val : β → α}
    (hp : Consumes p (EncodingOf P enc val)) :
    ∀ n, Consumes (readMany p n)
      (EncodingOf (fun bs => bs.length = n ∧ ∀ b ∈ bs, P b) (List.flatMap enc) (List.map val))
  | 0 => by
      intro c as c' h
      obtain ⟨rfl, rfl⟩ := pure_ok h
      exact ⟨[], by simp, by simp, [], ⟨rfl, by simp⟩, rfl, rfl⟩
  | n + 1 => by
      refine (hp.bind fun a => (readMany_consumes hp n).bind fun as => .pure (a :: as)).mono ?_
      rintro b _ ⟨_, _, _, rfl, ⟨x, hx, rfl, rfl⟩, _, _, _, rfl, ⟨xs, ⟨hlen, hxs⟩, rfl, rfl⟩, rfl, rfl⟩
      exact ⟨x :: xs, ⟨by simp [hlen], List.forall_mem_cons.mpr ⟨hx, hxs⟩⟩, by simp, rfl⟩

/-- Blocks written one after the other, each decodable on its own, are decodable
together once their number is known. -/
theorem flatMap_append_inj {enc : α → List UInt8} {P : α → α → Prop}
    (henc : ∀ a b r r', P a b → enc a ++ r = enc b ++ r' → a = b ∧ r = r') :
    ∀ {as bs : List α} {r r' : List UInt8}, as.length = bs.length →
      (∀ a ∈ as, ∀ b ∈ bs, P a b) →
      as.flatMap enc ++ r = bs.flatMap enc ++ r' → as = bs ∧ r = r'
  | [], [], _, _, _, _, h => ⟨rfl, h⟩
  | a :: as, b :: bs, r, r', hlen, hP, h => by
      rw [List.flatMap_cons, List.flatMap_cons, List.append_assoc, List.append_assoc] at h
      obtain ⟨rfl, h₁⟩ := henc a b _ _ (hP a List.mem_cons_self b List.mem_cons_self) h
      obtain ⟨rfl, h₂⟩ := flatMap_append_inj henc (by simpa using hlen)
        (fun x hx y hy => hP x (List.mem_cons_of_mem _ hx) y (List.mem_cons_of_mem _ hy)) h₁
      exact ⟨rfl, h₂⟩

end Reader

/-! ### Little-endian integers -/

/-- The value of a little-endian byte string. -/
def leNat : List UInt8 → Nat
  | [] => 0
  | b :: bs => b.toNat + 256 * leNat bs

/-- The `k` low bytes of `n`, least significant first. -/
def leBytes : Nat → Nat → List UInt8
  | 0, _ => []
  | k + 1, n => UInt8.ofNat n :: leBytes k (n / 256)

@[simp] theorem leBytes_length (k n : Nat) : (leBytes k n).length = k := by
  induction k generalizing n with
  | zero => rfl
  | succ k ih => simp [leBytes, ih]

theorem leNat_lt (bs : List UInt8) : leNat bs < 256 ^ bs.length := by
  induction bs with
  | nil => simp [leNat]
  | cons b bs ih =>
      have hb : b.toNat < 256 := b.toNat_lt
      simp only [leNat, List.length_cons, Nat.pow_succ]
      omega

theorem leNat_leBytes {k n : Nat} (h : n < 256 ^ k) : leNat (leBytes k n) = n := by
  induction k generalizing n with
  | zero =>
      simp only [Nat.pow_zero, Nat.lt_one_iff] at h
      simp [leBytes, leNat, h]
  | succ k ih =>
      have hdiv : n / 256 < 256 ^ k := by
        rw [Nat.pow_succ] at h
        exact Nat.div_lt_of_lt_mul (by omega)
      simp only [leBytes, leNat, ih hdiv, UInt8.toNat_ofNat']
      omega

theorem leBytes_leNat (bs : List UInt8) : leBytes bs.length (leNat bs) = bs := by
  induction bs with
  | nil => rfl
  | cons b bs ih =>
      have hb : b.toNat < 256 := b.toNat_lt
      have hlow : UInt8.ofNat (b.toNat + 256 * leNat bs) = b := by
        apply UInt8.toNat_inj.mp
        rw [UInt8.toNat_ofNat']
        omega
      have hhigh : (b.toNat + 256 * leNat bs) / 256 = leNat bs := by omega
      simp only [List.length_cons, leBytes, leNat, hlow, hhigh, ih]

/-- A fixed-width integer type: its width in bytes and its exact correspondence with
the naturals below `256 ^ width`. -/
structure Scalar (α : Type) where
  width : Nat
  toNat : α → Nat
  ofNat : Nat → α
  toNat_lt : ∀ a, toNat a < 256 ^ width
  ofNat_toNat : ∀ a, ofNat (toNat a) = a
  toNat_ofNat : ∀ n, n < 256 ^ width → toNat (ofNat n) = n

namespace Scalar
variable {η ε α : Type}

/-- The little-endian encoding of a value. -/
def encode (s : Scalar α) (a : α) : List UInt8 := leBytes s.width (s.toNat a)

/-- Read one little-endian value. -/
def read (s : Scalar α) (eof : ε) : Reader η ε α := do
  let b ← readExact eof s.width
  pure (s.ofNat (leNat b))

@[simp] theorem encode_length (s : Scalar α) (a : α) : (s.encode a).length = s.width := by
  simp [encode]

theorem reads (s : Scalar α) (eof : ε) (a : α) :
    Reads (s.read (η := η) eof) (s.encode a) a := by
  have hval : s.ofNat (leNat (s.encode a)) = a := by
    rw [encode, leNat_leBytes (s.toNat_lt a), s.ofNat_toNat]
  have h := Reads.pure (η := η) (ε := ε) (s.ofNat (leNat (s.encode a)))
  rw [hval] at h
  refine (Reads.readExact eof (s.encode_length a)).bind_nil ?_
  simpa [hval] using h

theorem consumes (s : Scalar α) (eof : ε) :
    Consumes (s.read (η := η) eof) (EncodingOf (fun _ => True) s.encode id) := by
  intro c a c' h
  obtain ⟨b, c₁, h₁, h⟩ := bind_ok h
  obtain ⟨rfl, rfl⟩ := pure_ok h
  obtain ⟨b', hb, hpos, rfl, hlen⟩ := readExact_consumes eof _ _ _ _ h₁
  refine ⟨b, hb, hpos, _, trivial, ?_, rfl⟩
  have hlt : leNat b < 256 ^ s.width := hlen ▸ leNat_lt b
  change b = leBytes s.width (s.toNat (s.ofNat (leNat b)))
  rw [s.toNat_ofNat _ hlt, ← hlen, leBytes_leNat]

/-- Two encodings of one type that agree up to a suffix are of the same value. -/
theorem encode_append_inj (s : Scalar α) {a b : α} {r r' : List UInt8}
    (h : s.encode a ++ r = s.encode b ++ r') : a = b ∧ r = r' := by
  obtain ⟨he, hr⟩ := List.append_inj h (by simp)
  refine ⟨?_, hr⟩
  have hn := congrArg leNat he
  rw [encode, encode, leNat_leBytes (s.toNat_lt a), leNat_leBytes (s.toNat_lt b)] at hn
  rw [← s.ofNat_toNat a, hn, s.ofNat_toNat]

/-! The integer types themselves. -/

def u8 : Scalar UInt8 where
  width := 1
  toNat := UInt8.toNat
  ofNat := UInt8.ofNat
  toNat_lt a := a.toNat_lt
  ofNat_toNat _ := UInt8.ofNat_toNat
  toNat_ofNat _ h := UInt8.toNat_ofNat_of_lt' h

def u16 : Scalar UInt16 where
  width := 2
  toNat := UInt16.toNat
  ofNat := UInt16.ofNat
  toNat_lt a := a.toNat_lt
  ofNat_toNat _ := UInt16.ofNat_toNat
  toNat_ofNat _ h := UInt16.toNat_ofNat_of_lt' h

def u32 : Scalar UInt32 where
  width := 4
  toNat := UInt32.toNat
  ofNat := UInt32.ofNat
  toNat_lt a := a.toNat_lt
  ofNat_toNat _ := UInt32.ofNat_toNat
  toNat_ofNat _ h := UInt32.toNat_ofNat_of_lt' h

def u64 : Scalar UInt64 where
  width := 8
  toNat := UInt64.toNat
  ofNat := UInt64.ofNat
  toNat_lt a := a.toNat_lt
  ofNat_toNat _ := UInt64.ofNat_toNat
  toNat_ofNat _ h := UInt64.toNat_ofNat_of_lt' h

/-- Read a type through a bijection with one already described. -/
def map {β : Type} (s : Scalar α) (f : α → β) (g : β → α)
    (hgf : ∀ a, g (f a) = a) (hfg : ∀ b, f (g b) = b) : Scalar β where
  width := s.width
  toNat b := s.toNat (g b)
  ofNat n := f (s.ofNat n)
  toNat_lt b := s.toNat_lt (g b)
  ofNat_toNat b := by rw [s.ofNat_toNat, hfg]
  toNat_ofNat n h := by rw [hgf, s.toNat_ofNat n h]

def i8 : Scalar Int8 := u8.map UInt8.toInt8 Int8.toUInt8 (by simp) (by simp)
def i16 : Scalar Int16 := u16.map UInt16.toInt16 Int16.toUInt16 (by simp) (by simp)
def i32 : Scalar Int32 := u32.map UInt32.toInt32 Int32.toUInt32 (by simp) (by simp)
def i64 : Scalar Int64 := u64.map UInt64.toInt64 Int64.toUInt64 (by simp) (by simp)

end Scalar

end Hypura.Core
