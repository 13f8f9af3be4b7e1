import Hypura.Core.Negotiate
import Hypura.Rust.Int
import Hypura.Rust.Utf8

/-!
# Hypura.Compute.Tokenize

`LlamaModel::tokenize` (`compute/ffi.rs`), which hands the prompt to `llama_tokenize` as a
C string and a length.

`llama_tokenize` is a parameter. Of its behaviour only what the wrapper relies on is
assumed (`TokenizerSpec`), and that only where the bytes it is told to read are there: the
conversion to a C string can fail, and what is passed then is shorter than the length says.
-/

namespace Hypura

open Hypura.Core Hypura.Rust

/-- What is passed to `llama_tokenize`, besides the buffer for the tokens. -/
structure TokenizeArgs where
  /-- The bytes that can be read at `text`. -/
  text : List UInt8
  textLen : Int
  addSpecial : Bool
  parseSpecial : Bool
  deriving DecidableEq, Repr

/-- The function, on a buffer for the tokens: what it returns, and the buffer after it. -/
abbrev LlamaTokenize := TokenizeArgs → List Int → Int × List Int

/-- The tokens of a text. -/
abbrev Vocab := List UInt8 → Bool → Bool → List Int

/-- Of a text that is there it returns the tokens of the first `textLen` bytes. -/
def TokenizerSpec (vocab : Vocab) (llamaTokenize : LlamaTokenize) : Prop :=
  ∀ args : TokenizeArgs, 0 ≤ args.textLen → args.textLen ≤ args.text.length →
    Fills (llamaTokenize args)
      (vocab (args.text.take args.textLen.toNat) args.addSpecial args.parseSpecial)

/-- `CString::new`: the bytes with a NUL after them, if there is none among them. -/
def cStringNew (bytes : List UInt8) : Option (List UInt8) :=
  if 0 ∈ bytes then none else some (bytes ++ [0])

/-- The arguments of both calls. `CString::default()` is the empty string. -/
def tokenizeArgs (text : String) (addBos parseSpecial : Bool) : TokenizeArgs where
  text := (cStringNew (utf8Bytes text)).getD [0]
  textLen := asI32 (utf8Bytes text).length
  addSpecial := addBos
  parseSpecial := parseSpecial

/-- `LlamaModel::tokenize`. -/
def tokenize (llamaTokenize : LlamaTokenize) (text : String) (addBos parseSpecial : Bool) :
    List Int :=
  let size := max (asI32 (utf8Bytes text).length + 32) 64
  negotiate (llamaTokenize (tokenizeArgs text addBos parseSpecial)) 0 size.toNat

/-! ### What the tokenizer sees -/

/-- Both calls are told to read the prompt, and nothing else; the tokens are those of the
prompt. -/
structure SeesPrompt (vocab : Vocab) (llamaTokenize : LlamaTokenize) (text : String)
    (addBos parseSpecial : Bool) : Prop where
  textLen : (tokenizeArgs text addBos parseSpecial).textLen = (utf8Bytes text).length
  readable : utf8Bytes text <+: (tokenizeArgs text addBos parseSpecial).text
  tokens : tokenize llamaTokenize text addBos parseSpecial =
    vocab (utf8Bytes text) addBos parseSpecial

section Tokenize
variable {vocab : Vocab} {llamaTokenize : LlamaTokenize} {text : String}
  {addBos parseSpecial : Bool}

/-- The prompt can be read at the pointer if it holds no NUL, or is one. -/
theorem prefix_tokenizeArgs_iff :
    utf8Bytes text <+: (tokenizeArgs text addBos parseSpecial).text ↔
      0 ∉ utf8Bytes text ∨ utf8Bytes text = [0] := by
  by_cases hnul : 0 ∈ utf8Bytes text
  · have htext : (tokenizeArgs text addBos parseSpecial).text = [0] := by
      simp [tokenizeArgs, cStringNew, hnul]
    rw [htext, or_iff_right (not_not.mpr hnul)]
    constructor
    · intro hprefix
      refine hprefix.eq_of_length_le ?_
      exact List.length_pos_of_mem hnul
    · intro heq
      rw [heq]
  · have htext : (tokenizeArgs text addBos parseSpecial).text = utf8Bytes text ++ [0] := by
      simp [tokenizeArgs, cStringNew, hnul]
    rw [htext]
    exact iff_of_true (List.prefix_append _ _) (.inl hnul)

/-- **The tokenizer sees exactly the prompt** if and only if the prompt holds no NUL, or is
nothing but one. -/
theorem tokenize_seesPrompt_iff (hspec : TokenizerSpec vocab llamaTokenize)
    (hlen : (utf8Bytes text).length < 2 ^ 31 - 64) (addBos parseSpecial : Bool) :
    SeesPrompt vocab llamaTokenize text addBos parseSpecial ↔
      0 ∉ utf8Bytes text ∨ utf8Bytes text = [0] := by
  have hlt : (utf8Bytes text).length < 2 ^ 31 := by omega
  have htextLen : (tokenizeArgs text addBos parseSpecial).textLen = (utf8Bytes text).length := by
    rw [tokenizeArgs, asI32_eq hlt]
  refine ⟨fun h => prefix_tokenizeArgs_iff.mp h.readable, fun hnul => ?_⟩
  have hreadable : utf8Bytes text <+: (tokenizeArgs text addBos parseSpecial).text :=
    prefix_tokenizeArgs_iff.mpr hnul
  refine ⟨htextLen, hreadable, ?_⟩
  have hfills := hspec (tokenizeArgs text addBos parseSpecial) (by omega)
    (by rw [htextLen]; exact_mod_cast hreadable.length_le)
  rw [htextLen, Int.toNat_natCast, ← List.prefix_iff_eq_take.mp hreadable] at hfills
  exact negotiate_eq hfills 0 _

end Tokenize

/-! ### A tokenizer of bytes -/

/-- Each byte is a token. -/
def byteVocab : Vocab := fun bytes _ _ => bytes.map fun b => (b.toNat : Int)

/-- A function that behaves as documented, for any vocabulary. -/
def llamaTokenizeOf (vocab : Vocab) : LlamaTokenize := fun args =>
  fillWith (vocab (args.text.take args.textLen.toNat) args.addSpecial args.parseSpecial)

theorem tokenizerSpec_of (vocab : Vocab) : TokenizerSpec vocab (llamaTokenizeOf vocab) :=
  fun _ _ _ => fills_fillWith _

theorem hello_seesPrompt :
    SeesPrompt byteVocab (llamaTokenizeOf byteVocab) "Hello" true true :=
  (tokenize_seesPrompt_iff (tokenizerSpec_of byteVocab) (by decide) true true).mpr
    (.inl (by decide))

/-- Of a prompt of three bytes, one of them NUL, a single byte can be read. -/
theorem interiorNul_unseen : ¬ SeesPrompt byteVocab (llamaTokenizeOf byteVocab)
    (.ofList ['a', Char.ofNat 0, 'b']) true true := by
  intro h
  rcases prefix_tokenizeArgs_iff.mp h.readable with hnul | hone
  · exact hnul (by decide)
  · exact absurd hone (by decide)

end Hypura
