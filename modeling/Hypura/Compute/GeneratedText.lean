import Hypura.Core.Negotiate
import Hypura.Rust.Utf8

/-!
# Hypura.Compute.GeneratedText

The text of a generation, from the sampled tokens to the response (`token_to_piece` in
`compute/ffi.rs`, `generate_from_loaded` in `compute/inference.rs`, `collect_generate` in
`server/routes.rs` and `ndjson_generate_stream` in `server/streaming.rs`).

Every token is decoded on its own and the pieces are appended, so a character whose bytes
two tokens share is lost in all three places.

`llama_token_to_piece` is a parameter; the times that the results carry are left out, and
the receiver of the tokens stays until the last one.
-/

namespace Hypura

open Hypura.Core Hypura.Rust

/-- `llama_token_to_piece` on a buffer: what it returns for a token, and the buffer after it. -/
abbrev LlamaTokenToPiece := Int → List UInt8 → Int × List UInt8

/-- `token_to_piece`. -/
def tokenToPiece (llamaTokenToPiece : LlamaTokenToPiece) (token : Int) : String :=
  .ofList (fromUtf8Lossy (negotiate (llamaTokenToPiece token) 0 128))

/-- `GeneratedToken`. -/
structure GeneratedToken where
  text : String
  tokenId : Int
  isEog : Bool
  deriving DecidableEq, Repr

/-- `GenerationResult`. -/
structure GenerationResult where
  text : String
  tokensGenerated : Nat
  deriving DecidableEq, Repr

/-- What the generation loop has appended and sent. -/
structure GenerationState where
  generatedText : String
  nGenerated : Nat
  sent : List GeneratedToken
  deriving DecidableEq, Repr

/-- What llama.cpp returns in a turn of the loop: the token that is sampled, and whether it
can be decoded. -/
structure Turn where
  tokenId : Int
  decoded : Bool
  deriving DecidableEq, Repr

section Source
variable (llamaTokenToPiece : LlamaTokenToPiece) (isEog : Int → Bool) (turns : Nat → Turn)

/-- The body of the loop, up to where the token is sent. -/
def generateToken (s : GenerationState) (tokenId : Int) : GenerationState :=
  let piece := tokenToPiece llamaTokenToPiece tokenId
  { generatedText := s.generatedText ++ piece
    nGenerated := s.nGenerated + 1
    sent := s.sent ++ [⟨piece, tokenId, isEog tokenId⟩] }

/-- The loop, for at most so many tokens, and whether it gets past every `decode`. -/
def generateLoop : Nat → GenerationState → GenerationState × Bool
  | 0, s => (s, true)
  | n + 1, s =>
    let turn := turns s.nGenerated
    let s := generateToken llamaTokenToPiece isEog s turn.tokenId
    if isEog turn.tokenId then (s, true)
    else if turn.decoded then generateLoop n s
    else (s, false)

/-- `generate_from_loaded`, once the prompt has been decoded: the result, if there is one, and
the tokens sent. -/
def generateFromLoaded (maxTokens : Nat) : Option GenerationResult × List GeneratedToken :=
  let (s, ok) := generateLoop llamaTokenToPiece isEog turns maxTokens ⟨"", 0, []⟩
  (if ok then some ⟨s.generatedText, s.nGenerated⟩ else none, s.sent)

end Source

/-- `GenerateResponseChunk`. -/
structure GenerateResponseChunk where
  response : String
  done : Bool
  deriving DecidableEq, Repr

/-- `ndjson_generate_stream`: a chunk for each token, and a last one. -/
def ndjsonGenerateStream (tokenRx : List GeneratedToken) : List GenerateResponseChunk :=
  tokenRx.map (fun token => ⟨token.text, false⟩) ++ [⟨"", true⟩]

/-- `collect_generate`. -/
def collectGenerate (tokenRx : List GeneratedToken) : GenerateResponseChunk :=
  ⟨tokenRx.foldl (fun fullResponse token => fullResponse ++ token.text) "", true⟩

/-! ### Appending the pieces -/

/-- What the loop keeps: the text is that of the tokens sent, and each was decoded on its own. -/
structure GenerationState.Appended (llamaTokenToPiece : LlamaTokenToPiece) (s : GenerationState) :
    Prop where
  text : s.generatedText.toList = (s.sent.map (·.text.toList)).flatten
  pieces : ∀ token ∈ s.sent, token.text = tokenToPiece llamaTokenToPiece token.tokenId

section Pieces
variable {llamaTokenToPiece : LlamaTokenToPiece} {isEog : Int → Bool} {turns : Nat → Turn}
  {s : GenerationState}

theorem GenerationState.Appended.generateToken (h : s.Appended llamaTokenToPiece) (tokenId : Int) :
    (generateToken llamaTokenToPiece isEog s tokenId).Appended llamaTokenToPiece where
  text := by simp [Hypura.generateToken, h.text]
  pieces token htoken := by
    rcases List.mem_append.mp htoken with htoken | htoken
    · exact h.pieces token htoken
    · obtain rfl := List.mem_singleton.mp htoken
      rfl

theorem GenerationState.Appended.generateLoop (h : s.Appended llamaTokenToPiece) (n : Nat) :
    (generateLoop llamaTokenToPiece isEog turns n s).1.Appended llamaTokenToPiece := by
  induction n generalizing s with
  | zero => exact h
  | succ n ih =>
      have hstep : (Hypura.generateToken llamaTokenToPiece isEog s
          (turns s.nGenerated).tokenId).Appended llamaTokenToPiece := h.generateToken _
      rw [Hypura.generateLoop]
      split
      · exact hstep
      · split
        · exact ih hstep
        · exact hstep

theorem foldl_append_toList (texts : List String) (acc : String) :
    (texts.foldl (· ++ ·) acc).toList = acc.toList ++ (texts.map String.toList).flatten := by
  induction texts generalizing acc with
  | nil => simp
  | cons text texts ih => simp [ih]

/-- Both responses append the pieces. -/
theorem collectGenerate_toList (tokenRx : List GeneratedToken) :
    (collectGenerate tokenRx).response.toList = (tokenRx.map (·.text.toList)).flatten := by
  have hfold := foldl_append_toList (tokenRx.map (·.text)) ""
  rw [List.foldl_map, List.map_map] at hfold
  exact hfold

theorem ndjson_toList (tokenRx : List GeneratedToken) :
    (String.join ((ndjsonGenerateStream tokenRx).map (·.response))).toList =
      (tokenRx.map (·.text.toList)).flatten := by
  rw [String.join, foldl_append_toList]
  simp [ndjsonGenerateStream, Function.comp_def]

end Pieces

/-! ### The text of the bytes -/

/-- A token's bytes are what `llama_token_to_piece` fills its buffer with. -/
def PieceSpec (bytesOf : Int → List UInt8) (llamaTokenToPiece : LlamaTokenToPiece) : Prop :=
  ∀ token, Fills (llamaTokenToPiece token) (bytesOf token)

/-- The texts of a generation are this one: the result's, if there is one, that of the streamed
chunks and that of the response which is not streamed. -/
structure HasText (generated : Option GenerationResult × List GeneratedToken) (text : String) :
    Prop where
  result : ∀ r ∈ generated.1, r.text = text
  streamed : String.join ((ndjsonGenerateStream generated.2).map (·.response)) = text
  collected : (collectGenerate generated.2).response = text

section Text
variable {bytesOf : Int → List UInt8} {llamaTokenToPiece : LlamaTokenToPiece} {isEog : Int → Bool}
  {turns : Nat → Turn} {text : String} {maxTokens : Nat}

theorem GenerationState.Appended.flatten_eq {s : GenerationState}
    (h : s.Appended llamaTokenToPiece) (hspec : PieceSpec bytesOf llamaTokenToPiece) :
    (s.sent.map (·.text.toList)).flatten =
      (((s.sent.map (·.tokenId)).map bytesOf).map fromUtf8Lossy).flatten := by
  rw [List.map_map, List.map_map]
  refine congrArg List.flatten (List.map_congr_left fun token htoken => ?_)
  rw [h.pieces token htoken, tokenToPiece, negotiate_eq (hspec token.tokenId), String.toList_ofList]
  rfl

/-- All the texts are the pieces, one after another. -/
theorem generateFromLoaded_hasText_iff (hspec : PieceSpec bytesOf llamaTokenToPiece) :
    HasText (generateFromLoaded llamaTokenToPiece isEog turns maxTokens) text ↔
      ((((generateFromLoaded llamaTokenToPiece isEog turns maxTokens).2.map (·.tokenId)).map
        bytesOf).map fromUtf8Lossy).flatten = text.toList := by
  have happended : (generateLoop llamaTokenToPiece isEog turns maxTokens ⟨"", 0, []⟩).1.Appended
      llamaTokenToPiece := .generateLoop ⟨rfl, fun _ h => by cases h⟩ maxTokens
  have hpieces := happended.flatten_eq hspec
  constructor
  · intro htext
    rw [← htext.collected, collectGenerate_toList]
    exact hpieces.symm
  · intro heq
    refine ⟨fun r hr => String.toList_inj.mp ?_, String.toList_inj.mp ?_, String.toList_inj.mp ?_⟩
    · obtain ⟨-, hr⟩ := Option.ite_none_right_eq_some.mp hr
      obtain rfl := Option.some.inj hr
      exact happended.text.trans (hpieces.trans heq)
    · exact (ndjson_toList _).trans (hpieces.trans heq)
    · exact (collectGenerate_toList _).trans (hpieces.trans heq)

/-- **Generated text is the decoding of the token bytes** if and only if every token decodes by
itself. -/
theorem generated_hasText_iff (hspec : PieceSpec bytesOf llamaTokenToPiece)
    (htext : ((generateFromLoaded llamaTokenToPiece isEog turns maxTokens).2.map
      (·.tokenId)).flatMap bytesOf = utf8Bytes text) :
    HasText (generateFromLoaded llamaTokenToPiece isEog turns maxTokens) text ↔
      ∀ token ∈ (generateFromLoaded llamaTokenToPiece isEog turns maxTokens).2.map (·.tokenId),
        IsUtf8 (bytesOf token) := by
  rw [generateFromLoaded_hasText_iff hspec, flatten_lossy_eq_iff (htext.trans (utf8Bytes_eq text)),
    List.forall_mem_map]

end Text

/-! ### Two tokens -/

/-- The bytes of `é`, in two tokens or in one. -/
def accentBytes : Int → List UInt8
  | 0 => [0xC3]
  | 1 => [0xA9]
  | _ => [0xC3, 0xA9]

/-- A generation of at most two tokens, with these bytes. -/
def generateAccent (tokens : Nat → Int) : Option GenerationResult × List GeneratedToken :=
  generateFromLoaded (fun token => fillWith (accentBytes token)) (fun _ => false)
    (fun i => ⟨tokens i, true⟩) 2

theorem wholeAccent_hasText : HasText (generateAccent fun _ => 2) "éé" := by
  refine (generated_hasText_iff (fun token => fills_fillWith (accentBytes token))
    (by decide +kernel)).mpr fun token htoken => ⟨['é'], ?_⟩
  have htokens : (generateAccent fun _ => 2).2.map (·.tokenId) = [2, 2] := by decide +kernel
  obtain rfl : token = 2 := by simpa [htokens] using (htokens ▸ htoken : token ∈ [2, 2])
  decide +kernel

/-- Of an accent in two tokens two replacement characters are left. -/
theorem splitAccent_lost :
    ((generateAccent (↑·)).2.map (·.tokenId)).flatMap accentBytes = utf8Bytes "é" ∧
      ¬ HasText (generateAccent (↑·)) "é" := by
  refine ⟨by decide +kernel, fun h => ?_⟩
  have hpieces := (generateFromLoaded_hasText_iff
    fun token => fills_fillWith (accentBytes token)).mp h
  exact absurd hpieces (by decide +kernel)

end Hypura
