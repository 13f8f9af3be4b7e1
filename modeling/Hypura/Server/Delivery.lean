import Hypura.Server.Session

/-!
# Hypura.Server.Delivery

What a client of the server receives, whatever the other requests and clients do.

* `Request.Generates` — the tokens sent so far are the first ones of what the request
  generates on its own, and all of them if the receiver has stayed,
* `Request.Answers` — the lines of the body are those of the tokens received, in order,
  and the last line comes after all of them, with the counts of the result.

So the server, with its tasks and channels, answers every request as the functions of
`GeneratedText` do.
-/

namespace Hypura.Server

open Hypura.Core

/-! ### The loop -/

section Loop
variable {llamaTokenToPiece : LlamaTokenToPiece} {isEog : Int → Bool} {turns : Nat → Turn}

/-- The tokens sent stay sent. -/
theorem sent_prefix_generateLoop (n : Nat) (s : GenerationState) :
    s.sent <+: (generateLoop llamaTokenToPiece isEog turns n s).1.sent := by
  induction n generalizing s with
  | zero => exact List.prefix_refl _
  | succ n ih =>
      have hsent : s.sent <+:
          (generateToken llamaTokenToPiece isEog s (turns s.nGenerated).tokenId).sent :=
        List.prefix_append ..
      rw [generateLoop]
      split
      · exact hsent
      · split
        · exact hsent.trans (ih _)
        · exact hsent

end Loop

/-! ### The blocking task -/

namespace Request
variable {app : AppState} {r r' : Request} {endpoint : Endpoint} {clock : Clock}

/-- The loop of the request on its own. -/
def loop (app : AppState) (r : Request) : GenerationState × Bool :=
  generateLoop app.llamaTokenToPiece app.isEog r.generation.turns r.generation.maxTokens ⟨"", 0, []⟩

/-- The loop from where it is, if every token can be sent. -/
def rest (app : AppState) (r : Request) (text : String) (n : Nat) : GenerationState × Bool :=
  generateLoop app.llamaTokenToPiece app.isEog r.generation.turns (r.generation.maxTokens - n)
    ⟨text, n, r.tokens.log⟩

/-- The loop has ended with this result. -/
def Outcome (app : AppState) (r : Request) (result : Option GenerationResult) : Prop :=
  r.tokens.log <+: (r.generation.generated app).2 ∧
    (r.tokens.rx = true → (result, r.tokens.log) = r.generation.generated app)

/-- The generation, as far as it has come. -/
def Generates (app : AppState) (r : Request) : Prop :=
  match r.generator with
  | .waiting => r.tokens.log = [] ∧ r.tokens.tx = true ∧ r.result = none
  | .locked => r.tokens.log = [] ∧ r.tokens.tx = true ∧ r.result = none
  | .generating text n => r.generation.evaluated = true ∧
      r.rest app text n = r.loop app ∧ r.tokens.tx = true ∧ r.result = none
  | .returning result => r.Outcome app result ∧ r.tokens.tx = true ∧ r.result = none
  | .returned result => r.Outcome app result ∧ r.tokens.tx = false ∧ r.result = none
  | .unlocking => ∃ result, r.Outcome app result ∧ r.tokens.tx = false ∧ r.result = result.map some
  | .ended => ∃ result, r.Outcome app result ∧ r.tokens.tx = false ∧ r.result = some result

/-- In every phase the tokens sent are the first ones. -/
theorem Generates.log_prefix (h : r.Generates app) :
    r.tokens.log <+: (r.generation.generated app).2 := by
  unfold Generates at h
  split at h
  · simp [h.1]
  · simp [h.1]
  · next text n _ =>
      obtain ⟨heval, hrest, -⟩ := h
      have hsent : r.tokens.log <+: (r.rest app text n).1.sent :=
        sent_prefix_generateLoop _ ⟨text, n, r.tokens.log⟩
      rw [hrest] at hsent
      rw [Generation.generated, if_pos heval]
      exact hsent
  · exact h.1.1
  · exact h.1.1
  · obtain ⟨result, houtcome, -⟩ := h
    exact houtcome.1
  · obtain ⟨result, houtcome, -⟩ := h
    exact houtcome.1

/-- The result that was sent is that of the generation. -/
theorem Generates.eq_generated (h : r.Generates app) (hrx : r.tokens.rx = true)
    {result : Option GenerationResult} (hresult : r.result = some result) :
    (result, r.tokens.log) = r.generation.generated app := by
  unfold Generates at h
  split at h
  · simp [h.2.2] at hresult
  · simp [h.2.2] at hresult
  · simp [h.2.2.2] at hresult
  · simp [h.2.2] at hresult
  · simp [h.2.2] at hresult
  · obtain ⟨result', houtcome, -, heq⟩ := h
    obtain ⟨res, rfl, rfl⟩ := Option.map_eq_some_iff.mp (heq.symm.trans hresult)
    exact houtcome.2 hrx
  · obtain ⟨result', houtcome, -, heq⟩ := h
    obtain rfl := Option.some.inj (heq.symm.trans hresult)
    exact houtcome.2 hrx

/-- The other tasks leave the generation as it is; they may drop the receiver. -/
structure Drains (r r' : Request) : Prop where
  generation : r'.generation = r.generation
  generator : r'.generator = r.generator
  result : r'.result = r.result
  log : r'.tokens.log = r.tokens.log
  tx : r'.tokens.tx = r.tokens.tx
  rx : r'.tokens.rx = true → r.tokens.rx = true

theorem Outcome.drain {result : Option GenerationResult} (h : r.Outcome app result)
    (hd : r.Drains r') : r'.Outcome app result := by
  unfold Outcome
  rw [hd.log, hd.generation]
  exact ⟨h.1, fun hrx => h.2 (hd.rx hrx)⟩

theorem Generates.drain (h : r.Generates app) (hd : r.Drains r') : r'.Generates app := by
  have houtcome : ∀ {result}, r.Outcome app result → r'.Outcome app result := fun ho => ho.drain hd
  have hrest : ∀ text n, r'.rest app text n = r.rest app text n := by
    simp [rest, hd.generation, hd.log]
  have hloop : r'.loop app = r.loop app := by rw [loop, hd.generation, loop]
  unfold Generates at h ⊢
  rw [hd.generator, hd.log, hd.tx, hd.result, hd.generation]
  split at h
  · exact h
  · exact h
  · simpa only [hrest, hloop] using h
  · exact ⟨houtcome h.1, h.2⟩
  · exact ⟨houtcome h.1, h.2⟩
  · obtain ⟨result, ho, hend⟩ := h
    exact ⟨result, houtcome ho, hend⟩
  · obtain ⟨result, ho, hend⟩ := h
    exact ⟨result, houtcome ho, hend⟩

theorem outcome_of_loop (heval : r.generation.evaluated = true) {s : GenerationState} {ok : Bool}
    (hloop : r.loop app = (s, ok)) (hgeneration : r'.generation = r.generation)
    (hlog : r'.tokens.log = s.sent) :
    r'.Outcome app (if ok then some ⟨s.generatedText, s.nGenerated⟩ else none) := by
  have heq : r'.generation.generated app =
      (if ok then some ⟨s.generatedText, s.nGenerated⟩ else none, s.sent) := by
    rw [hgeneration, Generation.generated, if_pos heval, generateFromLoaded, ← loop, hloop]
  exact ⟨by rw [heq, hlog], fun _ => by rw [heq, hlog]⟩

theorem rest_turn {text : String} {n : Nat} (hn : n < r.generation.maxTokens) :
    r.rest app text n =
      let turn := r.generation.turns n
      let s := generateToken app.llamaTokenToPiece app.isEog ⟨text, n, r.tokens.log⟩ turn.tokenId
      if app.isEog turn.tokenId then (s, true)
      else if turn.decoded then
        generateLoop app.llamaTokenToPiece app.isEog r.generation.turns
          (r.generation.maxTokens - (n + 1)) s
      else (s, false) := by
  rw [rest, show r.generation.maxTokens - n = r.generation.maxTokens - (n + 1) + 1 by omega,
    generateLoop]

/-- A turn of the loop: the token is the next one of the generation, if it can be sent. -/
theorem Generates.turn {text : String} {n : Nat} (h : r.Generates app)
    (hphase : r.generator = .generating text n) (hn : n < r.generation.maxTokens) :
    (r.turn app text n).Generates app := by
  have hfirst := h.log_prefix
  simp only [Generates, hphase] at h
  obtain ⟨heval, hrest, htx, hresult⟩ := h
  have hturn := hrest.symm.trans (rest_turn hn)
  dsimp only at hturn
  unfold Request.turn
  dsimp only
  split
  · split
    · next heog =>
        rw [if_pos heog] at hturn
        exact ⟨outcome_of_loop heval hturn rfl rfl, htx, hresult⟩
    · next heog =>
        rw [if_neg heog] at hturn
        split
        · next hdecoded =>
            rw [if_pos hdecoded] at hturn
            exact ⟨heval, hturn.symm, htx, hresult⟩
        · next hdecoded =>
            rw [if_neg hdecoded] at hturn
            exact ⟨outcome_of_loop heval hturn rfl rfl, htx, hresult⟩
  · next hrx => exact ⟨⟨hfirst, fun hrx' => absurd hrx' hrx⟩, htx, hresult⟩

/-- A step of the task that has the lock. -/
theorem Generates.generate (h : r.Generates app) (hg : r.generate app = some r') :
    r'.Generates app := by
  unfold Request.generate at hg
  split at hg
  · next hphase =>
      simp only [Generates, hphase] at h
      obtain ⟨hlog, htx, hresult⟩ := h
      split at hg
      · next heval =>
          cases hg
          refine ⟨heval, ?_, htx, hresult⟩
          show r.rest app "" 0 = r.loop app
          rw [rest, hlog, loop, Nat.sub_zero]
      · next heval =>
          cases hg
          refine ⟨⟨by simp [hlog], fun _ => ?_⟩, htx, hresult⟩
          show (none, r.tokens.log) = r.generation.generated app
          rw [hlog, Generation.generated, if_neg heval]
  · next text n hphase =>
      split at hg
      · next hn =>
          cases hg
          exact h.turn hphase hn
      · next hn =>
          cases hg
          simp only [Generates, hphase] at h
          obtain ⟨heval, hrest, htx, hresult⟩ := h
          -- the loop has had all its turns
          have hlast : r.loop app = (⟨text, n, r.tokens.log⟩, true) := by
            rw [← hrest, rest, Nat.sub_eq_zero_of_le (not_lt.mp hn), generateLoop]
          exact ⟨outcome_of_loop heval hlast rfl rfl, htx, hresult⟩
  · next result hphase =>
      cases hg
      simp only [Generates, hphase] at h
      exact ⟨h.1, rfl, h.2.2⟩
  · next result hphase =>
      cases hg
      simp only [Generates, hphase] at h
      exact ⟨some result, h.1, h.2.1, rfl⟩
  · next hphase =>
      cases hg
      simp only [Generates, hphase] at h
      exact ⟨none, h.1, h.2.1, h.2.2⟩
  · cases hg

/-- The lock is dropped. -/
theorem Generates.unlocked (h : r.Generates app) (hphase : r.generator = .unlocking) :
    r.unlocked.Generates app := by
  simp only [Generates, hphase] at h
  obtain ⟨result, houtcome, htx, hresult⟩ := h
  refine ⟨result, houtcome, htx, ?_⟩
  cases result <;> simp [Request.unlocked, hresult]

theorem generates_start (endpoint : Endpoint) (g : Generation) (stream : Bool) :
    (Request.start endpoint g stream).Generates app := ⟨rfl, rfl, rfl⟩

/-! ### The answering task -/

/-- The lines of these tokens, as the endpoint has them. -/
def Lines (app : AppState) (endpoint : Endpoint) (tokens : List GeneratedToken)
    (chunks : List ResponseChunk) : Prop :=
  List.Forall₂ (fun token chunk => ∃ clock, chunk = tokenChunk app endpoint clock token)
    tokens chunks

/-- The chunk is the last one, made of the result. -/
def IsFinal (app : AppState) (r : Request) (content : String) (chunk : ResponseChunk) : Prop :=
  ∃ clock result, r.result = some result ∧
    chunk = finalChunk app r.endpoint clock r.generation.promptTokens content result

/-- `full_response` after these tokens. -/
def fullText (tokens : List GeneratedToken) : String :=
  tokens.foldl (fun fullResponse token => fullResponse ++ token.text) ""

/-- The answer, as far as it has come. A receiver that is dropped ends a stream early. -/
def Answers (app : AppState) (r : Request) : Prop :=
  match r.responder with
  | .receiving => r.tokens.rx = true ∧ r.body.tx = true ∧
      Lines app r.endpoint r.tokens.received r.body.log
  | .sending chunk => r.tokens.rx = true ∧ r.body.tx = true ∧
      Lines app r.endpoint r.tokens.received (r.body.log ++ [chunk])
  | .awaiting => r.tokens.rx = true ∧ r.body.tx = true ∧ r.tokens.Closed ∧
      Lines app r.endpoint r.tokens.log r.body.log
  | .sendingLast chunk => r.tokens.rx = true ∧ r.body.tx = true ∧ r.tokens.Closed ∧
      Lines app r.endpoint r.tokens.log r.body.log ∧ r.IsFinal app "" chunk
  | .ended =>
      (r.body.rx = false ∧
        ∃ tokens, tokens <+: r.tokens.log ∧ Lines app r.endpoint tokens r.body.log) ∨
      (r.tokens.rx = true ∧ r.tokens.Closed ∧ ∃ chunks chunk, r.body.log = chunks ++ [chunk] ∧
        Lines app r.endpoint r.tokens.log chunks ∧ r.IsFinal app "" chunk)
  | .collecting fullResponse => r.tokens.rx = true ∧ r.body = .new ∧
      fullResponse = fullText r.tokens.received
  | .awaitingFull fullResponse => r.tokens.rx = true ∧ r.body = .new ∧ r.tokens.Closed ∧
      fullResponse = fullText r.tokens.log
  | .responded chunk => r.tokens.rx = true ∧ r.body = .new ∧ r.tokens.Closed ∧
      r.IsFinal app (fullText r.tokens.log) chunk
  | .cancelled => r.body = .new

/-- What the blocking task does to the channels: it sends, and leaves its end. -/
structure Feeds (r r' : Request) : Prop where
  endpoint : r'.endpoint = r.endpoint
  generation : r'.generation = r.generation
  responder : r'.responder = r.responder
  body : r'.body = r.body
  rx : r'.tokens.rx = r.tokens.rx
  received : r'.tokens.received = r.tokens.received
  log : r.tokens.log <+: r'.tokens.log
  closed : r.tokens.Closed → r'.tokens.Closed ∧ r'.tokens.log = r.tokens.log
  result : ∀ result, r.result = some result → r'.result = some result

theorem IsFinal.feed {content : String} {chunk : ResponseChunk} (h : r.IsFinal app content chunk)
    (hf : r.Feeds r') : r'.IsFinal app content chunk := by
  obtain ⟨clock, result, hresult, rfl⟩ := h
  exact ⟨clock, result, hf.result _ hresult, by rw [hf.endpoint, hf.generation]⟩

theorem Answers.feed (h : r.Answers app) (hf : r.Feeds r') : r'.Answers app := by
  unfold Answers at h ⊢
  rw [hf.responder, hf.body, hf.rx, hf.received, hf.endpoint]
  split at h
  · exact h
  · exact h
  · obtain ⟨hrx, htx, hclosed, hlines⟩ := h
    exact ⟨hrx, htx, (hf.closed hclosed).1, (hf.closed hclosed).2 ▸ hlines⟩
  · obtain ⟨hrx, htx, hclosed, hlines, hfinal⟩ := h
    exact ⟨hrx, htx, (hf.closed hclosed).1, (hf.closed hclosed).2 ▸ hlines, hfinal.feed hf⟩
  · rcases h with ⟨hleft, tokens, htokens, hlines⟩ | ⟨hrx, hclosed, chunks, chunk, hlog, hlines, hfinal⟩
    · exact .inl ⟨hleft, tokens, htokens.trans hf.log, hlines⟩
    · exact .inr ⟨hrx, (hf.closed hclosed).1, chunks, chunk, hlog,
        (hf.closed hclosed).2 ▸ hlines, hfinal.feed hf⟩
  · exact h
  · obtain ⟨hrx, hnew, hclosed, hfull⟩ := h
    exact ⟨hrx, hnew, (hf.closed hclosed).1, (hf.closed hclosed).2 ▸ hfull⟩
  · obtain ⟨hrx, hnew, hclosed, hfinal⟩ := h
    refine ⟨hrx, hnew, (hf.closed hclosed).1, ?_⟩
    rw [(hf.closed hclosed).2]
    exact hfinal.feed hf
  · exact h

theorem Feeds.of_tokens {generator : Generator} :
    r.Feeds { r with generator := generator } :=
  ⟨rfl, rfl, rfl, rfl, rfl, rfl, List.prefix_refl _, fun h => ⟨h, rfl⟩, fun _ => id⟩

theorem feeds_turn {text : String} {n : Nat} (htx : r.tokens.tx = true) :
    r.Feeds (r.turn app text n) := by
  have hsend : ∀ {token generator},
      r.Feeds { r with tokens := r.tokens.send token r.tokens.not_full, generator := generator } := by
    intro token generator
    refine ⟨rfl, rfl, rfl, rfl, rfl, ?_, List.prefix_append .., fun h => ?_, fun _ => id⟩
    · exact Pipe.received_send r.tokens.not_full
    rw [Pipe.Closed, htx] at h
    cases h.1
  unfold Request.turn
  dsimp only
  split
  · split
    · exact hsend
    · split
      · exact hsend
      · exact hsend
  · exact .of_tokens

theorem Generates.feeds (h : r.Generates app) (hg : r.generate app = some r') : r.Feeds r' := by
  unfold Request.generate at hg
  split at hg
  · split at hg
    · cases hg
      exact .of_tokens
    · cases hg
      exact .of_tokens
  · next text n hphase =>
      simp only [Generates, hphase] at h
      split at hg
      · cases hg
        exact feeds_turn h.2.2.1
      · cases hg
        exact .of_tokens
  · cases hg
    exact ⟨rfl, rfl, rfl, rfl, rfl, rfl, List.prefix_refl _, fun h => ⟨⟨rfl, h.2⟩, rfl⟩, fun _ => id⟩
  · next result hphase =>
      cases hg
      simp only [Generates, hphase] at h
      refine ⟨rfl, rfl, rfl, rfl, rfl, rfl, List.prefix_refl _, fun h => ⟨h, rfl⟩, fun x hx => ?_⟩
      rw [h.2.2] at hx
      cases hx
  · cases hg
    exact .of_tokens
  · cases hg

theorem feeds_unlocked : r.Feeds r.unlocked := by
  refine ⟨rfl, rfl, rfl, rfl, rfl, rfl, List.prefix_refl _, fun h => ⟨h, rfl⟩, fun result hresult => ?_⟩
  simp [Request.unlocked, hresult]

/-! ### Steps of the answering task, and of the client -/

theorem drains_responder {responder : Responder} {body : Pipe ResponseChunk (some 64)} :
    r.Drains { r with responder := responder, body := body } := ⟨rfl, rfl, rfl, rfl, rfl, id⟩

theorem drains_ndjsonStream (h : r.ndjsonStream app endpoint clock = some r') : r.Drains r' := by
  unfold Request.ndjsonStream at h
  split at h
  · split at h
    · cases h
      exact ⟨rfl, rfl, rfl, rfl, rfl, id⟩
    · split at h
      · cases h
        exact drains_responder
      · cases h
  · split at h
    · cases h
      exact ⟨rfl, rfl, rfl, rfl, rfl, fun hrx => by cases hrx⟩
    · split at h
      · cases h
      · cases h
        exact drains_responder
  · obtain ⟨result, -, rfl⟩ := Option.map_eq_some_iff.mp h
    exact drains_responder
  · split at h
    · cases h
      exact drains_responder
    · split at h
      · cases h
      · cases h
        exact drains_responder
  · cases h

theorem drains_collect (h : r.collect app endpoint clock = some r') : r.Drains r' := by
  unfold Request.collect at h
  split at h
  · split at h
    · cases h
      exact ⟨rfl, rfl, rfl, rfl, rfl, id⟩
    · split at h
      · cases h
        exact drains_responder
      · cases h
  · obtain ⟨result, -, rfl⟩ := Option.map_eq_some_iff.mp h
    exact drains_responder
  · cases h

theorem drains_respond (h : r.respond app clock = some r') : r.Drains r' := by
  rw [respond_eq, Option.or_eq_some_iff] at h
  rcases h with hstream | ⟨-, hcollect⟩
  · exact drains_ndjsonStream hstream
  · exact drains_collect hcollect

theorem drains_read (h : r.read = some r') : r.Drains r' := by
  unfold Request.read at h
  split at h
  · split at h
    · cases h
      exact ⟨rfl, rfl, rfl, rfl, rfl, id⟩
    · cases h
  · cases h

theorem drains_disconnect (h : r.disconnect = some r') : r.Drains r' := by
  unfold Request.disconnect at h
  split at h
  · cases h
    exact ⟨rfl, rfl, rfl, rfl, rfl, fun hrx => by cases hrx⟩
  · cases h
    exact ⟨rfl, rfl, rfl, rfl, rfl, fun hrx => by cases hrx⟩
  · cases h
  · cases h
  · split at h
    · cases h
      exact ⟨rfl, rfl, rfl, rfl, rfl, id⟩
    · cases h

theorem fullText_append (tokens : List GeneratedToken) (token : GeneratedToken) :
    fullText (tokens ++ [token]) = fullText tokens ++ token.text := by
  simp [fullText]

theorem Lines.append {tokens : List GeneratedToken} {chunks : List ResponseChunk}
    (h : Lines app endpoint tokens chunks) (token : GeneratedToken) :
    Lines app endpoint (tokens ++ [token]) (chunks ++ [tokenChunk app endpoint clock token]) :=
  List.rel_append h (.cons ⟨clock, rfl⟩ .nil)

/-- The lines of the body without the one being sent. -/
theorem Lines.init {tokens : List GeneratedToken} {chunks : List ResponseChunk}
    {chunk : ResponseChunk} (h : Lines app endpoint tokens (chunks ++ [chunk])) :
    Lines app endpoint tokens.dropLast chunks := by
  have hlen := List.Forall₂.length_eq h
  have hinit := List.forall₂_take chunks.length h
  rw [List.length_append, List.length_singleton] at hlen
  rw [List.dropLast_eq_take, hlen, Nat.add_sub_cancel]
  rwa [List.take_left] at hinit

theorem Answers.ndjsonStream (h : r.Answers app)
    (hr : r.ndjsonStream app r.endpoint clock = some r') : r'.Answers app := by
  unfold Request.ndjsonStream at hr
  split at hr
  · next hphase =>
      simp only [Answers, hphase] at h
      obtain ⟨hrx, htx, hlines⟩ := h
      split at hr
      · next hlt =>
          cases hr
          refine ⟨hrx, htx, ?_⟩
          show Lines app r.endpoint (r.tokens.recv hlt).received _
          rw [Pipe.received_recv]
          exact hlines.append _
      · next hlt =>
          split at hr
          · next hclosed =>
              cases hr
              have hdrained := Pipe.drained_of_not_lt hlt
              rw [Pipe.received_of_drained hdrained] at hlines
              exact ⟨hrx, htx, ⟨hclosed, hdrained⟩, hlines⟩
          · cases hr
  · next chunk hphase =>
      simp only [Answers, hphase] at h
      obtain ⟨hrx, htx, hlines⟩ := h
      split at hr
      · next hleft =>
          cases hr
          -- the client has left: what was sent are the lines of the tokens before
          refine .inl ⟨hleft, r.tokens.received.dropLast, ?_, hlines.init⟩
          exact (List.dropLast_prefix _).trans r.tokens.received_prefix
      · split at hr
        · cases hr
        · cases hr
          exact ⟨hrx, htx, hlines⟩
  · next hphase =>
      simp only [Answers, hphase] at h
      obtain ⟨result, hresult, rfl⟩ := Option.map_eq_some_iff.mp hr
      exact ⟨h.1, h.2.1, h.2.2.1, h.2.2.2, clock, result, hresult, rfl⟩
  · next chunk hphase =>
      simp only [Answers, hphase] at h
      obtain ⟨hrx, htx, hclosed, hlines, hfinal⟩ := h
      split at hr
      · next hleft =>
          cases hr
          exact .inl ⟨hleft, r.tokens.log, List.prefix_refl _, hlines⟩
      · split at hr
        · cases hr
        · cases hr
          exact .inr ⟨hrx, hclosed, r.body.log, chunk, rfl, hlines, hfinal⟩
  · cases hr

theorem Answers.collect (h : r.Answers app) (hr : r.collect app r.endpoint clock = some r') :
    r'.Answers app := by
  unfold Request.collect at hr
  split at hr
  · next fullResponse hphase =>
      simp only [Answers, hphase] at h
      obtain ⟨hrx, hnew, hfull⟩ := h
      split at hr
      · next hlt =>
          cases hr
          refine ⟨hrx, hnew, ?_⟩
          show _ = fullText (r.tokens.recv hlt).received
          rw [Pipe.received_recv, fullText_append, hfull]
      · next hlt =>
          split at hr
          · next hclosed =>
              cases hr
              have hdrained := Pipe.drained_of_not_lt hlt
              rw [Pipe.received_of_drained hdrained] at hfull
              exact ⟨hrx, hnew, ⟨hclosed, hdrained⟩, hfull⟩
          · cases hr
  · next fullResponse hphase =>
      simp only [Answers, hphase] at h
      obtain ⟨hrx, hnew, hclosed, rfl⟩ := h
      obtain ⟨result, hresult, rfl⟩ := Option.map_eq_some_iff.mp hr
      exact ⟨hrx, hnew, hclosed, clock, result, hresult, rfl⟩
  · cases hr

/-- **A step of the answering task.** -/
theorem Answers.respond (h : r.Answers app) (hr : r.respond app clock = some r') :
    r'.Answers app := by
  rw [respond_eq, Option.or_eq_some_iff] at hr
  rcases hr with hstream | ⟨-, hcollect⟩
  · exact h.ndjsonStream hstream
  · exact h.collect hcollect

/-- The client reads: only what it has received differs. -/
theorem Answers.read (h : r.Answers app) (hr : r.read = some r') : r'.Answers app := by
  unfold Request.read at hr
  split at hr
  · split at hr
    · next hlt =>
        cases hr
        have hold : r.body ≠ .new := by
          intro hnew
          rw [hnew] at hlt
          exact absurd hlt (Nat.not_lt_zero _)
        unfold Answers at h ⊢
        dsimp only
        split at h
        · exact h
        · exact h
        · exact h
        · exact h
        · exact h
        · exact absurd h.2.1 hold
        · exact absurd h.2.1 hold
        · exact absurd h.2.1 hold
        · exact absurd h hold
    · cases hr
  · cases hr

theorem Answers.disconnect (h : r.Answers app) (hr : r.disconnect = some r') : r'.Answers app := by
  unfold Request.disconnect at hr
  unfold Answers at h
  cases hphase : r.responder with
  | collecting fullResponse =>
      simp only [hphase] at h hr
      cases hr
      exact h.2.1
  | awaitingFull fullResponse =>
      simp only [hphase] at h hr
      cases hr
      exact h.2.1
  | responded chunk => simp [hphase] at hr
  | cancelled => simp [hphase] at hr
  | receiving | sending chunk | awaiting | sendingLast chunk =>
      simp only [hphase] at h hr
      split at hr
      · cases hr
        simp only [Answers]
        exact h
      · cases hr
  | ended =>
      simp only [hphase] at h hr
      split at hr
      · cases hr
        simp only [Answers]
        exact h.imp_left fun h => ⟨rfl, h.2⟩
      · cases hr

theorem answers_start (endpoint : Endpoint) (g : Generation) (stream : Bool) :
    (Request.start endpoint g stream).Answers app := by
  cases stream with
  | true => exact ⟨rfl, rfl, .nil⟩
  | false => exact ⟨rfl, rfl, rfl⟩

end Request

/-! ### The server -/

namespace State
variable {app : AppState} {m m' : State} {i : Nat} {r r' : Request}

/-- Every request is where the others find it. -/
def Sound (app : AppState) (m : State) : Prop :=
  ∀ r ∈ m.requests, r.Generates app ∧ r.Answers app

theorem Sound.of_set (h : m.Sound app) (hr : r'.Generates app ∧ r'.Answers app)
    (heq : m'.requests = m.requests.set i r') : m'.Sound app := by
  intro x hx
  rw [heq] at hx
  rcases List.mem_or_eq_of_mem_set hx with hx | rfl
  · exact h x hx
  · exact hr

theorem Sound.generateStep (h : m.Sound app) (hr : r ∈ m.requests)
    (hstep : m.generateStep app i r = some m') : m'.Sound app := by
  obtain ⟨hgen, hans⟩ := h r hr
  unfold State.generateStep at hstep
  split at hstep
  · next hphase =>
      simp only [Request.Generates, hphase] at hgen
      split at hstep
      · cases hstep
        have hlocked : Request.Generates app { r with generator := .locked } := hgen
        exact h.of_set ⟨hlocked, hans.feed .of_tokens⟩ rfl
      · cases hstep
  · next hphase =>
      cases hstep
      exact h.of_set ⟨hgen.unlocked hphase, hans.feed Request.feeds_unlocked⟩ rfl
  · obtain ⟨r', hg, rfl⟩ := Option.map_eq_some_iff.mp hstep
    exact h.of_set ⟨hgen.generate hg, hans.feed (hgen.feeds hg)⟩ rfl

theorem Sound.step (h : m.Sound app) {lab : Label} (hstep : m.step app lab = some m') :
    m'.Sound app := by
  cases lab with
  | arrive endpoint g stream =>
      cases hstep
      intro r hr
      rw [Endpoint.handler_eq] at hr
      rcases List.mem_append.mp hr with hr | hr
      · exact h r hr
      · rw [List.mem_singleton.mp hr]
        exact ⟨Request.generates_start endpoint g stream, Request.answers_start endpoint g stream⟩
  | generate i =>
      obtain ⟨r, hr, hstep⟩ := Option.bind_eq_some_iff.mp hstep
      exact h.generateStep (List.mem_of_getElem? hr) hstep
  | respond i clock =>
      obtain ⟨r, hr, hstep⟩ := Option.bind_eq_some_iff.mp hstep
      obtain ⟨r', hr', rfl⟩ := Option.map_eq_some_iff.mp hstep
      obtain ⟨hgen, hans⟩ := h r (List.mem_of_getElem? hr)
      exact h.of_set ⟨hgen.drain (Request.drains_respond hr'), hans.respond hr'⟩ rfl
  | read i =>
      obtain ⟨r, hr, hstep⟩ := Option.bind_eq_some_iff.mp hstep
      obtain ⟨r', hr', rfl⟩ := Option.map_eq_some_iff.mp hstep
      obtain ⟨hgen, hans⟩ := h r (List.mem_of_getElem? hr)
      exact h.of_set ⟨hgen.drain (Request.drains_read hr'), hans.read hr'⟩ rfl
  | disconnect i =>
      obtain ⟨r, hr, hstep⟩ := Option.bind_eq_some_iff.mp hstep
      obtain ⟨r', hr', rfl⟩ := Option.map_eq_some_iff.mp hstep
      obtain ⟨hgen, hans⟩ := h r (List.mem_of_getElem? hr)
      exact h.of_set ⟨hgen.drain (Request.drains_disconnect hr'), hans.disconnect hr'⟩ rfl

theorem sound_of_reaches (h : Reaches (State.step app) (fun _ _ => True) .start m) :
    m.Sound app := by
  refine h.invariant (P := Sound app) (fun r hr => by cases hr) ?_
  exact fun m lab m' hm _ hstep => hm.step hstep

end State

/-! ### What is delivered -/

/-- What a chunk says of the text. -/
def ResponseChunk.said (chunk : ResponseChunk) : GenerateResponseChunk :=
  ⟨chunk.content, chunk.done⟩

/-- The chunk carries the counts of the generation, if there was a result. -/
def ResponseChunk.Counts (app : AppState) (g : Generation) (chunk : ResponseChunk) : Prop :=
  chunk.promptEvalCount = (g.generated app).1.map (fun _ => g.promptTokens) ∧
    chunk.evalCount = (g.generated app).1.map (·.tokensGenerated)

section Delivered
variable {app : AppState} {endpoint : Endpoint} {r : Request} {tokens : List GeneratedToken}
  {chunks : List ResponseChunk} {chunk : ResponseChunk} {content : String}

theorem said_lines (h : Request.Lines app endpoint tokens chunks) :
    chunks.map (·.said) = tokens.map fun token => ⟨token.text, false⟩ := by
  induction h with
  | nil => rfl
  | cons hchunk _ ih =>
      obtain ⟨clock, rfl⟩ := hchunk
      rw [List.map_cons, List.map_cons, ih]
      rfl

theorem role_lines (h : Request.Lines app endpoint tokens chunks) :
    ∀ chunk ∈ chunks, chunk.role = endpoint.role := by
  induction h with
  | nil => simp
  | cons hchunk _ ih =>
      obtain ⟨clock, rfl⟩ := hchunk
      simpa [tokenChunk] using ih

theorem lines_first {all : List GeneratedToken} (h : Request.Lines app endpoint tokens chunks)
    (hfirst : tokens <+: all) : chunks.map (·.said) <+: ndjsonGenerateStream all := by
  rw [said_lines h]
  exact (hfirst.map _).trans (List.prefix_append ..)

/-- The last chunk is there only after all tokens, with the counts. -/
theorem delivered_final (hgen : r.Generates app) (hrx : r.tokens.rx = true)
    (hfinal : r.IsFinal app content chunk) :
    r.tokens.log = (r.generation.generated app).2 ∧ chunk.said = ⟨content, true⟩ ∧
      chunk.Counts app r.generation := by
  obtain ⟨clock, result, hresult, rfl⟩ := hfinal
  have heq := hgen.eq_generated hrx hresult
  refine ⟨by rw [← heq], rfl, ?_⟩
  rw [ResponseChunk.Counts, ← heq]
  exact ⟨rfl, rfl⟩

theorem role_final (hfinal : r.IsFinal app content chunk) : chunk.role = r.endpoint.role := by
  obtain ⟨clock, result, -, rfl⟩ := hfinal
  rfl

/-- Every line of the body has the form of the endpoint. -/
theorem role_body (hans : r.Answers app) : ∀ chunk ∈ r.body.log, chunk.role = r.endpoint.role := by
  unfold Request.Answers at hans
  split at hans
  · exact role_lines hans.2.2
  · exact role_lines hans.2.2.init
  · exact role_lines hans.2.2.2
  · exact role_lines hans.2.2.2.1
  · rcases hans with ⟨-, tokens, -, hlines⟩ | ⟨-, -, chunks, last, hlog, hlines, hfinal⟩
    · exact role_lines hlines
    · rw [hlog]
      intro chunk hchunk
      rcases List.mem_append.mp hchunk with hchunk | hchunk
      · exact role_lines hlines chunk hchunk
      · rw [List.mem_singleton.mp hchunk]
        exact role_final hfinal
  · simp [hans.2.1]
  · simp [hans.2.1]
  · simp [hans.2.1]
  · simp [hans]

/-- What is in the body are the first chunks of the stream, or all of them. -/
theorem said_body (hgen : r.Generates app) (hans : r.Answers app) :
    r.body.log.map (·.said) <+: ndjsonGenerateStream (r.generation.generated app).2 ∧
      (r.body.tx = false → r.body.rx = true →
        r.body.log.map (·.said) = ndjsonGenerateStream (r.generation.generated app).2 ∧
          ∃ chunk, r.body.log.getLast? = some chunk ∧ chunk.Counts app r.generation) := by
  have hopen : r.body.tx = true → ∀ {P : Prop}, r.body.tx = false → P := by
    intro htx P hclosed
    rw [htx] at hclosed
    cases hclosed
  have hreceived := r.tokens.received_prefix.trans hgen.log_prefix
  have hnew : r.body = .new →
      r.body.log.map (·.said) <+: ndjsonGenerateStream (r.generation.generated app).2 ∧
        (r.body.tx = false → r.body.rx = true →
          r.body.log.map (·.said) = ndjsonGenerateStream (r.generation.generated app).2 ∧
            ∃ chunk, r.body.log.getLast? = some chunk ∧ chunk.Counts app r.generation) := by
    intro hnew
    exact ⟨by simp [hnew], hopen (by simp [hnew])⟩
  unfold Request.Answers at hans
  split at hans
  · obtain ⟨-, htx, hlines⟩ := hans
    exact ⟨lines_first hlines hreceived, hopen htx⟩
  · obtain ⟨-, htx, hlines⟩ := hans
    exact ⟨lines_first hlines.init ((List.dropLast_prefix _).trans hreceived), hopen htx⟩
  · obtain ⟨-, htx, -, hlines⟩ := hans
    exact ⟨lines_first hlines hgen.log_prefix, hopen htx⟩
  · obtain ⟨-, htx, -, hlines, -⟩ := hans
    exact ⟨lines_first hlines hgen.log_prefix, hopen htx⟩
  · rcases hans with ⟨hleft, tokens, htokens, hlines⟩ |
      ⟨hrx, -, chunks, chunk, hlog, hlines, hfinal⟩
    · refine ⟨lines_first hlines (htokens.trans hgen.log_prefix), fun _ hrx => ?_⟩
      rw [hleft] at hrx
      cases hrx
    · obtain ⟨hall, hsaid, hcounts⟩ := delivered_final hgen hrx hfinal
      have heq : r.body.log.map (·.said) = ndjsonGenerateStream (r.generation.generated app).2 := by
        rw [hlog, List.map_append, said_lines hlines, hall, ndjsonGenerateStream,
          List.map_singleton, hsaid]
      exact ⟨heq ▸ List.prefix_refl _, fun _ _ => ⟨heq, chunk, by simp [hlog], hcounts⟩⟩
  · exact hnew hans.2.1
  · exact hnew hans.2.1
  · exact hnew hans.2.1
  · exact hnew hans

/-- **Every client receives what its request generates on its own**, in every run, however
the tasks are scheduled and whoever leaves: at any time the first chunks of the stream, and
all of them, with the counts of the result, once the body has ended under a client that has
stayed; and the one chunk of a request without a stream has the whole text. Each chunk is of
the endpoint that the request came to. -/
theorem State.delivered {m : State} (h : Reaches (State.step app) (fun _ _ => True) .start m)
    (hr : r ∈ m.requests) :
    r.body.received.map (·.said) <+: ndjsonGenerateStream (r.generation.generated app).2 ∧
    (r.body.Closed → r.body.rx = true →
      r.body.received.map (·.said) = ndjsonGenerateStream (r.generation.generated app).2 ∧
        ∃ chunk, r.body.received.getLast? = some chunk ∧ chunk.Counts app r.generation) ∧
    (∀ chunk ∈ r.body.received, chunk.role = r.endpoint.role) ∧
    ∀ chunk, r.responder = .responded chunk →
      chunk.said = collectGenerate (r.generation.generated app).2 ∧
        chunk.Counts app r.generation ∧ chunk.role = r.endpoint.role := by
  obtain ⟨hgen, hans⟩ := sound_of_reaches h r hr
  obtain ⟨hfirst, hall⟩ := said_body hgen hans
  refine ⟨(r.body.received_prefix.map _).trans hfirst, fun hclosed hrx => ?_,
    fun chunk hchunk => role_body hans chunk (r.body.received_prefix.subset hchunk),
    fun chunk hchunk => ?_⟩
  · rw [Pipe.received_of_drained hclosed.2]
    exact hall hclosed.1 hrx
  · simp only [Request.Answers, hchunk] at hans
    obtain ⟨hrx, -, -, hfinal⟩ := hans
    obtain ⟨heq, hsaid, hcounts⟩ := delivered_final hgen hrx hfinal
    rw [hsaid, heq]
    exact ⟨rfl, hcounts, role_final hfinal⟩

end Delivered

/-! ### Two requests -/

/-- Two tokens, the second of which ends the generation. -/
def abApp : AppState where
  llamaTokenToPiece token := fillWith (if token = 0 then [0x41] else [0x42])
  isEog token := token = 1
  modelName := "ab"
  loadDurationNs := 7

def abGeneration : Generation := ⟨true, 3, fun n => ⟨n, true⟩, 5⟩

def tick : Clock := ⟨"", 0, 0, 0⟩

/-- The blocking task of a request from its start to its end, and the answering task after it. -/
def generateAll (i : Nat) : List Label := List.replicate 7 (.generate i)

/-- A stream and a request without one. The client of the stream reads its first line before
the second token is there, and the others after the second request was answered. -/
def twoRequests : List Label :=
  [.arrive .generate abGeneration true, .arrive .chat abGeneration false, .generate 0, .generate 0, .generate 0,
    .respond 0 tick, .respond 0 tick, .read 0] ++ List.replicate 4 (.generate 0) ++
  generateAll 1 ++ List.replicate 4 (.respond 1 tick) ++ List.replicate 5 (.respond 0 tick) ++
  [.read 0, .read 0]

theorem twoRequests_delivered : ∃ m, exec (State.step abApp) (fun _ _ => true) .start twoRequests =
    some m ∧ ∃ r ∈ m.requests,
      (r.body.received.map (·.content) = ["A", "B", ""] ∧ r.body.Closed ∧ r.body.rx = true) ∧
      r.body.received.map (·.said) <+: ndjsonGenerateStream (r.generation.generated abApp).2 ∧
      (r.body.Closed → r.body.rx = true →
        r.body.received.map (·.said) = ndjsonGenerateStream (r.generation.generated abApp).2 ∧
          ∃ chunk, r.body.received.getLast? = some chunk ∧ chunk.Counts abApp r.generation) ∧
      (∀ chunk ∈ r.body.received, chunk.role = r.endpoint.role) ∧
      ∀ chunk, r.responder = .responded chunk →
        chunk.said = collectGenerate (r.generation.generated abApp).2 ∧
          chunk.Counts abApp r.generation ∧ chunk.role = r.endpoint.role := by
  have hrun : ((exec (State.step abApp) (fun _ _ => true) .start twoRequests).bind
      (·.requests[0]?)).map (fun r => (r.body.received.map (·.content), decide r.body.Closed,
        r.body.rx)) = some (["A", "B", ""], true, true) := by decide +kernel
  obtain ⟨r, hr, heq⟩ := Option.map_eq_some_iff.mp hrun
  obtain ⟨m, hm, hr⟩ := Option.bind_eq_some_iff.mp hr
  simp only [Prod.mk.injEq, decide_eq_true_eq] at heq
  have hmem := List.mem_of_getElem? hr
  exact ⟨m, hm, r, hmem, heq,
    State.delivered (Reaches.exec (fun _ _ _ => trivial) .refl hm) hmem⟩

end Hypura.Server
