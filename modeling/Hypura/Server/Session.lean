import Hypura.Compute.GeneratedText
import Hypura.Core.Pipe
import Hypura.Core.Trace

/-!
# Hypura.Server.Session

The server as a transition system (`server/routes.rs`, `server/streaming.rs`, and
`generate_from_loaded` in `compute/inference.rs`).

Every request has a blocking task that generates, with the loaded model locked, and a task
that answers: for a stream one that turns each token into a line of the body, otherwise the
handler itself, which collects them. The tokens go through an unbounded channel, the lines
through one of 64, and the result of the generation through a oneshot channel. Clients read,
or leave, when they like.

What llama.cpp does for a request is a parameter, and so is what the clocks say. The two
endpoints differ in the prompt, which is part of that, and in the form of a chunk.

Of the libraries this is taken as documented:

* a `tokio` channel is a `Pipe`; `oneshot::Receiver` gives the value sent, or an error once the
  sender is dropped without one, and an unused sender is dropped with the closure it is in,
* `spawn_blocking` runs its closure to the end whatever becomes of the handler, and `Mutex`
  lets one thread in at a time, in any order,
* when a client leaves, `axum` drops the body, and with it the receiver that the body streams
  from; before there is a response, it drops the handler's future, and with it the receivers
  the handler holds.
-/

namespace Hypura.Server

open Hypura.Core

/-- The parts of `AppState` that a generation uses. -/
structure AppState where
  llamaTokenToPiece : LlamaTokenToPiece
  isEog : Int → Bool
  modelName : String
  loadDurationNs : Nat

/-- What llama.cpp does for a request; its context is a fresh one. -/
structure Generation where
  /-- The context was made, and the prompt has tokens, which could all be decoded. -/
  evaluated : Bool
  promptTokens : Nat
  turns : Nat → Turn
  maxTokens : Nat

/-- What the clocks say when a chunk is made, and the durations of the generation. -/
structure Clock where
  now : String
  elapsed : Nat
  promptEval : Nat
  eval : Nat
  deriving DecidableEq, Repr

/-- The endpoints that generate. -/
inductive Endpoint
  | generate
  | chat
  deriving DecidableEq, Repr

/-- `GenerateResponseChunk`, `ChatResponseChunk`: `content` is the `response`, or the content
of the `message`. -/
structure ResponseChunk where
  model : String
  createdAt : String
  /-- The role in the `message`; a `GenerateResponseChunk` has none. -/
  role : Option String
  content : String
  done : Bool
  doneReason : Option String
  totalDuration : Option Nat
  loadDuration : Option Nat
  promptEvalCount : Option Nat
  promptEvalDuration : Option Nat
  evalCount : Option Nat
  evalDuration : Option Nat
  deriving DecidableEq, Repr

/-- Who speaks in the chunks of an endpoint. -/
def Endpoint.role : Endpoint → Option String
  | .generate => none
  | .chat => some "assistant"

section Chunks
variable (app : AppState) (endpoint : Endpoint) (clock : Clock)

/-- The chunk of a token. -/
def tokenChunk (token : GeneratedToken) : ResponseChunk where
  model := app.modelName
  createdAt := clock.now
  role := endpoint.role
  content := token.text
  done := false
  doneReason := none
  totalDuration := none
  loadDuration := none
  promptEvalCount := none
  promptEvalDuration := none
  evalCount := none
  evalDuration := none

/-- The last chunk of a stream, or the only one, with the whole text. -/
def finalChunk (promptTokens : Nat) (content : String) (result : Option GenerationResult) :
    ResponseChunk where
  model := app.modelName
  createdAt := clock.now
  role := endpoint.role
  content := content
  done := true
  doneReason := some "stop"
  totalDuration := some clock.elapsed
  loadDuration := some app.loadDurationNs
  promptEvalCount := result.map fun _ => promptTokens
  promptEvalDuration := result.map fun _ => clock.promptEval
  evalCount := result.map (·.tokensGenerated)
  evalDuration := result.map fun _ => clock.eval

end Chunks

/-! ### The two tasks of a request -/

/-- Where the blocking task is. -/
inductive Generator
  /-- At `loaded.lock()`. -/
  | waiting
  | locked
  /-- In the loop, with the text so far and the number of tokens. -/
  | generating (text : String) (n : Nat)
  /-- Out of the loop: `generate_from_loaded` drops its sender. -/
  | returning (result : Option GenerationResult)
  | returned (result : Option GenerationResult)
  /-- About to drop the guard. -/
  | unlocking
  | ended
  deriving DecidableEq, Repr

/-- Where the answering task is. -/
inductive Responder
  /-- A stream: at `token_rx.recv()`. -/
  | receiving
  /-- At `tx.send(..)`. -/
  | sending (chunk : ResponseChunk)
  /-- At `result_rx`. -/
  | awaiting
  | sendingLast (chunk : ResponseChunk)
  | ended
  /-- No stream: at `token_rx.recv()`, with the text so far. -/
  | collecting (fullResponse : String)
  | awaitingFull (fullResponse : String)
  | responded (chunk : ResponseChunk)
  /-- The handler was dropped. -/
  | cancelled
  deriving DecidableEq, Repr

structure Request where
  endpoint : Endpoint
  generation : Generation
  generator : Generator
  tokens : Pipe GeneratedToken none
  /-- The oneshot channel, once its sender has sent or was dropped. -/
  result : Option (Option GenerationResult)
  responder : Responder
  body : Pipe ResponseChunk (some 64)

/-- What both handlers do: the two tasks are there. -/
def Request.start (endpoint : Endpoint) (generation : Generation) (stream : Bool) : Request where
  endpoint := endpoint
  generation := generation
  generator := .waiting
  tokens := .new
  result := none
  responder := if stream then .receiving else .collecting ""
  body := .new

/-- `generate_handler`. -/
def generateHandler (generation : Generation) (stream : Bool) : Request :=
  .start .generate generation stream

/-- `chat_handler`. -/
def chatHandler (generation : Generation) (stream : Bool) : Request :=
  .start .chat generation stream

/-- The handler that `router` has for the endpoint. -/
def Endpoint.handler : Endpoint → Generation → Bool → Request
  | .generate => generateHandler
  | .chat => chatHandler

theorem Endpoint.handler_eq (endpoint : Endpoint) : endpoint.handler = Request.start endpoint := by
  cases endpoint with
  | generate => rfl
  | chat => rfl

namespace Request
variable (app : AppState) (r : Request)

/-- The body of the loop of `generate_from_loaded`. -/
def turn (text : String) (n : Nat) : Request :=
  let turn := r.generation.turns n
  let piece := tokenToPiece app.llamaTokenToPiece turn.tokenId
  let isEog := app.isEog turn.tokenId
  let text := text ++ piece
  if r.tokens.rx then
    let r := { r with tokens := r.tokens.send ⟨piece, turn.tokenId, isEog⟩ r.tokens.not_full }
    if isEog then { r with generator := .returning (some ⟨text, n + 1⟩) }
    else if turn.decoded then { r with generator := .generating text (n + 1) }
    else { r with generator := .returning none }
  else { r with generator := .returning (some ⟨text, n + 1⟩) }

/-- A step of the blocking task, while it has the lock. -/
def generate : Option Request :=
  match r.generator with
  | .locked =>
    if r.generation.evaluated then some { r with generator := .generating "" 0 }
    else some { r with generator := .returning none }
  | .generating text n =>
    if n < r.generation.maxTokens then some (r.turn app text n)
    else some { r with generator := .returning (some ⟨text, n⟩) }
  | .returning result =>
    some { r with tokens := r.tokens.dropTx, generator := .returned result }
  | .returned (some result) =>
    some { r with result := some (some result), generator := .unlocking }
  -- the error is logged
  | .returned none => some { r with generator := .unlocking }
  | _ => none

/-- The guard is dropped, and then the sender of the result, if it was not used. -/
def unlocked : Request := { r with result := some (r.result.getD none), generator := .ended }

/-- A step of the task that streams the chunks of an endpoint. -/
def ndjsonStream (endpoint : Endpoint) (clock : Clock) : Option Request :=
  match r.responder with
  | .receiving =>
    if h : r.tokens.taken < r.tokens.log.length then
      some { r with
        tokens := r.tokens.recv h
        responder := .sending (tokenChunk app endpoint clock r.tokens.log[r.tokens.taken]) }
    else if r.tokens.tx = false then some { r with responder := .awaiting }
    else none
  | .sending chunk =>
    if r.body.rx = false then
      some { r with tokens := r.tokens.dropRx, body := r.body.dropTx, responder := .ended }
    else if h : r.body.Full then none
    else some { r with body := r.body.send chunk h, responder := .receiving }
  | .awaiting => r.result.map fun result =>
    { r with responder :=
        .sendingLast (finalChunk app endpoint clock r.generation.promptTokens "" result) }
  | .sendingLast chunk =>
    if r.body.rx = false then some { r with body := r.body.dropTx, responder := .ended }
    else if h : r.body.Full then none
    else some { r with body := (r.body.send chunk h).dropTx, responder := .ended }
  | _ => none

/-- A step of `ndjson_generate_stream`. -/
def ndjsonGenerateStream (clock : Clock) : Option Request := r.ndjsonStream app .generate clock

/-- A step of `ndjson_chat_stream`. -/
def ndjsonChatStream (clock : Clock) : Option Request := r.ndjsonStream app .chat clock

/-- A step of the handler that collects the tokens for one chunk of an endpoint. -/
def collect (endpoint : Endpoint) (clock : Clock) : Option Request :=
  match r.responder with
  | .collecting fullResponse =>
    if h : r.tokens.taken < r.tokens.log.length then
      some { r with
        tokens := r.tokens.recv h
        responder := .collecting (fullResponse ++ r.tokens.log[r.tokens.taken].text) }
    else if r.tokens.tx = false then some { r with responder := .awaitingFull fullResponse }
    else none
  | .awaitingFull fullResponse => r.result.map fun result =>
    { r with responder :=
        .responded (finalChunk app endpoint clock r.generation.promptTokens fullResponse result) }
  | _ => none

/-- A step of `collect_generate`. -/
def collectGenerate (clock : Clock) : Option Request := r.collect app .generate clock

/-- A step of `collect_chat`. -/
def collectChat (clock : Clock) : Option Request := r.collect app .chat clock

/-- A step of the answering task: it streams, or it collects. -/
def respond (clock : Clock) : Option Request :=
  match r.endpoint with
  | .generate => (r.ndjsonGenerateStream app clock).or (r.collectGenerate app clock)
  | .chat => (r.ndjsonChatStream app clock).or (r.collectChat app clock)

/-- The endpoints differ only in the form of their chunks. -/
theorem respond_eq (clock : Clock) : r.respond app clock =
    (r.ndjsonStream app r.endpoint clock).or (r.collect app r.endpoint clock) := by
  unfold respond
  cases r.endpoint with
  | generate => rfl
  | chat => rfl

/-- The client reads a line of the body. -/
def read : Option Request :=
  if r.body.rx then
    if h : r.body.taken < r.body.log.length then some { r with body := r.body.recv h } else none
  else none

/-- The client leaves: the body is dropped, or the handler. -/
def disconnect : Option Request :=
  match r.responder with
  | .collecting _ => some { r with tokens := r.tokens.dropRx, responder := .cancelled }
  | .awaitingFull _ => some { r with tokens := r.tokens.dropRx, responder := .cancelled }
  | .responded _ => none
  | .cancelled => none
  | _ => if r.body.rx then some { r with body := r.body.dropRx } else none

end Request

/-! ### The server -/

/-- All requests so far, and whose task has the model locked. -/
structure State where
  requests : List Request
  lock : Option Nat

def State.start : State := ⟨[], none⟩

inductive Label
  /-- A request comes in. -/
  | arrive (endpoint : Endpoint) (generation : Generation) (stream : Bool)
  | generate (i : Nat)
  | respond (i : Nat) (clock : Clock)
  | read (i : Nat)
  | disconnect (i : Nat)

namespace State
variable (app : AppState) (m : State)

/-- A step of the `i`-th blocking task. Any that waits may get the lock. -/
def generateStep (i : Nat) (r : Request) : Option State :=
  match r.generator with
  | .waiting =>
    if m.lock = none then
      some ⟨m.requests.set i { r with generator := .locked }, some i⟩
    else none
  | .unlocking => some ⟨m.requests.set i r.unlocked, none⟩
  | _ => (r.generate app).map fun r => { m with requests := m.requests.set i r }

def step : Label → Option State
  | .arrive endpoint generation stream =>
    some { m with requests := m.requests ++ [endpoint.handler generation stream] }
  | .generate i => m.requests[i]?.bind (m.generateStep app i)
  | .respond i clock => m.requests[i]?.bind fun r =>
    (r.respond app clock).map fun r => { m with requests := m.requests.set i r }
  | .read i => m.requests[i]?.bind fun r =>
    r.read.map fun r => { m with requests := m.requests.set i r }
  | .disconnect i => m.requests[i]?.bind fun r =>
    r.disconnect.map fun r => { m with requests := m.requests.set i r }

end State

/-- What a request generates, on its own. -/
def Generation.generated (app : AppState) (g : Generation) :
    Option GenerationResult × List GeneratedToken :=
  if g.evaluated then generateFromLoaded app.llamaTokenToPiece app.isEog g.turns g.maxTokens
  else (none, [])

end Hypura.Server
