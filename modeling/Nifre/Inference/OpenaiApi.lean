import Nifre.Lib.Utf8
import Nifre.Inference.EngineWorker

/-!
# OpenAI-compatible completions

The shapes of `openai_api.py`, its stream of events, and the blocking route of `server.py`. The
stream holds every token back until the next one arrives, so that only the last one carries a
finish reason.

An event is the payload itself; its text is in `EventText`. Fresh completion ids and the clock are
parameters.
-/

namespace Nifre

/-- What the completions API uses of a tokenizer. -/
structure Tokenizer where
  decode : List Nat → String

/-- `TiktokenTokenizer`: a token stands for its bytes in the vocabulary, and `decode` reads them as
UTF-8 with `errors="replace"`. -/
def tiktokenTokenizer (tokenBytes : Nat → List UInt8) : Tokenizer where
  decode tokenIds := String.ofList (Utf8.decode (tokenIds.flatMap tokenBytes))

namespace OpenaiApi

/-- `created or int(time.time())`. -/
def createdOr (created : Option Int) (now : Int) : Int :=
  match created with
  | none => now
  | some c => if c = 0 then now else c

/-! ## Server-sent events -/

/-- The payload of a chunk. Its one choice has index 0 and no `logprobs`. -/
structure CompletionChunk where
  id : String
  object : String := "text_completion"
  created : Int
  model : String
  text : String
  finishReason : Option String
  deriving DecidableEq, Repr

inductive SseEvent where
  | data (payload : CompletionChunk)
  | done
  deriving DecidableEq, Repr

def completionChunkSse (completionId model text : String) (finishReason : Option String)
    (created : Option Int) (now : Int) : SseEvent :=
  .data
    { id := completionId
      created := createdOr created now
      model := model
      text := text
      finishReason := finishReason }

/-- What the events of one stream share. -/
structure StreamContext where
  tokenizer : Tokenizer
  completionId : String
  created : Int
  model : String
  now : Int

/-- The chunk of one token, decoded by itself. -/
def StreamContext.chunk (ctx : StreamContext) (tokenId : Nat) (finishReason : Option String) :
    SseEvent :=
  completionChunkSse ctx.completionId ctx.model (ctx.tokenizer.decode [tokenId]) finishReason
    (some ctx.created) ctx.now

/-- The body of the `for` loop: the token held back goes out, and the new one is held back. -/
def onToken (ctx : StreamContext) (pendingTokenId : Option Nat) (tokenId : Nat) :
    List SseEvent × Option Nat :=
  match pendingTokenId with
  | none => ([], some tokenId)
  | some pending => ([ctx.chunk pending none], some tokenId)

/-- After the loop: the last token goes out with a finish reason. -/
def onEnd (ctx : StreamContext) (pendingTokenId : Option Nat) : List SseEvent :=
  match pendingTokenId with
  | none => [.done]
  | some pending => [ctx.chunk pending (some "length"), .done]

/-- The `for` loop of `stream_openai_completion_events` from a token held back on. -/
def eventsFrom (ctx : StreamContext) : Option Nat → List Nat → List SseEvent
  | pendingTokenId, [] => onEnd ctx pendingTokenId
  | pendingTokenId, tokenId :: rest =>
    (onToken ctx pendingTokenId tokenId).1
      ++ eventsFrom ctx (onToken ctx pendingTokenId tokenId).2 rest

/-- The events of a token stream that ends. -/
def streamOpenaiCompletionEvents (ctx : StreamContext) (tokenStream : List Nat) : List SseEvent :=
  eventsFrom ctx none tokenStream

/-- The events of a token stream that goes on. -/
def eventsSoFar (ctx : StreamContext) : Option Nat → List Nat → List SseEvent
  | _, [] => []
  | pendingTokenId, tokenId :: rest =>
    (onToken ctx pendingTokenId tokenId).1
      ++ eventsSoFar ctx (onToken ctx pendingTokenId tokenId).2 rest

/-- The events over a call of `generate_stream`: the loop ends when the call returns. -/
def eventsOf (ctx : StreamContext) (c : StreamCall) : List SseEvent :=
  if c.phase = .ended false then streamOpenaiCompletionEvents ctx c.yielded
  else eventsSoFar ctx none c.yielded

/-- The text of a chunk. -/
def SseEvent.text? : SseEvent → Option String
  | .data payload => some payload.text
  | .done => none

/-- The texts of the chunks, one after the other. -/
def streamedText (events : List SseEvent) : String := String.join (events.filterMap SseEvent.text?)

/-! ## The blocking route -/

structure Usage where
  promptTokens : Nat
  completionTokens : Nat
  totalTokens : Nat
  deriving DecidableEq, Repr

/-- The payload of a whole completion. -/
structure CompletionResponse where
  id : String
  object : String := "text_completion"
  created : Int
  model : String
  text : String
  finishReason : String
  usage : Usage
  deriving DecidableEq, Repr

def buildCompletionResponse (completionId model completionText : String)
    (promptTokens completionTokens : Nat) (finishReason : String) (created : Option Int)
    (now : Int) : CompletionResponse where
  id := completionId
  created := createdOr created now
  model := model
  text := completionText
  finishReason := finishReason
  usage := ⟨promptTokens, completionTokens, promptTokens + completionTokens⟩

/-- `requested_model or model_backend`. -/
def modelName (requestedModel : Option String) (modelBackend : String) : String :=
  match requestedModel with
  | none => modelBackend
  | some m => if m = "" then modelBackend else m

/-- `_completions_blocking`, from the request that `worker.generate` returned. -/
def completionsBlocking (tokenizer : Tokenizer) (result : InferenceRequest Nat)
    (modelBackend : String) (requestedModel : Option String) (completionId : String) (now : Int) :
    CompletionResponse :=
  buildCompletionResponse completionId (modelName requestedModel modelBackend)
    (tokenizer.decode result.outputTokenIds) result.promptTokenIds.length
    result.outputTokenIds.length "length" none now

end OpenaiApi

end Nifre
