import Nifre.Inference.OpenaiApi

/-!
# The text of a stream and the text of a response

The stream decodes every token by itself, the response decodes all of them at once. Both carry the
same text exactly when no character is cut by a token boundary.

* `texts_eventsFrom` — the texts of the chunks are those of the single tokens
* `streamedText_eq_iff` — when they add up to the text of the response
-/

namespace Nifre.OpenaiApi

open Utf8

/-! ## The texts of the chunks -/

/-- **Every token goes out in one chunk of its own**, in order. -/
theorem texts_eventsFrom (ctx : StreamContext) (pendingTokenId : Option Nat) (tokens : List Nat) :
    (eventsFrom ctx pendingTokenId tokens).filterMap SseEvent.text?
      = (pendingTokenId.toList ++ tokens).map fun tokenId => ctx.tokenizer.decode [tokenId] := by
  induction tokens generalizing pendingTokenId with
  | nil => cases pendingTokenId <;> rfl
  | cons tokenId rest ih =>
    rw [eventsFrom, List.filterMap_append, ih]
    cases pendingTokenId <;> rfl

theorem texts_stream (ctx : StreamContext) (tokens : List Nat) :
    (streamOpenaiCompletionEvents ctx tokens).filterMap SseEvent.text?
      = tokens.map fun tokenId => ctx.tokenizer.decode [tokenId] :=
  texts_eventsFrom ctx none tokens

theorem join_ofList (texts : List (List Char)) :
    String.join (texts.map String.ofList) = String.ofList texts.flatten := by
  induction texts with
  | nil => rfl
  | cons text texts ih =>
    rw [List.map_cons, String.join_cons, ih, List.flatten_cons, String.ofList_append]

variable {tokenBytes : Nat → List UInt8}

/-- The text of a stream is that of the tokens decoded apart. -/
theorem streamedText_tiktoken {ctx : StreamContext}
    (htok : ctx.tokenizer = tiktokenTokenizer tokenBytes) (tokens : List Nat) :
    streamedText (streamOpenaiCompletionEvents ctx tokens)
      = String.ofList ((tokens.map tokenBytes).flatMap decode) := by
  rw [streamedText, texts_stream, htok, List.flatMap_def, ← join_ofList, List.map_map, List.map_map]
  congr 1
  refine List.map_congr_left fun tokenId _ => ?_
  show String.ofList (decode ([tokenId].flatMap tokenBytes)) = _
  rw [List.flatMap_singleton]
  rfl

/-- The two texts agree when the tokens may be decoded apart. -/
theorem streamedText_eq_iff_flatMap {ctx : StreamContext}
    (htok : ctx.tokenizer = tiktokenTokenizer tokenBytes) (result : InferenceRequest Nat)
    (modelBackend : String) (requestedModel : Option String) (completionId : String) (now : Int) :
    streamedText (streamOpenaiCompletionEvents ctx result.outputTokenIds)
      = (completionsBlocking ctx.tokenizer result modelBackend requestedModel completionId
          now).text ↔
      (result.outputTokenIds.map tokenBytes).flatMap decode
        = decode (result.outputTokenIds.map tokenBytes).flatten := by
  rw [streamedText_tiktoken htok, htok]
  show String.ofList _ = String.ofList (decode (result.outputTokenIds.flatMap tokenBytes)) ↔ _
  rw [String.ofList_inj, List.flatMap_def (f := tokenBytes)]

/-- Tokens of whole characters never cut one, so the two texts agree. -/
theorem streamedText_wholeChars {texts : Nat → List Char}
    (h : ∀ tokenId, tokenBytes tokenId = (texts tokenId).flatMap String.utf8EncodeChar)
    {ctx : StreamContext} (htok : ctx.tokenizer = tiktokenTokenizer tokenBytes)
    (result : InferenceRequest Nat) (modelBackend : String) (requestedModel : Option String)
    (completionId : String) (now : Int) :
    streamedText (streamOpenaiCompletionEvents ctx result.outputTokenIds)
      = (completionsBlocking ctx.tokenizer result modelBackend requestedModel completionId
          now).text := by
  have hmap : result.outputTokenIds.map tokenBytes
      = (result.outputTokenIds.map texts).map fun text => text.flatMap String.utf8EncodeChar := by
    rw [List.map_map]
    exact List.map_congr_left fun tokenId _ => h tokenId
  rw [streamedText_eq_iff_flatMap htok, decode_flatten_iff, hmap]
  exact fun i _ => not_cutInside_encode _ i

/-- **The stream and the response carry the same text** exactly when no token boundary cuts a
character: when no token starts with a byte that goes on with a sequence left unfinished by the
tokens before it. -/
theorem streamedText_eq_iff (tokenBytes : Nat → List UInt8) (completionId model : String)
    (created now : Int) (result : InferenceRequest Nat) (modelBackend : String)
    (requestedModel : Option String) :
    streamedText (streamOpenaiCompletionEvents
        ⟨tiktokenTokenizer tokenBytes, completionId, created, model, now⟩ result.outputTokenIds)
      = (completionsBlocking (tiktokenTokenizer tokenBytes) result modelBackend requestedModel
          completionId now).text ↔
      ∀ i < result.outputTokenIds.length, ¬CutInside (result.outputTokenIds.map tokenBytes) i := by
  rw [← List.length_map tokenBytes, ← decode_flatten_iff]
  exact streamedText_eq_iff_flatMap rfl result modelBackend requestedModel completionId now

/-- Two tokens with the two bytes of one character. -/
def eAcute : Nat → List UInt8
  | 0 => [0xC3]
  | _ => [0xA9]

/-- The stream sends U+FFFD twice where the response has the character. -/
theorem cutChar_streamedApart :
    ¬∀ (tokenBytes : Nat → List UInt8) (completionId model : String) (created now : Int)
      (result : InferenceRequest Nat) (modelBackend : String) (requestedModel : Option String),
      streamedText (streamOpenaiCompletionEvents
          ⟨tiktokenTokenizer tokenBytes, completionId, created, model, now⟩ result.outputTokenIds)
        = (completionsBlocking (tiktokenTokenizer tokenBytes) result modelBackend requestedModel
            completionId now).text := by
  intro h
  have hsame := h eAcute "cmpl" "gpt" 1 1
    { requestId := "a", promptTokenIds := [7], maxNewTokens := 2, outputTokenIds := [0, 1] }
    "gpt" none
  revert hsame
  decide +kernel

end Nifre.OpenaiApi
