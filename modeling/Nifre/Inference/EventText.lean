import Nifre.Inference.OpenaiApi
import Nifre.Lib.Json

/-!
# The text of an event stream

What `completion_chunk_sse` puts on the wire, and how a client reads it: `_parse_sse_events` of
`test_server.py`, over the lines of the response.
-/

namespace Nifre.OpenaiApi

/-! ## Writing -/

def CompletionChunk.payload (chunk : CompletionChunk) : Json :=
  .dict
    [("id", .str chunk.id),
      ("object", .str chunk.object),
      ("created", .int chunk.created),
      ("model", .str chunk.model),
      ("choices", .list
        [.dict
          [("text", .str chunk.text),
            ("index", .int 0),
            ("logprobs", .null),
            ("finish_reason", chunk.finishReason.elim .null .str)]])]

/-- `data: `. -/
def dataField : List Char := ['d', 'a', 't', 'a', ':', ' ']

/-- `[DONE]`. -/
def doneMark : List Char := ['[', 'D', 'O', 'N', 'E', ']']

/-- What follows `data: `. -/
def SseEvent.content : SseEvent → List Char
  | .data chunk => chunk.payload.dumps
  | .done => doneMark

def SseEvent.line (event : SseEvent) : List Char := dataField ++ event.content

def SseEvent.wire (event : SseEvent) : List Char := event.line ++ ['\n', '\n']

/-- The body of a response. -/
def wireText (events : List SseEvent) : List Char := events.flatMap SseEvent.wire

/-! ## Reading -/

/-- The line boundaries of `str.splitlines`. -/
def lineBreaks : List Nat :=
  [0x0A, 0x0B, 0x0C, 0x0D, 0x1C, 0x1D, 0x1E, 0x85, 0x2028, 0x2029]

def isLineBreak (c : Char) : Bool := c.toNat ∈ lineBreaks

/-- `str.splitlines`; a carriage return and a line feed are one boundary. -/
def splitlines : List Char → List (List Char)
  | [] => []
  | '\r' :: '\n' :: cs => [] :: splitlines cs
  | c :: cs =>
    if isLineBreak c then [] :: splitlines cs
    else
      match splitlines cs with
      | [] => [[c]]
      | line :: lines => (c :: line) :: lines

/-- `_parse_sse_events`: the events of some lines, and whether the end of the stream was seen. -/
def parseSseEvents : List (List Char) → Except Json.DecodeError (List Json × Bool)
  | [] => .ok ([], false)
  | line :: lines =>
    if line = [] ∨ ¬dataField.isPrefixOf line then
      parseSseEvents lines
    else
      let data := line.drop dataField.length
      if data = doneMark then
        .ok ([], true)
      else do
        let event ← Json.loads data
        let (events, done) ← parseSseEvents lines
        pure (event :: events, done)

/-- `event[key]`. -/
def item? (key : String) : Json → Option Json
  | .dict items => items.lookup key
  | _ => none

/-- `event["choices"][0]["text"]`. -/
def chunkText (event : Json) : Option String := do
  let .list (choice :: _) ← item? "choices" event | none
  let .str text ← item? "text" choice | none
  some text

end Nifre.OpenaiApi
