import Nifre.Inference.EventText
import Nifre.Properties.Streaming

/-!
# What a client reads of a stream

The events of a response are read back from its text. If the connection breaks off anywhere, the
client either fails to decode the last event or has a part of the events, none of them altered.

* `parse_wireText` — the events of a whole text
* `parse_take` — the events of a text that breaks off
* `EngineWorker.client_reads` — runs of the worker
-/

namespace Nifre

namespace OpenaiApi

/-! ## The payload of a chunk -/

theorem CompletionChunk.payload_distinct (chunk : CompletionChunk) :
    Json.Distinct chunk.payload := by
  have hkeys : ["id", "object", "created", "model", "choices"].Nodup := by decide
  have hchoice : ["text", "index", "logprobs", "finish_reason"].Nodup := by decide
  refine .dict hkeys ?_
  simp only [List.forall_mem_cons, List.not_mem_nil]
  refine ⟨.str _, .str _, .int _, .str _, ?_, fun _ h => h.elim⟩
  refine .list ?_
  simp only [List.forall_mem_cons, List.not_mem_nil]
  refine ⟨.dict hchoice ?_, fun _ h => h.elim⟩
  simp only [List.forall_mem_cons, List.not_mem_nil]
  refine ⟨.str _, .int _, .null, ?_, fun _ h => h.elim⟩
  cases chunk.finishReason with
  | none => exact .null
  | some reason => exact .str _

/-- A payload is no mark of the end, nor is a piece of it. -/
theorem CompletionChunk.take_ne_doneMark (chunk : CompletionChunk) (k : Nat) :
    chunk.payload.dumps.take k ≠ doneMark := by
  obtain ⟨cs, hcs⟩ : ∃ cs, chunk.payload.dumps = '{' :: cs := ⟨_, rfl⟩
  rw [hcs]
  intro h
  cases k with
  | zero => cases h
  | succ k => exact absurd (List.cons.inj h).1 (by decide)

/-! ## Lines -/

theorem isLineBreak_of_isPrintable {c : Char} (h : Json.IsPrintable c) : isLineBreak c = false := by
  obtain ⟨hlow, hhigh⟩ := h
  rw [isLineBreak, decide_eq_false_iff_not]
  simp only [lineBreaks, List.mem_cons, List.not_mem_nil, or_false]
  omega

theorem ne_cr_of_isLineBreak {c : Char} (h : isLineBreak c = false) : c ≠ '\r' := by
  rintro rfl
  exact absurd h (by decide)

theorem splitlines_cons_of_nil {c : Char} {cs : List Char} (h : isLineBreak c = false)
    (hcs : splitlines cs = []) : splitlines (c :: cs) = [[c]] := by
  rw [splitlines.eq_3 c cs fun _ hc _ => ne_cr_of_isLineBreak h hc, h, hcs]
  rfl

theorem splitlines_cons_of_cons {c : Char} {cs line : List Char} {lines : List (List Char)}
    (h : isLineBreak c = false) (hcs : splitlines cs = line :: lines) :
    splitlines (c :: cs) = (c :: line) :: lines := by
  rw [splitlines.eq_3 c cs fun _ hc _ => ne_cr_of_isLineBreak h hc, h, hcs]
  rfl

theorem splitlines_newline (rest : List Char) :
    splitlines ('\n' :: rest) = [] :: splitlines rest := by
  rw [splitlines.eq_3 '\n' rest fun _ hc _ => absurd hc (by decide)]
  rfl

/-- A line with its end. -/
theorem splitlines_line : ∀ (line : List Char) (rest : List Char),
    (∀ c ∈ line, isLineBreak c = false) →
    splitlines (line ++ '\n' :: rest) = line :: splitlines rest
  | [], rest, _ => splitlines_newline rest
  | c :: line, rest, h => splitlines_cons_of_cons (h c List.mem_cons_self)
      (splitlines_line line rest fun d hd => h d (List.mem_cons_of_mem c hd))

/-- A line that ends with the text. -/
theorem splitlines_last : ∀ {line : List Char}, line ≠ [] →
    (∀ c ∈ line, isLineBreak c = false) → splitlines line = [line]
  | [c], _, h => splitlines_cons_of_nil (h c List.mem_cons_self) rfl
  | c :: d :: line, _, h => splitlines_cons_of_cons (h c List.mem_cons_self)
      (splitlines_last (List.cons_ne_nil d line) fun e he => h e (List.mem_cons_of_mem c he))

theorem SseEvent.isLineBreak_line (event : SseEvent) :
    ∀ c ∈ event.line, isLineBreak c = false := by
  intro c hc
  rcases List.mem_append.mp hc with hc | hc
  · exact isLineBreak_of_isPrintable (Json.isPrintable_of_all (by decide) c hc)
  · cases event with
    | data chunk => exact isLineBreak_of_isPrintable (Json.isPrintable_dumps _ c hc)
    | done => exact isLineBreak_of_isPrintable (Json.isPrintable_of_all (by decide) c hc)

/-! ## One line -/

theorem parse_line {data : List Char} (lines : List (List Char)) :
    parseSseEvents ((dataField ++ data) :: lines)
      = if data = doneMark then .ok ([], true)
        else Json.loads data >>= fun event => parseSseEvents lines >>= fun p =>
          pure (event :: p.1, p.2) := by
  rw [parseSseEvents, if_neg]
  · rfl
  · rintro (h | h)
    · cases h
    · exact h rfl

/-- A line that breaks off within `data: `. -/
theorem parse_short {data : List Char} {k : Nat} (hk : k < dataField.length) :
    parseSseEvents [(dataField ++ data).take k] = .ok ([], false) := by
  have hshort : (dataField ++ data).take k = dataField.take k :=
    List.take_append_of_le_length (Nat.le_of_lt hk)
  have hall : ∀ j < 6, dataField.isPrefixOf (dataField.take j) = false := by decide
  rw [hshort, parseSseEvents, if_pos (Or.inr (by rw [hall k hk]; exact Bool.false_ne_true))]
  rfl

/-- A blank line is skipped. -/
theorem parse_blank (lines : List (List Char)) :
    parseSseEvents ([] :: lines) = parseSseEvents lines := by
  rw [parseSseEvents, if_pos (Or.inl rfl)]

theorem splitlines_wire (event : SseEvent) (rest : List Char) :
    splitlines (event.wire ++ rest) = event.line :: [] :: splitlines rest := by
  have happend : event.wire ++ rest = event.line ++ '\n' :: ('\n' :: rest) := by
    rw [SseEvent.wire, List.append_assoc]
    rfl
  rw [happend, splitlines_line event.line _ event.isLineBreak_line, splitlines_newline]

/-! ## The whole text -/

/-- What a client makes of some events: the payloads up to the mark of the end. -/
def received : List SseEvent → List Json × Bool
  | [] => ([], false)
  | .data chunk :: events => (chunk.payload :: (received events).1, (received events).2)
  | .done :: _ => ([], true)

theorem parse_data (chunk : CompletionChunk) (lines : List (List Char)) :
    parseSseEvents ((SseEvent.data chunk).line :: lines)
      = (parseSseEvents lines).map fun p => (chunk.payload :: p.1, p.2) := by
  have hne : chunk.payload.dumps ≠ doneMark := by
    have htake := chunk.take_ne_doneMark chunk.payload.dumps.length
    rwa [List.take_length] at htake
  rw [SseEvent.line, SseEvent.content, parse_line, if_neg hne,
    Json.loads_dumps chunk.payload_distinct]
  change (parseSseEvents lines >>= fun p => pure (chunk.payload :: p.1, p.2)) = _
  cases parseSseEvents lines <;> rfl

theorem parse_done (lines : List (List Char)) :
    parseSseEvents (SseEvent.done.line :: lines) = .ok ([], true) := by
  rw [SseEvent.line, SseEvent.content, parse_line, if_pos rfl]

/-- **The events of a response are read back from its text.** -/
theorem parse_wireText (events : List SseEvent) :
    parseSseEvents (splitlines (wireText events)) = .ok (received events) := by
  induction events with
  | nil => rfl
  | cons event events ih =>
    rw [wireText, List.flatMap_cons, splitlines_wire, ← wireText]
    cases event with
    | data chunk =>
      rw [parse_data, parse_blank, ih]
      rfl
    | done => rw [parse_done, received]

/-! ## A text that breaks off -/

/-- A line that breaks off in what follows `data: `. -/
theorem parse_piece (event : SseEvent) {k : Nat} (hk : k < event.content.length) :
    ∃ err, parseSseEvents [dataField ++ event.content.take k] = .error err := by
  rw [parse_line]
  cases event with
  | data chunk =>
    obtain ⟨err, herr⟩ := Json.loads_take chunk.payload_distinct (Or.inr rfl) hk
    refine ⟨err, ?_⟩
    rw [SseEvent.content, if_neg (chunk.take_ne_doneMark k), herr]
    rfl
  | done =>
    have hall : ∀ j < 6, doneMark.take j ≠ doneMark ∧
        (Json.loads (doneMark.take j)).toBool = false := by decide
    obtain ⟨hne, hfails⟩ := hall k hk
    rw [SseEvent.content, if_neg hne]
    cases hload : Json.loads (doneMark.take k) with
    | error err => exact ⟨err, rfl⟩
    | ok v =>
      rw [hload] at hfails
      cases hfails

/-- **One event that breaks off** is not decoded, or skipped, or there as a whole. -/
theorem parse_wire_take (event : SseEvent) {k : Nat} (hk : k < event.wire.length) :
    (∃ err, parseSseEvents (splitlines (event.wire.take k)) = .error err) ∨
      parseSseEvents (splitlines (event.wire.take k)) = .ok ([], false) ∨
      parseSseEvents (splitlines (event.wire.take k)) = parseSseEvents [event.line] := by
  rcases Nat.lt_or_ge event.line.length k with hlong | hshort
  · -- the line is there, with one of the two line feeds
    have hk' : k = event.line.length + 1 := by
      rw [SseEvent.wire, List.length_append] at hk
      exact Nat.le_antisymm (Nat.le_of_lt_succ hk) hlong
    have htake : event.wire.take k = event.line ++ '\n' :: [] := by
      rw [SseEvent.wire, hk', List.take_length_add_append]
      rfl
    rw [htake, splitlines_line event.line [] event.isLineBreak_line]
    exact Or.inr (Or.inr rfl)
  · have htake : event.wire.take k = event.line.take k := List.take_append_of_le_length hshort
    rw [htake]
    rcases Nat.eq_zero_or_pos k with rfl | hpos
    · exact Or.inr (Or.inl rfl)
    · have hne : event.line.take k ≠ [] := by
        rw [← List.length_pos_iff, List.length_take]
        omega
      rw [splitlines_last hne fun c hc => event.isLineBreak_line c (List.mem_of_mem_take hc)]
      rcases Nat.lt_or_ge k dataField.length with hfield | hfield
      · exact Or.inr (Or.inl (parse_short hfield))
      · obtain ⟨j, rfl⟩ : ∃ j, k = dataField.length + j := ⟨k - dataField.length, by omega⟩
        rcases Nat.lt_or_ge j event.content.length with hcontent | hcontent
        · rw [SseEvent.line, List.take_length_add_append]
          exact Or.inl (parse_piece event hcontent)
        · rw [List.take_of_length_le (by rw [SseEvent.line, List.length_append]; omega)]
          exact Or.inr (Or.inr rfl)

/-- **Where the connection breaks off makes no difference to the events read**: they are a part of
those sent, and the end is not seen before all of them are. -/
theorem parse_take : ∀ (events : List SseEvent) (k : Nat) {got : List Json} {done : Bool},
    parseSseEvents (splitlines ((wireText events).take k)) = .ok (got, done) →
    got <+: (received events).1 ∧ (done = true → (got, true) = received events)
  | [], k, got, done, h => by
    rw [wireText, List.flatMap_nil, List.take_nil] at h
    cases h
    exact ⟨List.prefix_rfl, fun h => absurd h (by decide)⟩
  | event :: events, k, got, done, h => by
    rw [wireText, List.flatMap_cons, ← wireText] at h
    rcases Nat.lt_or_ge k event.wire.length with hlt | hge
    · rw [List.take_append_of_le_length (Nat.le_of_lt hlt)] at h
      rcases parse_wire_take event hlt with ⟨err, herr⟩ | hnone | hone
      · rw [herr] at h
        cases h
      · rw [hnone] at h
        cases h
        exact ⟨List.nil_prefix, fun h => absurd h (by decide)⟩
      · rw [hone] at h
        cases event with
        | data chunk =>
          rw [parse_data] at h
          cases h
          exact ⟨List.prefix_append [chunk.payload] _, fun h => absurd h (by decide)⟩
        | done =>
          rw [parse_done] at h
          cases h
          exact ⟨List.prefix_rfl, fun _ => rfl⟩
    · obtain ⟨j, rfl⟩ : ∃ j, k = event.wire.length + j := ⟨k - event.wire.length, by omega⟩
      rw [List.take_length_add_append, splitlines_wire] at h
      cases event with
      | data chunk =>
        rw [parse_data, parse_blank] at h
        cases hrest : parseSseEvents (splitlines ((wireText events).take j)) with
        | error err =>
          rw [hrest] at h
          cases h
        | ok p =>
          rw [hrest] at h
          cases h
          obtain ⟨hpart, hdone⟩ := parse_take events j hrest
          refine ⟨List.cons_prefix_cons.mpr ⟨rfl, hpart⟩, fun hd => ?_⟩
          have hall := hdone hd
          rw [received, ← hall]
      | done =>
        rw [parse_done] at h
        cases h
        exact ⟨List.prefix_rfl, fun _ => rfl⟩

/-! ## The texts of the events -/

/-- The chunks of a stream that has ended, and the mark of the end. -/
theorem received_eventsFrom (ctx : StreamContext) (pendingTokenId : Option Nat)
    (tokens : List Nat) :
    (received (eventsFrom ctx pendingTokenId tokens)).1.map chunkText
        = (pendingTokenId.toList ++ tokens).map (fun t => some (ctx.tokenizer.decode [t])) ∧
      (received (eventsFrom ctx pendingTokenId tokens)).2 = true := by
  induction tokens generalizing pendingTokenId with
  | nil => cases pendingTokenId <;> exact ⟨rfl, rfl⟩
  | cons tokenId rest ih =>
    obtain ⟨htexts, hdone⟩ := ih (some tokenId)
    cases pendingTokenId with
    | none => exact ⟨htexts, hdone⟩
    | some pending => exact ⟨congrArg (some (ctx.tokenizer.decode [pending]) :: ·) htexts, hdone⟩

/-- The chunks of a stream that goes on: the last token is held back. -/
theorem received_eventsSoFar (ctx : StreamContext) (pendingTokenId : Option Nat)
    (tokens : List Nat) :
    (received (eventsSoFar ctx pendingTokenId tokens)).1.map chunkText
        = (pendingTokenId.toList ++ tokens).dropLast.map
          (fun t => some (ctx.tokenizer.decode [t])) ∧
      (received (eventsSoFar ctx pendingTokenId tokens)).2 = false := by
  induction tokens generalizing pendingTokenId with
  | nil => cases pendingTokenId <;> exact ⟨rfl, rfl⟩
  | cons tokenId rest ih =>
    obtain ⟨htexts, hdone⟩ := ih (some tokenId)
    cases pendingTokenId with
    | none => exact ⟨htexts, hdone⟩
    | some pending => exact ⟨congrArg (some (ctx.tokenizer.decode [pending]) :: ·) htexts, hdone⟩

/-- What is received of a call of `generate_stream`, in any of its states. -/
theorem received_eventsOf (ctx : StreamContext) (c : StreamCall) :
    ∃ tokens, tokens <+: c.yielded ∧ (c.phase = .ended false → tokens = c.yielded) ∧
      (received (eventsOf ctx c)).1.map chunkText
        = tokens.map (fun t => some (ctx.tokenizer.decode [t])) ∧
      (received (eventsOf ctx c)).2 = decide (c.phase = .ended false) := by
  unfold eventsOf
  split
  next hend =>
    obtain ⟨htexts, hdone⟩ := received_eventsFrom ctx none c.yielded
    refine ⟨c.yielded, List.prefix_rfl, fun _ => rfl, htexts, ?_⟩
    rw [decide_eq_true hend]
    exact hdone
  next hend =>
    obtain ⟨htexts, hdone⟩ := received_eventsSoFar ctx none c.yielded
    refine ⟨c.yielded.dropLast, List.dropLast_prefix _, fun h => absurd h hend, htexts, ?_⟩
    rw [decide_eq_false hend]
    exact hdone

end OpenaiApi

/-! ## Runs of the worker -/

namespace EngineWorker

open OpenaiApi
open Scheduler (Produced)

variable {Row Score : Type} {e : Engine Row} {w : EngineWorker Row}

/-- The request of a stream, and how much of its output has been yielded. -/
theorem Tracked.request (h : Tracked w) {c : StreamCall} (hc : c ∈ w.streams) :
    ∃ r < w.engine.scheduler.created, (w.engine.scheduler.requests r).requestId = c.requestId ∧
      (c.phase ≠ .ended true → c.yielded <+: (w.engine.scheduler.requests r).outputTokenIds) ∧
      (c.phase = .ended false → c.yielded = (w.engine.scheduler.requests r).outputTokenIds ∧
        Produced (w.engine.scheduler.requests r)) := by
  by_cases hend : c.phase = .ended false
  · obtain ⟨r, hlt, hid, hout, hproduced⟩ := h.delivered hc hend
    exact ⟨r, hlt, hid, fun _ => hout ▸ List.prefix_rfl, fun _ => ⟨hout, hproduced⟩⟩
  · obtain ⟨r, hr⟩ := h.1.streams c hc
    refine ⟨r, hr.created, hr.requestId, fun hthrown => ?_, fun he => absurd he hend⟩
    have hlive : ¬StreamCall.Ended c := by
      rintro ⟨thrown, hphase⟩
      cases thrown with
      | true => exact hthrown hphase
      | false => exact hend hphase
    rw [hr.exact hlive]
    exact List.prefix_append _ _

variable [LinearOrder Score] {chain : Int → List Nat → Int} {model : InferenceModel Row Score}

/-- **What a client reads is what was generated**, in every state of a run that draws new ids and
where no stream finds the stop flag set while there are tokens to come. A text that arrives as a
whole is read payload by payload. Of a text that breaks off anywhere the client has, unless decoding
fails, the texts of the first tokens of its own request, and it sees the end only with all of
them. -/
theorem client_reads {maxConcurrentRequests prefillChunkSize maxTokensPerStep : Int}
    {usePagedKvCache usePrefixCache : Bool} {actions : List Action}
    (h : Engine.new model maxConcurrentRequests prefillChunkSize maxTokensPerStep usePagedKvCache
      usePrefixCache = .ok e)
    (hrun : Exec.Along (fun w a => NewId w a ∧ NotCut w a) (next chain model) (new e) actions) :
    let w := actions.foldl (next chain model) (new e)
    ∀ c ∈ w.streams, ∀ ctx : StreamContext,
      parseSseEvents (splitlines (wireText (eventsOf ctx c))) = .ok (received (eventsOf ctx c)) ∧
      (received (eventsOf ctx c)).2 = decide (c.phase = .ended false) ∧
      ∀ k got done, parseSseEvents (splitlines ((wireText (eventsOf ctx c)).take k))
          = .ok (got, done) →
        ∃ r < w.engine.scheduler.created,
          (w.engine.scheduler.requests r).requestId = c.requestId ∧
          ∃ tokens, tokens <+: c.yielded ∧
            (c.phase ≠ .ended true → tokens <+: (w.engine.scheduler.requests r).outputTokenIds) ∧
            got.map chunkText = tokens.map (fun t => some (ctx.tokenizer.decode [t])) ∧
            (done = true → tokens = (w.engine.scheduler.requests r).outputTokenIds ∧
              Produced (w.engine.scheduler.requests r)) := by
  intro w c hc ctx
  have htracked : Tracked w := tracked_run h hrun
  obtain ⟨tokens, hyielded, hall, htexts, hdone⟩ := received_eventsOf ctx c
  refine ⟨parse_wireText (eventsOf ctx c), hdone, fun k got done hgot => ?_⟩
  · obtain ⟨hpart, hwhole⟩ := parse_take _ k hgot
    obtain ⟨r, hlt, hid, hsome, hend⟩ := htracked.request hc
    refine ⟨r, hlt, hid, tokens.take got.length, ?_, fun hthrown => ?_, ?_, fun hd => ?_⟩
    · exact (List.take_prefix _ _).trans hyielded
    · exact (List.take_prefix _ _).trans (hyielded.trans (hsome hthrown))
    · have hgot' := List.prefix_iff_eq_take.mp hpart
      rw [hgot', List.map_take, htexts, ← List.map_take, List.length_take]
      have hlen := congrArg List.length htexts
      rw [List.length_map, List.length_map] at hlen
      rw [hlen, List.take_eq_take_min]
    · -- the mark of the end comes after all chunks
      have hreceived := hwhole hd
      have hphase : c.phase = .ended false := by
        rw [← hreceived] at hdone
        exact of_decide_eq_true hdone.symm
      obtain ⟨hout, hproduced⟩ := hend hphase
      refine ⟨?_, hproduced⟩
      rw [← hreceived] at htexts
      have hlen := congrArg List.length htexts
      rw [List.length_map, List.length_map] at hlen
      rw [hlen, List.take_length, hall hphase, hout]

theorem twoClients_reads : ∃ e, Engine.new (recallModel ⟨1, 8, 0, 2⟩ sumScores) 2 2 8 true false
    = .ok e ∧
    let w := twoClients.foldl (next (fun _ _ => 0) (recallModel ⟨1, 8, 0, 2⟩ sumScores)) (new e)
    w.streams.map (·.phase) = [.ended false] ∧
    ∀ c ∈ w.streams, ∀ ctx : StreamContext,
      parseSseEvents (splitlines (wireText (eventsOf ctx c))) = .ok (received (eventsOf ctx c)) ∧
      (received (eventsOf ctx c)).2 = decide (c.phase = .ended false) ∧
      ∀ k got done, parseSseEvents (splitlines ((wireText (eventsOf ctx c)).take k))
          = .ok (got, done) →
        ∃ r < w.engine.scheduler.created,
          (w.engine.scheduler.requests r).requestId = c.requestId ∧
          ∃ tokens, tokens <+: c.yielded ∧
            (c.phase ≠ .ended true → tokens <+: (w.engine.scheduler.requests r).outputTokenIds) ∧
            got.map chunkText = tokens.map (fun t => some (ctx.tokenizer.decode [t])) ∧
            (done = true → tokens = (w.engine.scheduler.requests r).outputTokenIds ∧
              Produced (w.engine.scheduler.requests r)) := by
  obtain ⟨e, h⟩ : ∃ e, Engine.new (recallModel ⟨1, 8, 0, 2⟩ sumScores) 2 2 8 true false = .ok e :=
    ⟨_, rfl⟩
  refine ⟨e, h, ?_, client_reads h (notCut_along (by decide) rfl ?_)⟩
  · cases h
    decide +kernel
  · cases h
    decide +kernel

end EngineWorker

end Nifre
