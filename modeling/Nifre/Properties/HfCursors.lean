import Nifre.Properties.Passes
import Mathlib.Data.List.TakeWhile

/-!
# The cursors after a Hugging Face forward pass

The rows of a batch are fed one after the other, and each stores its own past. If a row is refused,
the rows before it keep what they stored; and if the logits of the rows do not fit together, all of
them do. A past is extended in place, so a row that is refused may leave tokens in its past that its
cursor does not count, and the next row with that past moves the cursor over them.
-/

namespace Nifre

variable {Row Score : Type}

namespace HfCausalLM

variable {lm : HfCausalLM Row Score} {vocabSize size : Nat}

/-- What the model returns for the ids and the past, or raises. -/
def outcome (lm : HfCausalLM Row Score) (ids : List Nat) :
    Option (Past Row) → Except PyError (List (List Score) × Past Row)
  | none => lm.scratch ids
  | some past =>
    match (lm.resume ids).run past with
    | .ok out _ => .ok out
    | .error e _ => .error e

/-- A model whose past grows by the tokens it is fed, with scores for each of them, whenever it
returns. -/
structure Counts (lm : HfCausalLM Row Score) (vocabSize : Nat) : Prop where
  past : ∀ ids past out, lm.outcome ids past = .ok out →
    pastKeyValuesLength (some out.2) = pastKeyValuesLength past + ids.length
  logits : ∀ ids past out, lm.outcome ids past = .ok out → out.1.length = ids.length
  vocabulary : ∀ ids past out, lm.outcome ids past = .ok out →
    ∀ scores ∈ out.1, scores.length = vocabSize
  vocabSize_pos : 0 < vocabSize

/-! ## Which passes are harmless -/

/-- The model raises on the row, or its tokens do not fit. -/
def Refuses (lm : HfCausalLM Row Score) (row : PassRow Row) : Prop :=
  (lm.outcome row.tokens row.before.past).isOk = false ∨
    lm.config.maxSeqLen < pastKeyValuesLength row.before.past + row.tokens.length

instance (row : PassRow Row) : Decidable (lm.Refuses row) :=
  inferInstanceAs (Decidable (_ ∨ _))

/-- The slot's past has the tokens that its cursor counts. -/
def InLine (row : PassRow Row) : Prop := pastKeyValuesLength row.before.past = row.before.cursor

instance (row : PassRow Row) : Decidable (InLine row) := inferInstanceAs (Decidable (_ = _))

/-- The rows before the first one that is refused. -/
def accepted (lm : HfCausalLM Row Score) (rows : List (PassRow Row)) : List (PassRow Row) :=
  rows.takeWhile fun row => ¬lm.Refuses row

def Stops (lm : HfCausalLM Row Score) (p : Pass Row) : Prop := ∃ row ∈ p.rows, lm.Refuses row

instance (p : Pass Row) : Decidable (lm.Stops p) :=
  inferInstanceAs (Decidable (∃ row ∈ p.rows, lm.Refuses row))

/-- The rows up to the first one that is refused have pasts in line with their cursors. They have no
tokens, or no row is refused and every row has tokens. -/
def Harmless (lm : HfCausalLM Row Score) (p : Pass Row) : Prop :=
  (∀ row ∈ lm.accepted p.rows, InLine row) ∧
    ((∀ row ∈ lm.accepted p.rows, row.tokens = []) ∨
      ¬lm.Stops p ∧ ∀ row ∈ p.rows, row.tokens ≠ [])

instance (p : Pass Row) : Decidable (lm.Harmless p) := by
  unfold Harmless
  infer_instance

variable [Inhabited Row] {c : HFKVCache Nat Row}

/-! ## One row -/

omit [Inhabited Row] in
variable (lm) in
/-- **The call of the model** changes the past of its slot at most. -/
theorem outputs_cases (c : HFKVCache Nat Row) (ids : List Nat) (slot : Nat) :
    ∃ past, let c' : HFKVCache Nat Row := { c with past := Function.update c.past slot past }
      (lm.outputs ids slot (c.past slot)).run c = match lm.outcome ids (c.past slot) with
        | .ok out => .ok out c'
        | .error e => .error e c' := by
  cases hpast : c.past slot with
  | none =>
    refine ⟨c.past slot, ?_⟩
    rw [Function.update_eq_self]
    show (Exec.ofExcept (lm.scratch ids) : HFKVCache.M Nat Row _).run c = _
    rw [outcome]
    cases lm.scratch ids <;> rfl
  | some past =>
    rw [outcome]
    cases hrun : (lm.resume ids).run past with
    | ok out left => exact ⟨some left, Exec.run_within_ok hrun⟩
    | error e left => exact ⟨some left, Exec.run_within_error hrun⟩

/-- The row that is fed, as the cache has it. -/
abbrev rowAt (c : HFKVCache Nat Row) (row : Nat × List Nat) : PassRow Row :=
  ⟨(KVCacheType.hf c).slot row.1, row.2⟩

/-- What a row that goes through leaves. -/
structure RowFed (lm : HfCausalLM Row Score) (size : Nat) (c : HFKVCache Nat Row)
    (row : Nat × List Nat) (c' : HFKVCache Nat Row) : Prop where
  native : (KVCacheType.hf c').Native lm.inferenceModel size
  same : KVCacheType.SameSlots [row.1] (.hf c) (.hf c')
  cursor : c'.pos row.1 = pastKeyValuesLength (c.past row.1) + row.2.length

/-- **One row**: the slot takes its tokens, or they are refused and the cursor stays. -/
theorem forwardRow_cases (h : lm.Counts vocabSize)
    (hc : (KVCacheType.hf c).Native lm.inferenceModel size) {slot : Nat} (hlt : slot < size)
    (tokenIds : List Nat) (inputLen : Option Nat) :
    let ids := inputIds tokenIds inputLen
    (¬lm.Refuses (rowAt c (slot, ids)) ∧ ∃ out c',
      (lm.forwardRow tokenIds slot inputLen).run c = .ok out c' ∧
        RowFed lm size c (slot, ids) c' ∧
        (ids ≠ [] → ∃ scores, out = [scores] ∧ scores.length = vocabSize)) ∨
    (lm.Refuses (rowAt c (slot, ids)) ∧
      ∃ e c', (lm.forwardRow tokenIds slot inputLen).run c = .error e c' ∧
        (KVCacheType.hf c').Native lm.inferenceModel size ∧ c'.pos = c.pos) := by
  intro ids
  obtain ⟨hkind, rfl, hmax, hshort⟩ := hc
  have hget : (HFKVCache.getPast (slot : Int)).run c = .ok (c.past slot) c := by
    unfold HFKVCache.getPast
    rw [Exec.run_bind_ok (HFKVCache.slotOf_run hlt), Exec.run_bind_ok (EStateM.run_get c)]
    rfl
  obtain ⟨past, hout⟩ := outputs_cases lm c ids slot
  set c₁ : HFKVCache Nat Row := { c with past := Function.update c.past slot past } with hc₁
  have hmax₁ : c₁.maxSeqLen = lm.config.maxSeqLen := hmax
  have hslot₁ : (HFKVCache.slotOf (slot : Int)).run c₁ = .ok slot c₁ := HFKVCache.slotOf_run hlt
  unfold forwardRow
  rw [Exec.run_bind_ok hget]
  cases hcall : lm.outcome ids (c.past slot) with
  | error e =>
    rw [hcall] at hout
    refine Or.inr ⟨Or.inl ?_, e, c₁, Exec.run_bind_error hout, ⟨hkind, rfl, hmax, hshort⟩, rfl⟩
    show (lm.outcome ids (c.past slot)).isOk = false
    rw [hcall]
    rfl
  | ok out =>
    rw [hcall] at hout
    have hlen := h.past ids _ out hcall
    rw [Exec.run_bind_ok hout]
    by_cases hlong : lm.config.maxSeqLen < pastKeyValuesLength (c.past slot) + ids.length
    · refine Or.inr ⟨Or.inr hlong, ?_⟩
      have hset : ∃ e, (HFKVCache.setPast (slot : Int) (some out.2)).run c₁ = .error e c₁ := by
        unfold HFKVCache.setPast
        rw [Exec.run_bind_ok (EStateM.run_get c₁), hlen, hmax₁, if_pos hlong]
        exact ⟨_, rfl⟩
      obtain ⟨e, hset⟩ := hset
      exact ⟨e, c₁, Exec.run_bind_error hset, ⟨hkind, rfl, hmax, hshort⟩, rfl⟩
    · have hset : (HFKVCache.setPast (slot : Int) (some out.2)).run c₁
          = .ok () (c₁.store slot (some out.2)
            (pastKeyValuesLength (c.past slot) + ids.length)) := by
        unfold HFKVCache.setPast
        rw [Exec.run_bind_ok (EStateM.run_get c₁), hlen, hmax₁, if_neg hlong,
          Exec.run_bind_ok hslot₁]
        rfl
      refine Or.inl ⟨?_, lastSlice 1 out.1,
        c₁.store slot (some out.2) (pastKeyValuesLength (c.past slot) + ids.length), ?_,
        ⟨⟨hkind, rfl, hmax, hshort⟩, ⟨rfl, ?_⟩, ?_⟩, fun hne => ?_⟩
      · rintro (hraises | hlong')
        · have hok : (lm.outcome ids (c.past slot)).isOk = false := hraises
          rw [hcall] at hok
          cases hok
        · exact hlong hlong'
      · rw [Exec.run_bind_ok hset]
        rfl
      · intro i hi
        have hne : i ≠ slot := fun he => hi (List.mem_singleton.mpr he)
        simp only [KVCacheType.slot, HFKVCache.store, hc₁, Function.update_of_ne hne]
      · exact Function.update_self slot _ _
      · -- the last of at least one row of scores
        have hlogits := h.logits ids _ out hcall
        have hpos : out.1.length ≠ 0 := by
          rw [hlogits]
          exact fun h0 => hne (List.length_eq_zero_iff.mp h0)
        have hslice : (lastSlice 1 out.1).length = 1 := by
          rw [lastSlice, if_neg Nat.one_ne_zero, List.length_drop]
          omega
        obtain ⟨scores, hscores⟩ := List.length_eq_one_iff.mp hslice
        refine ⟨scores, hscores, h.vocabulary ids _ out hcall scores ?_⟩
        have hmem : scores ∈ lastSlice 1 out.1 := by simp [hscores]
        rw [lastSlice, if_neg Nat.one_ne_zero] at hmem
        exact List.mem_of_mem_drop hmem

/-! ## The rows of a batch -/

/-- The loop over the rows of a batch. -/
abbrev forwardRows (lm : HfCausalLM Row Score) (inputs : List (List Nat × Nat × Option Nat)) :
    HFKVCache.M Nat Row (Logits Score) :=
  inputs.mapM fun input => lm.forwardRow input.1 input.2.1 input.2.2

/-- Another row is as it was. -/
theorem RowFed.rowAt_eq {row : Nat × List Nat} {c' : HFKVCache Nat Row}
    (h : RowFed lm size c row c') {r : Nat × List Nat} (hr : r.1 ≠ row.1) :
    rowAt c' r = rowAt c r := by
  rw [rowAt, rowAt, h.same.slot r.1 fun hi => hr (List.mem_singleton.mp hi)]

/-- **Rows that are all accepted** all move their cursors. -/
theorem forwardRows_fit (h : lm.Counts vocabSize) : ∀ (inputs : List (List Nat × Nat × Option Nat))
    {c : HFKVCache Nat Row}, (KVCacheType.hf c).Native lm.inferenceModel size →
    ((inputs.map slotTokens).map Prod.fst).Nodup →
    (∀ r ∈ inputs.map slotTokens, r.1 < size ∧ ¬lm.Refuses (rowAt c r) ∧ InLine (rowAt c r)) →
    ∃ out c', (lm.forwardRows inputs).run c = .ok out c' ∧
      Fed lm.inferenceModel size (.hf c) (inputs.map slotTokens) (.hf c') ∧
      out.length = inputs.length ∧ ((∀ r ∈ inputs.map slotTokens, r.2 ≠ []) →
        ∀ o ∈ out, ∃ scores, o = [scores] ∧ scores.length = vocabSize)
  | [], c, hc, _, _ => ⟨[], c, rfl, ⟨hc, nofun, .refl _, Nat.zero_le _, nofun⟩, rfl, fun _ => nofun⟩
  | (tokenIds, slot, inputLen) :: inputs, c, hc, hnd, hrows => by
    have hmap : ((tokenIds, slot, inputLen) :: inputs).map slotTokens
        = (slot, inputIds tokenIds inputLen) :: inputs.map slotTokens := rfl
    rw [hmap] at hnd hrows ⊢
    rw [List.map_cons, List.nodup_cons] at hnd
    obtain ⟨hlt, haccepted, hline⟩ := hrows _ List.mem_cons_self
    rcases forwardRow_cases h hc hlt tokenIds inputLen with
      ⟨-, out₁, c₁, hrun₁, hfed₁, hout₁⟩ | ⟨hrefused, -⟩
    · have hne : ∀ r ∈ inputs.map slotTokens, r.1 ≠ slot :=
        fun r hr he => hnd.1 (List.mem_map.mpr ⟨r, hr, he⟩)
      have hother : ∀ r ∈ inputs.map slotTokens, c₁.pos r.1 = c.pos r.1 := fun r hr =>
        hfed₁.same.cursor fun hi => hne r hr (List.mem_singleton.mp hi)
      obtain ⟨out₂, c₂, hrun₂, hfed, hlen, hout₂⟩ := forwardRows_fit h inputs hfed₁.native hnd.2
        fun r hr => by
          rw [hfed₁.rowAt_eq (hne r hr)]
          exact hrows r (List.mem_cons_of_mem _ hr)
      refine ⟨out₁ :: out₂, c₂, ?_, ⟨hfed.native, fun r hr => ?_, ?_, Nat.zero_le _,
        fun _ _ _ => List.nodup_nil⟩, congrArg Nat.succ hlen, fun hall o ho => ?_⟩
      · rw [forwardRows, List.mapM_cons, Exec.run_bind_ok hrun₁, Exec.run_bind_ok hrun₂]
        rfl
      · rcases List.mem_cons.mp hr with rfl | hr
        · have hline : pastKeyValuesLength (c.past slot) = c.pos slot := hline
          refine (hfed.same.cursor hnd.1).trans (hfed₁.cursor.trans ?_)
          rw [hline]
          rfl
        · refine (hfed.fed r hr).trans ?_
          show c₁.pos r.1 + _ = c.pos r.1 + _
          rw [hother r hr]
      · exact (hfed₁.same.mono fun i hi => List.mem_cons.mpr
          (Or.inl (List.mem_singleton.mp hi))).trans
            (hfed.same.mono fun i hi => List.mem_cons_of_mem _ hi)
      · rcases List.mem_cons.mp ho with rfl | ho
        · exact hout₁ (hall _ List.mem_cons_self)
        · exact hout₂ (fun r hr => hall r (List.mem_cons_of_mem _ hr)) o ho
    · exact absurd hrefused haccepted

/-- **A row that is refused** leaves the cursors where they are, if the rows before it have no
tokens. -/
theorem forwardRows_unfit (h : lm.Counts vocabSize) :
    ∀ (inputs : List (List Nat × Nat × Option Nat)) {c : HFKVCache Nat Row},
    (KVCacheType.hf c).Native lm.inferenceModel size →
    ((inputs.map slotTokens).map Prod.fst).Nodup → (∀ r ∈ inputs.map slotTokens, r.1 < size) →
    (∃ r ∈ inputs.map slotTokens, lm.Refuses (rowAt c r)) →
    (∀ row ∈ lm.accepted ((inputs.map slotTokens).map (rowAt c)), InLine row ∧ row.tokens = []) →
    ∃ e c', (lm.forwardRows inputs).run c = .error e c' ∧
      (KVCacheType.hf c').Native lm.inferenceModel size ∧ c'.pos = c.pos
  | [], _, _, _, _, hrefused, _ => by
    obtain ⟨r, hr, -⟩ := hrefused
    cases hr
  | (tokenIds, slot, inputLen) :: inputs, c, hc, hnd, hlt, hrefused, hbefore => by
    have hmap : ((tokenIds, slot, inputLen) :: inputs).map slotTokens
        = (slot, inputIds tokenIds inputLen) :: inputs.map slotTokens := rfl
    rw [hmap] at hnd hlt hrefused hbefore
    rw [List.map_cons, List.nodup_cons] at hnd
    rcases forwardRow_cases h hc (hlt _ List.mem_cons_self) tokenIds inputLen with
      ⟨haccepted, out₁, c₁, hrun₁, hfed₁, -⟩ | ⟨-, e, c', hrun, hc', hpos⟩
    · rw [List.map_cons, accepted, List.takeWhile_cons_of_pos (by simpa using haccepted)] at hbefore
      obtain ⟨hline, hnil⟩ := hbefore _ List.mem_cons_self
      have hline : pastKeyValuesLength (c.past slot) = c.pos slot := hline
      have hnil : inputIds tokenIds inputLen = [] := hnil
      have hsame : c₁.pos = c.pos := by
        funext i
        by_cases hi : i = slot
        · rw [hi, hfed₁.cursor, hline, hnil]
          rfl
        · exact hfed₁.same.cursor fun hmem => hi (List.mem_singleton.mp hmem)
      have hrows : ∀ r ∈ inputs.map slotTokens, rowAt c₁ r = rowAt c r := fun r hr =>
        hfed₁.rowAt_eq fun he => hnd.1 (List.mem_map.mpr ⟨r, hr, he⟩)
      obtain ⟨e, c', hrun, hc', hpos'⟩ := forwardRows_unfit h inputs hfed₁.native hnd.2
        (fun r hr => hlt r (List.mem_cons_of_mem _ hr))
        (by
          obtain ⟨r, hr, hrefuses⟩ := hrefused
          rcases List.mem_cons.mp hr with rfl | hr
          · exact absurd hrefuses haccepted
          · exact ⟨r, hr, by rwa [hrows r hr]⟩)
        (by
          rw [List.map_congr_left hrows]
          exact fun row hrow => hbefore row (List.mem_cons_of_mem _ hrow))
      refine ⟨e, c', ?_, hc', hpos'.trans hsame⟩
      rw [forwardRows, List.mapM_cons, Exec.run_bind_ok hrun₁, Exec.run_bind_error hrun]
    · refine ⟨e, c', ?_, hc', hpos⟩
      rw [forwardRows, List.mapM_cons, Exec.run_bind_error hrun]

/-! ## The whole pass -/

omit [Inhabited Row] in
/-- Rows with one position each, and as many scores, fit together. -/
theorem catRows_ok {out : Logits Score}
    (h : ∀ o ∈ out, ∃ scores, o = [scores] ∧ scores.length = vocabSize) (hne : out ≠ []) :
    catRows out = .ok out := by
  match out, hne with
  | row :: rest, _ =>
    rw [catRows, if_pos]
    intro r hr
    obtain ⟨scores, rfl, hscores⟩ := h r (List.mem_cons_of_mem _ hr)
    obtain ⟨scores', rfl, hscores'⟩ := h row List.mem_cons_self
    simp [hscores, hscores']

omit [Inhabited Row] in
/-- Where no row is refused, all rows are accepted. -/
theorem accepted_eq {rows : List (PassRow Row)} (h : ¬∃ row ∈ rows, lm.Refuses row) :
    lm.accepted rows = rows := by
  rw [accepted, List.takeWhile_eq_self_iff]
  intro row hrow
  simpa using fun hrefuses => h ⟨row, hrow, hrefuses⟩

/-- **A harmless pass** moves all cursors of its batch or none. -/
theorem allOrNone (h : lm.Counts vocabSize) :
    lm.inferenceModel.AllOrNone lm.Harmless lm.Stops where
  made := by
    intro make hmake enable
    cases hmake
    refine ⟨rfl, fun p hp => ?_⟩
    have hempty := lm.keepsPrefixes.made lm.makeKvCache rfl enable p hp
    intro key block hmem
    rw [hempty] at hmem
    cases hmem
  call := by
    intro cache size rows tokenIds inputLens p hbatch hne hc hof hharmless
    obtain ⟨htokens, hnd, hlt⟩ := hbatch
    cases cache with
    | dense c => exact absurd hc.1 nofun
    | paged c => exact absurd hc.1 nofun
    | hf c =>
      have hslots := batchRows_slotTokens htokens
      have hrows : p.rows = rows.map (rowAt c) := hof.rows
      obtain ⟨hline, htokens⟩ := hharmless
      have hcall : (lm.inferenceModel.call tokenIds inputLens (rows.map Prod.fst)).run (.hf c)
          = Exec.embed KVCacheType.hf ((lm.forwardRows (batchRows tokenIds inputLens
            (rows.map Prod.fst)) >>= fun out => Exec.ofExcept (catRows out)).run c) := rfl
      rw [hcall]
      by_cases hstops : lm.Stops p
      · have hnil := htokens.resolve_right fun hfed => hfed.1 hstops
        unfold Stops at hstops
        rw [hrows] at hstops hline hnil
        obtain ⟨e, c', hrun, hc', hpos⟩ := forwardRows_unfit h
          (batchRows tokenIds inputLens (rows.map Prod.fst)) hc (by rw [hslots]; exact hnd)
          (by rw [hslots]; exact hlt) (by
            rw [hslots]
            obtain ⟨row, hrow, hrefuses⟩ := hstops
            obtain ⟨r, hr, rfl⟩ := List.mem_map.mp hrow
            exact ⟨r, hr, hrefuses⟩)
          (by rw [hslots]; exact fun row hrow => ⟨hline row hrow, hnil row hrow⟩)
        rw [Exec.run_bind_error hrun]
        exact ⟨hc', hpos⟩
      · rw [accepted_eq hstops] at hline htokens
        have hgoes : ∀ r ∈ rows, ¬lm.Refuses (rowAt c r) := fun r hr hrefuses =>
          hstops ⟨rowAt c r, hrows ▸ List.mem_map_of_mem hr, hrefuses⟩
        obtain ⟨out, c', hrun, hfed, hlen, hout⟩ := forwardRows_fit h
          (batchRows tokenIds inputLens (rows.map Prod.fst)) hc (by rw [hslots]; exact hnd)
          (by rw [hslots]; exact fun r hr => ⟨hlt r hr, hgoes r hr, hof.forall_rows hline r hr⟩)
        rw [hslots] at hfed hout
        have hcount : out.length = rows.length := by
          rw [hlen, ← List.length_map slotTokens]
          exact congrArg List.length hslots
        rw [Exec.run_bind_ok hrun]
        rcases htokens with hnil | ⟨-, hsolid⟩
        · -- nothing was fed, so it does not matter how it ends
          have hnil : ∀ row ∈ rows, row.2 = [] := hof.forall_rows hnil
          cases catRows out with
          | ok out' => exact ⟨hfed, hstops, Or.inr hnil⟩
          | error e => exact ⟨hfed.native, hfed.cursor_eq hnil⟩
        · have hsolid : ∀ row ∈ rows, row.2 ≠ [] := hof.forall_rows hsolid
          have hscores := hout hsolid
          have hout_ne : out ≠ [] := fun h0 => hne (List.length_eq_zero_iff.mp (by
            rw [← hcount, h0]
            rfl))
          rw [catRows_ok hscores hout_ne]
          refine ⟨hfed, hstops, Or.inl ⟨hsolid, fun i hi => ?_⟩⟩
          have hi' : i < out.length := hcount ▸ hi
          obtain ⟨scores, hrow, hvocab⟩ := hscores _ (List.getElem_mem hi')
          refine ⟨scores, ?_, List.ne_nil_of_length_pos (hvocab ▸ h.vocabSize_pos)⟩
          rw [lastLogits, List.getElem?_eq_getElem hi', hrow]
          rfl

end HfCausalLM

end Nifre
