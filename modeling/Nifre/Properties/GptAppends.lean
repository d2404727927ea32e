import Nifre.Properties.CacheShape
import Nifre.Inference.Gpt

/-!
# The GPT model only appends

A forward pass reads the cache and appends to the slots of its batch, whether it returns or raises.
So it keeps all that an append keeps.

* `GptModel.onlyAppends` — a forward pass
* `GptModel.keepsSize` — it keeps the number of slots
-/

namespace Nifre

open KVCacheType (OnlyAppends)

variable {F X Score : Type} [Field F] {numHeads headDim : Nat} {math : ExactMath F}
  {slots : List Nat}

namespace Attention

theorem forwardWithCacheRow_onlyAppends (q k v : List (Heads F numHeads headDim)) {b : Nat}
    (hb : b ∈ slots) (l : Nat) : OnlyAppends slots (forwardWithCacheRow math q k v b l) :=
  (OnlyAppends.of_reads (KVCacheType.get_reads _ _)).bind fun _ =>
    (KVCacheType.onlyAppends_append hb _ _ _).bind fun _ => .of_reads fun _ => rfl

theorem forwardBatchRow_onlyAppends (l : Nat) {row : (List (Heads F numHeads headDim) ×
      List (Heads F numHeads headDim) × List (Heads F numHeads headDim)) × Nat × Option Nat}
    (hb : row.2.1 ∈ slots) : OnlyAppends slots (forwardBatchRow math l row) := by
  obtain ⟨⟨q, k, v⟩, b, inputLen⟩ := row
  cases inputLen with
  | none => exact forwardWithCacheRow_onlyAppends q k v hb l
  | some validLen =>
    unfold forwardBatchRow
    simp only
    split
    · rw [← bind_pure_comp]
      exact (forwardWithCacheRow_onlyAppends _ _ _ hb l).bind fun _ => .of_reads fun _ => rfl
    · exact forwardWithCacheRow_onlyAppends q k v hb l

/-- The rows of a batch are in its slots. -/
theorem slot_mem_of_rowInfo {inputLens : Option (List Nat)} {row : Nat × Option Nat}
    (h : row ∈ rowInfo inputLens slots) : row.1 ∈ slots := by
  unfold rowInfo at h
  split at h
  · exact (List.of_mem_zip h).1
  · obtain ⟨b, hb, rfl⟩ := List.mem_map.mp h
    exact hb

end Attention

namespace GptModel

variable [Add X]

omit [Field F] in
theorem positions_onlyAppends (tokenIds : List (List Nat)) (inputLens : Option (List Nat)) :
    OnlyAppends slots (positions tokenIds inputLens slots :
      KVCacheType.M (Heads F numHeads headDim) (List (List Nat))) := by
  have hlength : ∀ b : Nat, OnlyAppends slots
      (KVCacheType.length (b : Int) : KVCacheType.M (Heads F numHeads headDim) Nat) :=
    fun b => .of_reads (KVCacheType.length_reads b)
  unfold positions
  split
  · exact .mapM _ fun b _ => (hlength b).bind fun _ => .of_reads fun _ => rfl
  · cases inputLens with
    | none => exact .of_reads fun _ => rfl
    | some lens => exact .mapM _ fun row _ => (hlength row.1).bind fun _ => .of_reads fun _ => rfl

theorem forwardBlocks_onlyAppends (inputLens : Option (List Nat))
    (blocks : List (TransformerBlock F X numHeads headDim)) (l : Nat) (x : HiddenStates X) :
    OnlyAppends slots (forwardBlocks math inputLens slots l blocks x) := by
  induction blocks generalizing l x with
  | nil => exact .of_reads fun _ => rfl
  | cons block blocks ih =>
    refine .bind (.bind (.bind ?_ fun _ => .of_reads fun _ => rfl) fun _ => .of_reads fun _ => rfl)
      fun _ => ih _ _
    exact .mapM _ fun row hrow => Attention.forwardBatchRow_onlyAppends l
      (Attention.slot_mem_of_rowInfo (List.of_mem_zip hrow).2)

variable (gpt : GptModel F X Score numHeads headDim) (math : ExactMath F)
  (emptyDense : Nat → Nat × Nat → Heads F numHeads headDim)
  (emptyPaged : Nat → Int × Nat → Heads F numHeads headDim) (padTokenId : Nat)

/-- **A forward pass** only appends to the slots of its batch. -/
theorem onlyAppends (tokenIds : List (List Nat)) (inputLens : Option (List Nat))
    (slots : List Nat) : OnlyAppends slots
      ((gpt.inferenceModel math emptyDense emptyPaged padTokenId).call tokenIds inputLens slots) :=
  (positions_onlyAppends tokenIds inputLens).bind fun _ =>
    (OnlyAppends.of_reads fun c => by
      cases gpt.embed tokenIds _ <;> rfl).bind fun _ =>
      (forwardBlocks_onlyAppends inputLens gpt.trfBlocks 0 _).bind fun _ => .of_reads fun _ => rfl

theorem keepsSize : (gpt.inferenceModel math emptyDense emptyPaged padTokenId).KeepsSize :=
  fun tokenIds inputLens slots c =>
    (gpt.onlyAppends math emptyDense emptyPaged padTokenId tokenIds inputLens slots).keeps
      (KVCacheType.append_size c.batchSize) c rfl

end GptModel

end Nifre
