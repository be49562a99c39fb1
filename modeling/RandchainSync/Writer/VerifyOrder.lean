import RandchainSync.Writer.OrderIndependence

/-!
# The verifier sees a block after its parent

`append_block` hands `verify_block` the appended block and then each pooled descendant that
`remove_blocks_for_parent` gives back, front to back. The chain verifier checks a block against
the store, so each block must reach it once its parent is stored. This module records the
loop's calls to `verify_block` (the writer as the call finds it, and the block it hands over) and
proves, for every writer a sequence of appends can reach, that each call finds the block's parent
in the store and the sink clear, and that the call returns a verification or database error
exactly when one of its calls recorded that error. As every call is made with the sink clear,
the call that records an error is the last one: the loop stops there.

## Main definitions

* `BlocksWriter.verifyQueueCalls`, `BlocksWriter.appendBlockCalls`: the calls to `verify_block`

## Main results

* `verifyQueue_congr_calls`: the loop reads the verifier at its recorded calls and nowhere else
* `storage_verifyQueue_sub_calls`: the loop stores only blocks it handed to the verifier
* `appendBlock_congr_calls`, `storage_appendBlock_sub_calls`: the same for `append_block`
* `verifyQueueCalls_sound`: on an ancestor-first queue and a clear sink, each call finds its
  block's parent stored and the sink clear
* `verifyQueue_error_iff`: the loop returns the error one of its calls recorded
* `appendBlock_verifies_parent_first`: the two, for every reachable writer, with the link of the
  recorded calls to the loop
-/

namespace RandchainSync

namespace BlocksWriter

variable (verifier : Verifier) (chain : Chain) (drain : Drain)

/-- The calls of the `while let` loop to `verify_block`: the writer as each call finds it, and
the block the call hands over. -/
def verifyQueueCalls : BlocksWriter → List IndexedBlock → List (BlocksWriter × IndexedBlock)
  | _, [] => []
  | w, block :: rest =>
    (w, block) :: match (w.verifyBlock verifier chain block).err with
      | some _ => []
      | none => verifyQueueCalls (w.verifyBlock verifier chain block) rest

/-- The calls of `append_block` to `verify_block`: none for a stored or an orphaned block. -/
def appendBlockCalls (w : BlocksWriter) (block : IndexedBlock) :
    List (BlocksWriter × IndexedBlock) :=
  if w.storage.containsBlock (.hash block.hash) then []
  else if !w.storage.containsBlock (.hash block.parent) then []
  else
    let r := w.orphanedBlocksPool.removeBlocksForParent drain block.hash
    verifyQueueCalls verifier chain { w with orphanedBlocksPool := r.2 } (block :: r.1)

variable {verifier chain drain}

/-! ## The loop's calls -/

section Loop

variable {w : BlocksWriter} {block : IndexedBlock} {rest : List IndexedBlock}

theorem verifyQueueCalls_cons_of_some {e : Error}
    (he : (w.verifyBlock verifier chain block).err = some e) :
    verifyQueueCalls verifier chain w (block :: rest) = [(w, block)] := by
  simp [verifyQueueCalls, he]

theorem verifyQueueCalls_cons_of_none (he : (w.verifyBlock verifier chain block).err = none) :
    verifyQueueCalls verifier chain w (block :: rest) =
      (w, block) :: verifyQueueCalls verifier chain (w.verifyBlock verifier chain block) rest := by
  simp [verifyQueueCalls, he]

theorem verifyQueue_cons_of_some {e : Error}
    (he : (w.verifyBlock verifier chain block).err = some e) :
    verifyQueue verifier chain w (block :: rest) =
      ({ w.verifyBlock verifier chain block with err := none }, .error e) := by
  simp [verifyQueue_cons, he]

theorem verifyQueue_cons_of_none (he : (w.verifyBlock verifier chain block).err = none) :
    verifyQueue verifier chain w (block :: rest) =
      verifyQueue verifier chain (w.verifyBlock verifier chain block) rest := by
  simp [verifyQueue_cons, he]

end Loop

/-- **The recorded calls are the verifier's only inputs.** A verifier that gives the same verdicts
at every recorded call runs the same loop. -/
theorem verifyQueue_congr_calls {verifier' : Verifier} :
    ∀ (w : BlocksWriter) (queue : List IndexedBlock),
      (∀ c ∈ verifyQueueCalls verifier chain w queue,
        verifier' c.1.storage c.2 = verifier c.1.storage c.2) →
      verifyQueue verifier' chain w queue = verifyQueue verifier chain w queue
  | w, [], _ => rfl
  | w, block :: rest, h => by
    have hb : w.verifyBlock verifier' chain block = w.verifyBlock verifier chain block := by
      simp only [verifyBlock, h (w, block) (.head _)]
    cases he : (w.verifyBlock verifier chain block).err with
    | some e => rw [verifyQueue_cons_of_some he, verifyQueue_cons_of_some (hb ▸ he), hb]
    | none =>
      rw [verifyQueue_cons_of_none he, verifyQueue_cons_of_none (hb ▸ he), hb]
      refine verifyQueue_congr_calls _ rest fun c hc => h c ?_
      rw [verifyQueueCalls_cons_of_none he]
      exact .tail _ hc

/-- **The loop stores only what it verifies**: a hash the loop leaves stored was stored before,
or is the hash of a block it handed to the verifier. -/
theorem storage_verifyQueue_sub_calls :
    ∀ (w : BlocksWriter) (queue : List IndexedBlock) {h : H256},
      (verifyQueue verifier chain w queue).1.storage.containsBlock (.hash h) →
        w.storage.containsBlock (.hash h) ∨
          h ∈ ((verifyQueueCalls verifier chain w queue).map Prod.snd).map IndexedBlock.hash
  | w, [], _, hh => .inl hh
  | w, block :: rest, h, hh => by
    cases he : (w.verifyBlock verifier chain block).err with
    | some e =>
      rw [verifyQueue_cons_of_some he] at hh
      rw [verifyQueueCalls_cons_of_some he]
      rcases storage_verifyBlock_sub w block hh with h1 | h1 <;> simp [h1]
    | none =>
      rw [verifyQueue_cons_of_none he] at hh
      rw [verifyQueueCalls_cons_of_none he, List.map_cons, List.map_cons, List.mem_cons]
      rcases storage_verifyQueue_sub_calls _ rest hh with h1 | h1
      · rcases storage_verifyBlock_sub w block h1 with h2 | h2
        · exact .inl h2
        · exact .inr (.inl h2)
      · exact .inr (.inr h1)

/-- **The loop verifies ancestors first.** On a queue whose blocks find their parent stored or
earlier in the queue, and from a clear sink, each call finds its block's parent stored and the
sink clear. -/
theorem verifyQueueCalls_sound : ∀ (w : BlocksWriter) (queue : List IndexedBlock), w.err = none →
    AncestorFirst (fun h => w.storage.containsBlock (.hash h)) queue →
    ∀ c ∈ verifyQueueCalls verifier chain w queue,
      c.1.storage.containsBlock (.hash c.2.parent) ∧ c.1.err = none
  | w, [], _, _, c, hc => by simp [verifyQueueCalls] at hc
  | w, block :: rest, hw, hq, c, hc => by
    obtain ⟨hp, hrest⟩ := hq
    cases he : (w.verifyBlock verifier chain block).err with
    | some e =>
      rw [verifyQueueCalls_cons_of_some he, List.mem_singleton] at hc
      exact hc ▸ ⟨hp, hw⟩
    | none =>
      rw [verifyQueueCalls_cons_of_none he, List.mem_cons] at hc
      rcases hc with rfl | hc
      · exact ⟨hp, hw⟩
      -- the verified block is now stored: its children find their parent
      refine verifyQueueCalls_sound _ rest he (hrest.mono fun h hh => ?_) c hc
      rcases hh with rfl | hh
      · exact (verifyBlock_ok w block hw he).2
      · exact storage_verifyBlock_mono w block hh

/-- **The loop returns the error a call recorded**, and `Ok` when none did. -/
theorem verifyQueue_error_iff (e : Error) : ∀ (w : BlocksWriter) (queue : List IndexedBlock),
    (verifyQueue verifier chain w queue).2 = .error e ↔
      ∃ c ∈ verifyQueueCalls verifier chain w queue,
        (c.1.verifyBlock verifier chain c.2).err = some e
  | w, [] => by simp [verifyQueue, verifyQueueCalls]
  | w, block :: rest => by
    cases he : (w.verifyBlock verifier chain block).err with
    | some e' =>
      simp [verifyQueue_cons_of_some he, verifyQueueCalls_cons_of_some he, he, eq_comm]
    | none =>
      rw [verifyQueue_cons_of_none he, verifyQueueCalls_cons_of_none he, verifyQueue_error_iff e]
      simp [he]

/-! ## The calls of `append_block` -/

section Append

variable {w : BlocksWriter} {block : IndexedBlock}

theorem appendBlockCalls_of_parent (h : w.storage.containsBlock (.hash block.hash) = false)
    (hp : w.storage.containsBlock (.hash block.parent)) :
    w.appendBlockCalls verifier chain drain block =
      verifyQueueCalls verifier chain
        { w with orphanedBlocksPool := ⟨(drain.run block.hash w.orphanedBlocksPool.blocks).2⟩ }
        (block :: (drain.run block.hash w.orphanedBlocksPool.blocks).1) := by
  simp [appendBlockCalls, h, hp, OrphanBlocksPool.removeBlocksForParent]

/-- Outside the verification branch `append_block` calls no verifier. -/
theorem appendBlockCalls_eq_nil
    (h : w.storage.containsBlock (.hash block.hash) ∨
      w.storage.containsBlock (.hash block.parent) = false) :
    w.appendBlockCalls verifier chain drain block = [] := by
  rcases h with h | h <;> simp [appendBlockCalls, h]

/-- **`append_block` reads the verifier at its recorded calls and nowhere else.** -/
theorem appendBlock_congr_calls {verifier' : Verifier}
    (h : ∀ c ∈ w.appendBlockCalls verifier chain drain block,
      verifier' c.1.storage c.2 = verifier c.1.storage c.2) :
    w.appendBlock verifier' chain drain block = w.appendBlock verifier chain drain block := by
  cases h1 : w.storage.containsBlock (.hash block.hash)
  · cases h2 : w.storage.containsBlock (.hash block.parent)
    · rw [appendBlock_of_orphan h1 h2, appendBlock_of_orphan h1 h2]
    · rw [appendBlockCalls_of_parent h1 h2] at h
      rw [appendBlock_of_parent h1 h2, appendBlock_of_parent h1 h2]
      exact verifyQueue_congr_calls _ _ h
  · rw [appendBlock_of_contains h1, appendBlock_of_contains h1]

/-- **`append_block` stores only the blocks of its recorded calls.** -/
theorem storage_appendBlock_sub_calls {h : H256}
    (hh : (w.appendBlock verifier chain drain block).1.storage.containsBlock (.hash h)) :
    w.storage.containsBlock (.hash h) ∨
      h ∈ ((w.appendBlockCalls verifier chain drain block).map Prod.snd).map IndexedBlock.hash := by
  cases h1 : w.storage.containsBlock (.hash block.hash)
  · cases h2 : w.storage.containsBlock (.hash block.parent)
    · rw [appendBlock_of_orphan h1 h2] at hh
      exact .inl hh
    · rw [appendBlock_of_parent h1 h2] at hh
      rw [appendBlockCalls_of_parent h1 h2]
      exact storage_verifyQueue_sub_calls _ _ hh
  · rw [appendBlock_of_contains h1] at hh
    exact .inl hh

theorem err_appendBlock (hw : w.err = none) :
    (w.appendBlock verifier chain drain block).1.err = none := by
  cases h1 : w.storage.containsBlock (.hash block.hash)
  · cases h2 : w.storage.containsBlock (.hash block.parent)
    · rw [appendBlock_of_orphan h1 h2]
      exact hw
    · rw [appendBlock_of_parent h1 h2]
      exact err_verifyQueue _ _ hw
  · rw [appendBlock_of_contains h1]
    exact hw

end Append

/-- Between calls the sink holds no error. -/
theorem err_runAppends : ∀ (calls : List (Verifier × IndexedBlock)) (w : BlocksWriter),
    w.err = none → (runAppends chain drain w calls).err = none
  | [], _, hw => hw
  | (_, _) :: calls, _, hw => err_runAppends calls _ (err_appendBlock hw)

/-- The two properties for one call from a writer with a clear sink. -/
theorem appendBlockCalls_sound {w : BlocksWriter} {block : IndexedBlock} (hw : w.err = none) :
    (∀ c ∈ w.appendBlockCalls verifier chain drain block,
      c.1.storage.containsBlock (.hash c.2.parent) ∧ c.1.err = none) ∧
    ∀ e, e ≠ .tooManyOrphanBlocks →
      ((w.appendBlock verifier chain drain block).2 = .error e ↔
        ∃ c ∈ w.appendBlockCalls verifier chain drain block,
          (c.1.verifyBlock verifier chain c.2).err = some e) := by
  cases h1 : w.storage.containsBlock (.hash block.hash)
  · cases h2 : w.storage.containsBlock (.hash block.parent)
    case true =>
      rw [appendBlockCalls_of_parent h1 h2, appendBlock_of_parent h1 h2]
      exact ⟨verifyQueueCalls_sound _ _ hw (ancestorFirst_queue h2),
        fun e _ => verifyQueue_error_iff e _ _⟩
    case false =>
      rw [appendBlockCalls_eq_nil (.inr h2), appendBlock_of_orphan h1 h2]
      refine ⟨by simp, fun e he => ?_⟩
      split <;> simp [Ne.symm he]
  · rw [appendBlockCalls_eq_nil (.inl h1), appendBlock_of_contains h1]
    simp

end BlocksWriter

open BlocksWriter in
/-- **`append_block` verifies ancestors first, and stops at the first error.** After any sequence
of `append_block` calls from a fresh writer, for any chain, pool drain, verifier and block: each
call of the next `append_block` to `verify_block` finds the block's parent in the store and the
sink clear, and the call returns a verification or database error exactly when one of those
calls recorded it. The recorded calls are the loop's: a verifier that agrees with this one at
them gives the same `append_block`, and the call stores no block but theirs. -/
theorem appendBlock_verifies_parent_first (chain : Chain) (drain : Drain)
    (storage : BlockProvider) (calls : List (Verifier × IndexedBlock)) (verifier : Verifier)
    (block : IndexedBlock) :
    let w := runAppends chain drain (new storage) calls
    (∀ c ∈ w.appendBlockCalls verifier chain drain block,
      c.1.storage.containsBlock (.hash c.2.parent) ∧ c.1.err = none) ∧
    (∀ e, e ≠ .tooManyOrphanBlocks →
      ((w.appendBlock verifier chain drain block).2 = .error e ↔
        ∃ c ∈ w.appendBlockCalls verifier chain drain block,
          (c.1.verifyBlock verifier chain c.2).err = some e)) ∧
    (∀ verifier' : Verifier, (∀ c ∈ w.appendBlockCalls verifier chain drain block,
        verifier' c.1.storage c.2 = verifier c.1.storage c.2) →
      w.appendBlock verifier' chain drain block = w.appendBlock verifier chain drain block) ∧
    ∀ h, (w.appendBlock verifier chain drain block).1.storage.containsBlock (.hash h) →
      w.storage.containsBlock (.hash h) ∨
        h ∈ ((w.appendBlockCalls verifier chain drain block).map Prod.snd).map
          IndexedBlock.hash := by
  intro w
  have hw : w.err = none := err_runAppends calls _ rfl
  exact ⟨(appendBlockCalls_sound hw).1, (appendBlockCalls_sound hw).2,
    fun _ h => appendBlock_congr_calls h, fun _ hh => storage_appendBlock_sub_calls hh⟩

/-- Blocks `3` on `2` on `1` arrive from the top, and the verifier rejects `2`: appending `1`
verifies `1` and `2`, never `3`, and returns the rejection. -/
example :
    let verifier : Verifier := fun _ b => if b.hash = 2 then .error "bad" else .ok ()
    let w := runAppends storingChain insertionOrderDrain (BlocksWriter.new genesisStore)
      [(verifier, ⟨⟨3, ⟨2⟩⟩⟩), (verifier, ⟨⟨2, ⟨1⟩⟩⟩)]
    (w.appendBlockCalls verifier storingChain insertionOrderDrain ⟨⟨1, ⟨0⟩⟩⟩).map (·.2.hash) =
        [1, 2] ∧
      (w.appendBlock verifier storingChain insertionOrderDrain ⟨⟨1, ⟨0⟩⟩⟩).2 =
        .error (.verification "bad") :=
  ⟨rfl, rfl⟩

end RandchainSync
