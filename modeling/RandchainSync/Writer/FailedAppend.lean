import RandchainSync.Writer.VerifyOrder

/-!
# A failed append loses the orphans behind the failure

In its verification branch `append_block` takes the appended block's pooled descendants out of
the orphan pool (`remove_blocks_for_parent`) and queues them behind the block. The `while let`
loop returns at the first error the sink records, and the queue is a local of the call: the
blocks still queued are dropped with it. They were pooled, they are no longer pooled, and they
were never handed to the verifier, so the store does not hold them either. Nothing in the
writer brings them back: a later append of the failed block's parent finds no orphan to drain.

This module proves it for every writer a sequence of appends can reach: the loop hands the
verifier a prefix of its queue, stops short of the end only on an error, and stores nothing it
did not verify (`storage_verifyQueue_sub_calls`); the pool holds one block per hash, so an
unverified drained block shares its hash with no block the loop stored or the pool kept.

## Main results

* `verifyQueueCalls_map_snd`: the blocks the loop verifies are a prefix of its queue
* `verifyQueueCalls_length_of_ok`: a loop that returns `Ok` verified the whole queue
* `appendBlock_loses_unverified_orphans`: for every reachable writer, a pooled block that a
  call takes out of the pool and never verifies is afterwards neither stored nor pooled, and the
  call returned an error
-/

namespace RandchainSync

namespace BlocksWriter

variable {verifier : Verifier} {chain : Chain} {drain : Drain}

/-! ## What the loop verifies -/

/-- The loop hands the verifier its queue front to back, up to the block that records an error. -/
theorem verifyQueueCalls_map_snd : ∀ (w : BlocksWriter) (queue : List IndexedBlock),
    (verifyQueueCalls verifier chain w queue).map Prod.snd =
      queue.take (verifyQueueCalls verifier chain w queue).length
  | _, [] => rfl
  | w, block :: rest => by
    cases he : (w.verifyBlock verifier chain block).err with
    | some e => simp [verifyQueueCalls_cons_of_some he]
    | none => simp [verifyQueueCalls_cons_of_none he, verifyQueueCalls_map_snd _ rest]

/-- **The loop stops early only on an error.** -/
theorem verifyQueueCalls_length_of_ok : ∀ (w : BlocksWriter) (queue : List IndexedBlock),
    (verifyQueue verifier chain w queue).2 = .ok () →
      (verifyQueueCalls verifier chain w queue).length = queue.length
  | _, [], _ => rfl
  | w, block :: rest, hok => by
    cases he : (w.verifyBlock verifier chain block).err with
    | some e => simp [verifyQueue_cons_of_some he] at hok
    | none =>
      rw [verifyQueue_cons_of_none he] at hok
      simp [verifyQueueCalls_cons_of_none he, verifyQueueCalls_length_of_ok _ rest hok]

/-! ## The blocks dropped with the queue -/

variable {w : BlocksWriter} {block : IndexedBlock}

/-- On a detached pool the verification branch queues blocks of distinct hashes: the drained
blocks come from a pool of one block per hash, and none has the appended block's hash, as a
pooled block with that hash would have its stored parent. -/
theorem queue_hashes_nodup (hw : OrphansDetached w)
    (hp : w.storage.containsBlock (.hash block.parent))
    (hc : ∀ b ∈ w.orphanedBlocksPool.blocks, b.hash = block.hash → b.parent = block.parent) :
    ((block :: (drain.run block.hash w.orphanedBlocksPool.blocks).1).map
      IndexedBlock.hash).Nodup := by
  have hnd := ((drain.perm block.hash w.orphanedBlocksPool.blocks).map
    IndexedBlock.hash).nodup_iff.mpr hw.nodup
  rw [List.map_append] at hnd
  refine List.nodup_cons.mpr ⟨fun hm => ?_, (List.nodup_append.mp hnd).1⟩
  obtain ⟨b, hb, hbh⟩ := List.mem_map.mp hm
  have hbp := drain.mem_of_mem_removed hb
  have := hw.parent_not_stored b hbp
  rw [hc b hbp hbh, hp] at this
  cases this

/-- **One failed call loses the drained blocks it did not verify.** From a detached pool, a
pooled block that the call takes out of the pool and never hands to the verifier is afterwards
neither stored nor pooled, and the call returned an error. -/
theorem OrphansDetached.unverified_lost (hw : OrphansDetached w)
    (hc : ∀ b ∈ w.orphanedBlocksPool.blocks, b.hash = block.hash → b.parent = block.parent)
    {x : IndexedBlock} (hx : x ∈ w.orphanedBlocksPool.blocks)
    (hkept : x ∉ (w.appendBlock verifier chain drain block).1.orphanedBlocksPool.blocks)
    (hver : x ∉ (w.appendBlockCalls verifier chain drain block).map Prod.snd) :
    (∃ e, (w.appendBlock verifier chain drain block).2 = .error e) ∧
      (w.appendBlock verifier chain drain block).1.storage.containsBlock (.hash x.hash) = false ∧
      x.hash ∉ (w.appendBlock verifier chain drain block).1.orphanedBlocksPool.hashes := by
  cases h1 : w.storage.containsBlock (.hash block.hash)
  case true =>
    rw [appendBlock_of_contains h1] at hkept
    exact absurd hx hkept
  cases h2 : w.storage.containsBlock (.hash block.parent)
  case false =>
    rw [appendBlock_of_orphan h1 h2] at hkept
    exact absurd (OrphanBlocksPool.mem_insertOrphanedBlock_of_mem hx) hkept
  rw [appendBlockCalls_of_parent h1 h2] at hver
  rw [appendBlock_of_parent h1 h2] at hkept ⊢
  set r := drain.run block.hash w.orphanedBlocksPool.blocks
  set calls := verifyQueueCalls verifier chain { w with orphanedBlocksPool := ⟨r.2⟩ } (block :: r.1)
  rw [orphanedBlocksPool_verifyQueue] at hkept
  have hxr : x ∈ r.1 := (drain.mem_removed_or_kept hx).resolve_right hkept
  -- `x` is queued behind every block the loop verified
  have hdrop : x ∈ (block :: r.1).drop calls.length := by
    have hxq : x ∈ (block :: r.1).take calls.length ++ (block :: r.1).drop calls.length := by
      rw [List.take_append_drop]
      exact List.mem_cons_of_mem _ hxr
    rw [← verifyQueueCalls_map_snd] at hxq
    exact (List.mem_append.mp hxq).resolve_left hver
  have hnd := List.map_append IndexedBlock.hash _ _ ▸
    (List.take_append_drop calls.length (block :: r.1)).symm ▸ queue_hashes_nodup hw h2 hc
  refine ⟨?_, Bool.eq_false_iff.mpr fun hs => ?_, fun hm => ?_⟩
  · -- the loop stopped short of `x`
    cases hres : (verifyQueue verifier chain { w with orphanedBlocksPool := ⟨r.2⟩ }
      (block :: r.1)).2 with
    | error e => exact ⟨e, rfl⟩
    | ok u =>
      rw [List.drop_eq_nil_of_le (verifyQueueCalls_length_of_ok _ _ hres).ge] at hdrop
      cases hdrop
  · -- not stored before, and not verified
    rcases storage_verifyQueue_sub_calls _ _ hs with hs | hs
    · rw [hw.not_stored x hx] at hs
      cases hs
    · rw [verifyQueueCalls_map_snd] at hs
      exact List.disjoint_of_nodup_append hnd hs (List.mem_map_of_mem _ hdrop)
  · -- the kept blocks have other hashes than the drained ones
    have hpool := ((drain.perm block.hash w.orphanedBlocksPool.blocks).map
      IndexedBlock.hash).nodup_iff.mpr hw.nodup
    rw [List.map_append] at hpool
    simp only [orphanedBlocksPool_verifyQueue, OrphanBlocksPool.hashes] at hm
    exact List.disjoint_of_nodup_append hpool (List.mem_map_of_mem _ hxr) hm

end BlocksWriter

open BlocksWriter in
/-- **A failed append loses the orphans queued behind the failure.** After any sequence of
`append_block` calls from a fresh writer, for any chain, pool drain and verifier, and any next
call `append_block(b)`: a block that was pooled before the call, is not pooled after it, and was
not handed to `verify_block` by it, is afterwards in neither the store nor the pool (not even a
block of its hash), and the call returned an error. -/
theorem appendBlock_loses_unverified_orphans (chain : Chain) (drain : Drain)
    (storage : BlockProvider) (calls : List (Verifier × IndexedBlock)) (verifier : Verifier)
    (block : IndexedBlock) (hc : HashConsistent (calls.map Prod.snd ++ [block])) :
    let w := runAppends chain drain (new storage) calls
    let r := w.appendBlock verifier chain drain block
    ∀ x ∈ w.orphanedBlocksPool.blocks, x ∉ r.1.orphanedBlocksPool.blocks →
      x ∉ (w.appendBlockCalls verifier chain drain block).map Prod.snd →
      (∃ e, r.2 = .error e) ∧ r.1.storage.containsBlock (.hash x.hash) = false ∧
        x.hash ∉ r.1.orphanedBlocksPool.hashes := by
  intro w r x hx hkept hver
  obtain ⟨hw, hsub⟩ := runAppends_detached calls (new storage) (orphansDetached_new storage)
    (hc.mono fun _ hx => List.mem_append_left _ hx)
  refine hw.unverified_lost (fun b hb => ?_) hx hkept hver
  exact hc b ((hsub b hb).elim (fun h => absurd h (List.not_mem_nil b)) (List.mem_append_left _))
    block (List.mem_append_right _ (List.mem_singleton_self _))

/-- Blocks `3` on `2` on `1` arrive from the top, and the verifier rejects `2`: appending `1`
drains `2` and `3`, verifies `1` and `2`, and loses `3`. -/
theorem appendBlock_loses_unverified_orphans_rejected_middle :
    let verifier : Verifier := fun _ b => if b.hash = 2 then .error "bad" else .ok ()
    let calls : List (Verifier × IndexedBlock) := [(verifier, ⟨⟨3, ⟨2⟩⟩⟩), (verifier, ⟨⟨2, ⟨1⟩⟩⟩)]
    let w := runAppends storingChain insertionOrderDrain (BlocksWriter.new genesisStore) calls
    let r := w.appendBlock verifier storingChain insertionOrderDrain ⟨⟨1, ⟨0⟩⟩⟩
    let lost : IndexedBlock := ⟨⟨3, ⟨2⟩⟩⟩
    HashConsistent (calls.map Prod.snd ++ [⟨⟨1, ⟨0⟩⟩⟩]) ∧
      lost ∈ w.orphanedBlocksPool.blocks ∧ lost ∉ r.1.orphanedBlocksPool.blocks ∧
      lost ∉ (w.appendBlockCalls verifier storingChain insertionOrderDrain ⟨⟨1, ⟨0⟩⟩⟩).map
        Prod.snd ∧
      (∃ e, r.2 = .error e) ∧ r.1.storage.containsBlock (.hash lost.hash) = false ∧
        lost.hash ∉ r.1.orphanedBlocksPool.hashes := by
  intro verifier calls
  have hc : HashConsistent (calls.map Prod.snd ++ [⟨⟨1, ⟨0⟩⟩⟩]) := by
    unfold HashConsistent
    decide
  refine ⟨hc, ?hx, ?hkept, ?hver, appendBlock_loses_unverified_orphans storingChain
    insertionOrderDrain genesisStore calls verifier ⟨⟨1, ⟨0⟩⟩⟩ hc ⟨⟨3, ⟨2⟩⟩⟩ ?hx ?hkept ?hver⟩
  all_goals decide

end RandchainSync
