import RandchainSync.Writer.BlocksWriter

/-!
# The orphan pool stays detached from the store

Every pooled block is missing from the store and so is its parent, whatever `append_block`
returns: a pooled block can only be waiting for an ancestor that no call has delivered yet.
The pool is not bounded, though: `append_block` pools an orphan before it compares the pool
with `MAX_ORPHANED_BLOCKS`, and does not take it out again when it returns
`TooManyOrphanBlocks`.

Blocks are named by hash throughout the importer (`contains_block`, and the pool's
deduplication), so the runs considered are those whose blocks agree on the parent whenever they
agree on the hash; `IndexedBlock` computes its hash from a header that holds the parent hash.

## Main definitions

* `HashConsistent`: blocks of one hash have one parent
* `BlocksWriter.OrphansDetached`: the invariant of the writer
* `genesisStore`, `floodBlock`, `floodCalls`: the orphan flood of the spec's scenario 2

## Main results

* `BlocksWriter.orphansDetached_appendBlock`: one call keeps the invariant
* `appendBlock_orphans_detached`: after any sequence of calls the pool is detached, and a call
  that returns `Ok` leaves its block in the store or in the pool, not in both
* `orphan_flood_overflows_pool`: the 1025th orphan is kept although the call fails
-/

namespace RandchainSync

/-- Blocks that agree on their hash agree on their parent. -/
def HashConsistent (blocks : List IndexedBlock) : Prop :=
  ∀ b₁ ∈ blocks, ∀ b₂ ∈ blocks, b₁.hash = b₂.hash → b₁.parent = b₂.parent

theorem HashConsistent.mono {l₁ l₂ : List IndexedBlock} (hsub : ∀ b ∈ l₁, b ∈ l₂)
    (h : HashConsistent l₂) : HashConsistent l₁ :=
  fun b₁ h₁ b₂ h₂ => h b₁ (hsub b₁ h₁) b₂ (hsub b₂ h₂)

namespace BlocksWriter

/-- **The pool is detached from the store**: no pooled block and no parent of one is stored, the
pool holds one block per hash, and the sink holds no error between calls. -/
structure OrphansDetached (w : BlocksWriter) : Prop where
  not_stored : ∀ b ∈ w.orphanedBlocksPool.blocks, w.storage.containsBlock (.hash b.hash) = false
  parent_not_stored :
    ∀ b ∈ w.orphanedBlocksPool.blocks, w.storage.containsBlock (.hash b.parent) = false
  nodup : w.orphanedBlocksPool.hashes.Nodup
  err_none : w.err = none

theorem orphansDetached_new (storage : BlockProvider) : OrphansDetached (new storage) :=
  ⟨by simp, by simp, by simp, rfl⟩

variable {verifier : Verifier} {chain : Chain} {drain : Drain} {w : BlocksWriter}
  {block : IndexedBlock}

theorem OrphansDetached.hash_not_mem (hw : OrphansDetached w)
    (h : w.storage.containsBlock (.hash block.hash)) :
    block.hash ∉ w.orphanedBlocksPool.hashes := by
  simp only [OrphanBlocksPool.hashes, List.mem_map, not_exists, not_and]
  intro x hx hxh
  simpa [hxh, h] using hw.not_stored x hx

theorem mem_orphanedBlocksPool_appendBlock {x : IndexedBlock}
    (hx : x ∈ (w.appendBlock verifier chain drain block).1.orphanedBlocksPool.blocks) :
    x ∈ w.orphanedBlocksPool.blocks ∨ x = block := by
  cases h1 : w.storage.containsBlock (.hash block.hash)
  · cases h2 : w.storage.containsBlock (.hash block.parent)
    · rw [appendBlock_of_orphan h1 h2] at hx
      exact OrphanBlocksPool.mem_insertOrphanedBlock hx
    · rw [appendBlock_of_parent h1 h2, orphanedBlocksPool_verifyQueue] at hx
      exact .inl (drain.mem_of_mem_kept hx)
  · rw [appendBlock_of_contains h1] at hx
    exact .inl hx

theorem orphansDetached_insert (hw : OrphansDetached w)
    (h1 : w.storage.containsBlock (.hash block.hash) = false)
    (h2 : w.storage.containsBlock (.hash block.parent) = false) :
    OrphansDetached
      { w with orphanedBlocksPool := w.orphanedBlocksPool.insertOrphanedBlock block } := by
  refine ⟨fun x hx => ?_, fun x hx => ?_,
    OrphanBlocksPool.hashes_insertOrphanedBlock_nodup block hw.nodup, hw.err_none⟩ <;>
  rcases OrphanBlocksPool.mem_insertOrphanedBlock hx with hx | rfl
  · exact hw.not_stored x hx
  · exact h1
  · exact hw.parent_not_stored x hx
  · exact h2

/-- **The verification branch keeps the pool detached.** A kept block is not stored: not before
the call, not as the appended block (whose parent is stored, unlike a pooled block's), and not
as a drained block (the pool holds one block per hash). Its parent is not stored: the drain
removed every pooled child of the appended and of the drained blocks. -/
theorem orphansDetached_verifyQueue (hw : OrphansDetached w)
    (hp : w.storage.containsBlock (.hash block.parent))
    (hc : ∀ b ∈ w.orphanedBlocksPool.blocks, b.hash = block.hash → b.parent = block.parent) :
    OrphansDetached (verifyQueue verifier chain
      { w with orphanedBlocksPool := ⟨(drain.run block.hash w.orphanedBlocksPool.blocks).2⟩ }
      (block :: (drain.run block.hash w.orphanedBlocksPool.blocks).1)).1 := by
  set r := drain.run block.hash w.orphanedBlocksPool.blocks with hr
  have hnd : (r.1.map IndexedBlock.hash ++ r.2.map IndexedBlock.hash).Nodup := by
    rw [← List.map_append]
    exact ((drain.perm _ _).map _).nodup_iff.mpr hw.nodup
  have hdisj := List.disjoint_of_nodup_append hnd
  refine ⟨fun x hx => ?_, fun x hx => ?_, ?_, err_verifyQueue _ _ hw.err_none⟩
  · rw [orphanedBlocksPool_verifyQueue] at hx
    have hxp := drain.mem_of_mem_kept hx
    rw [Bool.eq_false_iff]
    intro hs
    rcases storage_verifyQueue_sub _ _ hs with hs | hs
    · simp [hw.not_stored x hxp] at hs
    · rcases List.mem_cons.mp hs with he | hm
      · have := hw.parent_not_stored x hxp
        rw [hc x hxp he] at this
        simp [this] at hp
      · exact hdisj hm (List.mem_map_of_mem _ hx)
  · rw [orphanedBlocksPool_verifyQueue] at hx
    have hxp := drain.mem_of_mem_kept hx
    have hmax := drain.maximal _ _ x hx
    rw [Bool.eq_false_iff]
    intro hs
    rcases storage_verifyQueue_sub _ _ hs with hs | hs
    · simp [hw.parent_not_stored x hxp] at hs
    · rcases List.mem_cons.mp hs with he | hm
      · exact hmax.1 he
      · exact hmax.2 hm
  · rw [orphanedBlocksPool_verifyQueue]
    exact (List.nodup_append.mp hnd).2.1

/-- **One call keeps the pool detached.** -/
theorem orphansDetached_appendBlock (hw : OrphansDetached w)
    (hc : ∀ b ∈ w.orphanedBlocksPool.blocks, b.hash = block.hash → b.parent = block.parent) :
    OrphansDetached (w.appendBlock verifier chain drain block).1 := by
  cases h1 : w.storage.containsBlock (.hash block.hash)
  · cases h2 : w.storage.containsBlock (.hash block.parent)
    · rw [appendBlock_of_orphan h1 h2]
      exact orphansDetached_insert hw h1 h2
    · rw [appendBlock_of_parent h1 h2]
      exact orphansDetached_verifyQueue hw h2 hc
  · rw [appendBlock_of_contains h1]
    exact hw

/-- A call that returns `Ok` leaves its block in the store or in the pool. -/
theorem appendBlock_ok_stored_or_pooled (hw : OrphansDetached w)
    (hok : (w.appendBlock verifier chain drain block).2 = .ok ()) :
    (w.appendBlock verifier chain drain block).1.storage.containsBlock (.hash block.hash) ∨
      block.hash ∈ (w.appendBlock verifier chain drain block).1.orphanedBlocksPool.hashes := by
  cases h1 : w.storage.containsBlock (.hash block.hash)
  · cases h2 : w.storage.containsBlock (.hash block.parent)
    · rw [appendBlock_of_orphan h1 h2]
      exact .inr (OrphanBlocksPool.hash_mem_insertOrphanedBlock _ _)
    · rw [appendBlock_of_parent h1 h2] at hok ⊢
      exact .inl (verifyQueue_ok_contains _ _ (by exact hw.err_none) hok block
        (List.mem_cons_self _ _))
  · rw [appendBlock_of_contains h1]
    exact .inl h1

/-- A run keeps the pool detached, and pools only blocks it appended. -/
theorem runAppends_detached :
    ∀ (calls : List (Verifier × IndexedBlock)) (w : BlocksWriter), OrphansDetached w →
      HashConsistent (w.orphanedBlocksPool.blocks ++ calls.map Prod.snd) →
      OrphansDetached (runAppends chain drain w calls) ∧
        ∀ x ∈ (runAppends chain drain w calls).orphanedBlocksPool.blocks,
          x ∈ w.orphanedBlocksPool.blocks ∨ x ∈ calls.map Prod.snd
  | [], w, hw, _ => ⟨hw, fun x hx => .inl hx⟩
  | (verifier, block) :: calls, w, hw, hc => by
    -- a block the call leaves in the pool was pooled before, or is the call's own
    have hstep {x}
        (hx : x ∈ (w.appendBlock verifier chain drain block).1.orphanedBlocksPool.blocks) :
        x ∈ w.orphanedBlocksPool.blocks ∨ x ∈ ((verifier, block) :: calls).map Prod.snd :=
      (mem_orphanedBlocksPool_appendBlock hx).imp_right fun e => List.mem_cons.2 (.inl e)
    have hw' : OrphansDetached (w.appendBlock verifier chain drain block).1 :=
      orphansDetached_appendBlock hw fun b hb =>
        hc b (List.mem_append_left _ hb) block (List.mem_append_right _ (List.mem_cons_self _ _))
    obtain ⟨hinv, hsub⟩ := runAppends_detached calls _ hw' (hc.mono fun x hx =>
      (List.mem_append.mp hx).elim (fun hx => List.mem_append.mpr (hstep hx))
        fun hx => List.mem_append_right _ (List.mem_cons_of_mem _ hx))
    exact ⟨hinv, fun x hx => (hsub x hx).elim hstep fun hx => .inr (List.mem_cons_of_mem _ hx)⟩

end BlocksWriter

open BlocksWriter in
/-- **The orphan pool stays detached from the store.** After any sequence of `append_block`
calls from a fresh writer, each with any verdicts, whatever the calls return: no pooled block and
no parent of a pooled block is stored. A call `append_block(b)` that returns `Ok` leaves `b` in
the store or in the pool, and not in both. -/
theorem appendBlock_orphans_detached (chain : Chain) (drain : Drain) (storage : BlockProvider)
    (calls : List (Verifier × IndexedBlock)) (verifier : Verifier) (block : IndexedBlock)
    (hc : HashConsistent (calls.map Prod.snd ++ [block])) :
    let w := runAppends chain drain (BlocksWriter.new storage) calls
    let r := w.appendBlock verifier chain drain block
    (∀ b ∈ r.1.orphanedBlocksPool.blocks, r.1.storage.containsBlock (.hash b.hash) = false ∧
        r.1.storage.containsBlock (.hash b.parent) = false) ∧
      (r.2 = .ok () →
        Xor' (r.1.storage.containsBlock (.hash block.hash))
          (block.hash ∈ r.1.orphanedBlocksPool.hashes)) := by
  intro w r
  obtain ⟨hw, hsub⟩ := runAppends_detached calls (new storage) (orphansDetached_new storage)
    (hc.mono fun _ hx => List.mem_append_left _ hx)
  have hr : OrphansDetached (w.appendBlock verifier chain drain block).1 :=
    orphansDetached_appendBlock hw fun b hb =>
      hc b ((hsub b hb).elim (fun h => absurd h (List.not_mem_nil b)) (List.mem_append_left _))
        block (List.mem_append_right _ (List.mem_singleton_self _))
  refine ⟨fun b hb => ⟨hr.not_stored b hb, hr.parent_not_stored b hb⟩, fun hok => ?_⟩
  rcases appendBlock_ok_stored_or_pooled hw hok with h | h
  · exact .inl ⟨h, hr.hash_not_mem h⟩
  · refine .inr ⟨h, fun hs => hr.hash_not_mem hs h⟩

/-- Orphans `2` on `1` and `5` on `4` wait in the pool; appending `1` on genesis drains `2`,
verifies and stores both, and keeps `5` pooled. -/
theorem appendBlock_orphans_detached_on_genesis :
    let verifier : Verifier := fun _ _ => .ok ()
    let calls : List (Verifier × IndexedBlock) := [(verifier, ⟨⟨2, ⟨1⟩⟩⟩), (verifier, ⟨⟨5, ⟨4⟩⟩⟩)]
    HashConsistent (calls.map Prod.snd ++ [⟨⟨1, ⟨0⟩⟩⟩]) ∧
      let w := runAppends storingChain insertionOrderDrain (BlocksWriter.new genesisStore) calls
      let r := w.appendBlock verifier storingChain insertionOrderDrain ⟨⟨1, ⟨0⟩⟩⟩
      w.orphanedBlocksPool.hashes = [2, 5] ∧ r.1.orphanedBlocksPool.hashes = [5] ∧
      r.1.storage.containsBlock (.hash 2) = true ∧
      (∀ b ∈ r.1.orphanedBlocksPool.blocks, r.1.storage.containsBlock (.hash b.hash) = false ∧
          r.1.storage.containsBlock (.hash b.parent) = false) ∧
        (r.2 = .ok () →
          Xor' (r.1.storage.containsBlock (.hash (⟨⟨1, ⟨0⟩⟩⟩ : IndexedBlock).hash))
            ((⟨⟨1, ⟨0⟩⟩⟩ : IndexedBlock).hash ∈ r.1.orphanedBlocksPool.hashes)) := by
  intro verifier calls
  have hc : HashConsistent (calls.map Prod.snd ++ [⟨⟨1, ⟨0⟩⟩⟩]) := by
    unfold HashConsistent
    decide
  have h := appendBlock_orphans_detached storingChain insertionOrderDrain genesisStore calls
    verifier ⟨⟨1, ⟨0⟩⟩⟩ hc
  exact ⟨hc, by decide, by decide, by decide, h.1, h.2⟩

/-! ## The bound on the pool -/

namespace BlocksWriter

variable {verifier : Verifier} {chain : Chain} {drain : Drain} {w : BlocksWriter}
  {block : IndexedBlock}

/-- **A call that finds the pool full keeps the orphan, and returns the error.** -/
theorem appendBlock_retains_excess_orphan
    (h1 : w.storage.containsBlock (.hash block.hash) = false)
    (h2 : w.storage.containsBlock (.hash block.parent) = false)
    (hn : block.hash ∉ w.orphanedBlocksPool.hashes)
    (hlen : w.orphanedBlocksPool.len = maxOrphanedBlocks) :
    w.appendBlock verifier chain drain block =
      ({ w with orphanedBlocksPool := ⟨w.orphanedBlocksPool.blocks ++ [block]⟩ },
        .error .tooManyOrphanBlocks) := by
  rw [appendBlock_of_orphan h1 h2, OrphanBlocksPool.len_insertOrphanedBlock hn, hlen]
  simp [OrphanBlocksPool.insertOrphanedBlock, hn]

/-- Orphans whose hashes are new and whose parents are not stored are all pooled, past the
bound as well: the store is untouched and the pool is the list of them. -/
theorem runAppends_fresh_orphans :
    ∀ (calls : List (Verifier × IndexedBlock)) (w : BlocksWriter),
      (∀ b ∈ calls.map Prod.snd, w.storage.containsBlock (.hash b.hash) = false ∧
        w.storage.containsBlock (.hash b.parent) = false) →
      (w.orphanedBlocksPool.hashes ++ (calls.map Prod.snd).map IndexedBlock.hash).Nodup →
      runAppends chain drain w calls =
        { w with orphanedBlocksPool := ⟨w.orphanedBlocksPool.blocks ++ calls.map Prod.snd⟩ }
  | [], w, _, _ => by simp
  | (verifier, block) :: calls, w, hs, hn => by
    obtain ⟨h1, h2⟩ := hs block (List.mem_cons_self _ _)
    have hb : block.hash ∉ w.orphanedBlocksPool.hashes := by
      simp only [List.map_cons, List.nodup_append, List.nodup_cons] at hn
      exact fun h => hn.2.2 h (List.mem_cons_self _ _)
    rw [runAppends_cons, appendBlock_of_orphan h1 h2]
    dsimp only
    rw [OrphanBlocksPool.insertOrphanedBlock, if_neg hb, runAppends_fresh_orphans calls
      { w with orphanedBlocksPool := ⟨w.orphanedBlocksPool.blocks ++ [block]⟩ }
      (fun b hb => hs b (List.mem_cons_of_mem _ hb))
      (by simpa [OrphanBlocksPool.hashes] using hn)]
    simp

end BlocksWriter

theorem floodBlock_hash_inj {i j : Nat} (hi : i < 2 ^ 255) (hj : j < 2 ^ 255) :
    (floodBlock i).hash = (floodBlock j).hash ↔ i = j := by
  simp only [floodBlock, IndexedBlock.hash]
  rw [H256.ofNat_inj (by omega) (by omega)]
  omega

theorem floodBlock_not_stored {i : Nat} (hi : i < 2 ^ 255) :
    genesisStore.containsBlock (.hash (floodBlock i).hash) = false ∧
      genesisStore.containsBlock (.hash (floodBlock i).parent) = false := by
  simp only [genesisStore_contains, decide_eq_false_iff_not, floodBlock, IndexedBlock.hash,
    IndexedBlock.parent, H256.zero_eq]
  rw [H256.ofNat_inj (by omega) (by omega), H256.ofNat_inj (by omega) (by omega)]
  omega

theorem floodBlock_hashes_nodup (verifier : Verifier) (n : Nat) (hn : n < 2 ^ 255) :
    ((((List.range n).map fun i => (verifier, floodBlock i)).map Prod.snd).map
      IndexedBlock.hash).Nodup := by
  simp only [List.map_map]
  refine (List.nodup_range n).map_on fun i hi j hj hij => ?_
  simp only [List.mem_range] at hi hj
  exact (floodBlock_hash_inj (by omega) (by omega)).mp hij

/-- The calls of an orphan flood of `n` blocks. -/
def floodCalls (verifier : Verifier) (n : Nat) : List (Verifier × IndexedBlock) :=
  (List.range n).map fun i => (verifier, floodBlock i)

open BlocksWriter in
theorem runAppends_floodCalls (verifier : Verifier) (chain : Chain) (drain : Drain) {n : Nat}
    (hn : n < 2 ^ 255) :
    runAppends chain drain (.new genesisStore) (floodCalls verifier n) =
      { BlocksWriter.new genesisStore with
        orphanedBlocksPool := ⟨(List.range n).map floodBlock⟩ } := by
  refine (runAppends_fresh_orphans _ _ (fun b hb => ?_)
    (by simpa [floodCalls] using floodBlock_hashes_nodup verifier _ hn)).trans
      (by simp [floodCalls])
  simp only [floodCalls, List.map_map, List.mem_map, List.mem_range, Function.comp_apply] at hb
  obtain ⟨i, hi, rfl⟩ := hb
  exact floodBlock_not_stored (by omega)

open BlocksWriter in
/-- **The orphan flood overflows the pool.** From a fresh writer on genesis alone, the 1025th of
a run of orphans makes `append_block` return `TooManyOrphanBlocks`, and leaves the pool with all
1025 blocks, the rejected one among them. -/
theorem orphan_flood_overflows_pool (verifier : Verifier) (chain : Chain) (drain : Drain) :
    (runAppends chain drain (.new genesisStore) (floodCalls verifier maxOrphanedBlocks)).appendBlock
        verifier chain drain (floodBlock maxOrphanedBlocks) =
      ({ BlocksWriter.new genesisStore with
          orphanedBlocksPool := ⟨(List.range (maxOrphanedBlocks + 1)).map floodBlock⟩ },
        .error .tooManyOrphanBlocks) := by
  have hbound : maxOrphanedBlocks < 2 ^ 255 := by simp [maxOrphanedBlocks]
  have hnew : (floodBlock maxOrphanedBlocks).hash ∉
      ((List.range maxOrphanedBlocks).map floodBlock).map IndexedBlock.hash := by
    simp only [List.map_map, List.mem_map, List.mem_range, Function.comp_apply, not_exists,
      not_and]
    intro i hi hh
    exact absurd ((floodBlock_hash_inj (by omega) hbound).mp hh) (by omega)
  obtain ⟨h1, h2⟩ := floodBlock_not_stored hbound
  have hlen : ((List.range maxOrphanedBlocks).map floodBlock).length = maxOrphanedBlocks := by
    simp
  rw [runAppends_floodCalls verifier chain drain hbound, List.range_succ, List.map_append,
    List.map_singleton]
  generalize (List.range maxOrphanedBlocks).map floodBlock = l at hnew hlen ⊢
  generalize floodBlock maxOrphanedBlocks = b at h1 h2 hnew ⊢
  exact appendBlock_retains_excess_orphan h1 h2 hnew hlen

end RandchainSync
