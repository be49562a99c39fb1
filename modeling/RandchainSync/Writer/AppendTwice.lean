import RandchainSync.Writer.VerifyOrder

/-!
# Appending a block twice

A second `append_block(b)` right after a first leaves the store and the pool as the first call
left them, on one condition on the chain that the writer does not control: an insertion that
reports a database error has either stored the block or left the store as it found it. A chain
that fails partway, after writing to the store, breaks it. The first call then returns the
error with `b` unstored and the store changed, and the second call, on the changed store, can
commit `b`.

Under the condition the second call repeats the first. A stored block is dropped; an orphan is
pooled again, which changes nothing; and a block the first call verified but did not store
failed on the store it still finds, while the drain finds no pooled child of it, since the first
call removed them all. The pool comes back as the same blocks, possibly in another order, as
`OrphanBlocksPool` is a hash map in the source and a list here.

## Main definitions

* `BlocksWriter.Fails`: the verification of a block against a store stops the loop and leaves
  the store as it was
* `flakyChain`: a chain whose first insertion writes to the store and then fails
* `rejectingChain`: a chain that refuses every block without writing

## Main results

* `appendBlock_again_after_interrupted_insert`: the second call commits the block
* `verifyQueue_of_fails`, `fails_of_not_stored`: the verification branch of a call that does not
  store its block
* `appendBlock_again_keeps_state`: with the chain condition, the second call changes nothing
-/

namespace RandchainSync

/-- A chain whose first insertion is interrupted: it writes a mark to the store (hash `0` at
height `7`) and reports a database error. Once the mark is there it stores blocks as
`storingChain` does. -/
def flakyChain : Chain where
  insertBestBlock s b :=
    if s.blockHash 7 = none then
      ({ s with blockHash := fun n => if n = 7 then some 0 else s.blockHash n },
        some ⟨"interrupted"⟩)
    else (s.withBlock b, none)
  contains_mono s b h hh := by
    dsimp only
    split <;> simp [BlockProvider.withBlock, hh]
  contains_new s b h hh := by
    dsimp only at hh
    split at hh
    · exact .inl hh
    · simpa [BlockProvider.withBlock, or_comm] using hh
  contains_of_ok s b hok := by
    dsimp only at hok ⊢
    split at hok
    · cases hok
    · simp [*, BlockProvider.withBlock]

/-- A chain whose database refuses every block, and writes nothing. -/
def rejectingChain : Chain where
  insertBestBlock s _ := (s, some ⟨"refused"⟩)
  contains_mono _ _ _ hh := hh
  contains_new _ _ _ hh := .inl hh
  contains_of_ok _ _ hok := nomatch hok

open BlocksWriter in
/-- **A second call can commit what the first did not.** From the genesis store, appending block
`1` (on genesis) through `flakyChain` returns the chain's error and leaves `1` unstored; appending
it again stores it. -/
theorem appendBlock_again_after_interrupted_insert :
    let verifier : Verifier := fun _ _ => .ok ()
    let block : IndexedBlock := ⟨⟨1, ⟨0⟩⟩⟩
    let r₁ := (new genesisStore).appendBlock verifier flakyChain insertionOrderDrain block
    let r₂ := r₁.1.appendBlock verifier flakyChain insertionOrderDrain block
    r₁.2 = .error (.database ⟨"interrupted"⟩) ∧ r₁.1.storage.containsBlock (.hash 1) = false ∧
      r₂.2 = .ok () ∧ r₂.1.storage.containsBlock (.hash 1) = true :=
  ⟨rfl, rfl, rfl, rfl⟩

namespace BlocksWriter

variable {verifier : Verifier} {chain : Chain}

/-- The verification of `block` against `s` stops the loop and leaves `s` as it was: the
verifier rejects the block, or the chain reports an error without writing. -/
def Fails (verifier : Verifier) (chain : Chain) (s : BlockProvider) (block : IndexedBlock) :
    Prop :=
  (∃ err, verifier s block = .error err) ∨
    (verifier s block = .ok () ∧ ∃ err, chain.insertBestBlock s block = (s, some err))

section Fails

variable {w : BlocksWriter} {block : IndexedBlock} {rest : List IndexedBlock}

/-- A loop whose first block fails ends with the writer it started from, its sink cleared. -/
theorem verifyQueue_of_fails (hf : Fails verifier chain w.storage block) :
    (verifyQueue verifier chain w (block :: rest)).1 = { w with err := none } := by
  obtain ⟨e, he⟩ : ∃ e, w.verifyBlock verifier chain block = { w with err := some e } := by
    rcases hf with ⟨err, hv⟩ | ⟨hv, err, hi⟩
    · exact ⟨.verification err, by simp [verifyBlock, hv, onBlockVerificationError]⟩
    · exact ⟨.database err, by simp [verifyBlock, hv, onBlockVerificationSuccess, hi]⟩
  rw [verifyQueue_cons_of_some (show (w.verifyBlock verifier chain block).err = some e by rw [he]),
    he]

theorem contains_verifyQueue_of_verifyBlock {h : H256}
    (hh : (w.verifyBlock verifier chain block).storage.containsBlock (.hash h)) :
    (verifyQueue verifier chain w (block :: rest)).1.storage.containsBlock (.hash h) := by
  cases he : (w.verifyBlock verifier chain block).err with
  | some e => rwa [verifyQueue_cons_of_some he]
  | none => rw [verifyQueue_cons_of_none he]; exact storage_verifyQueue_mono _ _ hh

/-- **A loop that does not store its first block failed it**, when a chain error leaves the
store as it was or with the block stored. -/
theorem fails_of_not_stored
    (hfail : ∀ s b, (chain.insertBestBlock s b).2 ≠ none →
      (chain.insertBestBlock s b).1 = s ∨
        (chain.insertBestBlock s b).1.containsBlock (.hash b.hash))
    (hs : ¬ (verifyQueue verifier chain w (block :: rest)).1.storage.containsBlock
      (.hash block.hash)) :
    Fails verifier chain w.storage block := by
  rcases @verifyBlock_cases verifier chain w block with ⟨err, hv, -⟩ | ⟨hv, he⟩
  · exact .inl ⟨err, hv⟩
  have hstored : ¬ (chain.insertBestBlock w.storage block).1.containsBlock (.hash block.hash) :=
    fun h => hs (contains_verifyQueue_of_verifyBlock (by rw [he]; exact h))
  cases hi : (chain.insertBestBlock w.storage block).2 with
  | none => exact absurd (chain.contains_of_ok _ _ hi) hstored
  | some err =>
    have hsame := (hfail w.storage block (by simp [hi])).resolve_right hstored
    exact .inr ⟨hv, err, Prod.ext hsame hi⟩

/-- A call whose block fails on the store it finds ends with the pool drained and the sink
clear. -/
theorem appendBlock_of_fails {drain : Drain}
    (h : w.storage.containsBlock (.hash block.hash) = false)
    (hp : w.storage.containsBlock (.hash block.parent))
    (hf : Fails verifier chain w.storage block) :
    (w.appendBlock verifier chain drain block).1 =
      { w with orphanedBlocksPool := ⟨(drain.run block.hash w.orphanedBlocksPool.blocks).2⟩,
               err := none } := by
  rw [appendBlock_of_parent h hp, verifyQueue_of_fails]
  exact hf

end Fails

end BlocksWriter

namespace Drain

variable (drain : Drain) {h : H256} {blocks : List IndexedBlock}

/-- A drain from a hash no pooled block has as its parent removes nothing. -/
theorem run_fst_eq_nil (hno : ∀ b ∈ blocks, b.parent ≠ h) : (drain.run h blocks).1 = [] := by
  cases hr : (drain.run h blocks).1 with
  | nil => rfl
  | cons b _ =>
    have hb := drain.ancestorFirst h blocks
    rw [hr] at hb
    exact absurd hb.1 (hno b (drain.mem_of_mem_removed (hr ▸ List.mem_cons_self _ _)))

theorem run_snd_perm (hno : ∀ b ∈ blocks, b.parent ≠ h) : (drain.run h blocks).2.Perm blocks := by
  simpa [drain.run_fst_eq_nil hno] using drain.perm h blocks

end Drain

open BlocksWriter in
/-- **A second `append_block` changes nothing**, when a chain that reports a database error has
stored the block or left the store as it was. For any chain and drain, any verifier, any writer
and any block, the call `append_block(b)` right after `append_block(b)` leaves the store as the
first call left it, and the pool with the same blocks. -/
theorem appendBlock_again_keeps_state (chain : Chain) (drain : Drain)
    (hfail : ∀ s b, (chain.insertBestBlock s b).2 ≠ none →
      (chain.insertBestBlock s b).1 = s ∨
        (chain.insertBestBlock s b).1.containsBlock (.hash b.hash))
    (verifier : Verifier) (w : BlocksWriter) (block : IndexedBlock) :
    let w₁ := (w.appendBlock verifier chain drain block).1
    let w₂ := (w₁.appendBlock verifier chain drain block).1
    w₂.storage = w₁.storage ∧ w₂.orphanedBlocksPool.blocks.Perm w₁.orphanedBlocksPool.blocks := by
  dsimp only
  by_cases hs : (w.appendBlock verifier chain drain block).1.storage.containsBlock
    (.hash block.hash)
  · rw [appendBlock_of_contains hs]
    exact ⟨rfl, .refl _⟩
  have h1 : w.storage.containsBlock (.hash block.hash) = false :=
    Bool.eq_false_iff.2 fun h => hs (contains_appendBlock_mono h)
  cases h2 : w.storage.containsBlock (.hash block.parent) with
  | false =>
    -- an orphan: pooling it again changes nothing
    rw [appendBlock_of_orphan h1 h2, appendBlock_of_orphan,
      OrphanBlocksPool.insertOrphanedBlock_of_mem
        (OrphanBlocksPool.hash_mem_insertOrphanedBlock _ _)]
    exacts [⟨rfl, .refl _⟩, h1, h2]
  | true =>
    -- the first call failed the block on the store it left, and drained every pooled child
    rw [appendBlock_of_parent h1 h2] at hs
    have hf := fails_of_not_stored hfail hs
    have hno : ∀ b ∈ (drain.run block.hash w.orphanedBlocksPool.blocks).2,
        b.parent ≠ block.hash := fun b hb => (drain.maximal _ _ b hb).1
    rw [appendBlock_of_fails h1 h2 hf, appendBlock_of_fails]
    exacts [⟨rfl, drain.run_snd_perm hno⟩, h1, h2, hf]

/-- The chain that refuses every block meets the condition. Block `2` on `1` waits in the pool;
the first call on `1`, whose parent is stored, drains `2`, verifies `1` and fails to store it,
and the second call changes nothing. -/
theorem appendBlock_again_keeps_state_rejecting :
    (∀ s b, (rejectingChain.insertBestBlock s b).2 ≠ none →
      (rejectingChain.insertBestBlock s b).1 = s ∨
        (rejectingChain.insertBestBlock s b).1.containsBlock (.hash b.hash)) ∧
    let verifier : Verifier := fun _ _ => .ok ()
    let w := runAppends rejectingChain insertionOrderDrain (BlocksWriter.new genesisStore)
      [(verifier, ⟨⟨2, ⟨1⟩⟩⟩)]
    let w₁ := (w.appendBlock verifier rejectingChain insertionOrderDrain ⟨⟨1, ⟨0⟩⟩⟩).1
    let w₂ := (w₁.appendBlock verifier rejectingChain insertionOrderDrain ⟨⟨1, ⟨0⟩⟩⟩).1
    w.storage.containsBlock (.hash 0) = true ∧ w.orphanedBlocksPool.hashes = [2] ∧
      (w.appendBlock verifier rejectingChain insertionOrderDrain ⟨⟨1, ⟨0⟩⟩⟩).2 =
        .error (.database ⟨"refused"⟩) ∧ w₁.orphanedBlocksPool.hashes = [] ∧
      w₂.storage = w₁.storage ∧ w₂.orphanedBlocksPool.blocks.Perm w₁.orphanedBlocksPool.blocks := by
  have hfail : ∀ s b, (rejectingChain.insertBestBlock s b).2 ≠ none →
      (rejectingChain.insertBestBlock s b).1 = s ∨
        (rejectingChain.insertBestBlock s b).1.containsBlock (.hash b.hash) :=
    fun _ _ _ => .inl rfl
  refine ⟨hfail, ?_⟩
  intro verifier
  have h := appendBlock_again_keeps_state rejectingChain insertionOrderDrain hfail verifier
    (runAppends rejectingChain insertionOrderDrain (BlocksWriter.new genesisStore)
      [(verifier, ⟨⟨2, ⟨1⟩⟩⟩)]) ⟨⟨1, ⟨0⟩⟩⟩
  exact ⟨by decide, by decide, rfl, by decide, h.1, h.2⟩

end RandchainSync
