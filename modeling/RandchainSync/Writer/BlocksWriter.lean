import RandchainSync.Writer.OrphanPool

/-!
# The synchronous block writer

`BlocksWriter::append_block` drops a block the store has, pools a block whose parent the store
lacks, and otherwise verifies the block and every pooled descendant, front to back, stopping at
the first error the verification sink records. The sink's chain writes each verified block to
the store.

The verifier and the chain are collaborators whose code is not under src/. The verifier is its
verdict on a block against the store. The chain is `Chain::insert_best_block` with the one
contract the importer relies on: it is the store's only writer, so it adds at most the block it
is given, removes none, and has stored the block when it reports no error.

## Main definitions

* `Error`, `maxOrphanedBlocks`
* `Chain`, `Verifier`: the collaborators
* `BlocksWriter`, `BlocksWriter.appendBlock`, `BlocksWriter.verifyQueue`
* `runAppends`: a sequence of `append_block` calls

## Main results

* `storage_verifyQueue_mono`, `storage_verifyQueue_sub`: the loop only adds queued blocks
* `verifyQueue_ok_contains`: a loop that returns `Ok` has stored the whole queue
* `appendBlock_of_contains`, `appendBlock_of_orphan`, `appendBlock_of_parent`: the three
  branches of `append_block`
-/

namespace RandchainSync

/-- `db::Error`, opaque to the importer. -/
structure DbError where
  reason : String
  deriving DecidableEq, Repr

/-- The variants of `sync::Error` that `append_block` returns. -/
inductive Error where
  | tooManyOrphanBlocks
  | verification (reason : String)
  | database (err : DbError)
  deriving DecidableEq, Repr

/-- `MAX_ORPHANED_BLOCKS`. -/
def maxOrphanedBlocks : Nat := 1024

/-- `Chain::insert_best_block` (`synchronization_chain`, not under src/): the store after the
insertion, and the database error if there was one. -/
structure Chain where
  insertBestBlock : BlockProvider → IndexedBlock → BlockProvider × Option DbError
  contains_mono : ∀ s b h, s.containsBlock (.hash h) →
    (insertBestBlock s b).1.containsBlock (.hash h)
  contains_new : ∀ s b h, (insertBestBlock s b).1.containsBlock (.hash h) →
    s.containsBlock (.hash h) ∨ h = b.hash
  contains_of_ok : ∀ s b, (insertBestBlock s b).2 = none →
    (insertBestBlock s b).1.containsBlock (.hash b.hash)

/-- The store with `block` added, as a chain that keeps every block leaves it; heights are left
alone, so the block lands on a side branch. -/
def BlockProvider.withBlock (s : BlockProvider) (block : IndexedBlock) : BlockProvider where
  blockHeaderBytes r := if r = .hash block.hash then some [] else s.blockHeaderBytes r
  blockHeader r := if r = .hash block.hash then some block.header else s.blockHeader r
  blockNumber := s.blockNumber
  blockHash := s.blockHash
  block r := if r = .hash block.hash then some block else s.block r
  containsBlock r := r = .hash block.hash || s.containsBlock r

/-- A chain that stores every block it is given and never fails. -/
def storingChain : Chain where
  insertBestBlock s b := (s.withBlock b, none)
  contains_mono s b h hh := by simp [BlockProvider.withBlock, hh]
  contains_new s b h hh := by simpa [BlockProvider.withBlock, or_comm] using hh
  contains_of_ok s b _ := by simp [BlockProvider.withBlock]

/-- The store of the spec's scenarios: the genesis block, of hash `0`, alone. -/
def genesisStore : BlockProvider where
  blockHeaderBytes r := if r = .hash 0 then some [] else none
  blockHeader _ := none
  blockNumber h := if h = 0 then some 0 else none
  blockHash n := if n = 0 then some 0 else none
  block _ := none

/-- The `i`-th block of an orphan flood: block `i + 2` on block `i + 1`, so that the block on
genesis, `1`, never arrives. -/
def floodBlock (i : Nat) : IndexedBlock := ⟨⟨.ofNat (i + 2), ⟨.ofNat (i + 1)⟩⟩⟩

theorem genesisStore_contains (h : H256) :
    genesisStore.containsBlock (.hash h) = decide (h = 0) := by
  by_cases hh : h = 0 <;> simp [genesisStore, hh]

/-- The verdict of the `SyncVerifier`'s chain verifier on a block against the store: `.ok ()`, or
the text it passes to `on_block_verification_error`. -/
abbrev Verifier := BlockProvider → IndexedBlock → Except String Unit

/-- **`BlocksWriter`**. The store is shared by the writer and the chain of its sink, and `err`
is the sink's `BlocksWriterSinkData::err`. -/
structure BlocksWriter where
  storage : BlockProvider
  orphanedBlocksPool : OrphanBlocksPool
  err : Option Error

namespace BlocksWriter

/-- `BlocksWriter::new`. -/
def new (storage : BlockProvider) : BlocksWriter := ⟨storage, .new, none⟩

@[simp] theorem storage_new (storage : BlockProvider) : (new storage).storage = storage := rfl

@[simp] theorem orphanedBlocksPool_new (storage : BlockProvider) :
    (new storage).orphanedBlocksPool = .new := rfl

@[simp] theorem err_new (storage : BlockProvider) : (new storage).err = none := rfl

variable (verifier : Verifier) (chain : Chain) (drain : Drain)

/-- `BlocksWriterSink::on_block_verification_success`. -/
def onBlockVerificationSuccess (w : BlocksWriter) (block : IndexedBlock) : BlocksWriter :=
  let r := chain.insertBestBlock w.storage block
  { w with storage := r.1, err := match r.2 with | some err => some (.database err) | none => w.err }

/-- `BlocksWriterSink::on_block_verification_error`. -/
def onBlockVerificationError (w : BlocksWriter) (err : String) : BlocksWriter :=
  { w with err := some (.verification err) }

/-- `SyncVerifier::verify_block`: verify, then exactly one sink callback. -/
def verifyBlock (w : BlocksWriter) (block : IndexedBlock) : BlocksWriter :=
  match verifier w.storage block with
  | .ok () => w.onBlockVerificationSuccess chain block
  | .error err => w.onBlockVerificationError err

/-- The `while let` loop of `append_block`: verify the front block, then take the sink's error
(`BlocksWriterSinkData::error`) and return it if there is one. -/
def verifyQueue : BlocksWriter → List IndexedBlock → BlocksWriter × Except Error Unit
  | w, [] => (w, .ok ())
  | w, block :: rest =>
    let w := w.verifyBlock verifier chain block
    match w.err with
    | some err => ({ w with err := none }, .error err)
    | none => verifyQueue w rest

/-- **`BlocksWriter::append_block`**. -/
def appendBlock (w : BlocksWriter) (block : IndexedBlock) : BlocksWriter × Except Error Unit :=
  if w.storage.containsBlock (.hash block.hash) then (w, .ok ())
  else if !w.storage.containsBlock (.hash block.parent) then
    let w := { w with orphanedBlocksPool := w.orphanedBlocksPool.insertOrphanedBlock block }
    if w.orphanedBlocksPool.len > maxOrphanedBlocks then (w, .error .tooManyOrphanBlocks)
    else (w, .ok ())
  else
    let r := w.orphanedBlocksPool.removeBlocksForParent drain block.hash
    verifyQueue verifier chain { w with orphanedBlocksPool := r.2 } (block :: r.1)

end BlocksWriter

/-- A sequence of `append_block` calls, each with the verdicts of its own verifier; the results
are ignored, as an importer that logs and continues ignores them. -/
def runAppends (chain : Chain) (drain : Drain) :
    BlocksWriter → List (Verifier × IndexedBlock) → BlocksWriter
  | w, [] => w
  | w, (verifier, block) :: calls =>
    runAppends chain drain (w.appendBlock verifier chain drain block).1 calls

@[simp] theorem runAppends_nil (chain : Chain) (drain : Drain) (w : BlocksWriter) :
    runAppends chain drain w [] = w := rfl

@[simp] theorem runAppends_cons (chain : Chain) (drain : Drain) (w : BlocksWriter)
    (verifier : Verifier) (block : IndexedBlock) (calls : List (Verifier × IndexedBlock)) :
    runAppends chain drain w ((verifier, block) :: calls) =
      runAppends chain drain (w.appendBlock verifier chain drain block).1 calls := rfl

theorem runAppends_append (chain : Chain) (drain : Drain) (w : BlocksWriter)
    (calls calls' : List (Verifier × IndexedBlock)) :
    runAppends chain drain w (calls ++ calls') =
      runAppends chain drain (runAppends chain drain w calls) calls' := by
  induction calls generalizing w with
  | nil => rfl
  | cons c calls ih => exact ih _

namespace BlocksWriter

variable {verifier : Verifier} {chain : Chain} {drain : Drain}

/-! ## What one verification does

A verification leaves the pool alone and changes the store only through the chain, so every
fact below about the loop comes from the three clauses of `Chain`. -/

@[simp] theorem orphanedBlocksPool_verifyBlock (w : BlocksWriter) (block : IndexedBlock) :
    (w.verifyBlock verifier chain block).orphanedBlocksPool = w.orphanedBlocksPool := by
  unfold verifyBlock onBlockVerificationSuccess onBlockVerificationError
  split <;> rfl

/-- **Inversion of a verification**: it fails with no store change, or it runs the chain. -/
theorem verifyBlock_cases (w : BlocksWriter) (block : IndexedBlock) :
    (∃ err, verifier w.storage block = .error err ∧
      w.verifyBlock verifier chain block = { w with err := some (.verification err) }) ∨
    (verifier w.storage block = .ok () ∧
      w.verifyBlock verifier chain block = w.onBlockVerificationSuccess chain block) := by
  unfold verifyBlock
  split
  · exact .inr ⟨‹_›, rfl⟩
  · exact .inl ⟨_, ‹_›, rfl⟩

theorem storage_verifyBlock_mono (w : BlocksWriter) (block : IndexedBlock) {h : H256}
    (hh : w.storage.containsBlock (.hash h)) :
    (w.verifyBlock verifier chain block).storage.containsBlock (.hash h) := by
  rcases verifyBlock_cases w block with ⟨_, -, he⟩ | ⟨-, he⟩ <;> rw [he]
  · exact hh
  · exact chain.contains_mono _ _ _ hh

theorem storage_verifyBlock_sub (w : BlocksWriter) (block : IndexedBlock) {h : H256}
    (hh : (w.verifyBlock verifier chain block).storage.containsBlock (.hash h)) :
    w.storage.containsBlock (.hash h) ∨ h = block.hash := by
  rcases verifyBlock_cases w block with ⟨_, -, he⟩ | ⟨-, he⟩ <;> rw [he] at hh
  · exact .inl hh
  · exact chain.contains_new _ _ _ hh

/-- A verification that leaves no error in an empty slot passed the verifier and stored the
block. -/
theorem verifyBlock_ok (w : BlocksWriter) (block : IndexedBlock) (hw : w.err = none)
    (hok : (w.verifyBlock verifier chain block).err = none) :
    verifier w.storage block = .ok () ∧
      (w.verifyBlock verifier chain block).storage.containsBlock (.hash block.hash) := by
  rcases verifyBlock_cases w block with ⟨_, -, he⟩ | ⟨hv, he⟩ <;> rw [he] at hok ⊢
  · cases hok
  · refine ⟨hv, chain.contains_of_ok _ _ ?_⟩
    revert hok
    simp only [onBlockVerificationSuccess]
    split <;> simp_all

/-! ## The verification loop -/

theorem verifyQueue_cons (w : BlocksWriter) (block : IndexedBlock) (rest : List IndexedBlock) :
    verifyQueue verifier chain w (block :: rest) =
      match (w.verifyBlock verifier chain block).err with
      | some err => ({ w.verifyBlock verifier chain block with err := none }, .error err)
      | none => verifyQueue verifier chain (w.verifyBlock verifier chain block) rest := rfl

@[simp] theorem orphanedBlocksPool_verifyQueue :
    ∀ (w : BlocksWriter) (queue : List IndexedBlock),
      (verifyQueue verifier chain w queue).1.orphanedBlocksPool = w.orphanedBlocksPool
  | w, [] => rfl
  | w, block :: rest => by
    rw [verifyQueue_cons]
    split
    · simp
    · rw [orphanedBlocksPool_verifyQueue, orphanedBlocksPool_verifyBlock]

theorem err_verifyQueue : ∀ (w : BlocksWriter) (queue : List IndexedBlock), w.err = none →
    (verifyQueue verifier chain w queue).1.err = none
  | w, [], hw => hw
  | w, block :: rest, hw => by
    rw [verifyQueue_cons]
    split
    · rfl
    · exact err_verifyQueue _ rest ‹_›

theorem storage_verifyQueue_mono : ∀ (w : BlocksWriter) (queue : List IndexedBlock) {h : H256},
    w.storage.containsBlock (.hash h) →
      (verifyQueue verifier chain w queue).1.storage.containsBlock (.hash h)
  | w, [], _, hh => hh
  | w, block :: rest, _, hh => by
    rw [verifyQueue_cons]
    split
    · exact storage_verifyBlock_mono w block hh
    · exact storage_verifyQueue_mono _ rest (storage_verifyBlock_mono w block hh)

theorem storage_verifyQueue_sub : ∀ (w : BlocksWriter) (queue : List IndexedBlock) {h : H256},
    (verifyQueue verifier chain w queue).1.storage.containsBlock (.hash h) →
      w.storage.containsBlock (.hash h) ∨ h ∈ queue.map IndexedBlock.hash
  | w, [], _, hh => .inl hh
  | w, block :: rest, h, hh => by
    rw [verifyQueue_cons] at hh
    split at hh
    · rcases storage_verifyBlock_sub w block hh with h1 | h1 <;> simp_all
    · rcases storage_verifyQueue_sub _ rest hh with h1 | h1
      · rcases storage_verifyBlock_sub w block h1 with h2 | h2 <;> simp_all
      · simp_all

/-- **A loop that returns `Ok` has stored every queued block.** -/
theorem verifyQueue_ok_contains : ∀ (w : BlocksWriter) (queue : List IndexedBlock),
    w.err = none → (verifyQueue verifier chain w queue).2 = .ok () →
      ∀ b ∈ queue, (verifyQueue verifier chain w queue).1.storage.containsBlock (.hash b.hash)
  | w, [], _, _, b, hb => by simp at hb
  | w, block :: rest, hw, hok, b, hb => by
    rw [verifyQueue_cons] at hok ⊢
    split at hok
    · cases hok
    · rename_i herr
      rcases List.mem_cons.mp hb with rfl | hb
      · exact storage_verifyQueue_mono _ rest (verifyBlock_ok w b hw herr).2
      · exact verifyQueue_ok_contains _ rest herr hok b hb

/-! ## The three branches of `append_block` -/

variable {w : BlocksWriter} {block : IndexedBlock}

theorem appendBlock_of_contains (h : w.storage.containsBlock (.hash block.hash)) :
    w.appendBlock verifier chain drain block = (w, .ok ()) := by
  simp [appendBlock, h]

theorem appendBlock_of_orphan (h : w.storage.containsBlock (.hash block.hash) = false)
    (hp : w.storage.containsBlock (.hash block.parent) = false) :
    w.appendBlock verifier chain drain block =
      ({ w with orphanedBlocksPool := w.orphanedBlocksPool.insertOrphanedBlock block },
        if (w.orphanedBlocksPool.insertOrphanedBlock block).len > maxOrphanedBlocks then
          .error .tooManyOrphanBlocks
        else .ok ()) := by
  simp only [appendBlock, h, hp, Bool.false_eq_true, Bool.not_false, ↓reduceIte]
  split <;> rfl

theorem appendBlock_of_parent (h : w.storage.containsBlock (.hash block.hash) = false)
    (hp : w.storage.containsBlock (.hash block.parent)) :
    w.appendBlock verifier chain drain block =
      verifyQueue verifier chain
        { w with orphanedBlocksPool := ⟨(drain.run block.hash w.orphanedBlocksPool.blocks).2⟩ }
        (block :: (drain.run block.hash w.orphanedBlocksPool.blocks).1) := by
  simp [appendBlock, h, hp, OrphanBlocksPool.removeBlocksForParent]

end BlocksWriter

end RandchainSync
