import Mathlib.Data.List.Perm.Basic
import RandchainSync.Storage.BlockProvider

/-!
# The orphan pool

`utils::OrphanBlocksPool` is not under src/; §4.2 of the spec fixes what the importer uses of
it. It holds at most one block per hash, and `remove_blocks_for_parent h` removes every pooled
block that descends from `h`, directly or through other pooled blocks, ancestors first. The
spec leaves the order of siblings open, so the drain is any function meeting that contract
(`Drain`); `insertionOrderDrain` is one.

## Main definitions

* `OrphanBlocksPool`: the pooled blocks, with `insertOrphanedBlock`, `len`, `hashes`
* `AncestorFirst root blocks`: each block's parent is a root or an earlier block
* `Drain`: a `remove_blocks_for_parent` meeting §4.2
* `insertionOrderDrain`: the drain that takes the first eligible pooled block each time

## Main results

* `drainFrom_perm`, `drainFrom_ancestorFirst`, `drainFrom_maximal`: the drain in insertion order
  meets §4.2
* `AncestorFirst.mono`: the ancestor-first order survives a larger set of roots
-/

namespace RandchainSync

/-- Modelled from the spec: `utils::OrphanBlocksPool`, §4.2. The pooled blocks, oldest
first. -/
structure OrphanBlocksPool where
  blocks : List IndexedBlock
  deriving DecidableEq, Repr

namespace OrphanBlocksPool

/-- Modelled from the spec: `OrphanBlocksPool::new`. -/
def new : OrphanBlocksPool := ⟨[]⟩

/-- The hashes of the pooled blocks. -/
def hashes (pool : OrphanBlocksPool) : List H256 := pool.blocks.map IndexedBlock.hash

/-- Modelled from the spec: `insert_orphaned_block`, idempotent on the hash. -/
def insertOrphanedBlock (pool : OrphanBlocksPool) (block : IndexedBlock) : OrphanBlocksPool :=
  if block.hash ∈ pool.hashes then pool else ⟨pool.blocks ++ [block]⟩

/-- Modelled from the spec: `len`, the number of pooled blocks. -/
def len (pool : OrphanBlocksPool) : Nat := pool.blocks.length

@[simp] theorem hashes_new : new.hashes = [] := rfl

@[simp] theorem blocks_new : new.blocks = [] := rfl

theorem mem_insertOrphanedBlock {pool : OrphanBlocksPool} {block x : IndexedBlock}
    (h : x ∈ (pool.insertOrphanedBlock block).blocks) : x ∈ pool.blocks ∨ x = block := by
  unfold insertOrphanedBlock at h
  split at h <;> simp_all

theorem mem_insertOrphanedBlock_of_mem {pool : OrphanBlocksPool} {block x : IndexedBlock}
    (h : x ∈ pool.blocks) : x ∈ (pool.insertOrphanedBlock block).blocks := by
  unfold insertOrphanedBlock
  split <;> simp [h]

theorem hash_mem_insertOrphanedBlock (pool : OrphanBlocksPool) (block : IndexedBlock) :
    block.hash ∈ (pool.insertOrphanedBlock block).hashes := by
  unfold insertOrphanedBlock
  split <;> simp_all [hashes]

theorem hashes_insertOrphanedBlock_nodup {pool : OrphanBlocksPool} (block : IndexedBlock)
    (h : pool.hashes.Nodup) : (pool.insertOrphanedBlock block).hashes.Nodup := by
  unfold insertOrphanedBlock
  split
  · exact h
  · simp_all [hashes, List.nodup_append]

theorem len_insertOrphanedBlock {pool : OrphanBlocksPool} {block : IndexedBlock}
    (h : block.hash ∉ pool.hashes) : (pool.insertOrphanedBlock block).len = pool.len + 1 := by
  simp [insertOrphanedBlock, h, len]

theorem insertOrphanedBlock_of_mem {pool : OrphanBlocksPool} {block : IndexedBlock}
    (h : block.hash ∈ pool.hashes) : pool.insertOrphanedBlock block = pool := by
  simp [insertOrphanedBlock, h]

end OrphanBlocksPool

/-! ## Ancestor-first lists

A drained list is committed front to back, so each block must find its parent either among
the roots (the block just committed, or the store) or earlier in the list. -/

/-- The parent of each block of `blocks` is accepted by `root` or is an earlier block. -/
def AncestorFirst (root : H256 → Prop) : List IndexedBlock → Prop
  | [] => True
  | b :: rest => root b.parent ∧ AncestorFirst (fun h => h = b.hash ∨ root h) rest

@[simp] theorem ancestorFirst_nil (root : H256 → Prop) : AncestorFirst root [] := trivial

@[simp] theorem ancestorFirst_cons (root : H256 → Prop) (b : IndexedBlock)
    (rest : List IndexedBlock) :
    AncestorFirst root (b :: rest) ↔
      root b.parent ∧ AncestorFirst (fun h => h = b.hash ∨ root h) rest := Iff.rfl

theorem AncestorFirst.mono {root root' : H256 → Prop} (hr : ∀ h, root h → root' h) :
    ∀ {blocks : List IndexedBlock}, AncestorFirst root blocks → AncestorFirst root' blocks
  | [], _ => trivial
  | _ :: _, ⟨hb, hrest⟩ => ⟨hr _ hb, AncestorFirst.mono (fun h => Or.imp_right (hr h)) hrest⟩

/-! ## The drain -/

/-- Modelled from the spec: `remove_blocks_for_parent`, §4.2. From the pooled blocks, `run h`
returns the removed blocks and the kept ones. Together they are the pool; the removed blocks
come ancestors first from `h`; and no kept block has `h` or a removed block as its parent. -/
structure Drain where
  run : H256 → List IndexedBlock → List IndexedBlock × List IndexedBlock
  perm : ∀ h blocks, ((run h blocks).1 ++ (run h blocks).2).Perm blocks
  ancestorFirst : ∀ h blocks, AncestorFirst (· = h) (run h blocks).1
  maximal : ∀ h blocks, ∀ b ∈ (run h blocks).2,
    b.parent ≠ h ∧ b.parent ∉ (run h blocks).1.map IndexedBlock.hash

/-- Modelled from the spec: `remove_blocks_for_parent` on the pool. -/
def OrphanBlocksPool.removeBlocksForParent (drain : Drain) (pool : OrphanBlocksPool)
    (hash : H256) : List IndexedBlock × OrphanBlocksPool :=
  ((drain.run hash pool.blocks).1, ⟨(drain.run hash pool.blocks).2⟩)

namespace Drain

variable (drain : Drain)

theorem mem_of_mem_removed {h : H256} {blocks : List IndexedBlock} {b : IndexedBlock}
    (hb : b ∈ (drain.run h blocks).1) : b ∈ blocks :=
  (drain.perm h blocks).mem_iff.mp (List.mem_append_left _ hb)

theorem mem_of_mem_kept {h : H256} {blocks : List IndexedBlock} {b : IndexedBlock}
    (hb : b ∈ (drain.run h blocks).2) : b ∈ blocks :=
  (drain.perm h blocks).mem_iff.mp (List.mem_append_right _ hb)

theorem mem_removed_or_kept {h : H256} {blocks : List IndexedBlock} {b : IndexedBlock}
    (hb : b ∈ blocks) : b ∈ (drain.run h blocks).1 ∨ b ∈ (drain.run h blocks).2 :=
  List.mem_append.mp ((drain.perm h blocks).mem_iff.mpr hb)

end Drain

/-! ## A drain in insertion order -/

/-- Takes, while there is one, the first block whose parent is a root, and makes its hash a
root. `fuel` bounds the number of blocks taken. -/
def drainFrom : Nat → List H256 → List IndexedBlock → List IndexedBlock × List IndexedBlock
  | 0, _, blocks => ([], blocks)
  | fuel + 1, roots, blocks =>
    match blocks.find? (fun b => decide (b.parent ∈ roots)) with
    | none => ([], blocks)
    | some b =>
      let rest := drainFrom fuel (b.hash :: roots) (blocks.erase b)
      (b :: rest.1, rest.2)

theorem drainFrom_perm :
    ∀ (fuel : Nat) (roots : List H256) (blocks : List IndexedBlock),
      ((drainFrom fuel roots blocks).1 ++ (drainFrom fuel roots blocks).2).Perm blocks
  | 0, _, _ => List.Perm.refl _
  | fuel + 1, roots, blocks => by
    unfold drainFrom
    split
    · exact List.Perm.refl _
    · rename_i b hb
      exact ((drainFrom_perm fuel _ _).cons b).trans
        (List.perm_cons_erase (List.mem_of_find?_eq_some hb)).symm

theorem drainFrom_ancestorFirst :
    ∀ (fuel : Nat) (roots : List H256) (blocks : List IndexedBlock),
      AncestorFirst (· ∈ roots) (drainFrom fuel roots blocks).1
  | 0, _, _ => trivial
  | fuel + 1, roots, blocks => by
    unfold drainFrom
    split
    · trivial
    · rename_i b hb
      refine ⟨by simpa using List.find?_some hb, ?_⟩
      exact (drainFrom_ancestorFirst fuel _ _).mono fun h hh => List.mem_cons.mp hh

theorem drainFrom_maximal :
    ∀ (fuel : Nat) (roots : List H256) (blocks : List IndexedBlock), blocks.length ≤ fuel →
      ∀ c ∈ (drainFrom fuel roots blocks).2,
        c.parent ∉ roots ∧ c.parent ∉ (drainFrom fuel roots blocks).1.map IndexedBlock.hash
  | 0, roots, blocks, hlen => by
    simp_all [drainFrom, List.length_eq_zero.mp (Nat.le_zero.mp hlen)]
  | fuel + 1, roots, blocks, hlen => by
    unfold drainFrom
    split
    · rename_i hnone
      intro c hc
      simpa using List.find?_eq_none.mp hnone c hc
    · rename_i b hb
      have hlen' : (blocks.erase b).length ≤ fuel := by
        rw [List.length_erase_of_mem (List.mem_of_find?_eq_some hb)]
        omega
      intro c hc
      have := drainFrom_maximal fuel (b.hash :: roots) (blocks.erase b) hlen' c hc
      simp_all

/-- The drain that takes the first eligible block in insertion order each time. -/
def insertionOrderDrain : Drain where
  run h blocks := drainFrom blocks.length [h] blocks
  perm h blocks := drainFrom_perm _ _ _
  ancestorFirst h blocks :=
    (drainFrom_ancestorFirst _ _ _).mono fun _ hh => List.mem_singleton.mp hh
  maximal h blocks c hc := by
    simpa using drainFrom_maximal _ [h] blocks le_rfl c hc

end RandchainSync
