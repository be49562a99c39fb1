import Mathlib.Data.BitVec

/-!
# Blocks, and the read side of the block store

The sync layer sees a block through its precomputed hash and the hash of its parent, and the
store through `storage::BlockProvider`: lookups by number or by hash, and `contains_block`,
whose default asks for the header bytes.

## Main definitions

* `H256`, `BlockRef`: hashes, and the two ways of naming a block
* `IndexedBlockHeader`, `IndexedBlock`: a header or block with its hash
* `BlockProvider`: the store as the sync layer reads it
-/

namespace RandchainSync

/-- `primitives::hash::H256`: 32 bytes, compared only for equality here. -/
structure H256 where
  bits : BitVec 256
  deriving DecidableEq, Repr

/-- The hash whose 256 bits are the number `n`, modulo `2 ^ 256`. -/
def H256.ofNat (n : Nat) : H256 := ⟨BitVec.ofNat 256 n⟩

instance (n : Nat) : OfNat H256 n := ⟨H256.ofNat n⟩

theorem H256.ofNat_inj {m n : Nat} (hm : m < 2 ^ 256) (hn : n < 2 ^ 256) :
    H256.ofNat m = H256.ofNat n ↔ m = n := by
  refine ⟨fun h => ?_, congrArg _⟩
  have := congrArg (fun x : H256 => x.bits.toNat) h
  simp only [H256.ofNat, BitVec.toNat_ofNat] at this
  rwa [Nat.mod_eq_of_lt hm, Nat.mod_eq_of_lt hn] at this

theorem H256.zero_eq : (0 : H256) = H256.ofNat 0 := rfl

/-- `H256::default()` is the zero hash. -/
instance : Inhabited H256 := ⟨0⟩

/-- `utils::BlockHeight`, a `u32`. -/
abbrev BlockHeight := UInt32

/-- `storage::BlockRef`: a block named by its height on the main chain or by its hash. -/
inductive BlockRef where
  | number (n : BlockHeight)
  | hash (h : H256)
  deriving DecidableEq, Repr

/-- The part of `chain::BlockHeader` that the sync layer reads. The other header fields are
only carried along, and are left out. -/
structure BlockHeader where
  previousHeaderHash : H256
  deriving DecidableEq, Repr

/-- `chain::IndexedBlockHeader`: a header with its precomputed hash. -/
structure IndexedBlockHeader where
  hash : H256
  raw : BlockHeader
  deriving DecidableEq, Repr

/-- `chain::IndexedBlock`, without its transactions, which no function here reads. -/
structure IndexedBlock where
  header : IndexedBlockHeader
  deriving DecidableEq, Repr

/-- `IndexedBlock::hash`. -/
def IndexedBlock.hash (b : IndexedBlock) : H256 := b.header.hash

/-- The hash of the parent block. -/
def IndexedBlock.parent (b : IndexedBlock) : H256 := b.header.raw.previousHeaderHash

/-- Serialized header bytes. -/
abbrev Bytes := List UInt8

/-- **`storage::BlockProvider`**, with its supertrait `BlockHeaderProvider`: the store as a
snapshot of lookups. `containsBlock` is the trait's default method unless an implementation
overrides it. -/
structure BlockProvider where
  blockHeaderBytes : BlockRef → Option Bytes
  blockHeader : BlockRef → Option IndexedBlockHeader
  blockNumber : H256 → Option BlockHeight
  blockHash : BlockHeight → Option H256
  block : BlockRef → Option IndexedBlock
  containsBlock : BlockRef → Bool := fun blockRef => (blockHeaderBytes blockRef).isSome

/-- A store with no blocks. -/
def BlockProvider.empty : BlockProvider :=
  ⟨fun _ => none, fun _ => none, fun _ => none, fun _ => none, fun _ => none, fun _ => false⟩

end RandchainSync
