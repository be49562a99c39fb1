import RandchainSync.Storage.BlockProvider

/-!
# Wire messages, outbound tasks and server tasks

The messages the request server answers and emits, the outbound tasks it hands to the
`TaskExecutor`, and `ServerTask`, the unit of work queued per peer.

## Main definitions

* `InventoryVector`, `GetData`, `NotFound`, `GetBlocks`, `GetHeaders`, `Inv`, `Headers`
* `Task`: the outbound tasks of `synchronization_executor` that the server emits
* `ServerTask`, `ServerTask.peerIndex`
-/

namespace RandchainSync

/-- `types::PeerIndex`, a `usize`; peers are only compared for equality. -/
abbrev PeerIndex := Nat

/-- `types::RequestId`, a `u32`. -/
abbrev RequestId := UInt32

/-- `types::GETBLOCKS_MAX_RESPONSE_HASHES`. -/
def getblocksMaxResponseHashes : Nat := 500

/-- `types::GETHEADERS_MAX_RESPONSE_HEADERS`. -/
def getheadersMaxResponseHeaders : Nat := 2000

/-- `common::InventoryType`, with the two variants the server matches on. -/
inductive InventoryType where
  | error
  | messageBlock
  deriving DecidableEq, Repr

/-- `common::InventoryVector`. -/
structure InventoryVector where
  invType : InventoryType
  hash : H256
  deriving DecidableEq, Repr

/-- `InventoryVector::block`. -/
def InventoryVector.block (hash : H256) : InventoryVector := ⟨.messageBlock, hash⟩

/-- `types::GetData`. -/
structure GetData where
  inventory : List InventoryVector
  deriving DecidableEq, Repr

/-- `types::NotFound`. -/
structure NotFound where
  inventory : List InventoryVector
  deriving DecidableEq, Repr

/-- `types::GetBlocks`. -/
structure GetBlocks where
  version : UInt32
  blockLocatorHashes : List H256
  hashStop : H256
  deriving DecidableEq, Repr

/-- `types::GetHeaders`. -/
structure GetHeaders where
  version : UInt32
  blockLocatorHashes : List H256
  hashStop : H256
  deriving DecidableEq, Repr

/-- `types::Inv`. -/
structure Inv where
  inventory : List InventoryVector
  deriving DecidableEq, Repr

/-- `types::Headers`. -/
structure Headers where
  headers : List BlockHeader
  deriving DecidableEq, Repr

/-- The variants of `synchronization_executor::Task` that the server emits. -/
inductive Task where
  | block (peerIndex : PeerIndex) (block : IndexedBlock)
  | inventory (peerIndex : PeerIndex) (inv : Inv)
  | headers (peerIndex : PeerIndex) (headers : Headers) (requestId : Option RequestId)
  | notFound (peerIndex : PeerIndex) (notFound : NotFound)
  deriving DecidableEq, Repr

/-- The peer an outbound task is sent to. -/
def Task.peerIndex : Task → PeerIndex
  | .block p _ | .inventory p _ | .headers p _ _ | .notFound p _ => p

/-- **`ServerTask`**: a request of a peer, or the continuation of a `getdata` request. -/
inductive ServerTask where
  | getData (peerIndex : PeerIndex) (message : GetData)
  | reversedGetData (peerIndex : PeerIndex) (message : GetData) (notfound : NotFound)
  | getBlocks (peerIndex : PeerIndex) (message : GetBlocks)
  | getHeaders (peerIndex : PeerIndex) (message : GetHeaders) (requestId : RequestId)
  | mempool (peerIndex : PeerIndex)
  deriving DecidableEq, Repr

/-- `ServerTask::peer_index`. -/
def ServerTask.peerIndex : ServerTask → PeerIndex
  | .getData p _ | .reversedGetData p _ _ | .getBlocks p _ | .getHeaders p _ _ | .mempool p => p

end RandchainSync
