import RandchainSync.Message.Types

/-!
# The task executor of the request server

`ServerTaskExecutor::execute` serves one `ServerTask`: it sends outbound tasks to the node's
`TaskExecutor`, reports a peer to `Peers::misbehaving`, and may return a continuation, which
the worker queues at the front of the peer's deque. Here the two outputs are the `Effect`s an
execution returns, in the order the code makes them.

A `getdata` request is served one item per call: `serve_get_data` reverses the inventory, and
each `serve_reversed_get_data` pops the last item. `getblocks` and `getheaders` first look for
the best common block; its inner loop walks back through stored headers and need not end on a
store whose headers form a cycle, so the walk takes a `fuel` bound and returns `none` when the
bound, not the loop, ended it. Heights are `u32` and add with wrap-around, as in a release
build.

## Main definitions

* `Effect`: a task for the `TaskExecutor`, or a misbehaviour report
* `ServerTaskExecutor.walkFork`, `ServerTaskExecutor.locateBestCommonBlock`
* `ServerTaskExecutor.serveGetData`, `serveReversedGetData`, `serveGetBlocks`, `serveGetHeaders`,
  `serveMempool`, `execute`
* `ServerTaskExecutor.executeChain`: a request and its continuations, run to the end
-/

namespace RandchainSync

/-- What serving a task does outside the server: `TaskExecutor::execute` of an outbound task,
or `Peers::misbehaving`. -/
inductive Effect where
  | execute (task : Task)
  | misbehaving (peerIndex : PeerIndex) (reason : String)
  deriving DecidableEq, Repr

/-- The peer an effect is for. -/
def Effect.peerIndex : Effect → PeerIndex
  | .execute task => task.peerIndex
  | .misbehaving peerIndex _ => peerIndex

/-- `Vec::pop`: the last element, and the rest. -/
def vecPop {α : Type} (v : List α) : Option (α × List α) :=
  v.getLast?.map fun a => (a, v.dropLast)

@[simp] theorem vecPop_nil {α : Type} : vecPop ([] : List α) = none := rfl

@[simp] theorem vecPop_concat {α : Type} (v : List α) (a : α) :
    vecPop (v ++ [a]) = some (a, v) := by
  simp [vecPop]

/-- `iter.take_while(Option::is_some).map(Option::unwrap)`. -/
def takeWhileSome {α : Type} : List (Option α) → List α
  | some a :: l => a :: takeWhileSome l
  | _ => []

/-- The `u32` range `start..end`: empty unless `start < end`. -/
def u32Range (start stop : UInt32) : List UInt32 :=
  (List.range (stop.toNat - start.toNat)).map fun k => start + k.toUInt32

/-- **`ServerTaskExecutor`**. Its `peers` and `executor` only receive what the server emits,
which the model returns as `Effect`s; what the executor reads is the store. -/
structure ServerTaskExecutor where
  storage : BlockProvider

namespace ServerTaskExecutor

variable (self : ServerTaskExecutor)

/-! ## `locate_best_common_block` -/

/-- The inner loop of `locate_best_common_block` from `blockHash`, for at most `fuel`
iterations: `some (some n)` when it returns the height `n`, `some none` at the `break` on a
missing header, `none` when `fuel` iterations did not end it. -/
def walkFork : Nat → H256 → Option (Option BlockHeight)
  | 0, _ => none
  | fuel + 1, blockHash =>
    match self.storage.blockHeader (.hash blockHash) with
    | none => some none
    | some blockHeader =>
      match self.storage.blockNumber blockHeader.raw.previousHeaderHash with
      | some blockNumber => some (some blockNumber)
      | none => walkFork fuel blockHeader.raw.previousHeaderHash

/-- The outer loop of `locate_best_common_block`, over `locator.iter().chain(&[hash_stop])`. -/
def locateIn (fuel : Nat) : List H256 → Option (Option BlockHeight)
  | [] => some none
  | blockHash :: rest =>
    match self.storage.blockNumber blockHash with
    | some blockNumber => some (some blockNumber)
    | none =>
      match self.walkFork fuel blockHash with
      | none => none
      | some (some blockNumber) => some (some blockNumber)
      | some none => locateIn fuel rest

/-- **`ServerTaskExecutor::locate_best_common_block`**, each fork walk bounded by `fuel`. -/
def locateBestCommonBlock (fuel : Nat) (hashStop : H256) (locator : List H256) :
    Option (Option BlockHeight) :=
  self.locateIn fuel (locator ++ [hashStop])

/-! ## Serving -/

/-- The hashes `serve_get_blocks` and `serve_get_headers` collect: those of the main-chain
blocks above `blockHeight`, at most `maxCount`, up to the first missing one or `hashStop`. -/
def successorHashes (blockHeight : BlockHeight) (maxCount : Nat) (hashStop : H256) : List H256 :=
  (takeWhileSome ((u32Range (blockHeight + 1) (blockHeight + 1 + maxCount.toUInt32)).map
    self.storage.blockHash)).takeWhile (· != hashStop)

/-- **`ServerTaskExecutor::serve_get_data`**: the continuation with the inventory reversed and
an empty `notfound`. -/
def serveGetData (peerIndex : PeerIndex) (message : GetData) : Option ServerTask :=
  some (.reversedGetData peerIndex { message with inventory := message.inventory.reverse } ⟨[]⟩)

/-- **`ServerTaskExecutor::serve_reversed_get_data`**: serve the last item of the reversed
inventory; with none left, send the accumulated `notfound` if it is not empty, and end. -/
def serveReversedGetData (peerIndex : PeerIndex) (message : GetData) (notfound : NotFound) :
    List Effect × Option ServerTask :=
  match vecPop message.inventory with
  | none =>
    (if !notfound.inventory.isEmpty then [.execute (.notFound peerIndex notfound)] else [], none)
  | some (nextItem, inventory) =>
    let message := { message with inventory := inventory }
    match nextItem.invType with
    | .messageBlock =>
      match self.storage.block (.hash nextItem.hash) with
      | some block =>
        ([.execute (.block peerIndex block)], some (.reversedGetData peerIndex message notfound))
      | none =>
        ([], some (.reversedGetData peerIndex message
          { notfound with inventory := notfound.inventory ++ [nextItem] }))
    | .error => ([], some (.reversedGetData peerIndex message notfound))

/-- **`ServerTaskExecutor::serve_get_blocks`**. -/
def serveGetBlocks (fuel : Nat) (peerIndex : PeerIndex) (message : GetBlocks) :
    Option (List Effect) :=
  (self.locateBestCommonBlock fuel message.hashStop message.blockLocatorHashes).map fun
    | some blockHeight =>
      let inventory := (self.successorHashes blockHeight getblocksMaxResponseHashes
        message.hashStop).map InventoryVector.block
      -- empty inventory messages are invalid according to regtests
      if !inventory.isEmpty then [.execute (.inventory peerIndex ⟨inventory⟩)] else []
    | none => [.misbehaving peerIndex "Got 'getblocks' message without known blocks"]

/-- **`ServerTaskExecutor::serve_get_headers`**: the headers of the hashes `serve_get_blocks`
would send, up to the first missing header; an empty `headers` message is sent too. -/
def serveGetHeaders (fuel : Nat) (peerIndex : PeerIndex) (message : GetHeaders)
    (requestId : RequestId) : Option (List Effect) :=
  (self.locateBestCommonBlock fuel message.hashStop message.blockLocatorHashes).map fun
    | some blockHeight =>
      let headers := (takeWhileSome ((self.successorHashes blockHeight getheadersMaxResponseHeaders
        message.hashStop).map fun blockHash => self.storage.blockHeader (.hash blockHash))).map
        (·.raw)
      [.execute (.headers peerIndex ⟨headers⟩ (some requestId))]
    | none => [.misbehaving peerIndex "Got 'headers' message without known blocks"]

/-- **`ServerTaskExecutor::serve_mempool`**: the memory pool is always empty. -/
def serveMempool (_peerIndex : PeerIndex) : List Effect := []

/-- **`ServerTaskExecutor::execute`**: the effects of serving `task`, and its continuation;
`none` when a fork walk did not end within `fuel` iterations. -/
def execute (fuel : Nat) : ServerTask → Option (List Effect × Option ServerTask)
  | .getData peerIndex message => some ([], serveGetData peerIndex message)
  | .reversedGetData peerIndex message notfound =>
    some (self.serveReversedGetData peerIndex message notfound)
  | .getBlocks peerIndex message => (self.serveGetBlocks fuel peerIndex message).map (·, none)
  | .getHeaders peerIndex message requestId =>
    (self.serveGetHeaders fuel peerIndex message requestId).map (·, none)
  | .mempool peerIndex => some (serveMempool peerIndex, none)

theorem serveGetBlocks_peerIndex {fuel : Nat} {peerIndex : PeerIndex} {message : GetBlocks}
    {effects : List Effect} (h : self.serveGetBlocks fuel peerIndex message = some effects) :
    ∀ e ∈ effects, e.peerIndex = peerIndex := by
  obtain ⟨r, -, rfl⟩ := Option.map_eq_some'.mp h
  cases r with
  | none => simp [Effect.peerIndex]
  | some => dsimp only; split <;> simp [Effect.peerIndex, Task.peerIndex]

theorem serveGetHeaders_peerIndex {fuel : Nat} {peerIndex : PeerIndex} {message : GetHeaders}
    {requestId : RequestId} {effects : List Effect}
    (h : self.serveGetHeaders fuel peerIndex message requestId = some effects) :
    ∀ e ∈ effects, e.peerIndex = peerIndex := by
  obtain ⟨r, -, rfl⟩ := Option.map_eq_some'.mp h
  cases r <;> simp [Effect.peerIndex, Task.peerIndex]

/-- **Serving a task concerns only its peer**: every effect, and the continuation, are for the
task's peer. -/
theorem execute_peerIndex {fuel : Nat} {task : ServerTask} {effects : List Effect}
    {next : Option ServerTask} (h : self.execute fuel task = some (effects, next)) :
    (∀ e ∈ effects, e.peerIndex = task.peerIndex) ∧ ∀ c ∈ next, c.peerIndex = task.peerIndex := by
  cases task with
  | getData p m =>
    obtain ⟨rfl, rfl⟩ := Prod.mk.inj (Option.some.inj h).symm
    simp [serveGetData, ServerTask.peerIndex]
  | reversedGetData p m nf =>
    replace h := (Option.some.inj h).symm
    unfold serveReversedGetData at h
    split at h
    · obtain ⟨rfl, rfl⟩ := Prod.mk.inj h
      split <;> simp [Effect.peerIndex, Task.peerIndex, ServerTask.peerIndex]
    · split at h
      · split at h <;> obtain ⟨rfl, rfl⟩ := Prod.mk.inj h <;>
          simp [Effect.peerIndex, Task.peerIndex, ServerTask.peerIndex]
      · obtain ⟨rfl, rfl⟩ := Prod.mk.inj h
        simp [ServerTask.peerIndex]
  | getBlocks p m =>
    obtain ⟨es, hes, he⟩ := Option.map_eq_some'.mp h
    obtain ⟨rfl, rfl⟩ := Prod.mk.inj he
    exact ⟨self.serveGetBlocks_peerIndex hes, by simp⟩
  | getHeaders p m requestId =>
    obtain ⟨es, hes, he⟩ := Option.map_eq_some'.mp h
    obtain ⟨rfl, rfl⟩ := Prod.mk.inj he
    exact ⟨self.serveGetHeaders_peerIndex hes, by simp⟩
  | mempool p =>
    obtain ⟨rfl, rfl⟩ := Prod.mk.inj (Option.some.inj h).symm
    simp [serveMempool]

/-- `execute` on `task` and then on each continuation it returns, for at most `n` calls: the
effects, in order, and the continuation still to run after the last call, if any. -/
def executeChain (fuel : Nat) : Nat → ServerTask → Option (List Effect × Option ServerTask)
  | 0, task => some ([], some task)
  | n + 1, task =>
    (self.execute fuel task).bind fun
      | (effects, none) => some (effects, none)
      | (effects, some next) =>
        (executeChain fuel n next).map fun (effects', rest) => (effects ++ effects', rest)

theorem executeChain_succ_of_execute {fuel n : Nat} {task next : ServerTask} {effects : List Effect}
    (h : self.execute fuel task = some (effects, some next)) :
    self.executeChain fuel (n + 1) task =
      (self.executeChain fuel n next).map fun (effects', rest) => (effects ++ effects', rest) := by
  simp [executeChain, h]

theorem executeChain_succ_of_done {fuel n : Nat} {task : ServerTask} {effects : List Effect}
    (h : self.execute fuel task = some (effects, none)) :
    self.executeChain fuel (n + 1) task = some (effects, none) := by
  simp [executeChain, h]

end ServerTaskExecutor

end RandchainSync
