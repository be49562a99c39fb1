import RandchainSync.Server.Executor

/-!
# Serving a `getdata` request end to end

`serve_get_data` reverses the inventory so that each `serve_reversed_get_data` can pop the
next item from the back; a block found is sent at once, a block missing is kept for one
`notfound` at the end, and an `Error` item is dropped. Over a store that does not change, the
request takes one call, then one call per item, then one last call that sends the `notfound`
and ends.

## Main definitions

* `ServerTaskExecutor.getDataBlocks`, `getDataMissing`, `getDataResponse`: the response, written
  from the description of the request rather than from the code

## Main results

* `serveReversedGetData_concat`: one call serves one item
* `executeChain_reversedGetData`: the continuations, run to the end
* `executeChain_getData`: the whole request takes `inventory.length + 2` calls and sends exactly
  `getDataResponse`
-/

namespace RandchainSync

namespace ServerTaskExecutor

variable (self : ServerTaskExecutor)

/-- The `Block` messages for the block items of `inventory` found in the store, in order. -/
def getDataBlocks (peerIndex : PeerIndex) (inventory : List InventoryVector) : List Effect :=
  inventory.filterMap fun item =>
    if item.invType = .messageBlock then
      (self.storage.block (.hash item.hash)).map fun block => .execute (.block peerIndex block)
    else none

/-- The block items of `inventory` the store does not have, in order. -/
def getDataMissing (inventory : List InventoryVector) : List InventoryVector :=
  inventory.filter fun item =>
    item.invType = .messageBlock ∧ self.storage.block (.hash item.hash) = none

/-- The `notfound` sent at the end: none when nothing was missing. -/
def notFoundEffect (peerIndex : PeerIndex) (missing : List InventoryVector) : List Effect :=
  if missing.isEmpty then [] else [.execute (.notFound peerIndex ⟨missing⟩)]

/-- **The response to `getdata`**: the blocks found, in inventory order, then one `notfound`
listing the missing block items, if there are any. -/
def getDataResponse (peerIndex : PeerIndex) (inventory : List InventoryVector) : List Effect :=
  self.getDataBlocks peerIndex inventory ++ notFoundEffect peerIndex (self.getDataMissing inventory)

theorem getDataBlocks_append (peerIndex : PeerIndex) (l₁ l₂ : List InventoryVector) :
    self.getDataBlocks peerIndex (l₁ ++ l₂) =
      self.getDataBlocks peerIndex l₁ ++ self.getDataBlocks peerIndex l₂ :=
  List.filterMap_append _ _ _

theorem getDataMissing_append (l₁ l₂ : List InventoryVector) :
    self.getDataMissing (l₁ ++ l₂) = self.getDataMissing l₁ ++ self.getDataMissing l₂ :=
  List.filter_append _ _

/-- One call of `serve_reversed_get_data` serves the last item of the reversed inventory. -/
theorem serveReversedGetData_concat (peerIndex : PeerIndex) (inventory : List InventoryVector)
    (item : InventoryVector) (notfound : List InventoryVector) :
    self.serveReversedGetData peerIndex ⟨inventory ++ [item]⟩ ⟨notfound⟩ =
      (self.getDataBlocks peerIndex [item],
        some (.reversedGetData peerIndex ⟨inventory⟩
          ⟨notfound ++ self.getDataMissing [item]⟩)) := by
  obtain ⟨invType, hash⟩ := item
  cases invType with
  | error => simp [serveReversedGetData, getDataBlocks, getDataMissing]
  | messageBlock =>
    cases h : self.storage.block (.hash hash) <;>
      simp [serveReversedGetData, getDataBlocks, getDataMissing, h]

theorem execute_reversedGetData_cons (fuel : Nat) (peerIndex : PeerIndex) (item : InventoryVector)
    (inventory notfound : List InventoryVector) :
    self.execute fuel (.reversedGetData peerIndex ⟨(item :: inventory).reverse⟩ ⟨notfound⟩) =
      some (self.getDataBlocks peerIndex [item], some (.reversedGetData peerIndex
        ⟨inventory.reverse⟩ ⟨notfound ++ self.getDataMissing [item]⟩)) := by
  simp only [execute, List.reverse_cons, serveReversedGetData_concat]

/-- The continuations of a `getdata` request with `inventory` still to serve (reversed) and
`notfound` gathered so far end after `inventory.length + 1` calls. -/
theorem executeChain_reversedGetData (fuel : Nat) (peerIndex : PeerIndex)
    (inventory notfound : List InventoryVector) :
    self.executeChain fuel (inventory.length + 1)
        (.reversedGetData peerIndex ⟨inventory.reverse⟩ ⟨notfound⟩) =
      some (self.getDataBlocks peerIndex inventory ++
        notFoundEffect peerIndex (notfound ++ self.getDataMissing inventory), none) := by
  induction inventory generalizing notfound with
  | nil =>
    cases h : notfound.isEmpty <;> simp [executeChain, execute, serveReversedGetData,
      getDataBlocks, getDataMissing, notFoundEffect, h]
  | cons item inventory ih =>
    rw [List.length_cons, executeChain_succ_of_execute self (self.execute_reversedGetData_cons ..),
      ih]
    dsimp only [Option.map_some']
    rw [← List.append_assoc, ← getDataBlocks_append, List.append_assoc notfound,
      ← getDataMissing_append]
    rfl

/-- Before its last call, the request still has a continuation to run. -/
theorem executeChain_reversedGetData_pending (fuel : Nat) (peerIndex : PeerIndex)
    (inventory notfound : List InventoryVector) :
    ∃ effects task, self.executeChain fuel inventory.length
      (.reversedGetData peerIndex ⟨inventory.reverse⟩ ⟨notfound⟩) = some (effects, some task) := by
  induction inventory generalizing notfound with
  | nil => exact ⟨[], _, rfl⟩
  | cons item inventory ih =>
    obtain ⟨effects, task, h⟩ := ih (notfound ++ self.getDataMissing [item])
    refine ⟨self.getDataBlocks peerIndex [item] ++ effects, task, ?_⟩
    rw [List.length_cons, executeChain_succ_of_execute self (self.execute_reversedGetData_cons ..),
      h]
    rfl

/-- **`getdata` served end to end.** Over any store, for any peer and any inventory, the request
and its continuations take exactly `inventory.length + 2` calls of `execute`, and send the
blocks found, in inventory order, then one `notfound` with the missing block items in order if
there are any; `Error` items send nothing. -/
theorem executeChain_getData (fuel : Nat) (peerIndex : PeerIndex)
    (inventory : List InventoryVector) :
    self.executeChain fuel (inventory.length + 2) (.getData peerIndex ⟨inventory⟩) =
        some (self.getDataResponse peerIndex inventory, none) ∧
      ∃ effects task, self.executeChain fuel (inventory.length + 1)
        (.getData peerIndex ⟨inventory⟩) = some (effects, some task) := by
  have hstep : self.execute fuel (.getData peerIndex ⟨inventory⟩) =
      some ([], some (.reversedGetData peerIndex ⟨inventory.reverse⟩ ⟨[]⟩)) := rfl
  obtain ⟨effects, task, h⟩ := self.executeChain_reversedGetData_pending fuel peerIndex inventory []
  refine ⟨?_, effects, task, ?_⟩
  · rw [executeChain_succ_of_execute self hstep, executeChain_reversedGetData]
    rfl
  · rw [executeChain_succ_of_execute self hstep, h]
    rfl

end ServerTaskExecutor

end RandchainSync
