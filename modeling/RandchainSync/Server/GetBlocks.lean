import Mathlib.Data.List.ReduceOption
import RandchainSync.Server.Executor

/-!
# What `getblocks` and `getheaders` send

Once `locate_best_common_block` has found the height `h` of the best common block,
`serve_get_blocks` walks the heights `h + 1 .. h + 1 + 500` through `block_hash`, keeps the
hashes up to the first missing height and then up to `hash_stop`, and sends them as one
inventory unless there are none. `serve_get_headers` does the same over `2000` heights, keeps
the headers up to the first missing one, and always sends one `headers` message. With no common
block both report the peer.

Both range bounds are computed in `u32`. Below `2 ^ 32` the range is the `n` heights above `h`,
and the two responses are those the request's description gives (`successorsSpec`,
`headersSpec`). At the top of the `u32` range the bounds wrap: a store whose best common block
is at height `u32::MAX` gets an answer that starts again from height `0`.

## Main definitions

* `ServerTaskExecutor.successorsSpec`, `ServerTaskExecutor.headersSpec`: the responses, written
  from the description of the requests rather than from the code
* `maxHeightStore`: a store whose main chain tip is at height `u32::MAX`

## Main results

* `u32Range_add`: without overflow, the `u32` range is the heights above its start
* `successorHashes_eq_spec`: the chained `take_while`s keep the spec's prefix
* `serve_locator_response`: the responses of `serve_get_blocks` and `serve_get_headers`
* `getblocks_height_wraps`: the response after height `u32::MAX`
-/

namespace RandchainSync

/-! ## `u32` heights -/

/-- `u32` addition on the numbers: modulo `2 ^ 32`. -/
theorem height_toNat_add (a b : BlockHeight) : (a + b).toNat = (a.toNat + b.toNat) % 2 ^ 32 :=
  BitVec.toNat_add _ _

theorem height_toNat_ofNat (n : Nat) : n.toUInt32.toNat = n % 2 ^ 32 :=
  BitVec.toNat_ofNat _ _

/-- The `k`-th height above `h + 1` is `h + 1 + k` modulo `2 ^ 32`, wrapped or not. -/
theorem height_add_ofNat (h : BlockHeight) (k : Nat) :
    h + 1 + k.toUInt32 = UInt32.ofNat (h.toNat + 1 + k) := by
  apply UInt32.toNat.inj
  rw [height_toNat_add, height_toNat_add, height_toNat_ofNat]
  show ((h.toNat + 1 % 2 ^ 32) % 2 ^ 32 + k % 2 ^ 32) % 2 ^ 32 = (h.toNat + 1 + k) % 2 ^ 32
  omega

/-- **No overflow, no surprise**: when `start + n` stays below `2 ^ 32`, the range
`start .. start + n` is the `n` heights from `start`. -/
theorem u32Range_add {start : BlockHeight} {n : Nat} (h : start.toNat + n < 2 ^ 32) :
    u32Range start (start + n.toUInt32) = (List.range n).map fun k => start + k.toUInt32 := by
  have hstop : (start + n.toUInt32).toNat = start.toNat + n := by
    rw [height_toNat_add, height_toNat_ofNat]
    omega
  simp only [u32Range, hstop, Nat.add_sub_cancel_left]

theorem height_add_succ (a : BlockHeight) (k : Nat) :
    a + (k + 1).toUInt32 = a + 1 + k.toUInt32 := by
  apply UInt32.toNat.inj
  rw [height_toNat_add, height_toNat_add, height_toNat_add, height_toNat_ofNat, height_toNat_ofNat]
  show (a.toNat + (k + 1) % 2 ^ 32) % 2 ^ 32 =
    ((a.toNat + 1 % 2 ^ 32) % 2 ^ 32 + k % 2 ^ 32) % 2 ^ 32
  omega

theorem height_add_zero (a : BlockHeight) : a + (0 : Nat).toUInt32 = a := by
  have : a.toNat < 2 ^ 32 := a.toNat_lt_size
  apply UInt32.toNat.inj
  rw [height_toNat_add, height_toNat_ofNat]
  show (a.toNat + 0) % 2 ^ 32 = a.toNat
  omega

theorem height_toNat_succ {a : BlockHeight} (h : a.toNat + 1 < 2 ^ 32) :
    (a + 1).toNat = a.toNat + 1 := by
  rw [height_toNat_add]
  show (a.toNat + 1) % 2 ^ 32 = a.toNat + 1
  omega

/-- A non-empty range starts with its start. -/
theorem u32Range_eq_cons {start stop : BlockHeight} (h : start.toNat < stop.toNat) :
    u32Range start stop = start :: u32Range (start + 1) stop := by
  have hstop : stop.toNat < 2 ^ 32 := stop.toNat_lt_size
  have hstart := height_toNat_succ (show start.toNat + 1 < 2 ^ 32 by omega)
  obtain ⟨m, hm⟩ : ∃ m, stop.toNat - start.toNat = m + 1 :=
    ⟨_, (Nat.succ_pred_eq_of_pos (by omega)).symm⟩
  rw [u32Range, u32Range, hm, hstart, show stop.toNat - (start.toNat + 1) = m by omega,
    List.range_succ_eq_map]
  simp only [List.map_cons, List.map_map, Function.comp_def, height_add_succ, height_add_zero]

/-! ## The chained `take_while`s -/

theorem takeWhileSome_eq {α : Type} (l : List (Option α)) :
    takeWhileSome l = (l.takeWhile Option.isSome).reduceOption := by
  induction l with
  | nil => rfl
  | cons o l ih => cases o <;> simp [takeWhileSome, ih]

/-- `take_while(is_some)` then `take_while(!= hash_stop)` keeps the longest prefix of present
hashes that differ from `hash_stop`. -/
theorem takeWhile_takeWhileSome (hashStop : H256) (l : List (Option H256)) :
    (takeWhileSome l).takeWhile (· != hashStop) =
      (l.takeWhile fun o => o.isSome && o != some hashStop).reduceOption := by
  induction l with
  | nil => rfl
  | cons o l ih =>
    cases o with
    | none => rfl
    | some a => by_cases ha : a = hashStop <;> simp [takeWhileSome, ha, ih]

namespace ServerTaskExecutor

variable (self : ServerTaskExecutor)

/-! ## The responses, as the requests describe them -/

/-- Written from the request's description: the longest prefix of
`block_hash(h + 1), ..., block_hash(h + n)` whose hashes are all present and none is
`hashStop`. -/
def successorsSpec (h : BlockHeight) (n : Nat) (hashStop : H256) : List H256 :=
  (((List.range n).map fun k => self.storage.blockHash (UInt32.ofNat (h.toNat + 1 + k))).takeWhile
    fun o => o.isSome && o != some hashStop).reduceOption

/-- Written from the request's description: the raw headers of the longest prefix of `hashes`
whose headers are all stored. -/
def headersSpec (hashes : List H256) : List BlockHeader :=
  ((hashes.map fun hash => self.storage.blockHeader (.hash hash)).takeWhile
    Option.isSome).reduceOption.map (·.raw)

/-- Below `2 ^ 32`, the hashes `serve_get_blocks` and `serve_get_headers` collect are the spec's
prefix. -/
theorem successorHashes_eq_spec {h : BlockHeight} {n : Nat} (hashStop : H256)
    (hn : h.toNat + 1 + n < 2 ^ 32) :
    self.successorHashes h n hashStop = self.successorsSpec h n hashStop := by
  rw [successorHashes, u32Range_add (height_toNat_succ (show h.toNat + 1 < 2 ^ 32 by omega) ▸ hn),
    takeWhile_takeWhileSome, successorsSpec, List.map_map]
  simp only [Function.comp_def, height_add_ofNat]

/-! ## The two responses -/

/-- **The responses to `getblocks` and `getheaders`.** Over any store, locator and `hash_stop`,
and any bound on the fork walk: when `locate_best_common_block` returns the height `h` and
`h + 1 + N` stays within `u32`, `serve_get_blocks` sends one inventory of the spec's hashes, or
nothing when there are none, and `serve_get_headers` sends one `headers` message, possibly
empty, with the request's id; when it returns `None`, each only reports the peer. -/
theorem serve_locator_response (fuel : Nat) (peerIndex : PeerIndex) :
    (∀ (message : GetBlocks) (h : BlockHeight),
      self.locateBestCommonBlock fuel message.hashStop message.blockLocatorHashes =
        some (some h) →
      h.toNat + 1 + getblocksMaxResponseHashes < 2 ^ 32 →
      self.serveGetBlocks fuel peerIndex message =
        some (if self.successorsSpec h getblocksMaxResponseHashes message.hashStop = [] then []
          else [.execute (.inventory peerIndex ⟨(self.successorsSpec h getblocksMaxResponseHashes
            message.hashStop).map InventoryVector.block⟩)])) ∧
    (∀ (message : GetHeaders) (requestId : RequestId) (h : BlockHeight),
      self.locateBestCommonBlock fuel message.hashStop message.blockLocatorHashes =
        some (some h) →
      h.toNat + 1 + getheadersMaxResponseHeaders < 2 ^ 32 →
      self.serveGetHeaders fuel peerIndex message requestId =
        some [.execute (.headers peerIndex ⟨self.headersSpec (self.successorsSpec h
          getheadersMaxResponseHeaders message.hashStop)⟩ (some requestId))]) ∧
    (∀ message : GetBlocks,
      self.locateBestCommonBlock fuel message.hashStop message.blockLocatorHashes = some none →
      self.serveGetBlocks fuel peerIndex message =
        some [.misbehaving peerIndex "Got 'getblocks' message without known blocks"]) ∧
    (∀ (message : GetHeaders) (requestId : RequestId),
      self.locateBestCommonBlock fuel message.hashStop message.blockLocatorHashes = some none →
      self.serveGetHeaders fuel peerIndex message requestId =
        some [.misbehaving peerIndex "Got 'headers' message without known blocks"]) := by
  refine ⟨fun message h hloc hn => ?_, fun message requestId h hloc hn => ?_,
    fun message hloc => by simp [serveGetBlocks, hloc],
    fun message requestId hloc => by simp [serveGetHeaders, hloc]⟩
  · rw [serveGetBlocks, hloc, Option.map_some', ← successorHashes_eq_spec self _ hn]
    by_cases he : self.successorHashes h getblocksMaxResponseHashes message.hashStop = [] <;>
      simp [he]
  · rw [serveGetHeaders, hloc, Option.map_some', ← successorHashes_eq_spec self _ hn]
    simp [headersSpec, takeWhileSome_eq]

/-- A main chain of two blocks, hashes `0` and `1` at heights `0` and `1`, as in the server's
tests. -/
def twoBlockStore : BlockProvider where
  blockHeaderBytes _ := none
  blockHeader r := if r = .hash 1 then some ⟨1, ⟨0⟩⟩ else if r = .hash 0 then some ⟨0, ⟨0⟩⟩
    else none
  blockNumber h := if h = 0 then some 0 else if h = 1 then some 1 else none
  blockHash n := if n = 0 then some 0 else if n = 1 then some 1 else none
  block _ := none

/-- A peer that knows the genesis block asks for what follows it, with an unknown `hash_stop`,
first by `getblocks`, then by `getheaders`; then a peer whose locator and `hash_stop` are all
unknown, and that is reported. -/
theorem serve_locator_response_two_blocks :
    let self := mk twoBlockStore
    self.locateBestCommonBlock 0 5 [0] = some (some 0) ∧
    (0 : BlockHeight).toNat + 1 + getblocksMaxResponseHashes < 2 ^ 32 ∧
    (0 : BlockHeight).toNat + 1 + getheadersMaxResponseHeaders < 2 ^ 32 ∧
    self.serveGetBlocks 0 0 ⟨0, [0], 5⟩ =
      some (if self.successorsSpec 0 getblocksMaxResponseHashes 5 = [] then []
        else [.execute (.inventory 0 ⟨(self.successorsSpec 0
          getblocksMaxResponseHashes 5).map InventoryVector.block⟩)]) ∧
    self.serveGetHeaders 0 0 ⟨0, [0], 5⟩ 7 =
      some [.execute (.headers 0 ⟨self.headersSpec (self.successorsSpec 0
        getheadersMaxResponseHeaders 5)⟩ (some 7))] ∧
    self.locateBestCommonBlock 1 5 [9] = some none ∧
    self.serveGetBlocks 1 0 ⟨0, [9], 5⟩ =
      some [.misbehaving 0 "Got 'getblocks' message without known blocks"] ∧
    self.serveGetHeaders 1 0 ⟨0, [9], 5⟩ 7 =
      some [.misbehaving 0 "Got 'headers' message without known blocks"] := by
  intro self
  have hknown := serve_locator_response self 0 0
  have hunknown := serve_locator_response self 1 0
  exact ⟨rfl, by decide, by decide, hknown.1 ⟨0, [0], 5⟩ 0 rfl (by decide),
    hknown.2.1 ⟨0, [0], 5⟩ 7 0 rfl (by decide), rfl, hunknown.2.2.1 ⟨0, [9], 5⟩ rfl,
    hunknown.2.2.2 ⟨0, [9], 5⟩ 7 rfl⟩

/-! ## At the top of the `u32` range -/

/-- A store whose main chain ends at height `u32::MAX`, with the block of hash `1`; height `0`
holds the genesis block, of hash `0`. -/
def maxHeightStore : BlockProvider where
  blockHeaderBytes _ := none
  blockHeader r := if r = .hash 0 then some ⟨0, ⟨0⟩⟩ else none
  blockNumber h := if h = 1 then some 0xFFFFFFFF else if h = 0 then some 0 else none
  blockHash n := if n = 0 then some 0 else if n = 0xFFFFFFFF then some 1 else none
  block _ := none

/-- **The range bounds wrap at `u32::MAX`.** A peer whose `hash_stop` is the tip at height
`u32::MAX` has `h + 1` computed as `0`, and is sent the genesis block's hash and header, from
below the tip, instead of nothing. -/
theorem getblocks_height_wraps :
    let self : ServerTaskExecutor := mk maxHeightStore
    self.locateBestCommonBlock 0 1 [] = some (some 0xFFFFFFFF) ∧
    (0xFFFFFFFF : BlockHeight) + 1 = 0 ∧
    self.serveGetBlocks 0 0 ⟨0, [], 1⟩ =
      some [.execute (.inventory 0 ⟨[InventoryVector.block 0]⟩)] ∧
    self.serveGetHeaders 0 0 ⟨0, [], 1⟩ 7 = some [.execute (.headers 0 ⟨[⟨0⟩]⟩ (some 7))] := by
  have hloc : (mk maxHeightStore).locateBestCommonBlock 0 1 [] = some (some 0xFFFFFFFF) := rfl
  -- the responses read two heights only: `0`, present, and `1`, missing
  refine ⟨hloc, rfl, ?_, ?_⟩ <;>
  · simp only [serveGetBlocks, serveGetHeaders, hloc, Option.map_some', successorHashes]
    rw [u32Range_eq_cons, u32Range_eq_cons]
    · rfl
    all_goals decide

end ServerTaskExecutor

end RandchainSync
