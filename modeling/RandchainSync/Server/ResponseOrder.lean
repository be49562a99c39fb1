import RandchainSync.Server.Worker
import RandchainSync.Server.Executor

/-!
# Responses to one peer come request by request

Number the requests by the `execute` call that submitted them. For a peer `p`, list the numbers
of the requests whose effects for `p` have been emitted, one per effect, then the request the
worker holds if it is `p`'s, then `p`'s queued tasks, then the next number to be given. This list
is sorted in every reachable state: a submission appends the next number, `next_task` moves the
head of `p`'s deque into the worker's hand and the reinjection moves it back, an execution
replaces the request it serves by copies of itself, and a disconnect only drops numbers. So the
effects for `p` are emitted request by request, in the order the requests were submitted, with
every continuation of a request before the next request of the peer. This holds whether or not
`p` disconnects.

## Main definitions

* `ServerState.sentIds`, `ServerState.orderList`

## Main results

* `orderList_step`: every step keeps each peer's list sorted
* `Reachable.sentIds_sorted`: for any executor whose effects and continuations stay with their
  task's peer
* `server_response_order`: for `ServerTaskExecutor::execute`
-/

namespace RandchainSync

namespace ServerState

variable {σ ε : Type} [PeerTask σ] {exec : σ → Option (List ε × Option σ)}
  {s s' : ServerState σ ε} {p : PeerIndex}

open PeerTask (peerIndex)

/-- The requests whose effects for `p` are in `emitted`, in order, one entry per effect. -/
def sentIds (emitted : List (Sent ε)) (p : PeerIndex) : List Nat :=
  (emitted.filter (·.peerIndex = p)).map (·.request)

/-- The numbers of the requests of `p` still to serve. -/
def lineIds (s : ServerState σ ε) (p : PeerIndex) : List Nat :=
  (s.lineRequests p).map (·.id)

/-- The requests of `p`, served or not, and the next number to be given. -/
def orderList (s : ServerState σ ε) (p : PeerIndex) : List Nat :=
  sentIds s.emitted p ++ s.lineIds p ++ [s.nextRequest]

/-! ## Sorted lists under the changes a step makes -/

theorem pairwise_append_singleton_le {l : List Nat} {n m : Nat}
    (h : (l ++ [n]).Pairwise (· ≤ ·)) (hnm : n ≤ m) : (l ++ [n] ++ [m]).Pairwise (· ≤ ·) := by
  refine List.pairwise_append.2 ⟨h, List.pairwise_singleton _ _, fun a ha b hb => ?_⟩
  rw [List.mem_singleton.mp hb]
  rcases List.mem_append.mp ha with ha | ha
  · exact ((List.pairwise_append.1 h).2.2 a ha n (List.mem_singleton_self n)).trans hnm
  · exact (List.mem_singleton.mp ha).symm ▸ hnm

/-- Replacing one entry by copies of itself keeps a list sorted. -/
theorem pairwise_replicate {a b : List Nat} {x : Nat} (k : Nat)
    (h : (a ++ x :: b).Pairwise (· ≤ ·)) : (a ++ List.replicate k x ++ b).Pairwise (· ≤ ·) := by
  simp only [List.pairwise_append, List.pairwise_cons, List.mem_cons, List.mem_append,
    List.mem_replicate] at h ⊢
  obtain ⟨ha, ⟨hxb, hb⟩, hab⟩ := h
  refine ⟨⟨ha, List.pairwise_replicate.2 (.inr le_rfl),
    fun y hy z hz => hz.2 ▸ hab y hy x (.inl rfl)⟩,
    hb, fun y hy z hz => ?_⟩
  rcases hy with hy | hy
  · exact hab y hy z (.inr hz)
  · exact hy.2 ▸ hxb z hz

/-! ## One step -/

@[simp] theorem sentIds_append (l₁ l₂ : List (Sent ε)) :
    sentIds (l₁ ++ l₂) p = sentIds l₁ p ++ sentIds l₂ p := by
  simp [sentIds]

/-- The effects of one execution count once each for their request, if it is `p`'s. -/
@[simp] theorem sentIds_map_mk (id : Nat) (q : PeerIndex) (effects : List ε) :
    sentIds (effects.map (Sent.mk id q)) p =
      if q = p then List.replicate effects.length id else [] := by
  split <;> simp [sentIds, List.filter_map, Function.comp_def, *]

/-- **One step keeps each peer's list sorted**, for an executor whose continuations stay with
their task's peer. -/
theorem orderList_step
    (hpeer : ∀ t effects next, exec t = some (effects, some next) → peerIndex next = peerIndex t)
    (hq : s.queue.Inv) (hs : ∀ p, (s.orderList p).Pairwise (· ≤ ·)) {a : Action σ}
    (h : step exec s a = some s') : (s'.orderList p).Pairwise (· ≤ ·) := by
  have hsp := hs p
  cases ha : a.movesOnly
  case true =>
    obtain ⟨hl, he, hn⟩ := step_movesOnly hq ha h p
    simpa only [orderList, lineIds, hl, he, hn] using hsp
  cases a <;> simp only [Action.movesOnly, Bool.true_eq_false] at ha
  case execute task =>
    obtain ⟨-, rfl⟩ := step_execute h
    have hl := pairwise_append_singleton_le hsp (Nat.le_succ s.nextRequest)
    by_cases hp : p = peerIndex task
    · simpa [orderList, lineIds, lineRequests, hp] using hl
    · exact hl.sublist (by simp [orderList, lineIds, lineRequests, hp])
  case onDisconnect r =>
    obtain ⟨-, q, hrm, rfl⟩ := step_onDisconnect h
    obtain ⟨q', hrm', hpend⟩ := hq.removePeerTasks_pending r
    rw [hrm'] at hrm
    cases hrm
    refine hsp.sublist ?_
    simp only [orderList, lineIds, lineRequests, hpend, Function.update_apply]
    split
    · simp
    · exact List.Sublist.refl _
  case workerExecute =>
    obtain ⟨r, effects, next, hw, hexec, rfl⟩ := step_workerExecute h
    simp only [orderList, sentIds_append, sentIds_map_mk, Request.peerIndex_eq]
    by_cases hp : peerIndex r.task = p
    · have hsp' : (sentIds s.emitted p ++ r.id ::
          ((s.queue.pending p).map (·.id) ++ [s.nextRequest])).Pairwise (· ≤ ·) := by
        simpa [orderList, lineIds, lineRequests, hw, Option.filter, Request.peerIndex_eq, hp]
          using hsp
      cases next with
      | none => simpa [lineIds, lineRequests, hp] using pairwise_replicate effects.length hsp'
      | some c =>
        simpa [lineIds, lineRequests, hp, hpeer _ _ _ hexec, Option.filter, List.replicate_succ']
          using pairwise_replicate (effects.length + 1) hsp'
    · have hc : ∀ c, next = some c → peerIndex c ≠ p := fun c hc => hpeer _ _ _ (hc ▸ hexec) ▸ hp
      cases next <;>
        simpa [orderList, lineIds, lineRequests, hw, hp, hc, Option.filter, Request.peerIndex_eq]
          using hsp

/-- **Every reachable state keeps each peer's list sorted.** -/
theorem Reachable.orderList_sorted
    (hpeer : ∀ t effects next, exec t = some (effects, some next) → peerIndex next = peerIndex t)
    (h : Reachable exec s) (p : PeerIndex) : (s.orderList p).Pairwise (· ≤ ·) := by
  induction h generalizing p with
  | init => exact List.pairwise_singleton _ _
  | step hr hstep ih => exact orderList_step hpeer hr.queue_inv ih hstep

theorem Reachable.sentIds_sorted
    (hpeer : ∀ t effects next, exec t = some (effects, some next) → peerIndex next = peerIndex t)
    (h : Reachable exec s) (p : PeerIndex) : (sentIds s.emitted p).Pairwise (· ≤ ·) :=
  (h.orderList_sorted hpeer p).sublist
    ((List.sublist_append_left _ _).trans (List.sublist_append_left _ _))

/-! ## Effects stay with their request's peer -/

/-- A step emits nothing, or the effects of one execution of the request the worker holds. -/
theorem emitted_step {a : Action σ} (h : step exec s a = some s') :
    s'.emitted = s.emitted ∨ ∃ (r : Request σ) (effects : List ε) (next : Option σ),
      exec r.task = some (effects, next) ∧
      s'.emitted = s.emitted ++ effects.map (Sent.mk r.id (peerIndex r)) := by
  cases a with
  | workerExecute =>
    obtain ⟨r, effects, next, -, hexec, rfl⟩ := step_workerExecute h
    exact .inr ⟨r, effects, next, hexec, rfl⟩
  | workerLock =>
    obtain ⟨-, ⟨-, rfl⟩ | ⟨-, hpop⟩⟩ := step_workerLock h
    exacts [.inl rfl, .inl (pop_frame hpop).1]
  | workerRelock => exact .inl (pop_frame (step_workerRelock h).2).1
  | execute => obtain ⟨-, rfl⟩ := step_execute h; exact .inl rfl
  | onDisconnect => obtain ⟨-, _, -, rfl⟩ := step_onDisconnect h; exact .inl rfl
  | wake => obtain ⟨-, rfl⟩ := step_wake h; exact .inl rfl
  | workerReinject => obtain ⟨_, -, rfl⟩ := step_workerReinject h; exact .inl rfl
  | dropStore => obtain ⟨-, rfl⟩ := step_dropStore h; exact .inl rfl
  | dropNotify => obtain ⟨-, rfl⟩ := step_dropNotify h; exact .inl rfl
  | dropJoin => obtain ⟨-, -, rfl⟩ := step_dropJoin h; exact .inl rfl

section EffectsOwned

variable {effPeer : ε → PeerIndex}

/-- Every emitted effect is for the peer of the request that produced it. -/
def EffectsOwned (effPeer : ε → PeerIndex) (s : ServerState σ ε) : Prop :=
  ∀ x ∈ s.emitted, effPeer x.effect = x.peerIndex

theorem effectsOwned_step
    (heff : ∀ t effects next, exec t = some (effects, next) →
      ∀ e ∈ effects, effPeer e = peerIndex t)
    (hs : s.EffectsOwned effPeer) {a : Action σ} (h : step exec s a = some s') :
    s'.EffectsOwned effPeer := by
  intro x hx
  rcases emitted_step h with he | ⟨r, effects, next, hexec, he⟩ <;> rw [he] at hx
  · exact hs x hx
  · rcases List.mem_append.mp hx with hx | hx
    · exact hs x hx
    · obtain ⟨e, he, rfl⟩ := List.mem_map.mp hx
      exact heff _ _ _ hexec e he

theorem Reachable.effectsOwned
    (heff : ∀ t effects next, exec t = some (effects, next) →
      ∀ e ∈ effects, effPeer e = peerIndex t)
    (h : Reachable exec s) : s.EffectsOwned effPeer := by
  induction h with
  | init => nofun
  | step _ hstep ih => exact effectsOwned_step heff ih hstep

end EffectsOwned

/-! ## The server -/

/-- **Per-peer response order of `ServerImpl`.** In every state reachable by any interleaving of
`execute`, `on_disconnect`, the worker's loop and `Drop`, over any store and fork-walk bound,
the requests behind the effects emitted for a peer `p` (outbound tasks and misbehaviour reports
addressed to `p`), listed in emission order, are numbered in submission order: every effect of a
request, its `ReversedGetData` continuations' included, comes before every effect of a request
for `p` submitted later. -/
theorem server_response_order (storage : BlockProvider) (fuel : Nat)
    {s : ServerState ServerTask Effect}
    (h : Reachable ((ServerTaskExecutor.mk storage).execute fuel) s) (p : PeerIndex) :
    ((s.emitted.filter (·.effect.peerIndex = p)).map (·.request)).Pairwise (· ≤ ·) := by
  have hown : s.EffectsOwned Effect.peerIndex :=
    h.effectsOwned fun _ _ _ hexec => (ServerTaskExecutor.execute_peerIndex _ hexec).1
  have hfilter : s.emitted.filter (·.effect.peerIndex = p) = s.emitted.filter (·.peerIndex = p) :=
    List.filter_congr fun x hx => by rw [hown x hx]
  rw [hfilter]
  exact h.sentIds_sorted
    (fun _ _ _ hexec => (ServerTaskExecutor.execute_peerIndex _ hexec).2 _ rfl) p

/-- Two `getblocks` requests of peer `0`, each served, over a store with no blocks. -/
theorem server_response_order_two_requests :
    let exec := (ServerTaskExecutor.mk .empty).execute 1
    let actions : List (Action ServerTask) := [.execute (.getBlocks 0 ⟨0, [], 0⟩),
      .execute (.getBlocks 0 ⟨0, [], 0⟩), .workerLock, .workerExecute, .workerLock, .workerExecute]
    let s := (run exec init actions).getD init
    Reachable exec s ∧ s.emitted.length = 2 ∧
      ∀ p, ((s.emitted.filter (·.effect.peerIndex = p)).map (·.request)).Pairwise (· ≤ ·) := by
  intro exec actions s
  have h : Reachable exec s :=
    Reachable.of_run exec Reachable.init (show run exec init actions = some s from rfl)
  exact ⟨h, rfl, server_response_order .empty 1 h⟩

end ServerState

end RandchainSync
