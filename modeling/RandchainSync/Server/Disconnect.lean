import RandchainSync.Server.Worker
import RandchainSync.Server.Executor

/-!
# What a disconnect cancels

`ServerImpl::on_disconnect` calls `ServerQueue::remove_peer_tasks`, which drops the peer's deque
under the lock. The worker serves a task outside the lock, though, and puts its continuation
back with `add_task_front` afterwards. When the task it holds at the disconnect is the peer's
`GetData` or `ReversedGetData`, the continuation comes back to the queue after the disconnect,
with nothing submitted for the peer, and is served to the end: the server keeps answering a
peer it was told is gone.

What does hold is that nothing else comes back. After `on_disconnect(p)`, as long as no task of
`p` is submitted, every request of `p` in the queue or in the worker's hand is the request the
worker held at the disconnect; when the worker held none of `p`'s, the queue holds no task of
`p`.

## Main definitions

* `ServerState.Residual`: every request of a peer still to serve is one given request

## Main results

* `disconnect_then_reinject`: the run on which a disconnected peer's continuation comes back
* `mem_lineRequests_step`: a step brings a request into a peer's line only by a submission for
  the peer, or as a continuation of a request already there
* `residual_run`: with no submission for the peer, a run keeps `Residual`
* `disconnect_leaves_inflight_request`: what a disconnect cancels, for `ServerTaskExecutor`
-/

namespace RandchainSync

namespace ServerState

open PeerTask (peerIndex)

/-! ## The run -/

variable {σ ε : Type} [PeerTask σ] {exec : σ → Option (List ε × Option σ)}
  {s s' : ServerState σ ε} {p : PeerIndex}

/-- A step brings a request into `p`'s line only by submitting a task of `p`, or as a request
with the number of one already there: the same request moved, or its continuation. -/
theorem mem_lineRequests_step
    (hpeer : ∀ t effects next, exec t = some (effects, some next) → peerIndex next = peerIndex t)
    (hq : s.queue.Inv) {a : Action σ} (h : step exec s a = some s') {r : Request σ}
    (hr : r ∈ s'.lineRequests p) :
    (∃ t, a = .execute t ∧ peerIndex t = p) ∨ ∃ r₀ ∈ s.lineRequests p, r₀.id = r.id := by
  cases ha : a.movesOnly
  case true => exact .inr ⟨r, (step_movesOnly hq ha h p).1 ▸ hr, rfl⟩
  cases a <;> simp only [Action.movesOnly, Bool.true_eq_false] at ha
  case execute task =>
    obtain ⟨-, rfl⟩ := step_execute h
    by_cases hp : peerIndex task = p
    · exact .inl ⟨task, rfl, hp⟩
    · exact .inr ⟨r, by simpa [lineRequests, Ne.symm hp] using hr, rfl⟩
  case onDisconnect q =>
    obtain ⟨-, q', hrm, rfl⟩ := step_onDisconnect h
    obtain ⟨q'', hrm', hpend⟩ := hq.removePeerTasks_pending q
    rw [hrm'] at hrm
    cases hrm
    refine .inr ⟨r, ?_, rfl⟩
    simp only [lineRequests, hpend, Function.update_apply] at hr ⊢
    split at hr
    · simp_all
    · exact hr
  case workerExecute =>
    obtain ⟨r₀, effects, next, hw, hexec, rfl⟩ := step_workerExecute h
    refine .inr ?_
    cases next with
    | none => exact ⟨r, by simp_all [lineRequests], rfl⟩
    | some c =>
      simp only [lineRequests, WorkerPc.inflight_reinjecting, List.mem_append] at hr
      rcases hr with hr | hr
      · obtain ⟨hc, rfl⟩ : peerIndex c = p ∧ (⟨r₀.id, c⟩ : Request σ) = r := by
          simpa [Option.filter] using hr
        refine ⟨r₀, ?_, rfl⟩
        simp [lineRequests, hw, Option.filter, Request.peerIndex_eq, ← hpeer _ _ _ hexec, hc]
      · exact ⟨r, List.mem_append_right _ hr, rfl⟩

/-! ## What a disconnect leaves -/

/-- Every request of `p` still to serve is the one numbered `keep`. -/
def Residual (p : PeerIndex) (keep : Option Nat) (s : ServerState σ ε) : Prop :=
  ∀ r ∈ s.lineRequests p, some r.id = keep

/-- Right after `on_disconnect(p)`, only the request the worker holds can be `p`'s. -/
theorem residual_onDisconnect (hq : s.queue.Inv) (h : step exec s (.onDisconnect p) = some s') :
    s'.Residual p ((s.worker.inflight.filter (peerIndex · = p)).map (·.id)) := by
  obtain ⟨-, q, hrm, rfl⟩ := step_onDisconnect h
  obtain ⟨q', hrm', hpend⟩ := hq.removePeerTasks_pending p
  rw [hrm'] at hrm
  cases hrm
  intro r hr
  simp only [lineRequests, hpend, Function.update_same, List.append_nil, Option.mem_toList,
    Option.mem_def] at hr
  simp [hr]

theorem residual_step
    (hpeer : ∀ t effects next, exec t = some (effects, some next) → peerIndex next = peerIndex t)
    (hq : s.queue.Inv) {keep : Option Nat} (hs : s.Residual p keep) {a : Action σ}
    (ha : ∀ t, a = .execute t → peerIndex t ≠ p) (h : step exec s a = some s') :
    s'.Residual p keep := fun _ hr =>
  match mem_lineRequests_step hpeer hq h hr with
  | .inl ⟨t, hat, hp⟩ => absurd hp (ha t hat)
  | .inr ⟨r₀, hr₀, hid⟩ => hid ▸ hs r₀ hr₀

/-- **With no submission for `p`, a run keeps `Residual`.** -/
theorem residual_run
    (hpeer : ∀ t effects next, exec t = some (effects, some next) → peerIndex next = peerIndex t)
    (hs : Reachable exec s) {keep : Option Nat} (hres : s.Residual p keep)
    {actions : List (Action σ)} (hno : ∀ t, .execute t ∈ actions → peerIndex t ≠ p)
    (h : run exec s actions = some s') : s'.Residual p keep := by
  induction actions generalizing s with
  | nil => cases h; exact hres
  | cons a actions ih =>
    simp only [run] at h
    cases hstep : step exec s a with
    | none => simp [hstep] at h
    | some s₁ =>
      refine ih (hs.step hstep) ?_ (fun t ht => hno t (.tail _ ht)) (by simpa [hstep] using h)
      exact residual_step hpeer hs.queue_inv hres (fun t hat => hno t (hat ▸ .head _)) hstep

/-! ## The server -/

/-- **What a disconnect cancels in `ServerImpl`.** Over any store and fork-walk bound, after
`on_disconnect(p)` in a reachable state, and along any run that submits no task of `p`, every
request of `p` in the queue or in the worker's hand is the request the worker held at the
disconnect, and when the worker held none of `p`'s the queue holds no task of `p`. -/
theorem disconnect_leaves_inflight_request (storage : BlockProvider) (fuel : Nat)
    {s s₁ s' : ServerState ServerTask Effect} {p : PeerIndex} {actions : List (Action ServerTask)}
    (hs : Reachable ((ServerTaskExecutor.mk storage).execute fuel) s)
    (hd : step ((ServerTaskExecutor.mk storage).execute fuel) s (.onDisconnect p) = some s₁)
    (hno : ∀ t, .execute t ∈ actions → t.peerIndex ≠ p)
    (h : run ((ServerTaskExecutor.mk storage).execute fuel) s₁ actions = some s') :
    (∀ r ∈ s'.lineRequests p, (s.worker.inflight.filter (·.task.peerIndex = p)).map (·.id) =
        some r.id) ∧
      ((∀ r ∈ s.worker.inflight, r.task.peerIndex ≠ p) → s'.queue.pending p = []) := by
  have hpeer : ∀ t effects next, (ServerTaskExecutor.mk storage).execute fuel t =
      some (effects, some next) → peerIndex next = peerIndex t :=
    fun _ _ _ hexec => (ServerTaskExecutor.execute_peerIndex _ hexec).2 _ rfl
  have hres := residual_run hpeer ((hs.step hd)) (residual_onDisconnect hs.queue_inv hd) hno h
  refine ⟨fun r hr => (hres r hr).symm,
    fun hnone => List.eq_nil_iff_forall_not_mem.2 fun r hr => ?_⟩
  have hkeep := hres r (List.mem_append_right _ hr)
  cases hw : s.worker.inflight with
  | none => simp [hw] at hkeep
  | some r₀ =>
    simp only [hw, Option.filter] at hkeep
    split at hkeep
    · exact hnone r₀ hw (of_decide_eq_true ‹_›)
    · cases hkeep

/-- The run of `disconnect_then_reinject`: the one task of peer `0` back in the queue is the
request the worker held at the disconnect. -/
theorem disconnect_leaves_inflight_request_getData :
    let exec := (ServerTaskExecutor.mk .empty).execute 0
    let before : List (Action ServerTask) :=
      [.execute (.getData 0 ⟨[InventoryVector.block 0]⟩), .workerLock]
    let reinject : List (Action ServerTask) := [.workerExecute, .workerReinject]
    let s := (run exec init before).getD init
    let s₁ := (step exec s (.onDisconnect 0)).getD s
    let s' := (run exec s₁ reinject).getD s₁
    Reachable exec s ∧ step exec s (.onDisconnect 0) = some s₁ ∧ run exec s₁ reinject = some s' ∧
      (∀ r ∈ s'.lineRequests 0, (s.worker.inflight.filter (·.task.peerIndex = 0)).map (·.id) =
        some r.id) ∧
      ((∀ r ∈ s.worker.inflight, r.task.peerIndex ≠ 0) → s'.queue.pending 0 = []) := by
  intro exec before reinject s s₁ s'
  have hs : Reachable exec s :=
    Reachable.of_run exec Reachable.init (show run exec init before = some s from rfl)
  have hd : step exec s (.onDisconnect 0) = some s₁ := rfl
  have h : run exec s₁ reinject = some s' := rfl
  exact ⟨hs, hd, h, disconnect_leaves_inflight_request .empty 0 hs hd (by simp [reinject]) h⟩

end ServerState

end RandchainSync
