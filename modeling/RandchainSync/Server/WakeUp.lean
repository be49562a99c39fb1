import RandchainSync.Server.Worker
import RandchainSync.Server.BestCommonBlock

/-!
# No lost wake-up, and a clean shutdown

The worker decides to wait while it holds the lock, having found the queue empty and
`is_stopping` unset, and `wait` releases the lock only once the worker is blocked. A producer
needs the lock to add a task, and `drop` needs it to store `is_stopping`, so either comes
before the worker's check, which then sees it, or after the worker is blocked, and then its
`notify_one` wakes the worker. So the worker never sleeps on a task, and never sleeps once
`drop` has notified: from there its own steps take it out of the loop, and `join` returns.

## Main definitions

* `ServerState.WakeInv`: the invariant
* `ServerState.JoinsWithin exec s n`: `drop` returns after at most `n` steps of the worker

## Main results

* `wakeInv_step`: every step keeps the invariant
* `WakeInv.joinsWithin`: after the notify of `drop`, at most four worker steps end the join
* `reachable_no_lost_wakeup`: the two safety properties and the shutdown, in every reachable
  state
-/

namespace RandchainSync

variable {σ ε : Type}

/-- The worker's own steps. -/
def Action.isWorkerStep : Action σ → Bool
  | .workerLock | .workerRelock | .workerExecute | .workerReinject => true
  | _ => false

namespace ServerState

variable [PeerTask σ] {exec : σ → Option (List ε × Option σ)} {s s' : ServerState σ ε}

open PeerTask (peerIndex)

/-- **The wake-up invariant.** Once `drop` has started, `is_stopping` is set; a waiting worker
finds the queue empty, and waits only before the notify of `drop`. -/
structure WakeInv (s : ServerState σ ε) : Prop where
  queue_inv : s.queue.Inv
  stopping : s.dropper ≠ .running → s.queue.isStopping = true
  waiting_empty : s.worker = .waiting → s.queue.peersQueue = []
  waiting_dropper : s.worker = .waiting → s.dropper = .running ∨ s.dropper = .stored

theorem wakeInv_init : (init : ServerState σ ε).WakeInv :=
  ⟨ServerQueue.inv_new, fun h => absurd rfl h, nofun, nofun⟩

/-- The worker's `next_task` keeps the invariant when it may wait only while `drop` has not
notified. -/
theorem WakeInv.pop (hs : s.WakeInv) {w : WorkerPc σ} (h : s.pop w = some s')
    (hw : w = .waiting → s.dropper = .running ∨ s.dropper = .stored) : s'.WakeInv := by
  rcases pop_cases h with ⟨t, q, hn, rfl⟩ | ⟨hpq, rfl⟩
  · refine ⟨hs.queue_inv.of_nextTask hn, fun hd => ?_, nofun, nofun⟩
    rw [ServerQueue.isStopping_of_nextTask hn]
    exact hs.stopping hd
  · exact ⟨hs.queue_inv, hs.stopping, fun _ => hpq, hw⟩

/-- **One step keeps the wake-up invariant.** -/
theorem wakeInv_step (hs : s.WakeInv) {a : Action σ} (h : step exec s a = some s') :
    s'.WakeInv := by
  have hq := queue_inv_step hs.queue_inv h
  cases a with
  | execute task =>
    obtain ⟨hd, rfl⟩ := step_execute h
    exact ⟨hq, fun h => absurd hd h, fun h => absurd h (WorkerPc.notify_ne_waiting _),
      fun h => absurd h (WorkerPc.notify_ne_waiting _)⟩
  | onDisconnect p =>
    obtain ⟨hd, q, hrm, rfl⟩ := step_onDisconnect h
    rw [hs.queue_inv.removePeerTasks_eq p] at hrm
    cases hrm
    exact ⟨hq, fun h => absurd hd h, fun h => by simp [hs.waiting_empty h], hs.waiting_dropper⟩
  | workerLock =>
    obtain ⟨hw, ⟨-, rfl⟩ | ⟨hstop, hpop⟩⟩ := step_workerLock h
    · exact ⟨hq, hs.stopping, nofun, nofun⟩
    · refine hs.pop hpop fun _ => .inl ?_
      by_contra hd
      simp [hs.stopping hd] at hstop
  | wake =>
    obtain ⟨-, rfl⟩ := step_wake h
    exact ⟨hq, hs.stopping, nofun, nofun⟩
  | workerRelock => exact hs.pop (step_workerRelock h).2 nofun
  | workerExecute =>
    obtain ⟨r, effects, next, -, -, rfl⟩ := step_workerExecute h
    refine ⟨hq, hs.stopping, fun h => ?_, fun h => ?_⟩ <;> cases next <;> cases h
  | workerReinject =>
    obtain ⟨r, -, rfl⟩ := step_workerReinject h
    exact ⟨hq, by simpa using hs.stopping, nofun, nofun⟩
  | dropStore =>
    obtain ⟨-, rfl⟩ := step_dropStore h
    exact ⟨hq, fun _ => rfl, hs.waiting_empty, fun _ => .inr rfl⟩
  | dropNotify =>
    obtain ⟨hd, rfl⟩ := step_dropNotify h
    exact ⟨hq, fun _ => hs.stopping (by simp [hd]),
      fun h => absurd h (WorkerPc.notify_ne_waiting _),
      fun h => absurd h (WorkerPc.notify_ne_waiting _)⟩
  | dropJoin =>
    obtain ⟨hd, hw, rfl⟩ := step_dropJoin h
    exact ⟨hq, fun _ => hs.stopping (by simp [hd]), fun h => (nomatch hw.symm.trans h),
      fun h => (nomatch hw.symm.trans h)⟩

theorem Reachable.wakeInv (h : Reachable exec s) : s.WakeInv := by
  induction h with
  | init => exact wakeInv_init
  | step _ hstep ih => exact wakeInv_step ih hstep

/-! ## Shutdown -/

/-- `drop` returns from `join` after at most `n` steps of the worker, whatever it runs. -/
def JoinsWithin (exec : σ → Option (List ε × Option σ)) (s : ServerState σ ε) (n : Nat) : Prop :=
  ∃ actions : List (Action σ), actions.length ≤ n ∧ (∀ a ∈ actions, a.isWorkerStep) ∧
    ∃ s', run exec s (actions ++ [.dropJoin]) = some s' ∧ s'.dropper = .joined

theorem JoinsWithin.mono {n m : Nat} (h : JoinsWithin exec s n) (hnm : n ≤ m) :
    JoinsWithin exec s m :=
  let ⟨actions, hlen, hw, hrun⟩ := h
  ⟨actions, hlen.trans hnm, hw, hrun⟩

theorem JoinsWithin.cons {s₁ : ServerState σ ε} (a : Action σ) {n : Nat} (ha : a.isWorkerStep)
    (h : step exec s a = some s₁) (h₁ : JoinsWithin exec s₁ n) : JoinsWithin exec s (n + 1) := by
  obtain ⟨actions, hlen, hw, s', hrun, hj⟩ := h₁
  refine ⟨a :: actions, by simpa using hlen, ?_, s', by simpa [run, h] using hrun, hj⟩
  simpa [ha] using hw

theorem joinsWithin_stopped (hd : s.dropper = .notified) (hw : s.worker = .stopped) :
    JoinsWithin exec s 0 :=
  ⟨[], le_rfl, by simp, { s with dropper := .joined }, by simp [run, step, hd, hw], rfl⟩

theorem joinsWithin_loop (hd : s.dropper = .notified) (hstop : s.queue.isStopping = true)
    (hw : s.worker = .loop) : JoinsWithin exec s 1 := by
  have h : step exec s .workerLock = some { s with worker := .stopped } := by
    simp [step, hw, hstop]
  exact JoinsWithin.cons .workerLock rfl h (joinsWithin_stopped hd rfl)

theorem joinsWithin_reinjecting (hd : s.dropper = .notified) (hstop : s.queue.isStopping = true)
    {r : Request σ} (hw : s.worker = .reinjecting r) : JoinsWithin exec s 2 := by
  have h : step exec s .workerReinject =
      some { s with queue := s.queue.addTaskFront r, worker := .loop } := by
    simp [step, hw]
  exact JoinsWithin.cons .workerReinject rfl h (joinsWithin_loop hd (by simpa using hstop) rfl)

theorem joinsWithin_executing (hd : s.dropper = .notified) (hstop : s.queue.isStopping = true)
    {r : Request σ} (hw : s.worker = .executing r) (hexec : (exec r.task).isSome) :
    JoinsWithin exec s 3 := by
  obtain ⟨⟨effects, next⟩, he⟩ := Option.isSome_iff_exists.mp hexec
  cases next with
  | some c =>
    have h : step exec s .workerExecute = some { s with
        emitted := s.emitted ++ effects.map (Sent.mk r.id (peerIndex r))
        worker := .reinjecting ⟨r.id, c⟩ } := by
      simp [step, hw, he]
    exact JoinsWithin.cons .workerExecute rfl h (joinsWithin_reinjecting hd hstop rfl)
  | none =>
    have h : step exec s .workerExecute = some { s with
        emitted := s.emitted ++ effects.map (Sent.mk r.id (peerIndex r))
        worker := .loop } := by
      simp [step, hw, he]
    exact (JoinsWithin.cons .workerExecute rfl h (joinsWithin_loop hd hstop rfl)).mono (by omega)

theorem joinsWithin_woken (hd : s.dropper = .notified) (hstop : s.queue.isStopping = true)
    (hq : s.queue.Inv) (hw : s.worker = .woken) (hexec : ∀ t, (exec t).isSome) :
    JoinsWithin exec s 4 := by
  cases hpq : s.queue.peersQueue with
  | nil =>
    have h : step exec s .workerRelock = some { s with worker := .loop } := by
      simp [step, hw, pop, ServerQueue.nextTask_nil hpq]
    exact (JoinsWithin.cons .workerRelock rfl h (joinsWithin_loop hd hstop rfl)).mono (by omega)
  | cons p rest =>
    obtain ⟨t, q, hn, -⟩ := hq.nextTask_of_cons hpq
    have h : step exec s .workerRelock = some { s with queue := q, worker := .executing t } := by
      simp [step, hw, pop, hn]
    exact JoinsWithin.cons .workerRelock rfl h (joinsWithin_executing hd
      (by rw [← hstop]; exact ServerQueue.isStopping_of_nextTask hn) rfl (hexec t.task))

/-- Once `drop` has notified, at most four steps of the worker take it out of its loop, and then
`join` returns, provided every execution returns. -/
theorem WakeInv.joinsWithin (hs : s.WakeInv) (hd : s.dropper = .notified)
    (hexec : ∀ t, (exec t).isSome) : JoinsWithin exec s 4 := by
  have hstop := hs.stopping (by simp [hd])
  cases hw : s.worker with
  | loop => exact (joinsWithin_loop hd hstop hw).mono (by omega)
  | waiting => simpa [hd] using hs.waiting_dropper hw
  | woken => exact joinsWithin_woken hd hstop hs.queue_inv hw hexec
  | executing r => exact (joinsWithin_executing hd hstop hw (hexec r.task)).mono (by omega)
  | reinjecting r => exact (joinsWithin_reinjecting hd hstop hw).mono (by omega)
  | stopped => exact (joinsWithin_stopped hd hw).mono (by omega)

/-- **No lost wake-up, and a clean shutdown.** In every reachable state: the worker never waits
on `queue_ready` while the queue holds a task; it never waits there once `is_stopping` is set
and `drop` has notified; and from the notify of `drop`, as long as every execution returns, at
most four steps of the worker end the join. -/
theorem reachable_no_lost_wakeup (h : Reachable exec s) :
    (s.worker = .waiting → ∀ p, s.queue.pending p = []) ∧
      ¬ (s.worker = .waiting ∧ s.queue.isStopping = true ∧
        (s.dropper = .notified ∨ s.dropper = .joined)) ∧
      (s.dropper = .notified → (∀ t, (exec t).isSome) → JoinsWithin exec s 4) := by
  have hs := h.wakeInv
  refine ⟨fun hw => ?_, fun ⟨hw, _, hd⟩ => ?_, hs.joinsWithin⟩
  · exact hs.queue_inv.front_eq_none_iff.mp (by simp [hs.waiting_empty hw])
  · rcases hs.waiting_dropper hw with h | h <;> rcases hd with hd | hd <;> simp [h] at hd

/-- The states the three properties are about, with `ServerTaskExecutor` over an empty store,
whose calls all return: the worker waiting on the empty queue of `new`, and `drop` having
notified a worker with a task in line. -/
theorem reachable_no_lost_wakeup_wait_and_drop :
    let exec := (ServerTaskExecutor.mk .empty).execute 1
    let s₁ := (run exec init [.workerLock]).getD init
    let s₂ := (run exec init [.execute (.mempool 0), .dropStore, .dropNotify]).getD init
    (Reachable exec s₁ ∧ s₁.worker = .waiting ∧
      (s₁.worker = .waiting → ∀ p, s₁.queue.pending p = []) ∧
      ¬ (s₁.worker = .waiting ∧ s₁.queue.isStopping = true ∧
        (s₁.dropper = .notified ∨ s₁.dropper = .joined)) ∧
      (s₁.dropper = .notified → (∀ t, (exec t).isSome) → JoinsWithin exec s₁ 4)) ∧
    (Reachable exec s₂ ∧ s₂.dropper = .notified ∧ (∀ t, (exec t).isSome) ∧
      (s₂.worker = .waiting → ∀ p, s₂.queue.pending p = []) ∧
      ¬ (s₂.worker = .waiting ∧ s₂.queue.isStopping = true ∧
        (s₂.dropper = .notified ∨ s₂.dropper = .joined)) ∧
      (s₂.dropper = .notified → (∀ t, (exec t).isSome) → JoinsWithin exec s₂ 4)) := by
  intro exec s₁ s₂
  have ends {o : Option (ServerState ServerTask Effect)} {d} (h : o.isSome) :
      o = some (o.getD d) := (Option.getD_of_ne_none (Option.isSome_iff_ne_none.1 h) d).symm
  have hr₁ : run exec init [.workerLock] = some s₁ := ends rfl
  have hr₂ : run exec init [.execute (.mempool 0), .dropStore, .dropNotify] = some s₂ := ends rfl
  have h₁ : Reachable exec s₁ := .of_run _ .init hr₁
  have h₂ : Reachable exec s₂ := .of_run _ .init hr₂
  exact ⟨⟨h₁, by decide, reachable_no_lost_wakeup h₁⟩,
    ⟨h₂, by decide, ServerTaskExecutor.execute_isSome fun _ => rfl, reachable_no_lost_wakeup h₂⟩⟩

end ServerState

end RandchainSync
