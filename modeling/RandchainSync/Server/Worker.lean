import RandchainSync.Server.Refinement

/-!
# The server's threads: producers, the worker and the dropper

`ServerImpl` shares one `ServerQueue` behind a mutex between the threads that call
`Server::execute` and `Server::on_disconnect`, the worker thread running `server_worker`, and
the thread that drops the server. A step here is what one thread does while it holds the lock,
or one thing it does without it, so every interleaving of the threads is a sequence of steps:

* a producer: `execute` (lock, `add_task`, whose `notify_one` wakes a waiting worker, unlock),
  `on_disconnect` (lock, `remove_peer_tasks`, unlock);
* the worker, at the top of its loop: lock, check `is_stopping`, `next_task`, and with no task
  `queue_ready.wait`, which releases the lock; once woken, by a notify or spuriously, it takes
  the lock again for the second `next_task`; it runs the executor on a task outside the lock,
  then takes the lock to `add_task_front` the continuation;
* `ServerImpl::drop`: lock, store `is_stopping`, unlock; `notify_one`; `join`.

`drop` takes the server by `&mut`, so no producer runs once it has started. The worker runs
any executor `exec`, which returns the effects it makes and the continuation, or `none` when
it does not return (a fork walk that does not end).

Each queued task carries the number of the `execute` call that submitted its request, and each
effect the request it served: ghost state for the proofs about response order, which no step
reads.

## Main definitions

* `Request`, `Sent`: a task with its request, an effect with its request
* `WorkerPc`, `DropperPc`, `ServerState`, `Action`
* `ServerState.step`, `ServerState.run`, `ServerState.Reachable`

## Main results

* `step_execute`, ..., `step_dropJoin`: what each action does, one inversion lemma each
* `Reachable.queue_inv`: the queue keeps its invariant in every reachable state
* `step_movesOnly`: the frame of the steps that only move a request between the queue and the
  worker's hand (`ServerState.lineRequests`)
-/

namespace RandchainSync

open PeerTask (peerIndex)

/-- A queued task with the request it serves: the number of the `Server::execute` call that
submitted the request. -/
structure Request (σ : Type) where
  id : Nat
  task : σ
  deriving DecidableEq, Repr

instance {σ : Type} [PeerTask σ] : PeerTask (Request σ) := ⟨fun r => peerIndex r.task⟩

theorem Request.peerIndex_eq {σ : Type} [PeerTask σ] (r : Request σ) :
    peerIndex r = peerIndex r.task := rfl

@[simp] theorem Request.peerIndex_mk {σ : Type} [PeerTask σ] (n : Nat) (t : σ) :
    peerIndex (⟨n, t⟩ : Request σ) = peerIndex t := rfl

/-- An effect, with the request whose service made it and that request's peer. -/
structure Sent (ε : Type) where
  request : Nat
  peerIndex : PeerIndex
  effect : ε
  deriving DecidableEq, Repr

/-- Where the worker thread of `ServerImpl::server_worker` is. -/
inductive WorkerPc (σ : Type) where
  /-- at the top of the loop, without the lock -/
  | loop
  /-- blocked in `queue_ready.wait`, the lock released -/
  | waiting
  /-- woken from the wait, waiting for the lock -/
  | woken
  /-- running `executor.execute(task)` outside the lock -/
  | executing (task : Request σ)
  /-- about to `add_task_front` the continuation -/
  | reinjecting (task : Request σ)
  /-- out of the loop: the thread has returned -/
  | stopped
  deriving DecidableEq, Repr

/-- A `notify_one` on `queue_ready`: the worker is the only thread that waits on it. -/
def WorkerPc.notify {σ : Type} : WorkerPc σ → WorkerPc σ
  | .waiting => .woken
  | w => w

theorem WorkerPc.notify_ne_waiting {σ : Type} (w : WorkerPc σ) : w.notify ≠ .waiting := by
  cases w <;> simp [WorkerPc.notify]

/-- The task the worker holds outside the queue. -/
def WorkerPc.inflight {σ : Type} : WorkerPc σ → Option (Request σ)
  | .executing r | .reinjecting r => some r
  | _ => none

section Inflight

variable {σ : Type} (r : Request σ)

@[simp] theorem WorkerPc.inflight_loop : (WorkerPc.loop : WorkerPc σ).inflight = none := rfl
@[simp] theorem WorkerPc.inflight_waiting : (WorkerPc.waiting : WorkerPc σ).inflight = none := rfl
@[simp] theorem WorkerPc.inflight_woken : (WorkerPc.woken : WorkerPc σ).inflight = none := rfl
@[simp] theorem WorkerPc.inflight_stopped : (WorkerPc.stopped : WorkerPc σ).inflight = none := rfl
@[simp] theorem WorkerPc.inflight_executing : (WorkerPc.executing r).inflight = some r := rfl
@[simp] theorem WorkerPc.inflight_reinjecting : (WorkerPc.reinjecting r).inflight = some r := rfl

@[simp] theorem WorkerPc.inflight_notify (w : WorkerPc σ) : w.notify.inflight = w.inflight := by
  cases w <;> rfl

end Inflight

/-- Where `ServerImpl::drop` is. -/
inductive DropperPc where
  /-- not called -/
  | running
  /-- `is_stopping` stored, the lock released -/
  | stored
  /-- `notify_one` done, in `join` -/
  | notified
  /-- `join` returned -/
  | joined
  deriving DecidableEq, Repr

/-- **The state of the server's threads.** `nextRequest` and `emitted` are ghost: the number of
`execute` calls so far, and the effects made so far, in order. -/
structure ServerState (σ ε : Type) where
  queue : ServerQueue (Request σ)
  worker : WorkerPc σ
  dropper : DropperPc
  nextRequest : Nat
  emitted : List (Sent ε)

/-- One step of one thread. -/
inductive Action (σ : Type) where
  /-- a producer's `Server::execute` -/
  | execute (task : σ)
  /-- a producer's `Server::on_disconnect` -/
  | onDisconnect (peerIndex : PeerIndex)
  /-- the worker at the top of its loop -/
  | workerLock
  /-- a spurious wake-up of the waiting worker -/
  | wake
  /-- the woken worker takes the lock again -/
  | workerRelock
  /-- the worker runs the executor -/
  | workerExecute
  /-- the worker queues the continuation -/
  | workerReinject
  /-- `drop` stores `is_stopping` -/
  | dropStore
  /-- `drop` notifies -/
  | dropNotify
  /-- `drop` returns from `join` -/
  | dropJoin
  deriving DecidableEq, Repr

/-- The steps other than a submission, a disconnect and an execution: they only move a request
between the queue and the worker's hand, or change where a thread is. -/
def Action.movesOnly {σ : Type} : Action σ → Bool
  | .execute _ | .onDisconnect _ | .workerExecute => false
  | _ => true

namespace ServerState

variable {σ ε : Type}

/-- `ServerImpl::new`: an empty queue, the worker about to start its loop. -/
def init : ServerState σ ε := ⟨.new, .loop, .running, 0, []⟩

/-- The worker's `next_task` under the lock: it takes the task, or goes on to `orElse`. -/
def pop (s : ServerState σ ε) (orElse : WorkerPc σ) : Option (ServerState σ ε) :=
  match s.queue.nextTask with
  | .ok (some task, q) => some { s with queue := q, worker := .executing task }
  | .ok (none, q) => some { s with queue := q, worker := orElse }
  | .error _ => none

theorem pop_cases {s s' : ServerState σ ε} {w : WorkerPc σ} (h : s.pop w = some s') :
    (∃ t q, s.queue.nextTask = .ok (some t, q) ∧
      s' = { s with queue := q, worker := .executing t }) ∨
      s.queue.peersQueue = [] ∧ s' = { s with worker := w } := by
  unfold pop at h
  split at h
  · cases h
    exact .inl ⟨_, _, ‹_›, rfl⟩
  · cases h
    obtain ⟨hpq, rfl⟩ := ServerQueue.nextTask_eq_none ‹_›
    exact .inr ⟨hpq, rfl⟩
  · cases h

theorem pop_frame {s s' : ServerState σ ε} {w : WorkerPc σ} (h : s.pop w = some s') :
    s'.emitted = s.emitted ∧ s'.nextRequest = s.nextRequest := by
  rcases pop_cases h with ⟨t, q, -, rfl⟩ | ⟨-, rfl⟩ <;> exact ⟨rfl, rfl⟩

variable [PeerTask σ] (exec : σ → Option (List ε × Option σ))

/-- **One step** of the thread that `a` names; `none` when that thread cannot take it, or
panics. -/
def step (s : ServerState σ ε) : Action σ → Option (ServerState σ ε)
  | .execute task =>
    if s.dropper = .running then
      some { s with
        queue := s.queue.addTask ⟨s.nextRequest, task⟩
        worker := s.worker.notify
        nextRequest := s.nextRequest + 1 }
    else none
  | .onDisconnect p =>
    if s.dropper = .running then
      match s.queue.removePeerTasks p with
      | .ok q => some { s with queue := q }
      | .error _ => none
    else none
  | .workerLock =>
    match s.worker with
    | .loop => if s.queue.isStopping then some { s with worker := .stopped } else s.pop .waiting
    | _ => none
  | .wake =>
    match s.worker with
    | .waiting => some { s with worker := .woken }
    | _ => none
  | .workerRelock =>
    match s.worker with
    | .woken => s.pop .loop
    | _ => none
  | .workerExecute =>
    match s.worker with
    | .executing r =>
      (exec r.task).map fun (effects, next) =>
        { s with
          emitted := s.emitted ++ effects.map (Sent.mk r.id (peerIndex r))
          worker := match next with
            | some task => .reinjecting ⟨r.id, task⟩
            | none => .loop }
    | _ => none
  | .workerReinject =>
    match s.worker with
    -- the `notify_one` of `add_task_front` finds no thread waiting: the worker makes it
    | .reinjecting r => some { s with queue := s.queue.addTaskFront r, worker := .loop }
    | _ => none
  | .dropStore =>
    if s.dropper = .running then
      some { s with queue := { s.queue with isStopping := true }, dropper := .stored }
    else none
  | .dropNotify =>
    if s.dropper = .stored then some { s with dropper := .notified, worker := s.worker.notify }
    else none
  | .dropJoin =>
    match s.dropper, s.worker with
    | .notified, .stopped => some { s with dropper := .joined }
    | _, _ => none

/-- The steps of `actions`, in order. -/
def run (s : ServerState σ ε) : List (Action σ) → Option (ServerState σ ε)
  | [] => some s
  | a :: actions => (step exec s a).bind fun s' => run s' actions

/-- The states that `init` leads to. -/
inductive Reachable : ServerState σ ε → Prop where
  | init : Reachable init
  | step {s s' : ServerState σ ε} {a : Action σ} :
      Reachable s → step exec s a = some s' → Reachable s'

theorem Reachable.of_run {s s' : ServerState σ ε} {actions : List (Action σ)}
    (hs : Reachable exec s) (h : run exec s actions = some s') : Reachable exec s' := by
  induction actions generalizing s with
  | nil => cases h; exact hs
  | cons a actions ih =>
    simp only [ServerState.run] at h
    cases hstep : ServerState.step exec s a with
    | none => simp [hstep] at h
    | some s₁ => exact ih (hs.step hstep) (by simpa [hstep] using h)

/-! ## What each action does -/

variable {exec} {s s' : ServerState σ ε}

theorem step_execute {task : σ} (h : step exec s (.execute task) = some s') :
    s.dropper = .running ∧ s' = { s with
      queue := s.queue.addTask ⟨s.nextRequest, task⟩
      worker := s.worker.notify
      nextRequest := s.nextRequest + 1 } := by
  simp only [step] at h
  split at h
  · exact ⟨‹_›, (Option.some.inj h).symm⟩
  · cases h

theorem step_onDisconnect {p : PeerIndex} (h : step exec s (.onDisconnect p) = some s') :
    s.dropper = .running ∧ ∃ q, s.queue.removePeerTasks p = .ok q ∧ s' = { s with queue := q } := by
  simp only [step] at h
  split at h
  · split at h
    · cases h
      exact ⟨‹_›, _, ‹_›, rfl⟩
    · cases h
  · cases h

theorem step_workerLock (h : step exec s .workerLock = some s') :
    s.worker = .loop ∧ (s.queue.isStopping ∧ s' = { s with worker := .stopped } ∨
      s.queue.isStopping = false ∧ s.pop .waiting = some s') := by
  simp only [step] at h
  split at h
  · split at h
    · exact ⟨‹_›, .inl ⟨‹_›, (Option.some.inj h).symm⟩⟩
    · exact ⟨‹_›, .inr ⟨Bool.eq_false_iff.mpr ‹_›, h⟩⟩
  all_goals cases h

theorem step_wake (h : step exec s .wake = some s') :
    s.worker = .waiting ∧ s' = { s with worker := .woken } := by
  simp only [step] at h
  split at h
  · exact ⟨‹_›, (Option.some.inj h).symm⟩
  all_goals cases h

theorem step_workerRelock (h : step exec s .workerRelock = some s') :
    s.worker = .woken ∧ s.pop .loop = some s' := by
  simp only [step] at h
  split at h
  · exact ⟨‹_›, h⟩
  all_goals cases h

theorem step_workerExecute (h : step exec s .workerExecute = some s') :
    ∃ r effects next, s.worker = .executing r ∧ exec r.task = some (effects, next) ∧
      s' = { s with
        emitted := s.emitted ++ effects.map (Sent.mk r.id (peerIndex r))
        worker := match next with
          | some task => .reinjecting ⟨r.id, task⟩
          | none => .loop } := by
  simp only [step] at h
  split at h
  · obtain ⟨⟨effects, next⟩, hexec, rfl⟩ := Option.map_eq_some'.mp h
    exact ⟨_, effects, next, ‹_›, hexec, rfl⟩
  all_goals cases h

theorem step_workerReinject (h : step exec s .workerReinject = some s') :
    ∃ r, s.worker = .reinjecting r ∧
      s' = { s with queue := s.queue.addTaskFront r, worker := .loop } := by
  simp only [step] at h
  split at h
  · exact ⟨_, ‹_›, (Option.some.inj h).symm⟩
  all_goals cases h

theorem step_dropStore (h : step exec s .dropStore = some s') :
    s.dropper = .running ∧
      s' = { s with queue := { s.queue with isStopping := true }, dropper := .stored } := by
  simp only [step] at h
  split at h
  · exact ⟨‹_›, (Option.some.inj h).symm⟩
  · cases h

theorem step_dropNotify (h : step exec s .dropNotify = some s') :
    s.dropper = .stored ∧ s' = { s with dropper := .notified, worker := s.worker.notify } := by
  simp only [step] at h
  split at h
  · exact ⟨‹_›, (Option.some.inj h).symm⟩
  · cases h

theorem step_dropJoin (h : step exec s .dropJoin = some s') :
    s.dropper = .notified ∧ s.worker = .stopped ∧ s' = { s with dropper := .joined } := by
  simp only [step] at h
  split at h
  · exact ⟨‹_›, ‹_›, (Option.some.inj h).symm⟩
  · cases h

/-! ## The queue's invariant -/

theorem queue_inv_pop (hq : s.queue.Inv) {w : WorkerPc σ} (h : s.pop w = some s') :
    s'.queue.Inv := by
  rcases pop_cases h with ⟨t, q, hn, rfl⟩ | ⟨-, rfl⟩
  · exact hq.of_nextTask hn
  · exact hq

/-- **Every step keeps the queue's invariant**, so no step panics in a reachable state. -/
theorem queue_inv_step (hq : s.queue.Inv) {a : Action σ} (h : step exec s a = some s') :
    s'.queue.Inv := by
  cases a with
  | execute task => obtain ⟨-, rfl⟩ := step_execute h; exact hq.addTask _
  | onDisconnect p =>
    obtain ⟨-, q, hrm, rfl⟩ := step_onDisconnect h
    exact hq.of_removePeerTasks hrm
  | workerLock =>
    obtain ⟨-, ⟨-, rfl⟩ | ⟨-, hpop⟩⟩ := step_workerLock h
    · exact hq
    · exact queue_inv_pop hq hpop
  | wake => obtain ⟨-, rfl⟩ := step_wake h; exact hq
  | workerRelock => exact queue_inv_pop hq (step_workerRelock h).2
  | workerExecute => obtain ⟨r, effects, next, -, -, rfl⟩ := step_workerExecute h; exact hq
  | workerReinject => obtain ⟨r, -, rfl⟩ := step_workerReinject h; exact hq.addTaskFront r
  | dropStore =>
    obtain ⟨-, rfl⟩ := step_dropStore h
    exact ⟨hq.nodup, hq.mem_iff, hq.nonempty, hq.peer_eq⟩
  | dropNotify => obtain ⟨-, rfl⟩ := step_dropNotify h; exact hq
  | dropJoin => obtain ⟨-, -, rfl⟩ := step_dropJoin h; exact hq

theorem Reachable.queue_inv (h : Reachable exec s) : s.queue.Inv := by
  induction h with
  | init => exact ServerQueue.inv_new
  | step _ hstep ih => exact queue_inv_step ih hstep

/-! ## The requests of one peer -/

/-- The requests of `p` still to serve: the one the worker holds, then those queued. -/
def lineRequests (s : ServerState σ ε) (p : PeerIndex) : List (Request σ) :=
  (s.worker.inflight.filter (peerIndex · = p)).toList ++ s.queue.pending p

/-- `next_task` moves the head of a deque into the worker's hand, where nothing was. -/
theorem lineRequests_pop (hq : s.queue.Inv) (hw : s.worker.inflight = none) {w : WorkerPc σ}
    (hwi : w.inflight = none) (h : s.pop w = some s') (p : PeerIndex) :
    s'.lineRequests p = s.lineRequests p := by
  rcases pop_cases h with ⟨t, q, hn, rfl⟩ | ⟨-, rfl⟩
  · obtain ⟨ts, hts, hpend⟩ := hq.nextTask_some hn
    simp only [lineRequests, WorkerPc.inflight_executing, hw, hpend, Function.update_apply]
    by_cases hp : p = peerIndex t
    · subst hp
      simp [hts, Option.filter]
    · simp [hp, Ne.symm hp, Option.filter]
  · simp [lineRequests, hw, hwi]

/-- **Frame of the steps that only move requests**: each peer's line, the effects emitted and
the request counter stay as they are. -/
theorem step_movesOnly (hq : s.queue.Inv) {a : Action σ} (ha : a.movesOnly)
    (h : step exec s a = some s') (p : PeerIndex) :
    s'.lineRequests p = s.lineRequests p ∧ s'.emitted = s.emitted ∧
      s'.nextRequest = s.nextRequest := by
  cases a with
  | execute | onDisconnect | workerExecute => cases ha
  | workerLock =>
    obtain ⟨hw, ⟨-, rfl⟩ | ⟨-, hpop⟩⟩ := step_workerLock h
    · simp [lineRequests, hw]
    · exact ⟨lineRequests_pop hq (by simp [hw]) (by rfl) hpop p, pop_frame hpop⟩
  | wake =>
    obtain ⟨hw, rfl⟩ := step_wake h
    simp [lineRequests, hw]
  | workerRelock =>
    obtain ⟨hw, hpop⟩ := step_workerRelock h
    exact ⟨lineRequests_pop hq (by simp [hw]) (by rfl) hpop p, pop_frame hpop⟩
  | workerReinject =>
    obtain ⟨r, hw, rfl⟩ := step_workerReinject h
    by_cases hp : p = peerIndex r.task
    · simp [lineRequests, hw, hp, Option.filter, Request.peerIndex_eq]
    · simp [lineRequests, hw, hp, Ne.symm hp, Option.filter, Request.peerIndex_eq]
  | dropStore => obtain ⟨-, rfl⟩ := step_dropStore h; exact ⟨rfl, rfl, rfl⟩
  | dropNotify => obtain ⟨-, rfl⟩ := step_dropNotify h; simp [lineRequests]
  | dropJoin => obtain ⟨-, -, rfl⟩ := step_dropJoin h; exact ⟨rfl, rfl, rfl⟩

end ServerState

end RandchainSync
