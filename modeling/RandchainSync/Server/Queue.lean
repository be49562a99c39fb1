import Mathlib.Logic.Function.Basic
import Mathlib.Data.List.Nodup
import RandchainSync.Message.Types

/-!
# The request server's queue

`ServerQueue` keeps, per peer, a deque of pending tasks (`tasks_queue`), and the peers with
pending work in service order (`peers_queue`). `next_task` serves the front peer and sends it to
the back if it has more; `add_task` and `add_task_front` queue a task at the back or the front of
its peer's deque; `remove_peer_tasks` drops a peer. `next_task` and `remove_peer_tasks` `expect`
the two structures to agree, and panic otherwise: here a panic is an `.error` with the text of
the `expect`.

The queue is generic in its task, so that the proofs about the worker can tag each task with the
request it serves; the server's own queue is `ServerQueue ServerTask`.

## Main definitions

* `PeerTask`: tasks that name their peer
* `ServerQueue`, with `new`, `nextTask`, `addTask`, `addTaskFront`, `removePeerTasks`
* `ServerQueue.pending q p`: the tasks of `p`, `[]` when the peer has no entry
* `QueueOp`, `ServerQueue.Reachable`: the states `new` leads to

## Main results

* `pending_addTask`, `pending_addTaskFront`, `peersQueue_addTask`, `peersQueue_addTaskFront`:
  what the two insertions do, whatever the state
* `nextTask_cons`, `removePeerTasks_some`: the non-panicking cases of the other two
-/

namespace RandchainSync

/-- Tasks that name the peer they serve. -/
class PeerTask (τ : Type) where
  peerIndex : τ → PeerIndex

instance : PeerTask ServerTask := ⟨ServerTask.peerIndex⟩

/-- **`ServerQueue`**. The condition variable `queue_ready` belongs to the worker's model. -/
structure ServerQueue (τ : Type) where
  isStopping : Bool
  peersQueue : List PeerIndex
  tasksQueue : PeerIndex → Option (List τ)

namespace ServerQueue

variable {τ : Type}

/-- `ServerQueue::new`. -/
def new : ServerQueue τ := ⟨false, [], fun _ => none⟩

/-- The tasks pending for a peer; a peer with no entry has none. -/
def pending (q : ServerQueue τ) (p : PeerIndex) : List τ := (q.tasksQueue p).getD []

@[simp] theorem pending_new (p : PeerIndex) : (new : ServerQueue τ).pending p = [] := rfl

@[simp] theorem peersQueue_new : (new : ServerQueue τ).peersQueue = [] := rfl

@[simp] theorem tasksQueue_new (p : PeerIndex) : (new : ServerQueue τ).tasksQueue p = none := rfl

@[simp] theorem isStopping_new : (new : ServerQueue τ).isStopping = false := rfl

theorem pending_update (q : ServerQueue τ) (p r : PeerIndex) (v : Option (List τ)) :
    (Function.update q.tasksQueue r v p).getD [] =
      if p = r then v.getD [] else q.pending p := by
  by_cases h : p = r
  · subst h; simp
  · simp [h, pending]

/-- **`ServerQueue::next_task`**, with the new state. -/
def nextTask (q : ServerQueue τ) : Except String (Option τ × ServerQueue τ) :=
  match q.peersQueue with
  | [] => .ok (none, q)
  | peerIndex :: peersQueue =>
    match q.tasksQueue peerIndex with
    | none => .error "entry from tasks_queue is removed when empty; when empty, peer is removed from peers_queue; qed"
    | some [] => .error "entry from peer_tasks is removed when empty; when empty, peer is removed from peers_queue; qed"
    | some (peerTask :: peerTasks) =>
      -- remove if no tasks left || schedule otherwise
      if !peerTasks.isEmpty then
        .ok (some peerTask, { q with
          peersQueue := peersQueue ++ [peerIndex]
          tasksQueue := Function.update q.tasksQueue peerIndex (some peerTasks) })
      else
        .ok (some peerTask, { q with
          peersQueue := peersQueue
          tasksQueue := Function.update q.tasksQueue peerIndex none })

section Insert

variable [PeerTask τ]

open PeerTask (peerIndex)

/-- **`ServerQueue::add_task`**; the `notify_one` belongs to the worker's model. -/
def addTask (q : ServerQueue τ) (task : τ) : ServerQueue τ :=
  let peerIndex := peerIndex task
  match q.tasksQueue peerIndex with
  | some tasks =>
    { q with
      tasksQueue := Function.update q.tasksQueue peerIndex (some (tasks ++ [task]))
      peersQueue := if tasks.isEmpty then q.peersQueue ++ [peerIndex] else q.peersQueue }
  | none =>
    { q with
      tasksQueue := Function.update q.tasksQueue peerIndex (some [task])
      peersQueue := q.peersQueue ++ [peerIndex] }

/-- **`ServerQueue::add_task_front`**: as `add_task`, but at the front of the peer's deque. -/
def addTaskFront (q : ServerQueue τ) (task : τ) : ServerQueue τ :=
  let peerIndex := peerIndex task
  match q.tasksQueue peerIndex with
  | some tasks =>
    { q with
      tasksQueue := Function.update q.tasksQueue peerIndex (some (task :: tasks))
      peersQueue := if tasks.isEmpty then q.peersQueue ++ [peerIndex] else q.peersQueue }
  | none =>
    { q with
      tasksQueue := Function.update q.tasksQueue peerIndex (some [task])
      peersQueue := q.peersQueue ++ [peerIndex] }

end Insert

/-- **`ServerQueue::remove_peer_tasks`**. `position` finds the first entry of the peer and
`remove` deletes it, which is `List.erase`. -/
def removePeerTasks (q : ServerQueue τ) (peerIndex : PeerIndex) : Except String (ServerQueue τ) :=
  match q.tasksQueue peerIndex with
  | none => .ok q
  | some _ =>
    let q := { q with tasksQueue := Function.update q.tasksQueue peerIndex none }
    if peerIndex ∈ q.peersQueue then .ok { q with peersQueue := q.peersQueue.erase peerIndex }
    else .error "there are tasks for peer in tasks_queue; all tasks from tasks_queue are queued in peers_queue; qed"

/-! ## What each operation does -/

theorem nextTask_nil {q : ServerQueue τ} (h : q.peersQueue = []) : q.nextTask = .ok (none, q) := by
  simp [nextTask, h]

/-- The front peer's first task is served, and the peer goes to the back if it has more. -/
theorem nextTask_cons {q : ServerQueue τ} {p : PeerIndex} {rest : List PeerIndex} {t : τ}
    {ts : List τ} (h : q.peersQueue = p :: rest) (ht : q.tasksQueue p = some (t :: ts)) :
    q.nextTask = .ok (some t, { q with
      peersQueue := if ts.isEmpty then rest else rest ++ [p]
      tasksQueue := Function.update q.tasksQueue p (if ts.isEmpty then none else some ts) }) := by
  cases ts <;> simp [nextTask, h, ht]

/-- `next_task` returns no task only on an empty `peers_queue`, and then changes nothing. -/
theorem nextTask_eq_none {q q' : ServerQueue τ} (h : q.nextTask = .ok (none, q')) :
    q.peersQueue = [] ∧ q' = q := by
  cases hpq : q.peersQueue with
  | nil =>
    rw [nextTask_nil hpq] at h
    cases h
    exact ⟨rfl, rfl⟩
  | cons p rest =>
    simp only [nextTask, hpq] at h
    split at h <;> (try split at h) <;> cases h

theorem isStopping_of_nextTask {q q' : ServerQueue τ} {out : Option τ}
    (h : q.nextTask = .ok (out, q')) : q'.isStopping = q.isStopping := by
  cases hpq : q.peersQueue with
  | nil =>
    rw [nextTask_nil hpq] at h
    cases h
    rfl
  | cons p rest =>
    simp only [nextTask, hpq] at h
    split at h <;> (try split at h) <;> cases h <;> rfl

theorem removePeerTasks_none {q : ServerQueue τ} {p : PeerIndex} (h : q.tasksQueue p = none) :
    q.removePeerTasks p = .ok q := by
  simp [removePeerTasks, h]

theorem removePeerTasks_some {q : ServerQueue τ} {p : PeerIndex} {ts : List τ}
    (h : q.tasksQueue p = some ts) (hp : p ∈ q.peersQueue) :
    q.removePeerTasks p = .ok { q with
      peersQueue := q.peersQueue.erase p
      tasksQueue := Function.update q.tasksQueue p none } := by
  simp [removePeerTasks, h, hp]

section Insert

variable [PeerTask τ]

open PeerTask (peerIndex)

theorem tasksQueue_addTask (q : ServerQueue τ) (task : τ) :
    (q.addTask task).tasksQueue =
      Function.update q.tasksQueue (peerIndex task)
        (some (q.pending (peerIndex task) ++ [task])) := by
  unfold pending
  cases h : q.tasksQueue (peerIndex task) <;> simp [addTask, h]

theorem tasksQueue_addTaskFront (q : ServerQueue τ) (task : τ) :
    (q.addTaskFront task).tasksQueue =
      Function.update q.tasksQueue (peerIndex task)
        (some (task :: q.pending (peerIndex task))) := by
  unfold pending
  cases h : q.tasksQueue (peerIndex task) <;> simp [addTaskFront, h]

theorem peersQueue_addTask (q : ServerQueue τ) (task : τ) :
    (q.addTask task).peersQueue =
      if (q.pending (peerIndex task)).isEmpty then q.peersQueue ++ [peerIndex task]
      else q.peersQueue := by
  unfold pending
  cases h : q.tasksQueue (peerIndex task) <;> simp [addTask, h]

theorem peersQueue_addTaskFront (q : ServerQueue τ) (task : τ) :
    (q.addTaskFront task).peersQueue =
      if (q.pending (peerIndex task)).isEmpty then q.peersQueue ++ [peerIndex task]
      else q.peersQueue := by
  unfold pending
  cases h : q.tasksQueue (peerIndex task) <;> simp [addTaskFront, h]

@[simp] theorem isStopping_addTask (q : ServerQueue τ) (task : τ) :
    (q.addTask task).isStopping = q.isStopping := by
  cases h : q.tasksQueue (peerIndex task) <;> simp [addTask, h]

@[simp] theorem isStopping_addTaskFront (q : ServerQueue τ) (task : τ) :
    (q.addTaskFront task).isStopping = q.isStopping := by
  cases h : q.tasksQueue (peerIndex task) <;> simp [addTaskFront, h]

@[simp] theorem pending_addTask (q : ServerQueue τ) (task : τ) (p : PeerIndex) :
    (q.addTask task).pending p =
      if p = peerIndex task then q.pending p ++ [task] else q.pending p := by
  rw [pending, tasksQueue_addTask, pending_update]
  split <;> simp_all

@[simp] theorem pending_addTaskFront (q : ServerQueue τ) (task : τ) (p : PeerIndex) :
    (q.addTaskFront task).pending p =
      if p = peerIndex task then task :: q.pending p else q.pending p := by
  rw [pending, tasksQueue_addTaskFront, pending_update]
  split <;> simp_all

end Insert

/-! ## Reachable states -/

variable [PeerTask τ]

/-- The four operations on the queue. -/
inductive QueueOp (τ : Type) where
  | addTask (task : τ)
  | addTaskFront (task : τ)
  | nextTask
  | removePeerTasks (peerIndex : PeerIndex)

/-- One operation: the task served, if any, and the new state, or the panic. -/
def QueueOp.apply : QueueOp τ → ServerQueue τ → Except String (Option τ × ServerQueue τ)
  | .addTask task, q => .ok (none, q.addTask task)
  | .addTaskFront task, q => .ok (none, q.addTaskFront task)
  | .nextTask, q => q.nextTask
  | .removePeerTasks p, q => (q.removePeerTasks p).map fun q => (none, q)

/-- The states that `new` leads to by operations that do not panic. -/
inductive Reachable : ServerQueue τ → Prop where
  | new : Reachable new
  | step {q q' : ServerQueue τ} {op : QueueOp τ} {out : Option τ} :
      Reachable q → op.apply q = .ok (out, q') → Reachable q'

theorem Reachable.addTask {q : ServerQueue τ} (h : q.Reachable) (task : τ) :
    (q.addTask task).Reachable :=
  h.step (show (QueueOp.addTask task).apply q = .ok (none, q.addTask task) from rfl)

theorem Reachable.addTaskFront {q : ServerQueue τ} (h : q.Reachable) (task : τ) :
    (q.addTaskFront task).Reachable :=
  h.step (show (QueueOp.addTaskFront task).apply q = .ok (none, q.addTaskFront task) from rfl)

end ServerQueue

end RandchainSync
