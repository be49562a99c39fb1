import RandchainSync.Server.QueueInvariant

/-!
# The queue refines a map from peers to task lists

What `ServerQueue` is for: a map from each peer to the list of its pending tasks, read from
`tasks_queue` with an absent entry as `[]` (`ServerQueue.pending`). `add_task` appends to the
peer's list, `add_task_front` prepends, `remove_peer_tasks` empties it, and `next_task` takes the
head of the list of the peer at the front of `peers_queue`. `QueueOp.specApply` is that abstract
queue, written from this description; the peer `next_task` serves is its parameter, since which
peer goes first is the scheduling question of `Server.Fairness`.

## Main definitions

* `QueueOp.specApply`: the abstract effect of one operation on the map of pending tasks
* `ServerQueue.RefinesSpec q`: every operation on `q` is the abstract one, read through `pending`

## Main results

* `pending_addTask_eq`, `pending_addTaskFront_eq`, `Inv.removePeerTasks_pending`,
  `Inv.nextTask_pending`: one simulation lemma per operation
* `Inv.front_eq_none_iff`: the front is empty exactly when every list is
* `reachable_refines_pending`: every reachable queue refines the abstract queue
-/

namespace RandchainSync

namespace ServerQueue

variable {τ : Type} {q : ServerQueue τ}

theorem pending_eq_update {q' : ServerQueue τ} {r : PeerIndex} {v : Option (List τ)}
    (h : q'.tasksQueue = Function.update q.tasksQueue r v) :
    q'.pending = Function.update q.pending r (v.getD []) := by
  funext p
  rw [pending, h, pending_update, Function.update_apply]

variable [PeerTask τ]

open PeerTask (peerIndex)

/-- **The abstract queue**: what one operation does to the map from peers to their pending
tasks, and what it returns, when `next_task` serves the peer `front`. -/
def QueueOp.specApply (front : Option PeerIndex) :
    QueueOp τ → (PeerIndex → List τ) → Option τ × (PeerIndex → List τ)
  | .addTask t, m => (none, Function.update m (peerIndex t) (m (peerIndex t) ++ [t]))
  | .addTaskFront t, m => (none, Function.update m (peerIndex t) (t :: m (peerIndex t)))
  | .removePeerTasks p, m => (none, Function.update m p [])
  | .nextTask, m =>
    match front with
    | none => (none, m)
    | some p => ((m p).head?, Function.update m p (m p).tail)

/-- **Refinement of the abstract queue at `q`**: every operation succeeds and acts on
`pending` as `specApply` does with the front of `peers_queue`, and there is no front exactly
when no task is pending. -/
structure RefinesSpec (q : ServerQueue τ) : Prop where
  step : ∀ op : QueueOp τ, ∃ out q', op.apply q = .ok (out, q') ∧
    (out, q'.pending) = op.specApply q.peersQueue.head? q.pending
  front_eq_none_iff : q.peersQueue.head? = none ↔ ∀ p, q.pending p = []

/-! ## One simulation lemma per operation -/

theorem pending_addTask_eq (q : ServerQueue τ) (t : τ) :
    (q.addTask t).pending =
      Function.update q.pending (peerIndex t) (q.pending (peerIndex t) ++ [t]) :=
  pending_eq_update (tasksQueue_addTask q t)

theorem pending_addTaskFront_eq (q : ServerQueue τ) (t : τ) :
    (q.addTaskFront t).pending =
      Function.update q.pending (peerIndex t) (t :: q.pending (peerIndex t)) :=
  pending_eq_update (tasksQueue_addTaskFront q t)

theorem Inv.removePeerTasks_pending (hq : q.Inv) (p : PeerIndex) :
    ∃ q', q.removePeerTasks p = .ok q' ∧ q'.pending = Function.update q.pending p [] :=
  ⟨_, hq.removePeerTasks_eq p, pending_eq_update rfl⟩

/-- `next_task` on a non-empty queue serves the head of the front peer's list and removes
exactly that task. -/
theorem Inv.nextTask_pending (hq : q.Inv) {p : PeerIndex} {rest : List PeerIndex}
    (h : q.peersQueue = p :: rest) :
    ∃ q', q.nextTask = .ok ((q.pending p).head?, q') ∧
      q'.pending = Function.update q.pending p (q.pending p).tail := by
  obtain ⟨t, ts, ht⟩ := hq.front h
  have hp : q.pending p = t :: ts := by simp [pending, ht]
  refine ⟨_, by rw [hp]; exact nextTask_cons h ht, ?_⟩
  rw [pending_eq_update rfl, hp]
  cases ts <;> rfl

/-- A task that `next_task` serves was the head of its peer's list, and only it is removed. -/
theorem Inv.nextTask_some (hq : q.Inv) {t : τ} {q' : ServerQueue τ}
    (h : q.nextTask = .ok (some t, q')) :
    ∃ ts, q.pending (peerIndex t) = t :: ts ∧
      q'.pending = Function.update q.pending (peerIndex t) ts := by
  cases hpq : q.peersQueue with
  | nil => rw [nextTask_nil hpq] at h; cases h
  | cons p rest =>
    obtain ⟨q'', hn, hpend⟩ := hq.nextTask_pending hpq
    obtain ⟨hhead, rfl⟩ := Prod.mk.inj (Except.ok.inj (hn.symm.trans h))
    obtain ⟨ts, hts⟩ := List.head?_eq_some_iff.mp hhead
    have hp : peerIndex t = p := hq.peer_eq_of_mem_pending (by simp [hts])
    subst hp
    exact ⟨ts, hts, by rw [hpend, hts, List.tail_cons]⟩

theorem Inv.front_eq_none_iff (hq : q.Inv) :
    q.peersQueue.head? = none ↔ ∀ p, q.pending p = [] := by
  rw [List.head?_eq_none_iff, List.eq_nil_iff_forall_not_mem]
  exact forall_congr' fun p => (List.isEmpty_iff.symm.trans (hq.pending_isEmpty p)).symm

theorem Inv.refinesSpec (hq : q.Inv) : q.RefinesSpec := by
  refine ⟨fun op => ?_, hq.front_eq_none_iff⟩
  cases op with
  | addTask t => exact ⟨none, _, rfl, by rw [pending_addTask_eq]; rfl⟩
  | addTaskFront t => exact ⟨none, _, rfl, by rw [pending_addTaskFront_eq]; rfl⟩
  | removePeerTasks p =>
    obtain ⟨q', h, hpend⟩ := hq.removePeerTasks_pending p
    exact ⟨none, q', by simp [QueueOp.apply, h]; rfl, by rw [hpend]; rfl⟩
  | nextTask =>
    cases hpq : q.peersQueue with
    | nil => exact ⟨none, q, nextTask_nil hpq, by simp [QueueOp.specApply, hpq]⟩
    | cons p rest =>
      obtain ⟨q', h, hpend⟩ := hq.nextTask_pending hpq
      exact ⟨_, q', h, by simp [QueueOp.specApply, hpend]⟩

/-- **`ServerQueue` refines the abstract queue.** In every state reachable from `new`, each
operation acts on the map of pending tasks as the abstract queue does: `add_task` appends to
the peer's list, `add_task_front` prepends, `remove_peer_tasks` empties it and leaves the other
lists alone, and `next_task` returns the head of the front peer's list and removes exactly that
task; it returns `None` exactly when every list is empty. -/
theorem reachable_refines_pending {q : ServerQueue τ} (h : q.Reachable) : q.RefinesSpec :=
  h.inv.refinesSpec

theorem reachable_refines_pending_two_peers :
    let q := ((new : ServerQueue ServerTask).addTask (.mempool 0)).addTaskFront (.mempool 1)
    q.Reachable ∧ q.RefinesSpec :=
  have h := (Reachable.new.addTask (.mempool 0)).addTaskFront (.mempool 1)
  ⟨h, reachable_refines_pending h⟩

end ServerQueue

end RandchainSync
