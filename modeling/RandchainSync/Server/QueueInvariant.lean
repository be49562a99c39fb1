import RandchainSync.Server.Queue

/-!
# The queue's representation invariant

`peers_queue` lists, without repetition, exactly the peers that have an entry in
`tasks_queue`; every entry is a non-empty deque of tasks of its own peer. Each operation keeps
this, and under it neither `next_task` nor `remove_peer_tasks` reaches an `expect` that fails.

## Main definitions

* `ServerQueue.Inv`

## Main results

* `Inv.addTask`, `Inv.addTaskFront`, `Inv.of_nextTask`, `Inv.of_removePeerTasks`: the step lemmas
* `Inv.nextTask_ok`, `Inv.removePeerTasks_ok`: no panic under the invariant
* `Inv.apply_ok`, `reachable_inv_no_panic`: every reachable queue satisfies the invariant and
  never panics
-/

namespace RandchainSync

namespace ServerQueue

variable {τ : Type} [PeerTask τ] {q q' : ServerQueue τ}

open PeerTask (peerIndex)

/-- **The representation invariant of `ServerQueue`**. -/
structure Inv (q : ServerQueue τ) : Prop where
  nodup : q.peersQueue.Nodup
  mem_iff : ∀ p, p ∈ q.peersQueue ↔ (q.tasksQueue p).isSome
  nonempty : ∀ p tasks, q.tasksQueue p = some tasks → tasks ≠ []
  peer_eq : ∀ p tasks, q.tasksQueue p = some tasks → ∀ t ∈ tasks, peerIndex t = p

theorem inv_new : (new : ServerQueue τ).Inv := ⟨List.nodup_nil, by simp, by simp, by simp⟩

theorem Inv.pending_isEmpty (hq : q.Inv) (p : PeerIndex) :
    (q.pending p).isEmpty ↔ p ∉ q.peersQueue := by
  rw [hq.mem_iff]
  cases h : q.tasksQueue p with
  | none => simp [pending, h]
  | some ts => simpa [pending, h, List.isEmpty_iff] using hq.nonempty p ts h

theorem Inv.peer_eq_of_mem_pending (hq : q.Inv) {p : PeerIndex} {t : τ}
    (ht : t ∈ q.pending p) : peerIndex t = p := by
  unfold pending at ht
  cases h : q.tasksQueue p <;> simp only [h, Option.getD_none, Option.getD_some] at ht
  · simp at ht
  · exact hq.peer_eq p _ h t ht

/-! ## The insertions

`add_task` and `add_task_front` differ only in where the task goes in its peer's deque, so one
lemma covers both: the peer's entry becomes a non-empty list of its old tasks and the new one,
and the peer joins `peers_queue` exactly when its deque was empty. -/

theorem Inv.of_insert (hq : q.Inv) (task : τ) {tasks : List τ}
    (htasks : ∀ t ∈ tasks, t = task ∨ t ∈ q.pending (peerIndex task)) (hne : tasks ≠ [])
    (hpq : q'.peersQueue = if (q.pending (peerIndex task)).isEmpty then
      q.peersQueue ++ [peerIndex task] else q.peersQueue)
    (htq : q'.tasksQueue = Function.update q.tasksQueue (peerIndex task) (some tasks)) :
    q'.Inv := by
  have hmem := hq.pending_isEmpty (peerIndex task)
  have hentry : ∀ p ts, q'.tasksQueue p = some ts →
      (p = peerIndex task ∧ ts = tasks) ∨ q.tasksQueue p = some ts := by
    intro p ts h
    rw [htq] at h
    by_cases hp : p = peerIndex task
    · subst hp
      simp only [Function.update_same, Option.some.injEq] at h
      exact .inl ⟨rfl, h.symm⟩
    · rw [Function.update_noteq hp] at h
      exact .inr h
  refine ⟨?_, fun p => ?_, fun p ts h => ?_, fun p ts h t ht => ?_⟩
  · rw [hpq]
    split
    · exact hq.nodup.append (List.nodup_singleton _)
        (List.disjoint_singleton.mpr (hmem.mp ‹_›))
    · exact hq.nodup
  · rw [hpq, htq]
    by_cases hp : p = peerIndex task
    · subst hp
      split <;> simp_all
    · rw [Function.update_noteq hp, ← hq.mem_iff]
      split <;> simp [hp]
  · rcases hentry p ts h with ⟨-, rfl⟩ | h
    · exact hne
    · exact hq.nonempty p ts h
  · rcases hentry p ts h with ⟨rfl, rfl⟩ | h
    · rcases htasks t ht with rfl | ht
      · rfl
      · exact hq.peer_eq_of_mem_pending ht
    · exact hq.peer_eq p ts h t ht

theorem Inv.addTask (hq : q.Inv) (task : τ) : (q.addTask task).Inv :=
  hq.of_insert task (by simp [or_comm]) (by simp) (peersQueue_addTask q task)
    (tasksQueue_addTask q task)

theorem Inv.addTaskFront (hq : q.Inv) (task : τ) : (q.addTaskFront task).Inv :=
  hq.of_insert task (by simp) (by simp) (peersQueue_addTaskFront q task)
    (tasksQueue_addTaskFront q task)

/-! ## Serving and dropping -/

/-- Under the invariant the front peer has a non-empty deque. -/
theorem Inv.front (hq : q.Inv) {p : PeerIndex} {rest : List PeerIndex}
    (h : q.peersQueue = p :: rest) : ∃ t ts, q.tasksQueue p = some (t :: ts) := by
  have := (hq.mem_iff p).mp (by simp [h])
  obtain ⟨tasks, htasks⟩ := Option.isSome_iff_exists.mp this
  cases tasks with
  | nil => exact absurd rfl (hq.nonempty p [] htasks)
  | cons t ts => exact ⟨t, ts, htasks⟩

theorem Inv.nextTask_ok (hq : q.Inv) : ∀ msg, q.nextTask ≠ .error msg := by
  intro msg
  cases h : q.peersQueue with
  | nil => simp [nextTask_nil h]
  | cons p rest =>
    obtain ⟨t, ts, ht⟩ := hq.front h
    simp [nextTask_cons h ht]

/-- Under the invariant `next_task` serves a task of the front peer, and the other peers keep
their order at the front of `peers_queue`. -/
theorem Inv.nextTask_of_cons (hq : q.Inv) {p : PeerIndex} {rest : List PeerIndex}
    (h : q.peersQueue = p :: rest) :
    ∃ t q', q.nextTask = .ok (some t, q') ∧ peerIndex t = p ∧
      ∃ tail, q'.peersQueue = rest ++ tail := by
  obtain ⟨t, ts, ht⟩ := hq.front h
  refine ⟨t, _, nextTask_cons h ht, hq.peer_eq p _ ht t (List.mem_cons_self t ts), ?_⟩
  split
  · exact ⟨[], (List.append_nil rest).symm⟩
  · exact ⟨[p], rfl⟩

theorem Inv.of_nextTask (hq : q.Inv) {out : Option τ} (h : q.nextTask = .ok (out, q')) :
    q'.Inv := by
  cases hpq : q.peersQueue with
  | nil =>
    rw [nextTask_nil hpq] at h
    cases h
    exact hq
  | cons p rest =>
    obtain ⟨t, ts, ht⟩ := hq.front hpq
    rw [nextTask_cons hpq ht] at h
    cases h
    have hnd := hq.nodup
    rw [hpq, List.nodup_cons] at hnd
    -- an entry after the update is `p`'s rest, non-empty, or an entry from before
    have hentry : ∀ r tasks, Function.update q.tasksQueue p
        (if ts.isEmpty then none else some ts) r = some tasks →
        (r = p ∧ tasks = ts ∧ tasks ≠ []) ∨ q.tasksQueue r = some tasks := by
      intro r tasks h
      by_cases hr : r = p
      · subst hr
        rw [Function.update_same] at h
        cases hts : ts.isEmpty <;> simp only [hts, Bool.false_eq_true, ↓reduceIte] at h <;>
          cases h
        exact .inl ⟨rfl, rfl, by simpa [List.isEmpty_iff] using hts⟩
      · rw [Function.update_noteq hr] at h
        exact .inr h
    refine ⟨?_, fun r => ?_, fun r tasks h => ?_, fun r tasks h x hx => ?_⟩
    · dsimp only
      split
      · exact hnd.2
      · exact hnd.2.append (List.nodup_singleton _) (List.disjoint_singleton.mpr hnd.1)
    · dsimp only
      by_cases hr : r = p
      · subst hr
        split <;> simp_all
      · rw [Function.update_noteq hr, ← hq.mem_iff, hpq]
        split <;> simp [hr]
    · rcases hentry r tasks h with ⟨-, -, hne⟩ | h
      · exact hne
      · exact hq.nonempty r tasks h
    · rcases hentry r tasks h with ⟨rfl, rfl, -⟩ | h
      · exact hq.peer_eq _ _ ht x (List.mem_cons_of_mem _ hx)
      · exact hq.peer_eq r tasks h x hx

/-- Under the invariant `remove_peer_tasks` succeeds and drops the peer from both structures;
a peer with no entry is in neither, so its case is the same. -/
theorem Inv.removePeerTasks_eq (hq : q.Inv) (p : PeerIndex) :
    q.removePeerTasks p = .ok { q with
      peersQueue := q.peersQueue.erase p
      tasksQueue := Function.update q.tasksQueue p none } := by
  cases h : q.tasksQueue p with
  | none =>
    have hp : p ∉ q.peersQueue := by simp [hq.mem_iff, h]
    rw [removePeerTasks_none h, List.erase_of_not_mem hp, ← h, Function.update_eq_self]
  | some ts => exact removePeerTasks_some h ((hq.mem_iff p).mpr (by simp [h]))

theorem Inv.removePeerTasks_ok (hq : q.Inv) (p : PeerIndex) :
    ∀ msg, q.removePeerTasks p ≠ .error msg := by
  simp [hq.removePeerTasks_eq p]

theorem Inv.of_removePeerTasks (hq : q.Inv) {p : PeerIndex} (h : q.removePeerTasks p = .ok q') :
    q'.Inv := by
  rw [hq.removePeerTasks_eq p] at h
  cases h
  refine ⟨hq.nodup.erase p, fun r => ?_, fun r tasks h => ?_, fun r tasks h => ?_⟩ <;>
    by_cases hr : r = p
  · subst hr
    simp [hq.nodup.mem_erase_iff]
  · simp [List.mem_erase_of_ne hr, Function.update_noteq hr, hq.mem_iff]
  · subst hr
    simp at h
  · exact hq.nonempty r tasks (by simpa [Function.update_noteq hr] using h)
  · subst hr
    simp at h
  · exact hq.peer_eq r tasks (by simpa [Function.update_noteq hr] using h)

theorem Inv.of_apply (hq : q.Inv) {op : QueueOp τ} {out : Option τ}
    (h : op.apply q = .ok (out, q')) : q'.Inv := by
  cases op with
  | addTask task => cases h; exact hq.addTask task
  | addTaskFront task => cases h; exact hq.addTaskFront task
  | nextTask => exact hq.of_nextTask h
  | removePeerTasks p =>
    cases hr : q.removePeerTasks p with
    | error msg => simp only [QueueOp.apply, hr] at h; cases h
    | ok q'' =>
      simp only [QueueOp.apply, hr] at h
      cases h
      exact hq.of_removePeerTasks hr

/-- Under the invariant no operation panics. -/
theorem Inv.apply_ok (hq : q.Inv) (op : QueueOp τ) : ∃ out q', op.apply q = .ok (out, q') := by
  cases op with
  | addTask task => exact ⟨none, _, rfl⟩
  | addTaskFront task => exact ⟨none, _, rfl⟩
  | nextTask =>
    cases h : q.nextTask with
    | error msg => exact absurd h (hq.nextTask_ok msg)
    | ok r => exact ⟨r.1, r.2, h⟩
  | removePeerTasks p => exact ⟨none, _, by simp [QueueOp.apply, hq.removePeerTasks_eq p]; rfl⟩

theorem Reachable.inv {q : ServerQueue τ} (h : q.Reachable) : q.Inv := by
  induction h with
  | new => exact inv_new
  | step _ hstep ih => exact ih.of_apply hstep

/-- **The queue's invariant, and no panic.** In every state reachable from `new` by any
operations: `peers_queue` has no duplicates, holds exactly the peers with an entry in
`tasks_queue`, every entry is a non-empty deque of tasks of its own peer; and neither
`next_task` nor `remove_peer_tasks` panics. -/
theorem reachable_inv_no_panic {q : ServerQueue τ} (h : q.Reachable) :
    q.Inv ∧ (∀ msg, q.nextTask ≠ .error msg) ∧ ∀ p msg, q.removePeerTasks p ≠ .error msg :=
  ⟨h.inv, h.inv.nextTask_ok, h.inv.removePeerTasks_ok⟩

theorem reachable_inv_no_panic_two_peers :
    let q := ((new : ServerQueue ServerTask).addTask (.mempool 0)).addTaskFront (.mempool 1)
    q.Reachable ∧
      q.Inv ∧ (∀ msg, q.nextTask ≠ .error msg) ∧ ∀ p msg, q.removePeerTasks p ≠ .error msg :=
  have h := (Reachable.new.addTask (.mempool 0)).addTaskFront (.mempool 1)
  ⟨h, reachable_inv_no_panic h⟩

end ServerQueue

end RandchainSync
