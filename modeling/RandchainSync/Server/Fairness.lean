import RandchainSync.Server.QueueInvariant

/-!
# Round-robin service

A peer `p` in `peers_queue` waits behind the peers before it (`WaitsBehind q p ahead`). Each
operation other than `remove_peer_tasks p` keeps `p` waiting behind a sublist of `ahead`:
insertions append at the back, a removal erases another peer, and `next_task` serves the front
peer and sends it, if it has more, behind `p`. `next_task` with nobody ahead serves `p`.
So `p` is served within `ahead.length + 1` calls of `next_task`, and the peers served before it
are, in order, a sublist of `ahead`: none of them is served twice while `p` waits.

## Main definitions

* `QueueOp.isNextTask`, `servedBy`: the tasks the `next_task` calls of a run return
* `servedBefore p`: the peers served before the first task of `p`
* `ServerQueue.WaitsBehind`, `ServerQueue.RoundRobinAt`

## Main results

* `Inv.waitsBehind_step`: what one operation does to the peers ahead of `p`
* `Inv.served_within`, `Inv.servedBefore_sublist`: the run lemmas
* `reachable_round_robin`: bounded waiting and round-robin order in every reachable state
-/

namespace RandchainSync

namespace ServerQueue

variable {τ : Type} {q q' : ServerQueue τ} {p : PeerIndex} {ahead : List PeerIndex}

/-- Whether an operation is a call of `next_task`. -/
def QueueOp.isNextTask : QueueOp τ → Bool
  | .nextTask => true
  | _ => false

/-- `p` waits in `peers_queue` behind exactly the peers `ahead`. -/
def WaitsBehind (q : ServerQueue τ) (p : PeerIndex) (ahead : List PeerIndex) : Prop :=
  ∃ behind, q.peersQueue = ahead ++ p :: behind

theorem waitsBehind_take {i : Nat} (h : q.peersQueue[i]? = some p) :
    q.WaitsBehind p (q.peersQueue.take i) := by
  obtain ⟨hi, rfl⟩ := List.getElem?_eq_some_iff.mp h
  exact ⟨q.peersQueue.drop (i + 1), by rw [← List.drop_eq_getElem_cons hi, List.take_append_drop]⟩

theorem WaitsBehind.getElem? (h : q.WaitsBehind p ahead) :
    q.peersQueue[ahead.length]? = some p := by
  obtain ⟨behind, hb⟩ := h
  rw [hb, List.getElem?_append_right (Nat.le_refl _), Nat.sub_self, List.getElem?_cons_zero]

/-- Growing `peers_queue` at the back keeps everyone's place. -/
theorem WaitsBehind.of_append (h : q.WaitsBehind p ahead) {tail : List PeerIndex}
    (h' : q'.peersQueue = q.peersQueue ++ tail) : q'.WaitsBehind p ahead := by
  obtain ⟨behind, hb⟩ := h
  exact ⟨behind ++ tail, by simp [h', hb]⟩

/-- An insertion adds its peer at the back of `peers_queue`, or leaves it as it was. -/
theorem append_of_insert {xs : List PeerIndex} {x : PeerIndex} {b : Bool} :
    ∃ tail, (if b then xs ++ [x] else xs) = xs ++ tail := by
  cases b
  · exact ⟨[], (List.append_nil xs).symm⟩
  · exact ⟨[x], rfl⟩


variable [PeerTask τ]

open PeerTask (peerIndex)

/-- The tasks that the `next_task` calls among `ops` return, running `ops` in order from `q`;
the list stops at a panic. -/
def servedBy : List (QueueOp τ) → ServerQueue τ → List (Option τ)
  | [], _ => []
  | op :: ops, q =>
    match op.apply q with
    | .error _ => []
    | .ok (out, q') => if op.isNextTask then out :: servedBy ops q' else servedBy ops q'

theorem servedBy_cons {op : QueueOp τ} {ops : List (QueueOp τ)} {out : Option τ}
    (h : op.apply q = .ok (out, q')) :
    servedBy (op :: ops) q = if op.isNextTask then out :: servedBy ops q' else servedBy ops q' := by
  simp [servedBy, h]

/-- The peers served, in order, before the first task of `p`. -/
def servedBefore (p : PeerIndex) : List (Option τ) → List PeerIndex
  | [] => []
  | none :: served => servedBefore p served
  | some t :: served => if peerIndex t = p then [] else peerIndex t :: servedBefore p served

theorem Inv.not_mem_ahead (hq : q.Inv) (h : q.WaitsBehind p ahead) : p ∉ ahead := fun hp => by
  obtain ⟨behind, hb⟩ := h
  have hnd := hq.nodup
  rw [hb, List.nodup_append] at hnd
  exact hnd.2.2 hp (List.mem_cons_self p behind)

/-! ## What one operation does to the peers ahead of `p` -/

theorem WaitsBehind.addTask (h : q.WaitsBehind p ahead) (t : τ) :
    (q.addTask t).WaitsBehind p ahead :=
  let ⟨_, h'⟩ := append_of_insert
  h.of_append ((peersQueue_addTask q t).trans h')

theorem WaitsBehind.addTaskFront (h : q.WaitsBehind p ahead) (t : τ) :
    (q.addTaskFront t).WaitsBehind p ahead :=
  let ⟨_, h'⟩ := append_of_insert
  h.of_append ((peersQueue_addTaskFront q t).trans h')

theorem Inv.waitsBehind_removePeerTasks (hq : q.Inv) (h : q.WaitsBehind p ahead) {r : PeerIndex}
    (hr : r ≠ p) : ∃ q', q.removePeerTasks r = .ok q' ∧ q'.WaitsBehind p (ahead.erase r) := by
  refine ⟨_, hq.removePeerTasks_eq r, ?_⟩
  obtain ⟨behind, hb⟩ := h
  show ∃ behind', q.peersQueue.erase r = _
  rw [hb]
  by_cases hra : r ∈ ahead
  · exact ⟨behind, List.erase_append_left _ hra⟩
  · refine ⟨behind.erase r, ?_⟩
    rw [List.erase_append_right _ hra, List.erase_of_not_mem hra]
    simp [List.erase_cons, Ne.symm hr]

theorem Inv.waitsBehind_nextTask_front (hq : q.Inv) (h : q.WaitsBehind p []) :
    ∃ t q', q.nextTask = .ok (some t, q') ∧ peerIndex t = p := by
  obtain ⟨behind, hb⟩ := h
  obtain ⟨t, q', hn, ht, -⟩ := hq.nextTask_of_cons hb
  exact ⟨t, q', hn, ht⟩

theorem Inv.waitsBehind_nextTask (hq : q.Inv) {r : PeerIndex} (h : q.WaitsBehind p (r :: ahead)) :
    ∃ t q', q.nextTask = .ok (some t, q') ∧ peerIndex t = r ∧ q'.WaitsBehind p ahead := by
  obtain ⟨behind, hb⟩ := h
  obtain ⟨t, q', hn, ht, tail, htail⟩ := hq.nextTask_of_cons hb
  exact ⟨t, q', hn, ht, behind ++ tail, by simp [htail]⟩

/-- **One step, seen from a waiting peer.** An operation other than `remove_peer_tasks p` either
is a `next_task` that serves `p`, with nobody ahead, or leaves `p` waiting behind a sublist of
the peers ahead of it; a `next_task` of the second kind serves the first of them. -/
theorem Inv.waitsBehind_step (hq : q.Inv) (hw : q.WaitsBehind p ahead) {op : QueueOp τ}
    {out : Option τ} (hop : op ≠ .removePeerTasks p) (h : op.apply q = .ok (out, q')) :
    (op.isNextTask ∧ ahead = [] ∧ ∃ t, out = some t ∧ peerIndex t = p) ∨
      ∃ ahead', q'.WaitsBehind p ahead' ∧ ahead'.Sublist ahead ∧
        (op.isNextTask → ∃ t, out = some t ∧ ahead = peerIndex t :: ahead') := by
  cases op with
  | addTask t =>
    cases h
    exact .inr ⟨ahead, hw.addTask t, List.Sublist.refl _, by simp [QueueOp.isNextTask]⟩
  | addTaskFront t =>
    cases h
    exact .inr ⟨ahead, hw.addTaskFront t, List.Sublist.refl _, by simp [QueueOp.isNextTask]⟩
  | removePeerTasks r =>
    obtain ⟨q'', hrm, hw'⟩ := hq.waitsBehind_removePeerTasks hw fun e => hop (e ▸ rfl)
    simp only [QueueOp.apply, hrm] at h
    cases h
    exact .inr ⟨_, hw', List.erase_sublist _ _, by simp [QueueOp.isNextTask]⟩
  | nextTask =>
    cases ahead with
    | nil =>
      obtain ⟨t, q'', hn, ht⟩ := hq.waitsBehind_nextTask_front hw
      rw [QueueOp.apply, hn] at h
      cases h
      exact .inl ⟨rfl, rfl, t, rfl, ht⟩
    | cons r ahead =>
      obtain ⟨t, q'', hn, ht, hw'⟩ := hq.waitsBehind_nextTask hw
      rw [QueueOp.apply, hn] at h
      cases h
      exact .inr ⟨ahead, hw', List.sublist_cons_self r ahead, fun _ => ⟨t, rfl, by rw [ht]⟩⟩

/-! ## Runs -/

/-- **Bounded waiting.** Along any operations that do not remove `p`, one of the first
`ahead.length + 1` calls of `next_task` serves `p`. -/
theorem Inv.served_within (hq : q.Inv) (hw : q.WaitsBehind p ahead) {ops : List (QueueOp τ)}
    (hops : ∀ op ∈ ops, op ≠ .removePeerTasks p)
    (hn : ahead.length < ops.countP QueueOp.isNextTask) :
    ∃ j ≤ ahead.length, ∃ t, (servedBy ops q)[j]? = some (some t) ∧ peerIndex t = p := by
  induction ops generalizing q ahead with
  | nil => simp at hn
  | cons op ops ih =>
    obtain ⟨out, q', h⟩ := hq.apply_ok op
    have hops' := fun o ho => hops o (List.mem_cons_of_mem op ho)
    rw [servedBy_cons h]
    rw [List.countP_cons] at hn
    rcases hq.waitsBehind_step hw (hops op (List.mem_cons_self op ops)) h with
      ⟨hnt, rfl, t, rfl, ht⟩ | ⟨ahead', hw', hsub, hnt⟩
    · exact ⟨0, le_rfl, t, by rw [if_pos hnt, List.getElem?_cons_zero], ht⟩
    · cases hop : op.isNextTask
      · have hlen := hsub.length_le
        obtain ⟨j, hj, t, hjt, ht⟩ := ih (hq.of_apply h) hw' hops' (by simp [hop] at hn; omega)
        exact ⟨j, hj.trans hlen, t, by simpa using hjt, ht⟩
      · obtain ⟨t₀, rfl, rfl⟩ := hnt hop
        obtain ⟨j, hj, t, hjt, ht⟩ :=
          ih (hq.of_apply h) hw' hops' (by simp [hop] at hn; omega)
        exact ⟨j + 1, by simp [hj], t, by simpa using hjt, ht⟩

/-- **No peer is served twice while `p` waits.** Along any operations that do not remove `p`,
the peers served before `p` are, in order, a sublist of the peers ahead of it. -/
theorem Inv.servedBefore_sublist (hq : q.Inv) (hw : q.WaitsBehind p ahead)
    {ops : List (QueueOp τ)} (hops : ∀ op ∈ ops, op ≠ .removePeerTasks p) :
    (servedBefore p (servedBy ops q)).Sublist ahead := by
  induction ops generalizing q ahead with
  | nil => exact List.nil_sublist _
  | cons op ops ih =>
    obtain ⟨out, q', h⟩ := hq.apply_ok op
    have hops' := fun o ho => hops o (List.mem_cons_of_mem op ho)
    rw [servedBy_cons h]
    rcases hq.waitsBehind_step hw (hops op (List.mem_cons_self op ops)) h with
      ⟨hnt, rfl, t, rfl, ht⟩ | ⟨ahead', hw', hsub, hnt⟩
    · simp [hnt, servedBefore, ht]
    · have ih' := ih (hq.of_apply h) hw' hops'
      cases hop : op.isNextTask
      · simpa [hop] using ih'.trans hsub
      · obtain ⟨t, rfl, rfl⟩ := hnt hop
        have hne : peerIndex t ≠ p := fun e =>
          hq.not_mem_ahead hw (e ▸ List.mem_cons_self (peerIndex t) ahead')
        simpa [hop, servedBefore, hne] using ih'

/-! ## Round-robin service at every reachable state -/

/-- **Round-robin service of the peer `p` at index `i` of `peers_queue`**: what each operation
does to its place, and what every run that does not remove `p` serves. -/
structure RoundRobinAt (q : ServerQueue τ) (p : PeerIndex) (i : Nat) : Prop where
  nextTask_front : i = 0 → ∃ t q', q.nextTask = .ok (some t, q') ∧ peerIndex t = p
  nextTask_advance : 0 < i → ∃ out q', q.nextTask = .ok (out, q') ∧ q'.peersQueue[i - 1]? = some p
  addTask_le : ∀ t, ∃ j ≤ i, (q.addTask t).peersQueue[j]? = some p
  addTaskFront_le : ∀ t, ∃ j ≤ i, (q.addTaskFront t).peersQueue[j]? = some p
  removePeerTasks_le : ∀ r, r ≠ p →
    ∃ q', q.removePeerTasks r = .ok q' ∧ ∃ j ≤ i, q'.peersQueue[j]? = some p
  served_within : ∀ ops : List (QueueOp τ), (∀ op ∈ ops, op ≠ .removePeerTasks p) →
    i < ops.countP QueueOp.isNextTask →
    ∃ j ≤ i, ∃ t, (servedBy ops q)[j]? = some (some t) ∧ peerIndex t = p
  served_before : ∀ ops : List (QueueOp τ), (∀ op ∈ ops, op ≠ .removePeerTasks p) →
    (servedBefore p (servedBy ops q)).Nodup ∧
      (servedBefore p (servedBy ops q)).Sublist (q.peersQueue.take i)

/-- **Round-robin fairness.** In every reachable state, a peer `p` at index `i` of
`peers_queue` is served by the next `next_task` when `i = 0` and moves to `i - 1` otherwise;
insertions and the removal of another peer keep it at an index `≤ i`. Along any interleaving
of operations that does not remove `p`, one of the next `i + 1` calls of `next_task` serves `p`,
and the peers served before it are distinct peers that were ahead of it. -/
theorem reachable_round_robin {q : ServerQueue τ} (h : q.Reachable) {p : PeerIndex} {i : Nat}
    (hi : q.peersQueue[i]? = some p) : q.RoundRobinAt p i := by
  have hq := h.inv
  have hw := waitsBehind_take hi
  have hlen : (q.peersQueue.take i).length = i := by
    simpa using (List.getElem?_eq_some_iff.mp hi).1.le
  refine ⟨fun h0 => ?_, fun hpos => ?_, fun t => ⟨_, hlen.le, (hw.addTask t).getElem?⟩,
    fun t => ⟨_, hlen.le, (hw.addTaskFront t).getElem?⟩, fun r hr => ?_, fun ops hops hn => ?_,
    fun ops hops => ?_⟩
  · subst h0
    exact hq.waitsBehind_nextTask_front hw
  · cases hta : q.peersQueue.take i with
    | nil => simp [hta] at hlen; omega
    | cons r ahead =>
      obtain ⟨t, q', hn, -, hw'⟩ := hq.waitsBehind_nextTask (hta ▸ hw)
      refine ⟨some t, q', hn, ?_⟩
      have : ahead.length = i - 1 := by simp [hta] at hlen; omega
      rw [← this]
      exact hw'.getElem?
  · obtain ⟨q', hrm, hw'⟩ := hq.waitsBehind_removePeerTasks hw hr
    exact ⟨q', hrm, _, (List.length_erase_le _ _).trans hlen.le, hw'.getElem?⟩
  · obtain ⟨j, hj, rest⟩ := hq.served_within hw hops (by rw [hlen]; exact hn)
    exact ⟨j, by omega, rest⟩
  · have hsub := hq.servedBefore_sublist hw hops
    exact ⟨hq.nodup.sublist (hsub.trans (List.take_sublist _ _)), hsub⟩

theorem reachable_round_robin_second_peer :
    let q := ((new : ServerQueue ServerTask).addTask (.mempool 0)).addTask (.mempool 1)
    q.Reachable ∧ q.peersQueue[1]? = some 1 ∧ q.RoundRobinAt 1 1 := by
  intro q
  have h : q.Reachable := (Reachable.new.addTask (.mempool 0)).addTask (.mempool 1)
  have hi : q.peersQueue[1]? = some 1 := by decide
  exact ⟨h, hi, reachable_round_robin h hi⟩

end ServerQueue

end RandchainSync
