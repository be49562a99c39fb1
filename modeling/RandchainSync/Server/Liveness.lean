import RandchainSync.Server.ServeAlone
import RandchainSync.Server.WakeUp
import RandchainSync.Server.BestCommonBlock

/-!
# The worker answers every request

Until `drop` starts, the worker of `ServerImpl` does not leave its loop, and its own steps are
enough to serve every request in line. Each turn takes a task, calls the executor once and puts
the continuation back. When every call returns and every continuation has a lower rank than its
task, each call lowers the work left, and the other steps of the turn lower the worker's place
in the loop. So worker steps alone end with the worker waiting on an empty queue. With the
per-request refinement of `Server.ServeAlone`, every request whose peer stayed connected has then
been answered with its whole service.

For `ServerTaskExecutor` a call returns when the fork walks of `getblocks` and `getheaders` end.
They do within `headers.length + 1` iterations over a store whose stored headers are among
`headers` and form no cycle. The continuations of `getdata` serve one inventory item each.

## Main definitions

* `ServerState.RunningInv`: until `drop` starts, `is_stopping` is unset and the worker runs
* `ServerState.load`, `ServerState.potential`: the work left, and the variant of the loop
* `ServerTaskExecutor.rank`: a bound on the calls a task still needs

## Main results

* `ServerState.exists_worker_step`: some worker step lowers the potential
* `ServerState.exists_drained_run`: worker steps alone leave the worker waiting with every
  line empty
* `ServerState.worker_answers_every_request`: after any run, worker steps alone answer in full
  every request whose peer stayed connected
* `ServerState.server_answers_every_request`: the same for `ServerTaskExecutor` over a finite
  acyclic store
-/

namespace RandchainSync

open PeerTask (peerIndex)

/-- Where the worker is in its loop, weighed so that each worker step but the call lowers it. -/
def WorkerPc.weight {σ : Type} : WorkerPc σ → Nat
  | .waiting | .stopped => 0
  | .executing _ => 1
  | .loop => 2
  | .woken | .reinjecting _ => 3

theorem WorkerPc.weight_le {σ : Type} (w : WorkerPc σ) : w.weight ≤ 3 := by
  cases w <;> simp [WorkerPc.weight]

/-! ## The calls a task of `ServerTaskExecutor` needs -/

namespace ServerTaskExecutor

variable (self : ServerTaskExecutor) (fuel : Nat)

/-- A bound on the calls a task still needs after this one: one per inventory item of a
`getdata`, and one more for its first call. -/
def rank : ServerTask → Nat
  | .getData _ message => message.inventory.length + 1
  | .reversedGetData _ message _ => message.inventory.length
  | .getBlocks _ _ | .getHeaders _ _ _ | .mempool _ => 0

/-- A continuation needs fewer calls than its task. -/
theorem rank_lt (t : ServerTask) (effects : List Effect) (next : ServerTask)
    (h : self.execute fuel t = some (effects, some next)) : rank next < rank t := by
  cases t with
  | getData p m =>
    simp only [execute, serveGetData, Option.some.injEq, Prod.mk.injEq] at h
    obtain ⟨-, rfl⟩ := h
    simp only [rank, List.length_reverse]
    omega
  | reversedGetData p m nf =>
    obtain ⟨inventory⟩ := m
    obtain ⟨notfound⟩ := nf
    rcases List.eq_nil_or_concat inventory with rfl | ⟨inventory, item, rfl⟩
    · simp [execute, serveReversedGetData] at h
    · rw [execute, List.concat_eq_append, serveReversedGetData_concat] at h
      obtain ⟨-, h⟩ := Prod.mk.inj (Option.some.inj h)
      cases h
      simp only [rank, List.length_concat]
      omega
  | getBlocks p m => simp [execute] at h
  | getHeaders p m requestId => simp [execute] at h
  | mempool p => simp [execute] at h

end ServerTaskExecutor

namespace ServerState

variable {σ ε : Type} {s s' : ServerState σ ε}

/-! ## Until `drop` starts -/

/-- Until `drop` starts, `is_stopping` is unset and the worker has not stopped. -/
def RunningInv (s : ServerState σ ε) : Prop :=
  s.dropper = .running → s.queue.isStopping = false ∧ s.worker ≠ .stopped

theorem runningInv_pop (hs : s.RunningInv) {w : WorkerPc σ} (h : s.pop w = some s')
    (hw : w ≠ .stopped) : s'.RunningInv := by
  rcases pop_cases h with ⟨t, q, hn, rfl⟩ | ⟨-, rfl⟩
  · exact fun hd => ⟨(ServerQueue.isStopping_of_nextTask hn).trans (hs hd).1, nofun⟩
  · exact fun hd => ⟨(hs hd).1, hw⟩

/-- `next_task` leaves the worker holding a task, or where it was sent. -/
theorem weight_pop {w : WorkerPc σ} (h : s.pop w = some s') :
    s'.worker.weight ≤ max 1 w.weight := by
  rcases pop_cases h with ⟨t, q, -, rfl⟩ | ⟨-, rfl⟩
  · exact le_max_left _ _
  · exact le_max_right _ _

/-- The worker's steps submit nothing. -/
theorem submissions_eq_nil {more : List (Action σ)} (hmore : ∀ a ∈ more, a.isWorkerStep) :
    submissions more = [] :=
  List.filterMap_eq_nil_iff.2 fun a ha => by
    cases a <;> first | rfl | cases hmore _ ha

variable [PeerTask σ] {exec : σ → Option (List ε × Option σ)}

/-- **One step keeps `RunningInv`.** -/
theorem runningInv_step (hq : s.queue.Inv) (hs : s.RunningInv) {a : Action σ}
    (h : step exec s a = some s') : s'.RunningInv := by
  cases a with
  | execute task =>
    obtain ⟨hd, rfl⟩ := step_execute h
    have hw := (hs hd).2
    refine fun _ => ⟨by simpa using (hs hd).1, ?_⟩
    cases hws : s.worker <;> simp_all [WorkerPc.notify]
  | onDisconnect p =>
    obtain ⟨hd, q, hrm, rfl⟩ := step_onDisconnect h
    rw [hq.removePeerTasks_eq p] at hrm
    cases hrm
    exact hs
  | workerLock =>
    obtain ⟨-, ⟨hstop, rfl⟩ | ⟨-, hpop⟩⟩ := step_workerLock h
    · exact fun hd => absurd hstop (by simp [(hs hd).1])
    · exact runningInv_pop hs hpop nofun
  | wake => obtain ⟨-, rfl⟩ := step_wake h; exact fun hd => ⟨(hs hd).1, nofun⟩
  | workerRelock => exact runningInv_pop hs (step_workerRelock h).2 nofun
  | workerExecute =>
    obtain ⟨r, effects, next, -, -, rfl⟩ := step_workerExecute h
    exact fun hd => ⟨(hs hd).1, by cases next <;> exact nofun⟩
  | workerReinject =>
    obtain ⟨r, -, rfl⟩ := step_workerReinject h
    exact fun hd => ⟨by simpa using (hs hd).1, nofun⟩
  | dropStore => obtain ⟨-, rfl⟩ := step_dropStore h; exact nofun
  | dropNotify => obtain ⟨-, rfl⟩ := step_dropNotify h; exact nofun
  | dropJoin => obtain ⟨-, -, rfl⟩ := step_dropJoin h; exact nofun

theorem Reachable.runningInv (h : Reachable exec s) : s.RunningInv := by
  induction h with
  | init => exact fun _ => ⟨rfl, nofun⟩
  | step hs hstep ih => exact runningInv_step hs.queue_inv ih hstep

/-- The worker's steps leave `drop` where it is. -/
theorem dropper_step {a : Action σ} (ha : a.isWorkerStep) (h : step exec s a = some s') :
    s'.dropper = s.dropper := by
  have hpop {w : WorkerPc σ} (h : s.pop w = some s') : s'.dropper = s.dropper := by
    rcases pop_cases h with ⟨t, q, -, rfl⟩ | ⟨-, rfl⟩ <;> rfl
  cases a <;> simp only [Action.isWorkerStep, Bool.false_eq_true] at ha
  · obtain ⟨-, ⟨-, rfl⟩ | ⟨-, h⟩⟩ := step_workerLock h
    · rfl
    · exact hpop h
  · exact hpop (step_workerRelock h).2
  · obtain ⟨r, effects, next, -, -, rfl⟩ := step_workerExecute h; rfl
  · obtain ⟨r, -, rfl⟩ := step_workerReinject h; rfl

/-! ## The work left -/

variable (rank : σ → Nat)

/-- The work left in a line: each request weighs its task's rank and one. -/
def lineLoad : List (Request σ) → Nat
  | [] => 0
  | r :: l => rank r.task + 1 + lineLoad l

/-- The work left in the lines of `peers`. -/
def load : List PeerIndex → ServerState σ ε → Nat
  | [], _ => 0
  | p :: peers, s => lineLoad rank (s.lineRequests p) + load peers s

/-- **The variant of the worker's loop**: three times the work left, and the worker's place. -/
def potential (peers : List PeerIndex) (s : ServerState σ ε) : Nat :=
  3 * load rank peers s + s.worker.weight

/-- Every peer with a request in line is among `peers`. -/
def Covers (peers : List PeerIndex) (s : ServerState σ ε) : Prop :=
  ∀ p, s.lineRequests p ≠ [] → p ∈ peers

/-- The peers of the queue and of the worker's hand cover every line. -/
theorem exists_covers (hq : s.queue.Inv) : ∃ peers, Covers peers s := by
  refine ⟨s.queue.peersQueue ++ (s.worker.inflight.map (peerIndex ·.task)).toList, fun p hp => ?_⟩
  obtain ⟨r, hr⟩ := List.exists_mem_of_ne_nil _ hp
  rcases List.mem_append.1 hr with hr | hr
  · simp only [Option.mem_toList, Option.mem_def, Option.filter_eq_some] at hr
    refine List.mem_append_right _ ?_
    simp [hr.1, ← of_decide_eq_true hr.2, Request.peerIndex_eq]
  · refine List.mem_append_left _ (by_contra fun hp' => List.ne_nil_of_mem hr ?_)
    exact List.isEmpty_iff.1 ((hq.pending_isEmpty p).2 hp')

variable {rank}

/-- The worker's steps bring no peer into line. -/
theorem Covers.step
    (hpeer : ∀ t effects next, exec t = some (effects, some next) → peerIndex next = peerIndex t)
    (hq : s.queue.Inv) {peers : List PeerIndex} (hc : Covers peers s) {a : Action σ}
    (ha : a.isWorkerStep) (h : step exec s a = some s') : Covers peers s' := fun p hp => by
  obtain ⟨r, hr⟩ := List.exists_mem_of_ne_nil _ hp
  rcases ServerState.mem_lineRequests_step hpeer hq h hr with ⟨t, rfl, -⟩ | ⟨r₀, hr₀, -⟩
  · cases ha
  · exact hc p (List.ne_nil_of_mem hr₀)

theorem load_congr (hl : ∀ p, s'.lineRequests p = s.lineRequests p) :
    ∀ peers, load rank peers s' = load rank peers s
  | [] => rfl
  | p :: peers => by rw [load, load, hl, load_congr hl peers]

theorem load_le {peers : List PeerIndex}
    (hle : ∀ p ∈ peers, lineLoad rank (s'.lineRequests p) ≤ lineLoad rank (s.lineRequests p)) :
    load rank peers s' ≤ load rank peers s := by
  induction peers with
  | nil => exact le_rfl
  | cons p peers ih =>
    have := hle p (List.mem_cons_self _ _)
    have := ih fun q hq => hle q (List.mem_cons_of_mem _ hq)
    simp only [load]
    omega

/-- Work that falls in one line and rises in none falls. -/
theorem load_lt {peers : List PeerIndex}
    (hle : ∀ p ∈ peers, lineLoad rank (s'.lineRequests p) ≤ lineLoad rank (s.lineRequests p))
    {p₀ : PeerIndex} (hp₀ : p₀ ∈ peers)
    (hlt : lineLoad rank (s'.lineRequests p₀) < lineLoad rank (s.lineRequests p₀)) :
    load rank peers s' < load rank peers s := by
  induction peers with
  | nil => cases hp₀
  | cons p peers ih =>
    have hrest := fun q hq => hle q (List.mem_cons_of_mem p hq)
    simp only [load]
    rcases List.mem_cons.1 hp₀ with rfl | hp₀
    · have := load_le hrest
      omega
    · have := hle p (List.mem_cons_self _ _)
      have := ih hrest hp₀
      omega

theorem potential_lt_of_lineRequests {peers : List PeerIndex}
    (hl : ∀ p, s'.lineRequests p = s.lineRequests p) (hw : s'.worker.weight < s.worker.weight) :
    potential rank peers s' < potential rank peers s := by
  simp only [potential, load_congr hl]
  omega

/-- Under the queue's invariant `next_task` does not panic. -/
theorem exists_pop (hq : s.queue.Inv) (w : WorkerPc σ) : ∃ s', s.pop w = some s' := by
  unfold pop
  cases h : s.queue.nextTask with
  | error msg => exact absurd h (hq.nextTask_ok msg)
  | ok r => obtain ⟨_ | t, q⟩ := r <;> exact ⟨_, rfl⟩

section Progress

variable
    (hpeer : ∀ t effects next, exec t = some (effects, some next) → peerIndex next = peerIndex t)
    (hexec : ∀ t, (exec t).isSome)
    (hrank : ∀ t effects next, exec t = some (effects, some next) → rank next < rank t)

include hpeer hrank in
/-- A call of the executor lowers the work left in its peer's line, and leaves the others. -/
theorem load_lt_of_workerExecute {peers : List PeerIndex} (hc : Covers peers s)
    (h : step exec s .workerExecute = some s') : load rank peers s' < load rank peers s := by
  obtain ⟨r, effects, next, hw, hexec, hs'⟩ := step_workerExecute h
  have hline := lineRequests_workerExecute hpeer hw hs' hexec
  have hp₀ := lineRequests_executing hw
  have hlt : lineLoad rank (s'.lineRequests (peerIndex r.task)) <
      lineLoad rank (s.lineRequests (peerIndex r.task)) := by
    rw [hline, if_pos rfl, hp₀]
    cases next with
    | none =>
      simp only [Option.map_none', Option.toList_none, List.nil_append, lineLoad]
      omega
    | some c =>
      have := hrank _ _ _ hexec
      simp only [Option.map_some', Option.toList_some, List.singleton_append, lineLoad,
        List.append_eq, List.nil_append]
      omega
  refine load_lt (fun p _ => ?_) (hc _ (by simp [hp₀])) hlt
  by_cases hp : p = peerIndex r.task
  · subst hp
    exact hlt.le
  · rw [hline, if_neg hp]

include hpeer hexec hrank in
/-- **Progress.** Until `drop` starts, a worker that is not waiting can take a step, and that
step lowers the potential. -/
theorem exists_worker_step (hq : s.queue.Inv) (hrun : s.queue.isStopping = false ∧ s.worker ≠ .stopped)
    {peers : List PeerIndex} (hc : Covers peers s) (hw : s.worker ≠ .waiting) :
    ∃ a s', a.isWorkerStep ∧ step exec s a = some s' ∧
      potential rank peers s' < potential rank peers s := by
  cases hws : s.worker with
  | waiting => exact absurd hws hw
  | stopped => exact absurd hws hrun.2
  | loop =>
    obtain ⟨s', hpop⟩ := exists_pop hq .waiting
    refine ⟨.workerLock, s', rfl, by simp [step, hws, hrun.1, hpop], ?_⟩
    refine potential_lt_of_lineRequests (lineRequests_pop hq (by simp [hws]) (by rfl) hpop) ?_
    have := weight_pop hpop
    simp only [hws, WorkerPc.weight] at this ⊢
    omega
  | woken =>
    obtain ⟨s', hpop⟩ := exists_pop hq .loop
    refine ⟨.workerRelock, s', rfl, by simp [step, hws, hpop], ?_⟩
    refine potential_lt_of_lineRequests (lineRequests_pop hq (by simp [hws]) (by rfl) hpop) ?_
    have := weight_pop hpop
    simp only [hws, WorkerPc.weight] at this ⊢
    omega
  | executing r =>
    obtain ⟨⟨effects, next⟩, he⟩ := Option.isSome_iff_exists.1 (hexec r.task)
    obtain ⟨s', hstep⟩ := Option.isSome_iff_exists.1
      (show (step exec s .workerExecute).isSome by simp [step, hws, he])
    refine ⟨.workerExecute, s', rfl, hstep, ?_⟩
    have hload := load_lt_of_workerExecute hpeer hrank hc hstep
    have hweight := s'.worker.weight_le
    have hw₁ : s.worker.weight = 1 := by rw [hws]; rfl
    simp only [potential]
    omega
  | reinjecting r =>
    have hstep : step exec s .workerReinject =
        some { s with queue := s.queue.addTaskFront r, worker := .loop } := by
      simp [step, hws]
    refine ⟨.workerReinject, _, rfl, hstep, ?_⟩
    refine potential_lt_of_lineRequests (fun p => (step_movesOnly hq (by rfl) hstep p).1) ?_
    simp [hws, WorkerPc.weight]

include hpeer hexec hrank in
/-- Until `drop` starts, worker steps alone bring the worker to wait. -/
theorem exists_worker_run (hs : Reachable exec s) (hd : s.dropper = .running)
    {peers : List PeerIndex} (hc : Covers peers s) :
    ∃ more : List (Action σ), (∀ a ∈ more, a.isWorkerStep) ∧
      ∃ s', run exec s more = some s' ∧ s'.worker = .waiting := by
  generalize hn : potential rank peers s = n
  induction n using Nat.strong_induction_on generalizing s with
  | h n ih =>
    by_cases hw : s.worker = .waiting
    · exact ⟨[], nofun, s, rfl, hw⟩
    obtain ⟨a, s₁, ha, hstep, hlt⟩ :=
      exists_worker_step hpeer hexec hrank hs.queue_inv (hs.runningInv hd) hc hw
    obtain ⟨more, hmore, s', hrun, hw'⟩ := ih _ (hn ▸ hlt) (hs.step hstep)
      ((dropper_step ha hstep).trans hd) (hc.step hpeer hs.queue_inv ha hstep) rfl
    refine ⟨a :: more, ?_, s', by simp [run, hstep, hrun], hw'⟩
    simpa [ha] using hmore

end Progress

/-- After any run in which `drop` has not started, worker steps alone bring the worker to wait
with every line empty, and the whole run keeps `ServedAlone`. -/
theorem exists_drained_run
    (hpeer : ∀ t effects next, exec t = some (effects, some next) → peerIndex next = peerIndex t)
    (hexec : ∀ t, (exec t).isSome)
    (hrank : ∀ t effects next, exec t = some (effects, some next) → rank next < rank t)
    {actions : List (Action σ)} (h : run exec init actions = some s) (hd : s.dropper = .running) :
    ∃ more : List (Action σ), (∀ a ∈ more, a.isWorkerStep) ∧ ∃ s', run exec s more = some s' ∧
      s'.worker = .waiting ∧ (∀ p, s'.lineRequests p = []) ∧
      ServedAlone exec (actions ++ more) s' := by
  have hs : Reachable exec s := Reachable.of_run _ .init h
  obtain ⟨peers, hc⟩ := exists_covers hs.queue_inv
  obtain ⟨more, hmore, s', hrun, hw⟩ := exists_worker_run hpeer hexec hrank hs hd hc
  have hs' : Reachable exec s' := Reachable.of_run _ hs hrun
  exact ⟨more, hmore, s', hrun, hw,
    lineRequests_eq_nil hs'.queue_inv (hs'.wakeInv.waiting_empty hw) (by simp [hw]),
    (servedAlone_of_run hpeer h).of_run hpeer hs hrun⟩

/-- A request of the run before the worker's steps, read after them. -/
theorem ServedAlone.completes_of_drained {actions more : List (Action σ)}
    (hs : ServedAlone exec (actions ++ more) s) (hmore : ∀ a ∈ more, a.isWorkerStep)
    (hempty : ∀ p, s.lineRequests p = []) {k : Nat} {task : σ}
    (hk : (submissions actions)[k]? = some task) (hconn : .onDisconnect (peerIndex task) ∉ actions) :
    Completes exec task (effectsOf s.emitted k) := by
  refine hs.completes (by simpa [submissions_eq_nil hmore] using hk) (by simp [hempty]) ?_
  rw [List.mem_append, not_or]
  exact ⟨hconn, fun hm => by cases hmore _ hm⟩

/-- **Every request is answered in full.** For any executor whose calls all return, whose
continuations stay with their task's peer and have a lower rank than their task: after any run
of `ServerImpl`'s threads from `new` in which `drop` has not started, steps of the worker alone
bring it to wait on `queue_ready` with every line empty; and then every submitted task whose
peer was not disconnected has had the whole of its service, as if served alone. -/
theorem worker_answers_every_request
    (hpeer : ∀ t effects next, exec t = some (effects, some next) → peerIndex next = peerIndex t)
    (hexec : ∀ t, (exec t).isSome) (rank : σ → Nat)
    (hrank : ∀ t effects next, exec t = some (effects, some next) → rank next < rank t)
    {actions : List (Action σ)} (h : run exec init actions = some s) (hd : s.dropper = .running) :
    ∃ more : List (Action σ), (∀ a ∈ more, a.isWorkerStep) ∧ ∃ s', run exec s more = some s' ∧
      s'.worker = .waiting ∧ (∀ p, s'.lineRequests p = []) ∧
      ∀ k task, (submissions actions)[k]? = some task → .onDisconnect (peerIndex task) ∉ actions →
        Completes exec task (effectsOf s'.emitted k) := by
  obtain ⟨more, hmore, s', hrun, hw, hempty, hs'⟩ := exists_drained_run hpeer hexec hrank h hd
  exact ⟨more, hmore, s', hrun, hw, hempty, fun _ _ => hs'.completes_of_drained hmore hempty⟩

/-- `ServerTaskExecutor` over the empty store meets the hypotheses: a `getdata` is queued and the
worker holds a `mempool` request of another peer. -/
theorem worker_answers_every_request_empty_store :
    let exec := (ServerTaskExecutor.mk .empty).execute 1
    let actions : List (Action ServerTask) :=
      [.execute (.mempool 1), .execute (.getData 0 ⟨[.block 0]⟩), .workerLock]
    let s := (run exec init actions).getD init
    (∀ t effects next, exec t = some (effects, some next) → peerIndex next = peerIndex t) ∧
      (∀ t, (exec t).isSome) ∧
      (∀ t effects next, exec t = some (effects, some next) →
        ServerTaskExecutor.rank next < ServerTaskExecutor.rank t) ∧
      run exec init actions = some s ∧ s.dropper = .running ∧
      ∃ more : List (Action ServerTask), (∀ a ∈ more, a.isWorkerStep) ∧ ∃ s',
        run exec s more = some s' ∧ s'.worker = .waiting ∧ (∀ p, s'.lineRequests p = []) ∧
        ∀ k task, (submissions actions)[k]? = some task →
          .onDisconnect (peerIndex task) ∉ actions → Completes exec task (effectsOf s'.emitted k) := by
  intro exec actions s
  have ends {o : Option (ServerState ServerTask Effect)} {d} (h : o.isSome) :
      o = some (o.getD d) := (Option.getD_of_ne_none (Option.isSome_iff_ne_none.1 h) d).symm
  have hpeer := (ServerTaskExecutor.mk .empty).execute_next_peerIndex 1
  have hexec : ∀ t, (exec t).isSome := ServerTaskExecutor.execute_isSome fun _ => rfl
  have hrank := (ServerTaskExecutor.mk .empty).rank_lt 1
  have h : run exec init actions = some s := ends rfl
  have hd : s.dropper = .running := by decide
  exact ⟨hpeer, hexec, hrank, h, hd, worker_answers_every_request hpeer hexec _ hrank h hd⟩

/-- **`ServerImpl` answers every request, over a finite acyclic store.** With
`ServerTaskExecutor` and the fork-walk bound `headers.length + 1`, where every stored header is
in `headers` and no header is its own ancestor: after any run from `new` in which `drop` has not
started, steps of the worker alone bring it to wait with every line empty; then every submitted
task whose peer was not disconnected has had the whole of its service, and a `getdata` has been
sent `getDataResponse`. -/
theorem server_answers_every_request (storage : BlockProvider) (headers : List H256)
    (hcover : ∀ h, (storage.blockHeader (.hash h)).isSome → h ∈ headers)
    (hacyc : ∀ h, ¬ Relation.TransGen (ServerTaskExecutor.mk storage).ParentOf h h)
    {actions : List (Action ServerTask)} {s : ServerState ServerTask Effect}
    (h : run ((ServerTaskExecutor.mk storage).execute (headers.length + 1)) init actions = some s)
    (hd : s.dropper = .running) :
    ∃ more : List (Action ServerTask), (∀ a ∈ more, a.isWorkerStep) ∧ ∃ s',
      run ((ServerTaskExecutor.mk storage).execute (headers.length + 1)) s more = some s' ∧
      s'.worker = .waiting ∧
      (∀ k task, (submissions actions)[k]? = some task → .onDisconnect task.peerIndex ∉ actions →
        Completes ((ServerTaskExecutor.mk storage).execute (headers.length + 1)) task
          (effectsOf s'.emitted k)) ∧
      ∀ k p inventory, (submissions actions)[k]? = some (.getData p ⟨inventory⟩) →
        .onDisconnect p ∉ actions →
        effectsOf s'.emitted k = (ServerTaskExecutor.mk storage).getDataResponse p inventory := by
  have hwalk hash := ServerTaskExecutor.walkFork_isSome_of_cover hacyc headers.length headers hash
    le_rfl fun x _ hx => hcover x hx
  obtain ⟨more, hmore, s', hrun, hw, hempty, hs'⟩ := exists_drained_run
    (ServerTaskExecutor.execute_next_peerIndex _ _) (ServerTaskExecutor.execute_isSome hwalk)
    (ServerTaskExecutor.rank_lt _ _) h hd
  refine ⟨more, hmore, s', hrun, hw, fun _ _ => hs'.completes_of_drained hmore hempty,
    fun k p inventory hk hconn => ?_⟩
  exact (hs'.completes_of_drained hmore hempty hk hconn).unique
    ((ServerTaskExecutor.mk storage).completes_getData _ p inventory)

/-- The store with one header, whose walk takes its two iterations, with a `getblocks` from that
header and a `getdata` of another peer. -/
theorem server_answers_every_request_one_header :
    let exec := (ServerTaskExecutor.mk ServerTaskExecutor.oneHeaderStore).execute ([1].length + 1)
    let actions : List (Action ServerTask) :=
      [.execute (.getBlocks 0 ⟨0, [1], 5⟩), .execute (.getData 1 ⟨[.block 1]⟩)]
    let s := (run exec init actions).getD init
    (∀ h, (ServerTaskExecutor.oneHeaderStore.blockHeader (.hash h)).isSome → h ∈ [1]) ∧
      (∀ h, ¬ Relation.TransGen (ServerTaskExecutor.mk ServerTaskExecutor.oneHeaderStore).ParentOf
        h h) ∧
      run exec init actions = some s ∧ s.dropper = .running ∧
      ∃ more : List (Action ServerTask), (∀ a ∈ more, a.isWorkerStep) ∧ ∃ s',
        run exec s more = some s' ∧ s'.worker = .waiting ∧
        (∀ k task, (submissions actions)[k]? = some task → .onDisconnect task.peerIndex ∉ actions →
          Completes exec task (effectsOf s'.emitted k)) ∧
        ∀ k p inventory, (submissions actions)[k]? = some (.getData p ⟨inventory⟩) →
          .onDisconnect p ∉ actions → effectsOf s'.emitted k =
            (ServerTaskExecutor.mk ServerTaskExecutor.oneHeaderStore).getDataResponse p inventory := by
  intro exec actions s
  have ends {o : Option (ServerState ServerTask Effect)} {d} (h : o.isSome) :
      o = some (o.getD d) := (Option.getD_of_ne_none (Option.isSome_iff_ne_none.1 h) d).symm
  have hcover h := (ServerTaskExecutor.oneHeaderStore_headers h).mp
  have h : run exec init actions = some s := ends rfl
  have hd : s.dropper = .running := by decide
  exact ⟨hcover, ServerTaskExecutor.oneHeaderStore_acyclic, h, hd,
    server_answers_every_request _ [1] hcover ServerTaskExecutor.oneHeaderStore_acyclic h hd⟩

end ServerState

end RandchainSync
