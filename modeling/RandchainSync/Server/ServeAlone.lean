import RandchainSync.Server.Disconnect
import RandchainSync.Server.GetData

/-!
# Each request is served as if alone

`ServerImpl` serves the requests of every peer on one worker thread, one call of the executor
at a time: a task with more to do goes back to the front of its peer's deque, and the worker
turns to the next peer. Serving a task alone means calling the executor on it, then on the
continuation it returns, and so on until a call returns none (`Completes`). Whatever the
interleaving of the threads, each request sees only its own calls: the effects made for the
`k`-th submitted request are those of serving its task alone up to the task it still holds,
and once the request has left its peer's line they are the whole of that service, unless the
peer was disconnected on the way, in which case they are a prefix of it.

For `ServerTaskExecutor` this means that a `getdata` request answered while its peer stayed
connected was answered with exactly `getDataResponse`, whatever the other peers asked for in
between.

## Main definitions

* `Reaches`, `Completes`: serving a task alone, part of the way and to the end
* `submissions`: the tasks of a run's `execute` calls, in order
* `effectsOf`: the effects emitted for one request
* `ServerState.ServedAlone`: the run invariant

## Main results

* `Completes.unique`: serving a task alone has one outcome
* `ServedAlone.of_step`, `ServedAlone.of_run`: each step, and every run, keeps `ServedAlone`
* `run_serves_each_request_alone`: the per-request refinement of the threaded server
* `run_answers_getData`: a `getdata` request answered while its peer stayed connected got
  `getDataResponse`
-/

namespace RandchainSync

open PeerTask (peerIndex)

/-! ## Serving a task alone -/

section Alone

variable {σ ε : Type} (exec : σ → Option (List ε × Option σ))

/-- Serving `task` alone has made `effects` and left `rest` to run: each call of the executor
runs the continuation the call before returned. -/
inductive Reaches : σ → List ε → σ → Prop
  | refl (task : σ) : Reaches task [] task
  | step {task next rest : σ} {effects more : List ε} :
      exec task = some (effects, some next) → Reaches next more rest →
      Reaches task (effects ++ more) rest

/-- Serving `task` alone ends, having made `effects`: a call returns no continuation. -/
inductive Completes : σ → List ε → Prop
  | done {task : σ} {effects : List ε} :
      exec task = some (effects, none) → Completes task effects
  | step {task next : σ} {effects more : List ε} :
      exec task = some (effects, some next) → Completes next more →
      Completes task (effects ++ more)

variable {exec} {task rest : σ} {effects : List ε}

/-- One more call that returns a continuation. -/
theorem Reaches.snoc (h : Reaches exec task effects rest) {more : List ε} {next : σ}
    (he : exec rest = some (more, some next)) : Reaches exec task (effects ++ more) next := by
  induction h with
  | refl => simpa using Reaches.step he (.refl next)
  | step hs _ ih => simpa using Reaches.step hs (ih he)

/-- A service part of the way, then the rest of it. -/
theorem Reaches.completes (h : Reaches exec task effects rest) {more : List ε}
    (hc : Completes exec rest more) : Completes exec task (effects ++ more) := by
  induction h with
  | refl => simpa using hc
  | step hs _ ih => simpa using Completes.step hs (ih hc)

/-- **Serving a task alone has one outcome.** -/
theorem Completes.unique (h : Completes exec task effects) {effects' : List ε}
    (h' : Completes exec task effects') : effects = effects' := by
  induction h generalizing effects' with
  | done he =>
    cases h' with
    | done he' => simpa [he] using he'
    | step he' => simp [he] at he'
  | step he _ ih =>
    cases h' with
    | done he' => simp [he] at he'
    | step he' hc' =>
      obtain ⟨rfl, rfl⟩ : _ ∧ _ := by simpa [he] using he'
      rw [ih hc']

/-- A task's continuations stay with its peer. -/
theorem Reaches.peer_eq [PeerTask σ]
    (hpeer : ∀ t effects next, exec t = some (effects, some next) → peerIndex next = peerIndex t)
    (h : Reaches exec task effects rest) : peerIndex rest = peerIndex task := by
  induction h with
  | refl => rfl
  | step he _ ih => exact ih.trans (hpeer _ _ _ he)

end Alone

/-! ## Serving a task alone with `ServerTaskExecutor` -/

namespace ServerTaskExecutor

variable (self : ServerTaskExecutor) (fuel : Nat)

/-- A continuation is for its task's peer. -/
theorem execute_next_peerIndex (t : ServerTask) (effects : List Effect) (next : ServerTask)
    (h : self.execute fuel t = some (effects, some next)) : peerIndex next = peerIndex t :=
  (self.execute_peerIndex h).2 _ rfl

/-- A chain of calls that ends is a service to the end. -/
theorem completes_of_executeChain {n : Nat} {task : ServerTask} {effects : List Effect}
    (h : self.executeChain fuel n task = some (effects, none)) :
    Completes (self.execute fuel) task effects := by
  induction n generalizing task effects with
  | zero => cases h
  | succ n ih =>
    cases he : self.execute fuel task with
    | none => simp [executeChain, he] at h
    | some r =>
      obtain ⟨es, _ | next⟩ := r
      · rw [executeChain_succ_of_done self he] at h
        cases h
        exact .done he
      · rw [executeChain_succ_of_execute self he] at h
        obtain ⟨⟨es', rest⟩, h', he'⟩ := Option.map_eq_some'.1 h
        cases he'
        exact .step he (ih h')

/-- Serving `getdata` alone sends `getDataResponse`. -/
theorem completes_getData (peerIndex : PeerIndex) (inventory : List InventoryVector) :
    Completes (self.execute fuel) (.getData peerIndex ⟨inventory⟩)
      (self.getDataResponse peerIndex inventory) := by
  have hstep : self.execute fuel (.getData peerIndex ⟨inventory⟩) =
      some ([], some (.reversedGetData peerIndex ⟨inventory.reverse⟩ ⟨[]⟩)) := rfl
  have h := Completes.step hstep
    (self.completes_of_executeChain fuel (self.executeChain_reversedGetData fuel peerIndex inventory []))
  simpa [getDataResponse] using h

end ServerTaskExecutor

/-! ## What a run submitted and emitted -/

section Ghost

variable {σ ε : Type}

/-- The task an action submits: that of an `execute`. -/
@[simp] def Action.submitted : Action σ → Option σ
  | .execute task => some task
  | _ => none

/-- The tasks of the `execute` calls of `actions`, in order: the `k`-th is request `k`'s. -/
def submissions (actions : List (Action σ)) : List σ :=
  actions.filterMap Action.submitted

@[simp] theorem submissions_nil : submissions ([] : List (Action σ)) = [] := rfl

@[simp] theorem submissions_append (l₁ l₂ : List (Action σ)) :
    submissions (l₁ ++ l₂) = submissions l₁ ++ submissions l₂ :=
  List.filterMap_append _ _ _

@[simp] theorem submissions_singleton (a : Action σ) : submissions [a] = a.submitted.toList := by
  cases a <;> rfl

/-- The effects emitted for request `k`, in order. -/
def effectsOf (emitted : List (Sent ε)) (k : Nat) : List ε :=
  (emitted.filter (·.request = k)).map (·.effect)

@[simp] theorem effectsOf_append (l₁ l₂ : List (Sent ε)) (k : Nat) :
    effectsOf (l₁ ++ l₂) k = effectsOf l₁ k ++ effectsOf l₂ k := by
  simp [effectsOf]

theorem effectsOf_map_mk (id : Nat) (q : PeerIndex) (effects : List ε) (k : Nat) :
    effectsOf (effects.map (Sent.mk id q)) k = if id = k then effects else [] := by
  split <;> simp [effectsOf, List.filter_map, Function.comp_def, *]

theorem effectsOf_eq_nil {emitted : List (Sent ε)} {k : Nat}
    (h : ∀ x ∈ emitted, x.request ≠ k) : effectsOf emitted k = [] := by
  simpa only [effectsOf, List.map_eq_nil_iff, List.filter_eq_nil_iff, decide_eq_true_eq] using h

end Ghost

namespace ServerState

variable {σ ε : Type} [PeerTask σ] {exec : σ → Option (List ε × Option σ)}
  {s s' : ServerState σ ε} {done : List (Action σ)} {p : PeerIndex}

/-- The requests in a peer's line are that peer's. -/
theorem peer_eq_of_mem_lineRequests (hq : s.queue.Inv) {r : Request σ}
    (hr : r ∈ s.lineRequests p) : peerIndex r.task = p := by
  rcases List.mem_append.1 hr with hr | hr
  · simp only [Option.mem_toList, Option.mem_def, Option.filter_eq_some] at hr
    simpa using hr.2
  · exact hq.peer_eq_of_mem_pending hr

/-- The worker's request heads its peer's line. -/
theorem lineRequests_executing {r : Request σ} (hw : s.worker = .executing r) :
    s.lineRequests (peerIndex r.task) = r :: s.queue.pending (peerIndex r.task) := by
  simp [lineRequests, hw, Option.filter, Request.peerIndex_eq]

/-- The lines after a call of the executor: the request served leaves its peer's line, or its
continuation takes its place. -/
theorem lineRequests_workerExecute
    (hpeer : ∀ t effects next, exec t = some (effects, some next) → peerIndex next = peerIndex t)
    {r : Request σ} {effects : List ε} {next : Option σ} (hw : s.worker = .executing r)
    (hs' : s' = { s with
      emitted := s.emitted ++ effects.map (Sent.mk r.id (peerIndex r))
      worker := match next with
        | some task => .reinjecting ⟨r.id, task⟩
        | none => .loop })
    (hexec : exec r.task = some (effects, next)) (p : PeerIndex) :
    s'.lineRequests p = if p = peerIndex r.task
      then (next.map (Request.mk r.id)).toList ++ s.queue.pending p else s.lineRequests p := by
  subst hs'
  by_cases hp : p = peerIndex r.task
  · subst hp
    cases next with
    | none => simp [lineRequests]
    | some c => simp [lineRequests, Option.filter, hpeer _ _ _ hexec]
  · cases next with
    | none => simp [lineRequests, Option.filter, Request.peerIndex_eq, hw, hp, Ne.symm hp]
    | some c => simp [lineRequests, Option.filter, hpeer _ _ _ hexec, Request.peerIndex_eq, hw, hp,
        Ne.symm hp]

/-- **Each request is served as if alone**, after the actions `done` from `new`. Request numbers
are positions in the submissions, and those in a peer's line are distinct. A request in line
has emitted what serving its task alone makes up to the task it holds; a request out of line
has emitted the whole of that service, or its peer was disconnected and it emitted a part. -/
structure ServedAlone (exec : σ → Option (List ε × Option σ)) (done : List (Action σ))
    (s : ServerState σ ε) : Prop where
  nextRequest_eq : s.nextRequest = (submissions done).length
  sent_peer : ∀ x ∈ s.emitted, ∃ task, (submissions done)[x.request]? = some task ∧
    x.peerIndex = peerIndex task
  nodup : ∀ p, ((s.lineRequests p).map (·.id)).Nodup
  inLine : ∀ p, ∀ r ∈ s.lineRequests p, ∃ task, (submissions done)[r.id]? = some task ∧
    Reaches exec task (effectsOf s.emitted r.id) r.task
  outOfLine : ∀ k task, (submissions done)[k]? = some task →
    (∀ p, ∀ r ∈ s.lineRequests p, r.id ≠ k) →
    Completes exec task (effectsOf s.emitted k) ∨
      .onDisconnect (peerIndex task) ∈ done ∧ ∃ rest, Reaches exec task (effectsOf s.emitted k) rest

theorem servedAlone_init : ServedAlone exec [] (init : ServerState σ ε) where
  nextRequest_eq := rfl
  sent_peer := nofun
  nodup _ := by simp [lineRequests, init]
  inLine _ := by simp [lineRequests, init]
  outOfLine _ _ hk := by simp at hk

section Steps

variable (hpeer : ∀ t effects next, exec t = some (effects, some next) → peerIndex next = peerIndex t)
  (hq : s.queue.Inv) (hs : ServedAlone exec done s)

include hs in
theorem ServedAlone.id_lt {r : Request σ} (hr : r ∈ s.lineRequests p) : r.id < s.nextRequest := by
  obtain ⟨t, ht, -⟩ := hs.inLine p r hr
  exact hs.nextRequest_eq ▸ (List.getElem?_eq_some_iff.1 ht).1

include hs in
theorem ServedAlone.sent_lt {x : Sent ε} (hx : x ∈ s.emitted) : x.request < s.nextRequest := by
  obtain ⟨t, ht, -⟩ := hs.sent_peer x hx
  exact hs.nextRequest_eq ▸ (List.getElem?_eq_some_iff.1 ht).1

include hpeer hq hs in
/-- Two requests in line with one number are one request, in one line. -/
theorem ServedAlone.eq_of_id {p₁ p₂ : PeerIndex} {r₁ r₂ : Request σ}
    (h₁ : r₁ ∈ s.lineRequests p₁) (h₂ : r₂ ∈ s.lineRequests p₂) (hid : r₁.id = r₂.id) :
    p₁ = p₂ ∧ r₁ = r₂ := by
  obtain ⟨t₁, ht₁, hr₁⟩ := hs.inLine p₁ r₁ h₁
  obtain ⟨t₂, ht₂, hr₂⟩ := hs.inLine p₂ r₂ h₂
  obtain rfl : t₁ = t₂ := Option.some.inj (ht₁.symm.trans (hid ▸ ht₂))
  have hp : p₁ = p₂ := by
    rw [← peer_eq_of_mem_lineRequests hq h₁, ← peer_eq_of_mem_lineRequests hq h₂,
      hr₁.peer_eq hpeer, hr₂.peer_eq hpeer]
  subst hp
  exact ⟨rfl, List.inj_on_of_nodup_map (hs.nodup p₁) h₁ h₂ hid⟩

include hs in
/-- `ServedAlone` sees a state through its lines, its effects and its counter, and a run through
its submissions and its disconnects. -/
theorem ServedAlone.congr {done' : List (Action σ)} (hsub : submissions done' = submissions done)
    (hdone : ∀ a ∈ done, a ∈ done') (hl : ∀ p, s'.lineRequests p = s.lineRequests p)
    (he : s'.emitted = s.emitted) (hn : s'.nextRequest = s.nextRequest) :
    ServedAlone exec done' s' where
  nextRequest_eq := by rw [hn, hsub, hs.nextRequest_eq]
  sent_peer := by rw [he, hsub]; exact hs.sent_peer
  nodup p := by rw [hl]; exact hs.nodup p
  inLine p := by rw [hl, hsub, he]; exact hs.inLine p
  outOfLine k task := by
    simp only [hl, hsub, he]
    exact fun hk hout => (hs.outOfLine k task hk hout).imp_right fun ⟨hd, h⟩ => ⟨hdone _ hd, h⟩

include hq hs in
theorem ServedAlone.of_movesOnly {a : Action σ} (ha : a.movesOnly)
    (h : step exec s a = some s') : ServedAlone exec (done ++ [a]) s' := by
  have hf := step_movesOnly hq ha h
  refine hs.congr ?_ (fun _ => List.mem_append_left _) (fun p => (hf p).1) (hf 0).2.1 (hf 0).2.2
  cases a <;> simp only [Action.movesOnly, Bool.false_eq_true] at ha <;> simp

include hs in
/-- A submission joins its peer's line with the next number, and nothing emitted yet. -/
theorem ServedAlone.execute {task : σ} (h : step exec s (.execute task) = some s') :
    ServedAlone exec (done ++ [.execute task]) s' := by
  obtain ⟨-, rfl⟩ := step_execute h
  have hsub : submissions (done ++ [.execute task]) = submissions done ++ [task] := by
    simp
  have hfresh : effectsOf s.emitted s.nextRequest = [] :=
    effectsOf_eq_nil fun x hx => (hs.sent_lt hx).ne
  have hline : ∀ p, lineRequests { s with
      queue := s.queue.addTask ⟨s.nextRequest, task⟩
      worker := s.worker.notify
      nextRequest := s.nextRequest + 1 } p =
        s.lineRequests p ++ if p = peerIndex task then [⟨s.nextRequest, task⟩] else [] := by
    intro p
    split <;> simp [lineRequests, *]
  have hold : ∀ p, ∀ r ∈ s.lineRequests p, (submissions done ++ [task])[r.id]? =
      (submissions done)[r.id]? := fun p r hr =>
    List.getElem?_append_left (hs.nextRequest_eq ▸ hs.id_lt hr)
  refine ⟨by simp [hsub, hs.nextRequest_eq], fun x hx => ?_,
    fun p => ?_, fun p r hr => ?_, fun k t hk hout => ?_⟩
  · rw [hsub, List.getElem?_append_left (hs.nextRequest_eq ▸ hs.sent_lt hx)]
    exact hs.sent_peer x hx
  · -- the new number is above every number in line
    rw [hline]
    split
    · rw [List.map_append]
      refine (hs.nodup p).append (List.nodup_singleton _) fun a ha hb => ?_
      obtain ⟨r, hr, rfl⟩ := List.mem_map.1 ha
      exact (hs.id_lt hr).ne (List.mem_singleton.1 hb)
    · simpa using hs.nodup p
  · rw [hline, List.mem_append] at hr
    rcases hr with hr | hr
    · rw [hsub, hold p r hr]
      exact hs.inLine p r hr
    · split at hr
      · obtain rfl := List.mem_singleton.1 hr
        refine ⟨task, by rw [hsub, hs.nextRequest_eq, List.getElem?_concat_length], ?_⟩
        simpa [hfresh] using Reaches.refl task
      · cases hr
  · -- an old request: the new one is in line
    rw [hsub] at hk
    have hlt : k < (submissions done).length := by
      refine lt_of_le_of_ne (Nat.lt_succ_iff.1 (by simpa using (List.getElem?_eq_some_iff.1 hk).1))
        fun hk' => hout (peerIndex task) ⟨s.nextRequest, task⟩ (by simp [hline]) ?_
      simp [hs.nextRequest_eq, hk']
    rw [List.getElem?_append_left hlt] at hk
    exact (hs.outOfLine k t hk fun p r hr => hout p r (by simp [hline, hr])).imp_right
      fun ⟨hd, h⟩ => ⟨List.mem_append_left _ hd, h⟩

include hpeer hq hs in
/-- A disconnect takes requests out of the peer's line, each with a part of its service. -/
theorem ServedAlone.onDisconnect {p₀ : PeerIndex} (h : step exec s (.onDisconnect p₀) = some s') :
    ServedAlone exec (done ++ [.onDisconnect p₀]) s' := by
  obtain ⟨-, q, hrm, rfl⟩ := step_onDisconnect h
  obtain ⟨q', hrm', hpend⟩ := hq.removePeerTasks_pending p₀
  rw [hrm'] at hrm
  cases hrm
  have hline : ∀ p, lineRequests { s with queue := q } p =
      if p = p₀ then (s.worker.inflight.filter (peerIndex · = p)).toList else s.lineRequests p := by
    intro p
    split <;> simp [lineRequests, hpend, *]
  have hmem : ∀ p, ∀ r ∈ lineRequests { s with queue := q } p, r ∈ s.lineRequests p := by
    intro p r hr
    rw [hline] at hr
    split at hr
    · exact List.mem_append_left _ hr
    · exact hr
  have hsub : submissions (done ++ [.onDisconnect p₀]) = submissions done := by simp
  refine ⟨by rw [hsub]; exact hs.nextRequest_eq, by rw [hsub]; exact hs.sent_peer, fun p => ?_,
    fun p r hr => ?_, fun k t hk hout => ?_⟩
  · rw [hline]
    split
    · exact (hs.nodup p).sublist ((List.sublist_append_left _ _).map _)
    · exact hs.nodup p
  · rw [hsub]
    exact hs.inLine p r (hmem p r hr)
  · rw [hsub] at hk
    by_cases hin : ∃ p, ∃ r ∈ s.lineRequests p, r.id = k
    · -- the request was in `p₀`'s deque, and its peer is `p₀`
      obtain ⟨p, r, hr, rfl⟩ := hin
      obtain ⟨t', ht', hreach⟩ := hs.inLine p r hr
      obtain rfl : t' = t := Option.some.inj (ht'.symm.trans hk)
      have hp : p = p₀ := by
        by_contra hp
        exact hout p r (by simpa [hline, hp] using hr) rfl
      refine .inr ⟨List.mem_append_right _ ?_, r.task, hreach⟩
      rw [← hreach.peer_eq hpeer, peer_eq_of_mem_lineRequests hq hr, hp]
      exact List.mem_singleton_self _
    · push_neg at hin
      exact (hs.outOfLine k t hk hin).imp_right fun ⟨hd, h⟩ => ⟨List.mem_append_left _ hd, h⟩

include hpeer hq hs in
/-- A call of the executor extends the service of the request it serves by that call, and leaves
every other request as it was. -/
theorem ServedAlone.workerExecute (h : step exec s .workerExecute = some s') :
    ServedAlone exec (done ++ [.workerExecute]) s' := by
  obtain ⟨r, effects, next, hw, hexec, hs'⟩ := step_workerExecute h
  have hp₀ := lineRequests_executing hw
  have hr : r ∈ s.lineRequests (peerIndex r.task) := hp₀ ▸ List.mem_cons_self _ _
  have hn₀ := hs.nodup (peerIndex r.task)
  rw [hp₀, List.map_cons, List.nodup_cons] at hn₀
  have hline := lineRequests_workerExecute hpeer hw hs' hexec
  have he : ∀ k, effectsOf s'.emitted k = effectsOf s.emitted k ++ if r.id = k then effects else [] :=
    fun k => by rw [hs', effectsOf_append, effectsOf_map_mk]
  -- the other requests in line stay there
  have hstay : ∀ p, ∀ r' ∈ s.lineRequests p, r' ≠ r → r' ∈ s'.lineRequests p := by
    intro p r' hr' hne
    rw [hline]
    by_cases hp : p = peerIndex r.task
    · subst hp
      rw [hp₀] at hr'
      simpa using .inr ((List.mem_cons.1 hr').resolve_left hne)
    · simpa [hp] using hr'
  -- a request in line after the call was in line before, or is the continuation
  have hcases : ∀ p, ∀ r' ∈ s'.lineRequests p,
      (r' ∈ s.lineRequests p ∧ r'.id ≠ r.id) ∨ ∃ c, next = some c ∧ r' = ⟨r.id, c⟩ := by
    intro p r' hr'
    rw [hline] at hr'
    by_cases hp : p = peerIndex r.task
    · subst hp
      rw [if_pos rfl, List.mem_append] at hr'
      rcases hr' with hc | hc
      · obtain ⟨c, hnext, rfl⟩ := Option.map_eq_some'.1 (Option.mem_toList.1 hc)
        exact .inr ⟨c, hnext, rfl⟩
      · refine .inl ⟨hp₀ ▸ List.mem_cons_of_mem _ hc, fun hid => hn₀.1 ?_⟩
        exact hid ▸ List.mem_map_of_mem (·.id) hc
    · rw [if_neg hp] at hr'
      refine .inl ⟨hr', fun hid => hp ?_⟩
      rw [← peer_eq_of_mem_lineRequests hq hr', (hs.eq_of_id hpeer hq hr' hr hid).2]
  have hsub : submissions (done ++ [.workerExecute]) = submissions done := by simp
  obtain ⟨t, ht, hreach⟩ := hs.inLine _ r hr
  refine ⟨by rw [hs', hsub]; exact hs.nextRequest_eq, fun x hx => ?_, fun p => ?_,
    fun p r' hr' => ?_, fun k t' hk hout => ?_⟩
  · rw [hs'] at hx
    rcases List.mem_append.1 hx with hx | hx
    · rw [hsub]
      exact hs.sent_peer x hx
    · obtain ⟨e, -, rfl⟩ := List.mem_map.1 hx
      exact ⟨t, by rw [hsub]; exact ht, hreach.peer_eq hpeer⟩
  · rw [hline]
    by_cases hp : p = peerIndex r.task
    · subst hp
      cases next <;> simp [hn₀]
    · rw [if_neg hp]
      exact hs.nodup p
  · rw [hsub]
    rcases hcases p r' hr' with ⟨hr', hne⟩ | ⟨c, rfl, rfl⟩
    · rw [he, if_neg hne.symm, List.append_nil]
      exact hs.inLine p r' hr'
    · exact ⟨t, ht, by rw [he, if_pos rfl]; exact hreach.snoc hexec⟩
  · rw [hsub] at hk
    by_cases hk' : r.id = k
    · -- the request served: done, or its continuation is in line
      subst hk'
      obtain rfl : t = t' := Option.some.inj (ht.symm.trans hk)
      cases next with
      | some c => exact absurd rfl (hout (peerIndex r.task) ⟨r.id, c⟩ (by simp [hline]))
      | none => exact .inl (by rw [he, if_pos rfl]; exact hreach.completes (.done hexec))
    · rw [he, if_neg hk', List.append_nil]
      refine (hs.outOfLine k t' hk fun p r' hr' hid => ?_).imp_right
        fun ⟨hd, h⟩ => ⟨List.mem_append_left _ hd, h⟩
      by_cases hne : r' = r
      · exact hk' (hne ▸ hid)
      · exact hout p r' (hstay p r' hr' hne) hid

include hpeer hq hs in
/-- **Each step keeps `ServedAlone`.** -/
theorem ServedAlone.of_step {a : Action σ} (h : step exec s a = some s') :
    ServedAlone exec (done ++ [a]) s' := by
  cases ha : a.movesOnly
  case true => exact hs.of_movesOnly hq ha h
  cases a <;> simp only [Action.movesOnly, Bool.true_eq_false] at ha
  case execute task => exact hs.execute h
  case onDisconnect p => exact hs.onDisconnect hpeer hq h
  case workerExecute => exact hs.workerExecute hpeer hq h

end Steps

variable (hpeer : ∀ t effects next, exec t = some (effects, some next) → peerIndex next = peerIndex t)

include hpeer in
/-- **Every run keeps `ServedAlone`.** -/
theorem ServedAlone.of_run (hr : Reachable exec s) (hs : ServedAlone exec done s)
    {actions : List (Action σ)} (h : run exec s actions = some s') :
    ServedAlone exec (done ++ actions) s' := by
  induction actions generalizing s done with
  | nil => cases h; simpa using hs
  | cons a actions ih =>
    simp only [run] at h
    cases hstep : step exec s a with
    | none => simp [hstep] at h
    | some s₁ =>
      simpa using ih (hr.step hstep) (hs.of_step hpeer hr.queue_inv hstep) (by simpa [hstep] using h)

include hpeer in
theorem servedAlone_of_run {actions : List (Action σ)} (h : run exec init actions = some s) :
    ServedAlone exec actions s := by
  simpa using servedAlone_init.of_run hpeer .init h

/-- A request out of every line whose peer stayed connected has been served to the end. -/
theorem ServedAlone.completes (hs : ServedAlone exec done s) {k : Nat} {task : σ}
    (hk : (submissions done)[k]? = some task) (hout : ∀ p, ∀ r ∈ s.lineRequests p, r.id ≠ k)
    (hconn : .onDisconnect (peerIndex task) ∉ done) : Completes exec task (effectsOf s.emitted k) :=
  (hs.outOfLine k task hk hout).resolve_right fun ⟨hd, _⟩ => hconn hd

/-- With the queue empty and nothing in the worker's hand, no request is in line. -/
theorem lineRequests_eq_nil (hq : s.queue.Inv) (hpq : s.queue.peersQueue = [])
    (hw : s.worker.inflight = none) (p : PeerIndex) : s.lineRequests p = [] := by
  have := (hq.pending_isEmpty p).2 (by simp [hpq])
  simp_all [lineRequests]

/-! ## The server -/

/-- **Each request is served as if alone.** For any executor whose continuations stay with their
task's peer, after any run of `ServerImpl`'s threads from `new`: nothing was emitted for a
request never submitted; what was emitted for the `k`-th submitted task is what serving it alone
makes, part of the way or to the end; and once no request numbered `k` is in any line, and the
task's peer was not disconnected on the run, it is the whole of that service. -/
theorem run_serves_each_request_alone
    (hpeer : ∀ t effects next, exec t = some (effects, some next) → peerIndex next = peerIndex t)
    {actions : List (Action σ)} (h : run exec init actions = some s) :
    (∀ k, (submissions actions).length ≤ k → effectsOf s.emitted k = []) ∧
    ∀ k task, (submissions actions)[k]? = some task →
      ((∃ rest, Reaches exec task (effectsOf s.emitted k) rest) ∨
        Completes exec task (effectsOf s.emitted k)) ∧
      ((∀ p, ∀ r ∈ s.lineRequests p, r.id ≠ k) → .onDisconnect (peerIndex task) ∉ actions →
        Completes exec task (effectsOf s.emitted k)) := by
  have hs := servedAlone_of_run hpeer h
  refine ⟨fun k hk => effectsOf_eq_nil fun x hx => ?_, fun k task hk => ⟨?_, hs.completes hk⟩⟩
  · have := hs.sent_lt hx
    rw [hs.nextRequest_eq] at this
    omega
  · by_cases hin : ∃ p, ∃ r ∈ s.lineRequests p, r.id = k
    · obtain ⟨p, r, hr, rfl⟩ := hin
      obtain ⟨t, ht, hreach⟩ := hs.inLine p r hr
      obtain rfl : t = task := Option.some.inj (ht.symm.trans hk)
      exact .inl ⟨r.task, hreach⟩
    · push_neg at hin
      exact (hs.outOfLine k task hk hin).elim .inr fun ⟨_, h⟩ => .inl h

/-- Two peers' `getdata` requests, served in turns: request `0` has made its whole service, and
request `1`, still in line, a part of its own. -/
theorem run_serves_each_request_alone_two_peers :
    let exec := (ServerTaskExecutor.mk .empty).execute 0
    let actions : List (Action ServerTask) :=
      [.execute (.getData 0 ⟨[.block 0]⟩), .execute (.getData 1 ⟨[.block 1]⟩),
        .workerLock, .workerExecute, .workerReinject, .workerLock, .workerExecute, .workerReinject,
        .workerLock, .workerExecute, .workerReinject, .workerLock, .workerExecute, .workerReinject,
        .workerLock, .workerExecute]
    let s := (run exec init actions).getD init
    (∀ t effects next, exec t = some (effects, some next) → peerIndex next = peerIndex t) ∧
      run exec init actions = some s ∧
      ((∀ k, (submissions actions).length ≤ k → effectsOf s.emitted k = []) ∧
      ∀ k task, (submissions actions)[k]? = some task →
        ((∃ rest, Reaches exec task (effectsOf s.emitted k) rest) ∨
          Completes exec task (effectsOf s.emitted k)) ∧
        ((∀ p, ∀ r ∈ s.lineRequests p, r.id ≠ k) → .onDisconnect (peerIndex task) ∉ actions →
          Completes exec task (effectsOf s.emitted k))) := by
  intro exec actions s
  have hpeer := (ServerTaskExecutor.mk .empty).execute_next_peerIndex 0
  have ends {o : Option (ServerState ServerTask Effect)} {d} (h : o.isSome) :
      o = some (o.getD d) := (Option.getD_of_ne_none (Option.isSome_iff_ne_none.1 h) d).symm
  have h : run exec init actions = some s := ends rfl
  exact ⟨hpeer, h, run_serves_each_request_alone hpeer h⟩

/-- **A `getdata` request is answered in full, whatever the other peers ask.** Over any store and
fork-walk bound, after any run of `ServerImpl`'s threads with `ServerTaskExecutor`: once the
`k`-th submitted task, a `getdata` of peer `p`, is out of every line, and `p` was not
disconnected on the run, the effects made for it are `getDataResponse`: the blocks found, in
inventory order, then one `notfound` with the missing block items. -/
theorem run_answers_getData (storage : BlockProvider) (fuel : Nat)
    {actions : List (Action ServerTask)} {s : ServerState ServerTask Effect}
    (h : run ((ServerTaskExecutor.mk storage).execute fuel) init actions = some s)
    {k : Nat} {p : PeerIndex} {inventory : List InventoryVector}
    (hk : (submissions actions)[k]? = some (.getData p ⟨inventory⟩))
    (hout : ∀ q, ∀ r ∈ s.lineRequests q, r.id ≠ k) (hconn : .onDisconnect p ∉ actions) :
    effectsOf s.emitted k = (ServerTaskExecutor.mk storage).getDataResponse p inventory :=
  ((servedAlone_of_run (ServerTaskExecutor.execute_next_peerIndex _ fuel) h).completes hk hout
    hconn).unique ((ServerTaskExecutor.mk storage).completes_getData fuel p inventory)

/-- The two requests of `run_serves_each_request_alone_two_peers`, served to the end: each is
sent its `notfound`. -/
theorem run_answers_getData_two_peers :
    let exec := (ServerTaskExecutor.mk .empty).execute 0
    let actions : List (Action ServerTask) :=
      [.execute (.getData 0 ⟨[.block 0]⟩), .execute (.getData 1 ⟨[.block 1]⟩),
        .workerLock, .workerExecute, .workerReinject, .workerLock, .workerExecute, .workerReinject,
        .workerLock, .workerExecute, .workerReinject, .workerLock, .workerExecute, .workerReinject,
        .workerLock, .workerExecute, .workerLock, .workerExecute]
    let s := (run exec init actions).getD init
    run exec init actions = some s ∧
      (submissions actions)[1]? = some (.getData 1 ⟨[.block 1]⟩) ∧
      (∀ q, ∀ r ∈ s.lineRequests q, r.id ≠ 1) ∧ .onDisconnect 1 ∉ actions ∧
      effectsOf s.emitted 1 = (ServerTaskExecutor.mk .empty).getDataResponse 1 [.block 1] := by
  intro exec actions s
  have ends {o : Option (ServerState ServerTask Effect)} {d} (h : o.isSome) :
      o = some (o.getD d) := (Option.getD_of_ne_none (Option.isSome_iff_ne_none.1 h) d).symm
  have h : run exec init actions = some s := ends rfl
  have hout : ∀ q, ∀ r ∈ s.lineRequests q, r.id ≠ 1 := fun q r hr => by
    rw [lineRequests_eq_nil (Reachable.of_run exec .init h).queue_inv (by decide) (by decide)] at hr
    cases hr
  exact ⟨h, rfl, hout, by decide, run_answers_getData .empty 0 h rfl hout (by decide)⟩

end ServerState

end RandchainSync
