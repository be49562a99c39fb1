import RandchainSync.Server.ServeAlone
import RandchainSync.Server.ResponseOrder

/-!
# Each peer's stream is sequential

The effects `ServerImpl` makes for one peer come request by request (`Server.ResponseOrder`),
and each request's effects are those of serving it alone (`Server.ServeAlone`). Together: the
stream of effects emitted for a peer, in emission order, is the effects of the peer's requests
laid end to end in submission order, whatever the worker did for other peers in between. Read
with `run_serves_each_request_alone`, a peer sees what a server that served its requests one at
a time, each to its end before the next, would have sent it so far.

## Main definitions

* `requestsOf`: the numbers of one peer's requests, in submission order

## Main results

* `eq_filter_append_filter_not`, `eq_flatMap_filter_of_sorted`: a list sorted by key is its
  groups by key, key after key
* `run_peer_stream_sequential`: each peer's stream is its requests' effects, one request after
  the other
-/

namespace RandchainSync

open PeerTask (peerIndex)

/-! ## Lists sorted by key -/

section Sorted

variable {α : Type}

/-- A list in which whatever follows an entry of `P` is of `P` is the entries of `P`, then the
others. -/
theorem eq_filter_append_filter_not {P : α → Bool} :
    ∀ {l : List α}, l.Pairwise (fun x y => P y → P x) → l = l.filter P ++ l.filter (!P ·)
  | [], _ => rfl
  | x :: l, h => by
    rw [List.pairwise_cons] at h
    by_cases hx : P x
    · simpa [List.filter_cons, hx] using eq_filter_append_filter_not h.2
    · -- nothing of `P` follows `x`
      have hno : ∀ y ∈ l, P y = false := fun y hy => by
        by_contra hy'
        exact hx (h.1 y hy (by simpa using hy'))
      have h₁ : l.filter P = [] := List.filter_eq_nil_iff.2 fun y hy => by simp [hno y hy]
      have h₂ : l.filter (!P ·) = l := List.filter_eq_self.2 fun y hy => by simp [hno y hy]
      simp [List.filter_cons, hx, h₁, h₂]

/-- **A list whose keys come in order, each from `keys`, is its groups by key, key after key.** -/
theorem eq_flatMap_filter_of_sorted {f : α → Nat} :
    ∀ {keys : List Nat} {l : List α}, keys.Pairwise (· < ·) → (l.map f).Pairwise (· ≤ ·) →
      (∀ x ∈ l, f x ∈ keys) → l = keys.flatMap fun k => l.filter (f · = k)
  | [], [], _, _, _ => rfl
  | [], x :: _, _, _, hmem => absurd (hmem x (List.mem_cons_self _ _)) (List.not_mem_nil _)
  | k :: keys, l, hK, hl, hmem => by
    rw [List.pairwise_cons] at hK
    rw [List.pairwise_map] at hl
    have hge : ∀ x ∈ l, k ≤ f x := fun x hx => by
      rcases List.mem_cons.1 (hmem x hx) with h | h
      · exact h.ge
      · exact (hK.1 _ h).le
    -- the entries of key `k` come first
    have hsplit : l = l.filter (f · = k) ++ l.filter fun x => !decide (f x = k) :=
      eq_filter_append_filter_not (hl.imp_of_mem fun hx _ hxy hy' => by
        have := hge _ hx
        simp only [decide_eq_true_eq] at hy' ⊢
        omega)
    -- the others are grouped by the other keys
    have hrest : l.filter (fun x => !decide (f x = k)) =
        keys.flatMap fun k' => (l.filter fun x => !decide (f x = k)).filter (f · = k') :=
      eq_flatMap_filter_of_sorted hK.2
        (List.pairwise_map.2 (hl.sublist (List.filter_sublist _))) fun x hx => by
        obtain ⟨hx, hne⟩ := List.mem_filter.1 hx
        simpa using (List.mem_cons.1 (hmem x hx)).resolve_left (by simpa using hne)
    rw [List.flatMap_cons]
    refine hsplit.trans (congrArg _ (hrest.trans (List.flatMap_congr fun k' hk' => ?_)))
    rw [List.filter_filter]
    refine List.filter_congr fun x _ => ?_
    have hne : k' ≠ k := (hK.1 k' hk').ne'
    by_cases hx : f x = k' <;> simp [hx, hne]

end Sorted

/-! ## The server -/

variable {σ ε : Type} [PeerTask σ]

/-- The numbers of the requests of peer `p` among the submissions `subs`, in submission order. -/
def requestsOf (subs : List σ) (p : PeerIndex) : List Nat :=
  (List.range subs.length).filter fun k => subs[k]?.map peerIndex = some p

theorem mem_requestsOf {subs : List σ} {p : PeerIndex} {k : Nat} :
    k ∈ requestsOf subs p ↔ subs[k]?.map peerIndex = some p := by
  simp only [requestsOf, List.mem_filter, List.mem_range, decide_eq_true_eq, and_iff_right_iff_imp]
  intro h
  by_contra hk
  simp [List.getElem?_eq_none (Nat.le_of_not_lt hk)] at h

namespace ServerState

variable {exec : σ → Option (List ε × Option σ)} {s : ServerState σ ε}

/-- **Each peer's stream is sequential.** For any executor whose continuations stay with their
task's peer, after any run of `ServerImpl`'s threads from `new`, and for every peer `p`: the
effects emitted for `p`, in emission order, are the effects emitted for `p`'s requests laid end
to end, request after request in submission order. -/
theorem run_peer_stream_sequential
    (hpeer : ∀ t effects next, exec t = some (effects, some next) → peerIndex next = peerIndex t)
    {actions : List (Action σ)} (h : run exec init actions = some s) (p : PeerIndex) :
    (s.emitted.filter (·.peerIndex = p)).map (·.effect) =
      (requestsOf (submissions actions) p).flatMap (effectsOf s.emitted) := by
  have hs := servedAlone_of_run hpeer h
  -- an entry is tagged with its request's peer
  have htag : ∀ x ∈ s.emitted, (submissions actions)[x.request]?.map peerIndex = some x.peerIndex :=
    fun x hx => by
      obtain ⟨t, ht, hpx⟩ := hs.sent_peer x hx
      simp [ht, hpx]
  have hsorted : ((s.emitted.filter (·.peerIndex = p)).map (·.request)).Pairwise (· ≤ ·) :=
    (Reachable.of_run _ .init h).sentIds_sorted hpeer p
  have hgroups := @eq_flatMap_filter_of_sorted _ (fun x : Sent ε => x.request)
    (requestsOf (submissions actions) p) _
    ((List.pairwise_lt_range _).filter _) hsorted fun x hx => by
      obtain ⟨hx, hp⟩ := List.mem_filter.1 hx
      rw [mem_requestsOf, htag x hx, of_decide_eq_true hp]
  rw [hgroups, List.map_flatMap]
  refine List.flatMap_congr fun k hk => ?_
  -- the entries of a request of `p` are all tagged `p`
  rw [effectsOf, List.filter_filter]
  congr 1
  refine List.filter_congr fun x hx => ?_
  by_cases hxk : x.request = k
  · have := htag x hx
    rw [hxk, (mem_requestsOf.1 hk)] at this
    simp [hxk, (Option.some.inj this).symm]
  · simp [hxk]

/-- Two peers' `getdata` requests served in turns: the stream of each peer is its request's. -/
theorem run_peer_stream_sequential_two_peers :
    let exec := (ServerTaskExecutor.mk .empty).execute 0
    let actions : List (Action ServerTask) :=
      [.execute (.getData 0 ⟨[.block 0]⟩), .execute (.getData 1 ⟨[.block 1]⟩),
        .workerLock, .workerExecute, .workerReinject, .workerLock, .workerExecute, .workerReinject,
        .workerLock, .workerExecute, .workerReinject, .workerLock, .workerExecute, .workerReinject,
        .workerLock, .workerExecute, .workerLock, .workerExecute]
    let s := (run exec init actions).getD init
    (∀ t effects next, exec t = some (effects, some next) → peerIndex next = peerIndex t) ∧
      run exec init actions = some s ∧
      ∀ p, (s.emitted.filter (·.peerIndex = p)).map (·.effect) =
        (requestsOf (submissions actions) p).flatMap (effectsOf s.emitted) := by
  intro exec actions s
  have ends {o : Option (ServerState ServerTask Effect)} {d} (h : o.isSome) :
      o = some (o.getD d) := (Option.getD_of_ne_none (Option.isSome_iff_ne_none.1 h) d).symm
  have hpeer := (ServerTaskExecutor.mk .empty).execute_next_peerIndex 0
  have h : run exec init actions = some s := ends rfl
  exact ⟨hpeer, h, run_peer_stream_sequential hpeer h⟩

end ServerState

end RandchainSync
