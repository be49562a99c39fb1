import Mathlib.Logic.Relation
import RandchainSync.Server.Executor

/-!
# The best common block

`locate_best_common_block` scans `locator ++ [hash_stop]`. An entry on the main chain gives its
height at once; otherwise the inner loop walks back through stored headers, along
`previous_header_hash`, and returns the height of the first parent it finds on the main chain,
or breaks on a missing header and goes on to the next entry.

What the request's description asks for is `WalksTo`: the walk from an entry reaches the main
chain, at the height of the nearest main-chain ancestor-or-self. Whenever the function returns,
it returns the height the first entry that resolves walks to, and `None` exactly when no entry
resolves (`locate_firstResolved`). It need not return: on a store whose headers loop, the walk
from an entry before the first resolving one never ends (`locate_loops_on_header_cycle`). On a
store with finitely many headers and no cycle it always does (`locate_firstResolved` again), the
walk from each entry taking at most one iteration more than there are stored headers: one per
header it follows, and a last one that breaks or returns (`locate_terminates`).

## Main definitions

* `ServerTaskExecutor.WalksTo`, `ServerTaskExecutor.Resolves`, `ServerTaskExecutor.FirstResolved`:
  the answer, written from the request's description
* `ServerTaskExecutor.ParentOf`: the parent relation of stored headers
* `loopStore`, `oneHeaderStore`: a store whose one header is its own parent, and a store with
  one header

## Main results

* `walkFork_some_some`, `walkFork_some_none`: what a walk that ends says
* `locate_firstResolved`: what the function returns, and that it returns on finite acyclic stores
* `walkFork_isSome_of_cover`: a walk over acyclic headers ends within their number, plus one
* `execute_isSome`: every call of the executor returns when the fork walks end
* `locate_terminates`: the function returns on every finite acyclic store
-/

namespace RandchainSync

namespace ServerTaskExecutor

variable (self : ServerTaskExecutor)

/-! ## The answer the request describes -/

/-- Written from the request's description: following `previous_header_hash` through stored
headers from `hash` first reaches a main-chain hash at height `n`. -/
inductive WalksTo : H256 → BlockHeight → Prop
  | main {hash : H256} {n : BlockHeight} :
      self.storage.blockNumber hash = some n → WalksTo hash n
  | parent {hash : H256} {n : BlockHeight} {header : IndexedBlockHeader} :
      self.storage.blockNumber hash = none → self.storage.blockHeader (.hash hash) = some header →
      WalksTo header.raw.previousHeaderHash n → WalksTo hash n

/-- An entry resolves when its walk reaches the main chain. -/
def Resolves (hash : H256) : Prop := ∃ n, self.WalksTo hash n

/-- Written from the request's description: `r` is the height that the first entry of `entries`
that resolves walks to, and `none` exactly when no entry resolves. -/
def FirstResolved (entries : List H256) (r : Option BlockHeight) : Prop :=
  ((∃ n, r = some n) ↔ ∃ e ∈ entries, self.Resolves e) ∧
  ∀ n, r = some n → ∃ pre e post, entries = pre ++ e :: post ∧
    (∀ x ∈ pre, ¬ self.Resolves x) ∧ self.WalksTo e n

variable {self}

/-- The walk is deterministic: a hash walks to one height at most. -/
theorem WalksTo.unique {hash : H256} {n m : BlockHeight} (hn : self.WalksTo hash n)
    (hm : self.WalksTo hash m) : n = m := by
  induction hn with
  | main h => cases hm <;> simp_all
  | parent hnum hhead _ ih =>
    cases hm with
    | main h => simp_all
    | parent _ hhead' hm => rw [hhead, Option.some.injEq] at hhead'; exact ih (hhead' ▸ hm)

theorem firstResolved_nil : self.FirstResolved [] none :=
  ⟨by simp, nofun⟩

theorem firstResolved_here {e : H256} {n : BlockHeight} (rest : List H256) (h : self.WalksTo e n) :
    self.FirstResolved (e :: rest) (some n) :=
  ⟨⟨fun _ => ⟨e, List.mem_cons_self e rest, n, h⟩, fun _ => ⟨n, rfl⟩⟩,
    fun _ hn => ⟨[], e, rest, rfl, nofun, Option.some.inj hn ▸ h⟩⟩

theorem FirstResolved.skip {e : H256} {rest : List H256} {r : Option BlockHeight}
    (he : ¬ self.Resolves e) (h : self.FirstResolved rest r) :
    self.FirstResolved (e :: rest) r := by
  refine ⟨h.1.trans ⟨fun ⟨x, hx, hr⟩ => ⟨x, List.mem_cons_of_mem e hx, hr⟩, fun ⟨x, hx, hr⟩ => ?_⟩,
    fun n hn => ?_⟩
  · rcases List.mem_cons.mp hx with rfl | hx
    · exact absurd hr he
    · exact ⟨x, hx, hr⟩
  · obtain ⟨pre, x, post, rfl, hpre, hx⟩ := h.2 n hn
    refine ⟨e :: pre, x, post, rfl, fun y hy => ?_, hx⟩
    rcases List.mem_cons.mp hy with rfl | hy
    exacts [he, hpre y hy]

/-! ## What the code computes -/

theorem walkFork_succ_of_none {fuel : Nat} {hash : H256}
    (hhead : self.storage.blockHeader (.hash hash) = none) :
    self.walkFork (fuel + 1) hash = some none := by
  simp [walkFork, hhead]

theorem walkFork_succ_of_main {fuel : Nat} {hash : H256} {header : IndexedBlockHeader}
    {n : BlockHeight} (hhead : self.storage.blockHeader (.hash hash) = some header)
    (hnum : self.storage.blockNumber header.raw.previousHeaderHash = some n) :
    self.walkFork (fuel + 1) hash = some (some n) := by
  simp [walkFork, hhead, hnum]

theorem walkFork_succ_of_parent {fuel : Nat} {hash : H256} {header : IndexedBlockHeader}
    (hhead : self.storage.blockHeader (.hash hash) = some header)
    (hnum : self.storage.blockNumber header.raw.previousHeaderHash = none) :
    self.walkFork (fuel + 1) hash = self.walkFork fuel header.raw.previousHeaderHash := by
  rw [walkFork, hhead]
  simp only [hnum]

/-- A walk that returns a height has reached the main chain there. -/
theorem walkFork_some_some {fuel : Nat} {hash : H256} {n : BlockHeight}
    (h : self.walkFork fuel hash = some (some n)) (hnum : self.storage.blockNumber hash = none) :
    self.WalksTo hash n := by
  induction fuel generalizing hash with
  | zero => cases h
  | succ fuel ih =>
    simp only [walkFork] at h
    split at h
    · cases h
    · rename_i header hhead
      split at h
      · cases h
        exact .parent hnum hhead (.main ‹_›)
      · exact .parent hnum hhead (ih h ‹_›)

/-- A walk that breaks on a missing header started from an entry that does not resolve. -/
theorem walkFork_some_none {fuel : Nat} {hash : H256} (h : self.walkFork fuel hash = some none)
    (hnum : self.storage.blockNumber hash = none) : ¬ self.Resolves hash := by
  induction fuel generalizing hash with
  | zero => cases h
  | succ fuel ih =>
    rintro ⟨n, hn⟩
    cases hn with
    | main h' => simp_all
    | parent _ hhead hn =>
      cases hnum' : self.storage.blockNumber _ with
      | some m => rw [walkFork_succ_of_main hhead hnum'] at h; cases h
      | none => exact ih (walkFork_succ_of_parent hhead hnum' ▸ h) hnum' ⟨n, hn⟩

theorem locateIn_firstResolved {fuel : Nat} :
    ∀ {entries : List H256} {r : Option BlockHeight}, self.locateIn fuel entries = some r →
      self.FirstResolved entries r
  | [], r, h => by cases h; exact firstResolved_nil
  | e :: rest, r, h => by
    simp only [locateIn] at h
    split at h
    · cases h
      exact firstResolved_here rest (.main ‹_›)
    · rename_i hnum
      split at h
      · cases h
      · cases h
        exact firstResolved_here rest (walkFork_some_some ‹_› hnum)
      · exact (locateIn_firstResolved h).skip (walkFork_some_none ‹_› hnum)

/-! ## Walks over finitely many acyclic headers end -/

/-- `child`'s header is stored, and names `parent`. -/
def ParentOf (child parent : H256) : Prop :=
  ∃ header, self.storage.blockHeader (.hash child) = some header ∧
    header.raw.previousHeaderHash = parent

/-- A store whose one stored header is `a₀`, naming `b₀ ≠ a₀` as its parent, has no cycle. -/
theorem acyclic_of_single_header {a₀ b₀ : H256} (hne : a₀ ≠ b₀)
    (hhead : ∀ h, self.storage.blockHeader (.hash h) = if h = a₀ then some ⟨a₀, ⟨b₀⟩⟩ else none)
    (h : H256) : ¬ Relation.TransGen self.ParentOf h h := by
  have hstep {a b : H256} (hab : self.ParentOf a b) : a = a₀ ∧ b = b₀ := by
    obtain ⟨header, hh, rfl⟩ := hab
    rw [hhead] at hh
    split at hh
    · cases hh
      exact ⟨‹_›, rfl⟩
    · cases hh
  intro hcyc
  obtain ⟨b, hab, -⟩ := Relation.TransGen.head'_iff.mp hcyc
  obtain ⟨a, -, hah⟩ := Relation.TransGen.tail'_iff.mp hcyc
  exact hne ((hstep hab).1.symm.trans (hstep hah).2)

/-- **A walk over acyclic headers ends.** If every stored header on the walk from `hash` is in
`headers`, the walk ends within `headers.length + 1` iterations: each iteration but the last
follows a stored header, and none is followed twice. -/
theorem walkFork_isSome_of_cover (hacyc : ∀ h, ¬ Relation.TransGen self.ParentOf h h) (n : Nat) :
    ∀ (headers : List H256) (hash : H256), headers.length ≤ n →
      (∀ x, Relation.ReflTransGen self.ParentOf hash x →
        (self.storage.blockHeader (.hash x)).isSome → x ∈ headers) →
      (self.walkFork (n + 1) hash).isSome := by
  induction n with
  | zero =>
    intro headers hash hlen hcover
    have hnil : headers = [] := List.eq_nil_of_length_eq_zero (Nat.le_zero.mp hlen)
    cases hhead : self.storage.blockHeader (.hash hash) with
    | none => simp [walkFork_succ_of_none hhead]
    | some header => simpa [hnil, hhead] using hcover hash .refl
  | succ n ih =>
    intro headers hash hlen hcover
    cases hhead : self.storage.blockHeader (.hash hash) with
    | none => simp [walkFork_succ_of_none hhead]
    | some header =>
      have hpar : self.ParentOf hash header.raw.previousHeaderHash := ⟨header, hhead, rfl⟩
      have hmem : hash ∈ headers := hcover hash .refl (by simp [hhead])
      cases hnum : self.storage.blockNumber header.raw.previousHeaderHash with
      | some => simp [walkFork_succ_of_main hhead hnum]
      | none =>
        rw [walkFork_succ_of_parent hhead hnum]
        refine ih (headers.erase hash) _ ?_ fun x hx hs => ?_
        · rw [List.length_erase_of_mem hmem]
          omega
        · refine (List.mem_erase_of_ne fun hxe => ?_).mpr (hcover x (.head hpar hx) hs)
          exact hacyc hash (.head' hpar (hxe ▸ hx))

theorem locateIn_isSome {fuel : Nat} (hwalk : ∀ hash, (self.walkFork fuel hash).isSome) :
    ∀ entries : List H256, (self.locateIn fuel entries).isSome
  | [] => rfl
  | e :: rest => by
    simp only [locateIn]
    split
    · rfl
    · obtain ⟨r, hr⟩ := Option.isSome_iff_exists.mp (hwalk e)
      rw [hr]
      rcases r with _ | n
      · exact locateIn_isSome hwalk rest
      · rfl

/-- Every call of the executor returns when every fork walk ends within `fuel`. -/
theorem execute_isSome {fuel : Nat} (hwalk : ∀ hash, (self.walkFork fuel hash).isSome)
    (t : ServerTask) : (self.execute fuel t).isSome := by
  cases t with
  | getBlocks p m =>
    simpa [execute, serveGetBlocks, locateBestCommonBlock] using locateIn_isSome hwalk _
  | getHeaders p m requestId =>
    simpa [execute, serveGetHeaders, locateBestCommonBlock] using locateIn_isSome hwalk _
  | getData | reversedGetData | mempool => rfl

/-! ## What the function returns -/

/-- **What `locate_best_common_block` returns.** Over any store, locator and `hash_stop`: when the
function returns `r`, `r` is `Some` exactly when an entry of `locator ++ [hash_stop]` resolves,
and then it is the height the first resolving entry walks to, the nearest main-chain
ancestor-or-self of that entry. It does return when the stored headers are finitely many, all in
`headers`, and no header is its own ancestor. -/
theorem locate_firstResolved (hashStop : H256) (locator : List H256) :
    (∀ fuel r, self.locateBestCommonBlock fuel hashStop locator = some r →
      self.FirstResolved (locator ++ [hashStop]) r) ∧
    ∀ headers : List H256, (∀ h, (self.storage.blockHeader (.hash h)).isSome → h ∈ headers) →
      (∀ h, ¬ Relation.TransGen self.ParentOf h h) →
      ∃ r, self.locateBestCommonBlock (headers.length + 1) hashStop locator = some r ∧
        self.FirstResolved (locator ++ [hashStop]) r := by
  refine ⟨fun _ _ h => locateIn_firstResolved h, fun headers hcover hacyc => ?_⟩
  have hwalk hash := walkFork_isSome_of_cover hacyc headers.length headers hash le_rfl
    fun x _ hs => hcover x hs
  obtain ⟨r, hr⟩ := Option.isSome_iff_exists.mp (locateIn_isSome hwalk (locator ++ [hashStop]))
  exact ⟨r, hr, locateIn_firstResolved hr⟩

/-- A store with a side branch: the block of hash `7` is stored off the main chain, on the block
of hash `1`, at height `1`. -/
def forkStore : BlockProvider where
  blockHeaderBytes _ := none
  blockHeader r := if r = .hash 7 then some ⟨7, ⟨1⟩⟩ else none
  blockNumber h := if h = 0 then some 0 else if h = 1 then some 1 else none
  blockHash n := if n = 0 then some 0 else if n = 1 then some 1 else none
  block _ := none

theorem forkStore_headers (h : H256) :
    ((mk forkStore).storage.blockHeader (.hash h)).isSome → h ∈ [7] := by
  by_cases hh : h = 7 <;> simp [forkStore, hh]

theorem forkStore_acyclic (h : H256) : ¬ Relation.TransGen (mk forkStore).ParentOf h h :=
  acyclic_of_single_header (show (7 : H256) ≠ 1 by decide)
    (fun h => by by_cases hh : h = 7 <;> simp [forkStore, hh]) h

/-- A peer on the side branch asks from its tip: the walk finds the fork point at height `1`. The
store's one header, `7`, is not its own ancestor, so the function returns within the bound `2`,
with that answer. -/
theorem locate_firstResolved_fork :
    (mk forkStore).locateBestCommonBlock 1 9 [7] = some (some 1) ∧
      (mk forkStore).FirstResolved ([7] ++ [9]) (some 1) ∧
      (∀ h, ((mk forkStore).storage.blockHeader (.hash h)).isSome → h ∈ [7]) ∧
      (∀ h, ¬ Relation.TransGen (mk forkStore).ParentOf h h) ∧
      ∃ r, (mk forkStore).locateBestCommonBlock ([7].length + 1) 9 [7] = some r ∧
        (mk forkStore).FirstResolved ([7] ++ [9]) r :=
  ⟨rfl, (locate_firstResolved 9 [7]).1 1 _ rfl, forkStore_headers, forkStore_acyclic,
    (locate_firstResolved 9 [7]).2 [7] forkStore_headers forkStore_acyclic⟩

/-! ## A store whose headers loop -/

/-- A store whose one header, of hash `2`, is its own parent; hash `0` is the genesis block, at
height `0`. -/
def loopStore : BlockProvider where
  blockHeaderBytes _ := none
  blockHeader r := if r = .hash 2 then some ⟨2, ⟨2⟩⟩ else none
  blockNumber h := if h = 0 then some 0 else none
  blockHash n := if n = 0 then some 0 else none
  block _ := none

theorem walkFork_loopStore (fuel : Nat) : (mk loopStore).walkFork fuel 2 = none := by
  induction fuel with
  | zero => rfl
  | succ fuel ih => exact ih

/-- **The walk can loop.** On `loopStore`, with locator `[2]` and `hash_stop` the genesis hash,
an entry resolves, but the function never returns: the walk from `2` does not end, whatever
bound it is given. -/
theorem locate_loops_on_header_cycle :
    (∃ e ∈ [2] ++ [0], (mk loopStore).Resolves e) ∧
      ∀ fuel, (mk loopStore).locateBestCommonBlock fuel 0 [2] = none :=
  ⟨⟨0, by simp, 0, .main rfl⟩, fun fuel => by
    simp only [locateBestCommonBlock, locateIn, walkFork_loopStore]
    rfl⟩

/-! ## How many iterations a walk takes -/

/-- **`locate_best_common_block` terminates on finite acyclic stores.** If every stored header
is in `headers` and no header is its own ancestor, the walk from every hash ends within
`headers.length + 1` iterations, and so the function returns for every locator and
`hash_stop`. -/
theorem locate_terminates (headers : List H256)
    (hcover : ∀ h, (self.storage.blockHeader (.hash h)).isSome → h ∈ headers)
    (hacyc : ∀ h, ¬ Relation.TransGen self.ParentOf h h) (hashStop : H256) (locator : List H256) :
    (∀ hash, (self.walkFork (headers.length + 1) hash).isSome) ∧
      (self.locateBestCommonBlock (headers.length + 1) hashStop locator).isSome := by
  have hwalk hash := walkFork_isSome_of_cover hacyc headers.length headers hash le_rfl
    fun x _ hs => hcover x hs
  exact ⟨hwalk, locateIn_isSome hwalk _⟩

/-- A store with one header, of hash `1`, whose parent `0` is neither stored nor on the main
chain. -/
def oneHeaderStore : BlockProvider where
  blockHeaderBytes _ := none
  blockHeader r := if r = .hash 1 then some ⟨1, ⟨0⟩⟩ else none
  blockNumber _ := none
  blockHash _ := none
  block _ := none

theorem oneHeaderStore_headers (h : H256) :
    ((mk oneHeaderStore).storage.blockHeader (.hash h)).isSome ↔ h ∈ [1] := by
  by_cases hh : h = 1 <;> simp [oneHeaderStore, hh]

theorem oneHeaderStore_acyclic (h : H256) :
    ¬ Relation.TransGen (mk oneHeaderStore).ParentOf h h :=
  acyclic_of_single_header (show (1 : H256) ≠ 0 by decide)
    (fun h => by by_cases hh : h = 1 <;> simp [oneHeaderStore, hh]) h

/-- The store with one header meets the hypotheses, with `headers = [1]`. -/
theorem locate_terminates_one_header :
    (∀ h, ((mk oneHeaderStore).storage.blockHeader (.hash h)).isSome → h ∈ [1]) ∧
    (∀ h, ¬ Relation.TransGen (mk oneHeaderStore).ParentOf h h) ∧
    (∀ hash, ((mk oneHeaderStore).walkFork ([1].length + 1) hash).isSome) ∧
      ((mk oneHeaderStore).locateBestCommonBlock ([1].length + 1) 0 []).isSome :=
  have hcover h := (oneHeaderStore_headers h).mp
  ⟨hcover, oneHeaderStore_acyclic,
    locate_terminates [1] hcover oneHeaderStore_acyclic 0 []⟩

/-- **One iteration per stored header is not enough.** The store has one stored header, and no
cycle; the walk from it follows that header in its first iteration and breaks on the missing
parent in its second. -/
theorem walkFork_one_header_two_iterations :
    (∀ h, ((mk oneHeaderStore).storage.blockHeader (.hash h)).isSome ↔ h ∈ [1]) ∧
    (∀ h, ¬ Relation.TransGen (mk oneHeaderStore).ParentOf h h) ∧
    (mk oneHeaderStore).walkFork 1 1 = none ∧ (mk oneHeaderStore).walkFork 2 1 = some none :=
  ⟨oneHeaderStore_headers, oneHeaderStore_acyclic, rfl, rfl⟩

end ServerTaskExecutor

end RandchainSync
