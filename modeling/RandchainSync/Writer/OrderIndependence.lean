import RandchainSync.Writer.Invariant

/-!
# What a run of imports stores, and when the order matters

Take a set `S` of new blocks of distinct hashes that can be listed ancestors first on top of
the store, a verifier whose verdict is a fixed predicate `valid`, and a chain that commits every
block whose parent is stored. Whatever the order of the `append_block` calls, a block is stored
only if it and its ancestors in `S` are valid (`validClosure`). Appending in an ancestor-first
order stores exactly those blocks, and when every block is valid every order stores all of `S`.

Other orders can store fewer. A block that arrives after its pooled descendants drains them into
the verification queue; an invalid block there ends the loop, and the valid siblings queued
behind it are discarded with it (`append_order_changes_stored_blocks`).

## Main definitions

* `validClosure valid init blocks`: the blocks an in-order import stores
* `Rooted init blocks`: new blocks of distinct hashes, ancestors first on top of `init`

## Main results

* `validClosure_append_singleton`, `mem_validClosure_of_parent`: the closure, one block at a
  time, and closed under valid children
* `runAppends_stored_blocks`: the three facts above
* `append_order_changes_stored_blocks`: two orders of three blocks that store different sets
-/

namespace RandchainSync

/-! ## The valid closure -/

section Closure

variable (valid : IndexedBlock → Bool) (init : BlockProvider)

/-- **The blocks an in-order import stores**: the blocks of `blocks`, taken in order, that pass
`valid` and whose parent is stored in `init` or was taken before. -/
def validClosure (blocks : List IndexedBlock) : List IndexedBlock :=
  blocks.foldl (fun acc b =>
    if valid b && (init.containsBlock (.hash b.parent) ||
        decide (b.parent ∈ acc.map IndexedBlock.hash)) then acc ++ [b] else acc) []

@[simp] theorem validClosure_nil : validClosure valid init [] = [] := rfl

theorem validClosure_append_singleton (blocks : List IndexedBlock) (b : IndexedBlock) :
    validClosure valid init (blocks ++ [b]) =
      if valid b && (init.containsBlock (.hash b.parent) ||
          decide (b.parent ∈ (validClosure valid init blocks).map IndexedBlock.hash))
      then validClosure valid init blocks ++ [b] else validClosure valid init blocks := by
  simp only [validClosure, List.foldl_append, List.foldl_cons, List.foldl_nil]

theorem validClosure_sub {blocks : List IndexedBlock} {b x : IndexedBlock}
    (hx : x ∈ validClosure valid init blocks) : x ∈ validClosure valid init (blocks ++ [b]) := by
  rw [validClosure_append_singleton]
  split <;> simp [hx]

theorem mem_validClosure {blocks : List IndexedBlock} {x : IndexedBlock}
    (hx : x ∈ validClosure valid init blocks) :
    x ∈ blocks ∧ valid x ∧ (init.containsBlock (.hash x.parent) ∨
      x.parent ∈ (validClosure valid init blocks).map IndexedBlock.hash) := by
  induction blocks using List.reverseRecOn with
  | nil => simp at hx
  | append_singleton blocks b ih =>
    have hsub : ∀ h ∈ (validClosure valid init blocks).map IndexedBlock.hash,
        h ∈ (validClosure valid init (blocks ++ [b])).map IndexedBlock.hash := by
      simp only [List.mem_map]
      exact fun h ⟨y, hy, hyh⟩ => ⟨y, validClosure_sub valid init hy, hyh⟩
    rw [validClosure_append_singleton] at hx
    split at hx
    · rename_i hc
      rcases List.mem_append.mp hx with hx | hx
      · obtain ⟨h1, h2, h3⟩ := ih hx
        exact ⟨by simp [h1], h2, h3.imp_right (hsub _)⟩
      · obtain rfl := List.mem_singleton.mp hx
        simp only [Bool.and_eq_true, Bool.or_eq_true, decide_eq_true_eq] at hc
        exact ⟨by simp, hc.1, hc.2.imp_right (hsub _)⟩
    · obtain ⟨h1, h2, h3⟩ := ih hx
      exact ⟨by simp [h1], h2, h3.imp_right (hsub _)⟩

end Closure

/-! ## Ancestor-first lists, one block at a time -/

theorem ancestorFirst_append_singleton (root : H256 → Prop) (blocks : List IndexedBlock)
    (b : IndexedBlock) :
    AncestorFirst root (blocks ++ [b]) ↔
      AncestorFirst root blocks ∧ (root b.parent ∨ b.parent ∈ blocks.map IndexedBlock.hash) := by
  induction blocks generalizing root with
  | nil => simp
  | cons c blocks ih =>
    simp only [List.cons_append, ancestorFirst_cons, ih, List.map_cons, List.mem_cons, and_assoc,
      or_assoc, or_left_comm]

theorem AncestorFirst.parent_mem {root : H256 → Prop} :
    ∀ {blocks : List IndexedBlock}, AncestorFirst root blocks →
      ∀ x ∈ blocks, root x.parent ∨ x.parent ∈ blocks.map IndexedBlock.hash
  | [], _, x, hx => by simp at hx
  | b :: rest, ⟨hb, hrest⟩, x, hx => by
    rcases List.mem_cons.mp hx with rfl | hx
    · exact .inl hb
    · rcases hrest.parent_mem x hx with h | h
      · rcases h with h | h <;> simp [h]
      · simp [h]

/-- **Blocks that can be imported in order**: new to `init`, of distinct hashes, and listed so
that each block's parent is stored in `init` or listed before it. -/
structure Rooted (init : BlockProvider) (blocks : List IndexedBlock) : Prop where
  ancestorFirst : AncestorFirst (fun h => init.containsBlock (.hash h)) blocks
  nodup : (blocks.map IndexedBlock.hash).Nodup
  fresh : ∀ b ∈ blocks, init.containsBlock (.hash b.hash) = false

section Closure

variable {valid : IndexedBlock → Bool} {init : BlockProvider}

theorem Rooted.of_append_singleton {blocks : List IndexedBlock} {b : IndexedBlock}
    (h : Rooted init (blocks ++ [b])) : Rooted init blocks :=
  ⟨((ancestorFirst_append_singleton _ _ _).mp h.ancestorFirst).1,
    (List.nodup_append.mp (by simpa using h.nodup)).1, fun x hx => h.fresh x (by simp [hx])⟩

/-- The last block of a rooted list is neither stored nor listed before it. -/
theorem Rooted.last_new {blocks : List IndexedBlock} {b : IndexedBlock}
    (h : Rooted init (blocks ++ [b])) :
    init.containsBlock (.hash b.hash) = false ∧ b.hash ∉ blocks.map IndexedBlock.hash := by
  refine ⟨h.fresh b (by simp), fun hm => ?_⟩
  have := h.nodup
  simp only [List.map_append, List.map_singleton, List.nodup_append, List.nodup_cons,
    List.not_mem_nil, not_false_eq_true, List.nodup_nil, and_self, List.disjoint_singleton,
    true_and] at this
  exact this.2 hm

/-- No block of a rooted list is the parent of an earlier one. -/
theorem Rooted.parent_ne_last {blocks : List IndexedBlock} {b x : IndexedBlock}
    (h : Rooted init (blocks ++ [b])) (hx : x ∈ blocks) : x.parent ≠ b.hash := by
  intro he
  obtain ⟨hf, hn⟩ := h.last_new
  rcases (h.of_append_singleton).ancestorFirst.parent_mem x hx with hp | hp <;> rw [he] at hp
  · simp [hf] at hp
  · exact hn hp

/-- **The closure is closed**: a valid listed block whose parent is stored in `init` or is in the
closure is in the closure. -/
theorem mem_validClosure_of_parent {blocks : List IndexedBlock} (hS : Rooted init blocks)
    {x : IndexedBlock} (hx : x ∈ blocks) (hv : valid x)
    (hp : init.containsBlock (.hash x.parent) ∨
      x.parent ∈ (validClosure valid init blocks).map IndexedBlock.hash) :
    x ∈ validClosure valid init blocks := by
  induction blocks using List.reverseRecOn with
  | nil => simp at hx
  | append_singleton blocks b ih =>
    have hS' := hS.of_append_singleton
    have hpar : x.parent ≠ b.hash →
        (init.containsBlock (.hash x.parent) ∨
          x.parent ∈ (validClosure valid init blocks).map IndexedBlock.hash) := by
      intro hne
      refine hp.imp_right fun hm => ?_
      rw [validClosure_append_singleton] at hm
      split at hm
      · rw [List.map_append, List.mem_append, List.map_singleton, List.mem_singleton] at hm
        exact hm.resolve_right hne
      · exact hm
    rcases List.mem_append.mp hx with hx | hx
    · exact validClosure_sub valid init (ih hS' hx (hpar (hS.parent_ne_last hx)))
    · obtain rfl := List.mem_singleton.mp hx
      have hne : x.parent ≠ x.hash := by
        intro he
        obtain ⟨hf, hn⟩ := hS.last_new
        rcases ((ancestorFirst_append_singleton _ _ _).mp hS.ancestorFirst).2 with hp | hp <;>
          rw [he] at hp
        · simp [hf] at hp
        · exact hn hp
      rw [validClosure_append_singleton, if_pos]
      · simp
      · simp only [Bool.and_eq_true, Bool.or_eq_true, decide_eq_true_eq]
        exact ⟨hv, hpar hne⟩

theorem Rooted.eq_of_hash_eq {blocks : List IndexedBlock} (hS : Rooted init blocks)
    {b₁ b₂ : IndexedBlock} (h₁ : b₁ ∈ blocks) (h₂ : b₂ ∈ blocks) (h : b₁.hash = b₂.hash) :
    b₁ = b₂ :=
  List.inj_on_of_nodup_map hS.nodup h₁ h₂ h

end Closure

/-! ## Imports of blocks of `S`

Three run invariants, each from one lemma about the verification loop: nothing outside the
valid closure is stored (`ImportWithin`), every appended block is stored or pooled when every
block is valid (`AllPresent`), and an in-order import stores exactly the closure of what it has
appended. -/

namespace BlocksWriter

variable {valid : IndexedBlock → Bool} {init : BlockProvider} {S : List IndexedBlock}
  {verifier : Verifier} {chain : Chain} {drain : Drain} {w : BlocksWriter} {block : IndexedBlock}

theorem contains_appendBlock_mono {h : H256} (hh : w.storage.containsBlock (.hash h)) :
    (w.appendBlock verifier chain drain block).1.storage.containsBlock (.hash h) := by
  cases h1 : w.storage.containsBlock (.hash block.hash)
  · cases h2 : w.storage.containsBlock (.hash block.parent)
    · rw [appendBlock_of_orphan h1 h2]
      exact hh
    · rw [appendBlock_of_parent h1 h2]
      exact storage_verifyQueue_mono _ _ hh
  · rw [appendBlock_of_contains h1]
    exact hh

theorem contains_runAppends_mono :
    ∀ (calls : List (Verifier × IndexedBlock)) (w : BlocksWriter) {h : H256},
      w.storage.containsBlock (.hash h) →
        (runAppends chain drain w calls).storage.containsBlock (.hash h)
  | [], _, _, hh => hh
  | (_, _) :: calls, _, _, hh => contains_runAppends_mono calls _ (contains_appendBlock_mono hh)

/-- The queue of the verification branch finds each block's parent stored or earlier in it. -/
theorem ancestorFirst_queue (hp : w.storage.containsBlock (.hash block.parent)) :
    AncestorFirst (fun h => w.storage.containsBlock (.hash h))
      (block :: (drain.run block.hash w.orphanedBlocksPool.blocks).1) :=
  ⟨hp, (drain.ancestorFirst _ _).mono fun _ h => .inl h⟩

/-- Nothing outside `init` and the valid closure of `S` is stored. -/
def StoredWithin (valid : IndexedBlock → Bool) (init : BlockProvider) (S : List IndexedBlock)
    (w : BlocksWriter) : Prop :=
  ∀ h, w.storage.containsBlock (.hash h) →
    init.containsBlock (.hash h) ∨ h ∈ (validClosure valid init S).map IndexedBlock.hash

/-- **The loop stores only closure blocks**: a block the verifier accepts has its parent stored,
so it is valid on top of a stored parent, and in the closure. -/
theorem verifyQueue_storedWithin (hverdict : ∀ s b, verifier s b = .ok () ↔ valid b)
    (hS : Rooted init S) :
    ∀ (queue : List IndexedBlock) (w : BlocksWriter), w.err = none → (∀ x ∈ queue, x ∈ S) →
      AncestorFirst (fun h => w.storage.containsBlock (.hash h)) queue →
      StoredWithin valid init S w → StoredWithin valid init S (verifyQueue verifier chain w queue).1
  | [], _, _, _, _, hw => hw
  | x :: rest, w, herr, hsub, ⟨hp, hrest⟩, hw => by
    have h1 : StoredWithin valid init S (w.verifyBlock verifier chain x) := by
      intro h hh
      rcases verifyBlock_cases w x with ⟨_, -, he⟩ | ⟨hv, he⟩ <;> rw [he] at hh
      · exact hw h hh
      · rcases chain.contains_new _ _ _ hh with hh | rfl
        · exact hw h hh
        · exact .inr (List.mem_map_of_mem _ (mem_validClosure_of_parent hS (hsub x (by simp))
            ((hverdict _ _).mp hv) (hw _ hp)))
    rw [verifyQueue_cons]
    split
    · exact h1
    · rename_i herr'
      refine verifyQueue_storedWithin hverdict hS rest _ herr' (fun y hy => hsub y (by simp [hy]))
        (hrest.mono fun h hh => ?_) h1
      rcases hh with rfl | hh
      · exact (verifyBlock_ok w x herr herr').2
      · exact storage_verifyBlock_mono w x hh

/-- The invariant of an import of blocks of `S`. -/
structure ImportWithin (valid : IndexedBlock → Bool) (init : BlockProvider)
    (S : List IndexedBlock) (w : BlocksWriter) : Prop where
  stored : StoredWithin valid init S w
  pool : ∀ x ∈ w.orphanedBlocksPool.blocks, x ∈ S
  err_none : w.err = none

theorem importWithin_new (valid : IndexedBlock → Bool) (init : BlockProvider)
    (S : List IndexedBlock) : ImportWithin valid init S (new init) :=
  ⟨fun _ h => .inl h, by simp, rfl⟩

theorem importWithin_appendBlock (hverdict : ∀ s b, verifier s b = .ok () ↔ valid b)
    (hS : Rooted init S) (hw : ImportWithin valid init S w) (hb : block ∈ S) :
    ImportWithin valid init S (w.appendBlock verifier chain drain block).1 := by
  cases h1 : w.storage.containsBlock (.hash block.hash)
  · cases h2 : w.storage.containsBlock (.hash block.parent)
    · rw [appendBlock_of_orphan h1 h2]
      refine ⟨hw.stored, fun x hx => ?_, hw.err_none⟩
      rcases OrphanBlocksPool.mem_insertOrphanedBlock hx with hx | rfl
      · exact hw.pool x hx
      · exact hb
    · rw [appendBlock_of_parent h1 h2]
      have hsub : ∀ x ∈ block :: (drain.run block.hash w.orphanedBlocksPool.blocks).1, x ∈ S :=
        fun x hx => (List.mem_cons.mp hx).elim (· ▸ hb)
          fun hx => hw.pool x (drain.mem_of_mem_removed hx)
      refine ⟨verifyQueue_storedWithin hverdict hS _ _ hw.err_none hsub (ancestorFirst_queue h2)
          hw.stored, fun x hx => ?_, err_verifyQueue _ _ hw.err_none⟩
      rw [orphanedBlocksPool_verifyQueue] at hx
      exact hw.pool x (drain.mem_of_mem_kept hx)
  · rw [appendBlock_of_contains h1]
    exact hw

theorem importWithin_runAppends (hverdict : ∀ s b, verifier s b = .ok () ↔ valid b)
    (hS : Rooted init S) :
    ∀ (order : List IndexedBlock) (w : BlocksWriter), ImportWithin valid init S w →
      (∀ b ∈ order, b ∈ S) →
      ImportWithin valid init S (runAppends chain drain w (order.map fun b => (verifier, b)))
  | [], _, hw, _ => hw
  | b :: order, _, hw, hsub => importWithin_runAppends hverdict hS order _
      (importWithin_appendBlock hverdict hS hw (hsub b (by simp))) fun x hx => hsub x (by simp [hx])

/-- **The loop succeeds on valid blocks**: when the verifier accepts every queued block and the
chain commits every block whose parent is stored, the ancestor-first queue is stored whole. -/
theorem verifyQueue_ok_of_valid (hverdict : ∀ s b, verifier s b = .ok () ↔ valid b)
    (hcommit : ∀ s b, s.containsBlock (.hash b.parent) → (chain.insertBestBlock s b).2 = none) :
    ∀ (queue : List IndexedBlock) (w : BlocksWriter), w.err = none → (∀ x ∈ queue, valid x) →
      AncestorFirst (fun h => w.storage.containsBlock (.hash h)) queue →
      (verifyQueue verifier chain w queue).2 = .ok ()
  | [], _, _, _, _ => rfl
  | x :: rest, w, herr, hv, ⟨hp, hrest⟩ => by
    have hok := hcommit w.storage x hp
    have he : w.verifyBlock verifier chain x = w.onBlockVerificationSuccess chain x := by
      simp [verifyBlock, (hverdict _ _).mpr (hv x (by simp))]
    have herr' : (w.verifyBlock verifier chain x).err = none := by
      simp [he, onBlockVerificationSuccess, hok, herr]
    rw [verifyQueue_cons, herr']
    refine verifyQueue_ok_of_valid hverdict hcommit rest _ herr' (fun y hy => hv y (by simp [hy]))
      (hrest.mono fun h hh => ?_)
    rcases hh with rfl | hh
    · exact (verifyBlock_ok w x herr herr').2
    · exact storage_verifyBlock_mono w x hh

/-- Every block of `blocks` is stored or pooled. -/
def AllPresent (blocks : List IndexedBlock) (w : BlocksWriter) : Prop :=
  ∀ b ∈ blocks, w.storage.containsBlock (.hash b.hash) ∨ b.hash ∈ w.orphanedBlocksPool.hashes

theorem OrphanBlocksPool.hashes_sub_insert {pool : OrphanBlocksPool} {h : H256}
    (hh : h ∈ pool.hashes) : h ∈ (pool.insertOrphanedBlock block).hashes := by
  unfold OrphanBlocksPool.insertOrphanedBlock
  split
  · exact hh
  · simp_all [OrphanBlocksPool.hashes]

/-- **With every block valid, no appended block is lost**: it is stored, or pooled until its
missing ancestor arrives. -/
theorem allPresent_appendBlock (hverdict : ∀ s b, verifier s b = .ok () ↔ valid b)
    (hcommit : ∀ s b, s.containsBlock (.hash b.parent) → (chain.insertBestBlock s b).2 = none)
    (hvalid : ∀ b ∈ S, valid b) {A : List IndexedBlock} (hw : ImportWithin valid init S w)
    (hA : AllPresent A w) (hb : block ∈ S) :
    AllPresent (A ++ [block]) (w.appendBlock verifier chain drain block).1 := by
  cases h1 : w.storage.containsBlock (.hash block.hash)
  · cases h2 : w.storage.containsBlock (.hash block.parent)
    · rw [appendBlock_of_orphan h1 h2]
      intro b hbA
      rcases List.mem_append.mp hbA with hbA | hbA
      · exact (hA b hbA).imp_right OrphanBlocksPool.hashes_sub_insert
      · obtain rfl := List.mem_singleton.mp hbA
        exact .inr (OrphanBlocksPool.hash_mem_insertOrphanedBlock _ _)
    · rw [appendBlock_of_parent h1 h2]
      set r := drain.run block.hash w.orphanedBlocksPool.blocks
      have hok := verifyQueue_ok_of_valid hverdict hcommit (block :: r.1)
        { w with orphanedBlocksPool := ⟨r.2⟩ } hw.err_none
        (fun x hx => hvalid x ((List.mem_cons.mp hx).elim (· ▸ hb)
          fun hx => hw.pool x (drain.mem_of_mem_removed hx))) (ancestorFirst_queue h2)
      have hq := verifyQueue_ok_contains _ _ (by exact hw.err_none) hok
      intro b hbA
      rcases List.mem_append.mp hbA with hbA | hbA
      · rcases hA b hbA with hs | hp
        · exact .inl (storage_verifyQueue_mono _ _ hs)
        · obtain ⟨y, hy, hyh⟩ := List.mem_map.mp hp
          rw [← hyh]
          rcases drain.mem_removed_or_kept hy with hy | hy
          · exact .inl (hq y (List.mem_cons_of_mem _ hy))
          · exact .inr (by rw [orphanedBlocksPool_verifyQueue]; exact List.mem_map_of_mem _ hy)
      · obtain rfl := List.mem_singleton.mp hbA
        exact .inl (hq _ (List.mem_cons_self _ _))
  · rw [appendBlock_of_contains h1]
    intro b hbA
    rcases List.mem_append.mp hbA with hbA | hbA
    · exact hA b hbA
    · obtain rfl := List.mem_singleton.mp hbA
      exact .inl h1

theorem allPresent_runAppends (hverdict : ∀ s b, verifier s b = .ok () ↔ valid b)
    (hcommit : ∀ s b, s.containsBlock (.hash b.parent) → (chain.insertBestBlock s b).2 = none)
    (hvalid : ∀ b ∈ S, valid b) (hS : Rooted init S) :
    ∀ (order A : List IndexedBlock) (w : BlocksWriter), ImportWithin valid init S w →
      OrphansDetached w → AllPresent A w → (∀ b ∈ order, b ∈ S) →
      let w' := runAppends chain drain w (order.map fun b => (verifier, b))
      OrphansDetached w' ∧ AllPresent (A ++ order) w'
  | [], A, _, _, hd, hA, _ => by simpa using ⟨hd, hA⟩
  | b :: order, A, w, hw, hd, hA, hsub => by
    have hb : b ∈ S := hsub b (by simp)
    have := allPresent_runAppends hverdict hcommit hvalid hS order (A ++ [b])
      (w.appendBlock verifier chain drain b).1 (importWithin_appendBlock hverdict hS hw hb)
      (orphansDetached_appendBlock hd fun x hx _ => by rw [hS.eq_of_hash_eq (hw.pool x hx) hb ‹_›])
      (allPresent_appendBlock hverdict hcommit hvalid hw hA hb) (fun x hx => hsub x (by simp [hx]))
    simpa using this

/-- Along an ancestor-first list whose roots are stored, a block whose stored parent forces it
to be stored is stored. -/
theorem all_contained {root : H256 → Prop}
    (hroot : ∀ h, root h → w.storage.containsBlock (.hash h)) :
    ∀ {blocks : List IndexedBlock}, AncestorFirst root blocks →
      (∀ b ∈ blocks, w.storage.containsBlock (.hash b.parent) →
        w.storage.containsBlock (.hash b.hash)) →
      ∀ b ∈ blocks, w.storage.containsBlock (.hash b.hash)
  | [], _, _, b, hb => by simp at hb
  | c :: rest, ⟨hc, hrest⟩, hclose, b, hb => by
    have hcs := hclose c (by simp) (hroot _ hc)
    rcases List.mem_cons.mp hb with rfl | hb
    · exact hcs
    · exact all_contained (fun h hh => hh.elim (· ▸ hcs) (hroot h)) hrest
        (fun x hx => hclose x (by simp [hx])) b hb

/-- A rejected block ends the loop with the store as it was. -/
theorem storage_verifyQueue_of_rejected {err : String}
    (hrej : verifier w.storage block = .error err)
    (rest : List IndexedBlock) :
    (verifyQueue verifier chain w (block :: rest)).1.storage = w.storage := by
  have he : w.verifyBlock verifier chain block = { w with err := some (.verification err) } := by
    simp [verifyBlock, hrej, onBlockVerificationError]
  rw [verifyQueue_cons, he]

/-- A loop over one block whose parent is stored adds that block when it is valid, and nothing
otherwise. -/
theorem contains_verifyQueue_singleton (hverdict : ∀ s b, verifier s b = .ok () ↔ valid b)
    (hcommit : ∀ s b, s.containsBlock (.hash b.parent) → (chain.insertBestBlock s b).2 = none)
    (hw : w.err = none) (hp : w.storage.containsBlock (.hash block.parent)) (h : H256) :
    (verifyQueue verifier chain w [block]).1.storage.containsBlock (.hash h) ↔
      w.storage.containsBlock (.hash h) ∨ (valid block ∧ h = block.hash) := by
  cases hv : valid block
  · obtain ⟨err, hrej⟩ : ∃ err, verifier w.storage block = .error err := by
      cases hvb : verifier w.storage block with
      | error err => exact ⟨err, rfl⟩
      | ok u => exact absurd ((hverdict _ _).mp hvb) (by simp [hv])
    simp [storage_verifyQueue_of_rejected hrej]
  · have hok := verifyQueue_ok_of_valid hverdict hcommit [block] w hw (by simpa using hv)
      ⟨hp, trivial⟩
    refine ⟨fun hh => by simpa using storage_verifyQueue_sub _ _ hh, ?_⟩
    rintro (hh | ⟨-, rfl⟩)
    · exact storage_verifyQueue_mono _ _ hh
    · exact verifyQueue_ok_contains _ _ hw hok _ (List.mem_singleton_self _)

/-- **An in-order import** of `blocks` stores exactly `init` and the valid closure of `blocks`,
and pools only blocks of `blocks`. -/
structure InOrder (valid : IndexedBlock → Bool) (init : BlockProvider) (blocks : List IndexedBlock)
    (w : BlocksWriter) : Prop where
  stored : ∀ h, w.storage.containsBlock (.hash h) ↔
    init.containsBlock (.hash h) ∨ h ∈ (validClosure valid init blocks).map IndexedBlock.hash
  pool : ∀ x ∈ w.orphanedBlocksPool.blocks, x ∈ blocks
  err_none : w.err = none

/-- The next block of an in-order import is not stored yet. -/
theorem InOrder.not_stored_last {blocks : List IndexedBlock} (hS : Rooted init (blocks ++ [block]))
    (hw : InOrder valid init blocks w) : w.storage.containsBlock (.hash block.hash) = false := by
  obtain ⟨hf, hn⟩ := hS.last_new
  rw [Bool.eq_false_iff]
  intro hs
  rcases (hw.stored _).mp hs with hs | hs
  · simp [hf] at hs
  · obtain ⟨y, hy, hyh⟩ := List.mem_map.mp hs
    exact hn (hyh ▸ List.mem_map_of_mem _ (mem_validClosure valid init hy).1)

/-- No pooled block waits for the next block of an in-order import: pooled blocks come before
it. -/
theorem InOrder.drain_last {blocks : List IndexedBlock} (hS : Rooted init (blocks ++ [block]))
    (hw : InOrder valid init blocks w) :
    (drain.run block.hash w.orphanedBlocksPool.blocks).1 = [] := by
  cases hq : (drain.run block.hash w.orphanedBlocksPool.blocks).1 with
  | nil => rfl
  | cons d ds =>
    have := drain.ancestorFirst block.hash w.orphanedBlocksPool.blocks
    rw [hq] at this
    exact absurd this.1 (hS.parent_ne_last
      (hw.pool d (drain.mem_of_mem_removed (hq ▸ List.mem_cons_self d ds))))

/-- One more block in order: it finds its parent stored exactly when the parent is in `init` or
the closure, and no pooled block waits for it, since pooled blocks come before it. -/
theorem inOrder_appendBlock (hverdict : ∀ s b, verifier s b = .ok () ↔ valid b)
    (hcommit : ∀ s b, s.containsBlock (.hash b.parent) → (chain.insertBestBlock s b).2 = none)
    {blocks : List IndexedBlock} (hS : Rooted init (blocks ++ [block]))
    (hw : InOrder valid init blocks w) :
    InOrder valid init (blocks ++ [block]) (w.appendBlock verifier chain drain block).1 := by
  have h1 := hw.not_stored_last hS
  -- the closure's test on the parent is the store's
  have hparent : (init.containsBlock (.hash block.parent) ||
      decide (block.parent ∈ (validClosure valid init blocks).map IndexedBlock.hash)) =
      w.storage.containsBlock (.hash block.parent) := by
    rw [Bool.eq_iff_iff, Bool.or_eq_true, decide_eq_true_eq, hw.stored]
  have hpool : ∀ x ∈ w.orphanedBlocksPool.blocks, x ∈ blocks ++ [block] :=
    fun x hx => by simp [hw.pool x hx]
  cases h2 : w.storage.containsBlock (.hash block.parent)
  · rw [appendBlock_of_orphan h1 h2]
    have hvc : validClosure valid init (blocks ++ [block]) = validClosure valid init blocks := by
      rw [validClosure_append_singleton, if_neg (by rw [hparent, h2]; simp)]
    refine ⟨fun h => by rw [hvc]; exact hw.stored h, fun x hx => ?_, hw.err_none⟩
    rcases OrphanBlocksPool.mem_insertOrphanedBlock hx with hx | rfl
    · exact hpool x hx
    · simp
  · rw [appendBlock_of_parent h1 h2, hw.drain_last hS]
    set w₁ : BlocksWriter :=
      { w with orphanedBlocksPool := ⟨(drain.run block.hash w.orphanedBlocksPool.blocks).2⟩ }
    have hw₁ : w₁.storage = w.storage := rfl
    refine ⟨fun h => ?_, fun x hx => ?_, err_verifyQueue _ _ hw.err_none⟩
    · rw [validClosure_append_singleton, hparent, h2, Bool.and_true,
        contains_verifyQueue_singleton hverdict hcommit (show w₁.err = none from hw.err_none) h2,
        hw₁, hw.stored]
      cases valid block <;> simp [or_assoc]
    · rw [orphanedBlocksPool_verifyQueue] at hx
      exact hpool x (drain.mem_of_mem_kept hx)

theorem inOrder_runAppends (hverdict : ∀ s b, verifier s b = .ok () ↔ valid b)
    (hcommit : ∀ s b, s.containsBlock (.hash b.parent) → (chain.insertBestBlock s b).2 = none) :
    ∀ (blocks : List IndexedBlock), Rooted init blocks →
      InOrder valid init blocks
        (runAppends chain drain (new init) (blocks.map fun b => (verifier, b))) := by
  intro blocks
  induction blocks using List.reverseRecOn with
  | nil => exact fun _ => ⟨fun h => by simp, by simp, rfl⟩
  | append_singleton blocks b ih =>
    intro hS
    rw [List.map_append, runAppends_append, List.map_singleton, runAppends_cons, runAppends_nil]
    exact inOrder_appendBlock hverdict hcommit hS (ih hS.of_append_singleton)

end BlocksWriter

open BlocksWriter in
/-- **What a run of imports stores.** Let `S` be new blocks of distinct hashes that can be listed
ancestors first on top of `init`, let the verdict be the fixed predicate `valid`, and let the
chain commit every block whose parent is stored. Then any sequence of `append_block` calls on
blocks of `S`, results ignored, stores nothing beyond `init` and the valid closure of `S`; the
ancestor-first order stores exactly that; and when every block is valid, any order that appends
every block stores exactly `init` and `S`. -/
theorem runAppends_stored_blocks (chain : Chain) (drain : Drain) (verifier : Verifier)
    (valid : IndexedBlock → Bool) (init : BlockProvider) (S : List IndexedBlock)
    (hverdict : ∀ s b, verifier s b = .ok () ↔ valid b)
    (hcommit : ∀ s b, s.containsBlock (.hash b.parent) → (chain.insertBestBlock s b).2 = none)
    (hS : Rooted init S) :
    (∀ order : List IndexedBlock, (∀ b ∈ order, b ∈ S) → ∀ h,
      (runAppends chain drain (.new init) (order.map fun b => (verifier, b))).storage.containsBlock
          (.hash h) →
        init.containsBlock (.hash h) ∨ h ∈ (validClosure valid init S).map IndexedBlock.hash) ∧
    (∀ h,
      (runAppends chain drain (.new init) (S.map fun b => (verifier, b))).storage.containsBlock
          (.hash h) ↔
        init.containsBlock (.hash h) ∨ h ∈ (validClosure valid init S).map IndexedBlock.hash) ∧
    ((∀ b ∈ S, valid b) → ∀ order : List IndexedBlock, (∀ b ∈ order, b ∈ S) →
      (∀ b ∈ S, b ∈ order) → ∀ h,
      (runAppends chain drain (.new init) (order.map fun b => (verifier, b))).storage.containsBlock
          (.hash h) ↔
        init.containsBlock (.hash h) ∨ h ∈ S.map IndexedBlock.hash) := by
  have hwithin : ∀ order : List IndexedBlock, (∀ b ∈ order, b ∈ S) →
      ImportWithin valid init S
        (runAppends chain drain (.new init) (order.map fun b => (verifier, b))) :=
    fun order hsub => importWithin_runAppends hverdict hS order _ (importWithin_new _ _ _) hsub
  refine ⟨fun order hsub h => (hwithin order hsub).stored h,
    (inOrder_runAppends hverdict hcommit S hS).stored, fun hvalid order hsub hall h => ?_⟩
  set w := runAppends chain drain (.new init) (order.map fun b => (verifier, b))
  obtain ⟨hd, hA⟩ := allPresent_runAppends hverdict hcommit hvalid hS order [] (.new init)
    (importWithin_new _ _ _) (orphansDetached_new init) (by simp [AllPresent]) hsub
  have hinit : ∀ h, init.containsBlock (.hash h) → w.storage.containsBlock (.hash h) :=
    fun h hh => contains_runAppends_mono _ _ hh
  have hclose : ∀ b ∈ S, w.storage.containsBlock (.hash b.parent) →
      w.storage.containsBlock (.hash b.hash) := by
    intro b hb hp
    rcases hA b (by simpa using hall b hb) with hs | hs
    · exact hs
    · obtain ⟨y, hy, hyh⟩ := List.mem_map.mp hs
      obtain rfl := hS.eq_of_hash_eq ((hwithin order hsub).pool y hy) hb hyh
      exact absurd hp (Bool.eq_false_iff.mp (hd.parent_not_stored y hy))
  constructor
  · intro hh
    refine ((hwithin order hsub).stored h hh).imp_right fun hm => ?_
    obtain ⟨y, hy, rfl⟩ := List.mem_map.mp hm
    exact List.mem_map_of_mem _ (mem_validClosure valid init hy).1
  · rintro (hh | hh)
    · exact hinit h hh
    · obtain ⟨b, hb, rfl⟩ := List.mem_map.mp hh
      exact all_contained hinit hS.ancestorFirst hclose b hb

/-- The verifier whose verdict is the predicate `valid`. -/
def verdictOf (valid : IndexedBlock → Bool) : Verifier :=
  fun _ b => if valid b then .ok () else .error "invalid"

theorem verdictOf_ok (valid : IndexedBlock → Bool) (s : BlockProvider) (b : IndexedBlock) :
    verdictOf valid s b = .ok () ↔ valid b := by
  unfold verdictOf
  split <;> simp_all

theorem storingChain_commits (s : BlockProvider) (b : IndexedBlock) :
    (storingChain.insertBestBlock s b).2 = none := rfl

/-- Block `1` on genesis, and its two children `2` and `3`. -/
def forkA : IndexedBlock := ⟨⟨1, ⟨0⟩⟩⟩

/-- The first child of `forkA`. -/
def forkB : IndexedBlock := ⟨⟨2, ⟨1⟩⟩⟩

/-- The second child of `forkA`. -/
def forkC : IndexedBlock := ⟨⟨3, ⟨1⟩⟩⟩

theorem rooted_fork : Rooted genesisStore [forkA, forkB, forkC] := by
  refine ⟨?_, by decide, ?_⟩
  · simp only [ancestorFirst_cons, ancestorFirst_nil, and_true, genesisStore_contains]
    decide
  · simp only [List.mem_cons, List.mem_singleton, List.not_mem_nil, or_false,
      genesisStore_contains, forall_eq_or_imp, forall_eq]
    decide

/-- The fork on genesis twice. With `forkB` invalid, every run stores within `forkA` and
`forkC`, and the ancestor-first order stores both. With every block valid, every order that
appends the three, here children first, stores all three. -/
theorem runAppends_stored_blocks_on_fork :
    (∀ s b, verdictOf (· != forkB) s b = .ok () ↔ (b != forkB) = true) ∧
    (∀ s b, s.containsBlock (.hash b.parent) → (storingChain.insertBestBlock s b).2 = none) ∧
    Rooted genesisStore [forkA, forkB, forkC] ∧
    (∀ order : List IndexedBlock, (∀ b ∈ order, b ∈ [forkA, forkB, forkC]) → ∀ h,
      (runAppends storingChain insertionOrderDrain (.new genesisStore)
          (order.map fun b => (verdictOf (· != forkB), b))).storage.containsBlock (.hash h) →
        genesisStore.containsBlock (.hash h) ∨
          h ∈ (validClosure (· != forkB) genesisStore [forkA, forkB, forkC]).map
            IndexedBlock.hash) ∧
    (∀ h,
      (runAppends storingChain insertionOrderDrain (.new genesisStore)
          ([forkA, forkB, forkC].map fun b => (verdictOf (· != forkB), b))).storage.containsBlock
          (.hash h) ↔
        genesisStore.containsBlock (.hash h) ∨
          h ∈ (validClosure (· != forkB) genesisStore [forkA, forkB, forkC]).map
            IndexedBlock.hash) ∧
    ((∀ b ∈ [forkA, forkB, forkC], (b != forkB) = true) →
      ∀ order : List IndexedBlock, (∀ b ∈ order, b ∈ [forkA, forkB, forkC]) →
      (∀ b ∈ [forkA, forkB, forkC], b ∈ order) → ∀ h,
      (runAppends storingChain insertionOrderDrain (.new genesisStore)
          (order.map fun b => (verdictOf (· != forkB), b))).storage.containsBlock (.hash h) ↔
        genesisStore.containsBlock (.hash h) ∨ h ∈ [forkA, forkB, forkC].map IndexedBlock.hash) ∧
    (∀ b ∈ [forkA, forkB, forkC], (fun _ => true : IndexedBlock → Bool) b = true) ∧
    ∀ h,
      (runAppends storingChain insertionOrderDrain (.new genesisStore)
          ([forkC, forkB, forkA].map fun b => (verdictOf fun _ => true, b))).storage.containsBlock
          (.hash h) ↔
        genesisStore.containsBlock (.hash h) ∨ h ∈ [forkA, forkB, forkC].map IndexedBlock.hash :=
  have hcommit : ∀ s b, s.containsBlock (.hash b.parent) →
      (storingChain.insertBestBlock s b).2 = none := fun s b _ => storingChain_commits s b
  have hall : ∀ b ∈ [forkA, forkB, forkC], (fun _ => true : IndexedBlock → Bool) b = true :=
    fun _ _ => rfl
  have hinvalid := runAppends_stored_blocks storingChain insertionOrderDrain
    (verdictOf (· != forkB)) (· != forkB) genesisStore [forkA, forkB, forkC] (verdictOf_ok _)
    hcommit rooted_fork
  ⟨verdictOf_ok _, hcommit, rooted_fork, hinvalid.1, hinvalid.2.1, hinvalid.2.2, hall,
    (runAppends_stored_blocks storingChain insertionOrderDrain (verdictOf fun _ => true)
      (fun _ => true) genesisStore [forkA, forkB, forkC] (verdictOf_ok _) hcommit
      rooted_fork).2.2 hall [forkC, forkB, forkA] (by decide) (by decide)⟩

/-- **The order of the calls changes what is stored.** On genesis, with `forkB` invalid, the
order `forkA, forkB, forkC` stores `forkC`; the order `forkB, forkC, forkA` drains `forkB` and
`forkC` behind `forkA`, stops at `forkB`, and discards `forkC`. Both runs meet every assumption:
the blocks are rooted, the verdict is fixed and the chain commits every block on a stored
parent. -/
theorem append_order_changes_stored_blocks :
    Rooted genesisStore [forkA, forkB, forkC] ∧
      (∀ s b, verdictOf (· != forkB) s b = .ok () ↔ (b != forkB) = true) ∧
      (∀ s b, (storingChain.insertBestBlock s b).2 = none) ∧
      (runAppends storingChain insertionOrderDrain (.new genesisStore)
          ([forkA, forkB, forkC].map fun b => (verdictOf (· != forkB), b))).storage.containsBlock
          (.hash forkC.hash) = true ∧
      (runAppends storingChain insertionOrderDrain (.new genesisStore)
          ([forkB, forkC, forkA].map fun b => (verdictOf (· != forkB), b))).storage.containsBlock
          (.hash forkC.hash) = false :=
  ⟨rooted_fork, verdictOf_ok _, storingChain_commits, by decide, by decide⟩

end RandchainSync
