import UltraSql.Lock.Holders

/-!
# Locks exclude each other while pruning stays alone

`prune_entry_if_empty` checks and removes an entry in one section of the map, so no grant enters
the entry in between. But a thread in `acquire` or `try_acquire` that has cloned the entry out of
the map and has not locked it yet goes on to push its grant into an entry that the map no longer
has. The next request for the tag makes a new entry and sees no conflict there, and a release finds
the new entry, not the grant.

**Theorem (`locks_exclusive`).** In every run in which an entry is removed from the map only while
no `acquire` or `try_acquire` holds a clone of it that it has not locked yet, in every state
reached: two transactions hold no conflicting modes on one tag, and for every transaction the
grants in memory are exactly those it holds, in the entries that the map has.

The invariant is that an entry with a grant or a waiter is in the map (`LockTable.Wf`), that the
grants of a transaction in the map are those it holds (`TxnInv.books`), and that a clone not locked
yet is the entry in the map (`PcInv`).
-/

namespace UltraSql.Locks

open List Function

variable {sh : Sharding}

/-! ## The condition -/

/-- The entry that the next section of the thread removes from the map. -/
def removes (s : Shared) (l : Local sh) (a : Act) : Option ℕ :=
  match a, l with
  | .step _ _, .txn t =>
    match t.pc with
    | .sweepPrune _ tag _ =>
      (s.mgr.table.map.lookup tag).filter fun addr => (s.mgr.table.entries addr).isEmpty
    | _ => none
  | _, _ => none

variable {l : Local sh}

theorem isEmpty_of_removes {s : Shared} {a : Act} {addr : ℕ} (h : removes s l a = some addr) :
    (s.mgr.table.entries addr).isEmpty = true := by
  unfold removes at h
  split at h
  · split at h
    · exact (Option.filter_eq_some_iff.1 h).2
    · cases h
  · cases h

/-- The entry that the thread has cloned out of the map for a grant and has not locked yet. -/
def Local.clone : Local sh → Option ℕ
  | .txn t =>
    match t.pc with
    | .acquireLock _ _ _ addr | .tryLock _ _ _ addr => some addr
    | _ => none
  | .out => none

/-- The next section of `l` does not remove the entry that `k` has cloned. -/
def PruneApart (s : Shared) (l : Local sh) (a : Act) (k : Local sh) : Prop :=
  (removes s l a).isSome = true → removes s l a ≠ k.clone

/-- An entry is removed from the map only while no `acquire` or `try_acquire` holds a clone of it
that it has not locked yet. -/
def PruneAlone {n : ℕ} (s : Program.State Shared (Local sh) n) (a : Fin n × Act) : Prop :=
  ∀ j, j ≠ a.1 → PruneApart s.shared (s.loc a.1) a.2 (s.loc j)

instance (s : Shared) (l : Local sh) (a : Act) (k : Local sh) : Decidable (PruneApart s l a k) :=
  inferInstanceAs (Decidable ((removes s l a).isSome = true → removes s l a ≠ k.clone))

instance {n : ℕ} (s : Program.State Shared (Local sh) n) (a : Fin n × Act) :
    Decidable (PruneAlone s a) :=
  inferInstanceAs (Decidable (∀ j, j ≠ a.1 → PruneApart s.shared (s.loc a.1) a.2 (s.loc j)))

/-! ## The invariant -/

/-- A release in progress still has to visit every tag where it is after a grant. -/
def Covered (t : Txn sh) (r : ReleaseOf) (p : LockTag → Prop) : Prop :=
  r.isBulk = true → ∀ tag, (∃ g ∈ t.held tag, r.covers t.xid g = true) → p tag

/-- A release by owner names subtransactions of the caller. -/
def OwnRelease (t : Txn sh) : ReleaseOf → Prop
  | .owners os => ∀ o ∈ os, o ∈ t.family
  | _ => True

def PcInv (m : LockTable) (t : Txn sh) : Pc sh → Prop
  | .idle => True
  | .acquire _ _ owner | .tryCheck _ _ owner | .tryAcquire _ _ owner => owner ∈ t.family
  | .acquireLock tag _ owner addr | .tryLock tag _ owner addr =>
    owner ∈ t.family ∧ m.map.lookup tag = some addr
  | .wait tag mode owner addr =>
    owner ∈ t.family ∧ (m.entries addr).tag = tag ∧ (t.xid, mode) ∈ (m.entries addr).waiters
  | .scan r shards todo aff =>
    OwnRelease t r ∧ Covered t r fun tag => tag ∈ aff ∨ tag ∈ todo ∨ sh.shardOf tag ∈ shards
  | .sweep r rest => OwnRelease t r ∧ Covered t r (· ∈ rest)
  | .sweepLock r tag addr rest =>
    OwnRelease t r ∧ addr < m.nextEntry ∧ (m.entries addr).tag = tag ∧
      (t.held tag ≠ [] → m.map.lookup tag = some addr) ∧
      Covered t r fun tag' => tag' = tag ∨ tag' ∈ rest
  | .sweepPrune r _ rest => OwnRelease t r ∧ Covered t r (· ∈ rest)

structure SharedInv (s : Shared) : Prop where
  wf : s.mgr.table.Wf
  exclusive : ∀ tag, ∀ g ∈ s.mgr.table.grantsAt tag, ∀ g' ∈ s.mgr.table.grantsAt tag,
    g.xid ≠ g'.xid → g.mode.conflictsWith g'.mode = false
  known : ∀ tag, ∀ g ∈ s.mgr.table.grantsAt tag, g.xid < s.nextXid ∧ g.owner < s.nextXid

structure TxnInv (s : Shared) (t : Txn sh) : Prop where
  xid_mem : t.xid ∈ t.family
  range : ∀ x ∈ t.family, x < s.nextXid
  books : ∀ tag, (s.mgr.table.grantsAt tag).filter (·.xid == t.xid) = t.held tag
  owners : ∀ tag, ∀ g ∈ s.mgr.table.grantsAt tag, g.owner ∈ t.family ↔ g.xid = t.xid
  pc : PcInv s.mgr.table t t.pc

def LocalInv (s : Shared) : Local sh → Prop
  | .out => True
  | .txn t => TxnInv s t

def Local.family : Local sh → List ℕ
  | .out => []
  | .txn t => t.family

/-- The XIDs of two threads are different. -/
def Apart (l k : Local sh) : Prop := ∀ x ∈ l.family, x ∉ k.family

/-! ## What a section leaves to the others -/

/-- What a section of transaction `x` may change for another one. `removed` is the entry that it
removes from the map. -/
structure Frame (x : ℕ) (family : List ℕ) (removed : Option ℕ) (m m' : LockTable) : Prop where
  books : ∀ y, y ≠ x → ∀ tag,
    (m'.grantsAt tag).filter (·.xid == y) = (m.grantsAt tag).filter (·.xid == y)
  fresh : ∀ tag, ∀ g ∈ m'.grantsAt tag,
    g ∈ m.grantsAt tag ∨ g.xid = x ∧ g.owner ∈ family
  nextEntry : m.nextEntry ≤ m'.nextEntry
  tag : ∀ a < m.nextEntry, (m'.entries a).tag = (m.entries a).tag
  waiters : ∀ a < m.nextEntry, ∀ w ∈ (m.entries a).waiters, w.1 ≠ x →
    w ∈ (m'.entries a).waiters
  map : ∀ tag a, m.map.lookup tag = some a → removed ≠ some a → m'.map.lookup tag = some a

theorem Frame.refl (x : ℕ) (family : List ℕ) (m : LockTable) : Frame x family none m m :=
  ⟨fun _ _ _ => rfl, fun _ _ => .inl, le_rfl, fun _ _ => rfl, fun _ _ _ hw _ => hw,
    fun _ _ hl _ => hl⟩

section Others

variable {s s' : Shared} {t u : Txn sh} {removed : Option ℕ}

/-- An entry where a transaction holds a lock is in use. -/
theorem TxnInv.isEmpty_of_held (h : TxnInv s u) {tag : LockTag} {addr : ℕ}
    (hl : s.mgr.table.map.lookup tag = some addr) (hh : u.held tag ≠ []) :
    (s.mgr.table.entries addr).isEmpty = false := by
  have hb := h.books tag
  rw [LockTable.grantsAt_of_lookup hl] at hb
  cases hg : (s.mgr.table.entries addr).grants with
  | nil =>
    rw [hg] at hb
    exact absurd hb.symm hh
  | cons g gs => simp [LockEntry.isEmpty, hg]

theorem isEmpty_of_waiter {e : LockEntry} {w : ℕ × LockMode} (h : w ∈ e.waiters) :
    e.isEmpty = false := by
  simp only [LockEntry.isEmpty, Bool.and_eq_false_iff]
  exact .inr (by simpa using ne_nil_of_mem h)

/-- The place of one transaction in its call stands whatever another transaction does. -/
theorem pcInv_other (hs : SharedInv s) (hu : TxnInv s u) (hne : u.xid ≠ t.xid)
    (hf : Frame t.xid t.family removed s.mgr.table s'.mgr.table)
    (hempty : ∀ a, removed = some a → (s.mgr.table.entries a).isEmpty = true)
    (hclone : ∀ a, removed = some a → (Local.txn u).clone ≠ some a) :
    PcInv s'.mgr.table u u.pc := by
  have hpc := hu.pc
  have hlock : ∀ tag addr, (Local.txn u).clone = some addr →
      s.mgr.table.map.lookup tag = some addr → s'.mgr.table.map.lookup tag = some addr :=
    fun tag addr hc hl => hf.map tag addr hl fun hr => hclone addr hr hc
  cases hp : u.pc with rw [hp] at hpc
  | idle | acquire | tryCheck | tryAcquire | scan | sweep | sweepPrune =>
    exact hpc
  | acquireLock tag mode owner addr | tryLock tag mode owner addr =>
    exact ⟨hpc.1, hlock tag addr (by simp [Local.clone, hp]) hpc.2⟩
  | wait tag mode owner addr =>
    obtain ⟨ho, htag, hw⟩ := hpc
    have hlt := (hs.wf.tagged _ _ (hs.wf.rooted addr (isEmpty_of_waiter hw))).1
    exact ⟨ho, (hf.tag addr hlt).trans htag, hf.waiters addr hlt _ hw hne⟩
  | sweepLock r tag addr rest =>
    obtain ⟨hown, hlt, htag, hroot, hcov⟩ := hpc
    refine ⟨hown, hlt.trans_le hf.nextEntry, (hf.tag addr hlt).trans htag, fun hh => ?_, hcov⟩
    refine hf.map tag addr (hroot hh) fun hr => ?_
    have huse := hu.isEmpty_of_held (hroot hh) hh
    rw [hempty addr hr] at huse
    cases huse

theorem txnInv_other (hs : SharedInv s) (ht : TxnInv s t) (hu : TxnInv s u)
    (hd : ∀ x ∈ t.family, x ∉ u.family) (hnext : s.nextXid ≤ s'.nextXid)
    (hf : Frame t.xid t.family removed s.mgr.table s'.mgr.table)
    (hempty : ∀ a, removed = some a → (s.mgr.table.entries a).isEmpty = true)
    (hclone : ∀ a, removed = some a → (Local.txn u).clone ≠ some a) : TxnInv s' u := by
  have hne : u.xid ≠ t.xid := fun he => hd t.xid ht.xid_mem (he ▸ hu.xid_mem)
  refine ⟨hu.xid_mem, fun x hx => (hu.range x hx).trans_le hnext, fun tag => ?_, fun tag g hg => ?_,
    pcInv_other hs hu hne hf hempty hclone⟩
  · rw [hf.books _ hne]
    exact hu.books tag
  · rcases hf.fresh tag g hg with hg | ⟨hx, ho⟩
    · exact hu.owners tag g hg
    · constructor
      · exact fun hmem => absurd hmem (hd _ ho)
      · exact fun he => absurd (he.symm.trans hx) hne

end Others

/-! ## One section -/

/-- A section keeps the invariant and leaves the others alone. -/
structure StepOk (s s' : Shared) (t t' : Txn sh) (removed : Option ℕ) : Prop where
  shared : SharedInv s'
  txn : TxnInv s' t'
  nextXid : s.nextXid ≤ s'.nextXid
  family : ∀ x ∈ t'.family, x ∈ t.family ∨ s.nextXid ≤ x
  frame : Frame t.xid t.family removed s.mgr.table s'.mgr.table

section Sections

variable {s : Shared} {t t' : Txn sh} {m' : LockManager} {tag : LockTag} {addr : ℕ}

/-- The transaction is elsewhere in its call and holds what it held. -/
def SameHold (t t' : Txn sh) : Prop :=
  t'.xid = t.xid ∧ t'.family = t.family ∧ t'.held = t.held

theorem SameHold.family (h : SameHold t t') : ∀ x ∈ t'.family, x ∈ t.family ∨ s.nextXid ≤ x :=
  fun _ hx => .inl (h.2.1 ▸ hx)

theorem SharedInv.of_same (hs : SharedInv s) (hwf : m'.table.Wf)
    (hg : ∀ tag, m'.table.grantsAt tag = s.mgr.table.grantsAt tag) :
    SharedInv { s with mgr := m' } := by
  refine ⟨hwf, fun tag => ?_, fun tag => ?_⟩
  · rw [hg]
    exact hs.exclusive tag
  · rw [hg]
    exact hs.known tag

theorem TxnInv.of_same (ht : TxnInv s t)
    (hg : ∀ tag, m'.table.grantsAt tag = s.mgr.table.grantsAt tag) (hsame : SameHold t t')
    (hpc : PcInv m'.table t' t'.pc) : TxnInv { s with mgr := m' } t' := by
  obtain ⟨hx, hfam, hheld⟩ := hsame
  refine ⟨?_, ?_, fun tag => ?_, fun tag => ?_, hpc⟩
  · rw [hx, hfam]
    exact ht.xid_mem
  · rw [hfam]
    exact ht.range
  · rw [hx, hheld, hg]
    exact ht.books tag
  · rw [hx, hfam, hg]
    exact ht.owners tag

variable {f : LockEntry → LockEntry} {m : LockTable} {new : List Grant} {req : LockRequest}

section

variable (hw : m.Wf) (hl : m.map.lookup tag = some addr) (hf : LockManager.EntrySection req new f)
include hw hl hf

/-- The grants of a tag after a critical section of its entry. -/
theorem grantsAt_entrySection (t : LockTag) :
    (m.modify addr f).grantsAt t =
      if t = tag then m.grantsAt tag ++ new else m.grantsAt t := by
  rw [LockTable.grantsAt_modify, (hf _).2.1]
  by_cases he : t = tag
  · subst he
    rw [if_pos hl, if_pos rfl, LockTable.grantsAt_of_lookup hl]
  · rw [if_neg he, if_neg]
    intro ht
    exact he ((hw.tagged t addr ht).2.symm.trans (hw.tagged tag addr hl).2)

theorem entrySection_wf : (m.modify addr f).Wf :=
  LockTable.modify_wf hw (fun e => (hf e).1) fun _ => by rw [(hw.tagged tag addr hl).2, hl]

theorem frame_entrySection {family : List ℕ}
    (hnew : ∀ g ∈ new, g.xid = req.xid ∧ g.owner ∈ family) :
    Frame req.xid family none m (m.modify addr f) := by
  have hgr := grantsAt_entrySection hw hl hf
  have hent : ∀ a, (m.modify addr f).entries a = if a = addr then f (m.entries addr)
      else m.entries a := fun a => by
    simp [LockTable.modify, update_apply]
  refine ⟨fun y hy t => ?_, fun t g hg => ?_, le_rfl, fun a _ => ?_, fun a _ w hw hne => ?_,
    fun _ _ h _ => h⟩
  · rw [hgr]
    split_ifs with he
    · have hnil : new.filter (·.xid == y) = [] := filter_eq_nil_iff.2 fun g hg => by
        simpa [(hnew g hg).1] using hy.symm
      rw [he, filter_append, hnil, append_nil]
    · rfl
  · rw [hgr] at hg
    split_ifs at hg with he
    · subst he
      rcases mem_append.1 hg with hg | hg
      · exact .inl hg
      · exact .inr (hnew g hg)
    · exact .inl hg
  · rw [hent]
    split_ifs with he
    · rw [he, (hf _).1]
    · rfl
  · rw [hent]
    split_ifs with he
    · subst he
      exact (hf _).2.2 w hw hne
    · exact hw

end

variable {mode : LockMode}

variable {owner : ℕ}

variable {g : Grant} {r : ReleaseOf}

section

variable (hs : SharedInv s) (ht : TxnInv s t)
include hs ht

theorem stepOk_quiet (hm : m'.table = s.mgr.table) (hsame : SameHold t t')
    (hpc : PcInv s.mgr.table t' t'.pc) : StepOk s { s with mgr := m' } t t' none := by
  have hg : ∀ tag, m'.table.grantsAt tag = s.mgr.table.grantsAt tag := fun tag => by rw [hm]
  refine ⟨hs.of_same (hm ▸ hs.wf) hg, ht.of_same hg hsame (hm ▸ hpc), le_rfl, hsame.family, ?_⟩
  dsimp only
  rw [hm]
  exact .refl _ _ _

theorem stepOk_map {removed : Option ℕ} (hwf : m'.table.Wf)
    (hg : ∀ tag, m'.table.grantsAt tag = s.mgr.table.grantsAt tag) (hsame : SameHold t t')
    (hpc : PcInv m'.table t' t'.pc) (hnext : s.mgr.table.nextEntry ≤ m'.table.nextEntry)
    (hent : ∀ a < s.mgr.table.nextEntry, m'.table.entries a = s.mgr.table.entries a)
    (hmap : ∀ tag a, s.mgr.table.map.lookup tag = some a → removed ≠ some a →
      m'.table.map.lookup tag = some a) : StepOk s { s with mgr := m' } t t' removed := by
  refine ⟨hs.of_same hwf hg, ht.of_same hg hsame hpc, le_rfl, hsame.family,
    fun y _ tag => by rw [hg], fun tag g hmem => .inl (hg tag ▸ hmem), hnext,
    fun a ha => by rw [hent a ha], fun a ha w hw _ => ?_, hmap⟩
  rw [hent a ha]
  exact hw

/-- Looking up or inserting the entry of a tag. -/
theorem stepOk_lookup (tag : LockTag) (hsame : SameHold t t')
    (hpc : ∀ m : LockTable, m.map.lookup tag = some (s.mgr.table.entryOrInsert tag).2 →
      PcInv m t' t'.pc) :
    StepOk s { s with mgr := { s.mgr with table := (s.mgr.table.entryOrInsert tag).1 } } t t'
      none := by
  obtain ⟨hwf, hl, hmap, hg, hent, hnext⟩ := LockTable.entryOrInsert_spec hs.wf tag
  exact stepOk_map hs ht hwf hg hsame (hpc _ hl) hnext hent fun t a h _ => hmap t a h

theorem stepOk_prune (tag : LockTag) (hsame : SameHold t t') (hpc : ∀ m, PcInv m t' t'.pc) :
    StepOk s { s with mgr := { s.mgr with table := s.mgr.table.pruneEntryIfEmpty tag } } t t'
      ((s.mgr.table.map.lookup tag).filter fun addr => (s.mgr.table.entries addr).isEmpty) := by
  obtain ⟨hwf, hent, hnext, hg, hmap⟩ := LockTable.pruneEntryIfEmpty_spec hs.wf tag
  refine stepOk_map hs ht hwf hg hsame (hpc _) hnext.ge (fun a _ => congrFun hent a)
    fun t a hl hr => hmap t a hl fun hte => ?_
  subst hte
  by_contra he
  apply hr
  rw [hl]
  simpa using he

/-- A critical section of `acquire` that grants nothing. -/
theorem stepOk_ungranted (hl : s.mgr.table.map.lookup tag = some addr)
    (hm : m'.table = s.mgr.table.modify addr f)
    (hf : LockManager.EntrySection (t.request tag mode) [] f) (hsame : SameHold t t')
    (hpc : PcInv m'.table t' t'.pc) : StepOk s { s with mgr := m' } t t' none := by
  have hgr : ∀ t, m'.table.grantsAt t = s.mgr.table.grantsAt t := fun t => by
    rw [hm, grantsAt_entrySection hs.wf hl hf]
    split_ifs with he
    · rw [he, append_nil]
    · rfl
  refine ⟨hs.of_same (hm ▸ entrySection_wf hs.wf hl hf) hgr, ht.of_same hgr hsame hpc, le_rfl,
    hsame.family, ?_⟩
  dsimp only
  rw [hm]
  exact frame_entrySection hs.wf hl hf (by simp)

/-- A critical section of `acquire` or `try_acquire` that grants the lock. -/
theorem stepOk_granted (hl : s.mgr.table.map.lookup tag = some addr) (ho : owner ∈ t.family)
    (hspec : LockManager.Acquired.granted.Spec s.mgr.table m'.table (t.request tag mode) owner
      addr) :
    StepOk s { s with mgr := m' } t (t.obtained tag mode owner) none := by
  obtain ⟨f, hm, hf, hconf⟩ := hspec
  have hgr := grantsAt_entrySection hs.wf hl hf
  rw [← hm] at hgr
  rw [← LockTable.grantsAt_of_lookup hl] at hconf
  -- The new grant is compatible with every grant of another transaction on the tag.
  have hcompat : ∀ g ∈ s.mgr.table.grantsAt tag, g.xid ≠ t.xid →
      mode.conflictsWith g.mode = false := fun g hg hne =>
    LockManager.hasConflict_eq_false hconf hg hne
  have hmem : ∀ t' g, g ∈ m'.table.grantsAt t' → g ∈ s.mgr.table.grantsAt t' ∨
      t' = tag ∧ g = { xid := t.xid, mode := mode, owner := owner } := by
    intro t' g hg
    rw [hgr] at hg
    split_ifs at hg with he
    · subst he
      rcases mem_append.1 hg with hg | hg
      · exact .inl hg
      · exact .inr ⟨rfl, mem_singleton.1 hg⟩
    · exact .inl hg
  refine ⟨⟨hm ▸ entrySection_wf hs.wf hl hf, fun t' g hg g' hg' hne => ?_, fun t' g hg => ?_⟩,
    ⟨ht.xid_mem, ht.range, fun t' => ?_, fun t' g hg => ?_, trivial⟩, le_rfl, fun _ => .inl, ?_⟩
  · rcases hmem t' g hg with hg | ⟨rfl, rfl⟩ <;> rcases hmem _ g' hg' with hg' | ⟨he, rfl⟩
    · exact hs.exclusive t' g hg g' hg' hne
    · subst he
      rw [LockMode.conflictsWith_comm]
      exact hcompat g hg hne
    · exact hcompat g' hg' (Ne.symm hne)
    · exact absurd rfl hne
  · rcases hmem t' g hg with hg | ⟨-, rfl⟩
    · exact hs.known t' g hg
    · exact ⟨ht.range _ ht.xid_mem, ht.range owner ho⟩
  · rw [hgr]
    by_cases he : t' = tag
    · subst he
      have hb := ht.books t'
      rw [if_pos rfl, filter_append]
      simp [Txn.obtained, Txn.request, hb]
    · rw [if_neg he]
      simp only [Txn.obtained, update_of_ne he]
      exact ht.books t'
  · rcases hmem t' g hg with hg | ⟨-, rfl⟩
    · exact ht.owners t' g hg
    · exact ⟨fun _ => rfl, fun _ => ho⟩
  · dsimp only
    rw [hm]
    refine frame_entrySection hs.wf hl hf fun g hg => ?_
    rw [mem_singleton.1 hg]
    exact ⟨rfl, ho⟩

omit hs in
/-- A release is after grants of the caller only. -/
theorem xid_of_covers (hr : OwnRelease t r) (hg : g ∈ s.mgr.table.grantsAt tag)
    (hc : r.covers t.xid g = true) : g.xid = t.xid := by
  cases r with
  | one mode =>
    simp only [ReleaseOf.covers, Bool.and_eq_true, beq_iff_eq] at hc
    exact hc.1
  | all => simpa [ReleaseOf.covers] using hc
  | owners os =>
    refine (ht.owners tag g hg).1 (hr _ ?_)
    simpa [ReleaseOf.covers] using hc

omit hs in
/-- Where the caller holds nothing, its release is after nothing. -/
theorem not_covers_of_held_nil (hr : OwnRelease t r) (hh : t.held tag = [])
    (hg : g ∈ s.mgr.table.grantsAt tag) : r.covers t.xid g = false := by
  by_contra hc
  have hx := xid_of_covers ht hr hg (by simpa using hc)
  have hmem : g ∈ (s.mgr.table.grantsAt tag).filter (·.xid == t.xid) :=
    mem_filter.2 ⟨hg, by simpa using hx⟩
  rw [ht.books, hh] at hmem
  cases hmem

/-- The critical section of a release takes what it is after from the grants of the tag. If the
entry is not the one in the map, the caller holds nothing on the tag. -/
theorem grantsAt_strip (hr : OwnRelease t r) (htag : (s.mgr.table.entries addr).tag = tag)
    (hroot : t.held tag ≠ [] → s.mgr.table.map.lookup tag = some addr) (t' : LockTag) :
    (s.mgr.table.modify addr (.strip t.xid r)).grantsAt t' =
      if t' = tag then r.strip t.xid (s.mgr.table.grantsAt tag)
      else s.mgr.table.grantsAt t' := by
  have huniq : s.mgr.table.map.lookup t' = some addr → t' = tag := fun hl =>
    (hs.wf.tagged t' addr hl).2.symm.trans htag
  rw [LockTable.grantsAt_modify]
  by_cases he : t' = tag
  · subst he
    by_cases hl : s.mgr.table.map.lookup t' = some addr
    · rw [if_pos hl, if_pos rfl, LockTable.grantsAt_of_lookup hl, LockEntry.strip]
    · have hh : t.held t' = [] := by
        by_contra hh
        exact hl (hroot hh)
      rw [if_neg hl, if_pos rfl, ReleaseOf.strip_eq_self]
      exact fun g hg => not_covers_of_held_nil ht hr hh hg
  · rw [if_neg fun hl => he (huniq hl), if_neg he]

theorem stepOk_strip {rest : List LockTag}
    (hpc : PcInv s.mgr.table t (.sweepLock r tag addr rest)) :
    StepOk s { s with mgr := s.mgr.modify addr (.strip t.xid r) } t
      (t.pass r tag (.sweepPrune r tag rest)) none := by
  obtain ⟨hr, hlt, htag, hroot, hcov⟩ := hpc
  have hgr := grantsAt_strip hs ht hr htag hroot
  have hsub : ∀ t' g, g ∈ (s.mgr.table.modify addr (.strip t.xid r)).grantsAt t' →
      g ∈ s.mgr.table.grantsAt t' := by
    intro t' g hg
    rw [hgr] at hg
    split_ifs at hg with he
    · rw [he]
      exact ReleaseOf.strip_sublist.subset hg
    · exact hg
  refine ⟨⟨LockTable.strip_wf hs.wf,
    fun t' g hg g' hg' => hs.exclusive t' g (hsub t' g hg) g' (hsub t' g' hg'),
    fun t' g hg => hs.known t' g (hsub t' g hg)⟩,
    ⟨ht.xid_mem, ht.range, fun t' => ?_, fun t' g hg => ht.owners t' g (hsub t' g hg), hr, ?_⟩,
    le_rfl, fun _ => .inl, ?_⟩
  · refine Eq.trans (congrArg _ (hgr t')) ?_
    by_cases he : t' = tag
    · subst he
      rw [if_pos rfl]
      simp only [Txn.pass, update_self]
      rw [ReleaseOf.filter_strip_self fun g hg hc => xid_of_covers ht hr hg hc, ht.books]
    · rw [if_neg he]
      simp only [Txn.pass, update_of_ne he]
      exact ht.books t'
  · rintro hb t' ⟨g, hg, hc⟩
    simp only [Txn.pass] at hg hc
    by_cases he : t' = tag
    · subst he
      rw [update_self] at hg
      rw [ReleaseOf.covers_of_mem_strip hb hg] at hc
      cases hc
    · rw [update_of_ne he] at hg
      exact (hcov hb t' ⟨g, hg, hc⟩).resolve_left he
  · refine ⟨fun y hy t' => ?_, fun t' g hg => .inl (hsub t' g hg), le_rfl, fun a _ => ?_,
      fun a _ w hw _ => ?_, fun _ _ h _ => h⟩
    · refine (congrArg _ (hgr t')).trans ?_
      split_ifs with he
      · rw [he]
        exact ReleaseOf.filter_strip_other (fun g hg hc => xid_of_covers ht hr hg hc) hy
      · rfl
    · by_cases he : a = addr
      · subst he
        simp [LockManager.modify, LockTable.modify, LockEntry.strip]
      · simp [LockManager.modify, LockTable.modify, update_of_ne he]
    · by_cases he : a = addr
      · subst he
        simpa [LockManager.modify, LockTable.modify, LockEntry.strip] using hw
      · simpa [LockManager.modify, LockTable.modify, update_of_ne he] using hw

end

theorem mem_grantsAt_of_held (ht : TxnInv s t) (hg : g ∈ t.held tag) :
    g ∈ s.mgr.table.grantsAt tag := by
  rw [← ht.books] at hg
  exact (mem_filter.1 hg).1

theorem exists_lookup_of_held (ht : TxnInv s t) (hg : g ∈ t.held tag) :
    ∃ addr, s.mgr.table.map.lookup tag = some addr ∧ g ∈ (s.mgr.table.entries addr).grants := by
  have hmem := mem_grantsAt_of_held ht hg
  cases hl : s.mgr.table.map.lookup tag with
  | none =>
    rw [LockTable.grantsAt_of_none hl] at hmem
    cases hmem
  | some addr =>
    rw [LockTable.grantsAt_of_lookup hl] at hmem
    exact ⟨addr, rfl, hmem⟩

variable {aff : List LockTag} {shards : List (Fin sh.count)}

/-- The scan of `release_all` misses no tag: where the caller holds a grant, the entry stays in the
map until the scan gets there. -/
theorem covered_scan {todo : List LockTag} (ht : TxnInv s t)
    (hcov : Covered t r fun t' => t' ∈ aff ∨ t' ∈ tag :: todo ∨ sh.shardOf t' ∈ shards) :
    Covered t r fun t' =>
      t' ∈ (if affected s.mgr.table t.xid r tag then aff ++ [tag] else aff) ∨ t' ∈ todo ∨
        sh.shardOf t' ∈ shards := by
  rintro hb t' ⟨g, hg, hc⟩
  have hstay : t' ∈ aff →
      t' ∈ (if affected s.mgr.table t.xid r tag then aff ++ [tag] else aff) := fun h => by
    split_ifs
    · exact mem_append_left _ h
    · exact h
  rcases hcov hb t' ⟨g, hg, hc⟩ with h | h | h
  · exact .inl (hstay h)
  · rcases mem_cons.1 h with rfl | h
    · obtain ⟨addr, hl, hmem⟩ := exists_lookup_of_held ht hg
      have haff : affected s.mgr.table t.xid r t' = true := by
        simp only [affected, hl]
        exact any_eq_true.2 ⟨g, hmem, hc⟩
      rw [if_pos haff]
      exact .inl (mem_append_right _ mem_cons_self)
    · exact .inr (.inl h)
  · exact .inr (.inr h)

theorem covered_shard {j : Fin sh.count} (ht : TxnInv s t)
    (hcov : Covered t r fun t' => t' ∈ aff ∨ t' ∈ ([] : List LockTag) ∨
      sh.shardOf t' ∈ j :: shards) :
    Covered t r fun t' => t' ∈ aff ∨ t' ∈ shardTags s.mgr.table j ∨ sh.shardOf t' ∈ shards := by
  rintro hb t' ⟨g, hg, hc⟩
  rcases hcov hb t' ⟨g, hg, hc⟩ with h | h | h
  · exact .inl h
  · cases h
  · rcases mem_cons.1 h with h | h
    · obtain ⟨addr, hl, -⟩ := exists_lookup_of_held ht hg
      refine .inr (.inl (mem_filter.2 ⟨?_, by simpa using h⟩))
      exact FiniteMap.mem_keysWhere.2 ⟨addr, hl, rfl⟩
    · exact .inr (.inr h)

/-- When a release has passed every tag, it has nothing more to give up. -/
theorem sameHold_sweepDone (hcov : Covered t r (· ∈ ([] : List LockTag))) :
    SameHold t (t.sweepDone r) := by
  refine ⟨rfl, rfl, funext fun tag => ?_⟩
  have hstrip : r.isBulk = true → r.strip t.xid (t.held tag) = t.held tag := fun hb =>
    ReleaseOf.strip_eq_self fun g hg => by
      by_contra hc
      cases hcov hb tag ⟨g, hg, by simpa using hc⟩
  cases r with
  | one mode => rfl
  | all | owners => exact hstrip rfl

theorem sameHold_pass {pc : Pc sh} (hh : t.held tag = []) : SameHold t (t.pass r tag pc) := by
  refine ⟨rfl, rfl, ?_⟩
  simp only [Txn.pass, hh, ReleaseOf.strip_nil]
  rw [← hh, update_eq_self]

/-- A critical section of `acquire`, whatever its outcome. -/
theorem stepOk_acquired {res : LockManager.Acquired} (hs : SharedInv s) (ht : TxnInv s t)
    (hl : s.mgr.table.map.lookup tag = some addr) (ho : owner ∈ t.family)
    (hspec : res.Spec s.mgr.table m'.table (t.request tag mode) owner addr) :
    StepOk s { s with mgr := m' } t (t.afterAcquire tag mode owner addr res) none := by
  cases res with
  | granted => exact stepOk_granted hs ht hl ho hspec
  | waiting =>
    obtain ⟨f, hm, hf, hw⟩ := hspec
    have hent : (m'.table.entries addr) = f (s.mgr.table.entries addr) := by
      rw [hm]
      exact update_self _ _ _
    refine stepOk_ungranted hs ht hl hm hf ⟨rfl, rfl, rfl⟩ ⟨ho, ?_, ?_⟩
    · rw [hent, (hf _).1, (hs.wf.tagged tag addr hl).2]
    · rw [hent]
      exact hw
  | failed e =>
    obtain ⟨f, hm, hf⟩ := hspec
    exact stepOk_ungranted hs ht hl hm hf ⟨rfl, rfl, rfl⟩ trivial

end Sections

/-! ## One step of a thread -/

section Steps

variable {s s' : Shared} {t t' : Txn sh} {m' : LockManager} {a : Act} {c o : Bool}

theorem covered_start {r : ReleaseOf} :
    Covered t r fun tag => tag ∈ ([] : List LockTag) ∨ tag ∈ ([] : List LockTag) ∨
      sh.shardOf tag ∈ List.finRange sh.count := fun _ _ _ =>
  .inr (.inr (mem_finRange _))

section

variable (hs : SharedInv s) (ht : TxnInv s t)
include hs ht

/-- **A section of a call.** -/
theorem stepOk_section (h : sectionStep s.mgr t c o = some (m', t')) :
    StepOk s { s with mgr := m' } t t' (removes s (.txn t) (.step c o)) := by
  have hpc := ht.pc
  unfold sectionStep at h
  simp only [removes]
  cases hp : t.pc <;> rw [hp] at hpc h <;> dsimp only at h ⊢
  case idle => cases h
  case acquire tag mode owner =>
    cases h
    exact stepOk_lookup hs ht tag ⟨rfl, rfl, rfl⟩ fun m hl => ⟨hpc, hl⟩
  case acquireLock tag mode owner addr =>
    cases h
    exact stepOk_acquired hs ht hpc.2 hpc.1 (LockManager.acquireSection_spec c)
  case wait tag mode owner addr =>
    cases h
    obtain ⟨ho, htag, hw⟩ := hpc
    have hroot := hs.wf.rooted addr (isEmpty_of_waiter hw)
    rw [htag] at hroot
    exact stepOk_acquired hs ht hroot ho (LockManager.wakeSection_spec c o hw)
  case tryCheck tag mode owner =>
    split_ifs at h
    · cases h
      exact stepOk_quiet hs ht rfl ⟨rfl, rfl, rfl⟩ trivial
    · cases h
      exact stepOk_quiet hs ht rfl ⟨rfl, rfl, rfl⟩ hpc
  case tryAcquire tag mode owner =>
    cases h
    exact stepOk_lookup hs ht tag ⟨rfl, rfl, rfl⟩ fun m hl => ⟨hpc, hl⟩
  case tryLock tag mode owner addr =>
    cases h
    rcases LockManager.trySection_spec s.mgr (t.request tag mode) owner addr with
      ⟨hok, hspec⟩ | ⟨hno, hm⟩
    · rw [if_pos hok]
      exact stepOk_granted hs ht hpc.2 hpc.1 hspec
    · rw [hm, if_neg (by simp [hno])]
      exact stepOk_quiet hs ht rfl ⟨rfl, rfl, rfl⟩ trivial
  case scan r shards todo aff =>
    obtain ⟨hr, hcov⟩ := hpc
    cases todo with
    | cons tag todo =>
      cases h
      have hcov := covered_scan ht hcov
      exact stepOk_quiet hs ht rfl ⟨rfl, rfl, rfl⟩ ⟨hr, hcov⟩
    | nil =>
      cases shards with
      | cons j shards =>
        cases h
        have hcov := covered_shard ht hcov
        exact stepOk_quiet hs ht rfl ⟨rfl, rfl, rfl⟩ ⟨hr, hcov⟩
      | nil =>
        cases h
        refine stepOk_quiet hs ht rfl ⟨rfl, rfl, rfl⟩ ⟨hr, fun hb tag hg => ?_⟩
        simpa using hcov hb tag hg
  case sweep r rest =>
    obtain ⟨hr, hcov⟩ := hpc
    cases rest with
    | nil =>
      cases h
      refine stepOk_quiet hs ht ?_ (sameHold_sweepDone hcov) trivial
      cases r <;> rfl
    | cons tag rest =>
      dsimp only at h
      split at h
      · rename_i addr hl
        cases h
        obtain ⟨hlt, htag⟩ := hs.wf.tagged tag addr hl
        refine stepOk_quiet hs ht rfl ⟨rfl, rfl, rfl⟩ ⟨hr, hlt, htag, fun _ => hl, ?_⟩
        exact fun hb tag' hg => mem_cons.1 (hcov hb tag' hg)
      · rename_i hl
        cases h
        have hh : t.held tag = [] := by
          rw [← ht.books, LockTable.grantsAt_of_none hl]
          rfl
        have hsame : SameHold t (t.pass r tag (.sweep r rest)) := sameHold_pass hh
        refine stepOk_quiet hs ht rfl hsame ⟨hr, fun hb tag' hg => ?_⟩
        rw [hsame.2.2] at hg
        rcases mem_cons.1 (hcov hb tag' hg) with rfl | hmem
        · rw [hh] at hg
          obtain ⟨g, hg, -⟩ := hg
          cases hg
        · exact hmem
  case sweepLock r tag addr rest =>
    cases h
    exact stepOk_strip hs ht hpc
  case sweepPrune r tag rest =>
    cases h
    exact stepOk_prune hs ht tag ⟨rfl, rfl, rfl⟩ fun _ => hpc

/-- A new subtransaction. No grant has its XID. -/
theorem stepOk_subxact (hidle : t.pc = .idle) :
    StepOk s { s with nextXid := s.nextXid + 1 } t { t with family := s.nextXid :: t.family }
      none := by
  refine ⟨⟨hs.wf, hs.exclusive, fun tag g hg => ?_⟩, ⟨mem_cons_of_mem _ ht.xid_mem,
    forall_mem_cons.2 ⟨Nat.lt_succ_self _, fun x hx => Nat.lt_succ_of_lt (ht.range x hx)⟩, ht.books,
    fun tag g hg => ?_, ?_⟩, Nat.le_succ _, forall_mem_cons.2 ⟨.inr le_rfl, fun _ => .inl⟩,
    Frame.refl _ _ _⟩
  · obtain ⟨hx, ho⟩ := hs.known tag g hg
    exact ⟨Nat.lt_succ_of_lt hx, Nat.lt_succ_of_lt ho⟩
  · have hne : g.owner ≠ s.nextXid := (hs.known tag g hg).2.ne
    rw [← ht.owners tag g hg, mem_cons]
    exact ⟨fun h => h.resolve_left hne, .inr⟩
  · dsimp only
    rw [hidle]
    trivial

/-- **The start of a call.** Only a new subtransaction takes an XID. -/
theorem stepOk_call (hidle : t.pc = .idle) (h : callStep s t a = some (s', t')) :
    StepOk s s' t t' none := by
  cases a with
  | subxact =>
    cases h
    exact stepOk_subxact hs ht hidle
  | acquire | tryAcquire =>
    simp only [callStep] at h
    split_ifs at h with ho
    cases h
    exact stepOk_quiet hs ht (LockManager.ensureXidState_table _ _) ⟨rfl, rfl, rfl⟩ ho
  | release tag mode =>
    cases h
    exact stepOk_quiet hs ht rfl ⟨rfl, rfl, rfl⟩ ⟨trivial, fun hb => by cases hb⟩
  | releaseAll =>
    cases h
    exact stepOk_quiet hs ht rfl ⟨rfl, rfl, rfl⟩ ⟨trivial, covered_start⟩
  | releaseSubxactLocks owners =>
    simp only [callStep] at h
    split_ifs at h with ho
    cases h
    unfold Txn.releaseSubxactLocks
    split_ifs
    · exact stepOk_quiet hs ht rfl ⟨rfl, rfl, rfl⟩ trivial
    · exact stepOk_quiet hs ht rfl ⟨rfl, rfl, rfl⟩ ⟨ho, covered_start⟩
  | _ => cases h

end

end Steps

/-! ## Whole runs -/

section Runs

variable {s s' : Shared} {l l' k : Local sh} {a : Act}

/-- What a step of a thread is, for the invariant. -/
inductive Moved (s : Shared) : Local sh → Act → Shared → Local sh → Prop
  | flagged (l : Local sh) (x : ℕ) :
    Moved s l (.markVictim x) { s with mgr := s.mgr.markVictim x } l
  | begun :
    Moved s .out .begin { s with nextXid := s.nextXid + 1 }
      (.txn { xid := s.nextXid, family := [s.nextXid] })
  | txn {t t' : Txn sh} {a : Act} {s' : Shared}
    (hok : StepOk s s' t t' (removes s (.txn t) a)) : Moved s (.txn t) a s' (.txn t')

variable {m : LockManager}

theorem localInv_table (hl : LocalInv s l) (hm : m.table = s.mgr.table) :
    LocalInv { s with mgr := m } l := by
  cases l with
  | out => trivial
  | txn t => exact .of_same hl (fun tag => by rw [hm]) ⟨rfl, rfl, rfl⟩ (hm ▸ TxnInv.pc hl)

theorem localInv_nextXid (hk : LocalInv s k) :
    LocalInv { s with nextXid := s.nextXid + 1 } k := by
  cases k with
  | out => trivial
  | txn u =>
    have hk : TxnInv s u := hk
    exact { hk with range := fun x hx => Nat.lt_succ_of_lt (hk.range x hx) }

theorem lt_nextXid_of_family (hk : LocalInv s k) {x : ℕ} (hx : x ∈ k.family) : x < s.nextXid := by
  cases k with
  | out => cases hx
  | txn u => exact TxnInv.range hk x hx

section

variable (hs : SharedInv s)
include hs

theorem moved_of_call {t : Txn sh} (ht : TxnInv s t) (hr : removes s (.txn t) a = none)
    (h : (if t.pc.isIdle then (callStep s t a).map fun p => (p.1, .txn p.2) else none) =
      some (s', l')) : Moved s (.txn t) a s' l' := by
  split_ifs at h with hi
  have hidle : t.pc = .idle := by
    revert hi
    cases t.pc <;> simp [Pc.isIdle]
  obtain ⟨⟨s₁, t₁⟩, hcall, he⟩ := Option.map_eq_some_iff.1 h
  cases he
  exact .txn (hr ▸ stepOk_call hs ht hidle hcall)

theorem moved_of_step (hl : LocalInv s l) (h : step s l a = some (s', l')) : Moved s l a s' l' := by
  cases l with
  | out =>
    cases a with cases h
    | markVictim x => exact .flagged _ x
    | begin => exact .begun
  | txn t =>
    cases a with
    | markVictim x =>
      cases h
      exact .flagged _ x
    | step c o =>
      obtain ⟨⟨m', t'⟩, hsec, he⟩ := Option.map_eq_some_iff.1 h
      cases he
      exact .txn (stepOk_section hs hl hsec)
    | _ => exact moved_of_call hs hl rfl h

theorem sharedInv_table (hm : m.table = s.mgr.table) : SharedInv { s with mgr := m } :=
  hs.of_same (hm ▸ hs.wf) fun tag => by rw [hm]

theorem inv_moved (hl : LocalInv s l) (h : Moved s l a s' l') : SharedInv s' ∧ LocalInv s' l' := by
  cases h with
  | flagged l x =>
    have hm := LockManager.markVictim_table s.mgr x
    exact ⟨sharedInv_table hs hm, localInv_table hl hm⟩
  | begun =>
    have hnone : ∀ tag, ∀ g ∈ s.mgr.table.grantsAt tag, g.xid ≠ s.nextXid ∧ g.owner ≠ s.nextXid :=
      fun tag g hg => ⟨(hs.known tag g hg).1.ne, (hs.known tag g hg).2.ne⟩
    refine ⟨⟨hs.wf, hs.exclusive, fun tag g hg => ?_⟩, ⟨mem_singleton.2 rfl, fun x hx => ?_,
      fun tag => ?_, fun tag g hg => ?_, trivial⟩⟩
    · obtain ⟨hx, ho⟩ := hs.known tag g hg
      exact ⟨Nat.lt_succ_of_lt hx, Nat.lt_succ_of_lt ho⟩
    · rw [mem_singleton.1 hx]
      exact Nat.lt_succ_self _
    · exact filter_eq_nil_iff.2 fun g hg => by simpa using (hnone tag g hg).1
    · simp [(hnone tag g hg).1, (hnone tag g hg).2]
  | txn hok => exact ⟨hok.shared, hok.txn⟩

theorem other_moved (hl : LocalInv s l) (hk : LocalInv s k) (hd : Apart l k)
    (hE : PruneApart s l a k) (h : Moved s l a s' l') : LocalInv s' k ∧ Apart l' k := by
  cases h with
  | flagged l x => exact ⟨localInv_table hk (LockManager.markVictim_table s.mgr x), hd⟩
  | begun =>
    refine ⟨localInv_nextXid hk, fun x hx hxk => ?_⟩
    rw [mem_singleton.1 hx] at hxk
    exact lt_irrefl _ (lt_nextXid_of_family hk hxk)
  | @txn t t' _ _ hok =>
    constructor
    · cases k with
      | out => trivial
      | txn u =>
        refine txnInv_other hs hl hk hd hok.nextXid hok.frame (fun addr hr => ?_)
          fun addr hr hc => ?_
        · exact isEmpty_of_removes hr
        · exact hE (by rw [hr]; rfl) (hr.trans hc.symm)
    · intro x hx hxk
      rcases hok.family x hx with hx | hge
      · exact hd x hx hxk
      · exact (lt_nextXid_of_family hk hxk).not_ge hge

end

end Runs

theorem sharedInv_init : SharedInv ({} : Shared) := by
  refine ⟨⟨fun tag addr h => ?_, fun addr h => ?_⟩, fun tag g hg => ?_, fun tag g hg => ?_⟩
  · simp at h
  · simp [LockEntry.isEmpty] at h
  · simp [LockTable.grantsAt] at hg
  · simp [LockTable.grantsAt] at hg

variable {n : ℕ} {s : Program.State Shared (Local sh) n}

theorem reach_inv (h : (machine sh n).Reach PruneAlone s) :
    Program.Inv SharedInv LocalInv Apart s := by
  have hR : Program.Rule (program sh) SharedInv LocalInv Apart (fun _ _ _ => True) PruneApart := by
    refine ⟨fun l k hd x hx hl => hd x hl hx, ?_, ?_⟩
    · exact fun s l a s' l' hs hl _ hstep => inv_moved hs hl (moved_of_step hs hl hstep)
    · exact fun s l a s' l' k hs hl hk hd _ hE hstep =>
        other_moved hs hl hk hd hE (moved_of_step hs hl hstep)
  refine Program.reach_inv_of hR (fun s i a hc => ⟨trivial, fun j hj => hc j hj⟩) sharedInv_init
    ?_ (fun x hx => ?_) h
  · trivial
  · cases hx

/-- What the thread holds on a tag: what its calls obtained and have not given up. -/
def Local.held : Local sh → LockTag → List Grant
  | .out, _ => []
  | .txn t, tag => t.held tag

theorem mem_grantsAt_of_mem_held (hl : LocalInv s.shared l) {tag : LockTag} {g : Grant}
    (hg : g ∈ l.held tag) :
    g ∈ s.shared.mgr.table.grantsAt tag ∧ ∃ t, l = .txn t ∧ g.xid = t.xid := by
  cases l with
  | out => cases hg
  | txn t =>
    have hb := TxnInv.books hl tag
    have hg : g ∈ t.held tag := hg
    rw [← hb, mem_filter] at hg
    exact ⟨hg.1, t, rfl, by simpa using hg.2⟩

/-- **Lock mutual exclusion.** Two transactions hold no conflicting modes on one tag. The grants
of a transaction in memory are those it holds, so what it released is gone. -/
theorem locks_exclusive (h : (machine sh n).Reach PruneAlone s) :
    (∀ i j, i ≠ j → ∀ tag, ∀ g ∈ (s.loc i).held tag, ∀ g' ∈ (s.loc j).held tag,
      g.mode.conflictsWith g'.mode = false) ∧
    ∀ i t, s.loc i = .txn t →
      (∀ addr, (s.shared.mgr.table.entries addr).grants.filter (·.xid == t.xid) =
        if s.shared.mgr.table.map.lookup (s.shared.mgr.table.entries addr).tag = some addr
        then t.held (s.shared.mgr.table.entries addr).tag else []) ∧
      ∀ tag, s.shared.mgr.table.map.lookup tag = none → t.held tag = [] := by
  have hinv := reach_inv h
  refine ⟨fun i j hij tag g hg g' hg' => ?_, fun i t ht => ?_⟩
  · obtain ⟨hmem, t, hi, hx⟩ := mem_grantsAt_of_mem_held (hinv.loc i) hg
    obtain ⟨hmem', u, hj, hx'⟩ := mem_grantsAt_of_mem_held (hinv.loc j) hg'
    refine hinv.shared.exclusive tag g hmem g' hmem' fun he => ?_
    have hti := hinv.loc i
    have huj := hinv.loc j
    have hd := hinv.pair i j hij
    rw [hi] at hti hd
    rw [hj] at huj hd
    exact hd t.xid hti.xid_mem (by rw [← hx, he, hx']; exact huj.xid_mem)
  · have hti := hinv.loc i
    rw [ht] at hti
    refine ⟨fun addr => ?_, fun tag hl => ?_⟩
    · split_ifs with hl
      · rw [← LockTable.grantsAt_of_lookup hl]
        exact hti.books _
      · rw [hinv.shared.wf.grants_eq_nil hl]
        rfl
    · rw [← hti.books, LockTable.grantsAt_of_none hl]
      rfl

def oneShard : Sharding := ⟨1, fun _ => 0⟩

/-- An `acquire` of ACCESS EXCLUSIVE on relation 1 up to its first critical section. -/
def acquireActs (i : Fin n) (x : ℕ) : List (Fin n × Act) :=
  [(i, .acquire (.relation 1) .accessExclusive x), (i, .step false false)]

/-- A waiter is granted the lock after the release of the holder. -/
theorem handover_run :
    ∃ s, (machine oneShard 2).Reach PruneAlone s ∧
      ((s.loc 0).held (.relation 1) = [] ∧
        (s.loc 1).held (.relation 1) = [⟨4, .accessExclusive, 4⟩]) ∧
      ∀ i j, i ≠ j → ∀ tag, ∀ g ∈ (s.loc i).held tag, ∀ g' ∈ (s.loc j).held tag,
        g.mode.conflictsWith g'.mode = false := by
  obtain ⟨s, hs, hp⟩ := Machine.exists_reach_of_runIf (M := machine oneShard 2) (C := PruneAlone)
    (p := fun s => (s.loc 0).held (.relation 1) = [] ∧
      (s.loc 1).held (.relation 1) = [⟨4, .accessExclusive, 4⟩])
    ([(0, .begin), (1, .begin)] ++ acquireActs 0 3 ++ [(0, .step false false)] ++
      acquireActs 1 4 ++ [(1, .step false false)] ++
      [(0, .releaseAll), (0, .step false false), (0, .step false false), (0, .step false false),
        (0, .step false false), (0, .step false false), (0, .step false false),
        (0, .step false false), (1, .step false false)])
    (by decide)
  exact ⟨s, hs, hp, (locks_exclusive hs).1⟩

/-- The first transaction releases its lock. Before the entry is pruned, the second one clones it
out of the map; after, it locks the clone and gets its grant there. -/
def orphanActs : List (Fin 3 × Act) :=
  [(0, .begin), (1, .begin), (2, .begin)] ++ acquireActs 0 3 ++ [(0, .step false false)] ++
    [(0, .release (.relation 1) .accessExclusive), (0, .step false false),
      (0, .step false false)] ++
    acquireActs 1 4 ++ [(0, .step false false), (1, .step false false)] ++
    acquireActs 2 5 ++ [(2, .step false false)]

/-- **Pruning under an acquirer gives one lock to two.** The second and the third transaction hold
ACCESS EXCLUSIVE on the same relation. When the second one then releases its lock, the call returns
and the grant is still in memory. -/
theorem two_holders_of_one_lock :
    (∃ s, (machine oneShard 3).Reach Machine.Always s ∧
      ∃ g ∈ (s.loc 1).held (.relation 1), ∃ g' ∈ (s.loc 2).held (.relation 1),
        g.mode.conflictsWith g'.mode = true) ∧
    ∃ s, (machine oneShard 3).Reach Machine.Always s ∧
      (s.loc 1).held (.relation 1) = [] ∧
      ∃ g ∈ (s.shared.mgr.table.entries 0).grants, g.xid = 4 := by
  constructor
  · exact Machine.exists_reach_of_runIf orphanActs (by decide)
  · refine Machine.exists_reach_of_runIf (orphanActs ++
      [(1, .release (.relation 1) .accessExclusive), (1, .step false false), (1, .step false false),
        (1, .step false false), (1, .step false false)]) (by decide)

end UltraSql.Locks
