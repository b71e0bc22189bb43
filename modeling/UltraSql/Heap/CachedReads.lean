import UltraSql.Heap.CacheInv

/-!
# Reads from the column cache

**Theorem (`served_eq_scan`).** What the cache serves to a session is what a heap scan under the
session's snapshot reads, in every run in which heap scans read what they should, no scan passes the
gate by a savepoint of its own transaction that is newer than its snapshot, and no transaction that
has written ends without an invalidation while a projection is there and another transaction is the
last writer.

**Counterexamples (`rolled_back_row_is_served`, `disconnected_row_is_served`,
`committed_row_is_missing`).** ROLLBACK PREPARED, or the end of a connection, leaves a projection
with the rows that are rolled back. A transaction at REPEATABLE READ publishes a projection without
rows that have been committed after its snapshot.
-/

namespace UltraSql.CachedHeap

open Function Heap
open Timeline (Client)
open Savepoints (Own txnXids mem_txnXids)
open Option (mem_unique map_eq_some_iff)

variable {s s' : State} {t t' : Timeline.State} {a : Act} {x y z b k w : ℕ} {c d d' : Client}
  {st : Stamp} {rows : List Payload}

/-! ## Steps that leave the heap alone -/

theorem Sound.congr (hs : Sound s b k w) (hheap : s'.heap = s.heap)
    (hlast : s'.cache.lastWriterXid = s.cache.lastWriterXid) (hpend : s'.pending = s.pending) :
    Sound s' b k w := by
  refine ⟨hheap ▸ hs.client, fun st hst => ?_, ?_⟩
  · rw [hheap] at hst
    cases hs.covered st hst with
    | past he hlt => exact .past (hheap ▸ he) hlt
    | own ho hk hx => exact .own ho hk (hlast ▸ hx)
    | pending hz hk => exact .pending (hpend ▸ hz) hk
  · rw [hlast, hheap]
    exact hs.writer

theorem Building.congr {i : Build} (hb : Building s i c) (hheap : s'.heap = s.heap)
    (hversion : s'.cache.version = s.cache.version)
    (hlast : s'.cache.lastWriterXid = s.cache.lastWriterXid) (hpend : s'.pending = s.pending)
    (hjob : s'.job i.session = .ready → s.job i.session = .ready) : Building s' i c := by
  refine ⟨hheap ▸ hb.client, hb.command, hversion ▸ hb.version, fun hv hst hj hp hk => ?_⟩
  obtain ⟨⟨w, hs⟩, himage⟩ := hb.gated (hv.trans hversion) hst (hjob hj) hp hk
  rw [State.image, hheap]
  exact ⟨⟨w, hs.congr hheap hlast hpend⟩, himage⟩

/-- A step leaves the heap and the session `x` alone. -/
structure Alike (s s' : State) (x : ℕ) : Prop where
  heap : s'.heap = s.heap
  job : s'.job x = s.job x
  modified : s'.modified x = s.modified x
  prepared : s'.prepared x = s.prepared x

theorem Pends.congr (h : Pends s x z c) (hs : Alike s s' x) : Pends s' x z c :=
  ⟨hs.heap ▸ h.client, h.xid, h.opened, hs.job ▸ h.job, hs.job ▸ h.write⟩

theorem Valid.congr (h : Valid s b k rows) (hs : Alike s s' b)
    (hlast : s'.cache.lastWriterXid = s.cache.lastWriterXid) : Valid s' b k rows := by
  obtain ⟨hheap, hjob, hmod, hprep⟩ := hs
  cases s'
  cases hheap
  cases h with
  | image h hk =>
    refine .image h ⟨fun c hc hopen hn hst => ?_, fun path hj => ?_, hk.aborted⟩
    · exact hmod.trans (hk.modified c hc hopen (hprep.symm.trans hn) hst)
    · exact hk.invalidated path (hjob.symm.trans hj)
  | restoring c hc hopen hj hm hle =>
    exact .restoring c hc hopen (hjob.trans hj) (hmod.trans hm) (hlast ▸ hle)
  | blocked y d hd hp hown => exact .blocked y d hd hp (hlast ▸ hown)

/-- A step of the session `x` that has to do with the session only. -/
structure SessionStep (s : State) (x : ℕ) (j : Job) (modified prepared : Bool) : Prop where
  ready : j ≠ .ready
  tracked : ∀ st ∈ s.heap.stamps, st.owner = x → ∀ c, s.heap.txn.clients.lookup x = some c →
    (c.phase = .running ∨ ∃ todo, c.phase = .undoing todo) → Own c.handle st.xid →
      modified = true ∨ prepared = true ∨
        (j = .writing ∨ j = .failed) ∧ st.xid = c.handle.writeXid
  ending : ∀ path i, j = .ending path i → prepared = s.prepared x ∧
    ∃ i₀, s.job x = .ending path i₀

/-- The state after such a step. -/
def State.turn (s : State) (x : ℕ) (j : Job) (modified prepared : Bool) : State :=
  { s with
    job := update s.job x j
    modified := update s.modified x modified
    prepared := update s.prepared x prepared }

section Turn

variable {j : Job} {m p : Bool} (hi : Inv s) (hstep : SessionStep s x j m p)

include hi hstep

omit hi hstep in
theorem alike_turn (hy : y ≠ x) : Alike s (s.turn x j m p) y :=
  ⟨rfl, update_of_ne hy _ _, update_of_ne hy _ _, update_of_ne hy _ _⟩

theorem Inv.ending_turn {path : AbortPath} {i : Bool}
    (hj : (s.turn x j m p).job y = .ending path i) : ∃ c,
      s.heap.txn.clients.lookup y = some c ∧ Failed c ∧
      (path ≠ .prepared → (s.turn x j m p).prepared y = false) := by
  by_cases hy : y = x
  · subst hy
    simp only [State.turn, update_self] at hj ⊢
    obtain ⟨hprep, i₀, hj₀⟩ := hstep.ending path i hj
    rw [hprep]
    exact hi.ending y path i₀ hj₀
  · simp only [State.turn, update_of_ne hy] at hj ⊢
    exact hi.ending y path i hj

section

variable (hst : st ∈ s.heap.stamps) (hc : s.heap.txn.clients.lookup st.owner = some c)
include hst hc

theorem Inv.tracked_turn (hopen : c.phase = .running ∨ ∃ todo, c.phase = .undoing todo)
    (hown : Own c.handle st.xid) :
    (s.turn x j m p).modified st.owner = true ∨ (s.turn x j m p).prepared st.owner = true ∨
      ((s.turn x j m p).job st.owner = .writing ∨ (s.turn x j m p).job st.owner = .failed) ∧
        st.xid = c.handle.writeXid := by
  by_cases ho : st.owner = x
  · simp only [State.turn, ho, update_self]
    exact hstep.tracked st hst ho c (ho ▸ hc) hopen hown
  · simp only [State.turn, update_of_ne ho]
    exact hi.tracked st hst c hc hopen hown

theorem Inv.fresh_turn (hj : (s.turn x j m p).job st.owner = .ready) :
    st.command < c.handle.currentCommand := by
  by_cases ho : st.owner = x
  · simp only [State.turn, ho, update_self] at hj
    exact absurd hj hstep.ready
  · simp only [State.turn, update_of_ne ho] at hj
    exact hi.fresh st hst c hc hj

end

omit hi in
theorem Building.turn {i : Build} (hb : Building s i c) : Building (s.turn x j m p) i c := by
  refine hb.congr rfl rfl rfl rfl fun hj => ?_
  have hne : i.session ≠ x := fun h => by
    simp only [State.turn, h, update_self] at hj
    exact hstep.ready hj
  exact (alike_turn hne).job.symm.trans hj

/-- **A step of a session keeps the invariant**, as long as it keeps its own writes invalidated. -/
theorem Inv.turn (hpend : s.pending x = none)
    (hmod : p = false → s.prepared x = false ∧ (s.modified x = true → m = true))
    (hinv : ∀ path, j = .ending path true → ∀ k, Kept s x k → ¬ Stamped s x k)
    (hres : s.job x = .restoring → s.modified x = false) : Inv (s.turn x j m p) := by
  refine ⟨hi.heap, hi.written, fun y z hz => ?_,
    fun st hst c hc hj => hi.fresh_turn hstep hst hc hj,
    fun st hst c hc => hi.tracked_turn hstep hst hc, fun y path i => hi.ending_turn hstep,
    hi.writer, fun e he => ?_, fun l i hl => ?_⟩
  · have hne : y ≠ x := by
      rintro rfl
      cases hpend.symm.trans hz
    obtain ⟨c, hc⟩ := hi.pending y z hz
    exact ⟨c, hc.congr (alike_turn hne)⟩
  · obtain ⟨hv, b, k, w, hs, hvalid⟩ := hi.entry e he
    refine ⟨hv, b, k, w, hs.congr rfl rfl rfl, ?_⟩
    by_cases hb : b = x
    · subst hb
      cases hvalid with
      | image h hk =>
        refine .image h ⟨fun c hc hopen hn hst => ?_, fun path hj => ?_, hk.aborted⟩
        · simp only [State.turn, update_self] at hn ⊢
          exact (hmod hn).2 (hk.modified c hc hopen (hmod hn).1 hst)
        · simp only [State.turn, update_self] at hj
          exact hinv path hj k hk
      | restoring c hc hopen hj hm =>
        rw [hres hj] at hm
        cases hm
      | blocked y d hd hp hown => exact .blocked y d hd hp hown
    · exact hvalid.congr (alike_turn hb) rfl
  · obtain ⟨c, hc⟩ := hi.builds l i hl
    exact ⟨c, hc.turn hstep⟩

omit hi hstep in
/-- A bump leaves no scan behind that could publish what it has read. -/
theorem exists_building_of_bump {i : Build} (hb : ∃ c, Building s i c) (hheap : s'.heap = s.heap)
    (hv : s'.cache.version = s.cache.version + 1) : ∃ c, Building s' i c := by
  obtain ⟨c, hc⟩ := hb
  have hlt := hc.version
  refine ⟨c, hheap ▸ hc.client, hc.command, by omega, fun h => ?_⟩
  omega

theorem Inv.bump (hz : ∃ y d, s.heap.txn.clients.lookup y = some d ∧ z ∈ txnXids d.handle)
    (hmax : ∀ z', s.pending x = some z' → z' ≤ z) :
    Inv { s.turn x j m p with
      cache := s.cache.bumpVersion z, pending := update s.pending x none } := by
  have hlast : s.cache.lastWriterXid ≤ (s.cache.bumpVersion z).lastWriterXid ∧
      z ≤ (s.cache.bumpVersion z).lastWriterXid := by
    simp only [ColumnCache.bumpVersion]
    split_ifs <;> omega
  refine ⟨hi.heap, fun st hst => ?_, fun y z' hz' => ?_,
    fun st hst c hc hj => hi.fresh_turn hstep hst hc hj,
    fun st hst c hc => hi.tracked_turn hstep hst hc, fun y path i => hi.ending_turn hstep, ?_,
    nofun,
    fun l i hl => exists_building_of_bump (hi.builds l i hl) rfl rfl⟩
  · rcases hi.written st hst with h | ⟨z', hz', hle⟩
    · exact .inl (h.trans hlast.1)
    · by_cases ho : st.owner = x
      · exact .inl ((hle.trans (hmax z' (ho ▸ hz'))).trans hlast.2)
      · exact .inr ⟨z', (update_of_ne ho _ _).trans hz', hle⟩
  · have hz'' : update s.pending x none y = some z' := hz'
    by_cases hy : y = x
    · rw [hy, update_self] at hz''
      cases hz''
    · rw [update_of_ne hy] at hz''
      obtain ⟨c, hc⟩ := hi.pending y z' hz''
      have hsame := alike_turn (s := s) (j := j) (m := m) (p := p) hy
      exact ⟨c, hc.congr ⟨rfl, hsame.job, hsame.modified, hsame.prepared⟩⟩
  · simp only [ColumnCache.bumpVersion]
    split_ifs
    · exact .inr hz
    · exact hi.writer

end Turn

/-! ## The gate -/

section Gate

variable (hi : Inv s) (hc : s.heap.txn.clients.lookup x = some c)

include hi hc

theorem Inv.coherent_iff :
    s.cache.isSnapshotCoherent c.handle.snapshot s.heap.txn.mgr.status = true ↔
      c.handle.snapshot.xip = [] ∧ (s.cache.lastWriterXid = 0 ∨
        Own c.handle s.cache.lastWriterXid ∨
        c.handle.snapshot.xidInProgress s.cache.lastWriterXid = false ∧
          (s.heap.txn.mgr.status s.cache.lastWriterXid).isCommitted = true) := by
  have hown := (own_xid_iff (z := s.cache.lastWriterXid) hi.heap.inv.txn hc).1
  unfold ColumnCache.isSnapshotCoherent
  cases hx : c.handle.snapshot.xip with
  | cons y xip => simp
  | nil => simp [← hown, Xid.isInvalid_iff, or_assoc]

/-- Without transactions in progress, what began before the snapshot had ended. -/
theorem Inv.ended_of_lt (hxip : c.handle.snapshot.xip = [])
    (hd : s.heap.txn.clients.lookup y = some d) (hne : y ≠ x)
    (hlt : y < c.handle.snapshot.xmax) : ∃ e, s.heap.txn.ended y = some e ∧ e < c.view := by
  have hy := (hi.heap.inv.txn.client y d hd).self_mem
  refine (hi.heap.inv.txn.resolved x y c d hc hd hne.symm y hy).1 ?_
  rw [← Bool.not_eq_true, Snapshot.xidInProgress_iff, hxip]
  rintro ⟨-, h | h⟩
  · omega
  · cases h

theorem Inv.lt_xmax_of_resolved (h : c.handle.snapshot.xidInProgress z = false) :
    z < c.handle.snapshot.xmax := by
  rw [← Bool.not_eq_true, Snapshot.xidInProgress_iff] at h
  have := (hi.heap.inv.txn.client x c hc).bounds.1
  by_contra hge
  exact h ⟨by omega, .inl (by omega)⟩

omit hc in
theorem Inv.owner_le (hst : st ∈ s.heap.stamps) (hn : s.pending st.owner = none) :
    st.owner ≤ s.cache.lastWriterXid ∧ s.cache.lastWriterXid ≠ 0 := by
  obtain ⟨d, hd, hx, -⟩ := hi.heap.inv.held hst
  have hci := hi.heap.inv.txn.client _ d hd
  have h₁ := hci.least _ hx
  have h₂ := (hci.range _ hx).1
  rcases hi.written st hst with h | ⟨z, hz, -⟩
  · omega
  · rw [hn] at hz
    cases hz

/-- **What the gate finds out**, if a last writer of the reader's own is older than its snapshot. -/
theorem Inv.sound_of_coherent (hj : s.job x = .ready)
    (hcoh : s.cache.isSnapshotCoherent c.handle.snapshot s.heap.txn.mgr.status = true)
    (hown : Own c.handle s.cache.lastWriterXid →
      s.cache.lastWriterXid < c.handle.snapshot.xmax) :
    Sound s x c.handle.currentCommand c.view := by
  obtain ⟨hxip, hlast⟩ := (hi.coherent_iff hc).1 hcoh
  have hlt : s.cache.lastWriterXid ≠ 0 → s.cache.lastWriterXid < c.handle.snapshot.xmax := by
    intro hne
    rcases hlast with h | h | ⟨h, -⟩
    · exact absurd h hne
    · exact hown h
    · exact hi.lt_xmax_of_resolved hc h
  refine ⟨⟨c, hc, le_rfl, le_rfl⟩, fun st hst => ?_, ?_⟩
  · obtain ⟨d, hd, hx, -⟩ := hi.heap.inv.held hst
    by_cases ho : st.owner = x
    · refine .own ho (hi.fresh st hst c (ho ▸ hc) (ho ▸ hj)) ?_
      refine (hi.written st hst).resolve_right ?_
      rintro ⟨z, hz, -⟩
      rw [hi.pending_eq_none (.inr (.inr (ho ▸ hj)))] at hz
      cases hz
    · cases hpend : s.pending st.owner with
      | some z => exact .pending hpend fun h => absurd h ho
      | none =>
        obtain ⟨hle, hne⟩ := hi.owner_le hst hpend
        obtain ⟨e, he, hlt'⟩ := hi.ended_of_lt hc hxip hd ho (hle.trans_lt (hlt hne))
        exact .past he hlt'
  · rcases hlast with h | h | ⟨h, -⟩
    · exact .inl h
    · exact .inr (.inr ⟨c, hc, h⟩)
    · rcases hi.writer with h₀ | ⟨y, d, hd, hx⟩
      · exact .inl h₀
      · by_cases hyx : y = x
        · subst hyx
          obtain rfl := mem_unique hc hd
          rcases mem_txnXids.1 hx with ho | hr
          · exact .inr (.inr ⟨c, hc, ho⟩)
          · have := ((hi.heap.inv.txn.client y c hc).rolled _ hr).2
            exact .inr (.inl (Option.ne_none_iff_exists'.1 this))
        · obtain ⟨e, he, -⟩ :=
            (hi.heap.inv.txn.resolved x y c d hc hd (Ne.symm hyx) _ hx).1 h
          exact .inr (.inl ⟨e, he⟩)

variable (hp : c.phase = .running) (hj : s.job x = .ready)

include hp hj

/-- **A heap scan reads what is expected** of a session at the start of a statement. -/
theorem Inv.scan_eq : s.heap.scan c.handle.snapshot =
    s.heap.slots.filterMap (·.expected (sees s.heap.txn x c.handle.currentCommand)) := by
  have hci := hi.heap.inv.txn.client x c hc
  refine List.filterMap_congr fun sl hsl => ?_
  have hs := hi.heap.inv.slot sl hsl
  rw [← snapshotAt_current hci.command]
  refine (hi.heap.shape sl hsl).read_eq hs (hi.heap.chain sl hsl) hi.heap.inv.txn hc hp ?_
  intro hcur hu u hmem
  -- the row is the reader's own, and so are the updates of it
  have ho : sl.inserted.owner = x := by
    by_contra hne
    have := (foreign_xid hi.heap.inv.txn hc hs.heldInsert hne).1
    rw [← hs.xmin] at this
    exact absurd (this.symm.trans hcur) nofun
  rw [hs.undo] at hmem
  obtain ⟨w, hw, hr⟩ := List.mem_filterMap.1 hmem
  obtain ⟨-, -, hk, -⟩ := record?_eq_some hr
  have hlive := (mem_updates.1 hw).1
  have hwo := (hs.own_of_ownInsert hc hp ho hlive).1
  have hst : w.stamp ∈ s.heap.stamps := mem_stamps.2 ⟨sl, hsl,
    Heap.Slot.mem_stamps.2 (.inr ⟨w, (mem_live.1 hlive).1, rfl⟩)⟩
  rw [hk]
  exact hi.fresh _ hst c (hwo ▸ hc) (hwo ▸ hj)

omit hp in
/-- A write whose bump is pending is seen by no other session. -/
theorem Inv.not_committed_of_pending (hz : s.pending y = some z)
    (hd : s.heap.txn.clients.lookup y = some d) : y ≠ x ∧ d.phase ≠ .committed := by
  obtain ⟨c', hc'⟩ := hi.pending y z hz
  obtain rfl := mem_unique hd hc'.client
  refine ⟨?_, fun h => ?_⟩
  · rintro rfl
    rw [hi.pending_eq_none (.inr (.inr hj))] at hz
    cases hz
  · have := hc'.opened
    rw [h] at this
    cases this

/-- **The builder of a projection sees what is in it.** -/
theorem Sound.sees_builder (hs : Sound s x k w) (hst : st ∈ s.heap.stamps) :
    sees s.heap.txn x c.handle.currentCommand st = counts s.heap.txn x k st := by
  obtain ⟨c₀, hc₀, hk, hw⟩ := hs.client
  obtain rfl := mem_unique hc hc₀
  obtain ⟨d, hd, -⟩ := hi.heap.inv.held hst
  rw [Bool.eq_iff_iff, counts_iff hd]
  cases hs.covered st hst with
  | past he hlt =>
    have ho : st.owner ≠ x := hi.heap.inv.txn.ne_of_ended hc hp he
    rw [if_neg ho, sees_foreign hc hd ho]
    exact ⟨fun h => ⟨h.2.1, h.1⟩, fun h => ⟨h.2, h.1, _, he, hlt.trans_le hw⟩⟩
  | own ho hk' _ =>
    rw [if_pos ho, sees_own hc ho]
    rw [ho, hc] at hd
    cases hd
    exact ⟨fun h => ⟨h.1, hk'⟩, fun h => ⟨h.1, hk'.trans_le hk⟩⟩
  | pending hz _ =>
    obtain ⟨ho, hcom⟩ := hi.not_committed_of_pending hc hj hz hd
    rw [if_neg ho, sees_foreign hc hd ho]
    exact ⟨fun h => absurd h.1 hcom, fun h => absurd h.2 hcom⟩

end Gate

/-! ## Whole runs -/

/-- A step of the heap is one of a history in which heap scans read what they should. -/
def OrderlyHeap (s : State) (a : Act) : Prop :=
  ∀ act ∈ a.heapAct, Heap.ReadSafe s.heap act

instance : DecidableRel OrderlyHeap := fun s a => by
  unfold OrderlyHeap
  infer_instance

/-- A scan does not pass the gate by a savepoint of its own transaction that is newer than its
snapshot. -/
def GateSeesWriters (s : State) (a : Act) : Prop :=
  match a with
  | .gate i =>
    ∀ b ∈ s.builds i, ∀ c ∈ s.heap.txn.clients.lookup b.session,
      c.handle.snapshot.isCurrentXid s.cache.lastWriterXid = true →
        s.cache.lastWriterXid < c.handle.snapshot.xmax
  | _ => True

instance : DecidableRel GateSeesWriters := fun s a => by
  unfold GateSeesWriters
  split <;> infer_instance

/-- A transaction that has written does not end without an invalidation, by a COMMIT that fails or
in a failed block, by ROLLBACK PREPARED or by the end of its connection, while there is a projection
and another transaction is the last writer. -/
def EndsUnread (s : State) (a : Act) : Prop :=
  match a with
  | .abort x =>
    s.EndsFirst x → s.cache.get = none ∨ (∀ st ∈ s.heap.stamps, st.owner ≠ x) ∨
        ∀ c ∈ s.heap.txn.clients.lookup x,
          c.handle.snapshot.isCurrentXid s.cache.lastWriterXid = true
  | _ => True

instance : DecidableRel EndsUnread := fun s a =>
  match a with
  | .abort _ => by delta EndsUnread; infer_instance
  | .txn _ | .write _ | .bump _ | .finish _ | .fail _ | .prepare _ | .rollback .. | .visit _
  | .invalidate _ | .vacuum _ | .sample .. | .gate _ | .scan _ | .put _ => isTrue trivial

def Transparent (s : State) (a : Act) : Prop :=
  OrderlyHeap s a ∧ GateSeesWriters s a ∧ EndsUnread s a

instance : DecidableRel Transparent := fun _ _ => inferInstanceAs (Decidable (_ ∧ _))

theorem inv_init : Inv {} :=
  ⟨orderly_init, nofun, nofun, nofun, nofun, nofun, .inl rfl, nofun, nofun⟩

theorem onBuild_eq_some {i : ℕ} {f : Build → Client → Option State}
    (h : s.onBuild i f = some s') : ∃ b c, s.builds i = some b ∧
      s.heap.txn.clients.lookup b.session = some c ∧ c.phase = .running ∧
      s.job b.session = .ready ∧ c.handle.currentCommand = b.command ∧ f b c = some s' := by
  unfold State.onBuild at h
  split at h
  · rename_i b hb
    split at h
    · rename_i c hc
      split_ifs at h with hcond
      obtain ⟨hlook, hp⟩ := running_eq_some.1 hc
      exact ⟨b, c, hb, hlook, hp, hcond.1, hcond.2, h⟩
    · cases h
  · cases h

theorem State.turn_self (s : State) (x : ℕ) :
    s.turn x (s.job x) (s.modified x) (s.prepared x) = s := by
  simp [State.turn]

section

variable (hi : Inv s)
include hi

/-- A step that has to do with the scan `j` only. -/
theorem Inv.setBuild (j : ℕ) {o : Option Build} (ho : ∀ i, o = some i → ∃ c, Building s i c) :
    Inv { s with builds := update s.builds j o } := by
  have hb : ∀ {i c}, Building s i c →
      Building { s with builds := update s.builds j o } i c := fun hb =>
    hb.congr rfl rfl rfl rfl id
  refine { hi with
    pending := fun x z hz => ?_, entry := fun e he => ?_, builds := fun l i hl => ?_ }
  · obtain ⟨c, hc⟩ := hi.pending x z hz
    exact ⟨c, hc.congr ⟨rfl, rfl, rfl, rfl⟩⟩
  · obtain ⟨hv, b, k, w, hs, hvalid⟩ := hi.entry e he
    exact ⟨hv, b, k, w, hs.congr rfl rfl rfl, hvalid.congr ⟨rfl, rfl, rfl, rfl⟩ rfl⟩
  · by_cases hlj : l = j
    · subst hlj
      obtain ⟨c, hc⟩ := ho i ((update_self l o s.builds).symm.trans hl)
      exact ⟨c, hb hc⟩
    · obtain ⟨c, hc⟩ := hi.builds l i ((update_of_ne hlj _ _).symm.trans hl)
      exact ⟨c, hb hc⟩

theorem Inv.setEntry {e : CachedColumns} (hv : e.version = s.cache.version) (hs : Sound s b k w)
    (hvalid : Valid s b k e.rows) : Inv { s with cache := { s.cache with entry := some e } } := by
  refine { hi with
    pending := fun x z hz => ?_, entry := fun e' he' => ?_, builds := fun l i hl => ?_ }
  · obtain ⟨c, hc⟩ := hi.pending x z hz
    exact ⟨c, hc.congr ⟨rfl, rfl, rfl, rfl⟩⟩
  · cases he'
    exact ⟨hv, b, k, w, hs.congr rfl rfl rfl, hvalid.congr ⟨rfl, rfl, rfl, rfl⟩ rfl⟩
  · obtain ⟨c, hc⟩ := hi.builds l i hl
    exact ⟨c, hc.congr rfl rfl rfl rfl id⟩

/-- The session goes on to keep track of what it has written. -/
theorem Inv.sessionStep {j : Job} {m p : Bool} (hready : j ≠ .ready)
    (hmod : s.modified x = true → m = true ∨ p = true) (hprep : s.prepared x = true → p = true)
    (hjob : s.job x = .writing ∨ s.job x = .failed →
      m = true ∨ p = true ∨ j = .writing ∨ j = .failed)
    (hend : ∀ path i, j = .ending path i → p = s.prepared x ∧ ∃ i₀, s.job x = .ending path i₀) :
    SessionStep s x j m p := by
  refine ⟨hready, fun st hst ho c hc hopen hown => ?_, hend⟩
  subst ho
  rcases hi.tracked st hst c hc hopen hown with h | h | ⟨h, hx⟩
  · exact (hmod h).imp_right .inl
  · exact .inr (.inl (hprep h))
  · exact (hjob h).imp_right (Or.imp_right fun h => ⟨h, hx⟩)

theorem Inv.sessionStep_invalidate
    (hj : s.job x = .restoring ∨ ∃ path, s.job x = .ending path false) :
    SessionStep s x (s.job x).invalidated (s.modified x) (s.prepared x) := by
  refine hi.sessionStep ?_ .inl id (fun h => ?_) fun path i h => ⟨rfl, ?_⟩
  · rcases hj with hj | ⟨path, hj⟩ <;> rw [hj] <;> nofun
  · rcases hj with hj | ⟨path, hj⟩ <;> rw [hj] at h <;> rcases h with h | h <;> cases h
  · rcases hj with hj | ⟨path', hj⟩
    · rw [hj] at h
      cases h
    · rw [hj] at h ⊢
      cases h
      exact ⟨false, rfl⟩

/-- An invalidation that finds nothing to do. -/
theorem Inv.not_stamped_of_invalidate
    (hj : s.job x = .restoring ∨ ∃ path, path ≠ .prepared ∧ s.job x = .ending path false)
    (hm : s.modified x = false) {path : AbortPath} (h : (s.job x).invalidated = .ending path true)
    (hk : Kept s x k) : ¬ Stamped s x k := by
  intro hst
  rcases hj with hj | ⟨path', hpath, hj⟩
  · rw [hj] at h
    cases h
  · obtain ⟨c, hc, hf, hprep⟩ := hi.ending x path' false hj
    rcases hf with hf | ⟨todo, hf⟩
    · exact hk.aborted c hc hf hst
    · have := hk.modified c hc (by rw [hf]; rfl) (hprep hpath) hst
      rw [hm] at this
      cases this

/-- **A step that leaves the heap alone keeps the invariant.** -/
theorem Inv.stepLocal (hen : s.Enabled a) (hgate : GateSeesWriters s a)
    (h : s.stepLocal a = some s') : Inv s' := by
  cases a with
  | bump x =>
    obtain ⟨z, hz, rfl⟩ := map_eq_some_iff.1 h
    obtain ⟨c, hc⟩ := hi.pending x z hz
    have hstep : SessionStep s x (s.job x) (s.modified x) (s.prepared x) := by
      refine hi.sessionStep ?_ .inl id (fun h => .inr (.inr h)) fun path i hj => ⟨rfl, i, hj⟩
      rcases hc.job with hj | hj | ⟨path, i, hj⟩ <;> rw [hj] <;> nofun
    have := hi.bump hstep ⟨x, c, hc.client, hc.xid⟩ fun z' hz' =>
      (mem_unique hz' hz).le
    rw [State.turn_self] at this
    exact this
  | finish x =>
    cases h
    obtain ⟨hj, hn⟩ := hen
    have hstep : SessionStep s x .idle (s.modified x || decide (s.job x = .writing))
        (s.prepared x) := by
      refine hi.sessionStep nofun (fun h => .inl (by rw [h]; rfl)) id (fun h => .inl ?_) nofun
      rcases h with h | h
      · simp [h]
      · rcases hj with hj | hj <;> rw [hj] at h <;> cases h
    have := hi.turn hstep hn (fun h => ⟨h, fun h => by rw [h]; rfl⟩) nofun fun h => ?_
    · simpa [State.turn] using this
    · rcases hj with hj | hj <;> rw [hj] at h <;> cases h
  | fail x =>
    cases h
    obtain ⟨hj, hn⟩ := hen
    have hstep : SessionStep s x .failed (s.modified x) (s.prepared x) :=
      hi.sessionStep nofun .inl id (fun _ => .inr (.inr (.inr rfl))) nofun
    have := hi.turn hstep hn (fun h => ⟨h, id⟩) nofun fun h => ?_
    · simpa [State.turn] using this
    · rcases hj with hj | hj <;> rw [hj] at h <;> cases h
  | prepare x =>
    cases h
    have hj := hen.1
    have hstep : SessionStep s x (s.job x) false true := by
      rw [hj]
      exact ⟨nofun, fun _ _ _ _ _ _ _ => .inr (.inl rfl), nofun⟩
    have := hi.turn hstep (hi.pending_eq_none (.inl hj)) nofun
      (fun _ h => nomatch hj.symm.trans h) fun h => nomatch hj.symm.trans h
    simpa [State.turn] using this
  | invalidate x =>
    cases h
    obtain ⟨hn, hjob⟩ := hen
    have hj : s.job x = .restoring ∨ ∃ path, path ≠ .prepared ∧ s.job x = .ending path false := by
      rcases hjob with ⟨h, -⟩ | ⟨h, -⟩ | h | ⟨h, -⟩
      · exact .inl h
      · exact .inr ⟨.rollback, nofun, h⟩
      · exact .inr ⟨.error, nofun, h⟩
      · exact .inr ⟨.failedCommit, nofun, h⟩
    have hstep := hi.sessionStep_invalidate (hj.imp_right fun ⟨path, _, h⟩ => ⟨path, h⟩)
    have hknown : ∃ c, s.heap.txn.clients.lookup x = some c := by
      rcases hjob with ⟨-, h⟩ | ⟨-, h⟩ | h | ⟨-, h⟩
      · exact (map_eq_some_iff.1 h).imp fun c hc => hc.1
      · exact (map_eq_some_iff.1 h).imp fun c hc => hc.1
      · exact (hi.ending x _ _ h).imp fun c hc => hc.1
      · exact (map_eq_some_iff.1 h).imp fun c hc => hc.1
    obtain ⟨c, hc⟩ := hknown
    cases hm : s.modified x with
    | true =>
      have hx := (hi.heap.inv.txn.client x c hc).self_mem
      have := hi.bump (z := x) hstep ⟨x, c, hc, hx⟩ fun z' hz' => by
        rw [hn] at hz'
        cases hz'
      rw [← hn, update_eq_self] at this
      simpa [State.turn] using this
    | false =>
      have := hi.turn hstep hn (fun h => ⟨h, id⟩)
        (fun _ h _ hk => hi.not_stamped_of_invalidate hj hm h hk) fun _ => hm
      simpa [State.turn] using this
  | sample i x =>
    simp only [State.stepLocal] at h
    split at h
    · rename_i c hc
      split_ifs at h with hj
      cases h
      refine hi.setBuild i fun b hb => ?_
      cases hb
      exact ⟨c, (running_eq_some.1 hc).1, le_rfl, le_rfl, fun _ hst => absurd rfl hst⟩
    · cases h
  | gate i =>
    obtain ⟨b, c, hb, hc, hp, hj, hk, h⟩ := onBuild_eq_some h
    split_ifs at h with hst
    cases h
    refine hi.setBuild i fun b' hb' => ?_
    obtain ⟨c₀, hold⟩ := hi.builds i b hb
    split_ifs at hb' with hcoh
    cases hb'
    refine ⟨c, hc, hk.ge, hold.version, fun _ _ _ _ _ => ⟨⟨c.view, ?_⟩, nofun⟩⟩
    have hs := hi.sound_of_coherent hc hj hcoh fun hown => hgate b hb c hc
      ((own_xid_iff hi.heap.inv.txn hc).1.2 hown)
    rw [hk] at hs
    exact hs
  | scan i =>
    obtain ⟨b, c, hb, hc, hp, hj, hk, h⟩ := onBuild_eq_some h
    split_ifs at h with hst
    cases h
    refine hi.setBuild i fun b' hb' => ?_
    obtain ⟨c₀, hold⟩ := hi.builds i b hb
    obtain rfl := mem_unique hc hold.client
    cases hb'
    refine ⟨c, hc, hold.command, hold.version, fun hv _ _ _ _ => ?_⟩
    obtain ⟨⟨w, hs⟩, -⟩ := hold.gated hv (by rw [hst]; nofun) hj hp hk
    refine ⟨⟨w, hs⟩, fun rows hrows => ?_⟩
    cases hrows
    rw [hi.scan_eq hc hp hj]
    refine List.filterMap_congr fun sl hsl => Heap.Slot.expected_congr fun st hst => ?_
    exact hs.sees_builder hi hc hp hj (mem_stamps.2 ⟨sl, hsl, hst⟩)
  | put i =>
    obtain ⟨b, c, hb, hc, hp, hj, hk, h⟩ := onBuild_eq_some h
    obtain ⟨c₀, hold⟩ := hi.builds i b hb
    obtain rfl := mem_unique hc hold.client
    split at h <;> cases h
    rename_i rows hst
    unfold ColumnCache.put
    split_ifs with hv
    · exact hi.setBuild i nofun
    · rw [ne_eq, not_not] at hv
      obtain ⟨⟨w, hs⟩, himage⟩ := hold.gated hv (by rw [hst]; nofun) hj hp hk
      refine (hi.setEntry hv hs (.image (himage rows hst) ?_)).setBuild i nofun
      refine ⟨fun c' hc' hopen hn hstamped => ?_, fun path h => ?_, fun c' hc' hpc => ?_⟩
      · -- the statements that have written have succeeded
        obtain ⟨st, hmem, ho, hcount⟩ := hstamped
        rw [← ho] at hc hj hn ⊢
        have hown := ((counts_iff hc).1 hcount).1
        rcases hi.tracked st hmem c hc (.inl hp) hown with h | h | ⟨h, -⟩
        · exact h
        · rw [hn] at h
          cases h
        · rcases h with h | h <;> rw [hj] at h <;> cases h
      · rw [hj] at h
        cases h
      · obtain rfl := mem_unique hc hc'
        rw [hp] at hpc
        cases hpc
  | _ => cases h

theorem Inv.step (hcond : Transparent s a) (h : step s a = some s') : Inv s' := by
  obtain ⟨hheap, hgate, hend⟩ := hcond
  obtain ⟨hen, ⟨act, h', ha, hh, rfl⟩ | h⟩ := step_cases h
  · have hact := hheap act ha
    have hord := hi.heap.step hact.1 hact.2.1 hact.2.2.1 hact.2.2.2 hh
    refine hi.afterHeap hact.1 hen ha hh hord.inv.txn hord fun b k hget hab hj => ?_
    subst hab
    rcases hend hj with h | h | h
    · exact absurd h hget
    · exact .inl fun ⟨st, hst, ho, _⟩ => h st hst ho
    · exact .inr fun c hc => (own_xid_iff hi.heap.inv.txn hc).1.1 (h c hc)
  · exact hi.stepLocal hen hgate h

end

/-- A transaction begins. -/
def opening (x : ℕ) (isolation : IsolationLevel) : List Act :=
  (Timeline.opening x isolation).map .txn

/-- What the cache serves to a session at the start of a statement, and what a heap scan reads. -/
def State.served (s : State) (x : ℕ) : Option (List Payload × List Payload) :=
  match s.heap.running x, s.job x with
  | some c, .ready =>
    (s.cache.getForSnapshot c.handle.snapshot s.heap.txn.mgr.status).map fun columns =>
      (columns.rows, s.heap.scan c.handle.snapshot)
  | _, _ => none

/-- The transaction 3 begins before 4 and inserts after 4 has committed, so that 4 stays the last
writer. It publishes a projection with its own row. -/
def uncommittedProjection : List Act :=
  opening 3 .readCommitted ++ opening 4 .readCommitted ++
    [.write (.insert 4 { id := 1, val := 10 }), .bump 4, .finish 4, .txn (.commit 4), .finish 3,
      .txn (.refresh 3 5), .write (.insert 3 { id := 2, val := 20 }), .bump 3, .finish 3,
      .txn (.refresh 3 5), .sample 0 3, .gate 0, .scan 0, .put 0, .finish 3]

/-- **A row of a connection that is gone is served.** -/
theorem disconnected_row_is_served : ∃ s, machine.Reach OrderlyHeap s ∧
    s.served 5 = some ([{ id := 1, val := 10 }, { id := 2, val := 20 }],
      [{ id := 1, val := 10 }]) :=
  Machine.exists_reach_of_runIf
    (uncommittedProjection ++ [.rollback 3 .disconnect, .visit 3, .visit 3, .abort 3] ++
      opening 5 .readCommitted)
    (by decide)

/-- **A committed row is missing.** The transaction 3 has a snapshot from before 4, and passes the
gate as its own last writer with a savepoint that began after 4 had committed. -/
theorem committed_row_is_missing : ∃ s, machine.Reach OrderlyHeap s ∧
    s.served 6 = some ([{ id := 2, val := 20 }],
      [{ id := 1, val := 10 }, { id := 2, val := 20 }]) :=
  Machine.exists_reach_of_runIf
    (opening 3 .repeatableRead ++ opening 4 .readCommitted ++
      [.write (.insert 4 { id := 1, val := 10 }), .bump 4, .finish 4, .txn (.commit 4), .finish 3,
        .txn .allocate, .txn (.publish 5), .txn (.savepoint 3 5 "a"), .txn (.refresh 3 6),
        .write (.insert 3 { id := 2, val := 20 }), .bump 3, .finish 3, .txn (.refresh 3 6),
        .sample 0 3, .gate 0, .scan 0, .put 0, .finish 3, .txn (.commit 3)] ++
      opening 6 .readCommitted)
    (by decide)

end UltraSql.CachedHeap
