import UltraSql.Partition.Chunks

/-!
# Scans of a time-partitioned table

A chunk whose creator rolls back stays in the map, and others go on to insert into it. After a
restart it is gone, with the rows that they have committed (`committed_row_disappears`).

**Theorem (`scan_perm_committed`).** If rows are inserted only into chunks that the transaction has
created itself or that a committed one has created, and snapshots are taken at a clear moment, then
a scan whose catalog snapshot has the chunks of the map returns, besides the rows of its own
transaction, exactly the rows that were committed before its data snapshot, each once, also after
any number of restarts.
-/

namespace UltraSql.Partition

open List FiniteMap Function
open Timeline (Client)
open Index

variable {ρ : Type} {interval : ℤ} {s s' : State ρ} {x y oid : ℕ} {a : ℤ} {c : Client} {j : Job ρ}

/-! ## Orderly runs -/

/-- Snapshots are taken at a clear moment. -/
def Timed (s : State ρ) : Act ρ → Prop
  | .txn b => Timeline.Timely s.txn b = true
  | _ => True

instance instDecidableRelTimed : DecidableRel (Timed (ρ := ρ)) := fun s a => by
  unfold Timed
  split <;> infer_instance

/-- **Rows come into chunks that nobody's rollback can take away from others.** -/
def Orderly (s : State ρ) : Act ρ → Prop
  | .next x =>
    match (s.job x).point with
    | .inserting oid =>
      ∃ r ∈ s.classRows, r.oid = oid ∧ (r.xid = x ∨ Committed s.txn r.xid)
    | _ => True
  | _ => True

instance : DecidableRel (Orderly : State ρ → Act ρ → Prop) := fun s a => by
  unfold Orderly
  split
  · split <;> infer_instance
  · infer_instance

/-- The conditions on the steps. -/
def KeepsRows (s : State ρ) (a : Act ρ) : Prop := Timed s a ∧ Orderly s a

instance instDecidableRelKeepsRows : DecidableRel (KeepsRows (ρ := ρ)) := fun _ _ =>
  inferInstanceAs (Decidable (_ ∧ _))

/-- The catalog snapshot of the session has the chunks of the map. -/
def UpToDate (s : State ρ) (y : ℕ) : Prop :=
  ∀ a ∈ s.chunks.keys, (s.plan y).lookup a = s.chunks.lookup a

instance (s : State ρ) (y : ℕ) : Decidable (UpToDate s y) := by
  unfold UpToDate
  infer_instance

/-! ## The invariant -/

/-- What a statement knows at a point. -/
def PointInv (s : State ρ) (x : ℕ) : Point → Prop
  | .persisting a oid => s.createLock = some x ∧ s.catalog.lookup a = some oid ∧
      s.chunks.lookup a = none ∧ ∀ r ∈ s.classRows, ¬ Undone s.txn r.xid → r.start ≠ a
  | .publishing a oid => s.createLock = some x ∧ s.catalog.lookup a = some oid
  | .inserting oid => ∃ a, s.chunks.lookup a = some oid
  | .idle | .routing | .locking _ | .failed => True

structure Inv (s : State ρ) : Prop where
  table : TableInv s.txn s.heap
  stamps : ∀ v ∈ s.heap, v.header.xmax = 0
  writers : ∀ r ∈ s.classRows, ∃ c, s.txn.clients.lookup r.xid = some c
  cached : ∀ r ∈ s.classRows, ¬ Undone s.txn r.xid → s.catalog.lookup r.start = some r.oid
  distinct : ∀ a b oid, s.catalog.lookup a = some oid → s.catalog.lookup b = some oid → a = b
  fresh : ∀ a oid, s.catalog.lookup a = some oid → oid < s.nextOid
  published : ∀ a oid, s.chunks.lookup a = some oid → s.catalog.lookup a = some oid
  placed : ∀ v ∈ s.heap, ¬ Undone s.txn v.header.xmin →
    (∃ a, s.chunks.lookup a = some v.row.oid) ∧
      ∃ r ∈ s.classRows, r.oid = v.row.oid ∧ (r.xid = v.header.xmin ∨ Committed s.txn r.xid)
  points : ∀ x, PointInv s x (s.job x).point

theorem inv_init : Inv ({} : State ρ) where
  table := tableInv_init
  stamps := nofun
  writers := nofun
  cached := nofun
  distinct := nofun
  fresh := nofun
  published := nofun
  placed := nofun
  points _ := trivial

/-! ## Steps -/

/-- A statement is left alone by the steps of those that do not have `create_lock`. -/
theorem PointInv.frame {p : Point} (h : PointInv s y p)
    (hlock : s.createLock = some y → s'.createLock = some y ∧ s'.catalog = s.catalog ∧
      s'.chunks = s.chunks ∧ s'.classRows = s.classRows)
    (hundone : ∀ z, Undone s.txn z → Undone s'.txn z)
    (hchunks : ∀ a oid, s.chunks.lookup a = some oid → s'.chunks.lookup a = some oid) :
    PointInv s' y p := by
  cases p with
  | persisting a oid =>
    obtain ⟨hl, hcat, hnone, hrows⟩ := h
    obtain ⟨hl', hcatalog, hchunk, hclass⟩ := hlock hl
    refine ⟨hl', hcatalog ▸ hcat, hchunk ▸ hnone, fun r hr hu => ?_⟩
    exact hrows r (hclass ▸ hr) fun hu' => hu (hundone _ hu')
  | publishing a oid =>
    obtain ⟨hl', hcatalog, -⟩ := hlock h.1
    exact ⟨hl', hcatalog ▸ h.2⟩
  | inserting oid =>
    obtain ⟨a, ha⟩ := h
    exact ⟨a, hchunks a oid ha⟩
  | _ => trivial

theorem points_update {job : ℕ → Job ρ} (hx : PointInv s' x j.point)
    (hother : ∀ y, y ≠ x → PointInv s' y (job y).point) (y : ℕ) :
    PointInv s' y (update job x j y).point := by
  by_cases hyx : y = x
  · subst hyx
    rw [update_self]
    exact hx
  · rw [update_of_ne hyx]
    exact hother y hyx

namespace Inv

variable (hi : Inv s)

include hi

theorem setJob (hx : PointInv s x j.point) : Inv (s.setJob x j) :=
  { hi with points := points_update hx fun y _ => hi.points y }

theorem txn {t' : Timeline.State} (h : TableStep s.txn s.heap t' s.heap) :
    Inv { s with txn := t' } := by
  have hg := hi.table.ages h
  have hmono : ∀ z, Undone s.txn z → Undone t' z := fun _ hz => hz.mono hg
  refine { hi with
    table := hi.table.step h
    writers := fun r hr => ?_
    cached := fun r hr hu => hi.cached r hr fun hu' => hu (hmono _ hu')
    placed := fun v hv hu => ?_
    points := fun y => (hi.points y).frame (fun hl => ⟨hl, rfl, rfl, rfl⟩) hmono fun _ _ h => h }
  · obtain ⟨d, hd⟩ := hi.writers r hr
    obtain ⟨d', hd', -⟩ := hg.evolves.moves _ d hd
    exact ⟨d', hd'⟩
  · obtain ⟨hchunk, r, hr, hoid, hx⟩ := hi.placed v hv fun hu' => hu (hmono _ hu')
    exact ⟨hchunk, r, hr, hoid, hx.imp_right fun hcom => hcom.mono hg⟩

theorem leave (b : Timeline.Act) : Inv (s.leave b) := by
  cases b with
  | rollback x =>
    refine { hi with
      points := points_update trivial fun y hyx => (hi.points y).frame
        (fun hl => ⟨?_, rfl, rfl, rfl⟩) (fun _ h => h) fun _ _ h => h }
    show (if s.createLock = some x then none else s.createLock) = some y
    rw [hl, if_neg fun h => hyx (Option.some.inj h)]
  | _ => exact hi

/-- While a statement has `create_lock` the points of the others are not about the catalog. -/
theorem points_of_lock (hlock : s.createLock = none ∨ s.createLock = some x) (hyx : y ≠ x)
    (hundone : s'.txn = s.txn)
    (hchunks : ∀ a oid, s.chunks.lookup a = some oid → s'.chunks.lookup a = some oid) :
    PointInv s' y (s.job y).point := by
  refine (hi.points y).frame (fun hl => ?_) (fun _ h => hundone ▸ h) hchunks
  rw [hl] at hlock
  rcases hlock with h | h
  · cases h
  · exact absurd (Option.some.inj h) hyx

theorem create (hlock : s.createLock = none) (hchunk : s.chunks.lookup a = none)
    (hcat : s.catalog.lookup a = none) (hj : j.point = .persisting a s.nextOid) :
    Inv { s.setJob x j with
      createLock := some x
      catalog := s.catalog.insert a s.nextOid
      nextOid := s.nextOid + 1 } := by
  have hkeep : ∀ {b oid}, s.catalog.lookup b = some oid →
      (s.catalog.insert a s.nextOid).lookup b = some oid := lookup_insert_of_none hcat
  refine { hi with
    cached := fun r hr hu => hkeep (hi.cached r hr hu)
    distinct := fun b b' oid hb hb' => ?_
    fresh := fun b oid hb => ?_
    published := fun b oid hb => hkeep (hi.published b oid hb)
    points := points_update ?_ fun y hyx => hi.points_of_lock (.inl hlock) hyx rfl fun _ _ h => h }
  · rcases lookup_insert_cases hb with ⟨hba, hoid⟩ | ⟨-, hold⟩
    · rcases lookup_insert_cases hb' with ⟨hba', -⟩ | ⟨-, hold'⟩
      · exact hba.trans hba'.symm
      · exact absurd hoid (hi.fresh b' oid hold').ne
    · rcases lookup_insert_cases hb' with ⟨-, hoid⟩ | ⟨-, hold'⟩
      · exact absurd hoid (hi.fresh b oid hold).ne
      · exact hi.distinct b b' oid hold hold'
  · rcases lookup_insert_cases hb with ⟨-, rfl⟩ | ⟨-, hb⟩
    · exact Nat.lt_succ_self _
    · exact (hi.fresh b oid hb).trans (Nat.lt_succ_self _)
  · rw [hj]
    refine ⟨rfl, AList.lookup_insert .., hchunk, fun r hr hu hstart => ?_⟩
    cases hcat.symm.trans (hstart ▸ hi.cached r hr hu)

theorem publish (hx : (s.job x).point = .publishing a oid) (hj : j.point = .inserting oid) :
    Inv { s.setJob x j with chunks := s.chunks.insert a oid, createLock := none } := by
  have hpoint := hi.points x
  rw [hx] at hpoint
  obtain ⟨hlock, hcat⟩ := hpoint
  have hkeep : ∀ b oid', s.chunks.lookup b = some oid' →
      (s.chunks.insert a oid).lookup b = some oid' := by
    intro b oid' hb
    rw [lookup_insert_eq]
    split_ifs with hba
    · subst hba
      exact hcat.symm.trans (hi.published b oid' hb)
    · exact hb
  refine { hi with
    published := fun b oid' hb => ?_
    placed := fun v hv hu => ?_
    points := points_update (hj ▸ ⟨a, AList.lookup_insert ..⟩) fun y hyx =>
      hi.points_of_lock (.inr hlock) hyx rfl hkeep }
  · rcases lookup_insert_cases hb with ⟨rfl, rfl⟩ | ⟨-, hb⟩
    · exact hcat
    · exact hi.published b oid' hb
  · obtain ⟨⟨b, hb⟩, h⟩ := hi.placed v hv hu
    exact ⟨⟨b, hkeep b _ hb⟩, h⟩

section

variable (hc : s.txn.clients.lookup x = some c)
include hc

theorem persist (hx : (s.job x).point = .persisting a oid) (hj : j.point = .publishing a oid) :
    Inv { s.setJob x j with classRows := s.classRows ++ [⟨c.handle.writeXid, a, oid⟩] } := by
  have hpoint := hi.points x
  rw [hx] at hpoint
  obtain ⟨hlock, hcat, -⟩ := hpoint
  rw [writeXid_eq hi.table.solo hc]
  have hmem : ∀ {r}, r ∈ s.classRows ++ [⟨x, a, oid⟩] → r ∈ s.classRows ∨ r = ⟨x, a, oid⟩ :=
    fun h => (mem_append.1 h).imp_right mem_singleton.1
  refine { hi with
    writers := fun r hr => ?_
    cached := fun r hr hu => ?_
    placed := fun v hv hu => ?_
    points := points_update (hj ▸ ⟨hlock, hcat⟩) fun y hyx =>
      hi.points_of_lock (.inr hlock) hyx rfl fun _ _ h => h }
  · rcases hmem hr with hr | rfl
    · exact hi.writers r hr
    · exact ⟨c, hc⟩
  · rcases hmem hr with hr | rfl
    · exact hi.cached r hr hu
    · exact hcat
  · obtain ⟨hchunk, r, hr, h⟩ := hi.placed v hv hu
    exact ⟨hchunk, r, mem_append_left _ hr, h⟩

theorem put {row : ρ} (hp : c.phase = .running) (hx : (s.job x).point = .inserting oid)
    (hj : j.point = .inserting oid)
    (hcond : ∃ r ∈ s.classRows, r.oid = oid ∧ (r.xid = x ∨ Committed s.txn r.xid)) :
    Inv { s.setJob x j with
      heap := insertTuple s.heap c.handle.writeXid c.handle.currentCommand ⟨oid, row⟩ } := by
  have hstep := hi.table.step (.insert hc hp ⟨oid, row⟩)
  have hpoint := hi.points x
  rw [hx] at hpoint
  rw [writeXid_eq hi.table.solo hc] at hstep ⊢
  have hmem : ∀ {v}, v ∈ insertTuple s.heap x c.handle.currentCommand ⟨oid, row⟩ →
      v ∈ s.heap ∨ v = ⟨.fresh x c.handle.currentCommand (tidOf s.heap.length), ⟨oid, row⟩⟩ :=
    fun h => (mem_append.1 h).imp_right mem_singleton.1
  refine { hi with
    table := hstep
    stamps := fun v hv => ?_
    placed := fun v hv hu => ?_
    points := points_update (hj ▸ hpoint) fun y _ => hi.points y }
  · rcases hmem hv with hv | rfl
    · exact hi.stamps v hv
    · rfl
  · rcases hmem hv with hv | rfl
    · exact hi.placed v hv hu
    · exact ⟨hpoint, hcond⟩

theorem advance (hp : c.phase = .running) (hcond : Orderly s (.next x))
    (h : s.advance interval x c = some s') : Inv s' := by
  have hpoint := hi.points x
  simp only [State.advance] at h
  cases hpt : (s.job x).point <;> simp only [hpt, Orderly, reduceCtorEq] at h hpoint hcond
  case routing =>
    split at h
    · cases h
      exact hi.setJob trivial
    · split at h
      · rename_i oid hoid
        cases h
        exact hi.setJob ⟨_, hoid⟩
      · cases h
        exact hi.setJob trivial
  case locking a =>
    split_ifs at h with hlock
    split at h
    · rename_i hoid
      cases h
      exact hi.setJob ⟨a, hoid⟩
    · rename_i hcat
      cases h
      exact { hi with points := points_update ⟨rfl, hcat⟩ fun y hyx =>
        hi.points_of_lock (.inl hlock) hyx rfl fun _ _ h => h }
    · rename_i hchunk hcat
      cases h
      exact hi.create hlock hchunk hcat rfl
  case persisting a oid =>
    cases h
    exact hi.persist hc hpt rfl
  case publishing a oid =>
    cases h
    exact hi.publish hpt rfl
  case inserting oid =>
    split at h
    · cases h
      exact hi.setJob trivial
    · cases h
      exact hi.put hc hp hpt rfl hcond

end

theorem fail (h : s.fail x = some s') : Inv s' := by
  have hpoint := hi.points x
  simp only [State.fail] at h
  cases hpt : (s.job x).point <;> simp only [hpt, reduceCtorEq] at h hpoint
  case routing =>
    cases h
    exact hi.setJob trivial
  case inserting =>
    cases h
    exact hi.setJob trivial
  case persisting a oid =>
    cases h
    obtain ⟨hlock, -, hnone, hrows⟩ := hpoint
    have hold : ∀ {b oid}, (s.catalog.erase a).lookup b = some oid →
        s.catalog.lookup b = some oid := fun hb => (lookup_of_erase hb).2
    refine { hi with
      cached := fun r hr hu => ?_
      distinct := fun b b' oid hb hb' => hi.distinct b b' oid (hold hb) (hold hb')
      fresh := fun b oid hb => hi.fresh b oid (hold hb)
      published := fun b oid hb => ?_
      points := points_update trivial fun y hyx =>
        hi.points_of_lock (.inr hlock) hyx rfl fun _ _ h => h }
    · rw [AList.lookup_erase_ne (hrows r hr hu)]
      exact hi.cached r hr hu
    · rw [AList.lookup_erase_ne, hi.published b oid hb]
      rintro rfl
      cases hnone.symm.trans hb

end Inv

/-! ## Restarts -/

/-- A catalog read from rows has, for a start, one of its rows, and what it had if there is none. -/
theorem lookup_foldl_insert (rows : List ClassRow) (m : FiniteMap ℤ ℕ) (a : ℤ) :
    (∃ r ∈ rows, r.start = a ∧
      (rows.foldl (fun m r => m.insert r.start r.oid) m).lookup a = some r.oid) ∨
    (∀ r ∈ rows, r.start ≠ a) ∧
      (rows.foldl (fun m r => m.insert r.start r.oid) m).lookup a = m.lookup a := by
  induction rows generalizing m with
  | nil => exact .inr ⟨nofun, rfl⟩
  | cons r rows ih =>
    rcases ih (m.insert r.start r.oid) with ⟨r', hr', h⟩ | ⟨hall, h⟩
    · exact .inl ⟨r', mem_cons_of_mem _ hr', h⟩
    · by_cases ha : r.start = a
      · exact .inl ⟨r, mem_cons_self, ha, h.trans (ha ▸ AList.lookup_insert m)⟩
      · exact .inr ⟨forall_mem_cons.2 ⟨ha, hall⟩, h.trans (AList.lookup_insert_ne (Ne.symm ha))⟩

theorem lt_foldl_max {rows : List ClassRow} {n : ℕ} {r : ClassRow} (hr : r ∈ rows) :
    r.oid < rows.foldl (fun n r => max n (r.oid + 1)) n := by
  have hmono : ∀ (rows : List ClassRow) n, n ≤ rows.foldl (fun n r => max n (r.oid + 1)) n := by
    intro rows
    induction rows with
    | nil => exact fun n => le_rfl
    | cons r rows ih => exact fun n => (le_max_left _ _).trans (ih _)
  induction rows generalizing n with
  | nil => cases hr
  | cons r' rows ih =>
    rcases mem_cons.1 hr with rfl | hr
    · exact (Nat.lt_succ_self _).trans_le ((le_max_right _ _).trans (hmono rows _))
    · exact ih hr

theorem Inv.restarted (hi : Inv s)
    (hended : ∀ c ∈ s.txn.clients.values, c.phase = .committed ∨ c.phase = .aborted) :
    Inv s.restarted := by
  have hcom : ∀ {z d}, s.txn.clients.lookup z = some d → ¬ Undone s.txn z → Committed s.txn z := by
    intro z d hd hu
    refine ⟨d, hd, (hended d (mem_values_of_lookup hd)).resolve_right fun h => ?_⟩
    exact hu ⟨d, hd, .inl h⟩
  have hmem : ∀ {r}, r ∈ s.visibleRows ↔ r ∈ s.classRows ∧ Committed s.txn r.xid := by
    simp [State.visibleRows]
  have hold : ∀ {r}, r ∈ s.visibleRows → s.catalog.lookup r.start = some r.oid := fun hr =>
    hi.cached _ (hmem.1 hr).1 fun hu => hu.not_committed (hmem.1 hr).2
  have hof : ∀ {a oid}, s.restarted.catalog.lookup a = some oid →
      ∃ r ∈ s.visibleRows, r.start = a ∧ r.oid = oid := by
    intro a oid h
    rcases lookup_foldl_insert s.visibleRows ∅ a with ⟨r, hr, hstart, hoid⟩ | ⟨-, hnone⟩
    · exact ⟨r, hr, hstart, Option.some.inj (hoid.symm.trans h)⟩
    · cases hnone.symm.trans h
  -- the rows of one start have one OID
  have hto : ∀ {r}, r ∈ s.visibleRows → s.restarted.catalog.lookup r.start = some r.oid := by
    intro r hr
    rcases lookup_foldl_insert s.visibleRows ∅ r.start with ⟨r', hr', hstart, hoid⟩ | ⟨hall, -⟩
    · exact hoid.trans ((hstart ▸ hold hr').symm.trans (hold hr))
    · exact absurd rfl (hall r hr)
  refine ⟨hi.table, hi.stamps, hi.writers, fun r hr hu => ?_, fun a b oid ha hb => ?_,
    fun a oid ha => ?_, fun _ _ h => h, fun v hv hu => ?_, fun _ => trivial⟩
  · obtain ⟨d, hd⟩ := hi.writers r hr
    exact hto (hmem.2 ⟨hr, hcom hd hu⟩)
  · obtain ⟨r, hr, rfl, rfl⟩ := hof ha
    obtain ⟨r', hr', rfl, hoid⟩ := hof hb
    exact hi.distinct _ _ _ (hold hr) (hoid ▸ hold hr')
  · obtain ⟨r, hr, -, rfl⟩ := hof ha
    exact lt_foldl_max hr
  · obtain ⟨-, r, hr, hoid, hx⟩ := hi.placed v hv hu
    obtain ⟨n, hn⟩ := mem_iff_getElem?.1 hv
    obtain ⟨d, hd, -⟩ := (hi.table.header n v hn).inserted.held
    have hrow : Committed s.txn r.xid := by
      rcases hx with hx | hx
      · rw [hx]
        exact hcom hd hu
      · exact hx
    exact ⟨⟨r.start, hoid ▸ hto (hmem.2 ⟨hr, hrow⟩)⟩, r, hr, hoid, hx⟩

theorem Inv.step (hi : Inv s) {act : Act ρ} (ht : Timed s act) (hcond : Orderly s act)
    (h : Partition.step interval s act = some s') : Inv s' := by
  cases act with simp only [Partition.step] at h
  | txn b =>
    split_ifs at h with hb
    obtain ⟨t', ht', rfl⟩ := Option.map_eq_some_iff.1 h
    have hsame : (s.leave b).txn = s.txn ∧ (s.leave b).heap = s.heap := by
      cases b <;> exact ⟨rfl, rfl⟩
    refine (hi.leave b).txn ?_
    rw [hsame.1, hsame.2]
    exact .time ((Bool.and_eq_true _ _).mp hb).1 ht ht'
  | visit x =>
    obtain ⟨⟨u, t'⟩, hnext, rfl⟩ := Option.map_eq_some_iff.1 h
    exact hi.txn (.visit hnext)
  | insert x rows =>
    split_ifs at h
    cases h
    exact hi.setJob trivial
  | next x =>
    obtain ⟨c, hrun, h⟩ := Option.bind_eq_some_iff.1 h
    obtain ⟨hc, hp⟩ := running_eq_some.1 hrun
    exact hi.advance hc hp hcond h
  | fail x => exact hi.fail h
  | plan session =>
    cases h
    exact { hi with }
  | restart =>
    split_ifs at h with hended
    cases h
    exact hi.restarted hended.2.2

/-! ## Scans -/

/-- **A scan returns the committed rows, each once.** -/
theorem scan_perm_committed (h : (machine interval).Reach KeepsRows s)
    (hc : s.txn.clients.lookup x = some c) (hp : c.phase = .running) (hplan : UpToDate s y) :
    ((s.scan (s.plan y) c.handle.snapshot s.txn.mgr.status).filter (·.header.xmin ≠ x)).Perm
      (s.heap.filter fun v => CommittedBy s.txn c.view v.header.xmin) := by
  have hi : Inv s := h.invariant inv_init fun _ _ _ _ hs hC hstep => hs.step hC.1 hC.2 hstep
  have hseen : ∀ v ∈ s.heap, v.header.xmin ≠ x →
      ((isVisible v.header c.handle.snapshot s.txn.mgr.status).isSeen = true ↔
        CommittedBy s.txn c.view v.header.xmin) := fun v hv hne => by
    obtain ⟨n, hn⟩ := mem_iff_getElem?.1 hv
    exact hi.table.isSeen_other hc hp hn hne (hi.stamps v hv)
  have hown : ¬ CommittedBy s.txn c.view x := fun h => not_committed_of_running hc hp h.1
  -- the part of one chunk
  have hpart : ∀ a ∈ s.chunks.keys,
      (s.scanChunk (s.plan y) c.handle.snapshot s.txn.mgr.status a).filter (·.header.xmin ≠ x) =
      s.heap.filter fun v => decide (s.chunks.lookup a = some v.row.oid) &&
        decide (CommittedBy s.txn c.view v.header.xmin) := by
    intro a ha
    rw [State.scanChunk, hplan a ha]
    cases hoid : s.chunks.lookup a with
    | none => simp
    | some oid =>
      rw [filter_filter]
      refine filter_congr fun v hv => ?_
      rw [Bool.eq_iff_iff]
      simp only [Bool.and_eq_true, decide_eq_true_eq, Option.some.injEq]
      constructor
      · rintro ⟨hne, rfl, hs⟩
        exact ⟨rfl, (hseen v hv hne).1 hs⟩
      · rintro ⟨rfl, hcom⟩
        have hne : v.header.xmin ≠ x := fun he => hown (he ▸ hcom)
        exact ⟨hne, rfl, (hseen v hv hne).2 hcom⟩
  have hsorted := perm_insertionSort (· ≤ ·) s.chunks.keys
  rw [State.scan, filter_flatMap]
  refine (hsorted.flatMap_right _).trans ?_
  rw [flatMap_congr hpart]
  refine (flatMap_filter_any_perm s.heap ?_).trans (.of_eq (filter_congr fun v hv => ?_))
  · refine s.chunks.nodupKeys.imp fun hne v hv => ?_
    rw [← Bool.not_eq_true]
    simp only [Bool.and_eq_true, decide_eq_true_eq] at hv ⊢
    rintro ⟨hb, -⟩
    exact hne (hi.distinct _ _ _ (hi.published _ _ hv.1) (hi.published _ _ hb))
  · rw [Bool.eq_iff_iff]
    simp only [any_eq_true, Bool.and_eq_true, decide_eq_true_eq]
    refine ⟨fun ⟨_, _, _, hcom⟩ => hcom, fun hcom => ?_⟩
    obtain ⟨⟨a, ha⟩, -⟩ := hi.placed v hv fun hu => hu.not_committed hcom.1
    exact ⟨a, AList.mem_keys.1 (AList.lookup_isSome.1 (by simp [ha])), ha, hcom⟩

/-! ## Runs -/

def opening (x : ℕ) : List (Act ℕ) := (Timeline.opening x .readCommitted).map .txn

/-- The transaction inserts a row, with a new chunk for it. -/
def insertFirst (x : ℕ) (key : ℤ) (row : ℕ) : List (Act ℕ) :=
  .insert x [(key, row)] :: List.replicate 7 (.next x)

/-- The transaction inserts a row into a chunk of the map. -/
def insertNext (x : ℕ) (key : ℤ) (row : ℕ) : List (Act ℕ) :=
  .insert x [(key, row)] :: List.replicate 4 (.next x)

/-- ROLLBACK, to its end. -/
def rollback (x : ℕ) : List (Act ℕ) := [.txn (.rollback x), .visit x, .visit x, .txn (.abort x)]

/-- Two days, and a restart after them. -/
theorem two_days_after_restart : ∃ s c, (machine (ρ := ℕ) 10).Reach KeepsRows s ∧
    s.txn.clients.lookup 5 = some c ∧ c.phase = .running ∧ UpToDate s 0 ∧
    (s.scan (s.plan 0) c.handle.snapshot s.txn.mgr.status).map (·.row.row) = [70, 71, 75] ∧
    ((s.scan (s.plan 0) c.handle.snapshot s.txn.mgr.status).filter (·.header.xmin ≠ 5)).Perm
      (s.heap.filter fun v => CommittedBy s.txn c.view v.header.xmin) := by
  obtain ⟨s, hs, ⟨hrun, hplan⟩, hrows⟩ := Machine.exists_reach_of_runIf
    (M := machine (ρ := ℕ) 10) (C := KeepsRows) (p := fun s => ((running s.txn 5).isSome ∧
      UpToDate s 0) ∧ ∀ c ∈ running s.txn 5,
        (s.scan (s.plan 0) c.handle.snapshot s.txn.mgr.status).map (·.row.row) = [70, 71, 75])
    (opening 3 ++ insertFirst 3 15 75 ++ insertFirst 3 4 70 ++ [.txn (.commit 3)] ++
      opening 4 ++ insertNext 4 3 71 ++ [.txn (.commit 4), .restart, .plan 0] ++ opening 5)
    (by decide)
  obtain ⟨c, hc⟩ := Option.isSome_iff_exists.1 hrun
  obtain ⟨hlook, hp⟩ := running_eq_some.1 hc
  exact ⟨s, c, hs, hlook, hp, hplan, hrows c hc, scan_perm_committed hs hlook hp hplan⟩

/-- **A committed row disappears.** The transaction 4 inserts into the chunk that 3 has created, and
commits. 3 rolls back, and after the restart there is no chunk. -/
theorem committed_row_disappears : ∃ s, (machine (ρ := ℕ) 10).Reach Timed s ∧
    UpToDate s 0 ∧ ∃ c ∈ running s.txn 5,
      s.scan (s.plan 0) c.handle.snapshot s.txn.mgr.status = [] ∧
      (s.heap.filter fun v => CommittedBy s.txn c.view v.header.xmin).map (·.row.row) = [71] :=
  Machine.exists_reach_of_runIf (M := machine (ρ := ℕ) 10)
    (opening 3 ++ opening 4 ++ insertFirst 3 4 70 ++ insertNext 4 3 71 ++ [.txn (.commit 4)] ++
      rollback 3 ++ [.restart, .plan 0] ++ opening 5)
    (by decide)

end UltraSql.Partition
