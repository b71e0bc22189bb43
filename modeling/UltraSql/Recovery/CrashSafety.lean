import UltraSql.Recovery.Steps

/-!
# Commit status survives a crash

Startup rebuilds the commit log from the state files, the snapshot on disk and the retained log.
`SharedInv` says that these agree, so every record that survives keeps its outcome, and the state
after startup meets `SharedInv` again.

**Theorem (`commit_status_survives`).** In every run whose steps are `Safe`, a crash that is `Safe`
leaves every XID with a surviving Commit record committed, and every other XID with a surviving
heap record aborted, unless it is prepared.

**Theorem (`used_xid_lt_next`).** No XID that the log or a state file names is handed out again.

**Theorem (`prepared_survives`).** An undecided prepared transaction is still prepared after a
crash.
-/

namespace UltraSql.Recovery

open TransactionManager Option

variable {s s' : Shared} {k : ℕ} {t p q : Family} {x y g l : ℕ} {r : Rec} {st : XidStatus}
  {m : TransactionManager} {files : FiniteMap ℕ Family}

/-! ## Startup can run -/

theorem crash_rec (h : (s.wal.crash k).log[l]? = some r) : s.wal.log[l]? = some r :=
  (s.wal.getElem?_crash_eq_some h).1

theorem crash_some {P : Rec → Prop}
    (h : ∃ (l : ℕ) (r : Rec), (s.wal.crash k).log[l]? = some r ∧ P r) :
    ∃ (l : ℕ) (r : Rec), s.wal.log[l]? = some r ∧ P r :=
  let ⟨l, r, hr, hx⟩ := h
  ⟨l, r, crash_rec hr, hx⟩

/-- The durable records are among those that survive. -/
theorem crash_durable (hl : l < s.wal.durable) :
    (s.wal.crash k).log[l]? = s.wal.log[l]? := by
  rw [Wal.crash_log, List.getElem?_take, if_pos (hl.trans_le (s.wal.durable_le_fsync k))]

theorem logged_normal (hs : SharedInv s) (hx : Logged s.wal x) : 3 ≤ x := by
  obtain ⟨st, hst⟩ := ne_none_iff_exists'.1 (hs.logged_known x hx)
  exact (hs.bounded x st hst).1

/-- An entry of the snapshot on disk is the status in the commit log. -/
theorem snapshotStatus_eq_some (hs : SharedInv s) (h : snapshotStatus s.snapshot y = some st) :
    s.mgr.clog.lookup y = some st ∧ st ≠ .inProgress := by
  cases hsn : s.snapshot with
  | none =>
    rw [hsn] at h
    cases h
  | some sn =>
    rw [hsn] at h
    obtain ⟨e, he, rfl⟩ := map_eq_some_iff.1 h
    have hy : e.1 = y := by
      have := List.find?_some he
      simp only [Bool.and_eq_true, beq_iff_eq] at this
      exact this.1
    exact hy ▸ hs.snapshot_clog sn hsn e (List.mem_of_find?_eq_some he)

theorem snapshotStatus_of_mem {sn : ClogSnapshot} {e : ℕ × XidStatus} (hs : SharedInv s)
    (hsn : sn ∈ s.snapshot) (he : e ∈ sn.entries) :
    snapshotStatus s.snapshot e.1 = some e.2 := by
  obtain ⟨hclog, hne⟩ := hs.snapshot_clog sn hsn e he
  obtain ⟨st, hst⟩ : ∃ st, snapshotStatus s.snapshot e.1 = some st := by
    have ht : e.2.isTerminal = true := by
      cases h : e.2 <;> first | rfl | exact absurd h hne
    have hfind : (sn.entries.find? fun e' => e'.1 == e.1 && e'.2.isTerminal).isSome = true :=
      List.find?_isSome.2 ⟨e, he, by simp [ht]⟩
    obtain ⟨e', he'⟩ := isSome_iff_exists.1 hfind
    exact ⟨e'.2, by rw [Option.mem_def.1 hsn, snapshotStatus, Option.elim, entryOf, he']; rfl⟩
  rw [hst, ← hclog, (snapshotStatus_eq_some hs hst).1]

theorem startable_crash (hs : SharedInv s) (k : ℕ) :
    Startable (s.wal.crash k) s.snapshot s.files := by
  refine ⟨fun l l' r r' y st st' hr hr' hd hd' => ?_, fun sn hsn => ?_, fun y hy => ?_, ?_,
    hs.files_disjoint⟩
  · have hno := hs.one_decision y
    rcases decision_eq hd with rfl | rfl <;> rcases decision_eq hd' with rfl | rfl
    · rfl
    · exact absurd ⟨l, r, crash_rec hr, decision_committed.1 hd⟩
        (hno ⟨l', r', crash_rec hr', decision_aborted.1 hd'⟩)
    · exact absurd ⟨l', r', crash_rec hr', decision_committed.1 hd'⟩
        (hno ⟨l, r, crash_rec hr, decision_aborted.1 hd⟩)
    · rfl
  · rw [s.wal.crash_length]
    exact ((hs.snapshot_lsn sn hsn).trans_le (s.wal.durable_le_fsync k)).le
  · exact hs.not_frozen y (snapshotStatus_eq_some hs hy).1
  · rintro y ⟨g, p, hp, hy⟩
    obtain ⟨st, hst⟩ := ne_none_iff_exists'.1 (hs.files_known g p hp y hy)
    exact (hs.bounded y st hst).1

/-! ## The statuses after startup -/

theorem retained_or_not (w : Wal Rec) (y : ℕ) :
    (∃ st, Retained w y st) ∨ ∀ st, ¬ Retained w y st :=
  (em _).imp_right not_exists.1

theorem retained_crash (h : Retained (s.wal.crash k) y st) :
    st = .committed ∧ Committed (s.wal.crash k) y ∨ st = .aborted ∧ Aborted (s.wal.crash k) y := by
  obtain ⟨l, r, -, hr, hd⟩ := h
  rcases decision_eq hd with rfl | rfl
  · exact .inl ⟨rfl, l, r, hr, decision_committed.1 hd⟩
  · exact .inr ⟨rfl, l, r, hr, decision_aborted.1 hd⟩

/-- The decision record of a state file's family decides its parent. -/
theorem decision_record (d : Decision) (p : Family) :
    (d.record p).decision p.xid = some d.status := by
  cases d <;> simp [Decision.record, Rec.decision, Decision.status]

/-- A retained decision on a member of a state file's family is one on its parent. -/
theorem retained_parent (hs : SharedInv s) (hp : s.files.lookup g = some p) (hy : y ∈ p.members)
    (h : (s.wal.crash k).log[l]? = some r) (hd : r.Commits y ∨ r.Aborts y) :
    ∃ d : Decision, r = d.record p ∧ Retained (s.wal.crash k) p.xid d.status := by
  obtain ⟨hfl, d, rfl⟩ := hs.files_own g p hp y hy l r (crash_rec h) hd
  exact ⟨d, rfl, l, _, hfl, h, decision_record d p⟩

/-- A state file whose transaction no surviving record decides. -/
def Undecided (s : Shared) (k : ℕ) (p : Family) : Prop :=
  ∀ st, ¬ Retained (s.wal.crash k) p.xid st

theorem Undecided.not_decided (hno : Undecided s k p) (hs : SharedInv s)
    (hp : s.files.lookup g = some p) (hy : y ∈ p.members)
    (hr : (s.wal.crash k).log[l]? = some r) : ¬ (r.Commits y ∨ r.Aborts y) := fun hd =>
  let ⟨d, _, hret⟩ := retained_parent hs hp hy hr hd
  hno d.status hret

section Started

variable (hs : SharedInv s) (hS : Started (s.wal.crash k) s.snapshot s.files m files)

include hs

/-- A recycled record has its XIDs in the snapshot. -/
theorem snapshotStatus_recycled (hl : l < s.wal.floor) (hr : s.wal.log[l]? = some r)
    (hy : y ∈ r.names) : ∃ st, snapshotStatus s.snapshot y = some st := by
  obtain ⟨sn, hsn, e, he, rfl⟩ := hs.recycled l r hl hr y hy
  exact ⟨_, snapshotStatus_of_mem hs hsn he⟩

/-- The snapshot and the log agree on the XIDs that the log decides. -/
theorem status_committed (hc : Committed s.wal y) (h : s.mgr.clog.lookup y = some st)
    (hne : st ≠ .inProgress) : st = .committed := by
  cases st with
  | inProgress => exact absurd rfl hne
  | committed => rfl
  | aborted => exact absurd hc (hs.aborted_not_committed y h)
  | frozen => exact absurd h (hs.not_frozen y)

theorem status_aborted (ha : Aborted s.wal y) (h : s.mgr.clog.lookup y = some st)
    (hne : st ≠ .inProgress) : st = .aborted := by
  cases st with
  | inProgress => exact absurd rfl hne
  | committed =>
    obtain ⟨l, r, -, hr, hc⟩ := hs.committed_durable y h ha.logged
    exact absurd ⟨l, r, hr, hc⟩ (hs.one_decision y ha)
  | aborted => rfl
  | frozen => exact absurd h (hs.not_frozen y)

include hS

omit hs in
/-- The state files after startup are the undecided ones. -/
theorem files_startup (hp : files.lookup g = some p) :
    s.files.lookup g = some p ∧ Undecided s k p := by
  cases hg : s.files.lookup g with
  | none =>
    rw [hS.noFiles g hg] at hp
    cases hp
  | some q =>
    rcases retained_or_not (s.wal.crash k) q.xid with ⟨st, hst⟩ | hno
    · rw [(hS.resolved g q st hg hst).1] at hp
      cases hp
    · rw [(hS.unresolved g q hg hno).1] at hp
      cases hp
      exact ⟨rfl, hno⟩

theorem lookup_undecided (hp : s.files.lookup g = some p) (hno : Undecided s k p)
    (hy : y ∈ p.members) : m.clog.lookup y = some .inProgress := by
  refine (hS.unresolved g p hp hno).2 y hy fun st h => ?_
  rcases retained_crash h with ⟨-, l, r, hr, hd⟩ | ⟨-, l, r, hr, hd⟩
  · exact hno.not_decided hs hp hy hr (.inl hd)
  · exact hno.not_decided hs hp hy hr (.inr hd)

/-- The status of an XID that a surviving record decides. -/
theorem lookup_decided (hst : st = .committed ∧ r.Commits y ∨ st = .aborted ∧ r.Aborts y)
    (hr : (s.wal.crash k).log[l]? = some r) : m.clog.lookup y = some st := by
  have hdec : r.decision y = some st := by
    rcases hst with ⟨rfl, h⟩ | ⟨rfl, h⟩
    · exact decision_committed.2 h
    · exact decision_aborted.2 h
  have hname : y ∈ r.names := hst.elim (fun h => h.2.named) fun h => h.2.named
  by_cases hfile : InFiles s.files y
  · -- the record is the decision record of the state file
    obtain ⟨g, p, hp, hy⟩ := hfile
    obtain ⟨d, rfl, hret⟩ := retained_parent hs hp hy hr (hst.imp And.right And.right)
    rw [(hS.resolved g p d.status hp hret).2 y hy, ← hdec]
    cases d with
    | commit => exact (if_pos hy).symm
    | abort =>
      have hyx : y = p.xid := (hst.resolve_left fun h => h.2.elim).2
      exact (if_pos hyx).symm
  · have h3 := logged_normal hs ⟨l, r, crash_rec hr, hname⟩
    rcases retained_or_not (s.wal.crash k) y with ⟨st', l', r', hfl', hr', hd'⟩ | hret
    · obtain rfl := (startable_crash hs k).consistent l l' r r' y st st' hr hr' hdec hd'
      exact hS.decided y st h3 hfile ⟨l', r', hfl', hr', hd'⟩
    · have hl : l < s.wal.floor := by
        by_contra hl
        exact hret st ⟨l, r, Nat.not_lt.1 hl, hr, hdec⟩
      obtain ⟨st', hsn⟩ := snapshotStatus_recycled hs hl (crash_rec hr) hname
      obtain ⟨hclog, hne⟩ := snapshotStatus_eq_some hs hsn
      have hst' : st' = st := by
        rcases hst with ⟨rfl, h⟩ | ⟨rfl, h⟩
        · exact status_committed hs ⟨l, r, crash_rec hr, h⟩ hclog hne
        · exact status_aborted hs ⟨l, r, crash_rec hr, h⟩ hclog hne
      exact hst' ▸ hS.imported y st' h3 hfile hret hsn

/-- An XID of a surviving record that is neither committed there nor in a state file is aborted. -/
theorem lookup_not_committed (hlog : Logged (s.wal.crash k) y)
    (hno : ¬ Committed (s.wal.crash k) y) (hfile : ¬ InFiles s.files y) :
    m.clog.lookup y = some .aborted := by
  have h3 := logged_normal hs (crash_some hlog)
  obtain ⟨l, r, hr, hy⟩ := hlog
  rcases retained_or_not (s.wal.crash k) y with ⟨st, hst⟩ | hret
  · rcases retained_crash hst with ⟨-, hc⟩ | ⟨rfl, -⟩
    · exact absurd hc hno
    · exact hS.decided y _ h3 hfile hst
  · cases hsn : snapshotStatus s.snapshot y with
    | some st =>
      obtain ⟨hclog, hne⟩ := snapshotStatus_eq_some hs hsn
      cases st with
      | inProgress => exact absurd rfl hne
      | frozen => exact absurd hclog (hs.not_frozen y)
      | aborted => exact hS.imported y _ h3 hfile hret hsn
      | committed =>
        -- its durable Commit record would have survived
        obtain ⟨l', r', hl', hr', hc⟩ := hs.committed_durable y hclog ⟨l, r, crash_rec hr, hy⟩
        exact absurd ⟨l', r', (crash_durable hl').trans hr', hc⟩ hno
    | none =>
      refine (hS.swept y h3 hfile hret hsn).resolve_left ?_
      have hfl : s.wal.floor ≤ l := by
        by_contra hl
        obtain ⟨st, hst⟩ := snapshotStatus_recycled hs (Nat.not_le.1 hl) (crash_rec hr) hy
        rw [hsn] at hst
        cases hst
      have hhead : r.header = y := by
        cases r with
        | data | abort => exact (List.mem_singleton.1 hy).symm
        | commit x subs => exact absurd ⟨l, _, hr, hy⟩ hno
        | other => cases hy
      exact hhead ▸ hS.header l r hfl hr (hhead ▸ h3) (hhead ▸ hfile)

/-- Where a status after startup comes from. -/
theorem lookup_startup (h : m.clog.lookup y = some st) :
    (∃ g p, s.files.lookup g = some p ∧ y ∈ p.members ∧ Undecided s k p ∧ st = .inProgress) ∨
    (∃ g p d, s.files.lookup g = some p ∧ y ∈ p.members ∧ st = d.status ∧
      ∃ (l : ℕ), (s.wal.crash k).log[l]? = some (Decision.record p d)) ∨
    ¬ InFiles s.files y ∧ (Retained (s.wal.crash k) y st ∨
      snapshotStatus s.snapshot y = some st ∨
      st = .aborted ∧ (∀ st, ¬ Retained (s.wal.crash k) y st) ∧
        snapshotStatus s.snapshot y = none) := by
  have h3 := (hS.sees.bounded (by simp [Bounded]) y st h).1
  by_cases hfile : InFiles s.files y
  · obtain ⟨g, p, hp, hy⟩ := hfile
    rcases retained_or_not (s.wal.crash k) p.xid with ⟨st', l, r, hfl, hr, hd⟩ | hno
    · rw [(hS.resolved g p st' hp ⟨l, r, hfl, hr, hd⟩).2 y hy] at h
      obtain rfl := some.inj h
      have hdec : r.Commits p.xid ∨ r.Aborts p.xid := by
        rcases decision_eq hd with rfl | rfl
        · exact .inl (decision_committed.1 hd)
        · exact .inr (decision_aborted.1 hd)
      obtain ⟨d, rfl, -⟩ := retained_parent hs hp (self_mem p) hr hdec
      rw [decision_record] at hd
      exact .inr (.inl ⟨g, p, d, hp, hy, (some.inj hd).symm, l, hr⟩)
    · rw [lookup_undecided hs hS hp hno hy] at h
      exact .inl ⟨g, p, hp, hy, hno, (some.inj h).symm⟩
  · refine .inr (.inr ⟨hfile, ?_⟩)
    rcases retained_or_not (s.wal.crash k) y with ⟨st', hst'⟩ | hret
    · rw [hS.decided y st' h3 hfile hst'] at h
      exact .inl (some.inj h ▸ hst')
    · cases hsn : snapshotStatus s.snapshot y with
      | some st' =>
        rw [hS.imported y st' h3 hfile hret hsn] at h
        exact .inr (.inl h)
      | none =>
        refine .inr (.inr ⟨?_, hret, rfl⟩)
        rcases hS.swept y h3 hfile hret hsn with h' | h' <;> rw [h'] at h <;> cases h
        rfl

/-- Startup does not lose the status of an entry of the snapshot. -/
theorem lookup_snapshot (hsn : snapshotStatus s.snapshot y = some st) :
    m.clog.lookup y = some st := by
  obtain ⟨hclog, hne⟩ := snapshotStatus_eq_some hs hsn
  have h3 := (hs.bounded y st hclog).1
  by_cases hfile : InFiles s.files y
  · -- the decision record of the state file is durable and retained
    obtain ⟨g, p, hp, hy⟩ := hfile
    obtain ⟨l, d, hl, hr, rfl⟩ := hs.files_decided g p hp y hy st hclog hne
    have hd : (d.record p).Commits p.xid ∨ (d.record p).Aborts p.xid := by
      cases d
      · exact .inl List.mem_cons_self
      · exact .inr rfl
    have hr' : (s.wal.crash k).log[l]? = some (d.record p) := (crash_durable hl).trans hr
    have hfl := (hs.files_own g p hp p.xid (self_mem p) l _ hr hd).1
    exact (hS.resolved g p d.status hp ⟨l, _, hfl, hr', decision_record d p⟩).2 y hy
  · rcases retained_or_not (s.wal.crash k) y with ⟨st', hst'⟩ | hret
    · rw [hS.decided y st' h3 hfile hst']
      rcases retained_crash hst' with ⟨rfl, hc⟩ | ⟨rfl, ha⟩
      · rw [status_committed hs (crash_some hc) hclog hne]
      · rw [status_aborted hs (crash_some ha) hclog hne]
    · exact hS.imported y st h3 hfile hret hsn

/-- The families that are prepared after startup are open. -/
theorem open_startup (hp : files.lookup g = some p) (hmgr : s'.mgr = m)
    (hwal : s'.wal = s.wal.crash k) : Open s' p := by
  obtain ⟨hfile, hno⟩ := files_startup hS hp
  intro y hy
  refine ⟨hmgr ▸ lookup_undecided hs hS hfile hno hy, ?_, ?_⟩
  · rw [hwal]
    rintro ⟨l, r, hr, hc⟩
    exact hno.not_decided hs hfile hy hr (.inl hc)
  · rw [hwal]
    rintro ⟨l, r, hr, ha⟩
    exact hno.not_decided hs hfile hy hr (.inr ha)

end Started

/-! ## The invariant after startup -/

/-- The state after startup. -/
def Shared.restarted (s : Shared) (k : ℕ) (m : TransactionManager) (files : FiniteMap ℕ Family) :
    Shared :=
  { wal := s.wal.crash k
    mgr := m
    snapshot := s.snapshot
    files := files
    prepared := files
    recoveredLsn := (s.wal.crash k).log.length }

theorem SharedInv.restarted (hs : SharedInv s)
    (hS : Started (s.wal.crash k) s.snapshot s.files m files) :
    SharedInv (s.restarted k m files) := by
  have hdur : s.wal.durable ≤ (s.wal.crash k).durable := s.wal.durable_le_fsync k
  have hin : ∀ {g p y}, files.lookup g = some p → y ∈ p.members →
      m.clog.lookup y = some .inProgress := by
    intro g p y hp hy
    obtain ⟨hfile, hno⟩ := files_startup hS hp
    exact lookup_undecided hs hS hfile hno hy
  have hcommit : ∀ {l : ℕ} {r x}, (s.wal.crash k).log[l]? = some r → r.Commits x →
      m.clog.lookup x = some .committed := fun hr hc => lookup_decided hs hS (.inl ⟨rfl, hc⟩) hr
  have habort : ∀ {l : ℕ} {r x}, (s.wal.crash k).log[l]? = some r → r.Aborts x →
      m.clog.lookup x = some .aborted := fun hr hc => lookup_decided hs hS (.inr ⟨rfl, hc⟩) hr
  exact
    { next_normal := hS.sees.next
      bounded := hS.sees.bounded (by simp [Bounded])
      logged_known := fun x hx => by
        show m.clog.lookup x ≠ none
        by_cases hc : Committed (s.wal.crash k) x
        · obtain ⟨l, r, hr, hc⟩ := hc
          simp [hcommit hr hc]
        · by_cases hfile : InFiles s.files x
          · obtain ⟨g, p, hp, hy⟩ := hfile
            rcases retained_or_not (s.wal.crash k) p.xid with ⟨st, hst⟩ | hno
            · simp [(hS.resolved g p st hp hst).2 x hy]
            · simp [lookup_undecided hs hS hp hno hy]
          · simp [lookup_not_committed hs hS hx hc hfile]
      not_frozen := fun x hx => by
        rcases lookup_startup hs hS hx with
          ⟨-, -, -, -, -, h⟩ | ⟨-, -, d, -, -, h, -⟩ | ⟨-, h | h | ⟨h, -⟩⟩
        · cases h
        · cases d <;> cases h
        · rcases retained_crash h with ⟨h, -⟩ | ⟨h, -⟩ <;> cases h
        · exact hs.not_frozen x (snapshotStatus_eq_some hs h).1
        · cases h
      committed_durable := fun x hx hlog => by
        have hc : Committed (s.wal.crash k) x := by
          by_contra hno
          by_cases hfile : InFiles s.files x
          · obtain ⟨g, p, hp, hy⟩ := hfile
            rcases lookup_startup hs hS hx with
              ⟨-, -, -, -, -, h⟩ | ⟨g', q, d, -, hyq, h, l, hl⟩ | ⟨hout, -⟩
            · cases h
            · cases d with
              | commit => exact hno ⟨l, _, hl, hyq⟩
              | abort => cases h
            · exact hout ⟨g, p, hp, hy⟩
          · have := lookup_not_committed hs hS hlog hno hfile
            have hx : m.clog.lookup x = some .committed := hx
            rw [hx] at this
            cases this
        obtain ⟨l, r, hr, hc⟩ := hc
        exact ⟨l, r, (s.wal.getElem?_crash_eq_some hr).2, hr, hc⟩
      aborted_not_committed := fun x hx => by
        rintro ⟨l, r, hr, hc⟩
        have hx : m.clog.lookup x = some .aborted := hx
        rw [hcommit hr hc] at hx
        cases hx
      one_decision := fun x ha hc => hs.one_decision x (crash_some ha) (crash_some hc)
      commit_family := fun l p subs hr => .inr fun x hx => hcommit hr hx
      recovered_le := le_rfl
      recovered_committed := fun l r x _ hr hc => hcommit hr hc
      recovered_aborted := fun l r x _ hr hc => habort hr hc
      snapshot_lsn := fun sn hsn => (hs.snapshot_lsn sn hsn).trans_le hdur
      snapshot_clog := fun sn hsn e he =>
        ⟨lookup_snapshot hs hS (snapshotStatus_of_mem hs hsn he), (hs.snapshot_clog sn hsn e he).2⟩
      recycled := fun l r hl hr => hs.recycled l r hl (crash_rec hr)
      files_known := fun g p hp y hy => by
        show m.clog.lookup y ≠ none
        simp [hin hp hy]
      files_disjoint := fun g g' p p' hp hp' =>
        hs.files_disjoint g g' p p' (files_startup hS hp).1 (files_startup hS hp').1
      torn_free := nofun
      files_own := fun g p hp y hy l r hr =>
        hs.files_own g p (files_startup hS hp).1 y hy l r (crash_rec hr)
      files_decided := fun g p hp y hy st hst hne => by
        have hst : m.clog.lookup y = some st := hst
        rw [hin hp hy] at hst
        exact absurd (some.inj hst).symm hne
      prepared_known := fun g p hp y hy => by
        show m.clog.lookup y ≠ none
        simp [hin hp hy]
      prepared_disjoint := fun g g' p p' hp hp' =>
        hs.files_disjoint g g' p p' (files_startup hS hp).1 (files_startup hS hp').1
      prepared_state := fun g p hp _ => .inl (open_startup hs hS hp rfl rfl)
      prepared_file := fun g p hp => .inl hp }

/-- A crash without an incomplete state file, followed by startup. -/
theorem crash_spec (hs : SharedInv s) (htorn : s.torn.keys = []) (k : ℕ) :
    ∃ m files, s.crash k = some (s.restarted k m files) ∧
      Started (s.wal.crash k) s.snapshot s.files m files ∧
      SharedInv (s.restarted k m files) := by
  obtain ⟨m, files, hm, hS⟩ := startup_spec (startable_crash hs k)
  refine ⟨m, files, ?_, hS, hs.restarted hS⟩
  unfold Shared.crash
  rw [if_pos htorn, hm]
  rfl

theorem crash_complete (h : s.crash k = some s') : s.torn.keys = [] := by
  unfold Shared.crash at h
  split_ifs at h with htorn
  exact htorn

/-! ## Runs -/

theorem sharedInv_start : SharedInv .start := by
  have hnone : ∀ {l : ℕ} {r : Rec}, Shared.start.wal.log[l]? = some r → r = .other := by
    intro l r h
    exact List.mem_singleton.1 (List.mem_of_getElem? h)
  have hlog : ∀ x, ¬ Logged Shared.start.wal x := by
    rintro x ⟨l, r, hr, hx⟩
    rw [hnone hr] at hx
    cases hx
  exact
    { next_normal := le_rfl
      bounded := nofun
      logged_known := fun x h => absurd h (hlog x)
      not_frozen := nofun
      committed_durable := nofun
      aborted_not_committed := nofun
      one_decision := fun x h => absurd h.logged (hlog x)
      commit_family := fun l p subs hr => by cases hnone hr
      recovered_le := Nat.zero_le _
      recovered_committed := nofun
      recovered_aborted := nofun
      snapshot_lsn := nofun
      snapshot_clog := nofun
      recycled := fun l r hl => absurd hl (Nat.not_lt_zero l)
      files_known := nofun
      files_disjoint := nofun
      files_own := nofun
      files_decided := nofun
      torn_free := nofun
      prepared_known := nofun
      prepared_disjoint := nofun
      prepared_state := nofun
      prepared_file := nofun }

theorem rule : program.Rule SharedInv LocalInv Separate SafeStep SafeBeside where
  symm _ _ h := h.symm
  loc _ _ _ _ _ hs hl hsafe h := ⟨(kept_step hs hl hsafe h).shared, (kept_step hs hl hsafe h).loc⟩
  other sh l a sh' l' k hs hl hk hD hsafe hE h := by
    have hkept := kept_step hs hl hsafe h
    obtain ⟨fl, hfl, hF⟩ := hkept.frame
    exact ⟨hl.frame hs hk hD hF fun x hx => hE.1 x (hfl hx), hkept.separate k hk hD hE⟩

/-- **The invariant of every run** whose steps are safe. -/
theorem inv_of_reach {n : ℕ} {s : Program.State Shared Pc n} (h : (machine n).Reach Safe s) :
    Program.Inv SharedInv LocalInv Separate s := by
  have hidle : ∀ sh, LocalInv sh .idle := fun _ => trivial
  refine Program.reach_inv_crash rule (fun _ _ _ h => h) (fun s k sh' hs hk => ?_) sharedInv_start
    (hidle _) (.idle _) h
  obtain ⟨m, files, hcrash, -, hs'⟩ := crash_spec hs.shared (crash_complete hk) k
  rw [hcrash] at hk
  cases hk
  exact ⟨hs', trivial⟩

theorem status_restarted (hs : SharedInv s)
    (hS : Started (s.wal.crash k) s.snapshot s.files m files) (hx : Logged (s.wal.crash k) x) :
    m.status x = (m.clog.lookup x).getD .inProgress :=
  status_eq hS.sees.parents (logged_normal hs (crash_some hx))

/-- **Commit status survives.** In every run whose steps are safe, and a safe crash: startup
succeeds, the durable records are still there, every XID that a surviving Commit record has is
reported committed, and every other XID with a surviving heap record is reported aborted unless it
is prepared. -/
theorem commit_status_survives {n : ℕ} {s : Program.State Shared Pc n}
    (h : (machine n).Reach Safe s) {k : ℕ} (hk : Safe s (.inr k)) :
    ∃ s', s.shared.crash k = some s' ∧
      (∀ l < s.shared.wal.durable, s'.wal.log[l]? = s.shared.wal.log[l]?) ∧
      (∀ (l : ℕ) x subs, s'.wal.log[l]? = some (.commit x subs) →
        ∀ y ∈ x :: subs, s'.mgr.status y = .committed) ∧
      ∀ (l : ℕ) x, s'.wal.log[l]? = some (.data x) →
        (∀ (l' : ℕ) y subs, s'.wal.log[l']? = some (.commit y subs) → x ∉ y :: subs) →
        (∀ g p, s'.prepared.lookup g = some p → x ∉ p.members) → s'.mgr.status x = .aborted := by
  have hs := (inv_of_reach h).shared
  obtain ⟨m, files, hcrash, hS, -⟩ := crash_spec hs hk k
  refine ⟨_, hcrash, fun l hl => crash_durable hl, fun l x subs hr y hy => ?_,
    fun l x hr hno hprep => ?_⟩
  · show m.status y = .committed
    have hc : (Rec.commit x subs).Commits y := hy
    rw [status_restarted hs hS ⟨l, _, hr, hc.named⟩, lookup_decided hs hS (.inl ⟨rfl, hc⟩) hr]
    rfl
  · show m.status x = .aborted
    have hlog : Logged (s.shared.wal.crash k) x := ⟨l, _, hr, List.mem_cons_self⟩
    have hnot : ¬ Committed (s.shared.wal.crash k) x := by
      rintro ⟨l', r, hr', hc⟩
      cases r with
      | commit y subs => exact hno l' y subs hr' hc
      | _ => exact hc.elim
    rw [status_restarted hs hS hlog]
    by_cases hfile : InFiles s.shared.files x
    · -- the state file is decided, since it is not prepared any more, and not by a Commit record
      obtain ⟨g, p, hp, hx⟩ := hfile
      rcases retained_or_not (s.shared.wal.crash k) p.xid with ⟨st, hst⟩ | hund
      · rw [(hS.resolved g p st hp hst).2 x hx]
        rcases retained_crash hst with ⟨-, l', r, hr', hc⟩ | ⟨rfl, -⟩
        · obtain ⟨d, rfl, -⟩ := retained_parent hs hp (self_mem p) hr' (.inl hc)
          cases d with
          | commit => exact absurd ⟨l', _, hr', hx⟩ hnot
          | abort => exact hc.elim
        · rfl
      · exact absurd hx (hprep g p (hS.unresolved g p hp hund).1)
    · rw [lookup_not_committed hs hS hlog hnot hfile]
      rfl

/-- A transaction that commits before the checkpoint, whose records are recycled, and one that is
still running at the crash. -/
theorem quiet_checkpoint_survives :
    ∃ s : Program.State Shared Pc 2, (machine 2).Reach Safe s ∧ 2 < s.shared.wal.floor ∧
      s.shared.wal.log[2]? = some (.commit 3 []) ∧ s.shared.wal.log[4]? = some (.data 4) ∧
      ∃ s', s.shared.crash 0 = some s' ∧ s'.mgr.status 3 = .committed ∧
        s'.mgr.status 4 = .aborted := by
  obtain ⟨s, hreach, hsafe, hfloor, hdur, hcommit, hdata, hother, hprep⟩ :=
    Machine.exists_reach_of_runIf (M := machine 2) (C := Safe)
      (p := fun s => Safe s (.inr 0) ∧ 2 < s.shared.wal.floor ∧ 4 < s.shared.wal.durable ∧
        s.shared.wal.log[2]? = some (.commit 3 []) ∧ s.shared.wal.log[4]? = some (.data 4) ∧
        (∀ s' ∈ s.shared.crash 0, ∀ r ∈ s'.wal.log, r.decision 4 = none) ∧
        ∀ s' ∈ s.shared.crash 0, s'.prepared.entries = [])
      [.inl (0, .begin), .inl (0, .write 3), .inl (0, .next), .inl (0, .commit), .inl (0, .next),
        .inl (0, .fsync 3), .inl (0, .next), .inl (0, .roll), .inl (0, .log), .inl (0, .begin),
        .inl (0, .write 4), .inl (0, .next), .inl (0, .fsync 5), .inl (1, .checkpoint 3 3),
        .inl (1, .visit 3), .inl (1, .visit 4), .inl (1, .next), .inl (1, .next), .inl (1, .next),
        .inl (1, .visit 3), .inl (1, .visit 4), .inl (1, .next), .inl (1, .recycle 3)] (by decide)
  obtain ⟨s', hcrash, hold, hcommitted, haborted⟩ := commit_status_survives hreach hsafe
  refine ⟨s, hreach, hfloor, hcommit, hdata, s', hcrash, ?_, ?_⟩
  · exact hcommitted 2 3 [] ((hold 2 (by omega)).trans hcommit) 3 List.mem_cons_self
  · refine haborted 4 4 ((hold 4 hdur).trans hdata) (fun l y subs hr hmem => ?_) fun g p hp => ?_
    · have := hother s' hcrash _ (List.mem_of_getElem? hr)
      rw [Rec.decision, if_pos hmem] at this
      cases this
    · have hmem := AList.mem_lookup_iff.1 hp
      rw [hprep s' hcrash] at hmem
      cases hmem

/-- A commit whose flip falls between `export_clog` and the pruning of the first-LSN map: the
snapshot does not have it, and its durable Commit record is recycled. After a crash the XID is
reported as running. -/
theorem durable_commit_forgotten :
    ∃ s : Program.State Shared Pc 2, (machine 2).Reach Machine.Always s ∧
      2 < s.shared.wal.durable ∧ s.shared.wal.log[2]? = some (.commit 3 []) ∧
      ∃ s' ∈ s.shared.crash 0, s'.mgr.status 3 = .inProgress :=
  Machine.exists_reach_of_runIf
    [.inl (0, .begin), .inl (0, .write 3), .inl (0, .next), .inl (0, .commit), .inl (0, .next),
      .inl (0, .fsync 3), .inl (0, .roll), .inl (0, .log), .inl (0, .fsync 4),
      .inl (1, .checkpoint 3 3), .inl (1, .visit 3), .inl (1, .next), .inl (1, .next),
      .inl (0, .next), .inl (1, .next), .inl (1, .visit 3), .inl (1, .next),
      .inl (1, .recycle 3)] (by decide)

/-! ## The allocator after a crash -/

/-- **No XID is handed out again**, whatever crashes there have been: what the log or a state file
names is below the allocator. -/
theorem used_xid_lt_next {n : ℕ} {s : Program.State Shared Pc n} (h : (machine n).Reach Safe s)
    (hx : Logged s.shared.wal x ∨ InFiles s.shared.files x) : x < s.shared.mgr.nextXid := by
  have hs := (inv_of_reach h).shared
  have hne : s.shared.mgr.clog.lookup x ≠ none := by
    rcases hx with hlog | ⟨g, p, hp, hmem⟩
    · exact hs.logged_known x hlog
    · exact hs.files_known g p hp x hmem
  obtain ⟨st, hst⟩ := ne_none_iff_exists'.1 hne
  exact (hs.bounded x st hst).2

/-- The XID of a transaction that was running at a crash. -/
theorem crashed_xid_lt_next : ∃ s : Program.State Shared Pc 1, (machine 1).Reach Safe s ∧
    s.shared.recoveredLsn = 2 ∧ s.shared.wal.log[1]? = some (.data 3) ∧
    3 < s.shared.mgr.nextXid := by
  obtain ⟨s, hs, hrec, hlog⟩ := Machine.exists_reach_of_runIf (M := machine 1) (C := Safe)
    (p := fun s => s.shared.recoveredLsn = 2 ∧ s.shared.wal.log[1]? = some (.data 3))
    [.inl (0, .begin), .inl (0, .write 3), .inl (0, .next), .inl (0, .fsync 2), .inr 0] (by decide)
  exact ⟨s, hs, hrec, hlog, used_xid_lt_next hs (.inl ⟨1, _, hlog, List.mem_cons_self⟩)⟩

/-! ## Prepared transactions after a crash -/

/-- **A prepared transaction survives.** As long as it runs in the commit log and no record decides
it, it is prepared and open after a safe crash, whose startup succeeds. -/
theorem prepared_survives {n : ℕ} {s : Program.State Shared Pc n} (h : (machine n).Reach Safe s)
    (hp : s.shared.prepared.lookup g = some p)
    (hin : s.shared.mgr.clog.lookup p.xid = some .inProgress)
    (hdec : ∀ r ∈ s.shared.wal.log, r.decision p.xid = none) {k : ℕ} (hk : Safe s (.inr k)) :
    ∃ s', s.shared.crash k = some s' ∧ s'.prepared.lookup g = some p ∧ Open s' p := by
  have hs := (inv_of_reach h).shared
  have hfile : s.shared.files.lookup g = some p := by
    refine (hs.prepared_file g p hp).resolve_right ?_
    rintro ⟨st, hst, hall⟩
    exact hst (some.inj ((hall p.xid (self_mem p)).symm.trans hin))
  have hno : Undecided s.shared k p := by
    rintro st ⟨l, r, -, hr, hd⟩
    rw [hdec r (List.mem_of_getElem? (crash_rec hr))] at hd
    cases hd
  obtain ⟨m, files, hcrash, hS, -⟩ := crash_spec hs hk k
  have hkept := (hS.unresolved g p hfile hno).1
  exact ⟨_, hcrash, hkept, open_startup hs hS hkept rfl rfl⟩

/-- A transaction that has written, is prepared, and is back after the crash. -/
theorem prepared_is_back : ∃ s : Program.State Shared Pc 1, (machine 1).Reach Safe s ∧
    ∃ s', s.shared.crash 0 = some s' ∧ s'.prepared.lookup 0 = some ⟨3, []⟩ ∧ Open s' ⟨3, []⟩ := by
  obtain ⟨s, hs, hsafe, hp, hin, hdec⟩ := Machine.exists_reach_of_runIf (M := machine 1) (C := Safe)
    (p := fun s => Safe s (.inr 0) ∧ s.shared.prepared.lookup 0 = some ⟨3, []⟩ ∧
      s.shared.mgr.clog.lookup 3 = some .inProgress ∧
      ∀ r ∈ s.shared.wal.log, r.decision 3 = none)
    ([.begin, .write 3, .next, .fsync 2, .prepare 0, .next, .next, .next, .next].map
      fun a => .inl (0, a)) (by decide)
  exact ⟨s, hs, prepared_survives hs hp hin hdec hsafe⟩

end UltraSql.Recovery
