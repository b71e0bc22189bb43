import UltraSql.Recovery.Updates

/-!
# Every step keeps the invariant

One lemma for the frame of each kind of update, then one for each action of a thread.

**Theorem (`kept_step`).** A step that meets the condition keeps `SharedInv`, gives the thread its
`LocalInv` at the next point, is within its `Frame`, and leaves the thread `Separate` from the
others.
-/

namespace UltraSql.Recovery

open List FiniteMap Option
open List.Subset (refl)

variable {s s' : Shared} {pc pc' k : Pc} {a : Act} {t p q : Family} {x g lsn : ℕ} {r : Rec}
  {fl : List ℕ} {d : Decision}

/-! ## Frames -/

namespace Frame

theorem append (h : ∀ x ∈ r.names, x ∈ pc.own ∨ s.mgr.clog.lookup x = some .aborted) :
    Frame s pc [] (s.append r) :=
  { Frame.refl s pc with
    log := fun l r' hr => s.wal.getElem?_append_eq_some.2 (.inl hr)
    newRec := fun l r' hr => by
      rcases s.wal.getElem?_append_eq_some.1 hr with hr | ⟨rfl, rfl⟩
      · exact .inl hr
      · exact .inr ⟨le_rfl, h⟩
    preparedNew := fun _ _ h => .inl h }

variable {m : TransactionManager}

theorem setMgr (hfl : fl ⊆ pc.own) (hclog : ∀ y, y ∉ fl → s.mgr.clog.lookup y ≠ none →
      m.clog.lookup y = s.mgr.clog.lookup y) : Frame s pc fl { s with mgr := m } :=
  { Frame.refl s pc with owned := hfl, clog := hclog, preparedNew := fun _ _ h => .inl h }

theorem flip {st : XidStatus} (hfl : fl ⊆ pc.own)
    (hclog : ∀ y, m.clog.lookup y = if y ∈ fl then some st else s.mgr.clog.lookup y) :
    Frame s pc fl { s with mgr := m } :=
  setMgr hfl fun y hy _ => by rw [hclog, if_neg hy]

theorem alloc (hs : SharedInv s) : Frame s pc [] { s with mgr := s.mgr.allocPublished } :=
  setMgr (nil_subset _) fun _ _ h => lookup_alloc hs h

theorem setFirstLsn {f : FiniteMap ℕ ℕ}
    (h : ∀ x l, s.firstLsn.lookup x = some l → s.mgr.clog.lookup x = some .inProgress →
      ∃ l', f.lookup x = some l' ∧ l' ≤ l) : Frame s pc [] { s with firstLsn := f } :=
  { Frame.refl s pc with firstLsn := h }

theorem recordFirstLsn (x lsn : ℕ) : Frame s pc [] (s.recordFirstLsn x lsn) := by
  unfold Shared.recordFirstLsn
  split_ifs
  · refine setFirstLsn fun y l hl _ => ?_
    rw [lookup_insert_eq]
    split_ifs with hy
    · subst hy
      exact ⟨min l lsn, by rw [hl]; rfl, min_le_left _ _⟩
    · exact ⟨l, hl, le_rfl⟩
  · exact .refl s pc

theorem insertTorn (hg : s.torn.lookup g = none) :
    Frame s pc [] { s with torn := s.torn.insert g t } :=
  { Frame.refl s pc with torn := fun _ _ hp => .inl (lookup_insert_of_none hg hp) }

theorem insertFile (hg : s.files.lookup g = none) (htorn : s.torn.lookup g = some t)
    (hown : t.members = pc.own) :
    Frame s pc [] { s with files := s.files.insert g t, torn := s.torn.erase g } := by
  refine { Frame.refl s pc with
    filesNew := fun g' p hp => ?_
    filesOld := fun g' p hp => .inl (lookup_insert_of_none hg hp)
    torn := fun g' p hp => ?_ }
  · rcases lookup_insert_cases hp with ⟨-, rfl⟩ | ⟨-, hp⟩
    · exact .inr hown
    · exact .inl hp
  · by_cases he : g' = g
    · subst he
      obtain rfl := mem_unique htorn hp
      exact .inr hown
    · exact .inl ((AList.lookup_erase_ne he).trans hp)

theorem eraseFile (h : ∀ p, s.files.lookup g = some p →
      (p.members = pc.own ∧ ∀ g' q, s.prepared.lookup g' = some q → ∀ x ∈ p.members,
        x ∉ q.members) ∨ pc.reserves = some g ∧ Decided s p) :
    Frame s pc [] { s with files := s.files.erase g } := by
  refine { Frame.refl s pc with
    filesNew := fun g' p hp => .inl (lookup_of_erase hp).2
    filesOld := fun g' p hp => ?_ }
  by_cases he : g' = g
  · subst he
    exact .inr (h p hp)
  · exact .inl ((AList.lookup_erase_ne he).trans hp)

theorem insertPrepared (hg : s.prepared.lookup g = none) (hown : t.members = pc.own)
    (hopen : Open s t) : Frame s pc [] { s with prepared := s.prepared.insert g t } := by
  refine { Frame.refl s pc with
    preparedNew := fun g' p hp => ?_
    preparedOld := fun g' p hp => .inl (lookup_insert_of_none hg hp) }
  rcases lookup_insert_cases hp with ⟨-, rfl⟩ | ⟨-, hp⟩
  · exact .inr ⟨hown, hopen⟩
  · exact .inl hp

theorem erasePrepared (hg : pc.decides = some g) (hp : s.prepared.lookup g = some p)
    (hdec : Decided s p) : Frame s pc [] { s with prepared := s.prepared.erase g } := by
  refine { Frame.refl s pc with
    preparedNew := fun g' q hq => .inl (lookup_of_erase hq).2
    preparedOld := fun g' q hq => ?_ }
  by_cases he : g' = g
  · subst he
    obtain rfl := mem_unique hp hq
    exact .inr ⟨hg, hdec⟩
  · exact .inl ((AList.lookup_erase_ne he).trans hq)

theorem reserve (g : ℕ) : Frame s pc [] { s with resolving := g :: s.resolving } :=
  { Frame.refl s pc with resolving := fun _ h => .inl (mem_cons_of_mem _ h) }

theorem release (hg : pc.reserves = some g) : Frame s pc [] (s.release g) := by
  refine { Frame.refl s pc with resolving := fun g' h => ?_ }
  by_cases he : g' = g
  · exact .inr (he ▸ hg)
  · exact .inl (mem_filter.2 ⟨h, by simpa using he⟩)

theorem setSnapshot {sn : ClogSnapshot} (h : pc.inWindow = true) :
    Frame s pc [] { s with snapshot := some sn } :=
  { Frame.refl s pc with snapshot := .inr h }

theorem recycle {target : ℕ} (h : pc.inWindow = true) :
    Frame s pc [] { s with wal := s.wal.truncateBelow target } :=
  { Frame.refl s pc with floor := .inr h }

theorem fsync (k : ℕ) : Frame s pc [] { s with wal := s.wal.fsync k } :=
  { Frame.refl s pc with durable := s.wal.durable_le_fsync k }

theorem roll : Frame s pc [] { s with wal := s.wal.roll } := { Frame.refl s pc with }

end Frame

/-! ## Separation -/

theorem Separate.idle (k : Pc) : Separate .idle k := ⟨nofun, nofun, nofun, nofun⟩

theorem Separate.mono (h : Separate pc k) (hown : pc'.own ⊆ pc.own)
    (hres : ∀ g, pc'.reserves = some g → pc.reserves = some g)
    (hdec : ∀ g, pc'.decides = some g → pc.decides = some g)
    (hwin : pc'.inWindow = true → pc.inWindow = true) : Separate pc' k :=
  ⟨fun x hx => h.own x (hown hx), fun g hg => h.reserves g (hres g hg),
    fun g hg => h.decides g (hdec g hg), fun hw => h.window (hwin hw)⟩

/-- What is shown of a step. -/
structure Kept (s : Shared) (pc : Pc) (a : Act) (s' : Shared) (pc' : Pc) : Prop where
  shared : SharedInv s'
  loc : LocalInv s' pc'
  frame : ∃ fl ⊆ flipped pc a, Frame s pc fl s'
  separate : ∀ k, LocalInv s k → Separate pc k → SafeBeside s pc a k → Separate pc' k

theorem Kept.toIdle (hs : SharedInv s') (hfl : fl ⊆ flipped pc a) (hF : Frame s pc fl s') :
    Kept s pc a s' .idle :=
  ⟨hs, trivial, ⟨fl, hfl, hF⟩, fun k _ _ _ => .idle k⟩

/-- The call goes on without owning or reserving more. -/
theorem Kept.goOn (hs : SharedInv s') (hloc : LocalInv s' pc') (hF : Frame s pc [] s')
    (hown : pc'.own ⊆ pc.own) (hres : ∀ g, pc'.reserves = some g → pc.reserves = some g)
    (hdec : ∀ g, pc'.decides = some g → pc.decides = some g)
    (hwin : pc'.inWindow = true → pc.inWindow = true) : Kept s pc a s' pc' :=
  ⟨hs, hloc, ⟨[], nil_subset _, hF⟩, fun _ _ hD _ => hD.mono hown hres hdec hwin⟩

theorem names_record (d : Decision) (p : Family) : (d.record p).names ⊆ p.members := by
  cases d with
  | commit => exact refl _
  | abort => exact cons_subset_cons _ (nil_subset _)

theorem isInProgress_of_lookup (h : s.mgr.clog.lookup x = some .inProgress) :
    s.isInProgress x = true := by
  simp [Shared.isInProgress, h]

section Sections

variable (hs : SharedInv s)

include hs

/-! ## Transactions -/

theorem not_logged_nextXid : ¬ Logged s.wal s.mgr.nextXid :=
  fun h => hs.logged_known _ h (lookup_nextXid hs)

theorem nextXid_not_mem (hp : s.files.lookup g = some p ∨ s.prepared.lookup g = some p) :
    s.mgr.nextXid ∉ p.members := fun hx => by
  rcases hp with hp | hp
  · exact hs.files_known g p hp _ hx (lookup_nextXid hs)
  · exact hs.prepared_known g p hp _ hx (lookup_nextXid hs)

theorem nextXid_not_own (hk : LocalInv s k) : s.mgr.nextXid ∉ k.own := fun hx => by
  cases (lookup_nextXid hs).symm.trans (hk.own_inProgress hx)

/-- A family of open XIDs stays open when the new XID joins it. -/
theorem open_alloc
    (h : ∀ x ∈ t.members, x = s.mgr.nextXid ∨ s.mgr.clog.lookup x = some .inProgress ∧
      ¬ Committed s.wal x ∧ ¬ Aborted s.wal x) :
    Open { s with mgr := s.mgr.allocPublished } t := by
  intro x hx
  rcases h x hx with rfl | ⟨hin, hno⟩
  · refine ⟨?_, fun h => not_logged_nextXid hs h.logged, fun h => not_logged_nextXid hs h.logged⟩
    show s.mgr.allocPublished.clog.lookup _ = _
    rw [TransactionManager.lookup_allocPublished, if_pos rfl]
  · exact ⟨(lookup_alloc hs (by simp [hin])).trans hin, hno⟩

theorem apart_alloc
    (h : ∀ x ∈ t.members, x = s.mgr.nextXid ∨ x ∈ q.members) (hq : Apart s q) :
    Apart { s with mgr := s.mgr.allocPublished } t := by
  intro g p hp x hx hxp
  rcases h x hx with rfl | hxq
  · exact nextXid_not_mem hs hp hxp
  · exact hq g p hp x hxq hxp

theorem kept_begin :
    Kept s .idle .begin { s with mgr := s.mgr.allocPublished }
      (.active ⟨s.mgr.nextXid, []⟩ false) := by
  have hone : ∀ {x}, x ∈ Family.members ⟨s.mgr.nextXid, []⟩ → x = s.mgr.nextXid :=
    fun h => mem_singleton.1 h
  exact ⟨hs.alloc, ⟨open_alloc hs fun x hx => .inl (hone hx),
    fun g p hp x hx => hone hx ▸ nextXid_not_mem hs hp,
    fun _ x hx => hone hx ▸ not_logged_nextXid hs⟩, ⟨[], nil_subset _, .alloc hs⟩,
    fun k hk _ _ => ⟨fun x hx => hone hx ▸ nextXid_not_own hs hk, nofun, nofun, nofun⟩⟩

variable {wrote ok : Bool}

theorem kept_commit (hpc : LocalInv s (.active t true)) :
    Kept s (.active t true) .commit (s.append (.commit t.xid t.subs))
      (.committing t s.wal.nextLsn) := by
  obtain ⟨hopen, hapart, -⟩ := hpc
  have hin : ∀ y ∈ t.members, s.mgr.clog.lookup y = some .inProgress := fun y hy => (hopen y hy).1
  refine .goOn (hs.append (fun y hy => .inl (hin y hy)) (fun y hy => ⟨hin y hy, (hopen y hy).2.2⟩)
    nofun ?_ ?_) ⟨hapart, s.wal.getElem?_append_eq_some.2 (.inr ⟨rfl, rfl⟩), fun y hy => ?_⟩
    (.append fun y hy => .inl hy) (refl _) nofun nofun nofun
  · intro g p hp y hy hd
    rcases hd with hd | hd
    · exact absurd hy (hapart g p (.inl hp) y hd)
    · exact hd.elim
  · exact fun g p hp _ y hy => ⟨fun hd => hapart g p (.inr hp) y hd hy, nofun⟩
  · refine ⟨hin y hy, fun ha => ?_, fun l r hr hc => ?_⟩
    · exact (of_append ha).elim (hopen y hy).2.2 id
    · rcases s.wal.getElem?_append_eq_some.1 hr with hr | ⟨-, rfl⟩
      · exact absurd ⟨l, r, hr, hc⟩ (hopen y hy).2.1
      · rfl

section

variable (hpc : LocalInv s (.active t wrote))
include hpc

theorem kept_savepoint : Kept s (.active t wrote) .savepoint { s with mgr := s.mgr.allocPublished }
      (.active { t with subs := s.mgr.nextXid :: t.subs } wrote) := by
  obtain ⟨hopen, hapart, hlog⟩ := hpc
  have hcase {x} (hx : x ∈ Family.members { t with subs := s.mgr.nextXid :: t.subs }) :
      x = s.mgr.nextXid ∨ x ∈ t.members :=
    (or_left_comm.1 ((mem_cons.1 hx).imp_right mem_cons.1)).imp_right mem_cons.2
  refine ⟨hs.alloc, ⟨?_, ?_, fun hw x hx => ?_⟩, ⟨[], nil_subset _, .alloc hs⟩,
    fun k hk hD _ => ⟨fun x hx hown => ?_, nofun, nofun, nofun⟩⟩
  · exact open_alloc hs fun x hx => (hcase hx).imp id (hopen x)
  · exact apart_alloc hs (fun x hx => hcase hx) hapart
  · rcases hcase hx with rfl | hx
    · exact not_logged_nextXid hs
    · exact hlog hw x hx
  · rcases hcase hx with rfl | hx
    · exact nextXid_not_own hs hk hown
    · exact hD.own x hx hown

theorem kept_rollbackTo {xs : List ℕ} (hxid : t.xid ∉ xs) (hxs : xs ⊆ t.subs) :
    Kept s (.active t wrote) (.rollbackTo xs)
      { s with mgr := xs.foldl TransactionManager.abortIfInProgress s.mgr }
      (.active { t with subs := t.subs.filter (· ∉ xs) } wrote) := by
  obtain ⟨hopen, hapart, hlog⟩ := hpc
  have hsub : xs ⊆ t.members := fun x hx => mem_cons_of_mem _ (hxs hx)
  obtain ⟨hnext, -, -, hlook, -⟩ := TransactionManager.foldl_abortIfInProgress (m := s.mgr) xs
  have hclog : ∀ y, (xs.foldl TransactionManager.abortIfInProgress s.mgr).clog.lookup y =
      if y ∈ xs then some .aborted else s.mgr.clog.lookup y := by
    intro y
    rw [hlook]
    by_cases hy : y ∈ xs
    · simp [hy, (hopen y (hsub hy)).1]
    · simp [hy]
  -- the remaining members are old ones that are not rolled back
  have hrest : ∀ {x}, x ∈ Family.members { t with subs := t.subs.filter (· ∉ xs) } →
      x ∈ t.members ∧ x ∉ xs := by
    intro x hx
    rcases mem_cons.1 hx with rfl | hx
    · exact ⟨self_mem t, hxid⟩
    · obtain ⟨hx, hnot⟩ := mem_filter.1 hx
      exact ⟨mem_cons_of_mem _ hx, by simpa using hnot⟩
  refine ⟨hs.flip_private (.inr rfl) hnext hclog hopen hapart hsub, ⟨fun x hx => ?_,
    fun g p hp x hx => hapart g p hp x (hrest hx).1, fun hw x hx => hlog hw x (hrest hx).1⟩,
    ⟨xs, refl _, .flip hsub hclog⟩,
    fun k _ hD _ => hD.mono (fun x hx => (hrest hx).1) nofun nofun nofun⟩
  obtain ⟨hmem, hnot⟩ := hrest hx
  exact ⟨by rw [hclog, if_neg hnot]; exact (hopen x hmem).1, (hopen x hmem).2⟩

theorem kept_write (hx : x ∈ t.members) :
    Kept s (.active t wrote) (.write x) (s.append (.data x)) (.recording t x s.wal.nextLsn) := by
  obtain ⟨hopen, hapart, -⟩ := hpc
  have hno : ∀ y, ¬ (Rec.data x).Commits y ∧ ¬ (Rec.data x).Aborts y := fun y => ⟨nofun, nofun⟩
  refine .goOn (hs.append_data (fun y hy => ?_) hno) ⟨hopen.append fun y _ => hno y, hapart⟩
    (.append fun y hy => .inl ?_) (refl _) nofun nofun nofun
  · rw [mem_singleton.1 hy]
    exact (hopen x hx).1
  · rw [mem_singleton.1 hy]
    exact hx

/-- The end of a transaction that leaves no decision record: a commit of one that has written
nothing, and an abort. -/
theorem kept_terminate {st : XidStatus} (hst : st = .committed ∧ wrote = false ∨ st = .aborted) :
    SharedInv (s.terminate t st false) ∧
      Frame s (.active t wrote) t.members (s.terminate t st false) ∧
      ∃ m, s.terminate t st false = { s with mgr := m } ∧ m.clog.lookup t.xid = some st := by
  obtain ⟨hopen, hapart, hlog⟩ := hpc
  obtain ⟨m, hm, hnext, hclog⟩ := s.terminate_eq st false fun x hx => (hopen x hx).1
  rw [hm]
  refine ⟨hs.flip_private ?_ hnext hclog hopen hapart (refl _),
    .flip (refl _) hclog, m, rfl, by rw [hclog, if_pos (self_mem t)]⟩
  exact hst.imp (fun h => ⟨h.1, hlog h.2⟩) id

end

theorem kept_abort (marker : Bool) (hpc : LocalInv s (.active t wrote)) :
    Kept s (.active t wrote) (.abort marker) (s.terminate t .aborted false)
      (if marker then .aborting t.xid else .idle) := by
  obtain ⟨hs', hF, m, hm, hx⟩ := kept_terminate hs hpc (.inr rfl)
  have hfl : t.members ⊆ flipped (.active t wrote) (.abort marker) := by
    cases wrote <;> exact refl _
  cases marker with
  | false => exact .toIdle hs' hfl hF
  | true =>
    refine ⟨hs', ?_, ⟨_, hfl, hF⟩, fun k _ hD _ => hD.mono (nil_subset _) nofun nofun nofun⟩
    rw [hm]
    refine ⟨fun g p hp y hy => hpc.2.1 g p hp y ?_, hx⟩
    rw [mem_singleton.1 hy]
    exact self_mem t

/-- The Commit record is durable and the family is flipped. -/
theorem kept_committed (hpc : LocalInv s (.committed t lsn))
    (hlsn : lsn < s.wal.durable) :
    Kept s (.committed t lsn) .next (s.terminate t .committed false) .idle := by
  obtain ⟨hapart, hr, hall⟩ := hpc
  obtain ⟨m, hm, hnext, hclog⟩ := s.terminate_eq .committed false fun x hx => (hall x hx).1
  rw [hm]
  refine .toIdle (hs.flip (.inl rfl) (.of_eq hs hnext hclog fun x hx => (hall x hx).1)
    (fun _ x hx _ => ⟨lsn, _, hlsn, hr, hx⟩) nofun (fun l p subs hl x hx hfl => ?_)
    (fun g p hp x hx hfl => absurd hx (hapart g p (.inl hp) x hfl))
    fun g p hp => .inl fun x hx hfl => hapart g p (.inr hp) x hfl hx) (refl _)
    (.flip (refl _) hclog)
  cases (hall x hfl).2.2 l _ hl hx
  exact fun y hy => hy

/-- The Abort record of a transaction that is already aborted in the commit log. -/
theorem kept_aborting (hpc : LocalInv s (.aborting x)) :
    Kept s (.aborting x) .next (s.append (.abort x [])) (.aborted x s.wal.nextLsn) := by
  obtain ⟨hapart, hx⟩ := hpc
  have hone : ∀ {y}, y ∈ (Rec.abort x []).names → s.mgr.clog.lookup y = some .aborted :=
    fun hy => mem_singleton.1 hy ▸ hx
  have hout : ∀ g p, s.files.lookup g = some p ∨ s.prepared.lookup g = some p → x ∉ p.members :=
    fun g p hp => hapart g p hp x (self_mem ⟨x, []⟩)
  refine .goOn (hs.append (fun y hy => .inr (hone hy)) nofun ?_ ?_ ?_) ⟨hapart, hx⟩
    (.append fun y hy => .inr (hone hy)) (nil_subset _) nofun nofun nofun
  · exact fun y hy => hs.aborted_not_committed y (hone hy.named)
  · intro g p hp y hy hd
    rcases hd with hd | hd
    · exact hd.elim
    · have hd : y = x := hd
      exact absurd (hd ▸ hy) (hout g p (.inl hp))
  · refine fun g p hp _ y hy => ⟨nofun, fun hd => ?_⟩
    have hd : y = x := hd
    exact hout g p (.inr hp) (hd ▸ hy)

/-! ## Two-phase commit -/

theorem kept_writing (hpc : LocalInv s (.writing t g)) :
    Kept s (.writing t g) .next { s with files := s.files.insert g t, torn := s.torn.erase g }
      (.filed t g) := by
  obtain ⟨hopen, hapart, htorn⟩ := hpc
  have hg := hs.torn_free g t htorn
  refine .goOn (hs.insertFile hopen hapart hg) ⟨hopen, AList.lookup_insert _, ?_,
    fun g' p hp => hapart g' p (.inr hp)⟩ (.insertFile hg htorn rfl) (refl _) nofun nofun nofun
  exact fun g' p hne hp => hapart g' p (.inl ((AList.lookup_insert_ne hne).symm.trans hp))

/-- Another session has prepared the same name meanwhile: the file is removed again. -/
theorem kept_filed_back (hpc : LocalInv s (.filed t g)) :
    Kept s (.filed t g) .next { s with files := s.files.erase g } (.active t true) := by
  obtain ⟨hopen, hfile, hfiles, hprep⟩ := hpc
  refine .goOn (hs.eraseFile fun p hp hf => ?_) ⟨hopen, ?_, nofun⟩ (.eraseFile fun p hp => ?_)
    (refl _) nofun nofun nofun
  · obtain rfl := mem_unique hfile hf
    exact absurd (self_mem t) (hprep g t hp _ (self_mem t))
  · rintro g' p (hp | hp) x hx
    · obtain ⟨hne, hp⟩ := lookup_of_erase hp
      exact hfiles g' p hne hp x hx
    · exact hprep g' p hp x hx
  · obtain rfl := mem_unique hfile hp
    exact .inl ⟨rfl, hprep⟩

theorem kept_filed (hpc : LocalInv s (.filed t g))
    (hg : s.prepared.lookup g = none) :
    Kept s (.filed t g) .next { s with prepared := s.prepared.insert g t } .idle := by
  obtain ⟨hopen, hfile, hfiles, hprep⟩ := hpc
  exact .toIdle (hs.insertPrepared hopen hfile hprep) (nil_subset _)
    (.insertPrepared hg rfl hopen)

theorem kept_resolve (hg : g ∉ s.resolving) (hp : s.prepared.lookup g = some p) :
    Kept s .idle (.resolve g d) { s with resolving := g :: s.resolving } (.reserved g p d) := by
  refine ⟨hs.reserve g, ⟨mem_cons_self, fun q hq => hs.prepared_state g q hq hg, .inl hp⟩,
    ⟨[], nil_subset _, .reserve g⟩, fun k hk _ _ => ⟨nofun, fun g' hg' hk' => ?_, nofun, nofun⟩⟩
  -- a thread that has reserved `g` would have it in `resolving`
  obtain rfl : g = g' := some.inj hg'
  refine hg ?_
  cases k with
  | reserved | validated | deciding | waiting | finalised | removed => cases hk'; exact hk.1
  | _ => cases hk'

/-- `validate_prepared` succeeds only for the entry that is still there and undecided. -/
theorem kept_reserved (hpc : LocalInv s (.reserved g p d))
    (hin : s.mgr.clog.lookup p.xid = some .inProgress) :
    Kept s (.reserved g p d) .next s (.validated g p d) := by
  obtain ⟨hg, hstate, hp⟩ := hpc
  have hnot : ¬ Decided s p := fun hd => hd.not_inProgress hin
  have hp := hp.resolve_right hnot
  refine ⟨hs, ⟨hg, hp, (hs.prepared_file g p hp).resolve_right hnot,
    (hstate p hp).resolve_right hnot⟩, ⟨[], nil_subset _, .refl s _⟩, fun k hk hD _ => ?_⟩
  have hres : k.reserves ≠ some g := hD.reserves g rfl
  refine ⟨fun x hx => hk.own_prepared hs hp hres hx, hD.reserves, fun g' hg' hk' => ?_, nofun⟩
  -- a thread past its reservation has seen the transaction decided
  obtain rfl : g = g' := some.inj hg'
  cases k with
  | forgetting g' q =>
    cases hk'
    obtain rfl := mem_unique hp hk.1
    exact hnot hk.2
  | validated | deciding | waiting | finalised | removed => exact hres hk'
  | _ => cases hk'

theorem kept_release (hpc : LocalInv s (.reserved g p d)) :
    Kept s (.reserved g p d) .next (s.release g) .idle :=
  .toIdle (hs.release hpc.2.1) (nil_subset _) (.release rfl)

theorem kept_validated (hpc : LocalInv s (.validated g p d)) :
    Kept s (.validated g p d) .next (s.append (d.record p)) (.deciding g p d s.wal.nextLsn) := by
  obtain ⟨hg, hp, hfile, hopen⟩ := hpc
  have hmem : ∀ {y}, (d.record p).Commits y ∨ (d.record p).Aborts y → y ∈ p.members := fun h =>
    names_record d p (h.elim Rec.Commits.named Rec.Aborts.named)
  refine .goOn (hs.append (fun y hy => .inl (hopen y (names_record d p hy)).1)
    (fun y hy => ⟨(hopen y (hmem (.inl hy))).1, (hopen y (hmem (.inl hy))).2.2⟩)
    (fun y hy => (hopen y (hmem (.inr hy))).2.1) (fun g' q hq y hy hd => ⟨d, ?_⟩)
    fun g' q hq hg' y hy => ?_)
    ⟨hg, hp, hfile, s.wal.getElem?_append_eq_some.2 (.inr ⟨rfl, rfl⟩), fun y hy => (hopen y hy).1⟩
    (.append fun y hy => .inl (names_record d p hy)) (refl _) (fun _ h => h)
    (fun _ h => h) nofun
  · by_cases he : g' = g
    · subst he
      rw [mem_unique hfile hq]
    · exact absurd (hmem hd) (hs.files_disjoint g' g q p hq hfile he y hy)
  · -- the transaction itself is reserved, and the others have other members
    have hne : g' ≠ g := fun he => hg' (he ▸ hg)
    have hout := hs.prepared_disjoint g' g q p hq hp hne y hy
    exact ⟨fun h => hout (hmem (.inl h)), fun h => hout (hmem (.inr h))⟩

/-- `finalise_prepared`: the flip of a prepared family. -/
theorem kept_waiting {m : TransactionManager}
    (hpc : LocalInv s (.waiting g p d lsn)) (hlsn : lsn < s.wal.durable)
    (hnext : m.nextXid = s.mgr.nextXid)
    (hclog : ∀ y, m.clog.lookup y = if y ∈ p.members then some d.status else s.mgr.clog.lookup y) :
    Kept s (.waiting g p d lsn) .next { s with mgr := m } (.finalised g p d) := by
  obtain ⟨hg, hp, hfile, hr, hin⟩ := hpc
  have hst : d.status = .committed ∨ d.status = .aborted := by
    cases d
    · exact .inl rfl
    · exact .inr rfl
  -- a record that commits a member is the family's own
  have hown : ∀ {l : ℕ} {r : Rec} {y}, s.wal.log[l]? = some r → r.Commits y → y ∈ p.members →
      r = .commit p.xid p.subs := by
    intro l r y hl hc hy
    obtain ⟨-, d', rfl⟩ := hs.files_own g p hfile y hy l r hl (.inl hc)
    cases d' with
    | commit => rfl
    | abort => exact hc.elim
  refine ⟨hs.flip hst (.of_eq hs hnext hclog hin) (fun hd y hy _ => ?_) (fun hd y hy => ?_) ?_ ?_
      ?_, ⟨hg, hp, hfile, d.status, by rcases hst with h | h <;> simp [h], fun y hy => ?_⟩,
    ⟨_, refl _, .flip (refl _) hclog⟩,
    fun k _ hD _ => hD.mono (nil_subset _) (fun _ h => h) (fun _ h => h) nofun⟩
  · cases d with
    | commit => exact ⟨lsn, _, hlsn, hr, hy⟩
    | abort => cases hd
  · cases d with
    | commit => cases hd
    | abort =>
      rintro ⟨l, r, hl, hc⟩
      obtain rfl := hown hl hc hy
      exact hs.one_decision p.xid ⟨lsn, _, hr, rfl⟩ ⟨l, _, hl, mem_cons_self⟩
  · intro l q subs hl y hy hmem
    cases hown hl hy hmem
    exact fun z hz => hz
  · intro g' q hq y hy hmem
    have he : g' = g := by
      by_contra hne
      exact hs.files_disjoint g' g q p hq hfile hne y hy hmem
    subst he
    obtain rfl := mem_unique hfile hq
    exact ⟨lsn, d, hlsn, hr, rfl⟩
  · intro g' q hq
    by_cases he : g' = g
    · subst he
      obtain rfl := mem_unique hp hq
      exact .inr (refl _)
    · exact .inl (hs.prepared_disjoint g' g q p hq hp he)
  · rw [hclog, if_pos hy]

theorem kept_finalised (hpc : LocalInv s (.finalised g p d)) :
    Kept s (.finalised g p d) .next { s with files := s.files.erase g } (.removed g p) := by
  obtain ⟨hg, hp, hfile, hdec⟩ := hpc
  exact .goOn (hs.eraseFile fun q hq _ => mem_unique hp hq ▸ hdec) ⟨hg, hp, hdec⟩
    (.eraseFile fun q hq => .inr ⟨rfl, mem_unique hfile hq ▸ hdec⟩)
    (nil_subset _) (fun _ h => h) (fun _ h => h) nofun

theorem kept_removed (hpc : LocalInv s (.removed g p)) :
    Kept s (.removed g p) .next (s.release g) (.forgetting g p) := by
  obtain ⟨hg, hp, hdec⟩ := hpc
  exact .goOn (hs.release fun q hq => .inr (mem_unique hp hq ▸ hdec)) ⟨hp, hdec⟩
    (.release rfl) (nil_subset _) nofun (fun _ h => h) nofun

theorem kept_forgetting (hpc : LocalInv s (.forgetting g p)) :
    Kept s (.forgetting g p) .next { s with prepared := s.prepared.erase g } .idle :=
  .toIdle (hs.erasePrepared g) (nil_subset _) (.erasePrepared rfl hpc.1 hpc.2)

/-! ## Checkpoints -/

variable {redo : ℕ}

theorem kept_checkpoint (hredo : redo ≤ lsn) (hlsn : lsn < s.wal.durable) :
    Kept s .idle (.checkpoint redo lsn) s
      (.exporting redo lsn s.mgr.nextXid s.mgr.clog.keys []) := by
  refine ⟨hs, ⟨hlsn, ⟨(hredo.trans_lt hlsn).le, fun l r _ _ x _ st hst _ => .inl ?_⟩, nofun⟩,
    ⟨[], nil_subset _, .refl s _⟩, fun k _ _ hE => ⟨nofun, nofun, nofun, fun _ => hE.2 rfl⟩⟩
  exact AList.mem_keys.1 (AList.lookup_isSome.1 (by simp [hst]))

variable {todo : List ℕ}

theorem kept_visit_exporting {nx : ℕ} {entries entries' : List (ℕ × XidStatus)}
    (hpc : LocalInv s (.exporting redo lsn nx todo entries))
    (he : entries' = match s.mgr.clog.lookup x with
      | some st => if st.isTerminal then (x, st) :: entries else entries
      | none => entries) :
    Kept s (.exporting redo lsn nx todo entries) (.visit x) s
      (.exporting redo lsn nx (todo.filter (· ≠ x)) entries') := by
  obtain ⟨hlsn, ⟨hredo, hcov⟩, hex⟩ := hpc
  have hold : ∀ e ∈ entries, e ∈ entries' := by
    intro e hmem
    subst he
    split
    · split_ifs
      · exact mem_cons_of_mem _ hmem
      · exact hmem
    · exact hmem
  have hnew : ∀ st, s.mgr.clog.lookup x = some st → st ≠ .inProgress → (x, st) ∈ entries' := by
    intro st hst hne
    subst he
    have ht : st.isTerminal = true := by cases st <;> first | rfl | exact absurd rfl hne
    simp [hst, ht]
  have hex' : Exact s entries' := by
    intro e hmem
    subst he
    split at hmem
    · rename_i st hst
      split_ifs at hmem with ht
      · rcases mem_cons.1 hmem with rfl | hmem
        · exact ⟨hst, by rintro rfl; cases ht⟩
        · exact hex e hmem
      · exact hex e hmem
    · exact hex e hmem
  refine .goOn hs ⟨hlsn, ⟨hredo, fun l r hl hr y hy st hst hne => ?_⟩, hex'⟩ (.refl s _)
    (nil_subset _) nofun nofun (fun h => h)
  rcases hcov l r hl hr y hy st hst hne with htodo | ⟨e, hmem, rfl⟩
  · by_cases hyx : y = x
    · subst hyx
      exact .inr ⟨_, hnew st hst hne, rfl⟩
    · exact .inl (mem_filter.2 ⟨htodo, by simpa using hyx⟩)
  · exact .inr ⟨e, hold e hmem, rfl⟩

/-- A record whose header is not running has all its XIDs decided, so a checkpoint that covers it
has them in its snapshot. -/
theorem inSnapshot_of_covers {sn : ClogSnapshot} {l : ℕ} (hsn : sn ∈ s.snapshot)
    (hcov : Covers s redo [] sn.entries) (hl : l < redo) (hr : s.wal.log[l]? = some r)
    (hnot : s.mgr.clog.lookup r.header ≠ some .inProgress) : InSnapshot s r := by
  have hfin : ∀ x ∈ r.names, s.mgr.clog.lookup x ≠ some .inProgress := by
    intro x hx
    cases r with
    | data | abort => exact mem_singleton.1 hx ▸ hnot
    | commit y subs =>
      rcases hs.commit_family l y subs hr with h | h
      · exact absurd (h y mem_cons_self) hnot
      · simp [h x hx]
    | other => cases hx
  intro x hx
  obtain ⟨st, hst⟩ := ne_none_iff_exists'.1 (hs.logged_known x ⟨l, r, hr, hx⟩)
  have hne : st ≠ .inProgress := fun h => hfin x hx (h ▸ hst)
  exact ⟨sn, hsn, (hcov.2 l r (.inl hl) hr x hx st hst hne).resolve_left nofun⟩

theorem kept_written (hpc : LocalInv s (.written redo ok))
    (hsafe : SafeStep s (.written redo ok) .next) :
    Kept s (.written redo ok) .next s (.pruning redo s.firstLsn.keys none ok) := by
  cases ok with
  | false =>
    exact .goOn hs trivial (.refl s _) (nil_subset _) nofun nofun nofun
  | true =>
    obtain ⟨sn, hsn, hcov⟩ := hpc
    refine .goOn hs ⟨hcov.1, fun l r hl hr => ?_⟩ (.refl s _) (nil_subset _) nofun nofun id
    by_cases hin : s.mgr.clog.lookup r.header = some .inProgress
    · obtain ⟨f, hf, hle⟩ := hsafe.1 redo rfl l hl r hr hin
      have hf : s.firstLsn.lookup r.header = some f := hf
      exact .inr (.inr ⟨hin, AList.mem_keys.1 (AList.lookup_isSome.1 (by simp [hf])), f, hf, hle⟩)
    · exact .inl (inSnapshot_of_covers hs hsn hcov hl hr hin)

variable {oldest : Option ℕ}

theorem kept_visit_pruning (hpc : LocalInv s (.pruning redo todo oldest ok))
    (h : visit s x (.pruning redo todo oldest ok) = some (s', pc')) :
    Kept s (.pruning redo todo oldest ok) (.visit x) s' pc' := by
  -- the shared state, and what is noted of the other entries, may only change for `x`
  have hkey : ∃ oldest' f, s' = { s with firstLsn := f } ∧
      pc' = .pruning redo (todo.filter (· ≠ x)) oldest' ok ∧
      (∀ y, y ≠ x ∨ s.mgr.clog.lookup x = some .inProgress →
        f.lookup y = s.firstLsn.lookup y) ∧
      (∀ o ∈ oldest, ∃ o' ∈ oldest', o' ≤ o) ∧
      ∀ l, s.firstLsn.lookup x = some l → s.mgr.clog.lookup x = some .inProgress →
        ∃ o' ∈ oldest', o' ≤ l := by
    simp only [visit] at h
    split at h
    · rename_i l hl
      split_ifs at h with hin
      · cases h
        refine ⟨_, s.firstLsn, rfl, rfl, fun _ _ => rfl, fun o ho => ⟨_, rfl, ?_⟩,
          fun l' hl' _ => ⟨_, rfl, ?_⟩⟩
        · rw [mem_def.1 ho]
          exact min_le_left _ _
        · rw [hl] at hl'
          cases hl'
          cases oldest with
          | none => exact le_rfl
          | some o => exact min_le_right _ _
      · cases h
        refine ⟨oldest, _, rfl, rfl, fun y hy => ?_, fun o ho => ⟨o, ho, le_rfl⟩,
          fun _ _ hx => absurd (isInProgress_of_lookup hx) hin⟩
        rw [lookup_erase_eq, if_neg]
        exact hy.resolve_right fun hx => hin (isInProgress_of_lookup hx)
    · rename_i hl
      cases h
      refine ⟨oldest, s.firstLsn, rfl, rfl, fun _ _ => rfl, fun o ho => ⟨o, ho, le_rfl⟩,
        fun l hl' => ?_⟩
      rw [hl] at hl'
      cases hl'
  obtain ⟨oldest', f, rfl, rfl, hf, hold, hnew⟩ := hkey
  have hframe : Frame s (.pruning redo todo oldest ok) [] { s with firstLsn := f } := by
    refine .setFirstLsn fun y l hl hy => ⟨l, ?_, le_rfl⟩
    rw [hf y, hl]
    by_cases hyx : y = x
    · exact .inr (hyx ▸ hy)
    · exact .inl hyx
  refine .goOn { hs with } ?_ hframe (nil_subset _) nofun nofun (by cases ok <;> exact id)
  cases ok with
  | false => trivial
  | true =>
    obtain ⟨hredo, hall⟩ := hpc
    refine ⟨hredo, fun l r hl hr => ?_⟩
    rcases hall l r hl hr with hsnap | ⟨o, ho, hle⟩ | ⟨hin, htodo, f₀, hf₀, hle⟩
    · exact .inl hsnap
    · obtain ⟨o', ho', hle'⟩ := hold o ho
      exact .inr (.inl ⟨o', ho', hle'.trans hle⟩)
    · by_cases hx : r.header = x
      · obtain ⟨o', ho', hle'⟩ := hnew f₀ (hx ▸ hf₀) (hx ▸ hin)
        exact .inr (.inl ⟨o', ho', hle'.trans hle⟩)
      · refine .inr (.inr ⟨hin, mem_filter.2 ⟨htodo, by simpa using hx⟩, f₀, ?_, hle⟩)
        exact (hf _ (.inl hx)).trans hf₀

theorem kept_recycle {bound : ℕ} (hpc : LocalInv s (.pruned redo oldest))
    (hsafe : SafeStep s (.pruned redo oldest)
      (.recycle bound)) :
    Kept s (.pruned redo oldest) (.recycle bound)
      { s with wal := s.wal.truncateBelow (recycleTarget redo oldest bound) } .idle := by
  obtain ⟨hredo, hall⟩ := hpc
  refine .toIdle (hs.recycle (fun l r hl hr => ?_) (hsafe.2 _ rfl)) (nil_subset _)
    (.recycle rfl)
  have hl := hl.trans_le (min_le_left _ _)
  cases oldest with
  | none => exact (hall l r hl hr).resolve_right nofun
  | some o =>
    refine (hall l r (hl.trans_le (min_le_left _ _)) hr).resolve_right ?_
    rintro ⟨o', ho', hle⟩
    cases ho'
    have hlo : l < min redo o := hl
    omega

/-! ## All steps -/

/-- The note of a first LSN changes nothing that the invariant is about. -/
theorem kept_recordFirstLsn (hloc : LocalInv s pc')
    (hpc' : ∀ f, LocalInv s pc' → LocalInv { s with firstLsn := f } pc')
    (hown : pc'.own ⊆ pc.own) (hres : ∀ g, pc'.reserves = some g → pc.reserves = some g)
    (hdec : ∀ g, pc'.decides = some g → pc.decides = some g) (hwin : pc'.inWindow = false) :
    Kept s pc .next (s.recordFirstLsn x lsn) pc' := by
  refine .goOn (hs.recordFirstLsn x lsn) ?_ (.recordFirstLsn x lsn) hown hres hdec (by simp [hwin])
  unfold Shared.recordFirstLsn
  split_ifs
  · exact hpc' _ hloc
  · exact hloc

theorem kept_next (hpc : LocalInv s pc) (hsafe : SafeStep s pc .next)
    (h : next s pc = some (s', pc')) : Kept s pc .next s' pc' := by
  cases pc with
  | idle | active | pruned => cases h
  | recording t x lsn =>
    cases h
    exact kept_recordFirstLsn hs ⟨hpc.1, hpc.2, nofun⟩ (fun _ h => h) (refl _) nofun
      nofun rfl
  | committing t lsn =>
    cases h
    exact kept_recordFirstLsn hs hpc (fun _ h => h) (refl _) nofun nofun rfl
  | committed t lsn =>
    simp only [next] at h
    split_ifs at h with hlsn
    cases h
    exact kept_committed hs hpc hlsn
  | aborting x =>
    cases h
    exact kept_aborting hs hpc
  | aborted x lsn =>
    cases h
    exact .toIdle (hs.recordFirstLsn x lsn) (nil_subset _) (.recordFirstLsn x lsn)
  | preparing t g =>
    simp only [next] at h
    split_ifs at h <;> cases h
    · exact .goOn hs ⟨hpc.1, hpc.2, nofun⟩ (.refl s _) (refl _) nofun nofun nofun
    · exact .goOn hs hpc (.refl s _) (refl _) nofun nofun nofun
  | creating t g =>
    simp only [next] at h
    split_ifs at h with hg <;> cases h
    · exact .goOn hs ⟨hpc.1, hpc.2, nofun⟩ (.refl s _) (refl _) nofun nofun nofun
    · obtain ⟨hfile, htorn⟩ := not_or.1 hg
      exact .goOn (hs.insertTorn (by simpa using hfile))
        ⟨hpc.1, hpc.2, AList.lookup_insert _⟩ (.insertTorn (by simpa using htorn)) (refl _)
        nofun nofun nofun
  | writing t g =>
    cases h
    exact kept_writing hs hpc
  | filed t g =>
    simp only [next] at h
    split_ifs at h with hg <;> cases h
    · exact kept_filed_back hs hpc
    · exact kept_filed hs hpc (by simpa using hg)
  | reserved g p d =>
    simp only [next] at h
    split_ifs at h with hin <;> cases h
    · exact kept_reserved hs hpc hin
    · exact kept_release hs hpc
  | validated g p d =>
    cases h
    exact kept_validated hs hpc
  | deciding g p d lsn =>
    cases h
    exact kept_recordFirstLsn hs hpc (fun _ h => h) (refl _) (fun _ h => h)
      (fun _ h => h) rfl
  | waiting g p d lsn =>
    obtain ⟨m, hm, hnext, hclog⟩ := terminate_family d.status true hpc.2.2.2.2
    simp only [next, hm] at h
    split_ifs at h with hlsn
    cases h
    exact kept_waiting hs hpc hlsn hnext hclog
  | finalised g p d =>
    cases h
    exact kept_finalised hs hpc
  | removed g p =>
    cases h
    exact kept_removed hs hpc
  | forgetting g p =>
    cases h
    exact kept_forgetting hs hpc
  | exporting redo lsn nx todo entries =>
    cases todo with
    | nil =>
      cases h
      exact .goOn hs hpc (.refl s _) (nil_subset _) nofun nofun fun h => h
    | cons x todo => cases h
  | exported redo sn =>
    cases h
    obtain ⟨hlsn, hcov, hex⟩ := hpc
    exact .goOn (hs.setSnapshot hlsn hcov hex) ⟨sn, rfl, hcov⟩ (.setSnapshot rfl)
      (nil_subset _) nofun nofun fun h => h
  | written redo ok =>
    cases h
    exact kept_written hs hpc hsafe
  | pruning redo todo oldest ok =>
    cases todo with
    | nil =>
      cases h
      cases ok with
      | false => exact .toIdle hs (nil_subset _) (.refl s _)
      | true =>
        refine .goOn hs ⟨hpc.1, fun l r hl hr => ?_⟩ (.refl s _) (nil_subset _) nofun nofun
          fun h => h
        rcases hpc.2 l r hl hr with h | h | ⟨-, h, -⟩
        · exact .inl h
        · exact .inr h
        · cases h
    | cons x todo => cases h

theorem kept_fail (hpc : LocalInv s pc) (h : fail s pc = some (s', pc')) :
    Kept s pc .fail s' pc' := by
  cases pc with
  | creating t g =>
    cases h
    exact .goOn hs ⟨hpc.1, hpc.2, nofun⟩ (.refl s _) (refl _) nofun nofun nofun
  | writing t g =>
    cases h
    exact .goOn hs ⟨hpc.1, hpc.2.1, nofun⟩ (.refl s _) (refl _) nofun nofun nofun
  | aborting | pruned =>
    cases h
    exact .toIdle hs (nil_subset _) (.refl s _)
  | validated g p d =>
    cases h
    obtain ⟨-, hp, -, hopen⟩ := hpc
    exact .toIdle (hs.release fun q hq => .inl (mem_unique hp hq ▸ hopen))
      (nil_subset _) (.release rfl)
  | finalised g p d =>
    cases d <;> cases h
    obtain ⟨-, hp, -, hdec⟩ := hpc
    exact .toIdle (hs.release fun q hq => .inr (mem_unique hp hq ▸ hdec))
      (nil_subset _) (.release rfl)
  | exported redo sn =>
    cases h
    exact .goOn hs trivial (.refl s _) (nil_subset _) nofun nofun nofun
  | _ => cases h

/-- An action of the log writer, which could as well be that of an idle thread. -/
theorem Kept.stay (hpc : LocalInv s pc) (hs' : SharedInv s')
    (hF : ∀ pc, Frame s pc [] s') : Kept s pc a s' pc := by
  have hidle : LocalInv s .idle := trivial
  exact .goOn hs' (hidle.frame hs hpc (.idle pc) (hF .idle) nofun) (hF pc) (refl _)
    (fun _ h => h) (fun _ h => h) fun h => h

theorem kept_step (hpc : LocalInv s pc) (hsafe : SafeStep s pc a)
    (h : step s pc a = some (s', pc')) : Kept s pc a s' pc' := by
  cases a with
  | begin =>
    cases pc <;> cases h
    exact kept_begin hs
  | savepoint =>
    cases pc <;> cases h
    exact kept_savepoint hs hpc
  | rollbackTo xs =>
    cases pc <;> simp only [step, reduceCtorEq] at h
    split_ifs at h with hxs
    cases h
    exact kept_rollbackTo hs hpc hxs.1 fun x hx => by simpa using all_eq_true.1 hxs.2 x hx
  | write x =>
    cases pc <;> simp only [step, reduceCtorEq] at h
    split_ifs at h with hx
    cases h
    exact kept_write hs hpc hx
  | commit =>
    cases pc <;> simp only [step, reduceCtorEq] at h
    rename_i t wrote
    cases wrote <;> cases h
    · obtain ⟨hs', hF, -⟩ := kept_terminate hs hpc (.inl ⟨rfl, rfl⟩)
      exact .toIdle hs' (refl _) hF
    · exact kept_commit hs hpc
  | abort marker =>
    cases pc <;> cases h
    exact kept_abort hs marker hpc
  | prepare g =>
    cases pc <;> simp only [step, reduceCtorEq] at h
    split_ifs at h
    cases h
    exact .goOn hs ⟨hpc.1, hpc.2.1⟩ (.refl s _) (refl _) nofun nofun nofun
  | resolve g d =>
    cases pc <;> simp only [step, reduceCtorEq] at h
    split_ifs at h with hg
    · cases h
      exact .toIdle hs (nil_subset _) (.refl s _)
    · split at h <;> cases h
      · rename_i p hp
        exact kept_resolve hs hg hp
      · exact .toIdle hs (nil_subset _) (.refl s _)
  | checkpoint redo lsn =>
    cases pc <;> simp only [step, reduceCtorEq] at h
    split_ifs at h with hl
    cases h
    exact kept_checkpoint hs hl.1 hl.2
  | visit x =>
    have h : visit s x pc = some (s', pc') := h
    cases pc <;> try cases h
    · exact kept_visit_exporting hs hpc rfl
    · exact kept_visit_pruning hs hpc h
  | recycle bound =>
    cases pc <;> cases h
    exact kept_recycle hs hpc hsafe
  | next => exact kept_next hs hpc hsafe h
  | fail => exact kept_fail hs hpc h
  | fsync k =>
    cases h
    exact .stay hs hpc (hs.fsync k) fun _ => .fsync k
  | roll =>
    cases h
    exact .stay hs hpc hs.roll fun _ => .roll
  | log =>
    cases h
    exact .stay hs hpc (hs.append_data nofun fun _ => ⟨nofun, nofun⟩) fun _ => .append nofun

end Sections

end UltraSql.Recovery
