import UltraSql.Recovery.Invariant

/-!
# Interference freedom

`Frame` says what a step of one thread leaves of the shared state for the others: it decides only
XIDs that its thread owns, final statuses stay, state files and prepared entries come and go only
with their owner, and the snapshot and the floor change only in the critical part of a checkpoint.

**Theorem (`LocalInv.frame`).** Such a step keeps what any other thread knows, if the two are
`Separate` and the XIDs flipped are not exposed to it.
-/

namespace UltraSql.Recovery

variable {s s' : Shared} {pc k : Pc} {fl : List ℕ} {t p q : Family} {x g : ℕ}

/-- What a step of a thread at `pc` does to the shared state. The XIDs `fl` are flipped. -/
structure Frame (s : Shared) (pc : Pc) (fl : List ℕ) (s' : Shared) : Prop where
  log : ∀ (l : ℕ) r, s.wal.log[l]? = some r → s'.wal.log[l]? = some r
  newRec : ∀ (l : ℕ) r, s'.wal.log[l]? = some r → s.wal.log[l]? = some r ∨
    s.wal.log.length ≤ l ∧ ∀ x ∈ r.names, x ∈ pc.own ∨ s.mgr.clog.lookup x = some .aborted
  durable : s.wal.durable ≤ s'.wal.durable
  owned : fl ⊆ pc.own
  clog : ∀ x, x ∉ fl → s.mgr.clog.lookup x ≠ none → s'.mgr.clog.lookup x = s.mgr.clog.lookup x
  filesNew : ∀ g p, s'.files.lookup g = some p → s.files.lookup g = some p ∨ p.members = pc.own
  filesOld : ∀ g p, s.files.lookup g = some p → s'.files.lookup g = some p ∨
    (p.members = pc.own ∧ ∀ g' q, s.prepared.lookup g' = some q → ∀ x ∈ p.members, x ∉ q.members) ∨
    pc.reserves = some g ∧ Decided s p
  torn : ∀ g p, s.torn.lookup g = some p → s'.torn.lookup g = some p ∨ p.members = pc.own
  preparedNew : ∀ g p, s'.prepared.lookup g = some p → s.prepared.lookup g = some p ∨
    p.members = pc.own ∧ Open s' p
  preparedOld : ∀ g p, s.prepared.lookup g = some p → s'.prepared.lookup g = some p ∨
    pc.decides = some g ∧ Decided s p
  resolving : ∀ g, g ∈ s.resolving → g ∈ s'.resolving ∨ pc.reserves = some g
  snapshot : s'.snapshot = s.snapshot ∨ pc.inWindow = true
  floor : s'.wal.floor = s.wal.floor ∨ pc.inWindow = true
  firstLsn : ∀ x f, s.firstLsn.lookup x = some f → s.mgr.clog.lookup x = some .inProgress →
    ∃ f', s'.firstLsn.lookup x = some f' ∧ f' ≤ f

theorem Frame.refl (s : Shared) (pc : Pc) : Frame s pc [] s :=
  ⟨fun _ _ h => h, fun _ _ h => .inl h, le_rfl, List.nil_subset _, fun _ _ _ => rfl,
    fun _ _ h => .inl h, fun _ _ h => .inl h, fun _ _ h => .inl h, fun _ _ h => .inl h,
    fun _ _ h => .inl h, fun _ h => .inl h, .inl rfl, .inl rfl, fun _ f h _ => ⟨f, h, le_rfl⟩⟩

/-! ## Facts of a thread -/

/-- What a thread owns is running. -/
theorem LocalInv.own_inProgress (h : LocalInv s pc) (hx : x ∈ pc.own) :
    s.mgr.clog.lookup x = some .inProgress := by
  cases pc with
  | active | recording | preparing | creating | writing | filed => exact (h.1 x hx).1
  | committing | committed => exact (h.2.2 x hx).1
  | validated g p d => exact (h.2.2.2 x hx).1
  | deciding | waiting => exact h.2.2.2.2 x hx
  | _ => cases hx

/-- What a thread owns is not in a prepared family, except in the one that it resolves. -/
theorem LocalInv.own_prepared (hs : SharedInv s) (h : LocalInv s pc)
    (hq : s.prepared.lookup g = some q) (hg : pc.reserves ≠ some g) (hx : x ∈ q.members) :
    x ∉ pc.own := by
  intro hown
  have hresolver : ∀ g' p, s.prepared.lookup g' = some p → g' ≠ g → x ∉ p.members :=
    fun g' p hp hne hmem => hs.prepared_disjoint g' g p q hp hq hne x hmem hx
  cases pc with
  | active | writing => exact h.2.1 g q (.inr hq) x hown hx
  | recording | preparing | creating => exact h.2 g q (.inr hq) x hown hx
  | committing | committed => exact h.1 g q (.inr hq) x hown hx
  | filed t g' => exact h.2.2.2 g q hq x hown hx
  | validated g' p | deciding g' p | waiting g' p =>
    exact hresolver g' p h.2.1 (fun he => hg (congrArg some he)) hown
  | _ => cases hown

/-! ## Facts that stay -/

namespace Frame

variable (hF : Frame s pc fl s')

include hF

theorem final (hpc : LocalInv s pc) {st : XidStatus} (h : s.mgr.clog.lookup x = some st)
    (hst : st ≠ .inProgress) : s'.mgr.clog.lookup x = some st := by
  rw [hF.clog x ?_ (by simp [h]), h]
  intro hx
  have hin := hpc.own_inProgress (hF.owned hx)
  rw [h] at hin
  cases hin
  exact hst rfl

theorem decided (hpc : LocalInv s pc) (h : Decided s p) : Decided s' p := by
  obtain ⟨st, hst, hp⟩ := h
  exact ⟨st, hst, fun x hx => hF.final hpc (hp x hx) hst⟩

theorem inProgress (h : s.mgr.clog.lookup x = some .inProgress) (hx : x ∉ pc.own) :
    s'.mgr.clog.lookup x = some .inProgress := by
  rw [hF.clog x (fun hfl => hx (hF.owned hfl)) (by simp [h]), h]

/-- A record that carries an XID of another thread was there before. -/
theorem oldRec {l : ℕ} {r : Rec} (hr : s'.wal.log[l]? = some r) (hx : x ∈ r.names)
    (hin : s.mgr.clog.lookup x = some .inProgress) (hown : x ∉ pc.own) :
    s.wal.log[l]? = some r := by
  rcases hF.newRec l r hr with hr | ⟨-, hnew⟩
  · exact hr
  · rcases hnew x hx with h | h
    · exact absurd h hown
    · rw [hin] at h
      cases h

/-- No record about an XID of another thread comes. -/
theorem absent {P : Rec → Prop} (hP : ∀ {r}, P r → x ∈ r.names)
    (h : ¬ ∃ (l : ℕ) (r : Rec), s.wal.log[l]? = some r ∧ P r)
    (hin : s.mgr.clog.lookup x = some .inProgress) (hown : x ∉ pc.own) :
    ¬ ∃ (l : ℕ) (r : Rec), s'.wal.log[l]? = some r ∧ P r :=
  fun ⟨l, r, hr, hx⟩ => h ⟨l, r, hF.oldRec hr (hP hx) hin hown, hx⟩

theorem opened (h : Open s t) (hown : ∀ x ∈ t.members, x ∉ pc.own) : Open s' t := by
  intro x hx
  obtain ⟨hin, hc, ha⟩ := h x hx
  exact ⟨hF.inProgress hin (hown x hx), hF.absent Rec.Commits.named hc hin (hown x hx),
    hF.absent Rec.Aborts.named ha hin (hown x hx)⟩

theorem apart (h : Apart s t) (hown : ∀ x ∈ t.members, x ∉ pc.own) : Apart s' t := by
  intro g p hp x hx hxp
  rcases hp with hp | hp
  · rcases hF.filesNew g p hp with hp | hp
    · exact h g p (.inl hp) x hx hxp
    · exact hown x hx (hp ▸ hxp)
  · rcases hF.preparedNew g p hp with hp | hp
    · exact h g p (.inr hp) x hx hxp
    · exact hown x hx (hp.1 ▸ hxp)

end Frame

theorem self_mem (p : Family) : p.xid ∈ p.members := List.mem_cons_self

theorem Decided.not_inProgress (h : Decided s p) : s.mgr.clog.lookup p.xid ≠ some .inProgress := by
  obtain ⟨st, hst, hp⟩ := h
  rw [hp _ (self_mem p)]
  exact fun h => hst (Option.some.inj h)

theorem Open.not_decided (h : Open s p) : ¬ Decided s p := fun hd =>
  hd.not_inProgress (h _ (self_mem p)).1

theorem header_mem_names {r : Rec} (hs : SharedInv s) (h : s.mgr.clog.lookup r.header ≠ none) :
    r.header ∈ r.names := by
  cases r with
  | data | commit | abort => exact List.mem_cons_self
  | other =>
    obtain ⟨st, hst⟩ := Option.ne_none_iff_exists'.1 h
    have h3 := (hs.bounded _ _ hst).1
    simp [Rec.header] at h3

/-! ## Checkpoints -/

section Checkpoint

variable (hF : Frame s pc fl s')

include hF

/-- A record below the durable end of the log was there before. -/
theorem Frame.oldBelow {l : ℕ} {r : Rec} (hl : l < s.wal.durable) (hr : s'.wal.log[l]? = some r) :
    s.wal.log[l]? = some r := by
  rcases hF.newRec l r hr with hr | ⟨hle, -⟩
  · exact hr
  · have := s.wal.durable_le
    omega

theorem Frame.exact {entries : List (ℕ × XidStatus)} (hpc : LocalInv s pc) (h : Exact s entries) :
    Exact s' entries :=
  fun e he => ⟨hF.final hpc (h e he).1 (h e he).2, (h e he).2⟩

/-- A status that was not final before the step belongs to an XID that the step flips. -/
theorem Frame.was_final (hs : SharedInv s) {st : XidStatus} (hx : Logged s.wal x)
    (h : s'.mgr.clog.lookup x = some st) (hfl : x ∉ fl) : s.mgr.clog.lookup x = some st := by
  rw [← hF.clog x hfl (hs.logged_known x hx), h]

theorem Frame.covers {redo : ℕ} {todo : List ℕ} {entries : List (ℕ × XidStatus)}
    (hs : SharedInv s) (hpc : LocalInv s pc) (hfloor : s'.wal.floor = s.wal.floor)
    (hE : ∀ x ∈ fl, x ∉ todo → ¬ NamedBelow s.wal redo x) (h : Covers s redo todo entries) :
    Covers s' redo todo entries := by
  refine ⟨h.1.trans hF.durable, fun l r hl hr x hx st hst hne => ?_⟩
  rw [hfloor] at hl
  have hdur : l < s.wal.durable := by
    rcases hl with hl | hl
    · exact hl.trans_le h.1
    · exact hl.trans_le s.wal.floor_le_durable
  have hr := hF.oldBelow hdur hr
  by_cases hfl : x ∈ fl
  · -- the step flips it: it is still to be visited, or no record below `redo` carries it
    by_cases htodo : x ∈ todo
    · exact .inl htodo
    · rcases hl with hl | hl
      · refine absurd ⟨r, ?_, hx⟩ (hE x hfl htodo)
        exact List.mem_iff_getElem?.2 ⟨l, by rw [List.getElem?_take, if_pos hl, hr]⟩
      · obtain ⟨sn, hsn, e, he, rfl⟩ := hs.recycled l r hl hr x hx
        obtain ⟨hclog, hne⟩ := hs.snapshot_clog sn hsn e he
        rw [hpc.own_inProgress (hF.owned hfl)] at hclog
        exact absurd (Option.some.inj hclog).symm hne
  · exact h.2 l r hl hr x hx st (hF.was_final hs ⟨l, r, hr, hx⟩ hst hfl) hne

end Checkpoint

/-- The points of a thread whose Commit record is in the log. -/
def Committing (s : Shared) (t : Family) (lsn : ℕ) : Prop :=
  Apart s t ∧ s.wal.log[lsn]? = some (.commit t.xid t.subs) ∧
    ∀ x ∈ t.members, s.mgr.clog.lookup x = some .inProgress ∧ ¬ Aborted s.wal x ∧
      ∀ (l : ℕ) r, s.wal.log[l]? = some r → r.Commits x → r = .commit t.xid t.subs

/-- The points of a thread whose decision record is in the log. -/
def Deciding (s : Shared) (g : ℕ) (p : Family) (d : Decision) (lsn : ℕ) : Prop :=
  g ∈ s.resolving ∧ s.prepared.lookup g = some p ∧ s.files.lookup g = some p ∧
    s.wal.log[lsn]? = some (d.record p) ∧ ∀ x ∈ p.members, s.mgr.clog.lookup x = some .inProgress

section Kept

variable (hF : Frame s pc fl s')

include hF

theorem Frame.committing {lsn : ℕ} (h : Committing s t lsn) (hown : ∀ x ∈ t.members, x ∉ pc.own) :
    Committing s' t lsn := by
  refine ⟨hF.apart h.1 hown, hF.log _ _ h.2.1, fun x hx => ?_⟩
  obtain ⟨hin, ha, hc⟩ := h.2.2 x hx
  exact ⟨hF.inProgress hin (hown x hx), hF.absent Rec.Aborts.named ha hin (hown x hx),
    fun l r hr hcx => hc l r (hF.oldRec hr hcx.named hin (hown x hx)) hcx⟩

theorem Frame.aborting (hpc : LocalInv s pc) (h : Apart s ⟨x, []⟩)
    (hx : s.mgr.clog.lookup x = some .aborted) :
    Apart s' ⟨x, []⟩ ∧ s'.mgr.clog.lookup x = some .aborted := by
  refine ⟨hF.apart h fun y hy hown => ?_, hF.final hpc hx (by simp)⟩
  rw [List.mem_singleton.1 hy] at hown
  rw [hpc.own_inProgress hown] at hx
  cases hx

/-- The entry and the file of a prepared transaction stay while another thread resolves it. -/
theorem Frame.resolver (hprep : s.prepared.lookup g = some p) (hfile : s.files.lookup g = some p)
    (hopen : ¬ Decided s p) (hown : ∀ x ∈ p.members, x ∉ pc.own) :
    s'.prepared.lookup g = some p ∧ s'.files.lookup g = some p := by
  constructor
  · exact (hF.preparedOld g p hprep).resolve_right fun h => hopen h.2
  · rcases hF.filesOld g p hfile with h | ⟨he, -⟩ | ⟨-, hd⟩
    · exact h
    · exact absurd (he ▸ self_mem p) (hown _ (self_mem p))
    · exact absurd hd hopen

theorem Frame.deciding {d : Decision} {lsn : ℕ} (h : Deciding s g p d lsn)
    (hres : g ∈ s.resolving → g ∈ s'.resolving) (hown : ∀ x ∈ p.members, x ∉ pc.own) :
    Deciding s' g p d lsn := by
  obtain ⟨hg, hprep, hfile, hr, hin⟩ := h
  have hopen : ¬ Decided s p := fun hd => hd.not_inProgress (hin _ (self_mem p))
  obtain ⟨hprep', hfile'⟩ := hF.resolver hprep hfile hopen hown
  exact ⟨hres hg, hprep', hfile', hF.log _ _ hr, fun x hx => hF.inProgress (hin x hx) (hown x hx)⟩

theorem Frame.reserved (hs : SharedInv s) (hpc : LocalInv s pc) (hg : pc.reserves ≠ some g)
    (h : s.prepared.lookup g = some q → Open s q ∨ Decided s q)
    (hq : s'.prepared.lookup g = some q) : Open s' q ∨ Decided s' q := by
  rcases hF.preparedNew g q hq with hq | ⟨-, hopen⟩
  · rcases h hq with hopen | hdec
    · exact .inl (hF.opened hopen fun x hx => hpc.own_prepared hs hq hg hx)
    · exact .inr (hF.decided hpc hdec)
  · exact .inl hopen

end Kept

theorem LocalInv.frame (hs : SharedInv s) (hpc : LocalInv s pc) (hk : LocalInv s k)
    (hD : Separate pc k) (hF : Frame s pc fl s') (hE : ∀ x ∈ fl, ¬ Exposed s.wal x k) :
    LocalInv s' k := by
  have hown : ∀ x ∈ k.own, x ∉ pc.own := fun x hx h => hD.own x h hx
  have hres : ∀ {g}, k.reserves = some g → g ∈ s.resolving → g ∈ s'.resolving :=
    fun {g} hg hmem => (hF.resolving g hmem).resolve_right fun h => hD.reserves g h hg
  have hwindow : k.inWindow = true →
      s'.snapshot = s.snapshot ∧ s'.wal.floor = s.wal.floor := by
    intro hk'
    have hno : ¬ pc.inWindow = true := fun h => by
      rw [hD.window h] at hk'
      cases hk'
    exact ⟨hF.snapshot.resolve_right hno, hF.floor.resolve_right hno⟩
  cases k with
  | idle => trivial
  | active t wrote =>
    refine ⟨hF.opened hk.1 hown, hF.apart hk.2.1 hown, fun hw x hx => ?_⟩
    exact hF.absent id (hk.2.2 hw x hx) (hk.1 x hx).1 (hown x hx)
  | recording | preparing | creating => exact ⟨hF.opened hk.1 hown, hF.apart hk.2 hown⟩
  | writing t g =>
    refine ⟨hF.opened hk.1 hown, hF.apart hk.2.1 hown, ?_⟩
    exact (hF.torn g t hk.2.2).resolve_right fun he => hown _ (self_mem t) (he ▸ self_mem t)
  | committing | committed => exact hF.committing hk hown
  | aborting | aborted => exact hF.aborting hpc hk.1 hk.2
  | filed t g =>
    obtain ⟨hopen, hfile, hfiles, hprep⟩ := hk
    refine ⟨hF.opened hopen hown, ?_, fun g' p hne hp x hx hxp => ?_, fun g' p hp x hx hxp => ?_⟩
    · rcases hF.filesOld g t hfile with h | ⟨he, -⟩ | ⟨-, hd⟩
      · exact h
      · exact absurd (he ▸ self_mem t) (hown _ (self_mem t))
      · exact absurd hd hopen.not_decided
    · rcases hF.filesNew g' p hp with hp | he
      · exact hfiles g' p hne hp x hx hxp
      · exact hown x hx (he ▸ hxp)
    · rcases hF.preparedNew g' p hp with hp | ⟨he, -⟩
      · exact hprep g' p hp x hx hxp
      · exact hown x hx (he ▸ hxp)
  | reserved g p d =>
    obtain ⟨hg, hq, hp⟩ := hk
    have hne : pc.reserves ≠ some g := fun h => hD.reserves g h rfl
    refine ⟨hres rfl hg, fun q => hF.reserved hs hpc hne (hq q), ?_⟩
    rcases hp with hp | hp
    · exact (hF.preparedOld g p hp).imp id fun h => hF.decided hpc h.2
    · exact .inr (hF.decided hpc hp)
  | validated g p d =>
    obtain ⟨hg, hprep, hfile, hopen⟩ := hk
    obtain ⟨hprep', hfile'⟩ := hF.resolver hprep hfile hopen.not_decided hown
    exact ⟨hres rfl hg, hprep', hfile', hF.opened hopen hown⟩
  | deciding | waiting => exact hF.deciding hk (hres rfl) hown
  | finalised g p d =>
    obtain ⟨hg, hprep, hfile, hdec⟩ := hk
    refine ⟨hres rfl hg, ?_, ?_, hF.decided hpc hdec⟩
    · exact (hF.preparedOld g p hprep).resolve_right fun h => hD.decides g h.1 rfl
    · rcases hF.filesOld g p hfile with h | ⟨-, hno⟩ | ⟨h, -⟩
      · exact h
      · exact absurd (self_mem p) (hno g p hprep _ (self_mem p))
      · exact absurd rfl (hD.reserves g h)
  | removed g p =>
    obtain ⟨hg, hprep, hdec⟩ := hk
    exact ⟨hres rfl hg, (hF.preparedOld g p hprep).resolve_right fun h => hD.decides g h.1 rfl,
      hF.decided hpc hdec⟩
  | forgetting g p =>
    exact ⟨(hF.preparedOld g p hk.1).resolve_right fun h => hD.decides g h.1 rfl,
      hF.decided hpc hk.2⟩
  | exporting redo lsn nx todo entries =>
    obtain ⟨hlsn, hcov, hex⟩ := hk
    refine ⟨hlsn.trans_le hF.durable, ?_, hF.exact hpc hex⟩
    refine hF.covers hs hpc (hwindow rfl).2 (fun x hx htodo hn => hE x hx ⟨redo, ?_, hn⟩) hcov
    simp [exposure, htodo]
  | exported redo sn =>
    obtain ⟨hlsn, hcov, hex⟩ := hk
    exact ⟨hlsn.trans_le hF.durable, hF.covers hs hpc (hwindow rfl).2
      (fun x hx _ hn => hE x hx ⟨redo, rfl, hn⟩) hcov, hF.exact hpc hex⟩
  | written redo ok =>
    cases ok with
    | false => trivial
    | true =>
      obtain ⟨sn, hsn, hcov⟩ := hk
      exact ⟨sn, (hwindow rfl).1 ▸ hsn, hF.covers hs hpc (hwindow rfl).2
        (fun x hx _ hn => hE x hx ⟨redo, rfl, hn⟩) hcov⟩
  | pruning redo todo oldest ok =>
    cases ok with
    | false => trivial
    | true =>
      obtain ⟨hredo, hall⟩ := hk
      refine ⟨hredo.trans hF.durable, fun l r hl hr => ?_⟩
      have hr := hF.oldBelow (hl.trans_le hredo) hr
      rcases hall l r hl hr with hsnap | hold | ⟨hin, htodo, f, hf, hfl⟩
      · refine .inl ?_
        rw [InSnapshot, (hwindow rfl).1]
        exact hsnap
      · exact .inr (.inl hold)
      · -- a running XID that is still to be visited is exposed, so it is not flipped
        have hmem := header_mem_names hs (r := r) (by simp [hin])
        have hnot : r.header ∉ fl := fun h => hE _ h ⟨redo, by simp [exposure, htodo], r,
          List.mem_iff_getElem?.2 ⟨l, by rw [List.getElem?_take, if_pos hl, hr]⟩, hmem⟩
        obtain ⟨f', hf', hle⟩ := hF.firstLsn _ f hf hin
        exact .inr (.inr ⟨by rw [hF.clog _ hnot (by simp [hin]), hin], htodo, f', hf',
          hle.trans hfl⟩)
  | pruned redo oldest =>
    obtain ⟨hredo, hall⟩ := hk
    refine ⟨hredo.trans hF.durable, fun l r hl hr => ?_⟩
    have hr := hF.oldBelow (hl.trans_le hredo) hr
    rw [InSnapshot, (hwindow rfl).1]
    exact hall l r hl hr

end UltraSql.Recovery
