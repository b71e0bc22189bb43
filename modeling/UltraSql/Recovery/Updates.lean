import UltraSql.Recovery.Interference

/-!
# Updates of the shared state

For each kind of update that a section makes, when it keeps `SharedInv`: the append of a record, the
flip of XIDs in the commit log, a new XID, the state files and the prepared map, the snapshot, the
recycling of segments and the rest of the log.
-/

namespace UltraSql.Recovery

open TransactionManager FiniteMap Option

variable {s : Shared} {t : Family} {x g : ℕ} {r : Rec}

/-! ## Records -/

theorem of_append {P : Rec → Prop} (h : ∃ (l : ℕ) (r' : Rec), (s.append r).wal.log[l]? = some r' ∧
    P r') : (∃ (l : ℕ) (r' : Rec), s.wal.log[l]? = some r' ∧ P r') ∨ P r := by
  obtain ⟨l, r', hr, hx⟩ := h
  rcases s.wal.getElem?_append_eq_some.1 hr with hr | ⟨-, rfl⟩
  · exact .inl ⟨l, r', hr, hx⟩
  · exact .inr hx

theorem not_commits_and_aborts (hc : r.Commits x) (ha : r.Aborts x) : False := by
  cases r <;> first | exact hc | exact ha

theorem Open.append (h : Open s t) (hr : ∀ x ∈ t.members, ¬ r.Commits x ∧ ¬ r.Aborts x) :
    Open (s.append r) t := by
  intro x hx
  obtain ⟨hin, hc, ha⟩ := h x hx
  refine ⟨hin, fun h => ?_, fun h => ?_⟩
  · exact (of_append h).elim hc (hr x hx).1
  · exact (of_append h).elim ha (hr x hx).2

/-- Append a record. It carries no committed XID, and a decision record decides XIDs that are
undecided. -/
theorem SharedInv.append (hs : SharedInv s)
    (hstat : ∀ x ∈ r.names, s.mgr.clog.lookup x = some .inProgress ∨
      s.mgr.clog.lookup x = some .aborted)
    (hcommit : ∀ x, r.Commits x → s.mgr.clog.lookup x = some .inProgress ∧ ¬ Aborted s.wal x)
    (habort : ∀ x, r.Aborts x → ¬ Committed s.wal x)
    (hfiles : ∀ g p, s.files.lookup g = some p → ∀ x ∈ p.members, r.Commits x ∨ r.Aborts x →
      ∃ d : Decision, r = d.record p)
    (hprep : ∀ g p, s.prepared.lookup g = some p → g ∉ s.resolving → ∀ x ∈ p.members,
      ¬ r.Commits x ∧ ¬ r.Aborts x) : SharedInv (s.append r) := by
  have hlen := s.wal.durable_le
  have hfl := s.wal.floor_le_durable
  -- a record below a position that the old log has is an old one
  have hold : ∀ {n l : ℕ} {r' : Rec}, n ≤ s.wal.log.length → l < n →
      (s.append r).wal.log[l]? = some r' → s.wal.log[l]? = some r' := by
    intro n l r' hn hl hr
    rcases s.wal.getElem?_append_eq_some.1 hr with hr | ⟨rfl, -⟩
    · exact hr
    · omega
  refine { hs with
    logged_known := fun x hx => ?_
    committed_durable := fun x hx hlog => ?_
    aborted_not_committed := fun x hx hc => ?_
    one_decision := fun x ha hc => ?_
    commit_family := fun l p subs hr => ?_
    recovered_le := by
      have := hs.recovered_le
      simp only [Shared.append, Wal.append_log, List.length_append]
      omega
    recovered_committed := fun l r' x hl hr => hs.recovered_committed l r' x hl
      (hold hs.recovered_le hl hr)
    recovered_aborted := fun l r' x hl hr => hs.recovered_aborted l r' x hl
      (hold hs.recovered_le hl hr)
    recycled := fun l r' hl hr => hs.recycled l r' hl (hold (hfl.trans hlen) hl hr)
    files_own := fun g p hp x hx l r' hr hd => ?_
    files_decided := fun g p hp x hx st hst hne => ?_
    prepared_state := fun g p hp hg => ?_ }
  · rcases of_append hx with hx | hx
    · exact hs.logged_known x hx
    · rcases hstat x hx with h | h <;> simp [Shared.append, h]
  · rcases of_append hlog with hlog | hlog
    · obtain ⟨l, r', hl, hr, hc⟩ := hs.committed_durable x hx hlog
      exact ⟨l, r', hl, s.wal.getElem?_append_eq_some.2 (.inl hr), hc⟩
    · have hx : s.mgr.clog.lookup x = some .committed := hx
      rcases hstat x hlog with h | h <;> rw [h] at hx <;> cases hx
  · rcases of_append hc with hc | hc
    · exact hs.aborted_not_committed x hx hc
    · have hx : s.mgr.clog.lookup x = some .aborted := hx
      rw [(hcommit x hc).1] at hx
      cases hx
  · rcases of_append ha with ha | ha
    · rcases of_append hc with hc | hc
      · exact hs.one_decision x ha hc
      · exact (hcommit x hc).2 ha
    · rcases of_append hc with hc | hc
      · exact habort x ha hc
      · exact not_commits_and_aborts hc ha
  · rcases s.wal.getElem?_append_eq_some.1 hr with hr | ⟨-, rfl⟩
    · exact hs.commit_family l p subs hr
    · exact .inl fun x hx => (hcommit x hx).1
  · rcases s.wal.getElem?_append_eq_some.1 hr with hr | ⟨rfl, rfl⟩
    · exact hs.files_own g p hp x hx l r' hr hd
    · exact ⟨hfl.trans hlen, hfiles g p hp x hx hd⟩
  · obtain ⟨l, d, hl, hr, hd⟩ := hs.files_decided g p hp x hx st hst hne
    exact ⟨l, d, hl, s.wal.getElem?_append_eq_some.2 (.inl hr), hd⟩
  · exact (hs.prepared_state g p hp hg).imp (fun h => h.append (hprep g p hp hg)) id

theorem SharedInv.append_data (hs : SharedInv s)
    (hstat : ∀ x ∈ r.names, s.mgr.clog.lookup x = some .inProgress)
    (hr : ∀ x, ¬ r.Commits x ∧ ¬ r.Aborts x) : SharedInv (s.append r) :=
  hs.append (fun x hx => .inl (hstat x hx)) (fun x h => absurd h (hr x).1)
    (fun x h => absurd h (hr x).2) (fun _ _ _ x _ h => (h.elim (hr x).1 (hr x).2).elim)
    fun _ _ _ _ x _ => hr x

/-! ## The commit log -/

/-- The manager flips the running XIDs `fl` to `st`, and else hands out XIDs at most. -/
structure Flips (s : Shared) (m : TransactionManager) (fl : List ℕ) (st : XidStatus) : Prop where
  next : s.mgr.nextXid ≤ m.nextXid
  bounded : m.Bounded
  was : ∀ x ∈ fl, s.mgr.clog.lookup x = some .inProgress
  flip : ∀ x ∈ fl, m.clog.lookup x = some st
  keep : ∀ x ∉ fl, m.clog.lookup x = s.mgr.clog.lookup x ∨
    s.mgr.clog.lookup x = none ∧ m.clog.lookup x = some .inProgress

namespace Flips

variable {m : TransactionManager} {fl : List ℕ} {st st' : XidStatus}

theorem of_eq (hs : SharedInv s) (hnext : m.nextXid = s.mgr.nextXid)
    (hclog : ∀ y, m.clog.lookup y = if y ∈ fl then some st else s.mgr.clog.lookup y)
    (hin : ∀ x ∈ fl, s.mgr.clog.lookup x = some .inProgress) : Flips s m fl st := by
  refine ⟨hnext.ge, fun y st' hy => ?_, hin, fun x hx => by rw [hclog, if_pos hx],
    fun x hx => .inl (by rw [hclog, if_neg hx])⟩
  rw [hclog] at hy
  rw [hnext]
  split_ifs at hy with hfl
  · exact hs.bounded y _ (hin y hfl)
  · exact hs.bounded y st' hy

variable (h : Flips s m fl st)

include h

theorem known (hx : s.mgr.clog.lookup x ≠ none) (hfl : x ∉ fl) :
    m.clog.lookup x = s.mgr.clog.lookup x :=
  (h.keep x hfl).resolve_right fun h => hx h.1

theorem final (hx : s.mgr.clog.lookup x = some st') (hne : st' ≠ .inProgress) :
    m.clog.lookup x = some st' := by
  rw [h.known (by simp [hx]), hx]
  intro hfl
  rw [h.was x hfl] at hx
  exact hne (some.inj hx).symm

/-- A status that is final now was so before, or has been flipped. -/
theorem cases (hx : m.clog.lookup x = some st') (hne : st' ≠ .inProgress) :
    x ∈ fl ∧ st' = st ∨ s.mgr.clog.lookup x = some st' := by
  by_cases hfl : x ∈ fl
  · exact .inl ⟨hfl, some.inj (hx.symm.trans (h.flip x hfl))⟩
  · rcases h.keep x hfl with hk | ⟨-, hk⟩
    · exact .inr (hk.symm.trans hx)
    · exact absurd (some.inj (hx.symm.trans hk)) hne

theorem not_none (hx : s.mgr.clog.lookup x ≠ none) : m.clog.lookup x ≠ none := by
  by_cases hfl : x ∈ fl
  · simp [h.flip x hfl]
  · rwa [h.known hx hfl]

theorem decided (hp : Decided s t) : Decided { s with mgr := m } t :=
  let ⟨st', hst', hp⟩ := hp
  ⟨st', hst', fun x hx => h.final (hp x hx) hst'⟩

end Flips

/-- Flip running XIDs to a final status. A commit needs its durable record, an abort the absence of
one, and families are flipped as a whole. -/
theorem SharedInv.flip {m : TransactionManager} {fl : List ℕ} {st : XidStatus} (hs : SharedInv s)
    (hst : st = .committed ∨ st = .aborted) (h : Flips s m fl st)
    (hcommit : st = .committed → ∀ x ∈ fl, Logged s.wal x →
      ∃ (l : ℕ) (r : Rec), l < s.wal.durable ∧ s.wal.log[l]? = some r ∧ r.Commits x)
    (habort : st = .aborted → ∀ x ∈ fl, ¬ Committed s.wal x)
    (hfam : ∀ (l : ℕ) p subs, s.wal.log[l]? = some (.commit p subs) → ∀ x ∈ p :: subs, x ∈ fl →
      ∀ y ∈ p :: subs, y ∈ fl)
    (hfiles : ∀ g p, s.files.lookup g = some p → ∀ x ∈ p.members, x ∈ fl →
      ∃ (l : ℕ) (d : Decision), l < s.wal.durable ∧ s.wal.log[l]? = some (d.record p) ∧
        d.status = st)
    (hprep : ∀ g p, s.prepared.lookup g = some p → (∀ x ∈ p.members, x ∉ fl) ∨ p.members ⊆ fl) :
    SharedInv { s with mgr := m } := by
  have hrunning : ∀ {x}, s.mgr.clog.lookup x = some .inProgress → x ∉ fl →
      m.clog.lookup x = some .inProgress := fun hx hfl => (h.known (by simp [hx]) hfl).trans hx
  refine { hs with
    next_normal := hs.next_normal.trans h.next
    bounded := h.bounded
    logged_known := fun x hx => h.not_none (hs.logged_known x hx)
    not_frozen := fun x hx => ?_
    committed_durable := fun x hx hlog => ?_
    aborted_not_committed := fun x hx => ?_
    commit_family := fun l p subs hr => ?_
    recovered_committed := fun l r x hl hr hc =>
      h.final (hs.recovered_committed l r x hl hr hc) (by simp)
    recovered_aborted := fun l r x hl hr hc =>
      h.final (hs.recovered_aborted l r x hl hr hc) (by simp)
    snapshot_clog := fun sn hsn e he =>
      ⟨h.final (hs.snapshot_clog sn hsn e he).1 (hs.snapshot_clog sn hsn e he).2,
        (hs.snapshot_clog sn hsn e he).2⟩
    files_known := fun g p hp x hx => h.not_none (hs.files_known g p hp x hx)
    files_decided := fun g p hp x hx st' hst' hne' => ?_
    prepared_known := fun g p hp x hx => h.not_none (hs.prepared_known g p hp x hx)
    prepared_state := fun g p hp hg => ?_
    prepared_file := fun g p hp => (hs.prepared_file g p hp).imp id h.decided }
  · rcases h.cases hx (by simp) with ⟨-, rfl⟩ | hx
    · rcases hst with hst | hst <;> cases hst
    · exact hs.not_frozen x hx
  · rcases h.cases hx (by simp) with ⟨hfl, heq⟩ | hx
    · exact hcommit heq.symm x hfl hlog
    · exact hs.committed_durable x hx hlog
  · rcases h.cases hx (by simp) with ⟨hfl, heq⟩ | hx
    · exact habort heq.symm x hfl
    · exact hs.aborted_not_committed x hx
  · rcases hs.commit_family l p subs hr with hrun | hdone
    · by_cases hmeet : ∃ x ∈ p :: subs, x ∈ fl
      · obtain ⟨x, hx, hfl⟩ := hmeet
        have hall := hfam l p subs hr x hx hfl
        have hcm : st = .committed := hst.resolve_right fun h => habort h x hfl ⟨l, _, hr, hx⟩
        exact .inr fun y hy => hcm ▸ h.flip y (hall y hy)
      · exact .inl fun y hy => hrunning (hrun y hy) fun hfl => hmeet ⟨y, hy, hfl⟩
    · exact .inr fun y hy => h.final (hdone y hy) (by simp)
  · rcases h.cases hst' hne' with ⟨hfl, rfl⟩ | hst'
    · exact hfiles g p hp x hx hfl
    · exact hs.files_decided g p hp x hx st' hst' hne'
  · rcases hprep g p hp with hout | hsub
    · refine (hs.prepared_state g p hp hg).imp (fun hopen x hx => ?_) h.decided
      exact ⟨hrunning (hopen x hx).1 (hout x hx), (hopen x hx).2⟩
    · refine .inr ⟨st, ?_, fun x hx => h.flip x (hsub hx)⟩
      rcases hst with rfl | rfl <;> simp

/-- Flip XIDs that no Commit record, state file or prepared entry has. -/
theorem SharedInv.flip_private {m : TransactionManager} {fl : List ℕ} {st : XidStatus}
    (hs : SharedInv s) (hst : st = .committed ∧ (∀ x ∈ fl, ¬ Logged s.wal x) ∨ st = .aborted)
    (hnext : m.nextXid = s.mgr.nextXid)
    (hclog : ∀ y, m.clog.lookup y = if y ∈ fl then some st else s.mgr.clog.lookup y)
    (hopen : Open s t) (hapart : Apart s t) (hsub : fl ⊆ t.members) :
    SharedInv { s with mgr := m } := by
  refine hs.flip (hst.imp And.left id) (.of_eq hs hnext hclog fun x hx => (hopen x (hsub hx)).1)
    (fun hc x hx hlog => ?_) (fun _ x hx => (hopen x (hsub hx)).2.1)
    (fun l p subs hr x hx hfl => absurd ⟨l, _, hr, hx⟩ (hopen x (hsub hfl)).2.1)
    (fun g p hp x hx hfl => absurd hx (hapart g p (.inl hp) x (hsub hfl)))
    fun g p hp => .inl fun x hx hfl => hapart g p (.inr hp) x (hsub hfl) hx
  rcases hst with ⟨-, hno⟩ | rfl
  · exact absurd hlog (hno x hx)
  · cases hc

/-- The flip of a running family succeeds and reaches every member. -/
theorem terminate_family {m : TransactionManager} (st : XidStatus) (force : Bool)
    (h : ∀ x ∈ t.members, m.clog.lookup x = some .inProgress) :
    ∃ m', m.terminateWithSubxids t.xid t.subs st force = .ok m' ∧ m'.nextXid = m.nextXid ∧
      ∀ y, m'.clog.lookup y = if y ∈ t.members then some st else m.clog.lookup y := by
  obtain ⟨m', hm⟩ : ∃ m', m.terminateWithSubxids t.xid t.subs st force = .ok m' := by
    unfold terminateWithSubxids
    rw [h _ (self_mem t)]
    exact ⟨_, rfl⟩
  obtain ⟨-, hlook, -, hnext, -, -⟩ := terminate_ok hm
  refine ⟨m', hm, hnext, fun y => ?_⟩
  rw [hlook, Family.members]
  by_cases hy : y = t.xid
  · simp [hy]
  · by_cases hsub : y ∈ t.subs
    · simp [hy, hsub, h y (List.mem_cons_of_mem _ hsub), foldStatus]
    · simp [hy, hsub]

theorem Shared.terminate_eq (st : XidStatus) (force : Bool)
    (h : ∀ x ∈ t.members, s.mgr.clog.lookup x = some .inProgress) :
    ∃ m, s.terminate t st force = { s with mgr := m } ∧ m.nextXid = s.mgr.nextXid ∧
      ∀ y, m.clog.lookup y = if y ∈ t.members then some st else s.mgr.clog.lookup y := by
  obtain ⟨m, hm, hnext, hlook⟩ := terminate_family st force h
  refine ⟨m, ?_, hnext, hlook⟩
  unfold Shared.terminate
  rw [hm]

variable (hs : SharedInv s)

include hs

theorem lookup_nextXid : s.mgr.clog.lookup s.mgr.nextXid = none := by
  by_contra h
  obtain ⟨st, hst⟩ := ne_none_iff_exists'.1 h
  exact absurd (hs.bounded _ _ hst).2 (lt_irrefl _)

theorem lookup_alloc (h : s.mgr.clog.lookup x ≠ none) :
    s.mgr.allocPublished.clog.lookup x = s.mgr.clog.lookup x := by
  rw [lookup_allocPublished, if_neg]
  rintro rfl
  exact h (lookup_nextXid hs)

namespace SharedInv

theorem alloc : SharedInv { s with mgr := s.mgr.allocPublished } := by
  have hlook := lookup_allocPublished (m := s.mgr)
  have h : Flips s s.mgr.allocPublished [] .aborted := by
    refine ⟨Nat.le_succ _, fun y st hy => ?_, nofun, nofun, fun x _ => ?_⟩
    · rw [hlook] at hy
      split_ifs at hy with h
      · subst h
        exact ⟨hs.next_normal, Nat.lt_succ_self _⟩
      · exact ⟨(hs.bounded y st hy).1, (hs.bounded y st hy).2.trans (Nat.lt_succ_self _)⟩
    · rw [hlook]
      split_ifs with h
      · exact .inr ⟨h ▸ lookup_nextXid hs, rfl⟩
      · exact .inl rfl
  exact hs.flip (.inr rfl) h nofun nofun nofun nofun fun _ _ _ => .inl fun _ _ => List.not_mem_nil

/-! ## Prepared transactions -/

theorem insertTorn (hg : s.files.lookup g = none) :
    SharedInv { s with torn := s.torn.insert g t } := by
  refine { hs with torn_free := fun g' p hp => ?_ }
  rcases lookup_insert_cases hp with ⟨rfl, -⟩ | ⟨-, hp⟩
  · exact hg
  · exact hs.torn_free g' p hp

/-- The incomplete file has become complete. -/
theorem insertFile (hopen : Open s t) (hapart : Apart s t)
    (hg : s.files.lookup g = none) :
    SharedInv { s with files := s.files.insert g t, torn := s.torn.erase g } := by
  refine { hs with
    torn_free := fun g' p hp => by
      obtain ⟨hne, hp⟩ := lookup_of_erase hp
      exact (AList.lookup_insert_ne hne).trans (hs.torn_free g' p hp)
    files_known := fun g' p hp x hx => ?_
    files_disjoint := fun g₁ g₂ p₁ p₂ hp₁ hp₂ hne x hx₁ hx₂ => ?_
    files_own := fun g' p hp x hx l r hr hd => ?_
    files_decided := fun g' p hp x hx st hst hne => ?_
    prepared_file := fun g' p hp =>
      (hs.prepared_file g' p hp).imp (lookup_insert_of_none hg) id }
  · rcases lookup_insert_cases hp with ⟨-, rfl⟩ | ⟨-, hp⟩
    · simp [(hopen x hx).1]
    · exact hs.files_known g' p hp x hx
  · rcases lookup_insert_cases hp₁ with ⟨rfl, rfl⟩ | ⟨-, h₁⟩ <;>
      rcases lookup_insert_cases hp₂ with ⟨rfl, rfl⟩ | ⟨-, h₂⟩
    · exact hne rfl
    · exact hapart g₂ p₂ (.inl h₂) x hx₁ hx₂
    · exact hapart g₁ p₁ (.inl h₁) x hx₂ hx₁
    · exact hs.files_disjoint g₁ g₂ p₁ p₂ h₁ h₂ hne x hx₁ hx₂
  · rcases lookup_insert_cases hp with ⟨-, rfl⟩ | ⟨-, hp⟩
    · rcases hd with hd | hd
      · exact absurd ⟨l, r, hr, hd⟩ (hopen x hx).2.1
      · exact absurd ⟨l, r, hr, hd⟩ (hopen x hx).2.2
    · exact hs.files_own g' p hp x hx l r hr hd
  · rcases lookup_insert_cases hp with ⟨-, rfl⟩ | ⟨-, hp⟩
    · exact absurd (some.inj ((hopen x hx).1.symm.trans hst)).symm hne
    · exact hs.files_decided g' p hp x hx st hst hne

/-- Remove a state file that no undecided prepared transaction has. -/
theorem eraseFile
    (hg : ∀ p, s.prepared.lookup g = some p → s.files.lookup g = some p → Decided s p) :
    SharedInv { s with files := s.files.erase g } := by
  have hlook : ∀ {g' p}, (s.files.erase g).lookup g' = some p → s.files.lookup g' = some p :=
    fun h => (lookup_of_erase h).2
  refine { hs with
    files_known := fun g' p hp => hs.files_known g' p (hlook hp)
    files_disjoint := fun g₁ g₂ p₁ p₂ hp₁ hp₂ =>
      hs.files_disjoint g₁ g₂ p₁ p₂ (hlook hp₁) (hlook hp₂)
    torn_free := fun g' p hp => eq_none_iff_forall_not_mem.2 fun q hq =>
      nomatch (hs.torn_free g' p hp).symm.trans (hlook hq)
    files_own := fun g' p hp => hs.files_own g' p (hlook hp)
    files_decided := fun g' p hp => hs.files_decided g' p (hlook hp)
    prepared_file := fun g' p hp => ?_ }
  rcases hs.prepared_file g' p hp with h | h
  · by_cases he : g' = g
    · subst he
      exact .inr (hg p hp h)
    · exact .inl ((AList.lookup_erase_ne he).trans h)
  · exact .inr h

theorem insertPrepared (hopen : Open s t) (hfile : s.files.lookup g = some t)
    (hprep : ∀ g' p, s.prepared.lookup g' = some p → ∀ x ∈ t.members, x ∉ p.members) :
    SharedInv { s with prepared := s.prepared.insert g t } := by
  refine { hs with
    prepared_known := fun g' p hp x hx => ?_
    prepared_disjoint := fun g₁ g₂ p₁ p₂ hp₁ hp₂ hne x hx₁ hx₂ => ?_
    prepared_state := fun g' p hp hg => ?_
    prepared_file := fun g' p hp => ?_ }
  · rcases lookup_insert_cases hp with ⟨-, rfl⟩ | ⟨-, hp⟩
    · simp [(hopen x hx).1]
    · exact hs.prepared_known g' p hp x hx
  · rcases lookup_insert_cases hp₁ with ⟨rfl, rfl⟩ | ⟨-, h₁⟩ <;>
      rcases lookup_insert_cases hp₂ with ⟨rfl, rfl⟩ | ⟨-, h₂⟩
    · exact hne rfl
    · exact hprep g₂ p₂ h₂ x hx₁ hx₂
    · exact hprep g₁ p₁ h₁ x hx₂ hx₁
    · exact hs.prepared_disjoint g₁ g₂ p₁ p₂ h₁ h₂ hne x hx₁ hx₂
  · rcases lookup_insert_cases hp with ⟨-, rfl⟩ | ⟨-, hp⟩
    · exact .inl hopen
    · exact hs.prepared_state g' p hp hg
  · rcases lookup_insert_cases hp with ⟨rfl, rfl⟩ | ⟨-, hp⟩
    · exact .inl hfile
    · exact hs.prepared_file g' p hp

theorem erasePrepared (g : ℕ) : SharedInv { s with prepared := s.prepared.erase g } := by
  have hlook : ∀ {g' p}, (s.prepared.erase g).lookup g' = some p →
      s.prepared.lookup g' = some p := fun h => (lookup_of_erase h).2
  exact { hs with
    prepared_known := fun g' p hp => hs.prepared_known g' p (hlook hp)
    prepared_disjoint := fun g₁ g₂ p₁ p₂ hp₁ hp₂ =>
      hs.prepared_disjoint g₁ g₂ p₁ p₂ (hlook hp₁) (hlook hp₂)
    prepared_state := fun g' p hp => hs.prepared_state g' p (hlook hp)
    prepared_file := fun g' p hp => hs.prepared_file g' p (hlook hp) }

theorem reserve (g : ℕ) : SharedInv { s with resolving := g :: s.resolving } :=
  { hs with
    prepared_state := fun g' p hp hg' =>
      hs.prepared_state g' p hp fun h => hg' (List.mem_cons_of_mem _ h) }

/-- Give a reservation up, with the prepared transaction open or decided. -/
theorem release (hg : ∀ p, s.prepared.lookup g = some p → Open s p ∨ Decided s p) :
    SharedInv (s.release g) := by
  refine { hs with prepared_state := fun g' p hp hg' => ?_ }
  by_cases he : g' = g
  · subst he
    exact hg p hp
  · refine hs.prepared_state g' p hp fun h => hg' ?_
    exact List.mem_filter.2 ⟨h, by simpa using he⟩

/-! ## Checkpoints and the log file -/

theorem setSnapshot {sn : ClogSnapshot} {redo : ℕ} (hlsn : sn.lsn < s.wal.durable)
    (hcov : Covers s redo [] sn.entries) (hex : Exact s sn.entries) :
    SharedInv { s with snapshot := some sn } := by
  refine { hs with
    snapshot_lsn := fun sn' h => ?_
    snapshot_clog := fun sn' h => ?_
    recycled := fun l r hl hr x hx => ⟨sn, rfl, ?_⟩ }
  · obtain rfl := some.inj h
    exact hlsn
  · obtain rfl := some.inj h
    exact hex
  · -- the old snapshot has the XID, so its status is final
    obtain ⟨sn', hsn', e, he, rfl⟩ := hs.recycled l r hl hr x hx
    obtain ⟨hst, hne⟩ := hs.snapshot_clog sn' hsn' e he
    exact (hcov.2 l r (.inr hl) hr e.1 hx e.2 hst hne).resolve_left nofun

/-- Recycle segments whose records are all in the snapshot. -/
theorem recycle {target : ℕ}
    (hsnap : ∀ (l : ℕ) r, l < target → s.wal.log[l]? = some r → InSnapshot s r)
    (hfiles : ∀ p ∈ s.files.values, ∀ r ∈ s.wal.log.take (s.wal.truncateBelow target).floor,
      r.decision p.xid = none) : SharedInv { s with wal := s.wal.truncateBelow target } := by
  refine { hs with
    recycled := fun l r hl hr x hx => ?_
    files_own := fun g p hp x hx l r hr hd => ?_ }
  · have hfl := (s.wal.truncateBelow_floor target).2
    rcases Nat.lt_or_ge l s.wal.floor with h | h
    · exact hs.recycled l r h hr x hx
    · refine hsnap l r ?_ hr x hx
      exact (lt_max_iff.1 (hl.trans_le hfl)).resolve_left (Nat.not_lt.2 h)
  · obtain ⟨-, d, rfl⟩ := hs.files_own g p hp x hx l r hr hd
    refine ⟨?_, d, rfl⟩
    -- a recycled decision record would decide the family's own XID
    by_contra hlt
    have hmem : d.record p ∈ s.wal.log.take (s.wal.truncateBelow target).floor :=
      List.mem_iff_getElem?.2 ⟨l, by rw [List.getElem?_take, if_pos (Nat.not_le.1 hlt)]; exact hr⟩
    have := hfiles p (mem_values_of_lookup hp) _ hmem
    cases d <;> simp [Decision.record, Rec.decision] at this

theorem fsync (k : ℕ) : SharedInv { s with wal := s.wal.fsync k } := by
  have hd := s.wal.durable_le_fsync k
  exact { hs with
    committed_durable := fun x hx hlog =>
      let ⟨l, r, hl, hr⟩ := hs.committed_durable x hx hlog
      ⟨l, r, hl.trans_le hd, hr⟩
    snapshot_lsn := fun sn hsn => (hs.snapshot_lsn sn hsn).trans_le hd
    files_decided := fun g p hp x hx st hst hne =>
      let ⟨l, d, hl, hr⟩ := hs.files_decided g p hp x hx st hst hne
      ⟨l, d, hl.trans_le hd, hr⟩ }

theorem roll : SharedInv { s with wal := s.wal.roll } := { hs with }

theorem recordFirstLsn (x lsn : ℕ) : SharedInv (s.recordFirstLsn x lsn) := by
  unfold Shared.recordFirstLsn
  split_ifs
  · exact { hs with }
  · exact hs

end SharedInv

end UltraSql.Recovery
