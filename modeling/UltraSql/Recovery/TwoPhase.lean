import UltraSql.Recovery.CrashSafety

/-!
# The decision on a prepared transaction is final

A COMMIT PREPARED or ROLLBACK PREPARED is decided when its record is durable. For a commit the
record has the whole family. For an abort it has the parent only, and the rest of the family is
aborted by its own records: `FamilyInv` follows it through crashes. A member without any record
would be unknown after startup, so the condition asks that each member has one.

**Theorem (`decision_final`).** In every run whose steps are safe, once the decision record is
durable, no later state has the opposite status for a member of the family, after a restart every
member has the decided status and is not prepared, and an opposite command never gets past
`validate_prepared`.
-/

namespace UltraSql.Recovery

open TransactionManager List Function Option

/-! ## Records that a step appends -/

section Steps

variable {s s' : Shared} {pc pc' : Pc} {a : Act} {t p q : Family} {x y g lsn l : ℕ} {r : Rec}
  {d : Decision}

/-- The record that a section appends. -/
def appended (pc : Pc) : Act → Option Rec
  | .write x =>
    match pc with
    | .active _ _ => some (.data x)
    | _ => none
  | .commit =>
    match pc with
    | .active t true => some (.commit t.xid t.subs)
    | _ => none
  | .next =>
    match pc with
    | .aborting x => some (.abort x [])
    | .validated _ p d => some (d.record p)
    | _ => none
  | .log => some .other
  | _ => none

theorem Shared.recordFirstLsn_frame (s : Shared) (x lsn : ℕ) :
    (s.recordFirstLsn x lsn).wal = s.wal ∧
      (s.recordFirstLsn x lsn).recoveredLsn = s.recoveredLsn := by
  unfold Shared.recordFirstLsn
  split_ifs <;> exact ⟨rfl, rfl⟩

theorem Shared.terminate_frame (s : Shared) (t : Family) (st : XidStatus) (force : Bool) :
    (s.terminate t st force).wal = s.wal ∧
      (s.terminate t st force).recoveredLsn = s.recoveredLsn := by
  unfold Shared.terminate
  split <;> exact ⟨rfl, rfl⟩

/-- What a step does to the log. -/
def LogStep (s : Shared) (o : Option Rec) (s' : Shared) : Prop :=
  s'.wal.log = s.wal.log ++ o.toList ∧ s'.recoveredLsn = s.recoveredLsn

theorem logStep_same (h : s'.wal.log = s.wal.log) (h' : s'.recoveredLsn = s.recoveredLsn) :
    LogStep s none s' := ⟨by simpa using h, h'⟩

theorem logStep_wal (h : s'.wal = s.wal ∧ s'.recoveredLsn = s.recoveredLsn) : LogStep s none s' :=
  logStep_same (by rw [h.1]) h.2

theorem logStep_next (h : next s pc = some (s', pc')) : LogStep s (appended pc .next) s' := by
  have hfirst : ∀ x lsn, LogStep s none (s.recordFirstLsn x lsn) := fun x lsn =>
    logStep_wal (s.recordFirstLsn_frame x lsn)
  cases pc with
  | recording | committing | aborted | deciding => cases h; exact hfirst _ _
  | committed t lsn =>
    simp only [next] at h
    split_ifs at h
    cases h
    exact logStep_wal (s.terminate_frame t _ _)
  | aborting | validated => cases h; exact ⟨rfl, rfl⟩
  | waiting g p d lsn =>
    simp only [next] at h
    split_ifs at h
    split at h
    · cases h; exact logStep_same rfl rfl
    · cases d <;> cases h
      exact logStep_same rfl rfl
  | exporting _ _ _ todo | pruning _ todo => cases todo <;> cases h; exact logStep_same rfl rfl
  | preparing | creating | filed =>
    simp only [next] at h; split_ifs at h <;> cases h <;> exact logStep_same rfl rfl
  | reserved g p d =>
    simp only [next] at h; split_ifs at h <;> cases h <;> exact logStep_same rfl rfl
  | _ => cases h <;> exact logStep_same rfl rfl

theorem logStep_fail (h : fail s pc = some (s', pc')) : LogStep s none s' := by
  cases pc with
  | finalised g p d => cases d <;> cases h; exact logStep_same rfl rfl
  | _ => cases h <;> exact logStep_same rfl rfl

theorem logStep_visit (h : visit s x pc = some (s', pc')) : LogStep s none s' := by
  cases pc with
  | pruning redo todo oldest ok =>
    simp only [visit] at h
    split at h
    · split_ifs at h <;> cases h <;> exact logStep_same rfl rfl
    · cases h; exact logStep_same rfl rfl
  | _ => cases h <;> exact logStep_same rfl rfl

theorem logStep_step (h : step s pc a = some (s', pc')) : LogStep s (appended pc a) s' := by
  cases a with
  | next => exact logStep_next h
  | fail => exact logStep_fail h
  | visit x => exact logStep_visit h
  | begin | savepoint | recycle => cases pc <;> cases h; exact logStep_same rfl rfl
  | rollbackTo | prepare | checkpoint =>
    cases pc <;> simp only [step, reduceCtorEq] at h
    split_ifs at h
    cases h
    exact logStep_same rfl rfl
  | write x =>
    cases pc <;> simp only [step, reduceCtorEq] at h
    split_ifs at h
    cases h
    exact ⟨rfl, rfl⟩
  | commit =>
    cases pc <;> simp only [step, reduceCtorEq] at h
    rename_i t wrote
    cases wrote <;> cases h
    · exact logStep_wal (s.terminate_frame t _ _)
    · exact ⟨rfl, rfl⟩
  | abort marker => cases pc <;> cases h; exact logStep_wal (s.terminate_frame _ _ _)
  | resolve g d =>
    cases pc <;> simp only [step, reduceCtorEq] at h
    split_ifs at h
    · cases h; exact logStep_same rfl rfl
    · split at h <;> cases h <;> exact logStep_same rfl rfl
  | fsync | roll => cases h; exact logStep_same rfl rfl
  | log => cases h; exact ⟨rfl, rfl⟩

theorem getElem?_logStep {o : Option Rec} (h : LogStep s o s') (hr : s'.wal.log[l]? = some r) :
    s.wal.log[l]? = some r ∨ l = s.wal.log.length ∧ o = some r := by
  rw [h.1] at hr
  cases o with
  | none => exact .inl (by simpa using hr)
  | some r' =>
    rcases (Wal.getElem?_append_eq_some s.wal (r := r')).1 hr with hr | ⟨hl, rfl⟩
    · exact .inl hr
    · exact .inr ⟨hl, rfl⟩

/-- An Abort record with a family is the one of a ROLLBACK PREPARED. -/
theorem appended_abort {subs : List ℕ} (h : appended pc a = some (.abort x subs)) (hy : y ∈ subs) :
    ∃ g, pc = .validated g ⟨x, subs⟩ .abort ∧ a = .next := by
  cases a <;> try cases h
  · cases pc <;> cases h
  · cases pc <;> simp only [appended, reduceCtorEq] at h
    rename_i wrote
    cases wrote <;> cases h
  · cases pc <;> simp only [appended, reduceCtorEq] at h
    · cases h
      cases hy
    · rename_i g p d
      cases d <;> cases h
      exact ⟨g, rfl, rfl⟩

/-! ## The family of a ROLLBACK PREPARED -/

/-- The thread has appended the Abort record and not yet flipped the family. -/
def Aborting (p : Family) (pc : Pc) : Prop :=
  ∃ g lsn, pc = .deciding g p .abort lsn ∨ pc = .waiting g p .abort lsn

theorem Aborting.own (h : Aborting p pc) : pc.own = p.members := by
  obtain ⟨g, lsn, rfl | rfl⟩ := h <;> rfl

/-- A thread that aborts a family goes on doing so until every member is aborted. -/
theorem Aborting.step (hpc : LocalInv s pc) (h : Aborting p pc)
    (hst : step s pc a = some (s', pc')) :
    Aborting p pc' ∨ ∀ y ∈ p.members, s'.mgr.clog.lookup y = some .aborted := by
  obtain ⟨g, lsn, rfl | rfl⟩ := h
  · left
    cases a <;> cases hst
    · exact ⟨g, lsn, .inr rfl⟩
    · exact ⟨g, lsn, .inl rfl⟩
    · exact ⟨g, lsn, .inl rfl⟩
    · exact ⟨g, lsn, .inl rfl⟩
  · cases a with
    | next =>
      obtain ⟨m, hm, -, hclog⟩ :=
        terminate_family Decision.abort.status true hpc.2.2.2.2
      simp only [Recovery.step, next, hm] at hst
      split_ifs at hst
      cases hst
      exact .inr fun y hy => by rw [hclog, if_pos hy]; rfl
    | fsync | roll | log => cases hst; exact .inl ⟨g, lsn, .inr rfl⟩
    | _ => cases hst

theorem Aborting.appended (h : Aborting p pc) (hr : appended pc a = some r) : r = .other := by
  obtain ⟨g, lsn, rfl | rfl⟩ := h <;> cases a <;> cases hr <;> rfl

theorem members_injective (h : p.members = q.members) : p = q := by
  cases p
  cases q
  cases h
  rfl

end Steps

/-- The XIDs that a decision record is about. -/
def Rec.family : Rec → List ℕ
  | commit x subs | abort x subs => x :: subs
  | data _ | other => []

/-- The savepoints of a ROLLBACK PREPARED whose Abort record is appended. -/
def rollbackSubs : Pc → Act → List ℕ
  | .validated _ p .abort, .next => p.subs
  | _, _ => []

/-- **The condition for two-phase commit.** The steps are safe, and a ROLLBACK PREPARED appends its
Abort record only if every savepoint of the family has a record. -/
def SafeTwoPhase {n : ℕ} (s : Program.State Shared Pc n) : Fin n × Act ⊕ ℕ → Prop
  | .inl (i, a) => Safe s (.inl (i, a)) ∧
      ∀ y ∈ rollbackSubs (s.loc i) a, ∃ r ∈ s.shared.wal.log, y ∈ r.names
  | .inr k => Safe s (.inr k)

instance {n : ℕ} : DecidableRel (SafeTwoPhase (n := n)) := fun s a =>
  match a with
  | .inl (i, a) => inferInstanceAs (Decidable (Safe s (.inl (i, a)) ∧
      ∀ y ∈ rollbackSubs (s.loc i) a, ∃ r ∈ s.shared.wal.log, y ∈ r.names))
  | .inr k => inferInstanceAs (Decidable (Safe s (.inr k)))

theorem SafeTwoPhase.safe {n : ℕ} {s : Program.State Shared Pc n} {a : Fin n × Act ⊕ ℕ}
    (h : SafeTwoPhase s a) : Safe s a := by
  cases a with
  | inl a => exact h.1
  | inr k => exact h

/-- What holds of a savepoint `y` of a family `p` that the record at `l` rolls back. -/
structure RolledBack {n : ℕ} (s : Program.State Shared Pc n) (l : ℕ) (p : Family) (y : ℕ) :
    Prop where
  named : ∃ l' < l, ∃ r, s.shared.wal.log[l']? = some r ∧ y ∈ r.names
  not_committed : ¬ Committed s.shared.wal y
  aborted : s.shared.mgr.clog.lookup y = some .aborted ∨ ∃ i, Aborting p (s.loc i)
  recovered : l < s.shared.recoveredLsn → s.shared.mgr.clog.lookup y = some .aborted
  files : ∀ g q, s.shared.files.lookup g = some q → y ∈ q.members → q = p

/-- The savepoints of every ROLLBACK PREPARED are rolled back, and no family is prepared whose
decision startup has replayed. -/
structure FamilyInv {n : ℕ} (s : Program.State Shared Pc n) : Prop where
  family : ∀ (l : ℕ) p, s.shared.wal.log[l]? = some (Decision.abort.record p) → ∀ y ∈ p.subs,
    RolledBack s l p y
  prepared : ∀ (l : ℕ) r, l < s.shared.recoveredLsn → s.shared.wal.log[l]? = some r →
    ∀ y ∈ r.family, ∀ g q, s.shared.prepared.lookup g = some q → y ∉ q.members

section Family

variable {n : ℕ} {s : Program.State Shared Pc n} {i : Fin n} {a : Act} {sh : Shared} {pc' : Pc}
  {p : Family} {l k g y : ℕ} {r : Rec} {fl : List ℕ}

/-- A decision that startup has replayed is final in the commit log. -/
theorem FamilyInv.final (hF : FamilyInv s) (hs : SharedInv s.shared)
    (hl : l < s.shared.recoveredLsn) (hr : s.shared.wal.log[l]? = some r) (hy : y ∈ r.family) :
    ∃ st, st ≠ .inProgress ∧ s.shared.mgr.clog.lookup y = some st := by
  cases r with
  | data x => cases hy
  | other => cases hy
  | commit x subs => exact ⟨_, by simp, hs.recovered_committed l _ y hl hr hy⟩
  | abort x subs =>
    rcases mem_cons.1 hy with rfl | hy
    · exact ⟨_, by simp, hs.recovered_aborted l _ y hl hr rfl⟩
    · exact ⟨_, by simp, (hF.family l ⟨x, subs⟩ hr y hy).recovered hl⟩

section

variable (hs : Program.Inv SharedInv LocalInv Separate s)
include hs

/-- Only the thread that aborts the family owns its savepoints. -/
theorem RolledBack.own (h : RolledBack s l p y) (hy : y ∈ p.subs) (hown : y ∈ (s.loc i).own) :
    Aborting p (s.loc i) := by
  rcases h.aborted with h | ⟨j, hj⟩
  · rw [(hs.loc i).own_inProgress hown] at h
    cases h
  · by_cases hij : j = i
    · exact hij ▸ hj
    · have hmem : y ∈ (s.loc j).own := hj.own ▸ mem_cons_of_mem _ hy
      exact absurd hown ((hs.pair j i hij).own y hmem)

/-- A step keeps what holds of a savepoint that is rolled back. -/
theorem RolledBack.step (h : RolledBack s l p y) (hy : y ∈ p.subs)
    (hkept : Kept s.shared (s.loc i) a sh pc')
    (hst : Recovery.step s.shared (s.loc i) a = some (sh, pc')) :
    RolledBack ({ shared := sh, loc := update s.loc i pc' } : Program.State Shared Pc n)
      l p y := by
  obtain ⟨fl, -, hfr⟩ := hkept.frame
  have hlog := logStep_step hst
  refine ⟨?_, ?_, ?_, fun hl => ?_, fun g q hq hyq => ?_⟩
  · obtain ⟨l', hl', r', hr', hy'⟩ := h.named
    exact ⟨l', hl', r', hfr.log l' r' hr', hy'⟩
  · rintro ⟨l', r', hr', hc⟩
    rcases hfr.newRec l' r' hr' with hr | ⟨hle, hnew⟩
    · exact h.not_committed ⟨l', r', hr, hc⟩
    · rcases hnew y hc.named with hown | hab
      · -- its thread appends no Commit record while it aborts the family
        have hap : appended (s.loc i) a = some r' := by
          refine ((getElem?_logStep hlog hr').resolve_left fun h' => ?_).2
          exact absurd (s.shared.wal.lt_length_of_getElem? h') (Nat.not_lt.2 hle)
        rw [(h.own hs hy hown).appended hap] at hc
        exact hc
      · exact hkept.shared.aborted_not_committed y (hfr.final (hs.loc i) hab (by simp))
          ⟨l', r', hr', hc⟩
  · rcases h.aborted with h | ⟨j, hj⟩
    · exact .inl (hfr.final (hs.loc i) h (by simp))
    · by_cases hij : j = i
      · subst hij
        rcases hj.step (hs.loc j) hst with h | h
        · exact .inr ⟨j, by simpa only [update_self] using h⟩
        · exact .inl (h y (mem_cons_of_mem _ hy))
      · exact .inr ⟨j, by simpa only [update_of_ne hij] using hj⟩
  · exact hfr.final (hs.loc i) (h.recovered (hlog.2 ▸ hl)) (by simp)
  · rcases hfr.filesNew g q hq with hq | hown
    · exact h.files g q hq hyq
    · exact members_injective (hown.trans (h.own hs hy (hown ▸ hyq)).own)

theorem rolledBack_new (hy : y ∈ p.subs) (hpc : s.loc i = .validated g p .abort)
    (hname : ∃ r ∈ s.shared.wal.log, y ∈ r.names)
    (hst : Recovery.step s.shared (s.loc i) .next = some (sh, pc')) :
    RolledBack ({ shared := sh, loc := update s.loc i pc' } : Program.State Shared Pc n)
      s.shared.wal.log.length p y := by
  have hI := hs.loc i
  rw [hpc] at hst hI
  cases hst
  obtain ⟨hg, hprep, hfile, hopen⟩ := hI
  have hmem : y ∈ p.members := mem_cons_of_mem _ hy
  refine ⟨?_, ?_, .inr ⟨i, g, s.shared.wal.nextLsn, .inl (update_self ..)⟩, fun hl => ?_,
    fun g' q hq hyq => ?_⟩
  · obtain ⟨r, hr, hyr⟩ := hname
    obtain ⟨l', hl', rfl⟩ := mem_iff_getElem.1 hr
    exact ⟨l', hl', _, s.shared.wal.getElem?_append_eq_some.2 (.inl (getElem?_eq_getElem hl')),
      hyr⟩
  · exact fun hc => (of_append hc).elim (hopen y hmem).2.1 id
  · have hl : s.shared.wal.log.length < s.shared.recoveredLsn := hl
    have := hs.shared.recovered_le
    omega
  · by_cases he : g' = g
    · subst he
      have hq : s.shared.files.lookup g' = some q := hq
      rw [hfile] at hq
      exact (some.inj hq).symm
    · exact absurd hmem (hs.shared.files_disjoint g' g q p hq hfile he y hyq)

theorem FamilyInv.step (hF : FamilyInv s) (hsafe : SafeTwoPhase s (.inl (i, a)))
    (hst : Recovery.step s.shared (s.loc i) a = some (sh, pc')) :
    FamilyInv ({ shared := sh, loc := update s.loc i pc' } : Program.State Shared Pc n) := by
  have hkept := kept_step hs.shared (hs.loc i) hsafe.1.1 hst
  have hlog := logStep_step hst
  refine ⟨fun l p hr y hy => ?_, fun l r hl hr y hy g q hq hyq => ?_⟩
  · rcases getElem?_logStep hlog hr with hr | ⟨rfl, hap⟩
    · exact (hF.family l p hr y hy).step hs hy hkept hst
    · obtain ⟨g, hpc, rfl⟩ := appended_abort hap hy
      exact rolledBack_new hs hy hpc (hsafe.2 y (by rw [hpc]; exact hy)) hst
  · obtain ⟨fl, -, hfr⟩ := hkept.frame
    have hl : l < s.shared.recoveredLsn := hlog.2 ▸ hl
    have hr : s.shared.wal.log[l]? = some r := by
      have := hs.shared.recovered_le
      exact (getElem?_logStep hlog hr).resolve_right fun h => by omega
    rcases hfr.preparedNew g q hq with hq | ⟨-, hopen⟩
    · exact hF.prepared l r hl hr y hy g q hq hyq
    · -- a family is prepared when it is running
      obtain ⟨st, hne, hclog⟩ := hF.final hs.shared hl hr hy
      have := (hopen y hyq).1
      rw [hfr.final (hs.loc i) hclog hne] at this
      exact hne (some.inj this)

end

variable {files : FiniteMap ℕ Family} {m : TransactionManager}

theorem RolledBack.named_crash (h : RolledBack s l p y)
    (hr : (s.shared.wal.crash k).log[l]? = some r) :
    ∃ l' < l, ∃ r, (s.shared.wal.crash k).log[l']? = some r ∧ y ∈ r.names := by
  obtain ⟨l', hl', r', hr', hy'⟩ := h.named
  have hlt : l < (s.shared.wal.fsync k).durable := (s.shared.wal.getElem?_crash_eq_some hr).2
  refine ⟨l', hl', r', ?_, hy'⟩
  rw [Wal.crash_log, getElem?_take, if_pos (hl'.trans hlt), hr']

/-- Startup aborts the savepoints of a ROLLBACK PREPARED. -/
theorem RolledBack.lookup_startup (h : RolledBack s l p y) (hs : SharedInv s.shared)
    (hy : y ∈ p.subs)
    (hS : Started (s.shared.wal.crash k) s.shared.snapshot s.shared.files m files)
    (hr : (s.shared.wal.crash k).log[l]? = some (Decision.abort.record p)) :
    m.clog.lookup y = some .aborted := by
  by_cases hfile : InFiles s.shared.files y
  · obtain ⟨g, q, hq, hyq⟩ := hfile
    obtain rfl := h.files g q hq hyq
    have hab : (Decision.abort.record q).Aborts q.xid := rfl
    obtain ⟨d, hd, hret⟩ := retained_parent hs hq (self_mem q) hr (.inr hab)
    cases d with
    | commit => cases hd
    | abort => exact (hS.resolved g q _ hq hret).2 y hyq
  · refine lookup_not_committed hs hS ?_ (fun hc => h.not_committed (crash_some hc)) hfile
    obtain ⟨l', -, hnamed⟩ := h.named_crash hr
    exact ⟨l', hnamed⟩

theorem FamilyInv.restarted (hF : FamilyInv s) (hs : SharedInv s.shared)
    (hS : Started (s.shared.wal.crash k) s.shared.snapshot s.shared.files m files) :
    FamilyInv ({ shared := s.shared.restarted k m files, loc := fun _ => .idle } :
      Program.State Shared Pc n) := by
  refine ⟨fun l p hr y hy => ?_, fun l r _ hr y hy g q hq hyq => ?_⟩
  · have h := hF.family l p (crash_rec hr) y hy
    have hab := h.lookup_startup hs hy hS hr
    exact ⟨h.named_crash hr, fun hc => h.not_committed (crash_some hc), .inl hab,
      fun _ => hab, fun g q hq => h.files g q (files_startup hS hq).1⟩
  · obtain ⟨hfile, hno⟩ := files_startup hS hq
    -- the surviving record would decide the state file
    have hout : ∀ z ∈ q.members, ¬ (r.Commits z ∨ r.Aborts z) := fun z hz =>
      hno.not_decided hs hfile hz hr
    cases r with
    | data x => cases hy
    | other => cases hy
    | commit x subs => exact hout y hyq (.inl hy)
    | abort x subs =>
      rcases mem_cons.1 hy with rfl | hsub
      · exact hout y hyq (.inr rfl)
      · obtain rfl := (hF.family l ⟨x, subs⟩ (crash_rec hr) y hsub).files g q hfile hyq
        exact hout x mem_cons_self (.inr rfl)

/-- **The family invariant of every run.** -/
theorem familyInv_of_reach (h : (machine n).Reach SafeTwoPhase s) : FamilyInv s := by
  refine Machine.Reach.invariant (P := FamilyInv) ?_ ?_ h
  · refine ⟨fun l p hr => ?_, nofun⟩
    have := mem_singleton.1 (mem_of_getElem? hr)
    cases this
  · intro s a s' hreach hF hsafe hst
    have hs := inv_of_reach (hreach.mono fun s a h => h.safe)
    cases a with
    | inl a =>
      obtain ⟨i, a⟩ := a
      simp only [machine, Program.crashMachine] at hst
      split at hst
      · rename_i sh l hl
        obtain rfl := some.inj hst
        exact hF.step hs hsafe hl
      · cases hst
    | inr k =>
      obtain ⟨sh', hk, rfl⟩ := map_eq_some_iff.1 hst
      obtain ⟨m, files, hcrash, hS, -⟩ := crash_spec hs.shared (crash_complete hk) k
      rw [hcrash] at hk
      cases hk
      exact hF.restarted hs.shared hS

/-! ## The decision is final -/

def Decision.opposite : Decision → Decision
  | commit => abort
  | abort => commit

/-- The thread has validated the prepared transaction for this decision and not yet flipped it. -/
def Accepted (g : ℕ) (p : Family) (d : Decision) (pc : Pc) : Prop :=
  pc = .validated g p d ∨ ∃ lsn, pc = .deciding g p d lsn ∨ pc = .waiting g p d lsn

/-- A durable record is in all later states. -/
theorem durable_stays {s' : Program.State Shared Pc n} (h : (machine n).Reach SafeTwoPhase s)
    (hl : l < s.shared.wal.durable) (hr : s.shared.wal.log[l]? = some r)
    (h' : ((machine n).startAt s).Reach SafeTwoPhase s') :
    (machine n).Reach SafeTwoPhase s' ∧ l < s'.shared.wal.durable ∧
      s'.shared.wal.log[l]? = some r := by
  refine Machine.Reach.invariant (M := (machine n).startAt s) (P := fun s' =>
    (machine n).Reach SafeTwoPhase s' ∧ l < s'.shared.wal.durable ∧
      s'.shared.wal.log[l]? = some r) ⟨h, hl, hr⟩ ?_ h'
  rintro s a s' - ⟨hreach, hl, hr⟩ hsafe hst
  refine ⟨.step a hreach hsafe hst, ?_⟩
  have hs := inv_of_reach (hreach.mono fun s a h => h.safe)
  cases a with
  | inl a =>
    obtain ⟨i, a⟩ := a
    simp only [Machine.startAt, machine, Program.crashMachine] at hst
    split at hst
    · rename_i sh pc hpc
      obtain rfl := some.inj hst
      obtain ⟨fl, -, hfr⟩ := (kept_step hs.shared (hs.loc i) hsafe.1.1 hpc).frame
      exact ⟨hl.trans_le hfr.durable, hfr.log l r hr⟩
    · cases hst
  | inr k =>
    obtain ⟨sh', hk, rfl⟩ := map_eq_some_iff.1 hst
    obtain ⟨m, files, hcrash, -, -⟩ := crash_spec hs.shared (crash_complete hk) k
    rw [hcrash] at hk
    cases hk
    exact ⟨hl.trans_le (s.shared.wal.durable_le_fsync k), (crash_durable hl).trans hr⟩

/-- Every member is committed by the record, aborted by it, or a savepoint that it rolls back. -/
theorem member_cases (d : Decision) (hy : y ∈ p.members) :
    (d.record p).Commits y ∨ (d.record p).Aborts y ∨ d = .abort ∧ y ∈ p.subs := by
  cases d with
  | commit => exact .inl hy
  | abort => exact .inr ((mem_cons.1 hy).imp_right fun hy => ⟨rfl, hy⟩)

variable {d d' : Decision}

theorem record_aborts (h : (d.record p).Aborts y) : d = .abort := by
  cases d with
  | commit => exact h.elim
  | abort => rfl

theorem record_commits (h : (d.record p).Commits y) : d = .commit := by
  cases d with
  | commit => rfl
  | abort => exact h.elim

/-- Two decision records of one family agree. -/
theorem record_unique {sh : Shared} {l' : ℕ} (hs : SharedInv sh)
    (hr : sh.wal.log[l]? = some (d.record p)) (hr' : sh.wal.log[l']? = some (d'.record p)) :
    d' = d := by
  have hno := hs.one_decision p.xid
  cases d <;> cases d'
  · rfl
  · exact absurd ⟨l, _, hr, mem_cons_self⟩ (hno ⟨l', _, hr', rfl⟩)
  · exact absurd ⟨l', _, hr', mem_cons_self⟩ (hno ⟨l, _, hr, rfl⟩)
  · rfl

/-- A family that an accepted command resolves is decided by no other record. -/
theorem accepted_unique {q : Family} {pc : Pc} (hF : FamilyInv s)
    (hs : Program.Inv SharedInv LocalInv Separate s)
    (hr : s.shared.wal.log[l]? = some (d.record p)) (hpc : s.loc i = pc)
    (hacc : Accepted g q d' pc) (hyq : y ∈ q.members) (hy : y ∈ p.members) : d' = d := by
  have hI := hs.loc i
  rw [hpc] at hI
  rcases hacc with rfl | ⟨lsn, hacc⟩
  · -- a validated transaction is undecided
    obtain ⟨-, -, -, hopen⟩ := hI
    rcases member_cases d hy with hc | ha | ⟨rfl, hsub⟩
    · exact absurd ⟨l, _, hr, hc⟩ (hopen y hyq).2.1
    · exact absurd ⟨l, _, hr, ha⟩ (hopen y hyq).2.2
    · obtain ⟨g', lsn, h | h⟩ :=
        (hF.family l p hr y hsub).own (i := i) hs hsub (by rw [hpc]; exact hyq) <;>
        cases hpc.symm.trans h
  · have hI : Deciding s.shared g q d' lsn := by rcases hacc with rfl | rfl <;> exact hI
    obtain ⟨-, -, hfile, hr', -⟩ := hI
    have hown : ∀ z ∈ q.members, (d.record p).Commits z ∨ (d.record p).Aborts z → d' = d := by
      intro z hz hd
      obtain ⟨-, d₂, h₂⟩ := hs.shared.files_own g q hfile z hz l _ hr hd
      rw [h₂] at hr
      rw [record_unique hs.shared hr hr']
      cases d <;> cases d₂ <;> first | rfl | cases h₂
    rcases member_cases d hy with hc | ha | ⟨rfl, hsub⟩
    · exact hown y hyq (.inl hc)
    · exact hown y hyq (.inr ha)
    · obtain rfl := (hF.family l p hr y hsub).files g q hfile hyq
      exact hown q.xid (self_mem q) (.inr rfl)

/-- **The decision is final.** Once the decision record of a family is durable, in every later
state: no member has the opposite status; when startup has replayed the record, every member has the
decided status and is in no prepared transaction; and no opposite command on a transaction with one
of these members is accepted. -/
theorem decision_final {s' : Program.State Shared Pc n} {d : Decision}
    (h : (machine n).Reach SafeTwoPhase s) (hl : l < s.shared.wal.durable)
    (hr : s.shared.wal.log[l]? = some (d.record p))
    (h' : ((machine n).startAt s).Reach SafeTwoPhase s') :
    (∀ y ∈ p.members, s'.shared.mgr.clog.lookup y ≠ some d.opposite.status) ∧
    (l < s'.shared.recoveredLsn → ∀ y ∈ p.members, s'.shared.mgr.clog.lookup y = some d.status ∧
      ∀ g q, s'.shared.prepared.lookup g = some q → y ∉ q.members) ∧
    ∀ i g q, Accepted g q d.opposite (s'.loc i) → ∀ y ∈ p.members, y ∉ q.members := by
  obtain ⟨hreach, -, hr⟩ := durable_stays h hl hr h'
  have hs := inv_of_reach (hreach.mono fun s a h => h.safe)
  have hF := familyInv_of_reach hreach
  refine ⟨fun y hy hst => ?_, fun hrec y hy => ⟨?_, ?_⟩, fun i g q hacc y hy hyq => ?_⟩
  · rcases member_cases d hy with hc | ha | ⟨rfl, hsub⟩
    · rw [record_commits hc] at hst
      exact hs.shared.aborted_not_committed y hst ⟨l, _, hr, hc⟩
    · rw [record_aborts ha] at hst
      obtain ⟨l', r', -, hr', hc'⟩ := hs.shared.committed_durable y hst ⟨l, _, hr, ha.named⟩
      exact hs.shared.one_decision y ⟨l, _, hr, ha⟩ ⟨l', r', hr', hc'⟩
    · have hrb := hF.family l p hr y hsub
      obtain ⟨l', -, r', hr', hy'⟩ := hrb.named
      obtain ⟨l₂, r₂, -, hr₂, hc₂⟩ := hs.shared.committed_durable y hst ⟨l', r', hr', hy'⟩
      exact hrb.not_committed ⟨l₂, r₂, hr₂, hc₂⟩
  · rcases member_cases d hy with hc | ha | ⟨rfl, hsub⟩
    · rw [record_commits hc]
      exact hs.shared.recovered_committed l _ y hrec hr hc
    · rw [record_aborts ha]
      exact hs.shared.recovered_aborted l _ y hrec hr ha
    · exact (hF.family l p hr y hsub).recovered hrec
  · refine hF.prepared l _ hrec hr y ?_
    cases d <;> exact hy
  · have := accepted_unique hF hs hr rfl hacc hyq hy
    cases d <;> cases this

end Family

/-! ## Runs -/

/-- A transaction with a savepoint is prepared under the name 0. -/
def preparedRun : List (Fin 1 × Act ⊕ ℕ) :=
  [.begin, .savepoint, .write 4, .next, .fsync 2, .prepare 0, .next, .next, .next, .next].map
    fun a => .inl (Fin.last 0, a)

/-- A durable ROLLBACK PREPARED, then a crash: the transaction and its savepoint are aborted. -/
theorem rollback_prepared_survives :
    ∃ s s', (machine 1).Reach SafeTwoPhase s ∧
      ((machine 1).startAt s).Reach SafeTwoPhase s' ∧
      s.shared.mgr.clog.lookup 4 = some .inProgress ∧ 2 < s'.shared.recoveredLsn ∧
      s'.shared.mgr.clog.lookup 3 = some .aborted ∧
      s'.shared.mgr.clog.lookup 4 = some .aborted := by
  obtain ⟨s, hreach, hdur, hr, hin, hnext⟩ :=
    Machine.exists_reach_of_runIf (M := machine 1) (C := SafeTwoPhase)
      (p := fun s => 2 < s.shared.wal.durable ∧
        s.shared.wal.log[2]? = some (Decision.abort.record ⟨3, [4]⟩) ∧
        s.shared.mgr.clog.lookup 4 = some .inProgress ∧
        (((machine 1).startAt s).runIf SafeTwoPhase s [.inr 0]).any
          (fun s' => decide (2 < s'.shared.recoveredLsn)) = true)
      (preparedRun ++ [.inl (0, .resolve 0 .abort), .inl (0, .next), .inl (0, .next),
        .inl (0, .next), .inl (0, .fsync 3)]) (by decide)
  obtain ⟨s', hreach', hrec⟩ :=
    Machine.exists_reach_of_runIf (M := (machine 1).startAt s) (C := SafeTwoPhase) [.inr 0] hnext
  obtain ⟨-, hdone, -⟩ := decision_final hreach hdur hr hreach'
  exact ⟨s, s', hreach, hreach', hin, hrec, (hdone hrec 3 (by decide)).1,
    (hdone hrec 4 (by decide)).1⟩

/-- COMMIT PREPARED is durable and flipped, and the removal of the state file fails. A checkpoint
recycles the Commit record. After a crash the state file makes the transaction prepared again, the
snapshot does not overwrite that, and ROLLBACK PREPARED aborts it. -/
theorem committed_prepared_rolled_back :
    ∃ s s' : Program.State Shared Pc 1, (machine 1).Reach Machine.Always s ∧
      ((machine 1).startAt s).Reach Machine.Always s' ∧ 2 < s.shared.wal.durable ∧
      s.shared.wal.log[2]? = some (Decision.commit.record ⟨3, [4]⟩) ∧
      s.shared.mgr.clog.lookup 3 = some .committed ∧
      s'.shared.mgr.clog.lookup 3 = some .aborted := by
  obtain ⟨s, hreach, hdur, hr, hcommitted, hnext⟩ :=
    Machine.exists_reach_of_runIf (M := machine 1) (C := Machine.Always)
      (p := fun s => 2 < s.shared.wal.durable ∧
        s.shared.wal.log[2]? = some (Decision.commit.record ⟨3, [4]⟩) ∧
        s.shared.mgr.clog.lookup 3 = some .committed ∧
        (((machine 1).startAt s).runIf Machine.Always s
          [.inl (0, .roll), .inl (0, .log), .inl (0, .fsync 4), .inl (0, .checkpoint 3 3),
            .inl (0, .visit 3), .inl (0, .visit 4), .inl (0, .next), .inl (0, .next),
            .inl (0, .next), .inl (0, .visit 3), .inl (0, .visit 4), .inl (0, .next),
            .inl (0, .recycle 3), .inr 0, .inl (0, .resolve 0 .abort), .inl (0, .next),
            .inl (0, .next), .inl (0, .next), .inl (0, .fsync 5), .inl (0, .next)]).any
          (fun s' => decide (s'.shared.mgr.clog.lookup 3 = some .aborted)) = true)
      (preparedRun ++ [.inl (0, .resolve 0 .commit), .inl (0, .next), .inl (0, .next),
        .inl (0, .next), .inl (0, .fsync 3), .inl (0, .next), .inl (0, .fail)]) (by decide)
  obtain ⟨s', hreach', haborted⟩ :=
    Machine.exists_reach_of_runIf (M := (machine 1).startAt s) (C := Machine.Always) _ hnext
  exact ⟨s, s', hreach, hreach', hdur, hr, hcommitted, haborted⟩

end UltraSql.Recovery
