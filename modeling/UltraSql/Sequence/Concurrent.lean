import UltraSql.Lib.FiniteMap
import UltraSql.Lib.Machine
import UltraSql.Sequence.Generator
import UltraSql.Storage.Wal

/-!
# Concurrent calls of nextval

Any number of transactions call `nextval_logged` on one sequence. A call advances the state under
the lock of the sequence, takes the lock again for a snapshot of the state, and appends the snapshot
to the log. In between other calls go on, so the snapshot may be ahead of the value that the call
returns, and two snapshots may reach the log in either order. A crash keeps a part of the log that
has all that is durable, and startup installs one snapshot after the other.

**Theorem (`nextval_never_repeats`).** As long as no snapshot reaches the log after a later one, a
value that was returned to a transaction whose commit is durable is not returned again, and startup
does not fail.

**Theorem (`nextval_repeats`).** A snapshot that reaches the log late takes the sequence back.
-/

namespace UltraSql.Sequence

open List Function

/-! ## State -/

/-- The records that matter to the sequence. -/
inductive Rec
  | nop
  | sequenceOp (p : SequenceOpPayload)
  | commit (x : ℕ)
  deriving DecidableEq

def Rec.op? : Rec → Option SequenceOpPayload
  | sequenceOp p => some p
  | _ => none

inductive Job
  /-- it has not begun, or is over -/
  | out
  | idle
  /-- the state has been advanced -/
  | advanced (v : I64)
  /-- the snapshot for the record has been taken -/
  | copied (v : I64) (p : SequenceSnapshot)
  deriving DecidableEq

/-- The value that a call is going to return. -/
def Job.value : Job → Option I64
  | advanced v | copied v _ => some v
  | _ => none

structure State where
  wal : Wal Rec
  /-- the entry of the sequence in the map of sequences -/
  seq : Option SequenceState
  job : ℕ → Job := fun _ => .out
  nextTxn : ℕ := 0
  /-- the values that calls have returned, the latest first -/
  returned : List (ℕ × I64) := []

namespace State

variable (s : State)

/-- The commit record of the transaction is durable. -/
def Durable (x : ℕ) : Prop := .commit x ∈ s.wal.log.take s.wal.durable

instance (x : ℕ) : Decidable (s.Durable x) := inferInstanceAs (Decidable (_ ∈ _))

def setJob (x : ℕ) (j : Job) : State := { s with job := update s.job x j }

end State

/-- Startup: a `SequenceOp` record sets the entry. -/
def replayRecord (entry : Except SequenceError (Option SequenceState)) (_ : ℕ) (r : Rec) :
    Except SequenceError (Option SequenceState) :=
  match r.op? with
  | some p => entry.bind fun _ => applySequenceOp p
  | none => entry

inductive Act
  | begin
  /-- `nextval_logged` in its three parts -/
  | advance (x : ℕ)
  | copy (x : ℕ)
  | append (x : ℕ)
  /-- the log refuses the record -/
  | refuse (x : ℕ)
  /-- COMMIT, with a commit record if the transaction has modified a table -/
  | commit (x : ℕ) (marker : Bool)
  | rollback (x : ℕ)
  | fsync (k : ℕ)
  | roll
  /-- a crash that keeps the first `k` records, and the restart -/
  | crash (k : ℕ)

def step (s : State) : Act → Option State
  | .begin => some { s.setJob s.nextTxn .idle with nextTxn := s.nextTxn + 1 }
  | .advance x =>
    if s.job x = .idle then
      match s.seq with
      | some t =>
        match t.advance with
        | .ok (v, t') => some { s.setJob x (.advanced v) with seq := some t' }
        | .error _ => none
      | none => none
    else none
  | .copy x =>
    match s.job x, s.seq with
    | .advanced v, some t => some (s.setJob x (.copied v t.snapshot))
    | _, _ => none
  | .append x =>
    match s.job x with
    | .copied v p => some
      { s.setJob x .idle with
        wal := s.wal.append (.sequenceOp ⟨.advance, p⟩)
        returned := (x, v) :: s.returned }
    | _ => none
  | .refuse x =>
    match s.job x with
    | .copied _ _ => some (s.setJob x .idle)
    | _ => none
  | .commit x marker =>
    if s.job x = .idle then
      some { s.setJob x .out with wal := if marker then s.wal.append (.commit x) else s.wal }
    else none
  | .rollback x => if s.job x = .idle then some (s.setJob x .out) else none
  | .fsync k => some { s with wal := s.wal.fsync k }
  | .roll => some { s with wal := s.wal.roll }
  | .crash k =>
    match (s.wal.crash k).replay replayRecord (.ok none) with
    | .ok seq => some { s with wal := s.wal.crash k, seq := seq, job := fun _ => .out }
    | .error _ => none

/-- A sequence whose creation is in the log. -/
def machine (t : SequenceState) : Machine State Act where
  init := { wal := (Wal.origin .nop).append (.sequenceOp ⟨.create, t.snapshot⟩), seq := some t }
  step := step

/-! ## What a step does -/

inductive Spec (s : State) : Act → State → Prop
  | begin : Spec s .begin { s.setJob s.nextTxn .idle with nextTxn := s.nextTxn + 1 }
  | advance {x : ℕ} {t t' : SequenceState} {v : I64} (hj : s.job x = .idle) (ht : s.seq = some t)
    (h : t.advance = .ok (v, t')) :
    Spec s (.advance x) { s.setJob x (.advanced v) with seq := some t' }
  | copy {x : ℕ} {v : I64} {t : SequenceState} (hj : s.job x = .advanced v) (ht : s.seq = some t) :
    Spec s (.copy x) (s.setJob x (.copied v t.snapshot))
  | append {x : ℕ} {v : I64} {p : SequenceSnapshot} (hj : s.job x = .copied v p) :
    Spec s (.append x) { s.setJob x .idle with
      wal := s.wal.append (.sequenceOp ⟨.advance, p⟩)
      returned := (x, v) :: s.returned }
  | refuse {x : ℕ} (hj : s.job x ≠ .out) : Spec s (.refuse x) (s.setJob x .idle)
  | commit {x : ℕ} {marker : Bool} (hj : s.job x = .idle) : Spec s (.commit x marker)
      { s.setJob x .out with wal := if marker then s.wal.append (.commit x) else s.wal }
  | rollback {x : ℕ} : Spec s (.rollback x) (s.setJob x .out)
  | fsync {k : ℕ} : Spec s (.fsync k) { s with wal := s.wal.fsync k }
  | roll : Spec s .roll { s with wal := s.wal.roll }
  | crash {k : ℕ} {seq : Option SequenceState}
    (h : (s.wal.crash k).replay replayRecord (.ok none) = .ok seq) :
    Spec s (.crash k) { s with wal := s.wal.crash k, seq := seq, job := fun _ => .out }

variable {s s' : State} {x y : ℕ} {v : I64}

theorem spec_of_step {a : Act} (h : step s a = some s') : Spec s a s' := by
  cases a with simp only [step] at h
  | begin =>
    cases h
    exact .begin
  | advance x =>
    split_ifs at h with hj
    split at h
    · rename_i t ht
      split at h <;> cases h
      rename_i v t' hadv
      exact .advance hj ht hadv
    · cases h
  | copy x =>
    split at h <;> cases h
    rename_i v t hj ht
    exact .copy hj ht
  | append x =>
    split at h <;> cases h
    rename_i v p hj
    exact .append hj
  | refuse x =>
    split at h <;> cases h
    rename_i hj
    exact .refuse (by rw [hj]; nofun)
  | commit x marker =>
    split at h <;> cases h
    exact .commit ‹_›
  | rollback x =>
    split_ifs at h
    cases h
    exact .rollback
  | fsync k =>
    cases h
    exact .fsync
  | roll =>
    cases h
    exact .roll
  | crash k =>
    split at h <;> cases h
    rename_i seq hseq
    exact .crash hseq

/-! ## The invariant -/

/-- The transaction has committed in the log, or goes on. -/
def Counts (s : State) (x : ℕ) : Prop := .commit x ∈ s.wal.log ∨ s.job x ≠ .out

/-- A record of the log is ahead of the value. -/
def Passed (increment : I64) (log : List Rec) (v : I64) : Prop :=
  ∃ p, .sequenceOp p ∈ log ∧ along increment v.1 < p.snapshot.rank

theorem Passed.mono {increment : I64} {log log' : List Rec} (h : Passed increment log v)
    (hsub : log ⊆ log') : Passed increment log' v := by
  obtain ⟨p, hp, hlt⟩ := h
  exact ⟨p, hsub hp, hlt⟩

/-- The log has the snapshots in the order in which they were taken. -/
def InOrder (log : List Rec) : Prop :=
  log.Pairwise fun r r' => ∀ p ∈ r.op?, ∀ p' ∈ r'.op?, p.snapshot.rank ≤ p'.snapshot.rank

def Genuine (t : SequenceState) (p : SequenceSnapshot) : Prop :=
  Alike t.snapshot p ∧ ∃ t' : SequenceState, t'.snapshot = p

/-- The entry of the sequence is not behind the rank. -/
def Reaches (seq : Option SequenceState) (rank : ℤ) : Prop := ∃ t, seq = some t ∧ rank ≤ t.rank

structure Inv (t : SequenceState) (s : State) : Prop where
  floor : s.wal.floor = 0
  logged : ∀ p, .sequenceOp p ∈ s.wal.log → p.op ≠ .drop ∧ Genuine t p.snapshot
  sorted : InOrder s.wal.log
  ahead : ∀ p, .sequenceOp p ∈ s.wal.log → Reaches s.seq p.snapshot.rank
  state : ∀ t', s.seq = some t' → Alike t.snapshot t'.snapshot
  pending : ∀ x v, (s.job x).value = some v → Reaches s.seq (along t.increment v.1 + 1)
  copied : ∀ x v p, s.job x = .copied v p →
    Genuine t p ∧ along t.increment v.1 < p.rank ∧ Reaches s.seq p.rank
  distinct : ∀ x y v, (s.job x).value = some v → (s.job y).value = some v → x = y
  begun : ∀ x, Counts s x → x < s.nextTxn
  ended : ∀ x, .commit x ∈ s.wal.log → s.job x = .out
  drawn : ∀ e ∈ s.returned, e.1 < s.nextTxn
  /-- a commit record is behind a record that is ahead of the transaction's values -/
  covered : ∀ e ∈ s.returned, ∀ c : ℕ, s.wal.log[c]? = some (.commit e.1) →
    Passed t.increment (s.wal.log.take c) e.2
  running : ∀ e ∈ s.returned, s.job e.1 ≠ .out → Passed t.increment s.wal.log e.2
  differs : ∀ x v, (s.job x).value = some v → ∀ e ∈ s.returned, Counts s e.1 → v ≠ e.2
  once : s.returned.Pairwise fun newer older => Counts s older.1 → newer.2 ≠ older.2

variable {t : SequenceState}

theorem op_of_init {p : SequenceOpPayload} (h : .sequenceOp p ∈ (machine t).init.wal.log) :
    p = ⟨.create, t.snapshot⟩ := by
  have h : Rec.sequenceOp p ∈ [.nop, .sequenceOp ⟨.create, t.snapshot⟩] := h
  simpa using h

theorem inv_init (ht : t.cycle = false) : Inv t (machine t).init where
  floor := rfl
  logged p hp := by
    obtain rfl := op_of_init hp
    exact ⟨nofun, ⟨rfl, ht⟩, t, rfl⟩
  sorted := .cons (by rintro r - p ⟨⟩) (pairwise_singleton _ _)
  ahead p hp := by
    obtain rfl := op_of_init hp
    exact ⟨t, rfl, le_rfl⟩
  state t' h := by
    cases h
    exact ⟨rfl, ht⟩
  pending _ _ h := by cases h
  copied _ _ _ h := by cases h
  distinct _ _ _ h := by cases h
  begun x h := by
    rcases h with h | h
    · have h : Rec.commit x ∈ [.nop, .sequenceOp ⟨.create, t.snapshot⟩] := h
      simp at h
    · exact absurd rfl h
  ended _ _ := rfl
  drawn _ h := by cases h
  covered _ h := by cases h
  running _ h := by cases h
  differs _ _ h := by cases h
  once := .nil

/-! ## Steps -/

/-- No snapshot reaches the log after a later one. -/
def Punctual (s : State) : Act → Prop
  | .append x =>
    match s.job x with
    | .copied _ p => ∀ r ∈ s.wal.log, ∀ p' ∈ r.op?, p'.snapshot.rank ≤ p.rank
    | _ => True
  | _ => True

instance : DecidableRel Punctual := fun s a => by
  unfold Punctual
  split
  · split <;> infer_instance
  · infer_instance

section

variable (hi : Inv t s)
include hi

/-- The transactions that count are those that did. -/
theorem Inv.once_of_counts (h : ∀ y, y < s.nextTxn → Counts s' y → Counts s y) :
    s.returned.Pairwise fun newer older => Counts s' older.1 → newer.2 ≠ older.2 :=
  hi.once.imp_of_mem fun _ ho hne hc => hne (h _ (hi.drawn _ ho) hc)

/-- **A step of one transaction that leaves the log and the sequence alone.** -/
theorem Inv.setJob {j : Job} {n : ℕ} (hn : s.nextTxn ≤ n)
    (hvalue : ∀ v, j.value = some v → (s.job x).value = some v)
    (hcopied : ∀ v p, j = .copied v p →
      Genuine t p ∧ along t.increment v.1 < p.rank ∧ Reaches s.seq p.rank)
    (hrun : j ≠ .out → s.job x ≠ .out ∨ x = s.nextTxn ∧ x < n) :
    Inv t { s.setJob x j with nextTxn := n } := by
  have hval : ∀ {y v}, (update s.job x j y).value = some v → (s.job y).value = some v :=
    fun hy => of_update s.job (P := (·.value = some _)) hy (hvalue _)
  have hjob : ∀ y, update s.job x j y ≠ .out → s.job y ≠ .out ∨ y = s.nextTxn ∧ y < n := by
    intro y hy
    rcases update_cases s.job x j y with heq | ⟨rfl, heq⟩
    · exact .inl (heq ▸ hy)
    · exact hrun (heq ▸ hy)
  have hcounts : ∀ y, y < s.nextTxn → Counts { s.setJob x j with nextTxn := n } y →
      Counts s y := fun y hlt hy => hy.imp_right fun hy =>
    (hjob y hy).resolve_right fun h => by omega
  refine
    { hi with
      pending := fun y v hy => hi.pending y v (hval hy)
      copied := fun y v p hy => ?_
      distinct := fun y z v hy hz => hi.distinct y z v (hval hy) (hval hz)
      begun := fun y hy => ?_
      ended := fun y hy => ?_
      drawn := fun e he => (hi.drawn e he).trans_le hn
      running := fun e he hy => ?_
      differs := fun y v hy e he hc =>
        hi.differs y v (hval hy) e he (hcounts _ (hi.drawn e he) hc)
      once := hi.once_of_counts hcounts }
  · rcases update_cases s.job x j y with heq | ⟨rfl, heq⟩
    · exact hi.copied y v p (heq.symm.trans hy)
    · exact hcopied v p (heq.symm.trans hy)
  · rcases hy with hy | hy
    · exact (hi.begun y (.inl hy)).trans_le hn
    · rcases hjob y hy with h | h
      · exact (hi.begun y (.inr h)).trans_le hn
      · exact h.2
  · by_contra hne
    rcases hjob y hne with h | ⟨rfl, -⟩
    · exact h (hi.ended y hy)
    · exact (hi.begun _ (.inl hy)).false
  · rcases hjob e.1 hy with h | h
    · exact hi.running e he h
    · have := hi.drawn e he
      omega

theorem Inv.reaches_of_passed (h : Passed t.increment s.wal.log v) :
    Reaches s.seq (along t.increment v.1 + 1) := by
  obtain ⟨p, hp, hlt⟩ := h
  obtain ⟨t', ht', hle⟩ := hi.ahead p hp
  exact ⟨t', ht', Int.add_one_le_of_lt hlt |>.trans hle⟩

/-- The sequence is past the values of the transactions that count. -/
theorem Inv.reaches_of_returned {e : ℕ × I64} (he : e ∈ s.returned) (hc : Counts s e.1) :
    Reaches s.seq (along t.increment e.2.1 + 1) := by
  refine hi.reaches_of_passed ?_
  rcases hc with hc | hc
  · obtain ⟨c, hc⟩ := mem_iff_getElem?.1 hc
    exact (hi.covered e he c hc).mono (take_subset _ _)
  · exact hi.running e he hc

theorem Inv.advance {t₀ t₁ : SequenceState} (hj : s.job x = .idle) (ht : s.seq = some t₀)
    (h : t₀.advance = .ok (v, t₁)) : Inv t { s.setJob x (.advanced v) with seq := some t₁ } := by
  obtain ⟨hinc, hcycle⟩ := hi.state t₀ ht
  have hinc : t₀.increment = t.increment := hinc
  obtain ⟨-, ⟨hinc', hcycle'⟩, hv, hlt⟩ := advance_spec hcycle h
  have hinc' : t₁.increment = t₀.increment := hinc'
  rw [hinc] at hv
  have hreaches : ∀ {r}, Reaches s.seq r → r ≤ t₀.rank := by
    rintro r ⟨t', ht', hle⟩
    cases ht'.symm.trans ht
    exact hle
  have hstill : ∀ {r}, Reaches s.seq r → Reaches (some t₁) r := fun hr =>
    ⟨t₁, rfl, (hreaches hr).trans hlt.le⟩
  -- the value is one that the sequence had not passed
  have hnew : ∀ {w : I64}, Reaches s.seq (along t.increment w.1 + 1) → v ≠ w := by
    rintro w hr rfl
    have := hreaches hr
    omega
  have hjob : ∀ y, update s.job x (.advanced v) y ≠ .out → s.job y ≠ .out := fun y hy =>
    of_update s.job (P := (· ≠ .out)) hy fun _ => by rw [hj]; nofun
  have hcounts : ∀ y, Counts { s.setJob x (.advanced v) with seq := some t₁ } y → Counts s y :=
    fun y hy => hy.imp_right (hjob y)
  have hval : ∀ {y w}, (update s.job x (.advanced v) y).value = some w →
      (s.job y).value = some w ∨ y = x ∧ w = v := by
    intro y w hy
    rcases update_cases s.job x (.advanced v) y with heq | ⟨hyx, heq⟩ <;> rw [heq] at hy
    · exact .inl hy
    · exact .inr ⟨hyx, (Option.some.inj hy).symm⟩
  refine
    { hi with
      ahead := fun p hp => hstill (hi.ahead p hp)
      state := fun t' ht' => ?_
      pending := fun y w hy => ?_
      copied := fun y w p hy => ?_
      distinct := fun y z w hy hz => ?_
      begun := fun y hy => hi.begun y (hcounts y hy)
      ended := fun y hy => ?_
      running := fun e he hy => hi.running e he (hjob _ hy)
      differs := fun y w hy e he hc => ?_
      once := hi.once_of_counts fun y _ => hcounts y }
  · cases ht'
    exact ⟨hinc'.trans hinc, hcycle'⟩
  · rcases hval hy with hy | ⟨-, rfl⟩
    · exact hstill (hi.pending y w hy)
    · exact ⟨t₁, rfl, by omega⟩
  · obtain ⟨hg, hlt, hr⟩ := hi.copied y w p (of_update s.job (P := (· = .copied w p)) hy nofun)
    exact ⟨hg, hlt, hstill hr⟩
  · rcases hval hy with hy | ⟨hyx, hw⟩ <;> rcases hval hz with hz | ⟨hzx, hw'⟩
    · exact hi.distinct y z w hy hz
    · exact absurd hw'.symm (hnew (hi.pending y w hy))
    · exact absurd hw.symm (hnew (hi.pending z w hz))
    · exact hyx.trans hzx.symm
  · by_contra hne
    exact hjob y hne (hi.ended y hy)
  · rcases hval hy with hy | ⟨-, rfl⟩
    · exact hi.differs y w hy e he (hcounts _ hc)
    · exact hnew (hi.reaches_of_returned he (hcounts _ hc))

omit hi in
theorem counts_of_record {r : Rec} {j : Job} (hrun : s.job x ≠ .out)
    (hcommit : ∀ y, r = .commit y → y = x)
    (h : Counts { s.setJob x j with wal := s.wal.append r } y) : Counts s y := by
  rcases h with h | h
  · rcases mem_append.1 h with h | h
    · exact .inl h
    · exact .inr (hcommit y (mem_singleton.1 h).symm ▸ hrun)
  · exact .inr (of_update s.job (P := (· ≠ .out)) h fun _ => hrun)

/-- **A record reaches the log**, and the transaction has no value any more. -/
theorem Inv.record {r : Rec} {j : Job} (hrun : s.job x ≠ .out) (hj : j = .out ∨ j = .idle)
    (hop : ∀ p, r = .sequenceOp p → (p.op ≠ .drop ∧ Genuine t p.snapshot) ∧
      Reaches s.seq p.snapshot.rank ∧
      ∀ r' ∈ s.wal.log, ∀ p' ∈ r'.op?, p'.snapshot.rank ≤ p.snapshot.rank)
    (hcommit : ∀ y, r = .commit y → y = x ∧ j = .out) :
    Inv t { s.setJob x j with wal := s.wal.append r } := by
  have hmem : ∀ {r'}, r' ∈ s.wal.log ++ [r] → r' ∈ s.wal.log ∨ r' = r := fun h =>
    (mem_append.1 h).imp_right mem_singleton.1
  have hjob : ∀ y, update s.job x j y ≠ .out → s.job y ≠ .out := fun y hy =>
    of_update s.job (P := (· ≠ .out)) hy fun _ => hrun
  have hcounts : ∀ y, Counts { s.setJob x j with wal := s.wal.append r } y → Counts s y :=
    fun y => counts_of_record hrun fun y hy => (hcommit y hy).1
  have hval : ∀ {y w}, (update s.job x j y).value = some w → (s.job y).value = some w :=
    fun hy => of_update s.job (P := (·.value = some _)) hy (by rcases hj with rfl | rfl <;> nofun)
  refine
    { hi with
      logged := fun p hp => (hmem hp).elim (hi.logged p) fun h => (hop p h.symm).1
      sorted := ?_
      ahead := fun p hp => (hmem hp).elim (hi.ahead p) fun h => (hop p h.symm).2.1
      pending := fun y w hy => hi.pending y w (hval hy)
      copied := fun y w p hy => hi.copied y w p (of_update s.job (P := (· = .copied w p)) hy ?_)
      distinct := fun y z w hy hz => hi.distinct y z w (hval hy) (hval hz)
      begun := fun y hy => hi.begun y (hcounts y hy)
      ended := fun y hy => ?_
      covered := fun e he c hc => ?_
      running := fun e he hy => (hi.running e he (hjob _ hy)).mono (subset_append_left _ _)
      differs := fun y w hy e he hc => hi.differs y w (hval hy) e he (hcounts _ hc)
      once := hi.once_of_counts fun y _ => hcounts y }
  · refine pairwise_append.2 ⟨hi.sorted, pairwise_singleton _ _, ?_⟩
    intro r₁ h₁ r₂ h₂ p₁ hp₁ p₂ hp₂
    obtain rfl := mem_singleton.1 h₂
    cases r₂ with
    | sequenceOp p =>
      cases hp₂
      exact (hop _ rfl).2.2 r₁ h₁ p₁ hp₁
    | nop | commit => cases hp₂
  · rcases hj with rfl | rfl <;> nofun
  · by_contra hne
    rcases hmem hy with hy | hy
    · exact hjob y hne (hi.ended y hy)
    · obtain ⟨rfl, rfl⟩ := hcommit y hy.symm
      exact hne (update_self ..)
  · show Passed t.increment ((s.wal.append _).log.take c) e.2
    rcases (s.wal.getElem?_append_eq_some).1 hc with hc | ⟨rfl, hx⟩
    · rw [s.wal.take_append_log (s.wal.lt_length_of_getElem? hc).le]
      exact hi.covered e he c hc
    · rw [s.wal.take_append_log le_rfl, take_length]
      exact hi.running e he ((hcommit _ hx.symm).1 ▸ hrun)

/-- **A call returns its value.** -/
theorem Inv.give (hrun : s.job x ≠ .out) (hpassed : Passed t.increment s.wal.log v)
    (hvalue : ∀ y, (s.job y).value ≠ some v) (hother : ∀ e ∈ s.returned, Counts s e.1 → v ≠ e.2) :
    Inv t { s with returned := (x, v) :: s.returned } := by
  refine
    { hi with
      drawn := forall_mem_cons.2 ⟨hi.begun x (.inr hrun), hi.drawn⟩
      covered := forall_mem_cons.2 ⟨fun c hc => ?_, hi.covered⟩
      running := forall_mem_cons.2 ⟨fun _ => hpassed, hi.running⟩
      differs := fun y w hy => forall_mem_cons.2 ⟨fun _ => ?_, hi.differs y w hy⟩
      once := .cons hother hi.once }
  · exact absurd (hi.ended x (mem_of_getElem? hc)) hrun
  · rintro rfl
    exact hvalue y hy

theorem Inv.append {p : SequenceSnapshot} (hj : s.job x = .copied v p)
    (hlast : ∀ r ∈ s.wal.log, ∀ p' ∈ r.op?, p'.snapshot.rank ≤ p.rank) :
    Inv t { s.setJob x .idle with
      wal := s.wal.append (.sequenceOp ⟨.advance, p⟩)
      returned := (x, v) :: s.returned } := by
  obtain ⟨hg, hlt, hr⟩ := hi.copied x v p hj
  have hxv : (s.job x).value = some v := by rw [hj]; rfl
  have hrun : s.job x ≠ .out := by rw [hj]; nofun
  have hidle : update s.job x .idle x = .idle := update_self ..
  have hi' : Inv t { s.setJob x .idle with wal := s.wal.append (.sequenceOp ⟨.advance, p⟩) } := by
    refine hi.record hrun (.inr rfl) ?_ nofun
    rintro _ ⟨⟩
    exact ⟨⟨nofun, hg⟩, hr, hlast⟩
  refine hi'.give (hidle.trans_ne nofun)
    ⟨⟨.advance, p⟩, mem_append_right _ (mem_singleton_self _), hlt⟩ (fun y hy => ?_)
    fun e he hc => hi.differs x v hxv e he (counts_of_record (r := .sequenceOp _) hrun nofun hc)
  obtain rfl : y = x := hi.distinct y x v (of_update s.job (P := (·.value = some v)) hy nofun) hxv
  cases (congrArg Job.value hidle).symm.trans hy

theorem Inv.commit (hj : s.job x = .idle) :
    Inv t { s.setJob x .out with wal := s.wal.append (.commit x) } := by
  refine hi.record (hj.trans_ne nofun) (.inl rfl) ?_ ?_
  · rintro p ⟨⟩
  · rintro y ⟨⟩
    exact ⟨rfl, rfl⟩

end

/-! ## Restart -/

theorem InOrder.rank_le {log : List Rec} (h : InOrder log) {l l' : ℕ} (hlt : l < l')
    {p p' : SequenceOpPayload} (hl : log[l]? = some (.sequenceOp p))
    (hl' : log[l']? = some (.sequenceOp p')) : p.snapshot.rank ≤ p'.snapshot.rank := by
  obtain ⟨hlen, hl⟩ := List.getElem?_eq_some_iff.1 hl
  obtain ⟨hlen', hl'⟩ := List.getElem?_eq_some_iff.1 hl'
  have := pairwise_iff_getElem.1 h l l' hlen hlen' hlt
  rw [hl, hl'] at this
  exact this p rfl p' rfl

/-- **Replay of an ordered log succeeds** and leaves the sequence past every record. -/
theorem replay_spec {w : Wal Rec} (hfloor : w.floor = 0)
    (hlogged : ∀ p, .sequenceOp p ∈ w.log → p.op ≠ .drop ∧ Genuine t p.snapshot)
    (hsorted : InOrder w.log) : ∃ seq, w.replay replayRecord (.ok none) = .ok seq ∧
      (∀ p, .sequenceOp p ∈ w.log → Reaches seq p.snapshot.rank) ∧
      ∀ t', seq = some t' → Alike t.snapshot t'.snapshot := by
  have h := Wal.replay_invariant (w := w) (f := replayRecord) (b := .ok none)
    (P := fun n entry => ∃ seq, entry = .ok seq ∧
      (∀ l < n, ∀ p, w.log[l]? = some (.sequenceOp p) → Reaches seq p.snapshot.rank) ∧
      ∀ t', seq = some t' → Alike t.snapshot t'.snapshot)
    ⟨none, rfl, fun l hl => absurd hl (by omega), fun _ h => by cases h⟩ ?_
  · obtain ⟨seq, hseq, hreach, halike⟩ := h
    refine ⟨seq, hseq, fun p hp => ?_, halike⟩
    obtain ⟨l, hl⟩ := mem_iff_getElem?.1 hp
    exact hreach l (w.lt_length_of_getElem? hl) p hl
  · rintro lsn r _ - hr ⟨seq, rfl, hreach, halike⟩
    cases r with
    | sequenceOp p =>
      obtain ⟨hop, ha, t', ht'⟩ := hlogged p (mem_of_getElem? hr)
      refine ⟨some t', ?_, fun l hl p' hp' => ⟨t', rfl, ?_⟩, ?_⟩
      · show applySequenceOp p = .ok (some t')
        rw [applySequenceOp, if_neg hop, ← ht', SequenceState.fromSnapshot_snapshot]
        rfl
      · show p'.snapshot.rank ≤ t'.snapshot.rank
        rw [ht']
        rcases Nat.lt_succ_iff_lt_or_eq.1 hl with hl | rfl
        · exact hsorted.rank_le hl hp' hr
        · cases hr.symm.trans hp'
          exact le_rfl
      · rintro t'' ⟨⟩
        exact ht' ▸ ha
    | nop | commit =>
      refine ⟨seq, rfl, fun l hl p' hp' => ?_, halike⟩
      rcases Nat.lt_succ_iff_lt_or_eq.1 hl with hl | rfl
      · exact hreach l hl p' hp'
      · cases hr.symm.trans hp'

theorem Inv.crash (hi : Inv t s) {k : ℕ} {seq : Option SequenceState}
    (h : (s.wal.crash k).replay replayRecord (.ok none) = .ok seq) :
    Inv t { s with wal := s.wal.crash k, seq := seq, job := fun _ => .out } := by
  have hsub : (s.wal.crash k).log ⊆ s.wal.log := take_subset _ _
  have hlogged : ∀ p, .sequenceOp p ∈ (s.wal.crash k).log → p.op ≠ .drop ∧ Genuine t p.snapshot :=
    fun p hp => hi.logged p (hsub hp)
  have hsorted : InOrder (s.wal.crash k).log := hi.sorted.sublist (take_sublist _ _)
  obtain ⟨seq', hseq', hreach, halike⟩ := replay_spec (w := s.wal.crash k) hi.floor hlogged hsorted
  cases h.symm.trans hseq'
  have hcounts : ∀ y, .commit y ∈ (s.wal.crash k).log ∨ (Job.out : Job) ≠ .out → Counts s y :=
    fun y hy => hy.elim (fun hy => .inl (hsub hy)) fun h => absurd rfl h
  exact
    { floor := hi.floor
      logged := hlogged
      sorted := hsorted
      ahead := hreach
      state := halike
      pending := fun _ _ h => by cases h
      copied := fun _ _ _ h => by cases h
      distinct := fun _ _ _ h => by cases h
      begun := fun y hy => hi.begun y (hcounts y hy)
      ended := fun _ _ => rfl
      drawn := hi.drawn
      covered := fun e he c hc => by
        obtain ⟨hc, hlt⟩ := s.wal.getElem?_crash_eq_some hc
        rw [Wal.crash_durable] at hlt
        show Passed t.increment ((s.wal.crash k).log.take c) e.2
        rw [Wal.crash_log, take_take, min_eq_left hlt.le]
        exact hi.covered e he c hc
      running := fun _ _ h => absurd rfl h
      differs := fun _ _ h => by cases h
      once := hi.once_of_counts fun y _ => hcounts y }

/-! ## Runs -/

/-- A call is over, or a transaction begins or ends, without a record. -/
theorem Inv.settle (hi : Inv t s) {j : Job} {n : ℕ} (hj : j = .out ∨ j = .idle)
    (hn : s.nextTxn ≤ n) (hrun : j ≠ .out → s.job x ≠ .out ∨ x = s.nextTxn ∧ x < n) :
    Inv t { s.setJob x j with nextTxn := n } := by
  refine hi.setJob hn (fun v hv => ?_) (fun v p hp => ?_) hrun <;>
    rcases hj with rfl | rfl
  · cases hv
  · cases hv
  · cases hp
  · cases hp

theorem Inv.step (hi : Inv t s) {a : Act} (ha : Punctual s a) (hstep : step s a = some s') :
    Inv t s' := by
  cases spec_of_step hstep with
  | begin =>
    exact hi.settle (.inr rfl) (Nat.le_succ _) fun _ => .inr ⟨rfl, Nat.lt_succ_self _⟩
  | advance hj ht h => exact hi.advance hj ht h
  | @copy x v t' hj ht =>
    refine hi.setJob le_rfl (fun w hw => ?_) (fun w p hp => ?_) fun _ => .inl (by rw [hj]; nofun)
    · rw [hj]
      exact hw
    · cases hp
      obtain ⟨t'', ht'', hle⟩ := hi.pending x v (by rw [hj]; rfl)
      cases ht''.symm.trans ht
      exact ⟨⟨hi.state t' ht, t', rfl⟩, Int.lt_of_add_one_le hle, t', ht, le_rfl⟩
  | append hj =>
    simp only [Punctual, hj] at ha
    exact hi.append hj ha
  | refuse hj => exact hi.settle (.inr rfl) le_rfl fun _ => .inl hj
  | @commit x marker hj =>
    cases marker with
    | true => exact hi.commit hj
    | false => exact hi.settle (.inl rfl) le_rfl fun h => absurd rfl h
  | rollback => exact hi.settle (.inl rfl) le_rfl fun h => absurd rfl h
  | fsync | roll => exact { hi with }
  | crash h => exact hi.crash h

theorem inv_of_reach (ht : t.cycle = false) (h : (machine t).Reach Punctual s) : Inv t s :=
  h.invariant (inv_init ht) fun _ _ _ _ hs hcond hstep => hs.step hcond hstep

theorem restarts (ht : t.cycle = false) (h : (machine t).Reach Punctual s) (k : ℕ) :
    ∃ s', step s (.crash k) = some s' := by
  have hi := inv_of_reach ht h
  obtain ⟨seq, hseq, -⟩ := replay_spec (w := s.wal.crash k) hi.floor
    (fun p hp => hi.logged p (take_subset _ _ hp)) (hi.sorted.sublist (take_sublist _ _))
  simp only [step, hseq]
  exact ⟨_, rfl⟩

/-- **A value that a durable transaction has got is not returned again**, and a restart succeeds. -/
theorem nextval_never_repeats (ht : t.cycle = false) (h : (machine t).Reach Punctual s) :
    (s.returned.Pairwise fun newer older => s.Durable older.1 → newer.2 ≠ older.2) ∧
      ∀ k, ∃ s', step s (.crash k) = some s' :=
  ⟨(inv_of_reach ht h).once.imp fun hne hd => hne (.inl (take_subset _ _ hd)), restarts ht h⟩

/-! ## A sequence from one on -/

/-- CREATE SEQUENCE with its defaults. -/
def ascending : SequenceState where
  startValue := I64.one
  lastValue := I64.one
  isCalled := false
  minValue := I64.one
  maxValue := I64.maxValue
  increment := I64.one
  cycle := false
  cacheSize := 1
  increment_ne := by decide
  min_lt_max := by decide
  start_mem := by decide
  last_mem := by decide
  cache_pos := Nat.one_pos

/-- A call from its start to its end. -/
def nextval (x : ℕ) : List Act := [.advance x, .copy x, .append x]

/-- Two transactions, a crash that loses the second, and a third one. -/
theorem second_value_again : ∃ s, (machine ascending).Reach Punctual s ∧
    s.returned.map (·.2.1) = [2, 2, 1] ∧ s.Durable 0 ∧
    (s.returned.Pairwise fun newer older => s.Durable older.1 → newer.2 ≠ older.2) ∧
      ∀ k, ∃ s', step s (.crash k) = some s' := by
  obtain ⟨s, hs, hret, hd⟩ := Machine.exists_reach_of_runIf (M := machine ascending)
    (C := Punctual) (p := fun s => s.returned.map (·.2.1) = [2, 2, 1] ∧ s.Durable 0)
    ([.begin] ++ nextval 0 ++ [.commit 0 true, .fsync 4, .begin] ++ nextval 1 ++
      [.commit 1 true, .crash 4, .begin] ++ nextval 2)
    (by decide)
  exact ⟨s, hs, hret, hd, nextval_never_repeats rfl hs⟩

/-- **A value is returned to two transactions that commit.** The transaction 0 takes its snapshot,
and the transaction 1 gets the next value, logs it and commits. Then the snapshot of 0 reaches the
log, and the crash. -/
theorem nextval_repeats : ∃ s, (machine ascending).Reach Machine.Always s ∧
    s.returned.map (fun e => (e.1, e.2.1)) = [(2, 2), (0, 1), (1, 2)] ∧ s.Durable 1 :=
  Machine.exists_reach_of_runIf (M := machine ascending)
    ([.begin, .begin, .advance 0, .copy 0] ++ nextval 1 ++ [.commit 1 true, .append 0, .fsync 5,
      .crash 5, .begin] ++ nextval 2)
    (by decide)

end UltraSql.Sequence
