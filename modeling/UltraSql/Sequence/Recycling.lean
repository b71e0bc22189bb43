import UltraSql.Lib.Machine
import UltraSql.Sequence.Generator
import UltraSql.Storage.Wal

/-!
# Sequences and the recycling of the log

A sequence is durable in its log records alone. Startup begins with no sequences and applies the
records that the log has kept, and then compares the result with the file of the sequences' owners.
A session creates, advances, sets and drops sequences in transactions that commit; checkpoints
recycle the log below a floor that they compute from the heap, the running transactions, the vector
indexes and the replication slots.

**Theorem (`sequences_survive`).** The sequences that have been created and not dropped exist after
every restart, and go on with new values, as long as a checkpoint keeps a record of each sequence,
each transaction has a commit record and no `setval` goes back.

**Theorem (`sequence_is_recycled`).** A checkpoint recycles the records of a sequence, and the
server does not start again.
-/

namespace UltraSql.Sequence.Recycling

open List Function

variable {ν : Type} [DecidableEq ν]

/-! ## State -/

/-- The records that matter to sequences. `other` stands for the rest. -/
inductive Rec (ν : Type)
  | sequenceOp (name : ν) (p : SequenceOpPayload)
  | other
  deriving DecidableEq

def Rec.name? : Rec ν → Option ν
  | sequenceOp name _ => some name
  | other => none

abbrev Registry (ν : Type) := ν → Option SequenceState

/-- `apply_sequence_op` of one record. -/
def applyRecord (m : Except SequenceError (Registry ν)) : Rec ν → Except SequenceError (Registry ν)
  | .sequenceOp name p => m.bind fun m => (applySequenceOp p).map (update m name)
  | .other => m

structure State (ν : Type) where
  wal : Wal (Rec ν)
  sequences : Registry ν := fun _ => none
  /-- the file of the sequences' owners -/
  owners : List ν := []
  /-- startup has not failed -/
  up : Bool := true
  /-- the session has a transaction that is not committed -/
  inTransaction : Bool := false
  /-- created and not dropped -/
  created : ν → Bool := fun _ => false
  /-- the values that the open transaction has got -/
  drawn : List (ν × I64) := []
  /-- the values that durable transactions have got -/
  used : List (ν × I64) := []

/-- `oldest_dirty_lsn`, if it is below the barrier of the checkpoint. -/
def redoFrom (barrier : ℕ) (oldestDirty : Option ℕ) : ℕ :=
  (oldestDirty.filter (· < barrier)).getD barrier

/-- The floor of `maybe_recycle_wal`. The bounds are those of the oldest running transaction, the
vector indexes and the replication slots. -/
def recycleFloor (redoFrom : ℕ) (bounds : List ℕ) : ℕ := bounds.foldl min redoFrom

namespace State

variable (s : State ν)

/-- Append a record and wait until it is durable. -/
def logDurably (w : Wal (Rec ν)) : Wal (Rec ν) :=
  (w.append .other).fsync (w.nextLsn + 1)

/-- The log after a checkpoint. -/
def checkpointed (oldestDirty : Option ℕ) (bounds : List ℕ) : Wal (Rec ν) :=
  (logDurably (logDurably s.wal)).truncateBelow
    (recycleFloor (redoFrom s.wal.nextLsn oldestDirty) bounds)

/-- A sequence operation: the map, and the record. -/
def operate (name : ν) (entry : Option SequenceState) (p : SequenceOpPayload) : State ν :=
  { s with
    wal := s.wal.append (.sequenceOp name p)
    sequences := update s.sequences name entry
    inTransaction := true }

/-- CREATE SEQUENCE. The catalog rows are committed first, in a transaction of their own. -/
def create (name : ν) (t : SequenceState) : State ν :=
  { { s with wal := logDurably s.wal }.operate name (some t) ⟨.create, t.snapshot⟩ with
    owners := name :: s.owners
    created := update s.created name true
    drawn := s.drawn.filter (·.1 ≠ name)
    used := s.used.filter (·.1 ≠ name) }

def nextval (name : ν) (v : I64) (t : SequenceState) : State ν :=
  { s.operate name (some t) ⟨.advance, t.snapshot⟩ with drawn := (name, v) :: s.drawn }

def drop (name : ν) (t : SequenceState) : State ν :=
  { s.operate name none ⟨.drop, t.snapshot⟩ with
    owners := s.owners.filter (· ≠ name)
    created := update s.created name false }

/-- COMMIT with a commit record. -/
def commit : State ν :=
  { s with
    wal := logDurably s.wal
    inTransaction := false
    drawn := []
    used := s.drawn ++ s.used }

/-- Startup with the log that is left. -/
def restart (w : Wal (Rec ν)) : State ν :=
  match w.replay (fun m _ r => applyRecord m r) (.ok fun _ => none) with
  | .ok m =>
    -- `rebuild_sequence_owner_metadata` refuses a name that has no sequence
    { s with wal := w, sequences := m, up := s.owners.all fun name => (m name).isSome }
  | .error _ => { s with wal := w, sequences := fun _ => none, up := false }

end State

inductive Act (ν : Type)
  | create (name : ν) (opts : SequenceOptions)
  | nextval (name : ν)
  | setval (name : ν) (value : I64) (isCalled : Bool)
  | drop (name : ν)
  /-- COMMIT, with a commit record if the transaction has modified a table -/
  | commit (marker : Bool)
  /-- other records, the log writer and its segments -/
  | append
  | fsync (k : ℕ)
  | roll
  | checkpoint (oldestDirty : Option ℕ) (bounds : List ℕ)
  /-- a shutdown or a crash that keeps the first `k` records, and the restart -/
  | restart (k : ℕ)

/-- A step of a server that is up. -/
def stepUp (s : State ν) : Act ν → Option (State ν)
  | .create name opts =>
    match s.sequences name, SequenceState.fromOpts opts with
    | none, .ok t => some (s.create name t)
    | _, _ => none
  | .nextval name =>
    match s.sequences name with
    | some t =>
      match t.advance with
      | .ok (v, t') => some (s.nextval name v t')
      | .error _ => none
    | none => none
  | .setval name value isCalled =>
    match s.sequences name with
    | some t =>
      match t.setval value isCalled with
      | .ok t' => some (s.operate name (some t') ⟨.set, t'.snapshot⟩)
      | .error _ => none
    | none => none
  | .drop name =>
    match s.sequences name with
    | some t => some (s.drop name t)
    | none => none
  | .commit marker =>
    if marker then some s.commit
    else some { s with inTransaction := false, drawn := [] }
  | .append => some { s with wal := s.wal.append .other }
  | .fsync k => some { s with wal := s.wal.fsync k }
  | .roll => some { s with wal := s.wal.roll }
  | .checkpoint oldestDirty bounds => some { s with wal := s.checkpointed oldestDirty bounds }
  | .restart k => if s.inTransaction then none else some (s.restart (s.wal.crash k))

def step (s : State ν) (a : Act ν) : Option (State ν) := if s.up then stepUp s a else none

def machine : Machine (State ν) (Act ν) where
  init := { wal := .origin .other }
  step := step

/-! ## What a step does -/

inductive Spec (s : State ν) : Act ν → State ν → Prop
  | create {name : ν} {opts : SequenceOptions} {t : SequenceState} (hn : s.sequences name = none)
    (ht : SequenceState.fromOpts opts = .ok t) : Spec s (.create name opts) (s.create name t)
  | nextval {name : ν} {t t' : SequenceState} {v : I64} (ht : s.sequences name = some t)
    (h : t.advance = .ok (v, t')) : Spec s (.nextval name) (s.nextval name v t')
  | setval {name : ν} {value : I64} {isCalled : Bool} {t t' : SequenceState}
    (ht : s.sequences name = some t) (h : t.setval value isCalled = .ok t') :
    Spec s (.setval name value isCalled) (s.operate name (some t') ⟨.set, t'.snapshot⟩)
  | drop {name : ν} {t : SequenceState} (ht : s.sequences name = some t) :
    Spec s (.drop name) (s.drop name t)
  | commit : Spec s (.commit true) s.commit
  | commitPlain : Spec s (.commit false) { s with inTransaction := false, drawn := [] }
  | append : Spec s .append { s with wal := s.wal.append .other }
  | fsync {k : ℕ} : Spec s (.fsync k) { s with wal := s.wal.fsync k }
  | roll : Spec s .roll { s with wal := s.wal.roll }
  | checkpoint {oldestDirty : Option ℕ} {bounds : List ℕ} :
    Spec s (.checkpoint oldestDirty bounds) { s with wal := s.checkpointed oldestDirty bounds }
  | restart {k : ℕ} (h : s.inTransaction = false) :
    Spec s (.restart k) (s.restart (s.wal.crash k))

variable {s s' : State ν} {name : ν}

variable {a : Act ν}

theorem spec_of_step (h : step s a = some s') : Spec s a s' := by
  unfold step at h
  split_ifs at h
  cases a with simp only [stepUp] at h
  | create name opts =>
    split at h <;> cases h
    rename_i t hn ht
    exact .create hn ht
  | nextval name =>
    split at h
    · rename_i t ht
      split at h <;> cases h
      rename_i v t' hadv
      exact .nextval ht hadv
    · cases h
  | setval name value isCalled =>
    split at h
    · rename_i t ht
      split at h <;> cases h
      rename_i t' hset
      exact .setval ht hset
    · cases h
  | drop name =>
    split at h <;> cases h
    rename_i t ht
    exact .drop ht
  | commit marker =>
    cases marker with
    | true =>
      cases h
      exact .commit
    | false =>
      cases h
      exact .commitPlain
  | append =>
    cases h
    exact .append
  | fsync k =>
    cases h
    exact .fsync
  | roll =>
    cases h
    exact .roll
  | checkpoint oldestDirty bounds =>
    cases h
    exact .checkpoint
  | restart k =>
    split_ifs at h with hidle
    cases h
    exact .restart (Bool.not_eq_true _ |>.mp hidle)

/-! ## Replay -/

/-- What the retained records make of no sequences. -/
def replayed (w : Wal (Rec ν)) : Except SequenceError (Registry ν) :=
  (w.log.drop w.floor).foldl applyRecord (.ok fun _ => none)

theorem replayed_append (w : Wal (Rec ν)) (r : Rec ν) :
    replayed (w.append r) = applyRecord (replayed w) r := by
  have hfloor : w.floor ≤ w.log.length := w.floor_le_durable.trans w.durable_le
  rw [replayed, Wal.append_floor, Wal.append_log, drop_append_of_le_length hfloor,
    foldl_append]
  rfl

theorem replayed_logDurably (w : Wal (Rec ν)) : replayed (State.logDurably w) = replayed w :=
  replayed_append w .other

variable {rs : List (Rec ν)}

theorem foldl_applyRecord_of_other (h : ∀ name p, .sequenceOp name p ∉ rs)
    (m : Except SequenceError (Registry ν)) : rs.foldl applyRecord m = m := by
  induction rs generalizing m with
  | nil => rfl
  | cons r rs ih =>
    cases r with
    | sequenceOp name p => exact absurd mem_cons_self (h name p)
    | other => exact ih (fun name p hp => h name p (mem_cons_of_mem _ hp)) m

theorem foldl_applyRecord_error (rs : List (Rec ν)) (e : SequenceError) :
    rs.foldl applyRecord (.error e) = .error e := by
  induction rs with
  | nil => rfl
  | cons r rs ih => cases r <;> exact ih

/-- **Where a record of a sequence is left, it does not matter what was before.** -/
theorem foldl_applyRecord {m₁ r₁ : Registry ν} (h : rs.foldl applyRecord (.ok m₁) = .ok r₁)
    (m₂ : Registry ν) :
    ∃ r₂, rs.foldl applyRecord (.ok m₂) = .ok r₂ ∧ ∀ name, r₁ name = r₂ name ∨
      (∀ p, .sequenceOp name p ∉ rs) ∧ r₁ name = m₁ name ∧ r₂ name = m₂ name := by
  induction rs generalizing m₁ m₂ with
  | nil =>
    cases h
    exact ⟨m₂, rfl, fun name => .inr ⟨fun p => not_mem_nil, rfl, rfl⟩⟩
  | cons r rs ih =>
    simp only [foldl_cons] at h ⊢
    cases r with
    | other =>
      obtain ⟨r₂, h₂, hr⟩ := ih h m₂
      refine ⟨r₂, h₂, fun name => (hr name).imp_right fun ⟨hno, hr⟩ => ⟨fun p hp => ?_, hr⟩⟩
      rcases mem_cons.1 hp with hp | hp
      · cases hp
      · exact hno p hp
    | sequenceOp name₀ p₀ =>
      cases hp₀ : applySequenceOp p₀ with
        simp only [applyRecord, Except.bind, hp₀, Except.map, foldl_applyRecord_error] at h ⊢
      | error e => cases h
      | ok entry =>
        obtain ⟨r₂, h₂, hr⟩ := ih h (update m₂ name₀ entry)
        refine ⟨r₂, h₂, fun name => ?_⟩
        rcases hr name with heq | ⟨hno, hr₁, hr₂⟩
        · exact .inl heq
        by_cases hname : name = name₀
        · subst hname
          rw [update_self] at hr₁ hr₂
          exact .inl (hr₁.trans hr₂.symm)
        · rw [update_of_ne hname] at hr₁ hr₂
          refine .inr ⟨fun p hp => ?_, hr₁, hr₂⟩
          rcases mem_cons.1 hp with hp | hp
          · cases hp
            exact hname rfl
          · exact hno p hp

variable {m : Registry ν} {w : Wal (Rec ν)}

/-- **Recycling** keeps what is replayed if it keeps a record of each sequence. -/
theorem replayed_truncateBelow {target : ℕ} (h : replayed w = .ok m)
    (hkeep : ∀ name, (m name).isSome → ∃ lsn p,
      target ≤ lsn ∧ w.log[lsn]? = some (.sequenceOp name p)) :
    replayed (w.truncateBelow target) = .ok m := by
  obtain ⟨hle, hmax⟩ := w.truncateBelow_floor target
  rw [replayed, Wal.truncateBelow_log]
  generalize (w.truncateBelow target).floor = floor at hle hmax ⊢
  by_cases heq : floor = w.floor
  · rw [heq]
    exact h
  have htarget : floor ≤ target := by omega
  -- what is left is a part of what was there
  have hdrop : w.log.drop floor =
      (w.log.drop w.floor).drop (floor - w.floor) := by
    rw [drop_drop, Nat.add_sub_of_le hle]
  rw [replayed, ← take_append_drop (floor - w.floor)
    (w.log.drop w.floor), foldl_append, ← hdrop] at h
  cases hbefore : ((w.log.drop w.floor).take (floor - w.floor)).foldl
      applyRecord (.ok fun _ => none) with
  | error e =>
    rw [hbefore, foldl_applyRecord_error] at h
    cases h
  | ok m₁ =>
    rw [hbefore] at h
    obtain ⟨r₂, h₂, hr⟩ := foldl_applyRecord h fun _ => none
    rw [h₂]
    refine congrArg _ (funext fun name => ?_)
    rcases hr name with heq | ⟨hno, -, hnone⟩
    · exact heq.symm
    · rw [hnone]
      cases hname : m name with
      | none => rfl
      | some t =>
        obtain ⟨lsn, p, hlsn, hp⟩ := hkeep name (by rw [hname]; rfl)
        refine absurd ?_ (hno p)
        refine mem_iff_getElem?.2 ⟨lsn - floor, ?_⟩
        rw [getElem?_drop, Nat.add_sub_of_le (htarget.trans hlsn), hp]

/-- **A crash** keeps what is replayed if it keeps the records of the sequences. -/
theorem replayed_crash
    (h : ∀ lsn name p, w.log[lsn]? = some (.sequenceOp name p) → lsn < w.durable) (k : ℕ) :
    replayed (w.crash k) = replayed w := by
  have hle : w.durable ≤ (w.fsync k).durable := w.durable_le_fsync k
  have hfloor : w.floor ≤ (w.log.take (w.fsync k).durable).length := by
    rw [length_take]
    exact le_min (w.floor_le_durable.trans hle) (w.floor_le_durable.trans w.durable_le)
  have hsplit : w.log.drop w.floor =
      (w.log.take (w.fsync k).durable).drop w.floor ++ w.log.drop (w.fsync k).durable := by
    rw [← drop_append_of_le_length hfloor, take_append_drop]
  have htail : ∀ name p, .sequenceOp name p ∉ w.log.drop (w.fsync k).durable := by
    intro name p hp
    obtain ⟨i, hi⟩ := mem_iff_getElem?.1 hp
    rw [getElem?_drop] at hi
    have := h _ name p hi
    omega
  rw [replayed, replayed, hsplit, foldl_append, foldl_applyRecord_of_other htail]
  rfl

/-! ## The invariant -/

def Past (sequences : Registry ν) (values : List (ν × I64)) : Prop :=
  ∀ e ∈ values, ∀ t, sequences e.1 = some t → t.cycle = false →
    along t.increment e.2.1 < t.rank

structure Inv (s : State ν) : Prop where
  up : s.up = true
  replays : replayed s.wal = .ok s.sequences
  created : ∀ name, s.created name = (s.sequences name).isSome
  owners : ∀ name, name ∈ s.owners ↔ (s.sequences name).isSome
  durable : s.inTransaction = false → ∀ lsn name p,
    s.wal.log[lsn]? = some (.sequenceOp name p) → lsn < s.wal.durable
  past : Past s.sequences (s.drawn ++ s.used)

theorem inv_init : Inv (machine (ν := ν)).init where
  up := rfl
  replays := rfl
  created _ := rfl
  owners _ := ⟨fun h => absurd h not_mem_nil, nofun⟩
  durable _ lsn name p h := by
    have hlsn := mem_of_getElem? h
    cases mem_singleton.1 hlsn
  past e he := absurd he not_mem_nil

/-! ## Steps -/

variable {lsn : ℕ} {p : SequenceOpPayload}

omit [DecidableEq ν] in
theorem append_other (h : (w.append .other).log[lsn]? = some (.sequenceOp name p)) :
    w.log[lsn]? = some (.sequenceOp name p) := by
  rcases w.getElem?_append_eq_some.1 h with h | ⟨-, h⟩
  · exact h
  · cases h

omit [DecidableEq ν] in
theorem durable_le_logDurably (w : Wal (Rec ν)) : w.durable ≤ (State.logDurably w).durable :=
  (w.append .other).durable_le_fsync _

omit [DecidableEq ν] in
theorem lt_logDurably (h : w.log[lsn]? = some (.sequenceOp name p)) :
    lsn < (State.logDurably w).durable := by
  have := w.lt_length_of_getElem? h
  simp only [State.logDurably, Wal.fsync, Wal.append_log, length_append, length_singleton,
    Wal.nextLsn]
  omega

theorem applySequenceOp_ok (op : SequenceOpKind) (hop : op ≠ .drop) (t : SequenceState) :
    applySequenceOp ⟨op, t.snapshot⟩ = .ok (some t) := by
  rw [applySequenceOp, if_neg hop, SequenceState.fromSnapshot_snapshot]
  rfl

/-- Every record of a sequence operation is durable when the transaction has committed, a checkpoint
keeps one of each sequence, and no sequence is set back. -/
def Careful (s : State ν) : Act ν → Prop
  | .commit marker => marker = true
  | .setval name value isCalled =>
    ∀ t ∈ s.sequences name, ∀ t' ∈ (t.setval value isCalled).toOption, t.rank ≤ t'.rank
  | .checkpoint oldestDirty bounds => ∀ name ∈ s.owners, ∃ lsn < s.wal.log.length,
      recycleFloor (redoFrom s.wal.nextLsn oldestDirty) bounds ≤ lsn ∧
        ∃ r ∈ s.wal.log[lsn]?, r.name? = some name
  | _ => True

instance : DecidableRel (Careful (ν := ν)) := fun s a => by
  cases a <;> unfold Careful <;> infer_instance

variable {t t' : SequenceState}

theorem setval_alike {value : I64} {isCalled : Bool} (h : t.setval value isCalled = .ok t') :
    t'.increment = t.increment ∧ t'.cycle = t.cycle := by
  unfold SequenceState.setval at h
  split_ifs at h
  cases h
  exact ⟨rfl, rfl⟩

/-- The values stay behind when a sequence goes on. -/
theorem Past.update {values : List (ν × I64)} (h : Past m values) (ht : m name = some t)
    (hinc : t'.increment = t.increment) (hcycle : t'.cycle = t.cycle)
    (hle : t'.cycle = false → t.rank ≤ t'.rank) :
    Past (update m name (some t')) values := by
  intro e he u hu hcyc
  by_cases hname : e.1 = name
  · rw [hname, update_self] at hu
    cases hu
    have := h e he t (hname ▸ ht) (hcycle ▸ hcyc)
    rw [hinc]
    exact this.trans_le (hle hcyc)
  · rw [update_of_ne hname] at hu
    exact h e he u hu hcyc

/-- A sequence is there before and after. -/
theorem isSome_update (ht : m name = some t) (name' : ν) :
    (update m name (some t') name').isSome = (m name').isSome := by
  by_cases hname : name' = name
  · subst hname
    rw [update_self, ht]
    rfl
  · rw [update_of_ne hname]

section

variable (hi : Inv s)
include hi

/-- The log changes, and the sequences do not. -/
theorem Inv.setWal (hreplays : replayed w = replayed s.wal)
    (hdurable : ∀ (lsn : ℕ) name p, w.log[lsn]? = some (.sequenceOp name p) →
      s.wal.log[lsn]? = some (.sequenceOp name p)) (hle : s.wal.durable ≤ w.durable) :
    Inv { s with wal := w } :=
  { hi with
    replays := hreplays.trans hi.replays
    durable := fun hidle lsn name p h =>
      (hi.durable hidle lsn name p (hdurable lsn name p h)).trans_le hle }

/-- **A sequence operation** keeps the invariant, given what it does to the sequence. -/
theorem Inv.operate {entry : Option SequenceState} {created : ν → Bool} {owners : List ν}
    {drawn used : List (ν × I64)} (hp : applySequenceOp p = .ok entry)
    (hcreated : ∀ name', created name' = (update s.sequences name entry name').isSome)
    (howners : ∀ name', name' ∈ owners ↔ (update s.sequences name entry name').isSome)
    (hpast : Past (update s.sequences name entry) (drawn ++ used)) :
    Inv { s.operate name entry p with
      created := created, owners := owners, drawn := drawn, used := used } where
  up := hi.up
  replays := by
    show replayed (s.wal.append _) = _
    rw [replayed_append, hi.replays]
    simp only [applyRecord, Except.bind, hp, Except.map]
    rfl
  created := hcreated
  owners := howners
  durable := nofun
  past := hpast

theorem Inv.created_update (entry : Option SequenceState) (name' : ν) :
    update s.created name entry.isSome name' =
      (update s.sequences name entry name').isSome := by
  by_cases hname : name' = name
  · subst hname
    rw [update_self, update_self]
  · rw [update_of_ne hname, update_of_ne hname]
    exact hi.created name'

theorem Inv.create (hn : s.sequences name = none) : Inv (s.create name t) := by
  have hi' : Inv { s with wal := State.logDurably s.wal } :=
    hi.setWal (replayed_logDurably _) (fun _ _ _ h => append_other h) (durable_le_logDurably _)
  refine hi'.operate (applySequenceOp_ok .create nofun t) (hi.created_update (some t))
    (fun name' => ?_) ?_
  · by_cases hname : name' = name
    · subst hname
      rw [update_self]
      exact ⟨fun _ => rfl, fun _ => mem_cons_self⟩
    · rw [update_of_ne hname, mem_cons, or_iff_right hname]
      exact hi.owners name'
  · rw [← filter_append]
    intro e he u hu
    obtain ⟨he, hname⟩ := mem_filter.1 he
    rw [update_of_ne (of_decide_eq_true hname)] at hu
    exact hi.past e he u hu

theorem Inv.nextval {v : I64} (ht : s.sequences name = some t) (h : t.advance = .ok (v, t')) :
    Inv (s.nextval name v t') := by
  obtain ⟨hinc, hcycle⟩ := advance_alike h
  refine hi.operate (applySequenceOp_ok .advance nofun t') (fun name' => ?_) (fun name' => ?_) ?_
  · rw [isSome_update ht]
    exact hi.created name'
  · rw [isSome_update ht]
    exact hi.owners name'
  · have hpast := hi.past.update ht hinc hcycle fun hcyc =>
      (advance_spec (hcycle ▸ hcyc) h).2.2.2.le
    intro e he u hu hcyc
    rcases mem_cons.1 he with rfl | he
    · rw [update_self] at hu
      cases hu
      obtain ⟨-, -, hv, hlt⟩ := advance_spec (hcycle ▸ hcyc) h
      rw [hinc, hv]
      exact hlt
    · exact hpast e he u hu hcyc

theorem Inv.drop : Inv (s.drop name t) := by
  refine hi.operate rfl (hi.created_update none) (fun name' => ?_) fun e he u hu => ?_
  · by_cases hname : name' = name
    · subst hname
      simp
    · simp [hname, hi.owners name']
  · by_cases hname : e.1 = name
    · rw [hname, update_self] at hu
      cases hu
    · rw [update_of_ne hname] at hu
      exact hi.past e he u hu

theorem Inv.checkpoint {oldestDirty : Option ℕ} {bounds : List ℕ}
    (h : Careful s (.checkpoint oldestDirty bounds)) :
    Inv { s with wal := s.checkpointed oldestDirty bounds } := by
  have hreplayed : replayed (State.logDurably (State.logDurably s.wal)) = .ok s.sequences := by
    rw [replayed_logDurably, replayed_logDurably, hi.replays]
  refine hi.setWal ?_ (fun _ _ _ h => append_other (append_other h)) ?_
  · rw [hi.replays]
    refine replayed_truncateBelow hreplayed fun name hname => ?_
    obtain ⟨lsn, hlt, hle, r, hr, hrname⟩ := h name ((hi.owners name).2 hname)
    cases r with
    | other => cases hrname
    | sequenceOp name' p =>
      cases hrname
      refine ⟨lsn, p, hle, ?_⟩
      exact (Wal.getElem?_append_eq_some _).2 (.inl ((Wal.getElem?_append_eq_some _).2 (.inl hr)))
  · exact (durable_le_logDurably _).trans (durable_le_logDurably _)

theorem Inv.restart (hidle : s.inTransaction = false) (k : ℕ) :
    Inv (s.restart (s.wal.crash k)) := by
  have hreplayed : replayed (s.wal.crash k) = .ok s.sequences :=
    (replayed_crash (hi.durable hidle) k).trans hi.replays
  have hreplay := (Wal.replay_eq_foldl (w := s.wal.crash k) (f := fun m _ r => applyRecord m r)
    (fun _ _ _ => rfl) (.ok fun _ => none)).trans hreplayed
  have hup : (s.owners.all fun name => (s.sequences name).isSome) = true :=
    all_eq_true.2 fun name hname => (hi.owners name).1 hname
  simp only [State.restart, hreplay, hup]
  exact
    { hi with
      up := rfl
      replays := hreplayed
      durable := fun _ lsn name p h => (s.wal.getElem?_crash_eq_some h).2 }

theorem Inv.step (ha : Careful s a) (hstep : step s a = some s') : Inv s' := by
  cases spec_of_step hstep with
  | create hn ht => exact hi.create hn
  | nextval ht h => exact hi.nextval ht h
  | setval ht h =>
    obtain ⟨hinc, hcycle⟩ := setval_alike h
    refine hi.operate (applySequenceOp_ok .set nofun _) (fun name' => ?_) (fun name' => ?_) ?_
    · rw [isSome_update ht]
      exact hi.created name'
    · rw [isSome_update ht]
      exact hi.owners name'
    · exact hi.past.update ht hinc hcycle fun _ => ha _ ht _ (by rw [h]; rfl)
  | drop ht => exact hi.drop
  | commit =>
    exact
      { hi with
        replays := (replayed_logDurably _).trans hi.replays
        durable := fun _ _ _ _ h => lt_logDurably (append_other h) }
  | commitPlain => cases ha
  | append => exact hi.setWal (replayed_append _ _) (fun _ _ _ h => append_other h) le_rfl
  | fsync => exact hi.setWal rfl (fun _ _ _ h => h) (Wal.durable_le_fsync _ _)
  | roll => exact hi.setWal rfl (fun _ _ _ h => h) le_rfl
  | checkpoint => exact hi.checkpoint ha
  | restart hidle => exact hi.restart hidle _

end

/-! ## Runs -/

/-- **Sequences survive.** -/
theorem sequences_survive (h : machine.Reach Careful s) :
    s.up = true ∧ (∀ name, s.created name = (s.sequences name).isSome) ∧
      ∀ name t v t', s.sequences name = some t → t.cycle = false → t.advance = .ok (v, t') →
        (name, v) ∉ s.used := by
  have hi : Inv s := h.invariant inv_init fun _ _ _ _ hs hcond hstep => hs.step hcond hstep
  refine ⟨hi.up, hi.created, fun name t v t' ht hcycle hadv hused => ?_⟩
  have hlt := hi.past (name, v) (mem_append_right _ hused) t ht hcycle
  obtain ⟨-, -, hv, -⟩ := advance_spec hcycle hadv
  exact (hv ▸ hlt).false

/-- CREATE SEQUENCE without options. -/
def defaults : SequenceOptions where
  start := I64.one
  increment := I64.one

/-- A sequence through a checkpoint and a crash: the log still has its last record. -/
theorem third_value_after_checkpoint : ∃ s, (machine (ν := ℕ)).Reach Careful s ∧
    s.used.map (fun e => (e.1, e.2.1)) = [(0, 2), (0, 1)] ∧
    s.up = true ∧ (∀ name, s.created name = (s.sequences name).isSome) ∧
      ∀ name t v t', s.sequences name = some t → t.cycle = false → t.advance = .ok (v, t') →
        (name, v) ∉ s.used := by
  obtain ⟨s, hs, hused⟩ := Machine.exists_reach_of_runIf (M := machine (ν := ℕ))
    (C := Careful) (p := fun s => s.used.map (fun e => (e.1, e.2.1)) = [(0, 2), (0, 1)])
    [.create 0 defaults, .nextval 0, .commit true, .roll, .nextval 0, .commit true,
      .checkpoint (some 5) [], .restart 0]
    (by decide)
  exact ⟨s, hs, hused, sequences_survive hs⟩

/-- **A checkpoint recycles the records of a sequence.** The log goes on in a new segment, and
nothing keeps the checkpoint from recycling the first one. The file of owners has the sequence, and
the server refuses to start. -/
theorem sequence_is_recycled : ∃ s, (machine (ν := ℕ)).Reach Machine.Always s ∧
    s.created 0 = true ∧ s.sequences 0 = none ∧ s.up = false :=
  Machine.exists_reach_of_runIf (M := machine (ν := ℕ))
    [.create 0 defaults, .nextval 0, .commit true, .roll, .checkpoint none [], .restart 0]
    (by decide)

end UltraSql.Sequence.Recycling
