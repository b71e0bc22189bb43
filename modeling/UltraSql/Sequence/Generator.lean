import UltraSql.Lib.I64

/-!
# Sequences

The state of a sequence, what `nextval` and `setval` do to it, and the snapshot of it that a
`SequenceOp` record carries. A state holds the checks that CREATE SEQUENCE and the replay of a
record make, so that a state that fails them cannot be built.

The values of a sequence that does not cycle go in one direction. `rank` measures how far a state
has come, up or down.

**Theorem (`advance_spec`).** `nextval` returns the value that is due, and the rank grows.
-/

namespace UltraSql.Sequence

inductive SequenceError
  | exhausted
  | outOfRange (value min max : I64)
  /-- `INCREMENT must not be zero` -/
  | zeroIncrement
  /-- `MINVALUE {min} must be less than MAXVALUE {max}` -/
  | emptyRange (min max : I64)
  /-- `START {start} is out of range [{min}, {max}]` -/
  | startOutOfRange (start min max : I64)
  deriving DecidableEq, Repr

/-! ## States and snapshots -/

structure SequenceOptions where
  start : I64
  increment : I64
  min : Option I64 := none
  max : Option I64 := none
  cache : ℕ := 1
  cycle : Bool := false

/-- What a `SequenceOp` record carries. -/
structure SequenceSnapshot where
  startValue : I64
  lastValue : I64
  isCalled : Bool
  minValue : I64
  maxValue : I64
  increment : I64
  cycle : Bool
  cacheSize : ℕ
  deriving DecidableEq, Repr

structure SequenceState extends SequenceSnapshot where
  increment_ne : increment.1 ≠ 0
  min_lt_max : minValue < maxValue
  start_mem : minValue ≤ startValue ∧ startValue ≤ maxValue
  last_mem : minValue ≤ lastValue ∧ lastValue ≤ maxValue
  cache_pos : 1 ≤ cacheSize
  deriving DecidableEq

namespace SequenceState

/-- `from_snapshot` -/
def fromSnapshot (p : SequenceSnapshot) : Except SequenceError SequenceState :=
  if h₀ : p.increment.1 = 0 then .error .zeroIncrement
  else if h₁ : p.maxValue ≤ p.minValue then .error (.emptyRange p.minValue p.maxValue)
  else if h₂ : p.startValue < p.minValue ∨ p.maxValue < p.startValue then
    .error (.startOutOfRange p.startValue p.minValue p.maxValue)
  else if h₃ : p.lastValue < p.minValue ∨ p.maxValue < p.lastValue then
    .error (.outOfRange p.lastValue p.minValue p.maxValue)
  else .ok
    { p with
      cacheSize := max p.cacheSize 1
      increment_ne := h₀
      min_lt_max := not_le.1 h₁
      start_mem := ⟨not_lt.1 fun h => h₂ (.inl h), not_lt.1 fun h => h₂ (.inr h)⟩
      last_mem := ⟨not_lt.1 fun h => h₃ (.inl h), not_lt.1 fun h => h₃ (.inr h)⟩
      cache_pos := Nat.le_max_right _ _ }

/-- The bounds that the options leave open. -/
def bounds (opts : SequenceOptions) : I64 × I64 :=
  if 0 < opts.increment.1 then
    (opts.min.getD I64.one, opts.max.getD I64.maxValue)
  else (opts.min.getD I64.minValue, opts.max.getD ⟨-1, by decide⟩)

/-- `from_opts` -/
def fromOpts (opts : SequenceOptions) : Except SequenceError SequenceState :=
  let (min, max) := bounds opts
  if h₀ : opts.increment.1 = 0 then .error .zeroIncrement
  else if h₁ : max ≤ min then .error (.emptyRange min max)
  else if h₂ : opts.start < min ∨ max < opts.start then
    .error (.startOutOfRange opts.start min max)
  else
    have h : min ≤ opts.start ∧ opts.start ≤ max :=
      ⟨not_lt.1 fun h => h₂ (.inl h), not_lt.1 fun h => h₂ (.inr h)⟩
    .ok
      { startValue := opts.start
        lastValue := opts.start
        isCalled := false
        minValue := min
        maxValue := max
        increment := opts.increment
        cycle := opts.cycle
        cacheSize := Max.max opts.cache 1
        increment_ne := h₀
        min_lt_max := not_le.1 h₁
        start_mem := h
        last_mem := h
        cache_pos := Nat.le_max_right _ _ }

variable (s : SequenceState)

/-- `snapshot` -/
def snapshot : SequenceSnapshot := s.toSequenceSnapshot

/-- A snapshot that has been taken is accepted. -/
@[simp] theorem fromSnapshot_snapshot : fromSnapshot s.snapshot = .ok s := by
  unfold fromSnapshot snapshot
  rw [dif_neg s.increment_ne, dif_neg s.min_lt_max.not_ge,
    dif_neg (not_or.2 ⟨s.start_mem.1.not_gt, s.start_mem.2.not_gt⟩),
    dif_neg (not_or.2 ⟨s.last_mem.1.not_gt, s.last_mem.2.not_gt⟩)]
  obtain ⟨⟨start, last, called, lo, hi, increment, cycle, cache⟩, -, -, -, -, hcache⟩ := s
  have hmax : max cache 1 = cache := Nat.max_eq_left hcache
  simp only [hmax]

/-! ## nextval and setval -/

/-- The state after `v` has been returned or set. -/
def withLast (v : I64) (hv : s.minValue ≤ v ∧ v ≤ s.maxValue) (isCalled : Bool) : SequenceState :=
  { s with lastValue := v, isCalled := isCalled, last_mem := hv }

/-- `advance` -/
def advance : Except SequenceError (I64 × SequenceState) :=
  if s.isCalled then
    match s.lastValue.checkedAdd s.increment with
    | some n =>
      if h : s.minValue ≤ n ∧ n ≤ s.maxValue then .ok (n, s.withLast n h true) else wrap
    | none => wrap
  else .ok (s.lastValue, s.withLast s.lastValue s.last_mem true)
where
  /-- At a bound, or past the range of the integers. -/
  wrap : Except SequenceError (I64 × SequenceState) :=
    if s.cycle then
      if 0 < s.increment.1 then
        .ok (s.minValue, s.withLast s.minValue ⟨le_rfl, s.min_lt_max.le⟩ true)
      else .ok (s.maxValue, s.withLast s.maxValue ⟨s.min_lt_max.le, le_rfl⟩ true)
    else .error .exhausted

/-- `setval` -/
def setval (value : I64) (isCalled : Bool) : Except SequenceError SequenceState :=
  if h : value < s.minValue ∨ s.maxValue < value then
    .error (.outOfRange value s.minValue s.maxValue)
  else .ok (s.withLast value ⟨not_lt.1 fun h' => h (.inl h'), not_lt.1 fun h' => h (.inr h')⟩
    isCalled)

end SequenceState

/-! ## How far a sequence has come -/

/-- A number in the direction of the increment. -/
def along (increment : I64) (n : ℤ) : ℤ := if 0 < increment.1 then n else -n

namespace SequenceSnapshot

variable (p : SequenceSnapshot)

/-- The value that `nextval` returns, if it is in the range. -/
def upcoming : ℤ := if p.isCalled then p.lastValue.1 + p.increment.1 else p.lastValue.1

def rank : ℤ := along p.increment p.upcoming

end SequenceSnapshot

/-- `nextval` leaves the options alone. -/
theorem advance_alike {s t : SequenceState} {v : I64} (h : s.advance = .ok (v, t)) :
    t.increment = s.increment ∧ t.cycle = s.cycle := by
  have hwrap : SequenceState.advance.wrap s = .ok (v, t) →
      t.increment = s.increment ∧ t.cycle = s.cycle := by
    intro h
    unfold SequenceState.advance.wrap at h
    split_ifs at h <;> cases h <;> exact ⟨rfl, rfl⟩
  unfold SequenceState.advance at h
  split_ifs at h
  · split at h
    · split_ifs at h
      · cases h
        exact ⟨rfl, rfl⟩
      · exact hwrap h
    · exact hwrap h
  · cases h
    exact ⟨rfl, rfl⟩

/-- The two are states of one sequence that does not cycle. -/
structure Alike (s t : SequenceSnapshot) : Prop where
  increment : t.increment = s.increment
  cycle : t.cycle = false

/-- **`nextval` returns the value that is due**, and the rank grows. -/
theorem advance_spec {s t : SequenceState} {v : I64} (hcycle : s.cycle = false)
    (h : s.advance = .ok (v, t)) : v.1 = s.upcoming ∧ Alike s.snapshot t.snapshot ∧
      along s.increment v.1 = s.rank ∧ s.rank < t.rank := by
  have hwrap : SequenceState.advance.wrap s = .error .exhausted := by
    unfold SequenceState.advance.wrap
    rw [hcycle]
    rfl
  -- the next state is due one increment later
  have hnext : ∀ {n : I64} (hn : s.minValue ≤ n ∧ n ≤ s.maxValue), n.1 = s.upcoming →
      n.1 = s.upcoming ∧ Alike s.snapshot (s.withLast n hn true).snapshot ∧
        along s.increment n.1 = s.rank ∧ s.rank < (s.withLast n hn true).rank := by
    intro n hn hup
    refine ⟨hup, ⟨rfl, hcycle⟩, by rw [hup]; rfl, ?_⟩
    have hup' : (s.withLast n hn true).upcoming = s.upcoming + s.increment.1 := by
      rw [← hup]
      rfl
    show along s.increment s.upcoming < along s.increment (s.withLast n hn true).upcoming
    have hne := s.increment_ne
    rw [hup']
    unfold along
    split_ifs <;> omega
  unfold SequenceState.advance at h
  split_ifs at h with hcalled
  · split at h
    · rename_i n hadd
      split_ifs at h with hn
      · cases h
        refine hnext hn ?_
        rw [SequenceSnapshot.upcoming, if_pos hcalled, I64.checkedAdd_eq_some hadd]
      · rw [hwrap] at h
        cases h
    · rw [hwrap] at h
      cases h
  · cases h
    refine hnext s.last_mem ?_
    rw [SequenceSnapshot.upcoming, if_neg hcalled]

/-! ## Records -/

inductive SequenceOpKind
  | create
  | advance
  | set
  | drop
  deriving DecidableEq, Repr

structure SequenceOpPayload where
  op : SequenceOpKind
  snapshot : SequenceSnapshot
  deriving DecidableEq, Repr

/-- `apply_sequence_op`, on the entry of the sequence. -/
def applySequenceOp (p : SequenceOpPayload) : Except SequenceError (Option SequenceState) :=
  if p.op = .drop then .ok none else (SequenceState.fromSnapshot p.snapshot).map some

end UltraSql.Sequence
