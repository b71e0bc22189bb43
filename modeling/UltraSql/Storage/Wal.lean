import Mathlib

/-!
# The write-ahead log

`Wal` models the log as the server sees it: the records appended so far, how many of them are
durable, and the segment files that hold the durable ones from the recycling floor on. An LSN is
the position of a record, so that every record is one unit long; nothing below depends on the byte
lengths. `planFloor` and `truncateBelow` follow the planner in `truncate.rs`, which drops whole
segments below a target and never the active one.

The state carries two facts: the durable records are appended ones, and the segments tile the
durable records from the floor on.

**Theorem (`truncateBelow_floor`).** Recycling never lowers the floor and never moves it above the
target.

**Rule (`replay_invariant`).** What holds at the floor and is kept by each retained record holds
when replay reaches the end of the log.
-/

namespace UltraSql

open List

/-! ## Segments -/

/-- Written bytes go to the active segment, which is the last one. -/
def growLast (m : ℕ) : List ℕ → List ℕ
  | [] => [m]
  | [len] => [len + m]
  | len :: len' :: rest => len :: growLast m (len' :: rest)

theorem sum_growLast (m : ℕ) (segments : List ℕ) :
    (growLast m segments).sum = segments.sum + m := by
  induction segments using growLast.induct with
  | case1 | case2 => simp [growLast]
  | case3 len len' rest ih =>
    rw [growLast, sum_cons, ih, sum_cons (l := len' :: rest), Nat.add_assoc]

/-- The new floor and the segments kept: the first segment that reaches past the target is the
lowest one to keep, and the active one is kept in any case. -/
def planFloor (target start : ℕ) : List ℕ → ℕ × List ℕ
  | [] => (start, [])
  | [len] => (start, [len])
  | len :: len' :: rest =>
    if start + len > target then (start, len :: len' :: rest)
    else planFloor target (start + len) (len' :: rest)

theorem planFloor_sum (target start : ℕ) (segments : List ℕ) :
    (planFloor target start segments).1 + (planFloor target start segments).2.sum =
      start + segments.sum := by
  induction start, segments using planFloor.induct target with
  | case1 | case2 => simp [planFloor]
  | case3 start len len' rest h => simp [planFloor, h]
  | case4 start len len' rest h ih =>
    rw [planFloor, if_neg h, ih, sum_cons (l := len' :: rest), Nat.add_assoc]

theorem le_planFloor (target start : ℕ) (segments : List ℕ) :
    start ≤ (planFloor target start segments).1 := by
  induction start, segments using planFloor.induct target with
  | case1 | case2 => simp [planFloor]
  | case3 start len len' rest h => simp [planFloor, h]
  | case4 start len len' rest h ih =>
    rw [planFloor, if_neg h]
    omega

theorem planFloor_le (target start : ℕ) (segments : List ℕ) :
    (planFloor target start segments).1 ≤ max start target := by
  induction start, segments using planFloor.induct target with
  | case1 start | case2 start => exact le_max_left start target
  | case3 start len len' rest h =>
    rw [planFloor, if_pos h]
    exact le_max_left start target
  | case4 start len len' rest h ih =>
    rw [planFloor, if_neg h]
    omega

/-! ## The log -/

/-- The log, its durable prefix and the segment files. -/
structure Wal (ρ : Type*) where
  log : List ρ
  durable : ℕ
  floor : ℕ
  segments : List ℕ
  durable_le : durable ≤ log.length
  segments_sum : floor + segments.sum = durable

namespace Wal

variable {ρ β : Type*} (w : Wal ρ)

/-- A log whose first record is durable in its first segment. -/
def origin (r : ρ) : Wal ρ :=
  { log := [r], durable := 1, floor := 0, segments := [1], durable_le := le_rfl
    segments_sum := rfl }

/-- The LSN the next record gets. -/
def nextLsn : ℕ := w.log.length

def append (r : ρ) : Wal ρ :=
  { w with
    log := w.log ++ [r]
    durable_le := by
      rw [List.length_append]
      exact Nat.le_add_right_of_le w.durable_le }

/-- The writer makes the records up to `k` durable. -/
def fsync (k : ℕ) : Wal ρ :=
  { w with
    durable := max w.durable (min k w.log.length)
    segments := growLast (max w.durable (min k w.log.length) - w.durable) w.segments
    durable_le := max_le w.durable_le (min_le_right _ _)
    segments_sum := by
      have h := w.segments_sum
      rw [sum_growLast]
      omega }

/-- The writer starts a new segment. -/
def roll : Wal ρ :=
  { w with
    segments := w.segments ++ [0]
    segments_sum := by simpa using w.segments_sum }

/-- Recycle the segments that lie entirely below the target. -/
def truncateBelow (target : ℕ) : Wal ρ :=
  { w with
    floor := (planFloor target w.floor w.segments).1
    segments := (planFloor target w.floor w.segments).2
    segments_sum := by rw [planFloor_sum, w.segments_sum] }

/-- A crash keeps the durable records and any part of what was written behind them. -/
def crash (k : ℕ) : Wal ρ :=
  { w.fsync k with
    log := w.log.take (w.fsync k).durable
    durable_le := by
      rw [List.length_take]
      exact le_min le_rfl (w.fsync k).durable_le }

@[simp] theorem append_log (r : ρ) : (w.append r).log = w.log ++ [r] := rfl
@[simp] theorem append_durable (r : ρ) : (w.append r).durable = w.durable := rfl
@[simp] theorem append_floor (r : ρ) : (w.append r).floor = w.floor := rfl
@[simp] theorem truncateBelow_log (t : ℕ) : (w.truncateBelow t).log = w.log := rfl
@[simp] theorem crash_log (k : ℕ) : (w.crash k).log = w.log.take (w.fsync k).durable := rfl
@[simp] theorem crash_durable (k : ℕ) : (w.crash k).durable = (w.fsync k).durable := rfl

theorem floor_le_durable : w.floor ≤ w.durable :=
  w.segments_sum ▸ Nat.le_add_right _ _

theorem durable_le_fsync (k : ℕ) : w.durable ≤ (w.fsync k).durable := le_max_left _ _

theorem crash_length (k : ℕ) : (w.crash k).log.length = (w.crash k).durable := by
  rw [crash_log, length_take, crash_durable]
  exact min_eq_left (w.fsync k).durable_le

theorem truncateBelow_floor (target : ℕ) :
    w.floor ≤ (w.truncateBelow target).floor ∧
      (w.truncateBelow target).floor ≤ max w.floor target :=
  ⟨le_planFloor target w.floor w.segments, planFloor_le target w.floor w.segments⟩

variable {lsn : ℕ} {r : ρ}

theorem getElem?_append_eq_some {r' : ρ} :
    (w.append r).log[lsn]? = some r' ↔
      w.log[lsn]? = some r' ∨ lsn = w.log.length ∧ r' = r := by
  rw [append_log, getElem?_append, getElem?_singleton]
  split_ifs with hlt hzero
  · simp [hlt.ne]
  · simp [show lsn = w.log.length by omega, eq_comm]
  · simp [show lsn ≠ w.log.length by omega, not_lt.1 hlt]

theorem take_append_log {n : ℕ} (h : n ≤ w.log.length) : (w.append r).log.take n = w.log.take n :=
  take_append_of_le_length h

theorem getElem?_crash_eq_some {k : ℕ} (h : (w.crash k).log[lsn]? = some r) :
    w.log[lsn]? = some r ∧ lsn < (w.crash k).durable := by
  rw [crash_log, getElem?_take] at h
  split_ifs at h with hlt
  exact ⟨h, hlt⟩

theorem lt_length_of_getElem? (h : w.log[lsn]? = some r) : lsn < w.log.length :=
  (List.getElem?_eq_some_iff.1 h).1

/-! ## Replay -/

/-- Apply each record with its LSN. -/
def replayFrom (f : β → ℕ → ρ → β) : ℕ → List ρ → β → β
  | _, [], b => b
  | lsn, r :: rs, b => replayFrom f (lsn + 1) rs (f b lsn r)

/-- Apply the retained records, as `recover_with_target` does from the floor on. -/
def replay (f : β → ℕ → ρ → β) (b : β) : β :=
  replayFrom f w.floor (w.log.drop w.floor) b

variable {w}

variable {f : β → ℕ → ρ → β}

/-- Replay that does not look at LSNs. -/
theorem replay_eq_foldl {g : β → ρ → β} (hf : ∀ b lsn r, f b lsn r = g b r) (b : β) :
    w.replay f b = (w.log.drop w.floor).foldl g b := by
  have h : ∀ (rs : List ρ) (lsn : ℕ) (b : β), replayFrom f lsn rs b = rs.foldl g b := by
    intro rs
    induction rs with
    | nil => exact fun _ _ => rfl
    | cons r rs ih => exact fun lsn b => (ih _ _).trans (by rw [hf, foldl_cons])
  exact h _ _ b

variable {P : ℕ → β → Prop} {b : β}

theorem replayFrom_invariant
    (hstep : ∀ lsn r b, w.floor ≤ lsn → w.log[lsn]? = some r → P lsn b → P (lsn + 1) (f b lsn r))
    (rs : List ρ) (hle : w.floor ≤ lsn) (hlt : lsn ≤ w.log.length) (hrs : rs = w.log.drop lsn)
    (h : P lsn b) : P w.log.length (replayFrom f lsn rs b) := by
  induction rs generalizing lsn b with
  | nil =>
    have hlen : lsn = w.log.length := hlt.antisymm (drop_eq_nil_iff.1 hrs.symm)
    exact hlen ▸ h
  | cons r rs ih =>
    have hr : w.log[lsn]? = some r := by
      rw [← head?_drop, ← hrs, head?_cons]
    refine ih (by omega) (w.lt_length_of_getElem? hr) ?_ (hstep lsn r b hle hr h)
    rw [← tail_drop, ← hrs, tail_cons]

/-- **The replay rule.** -/
theorem replay_invariant (h₀ : P w.floor b)
    (hstep : ∀ lsn r b, w.floor ≤ lsn → w.log[lsn]? = some r → P lsn b → P (lsn + 1) (f b lsn r)) :
    P w.log.length (w.replay f b) :=
  replayFrom_invariant hstep _ le_rfl (w.floor_le_durable.trans w.durable_le) rfl h₀

end Wal

end UltraSql
