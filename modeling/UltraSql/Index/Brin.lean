import UltraSql.Index.Scan

/-!
# Block range indexes

A BRIN index has a summary for each range of blocks: the least and the greatest key of the rows that
were added to it. A range without a summary counts as empty. A scan takes the ranges whose summary
meets the range of keys that is asked for, reads the visible rows of their blocks and filters them.

INSERT adds the key of its row after it has written the row, and so does an UPDATE that changes the
key. Nothing is taken out but by VACUUM, which clears all summaries and adds the rows again that its
snapshot sees, one by one.
-/

namespace UltraSql.Index.Brin

open Function

/-! ## Summaries -/

structure Summary where
  firstBlock : ℕ
  lastBlock : ℕ
  minKey : ℕ
  maxKey : ℕ
  deriving DecidableEq

/-- `encode_i64_key`: the word with its top bit turned over. Bytes from the most significant one on
are ordered as the number that they stand for. -/
def encodeI64Key (k : I64) : ℕ :=
  let word := (k.1 % 2 ^ 64).toNat
  if word < 2 ^ 63 then word + 2 ^ 63 else word - 2 ^ 63

section Summaries

variable (pagesPerRange : ℕ)

/-- Widen the summary that starts at a block. -/
def widen (key start : ℕ) : List Summary → Option (List Summary)
  | [] => none
  | s :: rest =>
    if s.firstBlock = start then
      some ({ s with minKey := min key s.minKey, maxKey := max key s.maxKey } :: rest)
    else (widen key start rest).map (s :: ·)

/-- `BrinIndex::insert` -/
def insert (summaries : List Summary) (key block : ℕ) : List Summary :=
  let start := block / pagesPerRange * pagesPerRange
  match widen key start summaries with
  | some summaries => summaries
  | none =>
    let new : Summary := ⟨start, start + pagesPerRange - 1, key, key⟩
    (summaries ++ [new]).insertionSort (·.firstBlock ≤ ·.firstBlock)

/-- `candidate_ranges_for_bounds` -/
def candidateRanges (summaries : List Summary) (low high : Option ℕ) : List (ℕ × ℕ) :=
  (summaries.filter fun s =>
    (low.all fun lo => lo ≤ s.maxKey) && high.all fun hi => s.minKey ≤ hi).map fun s =>
      (s.firstBlock, s.lastBlock)

/-- What is left of a range in front of the end of the table. -/
def clip (lastBlock : ℕ) (r : ℕ × ℕ) : Option (ℕ × ℕ) :=
  if r.1 ≤ min r.2 lastBlock then some (r.1, min r.2 lastBlock) else none

/-- Add a range to ranges that start before it, the last of them first. -/
def mergeRange (merged : List (ℕ × ℕ)) (r : ℕ × ℕ) : List (ℕ × ℕ) :=
  match merged with
  | [] => [r]
  | (start, last) :: rest =>
    if r.1 ≤ last + 1 then (start, max last r.2) :: rest else r :: merged

/-- `normalize_brin_ranges` -/
def normalizeRanges (ranges : List (ℕ × ℕ)) (blockCount : ℕ) : List (ℕ × ℕ) :=
  if blockCount = 0 then []
  else (((ranges.filterMap (clip (blockCount - 1))).insertionSort (·.1 ≤ ·.1)).foldl
    mergeRange []).reverse

end Summaries

/-! ## Scans -/

/-- A row and the block where it is. -/
structure Placed (ρ : Type) where
  block : ℕ
  row : ρ
  deriving DecidableEq

section Machine

variable {ρ : Type} (pagesPerRange : ℕ) (key : ρ → Option I64)

/-- `block_count` -/
def blockCount (ts : List (Tuple (Placed ρ))) : ℕ :=
  ts.foldr (fun v n => max (v.row.block + 1) n) 0

/-- `scan_brin_candidate_ranges` -/
def scanCandidateRanges (ts : List (Tuple (Placed ρ))) (ranges : List (ℕ × ℕ))
    (snapshot : Snapshot) (oracle : Oracle) : List (Placed ρ) :=
  (normalizeRanges ranges (blockCount ts)).flatMap fun r =>
    (ts.filter fun v => decide (r.1 ≤ v.row.block) && decide (v.row.block ≤ r.2) &&
      (isVisible v.header snapshot oracle).isSeen).map (·.row)

/-- `try_brin_index_scan`, with its Filter. -/
def brinScan (ts : List (Tuple (Placed ρ))) (summaries : List Summary) (snapshot : Snapshot)
    (oracle : Oracle) (range : KeyRange) : List (Placed ρ) :=
  let found :=
    if range.isEmpty then []
    else scanCandidateRanges ts
      (candidateRanges summaries (range.low.map encodeI64Key) (range.high.map encodeI64Key))
      snapshot oracle
  found.filter fun p => (key p.row).any range.contains

/-! ## Histories -/

inductive Job
  | idle
  /-- its row is written, and the key is to be added -/
  | adding (k : I64) (block : ℕ)
  /-- VACUUM, with a snapshot and the number of blocks that were there -/
  | vacuum (blocks : ℕ)
  /-- VACUUM, with the tuples that it has not looked at -/
  | summarizing (todo : List ℕ)
  deriving DecidableEq

structure State (ρ : Type) where
  base : Scan.State (Placed ρ) := {}
  summaries : List Summary := []
  job : ℕ → Job := fun _ => .idle
  /-- the number of blocks that VACUUM has found in a session -/
  count : ℕ → Option ℕ := fun _ => none
  /-- a VACUUM has failed after it had cleared the summaries -/
  broken : Bool := false

inductive Act (ρ : Type)
  | base (a : Scan.Act (Placed ρ))
  /-- add the key of the row that was written last -/
  | add (x : ℕ)
  | count (session : ℕ)
  /-- begin the transaction of VACUUM, unless the table is empty -/
  | vacuum (session x xmax : ℕ)
  | clear (x : ℕ)
  /-- look at the next tuple -/
  | next (x : ℕ)
  /-- VACUUM fails at the next tuple -/
  | fail (x : ℕ)

/-- The transaction that goes on with its work. -/
def worker : Scan.Act (Placed ρ) → Option ℕ
  | .txn b => b.session
  | .insert x _ | .update x _ _ _ | .delete x _ => some x
  | .clear .. | .visit _ => none

/-- A statement is finished before the next one. A rollback may come in between. -/
def allowed (job : ℕ → Job) (a : Scan.Act (Placed ρ)) : Bool :=
  (worker a).all fun x =>
    match job x with
    | .idle => true
    | .adding .. => (a matches .txn (.rollback _))
    | .vacuum _ | .summarizing _ => false

def Job.ofKey : Option I64 → ℕ → Job
  | some k, block => .adding k block
  | none, _ => .idle

namespace State

variable (s : State ρ)

def setJob (x : ℕ) (j : Job) : State ρ := { s with job := update s.job x j }

/-- The key that is to be added after a step. -/
def queue : Scan.Act (Placed ρ) → ℕ → Job
  | .insert x p => update s.job x (.ofKey (key p.row) p.block)
  | .update x n _ p =>
    -- `apply_update_index_changes`
    if s.base.tuples[n]?.map (fun v => key v.row.row) = some (key p.row) then s.job
    else update s.job x (.ofKey (key p.row) p.block)
  | .txn (.rollback x) => update s.job x .idle
  | _ => s.job

/-- The tuples of the first blocks, which `scan_visible` looks at. -/
def positions (blocks : ℕ) : List ℕ :=
  (List.range s.base.tuples.length).filter fun n =>
    s.base.tuples[n]?.any fun v => v.row.block < blocks

/-- `resummarize_brin_indexes` at one tuple. -/
def summarize (v : Tuple (Placed ρ)) (snapshot : Snapshot) : List Summary :=
  match key v.row.row with
  | some k =>
    if (isVisible v.header snapshot s.base.txn.mgr.status).isSeen then
      insert pagesPerRange s.summaries (encodeI64Key k) v.row.block
    else s.summaries
  | none => s.summaries

end State

def step (s : State ρ) : Act ρ → Option (State ρ)
  | .base a =>
    if allowed s.job a then
      (Scan.step (fun p => key p.row) s.base a).map fun b =>
        { s with base := b, job := s.queue key a }
    else none
  | .add x =>
    match s.job x with
    | .adding k block => some { s.setJob x .idle with
        summaries := insert pagesPerRange s.summaries (encodeI64Key k) block }
    | _ => none
  | .count session =>
    some { s with count := update s.count session (some (blockCount s.base.tuples)) }
  | .vacuum session x xmax =>
    match s.count session with
    | some 0 => some
        { s with summaries := [], count := update s.count session none, broken := false }
    | some blocks => (Timeline.step s.base.txn (.begin x .readCommitted xmax)).map fun t =>
        { s.setJob x (.vacuum blocks) with
          base := { s.base with txn := t }
          count := update s.count session none }
    | none => none
  | .clear x =>
    match s.job x with
    | .vacuum blocks => some
        { s.setJob x (.summarizing (s.positions blocks)) with summaries := [], broken := false }
    | _ => none
  | .next x =>
    match s.job x with
    | .summarizing [] => some (s.setJob x .idle)
    | .summarizing (m :: todo) =>
      match running s.base.txn x, s.base.tuples[m]? with
      | some c, some v => some { s.setJob x (.summarizing todo) with
          summaries := s.summarize pagesPerRange key v c.handle.snapshot }
      | _, _ => none
    | _ => none
  | .fail x =>
    match s.job x with
    | .summarizing _ => some { s.setJob x .idle with broken := true }
    | _ => none

def machine : Machine (State ρ) (Act ρ) where
  init := {}
  step := step pagesPerRange key

end Machine

end UltraSql.Index.Brin
