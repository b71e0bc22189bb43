import UltraSql.Index.Versions

/-!
# The shared rows of an aggregating index

An aggregating index keeps its rows in memory, for all sessions, with a flag that says that the
table has changed and the largest XID that has changed it. A statement that writes sets both when it
is lowered, before it writes. A query claims the flag and builds the rows again from what its own
snapshot shows, or finds the flag unset. It then tests whether the last writer is visible to it, and
if not, builds the rows once more and forgets the writer. In the end it reads the rows. The
maintenance after a COMMIT does the first part of this.

What is one step here is one atomic operation, one heap scan or one lock of the rows in the source.
Between any two of them other sessions may go on.

**Theorem (`advance_cases`).** What a step of a query does to the index.
-/

namespace UltraSql.Aggregating

open Timeline (Client Visit)
open Index Function

variable {ρ σ ε : Type}

/-! ## The index -/

/-- `RuntimeAggregatingIndex` -/
structure Runtime (σ : Type) where
  rows : σ
  dirty : Bool := false
  lastWriterXid : ℕ := 0
  deriving DecidableEq

namespace Runtime

variable (index : Runtime σ)

/-- The first part of `mark_dirty_with_writer`. -/
def recordWriter (writer : ℕ) : Runtime σ :=
  if writer ≠ 0 then { index with lastWriterXid := max index.lastWriterXid writer } else index

/-- `summary_servable_to` -/
def summaryServableTo (snapshot : Snapshot) (oracle : Oracle) : Bool :=
  Xid.isInvalid index.lastWriterXid || snapshot.isCurrentXid index.lastWriterXid ||
    (!snapshot.xidInProgress index.lastWriterXid && (oracle index.lastWriterXid).isCommitted)

end Runtime

/-- How the rows of the index are built from those of a scan. -/
structure Builder (ρ σ ε : Type) where
  build : List ρ → Except ε σ
  empty : σ
  build_nil : build [] = .ok empty

/-! ## Queries -/

/-- How far a query is that takes the rows of the index. With `serve` unset it is a maintenance. -/
inductive Read (σ ε : Type)
  | none
  /-- the flag has been claimed -/
  | claimed (serve : Bool)
  /-- the rows have been built, and the index still has the old ones -/
  | built (serve : Bool) (rows : σ)
  /-- before the test of the last writer -/
  | testing
  /-- the last writer is not visible -/
  | forced
  | rebuilt (rows : σ)
  | clearing
  | reading
  | served (rows : σ)
  | failed (e : ε)
  deriving DecidableEq

namespace Read

/-- The query is between two of its steps. -/
def inProgress : Read σ ε → Bool
  | none | served _ | failed _ => false
  | _ => true

/-- The flag has been claimed and the rows have not been stored. -/
def rebuilding : Read σ ε → Bool
  | claimed _ | built .. => true
  | _ => false

/-- What the query gets. -/
def outcome : Read σ ε → Option (Except ε σ)
  | served rows => some (.ok rows)
  | failed e => some (.error e)
  | _ => Option.none

end Read

inductive ReadStep
  /-- the compare-exchange of the flag -/
  | claim (serve : Bool)
  /-- `build_aggregating_index_rows` -/
  | scan
  | store
  /-- `summary_servable_to` -/
  | test
  /-- `clear_last_writer` -/
  | clear
  | read
  deriving DecidableEq

/-- `rebuild_runtime_if_dirty`, `rebuild_runtime_for_snapshot` and the final read of
`current_summary_rows`, step by step, with what a scan gives at the moment. -/
def advance (scan : Except ε σ) (snapshot : Snapshot) (oracle : Oracle) (index : Runtime σ) :
    ReadStep → Read σ ε → Option (Runtime σ × Read σ ε)
  | .claim serve, .none | .claim serve, .served _ | .claim serve, .failed _ =>
    if index.dirty then some ({ index with dirty := false }, .claimed serve)
    else some (index, if serve then .testing else .none)
  | .scan, .claimed serve =>
    match scan with
    | .ok rows => some (index, .built serve rows)
    -- `DirtyRestore`
    | .error e => some ({ index with dirty := true }, if serve then .failed e else .none)
  | .store, .built serve rows =>
    some ({ index with rows := rows }, if serve then .testing else .none)
  | .test, .testing =>
    some (index, if index.summaryServableTo snapshot oracle then .reading else .forced)
  | .scan, .forced =>
    match scan with
    | .ok rows => some (index, .rebuilt rows)
    | .error e => some (index, .failed e)
  | .store, .rebuilt rows => some ({ index with rows := rows }, .clearing)
  | .clear, .clearing => some ({ index with lastWriterXid := 0 }, .reading)
  | .read, .reading => some (index, .served index.rows)
  | _, _ => none

/-- What a step of a query does to the index. -/
inductive Advance (scan : Except ε σ) (snapshot : Snapshot) (oracle : Oracle) (index : Runtime σ) :
    Read σ ε → Runtime σ → Read σ ε → Prop
  | claim {r : Read σ ε} (serve : Bool) (hr : r.inProgress = false) (hd : index.dirty = true) :
    Advance scan snapshot oracle index r { index with dirty := false } (.claimed serve)
  | clean {r : Read σ ε} (serve : Bool) (hr : r.inProgress = false) (hd : index.dirty = false) :
    Advance scan snapshot oracle index r index (if serve then .testing else .none)
  | build {serve : Bool} {rows : σ} (h : scan = .ok rows) :
    Advance scan snapshot oracle index (.claimed serve) index (.built serve rows)
  | restore {serve : Bool} {e : ε} (h : scan = .error e) :
    Advance scan snapshot oracle index (.claimed serve) { index with dirty := true }
      (if serve then .failed e else .none)
  | store {serve : Bool} {rows : σ} :
    Advance scan snapshot oracle index (.built serve rows) { index with rows := rows }
      (if serve then .testing else .none)
  | pass (h : index.summaryServableTo snapshot oracle = true) :
    Advance scan snapshot oracle index .testing index .reading
  | reject (h : index.summaryServableTo snapshot oracle = false) :
    Advance scan snapshot oracle index .testing index .forced
  | rebuild {rows : σ} (h : scan = .ok rows) :
    Advance scan snapshot oracle index .forced index (.rebuilt rows)
  | fail {e : ε} (h : scan = .error e) :
    Advance scan snapshot oracle index .forced index (.failed e)
  | replace {rows : σ} :
    Advance scan snapshot oracle index (.rebuilt rows) { index with rows := rows } .clearing
  | clear : Advance scan snapshot oracle index .clearing { index with lastWriterXid := 0 } .reading
  | read : Advance scan snapshot oracle index .reading index (.served index.rows)

theorem advance_cases {scan : Except ε σ} {snapshot : Snapshot} {oracle : Oracle}
    {index index' : Runtime σ} {a : ReadStep} {r r' : Read σ ε}
    (h : advance scan snapshot oracle index a r = some (index', r')) :
    Advance scan snapshot oracle index r index' r' := by
  have hclaim : ∀ {serve : Bool}, r.inProgress = false →
      (if index.dirty then some ({ index with dirty := false }, Read.claimed serve)
        else some (index, if serve then .testing else .none)) = some (index', r') →
      Advance scan snapshot oracle index r index' r' := by
    intro serve hr h
    split_ifs at h with hd hs
    · cases h
      exact .claim serve hr hd
    · cases h
      subst hs
      exact .clean true hr (Bool.not_eq_true _ |>.mp hd)
    · cases h
      rw [Bool.not_eq_true] at hs
      subst hs
      exact .clean false hr (Bool.not_eq_true _ |>.mp hd)
  unfold advance at h
  split at h
  · exact hclaim rfl h
  · exact hclaim rfl h
  · exact hclaim rfl h
  · split at h
    · cases h
      exact .build rfl
    · cases h
      exact .restore rfl
  · cases h
    exact .store
  · cases h
    cases hs : index.summaryServableTo snapshot oracle with
    | true => exact .pass hs
    | false => exact .reject hs
  · split at h
    · cases h
      exact .rebuild rfl
    · cases h
      exact .fail rfl
  · cases h
    exact .replace
  · cases h
    exact .clear
  · cases h
    exact .read
  · cases h

/-! ## Sessions -/

/-- How far a statement is. It marks the index while it is lowered, and then writes. -/
inductive Statement
  | fresh
  /-- it has recorded the writer, and the flag is not set yet -/
  | recorded
  | marked
  | writing
  deriving DecidableEq, Repr

inductive Write (ρ : Type)
  | insert (row : ρ)
  | update (n : ℕ) (hot : Bool) (row : ρ)
  | delete (n : ℕ)

structure State (ρ σ ε : Type) where
  txn : Timeline.State := {}
  table : List (Tuple ρ) := []
  index : Runtime σ
  statement : ℕ → Statement := fun _ => .fresh
  read : ℕ → Read σ ε := fun _ => .none
  /-- the transactions that have marked the index -/
  writers : List ℕ := []

inductive Act (ρ : Type)
  | txn (a : Timeline.Act)
  /-- `mark_dirty_with_writer` in its two parts -/
  | record (x : ℕ)
  | flag (x : ℕ)
  | write (x : ℕ) (w : Write ρ)
  | clear (x n : ℕ)
  | visit (x : ℕ)
  | read (x : ℕ) (a : ReadStep)

/-- The rows that the snapshot shows. -/
def scanTable (ts : List (Tuple ρ)) (snapshot : Snapshot) (oracle : Oracle) : List ρ :=
  ts.filterMap fun v => if (isVisible v.header snapshot oracle).isSeen then some v.row else none

namespace State

variable (s : State ρ σ ε)

def scan (c : Client) : List ρ := scanTable s.table c.handle.snapshot s.txn.mgr.status

/-- The session is not in the middle of a mark or of a query. -/
def available (x : ℕ) : Bool := decide (s.statement x ≠ .recorded) && !(s.read x).inProgress

def writeTable (c : Client) : Write ρ → Option (List (Tuple ρ))
  | .insert row => some (insertTuple s.table c.handle.writeXid c.handle.currentCommand row)
  | .update n hot row =>
    match s.table[n]? with
    | some v =>
      if writable s.txn c v.header then
        some (updateTuple s.table n v hot c.handle.writeXid c.handle.currentCommand row)
      else none
    | none => none
  | .delete n =>
    match s.table[n]? with
    | some v =>
      if writable s.txn c v.header then
        some (deleteTuple s.table n v c.handle.writeXid c.handle.currentCommand)
      else none
    | none => none

/-- After a step of the transaction of a session its statement is over. -/
def afterTxn (t : Timeline.State) (session : Option ℕ) : State ρ σ ε :=
  match session with
  | some x =>
    { s with
      txn := t
      statement := update s.statement x .fresh
      read := update s.read x .none }
  | none => { s with txn := t }

end State

section Machine

variable (B : Builder ρ σ ε)

def step (s : State ρ σ ε) : Act ρ → Option (State ρ σ ε)
  | .txn a =>
    if a.plain && a.session.all s.available then
      (Timeline.step s.txn a).map (s.afterTxn · a.session)
    else none
  | .record x =>
    match running s.txn x with
    | some c =>
      if s.available x ∧ s.statement x ≠ .writing then
        some { s with
          index := s.index.recordWriter c.handle.writeXid
          statement := update s.statement x .recorded
          writers := x :: s.writers }
      else none
    | none => none
  | .flag x =>
    if s.statement x = .recorded then
      some { s with
        index := { s.index with dirty := true }
        statement := update s.statement x .marked }
    else none
  | .write x w =>
    match running s.txn x with
    | some c =>
      if s.available x ∧ s.statement x ≠ .fresh then
        (s.writeTable c w).map fun table =>
          { s with table := table, statement := update s.statement x .writing }
      else none
    | none => none
  | .clear x n =>
    match clearing s.txn x, s.table[n]? with
    | some z, some v =>
      if v.header.xmax = z then some { s with table := clearTuple s.table n v } else none
    | _, _ => none
  | .visit x =>
    match s.txn.nextVisit x with
    | some ((z, u), t) =>
      if u = .stamps → ∀ v ∈ s.table, v.header.xmax ≠ z then some { s with txn := s.txn.tick t }
      else none
    | none => none
  | .read x a =>
    match running s.txn x with
    | some c =>
      if s.statement x = .fresh ∨ s.statement x = .marked then
        (advance (B.build (s.scan c)) c.handle.snapshot s.txn.mgr.status s.index a (s.read x)).map
          fun r => { s with index := r.1, read := update s.read x r.2 }
      else none
    | none => none

def machine : Machine (State ρ σ ε) (Act ρ) where
  init := { index := { rows := B.empty } }
  step := step B

/-! ### What a step does -/

inductive Spec (s : State ρ σ ε) : Act ρ → State ρ σ ε → Prop
  | txn {b : Timeline.Act} {t' : Timeline.State} (hb : b.plain = true)
    (hav : ∀ x ∈ b.session, s.available x = true) (h : Timeline.step s.txn b = some t') :
    Spec s (.txn b) (s.afterTxn t' b.session)
  | record {x : ℕ} {c : Client} (hc : s.txn.clients.lookup x = some c) (hp : c.phase = .running)
    (hav : s.available x = true) (hst : s.statement x ≠ .writing) : Spec s (.record x) { s with
      index := s.index.recordWriter c.handle.writeXid
      statement := update s.statement x .recorded
      writers := x :: s.writers }
  | flag {x : ℕ} (hst : s.statement x = .recorded) : Spec s (.flag x) { s with
      index := { s.index with dirty := true }
      statement := update s.statement x .marked }
  | write {x : ℕ} {w : Write ρ} {c : Client} {table : List (Tuple ρ)}
    (hc : s.txn.clients.lookup x = some c) (hp : c.phase = .running) (hav : s.available x = true)
    (hst : s.statement x ≠ .fresh) (h : s.writeTable c w = some table) : Spec s (.write x w)
      { s with table := table, statement := update s.statement x .writing }
  | clear {x n : ℕ} {c : Client} {v : Tuple ρ} {todo : List (ℕ × Visit)}
    (hc : s.txn.clients.lookup x = some c)
    (hp : c.phase = .aborting ((v.header.xmax, .stamps) :: todo)) (hv : s.table[n]? = some v) :
    Spec s (.clear x n) { s with table := clearTuple s.table n v }
  | visit {x : ℕ} {u : ℕ × Visit} {t' : Timeline.State} (h : s.txn.nextVisit x = some (u, t')) :
    Spec s (.visit x) { s with txn := s.txn.tick t' }
  | read {x : ℕ} {a : ReadStep} {c : Client} {index' : Runtime σ} {r' : Read σ ε}
    (hc : s.txn.clients.lookup x = some c) (hp : c.phase = .running)
    (hst : s.statement x = .fresh ∨ s.statement x = .marked)
    (h : Advance (B.build (s.scan c)) c.handle.snapshot s.txn.mgr.status s.index (s.read x) index'
      r') :
    Spec s (.read x a) { s with index := index', read := update s.read x r' }

variable {B} {s s' : State ρ σ ε}

theorem spec_of_step {a : Act ρ} (h : step B s a = some s') : Spec B s a s' := by
  cases a with simp only [step] at h
  | txn b =>
    split_ifs at h with hb
    obtain ⟨t', ht', rfl⟩ := Option.map_eq_some_iff.1 h
    obtain ⟨hb, hav⟩ := (Bool.and_eq_true _ _).mp hb
    exact .txn hb (fun x hx => by simpa [Option.mem_def.1 hx] using hav) ht'
  | record x =>
    split at h
    · rename_i c hrun
      obtain ⟨hc, hp⟩ := running_eq_some.1 hrun
      split_ifs at h with hav
      cases h
      exact .record hc hp hav.1 hav.2
    · cases h
  | flag x =>
    split_ifs at h with hst
    cases h
    exact .flag hst
  | write x w =>
    split at h
    · rename_i c hrun
      obtain ⟨hc, hp⟩ := running_eq_some.1 hrun
      split_ifs at h with hav
      obtain ⟨table, htable, rfl⟩ := Option.map_eq_some_iff.1 h
      exact .write hc hp hav.1 hav.2 htable
    · cases h
  | clear x n =>
    split at h
    · rename_i z v hz hv
      obtain ⟨c, todo, hc, hp⟩ := clearing_eq_some hz
      split_ifs at h with hx
      cases h
      subst hx
      exact .clear hc hp hv
    · cases h
  | visit x =>
    split at h
    · rename_i z u t' hnext
      split_ifs at h with hdone
      cases h
      exact .visit hnext
    · cases h
  | read x a =>
    split at h
    · rename_i c hrun
      obtain ⟨hc, hp⟩ := running_eq_some.1 hrun
      split_ifs at h with hst
      obtain ⟨⟨index', r'⟩, hr, rfl⟩ := Option.map_eq_some_iff.1 h
      exact .read hc hp hst (advance_cases hr)
    · cases h

/-- The stamps of a version are of the running statement, or were there before. -/
def StampedBy (ts : List (Tuple ρ)) (c : Client) (v' : Tuple ρ) : Prop :=
  (v'.header.ins = ⟨c.handle.writeXid, c.handle.writeXid, c.handle.currentCommand⟩ ∨
    ∃ v ∈ ts, v.header.ins = v'.header.ins) ∧
  (v'.header.xmax = 0 ∨
    v'.header.del = ⟨c.handle.writeXid, c.handle.writeXid, c.handle.currentCommand⟩ ∨
    ∃ v ∈ ts, v.header.del = v'.header.del)

theorem writeTable_spec {x : ℕ} {c : Client} {w : Write ρ} {table : List (Tuple ρ)}
    (hc : s.txn.clients.lookup x = some c) (hp : c.phase = .running)
    (h : s.writeTable c w = some table) :
    TableStep s.txn s.table s.txn table ∧ ∀ v' ∈ table, StampedBy s.table c v' := by
  have hold : ∀ {v'}, v' ∈ s.table → StampedBy s.table c v' :=
    fun hv => ⟨.inr ⟨_, hv, rfl⟩, .inr (.inr ⟨_, hv, rfl⟩)⟩
  cases w with
  | insert row =>
    cases h
    refine ⟨.insert hc hp row, fun v' hv' => ?_⟩
    rcases List.mem_append.1 hv' with hv' | hv'
    · exact hold hv'
    · cases List.mem_singleton.1 hv'
      exact ⟨.inl rfl, .inl rfl⟩
  | update n hot row =>
    simp only [State.writeTable] at h
    split at h
    · rename_i v hv
      split_ifs at h with hw
      cases h
      refine ⟨.update hc hp hv hw hot row, fun v' hv' => ?_⟩
      rcases List.mem_append.1 hv' with hv' | hv'
      · rcases List.mem_or_eq_of_mem_set hv' with hv' | rfl
        · exact hold hv'
        · exact ⟨.inr ⟨v, List.mem_of_getElem? hv, rfl⟩, .inr (.inl rfl)⟩
      · cases List.mem_singleton.1 hv'
        exact ⟨.inl rfl, .inl rfl⟩
    · cases h
  | delete n =>
    simp only [State.writeTable] at h
    split at h
    · rename_i v hv
      split_ifs at h with hw
      cases h
      refine ⟨.delete hc hp hv hw, fun v' hv' => ?_⟩
      rcases List.mem_or_eq_of_mem_set hv' with hv' | rfl
      · exact hold hv'
      · exact ⟨.inr ⟨v, List.mem_of_getElem? hv, rfl⟩, .inr (.inl rfl)⟩
    · cases h

end Machine

end UltraSql.Aggregating
