import UltraSql.Index.Versions

/-!
# A foreign key and concurrent transactions

The rows that a foreign key relates, child and parent, under any number of transactions. A statement
takes its snapshot, locks the row it changes and looks at it again, checks the key and writes. Each
of these is a step of its own.

Whoever stores a child row looks for a parent with the key, and whoever takes a parent key away
looks for children with it. Both look through the snapshot of their statement, and neither locks
what the other one writes.

**Theorem (`spec_of_step`).** What the steps do, branch by branch.
-/

namespace UltraSql.ForeignKey

open Timeline (Client Visit)
open Heap Function
open Index

/-- The key of a row in `columns` and in `target_columns`; no key if one of its columns is NULL or
if the row is not of the table. -/
structure Constraint (ρ κ : Type) where
  columns : ρ → Option κ
  targetColumns : ρ → Option κ

/-- What a statement does to a row. -/
inductive Edit (ρ : Type)
  | insert (row : ρ)
  | update (n : ℕ) (row : ρ)
  | delete (n : ℕ)

namespace Edit

variable {ρ : Type}

def old : Edit ρ → Option ℕ
  | insert _ => none
  | update n _ | delete n => some n

def new : Edit ρ → Option ρ
  | insert row | update _ row => some row
  | delete _ => none

end Edit

section Checks

variable {ρ κ : Type} [DecidableEq κ] (fk : Constraint ρ κ) (ts : List (Tuple ρ))
  (snapshot : Snapshot) (oracle : Oracle)

/-- `scan_visible` -/
def scanVisible : List (Tuple ρ) :=
  ts.filter fun v => (isVisible v.header snapshot oracle).isSeen

/-- `relation_has_key` at the parent -/
def relationHasKey (k : κ) : Bool :=
  (scanVisible ts snapshot oracle).any fun v => fk.targetColumns v.row = some k

/-- `matching_child_rows` -/
def matchingChildRows (k : κ) : List (Tuple ρ) :=
  (scanVisible ts snapshot oracle).filter fun v => fk.columns v.row = some k

/-- The check that `build_foreign_key_checks_from_deps` makes for a new row. -/
def checkForeignKey (row : ρ) : Bool :=
  match fk.columns row with
  | none => true
  | some k => relationHasKey fk ts snapshot oracle k

/-- The check of `build_referenced_by_delete_checks`, with NO ACTION or RESTRICT. -/
def checkReferencedByDelete (row : ρ) : Bool :=
  match fk.targetColumns row with
  | none => true
  | some k => (matchingChildRows fk ts snapshot oracle k).isEmpty

/-- The check of `build_referenced_by_update_checks`. -/
def checkReferencedByUpdate (oldRow newRow : ρ) : Bool :=
  if fk.targetColumns oldRow = fk.targetColumns newRow then true
  else checkReferencedByDelete fk ts snapshot oracle oldRow

/-- All checks of a statement. -/
def passes (e : Edit ρ) : Bool :=
  match e with
  | .insert row => checkForeignKey fk ts snapshot oracle row
  | .update n row =>
    checkForeignKey fk ts snapshot oracle row &&
      ts[n]?.all fun v => checkReferencedByUpdate fk ts snapshot oracle v.row row
  | .delete n => ts[n]?.all fun v => checkReferencedByDelete fk ts snapshot oracle v.row

end Checks

/-! ## Histories -/

inductive Job (ρ : Type)
  | idle
  /-- the row to be changed is locked -/
  | planned (e : Edit ρ)
  | checked (e : Edit ρ)
  | failed

structure State (ρ : Type) where
  txn : Timeline.State := {}
  tuples : List (Tuple ρ) := []
  job : ℕ → Job ρ := fun _ => .idle
  /-- who has locked a tuple last -/
  locks : ℕ → Option ℕ := fun _ => none

inductive Act (ρ : Type)
  | txn (a : Timeline.Act)
  | insert (x : ℕ) (row : ρ)
  /-- lock the tuple `n` and look at it again, to store the row or to delete -/
  | lock (x n : ℕ) (row : Option ρ)
  | check (x : ℕ)
  | write (x : ℕ) (hot : Bool)
  | fail (x : ℕ)
  | clear (x n : ℕ)
  | visit (x : ℕ)

section Machine

variable {ρ κ : Type} [DecidableEq κ] (fk : Constraint ρ κ)

namespace State

variable (s : State ρ)

def setJob (x : ℕ) (j : Job ρ) : State ρ := { s with job := update s.job x j }

/-- The transaction has ended, and its locks are free. -/
def isOver (y : ℕ) : Bool :=
  match s.txn.clients.lookup y with
  | some d => decide (d.phase = .committed ∨ d.phase = .aborted)
  | none => false

/-- Nobody else holds the lock of the tuple. -/
def lockFree (x n : ℕ) : Bool :=
  match s.locks n with
  | none => true
  | some y => decide (y = x) || s.isOver y

def apply (c : Client) (hot : Bool) : Edit ρ → Option (List (Tuple ρ))
  | .insert row => some (insertTuple s.tuples c.handle.writeXid c.handle.currentCommand row)
  | .update n row => s.tuples[n]?.map fun v =>
    updateTuple s.tuples n v hot c.handle.writeXid c.handle.currentCommand row
  | .delete n => s.tuples[n]?.map fun v =>
    deleteTuple s.tuples n v c.handle.writeXid c.handle.currentCommand

end State

/-- A statement is done before the next one begins and before the COMMIT. -/
def allowed (job : ℕ → Job ρ) : Timeline.Act → Bool
  | .refresh x _ | .commit x =>
    match job x with
    | .idle => true
    | _ => false
  | _ => true

/-- A ROLLBACK ends the statement. -/
def restart (job : ℕ → Job ρ) : Timeline.Act → ℕ → Job ρ
  | .rollback x => update job x .idle
  | _ => job

def Edit.ofRow (n : ℕ) : Option ρ → Edit ρ
  | some row => .update n row
  | none => .delete n

def step (s : State ρ) : Act ρ → Option (State ρ)
  | .txn a =>
    if a.plain && allowed s.job a then
      (Timeline.step s.txn a).map fun t => { s with txn := t, job := restart s.job a }
    else none
  | .insert x row =>
    match running s.txn x, s.job x with
    | some _, .idle => some (s.setJob x (.planned (.insert row)))
    | _, _ => none
  | .lock x n row =>
    match running s.txn x, s.job x, s.tuples[n]? with
    | some c, .idle, some v =>
      if s.lockFree x n then
        let s := { s with locks := update s.locks n (some x) }
        -- the row may be gone, and the statement skips it
        if writable s.txn c v.header then some (s.setJob x (.planned (.ofRow n row))) else some s
      else none
    | _, _, _ => none
  | .check x =>
    match running s.txn x, s.job x with
    | some c, .planned e =>
      if passes fk s.tuples c.handle.snapshot s.txn.mgr.status e then
        some (s.setJob x (.checked e))
      else some (s.setJob x .failed)
    | _, _ => none
  | .write x hot =>
    match running s.txn x, s.job x with
    | some c, .checked e =>
      (s.apply c hot e).map fun ts => { s.setJob x .idle with tuples := ts }
    | _, _ => none
  | .fail x => (running s.txn x).map fun _ => s.setJob x .failed
  | .clear x n =>
    match clearing s.txn x, s.tuples[n]? with
    | some z, some v =>
      if v.header.xmax = z ∧ v.header.infomask.updatedInPlace = false then
        some { s with tuples := clearTuple s.tuples n v }
      else none
    | _, _ => none
  | .visit x =>
    match s.txn.nextVisit x with
    | some ((z, u), t) =>
      if u = .stamps → ∀ v ∈ s.tuples, v.header.xmax ≠ z then some { s with txn := s.txn.tick t }
      else none
    | none => none

def machine : Machine (State ρ) (Act ρ) where
  init := {}
  step := step fk

/-! ### What a step does -/

inductive Spec (s : State ρ) : Act ρ → State ρ → Prop
  | time {b : Timeline.Act} {t' : Timeline.State} (hb : b.plain = true)
    (hjob : allowed s.job b = true) (h : Timeline.step s.txn b = some t') :
    Spec s (.txn b) { s with txn := t', job := restart s.job b }
  | insert {x : ℕ} {c : Client} {row : ρ} (hc : s.txn.clients.lookup x = some c)
    (hp : c.phase = .running) : Spec s (.insert x row) (s.setJob x (.planned (.insert row)))
  | lock {x n : ℕ} {c : Client} {v : Tuple ρ} {row : Option ρ}
    (hc : s.txn.clients.lookup x = some c) (hp : c.phase = .running)
    (hv : s.tuples[n]? = some v) (hfree : s.lockFree x n = true) (hjob : s.job x = .idle)
    (hw : writable s.txn c v.header = true) :
    Spec s (.lock x n row)
      ({ s with locks := update s.locks n (some x) }.setJob x (.planned (.ofRow n row)))
  | skip {x n : ℕ} {row : Option ρ} (hfree : s.lockFree x n = true) (hjob : s.job x = .idle) :
    Spec s (.lock x n row) { s with locks := update s.locks n (some x) }
  | check {x : ℕ} {c : Client} {e : Edit ρ} (hc : s.txn.clients.lookup x = some c)
    (hp : c.phase = .running) (hjob : s.job x = .planned e)
    (hpass : passes fk s.tuples c.handle.snapshot s.txn.mgr.status e = true) :
    Spec s (.check x) (s.setJob x (.checked e))
  | fail {a : Act ρ} {x : ℕ} : Spec s a (s.setJob x .failed)
  | write {x : ℕ} {c : Client} {e : Edit ρ} {hot : Bool} {ts : List (Tuple ρ)}
    (hc : s.txn.clients.lookup x = some c) (hp : c.phase = .running)
    (hjob : s.job x = .checked e) (hts : s.apply c hot e = some ts) :
    Spec s (.write x hot) { s.setJob x .idle with tuples := ts }
  | clear {x n z : ℕ} {c : Client} {v : Tuple ρ} {todo : List (ℕ × Visit)}
    (hc : s.txn.clients.lookup x = some c) (hp : c.phase = .aborting ((z, .stamps) :: todo))
    (hv : s.tuples[n]? = some v) (hx : v.header.xmax = z) :
    Spec s (.clear x n) { s with tuples := clearTuple s.tuples n v }
  | visit {x : ℕ} {u : ℕ × Visit} {t' : Timeline.State} (h : s.txn.nextVisit x = some (u, t'))
    (hdone : u.2 = .stamps → ∀ v ∈ s.tuples, v.header.xmax ≠ u.1) :
    Spec s (.visit x) { s with txn := s.txn.tick t' }

variable {fk} {s s' : State ρ} {a : Act ρ}

theorem spec_of_step (h : step fk s a = some s') : Spec fk s a s' := by
  cases a with simp only [step] at h
  | txn b =>
    split_ifs at h with hb
    obtain ⟨t', ht', rfl⟩ := Option.map_eq_some_iff.1 h
    obtain ⟨hb, hjob⟩ := (Bool.and_eq_true _ _).mp hb
    exact .time hb hjob ht'
  | insert x row =>
    split at h <;> cases h
    rename_i c hrun hjob
    obtain ⟨hc, hp⟩ := running_eq_some.1 hrun
    exact .insert hc hp
  | lock x n row =>
    split at h
    · rename_i c v hrun hjob hv
      obtain ⟨hc, hp⟩ := running_eq_some.1 hrun
      split_ifs at h with hfree hw
      · cases h
        exact .lock hc hp hv hfree hjob hw
      · cases h
        exact .skip hfree hjob
    · cases h
  | check x =>
    split at h
    · rename_i c e hrun hjob
      obtain ⟨hc, hp⟩ := running_eq_some.1 hrun
      split_ifs at h with hpass
      · cases h
        exact .check hc hp hjob hpass
      · cases h
        exact .fail
    · cases h
  | write x hot =>
    split at h
    · rename_i c e hrun hjob
      obtain ⟨hc, hp⟩ := running_eq_some.1 hrun
      obtain ⟨ts, hts, rfl⟩ := Option.map_eq_some_iff.1 h
      exact .write hc hp hjob hts
    · cases h
  | fail x =>
    obtain ⟨c, -, rfl⟩ := Option.map_eq_some_iff.1 h
    exact .fail
  | clear x n =>
    split at h
    · rename_i z v hz hv
      obtain ⟨c, todo, hc, hp⟩ := clearing_eq_some hz
      split_ifs at h with hx
      cases h
      exact .clear hc hp hv hx.1
    · cases h
  | visit x =>
    split at h
    · rename_i z u t' hnext
      split_ifs at h with hdone
      cases h
      exact .visit hnext hdone
    · cases h

end Machine

end UltraSql.ForeignKey
