import UltraSql.Index.Table

/-!
# Unique indexes

A table with a unique index, which maps a key to the address of one version. A statement probes the
index for the keys of its rows, writes the rows to the heap and then enters the new keys. Each of
these is a step of its own, and other transactions act in between.

An entry is not removed when its version dies. A probe that finds one looks at the version: it is a
conflict if the version is there for somebody or will be, and otherwise the entry is replaced. An
UPDATE that keeps the key leaves the entry at the old version.

**Theorem (`spec_of_step`).** What the steps do, branch by branch.
-/

namespace UltraSql.Index.Unique

open Timeline (Client Visit)
open Heap Function Option

/-- `UniqueConflict` -/
inductive UniqueConflict
  | none
  | live
  | dead (tid : ℕ)
  deriving DecidableEq

inductive ExecError
  | uniqueViolation
  /-- "unique recheck heap fetch" -/
  | heapFetch
  /-- another transaction has changed the row -/
  | writeConflict
  | cancelled
  deriving DecidableEq

section Probe

variable {ρ κ : Type} [DecidableEq κ] (index : FiniteMap κ ℕ) (ts : List (Tuple ρ))
  (snapshot : Snapshot) (oracle : Oracle)

/-- `tuple_is_pending_live`: the version holds its key for somebody. -/
def tupleIsPendingLive (h : TupleHeader) : Bool :=
  if Xid.isInvalid h.xmin then false
  else if (oracle h.xmin).isAborted then false
  else if Xid.isInvalid h.xmax then true
  else !(oracle h.xmax).isCommitted

/-- `classify_unique_conflict` -/
def classifyUniqueConflict (k : κ) : Except ExecError UniqueConflict :=
  match index.lookup k with
  | none => .ok .none
  | some tid =>
    match ts[tid]? with
    | none => .error .heapFetch
    | some v =>
      match isVisible v.header snapshot oracle with
      | .visible | .visiblePreImage | .visibleMaybePreImage | .deletedByOwn => .ok .live
      | .invisible =>
        if tupleIsPendingLive oracle v.header then .ok .live else .ok (.dead tid)

variable {index ts snapshot oracle} in
/-- **What a probe has found.** -/
theorem classifyUniqueConflict_eq_ok {k : κ} {r : UniqueConflict}
    (h : classifyUniqueConflict index ts snapshot oracle k = .ok r) (hr : r ≠ .live) :
    r = .none ∧ index.lookup k = none ∨
      ∃ tid v, r = .dead tid ∧ index.lookup k = some tid ∧ ts[tid]? = some v ∧
        tupleIsPendingLive oracle v.header = false := by
  unfold classifyUniqueConflict at h
  split at h
  · rename_i hlook
    exact .inl ⟨(Except.ok.inj h).symm, hlook⟩
  · rename_i tid hlook
    split at h
    · cases h
    · rename_i v hv
      split at h
      any_goals exact absurd (Except.ok.inj h).symm hr
      by_cases hlive : tupleIsPendingLive oracle v.header = true
      · rw [if_pos hlive] at h
        exact absurd (Except.ok.inj h).symm hr
      · rw [if_neg hlive] at h
        exact .inr ⟨tid, v, (Except.ok.inj h).symm, hlook, hv, Bool.not_eq_true _ |>.mp hlive⟩

/-- `insert_key_conflicts_live`, and `update_key_conflicts_live`, which does the same. -/
def keyConflictsLive (k : κ) : Except ExecError Bool := do
  return decide ((← classifyUniqueConflict index ts snapshot oracle k) = .live)

/-- `reject_duplicate_insert_keys` for one row, with the keys of the rows before it. -/
def rejectDuplicateInsertKeys (seen : List κ) (k : Option κ) : Except ExecError (List κ) :=
  match k with
  | none => .ok seen
  | some k => do
    if k ∈ seen then throw .uniqueViolation
    if ← keyConflictsLive index ts snapshot oracle k then throw .uniqueViolation
    return k :: seen

/-- `precheck_update_index_changes` for one row. -/
def precheckUpdateIndexChanges (oldKey newKey : Option κ) : Except ExecError Unit :=
  match newKey with
  | none => .ok ()
  | some k => do
    if oldKey = some k then return
    if ← keyConflictsLive index ts snapshot oracle k then throw .uniqueViolation

/-- `insert_dead_replace_tid` -/
def insertDeadReplaceTid (k : κ) : Except ExecError (Option ℕ) := do
  match ← classifyUniqueConflict index ts snapshot oracle k with
  | .dead tid => return some tid
  | _ => return none

/-- `classify_update_unique_conflict` -/
def classifyUpdateUniqueConflict (k : κ) (newTid : ℕ) : Except ExecError (Option ℕ) := do
  match ← classifyUniqueConflict index ts snapshot oracle k with
  | .live => throw .uniqueViolation
  | .dead tid => return if tid ≠ newTid then some tid else none
  | .none => return none

/-- `delete_key` takes out the exact pair. -/
def deleteKey (k : κ) (tid : ℕ) : FiniteMap κ ℕ :=
  if index.lookup k = some tid then index.erase k else index

/-- What `insert_key_replacing_dead` does first. -/
def removeDead (k : κ) : Option ℕ → FiniteMap κ ℕ
  | some d => deleteKey index k d
  | none => index

/-- `insert_key` -/
def insertKey (k : κ) (tid : ℕ) : Except ExecError (FiniteMap κ ℕ) :=
  if (index.lookup k).isSome then .error .uniqueViolation else .ok (index.insert k tid)

end Probe

/-! ## Statements -/

/-- A row that a statement has probed for and writes next. -/
inductive Write (ρ : Type)
  | insert (row : ρ)
  | update (n : ℕ) (row : ρ)

/-- A version in the heap whose key is not in the index yet. -/
structure Job (κ : Type) where
  tid : ℕ
  key : κ
  isUpdate : Bool

/-- The progress of `insert_key_replacing_dead`. -/
inductive Replacement (κ : Type)
  | idle
  | replacing (tid : ℕ) (key : κ) (dead : Option ℕ)
  | adding (tid : ℕ) (key : κ)

/-- The statement that a transaction executes. -/
structure Stmt (ρ κ : Type) where
  error : Option ExecError := none
  seenKeys : List κ := []
  writes : List (Write ρ) := []
  jobs : List (Job κ) := []
  current : Replacement κ := .idle

/-- The pair that is on its way into the index. -/
def Replacement.pair {κ : Type} : Replacement κ → List (ℕ × κ)
  | idle => []
  | replacing tid k _ | adding tid k => [(tid, k)]

namespace Stmt

variable {ρ κ : Type}

/-- All is done, without an error. -/
def done (st : Stmt ρ κ) : Bool :=
  st.error.isNone && st.writes.isEmpty && st.jobs.isEmpty && st.current.pair.isEmpty

/-- The versions that are not in the index yet. -/
def pending (st : Stmt ρ κ) : List (ℕ × κ) :=
  st.jobs.map (fun job => (job.tid, job.key)) ++ st.current.pair

/-- A key that is NULL is not indexed. -/
def addJob (st : Stmt ρ κ) (tid : ℕ) (k : Option κ) (isUpdate : Bool) : Stmt ρ κ :=
  { st with jobs := st.jobs ++ k.toList.map fun k => ⟨tid, k, isUpdate⟩ }

end Stmt

/-! ## Histories -/

structure State (ρ κ : Type) where
  txn : Timeline.State := {}
  tuples : List (Tuple ρ) := []
  index : FiniteMap κ ℕ := ∅
  stmt : ℕ → Stmt ρ κ := fun _ => {}

inductive Act (ρ : Type)
  | txn (a : Timeline.Act)
  /-- a row of an INSERT is probed for -/
  | insert (x : ℕ) (row : ρ)
  /-- a row of an UPDATE is probed for -/
  | update (x n : ℕ) (row : ρ)
  /-- the statement writes its next row to the heap -/
  | write (x : ℕ) (hot : Bool)
  /-- it looks at what the index has for its next key -/
  | classify (x : ℕ)
  /-- it takes out the dead entry -/
  | remove (x : ℕ)
  /-- it enters its own -/
  | add (x : ℕ)
  | delete (x n : ℕ)
  | fail (x : ℕ)
  | clear (x n : ℕ)
  | visit (x : ℕ)

section Machine

variable {ρ κ : Type} [DecidableEq κ] (key : ρ → Option κ)

variable (s : State ρ κ)

def State.setStmt (x : ℕ) (st : Stmt ρ κ) : State ρ κ :=
  { s with stmt := update s.stmt x st }

def State.failStmt (x : ℕ) (e : ExecError) : State ρ κ :=
  s.setStmt x { s.stmt x with error := some e }

/-- The client `x` if its statement has not failed. -/
def State.active (x : ℕ) : Option Client :=
  (running s.txn x).filter fun _ => (s.stmt x).error.isNone

/-- The next row of the statement is in the heap. -/
def State.insert (x : ℕ) (c : Client) (row : ρ) (rest : List (Write ρ)) : State ρ κ :=
  { s with
    tuples := insertTuple s.tuples c.handle.writeXid c.handle.currentCommand row
    stmt := update s.stmt x
      ({ s.stmt x with writes := rest }.addJob s.tuples.length (key row) false) }

def State.update (x n : ℕ) (c : Client) (v : Tuple ρ) (row : ρ) (rest : List (Write ρ))
    (hot : Bool) : State ρ κ :=
  { s with
    tuples := updateTuple s.tuples n v hot c.handle.writeXid c.handle.currentCommand row
    stmt := Function.update s.stmt x
      ({ s.stmt x with writes := rest }.addJob s.tuples.length
        -- `apply_update_index_changes` skips a key that stays
        (if key v.row = key row then none else key row) true) }

/-- The statement after its next write. -/
def State.write (x : ℕ) (c : Client) (hot : Bool) : Option (State ρ κ) :=
  match (s.stmt x).writes with
  | [] => none
  | .insert row :: rest => some (s.insert key x c row rest)
  | .update n row :: rest =>
    match s.tuples[n]? with
    | none => none
    | some v =>
      if writable s.txn c v.header then some (s.update key x n c v row rest hot)
      else some (s.failStmt x .writeConflict)

/-- The statement after it has looked at the entry of its next key. -/
def State.classify (x : ℕ) (c : Client) : Option (State ρ κ) :=
  match (s.stmt x).current, (s.stmt x).jobs with
  | .idle, job :: rest =>
    let dead :=
      if job.isUpdate then
        classifyUpdateUniqueConflict s.index s.tuples c.handle.snapshot s.txn.mgr.status job.key
          job.tid
      else insertDeadReplaceTid s.index s.tuples c.handle.snapshot s.txn.mgr.status job.key
    match dead with
    | .ok dead =>
      some (s.setStmt x
        { s.stmt x with jobs := rest, current := .replacing job.tid job.key dead })
    | .error e => some (s.failStmt x e)
  | _, _ => none

/-- What a step of the transactions is to the statements: one must be done before the next begins
and before the COMMIT. -/
def allowed : Timeline.Act → Bool
  | .refresh x _ | .commit x => (s.stmt x).done
  | _ => true

/-- The statements after a step of the transactions. -/
def restart (stmt : ℕ → Stmt ρ κ) : Timeline.Act → ℕ → Stmt ρ κ
  | .refresh x _ => update stmt x {}
  | _ => stmt

def step (s : State ρ κ) : Act ρ → Option (State ρ κ)
  | .txn a =>
    if a.plain && allowed s a then
      (Timeline.step s.txn a).map fun t => { s with txn := t, stmt := restart s.stmt a }
    else none
  | .insert x row =>
    (s.active x).map fun c =>
      match rejectDuplicateInsertKeys s.index s.tuples c.handle.snapshot s.txn.mgr.status
        (s.stmt x).seenKeys (key row) with
      | .ok seen =>
        s.setStmt x
          { s.stmt x with seenKeys := seen, writes := (s.stmt x).writes ++ [.insert row] }
      | .error e => s.failStmt x e
  | .update x n row =>
    match s.active x, s.tuples[n]? with
    | some c, some v =>
      if writable s.txn c v.header then
        match precheckUpdateIndexChanges s.index s.tuples c.handle.snapshot s.txn.mgr.status
          (key v.row) (key row) with
        | .ok () =>
          some (s.setStmt x { s.stmt x with writes := (s.stmt x).writes ++ [.update n row] })
        | .error e => some (s.failStmt x e)
      else none
    | _, _ => none
  | .write x hot => (s.active x).bind fun c => s.write key x c hot
  | .classify x => (s.active x).bind fun c => s.classify x c
  | .remove x =>
    (s.active x).bind fun _ =>
      match (s.stmt x).current with
      | .replacing tid k dead =>
        some { s with
          index := removeDead s.index k dead
          stmt := update s.stmt x { s.stmt x with current := .adding tid k } }
      | _ => none
  | .add x =>
    (s.active x).bind fun _ =>
      match (s.stmt x).current with
      | .adding tid k =>
        match insertKey s.index k tid with
        | .ok index =>
          some { s with
            index := index
            stmt := update s.stmt x { s.stmt x with current := .idle } }
        | .error e => some (s.failStmt x e)
      | _ => none
  | .delete x n =>
    match s.active x, s.tuples[n]? with
    | some c, some v =>
      if writable s.txn c v.header then
        some { s with
          tuples := deleteTuple s.tuples n v c.handle.writeXid c.handle.currentCommand }
      else none
    | _, _ => none
  | .fail x => (s.active x).map fun _ => s.failStmt x .cancelled
  | .clear x n =>
    match clearing s.txn x, s.tuples[n]? with
    | some z, some v =>
      if v.header.xmax = z ∧ v.header.infomask.updatedInPlace = false then
        some { s with tuples := clearTuple s.tuples n v }
      else none
    | _, _ => none
  | .visit x =>
    match s.txn.nextVisit x with
    | some ((z, u), t) =>
      if u = .stamps → ∀ v ∈ s.tuples, v.header.xmax ≠ z then
        some { s with txn := s.txn.tick t }
      else none
    | none => none

def machine : Machine (State ρ κ) (Act ρ) where
  init := {}
  step := step key

/-- Snapshots are taken at a clear moment. -/
def Timed (s : State ρ κ) (a : Act ρ) : Prop :=
  match a with
  | .txn b => Timeline.Timely s.txn b = true
  | _ => True

/-- The keys for which a step asks the index, and the transaction that asks. -/
def State.probes (s : State ρ κ) : Act ρ → List (ℕ × κ)
  | .insert x row => ((key row).toList.filter (· ∉ (s.stmt x).seenKeys)).map (x, ·)
  | .update x n row =>
    match s.tuples[n]? with
    | some v => if key v.row = key row then [] else (key row).toList.map (x, ·)
    | none => []
  | .classify x => (s.stmt x).jobs.head?.toList.map fun job => (x, job.key)
  | _ => []

/-! ### What a step does -/

inductive Spec (s : State ρ κ) : Act ρ → State ρ κ → Prop
  | time {b : Timeline.Act} {t' : Timeline.State} (hb : b.plain = true)
    (hdone : allowed s b = true) (h : Timeline.step s.txn b = some t') :
    Spec s (.txn b) { s with txn := t', stmt := restart s.stmt b }
  /-- the statement goes on or fails, without a change to the heap or the index -/
  | plan {a : Act ρ} {x : ℕ} {st : Stmt ρ κ} (hpend : st.pending = (s.stmt x).pending)
    (hcur : st.current = (s.stmt x).current) : Spec s a (s.setStmt x st)
  | insert {x : ℕ} {c : Client} {row : ρ} {rest : List (Write ρ)} {hot : Bool}
    (hc : s.txn.clients.lookup x = some c) (hp : c.phase = .running) :
    Spec s (.write x hot) (s.insert key x c row rest)
  | update {x n : ℕ} {c : Client} {v : Tuple ρ} {row : ρ} {rest : List (Write ρ)} {hot : Bool}
    (hc : s.txn.clients.lookup x = some c) (hp : c.phase = .running)
    (hv : s.tuples[n]? = some v) (hw : writable s.txn c v.header = true) :
    Spec s (.write x hot) (s.update key x n c v row rest hot)
  | classify {x : ℕ} {c : Client} {job : Job κ} {rest : List (Job κ)} {dead : Option ℕ}
    (hc : s.txn.clients.lookup x = some c) (hp : c.phase = .running)
    (hcur : (s.stmt x).current = .idle) (hjobs : (s.stmt x).jobs = job :: rest)
    (hdead : ∀ d, dead = some d → classifyUniqueConflict s.index s.tuples c.handle.snapshot
      s.txn.mgr.status job.key = .ok (.dead d)) :
    Spec s (.classify x)
      (s.setStmt x { s.stmt x with jobs := rest, current := .replacing job.tid job.key dead })
  | remove {x tid : ℕ} {k : κ} {dead : Option ℕ}
    (hcur : (s.stmt x).current = .replacing tid k dead) :
    Spec s (.remove x)
      { s with
        index := removeDead s.index k dead
        stmt := update s.stmt x { s.stmt x with current := .adding tid k } }
  | add {x tid : ℕ} {c : Client} {k : κ} (hc : s.txn.clients.lookup x = some c)
    (hp : c.phase = .running) (hcur : (s.stmt x).current = .adding tid k)
    (hfree : s.index.lookup k = none) :
    Spec s (.add x)
      { s with
        index := s.index.insert k tid
        stmt := update s.stmt x { s.stmt x with current := .idle } }
  | delete {x n : ℕ} {c : Client} {v : Tuple ρ} (hc : s.txn.clients.lookup x = some c)
    (hp : c.phase = .running) (hv : s.tuples[n]? = some v)
    (hw : writable s.txn c v.header = true) :
    Spec s (.delete x n)
      { s with tuples := deleteTuple s.tuples n v c.handle.writeXid c.handle.currentCommand }
  | clear {x n z : ℕ} {c : Client} {v : Tuple ρ} {todo : List (ℕ × Visit)}
    (hc : s.txn.clients.lookup x = some c) (hp : c.phase = .aborting ((z, .stamps) :: todo))
    (hv : s.tuples[n]? = some v) (hx : v.header.xmax = z) :
    Spec s (.clear x n) { s with tuples := clearTuple s.tuples n v }
  | visit {x : ℕ} {u : ℕ × Visit} {t' : Timeline.State}
    (h : s.txn.nextVisit x = some (u, t')) : Spec s (.visit x) { s with txn := s.txn.tick t' }

variable {key} {s s' : State ρ κ} {a : Act ρ} {x : ℕ} {c : Client}

omit [DecidableEq κ] in
theorem active_eq_some (h : s.active x = some c) :
    s.txn.clients.lookup x = some c ∧ c.phase = .running :=
  running_eq_some.1 (filter_eq_some_iff.1 h).1

theorem spec_failStmt (e : ExecError) : Spec key s a (s.failStmt x e) := .plan rfl rfl

/-- Whoever replaces an entry has found it dead. -/
theorem classify_of_replace {job : Job κ} {d : ℕ} {snapshot : Snapshot} {oracle : Oracle}
    (h : (if job.isUpdate then
        classifyUpdateUniqueConflict s.index s.tuples snapshot oracle job.key job.tid
      else insertDeadReplaceTid s.index s.tuples snapshot oracle job.key) = .ok (some d)) :
    classifyUniqueConflict s.index s.tuples snapshot oracle job.key = .ok (.dead d) := by
  unfold classifyUpdateUniqueConflict insertDeadReplaceTid at h
  cases hcl : classifyUniqueConflict s.index s.tuples snapshot oracle job.key with
  | error e =>
    rw [hcl] at h
    split_ifs at h <;> cases h
  | ok r =>
    rw [hcl] at h
    cases r with
    | none | live => split_ifs at h <;> cases h
    | dead tid =>
      have hd : some tid = some d := by
        split_ifs at h with hu
        · have h' : (if tid ≠ job.tid then some tid else none) = some d := Except.ok.inj h
          split_ifs at h'
          exact h'
        · exact Except.ok.inj h
      rw [some.inj hd]

theorem spec_of_write {hot : Bool} (hc : s.active x = some c) (h : s.write key x c hot = some s') :
    Spec key s (.write x hot) s' := by
  obtain ⟨hc, hp⟩ := active_eq_some hc
  unfold State.write at h
  split at h
  · cases h
  · cases h
    exact .insert hc hp
  · split at h
    · cases h
    · rename_i v hv
      by_cases hw : writable s.txn c v.header = true
      · rw [if_pos hw] at h
        cases h
        exact .update hc hp hv hw
      · rw [if_neg hw] at h
        cases h
        exact spec_failStmt _

theorem spec_of_classify (hc : s.active x = some c) (h : s.classify x c = some s') :
    Spec key s (.classify x) s' := by
  obtain ⟨hc, hp⟩ := active_eq_some hc
  unfold State.classify at h
  split at h
  · rename_i job rest hcur hjobs
    dsimp only at h
    split at h
    · rename_i dead hdead
      cases h
      refine .classify hc hp hcur hjobs fun d hd => classify_of_replace ?_
      rw [hdead, hd]
    · cases h
      exact spec_failStmt _
  · cases h

theorem spec_of_step (h : step key s a = some s') : Spec key s a s' := by
  cases a with simp only [step] at h
  | txn b =>
    split_ifs at h with hb
    obtain ⟨t', ht', rfl⟩ := map_eq_some_iff.1 h
    obtain ⟨hb, hdone⟩ := (Bool.and_eq_true _ _).mp hb
    exact .time hb hdone ht'
  | insert x row =>
    obtain ⟨c, hc, heq⟩ := map_eq_some_iff.1 h
    split at heq
    · subst heq
      exact .plan rfl rfl
    · subst heq
      exact spec_failStmt _
  | update x n row =>
    split at h
    · split at h
      · split at h
        · cases h
          exact .plan rfl rfl
        · cases h
          exact spec_failStmt _
      · cases h
    · cases h
  | write x hot =>
    obtain ⟨c, hc, h⟩ := bind_eq_some_iff.1 h
    exact spec_of_write hc h
  | classify x =>
    obtain ⟨c, hc, h⟩ := bind_eq_some_iff.1 h
    exact spec_of_classify hc h
  | remove x =>
    obtain ⟨c, hc, h⟩ := bind_eq_some_iff.1 h
    split at h <;> cases h
    rename_i tid k dead hcur
    exact .remove hcur
  | add x =>
    obtain ⟨c, hc, h⟩ := bind_eq_some_iff.1 h
    obtain ⟨hc, hp⟩ := active_eq_some hc
    split at h
    · rename_i tid k hcur
      unfold insertKey at h
      by_cases hk : (s.index.lookup k).isSome = true
      · rw [if_pos hk] at h
        cases h
        exact spec_failStmt _
      · rw [if_neg hk] at h
        cases h
        exact .add hc hp hcur (by simpa using hk)
    · cases h
  | delete x n =>
    split at h
    · rename_i c v hc hv
      obtain ⟨hc, hp⟩ := active_eq_some hc
      split_ifs at h with hw
      cases h
      exact .delete hc hp hv hw
    · cases h
  | fail x =>
    obtain ⟨c, hc, rfl⟩ := map_eq_some_iff.1 h
    exact spec_failStmt _
  | clear x n =>
    split at h
    · rename_i z v hz hv
      obtain ⟨c, todo, hc, hp⟩ := clearing_eq_some hz
      split_ifs at h with hx
      cases h
      exact .clear hc hp hv hx.1
    · cases h
  | visit x =>
    split at h
    · rename_i z u t hv
      split_ifs at h
      cases h
      exact .visit hv
    · cases h

end Machine

end UltraSql.Index.Unique
