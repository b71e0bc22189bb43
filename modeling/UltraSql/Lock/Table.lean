import UltraSql.Lib.FiniteMap
import UltraSql.Lib.Threads
import UltraSql.Mvcc.Visibility

/-!
# The lock table

The central tier of the lock manager: a concurrent map from lock tags to entries, where an entry
is shared memory that outlives its place in the map. `acquire` clones the entry out of the map and
locks the entry's own mutex afterwards, so a thread may hold an entry that the map no longer has.
The model therefore has a heap of entries beside the map (`entries`, `table`), and the map holds
addresses.

Each definition below is one atomic section: one access to the map under its shard's lock, or one
critical section of an entry's mutex. The deadlock detector enters as a thread that may flag any
registered transaction at any time.
-/

namespace UltraSql

open List Function

/-- The eight lock modes, from weakest to strongest. -/
inductive LockMode
  | accessShare
  | rowShare
  | rowExclusive
  | shareUpdateExclusive
  | share
  | shareRowExclusive
  | exclusive
  | accessExclusive
  deriving DecidableEq, Repr

/-- Whether acquiring the first mode is blocked by the second being granted. -/
def LockMode.conflictsWith : LockMode → LockMode → Bool
  | .exclusive, .accessShare | .exclusive, .rowShare => false
  | .accessShare, .exclusive | .rowShare, .exclusive => false
  | .accessExclusive, _ | _, .accessExclusive | .exclusive, _ | _, .exclusive => true
  | .shareRowExclusive, .rowExclusive | .shareRowExclusive, .shareUpdateExclusive => true
  | .shareRowExclusive, .share | .shareRowExclusive, .shareRowExclusive => true
  | .rowExclusive, .shareRowExclusive | .shareUpdateExclusive, .shareRowExclusive => true
  | .share, .shareRowExclusive => true
  | .share, .rowExclusive | .share, .shareUpdateExclusive => true
  | .rowExclusive, .share | .shareUpdateExclusive, .share => true
  | .shareUpdateExclusive, .shareUpdateExclusive => true
  | .rowExclusive, .shareUpdateExclusive => true
  | .shareUpdateExclusive, .rowExclusive => true
  | _, _ => false

/-- **The conflict matrix is symmetric.** -/
theorem LockMode.conflictsWith_comm (a b : LockMode) : a.conflictsWith b = b.conflictsWith a := by
  cases a <;> cases b <;> rfl

/-- The subject of a lock request. -/
inductive LockTag
  | relation (rel : ℕ)
  | tuple (tid : TupleId)
  | advisory (classid objid : ℕ)
  deriving DecidableEq, Repr

structure LockRequest where
  xid : ℕ
  tag : LockTag
  mode : LockMode
  deriving DecidableEq, Repr

/-- The errors of the central tier. -/
inductive LockError
  | deadlock (victim : ℕ)
  | timeout
  | cancelled
  deriving DecidableEq, Repr

/-- One granted lock. `xid` is the top-level transaction, `owner` the subtransaction that took
the lock. -/
structure Grant where
  xid : ℕ
  mode : LockMode
  owner : ℕ
  deriving DecidableEq, Repr

/-- The state under an entry's mutex. The tag is the key under which the entry was created. -/
structure LockEntry where
  tag : LockTag
  grants : List Grant := []
  waiters : List (ℕ × LockMode) := []
  deriving DecidableEq, Repr

namespace LockEntry

variable (e : LockEntry)

def isEmpty : Bool := e.grants.isEmpty && e.waiters.isEmpty

def push (req : LockRequest) (owner : ℕ) : LockEntry :=
  { e with grants := e.grants ++ [{ xid := req.xid, mode := req.mode, owner := owner }] }

def enqueue (req : LockRequest) : LockEntry :=
  { e with waiters := e.waiters ++ [(req.xid, req.mode)] }

/-- Remove the first occurrence of the request from the queue. -/
def removeWaiter (req : LockRequest) : LockEntry :=
  { e with waiters := e.waiters.eraseP fun w => w.1 == req.xid && w.2 == req.mode }

end LockEntry

/-- Whether a grant of another transaction conflicts with the mode. -/
def hasConflict (grants : List Grant) (requester : ℕ) (mode : LockMode) : Bool :=
  grants.any fun g => g.xid != requester && mode.conflictsWith g.mode

/-- The map from tags to addresses, and the entries in memory. -/
structure LockTable where
  map : FiniteMap LockTag ℕ := ∅
  entries : ℕ → LockEntry := fun _ => { tag := .relation 0 }
  nextEntry : ℕ := 0

namespace LockTable

variable (m : LockTable)

/-- A new entry, in memory and in the map. -/
def insertEntry (tag : LockTag) : LockTable where
  map := m.map.insert tag m.nextEntry
  entries := update m.entries m.nextEntry { tag := tag }
  nextEntry := m.nextEntry + 1

/-- `entry(tag).or_insert_with(LockEntry::new).clone()`. -/
def entryOrInsert (tag : LockTag) : LockTable × ℕ :=
  match m.map.lookup tag with
  | some addr => (m, addr)
  | none => (m.insertEntry tag, m.nextEntry)

/-- `remove_if`: the check and the removal are one section of the map. -/
def pruneEntryIfEmpty (tag : LockTag) : LockTable :=
  match m.map.lookup tag with
  | some addr => if (m.entries addr).isEmpty then { m with map := m.map.erase tag } else m
  | none => m

/-- A critical section of the entry at `addr`. -/
def modify (addr : ℕ) (f : LockEntry → LockEntry) : LockTable :=
  { m with entries := update m.entries addr (f (m.entries addr)) }

/-- The grants in the entry that the map has for a tag. -/
def grantsAt (tag : LockTag) : List Grant :=
  match m.map.lookup tag with
  | some addr => (m.entries addr).grants
  | none => []

/-- The map points to entries made for their tags, and an entry in use is in the map. -/
structure Wf (m : LockTable) : Prop where
  tagged : ∀ tag addr, m.map.lookup tag = some addr →
    addr < m.nextEntry ∧ (m.entries addr).tag = tag
  rooted : ∀ addr, (m.entries addr).isEmpty = false →
    m.map.lookup (m.entries addr).tag = some addr

variable {m : LockTable} {tag : LockTag} {addr : ℕ}

theorem grantsAt_of_lookup (h : m.map.lookup tag = some addr) :
    m.grantsAt tag = (m.entries addr).grants := by
  simp [grantsAt, h]

theorem grantsAt_of_none (h : m.map.lookup tag = none) : m.grantsAt tag = [] := by
  simp [grantsAt, h]

/-- An entry that the map does not have is empty. -/
theorem Wf.grants_eq_nil (h : m.Wf) (hne : m.map.lookup (m.entries addr).tag ≠ some addr) :
    (m.entries addr).grants = [] := by
  by_contra hg
  have hnot : (m.entries addr).isEmpty = false := by simp [LockEntry.isEmpty, hg]
  exact hne (h.rooted addr hnot)

/-! ### Looking up or inserting -/

theorem insertEntry_entries {a : ℕ} (ha : a < m.nextEntry) :
    (m.insertEntry tag).entries a = m.entries a :=
  update_of_ne ha.ne _ _

theorem lookup_insertEntry (t : LockTag) :
    (m.insertEntry tag).map.lookup t = if t = tag then some m.nextEntry else m.map.lookup t :=
  FiniteMap.lookup_insert_eq _ _ _ _

theorem insertEntry_wf (h : m.Wf) (hl : m.map.lookup tag = none) : (m.insertEntry tag).Wf := by
  refine ⟨fun t a ht => ?_, fun a ha => ?_⟩
  · rw [lookup_insertEntry] at ht
    split_ifs at ht with he
    · cases ht
      simp [insertEntry, he]
    · obtain ⟨hlt, htag⟩ := h.tagged t a ht
      rw [insertEntry_entries hlt]
      exact ⟨Nat.lt_succ_of_lt hlt, htag⟩
  · by_cases he : a = m.nextEntry
    · subst he
      simp [insertEntry, LockEntry.isEmpty] at ha
    · have hold : (m.insertEntry tag).entries a = m.entries a := update_of_ne he _ _
      rw [hold] at ha ⊢
      have hroot := h.rooted a ha
      rw [lookup_insertEntry, if_neg, hroot]
      intro htag
      rw [htag, hl] at hroot
      cases hroot

theorem grantsAt_insertEntry (h : m.Wf) (hl : m.map.lookup tag = none) (t : LockTag) :
    (m.insertEntry tag).grantsAt t = m.grantsAt t := by
  unfold grantsAt
  rw [lookup_insertEntry]
  split_ifs with he
  · subst he
    simp [hl, insertEntry]
  · cases ht : m.map.lookup t with
    | none => rfl
    | some a => simp [insertEntry_entries (h.tagged t a ht).1]

/-- **What looking up or inserting does.** -/
theorem entryOrInsert_spec (h : m.Wf) (tag : LockTag) :
    (m.entryOrInsert tag).1.Wf ∧
      (m.entryOrInsert tag).1.map.lookup tag = some (m.entryOrInsert tag).2 ∧
      (∀ t a, m.map.lookup t = some a → (m.entryOrInsert tag).1.map.lookup t = some a) ∧
      (∀ t, (m.entryOrInsert tag).1.grantsAt t = m.grantsAt t) ∧
      (∀ a < m.nextEntry, (m.entryOrInsert tag).1.entries a = m.entries a) ∧
      m.nextEntry ≤ (m.entryOrInsert tag).1.nextEntry := by
  unfold entryOrInsert
  cases hl : m.map.lookup tag with
  | some addr => exact ⟨h, hl, fun _ _ => id, fun _ => rfl, fun _ _ => rfl, le_rfl⟩
  | none =>
    refine ⟨insertEntry_wf h hl, ?_, fun t a ht => ?_, grantsAt_insertEntry h hl,
      fun a ha => insertEntry_entries ha, Nat.le_succ _⟩
    · simp [lookup_insertEntry]
    · rw [lookup_insertEntry, if_neg, ht]
      intro he
      rw [he, hl] at ht
      cases ht

/-! ### Pruning -/

/-- **What pruning does.** Only an empty entry leaves the map. -/
theorem pruneEntryIfEmpty_spec (h : m.Wf) (tag : LockTag) :
    (m.pruneEntryIfEmpty tag).Wf ∧ (m.pruneEntryIfEmpty tag).entries = m.entries ∧
      (m.pruneEntryIfEmpty tag).nextEntry = m.nextEntry ∧
      (∀ t, (m.pruneEntryIfEmpty tag).grantsAt t = m.grantsAt t) ∧
      (∀ t a, m.map.lookup t = some a → (t = tag → (m.entries a).isEmpty = false) →
        (m.pruneEntryIfEmpty tag).map.lookup t = some a) := by
  unfold pruneEntryIfEmpty
  cases hl : m.map.lookup tag with
  | none => exact ⟨h, rfl, rfl, fun _ => rfl, fun _ _ ht _ => ht⟩
  | some addr =>
    by_cases he : (m.entries addr).isEmpty = true
    · have hkeep : ∀ t a, m.map.lookup t = some a → (t = tag → (m.entries a).isEmpty = false) →
          (m.map.erase tag).lookup t = some a := by
        intro t a ht hne
        rw [FiniteMap.lookup_erase_eq, if_neg, ht]
        intro hte
        subst hte
        rw [hl] at ht
        cases ht
        simp [he] at hne
      dsimp only
      rw [if_pos he]
      refine ⟨⟨fun t a ht => ?_, fun a ha => ?_⟩, rfl, rfl, fun t => ?_, hkeep⟩
      · simp only [FiniteMap.lookup_erase_eq] at ht
        split_ifs at ht
        exact h.tagged t a ht
      · exact hkeep _ _ (h.rooted a ha) fun _ => ha
      · unfold grantsAt
        simp only [FiniteMap.lookup_erase_eq]
        split_ifs with hte
        · subst hte
          simp only [LockEntry.isEmpty, Bool.and_eq_true, List.isEmpty_iff] at he
          simp [hl, he.1]
        · rfl
    · dsimp only
      rw [if_neg he]
      exact ⟨h, rfl, rfl, fun _ => rfl, fun _ _ ht _ => ht⟩

/-! ### Critical sections -/

/-- A critical section keeps the table well formed if it keeps the tag, and does not bring an
entry into use that the map does not have. -/
theorem modify_wf (h : m.Wf) {f : LockEntry → LockEntry} (htag : ∀ e, (f e).tag = e.tag)
    (hroot : (f (m.entries addr)).isEmpty = false →
      m.map.lookup (m.entries addr).tag = some addr) : (m.modify addr f).Wf := by
  have hother : ∀ a, a ≠ addr → (m.modify addr f).entries a = m.entries a := fun a ha =>
    update_of_ne ha _ _
  have hself : (m.modify addr f).entries addr = f (m.entries addr) := update_self _ _ _
  refine ⟨fun t a ht => ?_, fun a ha => ?_⟩
  · obtain ⟨hlt, he⟩ := h.tagged t a ht
    refine ⟨hlt, ?_⟩
    by_cases hae : a = addr
    · rw [hae, hself, htag, ← hae, he]
    · rw [hother a hae, he]
  · by_cases hae : a = addr
    · subst hae
      rw [hself] at ha ⊢
      rw [htag]
      exact hroot ha
    · rw [hother a hae] at ha ⊢
      exact h.rooted a ha

theorem grantsAt_modify (f : LockEntry → LockEntry) (t : LockTag) :
    (m.modify addr f).grantsAt t =
      if m.map.lookup t = some addr then (f (m.entries addr)).grants else m.grantsAt t := by
  unfold grantsAt modify
  cases hl : m.map.lookup t with
  | none => simp
  | some a =>
    by_cases hae : a = addr
    · subst hae
      simp
    · simp [hae]

end LockTable

/-- The central table and the victim flags by transaction. -/
structure LockManager where
  table : LockTable := {}
  xidStates : FiniteMap ℕ Bool := ∅

namespace LockManager

variable (m : LockManager)

def ensureXidState (x : ℕ) : LockManager :=
  match m.xidStates.lookup x with
  | some _ => m
  | none => { m with xidStates := m.xidStates.insert x false }

def isVictim (x : ℕ) : Bool := (m.xidStates.lookup x).getD false

def setVictim (x : ℕ) (flag : Bool) : LockManager :=
  match m.xidStates.lookup x with
  | some _ => { m with xidStates := m.xidStates.insert x flag }
  | none => m

def markVictim (x : ℕ) : LockManager := m.setVictim x true

def clearVictim (x : ℕ) : LockManager := m.setVictim x false

@[simp] theorem ensureXidState_table (m : LockManager) (x : ℕ) :
    (m.ensureXidState x).table = m.table := by
  unfold ensureXidState
  split <;> rfl

@[simp] theorem setVictim_table (m : LockManager) (x : ℕ) (flag : Bool) :
    (m.setVictim x flag).table = m.table := by
  unfold setVictim
  split <;> rfl

@[simp] theorem markVictim_table (m : LockManager) (x : ℕ) : (m.markVictim x).table = m.table :=
  setVictim_table m x true

@[simp] theorem clearVictim_table (m : LockManager) (x : ℕ) : (m.clearVictim x).table = m.table :=
  setVictim_table m x false

def modify (addr : ℕ) (f : LockEntry → LockEntry) : LockManager :=
  { m with table := m.table.modify addr f }

/-! ## The critical sections of `acquire` -/

/-- How a critical section of `acquire` ends. -/
inductive Acquired
  | granted
  | waiting
  | failed (e : LockError)
  deriving DecidableEq, Repr

/-- The first critical section of `acquire_with_owner`, up to the first sleep. -/
def acquireSection (m : LockManager) (req : LockRequest) (owner addr : ℕ) (cancelled : Bool) :
    LockManager × Acquired :=
  if !hasConflict (m.table.entries addr).grants req.xid req.mode then
    ((m.modify addr (·.push req owner)).clearVictim req.xid, .granted)
  else if cancelled then (m, .failed .cancelled)
  else if m.isVictim req.xid then
    (m.modify addr fun e => (e.enqueue req).removeWaiter req, .failed (.deadlock req.xid))
  else (m.modify addr (·.enqueue req), .waiting)

/-- The critical section of `acquire_with_owner` between two sleeps. -/
def wakeSection (m : LockManager) (req : LockRequest) (owner addr : ℕ)
    (cancelled timedOut : Bool) : LockManager × Acquired :=
  if m.isVictim req.xid then
    (m.modify addr (·.removeWaiter req), .failed (.deadlock req.xid))
  else if !hasConflict (m.table.entries addr).grants req.xid req.mode then
    ((m.modify addr fun e => (e.removeWaiter req).push req owner).clearVictim req.xid, .granted)
  else if cancelled then (m.modify addr (·.removeWaiter req), .failed .cancelled)
  else if timedOut then (m.modify addr (·.removeWaiter req), .failed .timeout)
  else (m, .waiting)

/-- The critical section of `try_acquire_with_owner`. -/
def trySection (m : LockManager) (req : LockRequest) (owner addr : ℕ) : LockManager × Bool :=
  if hasConflict (m.table.entries addr).grants req.xid req.mode then (m, false)
  else (m.modify addr (·.push req owner), true)

variable {m : LockManager} {req : LockRequest} {owner addr : ℕ}

theorem hasConflict_eq_false {grants : List Grant} {x : ℕ} {mode : LockMode}
    (h : hasConflict grants x mode = false) {g : Grant} (hg : g ∈ grants) (hne : g.xid ≠ x) :
    mode.conflictsWith g.mode = false := by
  have hany := any_eq_false.1 h g hg
  simpa [hne] using hany

/-- What a critical section on behalf of `req` may do to an entry: it adds the grants `new`, and
the waiters of other transactions stay. -/
def EntrySection (req : LockRequest) (new : List Grant) (f : LockEntry → LockEntry) : Prop :=
  ∀ e, (f e).tag = e.tag ∧ (f e).grants = e.grants ++ new ∧
    ∀ w ∈ e.waiters, w.1 ≠ req.xid → w ∈ (f e).waiters

theorem entrySection_id : EntrySection req [] id := fun _ =>
  ⟨rfl, (append_nil _).symm, fun _ hw _ => hw⟩

theorem entrySection_push :
    EntrySection req [{ xid := req.xid, mode := req.mode, owner := owner }]
      (·.push req owner) := fun _ =>
  ⟨rfl, rfl, fun _ hw _ => hw⟩

theorem entrySection_enqueue : EntrySection req [] (·.enqueue req) := fun _ =>
  ⟨rfl, (append_nil _).symm, fun _ hw _ => mem_append_left _ hw⟩

theorem entrySection_removeWaiter : EntrySection req [] (·.removeWaiter req) := by
  intro e
  refine ⟨rfl, (append_nil _).symm, fun w hw hne => ?_⟩
  exact (mem_eraseP_of_neg (by simp [hne])).2 hw

theorem EntrySection.comp {new new' : List Grant} {f g : LockEntry → LockEntry}
    (hf : EntrySection req new f) (hg : EntrySection req new' g) :
    EntrySection req (new ++ new') fun e => g (f e) := by
  intro e
  obtain ⟨hft, hfg, hfw⟩ := hf e
  obtain ⟨hgt, hgg, hgw⟩ := hg (f e)
  refine ⟨hgt.trans hft, ?_, fun w hw hne => hgw w (hfw w hw hne) hne⟩
  rw [hgg, hfg, append_assoc]

/-- What a critical section of `acquire` does, by its outcome. -/
def Acquired.Spec (m m' : LockTable) (req : LockRequest) (owner addr : ℕ) : Acquired → Prop
  | granted => ∃ f, m' = m.modify addr f ∧
      EntrySection req [{ xid := req.xid, mode := req.mode, owner := owner }] f ∧
      hasConflict (m.entries addr).grants req.xid req.mode = false
  | waiting => ∃ f, m' = m.modify addr f ∧ EntrySection req [] f ∧
      (req.xid, req.mode) ∈ (f (m.entries addr)).waiters
  | failed _ => ∃ f, m' = m.modify addr f ∧ EntrySection req [] f

theorem modify_id (m : LockTable) (addr : ℕ) : m.modify addr id = m := by
  simp [LockTable.modify]

theorem acquireSection_spec (cancelled : Bool) :
    (m.acquireSection req owner addr cancelled).2.Spec m.table
      (m.acquireSection req owner addr cancelled).1.table req owner addr := by
  unfold acquireSection
  split_ifs with hc hcan hv
  · exact ⟨_, clearVictim_table _ _, entrySection_push, by simpa using hc⟩
  · exact ⟨id, (modify_id _ _).symm, entrySection_id⟩
  · exact ⟨_, rfl, entrySection_enqueue.comp entrySection_removeWaiter⟩
  · exact ⟨_, rfl, entrySection_enqueue, mem_append_right _ mem_cons_self⟩

theorem wakeSection_spec (cancelled timedOut : Bool)
    (hw : (req.xid, req.mode) ∈ (m.table.entries addr).waiters) :
    (m.wakeSection req owner addr cancelled timedOut).2.Spec m.table
      (m.wakeSection req owner addr cancelled timedOut).1.table req owner addr := by
  unfold wakeSection
  split_ifs with hv hc hcan ht
  · exact ⟨_, rfl, entrySection_removeWaiter⟩
  · exact ⟨_, clearVictim_table _ _, entrySection_removeWaiter.comp entrySection_push,
      by simpa using hc⟩
  · exact ⟨_, rfl, entrySection_removeWaiter⟩
  · exact ⟨_, rfl, entrySection_removeWaiter⟩
  · exact ⟨id, (modify_id _ _).symm, entrySection_id, hw⟩

/-- `try_acquire` either obtains the lock or changes nothing. -/
theorem trySection_spec (m : LockManager) (req : LockRequest) (owner addr : ℕ) :
    ((m.trySection req owner addr).2 = true ∧
        Acquired.granted.Spec m.table (m.trySection req owner addr).1.table req owner addr) ∨
      ((m.trySection req owner addr).2 = false ∧ (m.trySection req owner addr).1 = m) := by
  unfold trySection
  split_ifs with hc
  · exact .inr ⟨rfl, rfl⟩
  · exact .inl ⟨rfl, _, rfl, entrySection_push, by simpa using hc⟩

end LockManager

/-- Which grants a release call gives up. -/
inductive ReleaseOf
  | one (mode : LockMode)
  | all
  | owners (owners : List ℕ)
  deriving DecidableEq, Repr

namespace ReleaseOf

/-- The grants that a release call of transaction `x` is after. -/
def covers (x : ℕ) : ReleaseOf → Grant → Bool
  | one mode, g => g.xid == x && g.mode == mode
  | all, g => g.xid == x
  | owners os, g => os.contains g.owner

/-- `release` removes one grant, the other two calls remove all they are after. -/
def strip (x : ℕ) (r : ReleaseOf) (grants : List Grant) : List Grant :=
  match r with
  | one mode => grants.eraseP ((one mode).covers x)
  | r => grants.filter fun g => !r.covers x g

/-- Whether the call gives up all it is after. -/
def isBulk : ReleaseOf → Bool
  | one _ => false
  | _ => true

variable {x y : ℕ} {r : ReleaseOf} {grants : List Grant}

@[simp] theorem strip_nil : r.strip x [] = [] := by
  cases r <;> rfl

theorem strip_of_isBulk (hr : r.isBulk = true) :
    r.strip x grants = grants.filter fun g => !r.covers x g := by
  cases r with
  | one mode => cases hr
  | all => rfl
  | owners os => rfl

theorem strip_sublist : (r.strip x grants).Sublist grants := by
  cases r with
  | one mode => exact eraseP_sublist
  | all | owners => exact filter_sublist

theorem strip_eq_self (h : ∀ g ∈ grants, r.covers x g = false) : r.strip x grants = grants := by
  cases r with
  | one mode => exact eraseP_of_forall_not fun g hg => by simp [h g hg]
  | _ =>
    rw [strip_of_isBulk rfl]
    exact filter_eq_self.2 fun g hg => by simp [h g hg]

/-- A bulk release leaves nothing that it is after. -/
theorem covers_of_mem_strip (hr : r.isBulk = true) {g : Grant} (hg : g ∈ r.strip x grants) :
    r.covers x g = false := by
  rw [strip_of_isBulk hr] at hg
  simpa using (mem_filter.1 hg).2

/-- Erasing among the elements of `q`, or among the others. -/
theorem filter_eraseP {α : Type*} {p q : α → Bool} {l : List α} {b : Bool}
    (h : ∀ a ∈ l, p a = true → q a = b) :
    (l.eraseP p).filter q = if b then (l.filter q).eraseP p else l.filter q := by
  induction l with
  | nil => cases b <;> rfl
  | cons a l ih =>
    have ih := ih fun b hb => h b (mem_cons_of_mem _ hb)
    by_cases hp : p a = true
    · have hq := h a mem_cons_self hp
      cases b <;> simp [hp, hq]
    · by_cases hq : q a = true <;> cases b <;> simpa [hp, hq] using ih

/-- Of the grants of `x`, a release that is after grants of `x` only takes the same ones whether
or not the grants of others stand between them. -/
theorem filter_strip_self (h : ∀ g ∈ grants, r.covers x g = true → g.xid = x) :
    (r.strip x grants).filter (·.xid == x) = r.strip x (grants.filter (·.xid == x)) := by
  cases r with
  | one mode => exact filter_eraseP (b := true) fun g hg hc => by simpa using h g hg hc
  | all | owners => exact filter_comm _ _ _

theorem filter_strip_other (h : ∀ g ∈ grants, r.covers x g = true → g.xid = x) (hne : y ≠ x) :
    (r.strip x grants).filter (·.xid == y) = grants.filter (·.xid == y) := by
  have hkeep : ∀ g ∈ grants, g.xid = y → r.covers x g = false := fun g hg hy => by
    by_contra hc
    exact hne (hy.symm.trans (h g hg (by simpa using hc)))
  cases r with
  | one mode =>
    refine filter_eraseP (b := false) fun g hg hc => ?_
    have hx := h g hg hc
    simp only [beq_eq_false_iff_ne]
    omega
  | _ =>
    rw [strip_of_isBulk rfl, filter_filter]
    refine filter_congr fun g hg => ?_
    by_cases hy : g.xid = y
    · simp [hy, hkeep g hg hy]
    · simp [hy]

end ReleaseOf

/-- The critical section of a release. -/
def LockEntry.strip (x : ℕ) (r : ReleaseOf) (e : LockEntry) : LockEntry :=
  { e with grants := r.strip x e.grants }

theorem LockTable.strip_wf {m : LockTable} {x addr : ℕ} {r : ReleaseOf} (h : m.Wf) :
    (m.modify addr (LockEntry.strip x r)).Wf := by
  refine modify_wf h (fun _ => rfl) fun hne => h.rooted addr ?_
  by_contra he
  simp only [LockEntry.isEmpty, Bool.not_eq_false, Bool.and_eq_true, List.isEmpty_iff] at he
  simp [LockEntry.isEmpty, LockEntry.strip, he.1, he.2] at hne

end UltraSql
