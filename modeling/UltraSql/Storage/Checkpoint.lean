import UltraSql.Lib.Threads
import UltraSql.Storage.Wal

/-!
# Pages, checkpoints and redo

A page image is the list of the changes it holds and its page LSN. The buffer pool has a frame for
each page, the operating system the image last written to the page's file, and the disk the image
that was last synced. Any number of threads run

* changes: a heap, index or sequence operation emits full-page images where they are due
  (`maybe_emit_fpw`), pins its pages, changes each one under its write latch, appends one record,
  stamps the record's LSN on each page and unpins them;
* changes that are logged first: a fused UPDATE or DELETE takes the write latch of its page, appends
  the record, and then changes and stamps the page, which is dirty once the latch is released;
* readers, which pin and unpin;
* checkpoints (`perform_checkpoint`): the barrier record, a flush pass over the frames
  (`try_flush_dirty`), one `fsync` per file, the scan for the oldest dirty page
  (`oldest_dirty_lsn`), the checkpoint record and the recycling of log segments
  (`maybe_recycle_wal`);
* the background flusher, write-back by the operating system, and the log writer.

A page latch, or the log buffer's mutex, makes one step of each of these. A crash keeps what is
durable, and startup replays the retained log over the disk images.

Not in the state: what the changes are. A change is known by a number, and redo of a record adds
the number to the image, so an image without it is one that lost the change.
-/

namespace UltraSql.Pages

open Function

variable {P : ℕ}

/-! ## State -/

/-- The records that matter to pages. `other` stands for the records that change none. -/
inductive Rec (P : ℕ)
  | nop
  | change (id : ℕ) (pages : List (Fin P))
  | fullPage (page : Fin P) (image : List ℕ)
  | checkpoint (redoFrom : ℕ)
  | other
  deriving DecidableEq

structure Image where
  ids : List ℕ := []
  lsn : ℕ := 0
  deriving DecidableEq

/-- The write latch of a page, as far as it is held over several steps: by a change that is logged
first, which may have appended its record. -/
inductive Latch
  | free
  | held
  | logged (id : ℕ)
  deriving DecidableEq

structure Frame where
  image : Image := {}
  dirty : Bool := false
  pins : List ℕ := []
  latch : Latch := .free

/-- The change with a record that is not in the image. -/
def Frame.pending (f : Frame) : List ℕ :=
  match f.latch with
  | .logged id => [id]
  | .free | .held => []

structure Shared (P : ℕ) where
  wal : Wal (Rec P)
  nextId : ℕ := 0
  frame : Fin P → Frame
  written : Fin P → Image
  disk : Fin P → Image
  lastCheckpoint : ℕ := 0

/-- A new data directory: the origin record reserves LSN zero, which on a page means that no
record has changed it. -/
def Shared.start : Shared P :=
  { wal := .origin .nop, frame := fun _ => {}, written := fun _ => {}, disk := fun _ => {} }

namespace Shared

variable (s : Shared P)

def setFrame (p : Fin P) (f : Frame) : Shared P :=
  { s with frame := update s.frame p f }

@[simp] theorem setFrame_frame_self (p : Fin P) (f : Frame) : (s.setFrame p f).frame p = f :=
  update_self ..

@[simp] theorem setFrame_frame_of_ne {p q : Fin P} (h : q ≠ p) (f : Frame) :
    (s.setFrame p f).frame q = s.frame q :=
  update_of_ne h ..

def pin (p : Fin P) (id : ℕ) : Shared P :=
  s.setFrame p { s.frame p with pins := id :: (s.frame p).pins }

def unpin (p : Fin P) (id : ℕ) : Shared P :=
  s.setFrame p { s.frame p with pins := (s.frame p).pins.erase id }

def append (r : Rec P) : Shared P := { s with wal := s.wal.append r }

/-- The page has not been changed since the last checkpoint. -/
def ImageDue (p : Fin P) : Prop :=
  s.lastCheckpoint ≠ 0 ∧ (s.frame p).image.lsn < s.lastCheckpoint

instance instDecidableImageDue (p : Fin P) : Decidable (s.ImageDue p) :=
  inferInstanceAs (Decidable (_ ∧ _))

/-- `maybe_emit_fpw`: the first change to a page after a checkpoint logs the page's image and
stamps it, under the page's latch. -/
def maybeEmitFpw (p : Fin P) : Shared P :=
  if s.ImageDue p then
    (s.append (.fullPage p (s.frame p).image.ids)).setFrame p { s.frame p with
      image := { (s.frame p).image with lsn := s.wal.nextLsn }
      dirty := true }
  else s

/-- Change the page. Dropping the write guard marks the frame dirty. -/
def mutate (p : Fin P) (id : ℕ) : Shared P :=
  s.setFrame p { s.frame p with
    image := { (s.frame p).image with ids := id :: (s.frame p).image.ids }
    dirty := true }

/-- Raise the page LSN to the LSN of the record. -/
def stamp (p : Fin P) (lsn : ℕ) : Shared P :=
  s.setFrame p { s.frame p with
    image := { (s.frame p).image with lsn := max (s.frame p).image.lsn lsn }
    dirty := true }

def setLatch (p : Fin P) (latch : Latch) : Shared P :=
  s.setFrame p { s.frame p with latch := latch }

/-- Take the write latch for a change that is logged first. A worker on a range of pages emits the
page's image here (`imaged`). The result has the page LSN under the latch. -/
def hold (p : Fin P) (imaged : Bool) : Shared P × ℕ :=
  if imaged ∧ s.ImageDue p then
    ((s.append (.fullPage p (s.frame p).image.ids)).setLatch p .held, s.wal.nextLsn)
  else (s.setLatch p .held, (s.frame p).image.lsn)

/-- Set the page LSN and release the write latch. Dropping the guard marks the frame dirty. -/
def release (p : Fin P) (ids : List ℕ) (lsn : ℕ) : Shared P :=
  s.setFrame p { s.frame p with
    image := { ids := ids, lsn := max (s.frame p).image.lsn lsn }
    dirty := true
    latch := .free }

/-- A section that needs the latch. -/
def whenFree {α : Type} (p : Fin P) (r : α) : Option α :=
  if (s.frame p).latch = .free then some r else none

/-- The test of `try_flush_dirty`: the frame is dirty and neither pinned nor latched, and its last
record is durable or it has none. -/
def Flushable (p : Fin P) : Prop :=
  (s.frame p).dirty = true ∧ (s.frame p).pins = [] ∧ (s.frame p).latch = .free ∧
    ((s.frame p).image.lsn < s.wal.durable ∨ (s.frame p).image.lsn = 0)

instance (p : Fin P) : Decidable (s.Flushable p) := inferInstanceAs (Decidable (_ ∧ _ ∧ _))

/-- One visit of `try_flush_dirty`. -/
def flush (p : Fin P) : Shared P :=
  if s.Flushable p then
    { s.setFrame p { s.frame p with dirty := false } with
      written := update s.written p (s.frame p).image }
  else s

/-- `fsync` of the page's file, or its write-back by the operating system. -/
def sync (p : Fin P) : Shared P :=
  { s with disk := update s.disk p (s.written p) }

end Shared

/-! ## Redo -/

/-- The redo test: the page already holds the record. LSN zero is no evidence. -/
def shouldSkipRedo (pageLsn lsn : ℕ) : Bool :=
  decide (pageLsn > lsn) || (decide (lsn ≠ 0) && decide (pageLsn = lsn))

/-- Redo of one record on page `p`. A full-page image replaces the page whatever its LSN. -/
def redoRecord (p : Fin P) (img : Image) (lsn : ℕ) : Rec P → Image
  | .change id pages =>
    if p ∈ pages ∧ shouldSkipRedo img.lsn lsn = false then
      { ids := id :: img.ids, lsn := max img.lsn lsn }
    else img
  | .fullPage q image => if q = p then { ids := image, lsn := lsn } else img
  | .nop | .checkpoint _ | .other => img

/-- The frame that startup leaves: the disk image with the retained log replayed over it. -/
def recoverFrame (w : Wal (Rec P)) (disk : Image) (p : Fin P) : Frame :=
  let image := w.replay (redoRecord p) disk
  { image := image, dirty := decide (image ≠ disk) }

/-- A crash and the restart after it. What was written and not synced is gone or not: write-back
before the crash covers the second case. -/
def Shared.crash (s : Shared P) (k : ℕ) : Option (Shared P) :=
  some
    { wal := s.wal.crash k
      nextId := s.nextId
      frame := fun p => recoverFrame (s.wal.crash k) (s.disk p) p
      written := s.disk
      disk := s.disk
      lastCheckpoint := 0 }

/-! ## Threads -/

/-- Where a thread is. `todo` lists the pages its current loop has not reached. -/
inductive Pc (P : ℕ)
  | idle
  | covering (id : ℕ) (pages todo : List (Fin P))
  | pinning (id : ℕ) (pages todo : List (Fin P))
  | mutating (id : ℕ) (pages todo : List (Fin P))
  | appending (id : ℕ) (pages : List (Fin P))
  | stamping (id lsn : ℕ) (pages todo : List (Fin P))
  | unpinning (id : ℕ) (todo : List (Fin P))
  /-- the latch is held, with this page LSN -/
  | latched (id : ℕ) (p : Fin P) (lsn : ℕ)
  /-- the record is appended and the page is still to be changed -/
  | applying (id : ℕ) (p : Fin P) (lsn : ℕ)
  | barrier (lsn : ℕ)
  | flushing (barrier : ℕ) (todo : List (Fin P))
  | fsyncing (barrier : ℕ) (todo : List (Fin P))
  | scanning (barrier : ℕ) (todo : List (Fin P)) (oldest : Option ℕ)
  | logging (redoFrom : ℕ)
  | logged (redoFrom lsn : ℕ)
  | recycling (redoFrom : ℕ)

inductive Act (P : ℕ)
  /-- begin an operation on these pages -/
  | start (pages : List (Fin P))
  /-- begin to read these pages, or to change one that is logged first without
  `maybe_emit_fpw` -/
  | visit (pages : List (Fin P))
  /-- a change of the pinned page that is logged first takes the latch -/
  | latch (imaged : Bool)
  /-- a reader is done with its pages, or the latched page has nothing to change -/
  | leave
  /-- begin `perform_checkpoint` -/
  | checkpoint
  /-- the next section of the call -/
  | next
  /-- `maybe_recycle_wal`; the floors it reads beside `redo_from` are at least `bound` -/
  | recycle (bound : ℕ)
  /-- the checkpoint stops with an error or keeps the log -/
  | giveUp
  /-- a visit of the background flusher -/
  | flush (p : Fin P)
  /-- the background flusher publishes the durable LSN -/
  | flushed
  | writeBack (p : Fin P)
  | log
  | fsync (k : ℕ)
  | roll

/-- `oldest_dirty_lsn` at one frame. -/
def oldestOf (oldest : Option ℕ) (f : Frame) : Option ℕ :=
  if f.dirty = true then some (oldest.elim f.image.lsn (min f.image.lsn)) else oldest

/-- `redo_from`: the oldest dirty page LSN if it is below the barrier, else the barrier. -/
def redoFrom (barrier : ℕ) (oldest : Option ℕ) : ℕ :=
  oldest.elim barrier fun lsn => if lsn < barrier then lsn else barrier

/-- The next section of the call a thread is in. Waiting for durability is a section that is not
enabled before. -/
def next (s : Shared P) : Pc P → Option (Shared P × Pc P)
  | .covering id pages (p :: todo) => s.whenFree p (s.maybeEmitFpw p, .covering id pages todo)
  | .covering id pages [] => some (s, .pinning id pages pages)
  | .pinning id pages (p :: todo) => some (s.pin p id, .pinning id pages todo)
  | .pinning id pages [] => some (s, .mutating id pages pages)
  | .mutating id pages (p :: todo) => s.whenFree p (s.mutate p id, .mutating id pages todo)
  | .mutating id pages [] => some (s, .appending id pages)
  | .appending id pages =>
    some (s.append (.change id pages), .stamping id s.wal.nextLsn pages pages)
  | .stamping id lsn pages (p :: todo) => s.whenFree p (s.stamp p lsn, .stamping id lsn pages todo)
  | .stamping id _ pages [] => some (s, .unpinning id pages)
  | .unpinning id (p :: todo) => some (s.unpin p id, .unpinning id todo)
  | .unpinning _ [] => some (s, .idle)
  | .latched id p _ =>
    if (s.frame p).latch = .held then
      some ((s.setLatch p (.logged id)).append (.change id [p]), .applying id p s.wal.nextLsn)
    else none
  | .applying id p lsn =>
    if (s.frame p).latch = .logged id then
      some (s.release p (id :: (s.frame p).image.ids) lsn, .unpinning id [p])
    else none
  | .barrier lsn => if lsn < s.wal.durable then some (s, .flushing lsn (List.finRange P)) else none
  | .flushing b (p :: todo) => some (s.flush p, .flushing b todo)
  | .flushing b [] => some (s, .fsyncing b (List.finRange P))
  | .fsyncing b (p :: todo) => some (s.sync p, .fsyncing b todo)
  | .fsyncing b [] => some (s, .scanning b (List.finRange P) none)
  | .scanning b (p :: todo) oldest =>
    -- only the page LSN of a dirty frame is read under the latch
    if (s.frame p).dirty = true ∧ (s.frame p).latch ≠ .free then none
    else some (s, .scanning b todo (oldestOf oldest (s.frame p)))
  | .scanning b [] oldest => some (s, .logging (redoFrom b oldest))
  | .logging redo => some (s.append (.checkpoint redo), .logged redo s.wal.nextLsn)
  | .logged redo lsn =>
    if lsn < s.wal.durable then
      some ({ s with lastCheckpoint := max s.lastCheckpoint lsn }, .recycling redo)
    else none
  | .idle | .recycling _ => none

/-- A checkpoint is at this point. -/
def Pc.isCheckpoint : Pc P → Bool
  | .barrier _ | .flushing .. | .fsyncing .. | .scanning .. | .logging _ | .logged .. |
    .recycling _ => true
  | _ => false

def step (s : Shared P) (pc : Pc P) : Act P → Option (Shared P × Pc P)
  | .start pages =>
    match pc with
    | .idle => some ({ s with nextId := s.nextId + 1 }, .covering s.nextId pages pages)
    | _ => none
  | .visit pages =>
    match pc with
    | .idle => some ({ s with nextId := s.nextId + 1 }, .pinning s.nextId pages pages)
    | _ => none
  | .latch imaged =>
    match pc with
    | .pinning id [p] [] => s.whenFree p ((s.hold p imaged).1, .latched id p (s.hold p imaged).2)
    | _ => none
  | .leave =>
    match pc with
    | .pinning id pages [] => some (s, .unpinning id pages)
    | .latched id p lsn =>
      if (s.frame p).latch = .held then
        some (s.release p (s.frame p).image.ids lsn, .unpinning id [p])
      else none
    | _ => none
  | .checkpoint =>
    match pc with
    | .idle => some (s.append .nop, .barrier s.wal.nextLsn)
    | _ => none
  | .next => next s pc
  | .recycle bound =>
    match pc with
    | .recycling redo => some ({ s with wal := s.wal.truncateBelow (min redo bound) }, .idle)
    | _ => none
  | .giveUp => if pc.isCheckpoint then some (s, .idle) else none
  | .flush p => some (s.flush p, pc)
  | .flushed => some ({ s with lastCheckpoint := max s.lastCheckpoint s.wal.durable }, pc)
  | .writeBack p => some (s.sync p, pc)
  | .log => some (s.append .other, pc)
  | .fsync k => some ({ s with wal := s.wal.fsync k }, pc)
  | .roll => some ({ s with wal := s.wal.roll }, pc)

def program (P : ℕ) : Program (Shared P) (Pc P) (Act P) := ⟨step⟩

/-- `n` threads on `P` pages. -/
def machine (P n : ℕ) : Machine (Program.State (Shared P) (Pc P) n) (Fin n × Act P ⊕ ℕ) :=
  (program P).crashMachine Shared.crash n .start .idle

end UltraSql.Pages
