import UltraSql.Storage.Checkpoint

/-!
# Recycling keeps what redo needs

**Theorem (`recycled_changes_durable`).** In every run whose scans for the oldest dirty page meet
`ScanSafe` at each frame, a change whose record is durable is in the disk image of its page or has
its record at or above the recycling floor; and after a crash at any point, redo brings every
change in the log back.

The invariant has one part for each image of a page. A frame holds every logged change but one for
which its latch is held; a written or synced image holds those up to its page LSN, which is durable;
a full-page image holds those below its record; and what is on disk, or may get there, holds those
below the floor. A checkpoint carries the same statement for the prefix it is about to recycle.

`ScanSafe` is needed for three reasons. The page LSN of a frame is that of its last change, so a
dirty frame says nothing about the changes it holds below its page LSN. A clean frame may have been
flushed after its file was synced. And a change that is logged first may have its record in the log
while the frame is still clean.
-/

namespace UltraSql.Pages

open Function Option
open List.Subset (refl)

variable {P : ℕ}

/-! ## The condition -/

/-- The change of page `p` that the record at `lsn` describes. -/
def changeAt (w : Wal (Rec P)) (p : Fin P) (lsn : ℕ) : Option ℕ :=
  match w.log[lsn]? with
  | some (.change id pages) => if pages.any (· = p) then some id else none
  | _ => none

/-- When the scan visits the frame of `p`: if the frame is dirty, the page LSN of the disk image
covers the page's changes that are below both the barrier and the frame's page LSN; if the frame
is clean, nothing was written to the page's file since it was synced, and the frame has the page's
changes that are below the barrier. -/
def ScanPart (s : Shared P) (barrier : ℕ) (p : Fin P) : Fin 3 → Prop
  | 0 => (s.frame p).dirty = true → ∀ lsn < barrier, lsn < (s.frame p).image.lsn →
      (changeAt s.wal p lsn).isSome = true → lsn ≤ (s.disk p).lsn
  | 1 => (s.frame p).dirty = false → s.disk p = s.written p
  | 2 => (s.frame p).dirty = false →
      ∀ lsn < barrier, ∀ id ∈ changeAt s.wal p lsn, id ∈ (s.frame p).image.ids

instance instDecidableScanPart (s : Shared P) (b : ℕ) (p : Fin P) :
    (k : Fin 3) → Decidable (ScanPart s b p k)
  | 0 => inferInstanceAs (Decidable (_ → _))
  | 1 => inferInstanceAs (Decidable (_ → _))
  | 2 => inferInstanceAs (Decidable (_ → _))

def ScanSafe (s : Shared P) (barrier : ℕ) (p : Fin P) : Prop := ∀ k, ScanPart s barrier p k

instance instDecidableScanSafe (s : Shared P) (b : ℕ) (p : Fin P) : Decidable (ScanSafe s b p) :=
  inferInstanceAs (Decidable (∀ k, ScanPart s b p k))

/-- The barrier and the page of a visit of `oldest_dirty_lsn`. -/
def scanVisit : Pc P → Act P → Option (ℕ × Fin P)
  | .scanning b (p :: _) _, .next => some (b, p)
  | _, _ => none

/-- Every visit of `oldest_dirty_lsn` meets the condition. -/
def Scans (C : Shared P → ℕ → Fin P → Prop) {n : ℕ} (s : Program.State (Shared P) (Pc P) n) :
    Fin n × Act P ⊕ ℕ → Prop
  | .inl (i, a) => ∀ v ∈ scanVisit (s.loc i) a, C s.shared v.1 v.2
  | .inr _ => True

instance instDecidableRelScans (C : Shared P → ℕ → Fin P → Prop) [∀ s b p, Decidable (C s b p)]
    {n : ℕ} : DecidableRel (Scans C (n := n)) := fun s a =>
  match a with
  | .inl (i, a) => inferInstanceAs (Decidable (∀ v ∈ scanVisit (s.loc i) a, C s.shared v.1 v.2))
  | .inr _ => inferInstanceAs (Decidable True)

/-! ## Images that hold the changes below an LSN -/

/-- Every change of page `p` logged below `n` is in `ids`. -/
def Holds (w : Wal (Rec P)) (p : Fin P) (n : ℕ) (ids : List ℕ) : Prop :=
  ∀ lsn id, lsn < n → changeAt w p lsn = some id → id ∈ ids

/-- The record is one that stamps page `p`. -/
def Rec.Touches (p : Fin P) : Rec P → Prop
  | .change _ pages => p ∈ pages
  | .fullPage q _ => q = p
  | .nop | .checkpoint _ | .other => False

/-- The page LSN is that of a record that stamps the page, or zero. -/
def Stamped (w : Wal (Rec P)) (p : Fin P) (lsn : ℕ) : Prop :=
  lsn = 0 ∨ ∃ r, w.log[lsn]? = some r ∧ r.Touches p

/-- The page LSN is durable and stamped, and the image holds the changes up to it. -/
structure Sound (w : Wal (Rec P)) (p : Fin P) (img : Image) : Prop where
  lt : img.lsn < w.durable
  holds : Holds w p (img.lsn + 1) img.ids
  stamped : Stamped w p img.lsn

section Holds

variable {w w' : Wal (Rec P)} {p : Fin P} {n m lsn id : ℕ} {ids ids' : List ℕ} {r : Rec P}

theorem changeAt_eq_some :
    changeAt w p lsn = some id ↔ ∃ pages, w.log[lsn]? = some (.change id pages) ∧ p ∈ pages := by
  unfold changeAt
  split
  · rename_i id' pages h
    have hany : pages.any (· = p) = true ↔ p ∈ pages := by simp
    simp only [h, hany, ite_none_right_eq_some, some.injEq, Rec.change.injEq]
    constructor
    · rintro ⟨hp, rfl⟩
      exact ⟨pages, ⟨rfl, rfl⟩, hp⟩
    · rintro ⟨_, ⟨rfl, rfl⟩, hp⟩
      exact ⟨hp, rfl⟩
  · rename_i h
    simp only [reduceCtorEq, false_iff, not_exists, not_and]
    intro pages hr
    exact absurd hr (h id pages)

section

variable (h : Holds w p n ids)
include h

theorem Holds.mono (hm : m ≤ n) (hids : ids ⊆ ids') : Holds w p m ids' :=
  fun lsn id hlt hc => hids (h lsn id (hlt.trans_le hm) hc)

/-- The log from `n` on plays no part. -/
theorem Holds.congr (hw : ∀ lsn < n, ∀ r, w'.log[lsn]? = some r → w.log[lsn]? = some r) :
    Holds w' p n ids := by
  intro lsn id hlt hc
  obtain ⟨pages, hr, hp⟩ := changeAt_eq_some.1 hc
  exact h lsn id hlt (changeAt_eq_some.2 ⟨pages, hw lsn hlt _ hr, hp⟩)

theorem Holds.append (hn : n ≤ w.log.length) : Holds (w.append r) p n ids := by
  refine h.congr fun lsn hlt r' hr => ?_
  rcases w.getElem?_append_eq_some.1 hr with hr | ⟨rfl, -⟩
  · exact hr
  · omega

theorem Holds.crash (k : ℕ) : Holds (w.crash k) p n ids :=
  h.congr fun _ _ _ hr => (w.getElem?_crash_eq_some hr).1

end

theorem Stamped.append (h : Stamped w p lsn) : Stamped (w.append r) p lsn :=
  h.imp id fun ⟨r', hr, ht⟩ => ⟨r', w.getElem?_append_eq_some.2 (.inl hr), ht⟩

variable {img : Image}

theorem Sound.append (h : Sound w p img) : Sound (w.append r) p img :=
  ⟨h.lt, h.holds.append (h.lt.trans_le w.durable_le), h.stamped.append⟩

theorem Sound.of_log (h : Sound w p img) (hlog : w'.log = w.log) (hd : w.durable ≤ w'.durable) :
    Sound w' p img := by
  refine ⟨h.lt.trans_le hd, h.holds.congr fun lsn _ r hr => hlog ▸ hr, ?_⟩
  rw [Stamped, hlog]
  exact h.stamped

theorem Sound.crash (h : Sound w p img) (k : ℕ) : Sound (w.crash k) p img := by
  have hlt : img.lsn < (w.fsync k).durable := h.lt.trans_le (w.durable_le_fsync k)
  refine ⟨hlt, h.holds.crash k, h.stamped.imp id fun ⟨r, hr, ht⟩ => ⟨r, ?_, ht⟩⟩
  rw [Wal.crash_log, List.getElem?_take, if_pos hlt, hr]

end Holds

/-! ## The invariant -/

/-- The disk image, and the image that may replace it, hold the changes below `n`. -/
def Covered (s : Shared P) (n : ℕ) (p : Fin P) : Prop :=
  Holds s.wal p n (s.disk p).ids ∧ Holds s.wal p n (s.written p).ids

structure SharedInv (s : Shared P) : Prop where
  durable_pos : 0 < s.wal.durable
  frame_lsn : ∀ p, (s.frame p).image.lsn < s.wal.log.length
  frame_holds : ∀ p,
    Holds s.wal p s.wal.log.length ((s.frame p).image.ids ++ (s.frame p).pending)
  frame_stamped : ∀ p, Stamped s.wal p (s.frame p).image.lsn
  written_sound : ∀ p, Sound s.wal p (s.written p)
  disk_sound : ∀ p, Sound s.wal p (s.disk p)
  written_le : ∀ p, (s.written p).lsn ≤ (s.frame p).image.lsn
  disk_le : ∀ p, (s.disk p).lsn ≤ (s.written p).lsn
  clean : ∀ p, (s.frame p).dirty = false → (s.frame p).image = s.written p
  fullPage : ∀ p lsn image, s.wal.log[lsn]? = some (.fullPage p image) →
    Holds s.wal p lsn image
  floor : ∀ p, Covered s s.wal.floor p

/-- What a thread knows at each point of its call. -/
def LocalInv (s : Shared P) : Pc P → Prop
  | .mutating id pages todo => ∀ p ∈ pages, p ∉ todo → id ∈ (s.frame p).image.ids
  | .appending id pages => ∀ p ∈ pages, id ∈ (s.frame p).image.ids
  | .stamping id lsn pages todo => s.wal.log[lsn]? = some (.change id pages) ∧ todo ⊆ pages
  | .latched _ p lsn => Stamped s.wal p lsn ∧ lsn < s.wal.log.length
  | .applying id p lsn => s.wal.log[lsn]? = some (.change id [p])
  | .barrier b | .flushing b _ | .fsyncing b _ => b < s.wal.log.length
  | .scanning b todo oldest => b < s.wal.log.length ∧
      ∀ p, p ∉ todo → Covered s (redoFrom b oldest) p
  | .logging redo | .logged redo _ | .recycling redo => redo < s.wal.log.length ∧
      ∀ p, Covered s redo p
  | .idle | .covering .. | .pinning .. | .unpinning .. => True

/-- What every step of every thread leaves of the facts of the others: the log is extended,
frames only gain changes, and what was covered stays so. -/
structure Grows (s s' : Shared P) : Prop where
  log : ∀ (lsn : ℕ) r, s.wal.log[lsn]? = some r → s'.wal.log[lsn]? = some r
  length : s.wal.log.length ≤ s'.wal.log.length
  frame : ∀ p, (s.frame p).image.ids ⊆ (s'.frame p).image.ids
  covered : ∀ p n, n ≤ s.wal.log.length → Covered s n p → Covered s' n p

variable {n disk lsn : ℕ} {p : Fin P} {s s' : Shared P}

theorem Covered.mono {m : ℕ} (h : Covered s n p) (hm : m ≤ n) : Covered s m p :=
  ⟨h.1.mono hm (refl _), h.2.mono hm (refl _)⟩

theorem redoFrom_le (b : ℕ) (oldest : Option ℕ) : redoFrom b oldest ≤ b := by
  cases oldest with
  | none => exact le_rfl
  | some lsn =>
    simp only [redoFrom, elim_some]
    split_ifs with h
    · exact h.le
    · exact le_rfl

variable {pc pc' : Pc P}

theorem LocalInv.grows (hl : LocalInv s pc) (h : Grows s s') : LocalInv s' pc := by
  cases pc with
  | mutating id pages todo => exact fun p hp hn => h.frame p (hl p hp hn)
  | appending id pages => exact fun p hp => h.frame p (hl p hp)
  | stamping id lsn pages todo => exact ⟨h.log lsn _ hl.1, hl.2⟩
  | latched id p lsn =>
    exact ⟨hl.1.imp_right fun ⟨r, hr, ht⟩ => ⟨r, h.log lsn r hr, ht⟩, hl.2.trans_le h.length⟩
  | applying id p lsn => exact h.log lsn _ hl
  | barrier | flushing | fsyncing => exact lt_of_lt_of_le hl h.length
  | scanning b todo oldest =>
    have hle : redoFrom b oldest ≤ s.wal.log.length := (redoFrom_le b oldest).trans hl.1.le
    exact ⟨hl.1.trans_le h.length, fun p hp => h.covered p _ hle (hl.2 p hp)⟩
  | logging | logged | recycling =>
    exact ⟨hl.1.trans_le h.length, fun p => h.covered p _ hl.1.le (hl.2 p)⟩
  | idle | covering | pinning | unpinning => trivial

theorem pending_of_free {f : Frame} (h : f.latch = .free) : f.pending = [] := by
  rw [Frame.pending, h]

theorem free_of_whenFree {α : Type} {r r' : α} (h : s.whenFree p r = some r') :
    (s.frame p).pending = [] ∧ r = r' := by
  unfold Shared.whenFree at h
  split_ifs at h with hfree
  exact ⟨pending_of_free hfree, some.inj h⟩

/-! ## One lemma for each section -/

section Sections

variable {s : Shared P}

theorem Grows.refl (s : Shared P) : Grows s s :=
  ⟨fun _ _ h => h, le_rfl, fun _ => List.Subset.refl _, fun _ _ _ h => h⟩

theorem Grows.trans {s₁ s₂ : Shared P} (h₁ : Grows s s₁) (h₂ : Grows s₁ s₂) : Grows s s₂ :=
  ⟨fun lsn r h => h₂.log lsn r (h₁.log lsn r h), h₁.length.trans h₂.length,
    fun p => List.Subset.trans (h₁.frame p) (h₂.frame p),
    fun p n hn h => h₂.covered p n (hn.trans h₁.length) (h₁.covered p n hn h)⟩

/-- A section keeps the invariant and takes nothing away. -/
abbrev Advances (s s' : Shared P) : Prop := SharedInv s' ∧ Grows s s'

theorem LocalInv.keep (hl : LocalInv s pc) (h : Advances s s') :
    SharedInv s' ∧ Grows s s' ∧ LocalInv s' pc := ⟨h.1, h.2, hl.grows h.2⟩

variable (hs : SharedInv s)

include hs

namespace SharedInv

/-- A frame is replaced by one that holds the same changes or more. -/
theorem setFrame (p : Fin P) (f : Frame) (hlsn : f.image.lsn < s.wal.log.length)
    (hstamp : Stamped s.wal p f.image.lsn) (hle : (s.frame p).image.lsn ≤ f.image.lsn)
    (hids : (s.frame p).image.ids ⊆ f.image.ids)
    (hpend : (s.frame p).pending ⊆ f.image.ids ++ f.pending)
    (hclean : f.dirty = false → f.image = s.written p) :
    Advances s (s.setFrame p f) := by
  have hsub : ∀ q, (s.frame q).image.ids ⊆ ((s.setFrame p f).frame q).image.ids :=
    (forall_update_iff s.frame fun q f => (s.frame q).image.ids ⊆ f.image.ids).2
      ⟨hids, fun _ _ => refl _⟩
  refine ⟨?_, fun _ _ h => h, le_rfl, hsub, fun _ _ _ h => h⟩
  exact { hs with
    frame_lsn := (forall_update_iff s.frame fun _ f => f.image.lsn < _).2
      ⟨hlsn, fun q _ => hs.frame_lsn q⟩
    frame_holds := fun q => (hs.frame_holds q).mono le_rfl <|
      (forall_update_iff s.frame fun q f => (s.frame q).image.ids ++ (s.frame q).pending ⊆
        f.image.ids ++ f.pending).2 ⟨List.append_subset.2
          ⟨List.Subset.trans hids (List.subset_append_left _ _), hpend⟩, fun _ _ => refl _⟩ q
    frame_stamped := (forall_update_iff s.frame fun q f => Stamped s.wal q f.image.lsn).2
      ⟨hstamp, fun q _ => hs.frame_stamped q⟩
    written_le := (forall_update_iff s.frame fun q f => _ ≤ f.image.lsn).2
      ⟨(hs.written_le p).trans hle, fun q _ => hs.written_le q⟩
    clean := (forall_update_iff s.frame fun q f => f.dirty = false → f.image = _).2
      ⟨hclean, fun q _ => hs.clean q⟩ }

theorem setPins (p : Fin P) (pins : List ℕ) :
    Advances s (s.setFrame p { s.frame p with pins := pins }) :=
  hs.setFrame p _ (hs.frame_lsn p) (hs.frame_stamped p) le_rfl (refl _)
    (List.subset_append_right _ _) (hs.clean p)

theorem mutate (p : Fin P) (id : ℕ) : Advances s (s.mutate p id) :=
  hs.setFrame p _ (hs.frame_lsn p) (hs.frame_stamped p) le_rfl (List.subset_cons_self _ _)
    (List.subset_append_right _ _) nofun

theorem max_lsn {p : Fin P} {lsn : ℕ} (hstamp : Stamped s.wal p lsn)
    (hlt : lsn < s.wal.log.length) : Stamped s.wal p (max (s.frame p).image.lsn lsn) ∧
      max (s.frame p).image.lsn lsn < s.wal.log.length := by
  refine ⟨?_, max_lt (hs.frame_lsn p) hlt⟩
  rcases max_choice (s.frame p).image.lsn lsn with h | h
  · rw [h]
    exact hs.frame_stamped p
  · rw [h]
    exact hstamp

theorem stamp {p : Fin P} {lsn : ℕ} {r : Rec P} (hr : s.wal.log[lsn]? = some r)
    (hp : r.Touches p) : Advances s (s.stamp p lsn) := by
  obtain ⟨hstamp, hlt⟩ := hs.max_lsn (.inr ⟨r, hr, hp⟩) (s.wal.lt_length_of_getElem? hr)
  exact hs.setFrame p _ hlt hstamp (le_max_left _ _) (refl _) (List.subset_append_right _ _) nofun

/-- Release the latch. What was pending is in the image. -/
theorem release {p : Fin P} (ids : List ℕ) {lsn : ℕ} (hstamp : Stamped s.wal p lsn)
    (hlt : lsn < s.wal.log.length) (hids : (s.frame p).image.ids ⊆ ids)
    (hpend : (s.frame p).pending ⊆ ids) :
    Advances s (s.release p ids lsn) := by
  obtain ⟨hstamp, hlt⟩ := hs.max_lsn hstamp hlt
  exact hs.setFrame p _ hlt hstamp (le_max_left _ _) hids
    (List.Subset.trans hpend (List.subset_append_left _ _)) nofun

theorem setLatch {p : Fin P} (latch : Latch) (h : (s.frame p).pending = []) :
    Advances s (s.setLatch p latch) :=
  hs.setFrame p _ (hs.frame_lsn p) (hs.frame_stamped p) le_rfl (refl _)
    (h ▸ List.nil_subset _) (hs.clean p)

theorem holds_of_free {p : Fin P} (h : (s.frame p).pending = []) :
    Holds s.wal p s.wal.log.length (s.frame p).image.ids := by
  have := hs.frame_holds p
  rwa [h, List.append_nil] at this

/-- Append a record. The pages it changes were changed before or are latched for it, and a full-page
image is one of the frame as it is. -/
theorem append (r : Rec P)
    (hchange : ∀ id pages, r = .change id pages → ∀ p ∈ pages,
      id ∈ (s.frame p).image.ids ++ (s.frame p).pending)
    (hfull : ∀ p image, r = .fullPage p image →
      image = (s.frame p).image.ids ∧ (s.frame p).pending = []) :
    Advances s (s.append r) := by
  have hlen : (s.append r).wal.log.length = s.wal.log.length + 1 := by simp [Shared.append]
  have hold : ∀ p n, n ≤ s.wal.log.length → Covered s n p → Covered (s.append r) n p :=
    fun p n hn h => ⟨h.1.append hn, h.2.append hn⟩
  have hfloor : s.wal.floor ≤ s.wal.log.length := s.wal.floor_le_durable.trans s.wal.durable_le
  constructor
  · exact
      { hs with
        frame_lsn := fun p => (hs.frame_lsn p).trans (by omega)
        frame_holds := fun p lsn id _ hc => by
          obtain ⟨pages, hr, hp⟩ := changeAt_eq_some.1 hc
          rcases s.wal.getElem?_append_eq_some.1 hr with hr | ⟨-, hr⟩
          · exact hs.frame_holds p lsn id (s.wal.lt_length_of_getElem? hr)
              (changeAt_eq_some.2 ⟨pages, hr, hp⟩)
          · exact hchange id pages hr.symm p hp
        frame_stamped := fun p => (hs.frame_stamped p).append
        written_sound := fun p => (hs.written_sound p).append
        disk_sound := fun p => (hs.disk_sound p).append
        fullPage := fun p lsn image hr => by
          rcases s.wal.getElem?_append_eq_some.1 hr with hr | ⟨rfl, hnew⟩
          · exact (hs.fullPage p lsn image hr).append (s.wal.lt_length_of_getElem? hr).le
          · obtain ⟨rfl, hpend⟩ := hfull p image hnew.symm
            exact (hs.holds_of_free hpend).append le_rfl
        floor := fun p => hold p _ hfloor (hs.floor p) }
  · exact ⟨fun lsn r' hr => s.wal.getElem?_append_eq_some.2 (.inl hr), by omega,
      fun _ => refl _, hold⟩

theorem append_other (r : Rec P) (h₁ : ∀ id pages, r ≠ .change id pages)
    (h₂ : ∀ p image, r ≠ .fullPage p image) : Advances s (s.append r) :=
  hs.append r (fun id pages h => absurd h (h₁ id pages)) fun p image h => absurd h (h₂ p image)

theorem append_fullPage {p : Fin P} (h : (s.frame p).pending = []) :
    SharedInv (s.append (.fullPage p (s.frame p).image.ids)) ∧
      Grows s (s.append (.fullPage p (s.frame p).image.ids)) ∧
      (s.append (.fullPage p (s.frame p).image.ids)).wal.log[s.wal.nextLsn]? =
        some (.fullPage p (s.frame p).image.ids) := by
  obtain ⟨h₁, hg⟩ := hs.append (.fullPage p (s.frame p).image.ids) nofun
    fun q image heq => by
      cases heq
      exact ⟨rfl, h⟩
  exact ⟨h₁, hg, s.wal.getElem?_append_eq_some.2 (.inr ⟨rfl, rfl⟩)⟩

theorem maybeEmitFpw {p : Fin P} (h : (s.frame p).pending = []) :
    Advances s (s.maybeEmitFpw p) := by
  unfold Shared.maybeEmitFpw
  split_ifs
  · obtain ⟨h₁, hg₁, hr⟩ := hs.append_fullPage h
    obtain ⟨h₂, hg₂⟩ := h₁.setFrame p
      { s.frame p with image := { (s.frame p).image with lsn := s.wal.nextLsn }, dirty := true }
      (Wal.lt_length_of_getElem? _ hr) (.inr ⟨_, hr, rfl⟩) (hs.frame_lsn p).le
      (refl _) (List.subset_append_right _ _) nofun
    exact ⟨h₂, hg₁.trans hg₂⟩
  · exact ⟨hs, .refl s⟩

/-- Take the latch. -/
theorem hold {p : Fin P} (imaged : Bool) (h : (s.frame p).pending = []) :
    SharedInv (s.hold p imaged).1 ∧ Grows s (s.hold p imaged).1 ∧
      ∀ id, LocalInv (s.hold p imaged).1 (.latched id p (s.hold p imaged).2) := by
  unfold Shared.hold
  split_ifs
  · obtain ⟨h₁, hg₁, hr⟩ := hs.append_fullPage h
    obtain ⟨h₂, hg₂⟩ := h₁.setLatch (p := p) .held h
    exact ⟨h₂, hg₁.trans hg₂, fun _ => ⟨.inr ⟨_, hr, rfl⟩, Wal.lt_length_of_getElem? _ hr⟩⟩
  · obtain ⟨h₁, hg⟩ := hs.setLatch .held h
    exact ⟨h₁, hg, fun _ => ⟨hs.frame_stamped p, hs.frame_lsn p⟩⟩

theorem flush (p : Fin P) : Advances s (s.flush p) := by
  unfold Shared.flush
  split_ifs with h
  · obtain ⟨-, -, hfree, hlsn⟩ := h
    have hframe := hs.holds_of_free (pending_of_free hfree)
    have hsound : Sound s.wal p (s.frame p).image := by
      have hpos := hs.durable_pos
      exact ⟨by omega, hframe.mono (hs.frame_lsn p) (refl _), hs.frame_stamped p⟩
    have hsame : ∀ q, let f := (s.setFrame p { s.frame p with dirty := false }).frame q
        f.image = (s.frame q).image ∧ f.pending = (s.frame q).pending :=
      (forall_update_iff s.frame fun q f =>
        f.image = (s.frame q).image ∧ f.pending = (s.frame q).pending).2
        ⟨⟨rfl, rfl⟩, fun _ _ => ⟨rfl, rfl⟩⟩
    have hcov : ∀ q n, n ≤ s.wal.log.length → Covered s n q →
        Holds s.wal q n (update s.written p (s.frame p).image q).ids :=
      (forall_update_iff s.written fun q img => ∀ n, n ≤ s.wal.log.length →
        Covered s n q → Holds s.wal q n img.ids).2
        ⟨fun n hn _ => hframe.mono hn (refl _), fun q _ n _ h => h.2⟩
    have hfloor : s.wal.floor ≤ s.wal.log.length := s.wal.floor_le_durable.trans s.wal.durable_le
    constructor
    · exact
        { hs with
          frame_lsn := fun q => (hsame q).1 ▸ hs.frame_lsn q
          frame_holds := fun q => (hsame q).1 ▸ (hsame q).2 ▸ hs.frame_holds q
          frame_stamped := fun q => (hsame q).1 ▸ hs.frame_stamped q
          written_sound := (forall_update_iff s.written fun q img => Sound s.wal q img).2
            ⟨hsound, fun q _ => hs.written_sound q⟩
          written_le := fun q => (hsame q).1 ▸ (forall_update_iff s.written fun q img =>
            img.lsn ≤ (s.frame q).image.lsn).2 ⟨le_rfl, fun q _ => hs.written_le q⟩ q
          disk_le := (forall_update_iff s.written fun q img =>
            (s.disk q).lsn ≤ img.lsn).2
            ⟨(hs.disk_le p).trans (hs.written_le p), fun q _ => hs.disk_le q⟩
          clean := fun q hq => by
            by_cases hqp : q = p
            · subst hqp
              simp
            · simp only [ne_eq, hqp, not_false_eq_true, Shared.setFrame_frame_of_ne] at hq
              simpa [hqp] using hs.clean q hq
          floor := fun q => ⟨(hs.floor q).1, hcov q _ hfloor (hs.floor q)⟩ }
    · exact ⟨fun _ _ h => h, le_rfl, fun q => by simp [hsame q],
        fun q n hn h => ⟨h.1, hcov q n hn h⟩⟩
  · exact ⟨hs, .refl s⟩

theorem sync (p : Fin P) : Advances s (s.sync p) := by
  have hcov : ∀ q n, Covered s n q → Covered (s.sync p) n q := fun q n h =>
    ⟨(forall_update_iff s.disk fun q img => ∀ n, Covered s n q → Holds s.wal q n img.ids).2
      ⟨fun n h => h.2, fun q _ n h => h.1⟩ q n h, h.2⟩
  refine ⟨{ hs with
    disk_sound := (forall_update_iff s.disk fun q img => Sound s.wal q img).2
      ⟨hs.written_sound p, fun q _ => hs.disk_sound q⟩
    disk_le := (forall_update_iff s.disk fun q img => img.lsn ≤ (s.written q).lsn).2
      ⟨le_rfl, fun q _ => hs.disk_le q⟩
    floor := fun q => hcov q _ (hs.floor q) }, fun _ _ h => h, le_rfl,
    fun _ => refl _, fun q n _ h => hcov q n h⟩

theorem fsync (k : ℕ) : SharedInv { s with wal := s.wal.fsync k } :=
  { hs with
    durable_pos := hs.durable_pos.trans_le (s.wal.durable_le_fsync k)
    written_sound := fun p => (hs.written_sound p).of_log rfl (s.wal.durable_le_fsync k)
    disk_sound := fun p => (hs.disk_sound p).of_log rfl (s.wal.durable_le_fsync k) }

theorem roll : SharedInv { s with wal := s.wal.roll } :=
  { hs with
    written_sound := fun p => (hs.written_sound p).of_log rfl le_rfl
    disk_sound := fun p => (hs.disk_sound p).of_log rfl le_rfl }

/-- Recycling below a target that is covered. -/
theorem truncateBelow {redo target : ℕ} (ht : target ≤ redo)
    (hredo : ∀ p, Covered s redo p) : SharedInv { s with wal := s.wal.truncateBelow target } := by
  have hle := (s.wal.truncateBelow_floor target).2
  have hcov : ∀ p, Covered s (max s.wal.floor redo) p := by
    intro p
    rcases max_choice s.wal.floor redo with h | h
    · rw [h]
      exact hs.floor p
    · rw [h]
      exact hredo p
  have hmax : (s.wal.truncateBelow target).floor ≤ max s.wal.floor redo := by omega
  exact { hs with
    written_sound := fun p => (hs.written_sound p).of_log rfl le_rfl
    disk_sound := fun p => (hs.disk_sound p).of_log rfl le_rfl
    floor := fun p => (hcov p).mono hmax }

end SharedInv

end Sections

/-! ## Steps -/

theorem redoFrom_oldestOf (b : ℕ) (oldest : Option ℕ) (f : Frame) :
    redoFrom b (oldestOf oldest f) ≤ redoFrom b oldest ∧
      (f.dirty = true → redoFrom b (oldestOf oldest f) ≤ f.image.lsn) := by
  unfold oldestOf redoFrom
  split_ifs with hd
  · cases oldest with
    | none =>
      simp only [elim_none, elim_some]
      split_ifs <;> omega
    | some lsn =>
      simp only [elim_some]
      split_ifs <;> omega
  · exact ⟨le_rfl, fun h => absurd h hd⟩

/-- A safe visit: the images of the visited page cover what the scan then recycles. -/
theorem covered_scanned (hs : SharedInv s) {b : ℕ} {oldest : Option ℕ}
    (hsafe : ScanSafe s b p) : Covered s (redoFrom b (oldestOf oldest (s.frame p))) p := by
  have hle := redoFrom_le b (oldestOf oldest (s.frame p))
  cases hd : (s.frame p).dirty with
  | true =>
    -- the changes below the frame's LSN are below the LSN of the disk image
    have hlsn := (redoFrom_oldestOf b oldest _).2 hd
    have hdisk := hs.disk_le p
    have hcov : ∀ lsn id, lsn < redoFrom b (oldestOf oldest (s.frame p)) →
        changeAt s.wal p lsn = some id → lsn ≤ (s.disk p).lsn := fun lsn id hlt hc =>
      hsafe 0 hd lsn (by omega) (by omega) (isSome_of_eq_some hc)
    refine ⟨fun lsn id hlt hc => (hs.disk_sound p).holds lsn id ?_ hc,
      fun lsn id hlt hc => (hs.written_sound p).holds lsn id ?_ hc⟩
    all_goals
      have := hcov lsn id hlt hc
      omega
  | false =>
    -- what is written is the frame's image, and it is synced
    have hall : Holds s.wal p (redoFrom b (oldestOf oldest (s.frame p))) (s.written p).ids := by
      rw [← hs.clean p hd]
      exact fun lsn id hlt hc => hsafe 2 hd lsn (hlt.trans_le hle) id hc
    rw [Covered, hsafe 1 hd]
    exact ⟨hall, hall⟩

theorem next_spec (hs : SharedInv s) (hl : LocalInv s pc)
    (hc : ∀ v ∈ scanVisit pc .next, ScanSafe s v.1 v.2) (h : next s pc = some (s', pc')) :
    SharedInv s' ∧ Grows s s' ∧ LocalInv s' pc' := by
  cases pc with
  | idle => cases h
  | covering id pages todo =>
    cases todo with
    | nil =>
      cases h
      exact ⟨hs, .refl s, trivial⟩
    | cons p todo =>
      obtain ⟨hfree, heq⟩ := free_of_whenFree h
      cases heq
      exact ⟨(hs.maybeEmitFpw hfree).1, (hs.maybeEmitFpw hfree).2, trivial⟩
  | pinning id pages todo =>
    cases todo with cases h
    | nil => exact ⟨hs, .refl s, fun p hp hn => absurd hp hn⟩
    | cons p todo => exact ⟨(hs.setPins p _).1, (hs.setPins p _).2, trivial⟩
  | mutating id pages todo =>
    cases todo with
    | nil =>
      cases h
      exact ⟨hs, .refl s, fun p hp => hl p hp List.not_mem_nil⟩
    | cons p todo =>
      obtain ⟨-, heq⟩ := free_of_whenFree h
      cases heq
      obtain ⟨h₁, hg⟩ := hs.mutate p id
      refine ⟨h₁, hg, fun q hq hn => ?_⟩
      by_cases hqp : q = p
      · subst hqp
        simp [Shared.mutate]
      · exact hg.frame q (hl q hq (by simp [hqp, hn]))
  | appending id pages =>
    cases h
    obtain ⟨h₁, hg⟩ := hs.append (.change id pages)
      (fun id' pages' h => by
        cases h
        exact fun p hp => List.mem_append_left _ (hl p hp)) nofun
    exact ⟨h₁, hg, s.wal.getElem?_append_eq_some.2 (.inr ⟨rfl, rfl⟩), refl _⟩
  | stamping id lsn pages todo =>
    cases todo with
    | nil =>
      cases h
      exact ⟨hs, .refl s, trivial⟩
    | cons p todo =>
      obtain ⟨-, heq⟩ := free_of_whenFree h
      cases heq
      obtain ⟨hr, hsub⟩ := hl
      obtain ⟨h₁, hg⟩ := hs.stamp hr (hsub List.mem_cons_self)
      exact ⟨h₁, hg, hr, List.Subset.trans (List.subset_cons_self _ _) hsub⟩
  | unpinning id todo =>
    cases todo with cases h
    | nil => exact ⟨hs, .refl s, trivial⟩
    | cons p todo => exact ⟨(hs.setPins p _).1, (hs.setPins p _).2, trivial⟩
  | latched id p lsn =>
    simp only [next] at h
    split_ifs at h with hheld
    cases h
    obtain ⟨h₁, hg₁⟩ := hs.setLatch (.logged id) (by rw [Frame.pending, hheld])
    obtain ⟨h₂, hg₂⟩ := h₁.append (.change id [p]) (fun id' pages h q hq => by
      cases h
      rw [List.mem_singleton.1 hq]
      simp [Shared.setLatch, Frame.pending]) nofun
    exact ⟨h₂, hg₁.trans hg₂, s.wal.getElem?_append_eq_some.2 (.inr ⟨rfl, rfl⟩)⟩
  | applying id p lsn =>
    simp only [next] at h
    split_ifs at h with hlogged
    cases h
    obtain ⟨h₁, hg⟩ := hs.release (id :: (s.frame p).image.ids)
      (.inr ⟨_, hl, List.mem_singleton_self p⟩) (s.wal.lt_length_of_getElem? hl)
      (List.subset_cons_self _ _) (by simp [Frame.pending, hlogged])
    exact ⟨h₁, hg, trivial⟩
  | barrier b =>
    simp only [next] at h
    split_ifs at h
    cases h
    exact ⟨hs, .refl s, hl⟩
  | flushing b todo =>
    cases todo with cases h
    | nil => exact ⟨hs, .refl s, hl⟩
    | cons p todo => exact LocalInv.keep hl (hs.flush p)
  | fsyncing b todo =>
    cases todo with cases h
    | nil => exact ⟨hs, .refl s, hl, fun p hp => absurd (List.mem_finRange p) hp⟩
    | cons p todo => exact ⟨(hs.sync p).1, (hs.sync p).2, hl⟩
  | scanning b todo oldest =>
    cases todo with
    | nil =>
      cases h
      exact ⟨hs, .refl s, (redoFrom_le b oldest).trans_lt hl.1, fun p => hl.2 p List.not_mem_nil⟩
    | cons p todo =>
      simp only [next] at h
      split_ifs at h
      cases h
      refine ⟨hs, .refl s, hl.1, fun q hq => ?_⟩
      by_cases hqp : q = p
      · subst hqp
        exact covered_scanned hs (hc (b, q) rfl)
      · exact (hl.2 q (by simp [hqp, hq])).mono (redoFrom_oldestOf b oldest _).1
  | logging redo =>
    cases h
    exact LocalInv.keep hl (hs.append_other (.checkpoint redo) nofun nofun)
  | logged redo lsn =>
    simp only [next] at h
    split_ifs at h
    cases h
    exact ⟨{ hs with }, { Grows.refl s with }, hl⟩
  | recycling redo => cases h

/-- **One step.** It keeps the invariant and what the thread knows, and images and log grow. -/
theorem step_spec {a : Act P} (hs : SharedInv s) (hl : LocalInv s pc)
    (hc : ∀ v ∈ scanVisit pc a, ScanSafe s v.1 v.2) (h : step s pc a = some (s', pc')) :
    SharedInv s' ∧ Grows s s' ∧ LocalInv s' pc' := by
  cases a with
  | start | visit =>
    cases pc <;> cases h
    exact ⟨{ hs with }, { Grows.refl s with }, trivial⟩
  | latch imaged =>
    simp only [step] at h
    split at h
    · rename_i id p
      obtain ⟨hfree, heq⟩ := free_of_whenFree h
      cases heq
      obtain ⟨h₁, hg, hl'⟩ := hs.hold imaged hfree
      exact ⟨h₁, hg, hl' id⟩
    · cases h
  | leave =>
    simp only [step] at h
    split at h
    · cases h
      exact ⟨hs, .refl s, trivial⟩
    · rename_i id p lsn
      split_ifs at h with hheld
      cases h
      obtain ⟨h₁, hg⟩ := hs.release (s.frame p).image.ids hl.1 hl.2 (refl _)
        (by simp [Frame.pending, hheld])
      exact ⟨h₁, hg, trivial⟩
    · cases h
  | checkpoint =>
    cases pc <;> cases h
    obtain ⟨h₁, hg⟩ := hs.append_other .nop nofun nofun
    exact ⟨h₁, hg, by simp [LocalInv, Shared.append, Wal.nextLsn]⟩
  | next => exact next_spec hs hl hc h
  | recycle bound =>
    cases pc <;> cases h
    exact ⟨hs.truncateBelow (min_le_left _ bound) hl.2, { Grows.refl s with }, trivial⟩
  | giveUp =>
    simp only [step] at h
    split_ifs at h
    cases h
    exact ⟨hs, .refl s, trivial⟩
  | flush p =>
    cases h
    exact hl.keep (hs.flush p)
  | flushed =>
    cases h
    exact hl.keep ⟨{ hs with }, { Grows.refl s with }⟩
  | writeBack p =>
    cases h
    exact hl.keep (hs.sync p)
  | log =>
    cases h
    exact hl.keep (hs.append_other .other nofun nofun)
  | fsync k =>
    cases h
    exact hl.keep ⟨hs.fsync k, { Grows.refl s with }⟩
  | roll =>
    cases h
    exact hl.keep ⟨hs.roll, { Grows.refl s with }⟩

/-! ## Crash and redo -/

/-- What replay keeps on page `p` before the record at `lsn`: the image holds the changes below
it, and its page LSN is at least that of the disk image once that record is passed. -/
structure Redone (w : Wal (Rec P)) (p : Fin P) (disk : ℕ) (lsn : ℕ) (img : Image) : Prop where
  holds : Holds w p lsn img.ids
  sound : Sound w p img
  le : disk < lsn → disk ≤ img.lsn

variable {w : Wal (Rec P)}

theorem Holds.succ {ids : List ℕ} (h : Holds w p n ids)
    (hn : ∀ id, changeAt w p n = some id → id ∈ ids) : Holds w p (n + 1) ids := by
  intro lsn id hlt hc
  rcases Nat.lt_succ_iff_lt_or_eq.1 hlt with hlt | rfl
  · exact h lsn id hlt hc
  · exact hn id hc

variable {img : Image} {r : Rec P}

/-- A record that does not touch the page. -/
theorem Redone.skip (h : Redone w p disk lsn img) (hr : w.log[lsn]? = some r) (hp : ¬ r.Touches p)
    (hdisk : Stamped w p disk) : Redone w p disk (lsn + 1) img := by
  refine ⟨h.holds.succ fun id hc => ?_, h.sound, fun hlt => ?_⟩
  · obtain ⟨pages, hr', hmem⟩ := changeAt_eq_some.1 hc
    rw [hr] at hr'
    cases hr'
    exact absurd hmem hp
  · rcases hdisk with rfl | ⟨r', hr', ht⟩
    · exact Nat.zero_le _
    · refine h.le (lt_of_le_of_ne (Nat.lt_succ_iff.1 hlt) ?_)
      rintro rfl
      rw [hr] at hr'
      cases hr'
      exact hp ht

theorem redone_redoRecord
    (hfull : ∀ lsn image, w.log[lsn]? = some (.fullPage p image) → Holds w p lsn image)
    (hdisk : Stamped w p disk) (hr : w.log[lsn]? = some r) (hlt : lsn < w.durable)
    (h : Redone w p disk lsn img) : Redone w p disk (lsn + 1) (redoRecord p img lsn r) := by
  cases r with
  | nop | checkpoint | other => exact h.skip hr id hdisk
  | change id pages =>
    simp only [redoRecord]
    by_cases hp : p ∈ pages
    · have hc : changeAt w p lsn = some id := changeAt_eq_some.2 ⟨pages, hr, hp⟩
      split_ifs with hskip
      · have hle : img.lsn ≤ lsn := by
          have hno := hskip.2
          simp only [shouldSkipRedo, Bool.or_eq_false_iff, decide_eq_false_iff_not] at hno
          omega
        have hholds : Holds w p (lsn + 1) (id :: img.ids) := by
          refine (h.holds.mono le_rfl (List.subset_cons_self _ _)).succ fun id' hc' => ?_
          rw [hc] at hc'
          cases hc'
          exact List.mem_cons_self
        rw [max_eq_right hle]
        exact ⟨hholds, ⟨hlt, hholds, .inr ⟨_, hr, hp⟩⟩, Nat.lt_succ_iff.1⟩
      · have hle : lsn ≤ img.lsn := by
          simp only [hp, true_and, Bool.not_eq_false, shouldSkipRedo, Bool.or_eq_true,
            decide_eq_true_eq, Bool.and_eq_true] at hskip
          omega
        exact ⟨h.sound.holds.mono (Nat.succ_le_succ hle) (refl _), h.sound,
          fun hd => (Nat.lt_succ_iff.1 hd).trans hle⟩
    · rw [if_neg fun h => hp h.1]
      exact h.skip hr hp hdisk
  | fullPage q image =>
    simp only [redoRecord]
    split_ifs with hq
    · subst hq
      have hholds : Holds w q (lsn + 1) image := by
        refine (hfull lsn image hr).succ fun id hc => ?_
        obtain ⟨pages, hr', -⟩ := changeAt_eq_some.1 hc
        rw [hr] at hr'
        cases hr'
      exact ⟨hholds, ⟨hlt, hholds, .inr ⟨_, hr, rfl⟩⟩, Nat.lt_succ_iff.1⟩
    · exact h.skip hr hq hdisk

/-- Redo of the retained log over the disk image of a page. -/
theorem redone_replay (hs : SharedInv s) (k : ℕ) (p : Fin P) :
    Redone (s.wal.crash k) p (s.disk p).lsn (s.wal.crash k).log.length
      ((s.wal.crash k).replay (redoRecord p) (s.disk p)) := by
  have hdisk := (hs.disk_sound p).crash k
  have hfull : ∀ lsn image, (s.wal.crash k).log[lsn]? = some (.fullPage p image) →
      Holds (s.wal.crash k) p lsn image := fun lsn image hr =>
    (hs.fullPage p lsn image (s.wal.getElem?_crash_eq_some hr).1).crash k
  have h₀ : Redone (s.wal.crash k) p (s.disk p).lsn (s.wal.crash k).floor (s.disk p) :=
    ⟨(hs.floor p).1.crash k, hdisk, fun _ => le_rfl⟩
  exact Wal.replay_invariant h₀ fun lsn r img _ hr h =>
    redone_redoRecord hfull hdisk.stamped hr (s.wal.getElem?_crash_eq_some hr).2 h

theorem SharedInv.crash (hs : SharedInv s) {k : ℕ} (h : s.crash k = some s') : SharedInv s' := by
  cases h
  have hredo := redone_replay hs k
  have hlen := s.wal.crash_length k
  exact
    { durable_pos := hs.durable_pos.trans_le (s.wal.durable_le_fsync k)
      frame_lsn := fun p => (hredo p).sound.lt.trans_eq hlen.symm
      frame_holds := fun p => (hredo p).holds.mono le_rfl (List.subset_append_left _ _)
      frame_stamped := fun p => (hredo p).sound.stamped
      written_sound := fun p => (hs.disk_sound p).crash k
      disk_sound := fun p => (hs.disk_sound p).crash k
      written_le := fun p =>
        (hredo p).le (((hs.disk_sound p).crash k).lt.trans_eq hlen.symm)
      disk_le := fun _ => le_rfl
      clean := fun p hp => by simpa [recoverFrame] using hp
      fullPage := fun p lsn image hr =>
        (hs.fullPage p lsn image (s.wal.getElem?_crash_eq_some hr).1).crash k
      floor := fun p => ⟨(hs.floor p).1.crash k, (hs.floor p).1.crash k⟩ }

/-! ## Runs -/

theorem sharedInv_start : SharedInv (Shared.start : Shared P) := by
  have hnone : ∀ p lsn, changeAt (.start : Shared P).wal p lsn = none := by
    intro p lsn
    cases lsn <;> rfl
  have hholds : ∀ p n ids, Holds (.start : Shared P).wal p n ids := by
    intro p n ids lsn id _ hc
    rw [hnone] at hc
    cases hc
  have hsound : ∀ p, Sound (.start : Shared P).wal p {} := fun p =>
    ⟨Nat.one_pos, hholds p _ _, .inl rfl⟩
  exact
    { durable_pos := Nat.one_pos
      frame_lsn := fun _ => Nat.one_pos
      frame_holds := fun p => hholds p _ _
      frame_stamped := fun _ => .inl rfl
      written_sound := hsound
      disk_sound := hsound
      written_le := fun _ => le_rfl
      disk_le := fun _ => le_rfl
      clean := fun _ _ => rfl
      fullPage := fun p lsn _ _ => hholds p lsn _
      floor := fun p => ⟨hholds p _ _, hholds p _ _⟩ }

theorem rule : Program.Rule (program P) SharedInv LocalInv (fun _ _ => True)
    (fun s pc a => ∀ v ∈ scanVisit pc a, ScanSafe s v.1 v.2) fun _ _ _ _ => True where
  symm _ _ _ := trivial
  loc _ _ _ _ _ hs hl hc h := by
    obtain ⟨h₁, -, h₂⟩ := step_spec hs hl hc h
    exact ⟨h₁, h₂⟩
  other _ _ _ _ _ _ hs hl hk _ hc _ h := ⟨hk.grows (step_spec hs hl hc h).2.1, trivial⟩

theorem reach_sharedInv {s : Program.State (Shared P) (Pc P) n}
    (h : (machine P n).Reach (Scans ScanSafe) s) : SharedInv s.shared := by
  have hidle : ∀ s : Shared P, LocalInv s .idle := fun _ => trivial
  exact (Program.reach_inv_crash rule (fun _ _ _ hc => ⟨hc, fun _ _ => trivial⟩)
    (fun _ _ sh hs hk => ⟨hs.shared.crash hk, hidle sh⟩) sharedInv_start (hidle _) trivial h).shared

/-- **Recycling keeps what redo needs.** In every state of a run whose scans are safe, a change
whose record is durable is in the disk image of its page or its record is at or above the floor.
Whatever a crash leaves of the log, redo brings back every change in it. -/
theorem recycled_changes_durable {n : ℕ} {s : Program.State (Shared P) (Pc P) n}
    (h : (machine P n).Reach (Scans ScanSafe) s) :
    (∀ (lsn : ℕ) id pages, ∀ p ∈ pages, s.shared.wal.log[lsn]? = some (.change id pages) →
      lsn < s.shared.wal.durable →
      id ∈ (s.shared.disk p).ids ∨ s.shared.wal.floor ≤ lsn) ∧
    ∀ k s', s.shared.crash k = some s' → ∀ (lsn : ℕ) id pages, ∀ p ∈ pages,
      s'.wal.log[lsn]? = some (.change id pages) → id ∈ (s'.frame p).image.ids := by
  have hs := reach_sharedInv h
  constructor
  · intro lsn id pages p hp hr _
    by_cases hlt : lsn < s.shared.wal.floor
    · exact .inl ((hs.floor p).1 lsn id hlt (changeAt_eq_some.2 ⟨pages, hr, hp⟩))
    · exact .inr (Nat.le_of_not_lt hlt)
  · intro k s' hk lsn id pages p hp hr
    -- no latch is held after a crash
    have hfree : (s'.frame p).pending = [] := by
      cases hk
      rfl
    exact (hs.crash hk).holds_of_free hfree lsn id (s'.wal.lt_length_of_getElem? hr)
      (changeAt_eq_some.2 ⟨pages, hr, hp⟩)

/-! ## Runs with and without the condition -/

/-- A thread runs its next `k` sections. -/
def nexts {n : ℕ} (i : Fin n) (k : ℕ) : List (Fin n × Act P ⊕ ℕ) :=
  List.replicate k (.inl (i, .next))

/-- A thread changes the page, and its record is the last one in a durable segment. -/
def changeAndRoll {n : ℕ} (i : Fin n) : List (Fin n × Act 1 ⊕ ℕ) :=
  [.inl (i, .start [Fin.last 0])] ++ nexts i 11 ++ [.inl (i, .fsync 2), .inl (i, .roll)]

/-- A checkpoint up to its scan. -/
def checkpointToScan {n : ℕ} (i : Fin n) : List (Fin n × Act 1 ⊕ ℕ) :=
  [.inl (i, .checkpoint), .inl (i, .fsync 3)] ++ nexts i 5

/-- The rest of the checkpoint, when the next record has LSN `lsn`. -/
def scanAndRecycle {n : ℕ} (i : Fin n) (lsn : ℕ) : List (Fin n × Act 1 ⊕ ℕ) :=
  nexts i 3 ++ [.inl (i, .fsync (lsn + 1))] ++ nexts i 1 ++ [.inl (i, .recycle lsn)]

/-- A checkpoint with nothing else running recycles the segment, and after a crash redo starts
above it. -/
theorem quiet_checkpoint_recycles :
    ∃ s : Program.State (Shared 1) (Pc 1) 3, (machine 1 3).Reach (Scans ScanSafe) s ∧
      s.shared.wal.floor = 2 ∧ s.shared.wal.log[1]? = some (.change 0 [0]) ∧
      (∀ (lsn : ℕ) id pages, ∀ p ∈ pages, s.shared.wal.log[lsn]? = some (.change id pages) →
        lsn < s.shared.wal.durable → id ∈ (s.shared.disk p).ids ∨ s.shared.wal.floor ≤ lsn) := by
  obtain ⟨s, hs, hp⟩ := Machine.exists_reach_of_runIf (M := machine 1 3) (C := Scans ScanSafe)
    (p := fun s => s.shared.wal.floor = 2 ∧ s.shared.wal.log[1]? = some (.change 0 [0]))
    (changeAndRoll 0 ++ checkpointToScan 2 ++ scanAndRecycle 2 3 ++ [.inr 0]) (by decide)
  exact ⟨s, hs, hp.1, hp.2, (recycled_changes_durable hs).1⟩

/-- The record of a durable change is recycled, the change is not on disk, and redo after a crash
does not bring it back. -/
def Lost (s : Shared P) (p : Fin P) (lsn id : ℕ) : Prop :=
  changeAt s.wal p lsn = some id ∧ lsn < s.wal.durable ∧ id ∉ (s.disk p).ids ∧
    lsn < s.wal.floor ∧ ∃ s' ∈ s.crash 0, id ∉ (s'.frame p).image.ids

instance (s : Shared P) (p : Fin P) (lsn id : ℕ) : Decidable (Lost s p lsn id) :=
  inferInstanceAs (Decidable (_ ∧ _ ∧ _ ∧ _ ∧ _))

/-- A run that meets the condition but for part `k` loses a durable change. -/
def LostWithout (k : Fin 3) : Prop := ∃ s : Program.State (Shared 1) (Pc 1) 3,
  (machine 1 3).Reach (Scans fun s b p => ∀ j ≠ k, ScanPart s b p j) s ∧ ∃ p, Lost s.shared p 1 0

/-- **Each part of the condition is needed.** In the first run, another thread has the page pinned
and changed when the flush visits it, and stamps an LSN above the barrier before the scan. In the
second, the page is pinned during the flush pass and the background flusher writes it after its
file was synced. In the third, a change that is logged first has not reached the page, which is
clean. -/
theorem durable_change_recycled : LostWithout 0 ∧ LostWithout 1 ∧ LostWithout 2 := by
  refine ⟨?_, ?_, ?_⟩
  · exact Machine.exists_reach_of_runIf
      (changeAndRoll 0 ++ [.inl (1, .start [0])] ++ nexts 1 5 ++ checkpointToScan 2 ++ nexts 1 3 ++
        scanAndRecycle 2 4) (by decide)
  · exact Machine.exists_reach_of_runIf
      (changeAndRoll 0 ++ [.inl (1, .start [0])] ++ nexts 1 3 ++ checkpointToScan 2 ++
        [.inl (1, .leave)] ++ nexts 1 2 ++ [.inl (0, .flush 0)] ++ scanAndRecycle 2 3) (by decide)
  · exact Machine.exists_reach_of_runIf
      ([.inl (0, .visit [0])] ++ nexts 0 1 ++ [.inl (0, .latch true)] ++ nexts 0 1 ++
        [.inl (0, .fsync 2), .inl (0, .roll)] ++ checkpointToScan 2 ++ scanAndRecycle 2 3)
      (by decide)

end UltraSql.Pages
