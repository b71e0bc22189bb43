import UltraSql.Heap.AllVisible
import UltraSql.Index.Brin
import UltraSql.Index.ScanRows
import UltraSql.Index.Versions

/-!
# Scans of a block range index

An UPDATE that keeps the key adds nothing to the index. When its version goes to a block range that
has no summary, the row is out of reach (`moved_row_is_missed`). And VACUUM loses what its snapshot
does not see: the rows of transactions that run, and old versions that others still read.

**Theorem (`brinScan_perm_seqScan`).** If versions that keep their key stay in their block range,
and VACUUM clears the summaries only when everybody else has ended before its snapshot, then a scan
that no VACUUM is at work beside returns the rows of a sequential scan, each as often.
-/

namespace UltraSql.Index.Brin

open List Function
open Timeline (Client)
open Heap (Settled sees_foreign)

/-! ## Summaries -/

section Summaries

variable {ppr key key' block start : ℕ} {summaries summaries' : List Summary} {r : Summary}

theorem encodeI64Key_le_iff {k n : I64} : encodeI64Key k ≤ encodeI64Key n ↔ k ≤ n := by
  have hle : k ≤ n ↔ k.1 ≤ n.1 := Iff.rfl
  simp only [encodeI64Key, hle]
  split_ifs <;> omega

/-- The summary of the block's range has the key. -/
def Covers (ppr : ℕ) (summaries : List Summary) (key block : ℕ) : Prop :=
  ∃ r ∈ summaries, r.firstBlock = block / ppr * ppr ∧ r.minKey ≤ key ∧ key ≤ r.maxKey

theorem widen_eq_some (h : widen key start summaries = some summaries') :
    ∃ i r, summaries[i]? = some r ∧ r.firstBlock = start ∧ summaries' = summaries.set i
      { r with minKey := min key r.minKey, maxKey := max key r.maxKey } := by
  induction summaries generalizing summaries' with
  | nil => cases h
  | cons s rest ih =>
    rw [widen] at h
    split_ifs at h with hs
    · cases h
      exact ⟨0, s, rfl, hs, rfl⟩
    · obtain ⟨rest', h', rfl⟩ := Option.map_eq_some_iff.1 h
      obtain ⟨i, r, hi, hr, rfl⟩ := ih h'
      exact ⟨i + 1, r, hi, hr, rfl⟩

/-- **What a key does to the summaries.** -/
theorem insert_spec (ppr : ℕ) (summaries : List Summary) (key block : ℕ) :
    Covers ppr (insert ppr summaries key block) key block ∧
      (∀ r ∈ summaries, ∃ r' ∈ insert ppr summaries key block, r'.firstBlock = r.firstBlock ∧
        r'.minKey ≤ r.minKey ∧ r.maxKey ≤ r'.maxKey) ∧
      ((∀ r ∈ summaries, r.lastBlock = r.firstBlock + ppr - 1) →
        ∀ r ∈ insert ppr summaries key block, r.lastBlock = r.firstBlock + ppr - 1) := by
  unfold insert Covers
  dsimp only
  split
  · rename_i summaries' h
    obtain ⟨i, q, hq, hstart, rfl⟩ := widen_eq_some h
    have hnew : ∀ r, r ∈ summaries.set i r := mem_set (List.getElem?_eq_some_iff.1 hq).1
    refine ⟨⟨_, hnew _, hstart, min_le_left _ _, le_max_left _ _⟩, fun r hr => ?_,
      fun halign r hr => ?_⟩
    · obtain ⟨j, hj⟩ := mem_iff_getElem?.1 hr
      by_cases hij : i = j
      · obtain rfl := Option.mem_unique (hij ▸ hq) hj
        exact ⟨_, hnew _, rfl, min_le_right _ _, le_max_right _ _⟩
      · exact ⟨r, mem_of_getElem? ((getElem?_set_ne hij).trans hj), rfl, le_rfl, le_rfl⟩
    · rcases mem_or_eq_of_mem_set hr with hr | rfl
      · exact halign r hr
      · exact halign q (mem_of_getElem? hq)
  · simp only [mem_insertionSort, mem_append, mem_singleton]
    refine ⟨⟨_, .inr rfl, rfl, le_rfl, le_rfl⟩, fun r hr => ⟨r, .inl hr, rfl, le_rfl, le_rfl⟩, ?_⟩
    rintro halign r (hr | rfl)
    · exact halign r hr
    · rfl

theorem Covers.insert (h : Covers ppr summaries key block) (key' block' : ℕ) :
    Covers ppr (insert ppr summaries key' block') key block := by
  obtain ⟨r, hr, hfirst, hmin, hmax⟩ := h
  obtain ⟨r', hr', hfirst', hmin', hmax'⟩ := (insert_spec ppr summaries key' block').2.1 r hr
  exact ⟨r', hr', hfirst'.trans hfirst, hmin'.trans hmin, hmax.trans hmax'⟩

end Summaries

/-! ## Ranges of blocks -/

section Ranges

/-- The block is in the range. -/
def Within (b : ℕ) (r : ℕ × ℕ) : Prop := r.1 ≤ b ∧ b ≤ r.2

instance (b : ℕ) (r : ℕ × ℕ) : Decidable (Within b r) := inferInstanceAs (Decidable (_ ∧ _))

variable {merged : List (ℕ × ℕ)}

theorem exists_within_mergeRange {r : ℕ × ℕ} (hstart : ∀ q ∈ merged, q.1 ≤ r.1) (b : ℕ) :
    (∃ q ∈ mergeRange merged r, Within b q) ↔ (∃ q ∈ merged, Within b q) ∨ Within b r := by
  unfold mergeRange
  split
  · simp
  · rename_i start last rest
    have hs : start ≤ r.1 := hstart (start, last) mem_cons_self
    split_ifs with hnext
    · have hunion : Within b (start, max last r.2) ↔ Within b (start, last) ∨ Within b r := by
        simp only [Within]
        omega
      simp only [mem_cons, exists_eq_or_imp, hunion]
      exact or_right_comm
    · simp only [mem_cons, exists_eq_or_imp]
      exact or_comm

theorem pairwise_mergeRange {r : ℕ × ℕ} (hstart : ∀ q ∈ merged, q.1 ≤ r.1)
    (h : merged.Pairwise fun q q' => q'.2 < q.1) :
    (mergeRange merged r).Pairwise fun q q' => q'.2 < q.1 := by
  unfold mergeRange
  split
  · exact pairwise_singleton _ _
  · rename_i start last rest
    obtain ⟨hfirst, hrest⟩ := pairwise_cons.1 h
    split_ifs with hnext
    · exact pairwise_cons.2 ⟨hfirst, hrest⟩
    · have hs : start ≤ r.1 := hstart (start, last) mem_cons_self
      refine pairwise_cons.2 ⟨forall_mem_cons.2 ⟨?_, fun q hq => (hfirst q hq).trans_le hs⟩, h⟩
      show last < r.1
      omega

theorem start_mergeRange {r q : ℕ × ℕ} (h : q ∈ mergeRange merged r) :
    q.1 = r.1 ∨ ∃ q' ∈ merged, q.1 = q'.1 := by
  unfold mergeRange at h
  split at h
  · exact .inl (congrArg Prod.fst (mem_singleton.1 h))
  · split_ifs at h
    · rcases mem_cons.1 h with rfl | h
      · exact .inr ⟨_, mem_cons_self, rfl⟩
      · exact .inr ⟨q, mem_cons_of_mem _ h, rfl⟩
    · exact (mem_cons.1 h).imp (congrArg _) fun h => ⟨q, h, rfl⟩

/-- **Merging keeps the blocks and makes the ranges disjoint.** -/
theorem foldl_mergeRange {rs m : List (ℕ × ℕ)} (hrs : rs.Pairwise (·.1 ≤ ·.1))
    (hstart : ∀ q ∈ m, ∀ r ∈ rs, q.1 ≤ r.1) (h : m.Pairwise fun q q' => q'.2 < q.1) :
    ((rs.foldl mergeRange m).Pairwise fun q q' => q'.2 < q.1) ∧
      ∀ b, (∃ q ∈ rs.foldl mergeRange m, Within b q) ↔
        (∃ q ∈ m, Within b q) ∨ ∃ r ∈ rs, Within b r := by
  induction rs generalizing m with
  | nil => simpa using h
  | cons r rs ih =>
    obtain ⟨hr, hrs⟩ := pairwise_cons.1 hrs
    have hmerged : ∀ q ∈ m, q.1 ≤ r.1 := fun q hq => hstart q hq r mem_cons_self
    have hnext : ∀ q ∈ mergeRange m r, ∀ r' ∈ rs, q.1 ≤ r'.1 := fun q hq r' hr' => by
      rcases start_mergeRange hq with heq | ⟨q', hq', heq⟩
      · exact heq ▸ hr r' hr'
      · exact heq ▸ hstart q' hq' r' (mem_cons_of_mem _ hr')
    obtain ⟨hpair, hblocks⟩ := ih hrs hnext (pairwise_mergeRange hmerged h)
    refine ⟨hpair, fun b => (hblocks b).trans ?_⟩
    rw [exists_within_mergeRange hmerged]
    simp only [mem_cons, exists_eq_or_imp, or_assoc]

theorem normalizeRanges_spec (ranges : List (ℕ × ℕ)) (count : ℕ) :
    ((normalizeRanges ranges count).Pairwise fun q q' => q.2 < q'.1) ∧
      ∀ b < count, (∃ q ∈ normalizeRanges ranges count, Within b q) ↔ ∃ r ∈ ranges, Within b r := by
  unfold normalizeRanges
  split_ifs with hzero
  · exact ⟨.nil, fun b hb => absurd hb (by omega)⟩
  · have hsorted := pairwise_insertionSort (fun q q' : ℕ × ℕ => q.1 ≤ q'.1)
      (ranges.filterMap (clip (count - 1)))
    obtain ⟨hpair, hblocks⟩ := foldl_mergeRange (m := []) hsorted nofun .nil
    refine ⟨pairwise_reverse.2 hpair, fun b hb => ?_⟩
    simp only [mem_reverse, hblocks, mem_insertionSort, mem_filterMap]
    constructor
    · rintro (⟨q, hq, -⟩ | ⟨q, ⟨r, hr, hclip⟩, hq⟩)
      · cases hq
      · unfold clip at hclip
        split_ifs at hclip
        cases hclip
        exact ⟨r, hr, hq.1, hq.2.trans (min_le_left _ _)⟩
    · rintro ⟨r, hr, hle, hge⟩
      have hlast : b ≤ min r.2 (count - 1) := by omega
      exact .inr ⟨_, ⟨r, hr, if_pos (hle.trans hlast)⟩, hle, hlast⟩

end Ranges

section Safety

variable {ρ : Type} {ppr : ℕ} {key : ρ → Option I64} {s s' : State ρ} {b : Scan.State (Placed ρ)}
  {a : Scan.Act (Placed ρ)} {x y z n : ℕ} {c : Client} {v v' : Tuple (Placed ρ)} {k : I64} {j : Job}

/-! ## Orderly runs -/

/-- Everybody but the transaction has ended, before its snapshot. -/
def Alone (t : Timeline.State) (x : ℕ) : Prop :=
  ∀ c ∈ t.clients.lookup x, ∀ z ∈ t.clients.keys, z = x ∨
    (t.clients.lookup z).any (·.phase = .aborted) = true ∨ CommittedBy t c.view z

instance (t : Timeline.State) (x : ℕ) : Decidable (Alone t x) := by
  unfold Alone
  infer_instance

/-- Snapshots are taken at a clear moment. -/
def Timed (s : State ρ) : Act ρ → Prop
  | .base a => Scan.Timed s.base a
  | .vacuum _ _ xmax => s.base.txn.Clear xmax
  | _ => True

instance instDecidableRelTimed : DecidableRel (Timed : State ρ → Act ρ → Prop) := fun s a => by
  unfold Timed
  split <;> infer_instance

/-- **A version that keeps its key stays in its block range, and VACUUM is alone** when it clears
the summaries, with all blocks counted. -/
def Orderly (ppr : ℕ) (key : ρ → Option I64) (s : State ρ) : Act ρ → Prop
  | .base (.update _ n _ p) => ∀ v ∈ s.base.tuples[n]?, key v.row.row = key p.row →
      key p.row ≠ none → p.block / ppr = v.row.block / ppr
  | .vacuum session .. => s.count session = some 0 → s.base.tuples.isEmpty = true
  | .clear x =>
    match s.job x with
    | .vacuum blocks => (∀ v ∈ s.base.tuples, v.row.block < blocks) ∧ Alone s.base.txn x
    | _ => True
  | _ => True

instance : DecidableRel (Orderly ppr key : State ρ → Act ρ → Prop) := fun s a => by
  unfold Orderly
  split
  · infer_instance
  · infer_instance
  · split <;> infer_instance
  · infer_instance

/-- No VACUUM is between the clearing of the summaries and its end, and none has failed there. -/
def Summarized (s : State ρ) : Prop :=
  s.broken = false ∧ ∀ y ∈ s.base.txn.clients.keys, (s.job y matches .summarizing _) = false

instance (s : State ρ) : Decidable (Summarized s) := by
  unfold Summarized
  infer_instance

/-! ## The invariant -/

/-- Why a version is not lost. -/
inductive Counted (ppr : ℕ) (key : ρ → Option I64) (s : State ρ) (v : Tuple (Placed ρ)) (k : I64) :
    Prop
  | covered (h : Covers ppr s.summaries (encodeI64Key k) v.row.block)
  | adding (h : s.job v.header.xmin = .adding k v.row.block)
    (hnow : ∀ c, s.base.txn.clients.lookup v.header.xmin = some c →
      c.handle.currentCommand ≤ v.header.cmin)
  /-- nobody sees it any more -/
  | gone (hx : v.header.xmax ≠ 0) (h : Settled s.base.txn v.header.del)
  /-- VACUUM is going to look at a version with this key in the block range -/
  | promised (y : ℕ) (c : Client) (todo : List ℕ) (m : ℕ) (w : Tuple (Placed ρ))
    (hy : s.job y = .summarizing todo) (hc : s.base.txn.clients.lookup y = some c) (hm : m ∈ todo)
    (hw : s.base.tuples[m]? = some w) (hk : key w.row.row = some k)
    (hblock : w.row.block / ppr = v.row.block / ppr)
    (hseen : (isVisible w.header c.handle.snapshot s.base.txn.mgr.status).isSeen = true)

/-- Another version with the key in the block range. -/
theorem Counted.moved (h : Counted ppr key s v k) (hblock : v'.row.block / ppr = v.row.block / ppr)
    (hadd : s.job v.header.xmin ≠ .adding k v.row.block)
    (hset : ¬ Settled s.base.txn v.header.del) : Counted ppr key s v' k := by
  cases h with
  | covered h =>
    refine .covered ?_
    unfold Covers
    rw [hblock]
    exact h
  | adding h => exact absurd h hadd
  | gone _ h => exact absurd h hset
  | promised y c todo m w hy hc hm hw hk hb hseen =>
    exact .promised y c todo m w hy hc hm hw hk (hb.trans hblock.symm) hseen

/-- The transaction has written to the table. -/
def Stamped (ts : List (Tuple (Placed ρ))) (z : ℕ) : Prop :=
  ∃ v ∈ ts, v.header.xmin = z ∨ v.header.xmax = z

structure Inv (ppr : ℕ) (key : ρ → Option I64) (s : State ρ) : Prop where
  table : TableInv s.base.txn s.base.tuples
  aligned : ∀ r ∈ s.summaries, r.lastBlock = r.firstBlock + ppr - 1
  busy : ∀ y, s.job y ≠ .idle → ∃ c, s.base.txn.clients.lookup y = some c ∧ c.phase = .running
  reader : ∀ y blocks, s.job y = .vacuum blocks → ¬ Stamped s.base.tuples y
  counted : s.broken = false → ∀ (n : ℕ) v k, s.base.tuples[n]? = some v →
    key v.row.row = some k → ¬ Undone s.base.txn v.header.xmin → Counted ppr key s v k

theorem inv_init : Inv ppr key ({} : State ρ) where
  table := tableInv_init
  aligned := nofun
  busy _ h := absurd rfl h
  reader _ _ h := by cases h
  counted _ _ _ _ hv := by cases hv

/-! ## Statements -/

theorem table_of_step {key : Placed ρ → Option I64} {s : Scan.State (Placed ρ)}
    (ht : Scan.Timed s a) (h : Scan.step key s a = some b) :
    TableStep s.txn s.tuples b.txn b.tuples := by
  cases Scan.spec_of_step h with
  | time hb hb' => exact .time hb ht hb'
  | insert hc hp row => exact .insert hc hp row
  | update hc hp hv hw hot row => exact .update hc hp hv hw hot row
  | delete hc hp hv hw => exact .delete hc hp hv hw
  | clear hc hp hv hx => exact .clear hc hp hv hx
  | visit hv => exact .visit hv

/-- What every snapshot sees, it sees after a step. -/
theorem settled_table {t t' : Timeline.State} {ts ts' : List (Tuple (Placed ρ))} {st : Heap.Stamp}
    (hi : TableInv t ts) (hs : Settled t st) (h : TableStep t ts t' ts') : Settled t' st := by
  cases h with
  | keep | insert | update | delete | clear => exact hs
  | time hb ht h => exact hs.step hi.txn ht h
  | visit hv =>
    obtain ⟨c, p, todo, hc, rfl, hp⟩ := Timeline.nextVisit_eq_some hv
    exact hs.visit hc hp.status (Heap.not_committed_of_visit hp)

/-- A stamp comes from before or is of the transaction that works. -/
theorem stamped_of_step {key : Placed ρ → Option I64} {s : Scan.State (Placed ρ)}
    (hi : TableInv s.txn s.tuples) (h : Scan.step key s a = some b) (hz : z ≠ 0)
    (hst : Stamped b.tuples z) : Stamped s.tuples z ∨ worker a = some z := by
  obtain ⟨v', hv', hst⟩ := hst
  have hset : ∀ {m u u'}, s.tuples[m]? = some u → v' ∈ s.tuples.set m u' →
      (u'.header.xmin = z ∨ u'.header.xmax = z →
        Stamped s.tuples z ∨ worker a = some z) → Stamped s.tuples z ∨ worker a = some z := by
    intro m u u' hu hmem hnew
    rcases mem_or_eq_of_mem_set hmem with hmem | rfl
    · exact .inl ⟨v', hmem, hst⟩
    · exact hnew hst
  cases Scan.spec_of_step h with
  | time | visit => exact .inl ⟨v', hv', hst⟩
  | @insert x c hc hp row =>
    rcases mem_append.1 hv' with hv' | hv'
    · exact .inl ⟨v', hv', hst⟩
    · obtain rfl := mem_singleton.1 hv'
      exact .inr (congrArg some ((writeXid_eq hi.solo hc).symm.trans (hst.resolve_right hz.symm)))
  | @update x m c u hc hp hu hw hot row =>
    rcases mem_append.1 hv' with hv' | hv'
    · refine hset hu hv' fun h => h.imp (fun h => ⟨u, mem_of_getElem? hu, .inl h⟩) fun h => ?_
      exact congrArg some ((writeXid_eq hi.solo hc).symm.trans h)
    · obtain rfl := mem_singleton.1 hv'
      exact .inr (congrArg some ((writeXid_eq hi.solo hc).symm.trans (hst.resolve_right hz.symm)))
  | @delete x m c u hc hp hu hw =>
    refine hset hu hv' fun h => h.imp (fun h => ⟨u, mem_of_getElem? hu, .inl h⟩) fun h => ?_
    exact congrArg some ((writeXid_eq hi.solo hc).symm.trans h)
  | @clear x m w c u todo hc hp hu hx =>
    exact hset hu hv' fun h => .inl ⟨u, mem_of_getElem? hu, .inl (h.resolve_right hz.symm)⟩

/-- The others do not touch a transaction that runs. -/
theorem lookup_of_step {key : Placed ρ → Option I64} {s : Scan.State (Placed ρ)}
    (hi : TableInv s.txn s.tuples) (h : Scan.step key s a = some b)
    (hc : s.txn.clients.lookup y = some c) (hp : c.phase = .running) (hy : worker a ≠ some y) :
    b.txn.clients.lookup y = some c := by
  cases Scan.spec_of_step h with
  | time hb ht => exact hi.txn.lookup_of_session_ne ht hy hc
  | insert | update | delete | clear => exact hc
  | visit hv => exact Timeline.lookup_of_visit hv hc hp

theorem job_of_allowed (ha : allowed s.job a = true) (hx : worker a = some x) :
    s.job x = .idle ∨ (∃ k block, s.job x = .adding k block) ∧ a = .txn (.rollback x) := by
  simp only [allowed, hx, Option.all_some] at ha
  split at ha
  · rename_i h
    exact .inl h
  · rename_i k block h
    split at ha
    · cases hx
      exact .inr ⟨⟨k, block, h⟩, rfl⟩
    · cases ha
  · cases ha
  · cases ha

theorem queue_of_ne (hy : worker a ≠ some y) : s.queue key a y = s.job y := by
  have hne : ∀ {x}, worker a = some x → y ≠ x := fun hx hyx =>
    hy (hx.trans (congrArg some hyx.symm))
  unfold State.queue
  split
  · exact update_of_ne (hne rfl) _ _
  · split_ifs
    · rfl
    · exact update_of_ne (hne rfl) _ _
  · exact update_of_ne (hne rfl) _ _
  · rfl

/-- A step leaves no VACUUM to its worker. -/
theorem queue_worker (key : ρ → Option I64) (ha : allowed s.job a = true) (hx : worker a = some x) :
    s.queue key a x = .idle ∨ (∃ k block, s.queue key a x = .adding k block) ∧
      ∀ b, a ≠ .txn b := by
  have hkey : ∀ o block, Job.ofKey o block = .idle ∨
      ∃ k block', Job.ofKey o block = .adding k block' := by
    intro o block
    cases o with
    | none => exact .inl rfl
    | some k => exact .inr ⟨k, block, rfl⟩
  have hjob := job_of_allowed ha hx
  unfold State.queue
  split
  · cases hx
    rw [update_self]
    exact (hkey _ _).imp_right fun h => ⟨h, nofun⟩
  · cases hx
    split_ifs
    · exact .inl (hjob.resolve_right fun h => nomatch h.2)
    · rw [update_self]
      exact (hkey _ _).imp_right fun h => ⟨h, nofun⟩
  · cases hx
    exact .inl (update_self _ _ _)
  · rename_i hroll
    exact .inl (hjob.resolve_right fun h => hroll _ h.2)

/-! ## Every step keeps the invariant -/

namespace Inv

variable (hi : Inv ppr key s)

include hi

theorem nonzero (hy : s.job y ≠ .idle) : y ≠ 0 := by
  obtain ⟨c, hc, -⟩ := hi.busy y hy
  exact hi.table.txn.ne_zero hc

/-- A version that was there before a statement is not lost. -/
theorem counted_kept (ht : Scan.Timed s.base a) (ha : allowed s.job a = true)
    (h : Scan.step (fun p => key p.row) s.base a = some b) (hk : Kept s.base.txn v v')
    (hc : Counted ppr key s v k) (hu : ¬ Undone b.txn v'.header.xmin) :
    Counted ppr key { s with base := b, job := s.queue key a } v' k := by
  have hstep := table_of_step ht h
  cases hc with
  | covered hcov =>
    refine .covered ?_
    rw [hk.row]
    exact hcov
  | adding hj hnow =>
    rw [hk.xmin_eq] at hu
    have hne : worker a ≠ some v.header.xmin := fun hx => hu <| by
      rcases job_of_allowed ha hx with hidle | ⟨-, rfl⟩
      · cases hidle.symm.trans hj
      · cases Scan.spec_of_step h with
        | time hb ht =>
          obtain ⟨d, d', -, ⟨-, todo, hp⟩, hlook⟩ := hi.table.txn.step_session ht rfl
          exact ⟨d', (hlook _).trans (if_pos rfl), .inr ⟨todo, hp⟩⟩
    refine .adding ?_ fun c' hc' => ?_
    · rw [hk.xmin_eq, hk.row]
      exact (queue_of_ne hne).trans hj
    · rw [hk.xmin_eq] at hc'
      obtain ⟨c, hc, hp⟩ := hi.busy _ (by rw [hj]; nofun)
      obtain rfl := Option.mem_unique (lookup_of_step hi.table h hc hp hne) hc'
      exact (hnow c hc).trans_eq (congrArg Heap.Stamp.command hk.ins).symm
  | gone hx hset =>
    have hcom : Committed s.base.txn v.header.xmax := by
      obtain ⟨d, -, hd, hp, -⟩ := hset
      exact ⟨d, hd, hp⟩
    refine .gone ?_ ?_ <;> rw [hk.header_eq hx hcom]
    · exact hx
    · exact settled_table hi.table hset hstep
  | promised y c todo m w hy hc hm hw hkey hblock hseen =>
    have hne : worker a ≠ some y := fun hx => by
      rcases job_of_allowed ha hx with hidle | ⟨⟨_, _, hj⟩, -⟩
      · cases hidle.symm.trans hy
      · cases hj.symm.trans hy
    obtain ⟨d, hd, hp⟩ := hi.busy y (by rw [hy]; nofun)
    obtain rfl := Option.mem_unique hc hd
    have hc' := lookup_of_step hi.table h hc hp hne
    obtain ⟨w', hw', hkw⟩ := hi.table.kept hstep hw
    refine .promised y c todo m w' ((queue_of_ne hne).trans hy) hc' hm hw' (hkw.row ▸ hkey) ?_
      ((hi.table.isSeen_step hstep hc hc' hp hw').2 ⟨w, hw, hkw.row.symm, hseen⟩)
    rw [hkw.row, hk.row]
    exact hblock

/-- A transaction whose key is not added is not the one whose version is written over. -/
theorem not_adding (hc : s.base.txn.clients.lookup x = some c) (hp : c.phase = .running)
    (hjob : s.job x = .idle) (hv : s.base.tuples[n]? = some v)
    (hw : writable s.base.txn c v.header = true) : s.job v.header.xmin = .idle := by
  by_contra hbusy
  obtain ⟨d, hd, hdp⟩ := hi.busy _ hbusy
  have hins := (hi.table.header n v hv).inserted
  cases (over_of_writable hi.table.txn hi.table.solo hc hp hins hw).2.2 with
  | own ho =>
    obtain rfl : x = v.header.xmin := ho
    exact hbusy hjob
  | seen d' e hd' hcom =>
    exact not_committed_of_running hd hdp ⟨d', hd', hcom⟩

theorem base (ht : Scan.Timed s.base a) (ha : allowed s.job a = true)
    (hord : Orderly ppr key s (.base a)) (h : Scan.step (fun p => key p.row) s.base a = some b) :
    Inv ppr key { s with base := b, job := s.queue key a } := by
  have hstep := table_of_step ht h
  have hsame : ∀ {y}, s.queue key a y ≠ .idle → worker a ≠ some y →
      ∃ c, b.txn.clients.lookup y = some c ∧ c.phase = .running := fun {y} hy hne => by
    rw [queue_of_ne hne] at hy
    obtain ⟨c, hc, hp⟩ := hi.busy y hy
    exact ⟨c, lookup_of_step hi.table h hc hp hne, hp⟩
  have hold : s.broken = false → ∀ {m u u' k}, s.base.tuples[m]? = some u →
      Kept s.base.txn u u' → key u.row.row = some k → ¬ Undone b.txn u'.header.xmin →
      Counted ppr key { s with base := b, job := s.queue key a } u' k :=
    fun hb {m u u' k} hu hkept hk hund => by
      refine hi.counted_kept ht ha h hkept (hi.counted hb m u k hu hk fun hu => hund ?_) hund
      exact hkept.xmin_eq ▸ hu.mono (hi.table.ages hstep)
  refine ⟨hi.table.step hstep, hi.aligned, fun y hy => ?_, fun y blocks hy hst => ?_,
    fun hwhole n v' k hv' hk hu => ?_⟩
  · by_cases hne : worker a = some y
    · obtain ⟨-, hact⟩ := (queue_worker key ha hne).resolve_left hy
      cases Scan.spec_of_step h with
      | time => exact absurd rfl (hact _)
      | insert hc hp | update hc hp | delete hc hp =>
        cases hne
        exact ⟨_, hc, hp⟩
      | clear | visit => cases hne
    · exact hsame hy hne
  · have hne : worker a ≠ some y := fun hx => by
      rcases queue_worker key ha hx with hidle | ⟨⟨_, _, hadd⟩, -⟩
      · cases hidle.symm.trans hy
      · cases hadd.symm.trans hy
    have hy' : s.job y = .vacuum blocks := (queue_of_ne hne).symm.trans hy
    have hy0 := hi.nonzero (y := y) (by rw [hy']; nofun)
    exact hi.reader y blocks hy' ((stamped_of_step hi.table h hy0 hst).resolve_right hne)
  · rcases hi.table.old_or_new hstep hv' with ⟨v, hv, hkept⟩ | hnew
    · exact hold hwhole hv hkept (hkept.row ▸ hk) hu
    · have hlt := lt_length hv'
      cases Scan.spec_of_step h with
      | time | visit => exact absurd hlt hnew.not_gt
      | delete | clear => exact absurd (hlt.trans_eq length_set) hnew.not_gt
      | @insert x c hc hp p =>
        rcases getElem?_append_singleton hv' with hv' | ⟨rfl, rfl⟩
        · exact absurd (lt_length hv') hnew.not_gt
        · have hwx := writeXid_eq hi.table.solo hc
          refine .adding ?_ fun d hd => ?_
          · show update s.job x _ c.handle.writeXid = _
            rw [hwx, update_self, hk]
            rfl
          · obtain rfl := Option.mem_unique hc (hwx ▸ hd)
            exact le_rfl
      | @update x m c u hc hp hum hw hot p =>
        have hwx := writeXid_eq hi.table.solo hc
        rcases getElem?_append_singleton hv' with hv' | ⟨rfl, rfl⟩
        · exact absurd ((lt_length hv').trans_eq length_set) hnew.not_gt
        · have hjob : s.job x = .idle :=
            (job_of_allowed ha rfl).resolve_right fun h => nomatch h.2
          by_cases hkey : key u.row.row = key p.row
          · have hund := not_undone_of_writable hi.table.txn hi.table.solo hc hp
              (hi.table.header m u hum).inserted hw
            have hblock := hord u hum hkey (by rw [hk]; nofun)
            have hkept : Kept s.base.txn u (u.superseded hot c.handle.writeXid
                c.handle.currentCommand s.base.tuples.length) :=
              ⟨rfl, rfl, fun h => absurd (xmax_of_writable hw) h⟩
            refine (hold hwhole hum hkept (hkey.trans hk) hund).moved hblock (fun hadd => ?_)
              fun hset => ?_
            · have hqueue : s.queue key (.update x m hot p) = s.job :=
                if_pos (by rw [hum, ← hkey]; rfl)
              rw [hqueue] at hadd
              exact absurd ((hi.not_adding hc hp hjob hum hw).symm.trans hadd) nofun
            · refine hset.owner_ne hc ?_ hwx
              rw [hp]
              rfl
          · refine .adding ?_ fun d hd => ?_
            · show s.queue key (.update x m hot p) c.handle.writeXid = _
              rw [State.queue, if_neg, hwx, update_self, hk]
              · rfl
              · rw [hum]
                exact fun h => hkey (Option.some.inj h)
            · obtain rfl := Option.mem_unique hc (hwx ▸ hd)
              exact le_rfl

variable {count : ℕ → Option ℕ}

theorem busy_setJob
    (h : j ≠ .idle → ∃ c, s.base.txn.clients.lookup x = some c ∧ c.phase = .running) :
    ∀ y, (s.setJob x j).job y ≠ .idle →
      ∃ c, s.base.txn.clients.lookup y = some c ∧ c.phase = .running :=
  (forall_update_iff s.job fun _ j => j ≠ .idle → _).2 ⟨h, fun y _ => hi.busy y⟩

theorem reader_setJob (h : ∀ blocks, j = .vacuum blocks → ¬ Stamped s.base.tuples x) :
    ∀ y blocks, (s.setJob x j).job y = .vacuum blocks → ¬ Stamped s.base.tuples y :=
  (forall_update_iff s.job fun _ j => ∀ blocks, j = .vacuum blocks → _).2
    ⟨h, fun y _ => hi.reader y⟩

/-- Keys come to the summaries, and nothing is lost that was promised. -/
theorem grown {summaries : List Summary}
    (halign : ∀ r ∈ summaries, r.lastBlock = r.firstBlock + ppr - 1)
    (hcov : ∀ {k block}, Covers ppr s.summaries k block → Covers ppr summaries k block)
    (hbusy : j ≠ .idle → ∃ c, s.base.txn.clients.lookup x = some c ∧ c.phase = .running)
    (hreader : ∀ blocks, j = .vacuum blocks → ¬ Stamped s.base.tuples x)
    (hadd : ∀ k block, s.job x = .adding k block → Covers ppr summaries (encodeI64Key k) block)
    (hkept : ∀ c todo m w k, s.job x = .summarizing todo → s.base.txn.clients.lookup x = some c →
      m ∈ todo → s.base.tuples[m]? = some w → key w.row.row = some k →
      (isVisible w.header c.handle.snapshot s.base.txn.mgr.status).isSeen = true →
      Covers ppr summaries (encodeI64Key k) w.row.block ∨
        ∃ todo', j = .summarizing todo' ∧ m ∈ todo') :
    Inv ppr key { s.setJob x j with summaries := summaries, count := count } := by
  have hother : ∀ {y}, y ≠ x → update s.job x j y = s.job y := fun hy =>
    update_of_ne hy _ _
  refine ⟨hi.table, halign, hi.busy_setJob hbusy, hi.reader_setJob hreader,
    fun hb n v k hv hk hu => ?_⟩
  cases hi.counted hb n v k hv hk hu with
  | covered h => exact .covered (hcov h)
  | adding h hnow =>
    by_cases hx : v.header.xmin = x
    · exact .covered (hadd k _ (hx ▸ h))
    · exact .adding ((hother hx).trans h) hnow
  | gone hx h => exact .gone hx h
  | promised y c todo m w hy hc hm hw hkw hblock hseen =>
    by_cases hyx : y = x
    · subst hyx
      rcases hkept c todo m w k hy hc hm hw hkw hseen with h | ⟨todo', hj, hm'⟩
      · refine .covered ?_
        unfold Covers
        rw [← hblock]
        exact h
      · exact .promised y c todo' m w ((update_self _ _ _).trans hj) hc hm' hw hkw hblock hseen
    · exact .promised y c todo m w ((hother hyx).trans hy) hc hm hw hkw hblock hseen

/-- The key of the row that was written last comes to the index. -/
theorem add {block : ℕ} (hj : s.job x = .adding k block) :
    Inv ppr key { s.setJob x .idle with
      summaries := insert ppr s.summaries (encodeI64Key k) block } := by
  obtain ⟨hnew, -, halign⟩ := insert_spec ppr s.summaries (encodeI64Key k) block
  refine hi.grown (halign hi.aligned) (fun h => h.insert _ _) (fun h => absurd rfl h) nofun ?_ ?_
  · intro k' block' h
    cases hj.symm.trans h
    exact hnew
  · intro c todo m w k' h
    cases hj.symm.trans h

theorem next {m : ℕ} {todo : List ℕ} (hj : s.job x = .summarizing (m :: todo))
    (hc : s.base.txn.clients.lookup x = some c) (hv : s.base.tuples[m]? = some v) :
    Inv ppr key { s.setJob x (.summarizing todo) with
      summaries := s.summarize ppr key v c.handle.snapshot } := by
  have hspec : (∀ r ∈ s.summarize ppr key v c.handle.snapshot,
        r.lastBlock = r.firstBlock + ppr - 1) ∧
      (∀ {k block}, Covers ppr s.summaries k block →
        Covers ppr (s.summarize ppr key v c.handle.snapshot) k block) ∧
      ∀ k, key v.row.row = some k →
        (isVisible v.header c.handle.snapshot s.base.txn.mgr.status).isSeen = true →
        Covers ppr (s.summarize ppr key v c.handle.snapshot) (encodeI64Key k) v.row.block := by
    unfold State.summarize
    split
    · rename_i k hk
      obtain ⟨hnew, -, halign⟩ := insert_spec ppr s.summaries (encodeI64Key k) v.row.block
      split_ifs with hseen
      · refine ⟨halign hi.aligned, fun h => h.insert _ _, fun k' hk' _ => ?_⟩
        cases hk.symm.trans hk'
        exact hnew
      · exact ⟨hi.aligned, fun h => h, fun _ _ h => absurd h hseen⟩
    · rename_i hk
      exact ⟨hi.aligned, fun h => h, fun _ h => nomatch hk.symm.trans h⟩
  obtain ⟨halign, hcov, hnew⟩ := hspec
  refine hi.grown halign hcov (fun _ => hi.busy x (by rw [hj]; nofun)) nofun (fun _ _ h => ?_) ?_
  · cases hj.symm.trans h
  · intro d todo₀ i w k h hd hi' hw hk hseen
    cases hj.symm.trans h
    obtain rfl := Option.mem_unique hc hd
    rcases mem_cons.1 hi' with rfl | hmem
    · obtain rfl := Option.mem_unique hv hw
      exact .inl (hnew k hk hseen)
    · exact .inr ⟨todo, rfl, hmem⟩

theorem begin {blocks xmax : ℕ} {t : Timeline.State} (hclear : s.base.txn.Clear xmax)
    (ht : Timeline.step s.base.txn (.begin x .readCommitted xmax) = some t) :
    Inv ppr key { s.setJob x (.vacuum blocks) with
      base := { s.base with txn := t }
      count := count } := by
  have hlast := hi.base (a := .txn (.begin x .readCommitted xmax))
    (b := { s.base with txn := t }) (decide_eq_true hclear) rfl trivial
    (by simp [Scan.step, Timeline.Act.plain, ht])
  obtain ⟨t₁, ht₁, rfl⟩ := hi.table.txn.step_cases ht
  cases ht₁ with
  | begin _ hready =>
    have hnew : ∀ c, s.base.txn.clients.lookup x ≠ some c := fun c hc =>
      hi.table.txn.ready_ne hready hc rfl
    have hidle : s.job x = .idle := by
      by_contra hbusy
      obtain ⟨c, hc, -⟩ := hi.busy _ hbusy
      exact hnew c hc
    have hfresh : ¬ Stamped s.base.tuples x := by
      rintro ⟨v, hv, rfl | rfl⟩ <;> obtain ⟨n, hn⟩ := mem_iff_getElem?.1 hv <;>
        have hh := hi.table.header n v hn
      · obtain ⟨d, hd, -⟩ := hh.inserted.held
        exact hnew d hd
      · have hpos := (hi.table.txn.pending _ (.inr hready)).range.1
        obtain ⟨d, hd, -⟩ := hh.held (by omega)
        exact hnew d hd
    refine hlast.grown hi.aligned (fun h => h) (fun _ => ?_) (fun _ _ => hfresh) ?_ ?_
    · exact ⟨_, (Timeline.lookup_setClient s.base.txn _ _ _).trans (if_pos rfl), rfl⟩
    · exact fun _ _ h => by cases hidle.symm.trans h
    · exact fun _ _ _ _ _ h => by cases hidle.symm.trans h
  | savepoint ha => obtain ⟨_, _, ha⟩ | ⟨_, ha⟩ := ha <;> cases ha
  | close ha => obtain ⟨ha, -⟩ | ⟨ha, -⟩ := ha <;> cases ha

/-- **VACUUM clears the summaries**, and its snapshot sees all that anybody can see. -/
theorem clear {blocks : ℕ} (hj : s.job x = .vacuum blocks)
    (hblocks : ∀ v ∈ s.base.tuples, v.row.block < blocks) (halone : Alone s.base.txn x) :
    Inv ppr key
      { s.setJob x (.summarizing (s.positions blocks)) with summaries := [], broken := false } := by
  obtain ⟨c, hc, hp⟩ := hi.busy x (by rw [hj]; nofun)
  have hown := hi.reader x blocks hj
  have hended : ∀ {z d}, s.base.txn.clients.lookup z = some d → z ≠ x →
      d.phase = .aborted ∨ CommittedBy s.base.txn c.view z := fun {z d} hd hne => by
    have hz : z ∈ s.base.txn.clients.keys := AList.mem_keys.1 (AList.lookup_isSome.1 (by simp [hd]))
    rcases (halone c hc z hz).resolve_left hne with h | h
    · rw [hd] at h
      exact .inl (by simpa using h)
    · exact .inr h
  refine ⟨hi.table, nofun, hi.busy_setJob fun _ => ⟨c, hc, hp⟩, hi.reader_setJob nofun,
    fun _ n v k hv hk hu => ?_⟩
  have hh := hi.table.header n v hv
  have hmem := mem_of_getElem? hv
  have hheld := hh.inserted.held
  obtain ⟨d, hd, -⟩ := id hheld
  have hne : v.header.xmin ≠ x := fun h => hown ⟨v, hmem, .inl h⟩
  obtain ⟨⟨d', hd', hcom⟩, e, he, hlt⟩ : CommittedBy s.base.txn c.view v.header.xmin :=
    (hended hd hne).resolve_left fun h => hu ⟨d, hd, .inl h⟩
  by_cases hx : v.header.xmax ≠ 0 ∧ CommittedBy s.base.txn c.view v.header.xmax
  · obtain ⟨hx, ⟨u, hu', hucom⟩, e', he', hlt'⟩ := hx
    refine .gone hx ⟨u, e', hu', hucom, (hh.held hx).own hi.table.solo hi.table.txn hu', he',
      fun y w hw hopen => ?_⟩
    by_cases hyx : y = x
    · subst hyx
      obtain rfl := Option.mem_unique hc hw
      exact hlt'
    · rcases hended hw hyx with h | ⟨⟨w', hw', h⟩, -⟩
      · rw [h] at hopen
        cases hopen
      · obtain rfl := Option.mem_unique hw hw'
        rw [h] at hopen
        cases hopen
  · refine .promised x c _ n v (update_self _ _ _) hc ?_ hv hk rfl ?_
    · have hv₀ : s.base.tuples[n]? = some v := hv
      refine mem_filter.2 ⟨mem_range.2 (lt_length hv), ?_⟩
      rw [hv₀]
      exact decide_eq_true (hblocks v hmem)
    · refine (hi.table.isSeen_iff hc hp hv).2 ⟨(sees_foreign hc hd' hne).2
        ⟨hcom, hheld.own hi.table.solo hi.table.txn hd', e, he, hlt⟩,
        fun ⟨hx', hsees⟩ => hx ⟨hx', ?_⟩⟩
      have hne' : v.header.xmax ≠ x := fun h => hown ⟨v, hmem, .inr h⟩
      obtain ⟨u, hu', -⟩ := hh.held hx'
      obtain ⟨hucom, -, hend⟩ := (sees_foreign hc hu' hne').1 hsees
      exact ⟨⟨u, hu', hucom⟩, hend⟩

theorem recount (count : ℕ → Option ℕ) : Inv ppr key { s with count := count } := by
  refine ⟨hi.table, hi.aligned, hi.busy, hi.reader, fun hb n v k hv hk hu => ?_⟩
  cases hi.counted hb n v k hv hk hu with
  | covered h => exact .covered h
  | adding h hnow => exact .adding h hnow
  | gone hx h => exact .gone hx h
  | promised y c todo m w hy hc hm hw hkw hblock hseen =>
    exact .promised y c todo m w hy hc hm hw hkw hblock hseen

theorem step {a : Act ρ} (ht : Timed s a) (hord : Orderly ppr key s a)
    (h : Brin.step ppr key s a = some s') : Inv ppr key s' := by
  cases a with simp only [Brin.step] at h
  | base a =>
    split_ifs at h with ha
    obtain ⟨b, hb, rfl⟩ := Option.map_eq_some_iff.1 h
    exact hi.base ht ha hord hb
  | add x =>
    split at h <;> cases h
    rename_i k block hj
    exact hi.add hj
  | count session =>
    cases h
    exact hi.recount _
  | vacuum session x xmax =>
    split at h
    · rename_i hcount
      cases h
      have hempty : s.base.tuples = [] := isEmpty_iff.1 (hord hcount)
      refine ⟨hi.table, forall_mem_nil _, hi.busy, hi.reader, fun _ n v k hv => ?_⟩
      rw [hempty] at hv
      cases hv
    · obtain ⟨t, ht', rfl⟩ := Option.map_eq_some_iff.1 h
      exact hi.begin ht ht'
    · cases h
  | clear x =>
    split at h <;> cases h
    rename_i blocks hj
    simp only [Orderly, hj] at hord
    exact hi.clear hj hord.1 hord.2
  | next x =>
    split at h
    · rename_i hj
      cases h
      refine hi.grown hi.aligned (fun h => h) (fun h => absurd rfl h) (by simp) (fun _ _ h => ?_) ?_
      · cases hj.symm.trans h
      · intro c todo m w k h _ hm
        cases hj.symm.trans h
        cases hm
    · rename_i m todo hj
      split at h <;> cases h
      rename_i c v hc hv
      exact hi.next hj (running_eq_some.1 hc).1 hv
    · cases h
  | fail x =>
    split at h <;> cases h
    refine ⟨hi.table, hi.aligned, hi.busy_setJob fun h => absurd rfl h,
      hi.reader_setJob fun _ h => ?_, fun h => ?_⟩ <;> cases h

end Inv

/-! ## Scans -/

theorem lt_blockCount {ts : List (Tuple (Placed ρ))} (hv : v ∈ ts) :
    v.row.block < blockCount ts := by
  induction ts with
  | nil => cases hv
  | cons u ts ih =>
    show _ < max _ (blockCount ts)
    rcases mem_cons.1 hv with rfl | hv
    · omega
    · have := ih hv
      omega

/-- **A scan of candidate ranges reads the visible rows in them, each once.** -/
theorem scanCandidateRanges_perm (ts : List (Tuple (Placed ρ))) (ranges : List (ℕ × ℕ))
    (snapshot : Snapshot) (oracle : Oracle) :
    (scanCandidateRanges ts ranges snapshot oracle).Perm
      ((ts.filter fun v => (ranges.any fun r => decide (Within v.row.block r)) &&
        (isVisible v.header snapshot oracle).isSeen).map (·.row)) := by
  obtain ⟨hpair, hblocks⟩ := normalizeRanges_spec ranges (blockCount ts)
  rw [scanCandidateRanges, ← map_flatMap]
  refine ((flatMap_filter_any_perm ts ?_).trans (.of_eq (filter_congr fun v hv => ?_))).map _
  · refine hpair.imp fun hlt v hv => ?_
    rw [← Bool.not_eq_true]
    simp only [Bool.and_eq_true, decide_eq_true_eq] at hv ⊢
    omega
  · have hany := hblocks v.row.block (lt_blockCount hv)
    rw [Bool.eq_iff_iff]
    simp only [any_eq_true, Bool.and_eq_true, decide_eq_true_eq]
    constructor
    · rintro ⟨q, hq, hin, hseen⟩
      exact ⟨hany.1 ⟨q, hq, hin⟩, hseen⟩
    · rintro ⟨hr, hseen⟩
      obtain ⟨q, hq, hin⟩ := hany.2 hr
      exact ⟨q, hq, hin, hseen⟩

/-- **A visible row is in the summary of its range.** -/
theorem Inv.covers (hi : Inv ppr key s) (hsum : Summarized s)
    (hc : s.base.txn.clients.lookup x = some c) (hp : c.phase = .running)
    (hv : s.base.tuples[n]? = some v) (hk : key v.row.row = some k)
    (hseen : (isVisible v.header c.handle.snapshot s.base.txn.mgr.status).isSeen = true) :
    Covers ppr s.summaries (encodeI64Key k) v.row.block := by
  obtain ⟨hins, hdel⟩ := (hi.table.isSeen_iff hc hp hv).1 hseen
  have hund : ¬ Undone s.base.txn v.header.xmin := fun ⟨d, hd, hf⟩ => by
    have hgone : Heap.Gone s.base.txn v.header.ins := ⟨d, hd, .inr hf⟩
    rw [hgone.sees_eq_false hi.table.txn hc hp] at hins
    cases hins
  cases hi.counted hsum.1 n v k hv hk hund with
  | covered h => exact h
  | adding h hnow =>
    obtain ⟨d, hd, hdp⟩ := hi.busy _ (by rw [h]; nofun)
    by_cases hx : v.header.xmin = x
    · rw [Heap.sees_own hc hx] at hins
      exact absurd (hnow c (hx ▸ hc)) hins.2.not_ge
    · rw [sees_foreign hc hd hx, hdp] at hins
      cases hins.1
  | gone hx h =>
    refine absurd ⟨hx, h.sees hc ?_⟩ hdel
    rw [hp]
    rfl
  | promised y d todo m w hy hd =>
    have := hsum.2 y (AList.mem_keys.1 (AList.lookup_isSome.1 (by simp [hd])))
    rw [hy] at this
    cases this

/-- The summary of a key in the range makes its block range a candidate. -/
theorem exists_candidate (hi : Inv ppr key s) (hppr : 0 < ppr) {block : ℕ} {range : KeyRange}
    (h : Covers ppr s.summaries (encodeI64Key k) block) (hk : range.contains k = true) :
    ∃ r ∈ candidateRanges s.summaries (range.low.map encodeI64Key) (range.high.map encodeI64Key),
      Within block r := by
  obtain ⟨r, hr, hfirst, hmin, hmax⟩ := h
  obtain ⟨hlow, hhigh⟩ := Scan.KeyRange.contains_iff.1 hk
  refine ⟨(r.firstBlock, r.lastBlock), mem_map.2 ⟨r, mem_filter.2 ⟨hr, ?_⟩, rfl⟩, ?_, ?_⟩
  · simp only [Bool.and_eq_true, Option.all_eq_true, decide_eq_true_eq, Option.map_eq_some_iff]
    constructor
    · rintro _ ⟨low, hl, rfl⟩
      exact (encodeI64Key_le_iff.2 (hlow low hl)).trans hmax
    · rintro _ ⟨high, hh, rfl⟩
      exact hmin.trans (encodeI64Key_le_iff.2 (hhigh high hh))
  · show r.firstBlock ≤ block
    rw [hfirst]
    exact Nat.div_mul_le_self _ _
  · show block ≤ r.lastBlock
    rw [hi.aligned r hr, hfirst]
    have hdiv := Nat.div_add_mod' block ppr
    have hmod := Nat.mod_lt block hppr
    omega

/-- **A scan of the index returns what a sequential scan returns.** -/
theorem brinScan_perm_seqScan (hppr : 0 < ppr)
    (h : (machine ppr key).Reach (fun s a => Timed s a ∧ Orderly ppr key s a) s)
    (hsum : Summarized s) (hc : s.base.txn.clients.lookup x = some c) (hp : c.phase = .running)
    (range : KeyRange) :
    (brinScan key s.base.tuples s.summaries c.handle.snapshot s.base.txn.mgr.status range).Perm
      (seqScan (fun p => key p.row) s.base.tuples c.handle.snapshot s.base.txn.mgr.status
        range) := by
  have hi : Inv ppr key s := h.invariant inv_init fun _ _ _ _ hs hC hstep => hs.step hC.1 hC.2 hstep
  unfold brinScan
  split_ifs with hempty
  · rw [seqScan, filter_nil, filter_eq_nil_iff.2]
    intro p _
    simp [Scan.KeyRange.not_contains_of_isEmpty hempty, Option.any_eq_true]
  · refine ((scanCandidateRanges_perm _ _ _ _).filter _).trans (.of_eq ?_)
    simp only [seqScan, scanVisible, filter_map, filter_filter]
    refine congrArg _ (filter_congr fun v hv => ?_)
    obtain ⟨n, hn⟩ := mem_iff_getElem?.1 hv
    rw [Bool.eq_iff_iff]
    simp only [comp_apply, Bool.and_eq_true, any_eq_true, decide_eq_true_eq,
      Option.any_eq_true]
    refine ⟨fun h => ⟨h.1, h.2.2⟩, fun h => ⟨h.1, ?_, h.2⟩⟩
    obtain ⟨⟨k, hk, hin⟩, hseen⟩ := h
    exact exists_candidate hi hppr (hi.covers hsum hc hp hn hk hseen) hin

/-! ## Runs -/

/-- What a scan of the index and a sequential scan give a running transaction. -/
def State.compare (key : ρ → Option I64) (s : State ρ) (x : ℕ) (range : KeyRange) :
    Option (List (Placed ρ) × List (Placed ρ)) :=
  (running s.base.txn x).map fun c =>
    (brinScan key s.base.tuples s.summaries c.handle.snapshot s.base.txn.mgr.status range,
      seqScan (fun p => key p.row) s.base.tuples c.handle.snapshot s.base.txn.mgr.status range)

end Safety

open Scan (Pair)

def opening (x : ℕ) (isolation : IsolationLevel) : List (Act Pair) :=
  (Scan.opening x isolation).map .base

def insertRow (x block : ℕ) (row : Pair) : List (Act Pair) :=
  opening x .readCommitted ++ [.base (.insert x ⟨block, row⟩), .add x]

def commit (x : ℕ) : List (Act Pair) := [.base (.txn (.commit x))]

/-- VACUUM of a table with `n` tuples, up to its end. -/
def vacuum (x n : ℕ) : List (Act Pair) :=
  [.count 0, .base (.txn .allocate), .base (.txn (.publish x)), .vacuum 0 x (x + 1), .clear x] ++
    List.replicate (n + 1) (.next x)

/-- A row gets another key in another block range, VACUUM goes over the table, and the row is
updated once more with its key, beside a transaction that reads. -/
theorem scan_after_vacuum : ∃ s c,
    (machine 128 Pair.encode).Reach (fun s a => Timed s a ∧ Orderly 128 Pair.encode s a) s ∧
      Summarized s ∧ s.base.txn.clients.lookup 6 = some c ∧ c.phase = .running ∧
      (brinScan Pair.encode s.base.tuples s.summaries c.handle.snapshot s.base.txn.mgr.status
        ⟨none, none⟩).Perm (seqScan (fun p => Pair.encode p.row) s.base.tuples c.handle.snapshot
          s.base.txn.mgr.status ⟨none, none⟩) := by
  obtain ⟨s, hs, hrun, hsum⟩ := Machine.exists_reach_of_runIf (M := machine 128 Pair.encode)
    (C := fun s a => Timed s a ∧ Orderly 128 Pair.encode s a)
    (p := fun s => (running s.base.txn 6).isSome = true ∧ Summarized s)
    (insertRow 3 0 ⟨some 1, 10⟩ ++ commit 3 ++ opening 4 .readCommitted ++
      [.base (.update 4 0 false ⟨128, ⟨some 2, 11⟩⟩), .add 4] ++ commit 4 ++ vacuum 5 2 ++
      commit 5 ++ opening 6 .repeatableRead ++ opening 7 .readCommitted ++
      [.base (.update 7 1 false ⟨129, ⟨some 2, 12⟩⟩)] ++ commit 7)
    (by decide)
  obtain ⟨c, hc⟩ := Option.isSome_iff_exists.1 hrun
  obtain ⟨hc, hp⟩ := running_eq_some.1 hc
  exact ⟨s, c, hs, hsum, hc, hp, brinScan_perm_seqScan (by decide) hs hsum hc hp _⟩

/-- **A row that keeps its key is missed** when its new version goes to another block range. -/
theorem moved_row_is_missed : ∃ s, (machine 128 Pair.encode).Reach Timed s ∧
    s.compare Pair.encode 5 ⟨some (I64.ofInt32 1), some (I64.ofInt32 1)⟩ =
      some ([], [⟨128, ⟨some 1, 11⟩⟩]) :=
  Machine.exists_reach_of_runIf
    (insertRow 3 0 ⟨some 1, 10⟩ ++ commit 3 ++ opening 4 .readCommitted ++
      [.base (.update 4 0 false ⟨128, ⟨some 1, 11⟩⟩)] ++ commit 4 ++ opening 5 .readCommitted)
    (by decide)

/-- **VACUUM loses the row of a transaction that runs.** -/
theorem vacuum_loses_row : ∃ s, (machine 128 Pair.encode).Reach Timed s ∧
    s.compare Pair.encode 5 ⟨none, none⟩ = some ([], [⟨0, ⟨some 1, 10⟩⟩]) :=
  Machine.exists_reach_of_runIf
    (insertRow 3 0 ⟨some 1, 10⟩ ++ vacuum 4 1 ++ commit 4 ++ commit 3 ++
      opening 5 .readCommitted)
    (by decide)

end UltraSql.Index.Brin
