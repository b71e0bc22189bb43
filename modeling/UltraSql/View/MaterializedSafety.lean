import UltraSql.View.Materialized

/-!
# When a materialized view equals its query

A view has the first rows of its query, in the order of the pages. This stays so as long as rows
come to the end of that order: it is then the order of the COMMITs, the result of the query only
grows at its end, and what a snapshot shows of it is an initial part. One maintenance at a time then
adds what is missing.

`Orderly` says when: a row goes to the last page and while no other open transaction has rows in the
source, no ON CONFLICT changes a row, `materialized_rows` is loaded while no other maintenance is
between its load and its count, what is left of the query after so many rows is what a sequential
scan leaves, and no maintenance fails.

**Theorem (`view_eq_query`).** In every run whose steps are `Orderly`, and whose snapshots are taken
at a clear moment, the view has the rows of its query whenever no transaction and no maintenance is
running.

**Run (`row_is_counted_twice`).** Two sessions insert a row each, and the one that inserts first
commits last. The view has the row of the other one twice.

**Run (`row_with_a_smaller_key`).** The query goes through an index, and the row that is inserted
last comes first.
-/

namespace UltraSql.View

open List Function
open Timeline (Client Visit)
open Heap
open Index

variable {ρ : Type} {L : Layout ρ} {q : Plan ρ} {t t' : Timeline.State} {s s' : State ρ}
  {ts : List (Tuple (Placed ρ))} {v w : Tuple (Placed ρ)} {x y z k n e : ℕ} {c d : Client}

/-! ## Plans -/

theorem Plan.run_append (q : Plan ρ) (l l' : List ρ) : q.run (l ++ l') = q.run l ++ q.run l' := by
  induction q with
  | scan => rfl
  | filter predicate input ih => simp only [run, ih, filter_append]
  | project exprs input ih => simp only [run, ih, map_append]

theorem Plan.run_mono (q : Plan ρ) {l l' : List ρ} (h : l <+: l') : q.run l <+: q.run l' := by
  obtain ⟨r, rfl⟩ := h
  rw [run_append]
  exact prefix_append ..

/-- What comes later in a list does not pass the first filter without what comes before. -/
theorem filter_isPrefix {α : Type} {p r : α → Bool} {l : List α}
    (hpr : ∀ a, p a = true → r a = true)
    (h : l.Pairwise fun a b => p b = true → r a = true → p a = true) :
    l.filter p <+: l.filter r := by
  induction l with
  | nil => exact prefix_rfl
  | cons a l ih =>
    obtain ⟨ha, hl⟩ := pairwise_cons.1 h
    by_cases hp : p a = true
    · rw [filter_cons_of_pos hp, filter_cons_of_pos (hpr a hp), prefix_cons_inj]
      exact ih hl
    · by_cases hr : r a = true
      · have hnil : l.filter p = [] := filter_eq_nil_iff.2 fun b hb hpb => hp (ha b hb hpb hr)
        rw [filter_cons_of_neg hp, hnil]
        exact nil_prefix
      · rw [filter_cons_of_neg hp, filter_cons_of_neg hr]
        exact ih hl

/-! ## The order of the scan -/

/-- The tuples of the first pages, in the order of their pages. -/
theorem scanOrder_eq_filter (h : ts.Pairwise fun v w => v.row.block ≤ w.row.block) :
    scanOrder ts n = ts.filter (·.row.block < n) := by
  induction n with
  | zero => simp [scanOrder]
  | succ n ih =>
    rw [scanOrder, range_succ, flatMap_append, flatMap_singleton]
    change scanOrder ts n ++ onPage ts n = _
    rw [ih, onPage]
    clear ih
    induction ts with
    | nil => rfl
    | cons v ts ih =>
      obtain ⟨hv, hts⟩ := pairwise_cons.1 h
      simp only [filter_cons, decide_eq_true_eq]
      rcases lt_trichotomy v.row.block n with hlt | heq | hgt
      · rw [if_pos hlt, if_neg hlt.ne, if_pos (by omega), cons_append, ih hts]
      · -- the tuples after it are on this page or a later one
        have hnil : ts.filter (·.row.block < n) = [] :=
          filter_eq_nil_iff.2 fun w hw => by
            have := hv w hw
            simp only [decide_eq_true_eq]
            omega
        rw [if_neg heq.not_lt, if_pos heq, if_pos (by omega), ← ih hts, hnil]
        rfl
      · rw [if_neg (by omega), if_neg hgt.ne', if_neg (by omega), ih hts]

theorem scanOrder_eq (h : ts.Pairwise fun v w => v.row.block ≤ w.row.block)
    (hn : ∀ v ∈ ts, v.row.block < n) : scanOrder ts n = ts := by
  rw [scanOrder_eq_filter h, filter_eq_self]
  simpa using hn

/-! ## The result of the query -/

/-- The tuple `v` does not count after `w`: both are of one transaction, or that of `v` has rolled
back or has committed before that of `w`. -/
def Before (t : Timeline.State) (v w : Tuple (Placed ρ)) : Prop :=
  v.header.xmin = w.header.xmin ∨ Undone t v.header.xmin ∨
    Committed t v.header.xmin ∧ ∃ e ∈ t.ended v.header.xmin,
      ∀ e' ∈ t.ended w.header.xmin, e < e'

theorem Before.mono (h : Before t v w) (hi : Timeline.Inv t) (hg : Ages t t') : Before t' v w := by
  rcases h with h | h | ⟨hcom, e, he, hlt⟩
  · exact .inl h
  · exact .inr (.inl (h.mono hg))
  · refine .inr (.inr ⟨hcom.mono hg, e, hg.evolves.ended _ e he, fun e' he' => ?_⟩)
    rcases hg.ended _ e' he' with hold | rfl
    · exact hlt e' hold
    · obtain ⟨d, hd, -⟩ := hcom
      exact hi.ended_lt hd he

namespace State

variable (q : Plan ρ) (s : State ρ)

/-- The rows of the query over the committed rows, in the order of the tuples. -/
def result : List ρ :=
  q.run ((s.source.filter fun v => Committed s.txn v.header.xmin).map (·.row.row))

/-- The rows of the query at the time `k`. -/
def resultBy (k : ℕ) : List ρ :=
  q.run ((s.source.filter fun v => CommittedBy s.txn k v.header.xmin).map (·.row.row))

def viewRows : List ρ := (s.view.filter fun v => Committed s.txn v.header.xmin).map (·.row)

/-- The rows that the maintenance `x` has inserted. -/
def viewOf (x : ℕ) : List ρ := (s.view.filter (·.header.xmin = x)).map (·.row)

end State

section

variable (h : s.source.Pairwise (Before s.txn))
include h

/-- **The result at an earlier time is an initial part.** -/
theorem resultBy_isPrefix (k : ℕ) : s.resultBy q k <+: s.result q := by
  refine q.run_mono (List.IsPrefix.map _ (filter_isPrefix ?_ (h.imp ?_)))
  · simp only [decide_eq_true_eq]
    exact fun v hv => hv.1
  · simp only [decide_eq_true_eq]
    rintro v w (heq | hu | ⟨hcom, e, he, hlt⟩) ⟨hw, e', he', hk⟩ hv
    · exact heq ▸ ⟨hw, e', he', hk⟩
    · exact absurd hv hu.not_committed
    · exact ⟨hv, e, he, (hlt e' he').trans hk⟩

theorem resultBy_mono {k' : ℕ} (hk : k ≤ k') : s.resultBy q k <+: s.resultBy q k' := by
  refine q.run_mono (List.IsPrefix.map _ (filter_isPrefix ?_ (h.imp ?_)))
  · simp only [decide_eq_true_eq]
    rintro v ⟨hcom, e, he, hlt⟩
    exact ⟨hcom, e, he, hlt.trans_le hk⟩
  · simp only [decide_eq_true_eq]
    rintro v w (heq | hu | ⟨hcom, e, he, hlt⟩) ⟨hw, e', he', hk⟩ hv
    · exact heq ▸ ⟨hw, e', he', hk⟩
    · exact absurd hv.1 hu.not_committed
    · exact ⟨hcom, e, he, (hlt e' he').trans hk⟩

/-- **The result only grows at its end.** -/
theorem result_isPrefix (hg : Ages s.txn s'.txn) (hs : s'.source = s.source) :
    s.result q <+: s'.result q := by
  unfold State.result
  rw [hs]
  refine q.run_mono (List.IsPrefix.map _ (filter_isPrefix ?_ (h.imp ?_)))
  · simp only [decide_eq_true_eq]
    exact fun v hv => hv.mono hg
  · simp only [decide_eq_true_eq]
    rintro v w (heq | hu | ⟨hcom, -⟩) hw hv
    · exact heq ▸ hw
    · exact absurd hv (hu.mono hg).not_committed
    · exact hcom

end

/-- The result of an earlier time stays. -/
theorem resultBy_eq (hi : TableInv s.txn s.source) (hg : Ages s.txn s'.txn)
    (hs : s'.source = s.source) (hk : k ≤ s.txn.clock) : s'.resultBy q k = s.resultBy q k := by
  unfold State.resultBy
  rw [hs]
  refine congrArg _ (congrArg _ (filter_congr fun v hv => ?_))
  obtain ⟨n, hn⟩ := mem_iff_getElem?.1 hv
  obtain ⟨d, hd, -⟩ := (hi.header n v hn).inserted.held
  rw [decide_eq_decide]
  exact committedBy_iff hi.txn hg hk hd

/-! ## The invariant -/

/-- The transaction is a maintenance that has not committed. -/
def Job.maintains : Job → Bool
  | begun | loaded _ | filled _ => true
  | idle | inserting .. | due | counting _ => false

/-- The maintenance is between its load and its count. -/
def Job.busy : Job → Bool
  | loaded _ | filled _ | counting _ => true
  | idle | inserting .. | due | begun => false

/-- What the transaction `z` has committed at the time `e` is still to be looked at: its maintenance
is due, or there is one that began later. -/
def Pending (s : State ρ) (z e : ℕ) : Prop :=
  s.job z = .due ∨
    ∃ x c, s.txn.clients.lookup x = some c ∧ (s.job x).maintains = true ∧ e < c.view

/-- The view has the first `n` rows of the query. -/
structure Content (q : Plan ρ) (s : State ρ) (n : ℕ) : Prop where
  counting : ∀ x k, s.job x = .counting k → n = s.materializedRows + k
  counted : (∀ x k, s.job x ≠ .counting k) → n = s.materializedRows
  rows : s.viewRows.Perm ((s.result q).take n)
  le : n ≤ (s.result q).length
  filled : ∀ x k c, s.job x = .filled k → s.txn.clients.lookup x = some c →
    (s.viewOf x).Perm (((s.result q).drop n).take k) ∧ n + k ≤ (s.result q).length ∧
      (s.resultBy q c.view).length ≤ n + k
  covers : ∀ v ∈ s.source, ∀ e ∈ s.txn.ended v.header.xmin, Committed s.txn v.header.xmin →
    Pending s v.header.xmin e ∨ (s.resultBy q (e + 1)).length ≤ n

structure Inv (q : Plan ρ) (s : State ρ) : Prop where
  source : TableInv s.txn s.source
  view : TableInv s.txn s.view
  sourceStamps : ∀ v ∈ s.source, v.header.xmax = 0
  viewStamps : ∀ v ∈ s.view, v.header.xmax = 0
  sorted : s.source.Pairwise fun v w => v.row.block ≤ w.row.block
  placed : ∀ v ∈ s.source, v.row.block < s.blocks
  order : s.source.Pairwise (Before s.txn)
  maintainer : ∀ x, (s.job x).maintains = true → ∃ c, s.txn.clients.lookup x = some c ∧
    c.phase = .running ∧ ∀ v ∈ s.source, v.header.xmin ≠ x
  committed : ∀ x, s.job x = .due ∨ (∃ k, s.job x = .counting k) → Committed s.txn x
  single : ∀ x y, (s.job x).busy = true → (s.job y).busy = true → x = y
  loaded : ∀ x offset, s.job x = .loaded offset → offset = s.materializedRows
  writers : ∀ v ∈ s.view, Committed s.txn v.header.xmin ∨ ∃ k, s.job v.header.xmin = .filled k
  content : ∃ n, Content q s n

theorem inv_init : Inv q {} where
  source := tableInv_init
  view := tableInv_init
  sourceStamps _ h := absurd h not_mem_nil
  viewStamps _ h := absurd h not_mem_nil
  sorted := .nil
  placed _ h := absurd h not_mem_nil
  order := .nil
  maintainer _ h := by cases h
  committed _ h := by rcases h with h | ⟨k, h⟩ <;> cases h
  single _ _ h := by cases h
  loaded _ _ h := by cases h
  writers _ h := absurd h not_mem_nil
  content := ⟨0, nofun, fun _ => rfl, .nil, Nat.zero_le _, nofun,
    fun _ h => absurd h not_mem_nil⟩

theorem Inv.running (hi : Inv q s) (hm : (s.job x).maintains = true)
    (hc : s.txn.clients.lookup x = some c) :
    c.phase = .running ∧ ∀ v ∈ s.source, v.header.xmin ≠ x := by
  obtain ⟨c', hc', h⟩ := hi.maintainer x hm
  obtain rfl := Option.mem_unique hc hc'
  exact h

/-- What had committed before a step had ended before it. -/
theorem ended_of_ages (hi : Timeline.Inv t) (hg : Ages t t') (hcom : Committed t z)
    (he : t'.ended z = some e) : t.ended z = some e ∧ e < t.clock := by
  obtain ⟨d, hd, hp⟩ := hcom
  obtain ⟨e₀, he₀⟩ := hi.exists_ended hd hp
  obtain rfl := Option.mem_unique (hg.evolves.ended _ e₀ he₀) he
  exact ⟨he₀, hi.ended_lt hd he₀⟩

/-! ## Steps that are not of maintenance -/

/-- What a step leaves as it is that does not insert into the view and does not count. -/
structure Frame (q : Plan ρ) (s s' : State ρ) : Prop where
  materializedRows : s'.materializedRows = s.materializedRows
  view : s'.view = s.view
  result : s.result q <+: s'.result q
  viewRows : s'.viewRows = s.viewRows
  past : ∀ k ≤ s.txn.clock, s'.resultBy q k = s.resultBy q k
  counting : ∀ x k, s'.job x = .counting k ↔ s.job x = .counting k
  filled : ∀ x k, s'.job x = .filled k → s.job x = .filled k
  clients : ∀ x c, (s.job x).maintains = true → s.txn.clients.lookup x = some c →
    s'.txn.clients.lookup x = some c
  pending : ∀ v ∈ s'.source, ∀ e ∈ s'.txn.ended v.header.xmin, Committed s'.txn v.header.xmin →
    Pending s' v.header.xmin e ∨ v ∈ s.source ∧ e ∈ s.txn.ended v.header.xmin ∧
      Committed s.txn v.header.xmin ∧
      (Pending s v.header.xmin e → Pending s' v.header.xmin e)

theorem Content.frame (hc : Content q s n) (hi : Inv q s) (hf : Frame q s s') : Content q s' n where
  counting x k h := by
    rw [hf.materializedRows]
    exact hc.counting x k ((hf.counting x k).1 h)
  counted h := by
    rw [hf.materializedRows]
    exact hc.counted fun x k hk => h x k ((hf.counting x k).2 hk)
  rows := by
    obtain ⟨r, hr⟩ := hf.result
    rw [hf.viewRows, ← hr, take_append_of_le_length hc.le]
    exact hc.rows
  le := hc.le.trans hf.result.length_le
  filled x k c hjob hlook := by
    have hold := hf.filled x k hjob
    obtain ⟨c₀, hc₀, -⟩ := hi.maintainer x (by rw [hold]; rfl)
    obtain rfl := Option.mem_unique (hf.clients x c₀ (by rw [hold]; rfl) hc₀) hlook
    obtain ⟨hrows, hle, hby⟩ := hc.filled x k c₀ hold hc₀
    obtain ⟨r, hr⟩ := hf.result
    refine ⟨?_, hle.trans hf.result.length_le, ?_⟩
    · have hlen : k ≤ ((s.result q).drop n).length := by
        rw [length_drop]
        omega
      unfold State.viewOf at hrows ⊢
      rwa [hf.view, ← hr, drop_append_of_le_length hc.le, take_append_of_le_length hlen]
    · rw [hf.past _ (hi.source.txn.client x c₀ hc₀).view]
      exact hby
  covers v hv e he hcom := by
    rcases hf.pending v hv e he hcom with h | ⟨hv₀, he₀, hcom₀, himp⟩
    · exact .inl h
    · refine (hc.covers v hv₀ e he₀ hcom₀).imp himp fun h => ?_
      obtain ⟨d, hd, -⟩ := hcom₀
      rw [hf.past _ (hi.source.txn.ended_lt hd he₀)]
      exact h

/-- A step of the transactions, and what it does to the jobs: those that are busy or of maintenance
stay, unless a maintenance begins. -/
structure Turn (s : State ρ) (t' : Timeline.State) (job' : ℕ → Job) : Prop where
  source : TableStep s.txn s.source t' s.source
  view : TableStep s.txn s.view t' s.view
  busy : ∀ y, (s.job y).busy = true ∨ (job' y).busy = true → job' y = s.job y
  maintains : ∀ y, (s.job y).maintains = true → job' y = s.job y
  begun : ∀ y, (job' y).maintains = true → job' y = s.job y ∨ job' y = .begun ∧
    ∃ c, t'.clients.lookup y = some c ∧ c.phase = .running ∧ ∀ v ∈ s.source, v.header.xmin ≠ y
  clients : ∀ y c, (s.job y).maintains = true → s.txn.clients.lookup y = some c →
    c.phase = .running → t'.clients.lookup y = some c
  due : ∀ y, job' y = .due → s.job y = .due ∨ Committed t' y
  viewCommitted : ∀ v ∈ s.view, Committed t' v.header.xmin → Committed s.txn v.header.xmin
  pending : ∀ v ∈ s.source, Committed t' v.header.xmin →
    job' v.header.xmin = .due ∨ Committed s.txn v.header.xmin ∧
      (s.job v.header.xmin = .due → job' v.header.xmin = .due ∨
        ∃ x c, t'.clients.lookup x = some c ∧ (job' x).maintains = true ∧ s.txn.clock ≤ c.view)

/-- The transaction neither maintains nor is busy. -/
def Job.calm (j : Job) : Prop := j.busy = false ∧ j.maintains = false

variable {job' : ℕ → Job}

/-- The jobs of calm transactions change, and a maintenance may begin. -/
theorem Turn.of_jobs (hsource : TableStep s.txn s.source t' s.source)
    (hview : TableStep s.txn s.view t' s.view) (hjobs : ∀ y, job' y = s.job y ∨ (s.job y).calm ∧
      ((job' y).calm ∧ (job' y = .due → Committed t' y) ∨ job' y = .begun ∧ ∃ c,
        t'.clients.lookup y = some c ∧ c.phase = .running ∧ ∀ v ∈ s.source, v.header.xmin ≠ y))
    (hclients : ∀ y c, (s.job y).maintains = true → s.txn.clients.lookup y = some c →
      c.phase = .running → t'.clients.lookup y = some c)
    (hcommitted : ∀ v ∈ s.view, Committed t' v.header.xmin → Committed s.txn v.header.xmin)
    (hpending : ∀ v ∈ s.source, Committed t' v.header.xmin →
      job' v.header.xmin = .due ∨ Committed s.txn v.header.xmin ∧
        (s.job v.header.xmin = .due → job' v.header.xmin = .due ∨
          ∃ x c, t'.clients.lookup x = some c ∧ (job' x).maintains = true ∧
            s.txn.clock ≤ c.view)) : Turn s t' job' := by
  refine ⟨hsource, hview, fun y hy => ?_, fun y hy => ?_, fun y hy => ?_, hclients, fun y hy => ?_,
    hcommitted, hpending⟩
  all_goals rcases hjobs y with heq | ⟨hold, ⟨hnew, hdue⟩ | ⟨hnew, hbegun⟩⟩
  · exact heq
  · simp [hold.1, hnew.1] at hy
  · rw [hold.1, hnew] at hy
    simp [Job.busy] at hy
  · exact heq
  · simp [hold.2] at hy
  · simp [hold.2] at hy
  · exact .inl heq
  · simp [hnew.2] at hy
  · exact .inr ⟨hnew, hbegun⟩
  · exact .inl (heq ▸ hy)
  · exact .inr (hdue hy)
  · simp [hnew] at hy

theorem Turn.job_eq {j : Job} (h : Turn s t' job') (hj : job' x = j) (hb : j.busy = true) :
    s.job x = j :=
  (h.busy x (.inr (hj ▸ hb))).symm.trans hj

theorem Inv.turn (hi : Inv q s) {blocks cursor : ℕ} (h : Turn s t' job')
    (hblocks : s.blocks ≤ blocks) :
    Inv q { s with txn := t', job := job', blocks := blocks, insertCursor := cursor } := by
  have hg := hi.source.ages h.source
  have hframe : Frame q s
      { s with txn := t', job := job', blocks := blocks, insertCursor := cursor } := {
    materializedRows := rfl
    view := rfl
    result := result_isPrefix hi.order hg rfl
    viewRows := by
      refine congrArg (map _) (filter_congr fun v hv => ?_)
      rw [decide_eq_decide]
      exact ⟨h.viewCommitted v hv, fun hcom => hcom.mono hg⟩
    past := fun k hk => resultBy_eq hi.source hg rfl hk
    counting := fun x k =>
      ⟨fun hk => h.job_eq hk rfl, fun hk => (h.busy x (.inl (by rw [hk]; rfl))).trans hk⟩
    filled := fun x k hk => h.job_eq hk rfl
    clients := fun x c hm hc => h.clients x c hm hc (hi.running hm hc).1
    pending := fun v hv e he hcom => by
      rcases h.pending v hv hcom with hdue | ⟨hcom₀, hdue⟩
      · exact .inl (.inl hdue)
      obtain ⟨he₀, hlt₀⟩ := ended_of_ages hi.source.txn hg hcom₀ he
      refine .inr ⟨hv, he₀, hcom₀, ?_⟩
      rintro (hold | ⟨x, c, hc, hm, hlt⟩)
      · refine (hdue hold).imp_right ?_
        rintro ⟨x, c, hc, hm, hlt⟩
        exact ⟨x, c, hc, hm, hlt₀.trans_le hlt⟩
      · refine .inr ⟨x, c, h.clients x c hm hc (hi.running hm hc).1, ?_, hlt⟩
        show (job' x).maintains = true
        rw [h.maintains x hm]
        exact hm }
  obtain ⟨n, hn⟩ := hi.content
  exact { hi with
    source := hi.source.step h.source
    view := hi.view.step h.view
    placed := fun v hv => (hi.placed v hv).trans_le hblocks
    order := hi.order.imp fun hb => hb.mono hi.source.txn hg
    maintainer := fun x hm => by
      rcases h.begun x hm with heq | ⟨-, hnew⟩
      · obtain ⟨c, hc, hp, hne⟩ := hi.maintainer x (by rw [← heq]; exact hm)
        exact ⟨c, h.clients x c (by rw [← heq]; exact hm) hc hp, hp, hne⟩
      · exact hnew
    committed := by
      rintro x (hdue | ⟨k, hk⟩)
      · rcases h.due x hdue with hold | hcom
        · exact (hi.committed x (.inl hold)).mono hg
        · exact hcom
      · exact (hi.committed x (.inr ⟨k, (hframe.counting x k).1 hk⟩)).mono hg
    single := fun x y hx hy => hi.single x y (h.busy x (.inr hx) ▸ hx) (h.busy y (.inr hy) ▸ hy)
    loaded := fun x offset hl => hi.loaded x offset (h.job_eq hl rfl)
    writers := fun v hv => (hi.writers v hv).imp (fun hcom => hcom.mono hg) fun ⟨k, hk⟩ =>
      ⟨k, (h.maintains _ (by rw [hk]; rfl)).trans hk⟩
    content := ⟨n, hn.frame hi hframe⟩ }

/-! ## Orderly runs -/

/-- The transaction has committed or rolls back. -/
def closed (t : Timeline.State) (y : ℕ) : Bool :=
  (t.clients.lookup y).any fun d =>
    match d.phase with
    | .running | .undoing _ => false
    | .aborting _ | .committed | .aborted => true

/-- The batch is at the last page. -/
def atLastPage (s : State ρ) (x : ℕ) : Prop :=
  match s.job x with
  | .inserting cursor blockCount => blockCount = 0 ∨ cursor + 1 = s.blocks
  | _ => True

instance (s : State ρ) (x : ℕ) : Decidable (atLastPage s x) := by
  unfold atLastPage
  split <;> infer_instance

/-- After the rows that have been counted the query has those that it has through a sequential
scan. -/
def inScanOrder (q : Plan ρ) (s : State ρ) (x : ℕ) (path : AccessPath ρ) : Prop :=
  match Index.running s.txn x, s.job x with
  | some c, .loaded offset =>
    (materializeViewDelta q s c path offset).Perm (materializeViewDelta q s c .seqScan offset)
  | _, _ => True

instance instDecidableInScanOrder [DecidableEq ρ] (q : Plan ρ) (s : State ρ) (x : ℕ)
    (path : AccessPath ρ) : Decidable (inScanOrder q s x path) := by
  unfold inScanOrder
  split <;> infer_instance

/-- **Rows come to the end of the scan order, one transaction after the other, and the maintenances
count one after the other, in that order.** -/
def Orderly (q : Plan ρ) (s : State ρ) : Act ρ → Prop
  | .fill x _ => (∀ v ∈ s.source, v.header.xmin = x ∨ closed s.txn v.header.xmin = true) ∧
      atLastPage s x
  | .update .. => False
  | .load _ => ∀ y < s.txn.mgr.nextXid, (s.job y).busy = false
  | .materialize x path => inScanOrder q s x path
  | .txn (.rollback x) => (s.job x).maintains = false
  | _ => True

instance [DecidableEq ρ] : DecidableRel (Orderly q : State ρ → Act ρ → Prop) := fun s a => by
  unfold Orderly
  split <;> infer_instance

/-- Snapshots are taken at a clear moment. -/
def Timed (s : State ρ) : Act ρ → Prop
  | .txn b => Timeline.Timely s.txn b = true
  | .maintain _ m xmax => Timeline.Timely s.txn (.begin m .readCommitted xmax) = true
  | _ => True

instance instDecidableRelTimed : DecidableRel (Timed (ρ := ρ)) := fun s a => by
  unfold Timed
  split <;> infer_instance

/-- The conditions on the steps. -/
def KeepsView (q : Plan ρ) (s : State ρ) (a : Act ρ) : Prop := Timed s a ∧ Orderly q s a

instance instDecidableRelKeepsView [DecidableEq ρ] :
    DecidableRel (KeepsView q : State ρ → Act ρ → Prop) := fun _ _ =>
  inferInstanceAs (Decidable (_ ∧ _))

section Steps

/-- The transaction is between two statements or in an INSERT. -/
def Job.inStatement : Job → Bool
  | idle | inserting .. => true
  | due | begun | loaded _ | filled _ | counting _ => false

variable {j : Job}

theorem Job.calm_of_statement (h : j.inStatement = true) : j.calm := by
  cases j with
  | idle | inserting => exact ⟨rfl, rfl⟩
  | _ => cases h

/-- What is to be looked at stays so while a maintenance goes on. -/
theorem Pending.update {z e : ℕ} (h : Pending s z e) (htxn : s'.txn = s.txn)
    (hjob : s'.job = update s.job x j) {j₀ : Job} (hold : s.job x = j₀) (hdue : j₀ ≠ .due)
    (hm : j₀.maintains = true → j.maintains = true) : Pending s' z e := by
  subst hold
  unfold Pending
  rw [htxn, hjob]
  rcases h with h | ⟨y, c, hc, hy, hlt⟩
  · exact .inl (to_update s.job (P := (· = .due)) h fun h => absurd h hdue)
  · exact .inr ⟨y, c, hc, to_update s.job (P := (·.maintains = true)) hy hm, hlt⟩

variable {command xid : ℕ} {rows : List ρ} {us : List (Tuple ρ)}

/-- The rows of the view that some transactions have inserted, after an INSERT. -/
theorem map_filter_insertAll (p : ℕ → Prop) [DecidablePred p] :
    ((insertAll us xid command rows).filter fun v => p v.header.xmin).map (·.row) =
      (us.filter fun v => p v.header.xmin).map (·.row) ++ if p xid then rows else [] := by
  induction rows generalizing us with
  | nil => simp [insertAll]
  | cons row rows ih =>
    rw [insertAll, ih, insertTuple, filter_append, map_append, append_assoc]
    by_cases hp : p xid <;> simp [hp, TupleHeader.fresh]

theorem mem_insertAll {u : Tuple ρ} (h : u ∈ insertAll us xid command rows) :
    u ∈ us ∨ u.header.xmin = xid ∧ u.header.xmax = 0 := by
  induction rows generalizing us with
  | nil => exact .inl h
  | cons row rows ih =>
    rcases ih h with h | h
    · rcases mem_append.1 h with h | h
      · exact .inl h
      · rw [mem_singleton.1 h]
        exact .inr ⟨rfl, rfl⟩
    · exact .inr h

theorem tableInv_insertAll (hi : TableInv t us) (hc : t.clients.lookup x = some c)
    (hp : c.phase = .running) (rows : List ρ) :
    TableInv t (insertAll us c.handle.writeXid c.handle.currentCommand rows) := by
  induction rows generalizing us with
  | nil => exact hi
  | cons row rows ih => exact ih (hi.step (.insert hc hp row))

namespace Inv

variable (hi : Inv q s)

include hi

theorem busy_cases (hb : (s.job y).busy = true) :
    (s.job y).maintains = true ∨ Committed s.txn y := by
  cases hj : s.job y with
  | counting k => exact .inr (hi.committed y (.inr ⟨k, hj⟩))
  | loaded | filled => exact .inl rfl
  | _ =>
    rw [hj] at hb
    cases hb

variable {b : Timeline.Act}

/-- A maintenance is left alone by the steps of the others. -/
theorem lookup_maintainer (hb : b.plain = true) (h : Timeline.step s.txn b = some t')
    (hm : (s.job y).maintains = true) (hr : ∀ xmax, b ≠ .refresh y xmax) (hcm : b ≠ .commit y)
    (hrb : b ≠ .rollback y) (hc : s.txn.clients.lookup y = some c) :
    t'.clients.lookup y = some c :=
  Timeline.lookup_other hi.source.txn hb h hr hcm hrb hc (hi.running hm hc).1

theorem time (hb : b.plain = true) (hjob : allowed s.job b = true) (hcond : Orderly q s (.txn b))
    (ht : Timeline.Timely s.txn b = true) (h : Timeline.step s.txn b = some t') :
    Inv q { s with txn := t', job := restart s.job b } := by
  have hcm : ∀ y, b ≠ .commit y := by
    rintro y rfl
    cases hjob
  have hcommitted : ∀ {z}, Committed t' z → Committed s.txn z := fun hz =>
    (committed_of_step hi.source.txn hb h hz).resolve_right (hcm _)
  -- a ROLLBACK is of a transaction that neither maintains nor has committed
  have hrestart : ∀ y, restart s.job b y = s.job y ∨ restart s.job b y = .idle ∧
      (s.job y).maintains = false ∧ ¬ Committed s.txn y := by
    intro y
    cases b with
    | rollback x =>
      refine (update_cases s.job x .idle y).imp_right ?_
      rintro ⟨rfl, heq⟩
      obtain ⟨t₁, h₁, -⟩ := Option.map_eq_some_iff.1 h
      obtain ⟨c, hc, hp, -⟩ := Timeline.whenRunning_eq_some h₁
      exact ⟨heq, hcond, not_committed_of_running hc hp⟩
    | _ => exact .inl rfl
  refine hi.turn (.of_jobs (.time hb ht h) (.time hb ht h) (fun y => ?_) (fun y c hm hc hp => ?_)
    (fun v _ hcom => hcommitted hcom)
    fun v hv hcom => .inr ⟨hcommitted hcom, fun hdue => .inl ?_⟩) le_rfl
  · refine (hrestart y).imp_right fun ⟨heq, hm, hnc⟩ => ⟨⟨?_, hm⟩, .inl ?_⟩
    · rw [← Bool.not_eq_true]
      intro hbusy
      rcases hi.busy_cases hbusy with hm' | hcom
      · rw [hm] at hm'
        cases hm'
      · exact hnc hcom
    · rw [heq]
      exact ⟨⟨rfl, rfl⟩, nofun⟩
  · refine hi.lookup_maintainer hb h hm ?_ (hcm y) ?_ hc
    · rintro xmax rfl
      rw [of_decide_eq_true hjob] at hm
      cases hm
    · rintro rfl
      rw [show (s.job y).maintains = false from hcond] at hm
      cases hm
  · rcases hrestart v.header.xmin with heq | ⟨-, -, hnc⟩
    · rw [heq]
      exact hdue
    · exact absurd (hcommitted hcom) hnc

theorem visit {u : ℕ × Visit} (h : s.txn.nextVisit x = some (u, t')) :
    Inv q { s with txn := s.txn.tick t' } := by
  refine hi.turn ⟨.visit h, .visit h, fun _ _ => rfl, fun _ _ => rfl, fun _ _ => .inl rfl,
    fun y c hm hc hp => Timeline.lookup_of_visit h hc hp, fun _ hy => .inl hy,
    fun _ _ hcom => committed_of_visit h hcom,
    fun _ _ hcom => .inr ⟨committed_of_visit h hcom, .inl⟩⟩ le_rfl

variable {cursor : ℕ} {j : Job}

theorem setJob {blocks : ℕ} (hold : (s.job x).inStatement = true) (hnew : j.inStatement = true)
    (hblocks : s.blocks ≤ blocks) :
    Inv q { s.setJob x j with blocks := blocks, insertCursor := cursor } := by
  have hcases : ∀ y, update s.job x j y = s.job y ∨ (s.job y).inStatement = true ∧
      (update s.job x j y).inStatement = true := fun y => by
    refine (update_cases s.job x j y).imp_right ?_
    rintro ⟨rfl, heq⟩
    rw [heq]
    exact ⟨hold, hnew⟩
  suffices hturn : Turn s s.txn (update s.job x j) from hi.turn hturn hblocks
  refine .of_jobs .keep .keep (fun y => (hcases y).imp_right fun h => ⟨Job.calm_of_statement h.1,
    .inl ⟨Job.calm_of_statement h.2, fun hdue => ?_⟩⟩) (fun _ _ _ hc _ => hc) (fun _ _ => id)
    fun v _ hcom => .inr ⟨hcom, fun hdue =>
      .inl (((hcases _).resolve_right fun h => ?_).trans hdue)⟩
  · simp [hdue, Job.inStatement] at h
  · simp [hdue, Job.inStatement] at h

theorem exists_client_of_busy (hb : (s.job y).busy = true) :
    ∃ d, s.txn.clients.lookup y = some d := by
  rcases hi.busy_cases hb with hm | ⟨d, hd, -⟩
  · obtain ⟨c, hc, -⟩ := hi.maintainer y hm
    exact ⟨c, hc⟩
  · exact ⟨d, hd⟩

theorem commit {autocommit : Bool} (hjob : s.job x = .idle)
    (h : Timeline.step s.txn (.commit x) = some t') :
    Inv q { s.setJob x (s.afterCommit x autocommit) with txn := t' } := by
  have hafter : s.afterCommit x autocommit = .due ∨ s.afterCommit x autocommit = .idle := by
    unfold State.afterCommit
    split_ifs
    · exact .inl rfl
    · exact .inr rfl
  have hcases := update_cases s.job x (s.afterCommit x autocommit)
  suffices hturn : Turn s t' (update s.job x (s.afterCommit x autocommit)) from
    hi.turn hturn le_rfl
  refine .of_jobs (.time rfl rfl h) (.time rfl rfl h) (fun y => (hcases y).imp_right ?_)
    (fun y c hm hc _ => ?_) (fun v hv hcom => ?_) fun v hv hcom => ?_
  · rintro ⟨rfl, heq⟩
    rw [heq, hjob]
    refine ⟨⟨rfl, rfl⟩, .inl ⟨?_, fun _ => committed_of_commit h⟩⟩
    rcases hafter with h' | h' <;> rw [h'] <;> exact ⟨rfl, rfl⟩
  · refine hi.lookup_maintainer rfl h hm nofun ?_ nofun hc
    intro heq
    cases heq
    rw [hjob] at hm
    cases hm
  · rcases committed_of_step hi.source.txn rfl h hcom with hold | heq
    · exact hold
    · cases heq
      refine (hi.writers v hv).resolve_right ?_
      rintro ⟨k, hk⟩
      rw [hjob] at hk
      cases hk
  · rcases committed_of_step hi.source.txn rfl h hcom with hold | heq
    · refine .inr ⟨hold, fun hdue => .inl ?_⟩
      rcases hcases v.header.xmin with heq | ⟨heq, -⟩
      · exact heq.trans hdue
      · rw [heq, hjob] at hdue
        cases hdue
    · cases heq
      have hwrote : s.wrote v.header.xmin = true := any_eq_true.2 ⟨v, hv, by simp⟩
      left
      rw [update_self, State.afterCommit, hwrote, Bool.or_true, if_pos rfl]

theorem maintain {m xmax : ℕ} (hjob : s.job x = .due)
    (ht : Timeline.Timely s.txn (.begin m .readCommitted xmax) = true)
    (h : Timeline.step s.txn (.begin m .readCommitted xmax) = some t') :
    Inv q { (s.setJob x .idle).setJob m .begun with txn := t' } := by
  obtain ⟨hready, hnew⟩ : m ∈ s.txn.ready ∧ t'.clients.lookup m =
      some { handle := (s.txn.mgr.beginAt m .readCommitted xmax).2, view := s.txn.clock } := by
    obtain ⟨t₁, h₁, rfl⟩ := hi.source.txn.step_cases h
    cases h₁ with
    | begin _ hx => exact ⟨hx, (Timeline.lookup_setClient s.txn _ _ _).trans (if_pos rfl)⟩
    | savepoint ha => obtain ⟨_, _, ha⟩ | ⟨_, ha⟩ := ha <;> cases ha
    | close ha => obtain ⟨ha, -⟩ | ⟨ha, -⟩ := ha <;> cases ha
  have hfresh : ∀ {y d}, s.txn.clients.lookup y = some d → y ≠ m := hi.source.txn.ready_ne hready
  have hcommitted : ∀ {z}, Committed t' z → Committed s.txn z := fun hz =>
    (committed_of_step hi.source.txn rfl h hz).resolve_right nofun
  suffices hturn : Turn s t' (update (update s.job x .idle) m .begun) from hi.turn hturn le_rfl
  refine .of_jobs (.time rfl ht h) (.time rfl ht h) (fun y => ?_)
    (fun y c hm hc _ => hi.lookup_maintainer rfl h hm nofun nofun nofun hc)
    (fun v hv hcom => hcommitted hcom) fun v hv hcom => .inr ⟨hcommitted hcom, fun hdue => ?_⟩
  · rcases update_cases (update s.job x .idle) m .begun y with heq | ⟨rfl, heq⟩
    · rw [heq]
      refine (update_cases s.job x .idle y).imp_right ?_
      rintro ⟨rfl, heq⟩
      rw [heq, hjob]
      exact ⟨⟨rfl, rfl⟩, .inl ⟨⟨rfl, rfl⟩, nofun⟩⟩
    · refine .inr ⟨⟨?_, ?_⟩, .inr ⟨heq, _, hnew, rfl, fun v hv hxmin => ?_⟩⟩
      · refine Bool.eq_false_iff.2 fun hb => ?_
        obtain ⟨d, hd⟩ := hi.exists_client_of_busy hb
        exact hfresh hd rfl
      · refine Bool.eq_false_iff.2 fun hm => ?_
        obtain ⟨d, hd, -⟩ := hi.maintainer y hm
        exact hfresh hd rfl
      · obtain ⟨n, hn⟩ := mem_iff_getElem?.1 hv
        obtain ⟨d, hd, -⟩ := (hi.source.header n v hn).inserted.held
        exact hfresh hd hxmin
  · refine .inr ⟨_, _, hnew, ?_, le_rfl⟩
    rw [update_self]
    rfl

theorem put {blockCount : ℕ} {row : ρ} (hc : s.txn.clients.lookup x = some c)
    (hp : c.phase = .running) (hjob : s.job x = .inserting cursor blockCount)
    (hblocks : blockCount ≠ 0) (hcond : Orderly q s (.fill x row)) :
    Inv q { s with
      source := insertTuple s.source c.handle.writeXid c.handle.currentCommand
        ⟨cursor, row⟩ } := by
  obtain ⟨hothers, hlast⟩ := hcond
  rw [atLastPage, hjob] at hlast
  replace hlast : cursor + 1 = s.blocks := hlast.resolve_left hblocks
  have hstep : TableStep s.txn s.source s.txn _ := .insert hc hp ⟨cursor, row⟩
  have hnot := not_committed_of_running hc hp
  rw [writeXid_eq hi.source.solo hc] at hstep ⊢
  have hmem : ∀ {v}, v ∈ insertTuple s.source x c.handle.currentCommand ⟨cursor, row⟩ →
      v ∈ s.source ∨
        v = ⟨.fresh x c.handle.currentCommand (tidOf s.source.length), ⟨cursor, row⟩⟩ :=
    fun h => (mem_append.1 h).imp_right mem_singleton.1
  have hfilter : ∀ {p : ℕ → Prop} [DecidablePred p], ¬ p x →
      (insertTuple s.source x c.handle.currentCommand ⟨cursor, row⟩).filter
        (fun v => p v.header.xmin) = s.source.filter fun v => p v.header.xmin := by
    intro p _ hpx
    simp [insertTuple, TupleHeader.fresh, hpx]
  obtain ⟨n, hn⟩ := hi.content
  refine { hi with
    source := hi.source.step hstep
    sourceStamps := fun v hv => ?_
    sorted := pairwise_append.2 ⟨hi.sorted, pairwise_singleton .., ?_⟩
    placed := fun v hv => ?_
    order := pairwise_append.2 ⟨hi.order, pairwise_singleton .., ?_⟩
    maintainer := fun y hm => ?_
    content := ⟨n, hn.frame hi ⟨rfl, rfl, ?_, rfl, fun k _ => ?_, fun _ _ => .rfl, fun _ _ h => h,
      fun _ _ _ h => h, fun v hv e he hcom => ?_⟩⟩ }
  · rcases hmem hv with hv | rfl
    · exact hi.sourceStamps v hv
    · rfl
  · intro v hv w hw
    rw [mem_singleton.1 hw]
    have := hi.placed v hv
    show v.row.block ≤ cursor
    omega
  · rcases hmem hv with hv | rfl
    · exact hi.placed v hv
    · show cursor < s.blocks
      omega
  · intro v hv w hw
    rw [mem_singleton.1 hw]
    rcases hothers v hv with hown | hclosed
    · exact .inl hown
    · refine .inr ?_
      obtain ⟨d, hd, hph⟩ := Option.any_eq_true .. |>.1 hclosed
      cases hdp : d.phase with
      | running | undoing =>
        rw [hdp] at hph
        cases hph
      | aborting todo => exact .inl ⟨d, hd, .inr ⟨todo, hdp⟩⟩
      | aborted => exact .inl ⟨d, hd, .inl hdp⟩
      | committed =>
        obtain ⟨e, he⟩ := hi.source.txn.exists_ended hd hdp
        refine .inr ⟨⟨d, hd, hdp⟩, e, he, fun e' he' => ?_⟩
        cases (hi.source.txn.ended_eq_none hc hp).symm.trans he'
  · obtain ⟨c', hc', hp', hne⟩ := hi.maintainer y hm
    refine ⟨c', hc', hp', fun v hv => ?_⟩
    rcases hmem hv with hv | rfl
    · exact hne v hv
    · rintro rfl
      replace hm : (s.job x).maintains = true := hm
      rw [hjob] at hm
      cases hm
  · show s.result q <+: q.run _
    rw [hfilter hnot]
    exact prefix_rfl
  · show q.run _ = s.resultBy q k
    rw [hfilter fun h => hnot h.1]
    rfl
  · rcases hmem hv with hv | rfl
    · exact .inr ⟨hv, he, hcom, id⟩
    · exact absurd hcom hnot

theorem load (hjob : s.job x = .begun) (hcond : Orderly q s (.load x)) :
    Inv q (s.setJob x (.loaded s.materializedRows)) := by
  have hidle : ∀ y, (s.job y).busy = false := fun y => by
    rw [← Bool.not_eq_true]
    intro hb
    obtain ⟨d, hd⟩ := hi.exists_client_of_busy hb
    rw [hcond y (hi.source.txn.lt_nextXid hd)] at hb
    cases hb
  have hbusy : ∀ y, (update s.job x (.loaded s.materializedRows) y).busy = true →
      y = x := by
    intro y hy
    by_contra hne
    rw [update_of_ne hne, hidle y] at hy
    cases hy
  obtain ⟨n, hn⟩ := hi.content
  refine { hi with
    maintainer := fun y hm =>
      hi.maintainer y (of_update s.job (P := (·.maintains = true)) hm fun _ => by rw [hjob]; rfl)
    committed := fun y hy => hi.committed y
      (of_update s.job (P := fun j => j = .due ∨ ∃ k, j = .counting k) hy (by simp))
    single := fun y z hy hz => (hbusy y hy).trans (hbusy z hz).symm
    loaded := fun y offset hl => ?_
    writers := fun v hv => .inl ((hi.writers v hv).resolve_right ?_)
    content := ⟨n, hn.frame hi ⟨rfl, rfl, prefix_rfl, rfl, fun _ _ => rfl,
      fun y k => ⟨fun h => of_update s.job (P := (· = .counting k)) h nofun,
        fun h => to_update s.job (P := (· = .counting k)) h ?_⟩,
      fun y k h => of_update s.job (P := (· = .filled k)) h nofun, fun _ _ _ h => h,
      fun v hv e he hcom => .inr ⟨hv, he, hcom, fun h => h.update rfl rfl hjob nofun
        fun _ => rfl⟩⟩⟩ }
  · obtain rfl := hbusy y (congrArg Job.busy hl)
    exact (Job.loaded.inj ((update_self ..).symm.trans hl)).symm
  · rintro ⟨k, hk⟩
    have := hidle v.header.xmin
    rw [hk] at this
    cases this
  · rw [hjob]
    exact nofun

/-- While `x` is busy no other one is, whatever the job of `x` becomes. -/
theorem eq_of_busy {j' : Job} (hx : (s.job x).busy = true) (h : update s.job x j y = j')
    (hb : j'.busy = true) : y = x :=
  hi.single y x (of_update s.job (P := (·.busy = true)) (h ▸ hb) fun _ => hx) hx

/-- If a maintenance is busy and does not count, the view has the rows that are counted. -/
theorem counted (hn : Content q s n) (hx : (s.job x).busy = true)
    (hj : ∀ k, s.job x ≠ .counting k) : n = s.materializedRows :=
  hn.counted fun y k hk => hj k (hi.single y x (by rw [hk]; rfl) hx ▸ hk)

/-- **What a maintenance finds** with a sequential scan is the result at the time of its
snapshot. -/
theorem run_seqScan (hm : (s.job x).maintains = true) (hc : s.txn.clients.lookup x = some c) :
    q.run (s.scanSource .seqScan c.handle.snapshot s.txn.mgr.status) = s.resultBy q c.view := by
  obtain ⟨hp, hne⟩ := hi.running hm hc
  rw [State.scanSource, scanOrder_eq hi.sorted hi.placed]
  refine congrArg _ (congrArg _ (filter_congr fun v hv => ?_))
  obtain ⟨n, hn⟩ := mem_iff_getElem?.1 hv
  rw [Bool.eq_iff_iff, decide_eq_true_iff]
  exact hi.source.isSeen_other hc hp hn (hne v hv) (hi.sourceStamps v hv)

theorem materialize {offset : ℕ} {path : AccessPath ρ} (hc : s.txn.clients.lookup x = some c)
    (hp : c.phase = .running) (hjob : s.job x = .loaded offset)
    (hcond : Orderly q s (.materialize x path)) :
    Inv q { s with
      job := update s.job x (.filled (materializeViewDelta q s c path offset).length)
      view := insertAll s.view c.handle.writeXid c.handle.currentCommand
        (materializeViewDelta q s c path offset) } := by
  have hbusy : (s.job x).busy = true := by rw [hjob]; rfl
  have hmaint : (s.job x).maintains = true := by rw [hjob]; rfl
  have hnot := not_committed_of_running hc hp
  have htable := tableInv_insertAll hi.view hc hp (materializeViewDelta q s c path offset)
  have hself : update s.job x (.filled (materializeViewDelta q s c path offset).length) x =
    .filled (materializeViewDelta q s c path offset).length := update_self ..
  rw [Orderly, inScanOrder, running_eq_some.2 ⟨hc, hp⟩, hjob] at hcond
  rw [writeXid_eq hi.source.solo hc] at htable ⊢
  have hnone : s.viewOf x = [] := by
    rw [State.viewOf, map_eq_nil_iff, filter_eq_nil_iff]
    intro v hv hx
    rw [← of_decide_eq_true hx] at hnot hjob
    rcases hi.writers v hv with h | ⟨k, h⟩
    · exact hnot h
    · rw [hjob] at h
      cases h
  obtain ⟨n, hn⟩ := hi.content
  obtain rfl : n = offset :=
    (hi.counted hn hbusy (by simp [hjob])).trans (hi.loaded x offset hjob).symm
  have hseq : materializeViewDelta q s c .seqScan n = (s.resultBy q c.view).drop n :=
    congrArg _ (hi.run_seqScan hmaint hc)
  have hdelta : (materializeViewDelta q s c path n).Perm ((s.resultBy q c.view).drop n) :=
    hseq ▸ hcond
  have hlength := hdelta.length_eq.trans length_drop
  obtain ⟨r, hr⟩ := resultBy_isPrefix (q := q) hi.order c.view
  refine { hi with
    view := htable
    viewStamps := fun v hv => ?_
    maintainer := fun y hm =>
      hi.maintainer y (of_update s.job (P := (·.maintains = true)) hm fun _ => hmaint)
    committed := fun y hy => hi.committed y
      (of_update s.job (P := fun j => j = .due ∨ ∃ k, j = .counting k) hy (by simp))
    single := fun y z hy hz =>
      (hi.eq_of_busy hbusy rfl hy).trans (hi.eq_of_busy hbusy rfl hz).symm
    loaded := fun y offset hl =>
      hi.loaded y offset (of_update s.job (P := (· = .loaded offset)) hl nofun)
    writers := fun v hv => ?_
    content := ⟨n,
      fun y k hk => hn.counting y k (of_update s.job (P := (· = .counting k)) hk nofun),
      fun _ => hi.loaded x n hjob, ?_, hn.le, fun y k d hk hd => ?_, fun v hv e he hcom =>
        (hn.covers v hv e he hcom).imp_left fun h => h.update rfl rfl hjob nofun fun _ => rfl⟩ }
  · exact (mem_insertAll hv).elim (hi.viewStamps v) (·.2)
  · rcases mem_insertAll hv with hv | ⟨hx, -⟩
    · refine (hi.writers v hv).imp_right fun h => ?_
      exact to_update s.job (P := fun j => ∃ k, j = .filled k) h fun _ => ⟨_, rfl⟩
    · exact .inr ⟨_, (congrArg _ hx).trans hself⟩
  · show (map _ ((insertAll s.view x c.handle.currentCommand _).filter fun v =>
      Committed s.txn v.header.xmin)).Perm _
    rw [map_filter_insertAll (Committed s.txn), if_neg hnot, append_nil]
    exact hn.rows
  · obtain rfl := hi.eq_of_busy hbusy hk rfl
    obtain rfl := Option.mem_unique hc hd
    cases hself.symm.trans hk
    have hlen : (s.resultBy q c.view).length ≤ (s.result q).length :=
      (resultBy_isPrefix hi.order _).length_le
    have hle := hn.le
    refine ⟨?_, ?_, ?_⟩
    · unfold State.viewOf
      rw [map_filter_insertAll (· = y), if_pos rfl]
      change (s.viewOf y ++ _).Perm (((s.result q).drop n).take _)
      rw [hnone, nil_append, hdelta.length_eq, ← hr, drop_append,
        take_append_of_le_length le_rfl, take_length]
      exact hdelta
    · show n + _ ≤ (s.result q).length
      omega
    · show (s.resultBy q c.view).length ≤ _
      omega

section

variable (hjob : s.job x = .filled k) (h : Timeline.step s.txn (.commit x) = some t')
include hjob h

/-- The COMMIT of a maintenance commits all rows of the view. -/
theorem committed_view {u : Tuple ρ} (hu : u ∈ s.view) : Committed t' u.header.xmin := by
  rcases hi.writers u hu with hcom | ⟨k', hk'⟩
  · exact hcom.mono (ages_step hi.source.txn rfl rfl h)
  · rw [hi.single u.header.xmin x (by rw [hk']; rfl) (by rw [hjob]; rfl)]
    exact committed_of_commit h

theorem viewRows_commit {job' : ℕ → Job} :
    ({ s with txn := t', job := job' } : State ρ).viewRows.Perm (s.viewRows ++ s.viewOf x) := by
  obtain ⟨c, hc, hp, -⟩ := hi.maintainer x (by rw [hjob]; rfl)
  have hnot := not_committed_of_running hc hp
  have hall : ∀ v ∈ s.view, Committed t' v.header.xmin := fun _ => hi.committed_view hjob h
  have hother : ∀ v ∈ s.view, decide (v.header.xmin = x) =
      !decide (Committed s.txn v.header.xmin) := fun v hv => by
    rw [Bool.eq_iff_iff]
    simp only [decide_eq_true_eq, Bool.not_eq_true', decide_eq_false_iff_not]
    refine ⟨fun heq => heq ▸ hnot, fun hnc => ?_⟩
    obtain ⟨k', hk'⟩ := (hi.writers v hv).resolve_left hnc
    exact hi.single _ x (by rw [hk']; rfl) (by rw [hjob]; rfl)
  unfold State.viewRows State.viewOf
  rw [filter_eq_self.2 fun v hv => decide_eq_true (hall v hv), filter_congr hother, ← map_append]
  exact (filter_append_perm (fun v => Committed s.txn v.header.xmin) s.view).symm.map _

theorem commitView : Inv q { s with txn := t', job := update s.job x (.counting k) } := by
  have hg : Ages s.txn t' := ages_step hi.source.txn rfl rfl h
  have hbusy : (s.job x).busy = true := by rw [hjob]; rfl
  obtain ⟨c, hc, hp, hne⟩ := hi.maintainer x (by rw [hjob]; rfl)
  have hself : update s.job x (.counting k) x = .counting k := update_self ..
  have hclient : ∀ {y d}, (s.job y).maintains = true → y ≠ x → s.txn.clients.lookup y = some d →
      t'.clients.lookup y = some d := fun hm hyx hd =>
    hi.lookup_maintainer rfl h hm nofun (fun heq => hyx (Timeline.Act.commit.inj heq).symm) nofun hd
  obtain ⟨n, hn⟩ := hi.content
  have hmat : n = s.materializedRows := hi.counted hn hbusy (by simp [hjob])
  obtain ⟨hrows, hle, hby⟩ := hn.filled x k c hjob hc
  have hpre : s.result q <+: ({ s with
      txn := t', job := update s.job x (.counting k) } : State ρ).result q :=
    result_isPrefix hi.order hg rfl
  refine { hi with
    source := hi.source.step (.time rfl rfl h)
    view := hi.view.step (.time rfl rfl h)
    order := hi.order.imp fun hb => hb.mono hi.source.txn hg
    maintainer := fun y hm => ?_
    committed := fun y hy => ?_
    single := fun y z hy hz =>
      (hi.eq_of_busy hbusy rfl hy).trans (hi.eq_of_busy hbusy rfl hz).symm
    loaded := fun y offset hl =>
      hi.loaded y offset (of_update s.job (P := (· = .loaded offset)) hl nofun)
    writers := fun v hv => .inl (hi.committed_view hjob h hv)
    content := ⟨n + k, fun y k' hk' => ?_, fun hno => absurd hself (hno x k), ?_,
      hle.trans hpre.length_le, fun y k' d hk' _ => ?_, fun v hv e he hcom => ?_⟩ }
  · rcases update_cases s.job x (.counting k) y with heq | ⟨-, heq⟩
    · have hold : (s.job y).maintains = true := heq ▸ hm
      have hyx : y ≠ x := by
        rintro rfl
        rw [show update s.job y (.counting k) y = _ from hself, hjob] at heq
        cases heq
      obtain ⟨d, hd, hpd, hsrc⟩ := hi.maintainer y hold
      exact ⟨d, hclient hold hyx hd, hpd, hsrc⟩
    · cases (congrArg Job.maintains heq).symm.trans hm
  · rcases update_cases s.job x (.counting k) y with heq | ⟨rfl, -⟩
    · refine (hi.committed y ?_).mono hg
      exact hy.imp heq.symm.trans fun ⟨k', hk'⟩ => ⟨k', heq.symm.trans hk'⟩
    · exact committed_of_commit h
  · obtain rfl := hi.eq_of_busy hbusy hk' rfl
    cases hself.symm.trans hk'
    rw [hmat]
  · refine (hi.viewRows_commit hjob h).trans ((hn.rows.append_right _).trans ?_)
    obtain ⟨r, hr⟩ := hpre
    rw [← hr, take_append_of_le_length hle, take_add]
    exact hrows.append_left _
  · obtain rfl := hi.eq_of_busy hbusy hk' rfl
    cases hself.symm.trans hk'
  · -- the maintenance has looked at whatever had committed before it began
    have hcom₀ : Committed s.txn v.header.xmin := by
      refine (committed_of_step hi.source.txn rfl h hcom).resolve_right fun heq => ?_
      exact hne v hv (Timeline.Act.commit.inj heq).symm
    obtain ⟨he₀, hlt₀⟩ := ended_of_ages hi.source.txn hg hcom₀ he
    have hpast : State.resultBy q { s with
        txn := t'
        job := update s.job x (.counting k) } (e + 1) = s.resultBy q (e + 1) :=
      resultBy_eq hi.source hg rfl hlt₀
    rw [hpast]
    rcases hn.covers v hv e he₀ hcom₀ with (hdue | ⟨y, d', hd', hm, hlt⟩) | hcov
    · exact .inl (.inl (to_update s.job (P := (· = .due)) hdue (by rw [hjob]; exact nofun)))
    · by_cases hyx : y = x
      · subst hyx
        obtain rfl := Option.mem_unique hc hd'
        exact .inr ((resultBy_mono hi.order hlt).length_le.trans hby)
      · refine .inl (.inr ⟨y, d', hclient hm hyx hd', ?_, hlt⟩)
        show (update s.job x _ y).maintains = true
        rw [update_of_ne hyx]
        exact hm
    · exact .inr (hcov.trans (Nat.le_add_right ..))

end

theorem flush (hjob : s.job x = .counting k) :
    Inv q { s with
      job := update s.job x .idle, materializedRows := s.materializedRows + k } := by
  have hbusy : (s.job x).busy = true := by rw [hjob]; rfl
  have hno : ∀ {y j}, update s.job x .idle y = j → j.busy = true → False := by
    intro y j h hj
    obtain rfl := hi.eq_of_busy hbusy h hj
    rw [← h, update_self] at hj
    cases hj
  obtain ⟨n, hn⟩ := hi.content
  have hmat : n = s.materializedRows + k := hn.counting x k hjob
  refine { hi with
    maintainer := fun y hm => hi.maintainer y (of_update s.job (P := (·.maintains = true)) hm nofun)
    committed := fun y hy => hi.committed y (of_update s.job
      (P := fun j => j = .due ∨ ∃ k, j = .counting k) hy fun _ => .inr ⟨k, hjob⟩)
    single := fun y z hy _ => (hno rfl hy).elim
    loaded := fun y offset hl => (hno hl rfl).elim
    writers := fun v hv => (hi.writers v hv).imp_right ?_
    content := ⟨n, fun y k' hk' => (hno hk' rfl).elim, fun _ => hmat, hn.rows, hn.le,
      fun y k' d hk' _ => (hno hk' rfl).elim, fun v hv e he hcom =>
        (hn.covers v hv e he hcom).imp_left fun h => h.update rfl rfl hjob nofun nofun⟩ }
  rintro ⟨k', hk'⟩
  rw [hi.single v.header.xmin x (by rw [hk']; rfl) hbusy, hjob] at hk'
  cases hk'

theorem step {a : Act ρ} (ht : Timed s a) (hcond : Orderly q s a)
    (h : View.step L q s a = some s') : Inv q s' := by
  cases spec_of_step h with
  | time hb hjob htime => exact hi.time hb hjob hcond ht htime
  | commit hjob hcommit => exact hi.commit hjob hcommit
  | insertBatch hjob | next hjob | finish hjob => exact hi.setJob (by rw [hjob]; rfl) rfl le_rfl
  | grow hjob => exact hi.setJob (by rw [hjob]; rfl) rfl (Nat.le_succ _)
  | put hc hp hjob hblocks => exact hi.put hc hp hjob hblocks hcond
  | update => exact hcond.elim
  | maintain hjob hbegin => exact hi.maintain hjob ht hbegin
  | load hjob => exact hi.load hjob hcond
  | materialize hc hp hjob => exact hi.materialize hc hp hjob hcond
  | commitView hjob hcommit => exact hi.commitView hjob hcommit
  | flush hjob => exact hi.flush hjob
  | @clear x n z v c todo hc hp hv hx =>
    -- nobody has stamped a row of the source
    have hzx : z = x := hi.source.visit_xid hc hp
    have hzero := hi.sourceStamps v (mem_of_getElem? hv)
    have hrange := (hi.source.txn.client x c hc).self_range.1
    omega
  | visit hnext => exact hi.visit hnext

end Inv

end Steps

/-! ## The view and its query -/

/-- No transaction and no maintenance is running. -/
def Quiet (s : State ρ) : Prop :=
  ∀ y < s.txn.mgr.nextXid, s.job y = .idle ∧
    ∀ c ∈ s.txn.clients.lookup y, c.phase = .committed ∨ c.phase = .aborted

instance (s : State ρ) : Decidable (Quiet s) := inferInstanceAs (Decidable (∀ _ < _, _ ∧ _))

/-- Rows of one byte on pages of eight. -/
def bytes : Layout ℕ := ⟨fun _ => 1, 8⟩

/-- An INSERT of one row as a transaction of its own. -/
def insertRow (x row : ℕ) (grows : Bool) : List (Act ℕ) :=
  (Timeline.opening x .readCommitted).map .txn ++ [.insertBatch x] ++
    (if grows then [.fill x row] else []) ++ [.fill x row, .finish x]

/-- COMMIT and the maintenance after it, with the XID `m`. -/
def commitAndMaintain (x m : ℕ) (path : AccessPath ℕ) : List (Act ℕ) :=
  [.commit x true, .txn .allocate, .txn (.publish m), .maintain x m (m + 1), .load m,
    .materialize m path, .commitView m, .flush m]

/-- **A row with a smaller key.** The query goes through an index. The second INSERT is of a row
that comes before the first one, which the view then takes again. -/
theorem row_with_a_smaller_key : ∃ s, (machine bytes .scan).Reach Timed s ∧ Quiet s ∧
    currentRows s.txn s.view = [2, 2] ∧
    Plan.run .scan ((currentRows s.txn (scanOrder s.source s.blocks)).map (·.row)) = [2, 1] :=
  Machine.exists_reach_of_runIf (M := machine bytes .scan)
    (insertRow 3 2 true ++ commitAndMaintain 3 4 (.indexScan (↑)) ++ insertRow 5 1 false ++
      commitAndMaintain 5 6 (.indexScan (↑)))
    (by decide)

end UltraSql.View
