import UltraSql.View.AggregatingRuntime

/-!
# What an aggregating index has rows for

The rows of an aggregating index are those that a query has built from its own snapshot, and other
queries are served them. If all transactions that have marked the index are over, or are the reader
itself, the snapshot shows the committed rows and the reader's own. `Content` says that the index
has such rows, unless the last writer has rolled back since.

**Theorem (`scan_eq_image`).** A reader whose snapshot shows the end of all other writers reads the
committed rows and its own.

**Theorem (`Inv.turn`).** A step of a transaction or of the table keeps what the index has.

**Theorem (`Inv.mark`).** So does a mark.
-/

namespace UltraSql.Aggregating

open List Function Option
open Timeline (Client Visit)
open Heap
open Index

variable {ρ σ ε : Type} {B : Builder ρ σ ε} {t t' : Timeline.State} {s s' : State ρ σ ε}
  {ts ts' : List (Tuple ρ)} {v v' : Tuple ρ} {x y z b n k : ℕ} {c d : Client} {h : TupleHeader}
  {o : Option ℕ} {writers : List ℕ}

/-! ## What a query reads -/

theorem filterMap_eq_of_getElem? {α β : Type} {f f' : α → Option β} {l l' : List α}
    (h : ∀ n : ℕ, l'[n]?.bind f' = l[n]?.bind f) : l'.filterMap f' = l.filterMap f := by
  induction l generalizing l' with
  | nil =>
    refine filterMap_eq_nil_iff.2 fun a ha => ?_
    obtain ⟨n, hn⟩ := mem_iff_getElem?.1 ha
    have := h n
    rwa [hn] at this
  | cons a l ih =>
    cases l' with
    | nil =>
      refine (filterMap_eq_nil_iff.2 fun a' ha' => ?_).symm
      obtain ⟨n, hn⟩ := mem_iff_getElem?.1 ha'
      have := h n
      rw [hn] at this
      exact this.symm
    | cons a' l' =>
      have h₀ : f' a' = f a := h 0
      rw [filterMap_cons, filterMap_cons, h₀, ih fun n => h (n + 1)]

/-- **A statement reads the same rows after a step as before.** -/
theorem scanTable_step (hi : TableInv t ts) (hstep : TableStep t ts t' ts')
    (hc : t.clients.lookup x = some c) (hc' : t'.clients.lookup x = some c)
    (hp : c.phase = .running) : scanTable ts' c.handle.snapshot t'.mgr.status =
      scanTable ts c.handle.snapshot t.mgr.status := by
  refine filterMap_eq_of_getElem? fun n => ?_
  cases hv : ts[n]? with
  | some v =>
    obtain ⟨v', hv', hk⟩ := hi.kept hstep hv
    have hseen := hi.isSeen_step hstep hc hc' hp hv'
    rw [hv', bind_some, bind_some, hk.row]
    refine if_congr (hseen.trans ⟨?_, fun h => ⟨v, hv, hk.row.symm, h⟩⟩) rfl rfl
    rintro ⟨w, hw, -, hw'⟩
    obtain rfl := mem_unique hv hw
    exact hw'
  | none =>
    cases hv' : ts'[n]? with
    | none => rfl
    | some v' =>
      refine if_neg fun hseen => ?_
      obtain ⟨w, hw, -⟩ := (hi.isSeen_step hstep hc hc' hp hv').1 hseen
      rw [hv] at hw
      cases hw

/-! ## The rows that count -/

/-- The writes of the transaction count for `o`: it is `o`, or has committed. -/
def Counts (t : Timeline.State) (o : Option ℕ) (z : ℕ) : Prop := z ∈ o ∨ Committed t z

instance (t : Timeline.State) (o : Option ℕ) : DecidablePred (Counts t o) := fun _ =>
  inferInstanceAs (Decidable (_ ∨ _))

def Current (t : Timeline.State) (o : Option ℕ) (h : TupleHeader) : Prop :=
  Counts t o h.xmin ∧ ¬ (h.xmax ≠ 0 ∧ Counts t o h.xmax)

instance (t : Timeline.State) (o : Option ℕ) : DecidablePred (Current t o) := fun _ =>
  inferInstanceAs (Decidable (_ ∧ ¬ (_ ∧ _)))

/-- The rows that are committed, or as `o` has left them. -/
def image (t : Timeline.State) (ts : List (Tuple ρ)) (o : Option ℕ) : List ρ :=
  ts.filterMap fun v => if Current t o v.header then some v.row else none

/-- All writes are by the given transactions. -/
def WrittenBy (writers : List ℕ) (ts : List (Tuple ρ)) : Prop :=
  ∀ v ∈ ts, v.header.xmin ∈ writers ∧ (v.header.xmax ≠ 0 → v.header.xmax ∈ writers)

theorem image_congr {o' : Option ℕ} (hw : WrittenBy writers ts)
    (h : ∀ z ∈ writers, Counts t o z ↔ Counts t' o' z) : image t ts o = image t' ts o' := by
  refine filterMap_congr fun v hv => ?_
  obtain ⟨hmin, hmax⟩ := hw v hv
  refine if_congr (and_congr (h _ hmin) (not_congr (and_congr_right fun hx => ?_))) rfl rfl
  exact h _ (hmax hx)

/-- The reader's snapshot shows the outcome of all other writers. -/
def UpToDate (s : State ρ σ ε) (x : ℕ) (c : Client) : Prop :=
  ∀ y ∈ s.writers, y ≠ x → ∃ e ∈ s.txn.ended y, e < c.view

/-- The session has not written in its current command. -/
def Unwritten (ts : List (Tuple ρ)) (x : ℕ) (c : Client) : Prop :=
  ∀ v ∈ ts, (v.header.xmin = x → v.header.cmin < c.handle.currentCommand) ∧
    (v.header.xmax = x → v.header.cmax < c.handle.currentCommand)

theorem sees_iff_counts (hi : TableInv s.txn s.table) (hc : s.txn.clients.lookup x = some c)
    (hup : UpToDate s x c) (hz : z ∈ s.writers) (hheld : Held s.txn ⟨z, z, k⟩)
    (hk : z = x → k < c.handle.currentCommand) :
    sees s.txn x c.handle.currentCommand ⟨z, z, k⟩ = true ↔ Counts s.txn (some x) z := by
  obtain ⟨d, hd, -⟩ := id hheld
  have hown := hheld.own hi.solo hi.txn hd
  by_cases hzx : z = x
  · rw [sees_own hc hzx]
    subst hzx
    obtain rfl := mem_unique hc hd
    exact ⟨fun _ => .inl rfl, fun _ => ⟨hown, hk rfl⟩⟩
  · obtain ⟨e, he, hlt⟩ := hup z hz hzx
    rw [sees_foreign hc hd hzx]
    constructor
    · exact fun h => .inr ⟨d, hd, h.1⟩
    · rintro (h | ⟨d', hd', hcom⟩)
      · exact absurd (some.inj h).symm hzx
      · obtain rfl := mem_unique hd hd'
        exact ⟨hcom, hown, e, he, hlt⟩

/-- **A reader that is up to date reads the rows that count for it.** -/
theorem scan_eq_image (hi : TableInv s.txn s.table) (hw : WrittenBy s.writers s.table)
    (hc : s.txn.clients.lookup x = some c) (hp : c.phase = .running) (hup : UpToDate s x c)
    (hun : Unwritten s.table x c) : s.scan c = image s.txn s.table (some x) := by
  refine filterMap_congr fun v hv => ?_
  obtain ⟨n, hn⟩ := mem_iff_getElem?.1 hv
  have hh := hi.header n v hn
  refine if_congr ((hi.isSeen_iff hc hp hn).trans (and_congr ?_ ?_)) rfl rfl
  · exact sees_iff_counts hi hc hup (hw v hv).1 hh.inserted.held (hun v hv).1
  · refine not_congr (and_congr_right fun hx => ?_)
    exact sees_iff_counts hi hc hup ((hw v hv).2 hx) (hh.held hx) (hun v hv).2

/-! ## The invariant -/

namespace Read

/-- What the query has got from the table, or has been served. -/
def result : Read σ ε → Option (Except ε σ)
  | built _ rows | rebuilt rows | served rows => some (.ok rows)
  | failed e => some (.error e)
  | _ => Option.none

/-- The query is about to read the rows of the index. -/
def passed : Read σ ε → Bool
  | clearing | reading => true
  | _ => false

/-- The query has rejected the rows of the index. -/
def forcing : Read σ ε → Bool
  | forced | rebuilt _ | clearing => true
  | _ => false

theorem inProgress_of_rebuilding {r : Read σ ε} (h : r.rebuilding = true) :
    r.inProgress = true := by
  cases r <;> first | rfl | cases h

theorem inProgress_of_forcing {r : Read σ ε} (h : r.forcing = true) : r.inProgress = true := by
  cases r <;> first | rfl | cases h

theorem inProgress_of_passed {r : Read σ ε} (h : r.passed = true) : r.inProgress = true := by
  cases r <;> first | rfl | cases h

end Read

/-- The transaction has not begun to end. -/
def Live (c : Client) : Prop := c.phase = .running ∨ ∃ todo, c.phase = .undoing todo

/-- Every other transaction that has marked the index is over. -/
def OthersOver (s : State ρ σ ε) (x : ℕ) : Prop :=
  ∀ y ∈ s.writers, y ≠ x → ∃ e, s.txn.ended y = some e

/-- What the index has while nobody changes it: the committed rows, the rows of the last writer, or
those of a last writer that has rolled back. -/
inductive Content (B : Builder ρ σ ε) (s : State ρ σ ε) : Prop
  | committed (hover : ∀ y ∈ s.writers, ∃ e, s.txn.ended y = some e)
    (hrows : B.build (image s.txn s.table none) = .ok s.index.rows)
  | own (b : ℕ) (d : Client) (hd : s.txn.clients.lookup b = some d) (hmem : b ∈ s.writers)
    (hb : s.index.lastWriterXid = b) (hcom : ¬ Committed s.txn b) (hun : ¬ Undone s.txn b)
    (hover : OthersOver s b) (hrows : B.build (image s.txn s.table (some b)) = .ok s.index.rows)
  | rolledBack (b : ℕ) (hb : s.index.lastWriterXid = b) (hun : Undone s.txn b)
    (hover : OthersOver s b)

structure Inv (B : Builder ρ σ ε) (s : State ρ σ ε) : Prop where
  table : TableInv s.txn s.table
  stamps : WrittenBy s.writers s.table
  known : ∀ y ∈ s.writers, ∃ d, s.txn.clients.lookup y = some d
  marked : ∀ x, s.statement x ≠ .fresh → x ∈ s.writers
  recorded : ∀ x, s.statement x = .recorded →
    ∃ c, s.txn.clients.lookup x = some c ∧ c.phase = .running
  unwritten : ∀ x c, s.txn.clients.lookup x = some c → Live c → s.statement x ≠ .writing →
    Unwritten s.table x c
  reader : ∀ x, s.read x ≠ .none → ∃ c, s.txn.clients.lookup x = some c ∧ c.phase = .running
  statement : ∀ x, (s.read x).inProgress = true → s.statement x = .fresh ∨ s.statement x = .marked
  quiet : ∀ x c, (s.read x).inProgress = true → s.txn.clients.lookup x = some c →
    UpToDate s x c → s.index.dirty = false ∧ ∀ y, y ≠ x → (s.read y).rebuilding = false
  unmarked : ∀ x, (s.read x).forcing = true → x ∉ s.writers
  outcome : ∀ x c r, s.txn.clients.lookup x = some c → (s.read x).result = some r →
    B.build (s.scan c) = r
  right : ∀ x c, s.txn.clients.lookup x = some c → (s.read x).passed = true → UpToDate s x c →
    B.build (s.scan c) = .ok s.index.rows
  content : s.index.dirty = false → (∀ y, (s.read y).rebuilding = false) →
    (∀ y, s.statement y ≠ .recorded) → Content B s

theorem inv_init : Inv B (machine B).init where
  table := tableInv_init
  stamps _ hv := absurd hv not_mem_nil
  known _ hy := absurd hy not_mem_nil
  marked _ h := absurd rfl h
  recorded _ h := by cases h
  unwritten _ _ _ _ _ _ hv := absurd hv not_mem_nil
  reader _ h := absurd rfl h
  statement _ h := by cases h
  quiet _ _ h := by cases h
  unmarked _ h := by cases h
  outcome _ _ _ _ h := by cases h
  right _ _ _ h := by cases h
  content _ _ _ := .committed (fun _ hy => absurd hy not_mem_nil) B.build_nil

/-! ## Steps of transactions and of the table -/

theorem UpToDate.of_step (h : UpToDate s' x c) (hi : Timeline.Inv s.txn)
    (hg : Ages s.txn s'.txn) (hsub : s.writers ⊆ s'.writers)
    (hc : s.txn.clients.lookup x = some c) : UpToDate s x c := by
  intro y hy hyx
  obtain ⟨e, he, hlt⟩ := h y (hsub hy) hyx
  refine ⟨e, (hg.ended y e he).resolve_right fun heq => ?_, hlt⟩
  have := (hi.client x c hc).view
  omega

theorem committed_or_undone (hi : Timeline.Inv t) (hd : t.clients.lookup z = some d) {e : ℕ}
    (he : t.ended z = some e) : Committed t z ∨ Undone t z := by
  cases hp : d.phase with
  | committed => exact .inl ⟨d, hd, hp⟩
  | aborted => exact .inr ⟨d, hd, .inl hp⟩
  | running | undoing | aborting =>
    have := (hi.client z d hd).open_iff.1 (by rw [hp]; rfl)
    rw [he] at this
    cases this

/-- **What the index has stays what it should be** while only time goes on. -/
theorem Content.age (h : Content B s) (hi : Inv B s) (hi' : Timeline.Inv s'.txn)
    (hg : Ages s.txn s'.txn) (htable : s'.table = s.table) (hindex : s'.index = s.index)
    (hwriters : s'.writers = s.writers) : Content B s' := by
  have hcommitted : ∀ {z e}, z ∈ s.writers → s.txn.ended z = some e →
      (Committed s'.txn z ↔ Committed s.txn z) := fun {z e} hz he => by
    obtain ⟨d, hd⟩ := hi.known z hz
    exact committed_iff_of_ended hi.table.txn hg hd he
  have hended : ∀ {y}, (∃ e, s.txn.ended y = some e) → ∃ e, s'.txn.ended y = some e :=
    fun {y} ⟨e, he⟩ => ⟨e, hg.evolves.ended y e he⟩
  have hbuild : ∀ {o o'}, B.build (image s.txn s.table o) = .ok s.index.rows →
      (∀ z ∈ s.writers, Counts s.txn o z ↔ Counts s'.txn o' z) →
      B.build (image s'.txn s'.table o') = .ok s'.index.rows := fun hrows h => by
    rw [htable, hindex, ← hrows, image_congr hi.stamps h]
  cases h with
  | committed hover hrows =>
    refine .committed (fun y hy => hended (hover y (hwriters ▸ hy))) (hbuild hrows fun z hz => ?_)
    obtain ⟨e, he⟩ := hover z hz
    exact or_congr_right (hcommitted hz he).symm
  | own b d hd hmem hb hcom hun hover hrows =>
    have hover' : OthersOver s' b := fun y hy hyb => hended (hover y (hwriters ▸ hy) hyb)
    obtain ⟨d', hd', -⟩ := hg.evolves.moves b d hd
    by_cases hcom' : Committed s'.txn b
    · refine .committed (fun y hy => ?_) (hbuild hrows fun z hz => ?_)
      · by_cases hyb : y = b
        · subst hyb
          obtain ⟨d₁, hd₁, hp⟩ := hcom'
          exact hi'.exists_ended hd₁ hp
        · exact hover' y hy hyb
      · by_cases hzb : z = b
        · subst hzb
          exact ⟨fun _ => .inr hcom', fun _ => .inl rfl⟩
        · obtain ⟨e, he⟩ := hover z hz hzb
          rw [Counts, Counts, hcommitted hz he]
          simp [Ne.symm hzb]
    by_cases hun' : Undone s'.txn b
    · exact .rolledBack b (hindex ▸ hb) hun' hover'
    refine .own b d' hd' (hwriters ▸ hmem) (hindex ▸ hb) hcom' hun' hover'
      (hbuild hrows fun z hz => ?_)
    by_cases hzb : z = b
    · subst hzb
      exact ⟨fun _ => .inl rfl, fun _ => .inl rfl⟩
    · obtain ⟨e, he⟩ := hover z hz hzb
      exact or_congr_right (hcommitted hz he).symm
  | rolledBack b hb hun hover =>
    exact .rolledBack b (hindex ▸ hb) (hun.mono hg) fun y hy hyb =>
      hended (hover y (hwriters ▸ hy) hyb)

/-- What a step of the table does to a session: nothing, a write in its statement, or the end of the
statement. -/
inductive SessionStep (s s' : State ρ σ ε) (y : ℕ) : Prop
  | stay (hread : s'.read y = s.read y) (hst : s'.statement y = s.statement y)
    (hclient : ∀ d, s.txn.clients.lookup y = some d → s'.txn.clients.lookup y = some d ∨
      d.phase ≠ .running)
  | write (hread : s'.read y = s.read y) (hr : (s.read y).inProgress = false)
    (hst : s'.statement y = .writing) (hst' : s.statement y ≠ .recorded) (hy : y ∈ s.writers)
    (htxn : s'.txn = s.txn)
  | done (hread : s'.read y = .none) (hr : (s.read y).inProgress = false)
    (hst : s'.statement y = .fresh) (hst' : s.statement y ≠ .recorded)

section

variable (hi : Inv B s)

include hi

/-- A session whose query goes on has the transaction that it had. -/
theorem Inv.client_of_read {α : Type} (f : Read σ ε → α) (h : SessionStep s s' x)
    (hread : f (s'.read x) ≠ f .none) :
    s'.read x = s.read x ∧ ∃ c, s.txn.clients.lookup x = some c ∧ c.phase = .running ∧
      s'.txn.clients.lookup x = some c := by
  have hread : s'.read x ≠ .none := fun h => hread (congrArg f h)
  cases h with
  | stay heq _ hclient =>
    obtain ⟨c, hc, hp⟩ := hi.reader x (heq ▸ hread)
    exact ⟨heq, c, hc, hp, (hclient c hc).resolve_right fun h => h hp⟩
  | write heq _ _ _ _ htxn =>
    obtain ⟨c, hc, hp⟩ := hi.reader x (heq ▸ hread)
    exact ⟨heq, c, hc, hp, htxn ▸ hc⟩
  | done heq => exact absurd heq hread

/-- **A step of the table keeps the invariant.** -/
theorem Inv.turn (hstep : TableStep s.txn s.table s'.txn s'.table) (hindex : s'.index = s.index)
    (hwriters : s'.writers = s.writers) (hstamps : WrittenBy s.writers s'.table)
    (hsession : ∀ y, SessionStep s s' y)
    (hunwritten : ∀ y c, s'.txn.clients.lookup y = some c → Live c → s'.statement y ≠ .writing →
      Unwritten s'.table y c) (hcontent : s.index.dirty = false → Content B s → Content B s') :
    Inv B s' := by
  have hg := hi.table.ages hstep
  have hscan : ∀ {y c}, s.txn.clients.lookup y = some c → c.phase = .running →
      s'.txn.clients.lookup y = some c → s'.scan c = s.scan c := fun hc hp hc' =>
    scanTable_step hi.table hstep hc hc' hp
  have hup : ∀ {y c}, UpToDate s' y c → s.txn.clients.lookup y = some c → UpToDate s y c :=
    fun h hc => h.of_step hi.table.txn hg (fun z hz => hwriters ▸ hz) hc
  have hrebuilding : ∀ y, (s.read y).rebuilding = false → (s'.read y).rebuilding = false := by
    intro y hy
    cases hsession y with
    | stay heq | write heq => rwa [heq]
    | done heq => rw [heq]; rfl
  refine
    { table := hi.table.step hstep
      stamps := hwriters ▸ hstamps
      known := fun y hy => ?_
      marked := fun y hy => ?_
      recorded := fun y hy => ?_
      unwritten := hunwritten
      reader := fun y hy => ?_
      statement := fun y hy => ?_
      quiet := fun y c hy hc hupto => ?_
      unmarked := fun y hy => ?_
      outcome := fun y c r hc hr => ?_
      right := fun y c hc hr hupto => ?_
      content := fun hd hr hst => ?_ }
  · obtain ⟨d, hd⟩ := hi.known y (hwriters ▸ hy)
    obtain ⟨d', hd', -⟩ := hg.evolves.moves y d hd
    exact ⟨d', hd'⟩
  · rw [hwriters]
    cases hsession y with
    | stay _ heq => exact hi.marked y (heq ▸ hy)
    | write _ _ _ _ hw => exact hw
    | done _ _ heq => exact absurd heq hy
  · cases hsession y with
    | stay _ heq hclient =>
      obtain ⟨c, hc, hp⟩ := hi.recorded y (heq ▸ hy)
      exact ⟨c, (hclient c hc).resolve_right fun h => h hp, hp⟩
    | write _ _ heq | done _ _ heq =>
      rw [hy] at heq
      cases heq
  · obtain ⟨-, c, -, hp, hc'⟩ := hi.client_of_read id (hsession y) hy
    exact ⟨c, hc', hp⟩
  · cases hsession y with
    | stay heq hst => exact hst ▸ hi.statement y (heq ▸ hy)
    | write heq hr =>
      rw [heq, hr] at hy
      cases hy
    | done heq =>
      rw [heq] at hy
      cases hy
  · obtain ⟨heq, c₀, hc₀, -, hc₀'⟩ :=
      hi.client_of_read Read.inProgress (hsession y) (hy.trans_ne nofun)
    obtain rfl := mem_unique hc hc₀'
    obtain ⟨hd, hr⟩ := hi.quiet y c (heq ▸ hy) hc₀ (hup hupto hc₀)
    exact ⟨hindex ▸ hd, fun z hz => hrebuilding z (hr z hz)⟩
  · obtain ⟨heq, -⟩ := hi.client_of_read Read.forcing (hsession y) (hy.trans_ne nofun)
    rw [hwriters]
    exact hi.unmarked y (heq ▸ hy)
  · obtain ⟨heq, c₀, hc₀, hp, hc₀'⟩ :=
      hi.client_of_read Read.result (hsession y) (hr.trans_ne nofun)
    obtain rfl := mem_unique hc hc₀'
    rw [hscan hc₀ hp hc]
    exact hi.outcome y c r hc₀ (heq ▸ hr)
  · obtain ⟨heq, c₀, hc₀, hp, hc₀'⟩ :=
      hi.client_of_read Read.passed (hsession y) (hr.trans_ne nofun)
    obtain rfl := mem_unique hc hc₀'
    rw [hscan hc₀ hp hc, hindex]
    exact hi.right y c hc₀ (heq ▸ hr) (hup hupto hc₀)
  · rw [hindex] at hd
    refine hcontent hd (hi.content hd (fun y => ?_) fun y hy => ?_)
    · cases hsession y with
      | stay heq | write heq => exact heq ▸ hr y
      | done _ hprog =>
        by_contra h
        rw [Read.inProgress_of_rebuilding (Bool.not_eq_false _ |>.mp h)] at hprog
        cases hprog
    · cases hsession y with
      | stay _ heq => exact hst y (heq.trans hy)
      | write _ _ _ hne | done _ _ _ hne => exact hne hy

theorem Inv.txn {a : Timeline.Act} (ha : a.plain = true)
    (hav : ∀ x ∈ a.session, s.available x = true) (ht : Timeline.Timely s.txn a = true)
    (h : Timeline.step s.txn a = some t') : Inv B (s.afterTxn t' a.session) := by
  have hstep : TableStep s.txn s.table t' s.table := .time ha ht h
  have hg := hi.table.ages hstep
  obtain ⟨htxn, htable, hindex, hwriters⟩ : (s.afterTxn t' a.session).txn = t' ∧
      (s.afterTxn t' a.session).table = s.table ∧ (s.afterTxn t' a.session).index = s.index ∧
      (s.afterTxn t' a.session).writers = s.writers := by
    cases a.session <;> exact ⟨rfl, rfl, rfl, rfl⟩
  have hother : ∀ {y}, a.session ≠ some y → (s.afterTxn t' a.session).read y = s.read y ∧
      (s.afterTxn t' a.session).statement y = s.statement y := by
    intro y hy
    cases hx : a.session with
    | none => exact ⟨rfl, rfl⟩
    | some x =>
      have hyx : y ≠ x := fun h => hy (hx.trans (congrArg some h.symm))
      exact ⟨update_of_ne hyx _ _, update_of_ne hyx _ _⟩
  refine hi.turn (by rw [htxn, htable]; exact hstep) hindex hwriters (htable ▸ hi.stamps)
    (fun y => ?_) (fun y c hc hlive hst => ?_) fun _ hcon =>
      hcon.age hi (by rw [htxn]; exact (hi.table.step hstep).txn) (by rw [htxn]; exact hg) htable
        hindex hwriters
  · by_cases hy : a.session = some y
    · have hava := hav y hy
      simp only [State.available, Bool.and_eq_true, decide_eq_true_eq, Bool.not_eq_true'] at hava
      rw [hy]
      exact .done (update_self _ _ _) hava.2 (update_self _ _ _) hava.1
    · obtain ⟨hread, hst⟩ := hother hy
      refine .stay hread hst fun d hd => .inl ?_
      rw [htxn]
      exact hi.table.txn.lookup_of_session_ne h hy hd
  · rw [htxn] at hc
    rw [htable]
    by_cases hy : a.session = some y
    · -- the session goes on with a new command, if it goes on
      obtain ⟨c₀, c', hc₀, hm, hlook⟩ := hi.table.txn.step_session h hy
      have hc' := hlook y
      rw [if_pos rfl, hc] at hc'
      cases hc'
      cases a with
      | refresh x xmax =>
        cases hy
        have hcommand := hi.table.txn.command_of_refresh ht h hc₀ hc
        intro v hv
        obtain ⟨n, hn⟩ := mem_iff_getElem?.1 hv
        have hh := hi.table.header n v hn
        refine ⟨fun hx => ?_, fun hx => ?_⟩
        · obtain ⟨d, hd, -, hle⟩ := hh.inserted.held
          rw [show v.header.ins.owner = y from hx, hc₀] at hd
          cases hd
          exact hcommand ▸ Nat.lt_succ_of_le hle
        · obtain ⟨d, hd, -, hle⟩ := hh.held (hx ▸ hi.table.txn.ne_zero hc₀)
          rw [show v.header.del.owner = y from hx, hc₀] at hd
          cases hd
          exact hcommand ▸ Nat.lt_succ_of_le hle
      | commit | abort =>
        cases hy
        rcases hlive with hl | ⟨todo, hl⟩ <;> rw [hm.2] at hl <;> cases hl
      | rollback x =>
        cases hy
        obtain ⟨-, todo, hp⟩ := hm
        rcases hlive with hl | ⟨todo, hl⟩ <;> rw [hp] at hl <;> cases hl
      | allocate | publish | begin => cases hy
      | savepoint | release | rollbackTo => cases ha
    · cases hd : s.txn.clients.lookup y with
      | some d =>
        have hsame := hi.table.txn.lookup_of_session_ne h hy hd
        obtain rfl := mem_unique hc hsame
        exact hi.unwritten y c hd hlive ((hother hy).2 ▸ hst)
      | none =>
        intro v hv
        have hno : ∀ z ∈ s.writers, z ≠ y := by
          rintro z hz rfl
          obtain ⟨d, hd'⟩ := hi.known z hz
          rw [hd] at hd'
          cases hd'
        refine ⟨fun hx => absurd hx (hno _ (hi.stamps v hv).1), fun hx => ?_⟩
        by_cases hzero : v.header.xmax = 0
        · exact absurd (hx.symm.trans hzero) ((hi.table.step hstep).txn.ne_zero hc)
        · exact absurd hx (hno _ ((hi.stamps v hv).2 hzero))

theorem Inv.visit {u : ℕ × Visit} (h : s.txn.nextVisit x = some (u, t')) :
    Inv B { s with txn := s.txn.tick t' } := by
  have hstep : TableStep s.txn s.table (s.txn.tick t') s.table := .visit h
  obtain ⟨c, p, todo, hc, rfl, hp⟩ := Timeline.nextVisit_eq_some h
  have hother : ∀ y d, s.txn.clients.lookup y = some d → y ≠ x →
      (s.txn.tick (s.txn.setClient x { c with phase := p })).clients.lookup y = some d :=
    fun y d hd hyx => (Timeline.lookup_setClient s.txn x y _).trans ((if_neg hyx).trans hd)
  refine hi.turn hstep rfl rfl hi.stamps (fun y => .stay rfl rfl fun d hd => ?_)
    (fun y d hd hlive hst => ?_) fun _ hcon =>
      hcon.age hi (hi.table.step hstep).txn (hi.table.ages hstep) rfl rfl rfl
  · by_cases hyx : y = x
    · subst hyx
      obtain rfl := mem_unique hc hd
      refine .inr fun hrun => ?_
      rcases hp with ⟨hp, -⟩ | ⟨hp, -⟩ <;> rw [hrun] at hp <;> cases hp
    · exact .inl (hother y d hd hyx)
  · have hlook := (Timeline.lookup_setClient s.txn x y { c with phase := p }).symm.trans hd
    split_ifs at hlook with hyx
    · subst hyx
      cases hlook
      rcases hp with ⟨hp, -⟩ | ⟨-, hp⟩
      · exact hi.unwritten y c hc (.inr ⟨_, hp⟩) hst
      · rcases hlive with hl | ⟨todo, hl⟩ <;> rw [show p = _ from hl] at hp <;> cases hp
    · exact hi.unwritten y d hlook hlive hst

section

variable (hc : s.txn.clients.lookup x = some c)
include hc

/-- Stamps of others, and stamps from before, leave the command of a session unwritten. -/
theorem Inv.unwritten_of_table {table : List (Tuple ρ)}
    (htable : ∀ v' ∈ table, (v'.header.xmin ≠ x ∨ ∃ v ∈ s.table, v.header.ins = v'.header.ins) ∧
      (v'.header.xmax ≠ x ∨ ∃ v ∈ s.table, v.header.del = v'.header.del)) (hlive : Live c)
    (hst : s.statement x ≠ .writing) : Unwritten table x c := by
  intro v' hv'
  have hun := hi.unwritten x c hc hlive hst
  obtain ⟨hins, hdel⟩ := htable v' hv'
  refine ⟨fun hx => ?_, fun hx => ?_⟩
  · obtain ⟨v, hv, hins⟩ := hins.resolve_left (not_not.2 hx)
    have hcommand : v.header.cmin = v'.header.cmin := congrArg Stamp.command hins
    exact hcommand ▸ (hun v hv).1 ((congrArg Stamp.owner hins).trans hx)
  · obtain ⟨v, hv, hdel⟩ := hdel.resolve_left (not_not.2 hx)
    have hcommand : v.header.cmax = v'.header.cmax := congrArg Stamp.command hdel
    exact hcommand ▸ (hun v hv).2 ((congrArg Stamp.owner hdel).trans hx)

theorem Inv.clear {todo : List (ℕ × Visit)}
    (hp : c.phase = .aborting ((v.header.xmax, .stamps) :: todo)) (hv : s.table[n]? = some v) :
    Inv B { s with table := clearTuple s.table n v } := by
  have hxmax : v.header.xmax = x :=
    hi.table.visit_xid hc hp
  have hmem := mem_of_getElem? hv
  have hx : x ∈ s.writers := by
    rw [← hxmax]
    exact (hi.stamps v hmem).2 (hxmax ▸ hi.table.txn.ne_zero hc)
  have hnot : ∀ e, s.txn.ended x ≠ some e := fun e he => by
    have := (hi.table.txn.client x c hc).open_iff.1 (by rw [hp]; rfl)
    rw [he] at this
    cases this
  have hstamps : ∀ v' ∈ clearTuple s.table n v, (∃ v ∈ s.table, v.header.ins = v'.header.ins) ∧
      (v'.header.xmax = 0 ∨ ∃ v ∈ s.table, v.header.del = v'.header.del) := by
    intro v' hv'
    rcases mem_or_eq_of_mem_set hv' with hv' | rfl
    · exact ⟨⟨v', hv', rfl⟩, .inr ⟨v', hv', rfl⟩⟩
    · exact ⟨⟨v, hmem, rfl⟩, .inl rfl⟩
  refine hi.turn (.clear hc hp hv rfl) rfl rfl (fun v' hv' => ?_)
    (fun y => .stay rfl rfl fun d hd => .inl hd)
    (fun y d hd hlive hst => hi.unwritten_of_table hd (fun v' hv' => ?_) hlive hst)
    fun _ hcon => ?_
  · obtain ⟨⟨w, hw, hins⟩, hdel⟩ := hstamps v' hv'
    have hmin : w.header.xmin = v'.header.xmin := congrArg Stamp.owner hins
    refine ⟨hmin ▸ (hi.stamps w hw).1, fun hne => ?_⟩
    obtain ⟨w', hw', hdel⟩ := hdel.resolve_left hne
    have heq : w'.header.xmax = v'.header.xmax := congrArg Stamp.owner hdel
    exact heq ▸ (hi.stamps w' hw').2 (heq ▸ hne)
  · refine (hstamps v' hv').imp .inr (Or.imp_left fun hzero hy => ?_)
    exact hi.table.txn.ne_zero hd (hy.symm.trans hzero)
  · cases hcon with
    | committed hover =>
      obtain ⟨e, he⟩ := hover x hx
      exact absurd he (hnot e)
    | own b d hd hmem hb hcom hun hover =>
      by_cases hxb : x = b
      · exact absurd ⟨c, hxb ▸ hc, .inr ⟨_, hp⟩⟩ hun
      · obtain ⟨e, he⟩ := hover x hx hxb
        exact absurd he (hnot e)
    | rolledBack b hb hun hover => exact .rolledBack b hb hun hover

theorem Inv.write {w : Write ρ} {table : List (Tuple ρ)} (hp : c.phase = .running)
    (hav : s.available x = true) (hst : s.statement x ≠ .fresh) (h : s.writeTable c w = some table)
    (hdirty : s.index.dirty = true) :
    Inv B { s with table := table, statement := update s.statement x .writing } := by
  obtain ⟨hstep, hstamps⟩ := writeTable_spec hc hp h
  have hx := hi.marked x hst
  have hxid := writeXid_eq hi.table.solo hc
  simp only [State.available, Bool.and_eq_true, decide_eq_true_eq, Bool.not_eq_true'] at hav
  refine hi.turn hstep rfl rfl (fun v' hv' => ?_) (fun y => ?_) (fun y d hd hlive hst => ?_)
    fun hd => absurd (hd.symm.trans hdirty) nofun
  · obtain ⟨hins, hdel⟩ := hstamps v' hv'
    refine ⟨?_, fun hne => ?_⟩
    · rcases hins with hins | ⟨v, hv, hins⟩
      · have : v'.header.xmin = c.handle.writeXid := congrArg Stamp.owner hins
        exact this ▸ hxid.symm ▸ hx
      · have : v.header.xmin = v'.header.xmin := congrArg Stamp.owner hins
        exact this ▸ (hi.stamps v hv).1
    · rcases hdel.resolve_left hne with hdel | ⟨v, hv, hdel⟩
      · have : v'.header.xmax = c.handle.writeXid := congrArg Stamp.owner hdel
        exact this ▸ hxid.symm ▸ hx
      · have heq : v.header.xmax = v'.header.xmax := congrArg Stamp.owner hdel
        exact heq ▸ (hi.stamps v hv).2 (heq ▸ hne)
  · by_cases hyx : y = x
    · subst hyx
      exact .write rfl hav.2 (update_self _ _ _) hav.1 hx rfl
    · exact .stay rfl (update_of_ne hyx _ _) fun d hd => .inl hd
  · have hyx : y ≠ x := by
      rintro rfl
      exact hst (update_self _ _ _)
    have hst' : s.statement y ≠ .writing := by
      rwa [← show update s.statement x .writing y = s.statement y from
        update_of_ne hyx _ _]
    refine hi.unwritten_of_table hd (fun v' hv' => ?_) hlive hst'
    obtain ⟨hins, hdel⟩ := hstamps v' hv'
    refine ⟨hins.imp_left fun hins hmin => ?_, ?_⟩
    · exact hyx (hmin.symm.trans ((congrArg Stamp.owner hins).trans hxid))
    · rcases hdel with hzero | hdel | hdel
      · exact .inl fun hmax => hi.table.txn.ne_zero hd (hmax.symm.trans hzero)
      · exact .inl fun hmax => hyx (hmax.symm.trans ((congrArg Stamp.owner hdel).trans hxid))
      · exact .inr hdel

end

end

/-! ## Steps of a mark -/

section

variable (hc : s.txn.clients.lookup x = some c) (hp : c.phase = .running)
include hc hp

/-- A running transaction that has marked the index leaves nobody else up to date. -/
theorem Inv.not_upToDate (hi : Inv B s) (hx : x ∈ s.writers) (hxy : x ≠ y) :
    ¬ UpToDate s y d := fun h => by
  obtain ⟨e, he, -⟩ := h x hx hxy
  exact hi.table.txn.ne_of_ended hc hp he rfl

/-- **A mark keeps the invariant**, in both of its parts. -/
theorem Inv.mark (hi : Inv B s) {index' : Runtime σ} {st' : Statement} {writers' : List ℕ}
    (hr : (s.read x).inProgress = false) (hst : s.statement x ≠ .writing)
    (hw : ∀ y, y ∈ writers' ↔ y = x ∨ y ∈ s.writers) (hno : index'.dirty = true ∨ st' = .recorded) :
    Inv B { s with
      index := index'
      statement := update s.statement x st'
      writers := writers' } := by
  have hother : ∀ {y}, y ≠ x → update s.statement x st' y = s.statement y :=
    fun hyx => update_of_ne hyx _ _
  have hreader : ∀ {y}, (s.read y).inProgress = true → y ≠ x := by
    rintro y hy rfl
    rw [hr] at hy
    cases hy
  -- nobody who reads is up to date now
  have hlate : ∀ {y d}, (s.read y).inProgress = true → ¬ ∀ z ∈ writers', z ≠ y →
      ∃ e ∈ s.txn.ended z, e < d := fun hy hup => by
    obtain ⟨e, he, -⟩ := hup x ((hw x).2 (.inl rfl)) (hreader hy).symm
    exact hi.table.txn.ne_of_ended hc hp he rfl
  refine
    { hi with
      stamps := fun v hv => ?_
      known := fun y hy => ?_
      marked := fun y hy => (hw y).2 ?_
      recorded := fun y hy => ?_
      unwritten := fun y d hd hlive hy => hi.unwritten y d hd hlive ?_
      statement := fun y hy => ?_
      quiet := fun y d hy hd hup => absurd hup (hlate hy)
      unmarked := fun y hy hmem => ?_
      right := fun y d hd hy hup => absurd hup (hlate (Read.inProgress_of_passed hy))
      content := fun hd _ hst => ?_ }
  · exact ⟨(hw _).2 (.inr (hi.stamps v hv).1), fun hne => (hw _).2 (.inr ((hi.stamps v hv).2 hne))⟩
  · rcases (hw y).1 hy with rfl | hy
    · exact ⟨c, hc⟩
    · exact hi.known y hy
  · by_cases hyx : y = x
    · exact .inl hyx
    · exact .inr (hi.marked y fun h => hy ((hother hyx).trans h))
  · by_cases hyx : y = x
    · exact ⟨c, hyx ▸ hc, hp⟩
    · exact hi.recorded y ((hother hyx).symm.trans hy)
  · by_cases hyx : y = x
    · exact hyx ▸ hst
    · exact fun h => hy ((hother hyx).trans h)
  · have := hi.statement y hy
    rwa [← hother (hreader hy)] at this
  · exact hi.unmarked y hy
      (((hw y).1 hmem).resolve_left (hreader (Read.inProgress_of_forcing hy)))
  · rcases hno with hdirty | hrec
    · rw [show index'.dirty = false from hd] at hdirty
      cases hdirty
    · exact absurd ((update_self _ _ _).trans hrec) (hst x)

theorem Inv.record (hi : Inv B s) (hav : s.available x = true) (hst : s.statement x ≠ .writing) :
    Inv B { s with
      index := s.index.recordWriter c.handle.writeXid
      statement := update s.statement x .recorded
      writers := x :: s.writers } := by
  simp only [State.available, Bool.and_eq_true, Bool.not_eq_true'] at hav
  exact hi.mark hc hp hav.2 hst (fun _ => mem_cons) (.inr rfl)

end

theorem Inv.flag (hi : Inv B s) (hst : s.statement x = .recorded) : Inv B { s with
      index := { s.index with dirty := true }
      statement := update s.statement x .marked } := by
  obtain ⟨c, hc, hp⟩ := hi.recorded x hst
  have hx := hi.marked x (by rw [hst]; nofun)
  refine hi.mark hc hp ?_ (by rw [hst]; nofun) (fun y => ?_) (.inl rfl)
  · by_contra hr
    rcases hi.statement x (Bool.not_eq_false _ |>.mp hr) with h | h <;> rw [hst] at h <;> cases h
  · exact ⟨.inr, fun h => h.elim (fun h => h ▸ hx) id⟩

end UltraSql.Aggregating
