import UltraSql.View.AggregatingInv
import UltraSql.View.AggregateAgreement

/-!
# Queries on an aggregating index

The rows of the index are shared, and a query that has claimed the flag builds them for everybody
from its own snapshot. The index is not noticed as long as the queries keep out of each other's way
and of the writers': each step of a query is taken while all other transactions that have marked the
index are over for its snapshot, nobody else is about to store rows, and the last writer is the
reader itself if it has written; a statement writes while the flag that it has set is still set; and
snapshots are taken at a clear moment.

**Theorem (`outcome_of_reach`).** In such a run a query gets the rows that it would build itself.

**Theorem (`summary_is_transparent`).** The answer is that of the plan over the table.

**Theorem (`committed_row_is_missing`).** A query that runs beside a writer leaves rows without
those of the writer, and queries after the commit are served them.
-/

namespace UltraSql.Aggregating

open Option Function
open Timeline (Client)
open Heap
open Index

variable {ρ σ ε : Type} {B : Builder ρ σ ε} {s s' : State ρ σ ε} {x y : ℕ} {c d : Client}

/-! ## Steps of a query -/

/-- The reader's snapshot shows what all other writers have done, nobody else is between the claim
of the flag and the store of the rows, and the last writer is the reader itself if it has
written. -/
def Alone (s : State ρ σ ε) (x : ℕ) : Prop :=
  (∀ c ∈ s.txn.clients.lookup x, UpToDate s x c) ∧
    (∀ y < s.txn.mgr.nextXid, y ≠ x → (s.read y).rebuilding = false) ∧
    (x ∈ s.writers → s.index.lastWriterXid = x)

instance (s : State ρ σ ε) (x : ℕ) (c : Client) : Decidable (UpToDate s x c) :=
  inferInstanceAs (Decidable (∀ y ∈ s.writers, y ≠ x → ∃ e ∈ s.txn.ended y, e < c.view))

instance (s : State ρ σ ε) (x : ℕ) : Decidable (Alone s x) :=
  inferInstanceAs (Decidable (_ ∧ _ ∧ _))

theorem Content.setRead (h : Content B s) (r : ℕ → Read σ ε) : Content B { s with read := r } := by
  cases h with
  | committed hover hrows => exact .committed hover hrows
  | own b d hd hmem hb hcom hun hover hrows => exact .own b d hd hmem hb hcom hun hover hrows
  | rolledBack b hb hun hover => exact .rolledBack b hb hun hover

section Query

variable (hi : Inv B s) (hc : s.txn.clients.lookup x = some c) (hp : c.phase = .running)

include hi in
theorem Inv.rebuilding_other (h : Alone s x) (hyx : y ≠ x) : (s.read y).rebuilding = false := by
  cases hr : s.read y with
  | claimed | built =>
    obtain ⟨d, hd, -⟩ := hi.reader y (by rw [hr]; nofun)
    exact hr ▸ h.2.1 y (hi.table.txn.lt_nextXid hd) hyx
  | _ => rfl

include hi in
/-- Nobody else has marked the index and goes on. -/
theorem Inv.not_recorded (hup : UpToDate s x c) (hst : s.statement x ≠ .recorded) (y : ℕ) :
    s.statement y ≠ .recorded := fun hy => by
  obtain ⟨d, hd, hpd⟩ := hi.recorded y hy
  have hyx : y ≠ x := by
    rintro rfl
    exact hst hy
  exact hi.not_upToDate hd hpd (hi.marked y (by rw [hy]; nofun)) hyx hup

include hi hc hp in
theorem Inv.scan_eq (hup : UpToDate s x c) (hst : s.statement x ≠ .writing) :
    s.scan c = image s.txn s.table (some x) :=
  scan_eq_image hi.table hi.stamps hc hp hup (hi.unwritten x c hc (.inl hp) hst)

include hi in
/-- A reader that has not written reads the committed rows. -/
theorem Inv.image_none (hx : x ∉ s.writers) :
    image s.txn s.table (some x) = image s.txn s.table none := by
  refine image_congr hi.stamps fun z hz => or_congr_left ?_
  exact iff_of_false (fun h => hx (some.inj h ▸ hz)) nofun

include hi hc hp in
/-- **A query is not served the rows of a writer that it does not see.** -/
theorem Inv.served (hup : UpToDate s x c) (hst : s.statement x ≠ .writing) (hcon : Content B s)
    (h : s.index.summaryServableTo c.handle.snapshot s.txn.mgr.status = true) :
    B.build (s.scan c) = .ok s.index.rows := by
  rw [hi.scan_eq hc hp hup hst]
  cases hcon with
  | committed hover hrows =>
    rw [hi.image_none fun hx => ?_, hrows]
    obtain ⟨e, he⟩ := hover x hx
    exact hi.table.txn.ne_of_ended hc hp he rfl
  | own b d hd hmem hb hcom hun hover hrows =>
    by_cases hbx : b = x
    · exact hbx ▸ hrows
    · obtain ⟨e, he, -⟩ := hup b hmem hbx
      exact ((committed_or_undone hi.table.txn hd he).elim hcom hun).elim
  | rolledBack b hb hun hover =>
    obtain ⟨d, hd, hfailed⟩ := hun
    have hbx : b ≠ x := by
      rintro rfl
      obtain rfl := mem_unique hd hc
      exact hfailed.ne_running hp
    have hheld : Held s.txn ⟨b, b, 0⟩ :=
      ⟨d, hd, (hi.table.txn.client b d hd).self_mem, Nat.zero_le _⟩
    have hown := hi.table.txn.status_own hd (.inl (hi.table.txn.client b d hd).xid.symm)
    simp only [Runtime.summaryServableTo, hb, (foreign_xid hi.table.txn hc hheld hbx).1, hown,
      Xid.isInvalid, Bool.or_false, Bool.or_eq_true, Bool.and_eq_true] at h
    rcases h with h | ⟨-, h⟩
    · exact absurd (by simpa using h) (hi.table.txn.ne_zero hd)
    · rcases hfailed with hf | ⟨todo, hf⟩ <;> rw [hf] at h <;> cases h

include hi hc hp in
/-- **A step of a query keeps the invariant**, given what it does to the reader, to the other
queries and to the rows. -/
theorem Inv.progress {index' : Runtime σ} {r' : Read σ ε}
    (hst : s.statement x = .fresh ∨ s.statement x = .marked)
    (hquiet : r'.inProgress = true → index'.dirty = false ∧
      ∀ y, y ≠ x → (s.read y).rebuilding = false)
    (hothers : ∀ y d, y ≠ x → (s.read y).inProgress = true → s.txn.clients.lookup y = some d →
      UpToDate s y d → index'.dirty = false ∧ r'.rebuilding = false ∧
        ((s.read y).passed = true → B.build (s.scan d) = .ok index'.rows))
    (hunmarked : r'.forcing = true → x ∉ s.writers)
    (houtcome : ∀ r, r'.result = some r → B.build (s.scan c) = r)
    (hright : r'.passed = true → B.build (s.scan c) = .ok index'.rows)
    (hcontent : index'.dirty = false → r'.rebuilding = false →
      Content B { s with index := index' }) :
    Inv B { s with index := index', read := update s.read x r' } := by
  have hself : update s.read x r' x = r' := update_self _ _ _
  have hother : ∀ {y}, y ≠ x → update s.read x r' y = s.read y :=
    fun hyx => update_of_ne hyx _ _
  refine
    { hi with
      reader := fun y hy => ?_
      statement := fun y hy => ?_
      quiet := fun y d hy hd hup => ?_
      unmarked := fun y hy => ?_
      outcome := fun y d r hd hr => ?_
      right := fun y d hd hr hup => ?_
      content := fun hd hr hrec => ?_ }
  · by_cases hyx : y = x
    · exact ⟨c, hyx ▸ hc, hp⟩
    · exact hi.reader y fun h => hy ((hother hyx).trans h)
  · by_cases hyx : y = x
    · exact hyx ▸ hst
    · exact hi.statement y ((hother hyx) ▸ hy)
  · by_cases hyx : y = x
    · subst hyx
      obtain ⟨hdirty, hfree⟩ := hquiet (hself ▸ hy)
      exact ⟨hdirty, fun z hz => (congrArg Read.rebuilding (hother hz)).trans (hfree z hz)⟩
    · obtain ⟨hdirty, hr, -⟩ := hothers y d hyx (hother hyx ▸ hy) hd hup
      refine ⟨hdirty, fun z hz => ?_⟩
      by_cases hzx : z = x
      · subst hzx
        exact (congrArg Read.rebuilding hself).trans hr
      · exact (congrArg Read.rebuilding (hother hzx)).trans
          ((hi.quiet y d (hother hyx ▸ hy) hd hup).2 z hz)
  · by_cases hyx : y = x
    · subst hyx
      exact hunmarked (hself ▸ hy)
    · exact hi.unmarked y (hother hyx ▸ hy)
  · by_cases hyx : y = x
    · subst hyx
      obtain rfl := mem_unique hc hd
      exact houtcome r (hself ▸ hr)
    · exact hi.outcome y d r hd (hother hyx ▸ hr)
  · by_cases hyx : y = x
    · subst hyx
      obtain rfl := mem_unique hc hd
      exact hright (hself ▸ hr)
    · have hr' : (s.read y).passed = true := hother hyx ▸ hr
      exact (hothers y d hyx (Read.inProgress_of_passed hr') hd hup).2.2 hr'
  · exact (hcontent hd ((congrArg Read.rebuilding hself).symm.trans (hr x))).setRead _

include hi hc hp in
/-- What the rows of an up-to-date reader are for everybody. -/
theorem Inv.content_of_scan {index' : Runtime σ} (hup : UpToDate s x c)
    (hst : s.statement x ≠ .writing) (hlast : x ∈ s.writers → index'.lastWriterXid = x)
    (hrows : B.build (s.scan c) = .ok index'.rows) : Content B { s with index := index' } := by
  rw [hi.scan_eq hc hp hup hst] at hrows
  have hover : OthersOver { s with index := index' } x := fun y hy hyx => by
    obtain ⟨e, he, -⟩ := hup y hy hyx
    exact ⟨e, he⟩
  by_cases hx : x ∈ s.writers
  · refine .own x c hc hx (hlast hx) (not_committed_of_running hc hp) ?_ hover hrows
    rintro ⟨d, hd, hfailed⟩
    obtain rfl := mem_unique hc hd
    exact hfailed.ne_running hp
  · refine .committed (fun y hy => hover y hy fun h => hx (h ▸ hy)) ?_
    rwa [← hi.image_none hx]

include hi hc hp in
/-- Two up-to-date readers of which one has not written read the same rows. -/
theorem Inv.scan_eq_scan (hup : UpToDate s x c) (hst : s.statement x ≠ .writing)
    (hx : x ∉ s.writers) (hd : s.txn.clients.lookup y = some d) (hpd : d.phase = .running)
    (hupd : UpToDate s y d) (hstd : s.statement y ≠ .writing) (hyx : y ≠ x) :
    s.scan d = s.scan c := by
  have hy : y ∉ s.writers := fun hy => hi.not_upToDate hd hpd hy hyx hup
  rw [hi.scan_eq hc hp hup hst, hi.scan_eq hd hpd hupd hstd, hi.image_none hx, hi.image_none hy]

include hi hc hp in
theorem Inv.read {index' : Runtime σ} {r' : Read σ ε}
    (hst : s.statement x = .fresh ∨ s.statement x = .marked) (halone : Alone s x)
    (h : Advance (B.build (s.scan c)) c.handle.snapshot s.txn.mgr.status s.index (s.read x) index'
      r') : Inv B { s with index := index', read := update s.read x r' } := by
  have hup := halone.1 c hc
  have hfree : ∀ y, y ≠ x → (s.read y).rebuilding = false := fun y hyx =>
    hi.rebuilding_other halone hyx
  have hwriting : s.statement x ≠ .writing := by
    rcases hst with h | h <;> rw [h] <;> nofun
  have hrecorded : s.statement x ≠ .recorded := by
    rcases hst with h | h <;> rw [h] <;> nofun
  -- while the reader is not between the claim and the store, the index has what it should have
  have hcontent : s.index.dirty = false → (s.read x).rebuilding = false → Content B s :=
    fun hd hr => hi.content hd (fun y => if hyx : y = x then hyx ▸ hr else hfree y hyx)
      (hi.not_recorded hup hrecorded)
  have hclean : ∀ {r}, s.read x = r → r.inProgress = true → s.index.dirty = false :=
    fun hr h => (hi.quiet x c (hr ▸ h) hc hup).1
  -- the other readers, while the rows stay, and while the reader builds them
  have hsame : s.index.dirty = false → ∀ y d, y ≠ x → (s.read y).inProgress = true →
      s.txn.clients.lookup y = some d → UpToDate s y d → s.index.dirty = false ∧ false = false ∧
        ((s.read y).passed = true → B.build (s.scan d) = .ok s.index.rows) :=
    fun hd y d _ _ hd' hupd => ⟨hd, rfl, fun h => hi.right y d hd' h hupd⟩
  have hbusy : ∀ {r} {P : ℕ → Client → Prop}, s.read x = r → r.rebuilding = true → ∀ y d, y ≠ x →
      (s.read y).inProgress = true → s.txn.clients.lookup y = some d → UpToDate s y d → P y d := by
    intro r P hr h y d hyx hy hd hupd
    have := (hi.quiet y d hy hd hupd).2 x hyx.symm
    rw [hr, h] at this
    cases this
  generalize hread : s.read x = r at h
  cases h with
  | claim serve hr hd =>
    refine hi.progress hc hp hst (fun _ => ⟨rfl, hfree⟩) (fun y d _ hy hd' hupd => ?_) nofun nofun
      nofun nofun
    rw [(hi.quiet y d hy hd' hupd).1] at hd
    cases hd
  | clean serve hr hd =>
    have hmine : (s.read x).rebuilding = false := by
      by_contra h
      rw [hread] at h
      rw [Read.inProgress_of_rebuilding (Bool.not_eq_false _ |>.mp h)] at hr
      cases hr
    cases serve <;>
      exact hi.progress hc hp hst (fun _ => ⟨hd, hfree⟩) (hsame hd) nofun nofun nofun
        fun _ _ => hcontent hd hmine
  | build hscan =>
    exact hi.progress hc hp hst (fun _ => ⟨hclean hread rfl, hfree⟩) (hbusy hread rfl) nofun
      (fun r hr => hscan.trans (some.inj hr)) nofun nofun
  | @restore serve e hscan =>
    cases serve with
    | true =>
      exact hi.progress hc hp hst nofun (hbusy hread rfl) nofun
        (fun r hr => hscan.trans (some.inj hr)) nofun nofun
    | false => exact hi.progress hc hp hst nofun (hbusy hread rfl) nofun nofun nofun nofun
  | @store serve rows =>
    have hrows := hi.outcome x c (.ok rows) hc (by rw [hread]; rfl)
    have hd := hclean hread rfl
    cases serve <;>
      exact hi.progress hc hp hst (fun _ => ⟨hd, hfree⟩) (hbusy hread rfl) nofun nofun nofun
        fun _ _ => hi.content_of_scan hc hp hup hwriting halone.2.2 hrows
  | pass hservable =>
    have hd := hclean hread rfl
    have hcon := hcontent hd (by rw [hread]; rfl)
    exact hi.progress hc hp hst (fun _ => ⟨hd, hfree⟩) (hsame hd) nofun nofun
      (fun _ => hi.served hc hp hup hwriting hcon hservable) fun _ _ => hcon
  | reject hservable =>
    have hd := hclean hread rfl
    refine hi.progress hc hp hst (fun _ => ⟨hd, hfree⟩) (hsame hd) (fun _ hx => ?_) nofun nofun
      fun _ _ => hcontent hd (by rw [hread]; rfl)
    have hown := (own_xid_iff hi.table.txn hc).1.2 (.inl (hi.table.txn.client x c hc).xid.symm)
    rw [Runtime.summaryServableTo, halone.2.2 hx, hown] at hservable
    simp at hservable
  | rebuild hscan =>
    have hd := hclean hread rfl
    exact hi.progress hc hp hst (fun _ => ⟨hd, hfree⟩) (hsame hd)
      (fun _ => hi.unmarked x (by rw [hread]; rfl)) (fun r hr => hscan.trans (some.inj hr)) nofun
      fun _ _ => hcontent hd (by rw [hread]; rfl)
  | fail hscan =>
    have hd := hclean hread rfl
    exact hi.progress hc hp hst nofun (hsame hd) nofun (fun r hr => hscan.trans (some.inj hr)) nofun
      fun _ _ => hcontent hd (by rw [hread]; rfl)
  | @replace rows =>
    have hd := hclean hread rfl
    have hx := hi.unmarked x (by rw [hread]; rfl)
    have hrows := hi.outcome x c (.ok rows) hc (by rw [hread]; rfl)
    refine hi.progress hc hp hst (fun _ => ⟨hd, hfree⟩)
      (fun y d hyx hy hd' hupd => ⟨hd, rfl, fun hr => ?_⟩) (fun _ => hx) nofun (fun _ => hrows)
      fun _ _ => hi.content_of_scan hc hp hup hwriting (fun h => absurd h hx) hrows
    obtain ⟨d₀, hd₀, hpd⟩ := hi.reader y fun h => by
      rw [h] at hy
      cases hy
    obtain rfl := mem_unique hd' hd₀
    have hstd : s.statement y ≠ .writing := by
      rcases hi.statement y hy with h | h <;> rw [h] <;> nofun
    rw [hi.scan_eq_scan hc hp hup hwriting hx hd' hpd hupd hstd hyx, hrows]
  | clear =>
    have hd := hclean hread rfl
    have hx := hi.unmarked x (by rw [hread]; rfl)
    have hrows := hi.right x c hc (by rw [hread]; rfl) hup
    exact hi.progress hc hp hst (fun _ => ⟨hd, hfree⟩) (hsame hd) nofun nofun (fun _ => hrows)
      fun _ _ => hi.content_of_scan hc hp hup hwriting (fun h => absurd h hx) hrows
  | read =>
    have hd := hclean hread rfl
    have hrows := hi.right x c hc (by rw [hread]; rfl) hup
    exact hi.progress hc hp hst nofun (hsame hd) nofun (fun r hr => hrows.trans (some.inj hr)) nofun
      fun _ _ => hcontent hd (by rw [hread]; rfl)

end Query

/-! ## Runs -/

/-- Queries of the index run alone, and a statement writes only while the flag of the index is
set. -/
def Undisturbed (s : State ρ σ ε) : Act ρ → Prop
  | .read x _ => Alone s x
  | .write .. => s.index.dirty = true
  | _ => True

instance : DecidableRel (Undisturbed (ρ := ρ) (σ := σ) (ε := ε)) := fun s a => by
  cases a <;> unfold Undisturbed <;> infer_instance

/-- Snapshots are taken at a clear moment. -/
def Timed (s : State ρ σ ε) : Act ρ → Prop
  | .txn b => Timeline.Timely s.txn b = true
  | _ => True

instance instDecidableRelTimed : DecidableRel (Timed (ρ := ρ) (σ := σ) (ε := ε)) := fun s a => by
  unfold Timed
  split <;> infer_instance

/-- The conditions on the steps. -/
def Transparent (s : State ρ σ ε) (a : Act ρ) : Prop := Timed s a ∧ Undisturbed s a

instance instDecidableRelTransparent :
    DecidableRel (Transparent (ρ := ρ) (σ := σ) (ε := ε)) := fun _ _ =>
  inferInstanceAs (Decidable (_ ∧ _))

theorem Inv.step (hi : Inv B s) {a : Act ρ} (ht : Timed s a) (ha : Undisturbed s a)
    (hstep : step B s a = some s') : Inv B s' := by
  cases spec_of_step hstep with
  | txn hb hav h => exact hi.txn hb hav ht h
  | record hc hp hav hst => exact hi.record hc hp hav hst
  | flag hst => exact hi.flag hst
  | write hc hp hav hst h => exact hi.write hc hp hav hst h ha
  | clear hc hp hv => exact hi.clear hc hp hv
  | visit h => exact hi.visit h
  | read hc hp hst h => exact hi.read hc hp hst ha h

theorem inv_of_reach (h : (machine B).Reach Transparent s) : Inv B s :=
  h.invariant inv_init fun _ _ _ _ hs hC hstep => hs.step hC.1 hC.2 hstep

/-- **A query gets what it would build itself.** -/
theorem outcome_of_reach (h : (machine B).Reach Transparent s)
    (hc : s.txn.clients.lookup x = some c) {r : Except ε σ} (hr : (s.read x).outcome = some r) :
    B.build (s.scan c) = r := by
  refine (inv_of_reach h).outcome x c r hc ?_
  cases hread : s.read x <;> rw [hread] at hr <;> first | exact hr | cases hr

/-! ## Answers -/

section Answers

variable {F : Type} [Floating F] {schema : List DataType}

/-- The rows of the index from those of the table. -/
def summaryBuilder (displayOrder : Row F → Row F → Bool) (index : AggregatingIndex F schema) :
    Builder (TypedRow F schema) (List (Row F)) ServerError where
  build rows := buildAggregatingIndexRows displayOrder index (rows.map Subtype.val)
  empty := []
  build_nil := rfl

/-- What a scan of the table gives to the plan. -/
def State.scanRows (s : State (TypedRow F schema) (List (Row F)) ServerError) (c : Client) :
    List (Row F) :=
  (s.scan c).map Subtype.val

/-- **An aggregating index is transparent.** -/
theorem summary_is_transparent [DecidableEq F] {displayOrder : Row F → Row F → Bool}
    {index : AggregatingIndex F schema} {others : Value F → Value F → Except ExecError Ordering}
    {q : Query F} {s : State (TypedRow F schema) (List (Row F)) ServerError}
    (h : (machine (summaryBuilder displayOrder index)).Reach Transparent s)
    (hc : s.txn.clients.lookup x = some c) {r : Except ServerError (List (Row F))}
    (hr : (s.read x).outcome = some r) (hq : answers index q = true)
    (hs : Supported others index q (s.scanRows c)) :
    Agree List.Perm (r.bind (answerFrom others index q)) (q.run others (s.scanRows c)) := by
  obtain rfl := outcome_of_reach h hc hr
  refine answer_agrees hq (fun row hrow => ?_) hs
  obtain ⟨row, -, rfl⟩ := List.mem_map.1 hrow
  exact row.2

end Answers

/-! ## A table with an index -/

/-- The numbers of a table without floating-point columns. -/
inductive NoFloat
  | zero
  deriving DecidableEq

instance : Floating NoFloat where
  zero := .zero
  add _ _ := .zero
  eq _ _ := true
  ofInt _ := .zero
  eqOther _ _ _ := true
  keyEqOther _ _ _ := true
  addOther _ _ _ := .error .typeMismatch

/-- CREATE AGGREGATING INDEX … AS SELECT g, count(*), sum(v) … GROUP BY g -/
def totals : AggregatingIndex NoFloat [.int64, .int64] where
  groupColumns := [0]
  aggregates := [⟨.countStar, none, .int64⟩, ⟨.sum, some 1, .int64⟩]
  grouped := nofun
  inRange := by decide
  bound := by
    intro a ha
    rcases List.mem_cons.1 ha with rfl | ha
    · exact .countStar
    · obtain rfl := List.mem_singleton.1 ha
      exact .sum (t := .int64) rfl rfl

/-- SELECT g, count(*), sum(v) … WHERE g = 7 GROUP BY g -/
def sevens : Query NoFloat where
  exprs := [.column 0, .column 1, .column 2]
  groupBy := [.column 0]
  aggregates := [⟨.countStar, none, false, fun _ => rfl⟩, ⟨.sum, some (.column 1), false, nofun⟩]
  predicate := some (.binary .eq (.column 0) (.literal (.int64 7)))

def noOthers (_ _ : Value NoFloat) : Except ExecError Ordering := .error .typeMismatch

def seven (n : Int64) : TypedRow NoFloat [.int64, .int64] :=
  ⟨[.int64 7, .int64 n], .cons (fun _ h => (some.inj h).symm)
    (.cons (fun _ h => (some.inj h).symm) .nil)⟩

def opening (x : ℕ) : List (Act (TypedRow NoFloat [.int64, .int64])) :=
  (Timeline.opening x .readCommitted).map .txn

/-- INSERT … VALUES (7, `n`) in the transaction `x`. -/
def insertSeven (x : ℕ) (n : Int64) : List (Act (TypedRow NoFloat [.int64, .int64])) :=
  opening x ++ [.record x, .flag x, .write x (.insert (seven n))]

abbrev totalsMachine := machine (summaryBuilder (fun _ _ => true) totals)

theorem supported_sevens : Supported noOthers totals sevens [(seven 2).1, (seven 3).1] where
  keys := by
    rintro col hcol t ht
    obtain rfl := List.mem_singleton.1 hcol
    cases ht
    trivial
  decimals := by
    rintro a ha col hcol
    rcases List.mem_cons.1 ha with rfl | ha
    · cases hcol
    · obtain rfl := List.mem_singleton.1 ha
      cases hcol
      decide
  zeros _ _ _ _ _ _ _ _ := rfl
  comparisons := by
    rintro p hp
    cases hp
    decide
  unfiltered _ := ⟨_, rfl⟩

/-- A query after two transactions. -/
theorem totals_of_two_rows : ∃ s c, totalsMachine.Reach Transparent s ∧
    s.txn.clients.lookup 5 = some c ∧
    (s.read 5).outcome = some (.ok [[.int64 7, .int64 2, .int64 5]]) ∧
    Agree List.Perm (answerFrom noOthers totals sevens [[.int64 7, .int64 2, .int64 5]])
      (sevens.run noOthers (s.scanRows c)) := by
  obtain ⟨s, hs, c, hc, hread, hscan⟩ := Machine.exists_reach_of_runIf (M := totalsMachine)
    (C := Transparent) (p := fun s => ∃ c ∈ s.txn.clients.lookup 5,
      s.read 5 = .served [[.int64 7, .int64 2, .int64 5]] ∧
        s.scanRows c = [(seven 2).1, (seven 3).1])
    (insertSeven 3 2 ++ [.txn (.commit 3)] ++ insertSeven 4 3 ++ [.txn (.commit 4)] ++ opening 5 ++
      [.read 5 (.claim true), .read 5 .scan, .read 5 .store, .read 5 .test, .read 5 .read])
    (by decide)
  refine ⟨s, c, hs, hc, by rw [hread]; rfl, ?_⟩
  exact summary_is_transparent hs hc (by rw [hread]; rfl) (by decide) (hscan ▸ supported_sevens)

/-- **A committed row is missing.** While the transaction 3 inserts a row, the transaction 4 builds
the rows of the index without it and forgets the writer. After the commit the transaction 5 sees the
row, and is served the rows of 4. -/
theorem committed_row_is_missing : ∃ s, totalsMachine.Reach Timed s ∧
    ∃ c ∈ s.txn.clients.lookup 5, (s.read 5).outcome = some (.ok []) ∧
      answerFrom noOthers totals sevens [] = .ok [] ∧
      sevens.run noOthers (s.scanRows c) = .ok [[.int64 7, .int64 1, .int64 2]] := by
  obtain ⟨s, hs, c, hc, hread, hscan⟩ := Machine.exists_reach_of_runIf (M := totalsMachine)
    (C := Timed) (p := fun s => ∃ c ∈ s.txn.clients.lookup 5,
      s.read 5 = .served [] ∧ s.scanRows c = [(seven 2).1])
    (insertSeven 3 2 ++ opening 4 ++
      [.read 4 (.claim true), .read 4 .scan, .read 4 .store, .read 4 .test, .read 4 .scan,
        .read 4 .store, .read 4 .clear, .read 4 .read, .txn (.commit 3)] ++ opening 5 ++
      [.read 5 (.claim true), .read 5 .test, .read 5 .read])
    (by decide)
  exact ⟨s, hs, c, hc, by rw [hread]; rfl, rfl, by rw [hscan]; rfl⟩

-- A group whose key is NULL: the plan leaves its rows out, and the index cannot compare the key.
example : (buildAggregatingIndexRows (fun _ _ => true) totals [[.null, .int64 2]]).bind
      (answerFrom noOthers totals sevens) = .error .unsupportedComparison ∧
    sevens.run noOthers [[.null, .int64 2]] = .ok [] :=
  ⟨rfl, rfl⟩

end UltraSql.Aggregating
