import UltraSql.Index.Table

/-!
# Versions, their ends and who sees them

A version is dead once its inserter has rolled back or its deleter has committed. A step either
leaves a tuple as it is, appends it, stamps it or takes a stamp out. What a statement sees does not
change while the statement runs, whatever the others do and whatever it writes itself.

**Theorem (`TableInv.tuple_cases`).** What a step does to one tuple.

**Theorem (`TableInv.isSeen_step`).** A statement sees the same rows after a step as before.
-/

namespace UltraSql.Index

open Timeline Option
open Heap

variable {ρ : Type} {t t' : Timeline.State} {ts ts' : List (Tuple ρ)} {a b : Stamp}
  {x y z k n m : ℕ} {c d : Client} {h : TupleHeader} {v v' w w' : Tuple ρ}

/-! ## Versions -/

/-- What is over a stamp is over what that one is over. -/
theorem Over.trans {b' : Stamp} (hab : Over t a b) (hbc : Over t b b') : Over t a b' := by
  cases hab with
  | own ho hk =>
    cases hbc with
    | own ho' hk' => exact .own (ho.trans ho') (hk'.trans hk)
    | seen d e hd hp he hview hend =>
      refine .seen d e hd hp he (fun c hc hcond => hview c (ho ▸ hc) ?_) fun e' he' =>
        hend e' (ho ▸ he')
      exact hcond.imp_right hk.trans_lt
  | seen d e hd hp he hview hend =>
    cases hbc with
    | own ho' hk' => exact .seen d e (ho' ▸ hd) hp (ho' ▸ he) hview hend
    | seen d' e₀ hd' hp' he' hview' hend' =>
      have hlt := hend' e he
      exact .seen d' e₀ hd' hp' he' (fun c hc hcond => hlt.trans (hview c hc hcond)) fun e' he' =>
        hlt.trans (hend e' he')

def Committed (t : Timeline.State) (z : ℕ) : Prop :=
  ∃ d, t.clients.lookup z = some d ∧ d.phase = .committed

theorem Committed.mono (hz : Committed t z) (hg : Ages t t') : Committed t' z := by
  obtain ⟨d, hd, hp⟩ := hz
  obtain ⟨d', hd', hm⟩ := hg.evolves.moves z d hd
  exact ⟨d', hd', (hm.committed hp).1⟩

theorem Undone.not_committed (hu : Undone t z) : ¬ Committed t z := by
  rintro ⟨d, hd, hp⟩
  obtain ⟨d', hd', hf⟩ := hu
  obtain rfl := mem_unique hd hd'
  exact hf.ne_committed hp

section

variable (hi : Timeline.Inv t) (hs : Solo t) (ha : Held t a)

include hi hs ha

theorem committed_of_status (hst : (t.mgr.status a.xid).isCommitted = true) :
    Committed t a.owner := by
  obtain ⟨d, hd, -⟩ := id ha
  rw [hi.status_own hd (ha.own hs hi hd)] at hst
  exact ⟨d, hd, Timeline.Phase.isCommitted_status.1 hst⟩

theorem undone_of_status (hst : (t.mgr.status a.xid).isAborted = true) : Undone t a.owner := by
  obtain ⟨d, hd, -⟩ := id ha
  rw [hi.status_own hd (ha.own hs hi hd)] at hst
  refine ⟨d, hd, .inl ?_⟩
  cases hph : d.phase <;> rw [hph] at hst <;> first | rfl | cases hst

end

/-- The version is there for nobody who begins now. -/
def Dead (t : Timeline.State) (h : TupleHeader) : Prop :=
  Undone t h.xmin ∨ h.xmax ≠ 0 ∧ Committed t h.xmax

/-- A committed stamp stays. -/
theorem Kept.header_eq (hk : Kept t v v') (hx : v.header.xmax ≠ 0)
    (hcom : Committed t v.header.xmax) : v'.header = v.header := by
  rcases hk.stamp hx with heq | ⟨-, d, todo, hd, hp⟩
  · exact heq
  · exact absurd hcom (Undone.not_committed ⟨d, hd, .inr ⟨todo, hp⟩⟩)

theorem Kept.xmin_eq (hk : Kept t v v') : v'.header.xmin = v.header.xmin :=
  congrArg Stamp.xid hk.ins

theorem Dead.kept (hd : Dead t v.header) (hk : Kept t v v') (hg : Ages t t') :
    Dead t' v'.header := by
  rcases hd with hu | ⟨hx, hcom⟩
  · exact .inl (hk.xmin_eq ▸ hu.mono hg)
  · rw [hk.header_eq hx hcom]
    exact .inr ⟨hx, hcom.mono hg⟩

/-- The version comes from one before the step or is a new one. -/
theorem TableInv.old_or_new (hi : TableInv t ts) (h : TableStep t ts t' ts')
    (hv' : ts'[n]? = some v') : (∃ v, ts[n]? = some v ∧ Kept t v v') ∨ ts.length ≤ n := by
  rcases lt_or_ge n ts.length with hlt | hge
  · have hv : ts[n]? = some ts[n] := List.getElem?_eq_getElem hlt
    obtain ⟨v'', hv'', hk⟩ := hi.kept h hv
    obtain rfl := mem_unique hv' hv''
    exact .inl ⟨_, hv, hk⟩
  · exact .inr hge

/-! ## Who has committed, and when -/

instance (t : Timeline.State) : DecidablePred (Committed t) := fun z =>
  decidable_of_iff ((t.clients.lookup z).any (·.phase = .committed) = true)
    (by simp [Committed, any_eq_true])

/-- The transaction had committed at the time `k`. -/
def CommittedBy (t : Timeline.State) (k z : ℕ) : Prop := Committed t z ∧ ∃ e ∈ t.ended z, e < k

instance (t : Timeline.State) (k : ℕ) : DecidablePred (CommittedBy t k) := fun _ =>
  inferInstanceAs (Decidable (_ ∧ _))

theorem not_committed_of_running (hc : t.clients.lookup x = some c) (hp : c.phase = .running) :
    ¬ Committed t x := by
  rintro ⟨d, hd, hcom⟩
  obtain rfl := mem_unique hc hd
  rw [hp] at hcom
  cases hcom

theorem committed_of_commit (h : Timeline.step t (.commit x) = some t') : Committed t' x := by
  obtain ⟨t₁, h₁, rfl⟩ := map_eq_some_iff.1 h
  obtain ⟨c, hc, -, heq⟩ := whenRunning_eq_some h₁
  split at heq <;> cases heq
  exact ⟨_, (lookup_setClient t x x _).trans (if_pos rfl), rfl⟩

section

variable (hi : Timeline.Inv t)
include hi

/-- Whoever has ended before a step has ended as before. -/
theorem committed_iff_of_ended (hg : Ages t t') (hd : t.clients.lookup z = some d) {e : ℕ}
    (he : t.ended z = some e) : Committed t' z ↔ Committed t z := by
  refine ⟨fun ⟨d', hd', hcom⟩ => ?_, fun h => h.mono hg⟩
  obtain ⟨d'', hd'', hm⟩ := hg.evolves.moves z d hd
  obtain rfl := mem_unique hd' hd''
  have hclosed : d.phase.status ≠ .inProgress := fun hopen => by
    rw [(hi.client z d hd).open_iff.1 hopen] at he
    cases he
  refine ⟨d, hd, ?_⟩
  cases hph : d.phase with
  | committed => rfl
  | aborted =>
    rcases hm.failed (.inl hph) with hf | ⟨todo, hf⟩ <;> rw [hcom] at hf <;> cases hf
  | running | undoing | aborting => exact absurd (by rw [hph]; rfl) hclosed

/-- **The past stays.** -/
theorem committedBy_iff (hg : Ages t t') (hk : k ≤ t.clock) (hd : t.clients.lookup z = some d) :
    CommittedBy t' k z ↔ CommittedBy t k z := by
  constructor
  · rintro ⟨hcom, e, he, hlt⟩
    have hold : t.ended z = some e := (hg.ended z e he).resolve_right (by omega)
    exact ⟨(committed_iff_of_ended hi hg hd hold).1 hcom, e, hold, hlt⟩
  · rintro ⟨hcom, e, he, hlt⟩
    exact ⟨hcom.mono hg, e, hg.evolves.ended z e he, hlt⟩

/-- Whoever commits does so in the step that says so. -/
theorem committed_of_step {b : Timeline.Act} (hb : b.plain = true) (h : Timeline.step t b = some t')
    (hz : Committed t' z) : Committed t z ∨ b = .commit z := by
  obtain ⟨d', hd', hcom⟩ := hz
  by_cases hcm : b = .commit z
  · exact .inr hcm
  rcases hi.known_or_running h hd' with ⟨d, hd⟩ | ⟨hp, -⟩
  · refine .inl ⟨d, hd, ?_⟩
    by_cases hr : ∃ xmax, b = .refresh z xmax
    · obtain ⟨xmax, rfl⟩ := hr
      obtain ⟨c, c', -, hm, hlook⟩ := hi.step_session h rfl
      obtain rfl := mem_unique hd' ((hlook z).trans (if_pos rfl))
      cases hm.2.symm.trans hcom
    · refine not_not.1 fun hne => (steady hi hb h ?_ hcm hd hd').open_ hne hcom
      exact fun xmax hb => hr ⟨xmax, hb⟩
  · rw [hp] at hcom
    cases hcom

end

theorem committed_of_visit {u : ℕ × Visit} (h : t.nextVisit x = some (u, t'))
    (hz : Committed (t.tick t') z) : Committed t z := by
  obtain ⟨d, hd, hcom⟩ := hz
  obtain ⟨c, p, todo, hc, rfl, hp⟩ := nextVisit_eq_some h
  have hlook := (lookup_setClient t x z _).symm.trans hd
  split_ifs at hlook with hzx
  · cases hlook
    have hopen := hp.status.trans hp.isOpen
    rw [show p = .committed from hcom] at hopen
    cases hopen
  · exact ⟨d, hlook, hcom⟩

/-! ## One tuple -/

/-- **What a step does to one tuple.** -/
inductive TupleStep (t : Timeline.State) (ts : List (Tuple ρ)) (t' : Timeline.State) (n : ℕ)
    (v' : Tuple ρ) : Prop
  | same (hv : ts[n]? = some v')
  | new (y : ℕ) (d : Client) (ht : t' = t) (hn : n = ts.length) (hd : t.clients.lookup y = some d)
    (hp : d.phase = .running) (hins : v'.header.ins = ⟨y, y, d.handle.currentCommand⟩)
    (hx : v'.header.xmax = 0)
  | stamped (v : Tuple ρ) (y : ℕ) (d : Client) (ht : t' = t) (hv : ts[n]? = some v)
    (hd : t.clients.lookup y = some d) (hp : d.phase = .running) (hx : v.header.xmax = 0)
    (hrow : v'.row = v.row) (hins : v'.header.ins = v.header.ins)
    (hdel : v'.header.del = ⟨y, y, d.handle.currentCommand⟩)
  | cleared (v : Tuple ρ) (ht : t' = t) (hv : ts[n]? = some v) (hu : Undone t v.header.xmax)
    (hrow : v'.row = v.row) (hins : v'.header.ins = v.header.ins) (hx : v'.header.xmax = 0)

theorem TableInv.tuple_cases (hi : TableInv t ts) (h : TableStep t ts t' ts')
    (hv' : ts'[n]? = some v') : TupleStep t ts t' n v' := by
  have hwriter : ∀ {y : ℕ} {d : Client}, t.clients.lookup y = some d →
      (⟨d.handle.writeXid, d.handle.writeXid, d.handle.currentCommand⟩ : Stamp) =
        ⟨y, y, d.handle.currentCommand⟩ := fun hd => by rw [writeXid_eq hi.solo hd]
  cases h with
  | keep | time | visit => exact .same hv'
  | @insert y d hd hp row =>
    rcases getElem?_append_singleton hv' with hv' | ⟨rfl, rfl⟩
    · exact .same hv'
    · exact .new y d rfl rfl hd hp (hwriter hd) rfl
  | @update y m d u hd hp hu hw hot row =>
    have hx := xmax_of_writable hw
    rcases getElem?_append_singleton hv' with hv' | ⟨rfl, rfl⟩
    · rcases getElem?_set_cases hv' with ⟨rfl, rfl⟩ | ⟨-, hv'⟩
      · exact .stamped u y d rfl hu hd hp hx rfl rfl (hwriter hd)
      · exact .same hv'
    · exact .new y d rfl List.length_set hd hp (hwriter hd) rfl
  | @delete y m d u hd hp hu hw =>
    have hx := xmax_of_writable hw
    rcases getElem?_set_cases hv' with ⟨rfl, rfl⟩ | ⟨-, hv'⟩
    · exact .stamped u y d rfl hu hd hp hx rfl rfl (hwriter hd)
    · exact .same hv'
  | @clear y m z d u todo hd hp hu hx =>
    rcases getElem?_set_cases hv' with ⟨rfl, rfl⟩ | ⟨-, hv'⟩
    · refine .cleared u rfl hu ⟨d, ?_, .inr ⟨_, hp⟩⟩ rfl rfl rfl
      rw [hx, hi.visit_xid hd hp]
      exact hd
    · exact .same hv'

/-! ## What a statement sees -/

/-- A stamp of the present moment is not seen. -/
theorem sees_writer (hc : t.clients.lookup x = some c) (hd : t.clients.lookup y = some d)
    (hp : d.phase = .running) :
    sees t x c.handle.currentCommand ⟨y, y, d.handle.currentCommand⟩ = false := by
  rw [← Bool.not_eq_true]
  by_cases hxy : y = x
  · subst hxy
    obtain rfl := mem_unique hc hd
    rw [sees_own hc rfl]
    exact fun h => lt_irrefl _ h.2
  · rw [sees_foreign hc hd hxy, hp]
    exact fun h => by cases h.1

/-- **What a snapshot sees of the others stays the same.** -/
theorem sees_stable (hi : Timeline.Inv t) (hi' : Timeline.Inv t') (hs : Solo t) (hs' : Solo t')
    (hg : Ages t t') (hc : t.clients.lookup x = some c) (hc' : t'.clients.lookup x = some c)
    (ha : Held t a) : sees t' x k a = sees t x k a := by
  obtain ⟨d, hd, -⟩ := id ha
  obtain ⟨d', hd', hm⟩ := hg.evolves.moves _ d hd
  have ha' := ha.mono hg.evolves
  rw [Bool.eq_iff_iff]
  by_cases hx : a.owner = x
  · rw [sees_own hc hx, sees_own hc' hx]
  · rw [sees_foreign hc hd hx, sees_foreign hc' hd' hx]
    constructor
    · rintro ⟨hcom, -, e, he, hlt⟩
      have hold : t.ended a.owner = some e := by
        refine (hg.ended _ e he).resolve_right fun heq => ?_
        have := (hi.client x c hc).view
        omega
      obtain ⟨d₀, hd₀, hcom₀⟩ := (committed_iff_of_ended hi hg hd hold).1 ⟨d', hd', hcom⟩
      obtain rfl := mem_unique hd hd₀
      exact ⟨hcom₀, ha.own hs hi hd, e, hold, hlt⟩
    · rintro ⟨hcom, -, e, he, hlt⟩
      exact ⟨(hm.committed hcom).1, ha'.own hs' hi' hd', e, hg.evolves.ended _ e he, hlt⟩

/-- What a statement sees: its own earlier versions and those that were committed. -/
theorem TableInv.isSeen_iff (hi : TableInv t ts) (hc : t.clients.lookup x = some c)
    (hp : c.phase = .running) (hv : ts[n]? = some v) :
    (isVisible v.header c.handle.snapshot t.mgr.status).isSeen = true ↔
      sees t x c.handle.currentCommand v.header.ins = true ∧
        ¬ (v.header.xmax ≠ 0 ∧ sees t x c.handle.currentCommand v.header.del = true) := by
  rw [← snapshotAt_current (hi.txn.client x c hc).command,
    (hi.header n v hv).isVisible_eq hi.txn hi.solo hc hp]
  split_ifs <;> simp_all [Visibility.isSeen]

/-- **A statement sees the same rows after a step as before.** -/
theorem TableInv.isSeen_step (hi : TableInv t ts) (h : TableStep t ts t' ts')
    (hc : t.clients.lookup x = some c) (hc' : t'.clients.lookup x = some c)
    (hp : c.phase = .running) (hv' : ts'[n]? = some v') :
    (isVisible v'.header c.handle.snapshot t'.mgr.status).isSeen = true ↔
      ∃ v, ts[n]? = some v ∧ v.row = v'.row ∧
        (isVisible v.header c.handle.snapshot t.mgr.status).isSeen = true := by
  have hi' := hi.step h
  have hex : ∀ {u : Tuple ρ} {p : Prop}, ts[n]? = some u → u.row = v'.row →
      ((p ↔ (isVisible u.header c.handle.snapshot t.mgr.status).isSeen = true) →
      (p ↔ ∃ v, ts[n]? = some v ∧ v.row = v'.row ∧
        (isVisible v.header c.handle.snapshot t.mgr.status).isSeen = true)) := by
    intro u p hu hrow hp
    refine hp.trans ⟨fun h => ⟨u, hu, hrow, h⟩, ?_⟩
    rintro ⟨w, hw, -, h⟩
    obtain rfl := mem_unique hu hw
    exact h
  rw [hi'.isSeen_iff hc' hp hv']
  cases hi.tuple_cases h hv' with
  | same hv =>
    refine hex hv rfl ?_
    have hh := hi.header n v' hv
    have hstable : ∀ {a}, Held t a → sees t' x c.handle.currentCommand a =
        sees t x c.handle.currentCommand a :=
      sees_stable hi.txn hi'.txn hi.solo hi'.solo (hi.ages h) hc hc'
    rw [hi.isSeen_iff hc hp hv, hstable hh.inserted.held]
    refine and_congr_right fun _ => not_congr (and_congr_right fun hx => ?_)
    rw [hstable (hh.held hx)]
  | new y d ht hn hd hpd hins hx =>
    subst ht
    rw [hins, sees_writer hc hd hpd]
    simp [hn]
  | stamped v y d ht hv hd hpd hx hrow hins hdel =>
    subst ht
    refine hex hv hrow.symm ?_
    rw [hi.isSeen_iff hc hp hv, hins, hdel, sees_writer hc hd hpd]
    simp [hx]
  | cleared v ht hv hu hrow hins hx =>
    subst ht
    refine hex hv hrow.symm ?_
    obtain ⟨d, hd, hf⟩ := hu
    have hgone : Gone t' v.header.del := ⟨d, hd, .inr hf⟩
    rw [hi.isSeen_iff hc hp hv, hins, hgone.sees_eq_false hi.txn hc hp]
    simp [hx]

/-- What a statement sees of a row that another transaction has inserted and nobody has changed. -/
theorem TableInv.isSeen_other (hi : TableInv t ts) (hc : t.clients.lookup x = some c)
    (hp : c.phase = .running) (hv : ts[n]? = some v) (hne : v.header.xmin ≠ x)
    (hx : v.header.xmax = 0) :
    (isVisible v.header c.handle.snapshot t.mgr.status).isSeen = true ↔
      CommittedBy t c.view v.header.xmin := by
  have hheld := (hi.header n v hv).inserted.held
  obtain ⟨d, hd, -⟩ := id hheld
  rw [hi.isSeen_iff hc hp hv, sees_foreign hc hd hne]
  constructor
  · rintro ⟨⟨hcom, -, e, he, hlt⟩, -⟩
    exact ⟨⟨d, hd, hcom⟩, e, he, hlt⟩
  · rintro ⟨⟨d', hd', hcom⟩, e, he, hlt⟩
    obtain rfl := mem_unique hd hd'
    exact ⟨⟨hcom, hheld.own hi.solo hi.txn hd, e, he, hlt⟩, fun h => h.1 hx⟩

/-! ## A transaction that begins now -/

/-- The rows of a table for a transaction that begins now. -/
def currentRows (t : Timeline.State) (ts : List (Tuple ρ)) : List ρ :=
  (ts.filter fun v => (isVisible v.header (t.mgr.begin .readCommitted).2.snapshot
    (t.mgr.begin .readCommitted).1.status).isSeen).map (·.row)

/-- Parts of a list that have no element in common, one after the other. -/
theorem flatMap_filter_any_perm {α κ : Type*} {p : κ → α → Bool} (l : List α) {ks : List κ}
    (h : ks.Pairwise fun k k' => ∀ v, p k v = true → p k' v = false) :
    (ks.flatMap fun k => l.filter (p k)).Perm (l.filter fun v => ks.any (p · v)) := by
  induction ks with
  | nil => simp
  | cons k ks ih =>
    obtain ⟨hk, hks⟩ := List.pairwise_cons.1 h
    refine ((ih hks).append_left (l.filter (p k))).trans ?_
    refine List.Perm.trans (.of_eq ?_) (List.filter_append_perm (p k)
      (l.filter fun v => (k :: ks).any (p · v)))
    simp only [List.filter_filter, List.any_cons]
    congr 1 <;> refine List.filter_congr fun v _ => ?_
    · cases p k v <;> simp
    · cases hv : p k v with
      | false => simp
      | true => simpa using fun k' hk' => hk k' hk' v hv

end UltraSql.Index
