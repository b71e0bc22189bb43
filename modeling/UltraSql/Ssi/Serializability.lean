import UltraSql.Ssi.Conflicts

/-!
# SERIALIZABLE is serializable when no reader misses a writer

**Theorem (`serializable_of_guarded`).** In every history whose steps are `Guarded`, the
serialization graph of the committed transactions has no cycle.

A write-write or write-read dependency of `a` on `b` has `a` resolved in the snapshot of `b`, so
`a` passed its commit check before `b` began. For an antidependency the snapshot of `a` has `b` as
unresolved and the tags of `b` meet the locks of `a`. Then the conflict graph has an edge, or `a`
was decided before `b` began. `SerializationGraph.exists_dangerous_of_cycle` finds two consecutive
edges on a cycle, and the commit check of the pivot has not let them pass.

**Theorem (`write_skew_commits`).** Without `NoMissedWriter` two transactions that write first and
read afterwards commit a write skew.

**Theorem (`disjunction_is_missed`).** Without `WritesTagged` a DELETE with OR over two columns
removes a row that a concurrent transaction has read under neither of its ranges.
-/

namespace UltraSql.Ssi

open TransactionManager List Function Option

variable {ι σ : Type*} {R : Rows ι σ} {s s' : State ι} {x y : ℕ} {t t' u : Txn}

/-! ## The rows -/

structure HistoryInv (R : Rows ι σ) (s : State ι) : Prop where
  readLock : ∀ a i v, (a, i, v) ∈ s.reads →
    ∃ t, s.txns.lookup a = some t ∧ t.locks.any (R.reads i) = true
  readSeen : ∀ a i w, (a, i, some w) ∈ s.reads → w ∈ s.versions i ∧
    (w ≠ a → ∀ t, s.txns.lookup a = some t → t.handle.snapshot.xidInProgress w = false)
  readNewest : ∀ a i v b t u, (a, i, v) ∈ s.reads → b ∈ newer (s.versions i) v → b ≠ a →
    s.txns.lookup a = some t → s.txns.lookup b = some u → u.Alive →
    t.handle.snapshot.xidInProgress b = true
  versionTags : ∀ b i, b ∈ s.versions i →
    ∃ u, s.txns.lookup b = some u ∧ ∀ held, R.reads i held = true →
      ∃ tag ∈ u.writeTags, predicateLockCovers held tag = true
  versionOrder : ∀ a b i t u, a ∈ s.versions i → b ∈ newer (s.versions i) (some a) →
    s.txns.lookup a = some t → s.txns.lookup b = some u → t.Alive →
    u.handle.snapshot.xidInProgress a = false

variable {b w : ℕ} {v : Option ℕ} {ws : List ℕ}

theorem mem_of_mem_newer (h : b ∈ newer ws v) : b ∈ ws := by
  cases v with
  | none => exact h
  | some w => exact (takeWhile_sublist _).subset h

theorem ne_of_mem_newer (h : b ∈ newer ws (some w)) : b ≠ w := by
  simpa using mem_takeWhile_imp h

/-- A writer puts its version in front, unless it has one. -/
theorem mem_newer_insert (hv : ∀ w ∈ v, w ∈ ws) (h : b ∈ newer (ws.insert x) v) :
    b = x ∧ x ∉ ws ∨ b ∈ newer ws v := by
  by_cases hx : x ∈ ws
  · rw [insert_of_mem hx] at h
    exact .inr h
  · rw [insert_of_not_mem hx] at h
    cases v with
    | none => exact (mem_cons.1 h).imp_left fun hb => ⟨hb, hx⟩
    | some w =>
      have hne : x ≠ w := fun hxw => hx (hxw ▸ hv w rfl)
      rw [newer, takeWhile_cons_of_pos (by simpa using hne)] at h
      exact (mem_cons.1 h).imp_left fun hb => ⟨hb, hx⟩

/-- The transactions of the history are still there, with at least their locks and tags. -/
def Extends (s s' : State ι) : Prop :=
  ∀ y u, s.txns.lookup y = some u → ∃ u', s'.txns.lookup y = some u' ∧ u'.handle = u.handle ∧
    (u'.Alive → u.Alive) ∧ (∀ r ∈ u.locks, r ∈ u'.locks) ∧ ∀ r ∈ u.writeTags, r ∈ u'.writeTags

theorem any_mono {α : Type*} {l l' : List α} {p : α → Bool} (h : ∀ r ∈ l, r ∈ l')
    (hl : l.any p = true) : l'.any p = true := by
  obtain ⟨r, hr, hp⟩ := any_eq_true.1 hl
  exact any_eq_true.2 ⟨r, h r hr, hp⟩

theorem HistoryInv.extends (hh : HistoryInv R s) (hext : Extends s s') (hr : s'.reads = s.reads)
    (hv : s'.versions = s.versions) : HistoryInv R s' := by
  have hback : ∀ {y u u'}, s.txns.lookup y = some u → s'.txns.lookup y = some u' →
      u'.handle = u.handle ∧ (u'.Alive → u.Alive) := by
    intro y u u' hu hu'
    obtain ⟨u'', hu'', hhandle, halive, -⟩ := hext y u hu
    obtain rfl := mem_unique hu' hu''
    exact ⟨hhandle, halive⟩
  refine ⟨?_, ?_, ?_, ?_, ?_⟩
  · intro a i v hmem
    obtain ⟨t, ht, hlock⟩ := hh.readLock a i v (hr ▸ hmem)
    obtain ⟨t', ht', -, -, hlocks, -⟩ := hext a t ht
    exact ⟨t', ht', any_mono hlocks hlock⟩
  · intro a i w hmem
    rw [hr] at hmem
    rw [hv]
    obtain ⟨hw, hseen⟩ := hh.readSeen a i w hmem
    refine ⟨hw, fun hne t' ht' => ?_⟩
    obtain ⟨t, ht, -⟩ := hh.readLock a i _ hmem
    rw [(hback ht ht').1]
    exact hseen hne t ht
  · intro a i v b t' u' hmem hb hne ht' hu' halive
    rw [hr] at hmem
    rw [hv] at hb
    obtain ⟨t, ht, -⟩ := hh.readLock a i v hmem
    obtain ⟨u, hu, -⟩ := hh.versionTags b i (mem_of_mem_newer hb)
    rw [(hback ht ht').1]
    exact hh.readNewest a i v b t u hmem hb hne ht hu ((hback hu hu').2 halive)
  · intro b i hb
    rw [hv] at hb
    obtain ⟨u, hu, htags⟩ := hh.versionTags b i hb
    obtain ⟨u', hu', -, -, -, hw⟩ := hext b u hu
    refine ⟨u', hu', fun held hheld => ?_⟩
    obtain ⟨tag, htag, hcov⟩ := htags held hheld
    exact ⟨tag, hw tag htag, hcov⟩
  · intro a b i t' u' ha hb ht' hu' halive
    rw [hv] at ha hb
    obtain ⟨t, ht, -⟩ := hh.versionTags a i ha
    obtain ⟨u, hu, -⟩ := hh.versionTags b i (mem_of_mem_newer hb)
    rw [(hback hu hu').1]
    exact hh.versionOrder a b i t u ha hb ht hu ((hback ht ht').2 halive)

/-! ### Reads and writes -/

theorem resolved_of_sees {snapshot : Snapshot} (h : s.sees x snapshot w = true) (hne : w ≠ x) :
    snapshot.xidInProgress w = false := by
  simp only [State.sees, Bool.or_eq_true, beq_iff_eq] at h
  exact (isCommittedBeforeSnapshot_iff.1 (h.resolve_left hne)).1

theorem unseen_of_mem_newer_find {p : ℕ → Bool} (h : b ∈ newer ws (ws.find? p)) : p b = false := by
  cases hf : ws.find? p with
  | none =>
    rw [hf] at h
    simpa using find?_eq_none.1 hf b h
  | some w =>
    rw [hf] at h
    obtain ⟨hw, as, bs, rfl, has⟩ := find?_eq_some_iff_append.1 hf
    have hne : ∀ a ∈ as, decide (a ≠ w) = true := by
      intro a ha
      refine decide_eq_true fun haw => ?_
      have := has a ha
      rw [haw, hw] at this
      cases this
    rw [newer, takeWhile_append_of_pos hne, takeWhile_cons_of_neg (by simp),
      append_nil] at h
    simpa using has b h

variable {i : ι}

section

variable (hs : TxnInv s) (ht : s.txns.lookup x = some t)
include hs ht

theorem TxnInv.status_eq : s.mgr.status x = t.phase.status := by
  rw [TransactionManager.status_eq hs.parents (hs.range x t ht).1, hs.clog x t ht]
  rfl

/-- What a transaction does not see and is not rolled back is unresolved for it. -/
theorem TxnInv.unresolved_of_unseen (hu : s.txns.lookup y = some u) (halive : u.Alive)
    (hsees : s.sees x t.handle.snapshot y = false) :
    y ≠ x ∧ t.handle.snapshot.xidInProgress y = true := by
  simp only [State.sees, Bool.or_eq_false_iff, beq_eq_false_iff_ne] at hsees
  refine ⟨hsees.1, ?_⟩
  by_contra hres
  have hres : t.handle.snapshot.xidInProgress y = false := by simpa using hres
  have hover := (hs.resolved x y t u ht hu hsees.1.symm hres).1
  have hcom : (s.mgr.status y).isCommitted = true := by
    rw [hs.status_eq hu]
    cases hp : u.phase <;> simp_all [Txn.Over, Txn.Alive, Phase.status, XidStatus.isCommitted]
  rw [isCommittedBeforeSnapshot_iff.2 ⟨hres, hcom⟩] at hsees
  cases hsees.2

theorem HistoryInv.read (hh : HistoryInv R s) (hlock : t.locks.any (R.reads i) = true) :
    HistoryInv R { s with
      reads := (x, i, (s.versions i).find? (s.sees x t.handle.snapshot)) :: s.reads } := by
  refine ⟨?_, ?_, ?_, hh.versionTags, hh.versionOrder⟩
  · intro a j v hmem
    rcases mem_cons.1 hmem with heq | hmem
    · cases heq
      exact ⟨t, ht, hlock⟩
    · exact hh.readLock a j v hmem
  · intro a j w hmem
    rcases mem_cons.1 hmem with heq | hmem
    · obtain ⟨rfl, rfl, hf⟩ : a = x ∧ j = i ∧ some w = _ := by simpa using heq
      refine ⟨mem_of_find?_eq_some hf.symm, fun hne t' ht' => ?_⟩
      obtain rfl := mem_unique ht ht'
      exact resolved_of_sees (find?_some hf.symm) hne
    · exact hh.readSeen a j w hmem
  · intro a j v b t' u hmem hb hne ht' hu halive
    rcases mem_cons.1 hmem with heq | hmem
    · cases heq
      obtain rfl := mem_unique ht ht'
      exact (hs.unresolved_of_unseen ht hu halive (unseen_of_mem_newer_find hb)).2
    · exact hh.readNewest a j v b t' u hmem hb hne ht' hu halive

theorem HistoryInv.write [DecidableEq ι] (hh : HistoryInv R s) (hp : t.phase = .active)
    (htags : R.covers i t.writeTags = true)
    (hmay : s.mayWrite x t.handle.snapshot (s.versions i) = true) :
    HistoryInv R { s with
      versions := update s.versions i ((s.versions i).insert x) } := by
  have hmem : ∀ {b j}, b ∈ s.versions j →
      b ∈ update s.versions i ((s.versions i).insert x) j := by
    intro b j hb
    exact to_update s.versions (P := (b ∈ ·)) hb mem_insert_of_mem
  -- a version that is newer after the write was newer before or is the one just written
  have hnewer : ∀ {b j v}, (∀ w ∈ v, w ∈ s.versions j) →
      b ∈ newer (update s.versions i ((s.versions i).insert x) j) v →
      b = x ∧ j = i ∧ x ∉ s.versions i ∨ b ∈ newer (s.versions j) v := by
    intro b j v hv hb
    rcases update_cases s.versions i ((s.versions i).insert x) j with heq | ⟨rfl, heq⟩
    · exact .inr (heq ▸ hb)
    · rw [heq] at hb
      exact (mem_newer_insert hv hb).imp_left fun h => ⟨h.1, rfl, h.2⟩
  refine ⟨hh.readLock, fun a j w hr => ⟨hmem (hh.readSeen a j w hr).1, (hh.readSeen a j w hr).2⟩,
    ?_, ?_, ?_⟩
  · intro a j v b ta u hr hb hne hta hu halive
    have hv : ∀ w ∈ v, w ∈ s.versions j := by
      rintro w rfl
      exact (hh.readSeen a j w hr).1
    rcases hnewer hv hb with ⟨rfl, rfl, -⟩ | hb
    · by_contra hres
      have hover := (hs.resolved a b ta t hta ht hne.symm (by simpa using hres)).1
      exact not_over_of_active hp hover
    · exact hh.readNewest a j v b ta u hr hb hne hta hu halive
  · intro b j hb
    rcases update_cases s.versions i ((s.versions i).insert x) j with heq | ⟨rfl, heq⟩
    · exact hh.versionTags b j (heq ▸ hb)
    · rcases mem_insert_iff.1 (heq.subst (motive := (b ∈ ·)) hb) with rfl | hb
      · exact ⟨t, ht, fun held hheld => R.covered _ held _ hheld htags⟩
      · exact hh.versionTags b j hb
  · intro a b j ta tb ha hb hta htb halive
    dsimp only at ha hb
    by_cases haj : a ∈ s.versions j
    · rcases hnewer (v := some a) (by simpa using haj) hb with ⟨rfl, rfl, hx⟩ | hb
      · obtain rfl := mem_unique ht htb
        have hne : a ≠ b := fun hab => hx (hab ▸ haj)
        rcases Bool.or_eq_true_iff.1 (all_eq_true.1 hmay a haj) with hsees | habort
        · exact resolved_of_sees hsees hne
        · -- a rolled back version
          rw [hs.status_eq hta] at habort
          have := halive.2
          cases hph : ta.phase <;> simp_all [Phase.status, XidStatus.isAborted]
      · exact hh.versionOrder a b j ta tb haj hb hta htb halive
    · -- the version just written is in front, so nothing is newer
      rcases update_cases s.versions i ((s.versions i).insert x) j with heq | ⟨rfl, heq⟩
      · exact absurd (heq ▸ ha) haj
      · rw [heq] at ha hb
        obtain rfl := (mem_insert_iff.1 ha).resolve_right haj
        rw [insert_of_not_mem haj, newer, takeWhile_cons_of_neg (by simp)] at hb
        cases hb

end

/-! ## Steps -/

structure Inv (R : Rows ι σ) (s : State ι) : Prop where
  txn : TxnInv s
  graph : GraphInv s
  history : HistoryInv R s

theorem inv_init : Inv R ({} : State ι) := by
  have hno : ∀ {x t} {P : Prop}, ({} : State ι).txns.lookup x = some t → P := nofun
  have hssi : ∀ {x e} {P : Prop}, ({} : State ι).ssi.lookup x = some e → P := nofun
  refine ⟨⟨rfl, le_rfl, fun _ _ => hno, fun _ _ => hno, fun _ _ => hno,
      fun _ _ => hno, fun _ _ => hno, fun _ _ _ => hno,
      fun _ _ => hno, fun _ _ => hno, fun _ _ _ _ _ => hno,
      fun _ _ => hno, fun _ _ _ _ => hno, nofun, nofun, nofun, nofun⟩,
    ⟨fun _ _ => hssi, fun _ _ _ => hssi, fun _ _ => hno,
      fun _ _ _ => hno, nofun, fun _ _ _ => hssi,
      fun _ _ _ => hssi, fun _ _ _ _ => hno,
      fun _ _ _ _ _ _ _ _ => hno⟩,
    ⟨nofun, nofun, fun _ _ _ _ _ _ h => absurd h not_mem_nil, nofun,
      fun _ _ _ _ _ h => absurd h not_mem_nil⟩⟩

variable {p : Phase}

theorem State.inPhase_eq_some {f : Txn → Option (State ι)} (h : s.inPhase x p f = some s') :
    ∃ t, s.txns.lookup x = some t ∧ t.phase = p ∧ f t = some s' := by
  unfold State.inPhase at h
  split at h
  · rename_i t ht
    split_ifs at h with hp
    exact ⟨t, ht, hp, h⟩
  · cases h

theorem lookup_setTxn (s : State ι) (x y : ℕ) (t : Txn) :
    (s.setTxn x t).txns.lookup y = if y = x then some t else s.txns.lookup y :=
  FiniteMap.lookup_insert_eq _ _ _ _

theorem Progress.extends (h : Progress s s' x t t') (hl : ∀ r ∈ t.locks, r ∈ t'.locks)
    (hw : ∀ r ∈ t.writeTags, r ∈ t'.writeTags) : Extends s s' := by
  intro y u hu
  rw [h.txns y]
  by_cases hyx : y = x
  · subst hyx
    obtain rfl := mem_unique h.was hu
    exact ⟨t', if_pos rfl, h.handle, h.alive, hl, hw⟩
  · exact ⟨u, (if_neg hyx).trans hu, rfl, id, fun _ => id, fun _ => id⟩

/-- A step in which the transaction takes no locks and records no conflicts. -/
theorem Progress.inv (h : Progress s s' x t t') (hi : Inv R s) (hl : t'.locks = t.locks)
    (hw : t'.writeTags = t.writeTags) (hr : s'.reads = s.reads) (hv : s'.versions = s.versions)
    (hent : Entries s s' x t' []) (hpass : t'.checkAt = t.checkAt ∨ s.ssi.Passes x) : Inv R s' where
  txn := hi.txn.progress h
  graph := by
    refine hi.graph.progress h hi.txn hent ?_ ?_ ?_ hpass
    · rw [hl]
      exact fun _ _ _ => .inl
    · rw [hl]
      exact fun _ _ _ _ _ _ => .inl
    · unfold Overlaps
      rw [hw]
      exact fun _ _ _ _ _ => .inl
  history := by
    refine hi.history.extends (h.extends ?_ ?_) hr hv
    · rw [hl]
      exact fun _ => id
    · rw [hw]
      exact fun _ => id

/-- The entries after the transaction's own is dropped. -/
theorem entries_abort (hlook : ∀ y, s'.ssi.lookup y = if y = x then none else s.ssi.lookup y)
    (he : s'.edges = s.edges) (hdead : ¬ t'.Alive) : Entries s s' x t' [] := by
  refine ⟨fun y e hy => ?_, fun y e hy hor => ⟨e, ?_⟩, fun a b => by simp [he], nofun⟩
  · rw [hlook y] at hy
    split_ifs at hy
    exact ⟨e, hy, fun _ => id, .inl ⟨rfl, rfl⟩, by simp, by simp⟩
  · rw [hlook y, if_neg (hor.resolve_right hdead)]
    exact hy

/-- The state after a step, with the clock moved on. -/
def State.tick (s : State ι) (s₁ : State ι) : State ι := { s₁ with clock := s.clock + 1 }

theorem registerXid_eq {e : SsiState} (h : s.ssi.lookup x = some e) :
    s.ssi.registerXid x = s.ssi := by
  unfold SsiManager.registerXid
  rw [h]

/-- A step of an active transaction that leaves the manager alone. -/
theorem progress_setTxn (hs : TxnInv s) {ssi : SsiManager} {edges : List (ℕ × ℕ)}
    (ht : s.txns.lookup x = some t) (hp : t.phase = .active) (hst : t'.phase.status = .inProgress)
    (hh : t'.handle = t.handle) (hb : t'.beginAt = t.beginAt)
    (hc : t'.checkAt = t.checkAt ∨ t'.phase = .checked ∧ t'.checkAt = some s.clock)
    (hck : t'.phase = .checked → t'.checkAt ≠ none) :
    Progress s (s.tick { s.setTxn x t' with ssi := ssi, edges := edges }) x t t' where
  was := ht
  running := not_over_of_active hp
  txns y := lookup_setTxn s x y _
  handle := hh
  beginAt := hb
  alive _ := alive_of_active hp
  checkAt := hc.imp_right fun h => ⟨hp, h.2⟩
  unchecked h := by
    rcases hc with hc | ⟨hc, -⟩
    · exact hc.trans (hs.unchecked x t ht hp)
    · cases hc.symm.trans h
  checked h := by
    rcases h with h | h
    · exact hck h
    · rw [h] at hst
      cases hst
  next := rfl
  parents := rfl
  clog y := by
    rw [hst]
    split_ifs with hyx
    · subst hyx
      exact (hs.clog y t ht).trans (hp ▸ rfl)
    · rfl
  inProgress _ hy _ := hy
  horizons := rfl
  loose := rfl
  ready := rfl
  clock := rfl

variable {s₁ : State ι}

theorem inv_terminate (hi : Inv R s) (ht : s.txns.lookup x = some t) (hrun : ¬ t.Over)
    {ssi : SsiManager} {r : Except TxnError TransactionManager}
    (hend : ∀ m, r = .ok m → Ended s.mgr x p.status m)
    (hpc : p = .committed ∧ t.phase = .checked ∧ ssi = s.ssi ∨
      p = .aborted ∧ ssi = s.ssi.abort x) (h : s.terminate x t p ssi r = some s₁) :
    Inv R (s.tick s₁) := by
  cases r with
  | error => cases h
  | ok m =>
    cases h
    have he := hend m rfl
    have hover : p.status ≠ .inProgress := by
      rcases hpc with ⟨rfl, -⟩ | ⟨rfl, -⟩ <;> simp [Phase.status]
    have hprog : Progress s (s.tick { s.setTxn x { t with phase := p } with mgr := m, ssi := ssi })
        x t { t with phase := p } := by
      refine ⟨ht, hrun, fun y => lookup_setTxn s x y _, rfl, rfl, fun halive => ?_, .inl rfl,
        fun hp => ?_, fun hck => ?_, he.next, he.parents, he.clog, fun y hy hor => ?_, rfl, rfl,
        rfl, rfl⟩
      · rcases hpc with ⟨rfl, hck, -⟩ | ⟨rfl, -⟩
        · simp [Txn.Alive, hck]
        · exact absurd rfl halive.2
      · exact absurd (congrArg Phase.status hp) hover
      · rcases hpc with ⟨rfl, hph, -⟩ | ⟨rfl, -⟩
        · exact hi.txn.checked x t ht (.inl hph)
        · simp at hck
      · exact (he.inProgress y).2 ⟨hy, hor.resolve_right fun h => h hover⟩
    rcases hpc with ⟨-, -, rfl⟩ | ⟨rfl, rfl⟩
    · exact hprog.inv hi rfl rfl rfl rfl ⟨fun y e hy =>
        ⟨e, hy, fun _ => id, .inl ⟨rfl, rfl⟩, by simp, by simp⟩, fun y e hy _ => ⟨e, hy⟩,
        fun a b => by simp [State.tick, State.setTxn], forall_mem_nil _⟩ (.inl rfl)
    · exact hprog.inv hi rfl rfl rfl rfl
        (entries_abort (SsiManager.lookup_abort s.ssi x) rfl fun h => h.2 rfl) (.inl rfl)

section Step

variable [DecidableEq ι]

variable {a : Act ι σ}

theorem machine_step (h : (machine R).step s a = some s') :
    ∃ s₁, effect R s a = some s₁ ∧ s' = s.tick s₁ := by
  obtain ⟨s₁, h₁, rfl⟩ := map_eq_some_iff.1 h
  exact ⟨s₁, h₁, rfl⟩

section

variable (hi : Inv R s)
include hi

theorem inv_begin {xmax : ℕ} (h : effect R s (.begin x xmax) = some s₁)
    (htime : ∀ y ∈ s.loose, xmax ≤ y) : Inv R (s.tick s₁) := by
  simp only [effect] at h
  split_ifs at h with hx
  have ho : Opened s (s.tick s₁) x xmax
      { handle := (s.mgr.beginAt x .serializable xmax).2, beginAt := s.clock } := by
    cases h
    exact ⟨hx.1, fun y => lookup_setTxn s x y _, begun_beginAt s.mgr x .serializable xmax, hx.2.2,
      htime, rfl, rfl, rfl, rfl, rfl, rfl, rfl, rfl, rfl⟩
  cases h
  refine ⟨hi.txn.opened ho, hi.graph.opened hi.txn ho rfl rfl,
    hi.history.extends (fun y u hu => ?_) rfl rfl⟩
  refine ⟨u, (ho.txns y).trans ((if_neg ?_).trans hu), rfl, id, fun _ => id, fun _ => id⟩
  rintro rfl
  cases (hi.txn.ready y hx.1).1.fresh.symm.trans hu

theorem inv_lock {st : σ} {tag : PredicateLockTag} (h : effect R s (.lock x st tag) = some s₁)
    (hcond : NoMissedWriter s (.lock x st tag)) : Inv R (s.tick s₁) := by
  obtain ⟨t, ht, hp, heq⟩ := State.inPhase_eq_some h
  split_ifs at heq
  cases heq
  obtain ⟨e, he⟩ := hi.graph.exists_entry hi.txn ht hp
  rw [registerXid_eq he]
  have hprog : Progress s (s.tick { s.setTxn x { t with locks := t.locks ++ [tag] } with
      ssi := s.ssi.addPredicateLock x tag }) x t { t with locks := t.locks ++ [tag] } :=
    progress_setTxn hi.txn ht hp (congrArg _ hp) rfl rfl (.inl rfl) fun h => by
      cases hp.symm.trans h
  refine ⟨hi.txn.progress hprog, hi.graph.progress hprog hi.txn (entries_addPredicateLock rfl rfl)
    (fun e' he' r hr => ?_) (fun b v hv hne ha hsnap => ?_) (fun _ _ _ _ _ => .inl) (.inl rfl),
    hi.history.extends (hprog.extends (fun r => mem_append_left _) fun _ => id) rfl rfl⟩
  · refine (mem_append.1 hr).imp_right fun hr => ?_
    change (s.ssi.addPredicateLock x tag).lookup x = some e' at he'
    rw [SsiManager.lookup_addPredicateLock, if_pos rfl, he] at he'
    cases he'
    exact mem_append_right _ hr
  · exact overlaps_locks hi.txn hi.graph ht hcond hv hne ha hsnap

theorem inv_conflicts {st : σ} {tag : PredicateLockTag}
    (h : effect R s (.conflicts x st tag) = some s₁) : Inv R (s.tick s₁) := by
  obtain ⟨t, ht, hp, heq⟩ := State.inPhase_eq_some h
  split_ifs at heq
  cases heq
  obtain ⟨e, he⟩ := hi.graph.exists_entry hi.txn ht hp
  rw [registerXid_eq he]
  obtain ⟨hrec, hrs⟩ := SsiManager.recordWriteConflicts_spec he tag
  have hprog : Progress s (s.tick { s.setTxn x { t with writeTags := tag :: t.writeTags } with
      ssi := (s.ssi.recordWriteConflicts x tag).1
      edges := (s.ssi.recordWriteConflicts x tag).2.map (·, x) ++ s.edges }) x t
      { t with writeTags := tag :: t.writeTags } :=
    progress_setTxn hi.txn ht hp (congrArg _ hp) rfl rfl (.inl rfl) fun h => by
      cases hp.symm.trans h
  refine ⟨hi.txn.progress hprog, hi.graph.progress hprog hi.txn
    (entries_recorded hi.graph (hi.txn.unchecked x t ht hp) rfl hrec hrs) (fun _ _ _ => .inl)
    (fun _ _ _ _ _ _ => .inl) (fun a u hu hne ha => ?_) (.inl rfl),
    hi.history.extends (hprog.extends (fun _ => id) fun r => mem_cons_of_mem _) rfl rfl⟩
  exact overlaps_writeTags hi.graph ht hp rfl hrs hu hne ha

theorem inv_check {k : ℕ} (h : effect R s (.check x k) = some s₁)
    (htime : ∀ y ∈ s.txns.keys, y < k) : Inv R (s.tick s₁) := by
  obtain ⟨t, ht, hp, heq⟩ := State.inPhase_eq_some h
  split_ifs at heq
  split at heq
  · -- the check is passed
    rename_i ssi hcommit
    cases heq
    have hlook := SsiManager.lookup_commit s.ssi x k
    rw [hcommit] at hlook
    have hprog : Progress s (s.tick
        { s.setTxn x { t with phase := .checked, checkAt := some s.clock } with ssi := ssi }) x t
        { t with phase := .checked, checkAt := some s.clock } :=
      progress_setTxn hi.txn ht hp rfl rfl rfl (.inr ⟨rfl, rfl⟩) fun _ => nofun
    refine hprog.inv hi rfl rfl rfl rfl ⟨fun y e' hy => ?_, fun y e hy _ => ?_,
      fun a b => by simp [State.tick, State.setTxn], nofun⟩
      (.inr (SsiManager.passes_of_commit (congrArg Prod.snd hcommit)))
    · change ssi.lookup y = some e' at hy
      rw [hlook] at hy
      split_ifs at hy with hyx
      · obtain ⟨e, he, rfl⟩ := map_eq_some_iff.1 hy
        exact ⟨e, he, fun _ => id, .inr ⟨hyx, nofun, k, rfl, fun z u hu =>
          htime z (AList.mem_keys.2 (AList.lookup_isSome.1 (isSome_of_eq_some hu)))⟩,
          by simp, by simp⟩
      · exact ⟨e', hy, fun _ => id, .inl ⟨rfl, rfl⟩, by simp, by simp⟩
    · show ∃ e', ssi.lookup y = some e'
      rw [hlook, hy]
      split_ifs
      · exact ⟨_, rfl⟩
      · exact ⟨e, rfl⟩
  · -- the transaction has to roll back
    rename_i ssi _ hcommit
    cases heq
    have hlook : ∀ y, (ssi.abort x).lookup y = if y = x then none else s.ssi.lookup y := by
      intro y
      rw [SsiManager.lookup_abort, ← show (s.ssi.commit x k).1 = ssi from
        congrArg Prod.fst hcommit, SsiManager.lookup_commit]
      split_ifs <;> rfl
    have hprog : Progress s (s.tick { s.setTxn x { t with phase := .doomed } with
        ssi := ssi.abort x }) x t { t with phase := .doomed } :=
      progress_setTxn hi.txn ht hp rfl rfl rfl (.inl rfl) nofun
    exact hprog.inv hi rfl rfl rfl rfl (entries_abort hlook rfl fun h => h.1 rfl) (.inl rfl)

theorem inv_finalize (h : effect R s (.finalize x) = some s₁) : Inv R (s.tick s₁) := by
  obtain ⟨t, ht, hp, heq⟩ := State.inPhase_eq_some h
  obtain ⟨hxid, hfam⟩ := hi.txn.handle x t ht
  refine inv_terminate hi ht ?_ (fun m hm => ?_) (.inl ⟨rfl, hp, rfl⟩) heq
  · rw [Txn.Over, hp]
    exact not_not.2 rfl
  · exact hxid ▸ ended_commitFinalizeVisible hfam hm

theorem inv_abort (h : effect R s (.abort x) = some s₁) : Inv R (s.tick s₁) := by
  simp only [effect] at h
  split at h
  · rename_i t ht
    split_ifs at h with hp
    obtain ⟨hxid, hfam⟩ := hi.txn.handle x t ht
    refine inv_terminate hi ht (not_not.2 hp) (fun m hm => ?_) (.inr ⟨rfl, rfl⟩) h
    exact hxid ▸ ended_abort hfam hm
  · cases h

theorem Inv.step (hcond : Guarded R s a) (hstep : (machine R).step s a = some s') :
    Inv R s' := by
  obtain ⟨s₁, h, rfl⟩ := machine_step hstep
  obtain ⟨hmissed, hlocked, htagged, htime⟩ := hcond
  cases a with
  | allocate =>
    cases h
    exact ⟨hi.txn.allocated.tick fun _ => .inl, hi.graph.congr rfl rfl rfl, { hi.history with }⟩
  | publish x =>
    simp only [effect] at h
    split_ifs at h with hx
    cases h
    exact ⟨(hi.txn.published hx).tick fun _ => .inl, hi.graph.congr rfl rfl rfl,
      { hi.history with }⟩
  | begin x xmax => exact inv_begin hi h (by simpa [Timely] using htime)
  | lock x st tag => exact inv_lock hi h hmissed
  | conflicts x st tag => exact inv_conflicts hi h
  | check x k => exact inv_check hi h (by simpa [Timely] using htime)
  | finalize x => exact inv_finalize hi h
  | abort x => exact inv_abort hi h
  | read x i =>
    obtain ⟨t, ht, -, heq⟩ := State.inPhase_eq_some h
    cases heq
    rw [ReadsLocked, ht] at hlocked
    have hr := hi.history.read hi.txn ht hlocked
    exact ⟨hi.txn.tick fun _ => .inl, hi.graph.congr rfl rfl rfl, { hr with }⟩
  | write x i =>
    obtain ⟨t, ht, hp, heq⟩ := State.inPhase_eq_some h
    split_ifs at heq with hmay
    cases heq
    rw [WritesTagged, ht] at htagged
    have hw := hi.history.write hi.txn ht hp htagged hmay
    exact ⟨hi.txn.tick fun _ => .inl, hi.graph.congr rfl rfl rfl, { hw with }⟩
  | sample =>
    cases h
    have hloose : ∀ y ∈ s.loose, s.mgr.oldestInProgress ≤ y := by simpa [Timely] using htime
    refine ⟨hi.txn.tick fun k hk => ?_, hi.graph.congr rfl rfl rfl, { hi.history with }⟩
    rcases mem_cons.1 hk with rfl | hk
    · exact .inr ⟨rfl, hloose⟩
    · exact .inl hk
  | collect k =>
    simp only [effect] at h
    split_ifs at h with hk
    cases h
    exact ⟨hi.txn.tick fun _ => .inl, (hi.graph.collected hi.txn hk).congr rfl rfl rfl,
      { hi.history with }⟩

end

theorem inv_of_reach (h : (machine R).Reach (Guarded R) s) : Inv R s :=
  Machine.Reach.invariant (P := Inv R) inv_init (fun _ _ _ _ hi hc hstep => hi.step hc hstep) h

end Step

/-! ## No cycle -/

theorem Inv.of_committed (hi : Inv R s) (h : Committed s x) : ∃ t c, s.txns.lookup x = some t ∧
    t.phase = .committed ∧ t.checkAt = some c ∧ t.beginAt < c := by
  obtain ⟨-, hst⟩ | ⟨t, ht⟩ := hi.txn.logged x _ h
  · cases hst
  have hst := some.inj ((hi.txn.clog x t ht).symm.trans h)
  have hp : t.phase = .committed := by
    cases hp : t.phase <;> rw [hp] at hst <;> first | rfl | cases hst
  obtain ⟨c, hc⟩ := ne_none_iff_exists'.1 (hi.txn.checked x t ht (.inr hp))
  exact ⟨t, c, ht, hp, hc, (hi.txn.checkedAt x t c ht hc).1⟩

theorem alive_of_committed (h : t.phase = .committed) : t.Alive := by
  simp [Txn.Alive, h]

/-- A writer that the snapshot has as resolved was decided before the transaction began. -/
theorem Inv.decided_of_resolved (hi : Inv R s) (ht : s.txns.lookup x = some t)
    (hu : s.txns.lookup y = some u) (hne : x ≠ y) (hc : u.checkAt ≠ none)
    (hres : t.handle.snapshot.xidInProgress y = false) : u.DecidedBefore t := by
  obtain ⟨c, hc⟩ := ne_none_iff_exists'.1 hc
  exact ⟨c, hc, (hi.txn.resolved x y t u ht hu hne hres).2 c hc⟩

/-- **A dependency is decided before, or is in the conflict graph.** -/
theorem Inv.dependency (hi : Inv R s) (hd : Dependency s x y) (ht : s.txns.lookup x = some t)
    (hu : s.txns.lookup y = some u) (htp : t.phase = .committed) (hup : u.phase = .committed) :
    t.DecidedBefore u ∨ (x, y) ∈ s.edges := by
  have hta := alive_of_committed htp
  have hua := alive_of_committed hup
  have htc := hi.txn.checked x t ht (.inr htp)
  cases hd with
  | ww i _ _ hx hy =>
    exact .inl (hi.decided_of_resolved hu ht (ne_of_mem_newer hy) htc
      (hi.history.versionOrder x y i t u hx hy ht hu hta))
  | wr i _ _ hne hr =>
    exact .inl (hi.decided_of_resolved hu ht hne.symm htc
      ((hi.history.readSeen y i x hr).2 hne u hu))
  | rw i v _ _ hne hr hy =>
    have hsnap := hi.history.readNewest x i v y t u hr hy hne.symm ht hu hua
    -- the lock of the read covers a tag of the write
    obtain ⟨t', ht', hlock⟩ := hi.history.readLock x i v hr
    obtain rfl := mem_unique ht ht'
    obtain ⟨u', hu', htags⟩ := hi.history.versionTags y i (mem_of_mem_newer hy)
    obtain rfl := mem_unique hu hu'
    obtain ⟨held, hheld, hreads⟩ := any_eq_true.1 hlock
    obtain ⟨tag, htag, hcov⟩ := htags held hreads
    exact (hi.graph.locked x y t u ht hu hne hta hua hsnap
      ⟨held, hheld, tag, htag, hcov⟩).symm

theorem Dependency.committed (h : Dependency s x y) : Committed s x ∧ Committed s y := by
  cases h with
  | ww _ hx hy | wr _ hx hy | rw _ _ hx hy => exact ⟨hx, hy⟩

/-- The time at which a transaction began. -/
def beganAt (s : State ι) (x : ℕ) : ℕ := ((s.txns.lookup x).map Txn.beginAt).getD 0

/-- The time at which a transaction passed its commit check. -/
def decidedAt (s : State ι) (x : ℕ) : ℕ := ((s.txns.lookup x).bind Txn.checkAt).getD 0

theorem beganAt_eq (h : s.txns.lookup x = some t) : beganAt s x = t.beginAt := by
  rw [beganAt, h]
  rfl

theorem decidedAt_eq {c : ℕ} (h : s.txns.lookup x = some t) (hc : t.checkAt = some c) :
    decidedAt s x = c := by
  rw [decidedAt, h, bind_some, hc]
  rfl

/-- **No reader misses a writer, so no cycle commits.** -/
theorem serializable_of_guarded [DecidableEq ι] (h : (machine R).Reach (Guarded R) s) :
    Serializable s := by
  have hi := inv_of_reach h
  intro x hcycle
  obtain ⟨a, b, c, ⟨hab, ha, hb⟩, ⟨hbc, -, hc⟩, hca, hcb⟩ :=
    SerializationGraph.exists_dangerous_of_cycle (B := beganAt s) (C := decidedAt s)
      (E := fun a b => (a, b) ∈ s.edges ∧ Committed s a ∧ Committed s b)
      (fun a b hd => by
        obtain ⟨u, c, hu, -, hc, hlt⟩ := hi.of_committed hd.committed.2
        rwa [beganAt_eq hu, decidedAt_eq hu hc])
      (fun a b hd => by
        obtain ⟨t, c, ht, htp, hc, -⟩ := hi.of_committed hd.committed.1
        obtain ⟨u, -, hu, hup, -⟩ := hi.of_committed hd.committed.2
        rcases hi.dependency hd ht hu htp hup with ⟨k, hk, hlt⟩ | hedge
        · exact .inl (by rwa [decidedAt_eq ht hk, beganAt_eq hu])
        · exact .inr ⟨hedge, hd.committed⟩)
      (fun a b hE => by
        obtain ⟨-, t, u, ht, hu, hlt⟩ := hi.graph.edges a b hE.1
        obtain ⟨u', c, hu', -, hc, -⟩ := hi.of_committed hE.2.2
        obtain rfl := mem_unique hu hu'
        rw [beganAt_eq ht, decidedAt_eq hu hc]
        exact hlt c hc) hcycle
  obtain ⟨t, k₁, ht, htp, hk₁, -⟩ := hi.of_committed ha
  obtain ⟨u, k₂, hu, hup, hk₂, -⟩ := hi.of_committed hb
  obtain ⟨v, k₃, hv, hvp, hk₃, -⟩ := hi.of_committed hc
  rw [decidedAt_eq hv hk₃, decidedAt_eq ht hk₁] at hca
  rw [decidedAt_eq hv hk₃, decidedAt_eq hu hk₂] at hcb
  obtain ⟨hbcne, u', v', hu', hv', hlt⟩ := hi.graph.edges b c hbc
  obtain rfl := mem_unique hu hu'
  obtain rfl := mem_unique hv hv'
  have hne : k₃ ≠ k₂ := fun heq => hbcne (hi.txn.injective b c u v k₂ hu hv hk₂ (heq ▸ hk₃))
  obtain ⟨k, hk, hlt'⟩ := hi.graph.pivot a b c t u v k₂ k₃ ht hu hv hab hbc
    (alive_of_committed htp) (alive_of_committed hup) (alive_of_committed hvp) hk₂ hk₃
    (lt_of_le_of_ne hcb hne) (hlt k₃ hk₃)
  obtain rfl := mem_unique hk₁ hk
  exact absurd (hlt'.trans (hlt k₃ hk₃)) (not_lt.2 hca)

/-! ## Runs on a table with two columns -/

def onTable (plan : LogicalPlan) : Statement :=
  ⟨fun table => if table = 1 then some ⟨1, [some .int, some .int]⟩ else none, plan⟩

def columnEq (c : ℕ) (key : ℤ) : ScalarExpr :=
  .binary .eq (.column c (some .int)) (.literal (some (.int, key)))

def selectWhere (e : ScalarExpr) : Statement := onTable (.filter (.scan 1) e)

def deleteWhere (e : ScalarExpr) : Statement := onTable (.delete 1 (.filter (.scan 1) e))

def insertRow (a b : ℤ) : Statement :=
  onTable (.insert 1 [] (.values [[.literal (some (.int, a)), .literal (some (.int, b))]]))

def tableRow (a b : ℤ) : Row := ⟨1, [some a, some b]⟩

def opening (x : ℕ) : List (Act Row Statement) := [.allocate, .publish x, .begin x (x + 1)]

/-- A statement records its tags and then makes its reads and writes. -/
def run (x : ℕ) (st : Statement) (body : List (Act Row Statement)) : List (Act Row Statement) :=
  (tableRows.locks st).map (.lock x st) ++ (tableRows.tags st).map (.conflicts x st) ++ body

def selects (x : ℕ) (e : ScalarExpr) (i : Row) : List (Act Row Statement) :=
  run x (selectWhere e) [.read x i]

def deletes (x : ℕ) (e : ScalarExpr) (i : Row) : List (Act Row Statement) :=
  run x (deleteWhere e) [.read x i, .write x i]

/-- Two transactions each of which reads a row that the other one deletes. The reads come first, so
the first commit check fails. A third transaction puts a row back. -/
def writeSkewPrevented : List (Act Row Statement) :=
  opening 3 ++ opening 4 ++ selects 3 (columnEq 0 2) (tableRow 2 2) ++
  selects 4 (columnEq 0 1) (tableRow 1 1) ++ deletes 3 (columnEq 0 1) (tableRow 1 1) ++
  deletes 4 (columnEq 0 2) (tableRow 2 2) ++ [.check 3 5, .abort 3, .check 4 5, .finalize 4] ++
  opening 5 ++ selects 5 (columnEq 0 2) (tableRow 2 2) ++
  run 5 (insertRow 2 2) [.write 5 (tableRow 2 2)] ++
  [.check 5 6, .finalize 5, .sample, .collect 6]

/-- The condition holds along a run in which one of two transactions is refused, and a third one
reads and overwrites what the other has committed. -/
theorem reads_first_serializable : ∃ s, (machine tableRows).Reach (Guarded tableRows) s ∧
    (s.mgr.clog.lookup 3 = some .aborted ∧ Committed s 4 ∧ Committed s 5 ∧
      (5, tableRow 2 2, some 4) ∈ s.reads) ∧ Serializable s := by
  obtain ⟨s, hs, hp⟩ := Machine.exists_reach_of_runIf (M := machine tableRows)
    (C := Guarded tableRows) (p := fun s => s.mgr.clog.lookup 3 = some .aborted ∧
      s.mgr.clog.lookup 4 = some .committed ∧ s.mgr.clog.lookup 5 = some .committed ∧
      (5, tableRow 2 2, some 4) ∈ s.reads) writeSkewPrevented (by decide)
  exact ⟨s, hs, hp, serializable_of_guarded hs⟩

/-- Two committed transactions have each read a row before the version that the other one wrote. -/
def Skewed (s : State Row) (i j : Row) : Prop :=
  s.mgr.clog.lookup 3 = some .committed ∧ s.mgr.clog.lookup 4 = some .committed ∧
    (3, i, none) ∈ s.reads ∧ 4 ∈ s.versions i ∧ (4, j, none) ∈ s.reads ∧ 3 ∈ s.versions j

instance instDecidableSkewed (s : State Row) (i j : Row) : Decidable (Skewed s i j) :=
  inferInstanceAs (Decidable (_ ∧ _))

theorem exists_cycle {C : State Row → Act Row Statement → Prop} [DecidableRel C] {i j : Row}
    (as : List (Act Row Statement)) (h : ((machine tableRows).runIf C {} as).any
      (fun s => decide (Skewed s i j)) = true) : ∃ s, (machine tableRows).Reach C s ∧
      Committed s 3 ∧ Committed s 4 ∧ ¬ Serializable s := by
  obtain ⟨s, hs, h3, h4, hr3, hv4, hr4, hv3⟩ := Machine.exists_reach_of_runIf as h
  have h34 : Dependency s 3 4 := .rw i none h3 h4 (by decide) hr3 hv4
  have h43 : Dependency s 4 3 := .rw j none h4 h3 (by decide) hr4 hv3
  exact ⟨s, hs, h3, h4, fun hser => hser 3 (.tail (.single h34) h43)⟩

def bothCommit : List (Act Row Statement) := [.check 3 5, .finalize 3, .check 4 5, .finalize 4]

/-- Each transaction deletes its row before the other one takes its locks. -/
def writeSkew : List (Act Row Statement) :=
  opening 3 ++ opening 4 ++ deletes 3 (columnEq 0 1) (tableRow 1 1) ++
  deletes 4 (columnEq 0 2) (tableRow 2 2) ++ selects 3 (columnEq 0 2) (tableRow 2 2) ++
  selects 4 (columnEq 0 1) (tableRow 1 1) ++ bothCommit

/-- **A write skew commits** if readers miss writers, although the rest of the condition holds. -/
theorem write_skew_commits : ∃ s, (machine tableRows).Reach
    (fun s a => ReadsLocked tableRows s a ∧ WritesTagged tableRows s a ∧ Timely s a) s ∧
    Committed s 3 ∧ Committed s 4 ∧ ¬ Serializable s :=
  exists_cycle (i := tableRow 2 2) (j := tableRow 1 1) writeSkew (by decide)

/-- The tags of the DELETE are the ranges `a = 7` and `b = 9`, and neither meets the lock under
which the row `(7, 100)` was read. -/
def disjunction : List (Act Row Statement) :=
  opening 3 ++ opening 4 ++ selects 3 (columnEq 1 100) (tableRow 7 100) ++
  selects 4 (columnEq 0 1) (tableRow 1 1) ++
  deletes 4 (.binary .or (columnEq 0 7) (columnEq 1 9)) (tableRow 7 100) ++
  deletes 3 (columnEq 0 1) (tableRow 1 1) ++ bothCommit

/-- **A cycle commits** if tags miss a row, although the rest of the condition holds. -/
theorem disjunction_is_missed : ∃ s, (machine tableRows).Reach
    (fun s a => NoMissedWriter s a ∧ ReadsLocked tableRows s a ∧ Timely s a) s ∧
    Committed s 3 ∧ Committed s 4 ∧ ¬ Serializable s :=
  exists_cycle (i := tableRow 7 100) (j := tableRow 1 1) disjunction (by decide)

end UltraSql.Ssi
