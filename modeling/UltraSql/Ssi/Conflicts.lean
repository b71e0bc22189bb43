import UltraSql.Ssi.Invariant

/-!
# The conflict graph along a history

The steps that change the conflict graph keep `GraphInv`: a commit check, the end of a
transaction, a lock and the conflicts of a write.

A reader that the write conflicts miss has lost its entry, so it was decided before every running
transaction began. A pivot that passes its check has lost the entry of one of its neighbours: the
reader was decided before the pivot began, or else the writer was, and then the structure is not
dangerous. The step that takes locks is the one that needs `NoMissedWriter`.
-/

namespace UltraSql.Ssi

open TransactionManager Option

variable {ι : Type*} {s s' : State ι} {x y : ℕ} {t t' u : Txn}

theorem GraphInv.decided_of_gone (hg : GraphInv s) (ht : s.txns.lookup x = some t) (ha : t.Alive)
    (hnone : s.ssi.lookup x = none) (hu : s.txns.lookup y = some u) (hrun : ¬ u.Over) :
    t.DecidedBefore u := by
  refine ((hg.present x t ht ha).resolve_left ?_).2 y u hu hrun
  rintro ⟨e, he⟩
  rw [hnone] at he
  cases he

section Progress

variable {rs : List ℕ} (h : Progress s s' x t t') (hg : GraphInv s) (hs : TxnInv s)
  (hent : Entries s s' x t' rs)

include h hg hs hent

theorem Progress.horizon (y : ℕ) (e : SsiState) (k : ℕ) (hy : s'.ssi.lookup y = some e)
    (hc : e.committed = true) (hk : e.commitHorizon = some k) :
    ∃ u, s'.txns.lookup y = some u ∧ u.checkAt ≠ none ∧
      ∀ z v, s'.txns.lookup z = some v → k ≤ z → u.DecidedBefore v := by
  obtain ⟨e₀, he₀, -, ⟨hcom, hhor⟩ | ⟨rfl, hne, l, hhor, hlt⟩, -⟩ := hent.old y e hy
  · obtain ⟨u, hu, hne, hdec⟩ := hg.horizon y e₀ k he₀ (hcom ▸ hc) (hhor ▸ hk)
    obtain ⟨u', hu', hlu⟩ := h.new hs hu
    refine ⟨u', hu', hlu.checked hne, fun z v hv hle => ?_⟩
    obtain ⟨v₀, hv₀, hlv⟩ := h.old hs hv
    exact hlu.decidedBefore hlv (hdec z v₀ hv₀ hle)
  · -- no transaction with an XID at or above the horizon just stamped has a snapshot
    refine ⟨t', by rw [h.txns, if_pos rfl], hne, fun z v hv hle => ?_⟩
    obtain ⟨v₀, hv₀, -⟩ := h.old hs hv
    obtain rfl := mem_unique hk hhor
    exact absurd (hlt z v₀ hv₀) (not_lt.2 hle)

theorem Progress.present (y : ℕ) (u : Txn) (hu : s'.txns.lookup y = some u) (halive : u.Alive) :
    (∃ e, s'.ssi.lookup y = some e) ∨
      u.checkAt ≠ none ∧ ∀ z v, s'.txns.lookup z = some v → ¬ v.Over → u.DecidedBefore v := by
  obtain ⟨u₀, hu₀, hlu⟩ := h.old hs hu
  refine (hg.present y u₀ hu₀ (hlu.alive halive)).imp ?_ ?_
  · rintro ⟨e, he⟩
    refine hent.new y e he ?_
    obtain ⟨-, rfl⟩ | ⟨hyx, -⟩ := h.cases hu
    · exact .inr halive
    · exact .inl hyx
  · rintro ⟨hne, hdec⟩
    refine ⟨hlu.checked hne, fun z v hv hrun => ?_⟩
    obtain ⟨v₀, hv₀, hlv⟩ := h.old hs hv
    exact hlu.decidedBefore hlv (hdec z v₀ hv₀ (hlv.running hrun))

theorem Progress.edges (a b : ℕ) (hab : (a, b) ∈ s'.edges) : a ≠ b ∧ ∃ u v,
    s'.txns.lookup a = some u ∧ s'.txns.lookup b = some v ∧
      ∀ c, v.checkAt = some c → u.beginAt < c := by
  rcases (hent.edges a b).1 hab with hab | ⟨rfl, ha⟩
  · obtain ⟨hne, u, v, hu, hv, hlt⟩ := hg.edges a b hab
    obtain ⟨u', hu', hlu⟩ := h.new hs hu
    obtain ⟨v', hv', -⟩ := h.new hs hv
    refine ⟨hne, u', v', hu', hv', fun c hc => ?_⟩
    rw [hlu.beginAt]
    rcases h.checkAt_cases hv' hv hc with hold | ⟨-, -, rfl⟩
    · exact hlt c hold
    · exact hs.begun a u hu
  · obtain ⟨hne, hnone, u, hu⟩ := hent.readers a ha
    obtain ⟨u', hu', -⟩ := h.new hs hu
    refine ⟨hne, u', t', hu', by rw [h.txns, if_pos rfl], fun c hc => ?_⟩
    rw [hnone] at hc
    cases hc

/-- The transaction passes its check, and no other one is checked. -/
theorem Progress.pivot (hpass : t'.checkAt = t.checkAt ∨ s.ssi.Passes x) (a b c : ℕ) (u v w : Txn)
    (k l : ℕ) (hu : s'.txns.lookup a = some u) (hv : s'.txns.lookup b = some v)
    (hw : s'.txns.lookup c = some w) (hab : (a, b) ∈ s'.edges) (hbc : (b, c) ∈ s'.edges)
    (hua : u.Alive) (hva : v.Alive) (hwa : w.Alive) (hk : v.checkAt = some k)
    (hl : w.checkAt = some l) (hlk : l < k) (hbl : v.beginAt < l) : u.DecidedBefore v := by
  -- the writer of a new antidependency is not checked
  have hold : ∀ {a b : ℕ} {v : Txn} {k : ℕ}, s'.txns.lookup b = some v → v.checkAt = some k →
      (a, b) ∈ s'.edges → (a, b) ∈ s.edges := by
    intro a b v k hv hk hab
    refine ((hent.edges a b).1 hab).resolve_right ?_
    rintro ⟨rfl, ha⟩
    rw [h.txns, if_pos rfl] at hv
    obtain rfl := some.inj hv
    rw [(hent.readers a ha).2.1] at hk
    cases hk
  replace hab := hold hv hk hab
  replace hbc := hold hw hl hbc
  obtain ⟨u₀, hu₀, hlu⟩ := h.old hs hu
  obtain ⟨v₀, hv₀, hlv⟩ := h.old hs hv
  obtain ⟨w₀, hw₀, hlw⟩ := h.old hs hw
  rcases h.checkAt_cases hw hw₀ hl with hl₀ | ⟨-, -, rfl⟩
  · rcases h.checkAt_cases hv hv₀ hk with hk₀ | ⟨rfl, hact, rfl⟩
    · exact hlu.decidedBefore hlv (hg.pivot a b c u₀ v₀ w₀ k l hu₀ hv₀ hw₀ hab hbc
        (hlu.alive hua) (hlv.alive hva) (hlw.alive hwa) hk₀ hl₀ hlk (hlv.beginAt ▸ hbl))
    · -- the pivot itself is checked
      obtain rfl := mem_unique h.was hv₀
      obtain ⟨e, he⟩ := hg.exists_entry hs h.was hact
      have hpass' : s.ssi.Passes b := by
        refine hpass.resolve_left fun hsame => ?_
        rw [h.txns, if_pos rfl] at hv
        rw [← some.inj hv, hsame, hs.unchecked b t h.was hact] at hk
        cases hk
      rcases hpass' a c e he (hg.conflictIn a b e he hab) ((hg.conflictOut b c e he).1 hbc)
        (hg.edges a b hab).1 (hg.edges b c hbc).1.symm with hgone | hgone
      · exact hlu.decidedBefore hlv
          (hg.decided_of_gone hu₀ (hlu.alive hua) hgone h.was h.running)
      · obtain ⟨l', hl', hlt⟩ := hg.decided_of_gone hw₀ (hlw.alive hwa) hgone h.was h.running
        obtain rfl := mem_unique hl₀ hl'
        rw [hlv.beginAt] at hbl
        exact absurd hlt hbl.asymm
  · rcases h.checkAt_cases hv hv₀ hk with hk₀ | ⟨-, -, rfl⟩
    · exact absurd (hlk.trans (hs.checkedAt b v₀ k hv₀ hk₀).2) (lt_irrefl _)
    · exact absurd hlk (lt_irrefl _)

/-- **A step of one transaction keeps the conflict graph.** What it locks meets no writer that is
missed, and what it writes meets no reader that is missed. -/
theorem GraphInv.progress
    (hlocks : ∀ e, s'.ssi.lookup x = some e → ∀ r ∈ t'.locks, r ∈ t.locks ∨ r ∈ e.predicateLocks)
    (hread : ∀ b v, s.txns.lookup b = some v → b ≠ x → v.Alive →
      t.handle.snapshot.xidInProgress b = true → Overlaps t'.locks v →
      Overlaps t.locks v ∨ (x, b) ∈ s.edges)
    (hwrite : ∀ a u, s.txns.lookup a = some u → a ≠ x → u.Alive → Overlaps u.locks t' →
      Overlaps u.locks t ∨ a ∈ rs ∨ u.DecidedBefore t)
    (hpass : t'.checkAt = t.checkAt ∨ s.ssi.Passes x) : GraphInv s' := by
  refine ⟨?_, h.horizon hg hs hent, h.present hg hs hent, ?_, h.edges hg hs hent, ?_, ?_, ?_,
    h.pivot hg hs hent hpass⟩
  · intro y e hy
    obtain ⟨e₀, he₀, -⟩ := hent.old y e hy
    obtain ⟨u, hu⟩ := hg.known y e₀ he₀
    obtain ⟨u', hu', -⟩ := h.new hs hu
    exact ⟨u', hu'⟩
  · intro y u e hu hy r hr
    obtain ⟨e₀, he₀, hkept, -⟩ := hent.old y e hy
    obtain ⟨rfl, rfl⟩ | ⟨-, hu⟩ := h.cases hu
    · exact (hlocks e hy r hr).elim (fun hr => hkept r (hg.locks y t e₀ h.was he₀ r hr)) id
    · exact hkept r (hg.locks y u e₀ hu he₀ r hr)
  · intro a b e hy
    obtain ⟨e₀, he₀, -, -, hout, -⟩ := hent.old a e hy
    rw [hent.edges, hout, hg.conflictOut a b e₀ he₀]
  · intro a b e hy hab
    obtain ⟨e₀, he₀, -, -, -, hin⟩ := hent.old b e hy
    rw [hin]
    exact ((hent.edges a b).1 hab).imp_left (hg.conflictIn a b e₀ he₀)
  · intro a b u v hu hv hne hua hva hsnap hover
    obtain ⟨u₀, hu₀, hlu⟩ := h.old hs hu
    obtain ⟨v₀, hv₀, hlv⟩ := h.old hs hv
    rw [hent.edges]
    rw [hlu.handle] at hsnap
    have hlocked : Overlaps u₀.locks v₀ →
        ((a, b) ∈ s.edges ∨ b = x ∧ a ∈ rs) ∨ u.DecidedBefore v := fun hover =>
      (hg.locked a b u₀ v₀ hu₀ hv₀ hne (hlu.alive hua) (hlv.alive hva) hsnap hover).imp .inl
        (hlu.decidedBefore hlv)
    obtain ⟨rfl, rfl⟩ | ⟨-, hu'⟩ := h.cases hu
    · obtain ⟨rfl, -⟩ | ⟨hbx, hv'⟩ := h.cases hv
      · exact absurd rfl hne
      obtain rfl := mem_unique h.was hu₀
      obtain rfl := mem_unique hv₀ hv'
      exact (hread b v₀ hv₀ hbx hva hsnap hover).elim hlocked fun hab => .inl (.inl hab)
    obtain rfl := mem_unique hu₀ hu'
    obtain ⟨rfl, rfl⟩ | ⟨-, hv'⟩ := h.cases hv
    · obtain rfl := mem_unique h.was hv₀
      rcases hwrite a u₀ hu₀ hne hua hover with hover | ha | hdec
      · exact hlocked hover
      · exact .inl (.inr ⟨rfl, ha⟩)
      · exact .inr (hlu.decidedBefore hlv hdec)
    · obtain rfl := mem_unique hv₀ hv'
      exact hlocked hover

end Progress

/-! ## The statements of an active transaction -/

variable {tag : PredicateLockTag}

theorem entries_addPredicateLock (hssi : s'.ssi = s.ssi.addPredicateLock x tag)
    (he : s'.edges = s.edges) : Entries s s' x t' [] := by
  refine ⟨fun y e' hy => ?_, fun y e hy _ => ?_, fun a b => by simp [he], nofun⟩
  · rw [hssi, SsiManager.lookup_addPredicateLock] at hy
    split_ifs at hy
    · obtain ⟨e, he₀, rfl⟩ := map_eq_some_iff.1 hy
      exact ⟨e, he₀, fun r => List.mem_append_left _, .inl ⟨rfl, rfl⟩, by simp, by simp⟩
    · exact ⟨e', hy, fun _ => id, .inl ⟨rfl, rfl⟩, by simp, by simp⟩
  · rw [hssi, SsiManager.lookup_addPredicateLock, hy]
    split_ifs
    · exact ⟨_, rfl⟩
    · exact ⟨e, rfl⟩

/-- A writer that came before the lock is what the condition rules out. -/
theorem overlaps_locks {σ : Type*} {st : σ} (hs : TxnInv s) (hg : GraphInv s)
    (ht : s.txns.lookup x = some t) (hcond : NoMissedWriter s (.lock x st tag))
    (hu : s.txns.lookup y = some u) (hne : y ≠ x) (ha : u.Alive)
    (hsnap : t.handle.snapshot.xidInProgress y = true) (hover : Overlaps (t.locks ++ [tag]) u) :
    Overlaps t.locks u ∨ (x, y) ∈ s.edges := by
  obtain ⟨held, hheld, hcov⟩ := hover
  refine (List.mem_append.1 hheld).imp (fun hheld => ⟨held, hheld, hcov⟩) fun hheld => ?_
  have hstatus : (s.mgr.status y).isAborted = false := by
    rw [status_eq hs.parents (hs.range y u hu).1, hs.clog y u hu]
    have := ha.2
    cases hph : u.phase <;> simp_all [Phase.status, XidStatus.isAborted]
  obtain ⟨e, hex, hye⟩ := hcond (x, tag) rfl t ht y
    (AList.mem_keys.2 (AList.lookup_isSome.1 (isSome_of_eq_some hu))) u hu hne hsnap hstatus
    ⟨held, hheld, hcov⟩
  exact (hg.conflictOut x y e hex).2 hye

/-- The entries after a write under the tag. -/
theorem entries_recorded (hg : GraphInv s) {rs : List ℕ} (hc : t'.checkAt = none)
    (he : s'.edges = rs.map (·, x) ++ s.edges) (hrec : s.ssi.Recorded x rs s'.ssi)
    (hrs : ∀ y, y ∈ rs ↔ y ≠ x ∧ s.ssi.Holds y tag) : Entries s s' x t' rs := by
  refine ⟨fun y e' hy => ?_, fun y e hy _ => hrec.present y e hy, fun a b => ?_, fun a ha => ?_⟩
  · obtain ⟨e, hy, hpl, hcom, hh, hout, hin⟩ := hrec.entry y e' hy
    exact ⟨e, hy, fun r hr => hpl ▸ hr, .inl ⟨hcom, hh⟩, hout, hin⟩
  · simp only [he, List.mem_append, List.mem_map, Prod.mk.injEq]
    grind
  · obtain ⟨hne, e, hea, -⟩ := (hrs a).1 ha
    exact ⟨hne, hc, hg.known a e hea⟩

/-- A reader is found, or has lost its entry and was decided before the writer began. -/
theorem overlaps_writeTags (hg : GraphInv s) {rs : List ℕ} (ht : s.txns.lookup x = some t)
    (hp : t.phase = .active) (htags : t'.writeTags = tag :: t.writeTags)
    (hrs : ∀ y, y ∈ rs ↔ y ≠ x ∧ s.ssi.Holds y tag)
    (hu : s.txns.lookup y = some u) (hne : y ≠ x) (ha : u.Alive) (hover : Overlaps u.locks t') :
    Overlaps u.locks t ∨ y ∈ rs ∨ u.DecidedBefore t := by
  obtain ⟨held, hheld, tag', htag', hc⟩ := hover
  rw [htags, List.mem_cons] at htag'
  rcases htag' with rfl | htag'
  · right
    cases hey : s.ssi.lookup y with
    | some e => exact .inl ((hrs y).2 ⟨hne, e, hey, held, hg.locks y u e hu hey held hheld, hc⟩)
    | none => exact .inr (hg.decided_of_gone hu ha hey ht (not_over_of_active hp))
  · exact .inl ⟨held, hheld, tag', htag', hc⟩

end UltraSql.Ssi
