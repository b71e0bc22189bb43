import UltraSql.Heap.CacheSteps

/-!
# What is in a projection

A projection is built by a transaction `b` in a statement `k`. It has the writes that are committed
and those of `b` itself from earlier statements. The gate makes sure that there are no others: with
no transaction in progress, every writer below the snapshot's `xmax` has ended, and every other one
has raised the last writer to `xmax` at least. From then on a write is new and its bump is pending,
or the version has changed and nobody is served the projection.

What is in it changes afterwards only if `b` takes its own writes back. `Valid` says that it then
invalidates the projection before it ends, and that nobody else passes the gate until it has. A
statement of `b` that has failed does not count as a modification, but what it has written goes with
the savepoint that `b` has to roll back to.

**Theorem (`Inv.afterHeap`).** A step of the heap keeps the invariant.
-/

namespace UltraSql.CachedHeap

open Function Heap
open Timeline (Client)
open Savepoints (Own txnXids mem_txnXids)
open Option (mem_unique)

variable {s s' : State} {t t' : Timeline.State} {a : Act} {x y z b k w : ℕ} {c d d' : Client}
  {st : Stamp} {rows : List Payload}

variable {act : Heap.Act} {h' : Heap.State}

/-! ## What a projection has -/

/-- The writes that a projection has which the transaction `b` builds at the command `k`: its own of
earlier commands, and those that are committed. -/
def counts (t : Timeline.State) (b k : ℕ) (st : Stamp) : Bool :=
  match t.clients.lookup st.owner with
  | some d =>
    decide (Own d.handle st.xid) &&
      if st.owner = b then decide (st.command < k) else decide (d.phase = .committed)
  | none => false

theorem counts_iff (hd : t.clients.lookup st.owner = some d) : counts t b k st = true ↔
    Own d.handle st.xid ∧ if st.owner = b then st.command < k else d.phase = .committed := by
  unfold counts
  rw [hd]
  split_ifs <;> simp

/-- What a projection of `b` should be. -/
def State.image (s : State) (b k : ℕ) : List Payload :=
  s.heap.slots.filterMap (·.expected (counts s.heap.txn b k))

/-- Where a write stands for a projection that was built under a snapshot of the time `w`: its
transaction had ended, or it is the builder's own, or it is new and the bump is still to come. -/
inductive Covered (s : State) (b k w : ℕ) (st : Stamp) : Prop
  | past {e : ℕ} (he : s.heap.txn.ended st.owner = some e) (hlt : e < w)
  | own (ho : st.owner = b) (hk : st.command < k) (hx : st.xid ≤ s.cache.lastWriterXid)
  | pending {z : ℕ} (hz : s.pending st.owner = some z) (hk : st.owner = b → k ≤ st.command)

/-- What the gate has found out for the version that the relation is at. -/
structure Sound (s : State) (b k w : ℕ) : Prop where
  client : ∃ c, s.heap.txn.clients.lookup b = some c ∧ k ≤ c.handle.currentCommand ∧ w ≤ c.view
  covered : ∀ st ∈ s.heap.stamps, Covered s b k w st
  writer : s.cache.lastWriterXid = 0 ∨ (∃ e, s.heap.txn.ended s.cache.lastWriterXid = some e) ∨
    ∃ c, s.heap.txn.clients.lookup b = some c ∧ Own c.handle s.cache.lastWriterXid

/-- The projection has writes of the builder's own. -/
def Stamped (s : State) (b k : ℕ) : Prop :=
  ∃ st ∈ s.heap.stamps, st.owner = b ∧ counts s.heap.txn b k st = true

/-- The builder's own writes in a projection will be invalidated before they are rolled back. -/
structure Kept (s : State) (b k : ℕ) : Prop where
  modified : ∀ c, s.heap.txn.clients.lookup b = some c → c.phase.status = .inProgress →
    s.prepared b = false → Stamped s b k → s.modified b = true
  invalidated : ∀ path, s.job b = .ending path true → ¬ Stamped s b k
  aborted : ∀ c, s.heap.txn.clients.lookup b = some c → c.phase = .aborted → ¬ Stamped s b k

/-- A published projection is right, or nobody can pass the gate: because the builder is on its way
to invalidate it, or because the last writer is one that has been rolled back. -/
inductive Valid (s : State) (b k : ℕ) (rows : List Payload) : Prop
  | image (h : rows = s.image b k) (hk : Kept s b k)
  | restoring (c : Client) (hc : s.heap.txn.clients.lookup b = some c)
    (hopen : c.phase.status = .inProgress) (hj : s.job b = .restoring) (hm : s.modified b = true)
    (hle : b ≤ s.cache.lastWriterXid)
  | blocked (y : ℕ) (d : Client) (hd : s.heap.txn.clients.lookup y = some d)
    (hp : d.phase = .aborted) (hown : Own d.handle s.cache.lastWriterXid)

/-- The bump for a write of the session is still to come. -/
structure Pends (s : State) (x z : ℕ) (c : Client) : Prop where
  client : s.heap.txn.clients.lookup x = some c
  xid : z ∈ txnXids c.handle
  opened : c.phase.status = .inProgress
  job : s.job x = .writing ∨ s.job x = .restoring ∨ ∃ path i, s.job x = .ending path i
  write : s.job x = .writing → z = c.handle.writeXid

/-- What holds of a scan that builds a projection. -/
structure Building (s : State) (i : Build) (c : Client) : Prop where
  client : s.heap.txn.clients.lookup i.session = some c
  command : i.command ≤ c.handle.currentCommand
  version : i.version ≤ s.cache.version
  gated : i.version = s.cache.version → i.stage ≠ .sampled → s.job i.session = .ready →
    c.phase = .running → c.handle.currentCommand = i.command →
      (∃ w, Sound s i.session i.command w) ∧
        ∀ rows, i.stage = .scanned rows → rows = s.image i.session i.command

structure Inv (s : State) : Prop where
  heap : Heap.Orderly s.heap
  written : ∀ st ∈ s.heap.stamps, st.xid ≤ s.cache.lastWriterXid ∨
    ∃ z, s.pending st.owner = some z ∧ st.xid ≤ z
  pending : ∀ x z, s.pending x = some z → ∃ c, Pends s x z c
  fresh : ∀ st ∈ s.heap.stamps, ∀ c, s.heap.txn.clients.lookup st.owner = some c →
    s.job st.owner = .ready → st.command < c.handle.currentCommand
  tracked : ∀ st ∈ s.heap.stamps, ∀ c, s.heap.txn.clients.lookup st.owner = some c →
    (c.phase = .running ∨ ∃ todo, c.phase = .undoing todo) → Own c.handle st.xid →
      s.modified st.owner = true ∨ s.prepared st.owner = true ∨
        (s.job st.owner = .writing ∨ s.job st.owner = .failed) ∧ st.xid = c.handle.writeXid
  ending : ∀ x path i, s.job x = .ending path i → ∃ c, s.heap.txn.clients.lookup x = some c ∧
    Failed c ∧ (path ≠ .prepared → s.prepared x = false)
  writer : s.cache.lastWriterXid = 0 ∨
    ∃ y d, s.heap.txn.clients.lookup y = some d ∧ s.cache.lastWriterXid ∈ txnXids d.handle
  entry : ∀ e, s.cache.entry = some e → e.version = s.cache.version ∧
    ∃ b k w, Sound s b k w ∧ Valid s b k e.rows
  builds : ∀ j i, s.builds j = some i → ∃ c, Building s i c

theorem Inv.pending_eq_none (hi : Inv s)
    (hj : s.job y = .idle ∨ s.job y = .failed ∨ s.job y = .ready) : s.pending y = none := by
  by_contra hne
  obtain ⟨z, hz⟩ := Option.ne_none_iff_exists'.1 hne
  obtain ⟨c, hc⟩ := hi.pending y z hz
  rcases hc.job with h | h | ⟨path, i, h⟩ <;> rw [h] at hj <;> rcases hj with hj | hj | hj <;>
    cases hj

theorem Inv.client_of_abort (hi : Inv s) (hh : Heap.step s.heap (.txn (.abort y)) = some h')
    (hd : s.heap.txn.clients.lookup y = some d) (hd' : h'.txn.clients.lookup y = some d') :
    d'.phase = .aborted ∧ d'.handle = d.handle := by
  obtain ⟨t', ht, rfl⟩ := Option.map_eq_some_iff.1 hh
  obtain ⟨c, c', hc, ⟨hp, hp'⟩, hlook⟩ := hi.heap.inv.txn.step_session ht rfl
  have hc' := (hlook y).trans (if_pos rfl)
  obtain rfl := mem_unique hd hc
  obtain rfl := mem_unique hd' hc'
  obtain ⟨d'', hd'', hl⟩ := hi.heap.inv.txn.later rfl ht hd
  obtain rfl := mem_unique hd' hd''
  exact ⟨hp', handle_of_end hl.turn hp hp' nofun nofun⟩

/-- A builder that is open and has written is not beyond the last writer. -/
theorem Sound.le_lastWriter (hs : Sound s b k w) (hi : Inv s)
    (hc : s.heap.txn.clients.lookup b = some c) (hopen : c.phase.status = .inProgress)
    (h : Stamped s b k) : b ≤ s.cache.lastWriterXid := by
  obtain ⟨st, hst, ho, hcount⟩ := h
  obtain ⟨d, hd, hx, -⟩ := hi.heap.inv.held hst
  rw [counts_iff hd, if_pos ho] at hcount
  have hci := hi.heap.inv.txn.client b c hc
  cases hs.covered st hst with
  | past he =>
    rw [ho, hci.open_iff.1 hopen] at he
    cases he
  | own _ _ hle =>
    rw [ho, hc] at hd
    cases hd
    exact (hci.least _ hx).trans hle
  | pending _ hk => exact absurd hcount.2 (not_lt.2 (hk ho))

section HeapStep

variable (hi : Inv s) (ht : Heap.Timed s.heap act) (hen : s.Enabled a)
  (ha : a.heapAct = some act) (hh : Heap.step s.heap act = some h')

include hi ht hen ha hh

theorem Inv.move (hd : s.heap.txn.clients.lookup y = some d) :
    ∃ d', h'.txn.clients.lookup y = some d' ∧ Move s a (s.afterHeap h' a) y d d' :=
  exists_move hi.heap.inv ht (fun _ hj => hi.pending_eq_none (hj.imp_right .inl)) hen ha hh hd

omit ht in
/-- What is pending stays pending until the bump. -/
theorem Inv.pending_persists (hz : s.pending y = some z) :
    (s.afterHeap h' a).pending y = some z := by
  cases a with
  | txn b => cases b <;> exact hz
  | write b =>
    cases ha
    obtain ⟨x, hx, hj⟩ := hen
    simp only [State.afterHeap, Option.mem_def.1 hx]
    split_ifs
    · exact hz
    · by_cases hyx : y = x
      · -- another write of the same statement
        subst hyx
        obtain ⟨⟨c, hc⟩, -⟩ := Heap.running_of_writer hh hx
        obtain ⟨c', hc'⟩ := hi.pending y z hz
        obtain rfl := Option.some.inj (hc'.client.symm.trans (running_eq_some.1 hc).1)
        have hwr : s.job y = .writing := hj.resolve_left fun hj => by
          rw [hi.pending_eq_none (.inr (.inr hj))] at hz
          cases hz
        refine (update_self _ _ _).trans ?_
        rw [hc, hc'.write hwr]
        rfl
      · exact (update_of_ne hyx _ _).trans hz
  | visit x =>
    simp only [State.afterHeap]
    split_ifs
    · exact hz
    · refine (update_of_ne (fun hyx => ?_) _ _).trans hz
      rw [hyx, hen.1] at hz
      cases hz
  | rollback | abort | vacuum => exact hz
  | _ => cases ha

omit hi ht in
/-- A new stamp is that of a write whose bump is pending. -/
theorem stamps_afterHeap (hst : st ∈ h'.stamps) : st ∈ s.heap.stamps ∨
    ∃ c, s.heap.running st.owner = some c ∧ st = stampOf st.owner c ∧ h'.txn = s.heap.txn ∧
      (s.afterHeap h' a).pending st.owner = some c.handle.writeXid ∧
      (s.afterHeap h' a).job st.owner = .writing := by
  rcases Heap.stamps_step hh hst with hold | ⟨x, c, hx, hc, rfl⟩
  · exact .inl hold
  · cases a with cases ha
    | write b =>
      by_cases hsame : h'.slots = s.heap.slots
      · left
        rw [Heap.State.stamps, ← hsame]
        exact hst
      · refine .inr ⟨c, hc, rfl, (Heap.running_of_writer hh hx).2, ?_, ?_⟩
        · simp [State.afterHeap, hx, hsame, stampOf, hc]
        · simp [State.afterHeap, hx, hsame, stampOf]
    | vacuum b =>
      cases act with
      | enter | sample | trim | mark | markElsewhere => cases hx
      | _ => cases hen
    | txn | rollback | visit | abort => cases hx

theorem Inv.pends_afterHeap (hz : (s.afterHeap h' a).pending y = some z) :
    ∃ c, Pends (s.afterHeap h' a) y z c := by
  by_cases hold : s.pending y = some z
  · obtain ⟨c, hc⟩ := hi.pending y z hold
    obtain ⟨d', hd', hm⟩ := hi.move ht hen ha hh hc.client
    have hidle : ¬ (s.job y = .idle ∨ s.job y = .failed ∨ s.job y = .ready) := fun hj => by
      rw [hi.pending_eq_none hj] at hold
      cases hold
    have hlook : (s.afterHeap h' a).heap.txn.clients.lookup y = some d' := by
      rw [heap_afterHeap]
      exact hd'
    cases hm with
    | stay hd hj =>
      rw [hd] at hlook
      exact ⟨c, hlook, hc.xid, hc.opened, hj ▸ hc.job, hj ▸ hc.write⟩
    | write hd hj hj' =>
      rw [hd] at hlook
      refine ⟨c, hlook, hc.xid, hc.opened, .inl hj', fun _ => hc.write ?_⟩
      refine hj.resolve_left fun hj => ?_
      exact hidle (.inr (.inr hj))
    | statement hj | savepoint hj | commit hj => exact absurd (.inl hj) hidle
    | restore hj => exact absurd (hj.imp_right .inl) hidle
    | rollback _ _ _ hn | visit _ _ hn | abort _ hn =>
      rw [hn] at hold
      cases hold
  · cases a with
    | txn b => cases b <;> exact absurd hz hold
    | write b =>
      cases ha
      obtain ⟨x, hx, -⟩ := hen
      obtain ⟨⟨c, hc⟩, htxn⟩ := running_of_writer hh hx
      obtain ⟨hlook, hp⟩ := running_eq_some.1 hc
      simp only [State.afterHeap, Option.mem_def.1 hx] at hz ⊢
      split_ifs at hz ⊢
      · exact absurd hz hold
      · by_cases hyx : y = x
        · subst hyx
          change update _ _ _ _ = _ at hz
          rw [update_self, hc] at hz
          cases hz
          refine ⟨c, htxn ▸ hlook, ?_, by rw [hp]; rfl, .inl (update_self _ _ _),
            fun _ => rfl⟩
          exact Savepoints.own_writeXid.mem
        · exact absurd ((update_of_ne hyx _ _).symm.trans hz) hold
    | visit x =>
      cases ha
      simp only [State.afterHeap] at hz ⊢
      split_ifs at hz ⊢
      · exact absurd hz hold
      · by_cases hyx : y = x
        · subst hyx
          change update _ _ _ _ = _ at hz
          rw [update_self] at hz
          obtain ⟨⟨⟨_, v⟩, t⟩, hv, rfl⟩ := Option.map_eq_some_iff.1 hz
          obtain ⟨c, p, todo, hc, rfl, hp⟩ := Timeline.nextVisit_eq_some hv
          simp only [Heap.step, hv] at hh
          cases hh
          have hjob := job_of_visit hen
          refine ⟨{ c with phase := p },
            (Timeline.lookup_setClient s.heap.txn y y _).trans (if_pos rfl), ?_,
            hp.status.trans hp.isOpen, .inr hjob, fun hw => ?_⟩
          · refine (hi.heap.inv.condemned y c _ v hc ?_).1
            rw [(todo_of_visit hp).2]
            exact List.mem_cons_self
          · rcases hjob with hj | ⟨_, _, hj⟩ <;> cases hj.symm.trans hw
        · exact absurd ((update_of_ne hyx _ _).symm.trans hz) hold
    | rollback | abort | vacuum => exact absurd hz hold
    | _ => cases ha

variable (hi' : Timeline.Inv h'.txn)

include hi'

omit hen ha in
theorem Inv.own_of_afterHeap (hd : s.heap.txn.clients.lookup y = some d)
    (hd' : h'.txn.clients.lookup y = some d') (hz : z ∈ txnXids d.handle)
    (hown : Own d'.handle z) : Own d.handle z := by
  obtain ⟨d'', hd'', hm⟩ := (hi.heap.inv.evolves ht hh).moves y d hd
  obtain rfl := mem_unique hd' hd''
  exact (mem_txnXids.1 hz).resolve_right fun hr =>
    (hi'.client y d' hd').disjoint z (hm.rolled z hr) hown

/-- No new writes of the builder come into a projection. -/
theorem Inv.counts_of_afterHeap (hst : st ∈ s.heap.stamps) (ho : st.owner = b)
    (h : counts h'.txn b k st = true) : counts s.heap.txn b k st = true := by
  obtain ⟨d, hd, hx, -⟩ := hi.heap.inv.held hst
  obtain ⟨d', hd', -⟩ := hi.move ht hen ha hh hd
  rw [counts_iff hd', if_pos ho] at h
  rw [counts_iff hd, if_pos ho]
  exact ⟨hi.own_of_afterHeap ht hh hi' hd hd' hx h.1, h.2⟩

/-- **What a projection has stays the same**, unless the builder rolls back to a savepoint. -/
theorem Inv.counts_afterHeap (hst : st ∈ s.heap.stamps) (hcov : Covered s b k w st)
    (hback : Stamped s b k → (s.afterHeap h' a).job b = .restoring → s.job b = .restoring) :
    counts h'.txn b k st = counts s.heap.txn b k st := by
  by_cases hno : st.owner = b ∧ ¬ Stamped s b k
  · have hbefore : ¬ counts s.heap.txn b k st = true := fun h => hno.2 ⟨st, hst, hno.1, h⟩
    have hafter : ¬ counts h'.txn b k st = true := fun h =>
      hbefore (hi.counts_of_afterHeap ht hen ha hh hi' hst hno.1 h)
    rw [Bool.not_eq_true _ |>.mp hbefore, Bool.not_eq_true _ |>.mp hafter]
  obtain ⟨d, hd, hx, -⟩ := hi.heap.inv.held hst
  obtain ⟨d', hd', hm⟩ := hi.move ht hen ha hh hd
  have hown : (Own d.handle st.xid → Own d'.handle st.xid) →
      (Own d'.handle st.xid ↔ Own d.handle st.xid) := fun h =>
    ⟨hi.own_of_afterHeap ht hh hi' hd hd' hx, h⟩
  rw [Bool.eq_iff_iff, counts_iff hd', counts_iff hd]
  -- of the other transactions, none commits
  have hopen : ∀ {p p'}, d.phase = p → d'.phase = p' → p ≠ .committed → p' ≠ .committed →
      (st.owner = b → (Own d'.handle st.xid ↔ Own d.handle st.xid)) →
      ((Own d'.handle st.xid ∧ if st.owner = b then st.command < k else d'.phase = .committed) ↔
        Own d.handle st.xid ∧ if st.owner = b then st.command < k else d.phase = .committed) := by
    intro p p' hp hp' h₁ h₂ hb
    split_ifs with ho
    · rw [hb ho]
    · simp [hp, hp', h₁, h₂]
  cases hm with
  | stay h | write h => rw [h]
  | statement hj hj' hp hp' hk h | savepoint hj hj' hp hp' h =>
    exact hopen hp hp' nofun nofun fun _ => hown (h _)
  | commit hj hj' hp hp' h =>
    split_ifs with ho
    · rw [h]
    · cases hcov with
      | past he =>
        rw [hi.heap.inv.txn.ended_eq_none hd hp] at he
        cases he
      | own h => exact absurd h ho
      | pending hz =>
        rw [hi.pending_eq_none (.inl hj)] at hz
        cases hz
  | restore hj hj' hn hp hp' hw =>
    obtain ⟨todo, hp'⟩ := hp'
    refine hopen hp hp' nofun nofun fun ho => ?_
    subst ho
    have hj'' := hback (by_contra fun h => hno ⟨rfl, h⟩) hj'
    rcases hj with hj | hj <;> rw [hj''] at hj <;> cases hj
  | rollback _ _ _ _ _ hp hp' h =>
    obtain ⟨todo, hp'⟩ := hp'
    exact hopen hp hp' nofun nofun fun _ => by rw [h]
  | visit _ _ _ hp h =>
    rcases hp with ⟨⟨_, hp⟩, hp' | ⟨_, hp'⟩⟩ | ⟨⟨_, hp⟩, _, hp'⟩ <;>
      exact hopen hp hp' nofun nofun fun _ => by rw [h]
  | abort _ _ _ hp hp' h => exact hopen hp hp' nofun nofun fun _ => by rw [h]

section

variable (hs : Sound s b k w)

include hs

theorem Inv.image_afterHeap
    (hback : Stamped s b k → (s.afterHeap h' a).job b = .restoring → s.job b = .restoring) :
    (s.afterHeap h' a).image b k = s.image b k := by
  obtain ⟨cb, hcb, hk, -⟩ := hs.client
  unfold State.image
  rw [heap_afterHeap, Heap.filterMap_expected_step hh]
  · refine List.filterMap_congr fun sl hsl => Heap.Slot.expected_congr fun st hst => ?_
    have hmem := mem_stamps.2 ⟨sl, hsl, hst⟩
    exact hi.counts_afterHeap ht hen ha hh hi' hmem (hs.covered st hmem) hback
  · -- the new write is not in it
    intro x c hx hc
    obtain ⟨hlook, hp⟩ := running_eq_some.1 hc
    rw [(running_of_writer hh hx).2, ← Bool.not_eq_true]
    intro hcount
    obtain ⟨-, h⟩ := (counts_iff (show _ = some c from hlook)).1 hcount
    split_ifs at h with hxb
    · have hxb' : x = b := hxb
      subst hxb'
      obtain rfl := mem_unique hlook hcb
      exact absurd h (not_lt.2 hk)
    · rw [hp] at h
      cases h

theorem Inv.stamped_of_afterHeap (h : Stamped (s.afterHeap h' a) b k) : Stamped s b k := by
  obtain ⟨st, hst, ho, hcount⟩ := h
  obtain ⟨cb, hcb, hk, -⟩ := hs.client
  rw [heap_afterHeap] at hst hcount
  rcases stamps_afterHeap hen ha hh hst with hold | ⟨c, hc, hst', htxn, -⟩
  · exact ⟨st, hold, ho, hi.counts_of_afterHeap ht hen ha hh hi' hold ho hcount⟩
  · obtain ⟨hlook, hp⟩ := Heap.running_eq_some.1 hc
    rw [htxn, counts_iff hlook, if_pos ho] at hcount
    rw [ho, hcb] at hlook
    cases hlook
    rw [hst'] at hcount
    exact absurd hcount.2 (not_lt.2 hk)

/-- **What the gate has found out stays so** until the next bump. -/
theorem Inv.sound_afterHeap : Sound (s.afterHeap h' a) b k w := by
  have hev := hi.heap.inv.evolves ht hh
  obtain ⟨cb, hcb, hk, hw⟩ := hs.client
  obtain ⟨cb', hcb', hm⟩ := hev.moves b cb hcb
  refine ⟨⟨cb', ?_, hk.trans hm.command, hw.trans hm.view⟩, fun st hst => ?_, ?_⟩
  · rw [heap_afterHeap]
    exact hcb'
  · rw [heap_afterHeap] at hst
    rcases stamps_afterHeap hen ha hh hst with hold | ⟨c, hc, hst', -, hpend, -⟩
    · cases hs.covered st hold with
      | past he hlt =>
        refine .past ?_ hlt
        rw [heap_afterHeap]
        exact hev.ended _ _ he
      | own ho hk hx => exact .own ho hk (by rw [cache_afterHeap]; exact hx)
      | pending hz hk => exact .pending (hi.pending_persists hen ha hh hz) hk
    · refine .pending hpend fun ho => ?_
      obtain ⟨hlook, -⟩ := running_eq_some.1 hc
      rw [ho, hcb] at hlook
      cases hlook
      rw [hst']
      exact hk
  · rw [cache_afterHeap, heap_afterHeap]
    rcases hs.writer with h | ⟨e, he⟩ | ⟨c, hc, hown⟩
    · exact .inl h
    · exact .inr (.inl ⟨e, hev.ended _ e he⟩)
    · obtain rfl := mem_unique hcb hc
      refine .inr ?_
      rcases mem_txnXids.1 (hm.xids _ hown.mem) with h | h
      · exact .inr ⟨cb', hcb', h⟩
      · exact .inl (Option.ne_none_iff_exists'.1 ((hi'.client b cb' hcb').rolled _ h).2)

theorem Inv.kept_afterHeap (hkept : Kept s b k) (hend : a = .abort b →
      s.EndsFirst b →
      ¬ Stamped s b k) : Kept (s.afterHeap h' a) b k := by
  obtain ⟨c, hc, -⟩ := hs.client
  obtain ⟨c', hc', hm⟩ := hi.move ht hen ha hh hc
  have hlook : ∀ {c''}, (s.afterHeap h' a).heap.txn.clients.lookup b = some c'' → c'' = c' := by
    intro c'' h
    rw [heap_afterHeap] at h
    exact mem_unique h hc'
  have hst := hi.stamped_of_afterHeap ht hen ha hh hi' hs
  refine ⟨fun c'' h hopen hprep hstamped => ?_, fun path hj hstamped => ?_,
    fun c'' h hp hstamped => ?_⟩
  · cases hlook h
    rw [prepared_afterHeap] at hprep
    rw [modified_afterHeap]
    refine hkept.modified c hc ?_ hprep (hst hstamped)
    cases hm with
    | stay h | write h => exact h ▸ hopen
    | statement _ _ hp | savepoint _ _ hp | commit _ _ hp | restore _ _ _ hp
    | rollback _ _ _ _ _ hp | abort _ _ _ hp =>
      rw [hp]
      rfl
    | visit _ _ _ hp =>
      rcases hp with ⟨⟨todo, hp⟩, -⟩ | ⟨⟨todo, hp⟩, -⟩ <;> rw [hp] <;> rfl
  · cases hm with
    | stay _ h | visit _ h | abort h => exact hkept.invalidated path (h ▸ hj) (hst hstamped)
    | write _ _ h | statement _ h | savepoint _ h | commit _ h | restore _ h | rollback _ _ h =>
      rw [hj] at h
      cases h
  · cases hlook h
    cases hm with
    | stay h | write h => exact hkept.aborted c hc (h ▸ hp) (hst hstamped)
    | statement _ _ _ h | savepoint _ _ _ h | commit _ _ _ h =>
      rw [hp] at h
      cases h
    | restore _ _ _ _ h | rollback _ _ _ _ _ _ h =>
      obtain ⟨todo, h⟩ := h
      rw [hp] at h
      cases h
    | visit _ _ _ h =>
      rcases h with ⟨-, h | ⟨todo, h⟩⟩ | ⟨-, todo, h⟩ <;> rw [hp] at h <;> cases h
    | abort _ _ hpath _ _ _ hact =>
      rcases hpath with ⟨path, hj⟩ | hj
      · exact hkept.invalidated path hj (hst hstamped)
      · exact hend hact hj (hst hstamped)

/-- **A published projection stays right**, or nobody can read it. -/
theorem Inv.valid_afterHeap (hv : Valid s b k rows) (hend : a = .abort b →
      s.EndsFirst b →
      ¬ Stamped s b k ∨ ∀ c, s.heap.txn.clients.lookup b = some c →
        Own c.handle s.cache.lastWriterXid) : Valid (s.afterHeap h' a) b k rows := by
  obtain ⟨c, hc, -⟩ := hs.client
  obtain ⟨c', hc', hm⟩ := hi.move ht hen ha hh hc
  have hlook : (s.afterHeap h' a).heap.txn.clients.lookup b = some c' := by
    rw [heap_afterHeap]
    exact hc'
  cases hv with
  | image himage hkept =>
    -- the projection is spoiled by the step, or is what it was
    by_cases hback : Stamped s b k → (s.afterHeap h' a).job b = .restoring → s.job b = .restoring
    · by_cases hkeep : a = .abort b →
          s.EndsFirst b →
          ¬ Stamped s b k
      · refine .image ?_ (hi.kept_afterHeap ht hen ha hh hi' hs hkept hkeep)
        rw [hi.image_afterHeap ht hen ha hh hi' hs hback]
        exact himage
      · push Not at hkeep
        obtain ⟨rfl, hj, hstamped⟩ := hkeep
        have hown := ((hend rfl hj).resolve_left fun h => h hstamped) c hc
        cases ha
        obtain ⟨hp, hhandle⟩ := hi.client_of_abort hh hc hc'
        exact .blocked b c' hlook hp (by rw [hhandle, cache_afterHeap]; exact hown)
    · push Not at hback
      obtain ⟨hstamped, hj', hne⟩ := hback
      cases hm with
      | restore _ _ hn hp hp' =>
        obtain ⟨todo, hp'⟩ := hp'
        have hopen : c.phase.status = .inProgress := by
          rw [hp]
          rfl
        refine .restoring c' hlook (by rw [hp']; rfl) hj' ?_ ?_
        · rw [modified_afterHeap]
          exact hkept.modified c hc hopen hn hstamped
        · rw [cache_afterHeap]
          exact hs.le_lastWriter hi hc hopen hstamped
      | stay _ h | visit _ h | abort h => exact absurd (h.symm.trans hj') hne
      | write _ _ h | statement _ h | savepoint _ h | commit _ h | rollback _ _ h =>
        rw [hj'] at h
        cases h
  | restoring c₀ hc₀ hopen hj hmod hle =>
    obtain rfl := mem_unique hc hc₀
    have hres : ∀ {j : Job}, s.job b = j → j ≠ .restoring → False := fun h hne =>
      hne (h.symm.trans hj)
    have hstay : c'.phase.status = .inProgress → (s.afterHeap h' a).job b = s.job b →
        Valid (s.afterHeap h' a) b k rows := fun hopen hj' =>
      .restoring c' hlook hopen (hj'.trans hj) (by rwa [modified_afterHeap])
        (by rwa [cache_afterHeap])
    cases hm with
    | stay h hj' => exact hstay (h ▸ hopen) hj'
    | visit _ hj' _ hp =>
      refine hstay ?_ hj'
      rcases hp with ⟨-, hp | ⟨todo, hp⟩⟩ | ⟨-, todo, hp⟩ <;> rw [hp] <;> rfl
    | write _ h | restore h =>
      rcases h with h | h <;> exact (hres h nofun).elim
    | statement h | savepoint h | commit h => exact (hres h nofun).elim
    | rollback _ h => exact absurd hj h
    | abort _ _ h =>
      rcases h with ⟨path, h⟩ | ⟨path, -, h⟩ <;> exact (hres h nofun).elim
  | blocked y d hd hp hown =>
    obtain ⟨d', hd', hmd⟩ := hi.move ht hen ha hh hd
    have hdead : ∀ {p : Timeline.Phase}, d.phase = p → p ≠ .aborted → False := fun h hne =>
      hne (h.symm.trans hp)
    cases hmd with
    | stay h | write h =>
      refine .blocked y d ?_ hp (by rw [cache_afterHeap]; exact hown)
      rw [heap_afterHeap, hd', h]
    | statement _ _ h | savepoint _ _ h | commit _ _ h | restore _ _ _ h | rollback _ _ _ _ _ h
    | abort _ _ _ h => exact (hdead h nofun).elim
    | visit _ _ _ h =>
      rcases h with ⟨⟨todo, h⟩, -⟩ | ⟨⟨todo, h⟩, -⟩ <;> exact (hdead h nofun).elim

end

theorem Inv.building_afterHeap {i : Build} (hb : Building s i c) :
    ∃ c', Building (s.afterHeap h' a) i c' := by
  obtain ⟨c', hc', hm⟩ := hi.move ht hen ha hh hb.client
  obtain ⟨c'', hc'', hmoves⟩ := (hi.heap.inv.evolves ht hh).moves _ c hb.client
  obtain rfl := mem_unique hc' hc''
  refine ⟨c', ?_, hb.command.trans hmoves.command, ?_, fun hv hst hj hp hk => ?_⟩
  · rw [heap_afterHeap]
    exact hc'
  · rw [cache_afterHeap]
    exact hb.version
  · rw [cache_afterHeap] at hv
    rcases hm.of_ready hj with ⟨rfl, hj'⟩ | hnext
    · obtain ⟨⟨w, hs⟩, himage⟩ := hb.gated hv hst hj' hp hk
      refine ⟨⟨w, hi.sound_afterHeap ht hen ha hh hi' hs⟩, fun rows hrows => ?_⟩
      rw [hi.image_afterHeap ht hen ha hh hi' hs fun _ h => by rw [hj] at h; cases h]
      exact himage rows hrows
    · have := hb.command
      omega

section

variable (hst : st ∈ h'.stamps) (hd' : h'.txn.clients.lookup st.owner = some d')
include hst hd'

omit hi' in
theorem Inv.fresh_afterHeap (hj : (s.afterHeap h' a).job st.owner = .ready) :
    st.command < d'.handle.currentCommand := by
  rcases stamps_afterHeap hen ha hh hst with hold | ⟨-, -, -, -, -, hj'⟩
  · obtain ⟨d, hd, -, hk⟩ := hi.heap.inv.held hold
    obtain ⟨d'', hd'', hm⟩ := hi.move ht hen ha hh hd
    obtain rfl := mem_unique hd' hd''
    rcases hm.of_ready hj with ⟨rfl, hj'⟩ | hnext
    · exact hi.fresh st hold d' hd hj'
    · omega
  · rw [hj] at hj'
    cases hj'

theorem Inv.tracked_afterHeap (hopen : d'.phase = .running ∨ ∃ todo, d'.phase = .undoing todo)
    (hown : Own d'.handle st.xid) :
    s.modified st.owner = true ∨ s.prepared st.owner = true ∨
      ((s.afterHeap h' a).job st.owner = .writing ∨ (s.afterHeap h' a).job st.owner = .failed) ∧
        st.xid = d'.handle.writeXid := by
  rcases stamps_afterHeap hen ha hh hst with hold | ⟨c, hc, hst', htxn, -, hj'⟩
  · obtain ⟨d, hd, hx, -⟩ := hi.heap.inv.held hold
    obtain ⟨d'', hd'', hm⟩ := hi.move ht hen ha hh hd
    obtain rfl := mem_unique hd' hd''
    have hown' := hi.own_of_afterHeap ht hh hi' hd hd' hx hown
    have hidle : ∀ {j : Job} {P : Prop}, s.job st.owner = j → j ≠ .writing → j ≠ .failed →
        d.phase = .running ∨ (∃ todo, d.phase = .undoing todo) →
        s.modified st.owner = true ∨ s.prepared st.owner = true ∨ P := by
      intro j P hj hw hf hp
      refine (hi.tracked st hold d hd hp hown').imp_right (Or.imp_right fun ⟨h, _⟩ => ?_)
      rcases h with h | h
      · exact absurd (hj.symm.trans h) hw
      · exact absurd (hj.symm.trans h) hf
    cases hm with
    | stay h hj =>
      rw [hj, h]
      exact hi.tracked st hold d hd (h ▸ hopen) hown'
    | write h hj hj' =>
      exact (hi.tracked st hold d hd (h ▸ hopen) hown').imp_right
        (Or.imp_right fun h₁ => ⟨.inl hj', h ▸ h₁.2⟩)
    | statement hj _ hp | savepoint hj _ hp => exact hidle hj nofun nofun (.inl hp)
    | restore hj _ _ hp _ hw =>
      refine (hi.tracked st hold d hd (.inl hp) hown').imp_right (Or.imp_right fun ⟨_, h⟩ => ?_)
      exact absurd hown ((hi'.client _ d' hd').disjoint _ (h ▸ hw))
    | visit hj _ _ hp =>
      rcases hp with ⟨hp, -⟩ | ⟨-, todo, hp⟩
      · rcases hj with hj | ⟨path, i, hj⟩ <;> exact hidle hj nofun nofun (.inr hp)
      · rcases hopen with h | ⟨_, h⟩ <;> rw [hp] at h <;> cases h
    | commit _ _ _ hp | abort _ _ _ _ hp =>
      rcases hopen with h | ⟨_, h⟩ <;> rw [hp] at h <;> cases h
    | rollback _ _ _ _ _ _ hp =>
      obtain ⟨todo, hp⟩ := hp
      rcases hopen with h | ⟨_, h⟩ <;> rw [hp] at h <;> cases h
  · refine .inr (.inr ⟨.inl hj', ?_⟩)
    rw [htxn, (Heap.running_eq_some.1 hc).1] at hd'
    cases hd'
    rw [hst']
    rfl

end

theorem Inv.ending_afterHeap {path : AbortPath} {i : Bool}
    (hj : (s.afterHeap h' a).job x = .ending path i) : ∃ c, h'.txn.clients.lookup x = some c ∧
      Failed c ∧ (path ≠ .prepared → s.prepared x = false) := by
  by_cases hold : s.job x = .ending path i
  · obtain ⟨c, hc, hf, hprep⟩ := hi.ending x path i hold
    obtain ⟨c', hc', hm⟩ := (hi.heap.inv.evolves ht hh).moves x c hc
    exact ⟨c', hc', hm.failed hf, hprep⟩
  · -- the session starts to roll back
    have hother : ∀ {z : ℕ} {j : Job}, update s.job z j x = .ending path i →
        (∀ p i, j ≠ .ending p i) → False := fun h hne =>
      hold (of_update s.job (P := (· = .ending path i)) h fun hj => absurd hj (hne _ _))
    cases a with
    | txn b =>
      cases b with
      | refresh | rollbackTo => exact (hother hj (by simp)).elim
      | _ => exact absurd hj hold
    | write b =>
      simp only [State.afterHeap] at hj
      split at hj
      · split_ifs at hj
        · exact absurd hj hold
        · exact (hother hj (by simp)).elim
      · exact absurd hj hold
    | rollback z path' =>
      by_cases hxz : x = z
      · subst hxz
        cases ha
        obtain ⟨t', hb, rfl⟩ := Option.map_eq_some_iff.1 hh
        obtain ⟨c, -, hc, -⟩ := hi.heap.inv.txn.step_session hb rfl
        obtain ⟨c', hc', hm⟩ := hi.move ht hen rfl hh hc
        refine ⟨c', hc', ?_⟩
        cases hm with
        | rollback path'' _ hj' _ hpath _ hp =>
          rw [hj] at hj'
          cases hj'
          exact ⟨.inr hp, hpath⟩
        | stay _ h | visit _ h | abort h => exact absurd (h.symm.trans hj) hold
        | write _ _ h | statement _ h | savepoint _ h | commit _ h | restore _ h =>
          rw [hj] at h
          cases h
      · exact absurd ((update_of_ne hxz _ _).symm.trans hj) hold
    | visit z =>
      simp only [State.afterHeap] at hj
      split_ifs at hj <;> exact absurd hj hold
    | abort | vacuum => exact absurd hj hold
    | _ => cases ha

/-- **Every step of the heap keeps the invariant.** -/
theorem Inv.afterHeap (hord : Heap.Orderly h')
    (hend : ∀ b k, s.cache.get ≠ none → a = .abort b →
      s.EndsFirst b →
      ¬ Stamped s b k ∨ ∀ c, s.heap.txn.clients.lookup b = some c →
        Own c.handle s.cache.lastWriterXid) : Inv (s.afterHeap h' a) := by
  have hev := hi.heap.inv.evolves ht hh
  refine ⟨?_, fun st hst => ?_, fun x z hz => hi.pends_afterHeap ht hen ha hh hz,
    fun st hst c hc hj => ?_, fun st hst c hc hopen hown => ?_, fun x path i hj => ?_, ?_,
    fun e he => ?_, fun j i hj => ?_⟩
  · rw [heap_afterHeap]
    exact hord
  · rw [heap_afterHeap] at hst
    rw [cache_afterHeap]
    rcases stamps_afterHeap hen ha hh hst with hold | ⟨c, -, hst', -, hpend, -⟩
    · refine (hi.written st hold).imp_right ?_
      rintro ⟨z, hz, hle⟩
      exact ⟨z, hi.pending_persists hen ha hh hz, hle⟩
    · exact .inr ⟨_, hpend, by rw [hst']; exact le_rfl⟩
  · rw [heap_afterHeap] at hst hc
    exact hi.fresh_afterHeap ht hen ha hh hst hc hj
  · rw [heap_afterHeap] at hst hc
    rw [modified_afterHeap, prepared_afterHeap]
    exact hi.tracked_afterHeap ht hen ha hh hi' hst hc hopen hown
  · rw [heap_afterHeap, prepared_afterHeap]
    exact hi.ending_afterHeap ht hen ha hh hi' hj
  · rw [cache_afterHeap, heap_afterHeap]
    refine hi.writer.imp_right ?_
    rintro ⟨y, d, hd, hx⟩
    obtain ⟨d', hd', hm⟩ := hev.moves y d hd
    exact ⟨y, d', hd', hm.xids _ hx⟩
  · rw [cache_afterHeap] at he ⊢
    obtain ⟨hv, b, k, w, hs, hvalid⟩ := hi.entry e he
    refine ⟨hv, b, k, w, hi.sound_afterHeap ht hen ha hh hi' hs,
      hi.valid_afterHeap ht hen ha hh hi' hs hvalid (hend b k ?_)⟩
    rw [ColumnCache.get, he, Option.filter_some, hv]
    simp
  · rw [builds_afterHeap] at hj
    obtain ⟨c, hc⟩ := hi.builds j i hj
    exact hi.building_afterHeap ht hen ha hh hi' hc

end HeapStep

end UltraSql.CachedHeap
