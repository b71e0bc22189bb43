import UltraSql.Index.Scan

/-!
# A probe finds what a scan finds

A snapshot sees at most one version of a chain: who sees a version sees that the one before it is
superseded. So a probe that follows the chain of an entry ends at the version that the snapshot
sees, if there is one. The invariant of the index does the rest. Each version that counts has an
entry with its key that leads to it, and only one.

**Theorem (`probeIndex_perm_seqScan`).** The rows of a probe are those of a sequential scan filtered
by the range, up to the order.
-/

namespace UltraSql.Index.Scan

open List
open Timeline (Client)
open Heap

variable {ρ : Type} {key : ρ → Option I64} {s : State ρ}

/-! ## The version at the end of a probe -/

/-- The version that the snapshot sees in the chain from `n`. -/
def resolve (ts : List (Tuple ρ)) (snapshot : Snapshot) (oracle : Oracle) : ℕ → ℕ → Option ℕ
  | 0, _ => none
  | fuel + 1, n =>
    match ts[n]? with
    | none => none
    | some v =>
      if isVisible v.header snapshot oracle = .visible then some n
      else (v.next n).bind (resolve ts snapshot oracle fuel)

/-- The row of the version `n`, if it has the key. -/
def rowIf (key : ρ → Option I64) (ts : List (Tuple ρ)) (k : I64) (n : ℕ) : Option ρ :=
  (ts[n]?.map (·.row)).filter fun row => key row = some k

variable {ts : List (Tuple ρ)} {snapshot : Snapshot} {oracle : Oracle} {n m fuel j : ℕ}
  {v w : Tuple ρ} {e : I64}

/-- The table has been updated by new versions only. -/
def Classical (ts : List (Tuple ρ)) (snapshot : Snapshot) (oracle : Oracle) : Prop :=
  ∀ (n : ℕ) v, ts[n]? = some v → isVisible v.header snapshot oracle = .visible ∨
    isVisible v.header snapshot oracle = .invisible ∨
    isVisible v.header snapshot oracle = .deletedByOwn

/-- **A probe of a chain that ends** gives the version that the snapshot sees. -/
theorem fetchVisible_eq {t : Timeline.State} (hi : TableInv t ts)
    (hcl : Classical ts snapshot oracle) (hv : ts[n]? = some v)
    (hend : hops (nextOf ts) fuel n = none) :
    fetchVisible key ts snapshot oracle e fuel n =
      .ok ((resolve ts snapshot oracle fuel n).bind (rowIf key ts e)) := by
  induction fuel generalizing n v with
  | zero => cases hend
  | succ fuel ih =>
    have hnext : nextOf ts n = v.next n := by rw [nextOf, hv, Option.bind_some]
    rw [fetchVisible, resolve, hv]
    dsimp only
    rcases hcl n v hv with hvis | hvis
    · simp only [hvis, if_true, Option.bind_some, rowIf, hv, Option.map_some, Option.filter_some]
      congr 1
      split_ifs with h <;> simp_all
    · have hfetch : ∀ m, v.next n = some m → fetchVisible key ts snapshot oracle e fuel m =
          .ok ((resolve ts snapshot oracle fuel m).bind (rowIf key ts e)) := by
        intro m hm
        rw [hm] at hnext
        obtain ⟨-, -, u, -, hu, -⟩ := hi.link n m (nextOf_eq_some.1 hnext)
        rw [hops_succ hnext] at hend
        exact ih hu hend
      have hno : isVisible v.header snapshot oracle ≠ .visible := by
        rcases hvis with hvis | hvis <;> simp [hvis]
      rw [if_neg hno]
      cases hm : v.next n with
      | none => rcases hvis with hvis | hvis <;> simp only [hvis] <;> rfl
      | some m =>
        rw [Option.bind_some, ← hfetch m hm]
        rcases hvis with hvis | hvis <;> simp only [hvis]

theorem resolve_sound (h : resolve ts snapshot oracle fuel n = some m) :
    ∃ j w, hops (nextOf ts) j n = some m ∧ ts[m]? = some w ∧
      isVisible w.header snapshot oracle = .visible := by
  induction fuel generalizing n with
  | zero => cases h
  | succ fuel ih =>
    rw [resolve] at h
    split at h
    · cases h
    · rename_i v hv
      split_ifs at h with hvis
      · cases h
        exact ⟨0, v, rfl, hv, hvis⟩
      · obtain ⟨i, hi, him⟩ := Option.bind_eq_some_iff.1 h
        obtain ⟨j, w, hj, hw, hvis⟩ := ih him
        have hnext : nextOf ts n = some i := by rw [nextOf, hv, Option.bind_some, hi]
        exact ⟨j + 1, w, (hops_succ hnext).trans hj, hw, hvis⟩

/-- The version that the snapshot sees is found, if it sees none before it. -/
theorem resolve_complete (hj : hops (nextOf ts) j n = some m) (hlt : j < fuel)
    (hw : ts[m]? = some w) (hvis : isVisible w.header snapshot oracle = .visible)
    (hfirst : ∀ i < j, ∀ (m' : ℕ) w', hops (nextOf ts) i n = some m' → ts[m']? = some w' →
      isVisible w'.header snapshot oracle ≠ .visible) :
    resolve ts snapshot oracle fuel n = some m := by
  induction j generalizing n fuel with
    obtain ⟨fuel, rfl⟩ := Nat.exists_eq_succ_of_ne_zero (Nat.ne_zero_of_lt hlt)
  | zero =>
    cases hj
    rw [Nat.succ_eq_add_one, resolve, hw]
    exact if_pos hvis
  | succ j ih =>
    obtain ⟨i, hni, him⟩ := hops_succ_eq_some.1 hj
    obtain ⟨v, hv, hnext⟩ := nextOf_eq_some.1 hni
    rw [Nat.succ_eq_add_one, resolve, hv]
    dsimp only
    rw [if_neg (hfirst 0 (by omega) n v rfl hv), hnext, Option.bind_some]
    refine ih him (by omega) fun i' hi' m' w' hm' => hfirst (i' + 1) (by omega) m' w' ?_
    rw [hops_succ hni]
    exact hm'

/-! ## The entries of a range -/

theorem KeyRange.contains_iff {r : KeyRange} {k : I64} :
    r.contains k = true ↔ (∀ low, r.low = some low → low ≤ k) ∧
      ∀ high, r.high = some high → k ≤ high := by
  unfold KeyRange.contains
  rw [Bool.and_eq_true]
  cases r.low <;> cases r.high <;> simp

/-- **The entries that a probe reads** are those of the range. -/
theorem probeIndexEntries_perm (entries : List (I64 × ℕ)) (range : KeyRange) :
    (probeIndexEntries entries range).Perm (entries.filter fun e => range.contains e.1) := by
  obtain ⟨low, high⟩ := range
  have hscan : ∀ start : I64, (∀ k, start ≤ k ↔ ∀ l, low = some l → l ≤ k) →
      probeIndexEntries.rangeScan entries start (high.bind (·.checkedSucc)) =
        entries.filter fun e => (KeyRange.mk low high).contains e.1 := by
    intro start hstart
    refine filter_congr fun e _ => ?_
    rw [Bool.eq_iff_iff, KeyRange.contains_iff, Bool.and_eq_true, decide_eq_true_eq, hstart]
    refine and_congr_right fun _ => ?_
    cases high with
    | none => simp
    | some h =>
      rw [Option.bind_some, Option.all_eq_true]
      simp only [Option.some.injEq, forall_eq', decide_eq_true_eq]
      exact I64.lt_checkedSucc_iff
  refine (perm_insertionSort _ _).trans (List.Perm.of_eq ?_)
  cases low with
  | none => exact hscan .minValue fun k => by simpa using I64.minValue_le k
  | some low =>
    have hlow : ∀ k, low ≤ k ↔ ∀ l, some low = some l → l ≤ k := fun k => by simp
    cases high with
    | none => exact hscan low hlow
    | some high =>
      dsimp only
      split_ifs with heq
      · refine filter_congr fun e _ => ?_
        rw [Bool.eq_iff_iff, KeyRange.contains_iff, decide_eq_true_eq, heq]
        simp only [Option.some.injEq, forall_eq']
        exact ⟨fun h => ⟨h.ge, h.le⟩, fun h => le_antisymm h.2 h.1⟩
      · exact hscan low hlow

/-! ## Rows and positions -/

/-- The elements with a property, by their positions. -/
theorem map_filter_eq_filterMap {α β : Type} (l : List α) (p : α → Bool) (f : α → β) :
    (l.filter p).map f =
      (((List.finRange l.length).filter fun i => p (l.get i)).map Fin.val).filterMap
        fun n => l[n]?.map f := by
  have hget : ∀ i : Fin l.length, (l[i.val]?.map f) = some (f (l.get i)) := fun i => by
    rw [getElem?_eq_getElem i.2]
    rfl
  calc (l.filter p).map f
      = (((finRange l.length).map l.get).filter p).map f := by rw [map_get_finRange]
    _ = ((finRange l.length).filter fun i => p (l.get i)).map fun i => f (l.get i) := by
      rw [filter_map, map_map]
      rfl
    _ = _ := by
      rw [filterMap_map, ← filterMap_eq_map]
      exact filterMap_congr fun i _ => (hget i).symm

/-- The versions to which the entries lead and that have their keys. -/
def hit (key : ρ → Option I64) (ts : List (Tuple ρ)) (snapshot : Snapshot) (oracle : Oracle)
    (e : I64 × ℕ) : Option ℕ :=
  (resolve ts snapshot oracle hopLimit e.2).filter fun n => (rowIf key ts e.1 n).isSome

theorem fetchAll_eq {t : Timeline.State} (hi : TableInv t ts)
    (hcl : Classical ts snapshot oracle) {es : List (I64 × ℕ)}
    (hes : ∀ e ∈ es, (∃ v, ts[e.2]? = some v) ∧ hops (nextOf ts) hopLimit e.2 = none) :
    fetchAll key ts snapshot oracle es =
      .ok ((es.filterMap (hit key ts snapshot oracle)).filterMap fun n => ts[n]?.map (·.row)) := by
  rw [filterMap_filterMap]
  induction es with
  | nil => rfl
  | cons e es ih =>
    obtain ⟨⟨v, hv⟩, hend⟩ := hes e mem_cons_self
    have hrow : (resolve ts snapshot oracle hopLimit e.2).bind (rowIf key ts e.1) =
        (hit key ts snapshot oracle e).bind fun n => ts[n]?.map (·.row) := by
      unfold hit
      cases resolve ts snapshot oracle hopLimit e.2 with
      | none => rfl
      | some n =>
        rw [Option.bind_some, Option.filter_some]
        unfold rowIf
        cases hn : ts[n]? with
        | none => rfl
        | some w =>
          rw [Option.map_some, Option.filter_some]
          by_cases hkey : key w.row = some e.1 <;> simp [hkey, hn]
    rw [fetchAll, fetchVisible_eq hi hcl hv hend, ih fun e he => hes e (mem_cons_of_mem _ he),
      hrow, filterMap_cons]
    cases (hit key ts snapshot oracle e).bind fun n => ts[n]?.map (·.row) <;> rfl

/-! ## The scan theorem -/

namespace Inv

variable {x k : ℕ} {c : Client} (hi : Inv key s) (hc : s.txn.clients.lookup x = some c)
  (hp : c.phase = .running) (hk : k ≤ c.handle.currentCommand)

include hi hc hp

theorem classical : Classical s.tuples (snapshotAt c k) s.txn.mgr.status := by
  intro n v hv
  rw [(hi.table.header n v hv).isVisible_eq hi.table.txn hi.table.solo hc hp]
  split_ifs
  · exact .inr (.inr rfl)
  · exact .inr (.inl rfl)
  · exact .inl rfl
  · exact .inr (.inl rfl)

theorem visible_iff (hv : s.tuples[n]? = some v) :
    isVisible v.header (snapshotAt c k) s.txn.mgr.status = .visible ↔
      sees s.txn x k v.header.ins = true ∧
        ¬ (v.header.xmax ≠ 0 ∧ sees s.txn x k v.header.del = true) := by
  rw [(hi.table.header n v hv).isVisible_eq hi.table.txn hi.table.solo hc hp]
  split_ifs <;> simp_all

theorem isSeen_iff (hv : s.tuples[n]? = some v) :
    (isVisible v.header (snapshotAt c k) s.txn.mgr.status).isSeen = true ↔
      isVisible v.header (snapshotAt c k) s.txn.mgr.status = .visible := by
  rcases hi.classical (k := k) hc hp n v hv with h | h | h <;> rw [h] <;> decide

/-- What a snapshot sees is not of a transaction that rolls back. -/
theorem not_undone_of_visible (hv : s.tuples[n]? = some v)
    (hvis : isVisible v.header (snapshotAt c k) s.txn.mgr.status = .visible) :
    ¬ Undone s.txn v.header.xmin := by
  rintro ⟨d, hd, hf⟩
  have hseen := ((hi.visible_iff hc hp hv).1 hvis).1
  have hgone : Gone s.txn v.header.ins := ⟨d, hd, .inr hf⟩
  rw [hgone.sees_eq_false hi.table.txn hc hp] at hseen
  cases hseen

include hk

/-- **A probe ends at the version that the snapshot sees.** -/
theorem resolve_eq_some {e : I64 × ℕ} (he : e ∈ s.entries) :
    resolve s.tuples (snapshotAt c k) s.txn.mgr.status hopLimit e.2 = some m ↔
      Leads s.tuples e.2 m ∧ ∃ w, s.tuples[m]? = some w ∧
        isVisible w.header (snapshotAt c k) s.txn.mgr.status = .visible := by
  constructor
  · intro h
    obtain ⟨j, w, hj, hw, hvis⟩ := resolve_sound h
    exact ⟨leads_of_hops hi.table hj, w, hw, hvis⟩
  · rintro ⟨⟨j, -, hj⟩, w, hw, hvis⟩
    have hlt : j < hopLimit := by
      by_contra hge
      obtain ⟨b, hb⟩ := hops_of_le hj (not_lt.1 hge)
      rw [hi.short e he] at hb
      cases hb
    refine resolve_complete hj hlt hw hvis fun i hij m' w' hm' hw' hvis' => ?_
    -- a version before it is superseded for whoever sees it
    have hbetween := hops_between hm' hj hij.le
    obtain ⟨d, hd⟩ := Nat.exists_eq_add_of_lt hij
    rw [show j - i = d + 1 by omega] at hbetween
    exact ((hi.visible_iff hc hp hw').1 hvis').2 (hi.table.sees_del_of_hops hc hp hk hw' hw hbetween
      ((hi.visible_iff hc hp hw).1 hvis).1)

theorem hit_eq_some {e : I64 × ℕ} (he : e ∈ s.entries) :
    hit key s.tuples (snapshotAt c k) s.txn.mgr.status e = some m ↔
      Leads s.tuples e.2 m ∧ ∃ w, s.tuples[m]? = some w ∧ key w.row = some e.1 ∧
        isVisible w.header (snapshotAt c k) s.txn.mgr.status = .visible := by
  have hrow : ∀ {w}, s.tuples[m]? = some w →
      ((rowIf key s.tuples e.1 m).isSome = true ↔ key w.row = some e.1) := by
    intro w hw
    rw [rowIf, hw, Option.map_some, Option.filter_some]
    split_ifs with h <;> simp_all
  rw [hit, Option.filter_eq_some_iff, hi.resolve_eq_some hc hp hk he]
  constructor
  · rintro ⟨⟨hl, w, hw, hvis⟩, hkey⟩
    exact ⟨hl, w, hw, (hrow hw).1 hkey, hvis⟩
  · rintro ⟨hl, w, hw, hkey, hvis⟩
    exact ⟨⟨hl, w, hw, hvis⟩, (hrow hw).2 hkey⟩

/-- **The versions that the entries of a range lead to** are those that the snapshot sees and whose
key is in the range, each once. -/
theorem hits_perm {es : List (I64 × ℕ)} {range : KeyRange}
    (hes : es.Perm (s.entries.filter fun e => range.contains e.1)) :
    (es.filterMap (hit key s.tuples (snapshotAt c k) s.txn.mgr.status)).Perm
      (((List.finRange s.tuples.length).filter fun i =>
        (isVisible (s.tuples.get i).header (snapshotAt c k) s.txn.mgr.status).isSeen &&
          (key (s.tuples.get i).row).any range.contains).map Fin.val) := by
  refine (hes.filterMap _).trans ((perm_ext_iff_of_nodup ?_ ?_).2 fun m => ?_)
  · refine pairwise_filterMap.2 ?_
    refine (hi.unique.filter _).imp_of_mem fun {e e'} he he' h m hm m' hm' heq => ?_
    subst heq
    obtain ⟨hl, w, hw, hkey, -⟩ := (hi.hit_eq_some hc hp hk (mem_of_mem_filter he)).1 hm
    obtain ⟨hl', w', hw', hkey', -⟩ := (hi.hit_eq_some hc hp hk (mem_of_mem_filter he')).1 hm'
    obtain rfl := Option.mem_unique hw hw'
    exact h (Option.mem_unique hkey hkey') m hl hl'
  · exact ((nodup_finRange _).filter _).map Fin.val_injective
  · rw [mem_filterMap, mem_map]
    constructor
    · rintro ⟨e, he, hm⟩
      obtain ⟨he, hrange⟩ := mem_filter.1 he
      obtain ⟨-, w, hw, hkey, hvis⟩ := (hi.hit_eq_some hc hp hk he).1 hm
      obtain ⟨hlt, rfl⟩ := List.getElem?_eq_some_iff.1 hw
      refine ⟨⟨m, hlt⟩, mem_filter.2 ⟨mem_finRange _, ?_⟩, rfl⟩
      rw [Bool.and_eq_true]
      refine ⟨(hi.isSeen_iff hc hp hw).2 hvis, ?_⟩
      show (key s.tuples[m].row).any range.contains = true
      rw [hkey]
      exact hrange
    · rintro ⟨i, hi', rfl⟩
      have hw : s.tuples[i.val]? = some (s.tuples.get i) := getElem?_eq_getElem i.2
      obtain ⟨hseen, hany⟩ := (Bool.and_eq_true _ _).mp (mem_filter.1 hi').2
      obtain ⟨κ, hkey, hrange⟩ := (Option.any_eq_true _ _).mp hany
      have hvis := (hi.isSeen_iff hc hp hw).1 hseen
      obtain ⟨r, hr, hl⟩ := hi.complete _ _ κ hw hkey (hi.not_undone_of_visible hc hp hw hvis)
      exact ⟨(κ, r), mem_filter.2 ⟨hr, hrange⟩,
        (hi.hit_eq_some hc hp hk hr).2 ⟨hl, _, hw, hkey, hvis⟩⟩

theorem fetchAll_perm (range : KeyRange) :
    ∃ rows, fetchAll key s.tuples (snapshotAt c k) s.txn.mgr.status
        (probeIndexEntries s.entries range) = .ok rows ∧
      rows.Perm (seqScan key s.tuples (snapshotAt c k) s.txn.mgr.status range) := by
  have hes := probeIndexEntries_perm s.entries range
  refine ⟨_, fetchAll_eq hi.table (hi.classical hc hp) fun e he => ?_, ?_⟩
  · have hmem := mem_of_mem_filter (hes.subset he)
    exact ⟨hi.valid e hmem, hi.short e hmem⟩
  · rw [seqScan, scanVisible, filter_map, filter_filter, map_filter_eq_filterMap]
    refine ((hi.hits_perm hc hp hk hes).trans (List.Perm.of_eq ?_)).filterMap _
    simp only [Function.comp_def, Bool.and_comm]

end Inv

theorem KeyRange.not_contains_of_isEmpty {range : KeyRange} (h : range.isEmpty = true) (κ : I64) :
    range.contains κ = false := by
  obtain ⟨low, high⟩ := range
  unfold KeyRange.isEmpty at h
  split at h
  · rename_i low high hlow hhigh
    rw [← Bool.not_eq_true, KeyRange.contains_iff]
    rintro ⟨h₁, h₂⟩
    exact absurd (of_decide_eq_true h) (not_lt.2 ((h₁ low hlow).trans (h₂ high hhigh)))
  · cases h

/-- The conditions on the steps. -/
def ProbeSafe (key : ρ → Option I64) (s : State ρ) (a : Act ρ) : Prop :=
  Timed s a ∧ KeyStaysAway key s a ∧ ChainStaysShort s a

instance instDecidableRelProbeSafe (key : ρ → Option I64) : DecidableRel (ProbeSafe key) :=
  fun _ _ => inferInstanceAs (Decidable (_ ∧ _))

/-- **An index scan agrees with a sequential scan.** -/
theorem probeIndex_perm_seqScan (h : (machine key).Reach (ProbeSafe key) s) {x k : ℕ} {c : Client}
    (hc : s.txn.clients.lookup x = some c) (hp : c.phase = .running)
    (hk : k ≤ c.handle.currentCommand) (range : KeyRange) :
    ∃ rows, probeIndex key s.tuples s.entries (snapshotAt c k) s.txn.mgr.status range = .ok rows ∧
      rows.Perm (seqScan key s.tuples (snapshotAt c k) s.txn.mgr.status range) := by
  have hi : Inv key s := Machine.Reach.invariant inv_init
    (fun s a s' _ hs hC hstep => hs.step hC.1 hC.2.1 hC.2.2 hstep) h
  unfold probeIndex
  split_ifs with hempty
  · refine ⟨[], rfl, List.Perm.of_eq ?_⟩
    rw [seqScan, eq_comm, filter_eq_nil_iff]
    intro row _ hany
    obtain ⟨κ, -, hκ⟩ := (Option.any_eq_true _ _).mp hany
    rw [KeyRange.not_contains_of_isEmpty hempty] at hκ
    cases hκ
  · obtain ⟨rows, hrows, hperm⟩ := hi.fetchAll_perm hc hp hk range
    rw [hrows]
    obtain ⟨low, high⟩ := range
    cases low with
    | none => exact ⟨rows, rfl, hperm⟩
    | some low =>
      cases high with
      | none => exact ⟨rows, rfl, hperm⟩
      | some high =>
        by_cases hfall : (rows.isEmpty && decide (low = high)) = true
        · -- the table has nothing either
          obtain rfl : low = high := of_decide_eq_true ((Bool.and_eq_true _ _).mp hfall).2
          refine ⟨_, if_pos hfall, List.Perm.of_eq (filter_congr fun row _ => ?_)⟩
          rw [Bool.eq_iff_iff, decide_eq_true_eq, Option.any_eq_true]
          constructor
          · intro hκ
            exact ⟨low, hκ, KeyRange.contains_iff.2 (by simp)⟩
          · rintro ⟨κ, hκ, hin⟩
            obtain ⟨h₁, h₂⟩ := KeyRange.contains_iff.1 hin
            rw [hκ, le_antisymm (h₂ low rfl) (h₁ low rfl)]
        · exact ⟨rows, if_neg hfall, hperm⟩

/-- What a probe and a scan give a running transaction. -/
def State.compare (key : ρ → Option I64) (s : State ρ) (x : ℕ) (range : KeyRange) :
    Option (Except ScanError (List ρ) × List ρ) :=
  (running s.txn x).map fun c =>
    (probeIndex key s.tuples s.entries c.handle.snapshot s.txn.mgr.status range,
      seqScan key s.tuples c.handle.snapshot s.txn.mgr.status range)

/-- Rows of two columns, of which the first is indexed. -/
structure Pair where
  id : Option Int32
  val : ℕ
  deriving DecidableEq

/-- `IndexKeyEncoding::Int32` -/
def Pair.encode (row : Pair) : Option I64 := row.id.map I64.ofInt32

/-- A row whose key moves and that is updated once more, beside a reader with an older snapshot. -/
theorem probe_after_key_change : ∃ s c, (machine Pair.encode).Reach (ProbeSafe Pair.encode) s ∧
    s.txn.clients.lookup 4 = some c ∧ c.phase = .running ∧
    ∃ rows, probeIndex Pair.encode s.tuples s.entries (snapshotAt c 0) s.txn.mgr.status
        ⟨none, none⟩ = .ok rows ∧
      rows.Perm (seqScan Pair.encode s.tuples (snapshotAt c 0) s.txn.mgr.status
        ⟨none, none⟩) := by
  obtain ⟨s, hs, hrun⟩ := Machine.exists_reach_of_runIf (M := machine Pair.encode)
    (C := ProbeSafe Pair.encode) (p := fun s => (running s.txn 4).isSome = true)
    (opening 3 .readCommitted ++ [.insert 3 ⟨some 1, 10⟩, .txn (.commit 3)] ++
      opening 4 .repeatableRead ++ opening 5 .readCommitted ++
      [.update 5 0 true ⟨some 2, 11⟩, .txn (.commit 5)] ++ opening 6 .readCommitted ++
      [.update 6 1 false ⟨some 2, 12⟩, .txn (.commit 6)])
    (by decide)
  obtain ⟨c, hc⟩ := Option.isSome_iff_exists.1 hrun
  obtain ⟨hc, hp⟩ := running_eq_some.1 hc
  exact ⟨s, c, hs, hc, hp, probeIndex_perm_seqScan hs hc hp (Nat.zero_le _) _⟩

/-- **A row is returned twice.** Its key moves from 1 to 2 and back. -/
theorem row_returned_twice : ∃ s, (machine Pair.encode).Reach Timed s ∧
    s.compare Pair.encode 6 ⟨some (I64.ofInt32 1), some (I64.ofInt32 1)⟩ =
      some (.ok [⟨some 1, 12⟩, ⟨some 1, 12⟩], [⟨some 1, 12⟩]) :=
  Machine.exists_reach_of_runIf
    (opening 3 .readCommitted ++ [.insert 3 ⟨some 1, 10⟩, .txn (.commit 3)] ++
      opening 4 .readCommitted ++ [.update 4 0 true ⟨some 2, 11⟩, .txn (.commit 4)] ++
      opening 5 .readCommitted ++ [.update 5 1 true ⟨some 1, 12⟩, .txn (.commit 5)] ++
      opening 6 .readCommitted)
    (by decide)

/-- **A row that is updated often is out of reach.** A transaction inserts a row and updates it 64
times, with the same key. -/
theorem probe_fails_on_long_chain : ∃ s,
    (machine Pair.encode).Reach (fun s a => Timed s a ∧ KeyStaysAway Pair.encode s a) s ∧
    s.compare Pair.encode 3 ⟨none, none⟩ = some (.error .chainExceeded, [⟨some 1, 64⟩]) :=
  Machine.exists_reach_of_runIf
    (opening 3 .readCommitted ++ [.insert 3 ⟨some 1, 0⟩, .txn (.refresh 3 4)] ++
      (range 64).flatMap fun n => [.update 3 n true ⟨some 1, n + 1⟩, .txn (.refresh 3 4)])
    (by decide +kernel)

end UltraSql.Index.Scan
