import UltraSql.Heap.Row

/-!
# Sequential scans and their visibility cache

Both sequential scans keep one answer of the visibility check. The key is the inserter and the
information mask of a tuple without `xmax`, and the value says whether the answer was `visible`.

The answer depends on more. For a row of the reader's own transaction it depends on the command
that inserted it, and for a row with in-place history it is `visibleMaybePreImage`, which the
walker keeps as "not visible".

**Theorem (`scans_eq_reads`).** A scan yields in slot order what each normal slot reads by itself
exactly if, each time it takes the answer from the cache, the tuple that has filled the cache has
the answer of the tuple that is read.

**Counterexamples (`scan_yields_own_later_row`, `walker_loses_restored_row`).** A statement that
scans the table it inserts into is given a row that it has inserted itself. The walker skips a row
whose last in-place update was rolled back.
-/

namespace UltraSql.Heap

variable (s : Snapshot) (oracle : Oracle)

/-- The slots of a relation in the order of blocks and slots, with the row of each normal one. -/
abbrev Slots := List (TupleId × Option Row)

/-- `xmin_cache` -/
abbrev VisibilityCache := Option (ℕ × InfoMask × Bool)

/-- The outcome for a tuple in the walker, and the cache after it. -/
def walkerOutcome (cache : VisibilityCache) (h : TupleHeader) : Visibility × VisibilityCache :=
  if Xid.isInvalid h.xmax then
    match cache with
    | some (xmin, mask, v) =>
      if xmin = h.xmin ∧ mask = h.infomask then (if v then .visible else .invisible, cache)
      else miss
    | none => miss
  else (isVisible h s oracle, cache)
where
  miss : Visibility × VisibilityCache :=
    let outcome := isVisible h s oracle
    (outcome, some (h.xmin, h.infomask, decide (outcome = .visible)))

/-- `VisibleHeapWalker::try_next` without a visibility map: the next item, the slots that are left
and the cache. -/
def tryNext : Slots → VisibilityCache → Option ((TupleId × Payload) × Slots × VisibilityCache)
  | [], _ => none
  | (_, none) :: rest, cache => tryNext rest cache
  | (tid, some r) :: rest, cache =>
    let (outcome, cache) := walkerOutcome s oracle cache r.header
    match r.readAs s oracle outcome with
    | some payload => some ((tid, payload), rest, cache)
    | none => tryNext rest cache

variable {cache' : VisibilityCache} {item : TupleId × Payload} {rest : Slots}

variable {s oracle} in
theorem length_of_tryNext {slots : Slots} {cache : VisibilityCache}
    (h : tryNext s oracle slots cache = some (item, rest, cache')) :
    rest.length < slots.length := by
  fun_induction tryNext s oracle slots cache with
  | case1 => cases h
  | case2 _ _ _ ih | case4 _ _ _ _ _ _ _ _ ih => exact (ih h).trans (Nat.lt_succ_self _)
  | case3 =>
    cases h
    exact Nat.lt_succ_self _

/-- All items of the walker. -/
def walk (slots : Slots) (cache : VisibilityCache) : List (TupleId × Payload) :=
  match _h : tryNext s oracle slots cache with
  | none => []
  | some (item, rest, cache') => item :: walk rest cache'
termination_by slots.length
decreasing_by exact length_of_tryNext _h

/-- `for_each_visible`: the calls to the visitor. -/
def forEachVisible : Slots → VisibilityCache → List (TupleId × Payload)
  | [], _ => []
  | (_, none) :: rest, cache => forEachVisible rest cache
  | (tid, some r) :: rest, cache =>
    if Xid.isInvalid r.header.xmax ∧ cache = some (r.header.xmin, r.header.infomask, true) then
      (tid, r.payload) :: forEachVisible rest cache
    else
      let outcome := isVisible r.header s oracle
      let cache :=
        if Xid.isInvalid r.header.xmax ∧ outcome ≠ .visibleMaybePreImage then
          some (r.header.xmin, r.header.infomask, decide (outcome = .visible))
        else cache
      match r.readAs s oracle outcome with
      | some payload => (tid, payload) :: forEachVisible rest cache
      | none => forEachVisible rest cache

/-- What each slot reads by itself. -/
def reads (slots : Slots) : List (TupleId × Payload) :=
  slots.filterMap fun (tid, r?) => r?.bind fun r => (r.read s oracle).map (tid, ·)

/-! ## What the cache holds -/

variable {h h' : TupleHeader} {cache : VisibilityCache} {slots : Slots} {c : Option TupleHeader}
  {r : Row} {tid : TupleId}

/-- The cache cannot tell the tuples apart. -/
structure SameKey (h h' : TupleHeader) : Prop where
  xmax : h.xmax = 0
  xmax' : h'.xmax = 0
  xmin : h.xmin = h'.xmin
  infomask : h.infomask = h'.infomask

instance (h h' : TupleHeader) : Decidable (SameKey h h') :=
  decidable_of_iff (h.xmax = 0 ∧ h'.xmax = 0 ∧ h.xmin = h'.xmin ∧ h.infomask = h'.infomask)
    ⟨fun ⟨a, b, c, d⟩ => ⟨a, b, c, d⟩, fun ⟨a, b, c, d⟩ => ⟨a, b, c, d⟩⟩

/-- The entry of a tuple. -/
def cacheEntry (h : TupleHeader) : ℕ × InfoMask × Bool :=
  (h.xmin, h.infomask, decide (isVisible h s oracle = .visible))

/-- The entry of the tuple gives what the row reads by itself. -/
def Answers (h : TupleHeader) (r : Row) : Prop :=
  r.readAs s oracle (if isVisible h s oracle = .visible then .visible else .invisible) =
    r.read s oracle

instance (h : TupleHeader) (r : Row) : Decidable (Answers s oracle h r) :=
  inferInstanceAs (Decidable (_ = _))

/-- The tuple whose entry the walker's cache holds behind a row: the last one without `xmax` that
did not find its key. -/
def walkerSource (c : Option TupleHeader) (r : Row) : Option TupleHeader :=
  if r.header.xmax = 0 ∧ ∀ h ∈ c, ¬SameKey h r.header then some r.header else c

/-- Each answer that the walker takes from the cache is right. -/
def WalkerAgrees (c : Option TupleHeader) : Slots → Prop
  | [] => True
  | (_, none) :: rest => WalkerAgrees c rest
  | (_, some r) :: rest =>
    (∀ h ∈ c, SameKey h r.header → Answers s oracle h r) ∧ WalkerAgrees (walkerSource c r) rest

/-- The visitor takes only `visible` from the cache. -/
def VisitorHits (h : TupleHeader) (r : Row) : Prop :=
  SameKey h r.header ∧ isVisible h s oracle = .visible

instance (h : TupleHeader) (r : Row) : Decidable (VisitorHits s oracle h r) :=
  inferInstanceAs (Decidable (_ ∧ _))

/-- The tuple whose entry the visitor's cache holds behind a row: the last one without `xmax` that
was not taken from it and has no in-place history to look up. -/
def visitorSource (c : Option TupleHeader) (r : Row) : Option TupleHeader :=
  if r.header.xmax = 0 ∧ (∀ h ∈ c, ¬VisitorHits s oracle h r) ∧
      isVisible r.header s oracle ≠ .visibleMaybePreImage then some r.header else c

/-- Each answer that the visitor takes from the cache is right. -/
def VisitorAgrees (c : Option TupleHeader) : Slots → Prop
  | [] => True
  | (_, none) :: rest => VisitorAgrees c rest
  | (_, some r) :: rest =>
    (∀ h ∈ c, VisitorHits s oracle h r → Answers s oracle h r) ∧
      VisitorAgrees (visitorSource s oracle c r) rest

/-- What the answers depend on where the keys are the same: for the reader's own rows on the side of
the current command they were inserted, for the rows of others on their in-place history. -/
def SameAnswer (h h' : TupleHeader) : Prop :=
  h.infomask.frozen = true ∨ s.ownSubxidRolledBack h.xmin = true ∨ h.xmin = 0 ∨
    if s.isCurrentXid h.xmin then h.cmin < s.currentCommand ↔ h'.cmin < s.currentCommand
    else isCommittedBeforeSnapshot h.xmin s oracle = true → h.infomask.inplaceHistory = false

variable {s oracle}

theorem isVisible_of_xmax_zero (hx : h.xmax = 0) (h0 : s.isCurrentXid 0 = false) :
    isVisible h s oracle =
      if h.infomask.frozen then .visible
      else if s.ownSubxidRolledBack h.xmin then .invisible
      else if h.xmin = 0 then .invisible
      else if s.isCurrentXid h.xmin then if h.cmin < s.currentCommand then .visible else .invisible
      else if isCommittedBeforeSnapshot h.xmin s oracle then
        if h.infomask.inplaceHistory then .visibleMaybePreImage else .visible
      else .invisible := by
  have h0' : Xid.isInvalid 0 = true := rfl
  unfold isVisible isVisibleOwn isVisibleForeign TupleHeader.visibleOutcome
  simp only [hx, h0, h0', if_true, Bool.and_false, Bool.false_and, Bool.false_eq_true, if_false,
    Xid.isInvalid_iff, Bool.not_true, ← not_lt]
  split_ifs <;> simp_all

theorem answers_iff (hk : SameKey h r.header) (h0 : s.isCurrentXid 0 = false) :
    Answers s oracle h r ↔ SameAnswer s oracle h r.header := by
  unfold Answers SameAnswer Row.read
  rw [isVisible_of_xmax_zero hk.xmax h0, isVisible_of_xmax_zero hk.xmax' h0, ← hk.xmin,
    ← hk.infomask]
  split_ifs <;> simp_all [Row.readAs]
  omega

/-! ## What the scans yield -/

/-- The item of a slot, if it has one, and those of the slots behind it. -/
def emit (tid : TupleId) (o : Option Payload) (l : List (TupleId × Payload)) :
    List (TupleId × Payload) :=
  (o.map (tid, ·)).toList ++ l

theorem emit_sublist {o : Option Payload} {l : List (TupleId × Payload)} {tids : List TupleId}
    (hl : (l.map Prod.fst).Sublist tids) : ((emit tid o l).map Prod.fst).Sublist (tid :: tids) := by
  cases o with
  | none => exact hl.cons _
  | some p => exact hl.cons_cons _

/-- Lists of items differ as soon as one slot does. -/
theorem emit_eq_iff {o o' : Option Payload} {l l' : List (TupleId × Payload)} {tids : List TupleId}
    (htid : tid ∉ tids) (hl : (l.map Prod.fst).Sublist tids)
    (hl' : (l'.map Prod.fst).Sublist tids) : emit tid o l = emit tid o' l' ↔ o = o' ∧ l = l' := by
  have hnot : ∀ {p : Payload} {l₁ l₂ : List (TupleId × Payload)},
      (l₁.map Prod.fst).Sublist tids → l₁ ≠ (tid, p) :: l₂ := by
    rintro p l₁ l₂ hsub rfl
    exact htid (hsub.subset List.mem_cons_self)
  cases o with
  | none =>
    cases o' with
    | none => exact ⟨fun h => ⟨rfl, h⟩, fun h => h.2⟩
    | some p => exact ⟨fun h => absurd h (hnot hl), fun h => nomatch h.1⟩
  | some p =>
    cases o' with
    | none => exact ⟨fun h => absurd h.symm (hnot hl'), fun h => nomatch h.1⟩
    | some p' => simp [emit]

theorem reads_normal :
    reads s oracle ((tid, some r) :: slots) =
      emit tid (r.read s oracle) (reads s oracle slots) := by
  unfold reads
  rw [List.filterMap_cons]
  simp only [Option.bind_some]
  cases r.read s oracle <;> rfl

theorem reads_sublist : ((reads s oracle slots).map Prod.fst).Sublist (slots.map Prod.fst) := by
  induction slots with
  | nil => exact .slnil
  | cons b slots ih =>
    obtain ⟨tid, _ | r⟩ := b
    · exact ih.cons _
    · rw [reads_normal]
      exact emit_sublist ih

/-! ## The walker -/

theorem walk_of_none (h : tryNext s oracle slots cache = none) :
    walk s oracle slots cache = [] := by
  rw [walk]
  split
  · rfl
  · rename_i heq
    rw [h] at heq
    cases heq

theorem walk_of_some (h : tryNext s oracle slots cache = some (item, rest, cache')) :
    walk s oracle slots cache = item :: walk s oracle rest cache' := by
  rw [walk]
  split
  · rename_i heq
    rw [h] at heq
    cases heq
  · rename_i heq
    rw [h] at heq
    cases heq
    rfl

/-- A walker that skips a slot goes on as one that starts behind it. -/
theorem walk_congr {slots' : Slots}
    (h : tryNext s oracle slots cache = tryNext s oracle slots' cache') :
    walk s oracle slots cache = walk s oracle slots' cache' := by
  cases hn : tryNext s oracle slots' cache' with
  | none => rw [walk_of_none hn, walk_of_none (h.trans hn)]
  | some next => rw [walk_of_some hn, walk_of_some (h.trans hn)]

theorem walk_normal :
    walk s oracle ((tid, some r) :: slots) cache =
      emit tid (r.readAs s oracle (walkerOutcome s oracle cache r.header).1)
        (walk s oracle slots (walkerOutcome s oracle cache r.header).2) := by
  cases hr : r.readAs s oracle (walkerOutcome s oracle cache r.header).1 with
  | none =>
    refine walk_congr ?_
    rw [tryNext]
    simp only [hr]
  | some payload =>
    refine walk_of_some ?_
    rw [tryNext]
    simp only [hr]

theorem walk_skip :
    walk s oracle ((tid, none) :: slots) cache = walk s oracle slots cache :=
  walk_congr rfl

theorem walk_sublist :
    ((walk s oracle slots cache).map Prod.fst).Sublist (slots.map Prod.fst) := by
  induction slots generalizing cache with
  | nil => rw [walk_of_none rfl]; exact .slnil
  | cons b slots ih =>
    obtain ⟨tid, _ | r⟩ := b
    · rw [walk_skip]
      exact ih.cons _
    · rw [walk_normal]
      exact emit_sublist ih

/-- **One slot of the walker**, while the cache holds the entry of `c`. -/
theorem walkerOutcome_cacheEntry (hc : ∀ h ∈ c, h.xmax = 0) :
    (r.readAs s oracle (walkerOutcome s oracle (c.map (cacheEntry s oracle)) r.header).1 =
        r.read s oracle ↔ ∀ h ∈ c, SameKey h r.header → Answers s oracle h r) ∧
      (walkerOutcome s oracle (c.map (cacheEntry s oracle)) r.header).2 =
        (walkerSource c r).map (cacheEntry s oracle) := by
  unfold walkerSource
  by_cases hx : r.header.xmax = 0
  · cases c with
    | none => simp [walkerOutcome, walkerOutcome.miss, hx, Xid.isInvalid_iff, cacheEntry, Row.read]
    | some h =>
      have hkey : SameKey h r.header ↔ h.xmin = r.header.xmin ∧ h.infomask = r.header.infomask :=
        ⟨fun hk => ⟨hk.xmin, hk.infomask⟩, fun hk => ⟨hc h rfl, hx, hk.1, hk.2⟩⟩
      by_cases hk : SameKey h r.header
      · simp [walkerOutcome, hx, Xid.isInvalid_iff, cacheEntry, hkey.1 hk, hk, Answers]
      · simp [walkerOutcome, walkerOutcome.miss, hx, Xid.isInvalid_iff, cacheEntry,
          hkey.not.1 hk, hk, Row.read]
  · have hnot : ∀ h, ¬SameKey h r.header := fun h hk => hx hk.xmax'
    simp [walkerOutcome, hx, Xid.isInvalid_iff, hnot, Row.read]

theorem walk_eq_reads_iff (hn : (slots.map Prod.fst).Nodup) (hc : ∀ h ∈ c, h.xmax = 0) :
    walk s oracle slots (c.map (cacheEntry s oracle)) = reads s oracle slots ↔
      WalkerAgrees s oracle c slots := by
  induction slots generalizing c with
  | nil => exact iff_of_true (walk_of_none rfl) trivial
  | cons b slots ih =>
    obtain ⟨htid, hrest⟩ := List.nodup_cons.1 hn
    obtain ⟨tid, _ | r⟩ := b
    · rw [walk_skip]
      exact ih hrest hc
    · obtain ⟨hread, hcache⟩ := walkerOutcome_cacheEntry (r := r) hc
      rw [walk_normal, reads_normal, emit_eq_iff htid walk_sublist reads_sublist, hread, hcache,
        ih hrest (by grind [walkerSource])]
      rfl

/-! ## The visitor -/

theorem forEachVisible_sublist :
    ((forEachVisible s oracle slots cache).map Prod.fst).Sublist (slots.map Prod.fst) := by
  fun_induction forEachVisible s oracle slots cache with
  | case1 => exact .slnil
  | case2 _ _ _ ih | case5 _ _ _ _ _ _ _ _ ih => exact ih.cons _
  | case3 _ _ _ _ _ ih | case4 _ _ _ _ _ _ _ _ _ ih => exact ih.cons_cons _

/-- **One slot of the visitor**, while the cache holds the entry of `c`. -/
theorem forEachVisible_normal (hc : ∀ h ∈ c, h.xmax = 0) :
    ∃ o, forEachVisible s oracle ((tid, some r) :: slots) (c.map (cacheEntry s oracle)) =
        emit tid o (forEachVisible s oracle slots
          ((visitorSource s oracle c r).map (cacheEntry s oracle))) ∧
      (o = r.read s oracle ↔ ∀ h ∈ c, VisitorHits s oracle h r → Answers s oracle h r) := by
  have hhit : (Xid.isInvalid r.header.xmax ∧ c.map (cacheEntry s oracle) =
      some (r.header.xmin, r.header.infomask, true)) ↔ ∃ h ∈ c, VisitorHits s oracle h r := by
    rw [Option.map_eq_some_iff, Xid.isInvalid_iff]
    constructor
    · rintro ⟨hx, h, hh, heq⟩
      obtain ⟨hxmin, hmask, hv⟩ := by simpa only [cacheEntry, Prod.mk.injEq] using heq
      exact ⟨h, hh, ⟨hc h hh, hx, hxmin, hmask⟩, of_decide_eq_true hv⟩
    · rintro ⟨h, hh, hk, hv⟩
      exact ⟨hk.xmax', h, hh, by rw [cacheEntry, hk.xmin, hk.infomask, decide_eq_true hv]⟩
  rw [forEachVisible, visitorSource]
  by_cases hex : ∃ h ∈ c, VisitorHits s oracle h r
  · obtain ⟨h, hh, hhits⟩ := hex
    refine ⟨some r.payload, ?_, ?_⟩
    · rw [if_pos (hhit.2 ⟨h, hh, hhits⟩), if_neg fun hmiss => hmiss.2.1 h hh hhits]
      rfl
    · obtain rfl := Option.mem_def.1 hh
      simp [Answers, hhits, hhits.2, Row.readAs]
  · have hnone : ∀ h ∈ c, ¬VisitorHits s oracle h r := fun h hh hhits => hex ⟨h, hh, hhits⟩
    refine ⟨r.read s oracle, ?_, iff_of_true rfl fun h hh hhits => absurd hhits (hnone h hh)⟩
    have hcache : (if Xid.isInvalid r.header.xmax ∧
        isVisible r.header s oracle ≠ .visibleMaybePreImage then
          some (cacheEntry s oracle r.header) else c.map (cacheEntry s oracle)) =
        (if r.header.xmax = 0 ∧ (∀ h ∈ c, ¬VisitorHits s oracle h r) ∧
          isVisible r.header s oracle ≠ .visibleMaybePreImage then some r.header else c).map
            (cacheEntry s oracle) := by
      simp only [Xid.isInvalid_iff, and_iff_right hnone]
      split_ifs <;> rfl
    rw [if_neg (hhit.not.2 hex), ← hcache, Row.read]
    cases hread : r.readAs s oracle (isVisible r.header s oracle) <;> simp only [hread] <;> rfl

theorem forEachVisible_eq_reads_iff (hn : (slots.map Prod.fst).Nodup) (hc : ∀ h ∈ c, h.xmax = 0) :
    forEachVisible s oracle slots (c.map (cacheEntry s oracle)) = reads s oracle slots ↔
      VisitorAgrees s oracle c slots := by
  induction slots generalizing c with
  | nil => exact iff_of_true rfl trivial
  | cons b slots ih =>
    obtain ⟨htid, hrest⟩ := List.nodup_cons.1 hn
    obtain ⟨tid, _ | r⟩ := b
    · exact ih hrest hc
    · obtain ⟨o, hitem, hread⟩ := forEachVisible_normal (s := s) (r := r) hc
      rw [hitem, reads_normal, emit_eq_iff htid forEachVisible_sublist reads_sublist, hread,
        ih hrest (by grind [visitorSource])]
      rfl

/-- **When the cache is transparent.** A scan yields, in slot order, what each normal slot reads by
itself, exactly if each answer it takes from the cache is right. For a reader to which XID 0 is not
its own the headers decide this. -/
theorem scans_eq_reads (s : Snapshot) (oracle : Oracle) (slots : Slots)
    (hn : (slots.map Prod.fst).Nodup) :
    (walk s oracle slots none = reads s oracle slots ↔ WalkerAgrees s oracle none slots) ∧
      (forEachVisible s oracle slots none = reads s oracle slots ↔
        VisitorAgrees s oracle none slots) ∧
      ∀ h r, SameKey h r.header → s.isCurrentXid 0 = false →
        (Answers s oracle h r ↔ SameAnswer s oracle h r.header) :=
  ⟨walk_eq_reads_iff (c := none) hn nofun, forEachVisible_eq_reads_iff (c := none) hn nofun,
    fun _ _ => answers_iff⟩

/-! ## Two tables -/

/-- A row that transaction 7 inserted with the command `cmin`. -/
def insertedRow (cmin slot : ℕ) : TupleId × Option Row :=
  let tid : TupleId := { relation := 1, block := 0, slot := slot }
  (tid, some { header := .fresh 7 cmin tid, payload := { id := 1, val := 10 }, undo := [] })

/-- Two rows of one statement, read by the next one. -/
theorem scans_eq_reads_two_rows :
    let s := Snapshot.new 7 8 7 1 []
    let slots := [insertedRow 0 0, insertedRow 0 1]
    walk s (fun _ => .inProgress) slots none = reads s (fun _ => .inProgress) slots ∧
      forEachVisible s (fun _ => .inProgress) slots none =
        reads s (fun _ => .inProgress) slots := by
  obtain ⟨hwalk, hvisit, -⟩ := scans_eq_reads (Snapshot.new 7 8 7 1 []) (fun _ => .inProgress)
    [insertedRow 0 0, insertedRow 0 1] (by decide)
  exact ⟨hwalk.2 ⟨nofun, by decide, trivial⟩, hvisit.2 ⟨nofun, by decide, trivial⟩⟩

/-- **A scan yields a row that its own statement has inserted.** The reader has inserted the first
row with command 0 and the second one with the command that is running. -/
theorem scan_yields_own_later_row :
    let s := Snapshot.new 7 8 7 1 []
    let slots := [insertedRow 0 0, insertedRow 1 1]
    (reads s (fun _ => .inProgress) slots).length = 1 ∧
      (walk s (fun _ => .inProgress) slots none).length = 2 ∧
      (forEachVisible s (fun _ => .inProgress) slots none).length = 2 := by
  refine ⟨by decide, ?_, by decide⟩
  rw [insertedRow, walk_normal, insertedRow, walk_normal, walk_of_none rfl]
  decide

/-- A row that a committed transaction updated in place, after a later update of it was undone. -/
def restoredRow (slot : ℕ) : TupleId × Option Row :=
  let tid : TupleId := { relation := 1, block := 0, slot := slot }
  let row : Row :=
    { header := .fresh 5 0 tid
      payload := { id := 1, val := 11 }
      undo := [{ writerXid := 7, commandId := 0, inverse := .delta .val 5 },
        { writerXid := 6, commandId := 0, inverse := .delta .val 1 }] }
  (tid, some (row.rollbackUpdates 7))

/-- **The walker loses rows** whose latest in-place update was undone, all but the first. -/
theorem walker_loses_restored_row :
    let s := Snapshot.new 8 9 8 0 []
    let slots := [restoredRow 0, restoredRow 1]
    (reads s (fun _ => .committed) slots).length = 2 ∧
      (walk s (fun _ => .committed) slots none).length = 1 := by
  refine ⟨by decide, ?_⟩
  rw [restoredRow, walk_normal, restoredRow, walk_normal, walk_of_none rfl]
  decide

end UltraSql.Heap
