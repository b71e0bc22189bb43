import Mathlib

/-!
# The streaming reader of the log

`read_wal_range` decodes the segment files from the recovery floor on and returns the records in
`[from_lsn, to_lsn)` for a standby. The caller bounds `to_lsn` by the durable position, so that the
reader would only touch complete records. But it decodes the record that begins at `to_lsn` before
it compares its end with the bound.

**Theorem (`readWalRange_eq_iff`).** The records of the range are returned exactly if nothing or a
complete record follows in the last segment, or the range is empty.

**Theorem (`unfinished_record_is_an_error`).** The first byte of a record that is still being
written makes the call fail.
-/

namespace UltraSql.WalReader

open List

abbrev Bytes := List UInt8

/-! ## Records -/

inductive RecordType
  | heapInsert | heapUpdate | heapDelete | fullPageWrite | commit | abort | checkpoint | bTreeOp
  | heapUpdateInPlace | heapDeleteInPlace | sequenceOp | hashOp | hnswOp | ivfFlatOp
  | heapUpdateInPlaceBatch | heapDeleteInPlaceBatch | heapInsertBatch
  | heapUpdateInt32PairDeltaBatch | heapDeleteInPlaceRangeBatch
  | heapUpdateInt32PairDeltaRangeBatch | nop
  deriving DecidableEq

inductive WalRecordError
  | truncated (needed have_ : ℕ)
  | malformed (message : String)
  | crcMismatch (expected actual : UInt32)
  | unknownType (byte : UInt8)
  deriving DecidableEq

open RecordType in
def RecordType.fromU8 (v : UInt8) : Except WalRecordError RecordType :=
  let all := [heapInsert, heapUpdate, heapDelete, fullPageWrite, commit, abort, checkpoint, bTreeOp,
    heapUpdateInPlace, heapDeleteInPlace, sequenceOp, hashOp, hnswOp, ivfFlatOp,
    heapUpdateInPlaceBatch, heapDeleteInPlaceBatch, heapInsertBatch,
    heapUpdateInt32PairDeltaBatch, heapDeleteInPlaceRangeBatch, heapUpdateInt32PairDeltaRangeBatch]
  -- the numbers from 1 to 20, and 255
  if v = 255 then .ok nop
  else if v = 0 then .error (.unknownType v)
  else match all[v.toNat - 1]? with
    | some t => .ok t
    | none => .error (.unknownType v)

/-- A little-endian number. -/
def readLe (bytes : Bytes) : ℕ := bytes.foldr (fun b n => b.toNat + 256 * n) 0

/-- One byte of CRC-32C. -/
def crcByte (crc : UInt32) (b : UInt8) : UInt32 :=
  (List.range 8).foldl (fun c _ => if c &&& 1 = 1 then (c >>> 1) ^^^ 0x82F63B78 else c >>> 1)
    (crc ^^^ b.toUInt32)

/-- `compute_record_crc`: the header with its CRC slot zeroed, and the payload. -/
def computeRecordCrc (record : Bytes) : UInt32 :=
  ~~~ (record.take 4 ++ [0, 0, 0, 0] ++ record.drop 8).foldl crcByte 0xFFFFFFFF

/-- `WalRecord::decode`: the type and the length of the record at the beginning of a buffer. -/
def decode (bytes : Bytes) : Except WalRecordError (RecordType × ℕ) :=
  let header := bytes.take 28
  let total := readLe (header.take 4)
  let expected := (readLe ((header.drop 4).take 4)).toUInt32
  let actual := computeRecordCrc (bytes.take total)
  if bytes.length < 28 then .error (.truncated 28 bytes.length)
  else match RecordType.fromU8 (header.getD 24 0) with
    | .error e => .error e
    | .ok recordType =>
      if header.getD 25 0 ≠ 0 then .error (.malformed "record flags reserved bits")
      else if header.drop 26 ≠ [0, 0] then
        .error (.malformed "header reserved bytes must be zero")
      else if total < 28 then .error (.malformed "total_length too small")
      else if 64 * 1024 * 1024 < total then .error (.malformed "total_length above ceiling")
      else if bytes.length < total then .error (.truncated total bytes.length)
      else if actual ≠ expected then .error (.crcMismatch expected actual)
      else .ok (recordType, total)

/-! ## The reader -/

structure WalStreamRecord where
  lsn : ℕ
  endLsn : ℕ
  recordType : RecordType
  bytes : Bytes
  deriving DecidableEq

structure WalStream where
  records : List WalStreamRecord
  nextLsn : ℕ
  deriving DecidableEq

inductive RecoveryError
  | record (e : WalRecordError)
  | applier (message : String)
  deriving DecidableEq

/-- The files of the directory in the order of their numbers, and the contents of the manifest. -/
structure WalDir where
  segmentIndex : ℕ := 0
  floorLsn : ℕ := 0
  segments : List (ℕ × Bytes)

/-- The segment files that recovery starts with. -/
def WalDir.survivors (dir : WalDir) : List Bytes :=
  (dir.segments.filter (dir.segmentIndex ≤ ·.1)).map (·.2)

/-- The loop over one segment, with the stream position. Every record has 28 bytes or more, so as
many rounds as there are bytes are enough. The flag is set if the call returns. -/
def readSegment (fromLsn toLsn : ℕ) :
    ℕ → Bytes → ℕ → WalStream → Except RecoveryError (Bool × ℕ × WalStream)
  | 0, _, pos, s => .ok (false, pos, s)
  | rounds + 1, buf, pos, s =>
    if buf = [] then .ok (false, pos, s)
    else match decode buf with
      | .error e => .error (.record e)
      | .ok (recordType, used) =>
        if 2 ^ 64 ≤ pos + used then .error (.applier "WAL stream lsn overflow")
        else if toLsn < pos + used then .ok (true, pos, s)
        else readSegment fromLsn toLsn rounds (buf.drop used) (pos + used)
          (if fromLsn ≤ pos then
            { records := s.records ++ [⟨pos, pos + used, recordType, buf.take used⟩]
              nextLsn := pos + used }
          else s)

def readSegments (fromLsn toLsn : ℕ) : List Bytes → ℕ → WalStream → Except RecoveryError WalStream
  | [], _, s => .ok s
  | buf :: bufs, pos, s =>
    match readSegment fromLsn toLsn buf.length buf pos s with
    | .error e => .error e
    | .ok (true, _, s) => .ok s
    | .ok (false, pos, s) => readSegments fromLsn toLsn bufs pos s

def readWalRange (dir : WalDir) (fromLsn toLsn : ℕ) : Except RecoveryError WalStream :=
  if toLsn ≤ fromLsn then .ok ⟨[], fromLsn⟩
  else if fromLsn < dir.floorLsn then
    .error (.applier (s!"WAL stream start lsn {fromLsn} is below the recovery floor " ++
      s!"{dir.floorLsn}; segments have been recycled and the standby must re-base"))
  else readSegments fromLsn toLsn dir.survivors dir.floorLsn ⟨[], fromLsn⟩

/-! ## The range -/

structure Complete where
  bytes : Bytes
  recordType : RecordType
  decodes : decode bytes = .ok (recordType, bytes.length)

def concat (records : List Complete) : Bytes := records.flatMap (·.bytes)

/-- The records as the stream has them, from a position on. -/
def streamed : ℕ → List Complete → List WalStreamRecord
  | _, [] => []
  | pos, r :: rs => ⟨pos, pos + r.bytes.length, r.recordType, r.bytes⟩ ::
    streamed (pos + r.bytes.length) rs

/-- The files have these records, and the last one has some more bytes. -/
inductive Stored (files : List Bytes) : List Complete → Bytes → Prop
  | complete (full : List (List Complete)) : files = full.map concat → Stored files full.flatten []
  | followed (full : List (List Complete)) (last : List Complete) (tail : Bytes) :
    files = full.map concat ++ [concat last ++ tail] → Stored files (full.flatten ++ last) tail

/-- What follows the durable records does not disturb the reader. -/
def Undisturbed (toLsn : ℕ) (tail : Bytes) : Prop :=
  tail = [] ∨ ∃ t used, decode tail = .ok (t, used) ∧ toLsn + used < 2 ^ 64

variable {r : Complete} {rs : List Complete} {tail bytes : Bytes} {t : RecordType}
  {n pos fromLsn toLsn : ℕ} {s : WalStream}

theorem decode_ok (h : decode bytes = .ok (t, n)) (tail : Bytes) :
    28 ≤ n ∧ n ≤ bytes.length ∧ decode (bytes ++ tail) = .ok (t, n) := by
  simp only [decode] at h ⊢
  by_cases hlen : bytes.length < 28
  · rw [if_pos hlen] at h
    cases h
  rw [if_neg hlen] at h
  have hhead : (bytes ++ tail).take 28 = bytes.take 28 :=
    take_append_of_le_length (not_lt.1 hlen)
  rw [hhead, if_neg (by rw [length_append]; omega)]
  split at h
  · cases h
  · split_ifs at h with hflags hreserved hsmall hlarge htotal hcrc
    cases h
    refine ⟨not_lt.1 hsmall, not_lt.1 htotal, ?_⟩
    rw [if_neg hflags, if_neg hreserved, if_neg hsmall, if_neg hlarge,
      if_neg (by rw [length_append]; omega), take_append_of_le_length (not_lt.1 htotal),
      if_neg hcrc]

@[simp] theorem concat_nil : concat [] = [] := rfl

@[simp] theorem concat_cons (r : Complete) (rs : List Complete) :
    concat (r :: rs) = r.bytes ++ concat rs := flatMap_cons

@[simp] theorem concat_append (rs rs' : List Complete) :
    concat (rs ++ rs') = concat rs ++ concat rs' := flatMap_append

theorem streamed_append (pos : ℕ) (rs rs' : List Complete) :
    streamed pos (rs ++ rs') = streamed pos rs ++ streamed (pos + (concat rs).length) rs' := by
  induction rs generalizing pos with
  | nil => rfl
  | cons r rs ih => simp [streamed, ih, add_assoc]

theorem extent_of_mem {x : WalStreamRecord} (h : x ∈ streamed pos rs) :
    pos ≤ x.lsn ∧ x.lsn < x.endLsn ∧ x.endLsn ≤ pos + (concat rs).length := by
  induction rs generalizing pos with
  | nil => cases h
  | cons r rs ih =>
    rw [concat_cons, length_append]
    rcases mem_cons.1 h with rfl | h
    · have := (decode_ok r.decodes []).1
      dsimp only
      omega
    · have := ih h
      omega

/-- The records of the range, from a position on. -/
def inRange (fromLsn pos : ℕ) (rs : List Complete) : List WalStreamRecord :=
  (streamed pos rs).filter (fromLsn ≤ ·.lsn)

theorem inRange_append (rs rs' : List Complete) : inRange fromLsn pos (rs ++ rs') =
    inRange fromLsn pos rs ++ inRange fromLsn (pos + (concat rs).length) rs' := by
  rw [inRange, streamed_append, filter_append]
  rfl

/-- No record lies across the beginning of the range. -/
def Apart (fromLsn pos : ℕ) (rs : List Complete) : Prop :=
  ∀ x ∈ streamed pos rs, x.endLsn ≤ fromLsn ∨ fromLsn ≤ x.lsn

/-- **The reader takes the complete records**, and is then at what follows. -/
theorem readSegment_records {records : List WalStreamRecord} (hto : toLsn < 2 ^ 64)
    (hend : pos + (concat rs).length ≤ toLsn) (hb : Apart fromLsn pos rs)
    (hn : (concat rs ++ tail).length ≤ n) : ∃ m, tail.length ≤ m ∧
      readSegment fromLsn toLsn n (concat rs ++ tail) pos ⟨records, max fromLsn pos⟩ =
        readSegment fromLsn toLsn m tail (pos + (concat rs).length)
          ⟨records ++ inRange fromLsn pos rs, max fromLsn (pos + (concat rs).length)⟩ := by
  induction rs generalizing n pos records with
  | nil => exact ⟨n, hn, by simp [inRange, streamed]⟩
  | cons r rs ih =>
    obtain ⟨hpos, -, hdecode⟩ := decode_ok r.decodes (concat rs ++ tail)
    simp only [concat_cons, append_assoc, length_append] at hn hend ⊢
    obtain ⟨m, rfl⟩ := Nat.exists_eq_add_one.2 (show 0 < n by omega)
    have hne : r.bytes ++ (concat rs ++ tail) ≠ [] := by
      intro h
      rw [(append_eq_nil_iff.1 h).1] at hpos
      cases hpos
    simp only [readSegment, hne, if_false, hdecode, drop_left, take_left]
    rw [if_neg (by omega), if_neg (by omega)]
    have hrest := fun recs => @ih m (pos + r.bytes.length) recs (by omega)
      (fun x hx => hb x (mem_cons_of_mem _ hx)) (by rw [length_append]; omega)
    rw [add_assoc] at hrest
    by_cases hfrom : fromLsn ≤ pos
    · have htake : inRange fromLsn pos (r :: rs) = ⟨pos, pos + r.bytes.length, r.recordType,
          r.bytes⟩ :: inRange fromLsn (pos + r.bytes.length) rs :=
        filter_cons_of_pos (by simpa using hfrom)
      have hnext := hrest (records ++ [⟨pos, pos + r.bytes.length, r.recordType, r.bytes⟩])
      rw [append_assoc, max_eq_right (show fromLsn ≤ pos + r.bytes.length by omega)] at hnext
      rw [if_pos hfrom, htake]
      exact hnext
    · -- the record ends before the range
      have hbefore : pos + r.bytes.length ≤ fromLsn :=
        (hb _ mem_cons_self).resolve_right hfrom
      have hmax : max fromLsn pos = max fromLsn (pos + r.bytes.length) := by omega
      have hskip : inRange fromLsn pos (r :: rs) = inRange fromLsn (pos + r.bytes.length) rs :=
        filter_cons_of_neg (by simpa using hfrom)
      rw [if_neg hfrom, hmax, hskip]
      exact hrest records

/-- What follows the range stops the reader, or makes it fail. -/
theorem readSegment_tail (hnil : tail ≠ []) (hn : tail.length ≤ n) :
    (Undisturbed toLsn tail → readSegment fromLsn toLsn n tail toLsn s = .ok (true, toLsn, s)) ∧
      (¬ Undisturbed toLsn tail → ∃ e, readSegment fromLsn toLsn n tail toLsn s = .error e) := by
  obtain ⟨m, rfl⟩ := Nat.exists_eq_add_one.2 ((length_pos_iff.2 hnil).trans_le hn)
  simp only [readSegment, hnil, if_false]
  cases hdecode : decode tail with
  | error e =>
    refine ⟨fun h => ?_, fun _ => ⟨_, rfl⟩⟩
    obtain ⟨t, used, h, -⟩ := h.resolve_left hnil
    rw [hdecode] at h
    cases h
  | ok p =>
    obtain ⟨t, used⟩ := p
    obtain ⟨hused, -⟩ := decode_ok hdecode []
    refine ⟨fun h => ?_, fun h => ?_⟩
    · obtain ⟨t', used', h, hlt⟩ := h.resolve_left hnil
      rw [hdecode] at h
      cases h
      simp only
      rw [if_neg (by omega), if_pos (by omega)]
    · have hle : 2 ^ 64 ≤ toLsn + used := not_lt.1 fun hlt => h (.inr ⟨t, used, hdecode, hlt⟩)
      simp only
      rw [if_pos hle]
      exact ⟨_, rfl⟩

/-- **Segments without a tail.** -/
theorem readSegments_full {records : List WalStreamRecord} {full : List (List Complete)}
    {bufs : List Bytes} (hto : toLsn < 2 ^ 64) (hend : pos + (concat full.flatten).length ≤ toLsn)
    (hb : Apart fromLsn pos full.flatten) :
    readSegments fromLsn toLsn (full.map concat ++ bufs) pos ⟨records, max fromLsn pos⟩ =
      readSegments fromLsn toLsn bufs (pos + (concat full.flatten).length)
        ⟨records ++ inRange fromLsn pos full.flatten,
          max fromLsn (pos + (concat full.flatten).length)⟩ := by
  induction full generalizing pos records with
  | nil => simp [inRange, streamed]
  | cons rs full ih =>
    rw [flatten_cons, Apart, streamed_append] at hb
    rw [flatten_cons, concat_append, length_append] at hend ⊢
    obtain ⟨m, -, hseg⟩ := @readSegment_records rs [] _ pos fromLsn toLsn records hto (by omega)
      (fun x hx => hb x (mem_append_left _ hx)) le_rfl
    have hdone : ∀ {pos s}, readSegment fromLsn toLsn m [] pos s = .ok (false, pos, s) := by
      intro pos s
      cases m <;> simp [readSegment]
    rw [append_nil, hdone] at hseg
    simp only [map_cons, cons_append, readSegments, hseg]
    rw [ih (by omega) fun x hx => hb x (mem_append_right _ hx)]
    simp only [inRange_append, append_assoc, add_assoc]

theorem readSegments_eq {files : List Bytes} (h : Stored files rs tail) (hlsn : toLsn < 2 ^ 64)
    (hto : toLsn = pos + (concat rs).length) (hb : Apart fromLsn pos rs) :
    (Undisturbed toLsn tail → readSegments fromLsn toLsn files pos ⟨[], max fromLsn pos⟩ =
      .ok ⟨inRange fromLsn pos rs, max fromLsn toLsn⟩) ∧
    (¬ Undisturbed toLsn tail →
      ∃ e, readSegments fromLsn toLsn files pos ⟨[], max fromLsn pos⟩ = .error e) := by
  have hcomplete : ∀ full : List (List Complete), rs = full.flatten →
      readSegments fromLsn toLsn (full.map concat) pos ⟨[], max fromLsn pos⟩ =
        .ok ⟨inRange fromLsn pos rs, max fromLsn toLsn⟩ := by
    rintro full rfl
    rw [← append_nil (full.map concat), readSegments_full hlsn hto.ge hb, ← hto]
    rfl
  cases h with
  | complete full hfiles =>
    rw [hfiles]
    exact ⟨fun _ => hcomplete full rfl, fun h => absurd (.inl rfl) h⟩
  | followed full last tail hfiles =>
    by_cases hnil : tail = []
    · have hlast : files = (full ++ [last]).map concat := by simp [hfiles, hnil]
      rw [hlast]
      exact ⟨fun _ => hcomplete _ (by simp), fun h => absurd (.inl hnil) h⟩
    rw [Apart, streamed_append] at hb
    rw [concat_append, length_append] at hto
    obtain ⟨m, hm, hseg⟩ := @readSegment_records last tail _ (pos + (concat full.flatten).length)
      fromLsn toLsn (inRange fromLsn pos full.flatten) hlsn (by omega)
      (fun x hx => hb x (mem_append_right _ hx)) le_rfl
    rw [add_assoc, ← hto, ← inRange_append] at hseg
    obtain ⟨hok, herror⟩ := readSegment_tail
      (s := ⟨inRange fromLsn pos (full.flatten ++ last), max fromLsn toLsn⟩) hnil hm
    rw [hfiles, readSegments_full hlsn (by omega) fun x hx => hb x (mem_append_left _ hx),
      nil_append, readSegments, hseg]
    refine ⟨fun h => ?_, fun h => ?_⟩
    · rw [hok h]
    · obtain ⟨e, he⟩ := herror h
      exact ⟨e, by rw [he]⟩

/-- **The reader returns the records of the range**, exactly if what follows lets it. -/
theorem readWalRange_eq_iff (dir : WalDir) (records : List Complete) (tail : Bytes)
    (hdir : Stored dir.survivors records tail) (fromLsn toLsn k : ℕ)
    (hfrom : fromLsn = dir.floorLsn + (concat (records.take k)).length)
    (hto : toLsn = dir.floorLsn + (concat records).length) (hlsn : toLsn < 2 ^ 64) :
    readWalRange dir fromLsn toLsn = .ok ⟨(streamed dir.floorLsn records).filter fun x =>
      fromLsn ≤ x.lsn ∧ x.endLsn ≤ toLsn, toLsn⟩ ↔
        fromLsn = toLsn ∨ Undisturbed toLsn tail := by
  have hsplit : concat records = concat (records.take k) ++ concat (records.drop k) := by
    rw [← concat_append, take_append_drop]
  have hlen := congrArg length hsplit
  rw [length_append] at hlen
  unfold readWalRange
  by_cases hempty : toLsn ≤ fromLsn
  · have heq : fromLsn = toLsn := by omega
    rw [if_pos hempty, filter_eq_nil_iff.2 fun x hx => ?_, heq]
    · simp
    · have := extent_of_mem hx
      simp
      omega
  · have hb : Apart fromLsn dir.floorLsn records := by
      intro x hx
      rw [← take_append_drop k records, streamed_append, mem_append] at hx
      rcases hx with hx | hx
      · exact .inl (hfrom ▸ (extent_of_mem hx).2.2)
      · exact .inr (hfrom ▸ (extent_of_mem hx).1)
    have hall : (streamed dir.floorLsn records).filter (fun x =>
        fromLsn ≤ x.lsn ∧ x.endLsn ≤ toLsn) = inRange fromLsn dir.floorLsn records := by
      refine filter_congr fun x hx => ?_
      have := (extent_of_mem hx).2.2
      simp
      omega
    obtain ⟨hok, herror⟩ := readSegments_eq hdir hlsn hto hb
    rw [max_eq_left (by omega), max_eq_right (not_le.1 hempty).le] at hok
    rw [max_eq_left (by omega)] at herror
    rw [if_neg hempty, if_neg (by omega), hall, or_iff_right fun h => hempty h.ge]
    refine ⟨fun h => ?_, hok⟩
    by_contra hdist
    obtain ⟨e, he⟩ := herror hdist
    rw [he] at h
    cases h

/-- A record of type `Nop`. -/
def nop : Complete where
  bytes := [28, 0, 0, 0, 166, 243, 86, 91] ++ replicate 16 0 ++ [255, 0, 0, 0]
  recordType := .nop
  decodes := by decide +kernel

/-- Two records in two files. The second one is asked for while a third one is there already. -/
theorem second_record_is_read :
    readWalRange { segments := [(0, nop.bytes), (1, nop.bytes ++ nop.bytes)] } 28 56 =
      .ok ⟨[⟨28, 56, .nop, nop.bytes⟩], 56⟩ :=
  (readWalRange_eq_iff _ [nop, nop] nop.bytes (.followed [[nop]] [nop] _ rfl) 28 56 1 rfl rfl
    (by decide)).2 (.inr (.inr ⟨.nop, 28, nop.decodes, by decide⟩))

/-- **The first byte of the next record.** -/
theorem unfinished_record_is_an_error :
    Stored (WalDir.survivors { segments := [(0, nop.bytes ++ [28])] }) [nop] [28] ∧
    readWalRange { segments := [(0, nop.bytes ++ [28])] } 0 28 =
      .error (.record (.truncated 28 1)) :=
  ⟨.followed [] [nop] [28] rfl, by decide +kernel⟩

end UltraSql.WalReader
