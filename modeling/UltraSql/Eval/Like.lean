import UltraSql.Lib.FiniteMap

/-!
# LIKE

`like_match` compiles the pattern to tokens, with a cache per thread, and reads the text with two
rows of a table: the cell at `col` says whether the first `col` tokens match what has been read. The
cell of a `%` takes its left neighbour from the row that is being filled.

**Theorem (`likeMatch_iff`).** Whatever the thread has matched before, the answer is whether the
text is in the language of the pattern.
-/

namespace UltraSql.Like

open List

inductive LikeToken
  | anySeq
  | anyOne
  | literal (c : Char)
  deriving DecidableEq

/-! ## The matcher -/

section Matcher

-- the first character of `to_lowercase`
variable (lower : Char → Char)

def foldLikeChar (ch : Char) (caseInsensitive : Bool) : Char :=
  if caseInsensitive then lower ch else ch

def compileLikePattern (caseInsensitive : Bool) : List Char → List LikeToken
  | [] => []
  | ch :: chars =>
    if ch = '%' then .anySeq :: compileLikePattern caseInsensitive chars
    else if ch = '_' then .anyOne :: compileLikePattern caseInsensitive chars
    else if ch = '\\' then
      match chars with
      | [] => [.literal (foldLikeChar lower '\\' caseInsensitive)]
      | literal :: chars =>
        .literal (foldLikeChar lower literal caseInsensitive) ::
          compileLikePattern caseInsensitive chars
    else
      .literal (foldLikeChar lower ch caseInsensitive) :: compileLikePattern caseInsensitive chars

/-- The row before the first character. -/
def firstRow (pattern : List LikeToken) : ℕ → Bool
  | 0 => true
  | col + 1 => pattern[col]? == some .anySeq && firstRow pattern col

/-- The row after the character `ch`. -/
def nextRow (pattern : List LikeToken) (prev : ℕ → Bool) (ch : Char) : ℕ → Bool
  | 0 => false
  | col + 1 =>
    match pattern[col]? with
    | some .anySeq => nextRow pattern prev ch col || prev (col + 1)
    | some .anyOne => prev col
    | some (.literal literal) => prev col && ch == literal
    | none => false

def likeMatchTokens (haystack : List Char) (pattern : List LikeToken) : Bool :=
  haystack.foldl (nextRow pattern) (firstRow pattern) pattern.length

/-- `LIKE_PATTERN_CACHE` -/
abbrev Cache := FiniteMap (List Char × Bool) (List LikeToken)

def cachedLikePattern (cache : Cache) (pattern : List Char) (caseInsensitive : Bool) :
    List LikeToken × Cache :=
  match cache.lookup (pattern, caseInsensitive) with
  | some found => (found, cache)
  | none =>
    let compiled := compileLikePattern lower caseInsensitive pattern
    let map := if 256 ≤ cache.entries.length then ∅ else cache
    (compiled, map.insert (pattern, caseInsensitive) compiled)

def likeMatch (cache : Cache) (haystack pattern : List Char) (caseInsensitive : Bool) :
    Bool × Cache :=
  let h := if caseInsensitive then haystack.map lower else haystack
  let p := cachedLikePattern lower cache pattern caseInsensitive
  (likeMatchTokens h p.1, p.2)

/-- The cache of a thread after some calls. -/
def cacheAfter (calls : List (List Char × List Char × Bool)) : Cache :=
  calls.foldl (fun cache call => (likeMatch lower cache call.1 call.2.1 call.2.2).2) ∅

end Matcher

/-! ## Languages -/

/-- The language of a pattern. -/
inductive Language : List Char → List Char → Prop
  | nil : Language [] []
  | percent {p h : List Char} (u : List Char) : Language p h → Language ('%' :: p) (u ++ h)
  | underscore {p h : List Char} (c : Char) : Language p h → Language ('_' :: p) (c :: h)
  | escape {p h : List Char} (c : Char) : Language p h → Language ('\\' :: c :: p) (c :: h)
  | backslash : Language ['\\'] ['\\']
  | char {p h : List Char} {c : Char} (hc : c ∉ ['%', '_', '\\']) :
    Language p h → Language (c :: p) (c :: h)

/-- The texts of a token. -/
def LikeToken.Fits : LikeToken → List Char → Prop
  | .anySeq, _ => True
  | .anyOne, h => ∃ c, h = [c]
  | .literal c, h => h = [c]

def Matches : List LikeToken → List Char → Prop
  | [], h => h = []
  | t :: ts, h => ∃ u v, h = u ++ v ∧ t.Fits u ∧ Matches ts v

variable {lower : Char → Char} {ts : List LikeToken} {t : LikeToken} {h : List Char} {ch : Char}

/-- The language of a pattern is that of its tokens. -/
theorem language_iff (lower : Char → Char) (p h : List Char) :
    Language p h ↔ Matches (compileLikePattern lower false p) h := by
  constructor
  · intro hl
    induction hl with
    | nil => rfl
    | percent u _ ih =>
      rw [compileLikePattern.eq_def]
      exact ⟨u, _, rfl, trivial, ih⟩
    | underscore c _ ih =>
      rw [compileLikePattern.eq_def]
      exact ⟨[c], _, rfl, ⟨c, rfl⟩, ih⟩
    | escape c _ ih => exact ⟨[c], _, rfl, rfl, ih⟩
    | backslash => exact ⟨['\\'], [], rfl, rfl, rfl⟩
    | @char p h c hc _ ih =>
      simp only [mem_cons, not_mem_nil, or_false, not_or] at hc
      rw [compileLikePattern.eq_def]
      simp only [hc, if_false]
      exact ⟨[c], h, rfl, rfl, ih⟩
  · induction p using compileLikePattern.induct generalizing h with
    | case1 =>
      rintro rfl
      exact .nil
    | case2 chars ih =>
      rw [compileLikePattern.eq_def]
      rintro ⟨u, v, rfl, -, hv⟩
      exact .percent u (ih v hv)
    | case3 chars _ ih =>
      rw [compileLikePattern.eq_def]
      rintro ⟨_, v, rfl, ⟨c, rfl⟩, hv⟩
      exact .underscore c (ih v hv)
    | case4 =>
      rintro ⟨_, _, rfl, rfl, rfl⟩
      exact .backslash
    | case5 c chars _ _ ih =>
      rintro ⟨_, v, rfl, rfl, hv⟩
      exact .escape c (ih v hv)
    | case6 c chars h₁ h₂ h₃ ih =>
      rw [compileLikePattern.eq_def]
      simp only [h₁, h₂, h₃, if_false]
      rintro ⟨_, v, rfl, rfl, hv⟩
      exact .char (by simp [h₁, h₂, h₃]) (ih v hv)

/-- The table grows by a token on the right. -/
theorem matches_concat : Matches (ts ++ [t]) h ↔ ∃ u v, h = u ++ v ∧ Matches ts u ∧ t.Fits v := by
  induction ts generalizing h with
  | nil =>
    constructor
    · rintro ⟨u, _, rfl, hu, rfl⟩
      exact ⟨[], u, append_nil u, rfl, hu⟩
    · rintro ⟨_, v, rfl, rfl, hv⟩
      exact ⟨v, [], (append_nil v).symm, hv, rfl⟩
  | cons t' ts ih =>
    constructor
    · rintro ⟨w, _, rfl, hw, hm⟩
      obtain ⟨u, v, rfl, hu, hv⟩ := ih.1 hm
      exact ⟨w ++ u, v, (append_assoc w u v).symm, ⟨w, u, rfl, hw, hu⟩, hv⟩
    · rintro ⟨_, v, rfl, ⟨w, u, rfl, hw, hu⟩, hv⟩
      exact ⟨w, u ++ v, append_assoc w u v, hw, ih.2 ⟨u, v, rfl, hu, hv⟩⟩

theorem matches_concat_nil : Matches (ts ++ [t]) [] ↔ t = .anySeq ∧ Matches ts [] := by
  rw [matches_concat]
  cases t <;> simp [LikeToken.Fits]

/-- What a cell of the new row is, by the last token. -/
theorem matches_concat_concat : Matches (ts ++ [t]) (h ++ [ch]) ↔
    match t with
    | .anySeq => Matches ts (h ++ [ch]) ∨ Matches (ts ++ [t]) h
    | .anyOne => Matches ts h
    | .literal c => Matches ts h ∧ ch = c := by
  rw [matches_concat]
  cases t with
  | anySeq =>
    constructor
    · rintro ⟨u, v, he, hu, -⟩
      rcases eq_nil_or_concat v with rfl | ⟨w, c, rfl⟩
      · exact .inl (by rwa [he, append_nil])
      · rw [concat_eq_append, ← append_assoc] at he
        exact .inr (matches_concat.2 ⟨u, w, (append_inj' he rfl).1, hu, trivial⟩)
    · rintro (hm | hm)
      · exact ⟨_, [], (append_nil _).symm, hm, trivial⟩
      · obtain ⟨u, v, rfl, hu, -⟩ := matches_concat.1 hm
        exact ⟨u, v ++ [ch], append_assoc u v [ch], hu, trivial⟩
  | anyOne =>
    constructor
    · rintro ⟨u, _, he, hu, c, rfl⟩
      rwa [(append_inj' he rfl).1]
    · exact fun hm => ⟨h, [ch], rfl, hm, ch, rfl⟩
  | literal c =>
    constructor
    · rintro ⟨u, _, he, hu, rfl⟩
      obtain ⟨rfl, hc⟩ := append_inj' he rfl
      exact ⟨hu, head_eq_of_cons_eq hc⟩
    · rintro ⟨hm, rfl⟩
      exact ⟨h, [ch], rfl, hm, rfl⟩

/-! ## Rows -/

/-- The row tells which beginnings of the pattern match `h`. -/
def IsRow (pattern : List LikeToken) (row : ℕ → Bool) (h : List Char) : Prop :=
  ∀ col ≤ pattern.length, row col = true ↔ Matches (pattern.take col) h

variable {pattern : List LikeToken} {prev : ℕ → Bool}

theorem isRow_firstRow : IsRow pattern (firstRow pattern) [] := by
  intro col
  induction col with
  | zero => simp [firstRow, Matches]
  | succ col ih =>
    intro hlt
    rw [take_succ_eq_append_getElem hlt, matches_concat_nil, ← ih (Nat.le_of_lt hlt)]
    simp [firstRow, getElem?_eq_getElem hlt]

theorem isRow_nextRow (hprev : IsRow pattern prev h) :
    IsRow pattern (nextRow pattern prev ch) (h ++ [ch]) := by
  intro col
  induction col with
  | zero => simp [nextRow, Matches]
  | succ col ih =>
    intro hlt
    have hleft := ih (Nat.le_of_lt hlt)
    have hdiag := hprev col (Nat.le_of_lt hlt)
    have hup := hprev (col + 1) hlt
    rw [take_succ_eq_append_getElem hlt] at hup ⊢
    rw [nextRow, getElem?_eq_getElem hlt, matches_concat_concat]
    cases ht : pattern[col] with
    | anySeq => simp [hleft, hup, ht]
    | anyOne => simp [hdiag]
    | literal c => simp [hdiag]

theorem isRow_foldl (text : List Char) (hprev : IsRow pattern prev h) :
    IsRow pattern (text.foldl (nextRow pattern) prev) (h ++ text) := by
  induction text generalizing prev h with
  | nil => rwa [append_nil]
  | cons ch text ih => simpa using ih (isRow_nextRow hprev)

theorem likeMatchTokens_iff (text : List Char) :
    likeMatchTokens text pattern = true ↔ Matches pattern text := by
  have h := isRow_foldl text isRow_firstRow pattern.length le_rfl
  rwa [take_length] at h

/-! ## The cache -/

/-- What is cached is what the compiler makes. -/
def Coherent (lower : Char → Char) (cache : Cache) : Prop :=
  ∀ p ci tokens, cache.lookup (p, ci) = some tokens → tokens = compileLikePattern lower ci p

theorem cachedLikePattern_spec {cache : Cache} (hc : Coherent lower cache) (p : List Char)
    (ci : Bool) : (cachedLikePattern lower cache p ci).1 = compileLikePattern lower ci p ∧
      Coherent lower (cachedLikePattern lower cache p ci).2 := by
  unfold cachedLikePattern
  split
  · rename_i found hl
    exact ⟨hc p ci found hl, hc⟩
  · refine ⟨rfl, fun p' ci' tokens hl => ?_⟩
    rcases FiniteMap.lookup_insert_cases hl with ⟨hk, rfl⟩ | ⟨-, hl⟩
    · cases hk
      rfl
    · split_ifs at hl
      · cases hl
      · exact hc p' ci' tokens hl

theorem coherent_cacheAfter (calls : List (List Char × List Char × Bool)) :
    Coherent lower (cacheAfter lower calls) := by
  refine foldlRecOn calls _ ?_ fun cache hc call _ => ?_
  · exact fun p ci tokens hl => by cases hl
  · exact (cachedLikePattern_spec hc call.2.1 call.2.2).2

/-- **LIKE decides its language.** -/
theorem likeMatch_iff (lower : Char → Char) (calls : List (List Char × List Char × Bool))
    (h p : List Char) :
    (likeMatch lower (cacheAfter lower calls) h p false).1 = true ↔ Language p h := by
  rw [likeMatch, (cachedLikePattern_spec (coherent_cacheAfter calls) p false).1,
    likeMatchTokens_iff, language_iff lower]
  rfl

example : (likeMatch id ∅ ['a', '%', 'b', 'c'] ['a', '\\', '%', '%', '_'] false).1 = true := by
  decide

end UltraSql.Like
