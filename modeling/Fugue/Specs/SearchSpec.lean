import Fugue.Specs.Search

/-!
# What a search finds

Which matches of a pattern `find_iter` misses, and which matches a group of patterns reports.
-/

namespace Fugue.Specs

open List

variable {data mask bytes : List (BitVec 8)} {offset : ℕ} {v m : BitVec 8} {pattern : Pattern}
  {regex : List RegexItem} {found : List (ℕ × ℕ)}

/-! ## Bytes under a mask -/

theorem maskedAt_cons : MaskedAt (v :: data) (m :: mask) bytes offset ↔
    (∃ b, bytes[offset]? = some b ∧ b &&& m = v) ∧ MaskedAt data mask bytes (offset + 1) := by
  constructor
  · intro masked
    refine ⟨masked 0 v m rfl rfl, fun i v' m' isData isMask => ?_⟩
    simpa [add_assoc, add_comm 1] using masked (i + 1) v' m' isData isMask
  · rintro ⟨first, rest⟩ i v' m' isData isMask
    cases i with
    | zero =>
      cases isData
      cases isMask
      exact first
    | succ i => simpa [add_assoc, add_comm 1] using rest i v' m' isData isMask

theorem maskedAt_window {text : List (BitVec 8)}
    (window : ∀ i < data.length, text[i]? = bytes[offset + i]?) :
    MaskedAt data mask text 0 ↔ MaskedAt data mask bytes offset := by
  unfold MaskedAt
  refine forall_congr' fun i => forall_congr' fun v => forall_congr' fun m =>
    forall_congr' fun isData => ?_
  rw [zero_add, window i (List.getElem?_eq_some_iff.mp isData).1]

theorem all_iff_maskedAt (same : data.length = mask.length) (le : data.length ≤ bytes.length) :
    ((data.zip (bytes.zip mask)).all fun (v, b, m) => v == b &&& m) = true ↔
      MaskedAt data mask bytes 0 := by
  induction data generalizing mask bytes with
  | nil => simp [MaskedAt]
  | cons v data ih =>
    cases mask with
    | nil => simp at same
    | cons m mask =>
      cases bytes with
      | nil => simp at le
      | cons b bytes =>
        have shift : MaskedAt data mask bytes 0 ↔ MaskedAt data mask (b :: bytes) 1 :=
          maskedAt_window fun i _ => by simp [add_comm 1]
        rw [maskedAt_cons, ← shift, ← ih (by simpa using same) (by simpa using le)]
        simp [@eq_comm _ v]

namespace Pattern

/-- The patterns that `parse` builds. -/
def Parsed (pattern : Pattern) : Prop := ∃ bytes, bytes ≠ [] ∧ pattern = ofBytes bytes

theorem parsed_of_fromStr {norm cursorNorm : List RegexItem → Bool} {text : List Char}
    (read : fromStr norm cursorNorm text = .ok pattern) : pattern.Parsed := by
  obtain ⟨bytes, some_, -, eq, -⟩ := fromStr_eq_ok.mp read
  exact ⟨bytes, some_, eq⟩

section Slice

variable (parsed : pattern.Parsed)

include parsed

theorem Parsed.lengths : pattern.mask.length = pattern.data.length ∧
    pattern.regex.length = pattern.data.length ∧ 0 < pattern.data.length := by
  obtain ⟨bytes, some_, rfl⟩ := parsed
  simp [ofBytes, List.length_pos_iff, some_]

theorem MatchesAt.le (matches_ : pattern.MatchesAt bytes offset) :
    offset + pattern.data.length ≤ bytes.length := by
  obtain ⟨same, -, pos⟩ := parsed.lengths
  have last : pattern.data.length - 1 < pattern.data.length := by omega
  obtain ⟨b, there, -⟩ := matches_ _ _ _ (List.getElem?_eq_getElem last)
    (List.getElem?_eq_getElem (same ▸ last))
  have := (List.getElem?_eq_some_iff.mp there).1
  omega

theorem isMatchAt_iff : pattern.isMatchAt bytes offset = true ↔
    offset + pattern.data.length ≤ bytes.length ∧ pattern.MatchesAt bytes 0 := by
  obtain ⟨same, -, pos⟩ := parsed.lengths
  unfold isMatchAt
  rw [Bool.and_eq_true, Bool.and_eq_true, decide_eq_true_iff, decide_eq_true_iff]
  constructor
  · rintro ⟨⟨lt, le⟩, all⟩
    exact ⟨by omega, (all_iff_maskedAt same.symm (by omega)).mp all⟩
  · rintro ⟨le, masked⟩
    exact ⟨⟨by omega, by omega⟩, (all_iff_maskedAt same.symm (by omega)).mpr masked⟩

theorem isMatch_window {text : List (BitVec 8)} (length : pattern.data.length ≤ text.length)
    (window : ∀ i < pattern.data.length, text[i]? = bytes[offset + i]?) :
    pattern.isMatch text = true ↔ pattern.MatchesAt bytes offset := by
  unfold isMatch
  rw [isMatchAt_iff parsed]
  have iff_ : pattern.MatchesAt text 0 ↔ pattern.MatchesAt bytes offset := maskedAt_window window
  rw [iff_, and_iff_right_iff_imp]
  intro _
  omega

theorem isMatch_extract (le : offset + pattern.data.length ≤ bytes.length) :
    pattern.isMatch (bytes.extract offset (offset + pattern.data.length)) = true ↔
      pattern.MatchesAt bytes offset := by
  refine isMatch_window parsed (by simp; omega) fun i lt => ?_
  simp [lt]

theorem matchesEnd_iff (le : offset ≤ bytes.length) :
    pattern.matchesEnd (bytes.take offset) = true ↔
      pattern.data.length ≤ offset ∧ pattern.MatchesAt bytes (offset - pattern.data.length) := by
  unfold matchesEnd
  have length : (bytes.take offset).length = offset := by simpa using le
  rw [length]
  split
  · rename_i short
    simp [not_le.mpr short]
  · rename_i long
    rw [isMatch_window parsed (by simp; omega) fun i lt => ?_, and_iff_right (by omega)]
    have inside : offset - pattern.data.length + i < offset := by omega
    simp [inside]

theorem regexAt_of_matchesAt (matches_ : pattern.MatchesAt bytes offset) :
    RegexAt pattern.regex bytes offset := by
  obtain ⟨whole, some_, rfl⟩ := parsed
  intro i entry get
  simp only [ofBytes, List.getElem?_map, Option.map_eq_some_iff] at get
  obtain ⟨byte, at_, rfl⟩ := get
  obtain ⟨b, there, eq⟩ :=
    matches_ i byte.1 byte.2 (by simp [ofBytes, at_]) (by simp [ofBytes, at_])
  refine ⟨b, there, ?_⟩
  unfold item
  split
  · trivial
  · rename_i full
    rw [not_not.mp full] at eq
    exact (BitVec.and_allOnes (x := b)).symm.trans eq

end Slice

end Pattern

/-! ## The slice -/

theorem Leftmost.sound (leftmost : Leftmost regex bytes offset found) :
    ∀ m ∈ found, offset ≤ m.1 ∧ m.2 = m.1 + regex.length ∧ RegexAt regex bytes m.1 := by
  induction leftmost with
  | nil => simp
  | cons le here _ _ ih =>
    rintro m (_ | ⟨_, mem⟩)
    · exact ⟨le, rfl, here⟩
    · obtain ⟨le', rest⟩ := ih m mem
      exact ⟨by omega, rest⟩

theorem Leftmost.covers (leftmost : Leftmost regex bytes offset found) {o : ℕ} (le : offset ≤ o)
    (here : RegexAt regex bytes o) : ∃ m ∈ found, m.1 ≤ o ∧ o < m.2 := by
  induction leftmost with
  | nil none => exact absurd here (none o le)
  | @cons offset start found _ _ first _ ih =>
    by_cases before : o < start
    · exact absurd here (first o le before)
    · by_cases inside : o < start + regex.length
      · exact ⟨_, .head _, by omega, inside⟩
      · obtain ⟨m, mem, within⟩ := ih (by omega)
        exact ⟨m, .tail _ mem, within⟩

theorem Leftmost.unique (leftmost : Leftmost regex bytes offset found) {o : ℕ} {p q : ℕ × ℕ}
    (mem : p ∈ found) (mem' : q ∈ found) (at_ : p.1 ≤ o ∧ o < p.2) (at' : q.1 ≤ o ∧ o < q.2) :
    p = q := by
  induction leftmost with
  | nil => cases mem
  | cons _ _ _ rest ih =>
    rcases mem_cons.mp mem with rfl | later <;> rcases mem_cons.mp mem' with rfl | later'
    · rfl
    · have := (rest.sound q later').1
      omega
    · have := (rest.sound p later).1
      omega
    · exact ih later later'

theorem PatternsWithContext.matches_eq {find : List RegexItem → List (BitVec 8) → List (ℕ × ℕ)}
    {Context Confidence : Type}
    (patterns : PatternsWithContext Context Confidence) :
    patterns.matches find bytes = patterns.patterns.flatMap fun pattern =>
      (pattern.findIter find bytes).map fun p => (p, patterns.context, patterns.confidence) := by
  unfold PatternsWithContext.matches Pattern.findIter
  congr 1
  funext pattern
  rw [← filterMap_eq_map', filterMap_filter]

namespace Pattern

variable {find : List RegexItem → List (BitVec 8) → List (ℕ × ℕ)}

theorem mem_findIter (parsed : pattern.Parsed)
    (leftmost : Leftmost pattern.regex bytes 0 (find pattern.regex bytes)) {p : ℕ × ℕ} :
    p ∈ pattern.findIter find bytes ↔
      p ∈ find pattern.regex bytes ∧ pattern.MatchesAt bytes p.1 := by
  unfold findIter
  rw [mem_filter]
  apply and_congr_right
  intro mem
  obtain ⟨-, length, pos⟩ := parsed.lengths
  obtain ⟨-, end_, here⟩ := leftmost.sound p mem
  have last : pattern.data.length - 1 < pattern.regex.length := by omega
  obtain ⟨b, there, -⟩ := here _ _ (getElem?_eq_getElem last)
  have := (List.getElem?_eq_some_iff.mp there).1
  rw [end_, length]
  exact isMatch_extract parsed (by omega)

/-- A search misses a match only inside of one that the expression finds and the mask refuses. -/
theorem findIter_complete_iff (parsed : pattern.Parsed)
    (leftmost : Leftmost pattern.regex bytes 0 (find pattern.regex bytes)) :
    (((∀ o, pattern.MatchesAt bytes o → ∃ p ∈ pattern.findIter find bytes,
        p.1 = o ∨ p.1 < o ∧ o < p.2) ∧
      ∀ p ∈ pattern.findIter find bytes, pattern.MatchesAt bytes p.1) ↔
        ∀ p ∈ find pattern.regex bytes, ¬ pattern.MatchesAt bytes p.1 →
          ∀ o, p.1 < o → o < p.2 → ¬ pattern.MatchesAt bytes o) ∧
      ∀ {Context Confidence : Type} (patterns : PatternsWithContext Context Confidence),
        patterns.matches find bytes = patterns.patterns.flatMap fun pattern =>
          (pattern.findIter find bytes).map fun p =>
            (p, patterns.context, patterns.confidence) := by
  obtain ⟨-, length, pos⟩ := parsed.lengths
  refine ⟨⟨?_, ?_⟩, ?_⟩
  · rintro ⟨complete, -⟩ p mem refused o lt lt' matches_
    obtain ⟨q, reported, at_⟩ := complete o matches_
    obtain ⟨mem', accepted⟩ := (mem_findIter parsed leftmost).mp reported
    have end_ := (leftmost.sound q mem').2.1
    rw [leftmost.unique mem mem' ⟨by omega, lt'⟩ ⟨by omega, by omega⟩] at refused
    exact refused accepted
  · intro condition
    refine ⟨fun o matches_ => ?_, fun p mem => ((mem_findIter parsed leftmost).mp mem).2⟩
    obtain ⟨p, mem, le, lt⟩ := leftmost.covers (Nat.zero_le o)
      (regexAt_of_matchesAt parsed matches_)
    have accepted : pattern.MatchesAt bytes p.1 := by
      by_cases same : p.1 = o
      · rwa [same]
      · by_contra refused
        exact condition p mem refused o (by omega) lt matches_
    exact ⟨p, (mem_findIter parsed leftmost).mpr ⟨mem, accepted⟩, by omega⟩
  · exact fun patterns => patterns.matches_eq

theorem regexAt_dots (n : ℕ) : RegexAt (List.replicate (n + 1) .dot) bytes offset ↔
    offset + n < bytes.length := by
  constructor
  · intro here
    obtain ⟨b, there, -⟩ := here n .dot (by simp)
    exact (List.getElem?_eq_some_iff.mp there).1
  · intro lt i entry get
    rw [getElem?_replicate] at get
    split at get
    · cases get
      exact ⟨_, getElem?_eq_getElem (by omega), trivial⟩
    · cases get

/-- The high half of a byte is zero. -/
def nibble : Pattern := ofBytes [(0x00, 0xf0)]

theorem nibble_parsed : nibble.Parsed := ⟨_, cons_ne_nil _ _, rfl⟩

theorem nibble_leftmost : Leftmost nibble.regex [0x10, 0x01] 0 [(0, 1), (1, 2)] :=
  .cons le_rfl ((regexAt_dots 0).mpr (by decide)) (fun _ _ => nofun)
    (.cons le_rfl ((regexAt_dots 0).mpr (by decide)) (fun o le lt => by
      change 1 ≤ o at le
      omega)
      (.nil fun o le here => by
        have lt := (regexAt_dots 0).mp here
        change 2 ≤ o at le
        change o < 2 at lt
        omega))

theorem findIter_complete_iff_nibble :
    ∃ p ∈ nibble.findIter (fun _ _ => [(0, 1), (1, 2)]) [0x10, 0x01],
      p.1 = 1 ∨ p.1 < 1 ∧ 1 < p.2 :=
  ((findIter_complete_iff nibble_parsed nibble_leftmost).1.mpr (by
    simp only [forall_mem_cons]
    exact ⟨fun _ o _ _ => by omega, fun _ o _ _ => by omega, nofun⟩)).1 1
      (maskedAt_cons.mpr ⟨⟨1, rfl, rfl⟩, nofun⟩)

/-- The expression finds two bytes that the mask refuses, and the search goes on after them. -/
theorem findIter_swallows :
    let pattern := ofBytes [(0x00, 0xf0), (0x00, 0xf0)]
    let bytes : List (BitVec 8) := [0x10, 0x01, 0x02]
    fromStr (fun _ => true) (fun _ => true) ['0', '.', ' ', '0', '.'] = .ok pattern ∧
      Leftmost pattern.regex bytes 0 [(0, 2)] ∧ pattern.MatchesAt bytes 1 ∧
      pattern.findIter (fun _ _ => [(0, 2)]) bytes = [] :=
  ⟨rfl, .cons le_rfl ((regexAt_dots 1).mpr (by decide)) (fun _ _ => nofun)
    (.nil fun o le here => by
      have lt := (regexAt_dots 1).mp here
      change 2 ≤ o at le
      change o + 1 < 3 at lt
      omega), maskedAt_cons.mpr ⟨⟨1, rfl, rfl⟩, maskedAt_cons.mpr ⟨⟨2, rfl, rfl⟩, nofun⟩⟩, rfl⟩

end Pattern

namespace PatternGroup

variable {Context Confidence : Type} {group : PatternGroup Context Confidence}
  {find : List RegexItem → List (BitVec 8) → List (ℕ × ℕ)}

/-- A group reports a match of a post-pattern exactly when a pre-pattern ends where it starts and
the two have bits enough; the match at the very start is none of these. -/
theorem mem_matches
    (parsed : ∀ pattern ∈ group.postPatterns.patterns ++ group.prePatterns, pattern.Parsed)
    (leftmost : ∀ pattern ∈ group.postPatterns.patterns,
      Leftmost pattern.regex bytes 0 (find pattern.regex bytes)) (entry) :
    entry ∈ group.matches find bytes ↔ entry.2 = (group.postPatterns.context,
      group.postPatterns.confidence) ∧ ∃ post ∈ group.postPatterns.patterns,
        entry.1 ∈ post.findIter find bytes ∧ ∃ pre ∈ group.prePatterns,
          group.totalBits ≤ pre.bits + post.bits ∧ pre.data.length ≤ entry.1.1 ∧
            pre.MatchesAt bytes (entry.1.1 - pre.data.length) := by
  have matched {post} (mem : post ∈ group.postPatterns.patterns) {m}
      (found : m ∈ find post.regex bytes) :
      (post.isMatch (bytes.extract m.1 m.2) && group.prePatterns.any fun pre =>
        pre.matchesEnd (bytes.take m.1) && decide (group.totalBits ≤ pre.bits + post.bits)) = true ↔
      m ∈ post.findIter find bytes ∧ ∃ pre ∈ group.prePatterns,
        group.totalBits ≤ pre.bits + post.bits ∧ pre.data.length ≤ m.1 ∧
          pre.MatchesAt bytes (m.1 - pre.data.length) := by
    have kept : m ∈ post.findIter find bytes ↔ _ := mem_filter
    rw [Bool.and_eq_true, any_eq_true, kept, and_iff_right found]
    refine and_congr_right fun accepted => exists_congr fun pre => and_congr_right fun preMem => ?_
    have parsed' := parsed post (mem_append_left _ mem)
    have inside := ((Pattern.mem_findIter parsed' (leftmost post mem)).mp
      (kept.mpr ⟨found, accepted⟩)).2.le parsed'
    rw [Bool.and_eq_true, Pattern.matchesEnd_iff (parsed pre (mem_append_right _ preMem))
      (by omega), decide_eq_true_iff, and_comm]
  unfold «matches»
  simp only [mem_flatMap, mem_filterMap, Option.ite_none_left_eq_some, Option.ite_none_right_eq_some,
    Option.some.injEq]
  constructor
  · rintro ⟨post, mem, m, found, -, holds, rfl⟩
    exact ⟨rfl, post, mem, (matched mem found).mp holds⟩
  · rintro ⟨rest, post, mem, here, pre⟩
    have found := (mem_filter.mp here).1
    refine ⟨post, mem, entry.1, found, ?_, (matched mem found).mpr ⟨here, pre⟩, ?_⟩
    · obtain ⟨pre, preMem, -, le, -⟩ := pre
      have := (parsed pre (mem_append_right _ preMem)).lengths.2.2
      omega
    · rw [← rest]

theorem mem_matches_nibble : ((1, 2), (), ()) ∈
    (PatternGroup.mk 8 ⟨[.nibble], (), ()⟩ [.ofBytes [(0x10, 0xf0)]]).matches
      (fun _ _ => [(0, 1), (1, 2)]) [0x10, 0x01] := by
  refine (mem_matches ?_ ?_ _).mpr ⟨rfl, _, .head _, by decide, _, .head _, by decide, by decide,
    maskedAt_cons.mpr ⟨⟨0x10, rfl, rfl⟩, nofun⟩⟩
  · simpa using ⟨Pattern.nibble_parsed, _, cons_ne_nil _ _, rfl⟩
  · simpa using Pattern.nibble_leftmost

end PatternGroup

end Fugue.Specs
