import Fugue.Specs.PatternText

/-!
# Searching for patterns

The searches of `fugue-specs/src/pattern.rs`. A text is searched with an expression that is looser
than the pattern, and the mask decides about each match. What the regex engine finds is a parameter.
-/

namespace Fugue.Specs

/-- A byte that the item stands for. -/
def RegexItem.Fits : RegexItem → BitVec 8 → Prop
  | .dot, _ => True
  | .byte value, b => b = value

/-- The expression matches at the offset. -/
def RegexAt (regex : List RegexItem) (bytes : List (BitVec 8)) (offset : ℕ) : Prop :=
  ∀ (i : ℕ) (item : RegexItem), regex[i]? = some item →
    ∃ b, bytes[offset + i]? = some b ∧ item.Fits b

/-- The leftmost matches of the expression from the offset on, one after the other. -/
inductive Leftmost (regex : List RegexItem) (bytes : List (BitVec 8)) : ℕ → List (ℕ × ℕ) → Prop
  | nil {offset : ℕ} (none : ∀ o, offset ≤ o → ¬ RegexAt regex bytes o) :
    Leftmost regex bytes offset []
  | cons {offset start : ℕ} {found : List (ℕ × ℕ)} (le : offset ≤ start)
    (here : RegexAt regex bytes start)
    (first : ∀ o, offset ≤ o → o < start → ¬ RegexAt regex bytes o)
    (rest : Leftmost regex bytes (start + regex.length) found) :
    Leftmost regex bytes offset ((start, start + regex.length) :: found)

/-- Each byte under its mask is the one of the data. -/
def MaskedAt (data mask bytes : List (BitVec 8)) (offset : ℕ) : Prop :=
  ∀ (i : ℕ) (v m : BitVec 8), data[i]? = some v → mask[i]? = some m →
    ∃ b, bytes[offset + i]? = some b ∧ b &&& m = v

namespace Pattern

/-- The pattern fits in at the offset, and the bytes there under its mask are its data. -/
def MatchesAt (pattern : Pattern) (bytes : List (BitVec 8)) (offset : ℕ) : Prop :=
  MaskedAt pattern.data pattern.mask bytes offset

/-- `Pattern::is_match_at` (`pattern.rs:226-235`). -/
def isMatchAt (pattern : Pattern) (bytes : List (BitVec 8)) (offset : ℕ) : Bool :=
  offset < bytes.length && pattern.data.length ≤ bytes.length - offset &&
    (pattern.data.zip (bytes.zip pattern.mask)).all fun (v, b, m) => v == b &&& m

/-- `Pattern::is_match` (`pattern.rs:254-256`). -/
def isMatch (pattern : Pattern) (bytes : List (BitVec 8)) : Bool := pattern.isMatchAt bytes 0

/-- `Pattern::matches_end` (`pattern.rs:262-269`). -/
def matchesEnd (pattern : Pattern) (bytes : List (BitVec 8)) : Bool :=
  if bytes.length < pattern.data.length then false
  else pattern.isMatch (bytes.drop (bytes.length - pattern.data.length))

/-- `Pattern::matches_exact` (`pattern.rs:271-274`). -/
def matchesExact (pattern : Pattern) (bytes : List (BitVec 8)) : Bool :=
  bytes.length == pattern.data.length && pattern.isMatch bytes

/-- `Pattern::find_iter` (`pattern.rs:280-284`), where `find` is what the engine finds. -/
def findIter (find : List RegexItem → List (BitVec 8) → List (ℕ × ℕ)) (pattern : Pattern)
    (bytes : List (BitVec 8)) : List (ℕ × ℕ) :=
  (find pattern.regex bytes).filter fun m => pattern.isMatch (bytes.extract m.1 m.2)

end Pattern

/-- `PatternsWithContext` (`pattern.rs:636-643`). -/
structure PatternsWithContext (Context Confidence : Type) where
  patterns : List Pattern
  context : Context
  confidence : Confidence

/-- `PatternGroup` (`pattern.rs:557-567`). -/
structure PatternGroup (Context Confidence : Type) where
  totalBits : ℕ
  postPatterns : PatternsWithContext Context Confidence
  prePatterns : List Pattern

section Slices

variable {Context Confidence : Type} (find : List RegexItem → List (BitVec 8) → List (ℕ × ℕ))
  (patterns : PatternsWithContext Context Confidence) (group : PatternGroup Context Confidence)
  (bytes : List (BitVec 8))

/-- `PatternsWithContext::matches` (`pattern.rs:685-701`). -/
def PatternsWithContext.matches : List ((ℕ × ℕ) × Context × Confidence) :=
  patterns.patterns.flatMap fun pattern =>
    (find pattern.regex bytes).filterMap fun m =>
      if pattern.isMatch (bytes.extract m.1 m.2) then
        some (m, patterns.context, patterns.confidence)
      else none

/-- `PatternsWithContext::matches_exact` (`pattern.rs:714-718`). -/
def PatternsWithContext.matchesExact : Bool :=
  patterns.patterns.any fun pattern => pattern.matchesExact bytes

/-- `PatternGroup::matches` (`pattern.rs:570-604`). -/
def PatternGroup.matches : List ((ℕ × ℕ) × Context × Confidence) :=
  group.postPatterns.patterns.flatMap fun pattern =>
    (find pattern.regex bytes).filterMap fun m =>
      if m.1 = 0 then none
      else if pattern.isMatch (bytes.extract m.1 m.2) && group.prePatterns.any fun pre =>
          pre.matchesEnd (bytes.take m.1) && decide (group.totalBits ≤ pre.bits + pattern.bits) then
        some (m, group.postPatterns.context, group.postPatterns.confidence)
      else none

end Slices

end Fugue.Specs
