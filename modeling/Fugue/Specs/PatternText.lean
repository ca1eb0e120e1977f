import Fugue.Specs.Pattern

/-!
# The text of a pattern

Which texts `Pattern::from_str` accepts, as a grammar (`Spelled`), and that it reads back what was
printed.
-/

namespace Fugue.Specs.Pattern

open List

/-- The text of one byte, and what it stands for. -/
inductive Token : List Char → MaskedByte → Prop
  | hex {b0 b1 : Char} (digits : ∀ c ∈ [b0, b1], c ∈ hexClass) :
    Token [b0, b1] (hexByte b0 b1)
  | bin {b0 b1 b2 b3 b4 b5 b6 b7 : Char}
    (digits : ∀ c ∈ [b0, b1, b2, b3, b4, b5, b6, b7], c ∈ binClass) :
    Token [b0, b1, b2, b3, b4, b5, b6, b7]
      (binByte vtable02 b0 b1 b2 b3 b4 b5 b6 b7, binByte mtable02 b0 b1 b2 b3 b4 b5 b6 b7)

/-- A text of tokens with spaces and tabs before and after them, where `ends` says what may follow a
token. -/
inductive Spelled (ends : List Char → List Char → Prop) : List MaskedByte → List Char → Prop
  | nil : Spelled ends [] []
  | cons {before token after rest : List Char} {byte : MaskedByte} {bytes : List MaskedByte}
    (blank : ∀ c ∈ before, isSpace c = true) (reads : Token token byte)
    (blank' : ∀ c ∈ after, isSpace c = true) (end_ : ends token (after ++ rest))
    (spelled : Spelled ends bytes rest) :
    Spelled ends (byte :: bytes) (before ++ (token ++ (after ++ rest)))

/-- No character of the set is next. -/
def Stops (set rest : List Char) : Prop := ∀ c ∈ rest.head?, c ∉ set

/-- Nothing that could belong to the token follows it. -/
def RunEnds (token rest : List Char) : Prop :=
  Stops (if token.length = 2 then hexClass else binClass) rest

/-- A space or a tab follows, or nothing. -/
def Separated (_ rest : List Char) : Prop := ∀ c ∈ rest.head?, isSpace c = true

variable {norm cursorNorm : List RegexItem → Bool} {input rest token : List Char}
  {byte : MaskedByte} {bytes : List MaskedByte} {ends : List Char → List Char → Prop}

/-! ## One token -/

theorem isA_append {set run : List Char} (nonempty : run ≠ []) (all : ∀ c ∈ run, c ∈ set)
    (stops : Stops set rest) : isA set (run ++ rest) = some (rest, run) := by
  have holds : ∀ c ∈ run, decide (c ∈ set) = true := by simpa using all
  have ends : rest.takeWhile (fun c => decide (c ∈ set)) = [] ∧
      rest.dropWhile (fun c => decide (c ∈ set)) = rest := by
    cases rest with
    | nil => simp
    | cons c rest => simp [stops c rfl]
  simp [isA, takeWhile_append_of_pos holds, dropWhile_append_of_pos holds, ends, nonempty]

theorem isA_eq_some {set run : List Char} (found : isA set input = some (rest, run)) :
    input = run ++ rest ∧ (∀ c ∈ run, c ∈ set) ∧ Stops set rest := by
  unfold isA at found
  dsimp only at found
  split at found
  · cases found
  · cases found
    refine ⟨(takeWhile_append_dropWhile).symm, ?_, ?_⟩
    · intro c mem
      exact of_decide_eq_true (@mem_takeWhile_imp _ (fun c => decide (c ∈ set)) _ _ mem)
    · intro c next
      have out := head?_dropWhile_not (fun c => decide (c ∈ set)) input
      rw [Option.mem_def.mp next] at out
      simpa using out

theorem binClass_subset : ∀ c ∈ binClass, c ∈ hexClass := by simp [binClass, hexClass]

theorem parseOne_eq_some : parseOne input = some (rest, byte) ↔
    ∃ token, input = token ++ rest ∧ Token token byte ∧ RunEnds token rest := by
  constructor
  · intro found
    unfold parseOne at found
    rcases Option.or_eq_some_iff.mp found with hex | ⟨-, bin⟩
    · unfold parseHex at hex
      obtain ⟨⟨last, run⟩, run_, read⟩ := Option.bind_eq_some_iff.mp hex
      obtain ⟨split_, digits, stops⟩ := isA_eq_some run_
      split at read
      · rename_i eq
        cases eq
        cases read
        exact ⟨_, split_, .hex digits, stops⟩
      · cases read
    · unfold parseBin at bin
      obtain ⟨⟨last, run⟩, run_, read⟩ := Option.bind_eq_some_iff.mp bin
      obtain ⟨split_, digits, stops⟩ := isA_eq_some run_
      split at read
      · rename_i eq
        cases eq
        cases read
        exact ⟨_, split_, .bin digits, stops⟩
      · cases read
  · rintro ⟨token, rfl, reads, stops⟩
    cases reads with
    | hex digits =>
      unfold parseOne parseHex
      rw [isA_append (cons_ne_nil _ _) digits stops]
      rfl
    | bin digits =>
      -- the run is too long for a hexadecimal token
      have holds := fun c mem => decide_eq_true (binClass_subset c (digits c mem))
      unfold parseOne parseHex isA
      dsimp only
      rw [takeWhile_append_of_pos holds, parseBin, isA_append (cons_ne_nil _ _) digits stops]
      rfl

/-! ## The whole text -/

theorem Token.head (reads : Token token byte) :
    ∃ c rest, token = c :: rest ∧ isSpace c = false := by
  have none : ∀ c ∈ hexClass, isSpace c = false := by simp [hexClass, isSpace]
  cases reads with
  | hex digits => exact ⟨_, _, rfl, none _ (digits _ (.head _))⟩
  | bin digits => exact ⟨_, _, rfl, none _ (binClass_subset _ (digits _ (.head _)))⟩

theorem space0_append {before : List Char} (blank : ∀ c ∈ before, isSpace c = true)
    (rest : List Char) : space0 (before ++ rest) = space0 rest :=
  dropWhile_append_of_pos blank

theorem space0_token (reads : Token token byte) (rest : List Char) :
    space0 (token ++ rest) = token ++ rest := by
  obtain ⟨c, last, rfl, solid⟩ := reads.head
  exact dropWhile_cons_of_neg (by simp [solid])

theorem exists_blanks (input : List Char) :
    ∃ before, (∀ c ∈ before, isSpace c = true) ∧ input = before ++ space0 input :=
  ⟨_, fun _ => mem_takeWhile_imp, (takeWhile_append_dropWhile).symm⟩

theorem delimited_eq_some : delimited input = some (rest, byte) ↔
    ∃ before token after, (∀ c ∈ before, isSpace c = true) ∧ Token token byte ∧
      RunEnds token after ∧ input = before ++ (token ++ after) ∧ rest = space0 after := by
  unfold delimited
  rw [Option.bind_eq_bind, Option.bind_eq_some_iff]
  constructor
  · rintro ⟨⟨after, byte'⟩, one, eq⟩
    cases eq
    obtain ⟨token, split_, reads, stops⟩ := parseOne_eq_some.mp one
    obtain ⟨before, blank, whole⟩ := exists_blanks input
    rw [split_] at whole
    exact ⟨before, token, after, blank, reads, stops, whole, rfl⟩
  · rintro ⟨before, token, after, blank, reads, stops, rfl, rfl⟩
    rw [space0_append blank, space0_token reads]
    exact ⟨(after, byte), parseOne_eq_some.mpr ⟨token, rfl, reads, stops⟩, rfl⟩

theorem spelled_of_foldMany (fuel : ℕ) : ∀ {input : List Char} {bytes : List MaskedByte},
    foldMany fuel input = (bytes, []) → Spelled RunEnds bytes input := by
  induction fuel with
  | zero =>
    intro input bytes run
    cases run
    exact .nil
  | succ fuel ih =>
    intro input bytes run
    unfold foldMany at run
    split at run
    · cases run
      exact .nil
    · rename_i rest byte one
      obtain ⟨before, token, after, blank, reads, stops, rfl, rfl⟩ := delimited_eq_some.mp one
      obtain ⟨blanks, blank', eq⟩ := exists_blanks after
      obtain ⟨rfl, last⟩ := Prod.mk.inj run
      have spelled := ih (Prod.ext rfl last)
      generalize space0 after = rest at eq spelled ⊢
      subst eq
      exact .cons blank reads blank' stops spelled

theorem Spelled.foldMany (spelled : Spelled RunEnds bytes input) :
    ∀ fuel, input.length ≤ fuel → Pattern.foldMany fuel (space0 input) = (bytes, []) ∧
      (bytes ≠ [] → Pattern.foldMany fuel input = (bytes, [])) := by
  induction spelled with
  | nil =>
    intro fuel _
    refine ⟨?_, fun some_ => absurd rfl some_⟩
    cases fuel with
    | zero => rfl
    | succ fuel => rfl
  | @cons before token after rest byte bytes blank reads blank' stops _ ih =>
    intro fuel le
    obtain ⟨c, last, eq, -⟩ := reads.head
    cases fuel with
    | zero =>
      rw [eq] at le
      simp at le
    | succ fuel =>
      have short : rest.length ≤ fuel := by
        rw [eq] at le
        simp only [length_append, length_cons] at le
        omega
      have whole : ∀ before : List Char, (∀ c ∈ before, isSpace c = true) →
          Pattern.foldMany (fuel + 1) (before ++ (token ++ (after ++ rest))) =
            (byte :: bytes, []) := by
        intro before blank
        unfold Pattern.foldMany
        rw [delimited_eq_some.mpr ⟨before, token, after ++ rest, blank, reads, stops, rfl, rfl⟩]
        dsimp only
        rw [space0_append blank', (ih fuel short).1]
      refine ⟨?_, fun _ => whole before blank⟩
      rw [space0_append blank, space0_token reads]
      exact whole [] nofun

/-- What `from_str` accepts, and the pattern that it returns. -/
theorem fromStr_eq_ok {pattern : Pattern} : fromStr norm cursorNorm input = .ok pattern ↔
    ∃ bytes, bytes ≠ [] ∧ Spelled RunEnds bytes input ∧ pattern = ofBytes bytes ∧
      norm pattern.regex = true ∧ cursorNorm pattern.regex = true := by
  constructor
  · intro call
    unfold fromStr parse at call
    split at call
    · cases call
    · rename_i bytes rest some_ run
      dsimp only at call
      split at call
      · rename_i built
        rw [Bool.and_eq_true] at built
        change (if rest ≠ [] then _ else _) = _ at call
        split at call
        · cases call
        · rename_i nil
          cases call
          rw [not_not.mp nil] at run
          exact ⟨bytes, some_, spelled_of_foldMany _ run, rfl, built⟩
      · cases call
  · rintro ⟨bytes, some_, spelled, rfl, built⟩
    unfold fromStr parse
    rw [(spelled.foldMany _ le_rfl).2 some_]
    cases bytes with
    | nil => exact absurd rfl some_
    | cons byte bytes =>
      dsimp only
      rw [if_pos (by rw [Bool.and_eq_true]; exact built)]
      rfl

/-! ## Printing -/

/-- The byte has no bits outside of its mask. -/
def Masked (v m : BitVec 8) : Prop := ∀ i, v.getLsbD i = true → m.getLsbD i = true

section Masked

variable {a b ma mb v m : BitVec 8}

theorem masked_iff : Masked v m ↔ v &&& m = v := by
  constructor
  · intro masked
    refine BitVec.eq_of_getLsbD_eq fun i _ => ?_
    rw [BitVec.getLsbD_and, Bool.and_eq_left_iff_imp]
    exact masked i
  · intro eq i
    rw [← eq, BitVec.getLsbD_and, Bool.and_eq_true]
    exact And.right

theorem masked_or (left : Masked a ma) (right : Masked b mb) : Masked (a ||| b) (ma ||| mb) := by
  intro i
  rw [BitVec.getLsbD_or, BitVec.getLsbD_or, Bool.or_eq_true, Bool.or_eq_true]
  exact Or.imp (left i) (right i)

theorem masked_shiftLeft (masked : Masked a ma) (k : ℕ) : Masked (a <<< k) (ma <<< k) := by
  rw [masked_iff] at *
  rw [← BitVec.shiftLeft_and_distrib, masked]

theorem Token.masked (reads : Token token byte) : Masked byte.1 byte.2 := by
  cases reads with
  | hex digits =>
    have masked : ∀ c ∈ hexClass, Masked (vtable16 c) (mtable16 c) := by
      simp [hexClass, masked_iff, vtable16, mtable16]
    simp only [forall_mem_cons] at digits
    exact masked_or (masked_shiftLeft (masked _ digits.1) 4) (masked _ digits.2.1)
  | bin digits =>
    have masked : ∀ c ∈ binClass, Masked (vtable02 c) (mtable02 c) := by
      simp [binClass, masked_iff, vtable02, mtable02]
    have shifted := fun c mem => masked_shiftLeft (masked c mem)
    simp only [forall_mem_cons] at digits
    obtain ⟨d0, d1, d2, d3, d4, d5, d6, d7, -⟩ := digits
    exact masked_or (masked_or (masked_or (masked_or (masked_or (masked_or (masked_or
      (shifted _ d0 7) (shifted _ d1 6)) (shifted _ d2 5)) (shifted _ d3 4)) (shifted _ d4 3))
      (shifted _ d5 2)) (shifted _ d6 1)) (masked _ d7)

/-- A bit as a byte. -/
def bit (b : Bool) : BitVec 8 := if b then 1 else 0

/-- The digit that is printed for a bit. -/
def digit (v m : BitVec 8) (i : ℕ) : Char :=
  if m >>> i &&& 1 = 0 then '.' else htable (v >>> i &&& 1)

end Masked

theorem Spelled.masked (spelled : Spelled ends bytes input) :
    ∀ byte ∈ bytes, Masked byte.1 byte.2 := by
  induction spelled with
  | nil => exact nofun
  | cons _ reads _ _ _ ih => exact forall_mem_cons.mpr ⟨reads.masked, ih⟩

end Fugue.Specs.Pattern
