import Mathlib

/-!
# Byte patterns

`Pattern` (`fugue-specs/src/pattern.rs`): bytes under a mask, read from a text and printed as one. A
token of the text is two hexadecimal digits or eight binary ones, with dots for what is left open,
and the reader tells them apart by how far the run of such characters goes. Whether the two regex
engines accept the expression for a pattern is a parameter.
-/

namespace Fugue.Specs

/-- One item of the generated expression: `.`, or `\x` and the digits of the byte. -/
inductive RegexItem where
  | dot
  | byte (value : BitVec 8)
  deriving DecidableEq, Repr

/-- The kinds of `PatternError::Parse` that `from_str` reports. -/
inductive ErrorKind where
  | many1 | mapRes | complete
  deriving DecidableEq, Repr

/-- `Pattern` (`pattern.rs:32-39`); `regex` is what both matchers are built from. -/
structure Pattern where
  data : List (BitVec 8)
  mask : List (BitVec 8)
  regex : List RegexItem
  bits : ℕ
  deriving DecidableEq, Repr

/-- The value and the mask of a byte. -/
abbrev MaskedByte := BitVec 8 × BitVec 8

namespace Pattern

/-- `HTABLE` (`pattern.rs:41-43`). -/
def htable (digit : BitVec 8) : Char := digit.toNat.digitChar

/-- `VTABLE_02` (`pattern.rs:45-60`). -/
def vtable02 (c : Char) : BitVec 8 := if c = '1' then 1 else 0

/-- `MTABLE_02` (`pattern.rs:62-77`). -/
def mtable02 (c : Char) : BitVec 8 := if c = '.' then 0 else 1

/-- `VTABLE_16` (`pattern.rs:79-94`). -/
def vtable16 (c : Char) : BitVec 8 :=
  if '1'.toNat ≤ c.toNat ∧ c.toNat ≤ '9'.toNat then .ofNat 8 (c.toNat - '0'.toNat)
  else if 'A'.toNat ≤ c.toNat ∧ c.toNat ≤ 'F'.toNat then .ofNat 8 (c.toNat - 'A'.toNat + 10)
  else if 'a'.toNat ≤ c.toNat ∧ c.toNat ≤ 'f'.toNat then .ofNat 8 (c.toNat - 'a'.toNat + 10)
  else 0

/-- `MTABLE_16` (`pattern.rs:96-111`). -/
def mtable16 (c : Char) : BitVec 8 := if c = '.' then 0 else 0xf

/-- The characters of a hexadecimal token. -/
def hexClass : List Char :=
  ['0', '1', '2', '3', '4', '5', '6', '7', '8', '9', 'a', 'b', 'c', 'd', 'e', 'f',
    'A', 'B', 'C', 'D', 'E', 'F', '.']

/-- The characters of a binary token. -/
def binClass : List Char := ['0', '1', '.']

/-- `is_a`: the longest run of some characters, which must not be empty, and what follows it. -/
def isA (set input : List Char) : Option (List Char × List Char) :=
  let run := input.takeWhile fun c => decide (c ∈ set)
  if run = [] then none else some (input.dropWhile fun c => decide (c ∈ set), run)

/-- The byte of two hexadecimal digits (`pattern.rs:120-131`). -/
def hexByte (b0 b1 : Char) : MaskedByte :=
  (vtable16 b0 <<< 4 ||| vtable16 b1, mtable16 b0 <<< 4 ||| mtable16 b1)

/-- `Pattern::parse_hex` (`pattern.rs:114-132`). -/
def parseHex (input : List Char) : Option (List Char × MaskedByte) := do
  match ← isA hexClass input with
  | (input, [b0, b1]) => return (input, hexByte b0 b1)
  | _ => none

/-- The byte of eight binary digits, each through a table (`pattern.rs:142-167`). -/
def binByte (table : Char → BitVec 8) (b0 b1 b2 b3 b4 b5 b6 b7 : Char) : BitVec 8 :=
  table b0 <<< 7 ||| table b1 <<< 6 ||| table b2 <<< 5 ||| table b3 <<< 4 ||| table b4 <<< 3 |||
    table b5 <<< 2 ||| table b6 <<< 1 ||| table b7

/-- `Pattern::parse_bin` (`pattern.rs:134-170`). -/
def parseBin (input : List Char) : Option (List Char × MaskedByte) := do
  match ← isA binClass input with
  | (input, [b0, b1, b2, b3, b4, b5, b6, b7]) =>
    return (input, binByte vtable02 b0 b1 b2 b3 b4 b5 b6 b7,
      binByte mtable02 b0 b1 b2 b3 b4 b5 b6 b7)
  | _ => none

/-- `Pattern::parse_one` (`pattern.rs:172-174`). -/
def parseOne (input : List Char) : Option (List Char × MaskedByte) :=
  (parseHex input).or (parseBin input)

/-- A space or a tab. -/
def isSpace (c : Char) : Bool := c = ' ' || c = '\t'

/-- `space0`: what follows the spaces and tabs. -/
def space0 (input : List Char) : List Char := input.dropWhile isSpace

/-- `delimited(space0, Self::parse_one, space0)` (`pattern.rs:178`). -/
def delimited (input : List Char) : Option (List Char × MaskedByte) := do
  let (input, byte) ← parseOne (space0 input)
  return (space0 input, byte)

/-- The rounds of `fold_many1`, up to the first that fails. A round uses up a character, so the
length of the text is fuel enough. -/
def foldMany : ℕ → List Char → List MaskedByte × List Char
  | 0, input => ([], input)
  | fuel + 1, input =>
    match delimited input with
    | none => ([], input)
    | some (rest, byte) =>
      let (bytes, last) := foldMany fuel rest
      (byte :: bytes, last)

/-- The item of the expression for a byte (`pattern.rs:183-188`). -/
def item (byte : MaskedByte) : RegexItem := if byte.2 ≠ 0xff then .dot else .byte byte.1

/-- The pattern of some bytes (`pattern.rs:179-190`, `pattern.rs:212-223`). -/
def ofBytes (bytes : List MaskedByte) : Pattern where
  data := bytes.map Prod.fst
  mask := bytes.map Prod.snd
  regex := bytes.map item
  bits := ((bytes.map Prod.snd).map fun m => m.cpop.toNat).sum

variable (norm cursorNorm : List RegexItem → Bool)

/-- `Pattern::parse` (`pattern.rs:176-224`), where `norm` and `cursorNorm` say which expressions the
engines can be built from. -/
def parse (input : List Char) : Except ErrorKind (List Char × Pattern) :=
  match foldMany input.length input with
  | ([], _) => .error .many1
  | (bytes, rest) =>
    let pattern := ofBytes bytes
    if norm pattern.regex && cursorNorm pattern.regex then .ok (rest, pattern) else .error .mapRes

/-- `Pattern::from_str` (`pattern.rs:340-350`). -/
def fromStr (s : List Char) : Except ErrorKind Pattern := do
  let (input, pattern) ← parse norm cursorNorm s
  if input ≠ [] then .error .complete else return pattern

end Pattern

end Fugue.Specs
