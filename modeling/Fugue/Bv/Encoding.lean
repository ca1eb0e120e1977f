import Fugue.Bv.Api
import Fugue.Lib.Numeral
import Mathlib.Data.Nat.Digits.Defs

/-!
# Byte, text and serde encodings

The conversions as the two forms compute them: a narrow vector goes through the eight bytes of a
machine word, a wide one through the base-256 digits of its big natural, which have no leading
zeros, so that the padding is put back on the side of the high bytes. `Fugue.Bv.BitVec` has the
same conversions as arithmetic on the stored value, and the first section shows that they agree.
-/

namespace Fugue.Bv.Encoding

open Fugue.Lib Fugue.Bv.BitVec List Option
open Nat (mod_eq_of_lt toDigits)

/-- The natural number whose big-endian base-256 digits are `bytes`. -/
def ofBeBytes (bytes : List UInt8) : Nat :=
  bytes.foldl (fun value byte => 256 * value + byte.toNat) 0

/-- `Natural::to_power_of_2_digits_asc(8)`: no digit for the leading zeros. -/
def digitsAsc (value : Nat) : List UInt8 := (Nat.digits 256 value).map UInt8.ofNat

/-- `expect_buffer_size` (`lib.rs:38-43`). -/
def expectBufferSize (length bits : Nat) : Option Unit :=
  if length ≠ (bits + 7) / 8 then none else some ()

/-- `from_be_bytes_with` (`lib.rs:191-203`). -/
def fromBeBytesWith (buffer : List UInt8) (bits : Nat) : Option BitVec := do
  let metadata ← packMeta false bits
  expectBufferSize buffer.length bits
  return if bits ≤ 64 then
      fromSmall (ofBeBytes (List.replicate (8 - buffer.length) 0 ++ buffer)) metadata
    else fromLarge (ofBeBytes buffer) metadata

/-- `from_le_bytes_with` (`lib.rs:209-221`). -/
def fromLeBytesWith (buffer : List UInt8) (bits : Nat) : Option BitVec := do
  let metadata ← packMeta false bits
  expectBufferSize buffer.length bits
  return if bits ≤ 64 then
      fromSmall (ofLeBytes (buffer ++ List.replicate (8 - buffer.length) 0)) metadata
    else fromLarge (ofLeBytes buffer) metadata

/-- `to_be_bytes` (`lib.rs:858-868`) into a buffer of `length` bytes. -/
def toBeBytes (b : BitVec) (length : Nat) : Option (List UInt8) := do
  expectBufferSize length b.bits
  if b.isSmall then return (leBytes 8 b.small).reverse.drop (8 - length)
  else
    let digits := (digitsAsc b.large).reverse
    if digits.length ≤ length then return List.replicate (length - digits.length) 0 ++ digits
    else none

/-- `to_le_bytes` (`lib.rs:870-879`) into a buffer of `length` bytes. -/
def toLeBytes (b : BitVec) (length : Nat) : Option (List UInt8) := do
  expectBufferSize length b.bits
  if b.isSmall then return (leBytes 8 b.small).take length
  else
    let digits := digitsAsc b.large
    if digits.length ≤ length then return digits ++ List.replicate (length - digits.length) 0
    else none

/-- `ParseError` (`error.rs:7-15`). -/
inductive ParseError where
  | invalidConst
  | invalidFormat
  | invalidSize
  deriving DecidableEq, Repr

/-- `str::parse::<u32>`: digits, with an optional plus sign, of a number below `2 ^ 32`. -/
def parseU32 (text : List Char) : Option Nat :=
  let digits := match text with
    | '+' :: rest => rest
    | _ => text
  (parseDigits 10 digits).bind fun value => if value < 2 ^ 32 then some value else none

/-- How the big number library writes naturals and reads integers. -/
structure BigText where
  display : Nat → List Char
  lowerHex : Nat → List Char
  fromStringBase : Nat → List Char → Option Int

/-- What the big number library documents of its text forms: decimal digits, hexadecimal digits
in lower case after `0x`, and the positional value of a text of digits of the base. -/
structure BigText.Lawful (big : BigText) : Prop where
  display_eq : ∀ value, big.display value = Nat.toDigits 10 value
  lowerHex_eq : ∀ value, big.lowerHex value = '0' :: 'x' :: Nat.toDigits 16 value
  fromStringBase_eq : ∀ base ∈ [10, 16], ∀ text value, parseDigits base text = some value →
    big.fromStringBase base text = some (value : Int)

variable (big : BigText)

/-- `Display` (`lib.rs:45-53`). -/
def display (b : BitVec) : List Char :=
  (if b.isSmall then Nat.toDigits 10 b.small else big.display b.large) ++
    ':' :: Nat.toDigits 10 b.bits

/-- `LowerHex` (`lib.rs:55-63`), which is the form `{:#x}`. -/
def lowerHex (b : BitVec) : List Char :=
  (if b.isSmall then '0' :: 'x' :: Nat.toDigits 16 b.small else big.lowerHex b.large) ++
    ':' :: Nat.toDigits 10 b.bits

/-- `from_str` (`lib.rs:85-105`). -/
def fromStr (text : List Char) : Except ParseError (Option BitVec) := do
  let some (cst, sz) := rsplitOnce ':' text | throw .invalidFormat
  let value := match cst with
    | '0' :: 'x' :: cstv => big.fromStringBase 16 cstv
    | _ => big.fromStringBase 10 cst
  let some value := value | throw .invalidConst
  let some bits := parseU32 sz | throw .invalidSize
  if 1 ≤ bits ∧ bits ≤ maxBits then return fromBigint value bits else throw .invalidSize

/-- `Encoded` (`lib.rs:972-976`). -/
inductive Encoded where
  | large (value metadata : Nat)
  | small (value metadata : Nat)
  deriving DecidableEq, Repr

/-- A serde data format, on the derived form. -/
structure Format (Data : Type) where
  encode : Encoded → Data
  decode : Data → Option Encoded

/-- What a data format promises: it reads back what it wrote. -/
def Format.Lawful {Data : Type} (format : Format Data) : Prop :=
  ∀ encoded, format.decode (format.encode encoded) = some encoded

variable {Data : Type} (format : Format Data)

/-- `Serialize` (`lib.rs:978-996`). -/
def serialize (b : BitVec) : Data :=
  format.encode (if b.isSmall then .small b.small b.metadata else .large b.large b.metadata)

/-- `Deserialize` (`lib.rs:998-1018`). -/
def deserialize (data : Data) : Option BitVec :=
  match format.decode data with
  | some (.small value metadata) => deserializeSmall value metadata
  | some (.large value metadata) => deserializeLarge value metadata
  | none => none

section Bytes

variable {b : BitVec} {bits length value : Nat} {bytes buffer : List UInt8}

theorem ofLeBytes_append (low high : List UInt8) :
    ofLeBytes (low ++ high) = ofLeBytes low + 256 ^ low.length * ofLeBytes high := by
  induction low with
  | nil => simp [ofLeBytes]
  | cons byte low ih =>
    have head : ∀ rest, ofLeBytes (byte :: rest) = byte.toNat + 256 * ofLeBytes rest :=
      fun _ => rfl
    rw [cons_append, head, head, ih, length_cons, pow_succ']
    ring

theorem ofLeBytes_zeros (length : Nat) : ofLeBytes (List.replicate length 0) = 0 := by
  induction length with
  | zero => rfl
  | succ length ih =>
    show (0 : UInt8).toNat + 256 * ofLeBytes (List.replicate length 0) = 0
    rw [ih]
    rfl

theorem ofLeBytes_padded (padding : Nat) :
    ofLeBytes (buffer ++ List.replicate padding 0) = ofLeBytes buffer := by
  simp [ofLeBytes_append, ofLeBytes_zeros]

theorem ofBeBytes_eq : ofBeBytes bytes = ofLeBytes bytes.reverse := by
  rw [ofBeBytes, ofLeBytes, foldr_reverse]
  congr 1
  funext value byte
  exact add_comm _ _

theorem take_leBytes {total : Nat} (le : length ≤ total) :
    (leBytes total value).take length = leBytes length value := by
  induction length generalizing total value with
  | zero => rfl
  | succ length ih =>
    cases total with
    | zero => omega
    | succ total => simp [leBytes, ih (Nat.le_of_succ_le_succ le)]

theorem digitsAsc_padded (lt : value < 256 ^ length) :
    (digitsAsc value).length ≤ length ∧
      digitsAsc value ++ List.replicate (length - (digitsAsc value).length) 0 =
        leBytes length value := by
  induction length generalizing value with
  | zero =>
    have zero : value = 0 := by simpa using lt
    simp [zero, digitsAsc, leBytes]
  | succ length ih =>
    have smaller : value / 256 < 256 ^ length := by
      exact Nat.div_lt_of_lt_mul (by rwa [mul_comm])
    have rest := ih smaller
    by_cases zero : value = 0
    · subst zero
      have tail := rest.2
      simp only [digitsAsc, Nat.zero_div, Nat.digits_zero, map_nil, length_nil,
        nil_append, Nat.sub_zero] at tail
      simp [digitsAsc, leBytes, replicate_succ, tail]
    · have split : digitsAsc value = UInt8.ofNat value :: digitsAsc (value / 256) := by
        rw [digitsAsc, Nat.digits_def' (by decide) (by omega), map_cons, digitsAsc]
        congr 1
        apply UInt8.toNat_inj.mp
        simp
      rw [split, leBytes, length_cons, cons_append, Nat.succ_sub_succ, rest.2]
      exact ⟨Nat.succ_le_succ rest.1, rfl⟩

theorem toNat_lt_bytes (h : b.Valid) (fits : length = (b.bits + 7) / 8) :
    b.toNat < 256 ^ length := by
  have power : 256 ^ length = 2 ^ (8 * length) := by
    rw [pow_mul]
    norm_num
  rw [power]
  exact lt_of_lt_of_le h.toNat_lt (Nat.pow_le_pow_right (by decide) (by omega))

theorem toLeBytes_eq (h : b.Valid) (fits : length = (b.bits + 7) / 8) :
    toLeBytes b length = some (leBytes length b.toNat) := by
  rw [toLeBytes, expectBufferSize, if_neg (by simpa using fits)]
  simp only [some_bind, Option.pure_def]
  split
  · have small := isSmall_iff.mp ‹_›
    rw [h.small_eq small, take_leBytes (by omega)]
  · have padded := digitsAsc_padded (toNat_lt_bytes h fits)
    rw [h.large_eq (mt isSmall_iff.mpr ‹_›), if_pos padded.1, padded.2]

theorem toBeBytes_eq (h : b.Valid) (fits : length = (b.bits + 7) / 8) :
    toBeBytes b length = some (leBytes length b.toNat).reverse := by
  rw [toBeBytes, expectBufferSize, if_neg (by simpa using fits)]
  simp only [some_bind, Option.pure_def, length_reverse]
  split
  · have small := isSmall_iff.mp ‹_›
    rw [h.small_eq small, drop_reverse, length_leBytes, take_leBytes (by omega)]
    congr 3
    omega
  · have padded := digitsAsc_padded (toNat_lt_bytes h fits)
    rw [h.large_eq (mt isSmall_iff.mpr ‹_›), if_pos padded.1, ← padded.2, reverse_append,
      reverse_replicate]

theorem fromLeBytesWith_eq : fromLeBytesWith buffer bits = BitVec.fromLeBytesWith buffer bits := by
  unfold fromLeBytesWith BitVec.fromLeBytesWith expectBufferSize
  simp only [ofLeBytes_padded]
  by_cases fits : buffer.length = (bits + 7) / 8
  · simp [fits]
  · simp [fits]

theorem fromBeBytesWith_eq : fromBeBytesWith buffer bits = BitVec.fromBeBytesWith buffer bits := by
  unfold fromBeBytesWith BitVec.fromBeBytesWith BitVec.fromLeBytesWith expectBufferSize
  simp only [ofBeBytes_eq, reverse_append, reverse_replicate, ofLeBytes_padded, length_reverse]
  by_cases fits : buffer.length = (bits + 7) / 8
  · simp [fits]
  · simp [fits]

end Bytes

section RoundTrips

variable {b : BitVec} {n : Nat} {buffer : List UInt8}

/-- A little-endian buffer with the bits from `n` on cleared. -/
def clearAbove (n : Nat) : List UInt8 → List UInt8
  | [] => []
  | byte :: rest => UInt8.ofNat (byte.toNat % 2 ^ n) :: clearAbove (n - 8) rest

theorem leBytes_ofLeBytes_mod (n : Nat) (buffer : List UInt8) :
    leBytes buffer.length (ofLeBytes buffer % 2 ^ n) = clearAbove n buffer := by
  induction buffer generalizing n with
  | nil => rfl
  | cons byte rest ih =>
    have value : ofLeBytes (byte :: rest) = byte.toNat + 256 * ofLeBytes rest := rfl
    have below : byte.toNat < 256 := byte.toNat_lt
    rw [length_cons, leBytes, clearAbove, value]
    by_cases whole : 8 ≤ n
    · have power : 2 ^ n = 256 * 2 ^ (n - 8) := by
        rw [show 256 = 2 ^ 8 by rfl, ← pow_add, Nat.add_sub_cancel' whole]
      have keep : byte.toNat < 2 ^ n := by
        have := Nat.two_pow_pos (n - 8)
        omega
      have low : (byte.toNat + 256 * ofLeBytes rest) % 2 ^ n =
          byte.toNat + 256 * (ofLeBytes rest % 2 ^ (n - 8)) := by
        have quotient : (byte.toNat + 256 * ofLeBytes rest) / 256 = ofLeBytes rest := by omega
        have digit : (byte.toNat + 256 * ofLeBytes rest) % 256 = byte.toNat := by omega
        rw [power, Nat.mod_mul, quotient, digit]
      rw [low, mod_eq_of_lt keep, ← ih]
      congr 1
      · simp
      · congr 1
        omega
    · have power : 256 = 2 ^ n * 2 ^ (8 - n) := by
        rw [← pow_add, Nat.add_sub_cancel' (by omega)]
        norm_num
      have low : (byte.toNat + 256 * ofLeBytes rest) % 2 ^ n = byte.toNat % 2 ^ n := by
        rw [power, mul_assoc, Nat.add_mul_mod_self_left]
      have high : byte.toNat % 2 ^ n / 256 = ofLeBytes rest % 2 ^ (n - 8) := by
        rw [show n - 8 = 0 by omega, pow_zero, Nat.mod_one]
        exact Nat.div_eq_of_lt (lt_of_le_of_lt (Nat.mod_le _ _) below)
      rw [low, high, ih]

theorem fromLeBytesWith_stores (pos : 1 ≤ n) (le : n ≤ maxBits)
    (length : buffer.length = (n + 7) / 8) :
    ∃ w, fromLeBytesWith buffer n = some w ∧ w.Stores (2 * n) (ofLeBytes buffer % 2 ^ n) := by
  rw [fromLeBytesWith_eq, BitVec.fromLeBytesWith, packMeta_some pos le]
  simp only [some_bind, length, ne_eq, not_true_eq_false, if_false,
    Option.pure_def, some_inj, exists_eq_left']
  exact construct_stores false pos le (fun _ => rfl) (fun _ => rfl)

theorem fromBeBytesWith_stores (pos : 1 ≤ n) (le : n ≤ maxBits)
    (length : buffer.length = (n + 7) / 8) :
    ∃ w, fromBeBytesWith buffer n = some w ∧
      w.Stores (2 * n) (ofLeBytes buffer.reverse % 2 ^ n) := by
  rw [fromBeBytesWith_eq, BitVec.fromBeBytesWith, ← fromLeBytesWith_eq]
  exact fromLeBytesWith_stores pos le (by simpa using length)

theorem eq_of_stores {w : BitVec} (h : b.Valid) (stores : w.Stores (2 * b.bits) b.toNat) :
    w.eq b = true ∧ w.bits = b.bits := by
  have bitsEq : w.bits = b.bits := stores.bits_eq.trans (packed_bits false b.bits)
  exact ⟨(eq_iff stores.valid h).mpr ⟨bitsEq, stores.toNat_eq⟩, bitsEq⟩

theorem value_of_bytes (h : b.Valid) :
    ofLeBytes (leBytes ((b.bits + 7) / 8) b.toNat) % 2 ^ b.bits = b.toNat := by
  rw [ofLeBytes_leBytes, mod_eq_of_lt (toNat_lt_bytes h rfl), mod_eq_of_lt h.toNat_lt]

/-- `w` is a vector of width `n` that is equal to `b`. -/
def Restores (n : Nat) (b w : BitVec) : Prop := w.eq b = true ∧ w.bits = n

theorem littleEndian_round_trip (h : b.Valid) :
    ∃ bytes w, toLeBytes b ((b.bits + 7) / 8) = some bytes ∧
      fromLeBytesWith bytes b.bits = some w ∧ Restores b.bits b w := by
  obtain ⟨w, ran, stores⟩ := fromLeBytesWith_stores h.bits_pos h.bits_le
    (length_leBytes ((b.bits + 7) / 8) b.toNat)
  rw [value_of_bytes h] at stores
  exact ⟨_, w, toLeBytes_eq h rfl, ran, eq_of_stores h stores⟩

theorem bigEndian_round_trip (h : b.Valid) :
    ∃ bytes w, toBeBytes b ((b.bits + 7) / 8) = some bytes ∧
      fromBeBytesWith bytes b.bits = some w ∧ Restores b.bits b w := by
  have length : (leBytes ((b.bits + 7) / 8) b.toNat).reverse.length = (b.bits + 7) / 8 := by
    simp [length_leBytes]
  obtain ⟨w, ran, stores⟩ := fromBeBytesWith_stores h.bits_pos h.bits_le length
  rw [reverse_reverse, value_of_bytes h] at stores
  exact ⟨_, w, toBeBytes_eq h rfl, ran, eq_of_stores h stores⟩

theorem littleEndian_buffer (pos : 1 ≤ n) (le : n ≤ maxBits)
    (length : buffer.length = (n + 7) / 8) :
    ∃ w, fromLeBytesWith buffer n = some w ∧
      toLeBytes w buffer.length = some (clearAbove n buffer) := by
  obtain ⟨w, ran, stores⟩ := fromLeBytesWith_stores pos le length
  have bitsEq : w.bits = n := stores.bits_eq.trans (packed_bits false n)
  refine ⟨w, ran, ?_⟩
  rw [toLeBytes_eq stores.valid (by rw [bitsEq, length]), stores.toNat_eq, leBytes_ofLeBytes_mod]

theorem bigEndian_buffer (pos : 1 ≤ n) (le : n ≤ maxBits) (length : buffer.length = (n + 7) / 8) :
    ∃ w, fromBeBytesWith buffer n = some w ∧
      toBeBytes w buffer.length = some (clearAbove n buffer.reverse).reverse := by
  obtain ⟨w, ran, stores⟩ := fromBeBytesWith_stores pos le length
  have bitsEq : w.bits = n := stores.bits_eq.trans (packed_bits false n)
  refine ⟨w, ran, ?_⟩
  rw [toBeBytes_eq stores.valid (by rw [bitsEq, length]), stores.toNat_eq, ← length_reverse,
    leBytes_ofLeBytes_mod]

section Text

variable {big : BigText}

theorem parseU32_toDigits {bits : Nat} (lt : bits < 2 ^ 32) :
    parseU32 (toDigits 10 bits) = some bits := by
  have unsigned : '+' ∉ toDigits 10 bits := not_mem_toDigits (by decide) (by decide) (by decide)
  have parsed := parseDigits_toDigits (show 1 < 10 by decide) (by decide) bits
  unfold parseU32
  cases digits : toDigits 10 bits with
  | nil => exact absurd digits Nat.toDigits_ne_nil
  | cons c rest =>
    rw [digits] at unsigned parsed
    have first : c ≠ '+' := by
      intro plus
      simp [plus] at unsigned
    simpa [first, parsed] using lt

/-- What `from_str` reads of a number in either base and a size. -/
theorem fromStr_of_value (h : b.Valid) {cst : List Char} (read : (match cst with
      | '0' :: 'x' :: cstv => big.fromStringBase 16 cstv
      | _ => big.fromStringBase 10 cst) = some (b.toNat : Int)) :
    ∃ w, fromStr big (cst ++ ':' :: toDigits 10 b.bits) = .ok (some w) ∧
      Restores b.bits b w := by
  have sized : parseU32 (toDigits 10 b.bits) = some b.bits :=
    parseU32_toDigits (lt_of_le_of_lt h.bits_le (by decide))
  have absent : ':' ∉ toDigits 10 b.bits :=
    not_mem_toDigits (by decide) (by decide) (by decide)
  have cut : rsplitOnce ':' (cst ++ ':' :: toDigits 10 b.bits) =
      some (cst, toDigits 10 b.bits) := rsplitOnce_append absent
  obtain ⟨w, made, stores⟩ := fromBigint_spec (b.toNat : Int) h.bits_pos h.bits_le
  rw [residue_of_lt h.toNat_lt] at stores
  refine ⟨w, ?_, eq_of_stores h stores⟩
  unfold fromStr
  rw [cut]
  simp only [read, sized, h.bits_pos, h.bits_le, made]
  rfl

theorem readDecimal (lawful : big.Lawful) (value : Nat) :
    (match toDigits 10 value with
      | '0' :: 'x' :: cstv => big.fromStringBase 16 cstv
      | _ => big.fromStringBase 10 (toDigits 10 value)) = some (value : Int) := by
  have unmarked : 'x' ∉ toDigits 10 value := by
    intro mem
    obtain ⟨digit, lt, same⟩ := digitChar_of_mem_toDigits (by decide) mem
    interval_cases digit <;> exact absurd same (by decide)
  have parsed : big.fromStringBase 10 (toDigits 10 value) = some (value : Int) :=
    lawful.fromStringBase_eq 10 (by simp) _ _ (parseDigits_toDigits (by decide) (by decide) value)
  split
  · rename_i marked
    rw [marked] at unmarked
    simp at unmarked
  · exact parsed

theorem display_round_trip (lawful : big.Lawful) (h : b.Valid) :
    ∃ w, fromStr big (display big b) = .ok (some w) ∧ Restores b.bits b w := by
  have digits : (if b.isSmall then toDigits 10 b.small else big.display b.large) =
      toDigits 10 b.toNat := by
    split
    · rw [h.small_eq (isSmall_iff.mp ‹_›)]
    · rw [h.large_eq (mt isSmall_iff.mpr ‹_›), lawful.display_eq]
  rw [display, digits]
  exact fromStr_of_value h (readDecimal lawful b.toNat)

theorem lowerHex_round_trip (lawful : big.Lawful) (h : b.Valid) :
    ∃ w, fromStr big (lowerHex big b) = .ok (some w) ∧ Restores b.bits b w := by
  have digits : (if b.isSmall then '0' :: 'x' :: toDigits 16 b.small
      else big.lowerHex b.large) = '0' :: 'x' :: toDigits 16 b.toNat := by
    split
    · rw [h.small_eq (isSmall_iff.mp ‹_›)]
    · rw [h.large_eq (mt isSmall_iff.mpr ‹_›), lawful.lowerHex_eq]
  rw [lowerHex, digits]
  exact fromStr_of_value h (lawful.fromStringBase_eq 16 (by simp) _ _
    (parseDigits_toDigits (by decide) (by decide) b.toNat))

end Text

theorem serde_round_trip {Data : Type} {format : Format Data} (lawful : format.Lawful)
    (h : b.Valid) : deserialize format (serialize format b) = some b := by
  have pos := h.bits_pos
  have le := h.bits_le
  unfold deserialize serialize
  rw [lawful]
  by_cases small : b.bits ≤ 64
  · have stored := setSmall_stores h small (mod_eq_of_lt h.toNat_lt)
    have range : 1 ≤ b.metadata >>> 1 ∧ b.metadata >>> 1 ≤ 64 := ⟨pos, small⟩
    simp only [isSmall_iff.mpr small, if_true, deserializeSmall, range, and_self, h.small_eq small]
    exact congrArg some (stored.eq h.stores)
  · have stored := maskLarge_stores h small (mod_eq_of_lt h.toNat_lt)
    have range : 65 ≤ b.metadata >>> 1 ∧ b.metadata >>> 1 ≤ maxBits :=
      ⟨not_le.mp small, le⟩
    simp only [mt isSmall_iff.mp small, Bool.false_eq_true, if_false, deserializeLarge, range,
      and_self, if_true, h.large_eq small]
    exact congrArg some (stored.eq h.stores)

/-- The encodings of a vector of width `n`, and the buffers of that width, give back what went
in. -/
structure RoundTrips {Data : Type} (big : BigText) (format : Format Data) (n : Nat) (v : BitVec) :
    Prop where
  littleEndian : ∃ bytes w, toLeBytes v ((n + 7) / 8) = some bytes ∧
    fromLeBytesWith bytes n = some w ∧ Restores n v w
  bigEndian : ∃ bytes w, toBeBytes v ((n + 7) / 8) = some bytes ∧
    fromBeBytesWith bytes n = some w ∧ Restores n v w
  reversed : toBeBytes v ((n + 7) / 8) = (toLeBytes v ((n + 7) / 8)).map List.reverse
  display : ∃ w, fromStr big (display big v) = .ok (some w) ∧ Restores n v w
  lowerHex : ∃ w, fromStr big (lowerHex big v) = .ok (some w) ∧ Restores n v w
  serde : deserialize format (serialize format v) = some v
  littleEndianBuffer : ∀ buffer : List UInt8, buffer.length = (n + 7) / 8 →
    ∃ w, fromLeBytesWith buffer n = some w ∧
      toLeBytes w buffer.length = some (clearAbove n buffer)
  bigEndianBuffer : ∀ buffer : List UInt8, buffer.length = (n + 7) / 8 →
    ∃ w, fromBeBytesWith buffer n = some w ∧
      toBeBytes w buffer.length = some (clearAbove n buffer.reverse).reverse

/-- Byte, text and serde encodings round trip at every width. -/
theorem encodings_round_trip {Data : Type} (big : BigText) (bigLawful : big.Lawful)
    (format : Format Data) (formatLawful : format.Lawful) (n : Nat) (v : BitVec) (valid : v.Valid)
    (bits : v.bits = n) : RoundTrips big format n v := by
  subst bits
  exact {
    littleEndian := littleEndian_round_trip valid
    bigEndian := bigEndian_round_trip valid
    reversed := by rw [toBeBytes_eq valid rfl, toLeBytes_eq valid rfl, map_some]
    display := display_round_trip bigLawful valid
    lowerHex := lowerHex_round_trip bigLawful valid
    serde := serde_round_trip formatLawful valid
    littleEndianBuffer := fun _ => littleEndian_buffer valid.bits_pos valid.bits_le
    bigEndianBuffer := fun _ => bigEndian_buffer valid.bits_pos valid.bits_le }

/-- The round trips of the value 10 at 65 bits, with the sign flag. -/
theorem encodings_round_trip_wide :
    RoundTrips ⟨toDigits 10, fun value => '0' :: 'x' :: toDigits 16 value,
      fun base text => (parseDigits base text).map Int.ofNat⟩ (⟨id, some⟩ : Format Encoded) 65
      ⟨.large 10, 131⟩ := by
  refine encodings_round_trip _ ⟨fun _ => rfl, fun _ => rfl, fun base _ text value parsed => ?_⟩ _
    (fun _ => rfl) 65 ⟨.large 10, 131⟩ ⟨by decide, by decide, by decide, rfl⟩ rfl
  show (parseDigits base text).map Int.ofNat = some (value : Int)
  rw [parsed]
  rfl

end RoundTrips

end Fugue.Bv.Encoding
