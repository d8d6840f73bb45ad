/-
# Writing integers

The integer part of `kernel/debug/emit.hpp` and the two integer formatters of
`kernel/debug/formatter.hpp`, over the emitters of `kernel/debug/kprint.cpp`.  What is
written is a list of characters, in the order in which `console_write` receives them.  The
digits of a number are produced in a buffer that is exactly as long as they can get, the
last one first; a digit behind its end would be lost to the buffer, so the loop that fills
it returns nothing then.

A specification is known while compiling, and what a formatter does not support is refused
by a static assertion.  `integer_rendering` says what is written for the others.
-/
import DoomOs.Kprint
import DoomOs.Numerals

namespace DoomOs

namespace Kprint

/-! ## Characters -/

/-- `NULL_TEXT`. -/
def nullText : List Char := ['<', 'n', 'u', 'l', 'l', '>']

/-- `console_write`: what the sink receives for a pointer that may be null. -/
def consoleWrite : (bytes : Option (List Char)) → List Char
  | none => []
  | some bytes => bytes

/-- `emit_c_string`. -/
def emitCString : (value : Option (List Char)) → List Char
  | none => consoleWrite (some nullText)
  | some text => consoleWrite (some text)

/-- `emit_bytes`. -/
def emitBytes : (value : Option (List Char)) → List Char
  | none => emitCString (some nullText)
  | some bytes => consoleWrite (some bytes)

/-- `emit_char`. -/
def emitChar (value : Char) : List Char := consoleWrite (some [value])

/-- `emit_repeated`. -/
def emitRepeated (value : Char) : (count : ℕ) → List Char
  | 0 => []
  | count + 1 => emitChar value ++ emitRepeated value count

theorem emitRepeated_eq (value : Char) (count : ℕ) :
    emitRepeated value count = List.replicate count value := by
  induction count with
  | zero => rfl
  | succ count ih => rw [emitRepeated, ih, List.replicate_succ]; rfl

/-! ## Digits -/

/-- `HEX_DIGITS_LOWER`. -/
def hexDigitsLower : List Char := "0123456789abcdef".toList

/-- `HEX_DIGITS_UPPER`. -/
def hexDigitsUpper : List Char := "0123456789ABCDEF".toList

/-- The character `'0' + digit`. -/
def decimalDigit (digit : ℕ) : Char := Char.ofNat ('0'.toNat + digit)

/-- The loop that fills `reverse`, which has room for `room` more digits: `low` takes the
last digit of a value and `next` drops it. -/
def fillReverse (low next : ℕ → ℕ) (digit : ℕ → Char) :
    (room value : ℕ) → (reverse : List Char) → Option (List Char)
  | 0, _, _ => none
  | room + 1, value, reverse =>
    let reverse := reverse ++ [digit (low value)]
    let value := next value
    if value ≠ 0 then fillReverse low next digit room value reverse else some reverse

/-- The loop that copies `reverse` to the buffer. -/
def copyReverse (reverse : List Char) : List Char :=
  (List.range reverse.length).map fun index => charAt reverse (reverse.length - index - 1)

/-- `format_u64_decimal`. -/
def formatU64Decimal (value : ℕ) : Option (List Char) :=
  (fillReverse (fun v => v % 10) (fun v => v / 10) decimalDigit 20 value []).map copyReverse

/-- `format_u64_hex`. -/
def formatU64Hex (value : ℕ) (uppercase : Bool) : Option (List Char) :=
  let digits := if uppercase then hexDigitsUpper else hexDigitsLower
  (fillReverse (fun v => v &&& 0xF) (fun v => v >>> 4) (charAt digits) 16 value []).map
    copyReverse

/-- `signed_magnitude_i64`. -/
def signedMagnitudeI64 (value : BitVec 64) : ℕ :=
  if value.toInt ≥ 0 then value.toNat else u64 ((-(value + 1)).toNat + 1)

/-! ## Padding -/

/-- `emit_padded`. -/
def emitPadded (spec : FormatSpec) (leading body : List Char) (numeric : Bool) : List Char :=
  let contentLength := leading.length + body.length
  let width := if spec.hasWidth then spec.width else 0
  let padding := if width > contentLength then width - contentLength else 0
  let align :=
    if spec.align = .default then (if numeric then .right else .left) else spec.align
  if numeric ∧ spec.zeroPad ∧ align = .right then
    emitBytes (some leading) ++ emitRepeated '0' padding ++ emitBytes (some body)
  else if align = .left then
    emitBytes (some leading) ++ emitBytes (some body) ++ emitRepeated spec.fill padding
  else if align = .center then
    let leftPadding := padding / 2
    let rightPadding := padding - leftPadding
    emitRepeated spec.fill leftPadding ++ emitBytes (some leading) ++ emitBytes (some body) ++
      emitRepeated spec.fill rightPadding
  else
    emitRepeated spec.fill padding ++ emitBytes (some leading) ++ emitBytes (some body)

/-! ## Integers -/

/-- The static assertions of the integer formatters, and a digit behind the end of its
buffer. -/
inductive EmitFault where
  /-- `precision is not supported for integer formats` -/
  | integerPrecision
  /-- `alternate form is not supported for decimal integers` -/
  | decimalAlternate
  /-- `unsupported format specifier for unsigned integer` -/
  | unsignedSpecifier
  /-- `unsupported format specifier for signed integer` -/
  | signedSpecifier
  | bufferOverrun
  deriving DecidableEq

/-- `emit_unsigned_decimal`. -/
def emitUnsignedDecimal (spec : FormatSpec) (value : ℕ) : Except EmitFault (List Char) :=
  if spec.hasPrecision then .error .integerPrecision
  else if spec.alternate then .error .decimalAlternate
  else
    match formatU64Decimal value with
    | none => .error .bufferOverrun
    | some body =>
      let hasSign : Bool := spec.sign = .plus || spec.sign = .space
      let prefixBuffer := [if spec.sign = .plus then '+' else ' ']
      .ok (emitPadded spec (prefixBuffer.take (if hasSign then 1 else 0)) body true)

/-- `emit_signed_decimal`. -/
def emitSignedDecimal (spec : FormatSpec) (value : BitVec 64) : Except EmitFault (List Char) :=
  if spec.hasPrecision then .error .integerPrecision
  else if spec.alternate then .error .decimalAlternate
  else
    match formatU64Decimal (signedMagnitudeI64 value) with
    | none => .error .bufferOverrun
    | some body =>
      let leading :=
        if value.toInt < 0 then ['-']
        else if spec.sign = .plus then ['+']
        else if spec.sign = .space then [' ']
        else []
      .ok (emitPadded spec leading body true)

/-- `emit_hex_integer`. -/
def emitHexInteger (spec : FormatSpec) (value : ℕ) : Except EmitFault (List Char) :=
  if spec.hasPrecision then .error .integerPrecision
  else
    match formatU64Hex value (spec.presentationValue = .hexUpper) with
    | none => .error .bufferOverrun
    | some body =>
      .ok (emitPadded spec (if spec.alternate then ['0', 'x'] else []) body true)

/-- A `u64` or an `i64`. -/
inductive IntegerValue where
  | unsigned (value : BitVec 64)
  | signed (value : BitVec 64)
  deriving DecidableEq

/-- `formatter<T>::emit`, for an unsigned and for a signed integer. -/
def emitInteger (spec : FormatSpec) : IntegerValue → Except EmitFault (List Char)
  | .unsigned value =>
    if spec.presentationValue = .default ∨ spec.presentationValue = .decimal then
      emitUnsignedDecimal spec value.toNat
    else if spec.presentationValue = .hexLower ∨ spec.presentationValue = .hexUpper then
      emitHexInteger spec value.toNat
    else .error .unsignedSpecifier
  | .signed value =>
    if spec.presentationValue = .default ∨ spec.presentationValue = .decimal then
      emitSignedDecimal spec value
    else if spec.presentationValue = .hexLower ∨ spec.presentationValue = .hexUpper then
      emitHexInteger spec value.toNat
    else .error .signedSpecifier

/-! ## The digits are a numeral -/

theorem copyReverse_eq (l : List Char) : copyReverse l = l.reverse := by
  apply List.ext_getElem
  · simp [copyReverse]
  · intro i hi _
    have hlt : i < l.length := by simpa [copyReverse] using hi
    have hlast : l.length - i - 1 < l.length := by omega
    simp only [copyReverse, List.getElem_map, List.getElem_range, List.getElem_reverse, charAt]
    rw [List.getD_eq_getElem _ _ hlast]
    congr 1
    omega

/-- The loop stops in time if and only if the numeral fits into the buffer. -/
theorem fillReverse_eq {b : ℕ} (hb : 1 < b) {low next : ℕ → ℕ} (hlow : ∀ v, low v = v % b)
    (hnext : ∀ v, next v = v / b) (digit : ℕ → Char) : ∀ (room value : ℕ) (reverse : List Char),
    (numeral b value).length ≤ room →
    fillReverse low next digit room value reverse
      = some (reverse ++ ((numeral b value).map digit).reverse) := by
  intro room
  induction room with
  | zero =>
    intro value reverse h
    exact absurd (List.length_eq_zero_iff.mp (by omega)) (numeral_ne_nil b value)
  | succ room ih =>
    intro value reverse h
    rw [numeral_eq hb] at h
    rw [fillReverse, numeral_eq hb, hlow, hnext]
    by_cases hdiv : value / b = 0
    · simp [hdiv]
    · rw [if_neg hdiv, List.length_append, List.length_singleton] at h
      rw [if_pos hdiv, if_neg hdiv, ih (value / b) _ (by omega)]
      simp

theorem fillReverse_map {b : ℕ} (hb : 1 < b) {low next : ℕ → ℕ} (hlow : ∀ v, low v = v % b)
    (hnext : ∀ v, next v = v / b) (digit : ℕ → Char) {room value : ℕ} (hroom : 0 < room)
    (h : value < b ^ room) :
    (fillReverse low next digit room value []).map copyReverse
      = some ((numeral b value).map digit) := by
  have hlen := (length_numeral_le_iff hb hroom).mpr h
  rw [fillReverse_eq hb hlow hnext digit room value [] hlen, List.nil_append, Option.map_some,
    copyReverse_eq, List.reverse_reverse]

theorem formatU64Decimal_eq {value : ℕ} (h : value < 2 ^ 64) :
    formatU64Decimal value = some ((numeral 10 value).map decimalDigit) :=
  fillReverse_map (by decide) (fun _ => rfl) (fun _ => rfl) decimalDigit (by decide)
    (lt_of_lt_of_le h (by decide))

theorem formatU64Hex_eq {value : ℕ} (h : value < 2 ^ 64) (uppercase : Bool) :
    formatU64Hex value uppercase = some ((numeral 16 value).map
      (charAt (if uppercase then hexDigitsUpper else hexDigitsLower))) := by
  apply fillReverse_map (by decide) _ _ _ (by decide) (lt_of_lt_of_le h (by decide))
  · exact fun v => Nat.and_two_pow_sub_one_eq_mod v 4
  · exact fun v => Nat.shiftRight_eq_div_pow v 4

theorem signedMagnitudeI64_eq (value : BitVec 64) :
    signedMagnitudeI64 value = value.toInt.natAbs := by
  unfold signedMagnitudeI64 u64
  rw [BitVec.toInt_eq_toNat_cond, BitVec.toNat_neg, BitVec.toNat_add]
  have hlt := value.isLt
  split_ifs <;> simp <;> omega

theorem natAbs_toInt_lt (value : BitVec 64) : value.toInt.natAbs < 2 ^ 64 := by
  have hlow := BitVec.le_toInt value
  have hhigh := BitVec.toInt_lt (x := value)
  omega

/-! ## What the padding is -/

/-- How many fill characters stand in front, how many zeros between the sign or prefix and
the digits, and how many fill characters behind. -/
structure Padding where
  left : ℕ
  zeros : ℕ
  right : ℕ
  deriving DecidableEq

/-- The padding of a number that takes `contentLength` characters by itself: a number aligns
to the right unless told otherwise, and is padded with zeros only then. -/
def paddingOf (spec : FormatSpec) (contentLength : ℕ) : Padding :=
  let amount := (if spec.hasWidth then spec.width else 0) - contentLength
  match spec.align with
  | .left => ⟨0, 0, amount⟩
  | .center => ⟨amount / 2, 0, amount - amount / 2⟩
  | .right | .default => if spec.zeroPad then ⟨0, amount, 0⟩ else ⟨amount, 0, 0⟩

/-- A number with its padding. -/
def Padding.apply (p : Padding) (fill : Char) (leading body : List Char) : List Char :=
  List.replicate p.left fill ++ leading ++ List.replicate p.zeros '0' ++ body ++
    List.replicate p.right fill

theorem emitPadded_eq (spec : FormatSpec) (leading body : List Char) :
    emitPadded spec leading body true
      = (paddingOf spec (leading.length + body.length)).apply spec.fill leading body := by
  have hpadding : ∀ width content : ℕ,
      (if width > content then width - content else 0) = width - content := by
    intro width content
    split_ifs <;> omega
  unfold emitPadded paddingOf Padding.apply
  simp only [hpadding, emitRepeated_eq, emitBytes, consoleWrite]
  cases spec.align <;> cases spec.zeroPad <;> simp

theorem length_apply_paddingOf (spec : FormatSpec) (leading body : List Char) :
    ((paddingOf spec (leading.length + body.length)).apply spec.fill leading body).length
      = max (if spec.hasWidth then spec.width else 0) (leading.length + body.length) := by
  unfold paddingOf Padding.apply
  cases spec.align <;> cases spec.zeroPad <;> simp <;> omega

/-! ## Reading digits back -/

/-- The value of a digit. -/
def charDigit (c : Char) : Option ℕ :=
  if '0' ≤ c ∧ c ≤ '9' then some (c.toNat - '0'.toNat)
  else if 'a' ≤ c ∧ c ≤ 'f' then some (c.toNat - 'a'.toNat + 10)
  else if 'A' ≤ c ∧ c ≤ 'F' then some (c.toNat - 'A'.toNat + 10)
  else none

/-- The number that a text of digits stands for. -/
def readDigits (base : ℕ) (text : List Char) : Option ℕ := (text.mapM charDigit).map (horner base)

/-- `text` writes `n` with the first `base` digits of an alphabet and no leading zero. -/
structure Canonical (base : ℕ) (alphabet text : List Char) (n : ℕ) : Prop where
  read : readDigits base text = some n
  digits : ∀ c ∈ text, c ∈ alphabet.take base
  ne_nil : text ≠ []
  canonical : text.head? = some '0' → text = ['0']

theorem mapM_charDigit {alphabet : List Char} {base : ℕ}
    (hread : ∀ d < base, charDigit (charAt alphabet d) = some d) : ∀ {digits : List ℕ},
    (∀ d ∈ digits, d < base) → (digits.map (charAt alphabet)).mapM charDigit = some digits := by
  intro digits
  induction digits with
  | nil => exact fun _ => rfl
  | cons d digits ih =>
    intro h
    rw [List.forall_mem_cons] at h
    rw [List.map_cons, List.mapM_cons, hread d h.1, ih h.2]
    rfl

/-- A numeral written with an alphabet. -/
theorem canonical_numeral {alphabet : List Char} {base : ℕ} (hb : 1 < base)
    (hlen : base ≤ alphabet.length)
    (hread : ∀ d < base, charDigit (charAt alphabet d) = some d) (n : ℕ) :
    Canonical base alphabet ((numeral base n).map (charAt alphabet)) n := by
  refine ⟨?_, ?_, ?_, ?_⟩
  · rw [readDigits, mapM_charDigit hread fun d hd => numeral_lt hb hd, Option.map_some,
      horner_numeral hb]
  · intro c hc
    obtain ⟨d, hd, rfl⟩ := List.mem_map.mp hc
    have hlt := numeral_lt hb hd
    rw [charAt, List.getD_eq_getElem _ _ (lt_of_lt_of_le hlt hlen), List.mem_take_iff_getElem]
    exact ⟨d, by omega, rfl⟩
  · simp [numeral_ne_nil]
  · intro hhead
    rw [List.head?_map] at hhead
    obtain ⟨d, hd, hzero⟩ := Option.map_eq_some_iff.mp hhead
    have hdigit := hread d (numeral_lt hb (List.mem_of_head? hd))
    rw [hzero] at hdigit
    obtain rfl : 0 = d := Option.some.inj hdigit
    rw [numeral_canonical hd, List.map_singleton, hzero]

theorem charDigit_lower : ∀ d < 16, charDigit (charAt hexDigitsLower d) = some d := by decide

theorem charDigit_upper : ∀ d < 16, charDigit (charAt hexDigitsUpper d) = some d := by decide

theorem decimalDigit_eq : ∀ d < 10, decimalDigit d = charAt hexDigitsLower d := by decide

/-- What `format_u64_decimal` writes. -/
theorem exists_decimal {value : ℕ} (h : value < 2 ^ 64) : ∃ body,
    formatU64Decimal value = some body ∧ Canonical 10 hexDigitsLower body value := by
  refine ⟨_, formatU64Decimal_eq h, ?_⟩
  have halphabet : (numeral 10 value).map decimalDigit
      = (numeral 10 value).map (charAt hexDigitsLower) := by
    apply List.map_congr_left
    intro d hd
    exact decimalDigit_eq d (numeral_lt (by decide) hd)
  rw [halphabet]
  apply canonical_numeral (by decide) (by decide)
  intro d hd
  exact charDigit_lower d (by omega)

/-- What `format_u64_hex` writes. -/
theorem exists_hex {value : ℕ} (h : value < 2 ^ 64) (uppercase : Bool) : ∃ body,
    formatU64Hex value uppercase = some body ∧
      Canonical 16 (if uppercase then hexDigitsUpper else hexDigitsLower) body value := by
  refine ⟨_, formatU64Hex_eq h uppercase, ?_⟩
  cases uppercase with
  | false => exact canonical_numeral (by decide) (by decide) charDigit_lower value
  | true => exact canonical_numeral (by decide) (by decide) charDigit_upper value

/-! ## What is written for an integer -/

/-- The value of an integer. -/
def IntegerValue.toInt : IntegerValue → ℤ
  | .unsigned value => value.toNat
  | .signed value => value.toInt

/-- A hexadecimal presentation. -/
def FormatSpec.IsHex (spec : FormatSpec) : Prop :=
  spec.presentationValue = .hexLower ∨ spec.presentationValue = .hexUpper

instance (spec : FormatSpec) : Decidable spec.IsHex := inferInstanceAs (Decidable (_ ∨ _))

/-- The specifications that the static assertions for integers let pass. -/
def FormatSpec.IsInteger (spec : FormatSpec) : Prop :=
  spec.hasPrecision = false ∧
    ((spec.presentationValue = .default ∨ spec.presentationValue = .decimal) ∧
      spec.alternate = false ∨ spec.IsHex)

instance (spec : FormatSpec) : Decidable spec.IsInteger := inferInstanceAs (Decidable (_ ∧ _))

/-- The sign or the prefix in front of the digits. -/
def leadingOf (spec : FormatSpec) (value : IntegerValue) : List Char :=
  if spec.IsHex then (if spec.alternate then ['0', 'x'] else [])
  else if value.toInt < 0 then ['-']
  else
    match spec.sign with
    | .plus => ['+']
    | .space => [' ']
    | .default => []

/-- The base of the digits. -/
def baseOf (spec : FormatSpec) : ℕ := if spec.IsHex then 16 else 10

/-- The digits that are used. -/
def alphabetOf (spec : FormatSpec) : List Char :=
  if spec.presentationValue = .hexUpper then hexDigitsUpper else hexDigitsLower

/-- The number that a sign and digits stand for. -/
def readBack (leading : List Char) (n : ℕ) : ℤ := if leading = ['-'] then -(n : ℤ) else n

/-- The integer is written with its padding around the sign or prefix and its digits, as long
as its width asks for at least, and the digits are those of `written` in the base of the
presentation, without leading zeros. -/
def RendersAs (spec : FormatSpec) (value : IntegerValue) (written : ℤ) : Prop :=
  ∃ digits n,
    let leading := leadingOf spec value
    let text := (paddingOf spec (leading.length + digits.length)).apply spec.fill leading digits
    emitInteger spec value = .ok text ∧
      text.length
        = max (if spec.hasWidth then spec.width else 0) (leading.length + digits.length) ∧
      Canonical (baseOf spec) (alphabetOf spec) digits n ∧ readBack leading n = written

section Rendering

variable {spec : FormatSpec}

theorem rendersAs_of_emitPadded {value : IntegerValue} {digits : List Char} {n : ℕ}
    (hemit : emitInteger spec value = .ok (emitPadded spec (leadingOf spec value) digits true))
    (hdigits : Canonical (baseOf spec) (alphabetOf spec) digits n) :
    RendersAs spec value (readBack (leadingOf spec value) n) := by
  rw [emitPadded_eq] at hemit
  exact ⟨digits, n, hemit, length_apply_paddingOf spec _ _, hdigits, rfl⟩

/-- A decimal presentation is not a hexadecimal one. -/
theorem not_isHex (h : spec.presentationValue = .default ∨ spec.presentationValue = .decimal) :
    ¬ spec.IsHex := by
  unfold FormatSpec.IsHex
  rcases h with h | h <;> simp [h]

theorem decimal_alphabet
    (h : spec.presentationValue = .default ∨ spec.presentationValue = .decimal) :
    alphabetOf spec = hexDigitsLower ∧ baseOf spec = 10 := by
  refine ⟨?_, if_neg (not_isHex h)⟩
  unfold alphabetOf
  rcases h with h | h <;> simp [h]

theorem unsigned_decimal_rendersAs
    (h : spec.presentationValue = .default ∨ spec.presentationValue = .decimal)
    (hprecision : spec.hasPrecision = false) (halternate : spec.alternate = false)
    (value : BitVec 64) : RendersAs spec (.unsigned value) value.toNat := by
  obtain ⟨body, hbody, hdigits⟩ := exists_decimal value.isLt
  rw [← (decimal_alphabet h).1, ← (decimal_alphabet h).2] at hdigits
  have hnonneg : ¬ ((value.toNat : ℤ) < 0) := by omega
  have hleading : leadingOf spec (.unsigned value)
      = [if spec.sign = .plus then '+' else ' '].take
        (if (spec.sign = .plus || spec.sign = .space) then 1 else 0) := by
    rw [leadingOf, if_neg (not_isHex h), IntegerValue.toInt, if_neg hnonneg]
    cases spec.sign <;> rfl
  have hrendered := @rendersAs_of_emitPadded spec (.unsigned value) body _ ?_ hdigits
  · have hsign : leadingOf spec (.unsigned value) ≠ ['-'] := by
      rw [hleading]
      cases spec.sign <;> decide
    rwa [readBack, if_neg hsign] at hrendered
  · rw [emitInteger, if_pos h, emitUnsignedDecimal, hprecision, halternate, hbody, hleading]
    rfl

theorem signed_decimal_rendersAs
    (h : spec.presentationValue = .default ∨ spec.presentationValue = .decimal)
    (hprecision : spec.hasPrecision = false) (halternate : spec.alternate = false)
    (value : BitVec 64) : RendersAs spec (.signed value) value.toInt := by
  obtain ⟨body, hbody, hdigits⟩ := exists_decimal (natAbs_toInt_lt value)
  rw [← signedMagnitudeI64_eq] at hbody
  rw [← (decimal_alphabet h).1, ← (decimal_alphabet h).2] at hdigits
  have hleading : leadingOf spec (.signed value)
      = if value.toInt < 0 then ['-'] else if spec.sign = .plus then ['+']
        else if spec.sign = .space then [' '] else [] := by
    rw [leadingOf, if_neg (not_isHex h), IntegerValue.toInt]
    cases spec.sign <;> rfl
  have hrendered := @rendersAs_of_emitPadded spec (.signed value) body _ ?_ hdigits
  · have hread : readBack (leadingOf spec (.signed value)) value.toInt.natAbs = value.toInt := by
      rw [hleading, readBack]
      by_cases hneg : value.toInt < 0
      · rw [if_pos hneg, if_pos rfl]
        omega
      · rw [if_neg hneg]
        have hsign : (if spec.sign = .plus then ['+'] else if spec.sign = .space then [' ']
            else []) ≠ ['-'] := by
          cases spec.sign <;> decide
        rw [if_neg hsign]
        omega
    rwa [hread] at hrendered
  · rw [emitInteger, if_pos h, emitSignedDecimal, hprecision, halternate, hbody, hleading]
    rfl

/-- The digits of a hexadecimal presentation are those of the 64-bit word. -/
theorem hex_rendersAs (h : spec.IsHex) (hprecision : spec.hasPrecision = false)
    {value : IntegerValue} {word : BitVec 64}
    (hemit : emitInteger spec value = emitHexInteger spec word.toNat) :
    RendersAs spec value word.toNat := by
  obtain ⟨body, hbody, hdigits⟩ := exists_hex word.isLt (spec.presentationValue = .hexUpper)
  have halphabet : (if (decide (spec.presentationValue = .hexUpper)) = true then hexDigitsUpper
      else hexDigitsLower) = alphabetOf spec := by
    simp [alphabetOf]
  have hbase : 16 = baseOf spec := (if_pos h).symm
  rw [halphabet, hbase] at hdigits
  have hleading : leadingOf spec value = if spec.alternate then ['0', 'x'] else [] := if_pos h
  have hrendered := @rendersAs_of_emitPadded spec value body _ ?_ hdigits
  · have hsign : leadingOf spec value ≠ ['-'] := by
      rw [hleading]
      cases spec.alternate <;> decide
    rwa [readBack, if_neg hsign] at hrendered
  · rw [hemit, emitHexInteger, hprecision, hbody, hleading]
    rfl

theorem not_decimal (h : spec.IsHex) :
    ¬ (spec.presentationValue = .default ∨ spec.presentationValue = .decimal) :=
  fun hdecimal => not_isHex hdecimal h

/-- **What is written for an integer.**  Every `u64` and every `i64` is written in full, with
the padding that its specification selects, and its digits are read back as its value.  For
a negative `i64` in a hexadecimal presentation these are the digits of its two's
complement. -/
theorem integer_rendering (h : spec.IsInteger) (value : IntegerValue) :
    RendersAs spec value
      (if spec.IsHex ∧ value.toInt < 0 then value.toInt + 2 ^ 64 else value.toInt) := by
  obtain ⟨hprecision, ⟨hdecimal, halternate⟩ | hhex⟩ := h
  · rw [if_neg (fun hneg => not_isHex hdecimal hneg.1)]
    cases value with
    | unsigned value => exact unsigned_decimal_rendersAs hdecimal hprecision halternate value
    | signed value => exact signed_decimal_rendersAs hdecimal hprecision halternate value
  · cases value with
    | unsigned value =>
      have hnonneg : ¬ ((value.toNat : ℤ) < 0) := by omega
      rw [IntegerValue.toInt, if_neg (fun hneg => hnonneg hneg.2)]
      apply hex_rendersAs hhex hprecision
      rw [emitInteger, if_neg (not_decimal hhex)]
      exact if_pos hhex
    | signed value =>
      have hword : (if spec.IsHex ∧ value.toInt < 0 then value.toInt + 2 ^ 64 else value.toInt)
          = value.toNat := by
        have hlt := value.isLt
        simp only [hhex, true_and]
        rw [BitVec.toInt_eq_toNat_cond]
        split_ifs <;> omega
      rw [IntegerValue.toInt, hword]
      apply hex_rendersAs hhex hprecision
      rw [emitInteger, if_neg (not_decimal hhex)]
      exact if_pos hhex

end Rendering

/-- The most negative `i64` in a width of 24, padded with zeros behind its sign. -/
theorem integer_rendering_small :
    let spec : FormatSpec := { zeroPad := true, hasWidth := true, width := 24 }
    spec.IsInteger ∧ RendersAs spec (.signed (BitVec.intMin 64)) (-9223372036854775808) := by
  intro spec
  have hspec : spec.IsInteger := by decide
  exact ⟨hspec, integer_rendering hspec (.signed (BitVec.intMin 64))⟩

/-- `-1` in a hexadecimal presentation has no sign, and its digits are those of
`2 ^ 64 - 1`. -/
theorem hex_of_negative :
    let spec : FormatSpec := { presentationValue := .hexLower }
    spec.IsInteger ∧ IntegerValue.toInt (.signed (BitVec.allOnes 64)) = -1 ∧
      emitInteger spec (.signed (BitVec.allOnes 64)) = .ok (List.replicate 16 'f') ∧
      readDigits 16 (List.replicate 16 'f') = some (2 ^ 64 - 1) ∧
      ¬ RendersAs spec (.signed (BitVec.allOnes 64)) (-1) := by
  intro spec
  refine ⟨by decide, by decide, by decide +kernel, by decide +kernel, ?_⟩
  rintro ⟨digits, n, -, -, -, hread⟩
  have hleading : leadingOf spec (.signed (BitVec.allOnes 64)) = [] := by decide
  rw [hleading, readBack, if_neg (by decide)] at hread
  omega

end Kprint

end DoomOs
