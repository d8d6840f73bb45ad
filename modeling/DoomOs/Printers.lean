/-
# The printers without a format string

`emit_decimal_u64`, `emit_decimal_i64` and `emit_hex_u64` of `kernel/debug/kprint.cpp`, which
need no format string and share no code with the formatters.  `printers_agree` says for which
format strings they write the same.
-/
import DoomOs.Emit

namespace DoomOs

namespace Kprint

/-! ## The printers -/

/-- The first loop of `emit_decimal_u64`, with room for `room` more digits in `buffer`. -/
def pushDigits : (room value : ℕ) → (buffer : List Char) → Option (List Char)
  | 0, value, buffer => if value ≠ 0 then none else some buffer
  | room + 1, value, buffer =>
    if value ≠ 0 then pushDigits room (value / 10) (buffer ++ [decimalDigit (value % 10)])
    else some buffer

/-- The second loop of `emit_decimal_u64`. -/
def emitBackwards (buffer : List Char) : (index : ℕ) → List Char
  | 0 => []
  | index + 1 => emitChar (charAt buffer index) ++ emitBackwards buffer index

/-- `emit_decimal_u64`. -/
def emitDecimalU64 (value : ℕ) : Option (List Char) :=
  if value = 0 then some (emitChar '0')
  else (pushDigits 20 value []).map fun buffer => emitBackwards buffer buffer.length

/-- `emit_decimal_i64`. -/
def emitDecimalI64 (value : BitVec 64) : Option (List Char) :=
  if value.toInt < 0 then
    let magnitude := u64 ((-(value + 1)).toNat + 1)
    (emitDecimalU64 magnitude).map fun text => emitChar '-' ++ text
  else emitDecimalU64 value.toNat

/-- The loop of `emit_hex_u64` over the shifts `4 * (n - 1)` down to zero. -/
def pushHex (value : ℕ) : (n : ℕ) → (buffer : List Char) → List Char
  | 0, buffer => buffer
  | n + 1, buffer =>
    pushHex value n (buffer ++ [charAt hexDigitsUpper ((value >>> (4 * n)) &&& 0xF)])

/-- `emit_hex_u64`. -/
def emitHexU64 (value : ℕ) : List Char := consoleWrite (some (pushHex value 16 ['0', 'x']))

/-! ## What they write -/

/-- The loop that asks first and the loop that asks last do the same for a number that is
not zero. -/
theorem pushDigits_eq : ∀ (room value : ℕ) (buffer : List Char), value ≠ 0 →
    pushDigits room value buffer
      = fillReverse (fun v => v % 10) (fun v => v / 10) decimalDigit room value buffer := by
  intro room
  induction room with
  | zero =>
    intro value buffer h
    rw [pushDigits, if_pos h, fillReverse]
  | succ room ih =>
    intro value buffer h
    rw [pushDigits, if_pos h, fillReverse]
    by_cases hdiv : value / 10 = 0
    · rw [hdiv]
      cases room <;> simp [pushDigits]
    · rw [ih _ _ hdiv, if_pos hdiv]

theorem emitBackwards_eq (buffer : List Char) : ∀ index ≤ buffer.length,
    emitBackwards buffer index = (buffer.take index).reverse := by
  intro index
  induction index with
  | zero => simp [emitBackwards]
  | succ index ih =>
    intro h
    have hlt : index < buffer.length := by omega
    rw [emitBackwards, ih (by omega), List.take_succ_eq_append_getElem hlt, List.reverse_append,
      charAt, List.getD_eq_getElem _ _ hlt]
    rfl

theorem emitDecimalU64_eq {value : ℕ} (h : value < 2 ^ 64) :
    emitDecimalU64 value = some ((numeral 10 value).map decimalDigit) := by
  unfold emitDecimalU64
  by_cases hzero : value = 0
  · rw [if_pos hzero, hzero]
    rfl
  · have hturned : ∀ buffer : List Char,
        emitBackwards buffer buffer.length = copyReverse buffer := by
      intro buffer
      rw [emitBackwards_eq buffer _ le_rfl, List.take_length, copyReverse_eq]
    rw [if_neg hzero, pushDigits_eq 20 value [] hzero]
    simp only [hturned]
    exact formatU64Decimal_eq h

theorem emitDecimalI64_eq (value : BitVec 64) :
    emitDecimalI64 value = some ((if value.toInt < 0 then ['-'] else [])
      ++ (numeral 10 value.toInt.natAbs).map decimalDigit) := by
  have hmagnitude := signedMagnitudeI64_eq value
  unfold signedMagnitudeI64 at hmagnitude
  unfold emitDecimalI64
  by_cases hneg : value.toInt < 0
  · rw [if_neg (by omega)] at hmagnitude
    rw [if_pos hneg, if_pos hneg, hmagnitude]
    show (emitDecimalU64 value.toInt.natAbs).map _ = _
    rw [emitDecimalU64_eq (natAbs_toInt_lt value)]
    rfl
  · rw [if_pos (by omega)] at hmagnitude
    rw [if_neg hneg, if_neg hneg, hmagnitude, emitDecimalU64_eq (natAbs_toInt_lt value)]
    rfl

theorem pushHex_eq (value : ℕ) : ∀ (n : ℕ) (buffer : List Char),
    pushHex value n buffer
      = buffer ++ ((List.range n).reverse.map fun i => value / 16 ^ i % 16).map
        (charAt hexDigitsUpper) := by
  intro n
  induction n with
  | zero => simp [pushHex]
  | succ n ih =>
    intro buffer
    have hdigit : value >>> (4 * n) &&& 0xF = value / 16 ^ n % 16 := by
      rw [Nat.shiftRight_eq_div_pow, Nat.pow_mul]
      exact Nat.and_two_pow_sub_one_eq_mod _ 4
    rw [pushHex, ih, hdigit, List.range_succ]
    simp

/-- All sixteen digits: those of the numeral behind as many zeros as are missing. -/
theorem emitHexU64_eq {value : ℕ} (h : value < 2 ^ 64) :
    emitHexU64 value = ['0', 'x'] ++ List.replicate (16 - (numeral 16 value).length) '0'
      ++ (numeral 16 value).map (charAt hexDigitsUpper) := by
  have hzero : charAt hexDigitsUpper 0 = '0' := by decide
  have hdigits := map_range_digits (b := 16) (k := 16) (by decide) (by decide)
    (lt_of_lt_of_le h (by decide))
  rw [emitHexU64, consoleWrite, pushHex_eq, hdigits, List.map_append, List.map_replicate, hzero,
    List.append_assoc]

/-! ## What the formatters write -/

/-- What `emit_value` writes for an integer.  Where an assertion fails there is no program. -/
def emitIntegerValue (spec : FormatSpec) (value : IntegerValue) : List Char :=
  match emitInteger spec value with
  | .ok text => text
  | .error _ => []

/-- Formatting a value with a format string goes through and writes this text. -/
def Formats (fmt : List Char) (value : IntegerValue) (text : List Char) : Prop :=
  ∃ spec, emitInteger spec value = .ok text ∧ parseFormat fmt = some ⟨true, 1, [(0, spec)]⟩ ∧
    ∀ fuel ≥ fmt.length + 1, emitFormat emitIntegerValue fmt [value] fuel 0 0
      = .ok ⟨text, [(0, spec)], [0]⟩

/-- A format string that is a single field. -/
theorem formats_of_field {fmt text : List Char} {value : IntegerValue} {spec : FormatSpec}
    (hfield : parseFieldAt fmt 0 = ⟨true, fmt.length, spec⟩)
    (hparse : parseFormat fmt = some ⟨true, 1, [(0, spec)]⟩)
    (hemit : emitInteger spec value = .ok text) : Formats fmt value text := by
  have hdone : Scans fmt (0 + fmt.length) [] := by
    rw [Nat.zero_add]
    exact .done
  refine ⟨spec, hemit, hparse, fun fuel hfuel => ?_⟩
  rw [emitFormat_of_scans (.field hfield hdone) (by omega) (by simp [fieldsAt])]
  simp [fieldsAt, render, emitIntegerValue, hemit]

/-- Without a width there is no padding. -/
theorem emitPadded_no_width {spec : FormatSpec} (h : spec.hasWidth = false)
    (leading body : List Char) : emitPadded spec leading body true = leading ++ body := by
  rw [emitPadded_eq]
  unfold paddingOf Padding.apply
  rw [h]
  cases spec.align <;> cases spec.zeroPad <;> simp

theorem emitInteger_default_unsigned (value : BitVec 64) :
    emitInteger {} (.unsigned value)
      = .ok ((numeral 10 value.toNat).map decimalDigit) := by
  have hemit : emitInteger {} (.unsigned value) = emitUnsignedDecimal {} value.toNat := rfl
  rw [hemit, emitUnsignedDecimal, formatU64Decimal_eq value.isLt]
  exact congrArg Except.ok (emitPadded_no_width rfl _ _)

theorem emitInteger_default_signed (value : BitVec 64) :
    emitInteger {} (.signed value) = .ok ((if value.toInt < 0 then ['-'] else [])
      ++ (numeral 10 value.toInt.natAbs).map decimalDigit) := by
  have hemit : emitInteger {} (.signed value) = emitSignedDecimal {} value := rfl
  rw [hemit, emitSignedDecimal, signedMagnitudeI64_eq,
    formatU64Decimal_eq (natAbs_toInt_lt value)]
  exact congrArg Except.ok (emitPadded_no_width rfl _ _)

/-- The specification `#018X`. -/
def hexSpec : FormatSpec :=
  { presentationValue := .hexUpper, align := .right, alternate := true, zeroPad := true,
    hasWidth := true, width := 18 }

theorem emitInteger_hexSpec (value : BitVec 64) :
    emitInteger hexSpec (.unsigned value)
      = .ok (['0', 'x'] ++ List.replicate (16 - (numeral 16 value.toNat).length) '0'
        ++ (numeral 16 value.toNat).map (charAt hexDigitsUpper)) := by
  have hemit : emitInteger hexSpec (.unsigned value) = emitHexInteger hexSpec value.toNat := rfl
  have hwidth : ∀ n : ℕ, 18 - (2 + n) = 16 - n := by
    intro n
    omega
  rw [hemit, emitHexInteger, formatU64Hex_eq value.isLt]
  simp [emitPadded_eq, paddingOf, Padding.apply, hexSpec, hwidth]

/-- **The printers agree with the formatters.**  `emit_decimal_u64` and `emit_decimal_i64`
write what an empty field writes, and `emit_hex_u64` what `#018X` writes. -/
theorem printers_agree (v w : BitVec 64) :
    (∃ text, emitDecimalU64 v.toNat = some text ∧ Formats ['{', '}'] (.unsigned v) text) ∧
    (∃ text, emitDecimalI64 w = some text ∧ Formats ['{', '}'] (.signed w) text) ∧
    Formats ['{', ':', '#', '0', '1', '8', 'X', '}'] (.unsigned v) (emitHexU64 v.toNat) := by
  have hempty : parseFieldAt ['{', '}'] 0 = ⟨true, 2, {}⟩ := by decide
  have hempty' : parseFormat ['{', '}'] = some ⟨true, 1, [(0, {})]⟩ := by decide
  have hhex : parseFieldAt ['{', ':', '#', '0', '1', '8', 'X', '}'] 0 = ⟨true, 8, hexSpec⟩ := by
    decide +kernel
  have hhex' : parseFormat ['{', ':', '#', '0', '1', '8', 'X', '}']
      = some ⟨true, 1, [(0, hexSpec)]⟩ := by
    decide +kernel
  refine ⟨⟨_, emitDecimalU64_eq v.isLt, ?_⟩, ⟨_, emitDecimalI64_eq w, ?_⟩, ?_⟩
  · exact formats_of_field hempty hempty' (emitInteger_default_unsigned v)
  · exact formats_of_field hempty hempty' (emitInteger_default_signed w)
  · rw [emitHexU64_eq v.isLt]
    exact formats_of_field hhex hhex' (emitInteger_hexSpec v)

end Kprint

end DoomOs
