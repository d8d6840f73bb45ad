/-
# Format strings

`kernel/debug/format_spec.hpp`.  A format string is literal text with replacement
fields in braces, such as `{}` or `{:#018x}`; a brace that is text is doubled.  Both
the validation (`parse_format`) and the single field (`parse_field_at`) are computed
while compiling, on a `fixed_string`, which is here the list of its characters.

The stages of `parse_field_at` are definitions of their own, each from a specification
and an index to the next.
-/
import DoomOs.Page

namespace DoomOs

namespace Kprint

/-! ## Specifications -/

/-- `MAX_FORMAT_WIDTH`. -/
def maxFormatWidth : ℕ := 128

/-- `MAX_FLOAT_PRECISION`. -/
def maxFloatPrecision : ℕ := 18

/-- `presentation`. -/
inductive Presentation where
  | default
  | decimal
  | hexLower
  | hexUpper
  | pointer
  | fixed
  | string
  | character
  deriving DecidableEq

/-- `format_align`. -/
inductive FormatAlign where
  | default
  | left
  | right
  | center
  deriving DecidableEq

/-- `format_sign`. -/
inductive FormatSign where
  | default
  | plus
  | space
  deriving DecidableEq

/-- `format_spec`, with `default_format_spec` as its defaults. -/
structure FormatSpec where
  presentationValue : Presentation := .default
  align : FormatAlign := .default
  sign : FormatSign := .default
  fill : Char := ' '
  alternate : Bool := false
  zeroPad : Bool := false
  hasWidth : Bool := false
  width : ℕ := 0
  hasPrecision : Bool := false
  precision : ℕ := 0
  deriving DecidableEq

/-- `format_field`. -/
structure FormatField where
  valid : Bool
  length : ℕ
  spec : FormatSpec
  deriving DecidableEq

/-- `default_format_spec`. -/
def defaultFormatSpec : FormatSpec := {}

/-- `invalid_format_field`. -/
def invalidFormatField : FormatField := ⟨false, 0, defaultFormatSpec⟩

/-- `is_format_digit`. -/
def isFormatDigit (value : Char) : Bool := decide ('0' ≤ value) && decide (value ≤ '9')

/-- `format_digit_value`. -/
def formatDigitValue (value : Char) : ℕ := value.toNat - '0'.toNat

/-- `is_format_align`. -/
def isFormatAlign (value : Char) : Bool := value = '<' || value = '>' || value = '^'

/-- `parse_format_align`. -/
def parseFormatAlign (value : Char) : FormatAlign :=
  if value = '<' then .left
  else if value = '>' then .right
  else if value = '^' then .center
  else .default

/-- `FMT[index]`; behind the text stands the terminating zero. -/
def charAt (fmt : List Char) (index : ℕ) : Char := fmt.getD index '\x00'

/-- `format_char_at`. -/
def formatCharAt (fmt : List Char) (index : ℕ) : Char :=
  if index ≥ fmt.length then '\x00' else charAt fmt index

/-! ## One field -/

/-- Fill and alignment. -/
def parseAlign (fmt : List Char) (spec : FormatSpec) (index : ℕ) : FormatSpec × ℕ :=
  if index + 1 < fmt.length ∧ isFormatAlign (charAt fmt (index + 1)) then
    ({ spec with fill := charAt fmt index, align := parseFormatAlign (charAt fmt (index + 1)) },
      index + 2)
  else if isFormatAlign (charAt fmt index) then
    ({ spec with align := parseFormatAlign (charAt fmt index) }, index + 1)
  else (spec, index)

/-- The sign. -/
def parseSign (fmt : List Char) (spec : FormatSpec) (index : ℕ) : FormatSpec × ℕ :=
  if index < fmt.length ∧ charAt fmt index = '+' then ({ spec with sign := .plus }, index + 1)
  else if index < fmt.length ∧ charAt fmt index = ' ' then
    ({ spec with sign := .space }, index + 1)
  else (spec, index)

/-- The alternate form. -/
def parseAlternate (fmt : List Char) (spec : FormatSpec) (index : ℕ) : FormatSpec × ℕ :=
  if index < fmt.length ∧ charAt fmt index = '#' then ({ spec with alternate := true }, index + 1)
  else (spec, index)

/-- The padding with zeros, which aligns to the right unless told otherwise. -/
def parseZeroPad (fmt : List Char) (spec : FormatSpec) (index : ℕ) : FormatSpec × ℕ :=
  if index < fmt.length ∧ charAt fmt index = '0' then
    ({ spec with
        zeroPad := true, align := if spec.align = .default then .right else spec.align },
      index + 1)
  else (spec, index)

/-- The loops over digits: over what is left of the text, from `value` on. -/
def parseDigits : (rest : List Char) → (value index : ℕ) → ℕ × ℕ
  | [], value, index => (value, index)
  | c :: rest, value, index =>
    if isFormatDigit c then
      parseDigits rest (u64 (value * 10 + formatDigitValue c)) (index + 1)
    else (value, index)

/-- The width. -/
def parseWidth (fmt : List Char) (spec : FormatSpec) (index : ℕ) : FormatSpec × ℕ :=
  let (width, last) := parseDigits (fmt.drop index) spec.width index
  ({ spec with hasWidth := spec.hasWidth || decide (index < last), width := width }, last)

/-- The precision: a point needs a digit behind it. -/
def parsePrecision (fmt : List Char) (spec : FormatSpec) (index : ℕ) :
    Option (FormatSpec × ℕ) :=
  if index < fmt.length ∧ charAt fmt index = '.' then
    if index + 1 ≥ fmt.length ∨ !isFormatDigit (charAt fmt (index + 1)) then none
    else
      let (precision, last) := parseDigits (fmt.drop (index + 1)) spec.precision (index + 1)
      if precision > maxFloatPrecision then none
      else some ({ spec with hasPrecision := true, precision := precision }, last)
  else some (spec, index)

/-- The letters for a presentation. -/
def parsePresentation : (type : Char) → Option Presentation
  | 'd' => some .decimal
  | 'x' => some .hexLower
  | 'X' => some .hexUpper
  | 'p' => some .pointer
  | 'f' => some .fixed
  | 's' => some .string
  | 'c' => some .character
  | _ => none

/-- The presentation, when there is something before the closing brace. -/
def parseType (fmt : List Char) (spec : FormatSpec) (index : ℕ) : Option (FormatSpec × ℕ) :=
  if index < fmt.length ∧ charAt fmt index ≠ '}' then
    (parsePresentation (charAt fmt index)).map
      (fun p => ({ spec with presentationValue := p }, index + 1))
  else some (spec, index)

/-- The stages up to the width, none of which can fail. -/
def parseFlags (fmt : List Char) (index : ℕ) : FormatSpec × ℕ :=
  let r := parseAlign fmt defaultFormatSpec index
  let r := parseSign fmt r.1 r.2
  let r := parseAlternate fmt r.1 r.2
  let r := parseZeroPad fmt r.1 r.2
  parseWidth fmt r.1 r.2

/-- What stands between `{:` and the closing brace, with the index of that brace. -/
def parseSpec (fmt : List Char) (index : ℕ) : Option (FormatSpec × ℕ) := do
  let r := parseFlags fmt index
  if r.1.hasWidth ∧ r.1.width > maxFormatWidth then none
  else
    let r ← parsePrecision fmt r.1 r.2
    let r ← parseType fmt r.1 r.2
    if r.2 ≥ fmt.length ∨ charAt fmt r.2 ≠ '}' then none else some r

/-- `parse_field_at`. -/
def parseFieldAt (fmt : List Char) (offset : ℕ) : FormatField :=
  if offset + 1 ≥ fmt.length ∨ charAt fmt offset ≠ '{' then invalidFormatField
  else if charAt fmt (offset + 1) = '}' then ⟨true, 2, defaultFormatSpec⟩
  else if charAt fmt (offset + 1) ≠ ':' then invalidFormatField
  else if offset + 2 ≥ fmt.length then invalidFormatField
  else
    match parseSpec fmt (offset + 2) with
    | none => invalidFormatField
    | some (spec, index) => ⟨true, index - offset + 1, spec⟩

/-! ## The whole string -/

/-- `format_parse_result`, with the fields that were met and where, which the code only
counts. -/
structure FormatParseResult where
  valid : Bool
  fieldCount : ℕ
  fields : List (ℕ × FormatSpec)
  deriving DecidableEq

/-- The loop of `parse_format`, for `fuel` iterations. -/
def parseFormatFrom (fmt : List Char) : (fuel index fieldCount : ℕ) →
    (fields : List (ℕ × FormatSpec)) → Option FormatParseResult
  | 0, _, _, _ => none
  | fuel + 1, index, fieldCount, fields =>
    if index < fmt.length then
      if charAt fmt index = '{' then
        if index + 1 < fmt.length ∧ charAt fmt (index + 1) = '{' then
          parseFormatFrom fmt fuel (index + 2) fieldCount fields
        else
          let field := parseFieldAt fmt index
          if field.valid then
            parseFormatFrom fmt fuel (index + field.length) (fieldCount + 1)
              (fields ++ [(index, field.spec)])
          else some ⟨false, fieldCount, fields⟩
      else if charAt fmt index = '}' then
        if index + 1 < fmt.length ∧ charAt fmt (index + 1) = '}' then
          parseFormatFrom fmt fuel (index + 2) fieldCount fields
        else some ⟨false, fieldCount, fields⟩
      else parseFormatFrom fmt fuel (index + 1) fieldCount fields
    else some ⟨true, fieldCount, fields⟩

/-- `parse_format`.  Each iteration moves on, so the length bounds their number. -/
def parseFormat (fmt : List Char) : Option FormatParseResult :=
  parseFormatFrom fmt (fmt.length + 1) 0 0 []

/-- The loop of `literal_run_length`, over what is left of the text. -/
def literalRun : (rest : List Char) → ℕ
  | [] => 0
  | c :: rest => if c = '{' ∨ c = '}' then 0 else literalRun rest + 1

/-- `literal_run_length`. -/
def literalRunLength (fmt : List Char) (index : ℕ) : ℕ := literalRun (fmt.drop index)

/-! ## Where the characters stand -/

theorem charAt_of_getElem? {fmt : List Char} {i : ℕ} {c : Char} (h : fmt[i]? = some c) :
    charAt fmt i = c := by
  rw [charAt, List.getD_eq_getElem?_getD, h, Option.getD_some]

theorem getElem?_of_charAt {fmt : List Char} {i : ℕ} {c : Char} (hi : i < fmt.length)
    (h : charAt fmt i = c) : fmt[i]? = some c := by
  rw [charAt, List.getD_eq_getElem?_getD, List.getElem?_eq_getElem hi, Option.getD_some] at h
  rw [List.getElem?_eq_getElem hi, h]

/-- Behind the text `format_char_at` reads a zero, so it finds no other character there. -/
theorem formatCharAt_eq_iff {fmt : List Char} {i : ℕ} {c : Char} (hc : c ≠ '\x00') :
    formatCharAt fmt i = c ↔ fmt[i]? = some c := by
  unfold formatCharAt
  by_cases hi : i < fmt.length
  · rw [if_neg (by omega)]
    exact ⟨getElem?_of_charAt hi, charAt_of_getElem?⟩
  · rw [if_pos (by omega), List.getElem?_eq_none (by omega)]
    constructor
    · intro h
      exact absurd h.symm hc
    · intro h
      cases h

theorem drop_eq_cons {fmt : List Char} {i : ℕ} {c : Char} (h : fmt[i]? = some c) :
    fmt.drop i = c :: fmt.drop (i + 1) := by
  obtain ⟨hi, hc⟩ := List.getElem?_eq_some_iff.mp h
  rw [List.drop_eq_getElem_cons hi, hc]

/-! ## A field moves on and ends inside the text -/

theorem le_parseAlign (fmt : List Char) (spec : FormatSpec) (index : ℕ) :
    index ≤ (parseAlign fmt spec index).2 := by
  unfold parseAlign
  split_ifs <;> simp

theorem le_parseSign (fmt : List Char) (spec : FormatSpec) (index : ℕ) :
    index ≤ (parseSign fmt spec index).2 := by
  unfold parseSign
  split_ifs <;> simp

theorem le_parseAlternate (fmt : List Char) (spec : FormatSpec) (index : ℕ) :
    index ≤ (parseAlternate fmt spec index).2 := by
  unfold parseAlternate
  split_ifs <;> simp

theorem le_parseZeroPad (fmt : List Char) (spec : FormatSpec) (index : ℕ) :
    index ≤ (parseZeroPad fmt spec index).2 := by
  unfold parseZeroPad
  split_ifs <;> simp

theorem le_parseDigits : ∀ (rest : List Char) (value index : ℕ),
    index ≤ (parseDigits rest value index).2 := by
  intro rest
  induction rest with
  | nil => exact fun _ _ => le_rfl
  | cons c rest ih =>
    intro value index
    rw [parseDigits]
    by_cases hc : isFormatDigit c
    · rw [if_pos hc]
      exact le_trans (Nat.le_succ index) (ih _ _)
    · rw [if_neg hc]

theorem le_parseWidth (fmt : List Char) (spec : FormatSpec) (index : ℕ) :
    index ≤ (parseWidth fmt spec index).2 :=
  le_parseDigits _ _ _

theorem le_parsePrecision {fmt : List Char} {spec : FormatSpec} {index : ℕ}
    {r : FormatSpec × ℕ} (h : parsePrecision fmt spec index = some r) : index ≤ r.2 := by
  unfold parsePrecision at h
  by_cases hdot : index < fmt.length ∧ charAt fmt index = '.'
  · rw [if_pos hdot] at h
    by_cases hend : index + 1 ≥ fmt.length ∨ !isFormatDigit (charAt fmt (index + 1))
    · rw [if_pos hend] at h
      cases h
    rw [if_neg hend] at h
    have hle := le_parseDigits (fmt.drop (index + 1)) spec.precision (index + 1)
    rcases parseDigits (fmt.drop (index + 1)) spec.precision (index + 1) with ⟨precision, last⟩
    dsimp only at h hle
    split_ifs at h
    rw [← Option.some.inj h]
    exact le_trans (Nat.le_succ index) hle
  · rw [if_neg hdot] at h
    rw [← Option.some.inj h]

theorem le_parseType {fmt : List Char} {spec : FormatSpec} {index : ℕ}
    {r : FormatSpec × ℕ} (h : parseType fmt spec index = some r) : index ≤ r.2 := by
  unfold parseType at h
  by_cases hchar : index < fmt.length ∧ charAt fmt index ≠ '}'
  · rw [if_pos hchar] at h
    obtain ⟨p, -, rfl⟩ := Option.map_eq_some_iff.mp h
    exact Nat.le_succ index
  · rw [if_neg hchar] at h
    rw [← Option.some.inj h]

theorem le_parseFlags (fmt : List Char) (index : ℕ) : index ≤ (parseFlags fmt index).2 :=
  (le_parseAlign _ _ _).trans ((le_parseSign _ _ _).trans ((le_parseAlternate _ _ _).trans
    ((le_parseZeroPad _ _ _).trans (le_parseWidth _ _ _))))

/-- The stages behind the width of a specification that is read, and its closing brace. -/
theorem parseSpec_stages {fmt : List Char} {index : ℕ} {r : FormatSpec × ℕ}
    (h : parseSpec fmt index = some r) :
    ∃ r₁, parsePrecision fmt (parseFlags fmt index).1 (parseFlags fmt index).2 = some r₁ ∧
      parseType fmt r₁.1 r₁.2 = some r ∧ r.2 < fmt.length ∧ charAt fmt r.2 = '}' := by
  unfold parseSpec at h
  dsimp only at h
  by_cases hwidth : (parseFlags fmt index).1.hasWidth = true ∧
      (parseFlags fmt index).1.width > maxFormatWidth
  · rw [if_pos hwidth] at h
    cases h
  rw [if_neg hwidth] at h
  obtain ⟨r₁, hr₁, h⟩ := Option.bind_eq_some_iff.mp h
  obtain ⟨r₂, hr₂, h⟩ := Option.bind_eq_some_iff.mp h
  by_cases hend : r₂.2 ≥ fmt.length ∨ charAt fmt r₂.2 ≠ '}'
  · rw [if_pos hend] at h
    cases h
  rw [if_neg hend] at h
  obtain rfl : r₂ = r := Option.some.inj h
  rw [not_or, not_le, not_not] at hend
  exact ⟨r₁, hr₁, hr₂, hend⟩

/-- A specification ends at a closing brace of the text. -/
theorem parseSpec_bounds {fmt : List Char} {index last : ℕ} {spec : FormatSpec}
    (h : parseSpec fmt index = some (spec, last)) :
    index ≤ last ∧ last < fmt.length ∧ charAt fmt last = '}' := by
  obtain ⟨r, hprecision, htype, hend⟩ := parseSpec_stages h
  have hle := (le_parseFlags fmt index).trans (le_parsePrecision hprecision)
  exact ⟨hle.trans (le_parseType htype), hend⟩

/-- What makes a field valid: a brace that closes at once, or a colon and a specification. -/
theorem parseFieldAt_valid {fmt : List Char} {offset length : ℕ} {spec : FormatSpec}
    (h : parseFieldAt fmt offset = ⟨true, length, spec⟩) :
    fmt[offset]? = some '{' ∧
      ((fmt[offset + 1]? = some '}' ∧ length = 2) ∨
        (fmt[offset + 1]? = some ':' ∧
          ∃ last, parseSpec fmt (offset + 2) = some (spec, last) ∧
            length = last - offset + 1)) := by
  have hinvalid : ∀ {P : Prop}, invalidFormatField = ⟨true, length, spec⟩ → P := by
    intro P h
    cases h
  unfold parseFieldAt at h
  by_cases hopen : offset + 1 ≥ fmt.length ∨ charAt fmt offset ≠ '{'
  · rw [if_pos hopen] at h
    exact hinvalid h
  rw [if_neg hopen] at h
  rw [not_or, not_le, not_not] at hopen
  refine ⟨getElem?_of_charAt (by omega) hopen.2, ?_⟩
  by_cases hclose : charAt fmt (offset + 1) = '}'
  · rw [if_pos hclose] at h
    exact Or.inl ⟨getElem?_of_charAt hopen.1 hclose, (FormatField.mk.inj h).2.1.symm⟩
  rw [if_neg hclose] at h
  by_cases hcolon : charAt fmt (offset + 1) ≠ ':'
  · rw [if_pos hcolon] at h
    exact hinvalid h
  rw [if_neg hcolon] at h
  by_cases hlen : offset + 2 ≥ fmt.length
  · rw [if_pos hlen] at h
    exact hinvalid h
  rw [if_neg hlen] at h
  rcases hs : parseSpec fmt (offset + 2) with _ | ⟨spec', last⟩
  · rw [hs] at h
    exact hinvalid h
  · rw [hs] at h
    obtain ⟨-, rfl, rfl⟩ := FormatField.mk.inj h
    exact Or.inr ⟨getElem?_of_charAt hopen.1 (not_not.mp hcolon), last, rfl, rfl⟩

/-- A valid field begins with one brace, takes at least two characters and ends inside
the text. -/
theorem parseFieldAt_bounds {fmt : List Char} {offset length : ℕ} {spec : FormatSpec}
    (h : parseFieldAt fmt offset = ⟨true, length, spec⟩) :
    fmt[offset]? = some '{' ∧ fmt[offset + 1]? ≠ some '{' ∧ 2 ≤ length ∧
      offset + length ≤ fmt.length := by
  obtain ⟨hopen, ⟨hclose, rfl⟩ | ⟨hcolon, last, hspec, rfl⟩⟩ := parseFieldAt_valid h
  · refine ⟨hopen, ?_, le_rfl, (List.getElem?_eq_some_iff.mp hclose).1⟩
    rw [hclose]
    decide
  · obtain ⟨hle, hlt, -⟩ := parseSpec_bounds hspec
    refine ⟨hopen, ?_, by omega, by omega⟩
    rw [hcolon]
    decide

/-- What one iteration of `parse_format` does: it ends, steps over a doubled brace, a
field or a character of text, or gives up. -/
theorem parseFormatFrom_cases (fmt : List Char) (fuel index fieldCount : ℕ)
    (fields : List (ℕ × FormatSpec)) :
    (fmt.length ≤ index ∧ parseFormatFrom fmt (fuel + 1) index fieldCount fields
      = some ⟨true, fieldCount, fields⟩) ∨
    (∃ c, (c = '{' ∨ c = '}') ∧ fmt[index]? = some c ∧ fmt[index + 1]? = some c ∧
      parseFormatFrom fmt (fuel + 1) index fieldCount fields
        = parseFormatFrom fmt fuel (index + 2) fieldCount fields) ∨
    (∃ length spec, parseFieldAt fmt index = ⟨true, length, spec⟩ ∧
      parseFormatFrom fmt (fuel + 1) index fieldCount fields
        = parseFormatFrom fmt fuel (index + length) (fieldCount + 1)
          (fields ++ [(index, spec)])) ∨
    (∃ c, fmt[index]? = some c ∧ c ≠ '{' ∧ c ≠ '}' ∧
      parseFormatFrom fmt (fuel + 1) index fieldCount fields
        = parseFormatFrom fmt fuel (index + 1) fieldCount fields) ∨
    parseFormatFrom fmt (fuel + 1) index fieldCount fields
      = some ⟨false, fieldCount, fields⟩ := by
  rw [parseFormatFrom]
  by_cases hi : index < fmt.length
  swap
  · rw [if_neg hi]
    exact Or.inl ⟨by omega, rfl⟩
  rw [if_pos hi]
  by_cases hopen : charAt fmt index = '{'
  · rw [if_pos hopen]
    by_cases hdouble : index + 1 < fmt.length ∧ charAt fmt (index + 1) = '{'
    · rw [if_pos hdouble]
      exact Or.inr (Or.inl ⟨'{', Or.inl rfl, getElem?_of_charAt hi hopen,
        getElem?_of_charAt hdouble.1 hdouble.2, rfl⟩)
    · rw [if_neg hdouble]
      rcases hfield : parseFieldAt fmt index with ⟨valid, length, spec⟩
      cases valid with
      | true => exact Or.inr (Or.inr (Or.inl ⟨length, spec, rfl, rfl⟩))
      | false => exact Or.inr (Or.inr (Or.inr (Or.inr rfl)))
  · rw [if_neg hopen]
    by_cases hclose : charAt fmt index = '}'
    · rw [if_pos hclose]
      by_cases hdouble : index + 1 < fmt.length ∧ charAt fmt (index + 1) = '}'
      · rw [if_pos hdouble]
        exact Or.inr (Or.inl ⟨'}', Or.inr rfl, getElem?_of_charAt hi hclose,
          getElem?_of_charAt hdouble.1 hdouble.2, rfl⟩)
      · rw [if_neg hdouble]
        exact Or.inr (Or.inr (Or.inr (Or.inr rfl)))
    · rw [if_neg hclose]
      exact Or.inr (Or.inr (Or.inr (Or.inl
        ⟨_, getElem?_of_charAt hi rfl, hopen, hclose, rfl⟩)))

/-- `parse_format` ends: each iteration moves on. -/
theorem exists_parseFormatFrom (fmt : List Char) : ∀ (fuel index fieldCount : ℕ)
    (fields : List (ℕ × FormatSpec)), index ≤ fmt.length → fmt.length + 1 ≤ fuel + index →
    ∃ r, parseFormatFrom fmt fuel index fieldCount fields = some r := by
  intro fuel
  induction fuel with
  | zero =>
    intro index fieldCount fields hi hle
    omega
  | succ fuel ih =>
    intro index fieldCount fields hi hle
    rcases parseFormatFrom_cases fmt fuel index fieldCount fields with
      ⟨-, h⟩ | ⟨c, -, -, hc, h⟩ | ⟨length, spec, hfield, h⟩ | ⟨c, hc, -, -, h⟩ | h
    · exact ⟨_, h⟩
    · rw [h]
      have hlt := (List.getElem?_eq_some_iff.mp hc).1
      exact ih _ _ _ (by omega) (by omega)
    · rw [h]
      obtain ⟨-, -, htwo, hin⟩ := parseFieldAt_bounds hfield
      exact ih _ _ _ hin (by omega)
    · rw [h]
      have hlt := (List.getElem?_eq_some_iff.mp hc).1
      exact ih _ _ _ (by omega) (by omega)
    · exact ⟨_, h⟩

theorem exists_parseFormat (fmt : List Char) : ∃ r, parseFormat fmt = some r :=
  exists_parseFormatFrom fmt _ _ _ _ (Nat.zero_le _) le_rfl

end Kprint

end DoomOs
