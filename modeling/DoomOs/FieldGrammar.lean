/-
# The grammar of replacement fields

What `parse_field_at` of `kernel/debug/format_spec.hpp` accepts, said without a scanner.  A
field is `{}`, or a specification between `{:` and `}`:

  [[fill]align] [sign] ['#'] ['0'] [width] ['.' precision] [type]

A character in front of an alignment is a fill, whatever it is, and a zero in front of the
width is the flag.  `parseSpec_eq` says what the scanner makes of a text of this shape,
`exists_specText` that it accepts no other.  The scanner keeps its numbers in 64 bits, so
`parse_field_faithful_iff` asks that no number comes out small because it has wrapped.
-/
import DoomOs.FormatSpec
import DoomOs.Numerals

namespace DoomOs

namespace Kprint

/-! ## The parts of a specification -/

/-- `[[fill]align]`. -/
inductive AlignText where
  | none
  | align (a : { c : Char // isFormatAlign c = true })
  | fill (c : Char) (a : { c : Char // isFormatAlign c = true })

/-- The part as it stands in the text. -/
def AlignText.text : AlignText → List Char
  | none => []
  | align a => [a.1]
  | fill c a => [c, a.1]

/-- The sign in the text. -/
def FormatSign.text : FormatSign → List Char
  | default => []
  | plus => ['+']
  | space => [' ']

/-- A flag in the text. -/
def flagText (c : Char) (flag : Bool) : List Char := if flag then [c] else []

/-- The precision in the text. -/
def precisionText : Option (List Char) → List Char
  | none => []
  | some digits => '.' :: digits

/-- The type in the text. -/
def Presentation.text : Presentation → List Char
  | default => []
  | decimal => ['d']
  | hexLower => ['x']
  | hexUpper => ['X']
  | pointer => ['p']
  | fixed => ['f']
  | string => ['s']
  | character => ['c']

/-- The parts up to the width. -/
structure FlagsText where
  align : AlignText
  sign : FormatSign
  alternate : Bool
  zero : Bool
  width : List Char
  width_digits : ∀ c ∈ width, isFormatDigit c = true
  zero_first : zero = false → width.head? ≠ some '0'

/-- All parts. -/
structure SpecText extends FlagsText where
  precision : Option (List Char)
  type : Presentation
  precision_digits : ∀ p, precision = some p → p ≠ [] ∧ ∀ c ∈ p, isFormatDigit c = true

namespace FlagsText

variable (f : FlagsText) (rest : List Char)

/-- From the width on. -/
def fromWidth : List Char := f.width ++ rest

/-- From the zero flag on. -/
def fromZero : List Char := flagText '0' f.zero ++ f.fromWidth rest

/-- From the alternate form on. -/
def fromAlternate : List Char := flagText '#' f.alternate ++ f.fromZero rest

/-- From the sign on. -/
def fromSign : List Char := f.sign.text ++ f.fromAlternate rest

/-- All of it. -/
def fromAlign : List Char := f.align.text ++ f.fromSign rest

/-- The number of characters. -/
def size : ℕ :=
  f.align.text.length + f.sign.text.length + (flagText '#' f.alternate).length +
    (flagText '0' f.zero).length + f.width.length

end FlagsText

/-- From the point on. -/
def SpecText.fromPoint (t : SpecText) (rest : List Char) : List Char :=
  precisionText t.precision ++ (t.type.text ++ rest)

/-- The number of characters of a specification. -/
def SpecText.size (t : SpecText) : ℕ :=
  t.toFlagsText.size + (precisionText t.precision).length + t.type.text.length

/-- The number that digits stand for. -/
def decimalValue (digits : List Char) : ℕ := horner 10 (digits.map formatDigitValue)

/-- The precision that is asked for, zero if there is none. -/
def SpecText.precisionValue (t : SpecText) : ℕ := decimalValue (t.precision.getD [])

/-- The alignment that is written. -/
def AlignText.alignment : AlignText → FormatAlign
  | none => .default
  | align a => parseFormatAlign a.1
  | fill _ a => parseFormatAlign a.1

/-- The character for the padding. -/
def AlignText.padding : AlignText → Char
  | fill c _ => c
  | _ => ' '

/-- The alignment that is meant: the zero flag aligns to the right where nothing else is
written. -/
def FlagsText.alignment (f : FlagsText) : FormatAlign :=
  if f.zero ∧ f.align.alignment = .default then .right else f.align.alignment

/-- What the parts up to the width say, with `num` applied to the number. -/
def FlagsText.spec (num : ℕ → ℕ) (f : FlagsText) : FormatSpec where
  align := f.alignment
  sign := f.sign
  fill := f.align.padding
  alternate := f.alternate
  zeroPad := f.zero
  hasWidth := !f.width.isEmpty
  width := num (decimalValue f.width)

/-- What a specification says. -/
def SpecText.spec (num : ℕ → ℕ) (t : SpecText) : FormatSpec :=
  { t.toFlagsText.spec num with
    presentationValue := t.type
    hasPrecision := t.precision.isSome
    precision := num t.precisionValue }

/-- Where a character stands in front of an alignment, it is read as a fill. -/
def AlignText.FillFirst (a : AlignText) (rest : List Char) : Prop :=
  ∀ c, (a.text ++ rest)[1]? = some c → isFormatAlign c = true → ∃ d b, a = fill d b

/-- A specification that stands at `index`, with its closing brace. -/
def SpecText.At (t : SpecText) (fmt : List Char) (index : ℕ) : Prop :=
  ∃ rest, fmt.drop index = t.fromAlign (t.fromPoint ('}' :: rest)) ∧
    t.align.FillFirst (t.fromSign (t.fromPoint ('}' :: rest)))

/-- The numbers of a specification are within the limits. -/
def SpecText.Limited (num : ℕ → ℕ) (t : SpecText) : Prop :=
  num (decimalValue t.width) ≤ maxFormatWidth ∧ num t.precisionValue ≤ maxFloatPrecision

instance (num : ℕ → ℕ) (t : SpecText) : Decidable (t.Limited num) :=
  inferInstanceAs (Decidable (_ ∧ _))

/-- A field of `length` characters stands at `offset` and says `spec`, with `num` applied to
its numbers. -/
inductive FieldText (num : ℕ → ℕ) (fmt : List Char) (offset : ℕ) : ℕ → FormatSpec → Prop
  | empty {rest : List Char} : fmt.drop offset = '{' :: '}' :: rest →
      FieldText num fmt offset 2 defaultFormatSpec
  | spec {t : SpecText} {rest : List Char} : fmt.drop offset = '{' :: ':' :: rest →
      t.At fmt (offset + 2) → t.Limited num → FieldText num fmt offset (t.size + 3) (t.spec num)

/-! ## Looking at the text -/

section Scan

variable {fmt rest part : List Char} {index : ℕ} {c : Char} {spec : FormatSpec} {f : FlagsText}

theorem drop_add (h : fmt.drop index = part ++ rest) :
    fmt.drop (index + part.length) = rest := by
  rw [← List.drop_drop, h, List.drop_left]

/-- The next character, as the scanner compares it. -/
theorem next_eq_iff :
    (index < fmt.length ∧ charAt fmt index = c) ↔ (fmt.drop index).head? = some c := by
  rw [List.head?_drop]
  constructor
  · rintro ⟨hlt, h⟩
    exact getElem?_of_charAt hlt h
  · intro h
    exact ⟨(List.getElem?_eq_some_iff.mp h).1, charAt_of_getElem? h⟩

/-- The character that stands at an index, and what follows it. -/
theorem next_of_drop (h : fmt.drop index = c :: rest) :
    (index < fmt.length ∧ charAt fmt index = c) ∧ fmt.drop (index + 1) = rest := by
  refine ⟨next_eq_iff.mpr (by rw [h]; rfl), ?_⟩
  rw [← List.drop_drop, h]
  rfl

/-- What stands in front is read as the fill and the alignment. -/
theorem parseAlign_eq {align : AlignText} (hdrop : fmt.drop index = align.text ++ rest)
    (hfill : align.FillFirst rest)
    (hnone : align = .none → ∀ c, rest.head? = some c → isFormatAlign c = false) :
    parseAlign fmt defaultFormatSpec index =
      ({ defaultFormatSpec with fill := align.padding, align := align.alignment },
        index + align.text.length) := by
  have hget : ∀ k, fmt[index + k]? = (align.text ++ rest)[k]? := by
    intro k
    rw [← hdrop, List.getElem?_drop]
  -- without a fill the second character is no alignment
  have hsecond : (∀ d b, align ≠ .fill d b) →
      ¬ (index + 1 < fmt.length ∧ isFormatAlign (charAt fmt (index + 1)) = true) := by
    rintro hno ⟨hlt, halign⟩
    have h := getElem?_of_charAt hlt rfl
    rw [hget 1] at h
    obtain ⟨d, b, heq⟩ := hfill _ h halign
    exact hno d b heq
  unfold parseAlign
  cases align with
  | fill d b =>
    have hfirst := charAt_of_getElem? (hget 0)
    have hlast := charAt_of_getElem? (hget 1)
    have hlt := (List.getElem?_eq_some_iff.mp (hget 1)).1
    rw [Nat.add_zero] at hfirst
    rw [if_pos ⟨hlt, by rw [hlast]; exact b.2⟩, hfirst, hlast]
    rfl
  | align b =>
    have hfirst := charAt_of_getElem? (hget 0)
    rw [Nat.add_zero] at hfirst
    rw [if_neg (hsecond (by intro d b h; cases h)), if_pos (by rw [hfirst]; exact b.2), hfirst]
    rfl
  | none =>
    have hfirst : ¬ isFormatAlign (charAt fmt index) = true := by
      by_cases hlt : index < fmt.length
      · have h : rest.head? = some (charAt fmt index) := by
          rw [List.head?_eq_getElem?]
          exact (hget 0).symm.trans (getElem?_of_charAt hlt rfl)
        simp [hnone rfl _ h]
      · rw [charAt, List.getD_eq_default _ _ (by omega)]
        decide
    rw [if_neg (hsecond (by intro d b h; cases h)), if_neg hfirst]
    rfl

/-- The sign that stands there is read, and none where there is none. -/
theorem parseSign_eq {sign : FormatSign} (hdrop : fmt.drop index = sign.text ++ rest)
    (hspec : spec.sign = .default)
    (hnone : sign = .default → rest.head? ≠ some '+' ∧ rest.head? ≠ some ' ') :
    parseSign fmt spec index = ({ spec with sign := sign }, index + sign.text.length) := by
  unfold parseSign
  simp only [next_eq_iff, hdrop]
  cases sign with
  | default =>
    obtain ⟨hplus, hspace⟩ := hnone rfl
    have hsame : { spec with sign := .default } = spec := by rw [← hspec]
    simp [FormatSign.text, hplus, hspace, hsame]
  | plus => simp [FormatSign.text]
  | space => simp [FormatSign.text]

theorem parseAlternate_eq {alternate : Bool}
    (hdrop : fmt.drop index = flagText '#' alternate ++ rest) (hspec : spec.alternate = false)
    (hnone : alternate = false → rest.head? ≠ some '#') :
    parseAlternate fmt spec index =
      ({ spec with alternate := alternate }, index + (flagText '#' alternate).length) := by
  unfold parseAlternate
  simp only [next_eq_iff, hdrop]
  cases alternate with
  | false =>
    have hsame : { spec with alternate := false } = spec := by rw [← hspec]
    simp [flagText, hnone, hsame]
  | true => simp [flagText]

theorem parseZeroPad_eq {zero : Bool} (hdrop : fmt.drop index = flagText '0' zero ++ rest)
    (hspec : spec.zeroPad = false) (hnone : zero = false → rest.head? ≠ some '0') :
    parseZeroPad fmt spec index =
      ({ spec with
          zeroPad := zero
          align := if zero ∧ spec.align = .default then .right else spec.align },
        index + (flagText '0' zero).length) := by
  unfold parseZeroPad
  simp only [next_eq_iff, hdrop]
  cases zero with
  | false =>
    have hsame : { spec with zeroPad := false } = spec := by rw [← hspec]
    simp [flagText, hnone, hsame]
  | true => simp [flagText]

/-- The loops over digits take all digits that stand there. -/
theorem parseDigits_append {digits : List Char} (value : ℕ)
    (hdigits : ∀ c ∈ digits, isFormatDigit c = true)
    (hend : ∀ c, rest.head? = some c → isFormatDigit c = false) :
    parseDigits (digits ++ rest) value index =
      ((digits.map formatDigitValue).foldl (fun value d => u64 (value * 10 + d)) value,
        index + digits.length) := by
  induction digits generalizing value index with
  | nil =>
    cases rest with
    | nil => rfl
    | cons c rest => simp [parseDigits, hend c rfl]
  | cons c digits ih =>
    have hc := hdigits c List.mem_cons_self
    have ht := fun x hx => hdigits x (List.mem_cons_of_mem c hx)
    rw [List.cons_append, parseDigits, if_pos hc, ih _ ht]
    simp only [List.map_cons, List.foldl_cons, List.length_cons, Prod.mk.injEq, true_and]
    omega

/-- A number that is reduced at every digit is reduced once. -/
theorem foldl_u64 (digits : List ℕ) :
    digits.foldl (fun value d => u64 (value * 10 + d)) 0 = u64 (horner 10 digits) := by
  induction digits using List.reverseRecOn with
  | nil => rfl
  | append_singleton digits d ih =>
    rw [List.foldl_concat, ih, horner_concat]
    unfold u64
    rw [Nat.add_mod, Nat.mod_mul_mod, ← Nat.add_mod]

theorem parseDigits_eq {digits : List Char}
    (hdigits : ∀ c ∈ digits, isFormatDigit c = true)
    (hend : ∀ c, rest.head? = some c → isFormatDigit c = false) :
    parseDigits (digits ++ rest) 0 index =
      (u64 (decimalValue digits), index + digits.length) := by
  rw [parseDigits_append 0 hdigits hend, foldl_u64]
  rfl

theorem parseWidth_eq {width : List Char} (hdrop : fmt.drop index = width ++ rest)
    (hdigits : ∀ c ∈ width, isFormatDigit c = true)
    (hend : ∀ c, rest.head? = some c → isFormatDigit c = false)
    (hhas : spec.hasWidth = false) (hspec : spec.width = 0) :
    parseWidth fmt spec index =
      ({ spec with hasWidth := !width.isEmpty, width := u64 (decimalValue width) },
        index + width.length) := by
  unfold parseWidth
  rw [hdrop, hspec, parseDigits_eq hdigits hend, hhas]
  cases width <;> simp

/-- A point is read with the digits behind it, unless they say too much. -/
theorem parsePrecision_eq {precision : Option (List Char)}
    (hdrop : fmt.drop index = precisionText precision ++ rest)
    (hdigits : ∀ p, precision = some p → p ≠ [] ∧ ∀ c ∈ p, isFormatDigit c = true)
    (hend : ∀ c, rest.head? = some c → isFormatDigit c = false ∧ c ≠ '.')
    (hhas : spec.hasPrecision = false) (hspec : spec.precision = 0) :
    parsePrecision fmt spec index =
      if u64 (decimalValue (precision.getD [])) ≤ maxFloatPrecision then
        some ({ spec with
            hasPrecision := precision.isSome
            precision := u64 (decimalValue (precision.getD [])) },
          index + (precisionText precision).length)
      else none := by
  unfold parsePrecision
  simp only [next_eq_iff, hdrop]
  cases precision with
  | none =>
    have hnone : rest.head? ≠ some '.' := fun h => (hend _ h).2 rfl
    have hsame : { spec with hasPrecision := false, precision := 0 } = spec := by
      rw [← hhas, ← hspec]
    simp [precisionText, hnone, decimalValue, horner, u64, hsame]
  | some p =>
    obtain ⟨hne, hp⟩ := hdigits p rfl
    have hbehind : fmt.drop (index + 1) = p ++ rest := by
      rw [← List.drop_drop, hdrop]
      rfl
    obtain ⟨c, tail, rfl⟩ := List.exists_cons_of_ne_nil hne
    have hget : fmt[index + 1]? = some c := by
      rw [← List.head?_drop, hbehind]
      rfl
    have hfirst :
        ¬ (index + 1 ≥ fmt.length ∨ (!isFormatDigit (charAt fmt (index + 1))) = true) := by
      rw [charAt_of_getElem? hget, hp c List.mem_cons_self]
      have hlt := (List.getElem?_eq_some_iff.mp hget).1
      simpa using hlt
    have hpoint : (precisionText (some (c :: tail)) ++ rest).head? = some '.' := rfl
    rw [if_pos hpoint, if_neg hfirst, hspec, hbehind, parseDigits_eq hp (fun c h => (hend c h).1)]
    dsimp only [Option.getD_some]
    by_cases hle : u64 (decimalValue (c :: tail)) ≤ maxFloatPrecision
    · rw [if_pos hle, if_neg (not_lt.mpr hle)]
      simp only [precisionText, List.length_cons, Option.isSome_some, Option.some.injEq,
        Prod.mk.injEq, true_and]
      omega
    · rw [if_neg hle, if_pos (not_le.mp hle)]

/-- The letter for the presentation is read in front of the closing brace. -/
theorem parseType_eq {type : Presentation} (hdrop : fmt.drop index = type.text ++ '}' :: rest)
    (hspec : spec.presentationValue = .default) :
    parseType fmt spec index =
      some ({ spec with presentationValue := type }, index + type.text.length) := by
  have hhead : ∀ c, (fmt.drop index).head? = some c → index < fmt.length ∧ charAt fmt index = c :=
    fun _ h => next_eq_iff.mpr h
  unfold parseType
  rw [hdrop] at hhead
  cases type with
  | default =>
    obtain ⟨-, hc⟩ := hhead _ rfl
    have hsame : { spec with presentationValue := .default } = spec := by rw [← hspec]
    simp [hc, hsame, Presentation.text]
  | _ =>
    obtain ⟨hlt, hc⟩ := hhead _ rfl
    simp [hlt, hc, parsePresentation, Presentation.text]

/-- The parts up to the width as the scanner takes them: each as far as it goes. -/
structure FlagsText.Greedy (f : FlagsText) (rest : List Char) : Prop where
  fill : f.align.FillFirst (f.fromSign rest)
  align : f.align = .none → ∀ c, (f.fromSign rest).head? = some c → isFormatAlign c = false
  sign : f.sign = .default →
    (f.fromAlternate rest).head? ≠ some '+' ∧ (f.fromAlternate rest).head? ≠ some ' '
  alternate : f.alternate = false → (f.fromZero rest).head? ≠ some '#'
  zero : f.zero = false → (f.fromWidth rest).head? ≠ some '0'
  width : ∀ c, rest.head? = some c → isFormatDigit c = false

theorem FlagsText.drop_size (f : FlagsText) (hdrop : fmt.drop index = f.fromAlign rest) :
    fmt.drop (index + f.size) = rest := by
  have h := drop_add (drop_add (drop_add (drop_add (drop_add hdrop))))
  rw [← h, FlagsText.size]
  simp only [Nat.add_assoc]

theorem parseFlags_eq (hdrop : fmt.drop index = f.fromAlign rest) (hgreedy : f.Greedy rest) :
    parseFlags fmt index = (f.spec u64, index + f.size) := by
  have hsign := drop_add hdrop
  have halternate := drop_add hsign
  have hzero := drop_add halternate
  have hwidth := drop_add hzero
  unfold parseFlags
  rw [parseAlign_eq hdrop hgreedy.fill hgreedy.align]
  dsimp only
  rw [parseSign_eq hsign rfl hgreedy.sign]
  dsimp only
  rw [parseAlternate_eq halternate rfl hgreedy.alternate]
  dsimp only
  rw [parseZeroPad_eq hzero rfl hgreedy.zero]
  dsimp only
  rw [parseWidth_eq hwidth f.width_digits hgreedy.width rfl rfl, FlagsText.size]
  simp only [Nat.add_assoc]
  rfl

/-- Any text begins with a run of digits that another character or the end stops. -/
theorem exists_digits (text : List Char) : ∃ digits rest, text = digits ++ rest ∧
    (∀ c ∈ digits, isFormatDigit c = true) ∧
      ∀ c, rest.head? = some c → isFormatDigit c = false := by
  refine ⟨text.takeWhile isFormatDigit, text.dropWhile isFormatDigit,
    List.takeWhile_append_dropWhile.symm, fun c hc => List.mem_takeWhile_imp hc, ?_⟩
  intro c hc
  have h := List.head?_dropWhile_not isFormatDigit text
  rw [hc] at h
  exact h

theorem exists_flag (c : Char) (text : List Char) : ∃ flag rest,
    text = flagText c flag ++ rest ∧ (flag = false → rest.head? ≠ some c) := by
  by_cases h : text.head? = some c
  · obtain ⟨rest, rfl⟩ := List.head?_eq_some_iff.mp h
    exact ⟨true, rest, rfl, fun h => by cases h⟩
  · exact ⟨false, text, rfl, fun _ => h⟩

theorem exists_sign (text : List Char) : ∃ sign rest,
    text = FormatSign.text sign ++ rest ∧
      (sign = .default → rest.head? ≠ some '+' ∧ rest.head? ≠ some ' ') := by
  by_cases hplus : text.head? = some '+'
  · obtain ⟨rest, rfl⟩ := List.head?_eq_some_iff.mp hplus
    exact ⟨.plus, rest, rfl, fun h => by cases h⟩
  by_cases hspace : text.head? = some ' '
  · obtain ⟨rest, rfl⟩ := List.head?_eq_some_iff.mp hspace
    exact ⟨.space, rest, rfl, fun h => by cases h⟩
  · exact ⟨.default, text, rfl, fun _ => ⟨hplus, hspace⟩⟩

theorem exists_align (text : List Char) : ∃ align rest,
    text = AlignText.text align ++ rest ∧ align.FillFirst rest ∧
      (align = .none → ∀ c, rest.head? = some c → isFormatAlign c = false) := by
  by_cases hsecond : ∃ c, text[1]? = some c ∧ isFormatAlign c = true
  · obtain ⟨a, hget, ha⟩ := hsecond
    match text, hget with
    | d :: b :: rest, hget =>
      obtain rfl : b = a := Option.some.inj hget
      exact ⟨.fill d ⟨b, ha⟩, rest, rfl, fun _ _ _ => ⟨d, ⟨b, ha⟩, rfl⟩, fun h => by cases h⟩
  have hfill : ∀ align rest, text = AlignText.text align ++ rest → align.FillFirst rest := by
    intro align rest htext c hget hc
    rw [← htext] at hget
    exact absurd ⟨c, hget, hc⟩ hsecond
  by_cases hfirst : ∃ c, text.head? = some c ∧ isFormatAlign c = true
  · obtain ⟨a, hhead, ha⟩ := hfirst
    obtain ⟨rest, rfl⟩ := List.head?_eq_some_iff.mp hhead
    exact ⟨.align ⟨a, ha⟩, rest, rfl, hfill _ _ rfl, fun h => by cases h⟩
  · refine ⟨.none, text, rfl, hfill _ _ rfl, fun _ c hc => ?_⟩
    rw [Bool.eq_false_iff]
    exact fun h => hfirst ⟨c, hc, h⟩

/-- Any text begins with parts up to the width. -/
theorem exists_flags (text : List Char) :
    ∃ f : FlagsText, ∃ rest, text = f.fromAlign rest ∧ f.Greedy rest := by
  obtain ⟨align, fromSign, rfl, hfill, halign⟩ := exists_align text
  obtain ⟨sign, fromAlternate, rfl, hsign⟩ := exists_sign fromSign
  obtain ⟨alternate, fromZero, rfl, halternate⟩ := exists_flag '#' fromAlternate
  obtain ⟨zero, fromWidth, rfl, hzero⟩ := exists_flag '0' fromZero
  obtain ⟨width, rest, rfl, hdigits, hend⟩ := exists_digits fromWidth
  have hfirst : zero = false → width.head? ≠ some '0' := by
    intro h h'
    apply hzero h
    rw [List.head?_append, h']
    rfl
  exact ⟨⟨align, sign, alternate, zero, width, hdigits, hfirst⟩, rest, rfl,
    ⟨hfill, halign, hsign, halternate, hzero, hend⟩⟩

/-- What the scanner takes for a precision is one. -/
theorem parsePrecision_cases {r : FormatSpec × ℕ} (h : parsePrecision fmt spec index = some r) :
    ∃ precision, (∀ p, precision = some p → p ≠ [] ∧ ∀ c ∈ p, isFormatDigit c = true) ∧
      fmt.drop index = precisionText precision ++ fmt.drop r.2 := by
  unfold parsePrecision at h
  by_cases hdot : index < fmt.length ∧ charAt fmt index = '.'
  · rw [if_pos hdot] at h
    by_cases hnext : index + 1 ≥ fmt.length ∨ (!isFormatDigit (charAt fmt (index + 1))) = true
    · rw [if_pos hnext] at h
      cases h
    rw [if_neg hnext] at h
    rw [not_or, not_le, Bool.not_eq_true', Bool.not_eq_false] at hnext
    have hfirst := next_eq_iff.mp ⟨hnext.1, rfl⟩
    have hpoint := drop_eq_cons (getElem?_of_charAt hdot.1 hdot.2)
    obtain ⟨digits, rest, htext, hdigits, hend⟩ := exists_digits (fmt.drop (index + 1))
    rw [htext, parseDigits_append _ hdigits hend] at h
    dsimp only at h
    split_ifs at h
    rw [← Option.some.inj h]
    refine ⟨some digits, ?_, ?_⟩
    · rintro p ⟨⟩
      refine ⟨?_, hdigits⟩
      rintro rfl
      -- the digit behind the point would be the end of an empty run
      rw [htext, List.nil_append] at hfirst
      rw [hend _ hfirst] at hnext
      cases hnext.2
    · rw [drop_add htext, hpoint, htext]
      rfl
  · rw [if_neg hdot] at h
    rw [← Option.some.inj h]
    exact ⟨none, fun p hp => (by cases hp), rfl⟩

theorem text_of_parsePresentation {type : Presentation} (h : parsePresentation c = some type) :
    type.text = [c] := by
  unfold parsePresentation at h
  split at h <;> cases h <;> rfl

/-- What the scanner takes for a type is one. -/
theorem parseType_cases {r : FormatSpec × ℕ} (h : parseType fmt spec index = some r) :
    ∃ type : Presentation, fmt.drop index = type.text ++ fmt.drop r.2 := by
  unfold parseType at h
  by_cases hchar : index < fmt.length ∧ charAt fmt index ≠ '}'
  · rw [if_pos hchar] at h
    obtain ⟨type, htype, rfl⟩ := Option.map_eq_some_iff.mp h
    refine ⟨type, ?_⟩
    rw [text_of_parsePresentation htype, drop_eq_cons (getElem?_of_charAt hchar.1 rfl)]
    rfl
  · rw [if_neg hchar] at h
    rw [← Option.some.inj h]
    exact ⟨.default, rfl⟩

end Scan

/-! ## What follows a part -/

/-- What can end a specification. -/
def typeLetters : List Char := ['d', 'x', 'X', 'p', 'f', 's', 'c', '}']

section Heads

variable {rest : List Char} {c : Char} (t : SpecText)

theorem head_append {a b : List Char} (h : (a ++ b).head? = some c) : c ∈ a ∨ b.head? = some c := by
  cases a with
  | nil => exact Or.inr h
  | cons d a =>
    obtain rfl : d = c := Option.some.inj h
    exact Or.inl List.mem_cons_self

theorem head_type {type : Presentation} (h : (type.text ++ '}' :: rest).head? = some c) :
    c ∈ typeLetters := by
  cases type <;> cases h <;> decide

theorem head_fromPoint (h : (t.fromPoint ('}' :: rest)).head? = some c) :
    c = '.' ∨ c ∈ typeLetters := by
  unfold SpecText.fromPoint at h
  cases hp : t.precision with
  | none =>
    rw [hp] at h
    exact Or.inr (head_type h)
  | some p =>
    rw [hp] at h
    exact Or.inl (Option.some.inj h).symm

theorem head_fromWidth (h : (t.fromWidth (t.fromPoint ('}' :: rest))).head? = some c) :
    isFormatDigit c = true ∨ c = '.' ∨ c ∈ typeLetters := by
  rcases head_append h with hmem | h
  · exact Or.inl (t.width_digits c hmem)
  · exact Or.inr (head_fromPoint t h)

theorem mem_flagText {d : Char} {flag : Bool} (h : c ∈ flagText d flag) : c = d := by
  cases flag
  · cases h
  · exact List.mem_singleton.mp h

theorem head_fromZero (h : (t.fromZero (t.fromPoint ('}' :: rest))).head? = some c) :
    isFormatDigit c = true ∨ c = '.' ∨ c ∈ typeLetters := by
  rcases head_append h with hmem | h
  · rw [mem_flagText hmem]
    exact Or.inl (by decide)
  · exact head_fromWidth t h

theorem head_fromAlternate (h : (t.fromAlternate (t.fromPoint ('}' :: rest))).head? = some c) :
    c = '#' ∨ isFormatDigit c = true ∨ c = '.' ∨ c ∈ typeLetters := by
  rcases head_append h with hmem | h
  · exact Or.inl (mem_flagText hmem)
  · exact Or.inr (head_fromZero t h)

theorem head_fromSign (h : (t.fromSign (t.fromPoint ('}' :: rest))).head? = some c) :
    c = '+' ∨ c = ' ' ∨ c = '#' ∨ isFormatDigit c = true ∨ c = '.' ∨ c ∈ typeLetters := by
  rcases head_append h with hmem | h
  · cases hs : t.sign with
    | default => simp [hs, FormatSign.text] at hmem
    | plus => simp_all [FormatSign.text]
    | space => simp_all [FormatSign.text]
  · exact Or.inr (Or.inr (head_fromAlternate t h))

/-- A digit is no alignment. -/
theorem isFormatAlign_of_isFormatDigit (h : isFormatDigit c = true) : isFormatAlign c = false := by
  have hne : ∀ d, isFormatDigit d = false → c ≠ d := by
    rintro d hd rfl
    rw [hd] at h
    cases h
  simp [isFormatAlign, hne '<' (by decide), hne '>' (by decide), hne '^' (by decide)]

/-- Nor is what ends a specification a digit or an alignment. -/
theorem plain_of_mem_typeLetters (h : c ∈ typeLetters) :
    isFormatDigit c = false ∧ isFormatAlign c = false := by
  simp only [typeLetters, List.mem_cons, List.not_mem_nil, or_false] at h
  rcases h with rfl | rfl | rfl | rfl | rfl | rfl | rfl | rfl <;> decide

/-- The scanner takes every part of a specification as far as it goes. -/
theorem SpecText.greedy (hfill : t.align.FillFirst (t.fromSign (t.fromPoint ('}' :: rest)))) :
    t.Greedy (t.fromPoint ('}' :: rest)) where
  fill := hfill
  align := by
    intro _ c hc
    rcases head_fromSign t hc with rfl | rfl | rfl | hdigit | rfl | hletter
    · decide
    · decide
    · decide
    · exact isFormatAlign_of_isFormatDigit hdigit
    · decide
    · exact (plain_of_mem_typeLetters hletter).2
  sign := by
    intro _
    constructor
    · intro hc
      rcases head_fromAlternate t hc with h | h | h | h <;> revert h <;> decide
    · intro hc
      rcases head_fromAlternate t hc with h | h | h | h <;> revert h <;> decide
  alternate := by
    intro _ hc
    rcases head_fromZero t hc with h | h | h <;> revert h <;> decide
  zero := by
    intro hzero hc
    have hfirst := t.zero_first hzero
    unfold FlagsText.fromWidth at hc
    cases hw : t.width with
    | nil =>
      rw [hw] at hc
      rcases head_fromPoint t hc with h | h <;> revert h <;> decide
    | cons d width =>
      rw [hw] at hc hfirst
      exact hfirst hc
  width := by
    intro c hc
    rcases head_fromPoint t hc with rfl | hletter
    · decide
    · exact (plain_of_mem_typeLetters hletter).1

end Heads

/-! ## The scanner and the grammar -/

section Grammar

variable {fmt : List Char} {index offset length : ℕ} {spec : FormatSpec} {t : SpecText}

/-- The width counts only where digits are written. -/
theorem FlagsText.width_refused_iff (f : FlagsText) :
    ((f.spec u64).hasWidth = true ∧ (f.spec u64).width > maxFormatWidth) ↔
      ¬ u64 (decimalValue f.width) ≤ maxFormatWidth := by
  rw [not_le]
  refine ⟨fun h => h.2, fun h => ⟨?_, h⟩⟩
  cases hw : f.width with
  | nil =>
    rw [hw] at h
    cases h
  | cons c width => simp [FlagsText.spec, hw]

/-- A specification is read with its numbers in 64 bits, and refused when they are then
beyond the limits. -/
theorem parseSpec_eq (hat : t.At fmt index) :
    parseSpec fmt index =
      if t.Limited u64 then some (t.spec u64, index + t.size) else none := by
  obtain ⟨rest, hdrop, hfill⟩ := hat
  have hpoint := t.drop_size hdrop
  have htype := drop_add hpoint
  have hbrace := (next_of_drop (drop_add htype)).1
  have hend : ∀ c, (t.type.text ++ '}' :: rest).head? = some c →
      isFormatDigit c = false ∧ c ≠ '.' := by
    intro c hc
    refine ⟨(plain_of_mem_typeLetters (head_type hc)).1, ?_⟩
    rintro rfl
    exact absurd (head_type hc) (by decide)
  unfold parseSpec
  dsimp only
  rw [parseFlags_eq hdrop (t.greedy hfill)]
  dsimp only
  by_cases hw : u64 (decimalValue t.width) ≤ maxFormatWidth
  · rw [if_neg (fun h => t.width_refused_iff.mp h hw),
      parsePrecision_eq hpoint t.precision_digits hend rfl rfl]
    by_cases hp : u64 (decimalValue (t.precision.getD [])) ≤ maxFloatPrecision
    · rw [if_pos hp, if_pos ⟨hw, hp⟩]
      have hlast : ¬ (index + t.toFlagsText.size + (precisionText t.precision).length +
            t.type.text.length ≥ fmt.length ∨
          charAt fmt (index + t.toFlagsText.size + (precisionText t.precision).length +
            t.type.text.length) ≠ '}') := by
        rw [not_or, not_le, not_not]
        exact hbrace
      rw [Option.bind_eq_bind, Option.bind_some, parseType_eq htype rfl, Option.bind_some,
        if_neg hlast]
      simp only [SpecText.size, Nat.add_assoc]
      rfl
    · rw [if_neg hp, if_neg (fun h => hp h.2)]
      rfl
  · rw [if_pos (t.width_refused_iff.mpr hw), if_neg (fun h => hw h.1)]

/-- What the scanner takes for a specification is one. -/
theorem exists_specText {r : FormatSpec × ℕ} (h : parseSpec fmt index = some r) :
    ∃ t : SpecText, t.At fmt index := by
  obtain ⟨f, rest, htext, hgreedy⟩ := exists_flags (fmt.drop index)
  obtain ⟨r₁, hr₁, hr, hlt, hbrace⟩ := parseSpec_stages h
  rw [parseFlags_eq htext hgreedy] at hr₁
  obtain ⟨precision, hdigits, hprecision⟩ := parsePrecision_cases hr₁
  obtain ⟨type, htype⟩ := parseType_cases hr
  rw [f.drop_size htext, htype, drop_eq_cons (getElem?_of_charAt hlt hbrace)] at hprecision
  subst hprecision
  exact ⟨⟨f, precision, type, hdigits⟩, fmt.drop (r.2 + 1), htext, hgreedy.fill⟩

/-- A field begins with a brace, and closes at once or has a specification. -/
theorem parseFieldAt_cases (h : parseFieldAt fmt offset = ⟨true, length, spec⟩) :
    (∃ rest, fmt.drop offset = '{' :: '}' :: rest) ∨
      ∃ rest, fmt.drop offset = '{' :: ':' :: rest ∧ ∃ t : SpecText, t.At fmt (offset + 2) := by
  obtain ⟨hopen, ⟨hclose, -⟩ | ⟨hcolon, last, hspec, -⟩⟩ := parseFieldAt_valid h
  · exact Or.inl ⟨_, by rw [drop_eq_cons hopen, drop_eq_cons hclose]⟩
  · exact Or.inr ⟨_, by rw [drop_eq_cons hopen, drop_eq_cons hcolon], exists_specText hspec⟩

theorem parseFieldAt_empty {rest : List Char} (hhead : fmt.drop offset = '{' :: '}' :: rest) :
    parseFieldAt fmt offset = ⟨true, 2, defaultFormatSpec⟩ := by
  obtain ⟨hopen, htail⟩ := next_of_drop hhead
  obtain ⟨hclose, -⟩ := next_of_drop htail
  unfold parseFieldAt
  rw [if_neg, if_pos hclose.2]
  rw [not_or, not_le, not_not]
  exact ⟨hclose.1, hopen.2⟩

theorem parseFieldAt_spec {rest : List Char} (hhead : fmt.drop offset = '{' :: ':' :: rest)
    (hat : t.At fmt (offset + 2)) :
    parseFieldAt fmt offset =
      if t.Limited u64 then ⟨true, t.size + 3, t.spec u64⟩ else invalidFormatField := by
  obtain ⟨hopen, htail⟩ := next_of_drop hhead
  obtain ⟨hcolon, -⟩ := next_of_drop htail
  have hshort : ¬ (offset + 1 ≥ fmt.length ∨ charAt fmt offset ≠ '{') := by
    rw [not_or, not_le, not_not]
    exact ⟨hcolon.1, hopen.2⟩
  have hclose : ¬ charAt fmt (offset + 1) = '}' := by
    rw [hcolon.2]
    decide
  -- the closing brace stands inside the text
  have hend : ¬ offset + 2 ≥ fmt.length := by
    obtain ⟨brace, htext, -⟩ := hat
    have hlast := drop_add (drop_add (t.drop_size htext))
    have hlt := (next_of_drop hlast).1.1
    omega
  have hlength : offset + 2 + t.size - offset + 1 = t.size + 3 := by omega
  unfold parseFieldAt
  rw [if_neg hshort, if_neg hclose, if_neg (not_not.mpr hcolon.2), if_neg hend, parseSpec_eq hat]
  by_cases hlimited : t.Limited u64
  · rw [if_pos hlimited, if_pos hlimited]
    dsimp only
    rw [hlength]
  · rw [if_neg hlimited, if_neg hlimited]

/-- A valid field is one whose numbers are within the limits once they are in 64 bits. -/
theorem parseFieldAt_iff :
    parseFieldAt fmt offset = ⟨true, length, spec⟩ ↔ FieldText u64 fmt offset length spec := by
  constructor
  · intro h
    rcases parseFieldAt_cases h with ⟨rest, hhead⟩ | ⟨rest, hhead, t, hat⟩
    · rw [parseFieldAt_empty hhead] at h
      obtain ⟨-, rfl, rfl⟩ := FormatField.mk.inj h
      exact FieldText.empty hhead
    · rw [parseFieldAt_spec hhead hat] at h
      by_cases hlimited : t.Limited u64
      · rw [if_pos hlimited] at h
        obtain ⟨-, rfl, rfl⟩ := FormatField.mk.inj h
        exact FieldText.spec hhead hat hlimited
      · rw [if_neg hlimited] at h
        cases h
  · intro h
    cases h with
    | empty hhead => exact parseFieldAt_empty hhead
    | spec hhead hat hlimited => rw [parseFieldAt_spec hhead hat, if_pos hlimited]

/-! ## One reading of a text -/

/-- Two parts that a stage of the scanner ends behind are the same. -/
theorem part_unique {α : Type} {x y : α} {a b r r' : List Char} {result : α × ℕ}
    (hx : result = (x, index + a.length)) (hy : result = (y, index + b.length))
    (htext : a ++ r = b ++ r') : a = b ∧ r = r' := by
  have hlength := (Prod.mk.inj (hx.symm.trans hy)).2
  exact List.append_inj htext (Nat.add_left_cancel hlength)

theorem digits_unique {a b r r' : List Char} (ha : ∀ c ∈ a, isFormatDigit c = true)
    (hb : ∀ c ∈ b, isFormatDigit c = true) (hr : ∀ c, r.head? = some c → isFormatDigit c = false)
    (hr' : ∀ c, r'.head? = some c → isFormatDigit c = false) (htext : a ++ r = b ++ r') :
    a = b ∧ r = r' := by
  have hx := @parseDigits_eq _ 0 _ ha hr
  have hy := @parseDigits_eq _ 0 _ hb hr'
  rw [← htext] at hy
  exact part_unique hx hy htext

theorem FlagsText.Greedy.unique {f f' : FlagsText} {rest rest' : List Char}
    (h : f.Greedy rest) (h' : f'.Greedy rest') (htext : f.fromAlign rest = f'.fromAlign rest') :
    f.width = f'.width ∧ rest = rest' := by
  have halign := @parseAlign_eq (f.fromAlign rest) _ 0 _ rfl h.fill h.align
  obtain ⟨-, htext⟩ := part_unique halign (parseAlign_eq htext h'.fill h'.align) htext
  have hsign := @parseSign_eq (f.fromSign rest) _ 0 defaultFormatSpec _ rfl rfl h.sign
  obtain ⟨-, htext⟩ := part_unique hsign (parseSign_eq htext rfl h'.sign) htext
  have halternate :=
    @parseAlternate_eq (f.fromAlternate rest) _ 0 defaultFormatSpec _ rfl rfl h.alternate
  obtain ⟨-, htext⟩ := part_unique halternate (parseAlternate_eq htext rfl h'.alternate) htext
  have hzero := @parseZeroPad_eq (f.fromZero rest) _ 0 defaultFormatSpec _ rfl rfl h.zero
  obtain ⟨-, htext⟩ := part_unique hzero (parseZeroPad_eq htext rfl h'.zero) htext
  exact digits_unique f.width_digits f'.width_digits h.width h'.width htext

/-- A text is read in one way, as far as the numbers go. -/
theorem SpecText.At.unique {t' : SpecText} (h : t.At fmt index) (h' : t'.At fmt index) :
    t.width = t'.width ∧ t.precision = t'.precision := by
  obtain ⟨rest, hdrop, hfill⟩ := h
  obtain ⟨rest', hdrop', hfill'⟩ := h'
  obtain ⟨hwidth, hpoint⟩ :=
    (t.greedy hfill).unique (t'.greedy hfill') (hdrop.symm.trans hdrop')
  refine ⟨hwidth, ?_⟩
  unfold fromPoint at hpoint
  cases hp : t.precision with
  | none =>
    cases hp' : t'.precision with
    | none => rfl
    | some p' =>
      rw [hp, hp'] at hpoint
      have hpoint' := head_type (congrArg List.head? hpoint)
      exact absurd hpoint' (by decide)
  | some p =>
    cases hp' : t'.precision with
    | none =>
      rw [hp, hp'] at hpoint
      have hpoint' := head_type (congrArg List.head? hpoint.symm)
      exact absurd hpoint' (by decide)
    | some p' =>
      rw [hp, hp'] at hpoint
      have hdigits := fun {t : SpecText} {rest : List Char} c
        (hc : (t.type.text ++ '}' :: rest).head? = some c) =>
          (plain_of_mem_typeLetters (head_type hc)).1
      rw [(digits_unique (t.precision_digits p hp).2 (t'.precision_digits p' hp').2 hdigits
        hdigits (List.cons.inj hpoint).2).1]

/-! ## The fields that are read faithfully -/

/-- The valid fields at `offset` are those of the grammar, with their numbers as written. -/
def Faithful (fmt : List Char) (offset : ℕ) : Prop :=
  ∀ length spec, parseFieldAt fmt offset = ⟨true, length, spec⟩ ↔
    FieldText id fmt offset length spec

/-- At `offset` stands a number from 2^64 on in a field whose numbers are within the limits
modulo 2^64. -/
def Wraps (fmt : List Char) (offset : ℕ) : Prop :=
  ∃ t : SpecText, (∃ rest, fmt.drop offset = '{' :: ':' :: rest) ∧ t.At fmt (offset + 2) ∧
    t.Limited u64 ∧ (2 ^ 64 ≤ decimalValue t.width ∨ 2 ^ 64 ≤ t.precisionValue)

theorem SpecText.Limited.lt (h : t.Limited id) :
    decimalValue t.width < 2 ^ 64 ∧ t.precisionValue < 2 ^ 64 := by
  obtain ⟨hwidth, hprecision⟩ := h
  unfold maxFormatWidth at hwidth
  unfold maxFloatPrecision at hprecision
  dsimp only [id] at hwidth hprecision
  omega

/-- Numbers below 2^64 are read as they are. -/
theorem SpecText.spec_u64 (hwidth : decimalValue t.width < 2 ^ 64)
    (hprecision : t.precisionValue < 2 ^ 64) : t.spec u64 = t.spec id := by
  simp only [SpecText.spec, FlagsText.spec, u64_of_lt hwidth, u64_of_lt hprecision, id]

theorem SpecText.limited_u64 (hwidth : decimalValue t.width < 2 ^ 64)
    (hprecision : t.precisionValue < 2 ^ 64) : t.Limited u64 ↔ t.Limited id := by
  simp only [SpecText.Limited, u64_of_lt hwidth, u64_of_lt hprecision, id]

theorem not_faithful_of_wraps (h : Wraps fmt offset) : ¬ Faithful fmt offset := by
  obtain ⟨t, ⟨rest, hhead⟩, hat, hlimited, hlarge⟩ := h
  intro hfaithful
  have hread := parseFieldAt_iff.mpr (FieldText.spec hhead hat hlimited)
  generalize t.spec u64 = spec at hread
  generalize t.size + 3 = length at hread
  cases (hfaithful _ _).mp hread with
  | empty hhead' =>
    rw [hhead] at hhead'
    cases hhead'
  | spec hhead' hat' hlimited' =>
    -- the other reading has the same digits, which are then too large for the limits
    obtain ⟨hwidth, hprecision⟩ := hat.unique hat'
    have hlt := hlimited'.lt
    unfold SpecText.precisionValue at hlt hlarge
    rw [← hwidth, ← hprecision] at hlt
    omega

theorem faithful_of_not_wraps (h : ¬ Wraps fmt offset) : Faithful fmt offset := by
  intro length spec
  rw [parseFieldAt_iff]
  constructor
  · intro hfield
    cases hfield with
    | empty hhead => exact FieldText.empty hhead
    | @spec t rest hhead hat hlimited =>
      have hlt : decimalValue t.width < 2 ^ 64 ∧ t.precisionValue < 2 ^ 64 := by
        by_contra hlarge
        exact h ⟨t, ⟨rest, hhead⟩, hat, hlimited, by omega⟩
      rw [t.spec_u64 hlt.1 hlt.2]
      exact FieldText.spec hhead hat ((t.limited_u64 hlt.1 hlt.2).mp hlimited)
  · intro hfield
    cases hfield with
    | empty hhead => exact FieldText.empty hhead
    | @spec t rest hhead hat hlimited =>
      obtain ⟨hwidth, hprecision⟩ := hlimited.lt
      rw [← t.spec_u64 hwidth hprecision]
      exact FieldText.spec hhead hat ((t.limited_u64 hwidth hprecision).mpr hlimited)

/-- Fields are read faithfully exactly where no number passes the limits by wrapping. -/
theorem parse_field_faithful_iff (fmt : List Char) (offset : ℕ) :
    Faithful fmt offset ↔ ¬ Wraps fmt offset :=
  ⟨fun h hwraps => not_faithful_of_wraps hwraps h, faithful_of_not_wraps⟩

end Grammar

/-- The number 2^64 + 1 as a width. -/
def wrappingWidth : List Char :=
  ['1', '8', '4', '4', '6', '7', '4', '4', '0', '7', '3', '7', '0', '9', '5', '5', '1', '6', '1',
    '7']

/-- A field with a width of 2^64 + 1 is read as one with the width 1. -/
theorem parse_field_wraps :
    parseFieldAt ('{' :: ':' :: wrappingWidth ++ ['}']) 0
        = ⟨true, 23, { hasWidth := true, width := 1 }⟩ ∧
      ¬ Faithful ('{' :: ':' :: wrappingWidth ++ ['}']) 0 := by
  refine ⟨by decide, not_faithful_of_wraps ?_⟩
  let t : SpecText :=
    { align := .none
      sign := .default
      alternate := false
      zero := false
      width := wrappingWidth
      width_digits := List.all_eq_true.mp rfl
      zero_first := by decide
      precision := none
      type := .default
      precision_digits := by decide }
  have hat : t.At ('{' :: ':' :: wrappingWidth ++ ['}']) (0 + 2) := by
    refine ⟨[], rfl, ?_⟩
    intro c hc halign
    obtain rfl : '8' = c := Option.some.inj hc
    cases halign
  exact ⟨t, ⟨_, rfl⟩, hat, by decide, Or.inl (by decide)⟩

end Kprint

end DoomOs
