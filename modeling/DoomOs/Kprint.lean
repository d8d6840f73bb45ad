/-
# Printing with a format string

`kernel/debug/kprint.hpp`.  `emit_format` goes through a format string a second time,
independently of `parse_format`, and writes it out with its arguments put in.  Both
recognise fields with `parse_field_at` but step over everything else in their own way:
`parse_format` character by character, `emit_format` by whole runs of text.

The meaning of a format string is a list of pieces (`Scans`).  Each of the two scanners
follows it, so they agree (`emit_format_agrees`).
-/
import DoomOs.FormatSpec

namespace DoomOs

namespace Kprint

/-! ## Emitting -/

/-- What stops the expansion of `emit_format`: its two static assertions, or a depth of
instantiation that is used up. -/
inductive Stop where
  | invalidReplacementField (offset : ℕ)
  | argumentIndexOutOfRange (target : ℕ)
  | depth
  deriving DecidableEq

/-- What has been written, with the fields that were met on the way and the arguments
that were put in for them. -/
structure Emitted where
  output : List Char
  fields : List (ℕ × FormatSpec)
  arguments : List ℕ
  deriving DecidableEq

/-- Something written before the rest. -/
def Emitted.prepend (text : List Char) (e : Emitted) : Emitted :=
  { e with output := text ++ e.output }

/-- A field met before the rest. -/
def Emitted.prependField (text : List Char) (offset : ℕ) (spec : FormatSpec) (argIndex : ℕ)
    (e : Emitted) : Emitted :=
  ⟨text ++ e.output, (offset, spec) :: e.fields, argIndex :: e.arguments⟩

section Emit

-- `β` is the type of the arguments, and `emitValue spec value` what `emit_value` writes
variable {β : Type} (emitValue : FormatSpec → β → List Char)

/-- `emit_nth_arg`. -/
def emitNthArg (spec : FormatSpec) : (targetIndex : ℕ) → List β → Except Stop (List Char)
  | targetIndex, [] => .error (.argumentIndexOutOfRange targetIndex)
  | 0, value :: _ => .ok (emitValue spec value)
  | targetIndex + 1, _ :: rest => emitNthArg spec targetIndex rest

/-- `emit_format`, to a depth of `fuel`. -/
def emitFormat (fmt : List Char) (args : List β) : (fuel offset argIndex : ℕ) →
    Except Stop Emitted
  | 0, _, _ => .error .depth
  | fuel + 1, offset, argIndex =>
    if offset ≥ fmt.length then .ok ⟨[], [], []⟩
    else if formatCharAt fmt offset = '{' ∧ formatCharAt fmt (offset + 1) = '{' then do
      let rest ← emitFormat fmt args fuel (offset + 2) argIndex
      pure (rest.prepend ['{'])
    else if formatCharAt fmt offset = '}' ∧ formatCharAt fmt (offset + 1) = '}' then do
      let rest ← emitFormat fmt args fuel (offset + 2) argIndex
      pure (rest.prepend ['}'])
    else if formatCharAt fmt offset = '{' then do
      let field := parseFieldAt fmt offset
      if field.valid then
        let text ← emitNthArg emitValue field.spec argIndex args
        let rest ← emitFormat fmt args fuel (offset + field.length) (argIndex + 1)
        pure (rest.prependField text offset field.spec argIndex)
      else .error (.invalidReplacementField offset)
    else
      let runLength := literalRunLength fmt offset
      if runLength > 0 then do
        let rest ← emitFormat fmt args fuel (offset + runLength) argIndex
        pure (rest.prepend ((fmt.drop offset).take runLength))
      else do
        let rest ← emitFormat fmt args fuel (offset + 1) argIndex
        pure (rest.prepend [formatCharAt fmt offset])

end Emit

/-! ## The pieces of a format string -/

/-- A piece: a character of text, a doubled brace, or a field of `length` characters. -/
inductive Piece where
  | text (c : Char)
  | escape (c : Char)
  | field (length : ℕ) (spec : FormatSpec)
  deriving DecidableEq

/-- How many characters of the format string a piece takes. -/
def Piece.size : Piece → ℕ
  | text _ => 1
  | escape _ => 2
  | field length _ => length

/-- `pieces` are what `fmt` says from `offset` on. -/
inductive Scans (fmt : List Char) : ℕ → List Piece → Prop
  | done : Scans fmt fmt.length []
  | text {offset : ℕ} {c : Char} {pieces : List Piece} : fmt[offset]? = some c →
      c ≠ '{' → c ≠ '}' → Scans fmt (offset + 1) pieces →
      Scans fmt offset (.text c :: pieces)
  | escape {offset : ℕ} {c : Char} {pieces : List Piece} : c = '{' ∨ c = '}' →
      fmt[offset]? = some c → fmt[offset + 1]? = some c → Scans fmt (offset + 2) pieces →
      Scans fmt offset (.escape c :: pieces)
  | field {offset length : ℕ} {spec : FormatSpec} {pieces : List Piece} :
      parseFieldAt fmt offset = ⟨true, length, spec⟩ → Scans fmt (offset + length) pieces →
      Scans fmt offset (.field length spec :: pieces)

/-- The fields among the pieces, with their places when the first piece is at `offset`. -/
def fieldsAt : (offset : ℕ) → List Piece → List (ℕ × FormatSpec)
  | _, [] => []
  | offset, .text _ :: pieces => fieldsAt (offset + 1) pieces
  | offset, .escape _ :: pieces => fieldsAt (offset + 2) pieces
  | offset, .field length spec :: pieces => (offset, spec) :: fieldsAt (offset + length) pieces

section Render

variable {β : Type} (emitValue : FormatSpec → β → List Char)

/-- What a format string stands for: text as it is, one brace for two, and the arguments
in their order for the fields. -/
def render : List Piece → List β → List Char
  | [], _ => []
  | .text c :: pieces, args => c :: render pieces args
  | .escape c :: pieces, args => c :: render pieces args
  | .field _ _ :: pieces, [] => render pieces []
  | .field _ spec :: pieces, value :: args => emitValue spec value ++ render pieces args

end Render

/-! ## Both scanners follow the pieces -/

theorem Scans.le_length {fmt : List Char} {offset : ℕ} {pieces : List Piece}
    (h : Scans fmt offset pieces) : offset ≤ fmt.length := by
  cases h with
  | done => exact le_rfl
  | text hc => exact (List.getElem?_eq_some_iff.mp hc).1.le
  | escape _ hc => exact (List.getElem?_eq_some_iff.mp hc).1.le
  | field hf =>
    obtain ⟨-, -, -, hle⟩ := parseFieldAt_bounds hf
    omega

/-- A format string that `parse_format` accepts has pieces, and their fields are those it
met. -/
theorem scans_of_parseFormatFrom {fmt : List Char} : ∀ {fuel index fieldCount : ℕ}
    {fields : List (ℕ × FormatSpec)} {r : FormatParseResult}, index ≤ fmt.length →
    parseFormatFrom fmt fuel index fieldCount fields = some r → r.valid = true →
    ∃ pieces, Scans fmt index pieces ∧ r.fields = fields ++ fieldsAt index pieces ∧
      r.fieldCount = fieldCount + (fieldsAt index pieces).length := by
  intro fuel
  induction fuel with
  | zero =>
    intro index fieldCount fields r _ h
    cases h
  | succ fuel ih =>
    intro index fieldCount fields r hi h hvalid
    rcases parseFormatFrom_cases fmt fuel index fieldCount fields with
      ⟨hend, heq⟩ | ⟨c, hc, h1, h2, heq⟩ | ⟨length, spec, hfield, heq⟩ | ⟨c, h1, ho, hcl, heq⟩ | heq
    · rw [heq] at h
      cases h
      obtain rfl : index = fmt.length := by omega
      exact ⟨[], .done, (List.append_nil _).symm, rfl⟩
    · rw [heq] at h
      have hlt := (List.getElem?_eq_some_iff.mp h2).1
      obtain ⟨pieces, hs, hf, hn⟩ := ih (by omega) h hvalid
      exact ⟨.escape c :: pieces, .escape hc h1 h2 hs, hf, hn⟩
    · rw [heq] at h
      obtain ⟨-, -, -, hle⟩ := parseFieldAt_bounds hfield
      obtain ⟨pieces, hs, hf, hn⟩ := ih hle h hvalid
      refine ⟨.field length spec :: pieces, .field hfield hs, ?_, ?_⟩
      · rw [hf, fieldsAt, List.append_assoc, List.singleton_append]
      · rw [hn, fieldsAt, List.length_cons]
        omega
    · rw [heq] at h
      have hlt := (List.getElem?_eq_some_iff.mp h1).1
      obtain ⟨pieces, hs, hf, hn⟩ := ih (by omega) h hvalid
      exact ⟨.text c :: pieces, .text h1 ho hcl hs, hf, hn⟩
    · rw [heq] at h
      cases h
      cases hvalid

/-- The pieces of a run of text are its characters. -/
theorem Scans.literalRun {fmt : List Char} {offset : ℕ} {pieces : List Piece}
    (h : Scans fmt offset pieces) :
    ∃ rest, pieces = ((fmt.drop offset).take (literalRunLength fmt offset)).map .text ++ rest ∧
      Scans fmt (offset + literalRunLength fmt offset) rest ∧
      ((fmt.drop offset).take (literalRunLength fmt offset)).length
        = literalRunLength fmt offset := by
  -- no run begins at a brace
  have hbrace : ∀ {offset : ℕ} {c : Char}, fmt[offset]? = some c → c = '{' ∨ c = '}' →
      literalRunLength fmt offset = 0 := by
    intro offset c hc hb
    rw [literalRunLength, drop_eq_cons hc, Kprint.literalRun, if_pos hb]
  induction h with
  | done =>
    refine ⟨[], ?_, ?_, ?_⟩
    · rw [List.drop_length, List.take_nil]
      rfl
    · rw [literalRunLength, List.drop_length]
      exact .done
    · rw [literalRunLength, List.drop_length]
      rfl
  | @text offset c pieces hc ho hcl hs ih =>
    obtain ⟨rest, hp, hrest, hlen⟩ := ih
    have hrun : literalRunLength fmt offset = literalRunLength fmt (offset + 1) + 1 := by
      rw [literalRunLength, drop_eq_cons hc, Kprint.literalRun, if_neg (not_or.mpr ⟨ho, hcl⟩)]
      rfl
    refine ⟨rest, ?_, ?_, ?_⟩
    · rw [hrun, drop_eq_cons hc, List.take_succ_cons, List.map_cons, List.cons_append, ← hp]
    · rw [hrun, show offset + (literalRunLength fmt (offset + 1) + 1)
        = offset + 1 + literalRunLength fmt (offset + 1) by omega]
      exact hrest
    · rw [hrun, drop_eq_cons hc, List.take_succ_cons, List.length_cons, hlen]
  | escape hb hc h2 hs _ =>
    have hrun := hbrace hc hb
    rw [hrun]
    exact ⟨_, rfl, .escape hb hc h2 hs, rfl⟩
  | field hf hs _ =>
    have hrun := hbrace (parseFieldAt_bounds hf).1 (Or.inl rfl)
    rw [hrun]
    exact ⟨_, rfl, .field hf hs, rfl⟩

theorem fieldsAt_text (l : List Char) (pieces : List Piece) : ∀ offset : ℕ,
    fieldsAt offset (l.map .text ++ pieces) = fieldsAt (offset + l.length) pieces := by
  induction l with
  | nil => exact fun _ => rfl
  | cons c l ih =>
    intro offset
    rw [List.map_cons, List.cons_append, fieldsAt, ih, List.length_cons]
    congr 1
    omega

section Agreement

variable {β : Type} {emitValue : FormatSpec → β → List Char}

theorem render_text (l : List Char) (pieces : List Piece) (args : List β) :
    render emitValue (l.map .text ++ pieces) args = l ++ render emitValue pieces args := by
  induction l with
  | nil => rfl
  | cons c l ih => rw [List.map_cons, List.cons_append, render, ih, List.cons_append]

theorem emitNthArg_of_drop {spec : FormatSpec} {value : β} {rest : List β} :
    ∀ {i : ℕ} {args : List β}, args.drop i = value :: rest →
    emitNthArg emitValue spec i args = .ok (emitValue spec value) := by
  intro i
  induction i with
  | zero =>
    intro args h
    rw [List.drop_zero] at h
    rw [h, emitNthArg]
  | succ i ih =>
    intro args h
    cases args with
    | nil => cases h
    | cons a args => exact ih h

/-- `emit_format` writes what the pieces stand for. -/
theorem emitFormat_of_scans {fmt : List Char} {args : List β} : ∀ {fuel offset argIndex : ℕ}
    {pieces : List Piece}, Scans fmt offset pieces → fmt.length + 1 ≤ fuel + offset →
    argIndex + (fieldsAt offset pieces).length = args.length →
    emitFormat emitValue fmt args fuel offset argIndex
      = .ok ⟨render emitValue pieces (args.drop argIndex), fieldsAt offset pieces,
          List.range' argIndex (fieldsAt offset pieces).length⟩ := by
  intro fuel
  induction fuel with
  | zero =>
    intro offset argIndex pieces h hle
    have hlen := h.le_length
    omega
  | succ fuel ih =>
    intro offset argIndex pieces h hle hargs
    have ho : '{' ≠ '\x00' := by decide
    have hc : '}' ≠ '\x00' := by decide
    rw [emitFormat]
    simp only [formatCharAt_eq_iff ho, formatCharAt_eq_iff hc]
    have hrun := h.literalRun
    cases h with
    | done =>
      rw [if_pos le_rfl]
      rfl
    | @text _ c pieces hchar hno hnc hs =>
      have hlt := (List.getElem?_eq_some_iff.mp hchar).1
      have hopen : ¬ fmt[offset]? = some '{' := by
        rw [hchar]
        exact fun h => hno (Option.some.inj h)
      have hclose : ¬ fmt[offset]? = some '}' := by
        rw [hchar]
        exact fun h => hnc (Option.some.inj h)
      have hpos : 0 < literalRunLength fmt offset := by
        rw [literalRunLength, drop_eq_cons hchar, literalRun, if_neg (not_or.mpr ⟨hno, hnc⟩)]
        omega
      rw [if_neg (by omega), if_neg (fun h => hopen h.1), if_neg (fun h => hclose h.1),
        if_neg hopen, if_pos hpos]
      obtain ⟨rest, hp, hrest, hlen⟩ := hrun
      rw [hp, fieldsAt_text, hlen] at hargs
      rw [hp, fieldsAt_text, render_text, hlen, ih hrest (by omega) hargs]
      rfl
    | @escape _ c pieces hb h1 h2 hs =>
      have hlt := (List.getElem?_eq_some_iff.mp h1).1
      have hrest := ih hs (by omega) hargs
      rw [if_neg (by omega)]
      rcases hb with rfl | rfl
      · rw [if_pos ⟨h1, h2⟩, hrest]
        rfl
      · have hopen : ¬ fmt[offset]? = some '{' := by
          rw [h1]
          decide
        rw [if_neg (fun h => hopen h.1), if_pos ⟨h1, h2⟩, hrest]
        rfl
    | @field _ length spec pieces hf hs =>
      obtain ⟨hopen, hsecond, htwo, hin⟩ := parseFieldAt_bounds hf
      have hclose : ¬ fmt[offset]? = some '}' := by
        rw [hopen]
        decide
      rw [fieldsAt, List.length_cons] at hargs
      obtain ⟨value, hvalue⟩ : ∃ value, args.drop argIndex = value :: args.drop (argIndex + 1) :=
        ⟨_, List.drop_eq_getElem_cons (by omega)⟩
      rw [if_neg (by omega), if_neg (fun h => hsecond h.2), if_neg (fun h => hclose h.1),
        if_pos hopen, hf]
      simp only [if_true, emitNthArg_of_drop hvalue,
        ih hs (by omega) (by omega : argIndex + 1 + _ = _)]
      rw [hvalue, render, fieldsAt, List.length_cons, List.range'_succ]
      rfl

/-- **Validation and emission agree.**  When `parse_format` accepts a format string and
counts as many fields as there are arguments, `emit_format` goes through without one of
its assertions.  It meets the fields that `parse_format` met, at the same places and with
the same specifications, puts in the arguments in their order, one each, and writes out
the pieces of the string from left to right. -/
theorem emit_format_agrees (emitValue : FormatSpec → β → List Char) {fmt : List Char}
    {r : FormatParseResult} (hparse : parseFormat fmt = some r) (hvalid : r.valid = true)
    (args : List β) (hcount : r.fieldCount = args.length) :
    ∃ pieces, Scans fmt 0 pieces ∧ r.fields = fieldsAt 0 pieces ∧
      r.fields.length = args.length ∧
      ∀ fuel ≥ fmt.length + 1, emitFormat emitValue fmt args fuel 0 0
        = .ok ⟨render emitValue pieces args, r.fields, List.range args.length⟩ := by
  obtain ⟨pieces, hs, hf, hn⟩ := scans_of_parseFormatFrom (Nat.zero_le _) hparse hvalid
  rw [List.nil_append] at hf
  have hlen : (fieldsAt 0 pieces).length = args.length := by omega
  refine ⟨pieces, hs, hf, by rw [hf, hlen], fun fuel hfuel => ?_⟩
  rw [emitFormat_of_scans hs (by omega) (by omega), hf, hlen, List.drop_zero,
    List.range_eq_range']

end Agreement

/-- Text, a doubled brace, and two fields, the first filled with closing braces. -/
theorem emit_format_agrees_fill :
    let fmt := ['a', '{', ':', '}', '<', '3', '}', '{', '{', '{', '}', '}', '}']
    let emitValue : FormatSpec → ℕ → List Char := fun spec _ => [spec.fill]
    let fields : List (ℕ × FormatSpec) :=
      [(1, { fill := '}', align := .left, hasWidth := true, width := 3 }), (9, {})]
    parseFormat fmt = some ⟨true, 2, fields⟩ ∧
      (∃ pieces, Scans fmt 0 pieces ∧
        ∀ fuel ≥ 14, emitFormat emitValue fmt [7, 8] fuel 0 0
          = .ok ⟨render emitValue pieces [7, 8], fields, [0, 1]⟩) ∧
      emitFormat emitValue fmt [7, 8] 14 0 0
        = .ok ⟨['a', '}', '{', ' ', '}'], fields, [0, 1]⟩ := by
  intro fmt emitValue fields
  have hparse : parseFormat fmt = some ⟨true, 2, fields⟩ := by decide +kernel
  obtain ⟨pieces, hs, -, -, h⟩ := emit_format_agrees emitValue hparse rfl [7, 8] rfl
  exact ⟨hparse, ⟨pieces, hs, h⟩, by decide +kernel⟩

end Kprint

end DoomOs
