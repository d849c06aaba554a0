import BoundValues.Datum.Bindable
import BoundValues.Proofs.Rendering

namespace BoundValues

namespace Template

/-- Length letters are neither flags nor digits, so that they end the width. -/
theorem isLengthLetter_cases {c : Char} (h : isLengthLetter c = true) :
    isFlag c = false ∧ c.isDigit = false ∧ c ≠ '.' := by
  simp only [isLengthLetter, Bool.or_eq_true, decide_eq_true_eq, or_assoc] at h
  rcases h with rfl | rfl | rfl | rfl <;> decide

/-- A conversion letter ends whatever stands in front of it. -/
theorem Conversion.ofLetter?_cases {c : Char} {conversion : Conversion}
    (h : ofLetter? c = some conversion) :
    (isFlag c = false ∧ c.isDigit = false ∧ c ≠ '.') ∧ isLengthLetter c = false ∧ c ≠ '%' := by
  unfold ofLetter? at h
  split at h
  all_goals first | decide | contradiction

theorem Piece.ofLetter_of_known (lead : Lead) {letter : Char} {conversion : Conversion}
    (known : Conversion.ofLetter? letter = some conversion) :
    ofLetter lead letter = .convert ('%' :: lead.source ++ [letter]) lead.layout conversion := by
  obtain ⟨-, -, noPercent⟩ := Conversion.ofLetter?_cases known
  simp only [ofLetter, if_neg noPercent, known]

/-- A precision ends where no digit follows. -/
theorem takePrecision_of_stops {precision : Option (List Char)} {rest : List Char}
    (digits : ∀ ds ∈ precision, ∀ c ∈ ds, c.isDigit = true)
    (stops : ∀ c ∈ rest.head?, c.isDigit = false ∧ c ≠ '.') :
    takePrecision (precisionSource precision ++ rest) = (precision, rest) := by
  cases precision with
  | none =>
    unfold takePrecision
    split
    · rename_i cs same
      exact absurd rfl (stops '.' (by simp_all [precisionSource])).2
    · rfl
  | some ds =>
    have inside := digits ds rfl
    have ends : ∀ c ∈ rest.head?, c.isDigit = false := fun c hc => (stops c hc).1
    simp only [precisionSource, List.cons_append, takePrecision,
      Text.takeWhile_of_stops inside ends, Text.dropWhile_of_stops inside ends]

/-- Parts put together are taken apart again. The width must not begin with a zero, which would be taken
for a flag. -/
theorem Lead.take_of_parts (lead : Lead) {letter : Char} {conversion : Conversion}
    (rest : List Char) (areFlags : ∀ c ∈ lead.flags, isFlag c = true)
    (areDigits : ∀ c ∈ lead.width, c.isDigit = true)
    (start : ∀ c ∈ lead.width.head?, isFlag c = false)
    (areDecimals : ∀ ds ∈ lead.precision, ∀ c ∈ ds, c.isDigit = true)
    (areLengths : ∀ c ∈ lead.letters, isLengthLetter c = true)
    (known : Conversion.ofLetter? letter = some conversion) :
    take (lead.source ++ letter :: rest) = (lead, letter :: rest) := by
  obtain ⟨flags, width, precision, letters⟩ := lead
  obtain ⟨letterStops, noLength, -⟩ := Conversion.ofLetter?_cases known
  have afterPrecision : ∀ c ∈ (letters ++ letter :: rest).head?,
      isFlag c = false ∧ c.isDigit = false ∧ c ≠ '.' := by
    intro c hc
    cases letters with
    | nil => simp_all
    | cons l letters => exact isLengthLetter_cases (areLengths c (by simp_all))
  have afterWidth : ∀ c ∈ (precisionSource precision ++ (letters ++ letter :: rest)).head?,
      isFlag c = false ∧ c.isDigit = false := by
    intro c hc
    cases precision with
    | none => exact ⟨(afterPrecision c hc).1, (afterPrecision c hc).2.1⟩
    | some ds =>
      obtain rfl : '.' = c := by simpa [precisionSource] using hc
      decide
  have afterFlags :
      ∀ c ∈ (width ++ (precisionSource precision ++ (letters ++ letter :: rest))).head?,
        isFlag c = false := by
    intro c hc
    cases width with
    | nil => exact (afterWidth c hc).1
    | cons d width => exact start c hc
  have afterLetters : ∀ c ∈ (letter :: rest).head?, isLengthLetter c = false := by
    intro c hc
    simp_all
  simp only [source, take, List.append_assoc,
    Text.takeWhile_of_stops areFlags afterFlags, Text.dropWhile_of_stops areFlags afterFlags,
    Text.takeWhile_of_stops areDigits fun c hc => (afterWidth c hc).2,
    Text.dropWhile_of_stops areDigits fun c hc => (afterWidth c hc).2,
    takePrecision_of_stops areDecimals fun c hc => (afterPrecision c hc).2,
    Text.takeWhile_of_stops areLengths afterLetters, Text.dropWhile_of_stops areLengths afterLetters]

end Template

namespace Text

/-- What may stand before the digits of an integer: a minus sign when it is negative; nothing, a plus
sign or a space when it is not. -/
def Marks (mark : List Char) (i : Int) : Prop :=
  mark = ['-'] ∧ i < 0 ∨ (mark = [] ∨ mark = ['+'] ∨ mark = [' ']) ∧ 0 ≤ i

/-- The spellings of an integer: its digits, zeros before them, a sign, which only a negative integer
must have, and spaces around. -/
inductive Spells (i : Int) : List Char → Prop
  | signed (before zeros behind : Nat) {sign : List Char} (marks : Marks sign i)
      (tight : sign ≠ [' ']) :
    Spells i (List.replicate before ' ' ++ (sign ++ List.replicate zeros '0' ++ natText i.natAbs)
      ++ List.replicate behind ' ')

/-- A space for a sign is one of the spaces before the digits. -/
theorem spells_of_marks {mark : List Char} {i : Int} (marks : Marks mark i)
    (before zeros behind : Nat) :
    Spells i (List.replicate before ' ' ++ (mark ++ List.replicate zeros '0' ++ natText i.natAbs)
      ++ List.replicate behind ' ') := by
  by_cases space : mark = [' ']
  · subst space
    have natural : 0 ≤ i := by simpa [Marks] using marks
    have unmarked : Marks [] i := .inr ⟨.inl rfl, natural⟩
    have spelled := Spells.signed (before + 1) zeros behind unmarked (by simp)
    simpa only [List.replicate_succ', List.append_assoc, List.nil_append] using spelled
  · exact .signed before zeros behind marks space

theorem intText_of_nonneg {i : Int} (h : 0 ≤ i) : intText i = natText i.natAbs := by
  obtain ⟨n, rfl⟩ := Int.eq_ofNat_of_zero_le h
  rfl

theorem intText_of_neg {i : Int} (h : i < 0) : intText i = '-' :: natText i.natAbs := by
  obtain ⟨n, rfl⟩ := Int.eq_negSucc_of_lt_zero h
  rfl

/-- A number of at most 64 bits has at most 20 digits. -/
theorem length_natText_le {n : Nat} (small : n ≤ 18446744073709551616) :
    (natText n).length ≤ 20 := by
  refine (Nat.length_toDigits_le_iff (by decide) (by decide)).mpr (Nat.lt_of_le_of_lt small ?_)
  decide

theorem Marks.isBlank_of_mem {mark : List Char} {i : Int} (marks : Marks mark i) (tight : mark ≠ [' '])
    {c : Char} (hc : c ∈ mark) : isBlank c = false := by
  rcases marks with ⟨rfl, _⟩ | ⟨rfl | rfl | rfl, _⟩
  · rw [List.mem_singleton.mp hc]
    decide
  · simp at hc
  · rw [List.mem_singleton.mp hc]
    decide
  · exact absurd rfl tight

theorem Marks.length_le {mark : List Char} {i : Int} (marks : Marks mark i) : mark.length ≤ 1 := by
  rcases marks with ⟨rfl, _⟩ | ⟨rfl | rfl | rfl, _⟩ <;> decide

/-- The characters of a spelling. -/
theorem Spells.mem_cases {i : Int} {cs : List Char} (h : Spells i cs) {c : Char} (hc : c ∈ cs) :
    c = ' ' ∨ c = '-' ∨ c = '+' ∨ c.isDigit = true := by
  obtain ⟨before, zeros, behind, marks, tight⟩ := h
  simp only [List.mem_append, List.mem_replicate] at hc
  rcases hc with (⟨_, rfl⟩ | (hc | ⟨_, rfl⟩) | hc) | ⟨_, rfl⟩
  · simp
  · rcases marks with ⟨rfl, _⟩ | ⟨rfl | rfl | rfl, _⟩ <;> simp_all
  · decide
  · simp [isDigit_of_mem_natText hc]
  · simp

theorem ascii_of_isDigit {c : Char} (digit : c.isDigit = true) : c.val ≤ 127 := by
  have bounds := (isDigit_iff c).mp digit
  rw [UInt32.le_iff_toNat_le, Char.toNat_val]
  exact Nat.le_trans bounds.2 (by decide)

theorem Spells.byteLength_eq {i : Int} {cs : List Char} (h : Spells i cs) :
    byteLength cs = cs.length := by
  apply byteLength_of_ascii
  intro c hc
  rcases h.mem_cases hc with rfl | rfl | rfl | digit
  · decide
  · decide
  · decide
  · exact ascii_of_isDigit digit

/-- A digit is no sign. -/
theorem readInteger_of_digits (negative : Bool) {cs : List Char}
    (digits : ∀ c ∈ cs, c.isDigit = true) :
    readInteger negative cs = (readDigits cs).map Int.ofNat := by
  unfold readInteger
  split
  · exact absurd (digits '+' List.mem_cons_self) (by decide)
  · exact absurd (digits '-' List.mem_cons_self) (by decide)
  · rfl

/-- A spelling is read as its integer, wherever a minus sign may be read if the integer needs one. -/
theorem Spells.readInteger_trim {i : Int} {cs : List Char} (h : Spells i cs) {negative : Bool}
    (allowed : i < 0 → negative = true) : readInteger negative (trim cs) = some i := by
  obtain ⟨before, zeros, behind, marks, tight⟩ := h
  rename_i sign
  have solid : ∀ c ∈ sign ++ List.replicate zeros '0' ++ natText i.natAbs, isBlank c = false := by
    intro c hc
    rw [List.append_assoc] at hc
    rcases List.mem_append.mp hc with hc | hc
    · exact marks.isBlank_of_mem tight hc
    · exact isBlank_of_isDigit (isDigit_of_mem_zeros_natText hc)
  have blanks : ∀ n, ∀ c ∈ List.replicate n ' ', isBlank c = true := by
    intro n c hc
    rw [List.eq_of_mem_replicate hc]
    decide
  rw [trim_of_blanks_around (by simp [natText_ne_nil]) (blanks before) solid (blanks behind)]
  have digits := readDigits_zeros zeros i.natAbs
  rcases marks with ⟨rfl, negated⟩ | ⟨rfl | rfl | rfl, natural⟩
  · simp only [List.cons_append, List.nil_append, readInteger, allowed negated, if_true, digits,
      Option.map_some, Option.some.injEq]
    simp only [Int.ofNat_eq_natCast]
    omega
  · have unsigned : ∀ c ∈ List.replicate zeros '0' ++ natText i.natAbs, c.isDigit = true :=
      fun c hc => isDigit_of_mem_zeros_natText hc
    rw [List.nil_append, readInteger_of_digits negative unsigned, digits, Option.map_some,
      Int.ofNat_eq_natCast, Int.natAbs_of_nonneg natural]
  · simp only [List.cons_append, List.nil_append, readInteger, digits, Option.map_some,
      Option.some.injEq, Int.ofNat_eq_natCast]
    omega
  · exact absurd rfl tight

end Text

namespace Template

theorem head?_natText_ne (n : Nat) : (Text.natText n).head? ≠ some '-' := by
  intro h
  have digit : '-'.isDigit = true := Text.isDigit_of_mem_natText (List.mem_of_mem_head? h)
  exact absurd digit (by decide)

theorem signOf_natText (n : Nat) : signOf (Text.natText n) = [] := by
  obtain ⟨d, ds, same⟩ := List.exists_cons_of_ne_nil (Text.natText_ne_nil n)
  have digit : d.isDigit = true := Text.isDigit_of_mem_natText (n := n) (by simp [same])
  have unsigned : ¬(d = '-' ∨ d = '+' ∨ d = ' ') := by
    intro h
    rcases h with rfl | rfl | rfl <;> exact absurd digit (by decide)
  rw [same, signOf, if_neg unsigned]

/-- The sign stands in front of the digits, where filling with zeros finds it. -/
theorem withSign_intText (layout : Layout) (i : Int) : ∃ mark, Text.Marks mark i ∧
    withSign layout (Text.intText i) = mark ++ Text.natText i.natAbs ∧
    signOf (mark ++ Text.natText i.natAbs) = mark := by
  by_cases negative : i < 0
  · exact ⟨['-'], .inl ⟨rfl, negative⟩, by simp [withSign, Text.intText_of_neg negative], rfl⟩
  · have natural : 0 ≤ i := Int.not_lt.mp negative
    rw [Text.intText_of_nonneg natural, withSign, if_neg (head?_natText_ne i.natAbs)]
    split
    · exact ⟨['+'], .inr ⟨.inr (.inl rfl), natural⟩, rfl, rfl⟩
    · split
      · exact ⟨[' '], .inr ⟨.inr (.inr rfl), natural⟩, rfl, rfl⟩
      · exact ⟨[], .inr ⟨.inl rfl, natural⟩, rfl, signOf_natText i.natAbs⟩

theorem length_signOf_le (body : List Char) : (signOf body).length ≤ body.length := by
  unfold signOf
  split
  · split <;> simp
  · simp

/-- A text is filled up to the width and not beyond. -/
theorem length_fill (layout : Layout) (numeric : Bool) (body : List Char) :
    (fill layout numeric body).length = max layout.width body.length := by
  have sign := length_signOf_le body
  unfold fill
  split
  · simp only [List.length_append, List.length_replicate]
    omega
  · split
    · simp only [List.length_append, List.length_replicate, List.length_drop]
      omega
    · simp only [List.length_append, List.length_replicate]
      omega

/-- However it is laid out, an integer is spelled. -/
theorem fill_intText (layout : Layout) (i : Int) :
    Text.Spells i (fill layout true (withSign layout (Text.intText i))) := by
  obtain ⟨mark, marks, body, sign⟩ := withSign_intText layout i
  have spelled := Text.spells_of_marks marks
  rw [body, fill]
  split
  · simpa using spelled 0 0 (layout.width - (mark ++ Text.natText i.natAbs).length)
  · split
    · simpa [sign] using spelled 0 (layout.width - (mark ++ Text.natText i.natAbs).length) 0
    · simpa using spelled (layout.width - (mark ++ Text.natText i.natAbs).length) 0 0

/-- A directive that writes an integer. The width is the number of columns to fill; none is as good as
zero. -/
structure IntegerDirective where
  flags : List Char
  width : List Char
  precision : Option (List Char)
  letters : List Char
  letter : Char
  flags_mem : ∀ c ∈ flags, c ∈ ['-', '0', '+', ' ']
  width_digits : ∀ c ∈ width, c.isDigit = true
  width_le : Nat.ofDigitChars 10 width 0 ≤ Text.capacity
  precision_digits : ∀ digits ∈ precision, ∀ c ∈ digits, c.isDigit = true
  letters_mem : ∀ c ∈ letters, c ∈ ['l', 'h', 'z', 'L']
  letter_mem : letter ∈ ['d', 'i']

namespace IntegerDirective

variable (d : IntegerDirective)

def source : List Char :=
  '%' :: (d.flags ++ d.width ++ precisionSource d.precision ++ d.letters ++ [d.letter])

theorem isFlag_of_mem {c : Char} (hc : c ∈ d.flags) : isFlag c = true := by
  simpa [isFlag, or_assoc] using d.flags_mem c hc

theorem isLengthLetter_of_mem {c : Char} (hc : c ∈ d.letters) : isLengthLetter c = true := by
  simpa [isLengthLetter, or_assoc] using d.letters_mem c hc

theorem ofLetter?_letter : Conversion.ofLetter? d.letter = some .signed := by
  have letter : d.letter = 'd' ∨ d.letter = 'i' := by simpa using d.letter_mem
  rcases letter with h | h <;> rw [h] <;> rfl

/-- The zeros that a width begins with are read as flags, and the width is the same without them. -/
theorem width_parts : ∃ zeros width, d.width = List.replicate zeros '0' ++ width ∧
    (∀ c ∈ width.head?, isFlag c = false) ∧ (∀ c ∈ width, c.isDigit = true) ∧
    count width ≤ Text.capacity := by
  have parts := (List.takeWhile_append_dropWhile (p := isFlag) (l := d.width)).symm
  have zero : ∀ c ∈ d.width.takeWhile isFlag, c = '0' := by
    intro c hc
    have digit := d.width_digits c ((List.takeWhile_prefix isFlag).subset hc)
    have flag := List.all_eq_true.mp List.all_takeWhile c hc
    simp only [isFlag, Bool.or_eq_true, decide_eq_true_eq, or_assoc] at flag
    rcases flag with rfl | rfl | rfl | rfl
    · exact absurd digit (by decide)
    · rfl
    · exact absurd digit (by decide)
    · exact absurd digit (by decide)
  have zeros := List.eq_replicate_of_mem zero
  refine ⟨_, d.width.dropWhile isFlag, by rw [← zeros]; exact parts, ?_, ?_, ?_⟩
  · intro c hc
    have first := List.head?_dropWhile_not isFlag d.width
    simpa [Option.mem_def.mp hc] using first
  · intro c hc
    exact d.width_digits c ((List.dropWhile_suffix isFlag).subset hc)
  · rw [count_eq]
    have bound := d.width_le
    rw [parts, zeros, Nat.ofDigitChars_append, Text.ofDigitChars_zeros] at bound
    omega

/-- A template of one directive has one piece, and its width fits the buffer. -/
theorem pieces_source : ∃ layout : Layout, layout.width ≤ Text.capacity ∧
    pieces d.source = [.convert d.source layout .signed] := by
  obtain ⟨zeros, width, parts, start, digits, fits⟩ := d.width_parts
  have flags : ∀ c ∈ d.flags ++ List.replicate zeros '0', isFlag c = true := by
    intro c hc
    rcases List.mem_append.mp hc with hc | hc
    · exact d.isFlag_of_mem hc
    · rw [List.eq_of_mem_replicate hc]
      rfl
  let lead : Lead :=
    { flags := d.flags ++ List.replicate zeros '0', width, precision := d.precision
      letters := d.letters }
  have source : d.source = '%' :: (lead.source ++ [d.letter]) := by
    simp [IntegerDirective.source, Lead.source, lead, parts]
  have taken := lead.take_of_parts [] flags digits start d.precision_digits
    (fun c hc => d.isLengthLetter_of_mem hc) d.ofLetter?_letter
  refine ⟨lead.layout, fits, ?_⟩
  rw [source, pieces, if_pos rfl, directive_of_letter taken, pieces,
    Piece.ofLetter_of_known lead d.ofLetter?_letter]
  rfl

/-- What the directive writes of an integer of at most 64 bits is a spelling of it, and the buffer holds
all of it. -/
theorem spells_format {i : Int} (small : i.natAbs ≤ 18446744073709551616) :
    Text.Spells i (format d.source (.int i)) := by
  obtain ⟨layout, fits, one⟩ := d.pieces_source
  have spelled := fill_intText layout i
  obtain ⟨mark, marks, body, -⟩ := withSign_intText layout i
  have digits := Text.length_natText_le small
  have short := marks.length_le
  have whole : Text.byteLength (fill layout true (withSign layout (Text.intText i))) ≤
      Text.capacity := by
    rw [spelled.byteLength_eq, length_fill, body, List.length_append]
    have : Text.capacity = 127 := rfl
    omega
  have written : format d.source (.int i) =
      Text.clip (fill layout true (withSign layout (Text.intText i))) := by
    rw [format_eq, rendered, one, List.flatMap_singleton]
    rfl
  rw [written, Text.clip, Text.clipTo_of_byteLength_le whole]
  exact spelled

end IntegerDirective

end Template

namespace IntegerType

variable {t : IntegerType} {v : Int}

/-- A number of an integer type has at most 64 bits, and is not negative unless the least one is. -/
theorem Holds.bounds (held : t.Holds v) :
    v.natAbs ≤ 18446744073709551616 ∧ (v < 0 → t.least < 0) := by
  obtain ⟨low, high⟩ := held
  cases t <;> simp [least, greatest, signed, size, bits] at low high ⊢ <;> omega

/-- Every spelling of a number of the type is read as that number. -/
theorem Holds.read_trim (held : t.Holds v) {cs : List Char} (h : Text.Spells v cs) :
    t.read (Text.trim cs) = some v := by
  have allowed : v < 0 → decide (t.least < 0) = true := by simpa using held.bounds.2
  have read := h.readInteger_trim allowed
  rw [IntegerType.read, Text.readBounded, read]
  simpa [Option.filter, Holds] using held

/-- An integer is read back from its text, without a template and through every directive that writes
integers. -/
theorem render_reads_back (held : t.Holds v) :
    let type := (DataType.integer t).bindable
    type.read (type.render none (.int v)) = some (.int v) ∧
    ∀ d : Template.IntegerDirective,
      type.read (type.render (some (String.ofList d.source)) (.int v)) = some (.int v) := by
  have plain : Text.Spells v (Text.intText v) := by
    simpa [Template.fill, Template.withSign] using Template.fill_intText {} v
  intro type
  refine ⟨?_, fun d => ?_⟩
  · simp [type, DataType.bindable, DataType.render, DataType.read, held.read_trim plain]
  · have written := d.spells_format held.bounds.1
    simp [type, DataType.bindable, DataType.render, DataType.read, held.read_trim written]

/-- The least number of all, with every flag, a width that fills the buffer and a precision. -/
theorem least_reads_back :
    let type := (DataType.integer .i64).bindable
    IntegerType.i64.Holds (-9223372036854775808) ∧
    type.read (type.render none (.int (-9223372036854775808))) =
      some (.int (-9223372036854775808)) ∧
    type.read (type.render (some "%+0 0127.5lld") (.int (-9223372036854775808))) =
      some (.int (-9223372036854775808)) := by
  have held : IntegerType.i64.Holds (-9223372036854775808) := ⟨by decide, by decide⟩
  let directive : Template.IntegerDirective :=
    { flags := ['+', '0', ' '], width := ['0', '1', '2', '7'], precision := some ['5']
      letters := ['l', 'l'], letter := 'd'
      flags_mem := by simp, width_digits := by simp, width_le := by decide
      precision_digits := by simp, letters_mem := by simp, letter_mem := by simp }
  exact ⟨held, (render_reads_back held).1, (render_reads_back held).2 directive⟩

end IntegerType

end BoundValues
