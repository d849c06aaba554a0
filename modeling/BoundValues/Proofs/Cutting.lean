import BoundValues.Proofs.Clipping
import BoundValues.Proofs.Listings

namespace BoundValues

open Text

namespace Text

/-- The digits of a number without the last ones are the digits of a smaller number. -/
theorem natText_take {n k : Nat} (some : 0 < k) (fewer : k < (natText n).length) :
    ∃ m, 0 < m ∧ m < n ∧ (natText n).take k = natText m := by
  induction n using Nat.strongRecOn with
  | _ n ih =>
    by_cases small : n < 10
    · rw [natText, Nat.toDigits_of_lt_base small] at fewer
      simp only [List.length_singleton] at fewer
      omega
    · have parts : natText n = natText (n / 10) ++ natText (n % 10) := by
        have whole : 10 * (n / 10) + n % 10 = n := Nat.div_add_mod n 10
        have parts := Nat.toDigits_append_toDigits (b := 10) (n := n / 10) (d := n % 10) (by decide)
          (by omega) (by omega)
        rw [natText, natText, natText, parts, whole]
      have one : (natText (n % 10)).length = 1 := by
        rw [natText, Nat.toDigits_of_lt_base (Nat.mod_lt n (by decide))]
        rfl
      rw [parts, List.length_append, one] at fewer
      have front : (natText n).take k = (natText (n / 10)).take k := by
        rw [parts, List.take_append_of_le_length (by omega)]
      by_cases last : k = (natText (n / 10)).length
      · exact ⟨n / 10, by omega, by omega, by rw [front, last, List.take_length]⟩
      · obtain ⟨m, positive, less, digits⟩ := ih (n / 10) (by omega) (by omega)
        exact ⟨m, positive, by omega, by rw [front, digits]⟩

def signText (i : Int) : List Char := if i < 0 then ['-'] else []

theorem intText_eq (i : Int) : intText i = signText i ++ natText i.natAbs := by
  unfold signText
  split
  · exact intText_of_neg ‹_›
  · exact intText_of_nonneg (Int.not_lt.mp ‹_›)

/-- A numeral with fewer digits is the numeral of another integer, nearer to zero. -/
theorem intText_shortened {i : Int} {k : Nat} (some : 0 < k) (fewer : k < (natText i.natAbs).length) :
    ∃ j, signText i ++ (natText i.natAbs).take k = intText j ∧ (i < 0 ∧ i < j ∧ j < 0 ∨ 0 ≤ j ∧ j < i) := by
  obtain ⟨m, positive, less, digits⟩ := natText_take some fewer
  rw [digits]
  by_cases negative : i < 0
  · have below : -(m : Int) < 0 := by omega
    refine ⟨-m, ?_, .inl ⟨negative, by omega, below⟩⟩
    rw [intText_of_neg below, signText, if_pos negative, Int.natAbs_neg, Int.natAbs_natCast]
    rfl
  · refine ⟨m, ?_, .inr ⟨by omega, by omega⟩⟩
    rw [signText, if_neg negative]
    rfl

theorem eq_of_mem_signText {i : Int} {c : Char} (hc : c ∈ signText i) : c = '-' := by
  unfold signText at hc
  split at hc
  · exact List.mem_singleton.mp hc
  · cases hc

theorem length_signText_le (i : Int) : (signText i).length ≤ 1 := by
  unfold signText
  split <;> decide

theorem intText_ne_nil (i : Int) : intText i ≠ [] := by
  simp [intText_eq, natText_ne_nil]

theorem mem_intText {i : Int} {c : Char} (hc : c ∈ intText i) : c = '-' ∨ c.isDigit = true := by
  rw [intText_eq, List.mem_append] at hc
  exact hc.imp eq_of_mem_signText isDigit_of_mem_natText

theorem mem_of_mem_trim {c : Char} {cs : List Char} (hc : c ∈ trim cs) : c ∈ cs := by
  rw [trim, dropEndWhile, List.mem_reverse] at hc
  have hc := List.mem_reverse.mp ((List.dropWhile_suffix isBlank).subset hc)
  exact (List.dropWhile_suffix isBlank).subset hc

theorem readDigits_of_no_digit {cs : List Char} (none : ∀ c ∈ cs, c.isDigit = false) :
    readDigits cs = .none := by
  cases cs with
  | nil => rfl
  | cons c cs => simp [readDigits, none c List.mem_cons_self]

theorem readInteger_of_no_digit {negative : Bool} {cs : List Char} (none : ∀ c ∈ cs, c.isDigit = false) :
    readInteger negative cs = .none := by
  unfold readInteger
  split
  · rw [readDigits_of_no_digit fun c hc => none c (List.mem_cons_of_mem _ hc)]
    rfl
  · rw [readDigits_of_no_digit fun c hc => none c (List.mem_cons_of_mem _ hc)]
    cases negative <;> rfl
  · rw [readDigits_of_no_digit none]
    rfl

theorem spells_intText (i : Int) : Spells i (intText i) := by
  simpa [Template.fill, Template.withSign] using Template.fill_intText {} i

end Text

theorem IntegerType.read_of_no_digit {t : IntegerType} {cs : List Char}
    (none : ∀ c ∈ cs, c.isDigit = false) : (DataType.integer t).read cs = .none := by
  rw [DataType.read, IntegerType.read, readBounded,
    readInteger_of_no_digit fun c hc => none c (mem_of_mem_trim hc)]
  rfl

theorem IntegerType.holds_zero (t : IntegerType) : t.Holds 0 := by
  cases t <;> exact ⟨by decide, by decide⟩

namespace Listing

def written (vs : List Int) : List Char := '(' :: [',', ' '].intercalate (vs.map intText) ++ [')']

def lead (vs : List Int) : List Char := vs.flatMap fun v => intText v ++ [',', ' ']

variable {vs init : List Int} {last : Int}

theorem intercalate_lead (init : List Int) (last : Int) :
    [',', ' '].intercalate ((init ++ [last]).map intText) = lead init ++ intText last := by
  induction init with
  | nil => simp [lead]
  | cons v init ih =>
    obtain ⟨next, rest, parts⟩ := List.exists_cons_of_ne_nil
      (show (init ++ [last]).map intText ≠ [] by simp)
    rw [parts] at ih
    rw [List.cons_append, List.map_cons, parts, List.intercalate_cons_cons, ih]
    simp [lead]

/-- The last number stands between what separates it from the others and the closing bracket. -/
theorem written_append (init : List Int) (last : Int) :
    written (init ++ [last]) = '(' :: lead init ++ intText last ++ [')'] := by
  rw [written, intercalate_lead]
  rfl

/-- The space behind a comma may as well belong to the item behind it. -/
theorem intercalate_comma_space (first : List Char) (rest : List (List Char)) :
    [',', ' '].intercalate (first :: rest) = [','].intercalate (first :: rest.map (' ' :: ·)) := by
  induction rest generalizing first with
  | nil => simp
  | cons next rest ih =>
    rw [List.intercalate_cons_cons, ih next, List.map_cons, List.intercalate_cons_cons,
      List.intercalate_cons_cons_left]
    simp

/-- A listing as it is written is a spelling of it, also without the closing bracket. -/
theorem spells_written (nonempty : vs ≠ []) {closing : List Char}
    (closes : ∀ c ∈ closing, isClosing c = true) :
    Spells SpellsAmongBlanks vs ('(' :: [',', ' '].intercalate (vs.map intText) ++ closing) := by
  obtain ⟨v, vs, rfl⟩ := List.exists_cons_of_ne_nil nonempty
  have frame : Frames [] ['('] closing [] := ⟨by simp, by simp [isOpening], closes, by simp⟩
  have one : ∀ i, SpellsAmongBlanks i (intText i) :=
    fun i => ⟨[], _, [], by simp, spells_intText i, by simp, by simp⟩
  have spaced : ∀ i, SpellsAmongBlanks i (' ' :: intText i) :=
    fun i => ⟨[' '], _, [], by simp [isBlank, blankRanges], spells_intText i, by simp, by simp⟩
  have each : List.Forall₂ SpellsAmongBlanks (v :: vs) (intText v :: (vs.map intText).map (' ' :: ·)) := by
    refine .cons (one v) ?_
    rw [List.map_map, List.forall₂_map_right_iff]
    exact List.forall₂_same.mpr fun i _ => spaced i
  have spelled := Spells.listed frame each
  rw [← intercalate_comma_space] at spelled
  simpa using spelled

theorem mem_lead {c : Char} (hc : c ∈ lead vs) : c = ',' ∨ c = ' ' ∨ c = '-' ∨ c.isDigit = true := by
  obtain ⟨v, -, hc⟩ := List.mem_flatMap.mp hc
  simp only [List.mem_append, List.mem_cons, List.not_mem_nil, or_false] at hc
  rcases hc with hc | rfl | rfl
  · exact .inr (.inr (mem_intText hc))
  · exact .inl rfl
  · exact .inr (.inl rfl)

theorem plain_of_isDigit {c : Char} (digit : c.isDigit = true) :
    isOpening c = false ∧ isClosing c = false := by
  constructor
  all_goals
    refine Bool.eq_false_iff.mpr fun bracket => ?_
    simp only [isOpening, isClosing, Bool.or_eq_true, decide_eq_true_eq] at bracket
    rcases bracket with rfl | rfl <;> exact absurd digit (by decide)

theorem ascii_of_mem_written {c : Char} (hc : c ∈ written vs) : c.val ≤ 127 := by
  rcases List.eq_nil_or_concat' vs with rfl | ⟨init, last, rfl⟩
  · simp only [written, List.map_nil, List.intercalate_nil, List.mem_append, List.mem_singleton] at hc
    rcases hc with rfl | rfl <;> decide
  · simp only [written_append, List.mem_append, List.mem_cons, List.not_mem_nil, or_false] at hc
    rcases hc with ((rfl | hc) | hc) | rfl
    · decide
    · rcases mem_lead hc with rfl | rfl | rfl | digit
      · decide
      · decide
      · decide
      · exact ascii_of_isDigit digit
    · rcases mem_intText hc with rfl | digit
      · decide
      · exact ascii_of_isDigit digit
    · decide

/-- Numbers are written in ASCII, so the text is cut after so many characters. -/
theorem render_numbers (vs : List Int) : render (vs.map intText) = (written vs).take capacity :=
  clipTo_of_ascii capacity fun _ hc => Char.utf8Size_eq_one_iff.mpr (ascii_of_mem_written hc)

/-- What begins like an item with a comma behind it ends within the item, or goes on behind the comma. -/
theorem comma_cases {item rest body : List Char} (noComma : ',' ∉ item)
    (begins : body <+: item ++ ',' :: rest) :
    ',' ∉ body ∨ ∃ behind, behind <+: rest ∧ body = item ++ ',' :: behind := by
  rcases List.prefix_or_prefix_of_prefix begins (List.prefix_append ..) with within | beyond
  · exact .inl fun comma => noComma (within.subset comma)
  · obtain ⟨behind, rfl⟩ := beyond
    rw [List.prefix_append_right_inj] at begins
    cases behind with
    | nil => exact .inl (by simpa using noComma)
    | cons c behind =>
      obtain ⟨rfl, tail⟩ := List.cons_prefix_cons.mp begins
      exact .inr ⟨behind, tail, rfl⟩

/-- A listing that ends before the digits of its last number has too few items, or no number last. -/
theorem mapM_read_none {t : IntegerType} {space mark body : List Char}
    (spaces : ∀ c ∈ space, c = ' ') (marks : ∀ c ∈ mark, c = '-')
    (begins : body <+: space ++ lead init ++ mark) (count : (body.splitOn ',').length = init.length + 1) :
    (body.splitOn ',').mapM (DataType.integer t).read = none := by
  induction init generalizing space body with
  | nil =>
    have few : ∀ c ∈ body, c = ' ' ∨ c = '-' := by
      intro c hc
      have hc := begins.subset hc
      simp only [lead, List.flatMap_nil, List.append_nil, List.mem_append] at hc
      exact hc.imp (spaces c) (marks c)
    have noDigit : ∀ c ∈ body, c.isDigit = false := by
      intro c hc
      rcases few c hc with rfl | rfl <;> decide
    have noComma : ',' ∉ body := fun comma => absurd (few ',' comma) (by decide)
    rw [List.splitOn_eq_singleton noComma, List.mapM_cons, IntegerType.read_of_no_digit noDigit]
    rfl
  | cons v init ih =>
    have noComma : ',' ∉ space ++ intText v := by
      intro comma
      rcases List.mem_append.mp comma with comma | comma
      · exact absurd (spaces ',' comma) (by decide)
      · exact absurd (mem_intText comma) (by decide)
    have parts : space ++ lead (v :: init) ++ mark =
        (space ++ intText v) ++ ',' :: ([' '] ++ lead init ++ mark) := by
      simp [lead]
    rw [parts] at begins
    rcases comma_cases noComma begins with none | ⟨behind, tail, rfl⟩
    · rw [List.splitOn_eq_singleton none] at count
      simp at count
    · rw [List.splitOn_append_cons_self_of_not_mem noComma] at count ⊢
      have fewer : (behind.splitOn ',').length = init.length + 1 := by simpa using count
      have single : ∀ c ∈ [' '], c = ' ' := fun c hc => List.mem_singleton.mp hc
      rw [List.mapM_cons, ih single tail fewer]
      cases (DataType.integer t).read (space ++ intText v) <;> rfl

def untilDigits (init : List Int) (last : Int) : List Char := '(' :: lead init ++ signText last

/-- The text split at the digits of its last number. -/
theorem written_parts (init : List Int) (last : Int) :
    written (init ++ [last]) = untilDigits init last ++ natText last.natAbs ++ [')'] := by
  rw [written_append, intText_eq, untilDigits]
  simp only [List.append_assoc]

/-- Whether the end of a listing's text cuts off some of the last number's digits, but not all. -/
def cutsLastNumber (vs : List Int) : Bool :=
  vs.getLast?.any fun last =>
    let numbers := (written vs).length - 1
    numbers - (natText last.natAbs).length < capacity && capacity < numbers

/-- Some digits of the last number are in the buffer, and some are not. -/
theorem cutsLastNumber_append (init : List Int) (last : Int) :
    cutsLastNumber (init ++ [last]) = true ↔ (untilDigits init last).length < capacity ∧
      capacity < (untilDigits init last).length + (natText last.natAbs).length := by
  simp [cutsLastNumber, written_parts]

theorem plain_of_mem {c : Char} (hc : c ∈ lead init ++ signText last) :
    isOpening c = false ∧ isClosing c = false := by
  have among : c = ',' ∨ c = ' ' ∨ c = '-' ∨ c.isDigit = true := by
    rcases List.mem_append.mp hc with hc | hc
    · exact mem_lead hc
    · exact .inr (.inr (.inl (eq_of_mem_signText hc)))
  rcases among with rfl | rfl | rfl | digit
  · decide
  · decide
  · decide
  · exact plain_of_isDigit digit

/-- A sign alone does not fill the buffer, so what does begins with a number. -/
theorem exists_solid (full : capacity ≤ (untilDigits init last).length) :
    ∃ c ∈ (lead init ++ signText last).take (capacity - 1), isBlank c = false := by
  cases init with
  | nil =>
    have short := length_signText_le last
    simp only [untilDigits, lead, List.flatMap_nil, List.length_append, List.length_singleton, capacity,
      bufferSize] at full
    omega
  | cons v init =>
    obtain ⟨c, cs, parts⟩ := List.exists_cons_of_ne_nil (intText_ne_nil v)
    refine ⟨c, by simp [lead, parts, capacity, bufferSize], ?_⟩
    rcases mem_intText (show c ∈ intText v by simp [parts]) with rfl | digit
    · decide
    · exact isBlank_of_isDigit digit

/-- Where the text keeps a listing of as many numbers, perhaps without its closing bracket, those numbers
are read. -/
theorem read_render_of_kept {t : IntegerType} {others : List Int} {closing : List Char}
    (kept : (written vs).take capacity = '(' :: [',', ' '].intercalate (others.map intText) ++ closing)
    (closes : ∀ c ∈ closing, isClosing c = true) (nonempty : others ≠ [])
    (held : ∀ v ∈ others, t.Holds v) (count : others.length = vs.length) :
    (DataType.array (.integer t) vs.length).read (render (vs.map intText)) =
      some (.array (others.map .int)) := by
  rw [render_numbers, kept, IntegerType.read_spelled nonempty held (spells_written nonempty closes),
    if_pos count]

section Reading

variable {t : IntegerType} (held : ∀ v ∈ vs, t.Holds v)

include held

/-- A listing whose numbers are all in the text is read as it was. -/
theorem read_render_of_whole (nonempty : vs ≠ []) (fits : (written vs).length ≤ capacity + 1) :
    (DataType.array (.integer t) vs.length).read (render (vs.map intText)) =
      some (.array (vs.map .int)) := by
  have shorter : ('(' :: [',', ' '].intercalate (vs.map intText)).length ≤ capacity := by
    simp only [written, List.length_append, List.length_singleton] at fits
    omega
  have closes : ∀ room, ∀ c ∈ [')'].take room, isClosing c = true := by
    intro room c hc
    rw [List.mem_singleton.mp (List.mem_of_mem_take hc)]
    rfl
  have kept : (written vs).take capacity = '(' :: [',', ' '].intercalate (vs.map intText) ++
      [')'].take (capacity - ('(' :: [',', ' '].intercalate (vs.map intText)).length) := by
    rw [written, List.take_append, List.take_of_length_le shorter]
  exact read_render_of_kept kept (closes _) nonempty held rfl

end Reading

section Cut

variable {t : IntegerType} (held : ∀ v ∈ init ++ [last], t.Holds v)

include held

/-- What is left of a number that is cut is read in its place. -/
theorem read_render_of_cut (cuts : cutsLastNumber (init ++ [last]) = true) :
    ∃ other ≠ last, (DataType.array (.integer t) (init ++ [last]).length).read
        (render ((init ++ [last]).map intText)) = some (.array ((init ++ [other]).map .int)) := by
  obtain ⟨reached, cut⟩ := (cutsLastNumber_append init last).mp cuts
  obtain ⟨room, filled⟩ := Nat.exists_eq_add_of_lt reached
  obtain ⟨other, digits, nearer⟩ := @intText_shortened last (room + 1) (by omega) (by omega)
  have kept : (written (init ++ [last])).take capacity =
      '(' :: [',', ' '].intercalate ((init ++ [other]).map intText) ++ [] := by
    rw [written_parts, List.append_assoc, filled, Nat.add_assoc, List.take_length_add_append,
      List.take_append_of_le_length (by omega), intercalate_lead, ← digits, untilDigits]
    simp
  have othersHeld : ∀ v ∈ init ++ [other], t.Holds v := by
    intro v hv
    rcases List.mem_append.mp hv with hv | hv
    · exact held v (List.mem_append_left _ hv)
    · rw [List.mem_singleton.mp hv]
      obtain ⟨low, high⟩ := held last (by simp)
      obtain ⟨below, above⟩ := t.holds_zero
      exact ⟨by omega, by omega⟩
  exact ⟨other, by omega, read_render_of_kept kept (by simp) (by simp) othersHeld (by simp)⟩

omit held in
/-- A listing that is cut before the digits of its last number is refused. -/
theorem read_render_of_beyond (beyond : capacity ≤ (untilDigits init last).length) :
    (DataType.array (.integer t) (init ++ [last]).length).read
      (render ((init ++ [last]).map intText)) = none := by
  let body := (lead init ++ signText last).take (capacity - 1)
  have kept : render ((init ++ [last]).map intText) = [] ++ ['('] ++ body ++ [] ++ [] := by
    rw [render_numbers, written_parts, List.append_assoc, List.take_append_of_le_length beyond]
    simp [untilDigits, body, capacity, bufferSize]
  have begins : body <+: lead init ++ signText last := List.take_prefix ..
  have frame : Frames [] ['('] [] [] := ⟨by simp, by simp [isOpening], by simp, by simp⟩
  rw [DataType.read, kept, frame.read IntegerType.read_trim (fun c hc => plain_of_mem (begins.subset hc))
    (exists_solid beyond)]
  split
  · rename_i count
    have none := @mapM_read_none init t [] (signText last) body (by simp)
      (fun _ => eq_of_mem_signText) begins
    rw [none (by simpa using count)]
    rfl
  · rfl

end Cut

/-- What comes of a listing that is read from its own text: numbers other than its own only when the
last of them is cut. -/
theorem read_render_cases {t : IntegerType} (held : ∀ v ∈ vs, t.Holds v) :
    let read := (DataType.array (.integer t) vs.length).read (render (vs.map intText))
    (cutsLastNumber vs = false → read = some (.array (vs.map .int)) ∨ read = none) ∧
      (cutsLastNumber vs = true → ∃ others ≠ vs, read = some (.array (others.map .int))) := by
  intro read
  rcases List.eq_nil_or_concat' vs with rfl | ⟨init, last, rfl⟩
  · exact ⟨fun _ => .inr rfl, nofun⟩
  refine ⟨fun uncut => ?_, fun cut => ?_⟩
  · have cut := Bool.eq_false_iff.mp uncut ∘ (cutsLastNumber_append init last).mpr
    by_cases reached : (untilDigits init last).length < capacity
    · refine .inl (read_render_of_whole held (by simp) ?_)
      rw [written_parts, List.length_append, List.length_append, List.length_singleton]
      have uncut : ¬ capacity < _ := fun ends => cut ⟨reached, ends⟩
      omega
    · exact .inr (read_render_of_beyond (Nat.not_lt.mp reached))
  · obtain ⟨other, differs, same⟩ := read_render_of_cut held cut
    exact ⟨init ++ [other], by simpa using differs, same⟩

end Listing

end BoundValues
