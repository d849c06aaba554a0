import BoundValues.Datum.Bindable
import BoundValues.Proofs.Numerals
import Mathlib.Data.List.Forall2

namespace BoundValues

namespace Text

section Trimming

variable {cs before behind : List Char}

theorem dropEndWhile_cons (p : Char → Bool) (c : Char) (cs : List Char) :
    dropEndWhile p (c :: cs) =
      if dropEndWhile p cs = [] ∧ p c = true then [] else c :: dropEndWhile p cs := by
  simp only [dropEndWhile, List.reverse_cons, List.dropWhile_append, List.reverse_eq_nil_iff,
    List.isEmpty_iff]
  by_cases gone : cs.reverse.dropWhile p = []
  · by_cases hc : p c <;> simp [gone, hc]
  · simp [gone]

/-- Dropping from the front and from the end can be done in either order. -/
theorem dropWhile_dropEndWhile (p q : Char → Bool) (cs : List Char) :
    (dropEndWhile q cs).dropWhile p = dropEndWhile q (cs.dropWhile p) := by
  induction cs with
  | nil => rfl
  | cons c cs ih =>
    rw [dropEndWhile_cons]
    by_cases gone : dropEndWhile q cs = [] ∧ q c = true
    · rw [if_pos gone, List.dropWhile_cons]
      rw [gone.1] at ih
      split
      · exact ih
      · rw [dropEndWhile_cons, if_pos gone, List.dropWhile_nil]
    · rw [if_neg gone, List.dropWhile_cons, List.dropWhile_cons]
      split
      · exact ih
      · rw [dropEndWhile_cons, if_neg gone]

theorem trim_blanks_append (blank : ∀ c ∈ before, isBlank c = true) (cs : List Char) :
    trim (before ++ cs) = trim cs := by
  rw [trim, List.dropWhile_append_of_pos blank, trim]

theorem trim_append_blanks (cs : List Char) (blank : ∀ c ∈ behind, isBlank c = true) :
    trim (cs ++ behind) = trim cs := by
  have gone : ∀ ds, dropEndWhile isBlank (ds ++ behind) = dropEndWhile isBlank ds := by
    intro ds
    have blank : ∀ c ∈ behind.reverse, isBlank c = true := fun c hc => blank c (List.mem_reverse.mp hc)
    rw [dropEndWhile, List.reverse_append, List.dropWhile_append_of_pos blank, dropEndWhile]
  rw [trim, ← dropWhile_dropEndWhile, gone, dropWhile_dropEndWhile, trim]

theorem trim_trim (cs : List Char) : trim (trim cs) = trim cs := by
  obtain ⟨behind, blank, whole⟩ : ∃ behind, (∀ c ∈ behind, isBlank c = true) ∧
      cs.dropWhile isBlank = trim cs ++ behind := by
    refine ⟨((cs.dropWhile isBlank).reverse.takeWhile isBlank).reverse, ?_, ?_⟩
    · intro c hc
      exact List.all_eq_true.mp List.all_takeWhile c (List.mem_reverse.mp hc)
    · rw [trim, dropEndWhile, ← List.reverse_append, List.takeWhile_append_dropWhile,
        List.reverse_reverse]
  calc trim (trim cs) = trim (trim cs ++ behind) := (trim_append_blanks _ blank).symm
    _ = trim (cs.dropWhile isBlank) := by rw [whole]
    _ = trim (cs.takeWhile isBlank ++ cs.dropWhile isBlank) :=
      (trim_blanks_append (fun c hc => List.all_eq_true.mp List.all_takeWhile c hc) _).symm
    _ = trim cs := by rw [List.takeWhile_append_dropWhile]

theorem ne_comma_of_isBlank {c : Char} (blank : isBlank c = true) : c ≠ ',' := by
  rintro rfl
  exact absurd blank (by decide)

/-- Blanks in front belong to the first item, which is trimmed. -/
theorem map_trim_splitOn_blanks_append (blank : ∀ c ∈ before, isBlank c = true) (cs : List Char) :
    ((before ++ cs).splitOn ',').map trim = (cs.splitOn ',').map trim := by
  induction before with
  | nil => rfl
  | cons c before ih =>
    have hc := blank c List.mem_cons_self
    rw [List.cons_append, List.splitOn_cons_eq_if_modifyHead,
      if_neg (by simpa using ne_comma_of_isBlank hc), ← ih fun d hd => blank d (List.mem_cons_of_mem c hd)]
    cases (before ++ cs).splitOn ',' with
    | nil => rfl
    | cons first rest =>
      have same : trim ([c] ++ first) = trim first := trim_blanks_append (by simpa using hc) first
      rw [List.singleton_append] at same
      simp [same]

/-- Blanks behind belong to the last item, which is trimmed. -/
theorem map_trim_splitOn_append_blanks (cs : List Char) (blank : ∀ c ∈ behind, isBlank c = true) :
    ((cs ++ behind).splitOn ',').map trim = (cs.splitOn ',').map trim := by
  have noComma : ',' ∉ behind := fun h => ne_comma_of_isBlank (blank _ h) rfl
  induction length : cs.length using Nat.strongRecOn generalizing cs with
  | _ n ih =>
    by_cases comma : ',' ∈ cs
    · obtain ⟨front, back, rfl, -⟩ := List.eq_append_cons_of_mem comma
      have shorter := ih back.length (by simp [← length]; omega) back rfl
      rw [List.append_assoc, List.cons_append, List.splitOn_append_cons_self,
        List.splitOn_append_cons_self, List.map_append, List.map_append, shorter]
    · have one : ∀ {ds : List Char}, ',' ∉ ds → ds.splitOn ',' = [ds] := by
        intro ds none
        exact List.splitOn_eq_singleton none
      rw [one comma, one (by simp [comma, noComma]), List.map_singleton, List.map_singleton,
        trim_append_blanks cs blank]

end Trimming

def SpellsAmongBlanks (i : Int) (cs : List Char) : Prop :=
  ∃ before spelling behind, (∀ c ∈ before, isBlank c = true) ∧ Spells i spelling ∧
    (∀ c ∈ behind, isBlank c = true) ∧ cs = before ++ spelling ++ behind

end Text

open Text

namespace Listing

section Brackets

variable {p : Char → Bool} {left run rest right : List Char}

/-- Blanks and then a run of characters are dropped from the front, and perhaps blanks behind them. -/
theorem dropWhile_front (apart : ∀ c, p c = true → isBlank c = false)
    (before : ∀ c ∈ left, isBlank c = true) (inside : ∀ c ∈ run, p c = true)
    (outside : ∀ c ∈ rest, p c = false) :
    ∃ blanks, (∀ c ∈ blanks, isBlank c = true) ∧
      rest = blanks ++ ((left ++ run ++ rest).dropWhile isBlank).dropWhile p := by
  have stays : ∀ {ds : List Char}, (∀ c ∈ ds, p c = false) → ds.dropWhile p = ds := by
    intro ds none
    cases ds with
    | nil => rfl
    | cons d ds => simp [none d]
  rw [List.append_assoc, List.dropWhile_append_of_pos before]
  cases run with
  | nil =>
    refine ⟨rest.takeWhile isBlank, fun c hc => List.all_eq_true.mp List.all_takeWhile c hc, ?_⟩
    have outside : ∀ c ∈ rest.dropWhile isBlank, p c = false :=
      fun c hc => outside c ((List.dropWhile_suffix isBlank).subset hc)
    rw [List.nil_append, stays outside, List.takeWhile_append_dropWhile]
  | cons c run =>
    refine ⟨[], by simp, ?_⟩
    have solid := apart c (inside c List.mem_cons_self)
    have kept : (c :: run ++ rest).dropWhile isBlank = c :: run ++ rest := by simp [solid]
    rw [kept, List.dropWhile_append_of_pos inside, stays outside, List.nil_append]

/-- The same from the end. -/
theorem dropEndWhile_back (apart : ∀ c, p c = true → isBlank c = false)
    (inside : ∀ c ∈ run, p c = true) (behind : ∀ c ∈ right, isBlank c = true)
    (outside : ∀ c ∈ rest, p c = false) :
    ∃ blanks, (∀ c ∈ blanks, isBlank c = true) ∧
      rest = dropEndWhile p (dropEndWhile isBlank (rest ++ run ++ right)) ++ blanks := by
  obtain ⟨blanks, blank, whole⟩ := @dropWhile_front p right.reverse run.reverse rest.reverse apart
    (by simpa using behind) (by simpa using inside) (by simpa using outside)
  refine ⟨blanks.reverse, by simpa using blank, List.reverse_inj.mp ?_⟩
  rw [dropEndWhile, dropEndWhile, List.reverse_reverse, List.reverse_append, List.reverse_reverse,
    List.reverse_reverse]
  simpa using whole

end Brackets

theorem solid_of_isOpening (c : Char) (h : isOpening c = true) : isBlank c = false := by
  simp only [isOpening, Bool.or_eq_true, decide_eq_true_eq] at h
  rcases h with rfl | rfl <;> decide

theorem solid_of_isClosing (c : Char) (h : isClosing c = true) : isBlank c = false := by
  simp only [isClosing, Bool.or_eq_true, decide_eq_true_eq] at h
  rcases h with rfl | rfl <;> decide

/-- What may stand around the items of a listing: brackets, and blanks outside of them. -/
structure Frames (left opening closing right : List Char) : Prop where
  before : ∀ c ∈ left, isBlank c = true
  opens : ∀ c ∈ opening, isOpening c = true
  closes : ∀ c ∈ closing, isClosing c = true
  behind : ∀ c ∈ right, isBlank c = true

theorem isClosing_of_isOpening {c : Char} (h : isOpening c = true) : isClosing c = false := by
  simp only [isOpening, Bool.or_eq_true, decide_eq_true_eq] at h
  rcases h with rfl | rfl <;> decide

variable {left opening closing right body : List Char}

/-- Up to blanks around them, the items are what the commas between the brackets separate. -/
theorem Frames.items (frame : Frames left opening closing right)
    (plain : ∀ c ∈ body, isOpening c = false ∧ isClosing c = false)
    (solid : ∃ c ∈ body, isBlank c = false) :
    (items (left ++ opening ++ body ++ closing ++ right)).map trim = (body.splitOn ',').map trim := by
  have unopened : ∀ c ∈ body ++ (closing ++ right), isOpening c = false := by
    intro c hc
    rcases List.mem_append.mp hc with hc | hc
    · exact (plain c hc).1
    · rcases List.mem_append.mp hc with hc | hc
      · refine Bool.eq_false_iff.mpr fun opens => ?_
        exact absurd (frame.closes c hc) (by rw [isClosing_of_isOpening opens]; decide)
      · refine Bool.eq_false_iff.mpr fun opens => ?_
        exact absurd (frame.behind c hc) (by rw [solid_of_isOpening c opens]; decide)
  obtain ⟨front, blankFront, atFront⟩ :=
    dropWhile_front solid_of_isOpening frame.before frame.opens unopened
  -- The body is not blank, so it is not used up in front.
  obtain ⟨kept, rfl, remains⟩ : ∃ kept, body = front ++ kept ∧
      ((left ++ opening ++ (body ++ (closing ++ right))).dropWhile isBlank).dropWhile isOpening =
        kept ++ closing ++ right := by
    rcases List.append_eq_append_iff.mp atFront with ⟨more, rfl, -⟩ | ⟨kept, same, remains⟩
    · obtain ⟨c, hc, hsolid⟩ := solid
      exact absurd (blankFront c (List.mem_append_left more hc)) (by rw [hsolid]; decide)
    · exact ⟨kept, same, by rw [remains, List.append_assoc]⟩
  have unclosed : ∀ c ∈ kept, isClosing c = false :=
    fun c hc => (plain c (List.mem_append_right front hc)).2
  obtain ⟨back, blankBack, atBack⟩ :=
    dropEndWhile_back solid_of_isClosing frame.closes frame.behind unclosed
  have stripped : items (left ++ opening ++ (front ++ kept) ++ closing ++ right) =
      (dropEndWhile isClosing (dropEndWhile isBlank (kept ++ closing ++ right))).splitOn ',' := by
    rw [← remains, Listing.items, trim, dropWhile_dropEndWhile]
    simp only [List.append_assoc]
  rw [stripped, ← map_trim_splitOn_append_blanks _ blankBack, ← atBack,
    map_trim_splitOn_blanks_append blankFront]

/-- A listing is read as what stands between its brackets, by a reader that does not mind blanks. -/
theorem Frames.read {α : Type} {item : List Char → Option α} (blind : ∀ cs, item (trim cs) = item cs)
    (frame : Frames left opening closing right)
    (plain : ∀ c ∈ body, isOpening c = false ∧ isClosing c = false)
    (solid : ∃ c ∈ body, isBlank c = false) (size : Nat) :
    read item size (left ++ opening ++ body ++ closing ++ right) =
      if (body.splitOn ',').length = size then (body.splitOn ',').mapM item else none := by
  have trimmed : ∀ texts : List (List Char), texts.mapM item = (texts.map trim).mapM item := by
    intro texts
    have same : item ∘ trim = item := funext blind
    rw [List.mapM_map, same]
  have items := frame.items plain solid
  have length := congrArg List.length items
  rw [List.length_map, List.length_map] at length
  rw [Listing.read, length, trimmed, items, ← trimmed]

/-- The spellings of a listing: its items in spellings of their own with commas between them, any run of
opening brackets in front and of closing brackets behind, and blanks around all of it. -/
inductive Spells {α : Type} (item : α → List Char → Prop) (values : List α) : List Char → Prop
  | listed {left opening closing right : List Char} {texts : List (List Char)}
    (frame : Frames left opening closing right) (each : List.Forall₂ item values texts) :
    Spells item values (left ++ opening ++ [','].intercalate texts ++ closing ++ right)

def punctuation : List Char := [',', '(', '[', ')', ']']

def Whole (cs : List Char) : Prop := ∀ c ∈ cs, c ∉ punctuation

theorem Whole.plain {cs : List Char} (whole : Whole cs) :
    ∀ c ∈ cs, isOpening c = false ∧ isClosing c = false := by
  intro c hc
  have := whole c hc
  simp_all [punctuation, isOpening, isClosing]

theorem mem_intercalate {c : Char} {texts : List (List Char)} (hc : c ∈ [','].intercalate texts) :
    c = ',' ∨ ∃ text ∈ texts, c ∈ text := by
  induction texts with
  | nil => cases hc
  | cons text texts ih =>
    cases texts with
    | nil => exact .inr ⟨text, List.mem_singleton_self text, by simpa using hc⟩
    | cons next texts =>
      rw [List.intercalate_cons_cons] at hc
      grind

theorem mem_intercalate_of_mem {c : Char} {text : List Char} {texts : List (List Char)}
    (ht : text ∈ texts) (hc : c ∈ text) : c ∈ [','].intercalate texts := by
  induction texts with
  | nil => cases ht
  | cons first texts ih =>
    cases texts with
    | nil => simp_all
    | cons next texts =>
      rw [List.intercalate_cons_cons]
      grind

/-- A listing of texts that stay whole is read text by text. -/
theorem Frames.read_texts {α : Type} {item : List Char → Option α}
    (blind : ∀ cs, item (trim cs) = item cs) (frame : Frames left opening closing right)
    {texts : List (List Char)} (whole : ∀ text ∈ texts, Whole text)
    (solid : ∃ text ∈ texts, ∃ c ∈ text, isBlank c = false) (size : Nat) :
    Listing.read item size (left ++ opening ++ [','].intercalate texts ++ closing ++ right) =
      if texts.length = size then texts.mapM item else none := by
  obtain ⟨text, ht, c, hc, solid⟩ := solid
  have plain : ∀ c ∈ [','].intercalate texts, isOpening c = false ∧ isClosing c = false := by
    intro d hd
    rcases mem_intercalate hd with rfl | ⟨text, ht, hd⟩
    · decide
    · exact (whole text ht).plain d hd
  have separated : ([','].intercalate texts).splitOn ',' = texts :=
    List.splitOn_intercalate ',' (fun text ht comma => whole text ht ',' comma (by decide))
      (List.ne_nil_of_mem ht)
  rw [frame.read blind plain ⟨c, mem_intercalate_of_mem ht hc, solid⟩, separated]

end Listing

namespace Text.SpellsAmongBlanks

variable {i : Int} {cs : List Char}

theorem mem_cases (h : SpellsAmongBlanks i cs) {c : Char} (hc : c ∈ cs) :
    isBlank c = true ∨ c = '-' ∨ c = '+' ∨ c.isDigit = true := by
  obtain ⟨before, spelling, behind, blankBefore, spells, blankBehind, rfl⟩ := h
  simp only [List.mem_append] at hc
  rcases hc with (hc | hc) | hc
  · exact .inl (blankBefore c hc)
  · rcases spells.mem_cases hc with rfl | other
    · exact .inl (by decide)
    · exact .inr other
  · exact .inl (blankBehind c hc)

/-- No spelling of a number has a comma or a bracket in it. -/
theorem whole (h : SpellsAmongBlanks i cs) : Listing.Whole cs := by
  have noBlank : (Listing.punctuation.any isBlank) = false := by decide
  have noDigit : (Listing.punctuation.any Char.isDigit) = false := by decide
  intro c hc mark
  rcases h.mem_cases hc with blank | rfl | rfl | digit
  · exact List.any_eq_false.mp noBlank c mark blank
  · exact absurd mark (by decide)
  · exact absurd mark (by decide)
  · exact List.any_eq_false.mp noDigit c mark digit

theorem solid (h : SpellsAmongBlanks i cs) : ∃ c ∈ cs, isBlank c = false := by
  obtain ⟨before, _, behind, -, ⟨_, _, _, _, _⟩, -, rfl⟩ := h
  obtain ⟨d, digits, same⟩ := List.exists_cons_of_ne_nil (natText_ne_nil i.natAbs)
  have digit : d ∈ natText i.natAbs := by simp [same]
  exact ⟨d, by simp [digit], isBlank_of_isDigit (isDigit_of_mem_natText digit)⟩

section Each

variable {values : List Int} {texts : List (List Char)}

theorem whole_of_each (each : List.Forall₂ SpellsAmongBlanks values texts) :
    ∀ text ∈ texts, Listing.Whole text := by
  induction each with
  | nil => simp
  | cons one _ ih => exact List.forall_mem_cons.mpr ⟨one.whole, ih⟩

theorem exists_solid_of_each (each : List.Forall₂ SpellsAmongBlanks values texts) (nonempty : values ≠ []) :
    ∃ text ∈ texts, ∃ c ∈ text, isBlank c = false := by
  cases each with
  | nil => exact absurd rfl nonempty
  | cons one _ => exact ⟨_, List.mem_cons_self, one.solid⟩

end Each

end Text.SpellsAmongBlanks

open Text.SpellsAmongBlanks

namespace IntegerType

variable {t : IntegerType}

theorem Holds.read_amongBlanks {v : Int} (held : t.Holds v) {cs : List Char} (h : SpellsAmongBlanks v cs) :
    (DataType.integer t).read cs = some (.int v) := by
  obtain ⟨before, spelling, behind, blankBefore, spells, blankBehind, rfl⟩ := h
  rw [DataType.read, trim_append_blanks _ blankBehind, trim_blanks_append blankBefore,
    held.read_trim spells]
  rfl

/-- A number is read no matter how much of the blanks around it was trimmed before. -/
theorem read_trim (cs : List Char) : (DataType.integer t).read (trim cs) = (DataType.integer t).read cs := by
  rw [DataType.read, DataType.read, trim_trim]

/-- Items that are read one by one are read in their order. -/
theorem mapM_read {values : List Int} {texts : List (List Char)} (held : ∀ v ∈ values, t.Holds v)
    (each : List.Forall₂ SpellsAmongBlanks values texts) :
    texts.mapM (DataType.integer t).read = some (values.map .int) := by
  induction each with
  | nil => rfl
  | cons one _ ih =>
    obtain ⟨first, rest⟩ := List.forall_mem_cons.mp held
    rw [List.mapM_cons, first.read_amongBlanks one, ih rest]
    rfl

/-- A listing of numbers in their spellings is read as those numbers by the array type of their count. -/
theorem read_spelled {values : List Int} (nonempty : values ≠ []) (held : ∀ v ∈ values, t.Holds v)
    {text : List Char} (spelled : Listing.Spells SpellsAmongBlanks values text) (size : Nat) :
    (DataType.array (.integer t) size).read text =
      if values.length = size then some (.array (values.map .int)) else none := by
  obtain ⟨frame, each⟩ := spelled
  have solid := exists_solid_of_each each nonempty
  rw [DataType.read, frame.read_texts read_trim (whole_of_each each) solid, ← each.length_eq,
    mapM_read held each]
  split <;> rfl

/-- **Listings are read exactly.** A listing of numbers, in whatever spelling, is read as those numbers in
their order by the array type of just that size, and by no other. -/
theorem listings_read_exactly {values : List Int} (nonempty : values ≠ [])
    (held : ∀ v ∈ values, t.Holds v) {text : List Char}
    (spelled : Listing.Spells SpellsAmongBlanks values text) (size : Nat) :
    (DataType.array (.integer t) size).bindable.read (String.ofList text) =
      if values.length = size then some (.array (values.map .int)) else none := by
  have read := read_spelled nonempty held spelled size
  simpa only [DataType.bindable, String.toList_ofList] using read

/-- Signs, zeros, spaces, a tab and too many brackets around three numbers. -/
theorem crowded_listing_read :
    let numbers : List Datum := [.int 3, .int (-12), .int 0]
    let read size := (DataType.array (.integer .i8) size).bindable.read " [( +03 ,\t-12,0)])  "
    (∀ v ∈ ([3, -12, 0] : List Int), IntegerType.i8.Holds v) ∧
      read 3 = some (.array numbers) ∧ read 2 = none ∧ read 4 = none := by
  have held : ∀ v ∈ ([3, -12, 0] : List Int), IntegerType.i8.Holds v := by
    simp [Holds, least, greatest, signed, size, bits]
  have three : SpellsAmongBlanks 3 " +03 ".toList :=
    ⟨[], _, [], by simp, .signed 1 1 1 (.inr ⟨.inr (.inl rfl), by decide⟩) (by decide), by simp, rfl⟩
  have minusTwelve : SpellsAmongBlanks (-12) "\t-12".toList :=
    ⟨['\t'], _, [], by simp [isBlank, blankRanges], .signed 0 0 0 (.inl ⟨rfl, by decide⟩) (by decide),
      by simp, rfl⟩
  have zero : SpellsAmongBlanks 0 "0".toList :=
    ⟨[], _, [], by simp, .signed 0 0 0 (.inr ⟨.inl rfl, by decide⟩) (by decide), by simp, rfl⟩
  have frame : Listing.Frames [' '] ['[', '('] [')', ']', ')'] [' ', ' '] :=
    ⟨by simp [isBlank, blankRanges], by simp [Listing.isOpening], by simp [Listing.isClosing],
      by simp [isBlank, blankRanges]⟩
  have spelled := Listing.Spells.listed frame (.cons three (.cons minusTwelve (.cons zero .nil)))
  exact ⟨held, listings_read_exactly (by simp) held spelled 3,
    listings_read_exactly (by simp) held spelled 2, listings_read_exactly (by simp) held spelled 4⟩

end IntegerType

end BoundValues
