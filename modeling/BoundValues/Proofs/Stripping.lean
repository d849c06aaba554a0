import BoundValues.Proofs.Literals
import BoundValues.Template.Conversion
import Mathlib.Data.List.DropRight

namespace BoundValues

namespace Text

variable {p : Char → Bool} {cs : List Char}

/-- Dropping from the end stops at a character without the property. -/
theorem dropEndWhile_behind (p : Char → Bool) {c : Char} (stop : p c = false) (front cs : List Char) :
    dropEndWhile p (front ++ c :: cs) = front ++ c :: dropEndWhile p cs := by
  simp only [dropEndWhile, List.reverse_append, List.reverse_cons, List.append_assoc,
    List.dropWhile_append]
  split <;> simp_all

theorem dropEndWhile_of_last (last : ∀ c ∈ cs.getLast?, p c = false) : dropEndWhile p cs = cs := by
  refine List.rdropWhile_eq_self_iff.mpr fun nonempty => ?_
  simp [last _ (List.getLast?_eq_some_getLast nonempty)]

theorem last_dropEndWhile {c : Char} (hc : c ∈ (dropEndWhile p cs).getLast?) : p c = false := by
  have first := List.head?_dropWhile_not p cs.reverse
  rw [dropEndWhile, List.getLast?_reverse] at hc
  rwa [Option.mem_def.mp hc] at first

end Text

namespace Decimal.Literal

variable (t : Literal)

def stripped : Literal :=
  { t with
    places := Text.dropEndWhile (· = '0') t.places
    areDigits := fun c hc => t.areDigits c ((List.rdropWhile_prefix _ _).subset hc) }

theorem stripped_stripped : t.stripped.stripped = t.stripped :=
  Literal.ext rfl (List.rdropWhile_idempotent ..) rfl

theorem getLast?_stripped : t.stripped.places.getLast? ≠ some '0' := by
  intro last
  exact absurd (Text.last_dropEndWhile last) (by decide)

theorem exists_zeros : ∃ k, t.places = t.stripped.places ++ List.replicate k '0' := by
  have zero : ∀ c ∈ t.places.rtakeWhile (· = '0'), c = '0' := by
    intro c hc
    simpa using List.mem_rtakeWhile_imp hc
  refine ⟨(t.places.rtakeWhile (· = '0')).length, ?_⟩
  rw [← List.eq_replicate_of_mem zero]
  exact List.rdropWhile_append_rtakeWhile.symm

/-- Zeros at the end of the places denote nothing. -/
theorem value_stripped : t.stripped.value = t.value := by
  obtain ⟨k, parts⟩ := t.exists_zeros
  have fraction : (Nat.ofDigitChars 10 t.places 0 : ℚ) / 10 ^ t.places.length =
      Nat.ofDigitChars 10 t.stripped.places 0 / 10 ^ t.stripped.places.length := by
    rw [parts, Nat.ofDigitChars_append, Nat.ofDigitChars_replicate_zero, List.length_append,
      List.length_replicate, pow_add]
    push_cast
    field_simp
  rw [value, value, fraction]
  rfl

end Decimal.Literal

namespace Template

open Decimal (Literal Signed pointed)

/-- Behind the integer part, the point is dropped when no places are left. -/
theorem dropEndWhile_point (whole : Signed) {places : List Char}
    (digits : ∀ c ∈ places, c.isDigit = true) :
    Text.dropEndWhile (· = '.') (whole.text ++ '.' :: places) = whole.text ++ pointed places := by
  have stays : Text.dropEndWhile (· = '.') (whole.text ++ pointed places) = whole.text ++ pointed places := by
    refine Text.dropEndWhile_of_last fun c hc => decide_eq_false ?_
    rintro rfl
    exact absurd (Decimal.last_mantissa whole digits hc) (by decide)
  cases places with
  | nil =>
    rw [pointed, List.append_nil] at stays ⊢
    calc Text.dropEndWhile (· = '.') (whole.text ++ ['.'])
      _ = Text.dropEndWhile (· = '.') whole.text := List.rdropWhile_concat_pos _ _ _ rfl
      _ = whole.text := stays
  | cons d ds => exact stays

/-- Zeros are stripped from the places of a literal and from nowhere else. -/
theorem stripZeros_text (t : Literal) : stripZeros t.text = t.stripped.text := by
  have wholeOnly : ∀ c ∈ t.whole.text, c ≠ '.' ∧ c ≠ 'e' := by
    intro c hc
    rcases t.whole.mem_text hc with rfl | rfl | digit
    · decide
    · decide
    · constructor <;> (rintro rfl; contradiction)
  have inside : ∀ c ∈ t.whole.text ++ pointed t.places, (c != 'e') = true := by
    intro c hc
    rcases List.mem_append.mp hc with hc | hc
    · simpa using (wholeOnly c hc).2
    · rcases Decimal.mem_pointed t.areDigits hc with rfl | digit
      · decide
      · exact bne_iff_ne.mpr (by rintro rfl; contradiction)
  have ends : ∀ c ∈ t.tail.head?, (c != 'e') = false := by
    intro c hc
    rw [t.first_tail hc]
    rfl
  have parts : t.text = (t.whole.text ++ pointed t.places) ++ t.tail := by
    rw [Literal.text, List.append_assoc]
  rw [parts, stripZeros, Text.takeWhile_of_stops inside ends, Text.dropWhile_of_stops inside ends]
  have text : t.stripped.text =
      t.whole.text ++ (pointed (Text.dropEndWhile (· = '0') t.places) ++ t.tail) := rfl
  rw [text]
  cases hp : t.places with
  | nil =>
    have noPoint : (t.whole.text ++ pointed []).contains '.' = false := by
      simpa [pointed] using fun h => (wholeOnly '.' h).1 rfl
    rw [if_neg (by rw [noPoint]; decide), List.append_assoc]
    rfl
  | cons d ds =>
    have point : (t.whole.text ++ pointed (d :: ds)).contains '.' = true := by simp [pointed]
    have digits : ∀ c ∈ Text.dropEndWhile (· = '0') (d :: ds), c.isDigit = true := hp ▸ t.stripped.areDigits
    rw [if_pos point, pointed, Text.dropEndWhile_behind (· = '0') rfl, dropEndWhile_point t.whole digits,
      List.append_assoc]

/-- **Stripping zeros keeps the number.** From the text of a literal it makes the text of one and only one
literal, of the same number, and a reader takes both for the same. The integer part with its sign and the
exponent are the same; the places are the former ones without the zeros at their end, and no point is left
without a digit behind it. Stripping again changes nothing. -/
theorem stripZeros_keeps_number (t : Literal) :
    ∃ s : Literal, (∀ u : Literal, u.text = stripZeros t.text ↔ u = s) ∧
      (s.value = t.value ∧ ∀ f, Decimal.read f (stripZeros t.text) = Decimal.read f t.text) ∧
      (s.whole = t.whole ∧ s.exponent = t.exponent) ∧
      ((∃ k, t.places = s.places ++ List.replicate k '0') ∧ s.places.getLast? ≠ some '0') ∧
      (∀ front, stripZeros t.text ≠ front ++ '.' :: s.tail) ∧
      stripZeros (stripZeros t.text) = stripZeros t.text := by
  have same := stripZeros_text t
  have again : stripZeros (stripZeros t.text) = stripZeros t.text := by
    rw [same, stripZeros_text, t.stripped_stripped]
  refine ⟨t.stripped, fun u => ?_, ⟨t.value_stripped, fun f => ?_⟩, ⟨rfl, rfl⟩,
    ⟨t.exists_zeros, t.getLast?_stripped⟩, fun front => ?_, again⟩
  · rw [same]
    exact Literal.text_injective.eq_iff
  · rw [same]
    exact Literal.read_congr f rfl t.value_stripped
  · rw [same]
    exact t.stripped.text_ne_dangling front

/-- Zeros of an integer part or of an exponent stay. -/
example : stripZeros "-1200.500e+10".toList = "-1200.5e+10".toList ∧
    stripZeros "+100.00".toList = "+100".toList ∧ stripZeros "100e10".toList = "100e10".toList := by
  decide

end Template

end BoundValues
