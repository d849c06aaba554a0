import BoundValues.Proofs.Ratios
import BoundValues.Text.Blank

namespace BoundValues

namespace Text

/-- A run of digits ends where the first character stands that is none. -/
theorem digits_append_inj {run run' rest rest' : List Char} (inside : ∀ c ∈ run, c.isDigit = true)
    (inside' : ∀ c ∈ run', c.isDigit = true) (stops : ∀ c ∈ rest.head?, c.isDigit = false)
    (stops' : ∀ c ∈ rest'.head?, c.isDigit = false) (same : run ++ rest = run' ++ rest') :
    run = run' ∧ rest = rest' := by
  constructor
  · rw [← takeWhile_of_stops inside stops, same, takeWhile_of_stops inside' stops']
  · rw [← dropWhile_of_stops inside stops, same, dropWhile_of_stops inside' stops']

theorem toLower_of_isDigit {c : Char} (digit : c.isDigit = true) : c.toLower = c := by
  have bounds := (isDigit_iff c).mp digit
  have beyond : ¬('A'.val ≤ c.val ∧ c.val ≤ 'Z'.val) := by
    intro h
    have least := UInt32.le_iff_toNat_le.mp h.1
    rw [Char.toNat_val, Char.toNat_val] at least
    exact absurd (Nat.le_trans least bounds.2) (by decide)
  exact dif_neg beyond

end Text

namespace Decimal

open Text (takeWhile_of_stops dropWhile_of_stops)

inductive Sign
  | plus
  | minus
deriving DecidableEq, Repr

namespace Sign

def char : Sign → Char
  | plus => '+'
  | minus => '-'

def first? : List Char → Option Sign
  | '+' :: _ => some plus
  | '-' :: _ => some minus
  | _ => none

end Sign

/-- A numeral of an integer: digits, at least one, behind a sign that may be missing. -/
@[ext]
structure Signed where
  sign : Option Sign
  digits : List Char
  nonempty : digits ≠ []
  areDigits : ∀ c ∈ digits, c.isDigit = true

/-- A digit is no sign. -/
theorem Numeral.readPower_of_digits {cs : List Char} (digits : ∀ c ∈ cs, c.isDigit = true) :
    readPower cs = (Text.readDigits cs).map Int.ofNat := by
  unfold readPower
  split
  · exact absurd (digits '+' List.mem_cons_self) (by decide)
  · exact absurd (digits '-' List.mem_cons_self) (by decide)
  · rfl

namespace Signed

variable (s : Signed)

def text : List Char := s.sign.elim [] (fun sign => [sign.char]) ++ s.digits

def negative : Bool := s.sign = some .minus

def factor : Int := if s.negative then -1 else 1

def number : Int := s.factor * Nat.ofDigitChars 10 s.digits 0

theorem exists_first : ∃ d ds, s.digits = d :: ds ∧ d.isDigit = true := by
  obtain ⟨d, ds, same⟩ := List.exists_cons_of_ne_nil s.nonempty
  exact ⟨d, ds, same, s.areDigits d (by simp [same])⟩

theorem readDigits_digits : Text.readDigits s.digits = some (Nat.ofDigitChars 10 s.digits 0) := by
  rw [Text.readDigits, if_pos ⟨s.nonempty, List.all_eq_true.mpr s.areDigits⟩]

theorem first?_text_append (rest : List Char) : Sign.first? (s.text ++ rest) = s.sign := by
  obtain ⟨d, ds, same, digit⟩ := s.exists_first
  cases hs : s.sign with
  | none =>
    have begins : s.text ++ rest = d :: (ds ++ rest) := by simp [text, hs, same]
    rw [begins]
    unfold Sign.first?
    split
    · simp_all
    · simp_all
    · rfl
  | some sign => cases sign <;> simp [text, hs, Sign.char, Sign.first?]

/-- A character of a numeral is a sign or a digit. -/
theorem mem_text {c : Char} (hc : c ∈ s.text) : c = '+' ∨ c = '-' ∨ c.isDigit = true := by
  rcases List.mem_append.mp hc with hc | hc
  · cases hs : s.sign with
    | none => simp [hs] at hc
    | some sign => cases sign <;> simp_all [Sign.char]
  · exact .inr (.inr (s.areDigits c hc))

theorem last_text {c : Char} (hc : c ∈ s.text.getLast?) : c.isDigit = true := by
  have ends := List.getLast?_eq_some_getLast s.nonempty
  rw [text, List.getLast?_append, ends] at hc
  obtain rfl := Option.some.inj hc
  exact s.areDigits _ (List.getLast_mem s.nonempty)

/-- Where a numeral is followed by something that is no digit, the text tells both apart. -/
theorem text_append_inj {a b : Signed} {rest rest' : List Char}
    (stops : ∀ c ∈ rest.head?, c.isDigit = false) (stops' : ∀ c ∈ rest'.head?, c.isDigit = false)
    (same : a.text ++ rest = b.text ++ rest') : a = b ∧ rest = rest' := by
  have sign : a.sign = b.sign := by
    rw [← a.first?_text_append rest, same, b.first?_text_append]
  have behind : a.digits ++ rest = b.digits ++ rest' := by simpa [text, sign] using same
  obtain ⟨digits, rest⟩ := Text.digits_append_inj a.areDigits b.areDigits stops stops' behind
  exact ⟨Signed.ext sign digits, rest⟩

end Signed

def pointed : List Char → List Char
  | [] => []
  | c :: cs => '.' :: c :: cs

/-- The same of places behind a point, which may be missing. -/
theorem pointed_append_inj {places places' rest rest' : List Char}
    (inside : ∀ c ∈ places, c.isDigit = true) (inside' : ∀ c ∈ places', c.isDigit = true)
    (stops : ∀ c ∈ rest.head?, c.isDigit = false ∧ c ≠ '.')
    (ends : ∀ c ∈ rest'.head?, c.isDigit = false ∧ c ≠ '.')
    (same : pointed places ++ rest = pointed places' ++ rest') : places = places' ∧ rest = rest' := by
  cases places with
  | nil =>
    cases places' with
    | nil => exact ⟨rfl, same⟩
    | cons d ds =>
      obtain rfl : rest = '.' :: (d :: ds ++ rest') := same
      exact absurd rfl (stops '.' rfl).2
  | cons c cs =>
    cases places' with
    | nil =>
      obtain rfl : '.' :: (c :: cs ++ rest) = rest' := same
      exact absurd rfl (ends '.' rfl).2
    | cons d ds =>
      exact Text.digits_append_inj inside inside' (fun c hc => (stops c hc).1)
        (fun c hc => (ends c hc).1) (List.tail_eq_of_cons_eq same)

theorem mem_pointed {places : List Char} (digits : ∀ c ∈ places, c.isDigit = true) {c : Char}
    (hc : c ∈ pointed places) : c = '.' ∨ c.isDigit = true := by
  cases places with
  | nil => exact absurd hc List.not_mem_nil
  | cons d ds =>
    rcases List.mem_cons.mp hc with rfl | hc
    · exact .inl rfl
    · exact .inr (digits c hc)

/-- In front of the exponent stands a digit. -/
theorem last_mantissa (whole : Signed) {places : List Char} (digits : ∀ c ∈ places, c.isDigit = true)
    {c : Char} (hc : c ∈ (whole.text ++ pointed places).getLast?) : c.isDigit = true := by
  cases places with
  | nil =>
    rw [pointed, List.append_nil] at hc
    exact whole.last_text hc
  | cons d ds =>
    have ends := List.getLast?_eq_some_getLast (List.cons_ne_nil d ds)
    rw [pointed, List.getLast?_append, List.getLast?_cons_cons, ends] at hc
    obtain rfl := Option.some.inj hc
    exact digits _ (List.getLast_mem _)

/-- A decimal literal. There is a point when there are places behind it, and an `e` when there is an
exponent. -/
@[ext]
structure Literal where
  whole : Signed
  places : List Char
  exponent : Option Signed
  areDigits : ∀ c ∈ places, c.isDigit = true

/-- Digits, a point and places are taken apart, and what is behind them is read as the exponent. -/
theorem Numeral.read_of_parts {whole places tail : List Char} {digits : Nat} {power : Int}
    (inside : ∀ c ∈ whole, c.isDigit = true) (behind : ∀ c ∈ places, c.isDigit = true)
    (stops : ∀ c ∈ tail.head?, c.isDigit = false ∧ c ≠ '.')
    (read : Text.readDigits (whole ++ places) = some digits) (readPower : readTail tail = some power) :
    Numeral.read (whole ++ (pointed places ++ tail)) = some ⟨digits, power - places.length⟩ := by
  have ends : ∀ c ∈ tail.head?, c.isDigit = false := fun c hc => (stops c hc).1
  cases places with
  | nil =>
    rw [List.append_nil] at read
    simp only [Numeral.read, pointed, List.nil_append, takeWhile_of_stops inside ends,
      dropWhile_of_stops inside ends]
    cases tail with
    | nil => simp [read, readPower]
    | cons c cs =>
      have noPoint := (stops c rfl).2
      simp [noPoint, read, readPower]
  | cons d ds =>
    have point : ∀ c ∈ (pointed (d :: ds) ++ tail).head?, c.isDigit = false := by
      intro c hc
      obtain rfl : '.' = c := by simpa [pointed] using hc
      rfl
    have joined : pointed (d :: ds) ++ tail = '.' :: ((d :: ds) ++ tail) := rfl
    simp only [Numeral.read, takeWhile_of_stops inside point, dropWhile_of_stops inside point]
    simp only [joined, takeWhile_of_stops behind ends, dropWhile_of_stops behind ends, read, readPower]

namespace Literal

variable (t : Literal)

def tail : List Char := t.exponent.elim [] fun e => 'e' :: e.text

def text : List Char := t.whole.text ++ (pointed t.places ++ t.tail)

def magnitude : List Char := t.whole.digits ++ (pointed t.places ++ t.tail)

def power : Int := t.exponent.elim 0 Signed.number

def value : ℚ :=
  t.whole.factor *
    (Nat.ofDigitChars 10 t.whole.digits 0 + Nat.ofDigitChars 10 t.places 0 / 10 ^ t.places.length) *
    10 ^ t.power

theorem text_eq : t.text = t.whole.sign.elim [] (fun sign => [sign.char]) ++ t.magnitude := by
  simp [text, magnitude, Signed.text]

theorem first_tail {c : Char} (hc : c ∈ t.tail.head?) : c = 'e' := by
  cases he : t.exponent with
  | none => simp [tail, he] at hc
  | some e => simpa [tail, he, eq_comm] using hc

theorem tail_stops {c : Char} (hc : c ∈ t.tail.head?) : c.isDigit = false ∧ c ≠ '.' := by
  rw [t.first_tail hc]
  decide

/-- The exponent is read back from its mark and digits. -/
theorem tail_inj {t u : Literal} (same : t.tail = u.tail) : t.exponent = u.exponent := by
  cases ht : t.exponent with
  | none => cases hu : u.exponent <;> simp_all [tail]
  | some a =>
    cases hu : u.exponent with
    | none => simp [tail, ht, hu] at same
    | some b =>
      have same : a.text ++ [] = b.text ++ [] := by simpa [tail, ht, hu] using same
      rw [(Signed.text_append_inj (by simp) (by simp) same).1]

theorem behind_stops {c : Char} (hc : c ∈ (pointed t.places ++ t.tail).head?) : c.isDigit = false := by
  cases hp : t.places with
  | nil =>
    rw [hp] at hc
    exact (t.tail_stops hc).1
  | cons d ds =>
    obtain rfl : '.' = c := by simpa [hp, pointed] using hc
    rfl

/-- A text is the text of one literal at most. -/
theorem text_injective : Function.Injective text := by
  intro t u same
  obtain ⟨whole, behind⟩ :=
    Signed.text_append_inj (fun _ => t.behind_stops) (fun _ => u.behind_stops) same
  obtain ⟨places, tails⟩ :=
    pointed_append_inj t.areDigits u.areDigits (fun _ => t.tail_stops) (fun _ => u.tail_stops) behind
  exact Literal.ext whole places (tail_inj tails)

/-- There is no point without a place behind it. -/
theorem text_ne_dangling (front : List Char) : t.text ≠ front ++ '.' :: t.tail := by
  intro same
  have ends : t.whole.text ++ pointed t.places = front ++ ['.'] := by
    refine (List.append_left_inj t.tail).mp ?_
    simpa [text] using same
  have digit : '.'.isDigit = true := last_mantissa t.whole t.areDigits (by rw [ends]; simp)
  contradiction

/-- The digits of a literal as one whole number, and the power of ten of the last one. -/
def numeral : Numeral :=
  ⟨Nat.ofDigitChars 10 (t.whole.digits ++ t.places) 0, t.power - t.places.length⟩

/-- A literal denotes its numeral, with the sign. -/
theorem value_eq : t.value = t.whole.factor * t.numeral.value := by
  have digits : (t.numeral.digits : ℚ) =
      10 ^ t.places.length * Nat.ofDigitChars 10 t.whole.digits 0 + Nat.ofDigitChars 10 t.places 0 := by
    rw [numeral, Nat.ofDigitChars_append, Nat.ofDigitChars_eq_ofDigitChars_zero]
    push_cast
    rfl
  have power : (10 : ℚ) ^ t.numeral.power = 10 ^ t.power / 10 ^ t.places.length := by
    rw [numeral, zpow_sub₀ (by norm_num), zpow_natCast]
  rw [value, Numeral.value, digits, power]
  field_simp

theorem readPower_text (e : Signed) : Numeral.readPower e.text = some e.number := by
  cases hs : e.sign with
  | none =>
    have unsigned : e.text = e.digits := by simp [Signed.text, hs]
    rw [unsigned, Numeral.readPower_of_digits e.areDigits, e.readDigits_digits]
    simp [Signed.number, Signed.factor, Signed.negative, hs]
  | some sign =>
    cases sign <;>
      simp [Signed.text, Numeral.readPower, Signed.number, Signed.factor, Signed.negative, Sign.char, hs,
        e.readDigits_digits]

theorem readTail_tail : Numeral.readTail t.tail = some t.power := by
  cases he : t.exponent with
  | none => simp [tail, power, he, Numeral.readTail]
  | some e => simp [tail, power, he, Numeral.readTail, readPower_text]

/-- Without its sign a literal is read as its numeral. -/
theorem read_magnitude : Numeral.read t.magnitude = some t.numeral := by
  have inside : ∀ c ∈ t.whole.digits ++ t.places, c.isDigit = true := by
    intro c hc
    rcases List.mem_append.mp hc with hc | hc
    · exact t.whole.areDigits c hc
    · exact t.areDigits c hc
  have digits : Text.readDigits (t.whole.digits ++ t.places) = some t.numeral.digits := by
    rw [Text.readDigits, if_pos ⟨by simp [t.whole.nonempty], List.all_eq_true.mpr inside⟩]
    rfl
  have stops : ∀ c ∈ t.tail.head?, c.isDigit = false ∧ c ≠ '.' := fun _ => t.tail_stops
  exact Numeral.read_of_parts t.whole.areDigits t.areDigits stops digits t.readTail_tail

/-- A literal is read, as its numeral with its sign. -/
theorem read_text (f : Format) : Decimal.read f t.text = some (t.numeral.toBits f t.whole.negative) := by
  obtain ⟨d, ds, same, digit⟩ := t.whole.exists_first
  obtain ⟨more, begins⟩ : ∃ more, t.magnitude = d :: more := ⟨_, by rw [magnitude, same]; rfl⟩
  have noWord : ∀ word : List Char, word.head?.map Char.isDigit = some false →
      (d :: more).map Char.toLower ≠ word := by
    rintro _ letter rfl
    rw [List.map_cons, Text.toLower_of_isDigit digit, List.head?_cons, Option.map_some, digit] at letter
    contradiction
  have number : ∀ negative, readMagnitude f negative t.magnitude = some (t.numeral.toBits f negative) := by
    intro negative
    rw [readMagnitude, t.read_magnitude, begins,
      if_neg (not_or.mpr ⟨noWord "inf".toList rfl, noWord "infinity".toList rfl⟩),
      if_neg (noWord "nan".toList rfl)]
    rfl
  rw [text_eq]
  cases hs : t.whole.sign with
  | none =>
    have unsigned : Decimal.read f t.magnitude = readMagnitude f false t.magnitude := by
      rw [begins]
      unfold Decimal.read
      split
      · simp_all
      · simp_all
      · rfl
    simpa [hs, unsigned, Signed.negative] using number false
  | some sign =>
    cases sign <;> simpa [hs, Sign.char, Decimal.read, Signed.negative] using number _

/-- Literals of one number and one sign are read alike. The sign matters, for zero has two patterns. -/
theorem read_congr (f : Format) {t u : Literal} (sign : t.whole.sign = u.whole.sign)
    (same : t.value = u.value) : Decimal.read f t.text = Decimal.read f u.text := by
  have negative : t.whole.negative = u.whole.negative := by rw [Signed.negative, Signed.negative, sign]
  have numeral : t.numeral.value = u.numeral.value := by
    rw [value_eq, value_eq, Signed.factor, Signed.factor, negative] at same
    refine mul_left_cancel₀ ?_ same
    split <;> norm_num
  rw [read_text, read_text, negative, Numeral.toBits_congr f _ numeral]

end Literal

end Decimal

end BoundValues
