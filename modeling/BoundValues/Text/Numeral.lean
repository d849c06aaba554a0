namespace BoundValues.Text

def natText (n : Nat) : List Char := Nat.toDigits 10 n

def intText : Int → List Char
  | .ofNat n => natText n
  | .negSucc n => '-' :: natText (n + 1)

/-- The hexadecimal digits of a number in lower case, without leading zeros. -/
def hexText (n : Nat) : List Char := Nat.toDigits 16 n

/-- The number that a run of decimal digits writes; nothing for an empty run or another character. -/
def readDigits (cs : List Char) : Option Nat :=
  if cs ≠ [] ∧ cs.all Char.isDigit then some (Nat.ofDigitChars 10 cs 0) else none

/-- Reads digits after an optional sign. A minus sign is read only when `negative` allows it. -/
def readInteger (negative : Bool) : List Char → Option Int
  | '+' :: cs => (readDigits cs).map Int.ofNat
  | '-' :: cs => if negative then (readDigits cs).map fun n => -Int.ofNat n else none
  | cs => (readDigits cs).map Int.ofNat

def readBounded (least greatest : Int) (cs : List Char) : Option Int :=
  (readInteger (least < 0) cs).filter fun i => least ≤ i && i ≤ greatest

theorem isDigit_of_mem_natText {n : Nat} {c : Char} (hc : c ∈ natText n) : c.isDigit = true :=
  Nat.isDigit_of_mem_toDigits (by decide) (by decide) hc

/-- Zero is written with one digit. -/
theorem natText_ne_nil (n : Nat) : natText n ≠ [] := Nat.toDigits_ne_nil

theorem ofDigitChars_zeros (k : Nat) : Nat.ofDigitChars 10 (List.replicate k '0') 0 = 0 := by
  induction k with
  | zero => rfl
  | succ k ih => simp [List.replicate_succ, Nat.ofDigitChars_cons, ih]

theorem isDigit_of_mem_zeros_natText {k n : Nat} {c : Char}
    (hc : c ∈ List.replicate k '0' ++ natText n) : c.isDigit = true := by
  rcases List.mem_append.mp hc with hc | hc
  · rw [List.eq_of_mem_replicate hc]
    rfl
  · exact isDigit_of_mem_natText hc

/-- Zeros in front of a numeral do not count. -/
theorem readDigits_zeros (k n : Nat) :
    readDigits (List.replicate k '0' ++ natText n) = some n := by
  have digits : ∀ c ∈ List.replicate k '0' ++ natText n, c.isDigit = true :=
    fun c hc => isDigit_of_mem_zeros_natText hc
  rw [readDigits, if_pos ⟨by simp [natText_ne_nil], List.all_eq_true.2 digits⟩,
    Nat.ofDigitChars_append, ofDigitChars_zeros]
  simp [natText, Nat.ofDigitChars_toDigits]

end BoundValues.Text
