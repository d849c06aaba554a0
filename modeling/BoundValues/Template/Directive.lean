import BoundValues.Text.Buffer

namespace BoundValues.Template

structure Layout where
  /-- Fill on the right. -/
  left : Bool := false
  /-- Fill with zeros after the sign. -/
  zeros : Bool := false
  /-- Write a plus sign. -/
  plus : Bool := false
  /-- Write a space for a plus sign. -/
  space : Bool := false
  width : Nat := 0
  precision : Option Nat := none
deriving DecidableEq, Repr

/-- What a directive does with the argument. -/
inductive Conversion
  | signed | unsigned | hexLower | hexUpper | fixed | scientific | general | text
deriving DecidableEq, Repr

def Conversion.ofLetter? : Char → Option Conversion
  | 'd' | 'i' => some .signed
  | 'u' => some .unsigned
  | 'x' => some .hexLower
  | 'X' => some .hexUpper
  | 'f' | 'F' => some .fixed
  | 'e' => some .scientific
  | 'g' => some .general
  | 's' => some .text
  | _ => none

inductive Piece
  | plain (c : Char)
  /-- A directive that stands for a percent sign. -/
  | percent (source : List Char)
  | convert (source : List Char) (layout : Layout) (conversion : Conversion)
  /-- A directive with an unknown letter or without one. It stands for itself. -/
  | verbatim (source : List Char)
deriving DecidableEq, Repr

def Piece.source : Piece → List Char
  | .plain c => [c]
  | .percent source | .convert source _ _ | .verbatim source => source

def isFlag (c : Char) : Bool := c = '-' || c = '0' || c = '+' || c = ' '

def isLengthLetter (c : Char) : Bool := c = 'l' || c = 'h' || c = 'z' || c = 'L'

def pushDigit (n : Nat) (d : Char) : Nat := min Text.bufferSize (n * 10 + (d.toNat - '0'.toNat))

/-- The number that digits write, brought down to the buffer's size. -/
def count (digits : List Char) : Nat := digits.foldl pushDigit 0

/-- Bringing the number down digit by digit comes to bringing it down at the end. -/
theorem count_eq (digits : List Char) :
    count digits = min Text.bufferSize (Nat.ofDigitChars 10 digits 0) := by
  suffices h : ∀ n, digits.foldl pushDigit (min Text.bufferSize n) =
      min Text.bufferSize (Nat.ofDigitChars 10 digits n) from h 0
  induction digits with
  | nil => intro n; rfl
  | cons d digits ih =>
    intro n
    rw [List.foldl_cons, Nat.ofDigitChars_cons, ← ih, pushDigit]
    congr 1
    have : Text.bufferSize = 128 := rfl
    omega

def layoutOf (flags width : List Char) (precision : Option (List Char)) : Layout :=
  { left := flags.contains '-', zeros := flags.contains '0', plus := flags.contains '+'
    space := flags.contains ' ', width := count width, precision := precision.map count }

/-- Takes a precision from the front: a point and the digits after it. -/
def takePrecision : List Char → Option (List Char) × List Char
  | '.' :: cs => (some (cs.takeWhile Char.isDigit), cs.dropWhile Char.isDigit)
  | cs => (none, cs)

def precisionSource : Option (List Char) → List Char
  | some digits => '.' :: digits
  | none => []

/-- What stands between the percent sign of a directive and its letter. -/
structure Lead where
  flags : List Char
  width : List Char
  precision : Option (List Char)
  letters : List Char
deriving DecidableEq, Repr

namespace Lead

def source (lead : Lead) : List Char :=
  lead.flags ++ lead.width ++ precisionSource lead.precision ++ lead.letters

def layout (lead : Lead) : Layout := layoutOf lead.flags lead.width lead.precision

/-- Takes flags, a width, a precision and length letters from the front, each as far as it goes. -/
def take (cs : List Char) : Lead × List Char :=
  let afterFlags := cs.dropWhile isFlag
  let (precision, afterPrecision) := takePrecision (afterFlags.dropWhile Char.isDigit)
  ({ flags := cs.takeWhile isFlag, width := afterFlags.takeWhile Char.isDigit, precision
     letters := afterPrecision.takeWhile isLengthLetter },
   afterPrecision.dropWhile isLengthLetter)

end Lead

/-- The directive that a letter ends. -/
def Piece.ofLetter (lead : Lead) (letter : Char) : Piece :=
  let source := '%' :: lead.source ++ [letter]
  if letter = '%' then .percent source
  else match Conversion.ofLetter? letter with
    | some conversion => .convert source lead.layout conversion
    | none => .verbatim source

/-- Reads the rest of a directive after its percent sign. -/
def directive (cs : List Char) : Piece × List Char :=
  match Lead.take cs with
  | (lead, []) => (.verbatim ('%' :: lead.source), [])
  | (lead, letter :: rest) => (.ofLetter lead letter, rest)

theorem Piece.source_ofLetter (lead : Lead) (letter : Char) :
    (ofLetter lead letter).source = '%' :: lead.source ++ [letter] := by
  unfold ofLetter
  simp only
  split
  · rfl
  · split <;> rfl

theorem takePrecision_source (cs : List Char) :
    precisionSource (takePrecision cs).1 ++ (takePrecision cs).2 = cs := by
  unfold takePrecision
  split <;> simp [precisionSource, List.takeWhile_append_dropWhile]

/-- What is taken from the front and what is left are the text. -/
theorem Lead.take_source (cs : List Char) : (take cs).1.source ++ (take cs).2 = cs := by
  have flags := List.takeWhile_append_dropWhile (p := isFlag) (l := cs)
  have width := List.takeWhile_append_dropWhile (p := Char.isDigit) (l := cs.dropWhile isFlag)
  have precision := takePrecision_source ((cs.dropWhile isFlag).dropWhile Char.isDigit)
  have letters := List.takeWhile_append_dropWhile (p := isLengthLetter)
    (l := (takePrecision ((cs.dropWhile isFlag).dropWhile Char.isDigit)).2)
  simp only [take, source, List.append_assoc, letters, precision, width, flags]

/-- A directive without a letter is copied as it stands. -/
theorem directive_of_unfinished {cs : List Char} {lead : Lead} (h : Lead.take cs = (lead, [])) :
    directive cs = (.verbatim ('%' :: lead.source), []) := by
  simp only [directive, h]

theorem directive_of_letter {cs rest : List Char} {lead : Lead} {letter : Char}
    (h : Lead.take cs = (lead, letter :: rest)) : directive cs = (.ofLetter lead letter, rest) := by
  simp only [directive, h]

/-- A directive takes its source from the front and leaves the rest. -/
theorem directive_source (cs : List Char) :
    (directive cs).1.source ++ (directive cs).2 = '%' :: cs := by
  have whole := Lead.take_source cs
  rcases parts : Lead.take cs with ⟨lead, tail⟩
  rw [parts] at whole
  cases tail with
  | nil =>
    rw [directive_of_unfinished parts]
    simpa [Piece.source] using whole
  | cons letter rest =>
    rw [directive_of_letter parts, Piece.source_ofLetter]
    simpa using whole

theorem source_ne_nil_of_directive (cs : List Char) : 0 < (directive cs).1.source.length := by
  unfold directive
  split
  · simp [Piece.source]
  · simp [Piece.source_ofLetter]

/-- What is left is no longer than what was read from. -/
theorem directive_rest_le (cs : List Char) : (directive cs).2.length ≤ cs.length := by
  have whole := congrArg List.length (directive_source cs)
  have some := source_ne_nil_of_directive cs
  simp only [List.length_append, List.length_cons] at whole
  omega

def pieces : List Char → List Piece
  | [] => []
  | c :: cs =>
    if c = '%' then (directive cs).1 :: pieces (directive cs).2
    else .plain c :: pieces cs
termination_by cs => cs.length
decreasing_by
  · have := directive_rest_le cs
    simp only [List.length_cons]
    omega
  · simp

end BoundValues.Template
