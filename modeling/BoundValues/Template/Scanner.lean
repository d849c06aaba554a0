import BoundValues.Template.Conversion

namespace BoundValues.Template

/-- The characters of a text, each with the number of bytes in front of it. -/
def placed (start : Nat) : List Char → List (Nat × Char)
  | [] => []
  | c :: cs => (start, c) :: placed (start + c.utf8Size) cs

def dropBytes? : Nat → List Char → Option (List Char)
  | 0, cs => some cs
  | _ + 1, [] => none
  | n + 1, c :: cs => if c.utf8Size ≤ n + 1 then dropBytes? (n + 1 - c.utf8Size) cs else none

def takeBytes? : Nat → List Char → Option (List Char)
  | 0, _ => some []
  | _ + 1, [] => none
  | n + 1, c :: cs =>
    if c.utf8Size ≤ n + 1 then (takeBytes? (n + 1 - c.utf8Size) cs).map (c :: ·) else none

/-- The part of a text from one byte to another. There is none when a byte is not the first of a
character. -/
def slice? (cs : List Char) (start stop : Nat) : Option (List Char) :=
  if start ≤ stop then (dropBytes? start cs).bind (takeBytes? (stop - start)) else none

/-- Behind the bytes of whole characters stands the rest. -/
theorem dropBytes?_append (a b : List Char) :
    dropBytes? (Text.byteLength a) (a ++ b) = some b := by
  induction a with
  | nil => simp [dropBytes?]
  | cons c a ih =>
    obtain ⟨n, size⟩ := Nat.exists_eq_succ_of_ne_zero (Nat.ne_of_gt c.utf8Size_pos)
    have bytes : Text.byteLength (c :: a) = (n + Text.byteLength a) + 1 := by
      simp only [Text.byteLength_cons, size]
      omega
    have rest : n + Text.byteLength a + 1 - c.utf8Size = Text.byteLength a := by omega
    rw [bytes, List.cons_append, dropBytes?, if_pos (by omega), rest, ih]

theorem takeBytes?_append (a b : List Char) :
    takeBytes? (Text.byteLength a) (a ++ b) = some a := by
  induction a with
  | nil => simp [takeBytes?]
  | cons c a ih =>
    obtain ⟨n, size⟩ := Nat.exists_eq_succ_of_ne_zero (Nat.ne_of_gt c.utf8Size_pos)
    have bytes : Text.byteLength (c :: a) = (n + Text.byteLength a) + 1 := by
      simp only [Text.byteLength_cons, size]
      omega
    have rest : n + Text.byteLength a + 1 - c.utf8Size = Text.byteLength a := by omega
    rw [bytes, List.cons_append, takeBytes?, if_pos (by omega), rest, ih, Option.map_some]

/-- Where a part of a text begins and ends there are first bytes of characters. -/
theorem slice?_append (a b c : List Char) :
    slice? (a ++ b ++ c) (Text.byteLength a) (Text.byteLength (a ++ b)) = some b := by
  have bytes : Text.byteLength (a ++ b) - Text.byteLength a = Text.byteLength b := by
    simp
  rw [slice?, if_pos (by simp), List.append_assoc, dropBytes?_append, Option.bind_some, bytes,
    takeBytes?_append]

def readFlags (layout : Layout) : List (Nat × Char) → Layout × List (Nat × Char)
  | [] => (layout, [])
  | (place, c) :: chars =>
    if c = '-' then readFlags { layout with left := true } chars
    else if c = '0' then readFlags { layout with zeros := true } chars
    else if c = '+' then readFlags { layout with plus := true } chars
    else if c = ' ' then readFlags { layout with space := true } chars
    else (layout, (place, c) :: chars)

/-- Reads the digits in front and appends them to a number, which stops growing at the buffer's size. -/
def readNumber (n : Nat) : List (Nat × Char) → Nat × List (Nat × Char)
  | [] => (n, [])
  | (place, c) :: chars =>
    if c.isDigit then readNumber (pushDigit n c) chars else (n, (place, c) :: chars)

def readPrecision : List (Nat × Char) → Option Nat × List (Nat × Char)
  | (_, '.') :: chars => (some (readNumber 0 chars).1, (readNumber 0 chars).2)
  | chars => (none, chars)

/-- Looks ahead to the letter of a directive. -/
def readLayout (chars : List (Nat × Char)) : Layout × List (Nat × Char) :=
  let (layout, chars) := readFlags {} chars
  let (width, chars) := readNumber 0 chars
  let (precision, chars) := readPrecision chars
  ({ layout with width, precision }, chars.dropWhile (isLengthLetter ·.2))

theorem readFlags_eq (layout : Layout) (chars : List (Nat × Char)) :
    let flags := (chars.takeWhile (isFlag ·.2)).map Prod.snd
    readFlags layout chars =
      ({ layout with
          left := layout.left || flags.contains '-', zeros := layout.zeros || flags.contains '0'
          plus := layout.plus || flags.contains '+', space := layout.space || flags.contains ' ' },
        chars.dropWhile (isFlag ·.2)) := by
  induction chars generalizing layout with
  | nil => simp [readFlags]
  | cons entry chars ih =>
    obtain ⟨place, c⟩ := entry
    unfold readFlags
    split
    · subst c
      simp [ih, isFlag]
    · split
      · subst c
        simp [ih, isFlag]
      · split
        · subst c
          simp [ih, isFlag]
        · split
          · subst c
            simp [ih, isFlag]
          · have other : isFlag c = false := by simp_all [isFlag]
            simp [other]

/-- Digits are appended one by one, as far as they go. -/
theorem readNumber_eq (n : Nat) (chars : List (Nat × Char)) :
    readNumber n chars = (((chars.takeWhile (·.2.isDigit)).map Prod.snd).foldl pushDigit n,
      chars.dropWhile (·.2.isDigit)) := by
  induction chars generalizing n with
  | nil => rfl
  | cons entry chars ih =>
    unfold readNumber
    split
    · rename_i digit
      simp [ih, digit]
    · rename_i other
      simp [other]

theorem readPrecision_suffix (chars : List (Nat × Char)) : (readPrecision chars).2 <:+ chars := by
  unfold readPrecision
  split
  · rw [readNumber_eq]
    exact (List.dropWhile_suffix _).trans (List.suffix_cons _ _)
  · exact List.suffix_refl _

/-- Looking ahead only goes forward. -/
theorem readLayout_suffix (chars : List (Nat × Char)) : (readLayout chars).2 <:+ chars := by
  simp only [readLayout, readFlags_eq, readNumber_eq]
  exact (List.dropWhile_suffix _).trans <| (readPrecision_suffix _).trans <|
    (List.dropWhile_suffix _).trans (List.dropWhile_suffix _)

/-- Behind the letter of a directive there is less left to read. -/
theorem lt_of_readLayout {chars rest : List (Nat × Char)} {layout : Layout} {entry : Nat × Char}
    (h : readLayout chars = (layout, entry :: rest)) : rest.length < chars.length := by
  have shorter := (readLayout_suffix chars).length_le
  simp only [h, List.length_cons] at shorter
  omega

/-- Writes an argument through the template, from some character on, behind what is written already.
`full` tells when to stop; it is asked before every ordinary character and before every directive. -/
def scan (template : List Char) (argument : Argument) (full : List Char → Bool)
    (out : List Char) : List (Nat × Char) → Option (List Char)
  | [] => some out
  | (start, c) :: chars =>
    if full out then some out
    else if c = '%' then
      match _ : readLayout chars with
      | (_, []) => (slice? template start (Text.byteLength template)).map (out ++ ·)
      | (layout, (place, letter) :: rest) =>
        if letter = '%' then scan template argument full (out ++ ['%']) rest
        else match Conversion.ofLetter? letter with
          | some conversion =>
            scan template argument full
              (out ++ fill layout (conversion != .text) (conversion.body layout argument)) rest
          | none =>
            (slice? template start (place + letter.utf8Size)).bind fun source =>
              scan template argument full (out ++ source) rest
    else scan template argument full (out ++ [c]) chars
termination_by chars => chars.length
decreasing_by
  · exact Nat.lt_succ_of_lt (lt_of_readLayout ‹readLayout chars = _›)
  · exact Nat.lt_succ_of_lt (lt_of_readLayout ‹readLayout chars = _›)
  · exact Nat.lt_succ_of_lt (lt_of_readLayout ‹readLayout chars = _›)
  · exact Nat.lt_succ_self _

end BoundValues.Template
