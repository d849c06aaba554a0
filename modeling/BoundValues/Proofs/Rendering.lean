import BoundValues.Template.Render

namespace BoundValues.Template

open Text (byteLength byteLength_append byteLength_cons)

section Placed

variable (start : Nat) (cs : List Char)

theorem takeWhile_placed (p : Char → Bool) :
    ((placed start cs).takeWhile (p ·.2)).map Prod.snd = cs.takeWhile p := by
  induction cs generalizing start with
  | nil => rfl
  | cons c cs ih =>
    by_cases hc : p c
    · simp [placed, hc, ih]
    · simp [placed, hc]

theorem dropWhile_placed (p : Char → Bool) : (placed start cs).dropWhile (p ·.2) =
    placed (start + byteLength (cs.takeWhile p)) (cs.dropWhile p) := by
  induction cs generalizing start with
  | nil => rfl
  | cons c cs ih =>
    by_cases hc : p c
    · simp [placed, hc, ih, Nat.add_assoc]
    · simp [placed, hc]

/-- The precision is read by place as it is taken from the characters. -/
theorem readPrecision_placed : readPrecision (placed start cs) =
    ((takePrecision cs).1.map count,
      placed (start + byteLength (precisionSource (takePrecision cs).1)) (takePrecision cs).2) := by
  unfold takePrecision
  split
  · simp only [placed, readPrecision, readNumber_eq, takeWhile_placed, dropWhile_placed, count,
      Option.map_some, precisionSource, byteLength_cons, Nat.add_assoc]
  · rename_i noPoint
    unfold readPrecision
    split
    · rename_i place chars same
      cases cs with
      | nil => cases same
      | cons c cs =>
        simp only [placed, List.cons.injEq, Prod.mk.injEq] at same
        exact absurd (by rw [same.1.2]) (noPoint cs)
    · rfl

/-- The lookahead loops read what the lead of a directive says, and stop behind it. -/
theorem readLayout_placed : readLayout (placed start cs) =
    ((Lead.take cs).1.layout,
      placed (start + byteLength (Lead.take cs).1.source) (Lead.take cs).2) := by
  simp only [readLayout, readFlags_eq, readNumber_eq, readPrecision_placed, takeWhile_placed,
    dropWhile_placed, Lead.take, Lead.layout, layoutOf, Lead.source, byteLength_append, count,
    Bool.false_or, Nat.add_assoc]

end Placed

def appendPieces (full : List Char → Bool) (argument : Argument) : List Char → List Piece → List Char
  | out, [] => out
  | out, piece :: rest =>
    if full out then out else appendPieces full argument (out ++ piece.text argument) rest

variable {template : List Char} {argument : Argument}

/-- A directive that breaks off stands for the rest of the template. -/
theorem scan_unfinished {full : List Char → Bool} {out : List Char} (room : full out = false)
    {start : Nat} {chars : List (Nat × Char)} {layout : Layout}
    (read : readLayout chars = (layout, [])) :
    scan template argument full out ((start, '%') :: chars) =
      (slice? template start (byteLength template)).map (out ++ ·) := by
  rw [scan, if_neg (by simp [room]), if_pos rfl]
  split
  · rfl
  · rename_i same
    simp [read] at same

/-- One turn of the scanner at a finished directive. -/
theorem scan_directive {full : List Char → Bool} {out : List Char} (room : full out = false)
    {start place : Nat} {letter : Char} {chars rest : List (Nat × Char)} {layout : Layout}
    (read : readLayout chars = (layout, (place, letter) :: rest)) :
    scan template argument full out ((start, '%') :: chars) =
      if letter = '%' then scan template argument full (out ++ ['%']) rest
      else match Conversion.ofLetter? letter with
        | some conversion => scan template argument full
            (out ++ fill layout (conversion != .text) (conversion.body layout argument)) rest
        | none => (slice? template start (place + letter.utf8Size)).bind fun source =>
            scan template argument full (out ++ source) rest := by
  rw [scan, if_neg (by simp [room]), if_pos rfl]
  split
  · rename_i same
    simp [read] at same
  · rename_i same
    simp only [read, Prod.mk.injEq, List.cons.injEq] at same
    obtain ⟨rfl, ⟨rfl, rfl⟩, rfl⟩ := same
    rfl

/-- The scanner appends the texts of the pieces, and no slice that it takes cuts through a character. -/
theorem scan_placed (full : List Char → Bool) {before cs : List Char}
    (whole : template = before ++ cs) (out : List Char) :
    scan template argument full out (placed (byteLength before) cs) =
      some (appendPieces full argument out (pieces cs)) := by
  fun_induction pieces cs generalizing before out with
  | case1 => rw [placed, scan, appendPieces]
  | case2 cs ih =>
    have taken := Lead.take_source cs
    have read := readLayout_placed (byteLength before + '%'.utf8Size) cs
    rw [placed, appendPieces]
    by_cases room : full out
    · simp [scan, room]
    · rw [if_neg room]
      rw [Bool.not_eq_true] at room
      rcases parts : Lead.take cs with ⟨lead, tail⟩
      rw [parts] at taken read
      cases tail with
      | nil =>
        have slice := slice?_append before ('%' :: lead.source) []
        simp only [List.append_nil] at slice taken
        rw [taken] at slice
        rw [directive_of_unfinished parts, scan_unfinished room read, whole, taken, slice, pieces, appendPieces]
        simp [Piece.text]
      | cons letter rest =>
        have source : template = before ++ ('%' :: lead.source ++ [letter]) ++ rest := by
          simp [whole, ← taken]
        have slice := slice?_append before ('%' :: lead.source ++ [letter]) rest
        rw [directive_of_letter parts] at ih ⊢
        have next := ih source
        rw [← source] at slice
        simp only [byteLength_append, byteLength_cons, Text.byteLength_nil, Nat.add_zero,
          ← Nat.add_assoc] at next slice
        rw [placed] at read
        rw [scan_directive room read, slice]
        simp only [next, Option.bind_some, Piece.ofLetter]
        split
        · rfl
        · cases Conversion.ofLetter? letter with
          | none => rfl
          | some conversion => rfl
  | case3 c cs hc ih =>
    have behind : template = (before ++ [c]) ++ cs := by simp [whole]
    have next := ih behind (out ++ [c])
    simp only [byteLength_append, byteLength_cons, Text.byteLength_nil, Nat.add_zero] at next
    rw [placed, scan, appendPieces, if_neg hc, next]
    split <;> rfl

/-- Nothing that stands behind a full buffer shows. -/
theorem clip_append_of_full {out : List Char} (full : isFull out = true) (more : List Char) :
    Text.clip (out ++ more) = Text.clip out := by
  have beyond : Text.capacity < byteLength out := by
    have : Text.capacity < Text.bufferSize := by decide
    exact Nat.lt_of_lt_of_le this (of_decide_eq_true full)
  exact Text.clipTo_append_of_lt beyond more

/-- Pieces that are left out when the buffer is full would not show. -/
theorem clip_appendPieces (argument : Argument) (out : List Char) (ps : List Piece) :
    Text.clip (appendPieces isFull argument out ps) =
      Text.clip (out ++ ps.flatMap (Piece.text argument)) := by
  induction ps generalizing out with
  | nil => simp [appendPieces]
  | cons p ps ih =>
    unfold appendPieces
    split
    · rename_i full
      exact (clip_append_of_full full _).symm
    · rw [ih, List.flatMap_cons, List.append_assoc]

/-- Stopping early and cutting come to cutting. -/
theorem format_eq (template : List Char) (argument : Argument) :
    format template argument = Text.clip (rendered template argument) := by
  have scanned : scan template argument isFull [] (placed 0 template) = _ :=
    scan_placed isFull (List.nil_append template).symm []
  rw [format, scanned]
  exact clip_appendPieces argument [] (pieces template)

theorem span_append {p : Char → Bool} {cs : List Char} (more : List Char)
    (left : cs.dropWhile p ≠ []) :
    (cs ++ more).takeWhile p = cs.takeWhile p ∧
      (cs ++ more).dropWhile p = cs.dropWhile p ++ more := by
  induction cs with
  | nil => simp at left
  | cons c cs ih =>
    by_cases hc : p c
    · have := ih (by simpa [hc] using left)
      simp [hc, this]
    · simp [hc]

theorem takePrecision_append {cs : List Char} (more : List Char)
    (left : (takePrecision cs).2 ≠ []) :
    takePrecision (cs ++ more) = ((takePrecision cs).1, (takePrecision cs).2 ++ more) := by
  cases cs with
  | nil => simp [takePrecision] at left
  | cons c cs =>
    by_cases point : c = '.'
    · subst c
      obtain ⟨digits, rest⟩ := span_append more left
      simp only [List.cons_append, takePrecision, digits, rest]
    · simp [takePrecision, point]

/-- What follows a directive's letter has no part in what stands before it. -/
theorem Lead.take_append {cs : List Char} (more : List Char) (left : (take cs).2 ≠ []) :
    take (cs ++ more) = ((take cs).1, (take cs).2 ++ more) := by
  have ne_of_dropWhile : ∀ {p : Char → Bool} {ds : List Char}, ds.dropWhile p ≠ [] → ds ≠ [] := by
    intro p ds h empty
    exact h (by rw [empty]; rfl)
  have leftAfterLetters : (takePrecision
      ((cs.dropWhile isFlag).dropWhile Char.isDigit)).2.dropWhile isLengthLetter ≠ [] := left
  have leftAfterPrecision := ne_of_dropWhile leftAfterLetters
  have leftAfterWidth : (cs.dropWhile isFlag).dropWhile Char.isDigit ≠ [] := by
    intro empty
    rw [empty] at leftAfterPrecision
    exact leftAfterPrecision rfl
  obtain ⟨flags, afterFlags⟩ := span_append more (ne_of_dropWhile leftAfterWidth)
  obtain ⟨width, afterWidth⟩ := span_append more leftAfterWidth
  have precision := takePrecision_append more leftAfterPrecision
  obtain ⟨letters, afterLetters⟩ := span_append more leftAfterLetters
  simp only [take, flags, afterFlags, width, afterWidth, precision, letters, afterLetters]

end BoundValues.Template
