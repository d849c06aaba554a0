import BoundValues.Text.Buffer

namespace BoundValues.Text

section Longest

variable {room : Nat} {cs p : List Char}

theorem clipTo_initial (room : Nat) (cs : List Char) : clipTo room cs <+: cs := by
  induction cs generalizing room with
  | nil => exact List.prefix_refl []
  | cons c cs ih =>
    unfold clipTo
    split
    · exact List.prefix_cons_inj c |>.mpr (ih _)
    · exact List.nil_prefix

/-- Greedy is longest: whatever prefix fits, clipping goes on at least as far. -/
theorem initial_clipTo (begins : p <+: cs) (fits : byteLength p ≤ room) : p <+: clipTo room cs := by
  induction cs generalizing room p with
  | nil => exact begins
  | cons c cs ih =>
    cases p with
    | nil => exact List.nil_prefix
    | cons d p =>
      obtain ⟨rfl, tail⟩ := List.cons_prefix_cons.mp begins
      rw [byteLength_cons] at fits
      rw [clipTo, if_pos (by omega)]
      exact (List.prefix_cons_inj d).mpr (ih tail (by omega))

theorem byteLength_le_of_initial (begins : p <+: cs) : byteLength p ≤ byteLength cs := by
  obtain ⟨rest, rfl⟩ := begins
  rw [byteLength_append]
  exact Nat.le_add_right ..

/-- Of characters of one byte each, as many are kept as there is room for. -/
theorem clipTo_of_ascii (room : Nat) (ascii : ∀ c ∈ cs, c.utf8Size = 1) : clipTo room cs = cs.take room := by
  induction cs generalizing room with
  | nil => simp [clipTo]
  | cons c cs ih =>
    obtain ⟨one, ascii⟩ := List.forall_mem_cons.mp ascii
    cases room with
    | zero => simp [clipTo, one]
    | succ room => simp [clipTo, one, ih room ascii]

/-- Less than one character of room is left by a text that does not fit. -/
theorem room_lt_of_beyond (beyond : room < byteLength cs) :
    room < byteLength (clipTo room cs) + 4 := by
  induction cs generalizing room with
  | nil => simp at beyond
  | cons c cs ih =>
    rw [byteLength_cons] at beyond
    have := c.utf8Size_le_four
    unfold clipTo
    split
    · have still : room - c.utf8Size < byteLength cs := by omega
      have := ih still
      rw [byteLength_cons]
      omega
    · rw [byteLength_nil]
      omega

end Longest

section Bytes

variable {cs : List Char} {bs : List UInt8} {place room : Nat}

@[simp] theorem bytes_cons (c : Char) (cs : List Char) :
    bytes (c :: cs) = String.utf8EncodeChar c ++ bytes cs := rfl

@[simp] theorem bytes_append (a b : List Char) : bytes (a ++ b) = bytes a ++ bytes b :=
  List.flatMap_append

theorem length_bytes (cs : List Char) : (bytes cs).length = byteLength cs := by
  induction cs with
  | nil => rfl
  | cons c cs ih => rw [bytes_cons, List.length_append, String.length_utf8EncodeChar, ih, byteLength_cons]

theorem isBoundary_zero (bs : List UInt8) : isBoundary bs 0 = true := rfl

/-- Both ends are boundaries, and so is every place where a character's first byte stands. -/
theorem isBoundary_iff : isBoundary bs place = true ↔
    place = 0 ∨ place = bs.length ∨ ∃ b ∈ bs[place]?, b.IsUTF8FirstByte := by
  simp [isBoundary, or_assoc, Option.any_eq_true]

/-- Within a character there is no boundary behind its first byte. -/
theorem isBoundary_inside (c : Char) (cs : List Char) (inside : place < c.utf8Size) :
    isBoundary (bytes (c :: cs)) place = true ↔ place = 0 := by
  have here : place < (String.utf8EncodeChar c).length := by rwa [String.length_utf8EncodeChar]
  have short : place ≠ c.utf8Size + (bytes cs).length := by omega
  have first : (String.utf8EncodeChar c)[place].IsUTF8FirstByte ↔ place = 0 :=
    UInt8.isUTF8FirstByte_getElem_utf8EncodeChar
  rw [isBoundary_iff, bytes_cons, List.getElem?_append_left here, List.getElem?_eq_getElem here]
  simp [short, first]

/-- Behind a character the boundaries are those of the rest. -/
theorem isBoundary_behind (c : Char) (cs : List Char) (place : Nat) :
    isBoundary (bytes (c :: cs)) (c.utf8Size + place) = isBoundary (bytes cs) place := by
  have length := String.length_utf8EncodeChar c
  have there : (bytes (c :: cs))[c.utf8Size + place]? = (bytes cs)[place]? := by
    rw [bytes_cons, List.getElem?_append_right (by omega), length, Nat.add_sub_cancel_left]
  have ending : c.utf8Size + place = (bytes (c :: cs)).length ↔ place = (bytes cs).length := by
    rw [bytes_cons, List.length_append, length]
    omega
  cases place with
  | succ place =>
    rw [Bool.eq_iff_iff, isBoundary_iff, isBoundary_iff, there, ending]
    simp
  | zero =>
    -- The rest begins with a character, unless it is empty.
    rw [isBoundary_zero, isBoundary_iff, there]
    cases cs with
    | nil => exact .inr (.inl (ending.mpr rfl))
    | cons d cs =>
      have begins : 0 < (String.utf8EncodeChar d).length := by
        rw [String.length_utf8EncodeChar]
        exact d.utf8Size_pos
      refine .inr (.inr ⟨(String.utf8EncodeChar d)[0], ?_, ?_⟩)
      · rw [bytes_cons, List.getElem?_append_left begins, List.getElem?_eq_getElem begins]
        rfl
      · exact UInt8.isUTF8FirstByte_getElem_utf8EncodeChar.mpr rfl

/-- The boundaries are where the prefixes of whole characters end. -/
theorem isBoundary_bytes_iff :
    isBoundary (bytes cs) place = true ↔ ∃ p, p <+: cs ∧ byteLength p = place := by
  induction cs generalizing place with
  | nil =>
    simp only [List.prefix_nil, exists_eq_left, byteLength_nil]
    simp [isBoundary, bytes, eq_comm]
  | cons c cs ih =>
    by_cases inside : place < c.utf8Size
    · rw [isBoundary_inside c cs inside]
      constructor
      · rintro rfl
        exact ⟨[], List.nil_prefix, rfl⟩
      · rintro ⟨p, begins, rfl⟩
        cases p with
        | nil => rfl
        | cons d p =>
          obtain ⟨rfl, -⟩ := List.cons_prefix_cons.mp begins
          rw [byteLength_cons] at inside
          omega
    · obtain ⟨rest, rfl⟩ := Nat.exists_eq_add_of_le (Nat.not_lt.mp inside)
      rw [isBoundary_behind, ih]
      constructor
      · rintro ⟨p, begins, rfl⟩
        exact ⟨c :: p, (List.prefix_cons_inj c).mpr begins, rfl⟩
      · rintro ⟨p, begins, length⟩
        have positive := c.utf8Size_pos
        cases p with
        | nil =>
          rw [byteLength_nil] at length
          omega
        | cons d p =>
          obtain ⟨rfl, tail⟩ := List.cons_prefix_cons.mp begins
          rw [byteLength_cons] at length
          exact ⟨p, tail, by omega⟩

theorem lastBoundary_le (bs : List UInt8) (place : Nat) : lastBoundary bs place ≤ place := by
  induction place with
  | zero => exact Nat.le_refl 0
  | succ place ih =>
    unfold lastBoundary
    split
    · exact Nat.le_refl _
    · exact Nat.le_succ_of_le ih

/-- The search backwards always ends, as the front is a boundary. -/
theorem isBoundary_lastBoundary (bs : List UInt8) (place : Nat) :
    isBoundary bs (lastBoundary bs place) = true := by
  induction place with
  | zero => exact isBoundary_zero bs
  | succ place ih =>
    unfold lastBoundary
    split
    · assumption
    · exact ih

/-- The search stops at no earlier place than it must. -/
theorem le_lastBoundary {other : Nat} (boundary : isBoundary bs other = true) (le : other ≤ place) :
    other ≤ lastBoundary bs place := by
  induction place with
  | zero => exact le
  | succ place ih =>
    unfold lastBoundary
    split
    · exact le
    · rename_i none
      have : other ≠ place + 1 := fun same => none (same ▸ boundary)
      exact ih (by omega)

/-- The search ends where the longest prefix that fits does. -/
theorem lastBoundary_bytes (room : Nat) (cs : List Char) :
    lastBoundary (bytes cs) room = byteLength (clipTo room cs) := by
  apply Nat.le_antisymm
  · obtain ⟨p, begins, length⟩ := isBoundary_bytes_iff.mp (isBoundary_lastBoundary (bytes cs) room)
    have fits : byteLength p ≤ room := length ▸ lastBoundary_le (bytes cs) room
    rw [← length]
    exact byteLength_le_of_initial (initial_clipTo begins fits)
  · exact le_lastBoundary (isBoundary_bytes_iff.mpr ⟨_, clipTo_initial room cs, rfl⟩)
      (byteLength_clipTo_le room cs)

/-- The prefix of characters and the prefix of bytes are cut at the same place. -/
theorem bytes_clipTo (room : Nat) (cs : List Char) :
    bytes (clipTo room cs) = (bytes cs).take (lastBoundary (bytes cs) room) := by
  obtain ⟨rest, whole⟩ := clipTo_initial room cs
  have parts : bytes cs = bytes (clipTo room cs) ++ bytes rest := by rw [← bytes_append, whole]
  rw [lastBoundary_bytes, parts, ← length_bytes, List.take_left]

theorem bytes_clip (cs : List Char) : bytes (clip cs) = cut (bytes cs) := by
  unfold cut
  split
  · exact bytes_clipTo capacity cs
  · rename_i fits
    rw [length_bytes, Nat.not_lt] at fits
    rw [clip, clipTo_of_byteLength_le fits]

end Bytes

/-- **Clipping keeps the longest prefix of whole characters.** What is kept is a prefix that fits, and
every prefix that fits is a prefix of it. Among the bytes it is what the backward search cuts off, which
ends within four bytes of the buffer's end. A text that fits is kept as it is, clipping again changes
nothing, and nothing that follows a text that fills the buffer has a part in the result. -/
theorem clip_longest (cs : List Char) :
    (clip cs <+: cs ∧ byteLength (clip cs) ≤ capacity ∧
      ∀ p, p <+: cs → byteLength p ≤ capacity → p <+: clip cs) ∧
    (bytes (clip cs) = cut (bytes cs) ∧ (bytes cs).length = byteLength cs) ∧
    (capacity < byteLength cs → capacity < lastBoundary (bytes cs) capacity + 4) ∧
    (byteLength cs ≤ capacity → clip cs = cs) ∧
    clip (clip cs) = clip cs ∧
    ∀ more, bufferSize ≤ byteLength cs → clip (cs ++ more) = clip cs := by
  have fits := byteLength_clipTo_le capacity cs
  refine ⟨⟨clipTo_initial capacity cs, fits, fun p => initial_clipTo⟩, ⟨bytes_clip cs, length_bytes cs⟩,
    ?_, clipTo_of_byteLength_le, clipTo_of_byteLength_le fits, ?_⟩
  · rw [lastBoundary_bytes]
    exact room_lt_of_beyond
  · intro more full
    have beyond : capacity < byteLength cs := Nat.lt_of_lt_of_le (by decide) full
    exact clipTo_append_of_lt beyond more

/-- The last of 64 letters of two bytes ends one byte behind the buffer. -/
example : clip (List.replicate 64 'é') = List.replicate 63 'é' := by decide +kernel

end BoundValues.Text
