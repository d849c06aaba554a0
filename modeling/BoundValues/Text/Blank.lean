namespace BoundValues.Text

/-- The code points with Unicode's `White_Space` property. -/
def blankRanges : List (Nat × Nat) :=
  [(0x9, 0xd), (0x20, 0x20), (0x85, 0x85), (0xa0, 0xa0), (0x1680, 0x1680), (0x2000, 0x200a),
   (0x2028, 0x2029), (0x202f, 0x202f), (0x205f, 0x205f), (0x3000, 0x3000)]

def isBlank (c : Char) : Bool :=
  blankRanges.any fun r => r.1 ≤ c.toNat && c.toNat ≤ r.2

/-- Drops the longest run of characters with a property from the end. -/
def dropEndWhile (p : Char → Bool) (cs : List Char) : List Char :=
  (cs.reverse.dropWhile p).reverse

def trim (cs : List Char) : List Char := dropEndWhile isBlank (cs.dropWhile isBlank)

theorem isDigit_iff (c : Char) : c.isDigit = true ↔ 48 ≤ c.toNat ∧ c.toNat ≤ 57 := by
  simp [Char.isDigit, UInt32.le_iff_toNat_le]

/-- No digit is blank. -/
theorem isBlank_of_isDigit {c : Char} (digit : c.isDigit = true) : isBlank c = false := by
  have bounds := (isDigit_iff c).mp digit
  have outside : ∀ r ∈ blankRanges, r.2 < 48 ∨ 57 < r.1 := by decide
  rw [isBlank, List.any_eq_false]
  intro r hr
  have := outside r hr
  simp only [Bool.and_eq_true, decide_eq_true_eq]
  omega

/-- A run of characters with a property ends where the first character without it stands. -/
theorem takeWhile_of_stops {p : Char → Bool} {run rest : List Char} (inside : ∀ c ∈ run, p c = true)
    (stops : ∀ c ∈ rest.head?, p c = false) : (run ++ rest).takeWhile p = run := by
  rw [List.takeWhile_append_of_pos inside]
  cases rest with
  | nil => simp
  | cons c rest => simp [stops c rfl]

theorem dropWhile_of_stops {p : Char → Bool} {run rest : List Char} (inside : ∀ c ∈ run, p c = true)
    (stops : ∀ c ∈ rest.head?, p c = false) : (run ++ rest).dropWhile p = rest := by
  rw [List.dropWhile_append_of_pos inside]
  cases rest with
  | nil => rfl
  | cons c rest => simp [stops c rfl]

/-- Blanks around a text that neither begins nor ends with one are trimmed. -/
theorem trim_of_blanks_around {left core right : List Char} (nonempty : core ≠ [])
    (before : ∀ c ∈ left, isBlank c = true) (solid : ∀ c ∈ core, isBlank c = false)
    (behind : ∀ c ∈ right, isBlank c = true) : trim (left ++ core ++ right) = core := by
  have start : (left ++ (core ++ right)).dropWhile isBlank = core ++ right := by
    obtain ⟨c, core, rfl⟩ := List.exists_cons_of_ne_nil nonempty
    exact dropWhile_of_stops before fun d hd => solid d (by simp_all)
  have finish : (right.reverse ++ core.reverse).dropWhile isBlank = core.reverse := by
    refine dropWhile_of_stops (fun c hc => behind c (List.mem_reverse.mp hc)) fun c hc => ?_
    exact solid c (List.mem_reverse.mp (List.mem_of_mem_head? hc))
  rw [trim, List.append_assoc, start, dropEndWhile, List.reverse_append, finish,
    List.reverse_reverse]

end BoundValues.Text
