namespace BoundValues.Text

/-- The buffer's size. One byte of it is never used. -/
def bufferSize : Nat := 128

def capacity : Nat := bufferSize - 1

def byteLength : List Char → Nat
  | [] => 0
  | c :: cs => c.utf8Size + byteLength cs

/-- The longest run of whole characters from the front that fits into `room` bytes. -/
def clipTo : Nat → List Char → List Char
  | _, [] => []
  | room, c :: cs => if c.utf8Size ≤ room then c :: clipTo (room - c.utf8Size) cs else []

/-- Cuts a text to the buffer, never through a character. -/
def clip (cs : List Char) : List Char := clipTo capacity cs

def bytes (cs : List Char) : List UInt8 := cs.flatMap String.utf8EncodeChar

/-- Whether a character begins at a place among bytes, or the bytes end there. -/
def isBoundary (bs : List UInt8) (place : Nat) : Bool :=
  place = 0 || place = bs.length || bs[place]?.any fun b => decide b.IsUTF8FirstByte

/-- The last boundary up to a place, searched for backwards from there. -/
def lastBoundary (bs : List UInt8) : Nat → Nat
  | 0 => 0
  | place + 1 => if isBoundary bs (place + 1) then place + 1 else lastBoundary bs place

/-- Cuts bytes that do not fit the buffer at the last boundary in it. -/
def cut (bs : List UInt8) : List UInt8 :=
  if capacity < bs.length then bs.take (lastBoundary bs capacity) else bs

@[simp] theorem byteLength_nil : byteLength [] = 0 := rfl

@[simp] theorem byteLength_cons (c : Char) (cs : List Char) :
    byteLength (c :: cs) = c.utf8Size + byteLength cs := rfl

@[simp] theorem byteLength_append (a b : List Char) :
    byteLength (a ++ b) = byteLength a + byteLength b := by
  induction a with
  | nil => simp
  | cons c a ih => simp [ih, Nat.add_assoc]

/-- Characters up to 127 take one byte each. -/
theorem byteLength_of_ascii {cs : List Char} (ascii : ∀ c ∈ cs, c.val ≤ 127) :
    byteLength cs = cs.length := by
  induction cs with
  | nil => rfl
  | cons c cs ih =>
    have one : c.utf8Size = 1 := Char.utf8Size_eq_one_iff.mpr (ascii c List.mem_cons_self)
    have others := ih fun d hd => ascii d (List.mem_cons_of_mem c hd)
    simp only [byteLength_cons, one, others, List.length_cons]
    omega

/-- What is kept fits. -/
theorem byteLength_clipTo_le (room : Nat) (cs : List Char) :
    byteLength (clipTo room cs) ≤ room := by
  induction cs generalizing room with
  | nil => simp [clipTo]
  | cons c cs ih =>
    unfold clipTo
    split
    · have := ih (room - c.utf8Size)
      simp only [byteLength_cons]
      omega
    · simp

/-- A text that fits is kept whole. -/
theorem clipTo_of_byteLength_le {room : Nat} {cs : List Char} (h : byteLength cs ≤ room) :
    clipTo room cs = cs := by
  induction cs generalizing room with
  | nil => rfl
  | cons c cs ih =>
    simp only [byteLength_cons] at h
    simp only [clipTo, if_pos (by omega : c.utf8Size ≤ room), List.cons.injEq, true_and]
    exact ih (by omega)

/-- A text that does not fit is cut before what stands behind it. -/
theorem clipTo_append_of_lt {room : Nat} {cs : List Char} (beyond : room < byteLength cs)
    (more : List Char) : clipTo room (cs ++ more) = clipTo room cs := by
  induction cs generalizing room with
  | nil => simp at beyond
  | cons c cs ih =>
    simp only [byteLength_cons] at beyond
    simp only [List.cons_append, clipTo]
    split
    · rw [ih (by omega)]
    · rfl

end BoundValues.Text
