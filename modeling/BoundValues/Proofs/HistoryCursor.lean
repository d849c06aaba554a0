import BoundValues.Proofs.Keeping

namespace BoundValues

variable {α : Type}

/-- A history whose cursor stands on a value, unless it was forgotten. -/
def History.StandsOn (h : History α) (v : α) : Prop := h.entries ≠ [] → h.current? = some v

/-- What the operations keep, so that the cursor goes on to stand on the committed value. -/
structure History.Follows (h : History α) (v : α) : Prop where
  capacity : 0 < h.capacity
  forgotten : h.entries = [] → h.cursor = 0
  current : h.StandsOn v

/-- A capacity that keeps the entry under the cursor, or else leaves the same value at the oldest
place. -/
def History.Keeps (h : History α) (n : Nat) (v : α) : Prop :=
  h.entries.length - max n 1 ≤ h.cursor ∨ h.entries[h.entries.length - max n 1]? = some v

namespace History

variable {h h' : History α} {v u : α}

/-- Dropping entries up to the cursor leaves the entry under it in place. -/
theorem evict_current (hc : h.entries.length - h.capacity ≤ h.cursor) :
    h.evict.current? = h.current? := by
  simp only [evict, current?, List.getElem?_drop]
  congr 1
  omega

/-- When the entry under the cursor is dropped, the cursor goes to the oldest one that is left. -/
theorem evict_oldest (hc : h.cursor ≤ h.entries.length - h.capacity) :
    h.evict.current? = h.entries[h.entries.length - h.capacity]? := by
  simp only [evict, current?, List.getElem?_drop]
  congr 1
  omega

theorem setCapacity_eq_nil (n : Nat) : (h.setCapacity n).entries = [] ↔ h.entries = [] := by
  simp only [setCapacity, evict, List.drop_eq_nil_iff]
  constructor
  · intro hle
    exact List.length_eq_zero_iff.mp (by omega)
  · intro he
    simp [he]

theorem push_current (hc : 0 < h.capacity) (v : α) : (h.push v).current? = some v := by
  unfold push
  rw [evict_current]
  · simp [current?]
  · simp only [List.length_append, List.length_singleton]
    omega

/-- A push adds one entry behind the cursor. What could be redone is lost, and so are the oldest entries
beyond the capacity. -/
theorem push_entries (hc : 0 < h.capacity) (v : α) :
    ∃ kept, kept <:+ h.entries.take (h.cursor + 1) ∧
      kept.length = min (h.entries.take (h.cursor + 1)).length (h.capacity - 1) ∧
      (h.push v).entries = kept ++ [v] ∧ (h.push v).cursor = kept.length := by
  unfold push evict
  dsimp only
  generalize h.entries.take (h.cursor + 1) = before
  have excess : (before ++ [v]).length - h.capacity ≤ before.length := by
    rw [List.length_append, List.length_singleton]
    omega
  refine ⟨before.drop ((before ++ [v]).length - h.capacity), List.drop_suffix .., ?_,
    List.drop_append_of_le_length excess, List.length_drop.symm⟩
  rw [List.length_drop, List.length_append, List.length_singleton]
  omega

/-- What was pushed last stands under the cursor. -/
theorem push_follows (hc : 0 < h.capacity) (v : α) : (h.push v).Follows v where
  capacity := hc
  forgotten he := by
    have current := push_current hc v
    simp [current?, he] at current
  current _ := push_current hc v

theorem step_back (hu : h.canUndo = true) :
    h.step false = ({ h with cursor := h.cursor - 1 }, h.entries[h.cursor - 1]?) := by
  simp [step, hu, current?]

theorem step_forward (hr : h.canRedo = true) :
    h.step true = ({ h with cursor := h.cursor + 1 }, h.entries[h.cursor + 1]?) := by
  simp [step, hr, current?]

/-- An entry can be undone to only when there are entries. -/
theorem Follows.cursor_lt (hf : h.Follows v) (hu : h.canUndo = true) :
    h.cursor < h.entries.length := by
  have he : h.entries ≠ [] := by
    intro he
    simp [canUndo, hf.forgotten he] at hu
  exact (List.getElem?_eq_some_iff.mp (hf.current he)).1

theorem Follows.current_eq (hf : h.Follows v) (hlt : h.cursor < h.entries.length) :
    h.entries[h.cursor]? = some v :=
  hf.current (List.ne_nil_of_length_pos (Nat.zero_lt_of_lt hlt))

/-- A step that has nowhere to go leaves the cursor where it is. -/
theorem Follows.halt (hf : h.Follows v) {forward : Bool} (hs : h.step forward = (h', none)) :
    h'.Follows v := by
  cases forward with
  | true =>
    cases hr : h.canRedo with
    | true =>
      rw [step_forward hr] at hs
      have hlt : h.cursor + 1 < h.entries.length := by simpa [canRedo] using hr
      simp [List.getElem?_eq_getElem hlt] at hs
    | false =>
      simp only [step, hr, Bool.false_eq_true, ↓reduceIte, Prod.mk.injEq, and_true] at hs
      exact hs ▸ hf
  | false =>
    cases hu : h.canUndo with
    | true =>
      rw [step_back hu] at hs
      have hlt : h.cursor - 1 < h.entries.length := by
        have := hf.cursor_lt hu
        omega
      simp [List.getElem?_eq_getElem hlt] at hs
    | false =>
      simp only [step, hu, Bool.false_eq_true, ↓reduceIte, Prod.mk.injEq, and_true] at hs
      exact hs ▸ hf

/-- A step tells the entry that the cursor went to, which is committed then. -/
theorem Follows.walk (hf : h.Follows v) {forward : Bool} (hs : h.step forward = (h', some u)) :
    h'.Follows u := by
  have moved : h'.capacity = h.capacity ∧ h'.current? = some u := by
    unfold step at hs
    split at hs <;> split at hs
    all_goals
      first
      | cases hs
      | obtain ⟨rfl, hu⟩ := Prod.mk.inj hs
        exact ⟨rfl, hu⟩
  refine ⟨moved.1 ▸ hf.capacity, ?_, fun _ => moved.2⟩
  intro he
  simp [current?, he] at moved

theorem Follows.clear (hf : h.Follows v) : h.clear.Follows v :=
  ⟨hf.capacity, fun _ => rfl, fun he => absurd rfl he⟩

/-- A change of the capacity leaves the committed value under the cursor just in these cases. -/
theorem Follows.setCapacity_iff (hf : h.Follows v) (n : Nat) :
    (h.setCapacity n).StandsOn v ↔ h.Keeps n v := by
  have kept : h.entries.length - max n 1 ≤ h.cursor → (h.setCapacity n).current? = h.current? :=
    fun hle => evict_current hle
  have dropped : h.cursor < h.entries.length - max n 1 →
      (h.setCapacity n).current? = h.entries[h.entries.length - max n 1]? :=
    fun hlt => evict_oldest (Nat.le_of_lt hlt)
  constructor
  · intro stands
    rcases Nat.lt_or_ge h.cursor (h.entries.length - max n 1) with hlt | hge
    · have he : h.entries ≠ [] := List.ne_nil_of_length_pos (by omega)
      exact .inr (dropped hlt ▸ stands (mt (setCapacity_eq_nil n).mp he))
    · exact .inl hge
  · intro keeps he
    have current := hf.current (mt (setCapacity_eq_nil n).mpr he)
    rcases Nat.lt_or_ge h.cursor (h.entries.length - max n 1) with hlt | hge
    · rw [dropped hlt]
      exact keeps.resolve_left (Nat.not_le.mpr hlt)
    · rw [kept hge, current]

theorem Follows.setCapacity (hf : h.Follows v) {n : Nat} (keeps : h.Keeps n v) :
    (h.setCapacity n).Follows v where
  capacity := Nat.le_max_right n 1
  forgotten he := by
    have hz : h.cursor = 0 := hf.forgotten ((setCapacity_eq_nil n).mp he)
    simp [History.setCapacity, evict, hz]
  current := (hf.setCapacity_iff n).mpr keeps

/-- A step back tells an entry, and a step forward from there is back on the value. -/
theorem Follows.back_forward (hf : h.Follows v) (hu : h.canUndo = true) :
    ∃ u, h.step false = ({ h with cursor := h.cursor - 1 }, some u) ∧
      step { h with cursor := h.cursor - 1 } true = (h, some v) := by
  have hlt := hf.cursor_lt hu
  have pos : 0 < h.cursor := by simpa [canUndo] using hu
  have returns : h.cursor - 1 + 1 = h.cursor := by omega
  have before : h.cursor - 1 < h.entries.length := by omega
  refine ⟨h.entries[h.cursor - 1], ?_, ?_⟩
  · rw [step_back hu, List.getElem?_eq_getElem before]
  · rw [step_forward (by simp [canRedo, returns, hlt])]
    simp only [returns, hf.current_eq hlt]

theorem Follows.forward_back (hf : h.Follows v) (hr : h.canRedo = true) :
    ∃ u, h.step true = ({ h with cursor := h.cursor + 1 }, some u) ∧
      step { h with cursor := h.cursor + 1 } false = (h, some v) := by
  have after : h.cursor + 1 < h.entries.length := by simpa [canRedo] using hr
  refine ⟨h.entries[h.cursor + 1], ?_, ?_⟩
  · rw [step_forward hr, List.getElem?_eq_getElem after]
  · rw [step_back (by simp [canUndo])]
    simp only [Nat.add_sub_cancel, hf.current_eq (by omega)]

end History

namespace Full

def Core.Follows (c : Full.Core α) : Prop := c.history.Follows c.value

/-- Seven operations commit, and each of them moves the cursor along. -/
theorem Core.Follows.moves {c c' : Full.Core α} {change : Option (Change α)} (h : c.Follows)
    (hm : c.Moves (fun _ => False) c' change) : c'.Follows := by
  cases hm with
  | stay => exact h
  | commit v => exact History.push_follows h.capacity v
  | walk forward history v found => exact History.Follows.walk h found
  | halt forward history ended => exact History.Follows.halt h ended
  | resize n allowed => exact allowed.elim
  | forget => exact History.Follows.clear h

variable [BEq α] {f : Full α}

/-- Undo and then redo are back on the committed value. -/
theorem undo_redo (hf : f.history.Follows f.cell.value) (hu : f.history.canUndo = true) :
    ((f.step false).state.step true).state.cell.value = f.cell.value ∧
      ((f.step false).state.step true).reply = some f.cell.value := by
  obtain ⟨u, back, forward⟩ := hf.back_forward hu
  simp only [step, back, forward, Cell.assign, and_self]

theorem redo_undo (hf : f.history.Follows f.cell.value) (hr : f.history.canRedo = true) :
    ((f.step true).state.step false).state.cell.value = f.cell.value ∧
      ((f.step true).state.step false).reply = some f.cell.value := by
  obtain ⟨u, forward, back⟩ := hf.forward_back hr
  simp only [step, forward, back, Cell.assign, and_self]

end Full

def Member.Follows (m : Member α) : Prop := ∃ f, m.body = .full f ∧ f.core.Follows

theorem Member.Follows.step {m : Member α} {b : Body α} {change : Option (Change α)}
    (follows : m.Follows) (moves : m.body.Moves (fun _ => False) b change) :
    Follows { m with body := b } := by
  obtain ⟨f, hb, hf⟩ := follows
  rw [hb] at moves
  cases moves with
  | full moves => exact ⟨_, rfl, hf.moves moves⟩

namespace World

def keepsCapacity (key : Nat) : Rules α :=
  .commands fun k c => k = key → ∀ n, c ≠ .edit (.setCapacity n)

def Paced (key k : Nat) (b b' : Body α) (change : Option (Change α)) : Prop :=
  k = key → b.Moves (fun _ => False) b' change

variable {key : Nat} {w : World α}

theorem steps_paced [BEq α] (key k : Nat) :
    Body.Steps ((keepsCapacity key : Rules α).command k) ((keepsCapacity key : Rules α).Pokes k)
      (Paced key k) := by
  refine (Body.steps_move ..).mono fun b b' change h hk => ?_
  have never : (fun n => (keepsCapacity key : Rules α).command k (.edit (.setCapacity n))) =
      fun _ => False := by
    funext n
    exact eq_false fun allowed => allowed hk n rfl
  exact never ▸ h

/-- What nobody hears of leaves the value and the history in step. -/
theorem turns_follows {m m' : Member α} (h : m.Turns (keepsCapacity key) (Paced key) key m')
    (follows : m.Follows) : m'.Follows := by
  obtain ⟨f, hb, hf⟩ := follows
  obtain ⟨type, body, hints, widget, drawn, connections⟩ := m
  subst hb
  cases h with
  | cell g kept =>
    refine ⟨_, rfl, ?_⟩
    change f.history.Follows (g f.cell).value
    rw [(kept f.cell).1]
    exact hf
  | step h => exact Member.Follows.step ⟨f, rfl, hf⟩ (h rfl)
  | _ => exact ⟨_, rfl, hf⟩

section Happenings

variable [BEq α] {depth : Nat}

/-- Every happening but a change of the capacity keeps the cursor on the committed value. -/
theorem follows_kept (key : Nat) :
    Kept (keepsCapacity key : Rules α) (Paced key) key Member.Follows where
  steps := steps_paced key
  pulled _ moves _ := moves
  turn := turns_follows
  commit h follows := follows.step (h rfl)

theorem serve_setCapacity {f : Full α} (hb : w.body? key = some (.full f)) (n : Nat) :
    w.serve depth (.command key (.edit (.setCapacity n))) =
      w.mapBody key fun _ => .full (f.setCapacity n) := by
  obtain ⟨m, hm, hf⟩ := member?_of_body? hb
  simp only [serve, exec, hm, hf]
  rfl

/-- What a world comes to by requests in any order. A change of the capacity from outside is one that
keeps the entry under the cursor. -/
inductive Reached (key : Nat) (start : World α) : World α → Prop
  | start : Reached key start start
  | request {w : World α} (h : Reached key start w) {q : Request α}
      (admits : (keepsCapacity key).Admits q) (depth : Nat) : Reached key start (w.serve depth q)
  | resize {w : World α} (h : Reached key start w) {f : Full α}
      (body : w.body? key = some (.full f)) {n : Nat} (keeps : f.history.Keeps n f.cell.value)
      (depth : Nat) : Reached key start (w.serve depth (.command key (.edit (.setCapacity n))))

theorem Reached.follows {start : World α} (reached : Reached key start w)
    (follows : start.Meets key Member.Follows) (obeys : start.Obeys (keepsCapacity key)) :
    w.Meets key Member.Follows ∧ w.Obeys (keepsCapacity key) := by
  induction reached with
  | start => exact ⟨follows, obeys⟩
  | request h admits depth ih =>
    obtain ⟨obeys', following⟩ := (follows_kept key).course.serve admits depth _ ih.2
    exact ⟨following ih.1, obeys'⟩
  | @resize w h f body n keeps depth ih =>
    obtain ⟨⟨m, hm, f', hb, hf⟩, ho⟩ := ih
    have same := body
    rw [body?_of_member? hm, hb] at same
    cases same
    have resized : (f.setCapacity n).core.Follows := History.Follows.setCapacity hf keeps
    rw [serve_setCapacity body, mapBody_of_member? hm]
    exact ⟨⟨_, member?_setMember_self hm _, _, rfl, resized⟩, ho.congr rfl rfl⟩

/-- **The cursor follows.** From a fresh value on, whatever is requested and whatever listeners do,
the entry under the cursor is the committed value, and undo and redo lead back to it, as long as no
change of the capacity drops the entry under the cursor. A change of the capacity that does so, and
does not leave an equal value at the oldest place, parts the two. -/
theorem cursor_follows {start : World α} {initial : α}
    (fresh : start.body? key = some (.full (Full.new initial)))
    (obeys : start.Obeys (keepsCapacity key)) (reached : Reached key start w) :
    ∃ f, w.body? key = some (.full f) ∧ f.history.StandsOn f.cell.value ∧
      (f.history.canUndo = true →
        ((f.step false).state.step true).state.cell.value = f.cell.value) ∧
      (f.history.canRedo = true →
        ((f.step true).state.step false).state.cell.value = f.cell.value) ∧
      ∀ n, (f.setCapacity n).history.StandsOn (f.setCapacity n).cell.value ↔
        f.history.Keeps n f.cell.value := by
  have follows : start.Meets key Member.Follows := by
    obtain ⟨m, hm, hb⟩ := member?_of_body? fresh
    exact ⟨m, hm, _, hb, History.push_follows (Nat.zero_lt_succ 99) initial⟩
  obtain ⟨⟨m, hm, f, hb, hf⟩, _⟩ := reached.follows follows obeys
  exact ⟨f, by rw [body?_of_member? hm, hb], hf.current, fun hu => (Full.undo_redo hf hu).1,
    fun hr => (Full.redo_undo hf hr).1, fun n => hf.setCapacity_iff n⟩

end Happenings

theorem admits_edit {e : Edit α} (h : ∀ n, e ≠ .setCapacity n) (k : Nat) :
    (keepsCapacity key).Admits (.command k (.edit e)) :=
  .command (.of_plain (fun _ n he => h n (Command.edit.inj he)) rfl)

/-- One undo after two commits leaves room for a smaller capacity. -/
theorem cursor_follows_resize :
    ∃ f, (((((solo .full false).serve 1 (.command 0 (.edit (.set 1)))).serve 1
        (.command 0 (.edit (.set 2)))).serve 1 (.command 0 (.edit .undo))).serve 1
        (.command 0 (.edit (.setCapacity 2)))).body? 0 = some (.full f) ∧
      f.history.StandsOn f.cell.value ∧
      (f.history.canUndo = true →
        ((f.step false).state.step true).state.cell.value = f.cell.value) ∧
      (f.history.canRedo = true →
        ((f.step true).state.step false).state.cell.value = f.cell.value) ∧
      ∀ n, (f.setCapacity n).history.StandsOn (f.setCapacity n).cell.value ↔
        f.history.Keeps n f.cell.value :=
  cursor_follows rfl ⟨fun _ hs => (by cases hs), fun _ _ _ => trivial⟩
    (((((Reached.start.request (admits_edit (by simp) 0) 1).request (admits_edit (by simp) 0) 1
      ).request (admits_edit (by simp) 0) 1).resize rfl (.inl (by decide)) 1))

/-- After two undos a smaller capacity drops the entry under the cursor: the cursor goes to a value
that is not the committed one, and redo followed by undo ends there. -/
theorem cursor_lost_on_resize :
    ∃ f, ((((((solo .full false).serve 1 (.command 0 (.edit (.set 1)))).serve 1
        (.command 0 (.edit (.set 2)))).serve 1 (.command 0 (.edit .undo))).serve 1
        (.command 0 (.edit .undo))).serve 1 (.command 0 (.edit (.setCapacity 2)))).body? 0 =
          some (.full f) ∧
      f.cell.value = 0 ∧ f.history.entries = [1, 2] ∧ f.history.current? = some 1 ∧
      f.history.canRedo = true ∧ ((f.step true).state.step false).state.cell.value = 1 :=
  ⟨_, rfl, by decide, by decide, by decide, by decide, by decide⟩

end World

end BoundValues
