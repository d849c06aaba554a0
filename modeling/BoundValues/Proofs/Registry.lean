import BoundValues.Container.Registry
import Mathlib.Data.List.Nodup

namespace BoundValues

/-- Puts an element under its name: in the place of the one with that name, else at the end. -/
def put {β : Type} (name : β → String) (x : β) (xs : List β) : List β :=
  if xs.any fun y => name y == name x then xs.map fun y => if name y == name x then x else y
  else xs ++ [x]

theorem mem_put {β : Type} {name : β → String} {x y : β} {xs : List β} (h : y ∈ put name x xs) :
    y = x ∨ y ∈ xs ∧ name y ≠ name x := by
  unfold put at h
  split at h
  · obtain ⟨z, hz, rfl⟩ := List.mem_map.mp h
    split
    · exact .inl rfl
    · rename_i hn
      exact .inr ⟨hz, by simpa using hn⟩
  · rename_i absent
    rcases List.mem_append.mp h with hy | hy
    · refine .inr ⟨hy, fun same => absent ?_⟩
      exact List.any_eq_true.mpr ⟨y, hy, by simpa using same⟩
    · exact .inl (List.mem_singleton.mp hy)

theorem lookup_cons_if (id other : String) (slot : Nat) (index : List (String × Nat)) :
    ((id, slot) :: index).lookup other = if other = id then some slot else index.lookup other := by
  rw [List.lookup_cons]
  by_cases h : other = id
  · simp [h]
  · rw [if_neg h, show (other == id) = false by simpa using h]

theorem lookup_erase (index : List (String × Nat)) (id other : String) :
    (index.filter fun p => p.1 != id).lookup other =
      if other = id then none else index.lookup other := by
  induction index with
  | nil => simp
  | cons p index ih =>
    obtain ⟨first, slot⟩ := p
    rw [List.filter_cons, lookup_cons_if]
    by_cases erased : first = id
    · rw [if_neg (by simpa using erased), ih]
      split
      · rfl
      · rename_i hn
        rw [if_neg (erased ▸ hn)]
    · rw [if_pos (by simpa using erased), lookup_cons_if, ih]
      by_cases here : other = first
      · rw [if_pos here, if_pos here, if_neg (here ▸ erased)]
      · rw [if_neg here, if_neg here]

theorem length_filterMap_of_isSome {β γ : Type} {f : β → Option γ} {xs : List β}
    (h : ∀ x ∈ xs, (f x).isSome) : (xs.filterMap f).length = xs.length := by
  induction xs with
  | nil => rfl
  | cons x xs ih =>
    obtain ⟨y, hy⟩ := Option.isSome_iff_exists.mp (h x List.mem_cons_self)
    rw [List.filterMap_cons_some hy, List.length_cons, List.length_cons,
      ih fun x' hx => h x' (List.mem_cons_of_mem x hx)]

namespace Registry

/-- Every slot in the order is filled, and no other; no slot is in it twice; and the index has the
slots by the ids of their entries. -/
structure Sound (r : Registry) : Prop where
  order (s : Nat) : s ∈ r.order ↔ (r.slot? s).isSome
  distinct : r.order.Nodup
  index (id : String) (s : Nat) : r.index.lookup id = some s ↔ ∃ e, r.slot? s = some e ∧ e.id = id

theorem sound_empty : Sound {} := by
  refine ⟨?_, List.nodup_nil, ?_⟩ <;> simp [slot?]

section Reading

variable {r : Registry} {id : String} {e : Entry}

theorem lt_of_slot? {s : Nat} (h : r.slot? s = some e) : s < r.slots.length := by
  apply Nat.lt_of_not_le
  intro hle
  simp [slot?, List.getElem?_eq_none hle] at h

theorem Sound.mem_entries (h : r.Sound) : e ∈ r.entries ↔ ∃ s, r.slot? s = some e := by
  unfold entries
  rw [List.mem_filterMap]
  constructor
  · rintro ⟨s, -, hs⟩
    exact ⟨s, hs⟩
  · rintro ⟨s, hs⟩
    exact ⟨s, (h.order s).mpr (by simp [hs]), hs⟩

/-- Looking up by the index finds just the entries. -/
theorem Sound.find?_eq_some (h : r.Sound) :
    r.find? id = some e ↔ e ∈ r.entries ∧ e.id = id := by
  unfold find?
  rw [Option.bind_eq_some_iff, h.mem_entries]
  constructor
  · rintro ⟨s, hs, he⟩
    obtain ⟨e', he', rfl⟩ := (h.index id s).mp hs
    rw [he] at he'
    cases he'
    exact ⟨⟨s, he⟩, rfl⟩
  · rintro ⟨⟨s, he⟩, hid⟩
    exact ⟨s, (h.index id s).mpr ⟨e, he, hid⟩, he⟩

theorem Sound.find?_eq_none (h : r.Sound) :
    r.find? id = none ↔ ∀ e ∈ r.entries, e.id ≠ id := by
  rw [Option.eq_none_iff_forall_ne_some]
  constructor
  · intro none e he hid
    exact none e (h.find?_eq_some.mpr ⟨he, hid⟩)
  · intro absent e found
    obtain ⟨he, hid⟩ := h.find?_eq_some.mp found
    exact absent e he hid

/-- No id is registered twice. -/
theorem Sound.ids_nodup (h : r.Sound) : (r.entries.map Entry.id).Nodup := by
  unfold entries
  rw [List.map_filterMap]
  refine List.Nodup.filterMap ?_ h.distinct
  intro s s' id hs hs'
  obtain ⟨e, he, hid⟩ := Option.map_eq_some_iff.mp hs
  obtain ⟨e', he', hid'⟩ := Option.map_eq_some_iff.mp hs'
  have first := (h.index id s).mpr ⟨e, he, hid⟩
  have second := (h.index id s').mpr ⟨e', he', hid'⟩
  rw [first] at second
  exact Option.some.inj second

/-- The order has one slot for each entry. -/
theorem Sound.size_eq (h : r.Sound) : r.size = r.entries.length :=
  (length_filterMap_of_isSome fun s hs => (h.order s).mp hs).symm

theorem Sound.find?_isSome (h : r.Sound) : (r.find? id).isSome = r.contains id := by
  unfold find? contains
  cases hs : r.index.lookup id with
  | none => rfl
  | some s =>
    obtain ⟨e, he, -⟩ := (h.index id s).mp hs
    simp [he]

end Reading

section Writing

variable {r r' : Registry} {id : String} {e : Entry} {s : Nat}

theorem slot?_set (h : s < r.slots.length) {o : Option Entry} (hs : r'.slots = r.slots.set s o)
    (t : Nat) : r'.slot? t = if t = s then o else r.slot? t := by
  unfold slot?
  rw [hs]
  by_cases ht : t = s
  · subst ht
    simp [h]
  · rw [if_neg ht, List.getElem?_set_ne (Ne.symm ht)]

theorem slot?_append (hs : r'.slots = r.slots ++ [some e]) (t : Nat) :
    r'.slot? t = if t = r.slots.length then some e else r.slot? t := by
  unfold slot?
  rw [hs]
  by_cases ht : t = r.slots.length
  · subst ht
    simp
  · rw [if_neg ht]
    rcases Nat.lt_or_gt_of_ne ht with lt | gt
    · rw [List.getElem?_append_left lt]
    · rw [List.getElem?_eq_none (by simp; omega), List.getElem?_eq_none (by omega)]

/-- The entry of an id is the one in its slot. -/
theorem Sound.here (h : r.Sound) (taken : r.index.lookup id = some s) {t : Nat}
    (ht : r.slot? t = some e) : e.id = id ↔ t = s := by
  constructor
  · intro hid
    have found := (h.index id t).mpr ⟨e, ht, hid⟩
    rw [taken] at found
    exact (Option.some.inj found).symm
  · rintro rfl
    obtain ⟨old, hold, hid⟩ := (h.index id t).mp taken
    rw [ht] at hold
    cases hold
    exact hid

section Taken

variable (h : r.Sound) (taken : r.index.lookup e.id = some s)

include h taken

theorem Sound.slot?_insert_taken (t : Nat) :
    (r.insert e).slot? t = if t = s then some e else r.slot? t := by
  obtain ⟨old, hold, -⟩ := (h.index _ _).mp taken
  exact slot?_set (lt_of_slot? hold) (by simp only [insert, taken]) t

/-- Only the contents of one slot are different. -/
theorem Sound.sound_insert_taken : (r.insert e).Sound := by
  obtain ⟨old, hold, hid⟩ := (h.index _ _).mp taken
  have order : (r.insert e).order = r.order := by simp only [insert, taken]
  have index : (r.insert e).index = r.index := by simp only [insert, taken]
  refine ⟨?_, order ▸ h.distinct, ?_⟩
  · intro t
    rw [order, h.slot?_insert_taken taken, h.order]
    split
    · rename_i ht
      simp [ht, hold]
    · rfl
  · intro id t
    rw [index, h.slot?_insert_taken taken, h.index]
    split
    · rename_i ht
      subst ht
      simp [hold, hid]
    · rfl

/-- An id that is taken keeps its place. -/
theorem Sound.entries_insert_taken : (r.insert e).entries = put Entry.id e r.entries := by
  obtain ⟨old, hold, hid⟩ := (h.index _ _).mp taken
  have order : (r.insert e).order = r.order := by simp only [insert, taken]
  have present : (r.entries.any fun y => y.id == e.id) = true :=
    List.any_eq_true.mpr ⟨old, h.mem_entries.mpr ⟨s, hold⟩, by simpa using hid⟩
  rw [put, if_pos present]
  simp only [entries, order, List.map_filterMap]
  apply List.filterMap_congr
  intro t ht
  obtain ⟨x, hx⟩ := Option.isSome_iff_exists.mp ((h.order t).mp ht)
  have here : x.id = e.id ↔ t = s := h.here taken hx
  rw [h.slot?_insert_taken taken, hx, Option.map_some]
  by_cases hts : t = s
  · rw [if_pos hts, if_pos (by simpa using here.mpr hts)]
  · rw [if_neg hts, if_neg (by simpa using fun hxe => hts (here.mp hxe))]

end Taken

theorem slot?_insert_new (free : r.index.lookup e.id = none) (t : Nat) :
    (r.insert e).slot? t = if t = r.slots.length then some e else r.slot? t :=
  slot?_append (by simp only [insert, free]) t

section New

variable (h : r.Sound) (free : r.index.lookup e.id = none)

include h free

theorem Sound.absent_of_free (x : Entry) (hx : x ∈ r.entries) : x.id ≠ e.id := by
  refine h.find?_eq_none.mp ?_ x hx
  simp [find?, free]

/-- One slot more, at the end of everything. -/
theorem Sound.sound_insert_new : (r.insert e).Sound := by
  have order : (r.insert e).order = r.order ++ [r.slots.length] := by simp only [insert, free]
  have index : (r.insert e).index = (e.id, r.slots.length) :: r.index := by
    simp only [insert, free]
  have fresh : r.slot? r.slots.length = none := by simp [slot?]
  refine ⟨?_, ?_, ?_⟩
  · intro t
    rw [order, slot?_insert_new free, List.mem_append, List.mem_singleton, h.order]
    by_cases ht : t = r.slots.length <;> simp [ht]
  · rw [order]
    exact List.Nodup.append h.distinct (List.nodup_singleton _) (by simp [h.order, fresh])
  · intro id t
    rw [index, slot?_insert_new free, lookup_cons_if]
    by_cases hid : id = e.id <;> by_cases ht : t = r.slots.length
    · simp [hid, ht]
    · rw [if_pos hid, if_neg ht]
      constructor
      · intro hs
        exact absurd (Option.some.inj hs).symm ht
      · rintro ⟨x, hx, hxe⟩
        exact absurd (hxe.trans hid) (h.absent_of_free free x (h.mem_entries.mpr ⟨t, hx⟩))
    · rw [if_neg hid, if_pos ht, h.index, ht, fresh]
      simpa using Ne.symm hid
    · rw [if_neg hid, if_neg ht, h.index]

/-- A new id gets its place at the end. -/
theorem Sound.entries_insert_new : (r.insert e).entries = put Entry.id e r.entries := by
  have order : (r.insert e).order = r.order ++ [r.slots.length] := by simp only [insert, free]
  have absent : ¬(r.entries.any fun y => y.id == e.id) = true := by
    simpa using h.absent_of_free free
  rw [put, if_neg absent]
  simp only [entries, order, List.filterMap_append]
  have last : [r.slots.length].filterMap (r.insert e).slot? = [e] := by
    simp [slot?_insert_new free]
  rw [last]
  refine congrArg (· ++ [e]) (List.filterMap_congr fun t ht => ?_)
  have old : t ≠ r.slots.length := by
    rintro rfl
    simpa [slot?] using (h.order _).mp ht
  rw [slot?_insert_new free, if_neg old]

end New

/-- Inserting is putting an entry into the list, wherever its slot is. -/
theorem Sound.insert (h : r.Sound) (e : Entry) :
    (r.insert e).Sound ∧ (r.insert e).entries = put Entry.id e r.entries := by
  cases hs : r.index.lookup e.id with
  | none => exact ⟨h.sound_insert_new hs, h.entries_insert_new hs⟩
  | some s => exact ⟨h.sound_insert_taken hs, h.entries_insert_taken hs⟩

section Removal

variable (h : r.Sound) (taken : r.index.lookup id = some s)

include h taken

theorem Sound.slot?_remove (t : Nat) :
    (r.remove id).1.slot? t = if t = s then none else r.slot? t := by
  obtain ⟨old, hold, -⟩ := (h.index _ _).mp taken
  exact slot?_set (lt_of_slot? hold) (by simp only [Registry.remove, taken]) t

theorem Sound.sound_remove : (r.remove id).1.Sound := by
  obtain ⟨old, hold, hid⟩ := (h.index _ _).mp taken
  have order : (r.remove id).1.order = r.order.filter fun t => t != s := by
    simp only [Registry.remove, taken]
  have index : (r.remove id).1.index = r.index.filter fun p => p.1 != id := by
    simp only [Registry.remove, taken]
  refine ⟨?_, ?_, ?_⟩
  · intro t
    rw [order, h.slot?_remove taken, List.mem_filter, h.order]
    by_cases ht : t = s <;> simp [ht]
  · rw [order]
    exact h.distinct.filter _
  · intro other t
    rw [index, h.slot?_remove taken, lookup_erase]
    by_cases ho : other = id <;> by_cases ht : t = s
    · simp [ho, ht]
    · rw [if_pos ho, if_neg ht]
      simp only [reduceCtorEq, false_iff, not_exists, not_and]
      intro x hx hxo
      exact ht ((h.here taken hx).mp (hxo.trans ho))
    · rw [if_neg ho, if_pos ht, h.index, ht, hold]
      simpa using fun hoo => ho (hoo.symm.trans hid)
    · rw [if_neg ho, if_neg ht, h.index]

/-- The others keep their places. -/
theorem Sound.entries_remove :
    (r.remove id).1.entries = r.entries.filter fun e => e.id != id := by
  have order : (r.remove id).1.order = r.order.filter fun t => t != s := by
    simp only [Registry.remove, taken]
  simp only [entries, order, List.filter_filterMap, List.filterMap_filter]
  apply List.filterMap_congr
  intro t ht
  obtain ⟨x, hx⟩ := Option.isSome_iff_exists.mp ((h.order t).mp ht)
  rw [h.slot?_remove taken, hx, Option.filter_some]
  by_cases hts : t = s
  · have same := (h.here taken hx).mpr hts
    simp [hts, same]
  · have other : x.id ≠ id := fun hxe => hts ((h.here taken hx).mp hxe)
    simp [hts, other]

end Removal

/-- Removing deletes the entry under the id, and tells whether there was one. -/
theorem Sound.remove (h : r.Sound) (id : String) :
    (r.remove id).1.Sound ∧ (r.remove id).1.entries = r.entries.filter (fun e => e.id != id) ∧
      (r.remove id).2 = r.contains id := by
  cases hs : r.index.lookup id with
  | none =>
    have same : r.remove id = (r, false) := by simp only [Registry.remove, hs]
    have absent : ∀ e ∈ r.entries, e.id ≠ id := h.find?_eq_none.mp (by simp [find?, hs])
    rw [same]
    refine ⟨h, (List.filter_eq_self.mpr fun e he => by simpa using absent e he).symm, ?_⟩
    simp [contains, hs]
  | some s =>
    exact ⟨h.sound_remove hs, h.entries_remove hs, by simp [Registry.remove, contains, hs]⟩

/-- Clearing leaves no entry. -/
theorem sound_clear (r : Registry) : r.clear.Sound ∧ r.clear.entries = [] := by
  have empty (s : Nat) : r.clear.slot? s = none := by
    simp only [slot?, clear, List.getElem?_map]
    cases r.slots[s]? <;> rfl
  refine ⟨⟨?_, List.nodup_nil, ?_⟩, rfl⟩
  · intro s
    rw [empty]
    simp [clear]
  · intro id s
    rw [empty]
    simp [clear]

end Writing

end Registry

end BoundValues
