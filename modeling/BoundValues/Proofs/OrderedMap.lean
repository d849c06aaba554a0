import BoundValues.Container.Action
import BoundValues.Proofs.Moves
import BoundValues.Proofs.Registry

namespace BoundValues

variable {α : Type}

structure Item (α : Type) where
  id : String
  member : Member α
  concrete : Concrete

section Made

variable [BEq α]

def Recipe.made (r : Recipe α) (key : Nat) : Member α :=
  let linked := r.base.body.mapLink fun _ => r.link key
  let body := if r.pulls then (linked.commitPulled r.outside).state else linked
  Setting.configureAll r.settings { r.base with body }

theorem Body.commitPulled_kind (b : Body α) (v : α) : (b.commitPulled v).state.kind = b.kind := by
  have moves : b.Moves (fun _ => False) _ _ := b.commitPulled_moves v
  exact moves.kind

theorem Body.commitPulled_listeners (b : Body α) (v : α) :
    (b.commitPulled v).state.listeners = b.listeners := by
  have moves : b.Moves (fun _ => False) _ _ := b.commitPulled_moves v
  exact moves.faithful.listeners

theorem Recipe.made_concrete (r : Recipe α) (key : Nat) : (r.made key).concrete = r.concrete := by
  unfold Recipe.made
  rw [Setting.configureAll_concrete]
  simp only [Member.concrete, Recipe.concrete, Recipe.base]
  split <;> simp [Body.commitPulled_kind]

end Made

namespace World

variable {w v : World α} {key : Nat} {m : Member α} {outside : α}

theorem member?_drop_self (w : World α) (key : Nat) : (w.drop key).member? key = none := by
  simp only [member?, drop, List.getElem?_set_self']
  cases w.slots[key]? <;> rfl

theorem member?_drop_of_ne {other : Nat} (h : other ≠ key) :
    (w.drop key).member? other = w.member? other := by
  simp only [member?, drop, List.getElem?_set_ne (Ne.symm h)]

structure Newest (w v : World α) (m : Member α) (outside : α) : Prop where
  slots : v.slots = w.slots ++ [some m]
  externals : v.externals = w.externals ++ [outside]

theorem Newest.here (h : w.Newest v m outside) : v.member? w.nextKey = some m := by
  simp [member?, nextKey, h.slots]

theorem Newest.others (h : w.Newest v m outside) (old : key < w.nextKey) :
    v.member? key = w.member? key := by
  simp only [member?, h.slots, List.getElem?_append_left old]

theorem Newest.setMember (h : w.Newest v m outside) (m' : Member α) :
    w.Newest (v.setMember w.nextKey m') m' outside :=
  ⟨by simp [World.setMember, nextKey, h.slots], h.externals⟩

theorem Newest.modify (h : w.Newest v m outside) (g : Member α → Member α) :
    w.Newest (v.modify w.nextKey g) (g m) outside := by
  rw [modify_of_member? h.here]
  exact h.setMember (g m)

/-- A new member gets the next key, and its variable stands at that place. -/
theorem newest_add (w : World α) (label : String) (m : Member α) (outside : α) :
    w.Newest (w.add label m outside) m outside := ⟨rfl, rfl⟩

variable [BEq α] {run : Runner α}

/-- Nobody listens to a member that was just made, so a pull only takes the value over. -/
theorem Newest.pull (h : w.Newest v m outside) (aligned : w.externals.length = w.slots.length)
    (linked : m.body.link.getter = some ⟨w.nextKey, none⟩) (settled : m.body.hasPending = false)
    (unheard : m.body.listeners = {}) :
    w.Newest (v.pull run w.nextKey).1 { m with body := (m.body.commitPulled outside).state }
      outside := by
  have read : v.externals[w.nextKey]? = some outside := by simp [h.externals, nextKey, aligned]
  have recorded : w.Newest (v.record (.read w.nextKey outside)) m outside := ⟨h.slots, h.externals⟩
  have taken := recorded.setMember { m with body := (m.body.commitPulled outside).state }
  have deaf : (m.body.commitPulled outside).state.listeners = {} := by
    rw [Body.commitPulled_listeners, unheard]
  simp only [World.pull, h.here, linked, settled, read, runScript, World.commitPulled,
    recorded.here, mapBody_of_member? recorded.here, Bool.false_eq_true, if_false]
  cases hc : (m.body.commitPulled outside).change with
  | none => exact taken
  | some change =>
    have told : w.Newest ((v.record (.read w.nextKey outside)).setMember w.nextKey
        { m with body := (m.body.commitPulled outside).state } |>.record
          (.committed w.nextKey change)) _ outside := ⟨taken.slots, taken.externals⟩
    simp only [announce, notify, told.here, Option.bind_some, deaf, Change.audience]
    split
    · rename_i listeners heard
      split at heard <;> cases heard
      exact told
    · exact told

theorem pull_unlinked (hm : v.member? key = some m) (unlinked : m.body.link.getter = none) :
    v.pull run key = (v, false) := by
  simp only [World.pull, hm, unlinked]

/-- The pull at the making: the kinds that are not pulled have no link. -/
theorem Newest.made (run : Runner α) (r : Recipe α) {m : Member α} (h : w.Newest v m r.outside)
    (aligned : w.externals.length = w.slots.length)
    (base : m.body = r.base.body.mapLink fun _ => r.link w.nextKey) (pulls : r.pulls = true) :
    w.Newest (v.pull run w.nextKey).1 { m with body := (m.body.commitPulled r.outside).state }
      r.outside := by
  obtain ⟨linked, kind⟩ : r.linked = true ∧ r.kind ≠ .full := by simpa [Recipe.pulls] using pulls
  have getter : (r.link w.nextKey).getter = some ⟨w.nextKey, none⟩ := by simp [Recipe.link, linked]
  cases hk : r.kind <;> simp only [Recipe.base, hk, Body.new, Body.mapLink] at base
  case monitored | captioned =>
    refine h.pull aligned ?_ ?_ ?_ <;> rw [base]
    · exact getter
    · rfl
    · rfl
  case plain | config =>
    rw [pull_unlinked h.here (by rw [base]; rfl)]
    have stays : (m.body.commitPulled r.outside).state = m.body := by
      rw [base]
      rfl
    rw [stays]
    exact h
  case full => exact absurd hk kind

/-- A world with the member of a recipe is the world before with just that member more. -/
theorem create_newest (run : Runner α) (label : String) (r : Recipe α)
    (aligned : w.externals.length = w.slots.length) :
    w.Newest (w.create run label r) (r.made w.nextKey) r.outside := by
  have linked := (newest_add w label r.base r.outside).modify
    fun m => { m with body := m.body.mapLink fun _ => r.link w.nextKey }
  unfold create Recipe.made
  by_cases pulls : r.pulls = true
  · have pulled := linked.made run r aligned rfl pulls
    simp only [if_pos pulls]
    exact pulled.modify _
  · simp only [if_neg pulls]
    exact linked.modify _

end World

section Lists

variable {β γ : Type} {name : β → String} {name' : γ → String} {f f' : β → Option γ} {x : β} {y : γ}
  {xs : List β}

/-- Looking up every element after one was put is putting what is found for it. -/
theorem filterMap_put (found : f' x = some y) (named : name' y = name x)
    (kept : ∀ z ∈ xs, name z ≠ name x → f' z = f z)
    (alive : ∀ z ∈ xs, ∃ v, f z = some v ∧ name' v = name z) :
    (put name x xs).filterMap f' = put name' y (xs.filterMap f) := by
  have same : (xs.filterMap f).any (fun v => name' v == name' y) =
      xs.any fun z => name z == name x := by
    rw [Bool.eq_iff_iff, List.any_eq_true, List.any_eq_true, named]
    constructor
    · rintro ⟨v, hv, hname⟩
      obtain ⟨z, hz, hzv⟩ := List.mem_filterMap.mp hv
      obtain ⟨v', hv', hname'⟩ := alive z hz
      rw [hzv] at hv'
      cases hv'
      exact ⟨z, hz, hname' ▸ hname⟩
    · rintro ⟨z, hz, hname⟩
      obtain ⟨v, hv, hname'⟩ := alive z hz
      exact ⟨v, List.mem_filterMap.mpr ⟨z, hz, hv⟩, hname' ▸ hname⟩
  unfold put
  rw [same]
  split
  · rw [List.filterMap_map, List.map_filterMap]
    apply List.filterMap_congr
    intro z hz
    obtain ⟨v, hv, hname⟩ := alive z hz
    rw [Function.comp_apply, hv, Option.map_some, hname, named]
    by_cases h : name z = name x
    · simp [h, found]
    · simp [h, kept z hz h, hv]
  · rename_i absent
    have others : ∀ z ∈ xs, name z ≠ name x := by simpa using absent
    rw [List.filterMap_append, List.filterMap_cons_some found, List.filterMap_nil]
    refine congrArg (· ++ [y]) (List.filterMap_congr fun z hz => kept z hz (others z hz))

end Lists

def World.item? (w : World α) (e : Entry) : Option (Item α) :=
  (w.member? e.key).map fun m => ⟨e.id, m, e.concrete⟩

namespace Container

def contents (c : Container α) : List (Item α) := c.entries.filterMap c.world.item?

/-- Every entry has a member of its own, of the concrete type that it was added as. -/
structure Sound (c : Container α) : Prop where
  registry : c.registry.Sound
  keys : (c.entries.map Entry.key).Nodup
  members : ∀ e ∈ c.entries, ∃ m, c.world.member? e.key = some m ∧ m.concrete = e.concrete
  aligned : c.world.externals.length = c.world.slots.length

variable {c : Container α} {id : String} {e : Entry} {m : Member α} {x : Item α}

theorem Sound.item? (h : c.Sound) (he : e ∈ c.entries) :
    ∃ m, c.world.member? e.key = some m ∧ m.concrete = e.concrete ∧
      c.world.item? e = some ⟨e.id, m, e.concrete⟩ := by
  obtain ⟨m, hm, typed⟩ := h.members e he
  exact ⟨m, hm, typed, by simp [World.item?, hm]⟩

theorem Sound.key_lt (h : c.Sound) (he : e ∈ c.entries) : e.key < c.world.nextKey := by
  obtain ⟨m, hm, -⟩ := h.members e he
  exact World.lt_of_member? hm

theorem Sound.key_inj (h : c.Sound) {e' : Entry} (he : e ∈ c.entries) (he' : e' ∈ c.entries)
    (same : e.key = e'.key) : e = e' := List.inj_on_of_nodup_map h.keys he he' same

theorem Sound.id_inj (h : c.Sound) {e' : Entry} (he : e ∈ c.entries) (he' : e' ∈ c.entries)
    (same : e.id = e'.id) : e = e' := List.inj_on_of_nodup_map h.registry.ids_nodup he he' same

theorem Sound.of_key? (h : c.Sound) {key : Nat} (hk : c.key? id = some key) :
    ∃ e ∈ c.entries, e.id = id ∧ e.key = key := by
  obtain ⟨e, found, rfl⟩ := Option.map_eq_some_iff.mp hk
  obtain ⟨he, hid⟩ := h.registry.find?_eq_some.mp found
  exact ⟨e, he, hid, rfl⟩

/-- The key under an id is the key of no other entry. -/
theorem Sound.key?_ne (h : c.Sound) (he : e ∈ c.entries) (hid : e.id ≠ id) :
    c.key? id ≠ some e.key := by
  intro hk
  obtain ⟨e', he', hid', same⟩ := h.of_key? hk
  exact hid (h.key_inj he he' same.symm ▸ hid')

theorem Sound.key?_eq_iff (h : c.Sound) (he : e ∈ c.entries) :
    c.key? id = some e.key ↔ e.id = id := by
  constructor
  · intro hk
    by_contra hid
    exact h.key?_ne he hid hk
  · rintro rfl
    exact congrArg (Option.map Entry.key) (h.registry.find?_eq_some.mpr ⟨he, rfl⟩)

theorem Sound.key?_ne_next (h : c.Sound) : c.key? id ≠ some c.world.nextKey := by
  intro hk
  obtain ⟨e, he, -, same⟩ := h.of_key? hk
  exact Nat.ne_of_lt (h.key_lt he) same

theorem sound_empty (o : Options) : ({ options := o } : Container α).Sound where
  registry := Registry.sound_empty
  keys := List.nodup_nil
  members _ he := nomatch he
  aligned := rfl

theorem member?_elim_drop (w : World α) {dropped : Option Nat} {key : Nat}
    (h : dropped ≠ some key) : (dropped.elim w w.drop).member? key = w.member? key := by
  cases dropped with
  | none => rfl
  | some other => exact World.member?_drop_of_ne fun same => h (congrArg some same.symm)

theorem length_elim_drop (w : World α) (dropped : Option Nat) :
    (dropped.elim w w.drop).externals.length = w.externals.length ∧
      (dropped.elim w w.drop).slots.length = w.slots.length := by
  cases dropped with
  | none => exact ⟨rfl, rfl⟩
  | some key => exact ⟨rfl, List.length_set⟩

/-- A new key is the key of no entry. -/
theorem Sound.keys_put (h : c.Sound) {concrete : Concrete} :
    ((put Entry.id ⟨id, c.world.nextKey, concrete⟩ c.entries).map Entry.key).Nodup := by
  have fresh {e : Entry} (he : e ∈ c.entries) : e.key ≠ c.world.nextKey :=
    Nat.ne_of_lt (h.key_lt he)
  unfold put
  split
  · rw [List.map_map]
    refine List.Nodup.map_on ?_ (.of_map _ h.keys)
    intro e he e' he' same
    by_cases hid : e.id = id <;> by_cases hid' : e'.id = id
    · exact h.id_inj he he' (hid.trans hid'.symm)
    · simp [hid, hid'] at same
      exact absurd same.symm (fresh he')
    · simp [hid, hid'] at same
      exact absurd same (fresh he)
    · simp [hid, hid'] at same
      exact h.key_inj he he' same
  · rw [List.map_append]
    refine List.Nodup.append h.keys (List.nodup_singleton _) ?_
    simpa using fun e he => fresh he

theorem length_foldl_drop (es : List Entry) (w : World α) :
    (es.foldl (fun w e => w.drop e.key) w).externals.length = w.externals.length ∧
      (es.foldl (fun w e => w.drop e.key) w).slots.length = w.slots.length := by
  induction es generalizing w with
  | nil => exact ⟨rfl, rfl⟩
  | cons e es ih =>
    obtain ⟨externals, slots⟩ := ih (w.drop e.key)
    exact ⟨externals, slots.trans List.length_set⟩

section Adding

variable [BEq α] (run : World.Runner α) (r : Recipe α)

theorem Sound.add_here (h : c.Sound) :
    (c.add run id r).world.member? c.world.nextKey = some (r.made c.world.nextKey) :=
  (member?_elim_drop _ h.key?_ne_next).trans (World.create_newest run id r h.aligned).here

/-- Adding under one id leaves the members under the others alone. -/
theorem Sound.add_others (h : c.Sound) (he : e ∈ c.entries) (hid : e.id ≠ id) :
    (c.add run id r).world.member? e.key = c.world.member? e.key := by
  exact (member?_elim_drop _ (h.key?_ne he hid)).trans
    ((World.create_newest run id r h.aligned).others (h.key_lt he))

/-- Adding puts the recipe's member under the id: in the place of the member with that id, else at
the end. -/
theorem Sound.add (h : c.Sound) (id : String) :
    (c.add run id r).Sound ∧ (c.add run id r).contents =
      put Item.id ⟨id, r.made c.world.nextKey, r.concrete⟩ c.contents := by
  obtain ⟨registry, put_entries⟩ := h.registry.insert ⟨id, c.world.nextKey, r.concrete⟩
  have entries : (c.add run id r).entries =
    put Entry.id ⟨id, c.world.nextKey, r.concrete⟩ c.entries := put_entries
  have here : (c.add run id r).world.member? _ = _ := h.add_here run r
  have aligned : (c.add run id r).world.externals.length = (c.add run id r).world.slots.length := by
    have newest := World.create_newest run id r h.aligned
    obtain ⟨externals, slots⟩ := length_elim_drop (c.world.create run id r) (c.key? id)
    refine externals.trans (.trans ?_ slots.symm)
    simp [newest.externals, newest.slots, h.aligned]
  refine ⟨⟨registry, ?_, ?_, aligned⟩, ?_⟩
  · rw [entries]
    exact h.keys_put
  · intro e he
    rw [entries] at he
    rcases mem_put he with rfl | ⟨he, hid⟩
    · exact ⟨_, here, r.made_concrete _⟩
    · rw [h.add_others run r he hid]
      exact h.members e he
  · unfold contents
    rw [entries]
    refine filterMap_put ?_ rfl ?_ ?_
    · simp [World.item?, here]
    · intro e he hid
      simp only [World.item?, h.add_others run r he hid]
    · intro e he
      obtain ⟨m, -, -, hx⟩ := h.item? he
      exact ⟨_, hx, rfl⟩

end Adding

/-- Removing deletes the member under the id and leaves the others in their order. -/
theorem Sound.remove (h : c.Sound) (id : String) :
    (c.remove id).1.Sound ∧ (c.remove id).1.contents = c.contents.filter (fun x => x.id != id) := by
  obtain ⟨registry, filtered, -⟩ := h.registry.remove id
  have entries : (c.remove id).1.entries = c.entries.filter fun e => e.id != id := filtered
  have others {e : Entry} (he : e ∈ (c.remove id).1.entries) :
      e ∈ c.entries ∧ (c.remove id).1.world.member? e.key = c.world.member? e.key := by
    rw [entries, List.mem_filter] at he
    obtain ⟨he, hid⟩ := he
    exact ⟨he, member?_elim_drop c.world (h.key?_ne he (by simpa using hid))⟩
  have aligned : (c.remove id).1.world.externals.length = (c.remove id).1.world.slots.length := by
    obtain ⟨externals, slots⟩ := length_elim_drop c.world (c.key? id)
    exact externals.trans (h.aligned.trans slots.symm)
  refine ⟨⟨registry, ?_, ?_, aligned⟩, ?_⟩
  · rw [entries]
    exact h.keys.sublist (List.filter_sublist.map Entry.key)
  · intro e he
    obtain ⟨mem, same⟩ := others he
    rw [same]
    exact h.members e mem
  · have kept : (c.remove id).1.contents =
        (c.entries.filter fun e => e.id != id).filterMap c.world.item? := by
      rw [← entries]
      exact List.filterMap_congr fun e he => by simp only [World.item?, (others he).2]
    rw [kept, contents, List.filter_filterMap, List.filterMap_filter]
    apply List.filterMap_congr
    intro e he
    obtain ⟨m, -, -, hx⟩ := h.item? he
    rw [hx, Option.filter_some]

/-- Clearing empties the container. -/
theorem Sound.clear (h : c.Sound) : c.clear.Sound ∧ c.clear.contents = [] := by
  obtain ⟨registry, none⟩ := c.registry.sound_clear
  have entries : c.clear.entries = [] := none
  refine ⟨⟨registry, ?_, ?_, ?_⟩, ?_⟩
  · rw [entries]
    exact List.nodup_nil
  · intro e he
    rw [entries] at he
    cases he
  · obtain ⟨externals, slots⟩ := length_foldl_drop (c.registry.slots.filterMap id) c.world
    exact externals.trans (h.aligned.trans slots.symm)
  · rw [contents, entries]
    rfl

theorem put_self {β : Type} {name : β → String} {x : β} {xs : List β} (hx : x ∈ xs)
    (only : ∀ y ∈ xs, name y = name x → y = x) : put name x xs = xs := by
  rw [put, if_pos (List.any_eq_true.mpr ⟨x, hx, by simp⟩)]
  refine (List.map_congr_left fun y hy => ?_).trans xs.map_id
  split
  · rename_i same
    exact (only y hy (by simpa using same)).symm
  · rfl

/-- Writing through a changeable access replaces the member and leaves the others. -/
theorem Sound.write (h : c.Sound) {t : Concrete} {write : Member α → Container α}
    (access : c.getMut? id t = some (m, write)) {m' : Member α} (typed : m'.concrete = t) :
    (write m').Sound ∧ (write m').contents = put Item.id ⟨id, m', t⟩ c.contents := by
  obtain ⟨e, found, cast⟩ := Option.bind_eq_some_iff.mp access
  obtain ⟨entry, stored⟩ := Option.filter_eq_some_iff.mp found
  obtain ⟨n, -, hw⟩ := Option.map_eq_some_iff.mp cast
  cases hw
  obtain ⟨he, rfl⟩ := h.registry.find?_eq_some.mp entry
  obtain rfl : e.concrete = t := by simpa using stored
  obtain ⟨old, hold, -, -⟩ := h.item? he
  have here := World.member?_setMember_self hold m'
  have others {e' : Entry} (he' : e' ∈ c.entries) (hid : e'.id ≠ e.id) :
      (c.world.setMember e.key m').member? e'.key = c.world.member? e'.key :=
    World.member?_setMember_of_ne (fun same => hid (congrArg Entry.id (h.key_inj he' he same))) m'
  refine ⟨⟨h.registry, h.keys, ?_, h.aligned.trans List.length_set.symm⟩, ?_⟩
  · intro e' he'
    by_cases hid : e'.id = e.id
    · obtain rfl := h.id_inj he' he hid
      exact ⟨m', here, typed⟩
    · obtain ⟨n', hn', typed'⟩ := h.members e' he'
      exact ⟨n', (others he' hid).trans hn', typed'⟩
  · have kept : put Entry.id e c.entries = c.entries :=
      put_self he fun e' he' same => h.id_inj he' he same
    refine (congrArg _ kept.symm).trans (filterMap_put ?_ rfl ?_ ?_)
    · simp [World.item?, here]
    · intro e' he' hid
      simp only [World.item?, others he' hid]
    · intro e' he'
      obtain ⟨n', -, -, hx⟩ := h.item? he'
      exact ⟨_, hx, rfl⟩

inductive Lookup (c : Container α) (id : String) : Prop
  | free (none : c.registry.find? id = none) (absent : ¬∃ x ∈ c.contents, x.id = id)
  | taken (e : Entry) (m : Member α) (entry : c.registry.find? id = some e)
      (alive : c.world.member? e.key = some m) (typed : m.concrete = e.concrete)
      (item : ∀ p : Item α → Prop, (∃ x ∈ c.contents, x.id = id ∧ p x) ↔ p ⟨id, m, e.concrete⟩)

/-- An id is free or taken once. -/
theorem Sound.lookup (h : c.Sound) (id : String) : c.Lookup id := by
  have entry_of {x : Item α} (hx : x ∈ c.contents) :
      ∃ e ∈ c.entries, e.id = x.id ∧ c.world.item? e = some x := by
    obtain ⟨e, he, hex⟩ := List.mem_filterMap.mp hx
    obtain ⟨m, -, rfl⟩ := Option.map_eq_some_iff.mp hex
    exact ⟨e, he, rfl, hex⟩
  cases hf : c.registry.find? id with
  | none =>
    refine .free hf ?_
    rintro ⟨x, hx, hid⟩
    obtain ⟨e, he, same, -⟩ := entry_of hx
    exact h.registry.find?_eq_none.mp hf e he (same.trans hid)
  | some e =>
    obtain ⟨he, rfl⟩ := h.registry.find?_eq_some.mp hf
    obtain ⟨m, hm, typed, hx⟩ := h.item? he
    refine .taken e m hf hm typed fun p => ⟨?_, fun hp => ?_⟩
    · rintro ⟨x, hx', hid, hp⟩
      obtain ⟨e', he', same, hex⟩ := entry_of hx'
      obtain rfl := h.id_inj he he' (same.trans hid).symm
      rw [hx] at hex
      cases hex
      exact hp
    · exact ⟨_, List.mem_filterMap.mpr ⟨e, he, hx⟩, rfl, hp⟩

/-- A container stands for a list without repetition: its slots, order and index hold the list, and
whatever is read from it is read from the list. -/
structure Represents (c : Container α) (xs : List (Item α)) : Prop where
  registry : c.registry.Sound
  order : c.registry.order.map (fun s => (c.registry.slot? s).bind c.world.item?) = xs.map some
  distinct : (xs.map Item.id).Nodup
  typed : ∀ x ∈ xs, x.member.concrete = x.concrete
  ids : c.ids = xs.map Item.id
  size : c.size = xs.length
  contains (id : String) : c.contains id = true ↔ ∃ x ∈ xs, x.id = id
  member (id : String) (m : Member α) : c.member? id = some m ↔ ∃ x ∈ xs, x.id = id ∧ x.member = m
  concrete (id : String) (t : Concrete) :
    c.concrete? id = some t ↔ ∃ x ∈ xs, x.id = id ∧ x.concrete = t
  get (id : String) (t : Concrete) (m : Member α) :
    c.get? id t = some m ↔ ∃ x ∈ xs, x.id = id ∧ x.concrete = t ∧ x.member = m
  getMut (id : String) (t : Concrete) : (c.getMut? id t).map Prod.fst = c.get? id t
  tryGet (id : String) (t : Concrete) (m : Member α) :
    c.tryGet id t = .ok m ↔ ∃ x ∈ xs, x.id = id ∧ x.concrete = t ∧ x.member = m
  tryGet_missing (id other : String) (t : Concrete) :
    c.tryGet id t = .error (.notFound other) ↔ other = id ∧ ¬∃ x ∈ xs, x.id = id
  tryGet_mismatch (id other expected actual : String) (t : Concrete) :
    c.tryGet id t = .error (.typeMismatch other expected actual) ↔ other = id ∧ expected = t.name ∧
      ∃ x ∈ xs, x.id = id ∧ x.concrete ≠ t ∧ actual = x.concrete.name
  query_missing (id other : String) (k : Capability) :
    c.query id k = .error (.notFound other) ↔ other = id ∧ ¬∃ x ∈ xs, x.id = id
  removes (id : String) : (c.remove id).2 = true ↔ ∃ x ∈ xs, x.id = id

theorem Sound.ids_contents (h : c.Sound) : c.contents.map Item.id = c.ids := by
  rw [contents, List.map_filterMap, ids, ← List.filterMap_eq_map]
  apply List.filterMap_congr
  intro e he
  obtain ⟨m, -, -, hx⟩ := h.item? he
  rw [hx]
  rfl

theorem Sound.typed (h : c.Sound) (hx : x ∈ c.contents) : x.member.concrete = x.concrete := by
  obtain ⟨e, he, hex⟩ := List.mem_filterMap.mp hx
  obtain ⟨m, -, typed, hm⟩ := h.item? he
  rw [hm] at hex
  cases hex
  exact typed

theorem Sound.order_contents (h : c.Sound) :
    c.registry.order.map (fun s => (c.registry.slot? s).bind c.world.item?) =
      c.contents.map some := by
  have filled {s : Nat} (hs : s ∈ c.registry.order) :
      ∃ x, (c.registry.slot? s).bind c.world.item? = some x := by
    obtain ⟨e, he⟩ := Option.isSome_iff_exists.mp ((h.registry.order s).mp hs)
    obtain ⟨m, -, -, hx⟩ := h.item? (h.registry.mem_entries.mpr ⟨s, he⟩)
    exact ⟨_, by rw [he, Option.bind_some, hx]⟩
  unfold contents Container.entries Registry.entries
  rw [List.filterMap_filterMap, List.map_filterMap, ← List.filterMap_eq_map]
  apply List.filterMap_congr
  intro s hs
  obtain ⟨x, hx⟩ := filled hs
  simp [hx]

section Readers

variable {t : Concrete}

theorem Sound.contains_iff (h : c.Sound) (id : String) :
    c.contains id = true ↔ ∃ x ∈ c.contents, x.id = id := by
  unfold Container.contains
  rw [← h.registry.find?_isSome]
  rcases h.lookup id with ⟨none, absent⟩ | ⟨e, m, entry, -, -, item⟩
  · simpa [none] using absent
  · simpa [entry] using (item fun _ => True).mpr trivial

theorem Lookup.member?_eq_some (h : c.Lookup id) :
    c.member? id = some m ↔ ∃ x ∈ c.contents, x.id = id ∧ x.member = m := by
  rcases h with ⟨none, absent⟩ | ⟨e, n, entry, alive, -, item⟩
  · simp only [Container.member?, key?, none, Option.map_none, Option.bind_none, reduceCtorEq,
      false_iff]
    exact fun ⟨x, hx, hid, _⟩ => absent ⟨x, hx, hid⟩
  · rw [item]
    simp [Container.member?, key?, entry, alive]

theorem Lookup.concrete?_eq_some (h : c.Lookup id) :
    c.concrete? id = some t ↔ ∃ x ∈ c.contents, x.id = id ∧ x.concrete = t := by
  rcases h with ⟨none, absent⟩ | ⟨e, m, entry, -, -, item⟩
  · simp only [concrete?, none, Option.map_none, reduceCtorEq, false_iff]
    exact fun ⟨x, hx, hid, _⟩ => absent ⟨x, hx, hid⟩
  · rw [item]
    simp [concrete?, entry]

/-- The type that was stored and the member's own are the same, so asking both is asking one. -/
theorem cast?_of_typed (alive : c.world.member? e.key = some m) (typed : m.concrete = e.concrete)
    (t : Concrete) : c.cast? e t = if e.concrete = t then some m else none := by
  simp only [cast?, alive, Option.filter_some, typed, beq_iff_eq]

/-- A member is got by its id and its very type. -/
theorem Lookup.get?_eq_some (h : c.Lookup id) :
    c.get? id t = some m ↔ ∃ x ∈ c.contents, x.id = id ∧ x.concrete = t ∧ x.member = m := by
  rcases h with ⟨none, absent⟩ | ⟨e, n, entry, alive, typed, item⟩
  · simp only [Container.get?, none, Option.filter_none, Option.bind_none, reduceCtorEq, false_iff]
    exact fun ⟨x, hx, hid, _⟩ => absent ⟨x, hx, hid⟩
  · rw [item]
    simp only [Container.get?, entry, Option.filter_some, beq_iff_eq]
    by_cases ht : e.concrete = t <;> simp [ht, cast?_of_typed alive typed]

theorem Lookup.tryGet_eq_ok (h : c.Lookup id) :
    c.tryGet id t = .ok m ↔ ∃ x ∈ c.contents, x.id = id ∧ x.concrete = t ∧ x.member = m := by
  rcases h with ⟨none, absent⟩ | ⟨e, n, entry, alive, typed, item⟩
  · simp only [Container.tryGet, none, reduceCtorEq, false_iff]
    exact fun ⟨x, hx, hid, _⟩ => absent ⟨x, hx, hid⟩
  · rw [item]
    by_cases ht : e.concrete = t <;> simp [Container.tryGet, entry, cast?_of_typed alive typed, ht]

/-- An id that is not found is told as it was asked for. -/
theorem Lookup.tryGet_eq_notFound (h : c.Lookup id) {other : String} :
    c.tryGet id t = .error (.notFound other) ↔ other = id ∧ ¬∃ x ∈ c.contents, x.id = id := by
  rcases h with ⟨none, absent⟩ | ⟨e, n, entry, alive, typed, item⟩
  · simp only [Container.tryGet, none, Except.error.injEq, BindingError.notFound.injEq]
    exact ⟨fun same => ⟨same.symm, absent⟩, fun same => same.1.symm⟩
  · have present : ∃ x ∈ c.contents, x.id = id := by simpa using (item fun _ => True).mpr trivial
    by_cases ht : e.concrete = t <;>
      simp [Container.tryGet, entry, cast?_of_typed alive typed, ht, present]

/-- A type that does not fit is told with the type that is there. -/
theorem Lookup.tryGet_eq_mismatch (h : c.Lookup id) {other expected actual : String} :
    c.tryGet id t = .error (.typeMismatch other expected actual) ↔ other = id ∧ expected = t.name ∧
      ∃ x ∈ c.contents, x.id = id ∧ x.concrete ≠ t ∧ actual = x.concrete.name := by
  rcases h with ⟨none, absent⟩ | ⟨e, n, entry, alive, typed, item⟩
  · simp only [Container.tryGet, none, Except.error.injEq, reduceCtorEq, false_iff]
    exact fun ⟨_, _, x, hx, hid, _⟩ => absent ⟨x, hx, hid⟩
  · rw [item]
    by_cases ht : e.concrete = t
    · simp [Container.tryGet, entry, cast?_of_typed alive typed, ht]
    · simp [Container.tryGet, entry, cast?_of_typed alive typed, ht, eq_comm]

theorem Lookup.query_eq_notFound (h : c.Lookup id) {other : String} {k : Capability} :
    c.query id k = .error (.notFound other) ↔ other = id ∧ ¬∃ x ∈ c.contents, x.id = id := by
  rcases h with ⟨none, absent⟩ | ⟨e, n, entry, alive, -, item⟩
  · simp only [Container.query, Container.member?, key?, none, Option.map_none, Option.bind_none,
      Except.error.injEq, BindingError.notFound.injEq]
    exact ⟨fun same => ⟨same.symm, absent⟩, fun same => same.1.symm⟩
  · have present : ∃ x ∈ c.contents, x.id = id := by simpa using (item fun _ => True).mpr trivial
    simp only [Container.query, Container.member?, key?, entry, alive, Option.map_some,
      Option.bind_some]
    split <;> simp [present]

end Readers

/-- In a sound container every reader tells what the list of its items tells. -/
theorem Sound.represents (h : c.Sound) : c.Represents c.contents where
  registry := h.registry
  order := h.order_contents
  distinct := by
    rw [h.ids_contents]
    exact h.registry.ids_nodup
  typed _ hx := h.typed hx
  ids := h.ids_contents.symm
  size := by
    rw [← List.length_map Item.id, h.ids_contents, ids, List.length_map]
    exact h.registry.size_eq
  contains := h.contains_iff
  member id _ := (h.lookup id).member?_eq_some
  concrete id _ := (h.lookup id).concrete?_eq_some
  get id _ _ := (h.lookup id).get?_eq_some
  getMut id t := by
    simp only [Container.getMut?, Container.get?, Option.map_bind, Function.comp_def,
      Option.map_map, Option.map_id']
  tryGet id _ _ := (h.lookup id).tryGet_eq_ok
  tryGet_missing id _ _ := (h.lookup id).tryGet_eq_notFound
  tryGet_mismatch id _ _ _ _ := (h.lookup id).tryGet_eq_mismatch
  query_missing id _ _ := (h.lookup id).query_eq_notFound
  removes id := by
    rw [← h.contains_iff]
    exact Bool.eq_iff_iff.mp (h.registry.remove id).2.2

end Container

inductive Upkeep (α : Type)
  | add (id : String) (r : Recipe α)
  | remove (id : String)
  | clear

def Upkeep.action : Upkeep α → Action α
  | add id r => .add id r
  | remove id => .remove id
  | clear => .clear

/-- The list that a container stands for, with the number of members that were ever made. -/
structure Ledger (α : Type) where
  items : List (Item α) := []
  made : Nat := 0

variable [BEq α]

def Ledger.keep (l : Ledger α) : Upkeep α → Ledger α
  | .add id r => ⟨put Item.id ⟨id, r.made l.made, r.concrete⟩ l.items, l.made + 1⟩
  | .remove id => { l with items := l.items.filter fun x => x.id != id }
  | .clear => { l with items := [] }

namespace Container

def maintain (run : World.Runner α) (us : List (Upkeep α)) (c : Container α) : Container α :=
  us.foldl (fun c u => (c.perform run u.action).1) c

structure Booked (c : Container α) (l : Ledger α) : Prop where
  sound : c.Sound
  items : c.contents = l.items
  made : c.world.nextKey = l.made

variable {c : Container α} {l : Ledger α} (run : World.Runner α)

/-- Container and ledger number their members alike. -/
theorem Booked.add (h : c.Booked l) (id : String) (r : Recipe α) :
    (c.add run id r).Booked (l.keep (.add id r)) := by
  obtain ⟨sound, contents⟩ := h.sound.add run r id
  have newest := World.create_newest run id r h.sound.aligned
  have length := (length_elim_drop (c.world.create run id r) (c.key? id)).2
  refine ⟨sound, ?_, ?_⟩
  · rw [contents, h.items, h.made]
    rfl
  · refine length.trans ?_
    rw [newest.slots, List.length_append]
    exact congrArg (· + 1) h.made

theorem Booked.remove (h : c.Booked l) (id : String) :
    (c.remove id).1.Booked (l.keep (.remove id)) := by
  obtain ⟨sound, contents⟩ := h.sound.remove id
  have length := (length_elim_drop c.world (c.key? id)).2
  exact ⟨sound, by rw [contents, h.items]; rfl, length.trans h.made⟩

theorem Booked.clear (h : c.Booked l) : c.clear.Booked (l.keep .clear) := by
  obtain ⟨sound, contents⟩ := h.sound.clear
  refine ⟨sound, contents, ?_⟩
  exact (length_foldl_drop _ c.world).2.trans h.made

/-- Induction on what was done. -/
theorem Booked.maintain (h : c.Booked l) (us : List (Upkeep α)) :
    (c.maintain run us).Booked (us.foldl Ledger.keep l) := by
  induction us generalizing c l with
  | nil => exact h
  | cons u us ih =>
    cases u with
    | add id r => exact ih (h.add run id r)
    | remove id => exact ih (h.remove id)
    | clear => exact ih h.clear

/-- Whatever was added, removed and cleared since a container was empty, the container stands for the
list to which the same was done. -/
theorem refines_ordered_map (o : Options) (us : List (Upkeep α)) :
    (({ options := o } : Container α).maintain run us).Represents
      (us.foldl Ledger.keep {}).items := by
  have start : ({ options := o } : Container α).Booked {} := ⟨sound_empty o, rfl, rfl⟩
  have booked := start.maintain run us
  rw [← booked.items]
  exact booked.sound.represents

end Container

end BoundValues
