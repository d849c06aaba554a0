import BoundValues.Proofs.Admission
import BoundValues.Proofs.Cutting

namespace BoundValues

open Text

namespace Datum

theorem equalAll_ints (us vs : List Int) : equalAll (us.map .int) (vs.map .int) = (us == vs) := by
  induction us generalizing vs with
  | nil => cases vs <;> rfl
  | cons u us ih =>
    cases vs with
    | nil => rfl
    | cons v vs => simp only [List.map_cons, equalAll, equal, ih, List.cons_beq_cons]

def ints (vs : List Int) : Datum := .array (vs.map .int)

theorem ints_inj {us vs : List Int} (same : ints us = ints vs) : us = vs :=
  List.map_injective_iff.mpr (fun _ _ => Datum.int.inj) (Datum.array.inj same)

theorem ints_beq (us vs : List Int) : (ints us == ints vs) = (us == vs) := by
  rw [← equalAll_ints]
  show equal _ _ = _
  rw [ints, ints, equal]

end Datum

section Members

variable {α : Type} [BEq α] {m : Member α}

structure Step.Loads (s : Step (Body α) α (Reply α)) (m : Member α) (text : String) : Prop where
  unread : m.type.read text = none → s = { state := m.body, reply := .flag false }
  taken : ∀ y, m.type.read text = some y → ∃ b, (Entrance.setText text).Takes m.body y b ∧
    s = { state := b, reply := .flag true, change := (Entrance.setText text).told m.body y }

theorem Edit.load_guarded (kind : m.body.kind ∈ [.config, .full]) (text : String) :
    ∃ s, (Edit.load text).step m.type m.body = some s ∧
      (Entrance.load text).Guarded m.type m.body s := by
  cases hb : m.body with
  | config c => exact ⟨_, rfl, Entrance.config_load_guarded c text⟩
  | full f => exact ⟨_, rfl, Entrance.full_load_guarded f text⟩
  | plain p | monitored m | captioned m caption =>
    rw [hb] at kind
    exact absurd kind (by simp [Body.kind])

/-- Without a validator, what was read is accepted as it is. -/
theorem Call.setValueText_loads (kind : m.body.kind ∈ [.config, .full])
    (free : m.body.validation.validator = none) (text : String) :
    ((Call.setValueText text).step m).Loads m text := by
  obtain ⟨s, step, guarded⟩ := Edit.load_guarded kind text
  have call : (Call.setValueText text).step m = s.map id Call.succeeded := by
    simp only [Call.step, Call.edit, step]
  rw [call]
  have guarded := guarded.setText
  refine ⟨guarded.unreadable, fun y read => ?_⟩
  have accepts : m.body.validation.run y = .ok y := by rw [Validation.run, free]
  have unchecked : m.body.validation.checked y = none := by rw [Validation.checked, free, Option.map_none]
  obtain ⟨b, taken, comes⟩ := guarded.accepted y y read accepts
  exact ⟨b, taken, unchecked ▸ comes⟩

/-- Nobody is told of a text that is read as the value itself. -/
theorem Entrance.told_setText_of_same {b : Body α} {y : α} (same : (b.value == y) = true)
    (text : String) : (setText text).told b y = none := by
  simp [told, stores, same]

theorem Entrance.stores_setText_of_differs {b : Body α} {y : α} (differs : (b.value == y) = false)
    (text : String) : (setText text).stores b y = true := by
  simp [stores, differs]

end Members

open Listing (cutsLastNumber)

variable {t : IntegerType} {vs : List Int}

abbrev IntegerType.listing (t : IntegerType) (vs : List Int) : ValueType Datum :=
  (DataType.array (.integer t) vs.length).bindable

/-- An array is written as the listing of its numerals. -/
theorem IntegerType.render_ints (t : IntegerType) (vs : List Int) :
    (t.listing vs).render none (.ints vs) = String.ofList (Listing.render (vs.map intText)) := by
  have each : (DataType.integer t).render none ∘ Datum.int = intText := funext fun _ => rfl
  simp only [DataType.bindable, DataType.render, Datum.ints, Option.map_none, List.map_map, each]

/-- What comes of numbers that are read from their own text. -/
theorem IntegerType.read_own_text (held : ∀ v ∈ vs, t.Holds v) :
    let read := (t.listing vs).read ((t.listing vs).render none (.ints vs))
    (cutsLastNumber vs = false → read = some (.ints vs) ∨ read = none) ∧
      (cutsLastNumber vs = true → ∃ others ≠ vs, read = some (.ints others)) := by
  intro read
  have reads : read = (DataType.array (.integer t) vs.length).read (Listing.render (vs.map intText)) := by
    rw [show read = (t.listing vs).read _ from rfl, t.render_ints]
    simp only [DataType.bindable, String.toList_ofList]
  rw [reads]
  exact Listing.read_render_cases held

/-- A member that holds numbers and takes any text that can be read. -/
structure Member.Lists (m : Member Datum) (t : IntegerType) (vs : List Int) : Prop where
  type : m.type = t.listing vs
  value : m.body.value = .ints vs
  kind : m.body.kind ∈ [.config, .full]
  free : m.body.validation.validator = none

namespace Member.Lists

variable {m : Member Datum} (lists : m.Lists t vs)

include lists

theorem read_valueText :
    m.type.read m.valueText = (t.listing vs).read ((t.listing vs).render none (.ints vs)) := by
  rw [Member.valueText, lists.type, lists.value]

theorem loads (text : String) : ((Call.setValueText text).step m).Loads m text :=
  Call.setValueText_loads lists.kind lists.free text

theorem exec_setValueText {w : World Datum} {key : Nat} (hm : w.member? key = some m)
    (run : World.Runner Datum) (text : String) :
    w.exec run key (.call (.setValueText text)) = w.settle run key ((Call.setValueText text).step m) := by
  have answers : m.interface.answers .string = true := by
    rw [Member.interface, Interface.answers_plain]
    exact (by decide : ∀ k ∈ [Kind.config, .full], k.capabilities.declares .string = true) _ lists.kind
  have inward : Capability.string ≠ .external := by decide
  exact World.exec_call_of_answers (c := .setValueText text) hm answers inward

variable (held : ∀ v ∈ vs, t.Holds v)

include held

/-- Where the text does not cut the last number, nothing changes and nobody is told. -/
theorem reload_keeps (uncut : cutsLastNumber vs = false) :
    let reload := (Call.setValueText m.valueText).step m
    reload.state.value = .ints vs ∧ reload.change = none ∧ reload.checked = none := by
  intro reload
  have loads := lists.loads m.valueText
  rcases (IntegerType.read_own_text held).1 uncut with same | refused
  · obtain ⟨b, taken, comes⟩ := loads.taken _ (lists.read_valueText.trans same)
    have equal : (m.body.value == .ints vs) = true := by
      rw [lists.value, Datum.ints_beq, beq_self_eq_true]
    have stays : b.value = .ints vs := by rw [taken.value, lists.value, ite_self]
    rw [show reload = _ from comes, Entrance.told_setText_of_same equal]
    exact ⟨stays, rfl, rfl⟩
  · rw [show reload = _ from loads.unread (lists.read_valueText.trans refused)]
    exact ⟨lists.value, rfl, rfl⟩

/-- Where the text cuts the last number, another array is committed. -/
theorem reload_alters (cuts : cutsLastNumber vs = true) :
    let reload := (Call.setValueText m.valueText).step m
    reload.reply = .flag true ∧ reload.state.value ≠ .ints vs := by
  intro reload
  obtain ⟨others, differs, altered⟩ := (IntegerType.read_own_text held).2 cuts
  obtain ⟨b, taken, comes⟩ :=
    (lists.loads m.valueText).taken _ (lists.read_valueText.trans altered)
  have other : (m.body.value == .ints others) = false := by
    rw [lists.value, Datum.ints_beq, beq_eq_false_iff_ne]
    exact differs.symm
  have stored : b.value = .ints others := by
    rw [taken.value, if_pos (Entrance.stores_setText_of_differs other m.valueText)]
  rw [show reload = _ from comes]
  exact ⟨rfl, fun kept => differs (Datum.ints_inj (stored.symm.trans kept))⟩

end Member.Lists

namespace IntegerType

/-- **Reloading a listing.** A listing of numbers is read from its own text as it was, or refused,
exactly when the end of the text does not cut the last number. So a value without a validator that is
loaded from its own text, and says so, is as before exactly then; nobody hears of it. -/
theorem reload_keeps_iff_uncut (held : ∀ v ∈ vs, t.Holds v) :
    let read := (t.listing vs).read ((t.listing vs).render none (.ints vs))
    ((read = some (.ints vs) ∨ read = none) ↔ cutsLastNumber vs = false) ∧
    ∀ {w : World Datum} {key : Nat} {m : Member Datum}, w.member? key = some m → m.Lists t vs → ∀ run,
      let reload := (Call.setValueText m.valueText).step m
      w.exec run key (.call (.setValueText m.valueText)) = w.settle run key reload ∧
      ((reload.reply = .flag true → reload.state.value = .ints vs) ↔ cutsLastNumber vs = false) ∧
      (cutsLastNumber vs = false → (w.settle run key reload).1.value? key = some (.ints vs) ∧
        (w.settle run key reload).1.log = w.log) := by
  intro read
  obtain ⟨uncut, cut⟩ := read_own_text held
  refine ⟨⟨fun kept => ?_, uncut⟩, fun {w key m} hm lists run => ?_⟩
  · refine Bool.eq_false_iff.mpr fun cuts => ?_
    obtain ⟨others, differs, altered⟩ := cut cuts
    rcases kept with kept | kept
    · exact differs (Datum.ints_inj (Option.some.inj (altered.symm.trans kept)))
    · exact absurd (altered.symm.trans kept) nofun
  · intro reload
    refine ⟨lists.exec_setValueText hm run _, ⟨fun kept => ?_, fun uncut _ => ?_⟩, fun uncut => ?_⟩
    · refine Bool.eq_false_iff.mpr fun cuts => ?_
      obtain ⟨done, altered⟩ := lists.reload_alters held cuts
      exact altered (kept done)
    · exact (lists.reload_keeps held uncut).1
    · obtain ⟨stays, quiet, checked⟩ := lists.reload_keeps held uncut
      rw [World.settle_of_untold hm quiet, checked]
      exact ⟨(World.value?_exchange hm _ _).trans (congrArg some stays), List.append_nil _⟩

def listed (t : IntegerType) (vs : List Int) : Recipe Datum where
  kind := .config
  type := t.listing vs
  initial := .ints vs
  outside := .ints vs

def listedWorld (t : IntegerType) (vs : List Int) : World Datum :=
  ({} : World Datum).create (fun _ w => w) "numbers" (listed t vs)

/-- A text that is not cut at all. -/
theorem three_numbers_reloaded :
    let m := (listed .i8 [1, -2, 3]).base
    let w := listedWorld .i8 [1, -2, 3]
    w.member? 0 = some m ∧ m.valueText = "(1, -2, 3)" ∧ cutsLastNumber [1, -2, 3] = false ∧
      (w.exec (fun _ w => w) 0 (.call (.setValueText m.valueText))).2 = .flag true ∧
      (w.exec (fun _ w => w) 0 (.call (.setValueText m.valueText))).1.value? 0 =
        some (.ints [1, -2, 3]) := by
  have held : ∀ v ∈ ([1, -2, 3] : List Int), IntegerType.i8.Holds v := by
    simp [Holds, least, greatest, signed, size, bits]
  have uncut : cutsLastNumber [1, -2, 3] = false := by decide
  have member : (listedWorld .i8 [1, -2, 3]).member? 0 = some (listed .i8 [1, -2, 3]).base := rfl
  have lists : (listed .i8 [1, -2, 3]).base.Lists .i8 [1, -2, 3] := ⟨rfl, rfl, List.mem_cons_self, rfl⟩
  obtain ⟨settles, -, stays⟩ := (reload_keeps_iff_uncut held).2 member lists (fun _ w => w)
  refine ⟨rfl, by rfl, uncut, by rfl, ?_⟩
  rw [settles]
  exact (stays uncut).1

def sixLeast : List Int := List.replicate 6 (-9223372036854775808)

/-- The text keeps the first fifteen digits of the last number. -/
theorem sixLeast_kept : (Listing.written sixLeast).take capacity =
    '(' :: [',', ' '].intercalate
      ((List.replicate 5 (-9223372036854775808) ++ [-922337203685477]).map intText) ++ [] := by
  decide +kernel

/-- A value that holds them is loaded from its own text and holds another number at the end. -/
theorem six_least_numbers_altered :
    let altered : List Int := List.replicate 5 (-9223372036854775808) ++ [-922337203685477]
    let m := (listed .i64 sixLeast).base
    let reloaded := (listedWorld .i64 sixLeast).exec (fun _ w => w) 0 (.call (.setValueText m.valueText))
    (∀ v ∈ sixLeast, IntegerType.i64.Holds v) ∧ m.type = (DataType.array (.integer .i64) 6).bindable ∧
    m.body.value = .array (sixLeast.map .int) ∧
    m.type.read (m.type.render none m.body.value) = some (.array (altered.map .int)) ∧
    (listedWorld .i64 sixLeast).member? 0 = some m ∧
    reloaded.2 = .flag true ∧ reloaded.1.value? 0 = some (.array (altered.map .int)) := by
  intro altered m reloaded
  have held : ∀ v ∈ sixLeast, IntegerType.i64.Holds v := by
    intro v hv
    rw [List.eq_of_mem_replicate hv]
    exact ⟨by decide, by decide⟩
  have alteredHeld : ∀ v ∈ altered, IntegerType.i64.Holds v := by
    intro v hv
    simp only [altered, List.mem_append, List.mem_replicate, List.mem_singleton] at hv
    rcases hv with ⟨-, rfl⟩ | rfl
    · exact ⟨by decide, by decide⟩
    · exact ⟨by decide, by decide⟩
  have read : m.type.read (m.type.render none m.body.value) = some (.ints altered) := by
    rw [show m.type = IntegerType.i64.listing sixLeast from rfl,
      show m.body.value = .ints sixLeast from rfl, IntegerType.render_ints]
    simp only [DataType.bindable, String.toList_ofList]
    exact Listing.read_render_of_kept sixLeast_kept (by simp) (by simp [altered]) alteredHeld rfl
  have lists : m.Lists .i64 sixLeast := ⟨rfl, rfl, List.mem_cons_self, rfl⟩
  have here : (listedWorld .i64 sixLeast).member? 0 = some m := rfl
  obtain ⟨b, taken, comes⟩ := (lists.loads m.valueText).taken _ read
  have differs : (m.body.value == Datum.ints altered) = false := by
    rw [lists.value, Datum.ints_beq]
    decide
  have told : (Entrance.setText m.valueText).told m.body (Datum.ints altered) = none := rfl
  have comes : reloaded = ((listedWorld .i64 sixLeast).exchange 0 m b [], .flag true) := by
    rw [show reloaded = _ from lists.exec_setValueText here (fun _ w => w) m.valueText, comes, told]
    exact World.settle_of_untold here rfl
  have value : b.value = .ints altered := by
    rw [taken.value, if_pos (Entrance.stores_setText_of_differs differs m.valueText)]
  refine ⟨held, rfl, rfl, read, here, by rw [comes], ?_⟩
  rw [comes, World.value?_exchange here, value]
  rfl

end IntegerType

end BoundValues
