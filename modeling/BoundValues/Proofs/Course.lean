import BoundValues.Proofs.Moves
import BoundValues.World.Handle

namespace BoundValues

variable {α : Type}

def Command.acts : Command α → List (Act α)
  | .listen _ _ acts | .bindGetter acts | .bindSetter acts => acts
  | _ => []

def Act.acts : Act α → List (Act α)
  | .command _ c => c.acts
  | .poke _ => []

inductive Act.Always (p : Act α → Prop) : Act α → Prop
  | intro {a : Act α} (here : p a) (within : ∀ b ∈ a.acts, Always p b) : Always p a

theorem Act.Always.of_plain {p : Act α → Prop} {a : Act α} (h : p a) (plain : a.acts = []) :
    a.Always p := by
  refine .intro h fun b hb => ?_
  rw [plain] at hb
  cases hb

/-- Rules: what may be asked of each member, through which handles may be written and whom a handle
may stand for, and what the scripts of each member may do. -/
structure Rules (α : Type) where
  command : Nat → Command α → Prop
  poke : String → Prop := fun _ => True
  handle : String → Nat → Prop := fun _ _ => True
  act : Nat → Act α → Prop
  act_command {key times : Nat} {c : Command α} : act key (.command times c) → command key c
  act_poke {key : Nat} {p : Poke α} : act key (.poke p) → poke p.handle
  taken {key : Nat} {name : String} : command key (.takeHandle name) → handle name key
  /-- Widgets write through any handle. -/
  drawn {key : Nat} {label : String} : command key (.draw label) → ∀ name, poke name

namespace Rules

def commands (p : Nat → Command α → Prop) : Rules α where
  command := p
  act key
    | .command _ c => p key c
    | .poke _ => True
  act_command := id
  act_poke _ := trivial
  taken _ := trivial
  drawn _ _ := trivial

structure Allows (r : Rules α) (key : Nat) (c : Command α) : Prop where
  command : r.command key c
  acts : ∀ a ∈ c.acts, a.Always (r.act key)

theorem Allows.of_plain {r : Rules α} {key : Nat} {c : Command α} (h : r.command key c)
    (plain : c.acts = []) : r.Allows key c := by
  refine ⟨h, fun a ha => ?_⟩
  rw [plain] at ha
  cases ha

def Pokes (r : Rules α) (key : Nat) : Prop := ∃ name, r.poke name ∧ r.handle name key

def Pulls (r : Rules α) (key : Nat) : Prop :=
  r.command key .refresh ∨ r.command key (.call .pull) ∨ r.command key .pullThroughHandle

end Rules

inductive Request (α : Type)
  | command (key : Nat) (c : Command α)
  | handle (name : String) (r : HandleRequest α)

inductive Rules.Admits (r : Rules α) : Request α → Prop
  | command {key : Nat} {c : Command α} (h : r.Allows key c) : Admits r (.command key c)
  | handle {name : String} {q : HandleRequest α} (set : ∀ v, q = .set v → r.poke name)
      (pull : q = .pull → ∀ key, r.handle name key → r.Pulls key)
      (copy : ∀ other, q = .copy other → ∀ key, r.handle name key → r.handle other key) :
      Admits r (.handle name q)

/-- What becomes of a member in one go, when nobody hears of it. `good` is what is known of the steps
that the operations on a member come to. -/
inductive Member.Turns (r : Rules α) (good : Nat → Body α → Body α → Option (Change α) → Prop)
    (key : Nat) (m : Member α) : Member α → Prop
  | cell (g : Cell α → Cell α) (kept : ∀ c, (g c).value = c.value ∧ (g c).changed = c.changed) :
      Turns r good key m { m with body := m.body.mapCell g }
  | clearChanged (h : r.command key .clearChanged) :
      Turns r good key m { m with body := m.body.clearChanged }
  | widget (w : Widget α) : Turns r good key m { m with widget := some w, drawn := 0 }
  | drawn : Turns r good key m { m with drawn := m.drawn + 1 }
  | listen {name : String} {form : ListenerForm} {acts : List (Act α)}
      (h : r.command key (.listen name form acts)) (script : Nat) :
      Turns r good key m (m.connect ⟨name, form, some script⟩)
  | unlisten {name : String} (h : r.command key (.unlisten name)) {id : Ticket}
      (known : m.connections.lookup name = some id) :
      Turns r good key m { m with body := m.body.mapListeners fun s => (s.disconnect id).1 }
  | unlistenAll (h : r.command key .unlistenAll) :
      Turns r good key m { m with body := m.body.mapListeners Signal.disconnectAll }
  | bindGetter {acts : List (Act α)} (h : r.command key (.bindGetter acts)) (script : Nat) :
      Turns r good key m
        { m with body := m.body.mapLink fun l => { l with getter := some ⟨key, some script⟩ } }
  | bindSetter {acts : List (Act α)} (h : r.command key (.bindSetter acts)) (script : Nat) :
      Turns r good key m
        { m with body := m.body.mapLink fun l => { l with setter := some ⟨key, some script⟩ } }
  | step {b : Body α} (h : good key m.body b none) : Turns r good key m { m with body := b }

/-- Nobody hears of it, so the value stayed. -/
theorem Member.Turns.value {r : Rules α} {key : Nat} {m m' : Member α}
    (h : m.Turns r (fun _ => Body.Faithful) key m') (shared : m.body.shared = true) :
    m'.body.value = m.body.value := by
  cases h with
  | cell g kept => exact (m.body.value_mapCell g).trans (kept m.body.cell).1
  | step h => exact h.value shared
  | _ => simp [connect]

/-- Events that are neither commits, nor calls of listeners, nor traffic with the outside. -/
inductive Event.Aside : Event α → Prop
  | validated (key : Nat) (candidate : α) : Aside (.validated key candidate)
  | drew (key : Nat) (picture : Picture α) : Aside (.drew key picture)
  | poked (handle : String) (reply : Reply α) : Aside (.poked handle reply)
  | acted (who : String) (c : Command α) (reply : Reply α) : Aside (.acted who c reply)
  | hooked (key : Nat) (occurrence : Occurrence) (hook : String) : Aside (.hooked key occurrence hook)

namespace World

/-- Every script keeps to the rules for its owner, and every handle to those for its name. -/
structure Obeys (w : World α) (r : Rules α) : Prop where
  scripts : ∀ s ∈ w.scripts, ∀ a ∈ s.acts, a.1.Always (r.act s.owner)
  handles : ∀ name key, w.handleKey? name = some key → r.handle name key

/-- Scripts stay where they are, with their owners and acts; only budgets change, and others follow
behind. -/
def Continues (ss ss' : List (Script α)) : Prop :=
  ∀ (i : Nat) (s : Script α), ss[i]? = some s → ∃ s', ss'[i]? = some s' ∧ s'.owner = s.owner ∧
    s'.acts.map Prod.fst = s.acts.map Prod.fst

def serve [BEq α] (depth : Nat) (q : Request α) (w : World α) : World α :=
  match q with
  | .command key c => (w.exec (react depth) key c).1
  | .handle name r => (w.execHandle (react depth) name r).1

def serveAll [BEq α] (depth : Nat) (qs : List (Request α)) (w : World α) : World α :=
  qs.foldl (fun w q => w.serve depth q) w

def commit (w : World α) (key : Nat) (m : Member α) (b : Body α) (change : Change α) : World α :=
  (w.setMember key { m with body := b }).record (.committed key change)

/-- A relation that holds as long as the rules are kept, as they then go on to be. -/
def Under (r : Rules α) (R : World α → World α → Prop) (w w' : World α) : Prop :=
  w.Obeys r → w'.Obeys r ∧ R w w'

def Runs [BEq α] (r : Rules α) (R : World α → World α → Prop) (depth : Nat) : Prop :=
  ∀ s w, Under r R w (react depth s w)

/-- A relation that is kept by whatever runs no script, under some rules. -/
structure Steady [BEq α] (r : Rules α)
    (good : Nat → Body α → Body α → Option (Change α) → Prop)
    (R : World α → World α → Prop) : Prop where
  refl (w : World α) : R w w
  trans (a b c : World α) : R a b → R b c → R a c
  steps (key : Nat) : Body.Steps (r.command key) (r.Pokes key) (good key)
  note (w : World α) (e : Event α) (h : e.Aside) : R w (w.record e)
  scripts (w : World α) (ss : List (Script α)) (h : Continues w.scripts ss) :
    R w { w with scripts := ss }
  handle (w : World α) (name : String) (key : Nat) (h : r.handle name key) :
    R w (w.setHandle name key)
  outside (w : World α) (key : Nat) (v : α) (h : r.command key (.setOutside v)) :
    R w (w.setVariable key v)
  turn {w : World α} {ss : List (Script α)} {key : Nat} {m m' : Member α}
    (hm : w.member? key = some m) (h : m.Turns r good key m') (hs : Continues w.scripts ss) :
    R w { w.setMember key m' with scripts := ss }

/-- A relation that every single happening keeps, under some rules. Commits, pulls and pushes run
scripts; the relation may be taken for those. -/
structure Course [BEq α] (r : Rules α)
    (good : Nat → Body α → Body α → Option (Change α) → Prop)
    (R : World α → World α → Prop) : Prop extends Steady r good R where
  commit {depth : Nat} (runs : Runs r R depth) {w : World α} {key : Nat} {m : Member α}
    {b : Body α} {change : Change α} (hm : w.member? key = some m)
    (h : good key m.body b (some change)) :
    Under r R w
      (((w.commit key m b change).notify (react depth) key change).push (react depth) key).1
  pull {depth : Nat} (runs : Runs r R depth) (w : World α) (key : Nat) (h : r.Pulls key) :
    Under r R w (w.pull (react depth) key).1
  push {depth : Nat} (runs : Runs r R depth) (w : World α) (key : Nat) :
    Under r R w (w.push (react depth) key).1

section Scripts

variable {r : Rules α} {R S : World α → World α → Prop} {w w' w'' : World α}

theorem Obeys.congr (h : w.Obeys r) (hs : w'.scripts = w.scripts)
    (hh : w'.handles = w.handles) : w'.Obeys r := by
  refine ⟨?_, ?_⟩
  · rw [hs]
    exact h.scripts
  · unfold handleKey?
    rw [hh]
    exact h.handles

theorem Under.of_same (hs : w'.scripts = w.scripts) (hh : w'.handles = w.handles) (h : R w w') :
    Under r R w w' :=
  fun ho => ⟨ho.congr hs hh, h⟩

theorem Under.comp {T : World α → World α → Prop} (h : Under r R w w') (h' : Under r S w' w'')
    (ht : R w w' → S w' w'' → T w w'') : Under r T w w'' := by
  intro ho
  obtain ⟨ho', hr⟩ := h ho
  obtain ⟨ho'', hs⟩ := h' ho'
  exact ⟨ho'', ht hr hs⟩

theorem Under.trans (ht : ∀ a b c : World α, R a b → R b c → R a c) (h : Under r R w w')
    (h' : Under r R w' w'') : Under r R w w'' :=
  h.comp h' (ht _ _ _)

theorem Under.mono (hm : ∀ a b : World α, R a b → S a b) (h : Under r R w w') : Under r S w w' :=
  fun ho => ⟨(h ho).1, hm _ _ (h ho).2⟩

/-- What each thing keeps, all of them one after another keep. -/
theorem under_foldl {β : Type} (hrefl : ∀ a, R a a)
    (ht : ∀ a b c : World α, R a b → R b c → R a c) {f : World α → β → World α}
    (hf : ∀ w x, Under r R w (f w x)) (xs : List β) (w : World α) :
    Under r R w (xs.foldl f w) := by
  induction xs generalizing w with
  | nil => exact fun ho => ⟨ho, hrefl w⟩
  | cons x xs ih => exact (hf w x).trans ht (ih (f w x))

/-- A script that is not there does nothing; the other case is the hypothesis. -/
theorem runScript_under [BEq α] {depth : Nat} (refl : ∀ w, R w w) (runs : Runs r R depth)
    (script : Option Nat) (w : World α) : Under r R w (w.runScript (react depth) script) := by
  cases script with
  | none => exact .of_same rfl rfl (refl w)
  | some s => exact runs s w

theorem continues_refl (ss : List (Script α)) : Continues ss ss :=
  fun _ s hs => ⟨s, hs, rfl, rfl⟩

theorem continues_append (ss more : List (Script α)) : Continues ss (ss ++ more) := by
  intro i s hs
  have hi : i < ss.length := (List.getElem?_eq_some_iff.mp hs).1
  exact ⟨s, by rw [List.getElem?_append_left hi, hs], rfl, rfl⟩

theorem continues_set {ss : List (Script α)} {i : Nat} {s s' : Script α} (hi : ss[i]? = some s)
    (ho : s'.owner = s.owner) (ha : s'.acts.map Prod.fst = s.acts.map Prod.fst) :
    Continues ss (ss.set i s') := by
  intro j t ht
  by_cases hj : i = j
  · subst hj
    rw [hi] at ht
    cases ht
    have hlt := (List.getElem?_eq_some_iff.mp hi).1
    exact ⟨s', by rw [List.getElem?_set_self hlt], ho, ha⟩
  · exact ⟨t, by rw [List.getElem?_set_ne hj, ht], rfl, rfl⟩

/-- A new script keeps to the rules when its acts do, and so do the acts within. -/
theorem obeys_arm {owner : Nat} (who : String) {acts : List (Act α)} (h : w.Obeys r)
    (ha : ∀ a ∈ acts, a.Always (r.act owner)) : (w.arm owner who acts).1.Obeys r := by
  refine ⟨?_, h.handles⟩
  intro s hs a hm
  rcases List.mem_append.mp hs with hs | hs
  · exact h.scripts s hs a hm
  · rw [List.mem_singleton] at hs
    subst hs
    obtain ⟨b, hb, rfl⟩ := List.mem_map.mp hm
    exact ha b hb

theorem obeys_setHandle {name : String} {key : Nat} (h : w.Obeys r) (hn : r.handle name key) :
    (w.setHandle name key).Obeys r := by
  refine ⟨h.scripts, ?_⟩
  intro other k hk
  simp only [handleKey?, setHandle, List.lookup_cons] at hk
  split at hk
  · rename_i he
    cases hk
    exact beq_iff_eq.mp he ▸ hn
  · exact h.handles other k hk

/-- Taking an act spends budget and changes nothing else. -/
theorem takeAct_spends {script i : Nat} {s : Script α} {a : Act α}
    (h : w.takeAct script i = some (s, a, w')) :
    w.scripts[script]? = some s ∧ (∃ left, (a, left) ∈ s.acts) ∧
      ∃ s', s'.owner = s.owner ∧ s'.acts.map Prod.fst = s.acts.map Prod.fst ∧
        w' = { w with scripts := w.scripts.set script s' } := by
  unfold takeAct at h
  split at h
  · cases h
  · rename_i s₀ hs
    split at h
    · cases h
    · rename_i b hb
      simp only [Option.some.injEq, Prod.mk.injEq] at h
      obtain ⟨rfl, rfl, rfl⟩ := h
      obtain ⟨hlt, same⟩ := List.getElem?_eq_some_iff.mp hs
      refine ⟨hs, ⟨none, List.mem_of_getElem? hb⟩, s₀, rfl, rfl, ?_⟩
      rw [← same, List.set_getElem_self hlt]
    · cases h
    · rename_i b left hb
      simp only [Option.some.injEq, Prod.mk.injEq] at h
      obtain ⟨rfl, rfl, rfl⟩ := h
      refine ⟨hs, ⟨_, List.mem_of_getElem? hb⟩,
        { s₀ with acts := s₀.acts.set i (b, some left) }, rfl, ?_, rfl⟩
      have hfst : (s₀.acts.map Prod.fst)[i]? = some b := by simp [hb]
      obtain ⟨hlt, rfl⟩ := List.getElem?_eq_some_iff.mp hfst
      rw [List.map_set]
      exact List.set_getElem_self hlt

theorem takeAct_some {script i : Nat} {s : Script α} {a : Act α}
    (h : w.takeAct script i = some (s, a, w')) :
    s ∈ w.scripts ∧ (∃ left, (a, left) ∈ s.acts) ∧
      ∃ ss, w' = { w with scripts := ss } ∧ Continues w.scripts ss ∧
        (w.Obeys r → w'.Obeys r) := by
  obtain ⟨hs, ha, s', owner, acts, rfl⟩ := takeAct_spends h
  have mem := List.mem_of_getElem? hs
  refine ⟨mem, ha, _, rfl, continues_set hs owner acts, fun ho => ⟨?_, ho.handles⟩⟩
  intro t ht c hc
  rcases List.mem_or_eq_of_mem_set ht with ht | rfl
  · exact ho.scripts t ht c hc
  · obtain ⟨c', hc', same⟩ := List.mem_map.mp (acts ▸ List.mem_map_of_mem hc)
    exact owner ▸ same ▸ ho.scripts s mem c' hc'

end Scripts

namespace Course

variable [BEq α] {r : Rules α} {good : Nat → Body α → Body α → Option (Change α) → Prop}
  {R : World α → World α → Prop} {depth : Nat}

theorem same (C : Course r good R) (w : World α) : Under r R w w := .of_same rfl rfl (C.refl w)

theorem noted (C : Course r good R) (w : World α) {e : Event α} (h : e.Aside) :
    Under r R w (w.record e) :=
  .of_same rfl rfl (C.note w e h)

theorem andThen (C : Course r good R) {a b c : World α} (h : Under r R a b)
    (h' : Under r R b c) : Under r R a c :=
  h.trans C.trans h'

theorem turned (C : Course r good R) {w : World α} {key : Nat} {m m' : Member α}
    (hm : w.member? key = some m) (h : m.Turns r good key m') : Under r R w (w.setMember key m') :=
  .of_same rfl rfl (C.turn hm h (continues_refl _))

theorem armed (C : Course r good R) {w : World α} {key : Nat} {m : Member α} (who : String)
    {acts : List (Act α)} {g : Member α → Member α} (hm : w.member? key = some m)
    (ha : ∀ a ∈ acts, a.Always (r.act key)) (h : m.Turns r good key (g m)) :
    Under r R w ((w.arm key who acts).1.modify key g) := by
  intro ho
  refine ⟨(obeys_arm who ho ha).congr (modify_scripts ..) (modify_handles ..), ?_⟩
  have hm' : (w.arm key who acts).1.member? key = some m := hm
  rw [modify_of_member? hm']
  exact C.turn hm h (continues_append _ _)

theorem noteCheck_under (C : Course r good R) (w : World α) (key : Nat) (checked : Option α) :
    Under r R w (w.noteCheck key checked) := by
  cases checked with
  | none => exact C.same w
  | some v => exact C.noted w (.validated key v)

/-- A step that is known to be good goes into the world as a commit or as a quiet replacement. -/
theorem settle_under (C : Course r good R) (runs : Runs r R depth) {ρ : Type} {w : World α}
    {key : Nat} {m : Member α} {s : Step (Body α) α ρ} (hm : w.member? key = some m)
    (hs : good key m.body s.state s.change) :
    Under r R w (w.settle (react depth) key s).1 := by
  have hm' : (w.noteCheck key s.checked).member? key = some m :=
    (member?_noteCheck ..).trans hm
  refine C.andThen (C.noteCheck_under w key s.checked) ?_
  unfold settle
  simp only [mapBody_of_member? hm']
  cases hc : s.change with
  | none => exact C.turned hm' (.step (hc ▸ hs))
  | some change => exact C.commit runs hm' (hc ▸ hs)

theorem setShared_under (C : Course r good R) (runs : Runs r R depth) (w : World α) {key : Nat}
    (v : α) (h : r.Pokes key ∨ r.command key (.setThroughHandle v)) :
    Under r R w (w.setShared (react depth) key v).1 := by
  unfold setShared
  split
  · exact C.same w
  · rename_i m hm
    exact C.settle_under runs hm ((C.steps key).written m.body v h)

theorem pullShared_under (C : Course r good R) (runs : Runs r R depth) (w : World α) {key : Nat}
    (h : r.Pulls key) : Under r R w (w.pullShared (react depth) key).1 := by
  unfold pullShared
  split
  · exact C.pull runs w key h
  · exact C.same w

theorem poke_under (C : Course r good R) (runs : Runs r R depth) {p : Poke α}
    (h : r.poke p.handle) (w : World α) : Under r R w (w.poke (react depth) p) := by
  intro ho
  unfold poke
  cases hk : w.handleKey? p.handle with
  | none => exact C.noted w (.poked ..) ho
  | some key =>
    have pokes : r.Pokes key := ⟨p.handle, h, ho.handles _ _ hk⟩
    exact C.andThen (C.setShared_under runs w p.value (.inl pokes)) (C.noted _ (.poked ..)) ho

theorem pokes_under (C : Course r good R) (runs : Runs r R depth) (ps : List (Poke α))
    (h : ∀ name, r.poke name) (w : World α) :
    Under r R w (ps.foldl (fun w p => w.poke (react depth) p) w) :=
  under_foldl C.refl C.trans (fun w p => C.poke_under runs (h p.handle) w) ps w

theorem runHooks_under (C : Course r good R) (runs : Runs r R depth) (key : Nat) (hooks : Hooks)
    (response : Response) (w : World α) :
    Under r R w (w.runHooks (react depth) key hooks response) := by
  apply under_foldl C.refl C.trans
  rintro w ⟨occurrence, hook⟩
  have noted : Under r R w (w.record (.hooked key occurrence hook.name)) := C.noted w (.hooked ..)
  exact C.andThen noted (runScript_under C.refl runs hook.script _)

theorem finishDraw_under (C : Course r good R) (runs : Runs r R depth) {key : Nat} {label : String}
    (h : r.command key (.draw label)) (before : Body α) (s : Stroke α) (w : World α) :
    Under r R w (w.finishDraw (react depth) key before s).1 := by
  unfold finishDraw
  split
  · exact C.same w
  · rename_i m hm
    exact C.settle_under runs hm ((C.steps key).drawn _ _ _ _ h)

/-- What the widget and the hooks do comes first, and only then is the edit taken. -/
theorem draw_under (C : Course r good R) (runs : Runs r R depth) (w : World α) {key : Nat}
    {label : String} (h : r.command key (.draw label)) :
    Under r R w (w.draw (react depth) key label).1 := by
  unfold draw
  split
  · exact C.same w
  · rename_i m hm
    split
    · exact C.same w
    · rename_i widget _
      dsimp only
      rw [modify_of_member? (m := m) (by exact hm)]
      refine C.andThen (C.noted w (.drew key (m.picture label))) ?_
      refine C.andThen (C.turned (by exact hm) .drawn) ?_
      refine C.andThen (C.pokes_under runs (widget m.drawn (m.picture label)).pokes (r.drawn h) _) ?_
      exact C.andThen (C.runHooks_under runs key _ _ _) (C.finishDraw_under runs h _ _ _)

/-- A call runs scripts when it pulls or pushes; all other calls are turns of the member. -/
theorem callThrough_under (C : Course r good R) (runs : Runs r R depth) {w : World α} {key : Nat}
    {m : Member α} {c : Call} (hm : w.member? key = some m) (hc : r.command key (.call c)) :
    Under r R w (w.callThrough (react depth) key m c).1 := by
  unfold callThrough
  split
  · split
    · exact C.pull runs w key (.inr (.inl hc))
    · exact C.push runs w key
    · exact C.settle_under runs hm ((C.steps key).called m _ hc)
  · exact C.same w

theorem unlisten_under (C : Course r good R) {w : World α} {key : Nat} {m : Member α}
    {name : String} (hm : w.member? key = some m) (h : r.command key (.unlisten name)) :
    Under r R w (w.unlisten key m name).1 := by
  unfold World.unlisten
  split
  · exact C.same w
  · rename_i id known
    simp only [mapBody_of_member? hm]
    exact C.turned hm (.unlisten h known)

theorem execShared_under (C : Course r good R) (runs : Runs r R depth) {w : World α} {key : Nat}
    {m : Member α} {c : Command α} (hm : w.member? key = some m) (hc : r.Allows key c) :
    Under r R w (w.execShared (react depth) key m c).1 := by
  cases c
  case refresh =>
    simp only [execShared]
    split
    · exact C.same w
    · exact C.pull runs w key (.inl hc.command)
  case listen name form acts => exact C.armed name hm hc.acts (.listen hc.command _)
  case unlisten name => exact C.unlisten_under hm hc.command
  case unlistenAll =>
    simp only [execShared, mapBody_of_member? hm]
    exact C.turned hm (.unlistenAll hc.command)
  case bindGetter acts => exact C.armed "getter" hm hc.acts (.bindGetter hc.command _)
  case bindSetter acts => exact C.armed "setter" hm hc.acts (.bindSetter hc.command _)
  case takeHandle name =>
    have taken := r.taken hc.command
    exact fun ho => ⟨obeys_setHandle ho taken, C.handle w name key taken⟩
  case setThroughHandle v => exact C.setShared_under runs w v (.inr hc.command)
  case pullThroughHandle => exact C.pullShared_under runs w (.inr (.inr hc.command))
  all_goals exact C.same w

/-- Every command is a step, a turn, a pull, a push or a draw. -/
theorem exec_under (C : Course r good R) (runs : Runs r R depth) {key : Nat} {c : Command α}
    (hc : r.Allows key c) (w : World α) : Under r R w (w.exec (react depth) key c).1 := by
  unfold exec
  split
  · exact C.same w
  · rename_i m hm
    have turned : ∀ {g : Member α → Member α}, m.Turns r good key (g m) →
        Under r R w (w.modify key g) := by
      intro g hg
      rw [modify_of_member? hm]
      exact C.turned hm hg
    cases c
    case setName | setTooltip | setMode => exact turned (.cell _ fun _ => ⟨rfl, rfl⟩)
    case clearChanged => exact turned (.clearChanged hc.command)
    case setWidget widget => exact turned (.widget widget)
    case draw label => exact C.draw_under runs w hc.command
    case setOutside v => exact .of_same rfl rfl (C.outside w key v hc.command)
    case call c => exact C.callThrough_under runs hm hc.command
    case edit e =>
      dsimp only
      split
      · rename_i s hs
        exact C.settle_under runs hm ((C.steps key).edited _ _ _ _ hc.command hs)
      · exact C.same w
    case get | source | refresh | listen | unlisten | unlistenAll | bindGetter | bindSetter |
        takeHandle | setThroughHandle | pullThroughHandle =>
      dsimp only
      split
      · exact C.execShared_under runs hm hc
      · exact C.same w
    all_goals exact C.same w

theorem execHandle_under (C : Course r good R) (runs : Runs r R depth) {name : String}
    {q : HandleRequest α} (hq : r.Admits (.handle name q)) (w : World α) :
    Under r R w (w.execHandle (react depth) name q).1 := by
  obtain _ | ⟨set, pull, copy⟩ := hq
  intro ho
  unfold execHandle
  split
  · exact ⟨ho, C.refl w⟩
  · rename_i key hk
    have named := ho.handles _ _ hk
    cases q
    case set v => exact C.setShared_under runs w v (.inl ⟨name, set v rfl, named⟩) ho
    case pull => exact C.pullShared_under runs w (pull rfl key named) ho
    case copy other =>
      have hc := copy other rfl key named
      exact ⟨obeys_setHandle ho hc, C.handle w other key hc⟩
    all_goals exact ⟨ho, C.refl w⟩

/-- An act that was taken keeps to the rules, as its script did. -/
theorem perform_under (C : Course r good R) (runs : Runs r R depth) (script i : Nat)
    (w : World α) : Under r R w (w.perform (react depth) script i) := by
  intro ho
  unfold perform
  split
  · exact ⟨ho, C.refl w⟩
  · rename_i s times c w' ht
    obtain ⟨hs, ⟨left, ha⟩, ss, rfl, hss, ho'⟩ := takeAct_some (r := r) ht
    obtain ⟨here, within⟩ := ho.scripts s hs _ ha
    have spent : Under r R w { w with scripts := ss } := fun _ => ⟨ho' ho, C.scripts w ss hss⟩
    have carried := C.exec_under runs ⟨r.act_command here, within⟩ { w with scripts := ss }
    exact C.andThen spent (C.andThen carried (C.noted _ (.acted ..))) ho
  · rename_i s p w' ht
    obtain ⟨hs, ⟨left, ha⟩, ss, rfl, hss, ho'⟩ := takeAct_some (r := r) ht
    obtain ⟨here, within⟩ := ho.scripts s hs _ ha
    have spent : Under r R w { w with scripts := ss } := fun _ => ⟨ho' ho, C.scripts w ss hss⟩
    exact C.andThen spent (C.poke_under runs (r.act_poke here) _) ho

/-- Induction on the depth of nesting: the runs one level further in are a course already. -/
theorem runs (C : Course r good R) (depth : Nat) : Runs r R depth := by
  induction depth with
  | zero => exact fun _ w => C.same w
  | succ depth ih =>
    intro script w
    exact under_foldl C.refl C.trans (fun w i => C.perform_under ih script i w) _ w

theorem serve (C : Course r good R) {q : Request α} (hq : r.Admits q) (depth : Nat)
    (w : World α) : Under r R w (w.serve depth q) := by
  cases hq with
  | command h => exact C.exec_under (C.runs depth) h w
  | handle set pull copy => exact C.execHandle_under (C.runs depth) (.handle set pull copy) w

/-- Requests are served one after the other, so a course is kept by any number of them. -/
theorem serveAll (C : Course r good R) {qs : List (Request α)} (hq : ∀ q ∈ qs, r.Admits q)
    (depth : Nat) (w : World α) : Under r R w (w.serveAll depth qs) := by
  induction qs generalizing w with
  | nil => exact C.same w
  | cons q qs ih =>
    have first := C.serve (hq q List.mem_cons_self) depth w
    exact C.andThen first (ih (fun q' h => hq q' (List.mem_cons_of_mem q h)) _)

end Course

end World

end BoundValues
