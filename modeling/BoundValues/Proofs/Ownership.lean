import BoundValues.Proofs.Admission
import BoundValues.Proofs.Passes

namespace BoundValues

variable {α : Type}

/-- What a container lives through: an action, with reactions nested up to a depth, a script for others
to run, or a listener that runs one. -/
inductive Deed (α : Type)
  | perform (depth : Nat) (a : Action α)
  | arm (owner : Nat) (who : String) (acts : List (Act α))
  | watch (occasion : Occasion) (watcher : Watcher)

def Action.Evicts (id : String) : Action α → Prop
  | .add other _ | .remove other => other = id
  | .clear => True
  | _ => False

/-- Only upkeep takes members out. -/
theorem Action.Evicts.upkeep {a : Action α} {id : String} (h : a.Evicts id) :
    ∃ u : Upkeep α, a = u.action := by
  cases a
  case add id r => exact ⟨.add id r, rfl⟩
  case remove id => exact ⟨.remove id, rfl⟩
  case clear => exact ⟨.clear, rfl⟩
  all_goals exact h.elim

def Deed.Evicts (id : String) : Deed α → Prop
  | .perform _ a => a.Evicts id
  | .arm .. | .watch .. => False

/-- What the owner of a value is told, as it is told through a handle: a refusal counts as no change. -/
def Reply.throughHandle : Reply α → Reply α
  | .refused _ => .accepted (.flag false)
  | .flag b => .accepted (.flag b)
  | r => r

/-- Whether a body can be shared is a matter of its kind. -/
theorem Body.shared_congr {b b' : Body α} (same : b'.kind = b.kind) : b'.shared = b.shared := by
  cases b <;> cases b' <;> first | rfl | cases same

namespace World

theorem alive_iff {w : World α} {key : Nat} :
    w.alive key = true ↔ ∃ m, w.member? key = some m := Option.isSome_iff_exists

theorem alive_congr {w w' : World α} {key : Nat} (same : w'.member? key = w.member? key) :
    w'.alive key = w.alive key := congrArg Option.isSome same

theorem Lasting.alive {w w' : World α} (h : Lasting w w') (key : Nat) : w'.alive key = w.alive key := by
  simpa [World.alive] using congrArg Option.isSome (h.members key)

theorem alive_drop (w : World α) (dropped key : Nat) :
    (w.drop dropped).alive key = true ↔ w.alive key = true ∧ key ≠ dropped := by
  by_cases same : key = dropped
  · subst same
    simp [alive, member?_drop_self]
  · simp [alive_congr (member?_drop_of_ne same), same]

theorem alive_foldl_drop (es : List Entry) (w : World α) (key : Nat) :
    (es.foldl (fun w e => w.drop e.key) w).alive key = true ↔
      w.alive key = true ∧ ∀ e ∈ es, key ≠ e.key := by
  induction es generalizing w with
  | nil => simp
  | cons e es ih => simp [ih, alive_drop, and_assoc]

section Sharing

variable {w : World α} {key : Nat} {m : Member α}

/-- A member that can be shared is one that can be asked, through a capability, for its outside. -/
theorem answers_external (shared : m.body.shared = true) : m.interface.answers .external = true := by
  rw [Member.interface, Interface.answers_plain]
  cases hb : m.body
  case monitored => exact (by decide : Kind.monitored.capabilities.declares .external = true)
  case captioned => exact (by decide : Kind.captioned.capabilities.declares .external = true)
  case full => exact (by decide : Kind.full.capabilities.declares .external = true)
  all_goals cases hb ▸ shared

variable [BEq α] (run : Runner α)

/-- The owner's write and a write through a handle are one step, told in two ways. -/
theorem set_step (type : ValueType α) {b : Body α} (shared : b.shared = true) (v : α) :
    ∃ (ρ : Type) (s : Step (Body α) α ρ) (own : ρ → Reply α) (through : ρ → Bool),
      (Edit.set v).step type b = some (s.map id own) ∧ b.setShared v = s.map id through ∧
        ∀ r, (own r).throughHandle = .accepted (.flag (through r)) := by
  cases b with
  | plain p => cases shared
  | config c => cases shared
  | monitored m =>
    exact ⟨Bool, (m.set v).map .monitored id, .flag, id, rfl, rfl, fun _ => rfl⟩
  | captioned m caption =>
    exact ⟨Bool, (m.set v).map (.captioned · caption) id, .flag, id, rfl, rfl, fun _ => rfl⟩
  | full f =>
    refine ⟨Outcome Bool, (f.set v).map .full id, .outcome .flag, fun r => r.toOption.getD false,
      rfl, rfl, fun r => ?_⟩
    cases r <;> rfl

theorem exec_set (hm : w.member? key = some m) (shared : m.body.shared = true) (v : α) :
    (w.setShared run key v).1 = (w.exec run key (.edit (.set v))).1 ∧
      Reply.outcome .flag (w.setShared run key v).2 =
        (w.exec run key (.edit (.set v))).2.throughHandle := by
  obtain ⟨ρ, s, own, through, edits, shares, told⟩ := set_step m.type shared v
  simp only [exec, setShared, hm, edits, shares, settle_map, told, Reply.outcome, and_self]

/-- The owner's pull and a pull through a handle are one. -/
theorem exec_pull (hm : w.member? key = some m) (shared : m.body.shared = true) :
    (w.pullShared run key).1 = (w.exec run key (.call .pull)).1 ∧
      Reply.outcome .flag (w.pullShared run key).2 =
        (w.exec run key (.call .pull)).2.throughHandle := by
  have alive : w.alive key = true := alive_iff.mpr ⟨m, hm⟩
  simp only [exec, hm, callThrough, Call.capability, answers_external shared, pullShared, alive,
    if_true, Reply.outcome, Reply.throughHandle, and_self]

end Sharing

end World

namespace Container

open World

variable {c : Container α} {e : Entry}

structure Accounts (c : Container α) (e : Entry) : Prop where
  old : e.key < c.world.nextKey
  alive : c.world.alive e.key = true ↔ e ∈ c.entries

theorem Sound.concrete {m : Member α} (h : c.Sound) (he : e ∈ c.entries)
    (hm : c.world.member? e.key = some m) : m.concrete = e.concrete := by
  obtain ⟨m', hm', typed⟩ := h.members e he
  cases hm.symm.trans hm'
  exact typed

theorem Sound.accounts (h : c.Sound) (he : e ∈ c.entries) : c.Accounts e := by
  obtain ⟨m, hm, -⟩ := h.members e he
  exact ⟨h.key_lt he, iff_of_true (alive_iff.mpr ⟨m, hm⟩) he⟩

/-- What becomes of an old entry: it goes when it is evicted, and its member with it. -/
structure Leaves (c : Container α) (e : Entry) (evicts : Prop) (c' : Container α) : Prop where
  accounts : c'.Accounts e
  entry : e ∈ c'.entries ↔ e ∈ c.entries ∧ ¬evicts

/-- An entry goes when its member does, so that it is enough to follow the member. -/
theorem Accounts.leaves {c' : Container α} {evicts : Prop} (h : c.Accounts e)
    (grows : c.world.nextKey ≤ c'.world.nextKey)
    (entry : e ∈ c'.entries ↔ e ∈ c.entries ∧ ¬evicts)
    (alive : e ∈ c.entries → (c'.world.alive e.key = true ↔ ¬evicts))
    (dead : c.world.alive e.key = false → c'.world.alive e.key = false) :
    c.Leaves e evicts c' := by
  refine ⟨⟨Nat.lt_of_lt_of_le h.old grows, ?_⟩, entry⟩
  by_cases he : e ∈ c.entries
  · rw [alive he, entry, and_iff_right he]
  · have gone := dead (Bool.eq_false_iff.mpr fun here => he (h.alive.mp here))
    rw [entry, gone]
    simp [he]

theorem Lasts.leaves {c' : Container α} (h : c.Lasts c') (accounts : c.Accounts e) :
    c.Leaves e False c' := by
  have entries : c'.entries = c.entries := congrArg Registry.entries h.registry
  have alive := h.world.alive e.key
  refine accounts.leaves (Nat.le_of_eq h.world.slots.symm) ?_ ?_ fun dead => alive.trans dead
  · simp [entries]
  · intro he
    simp [alive, accounts.alive.mpr he]

theorem alive_elim_drop (w : World α) (dropped : Option Nat) (key : Nat) :
    (dropped.elim w w.drop).alive key = true ↔ w.alive key = true ∧ dropped ≠ some key := by
  cases dropped with
  | none => simp
  | some other => simp [alive_drop, @eq_comm _ key]

/-- An old entry stays when another id is put, and goes when its own is. -/
theorem mem_put_iff {β : Type} {name : β → String} {x y : β} {xs : List β} (other : y ≠ x) :
    y ∈ put name x xs ↔ y ∈ xs ∧ name x ≠ name y := by
  constructor
  · intro h
    rcases mem_put h with rfl | ⟨hy, hn⟩
    · exact absurd rfl other
    · exact ⟨hy, Ne.symm hn⟩
  · rintro ⟨hy, hn⟩
    unfold put
    split
    · refine List.mem_map.mpr ⟨y, hy, if_neg ?_⟩
      simpa using Ne.symm hn
    · exact List.mem_append_left _ hy

theorem Sound.leaves_remove (h : c.Sound) (accounts : c.Accounts e) (id : String) :
    c.Leaves e (id = e.id) (c.remove id).1 := by
  have entries : (c.remove id).1.entries = c.entries.filter fun e => e.id != id :=
    (h.registry.remove id).2.1
  have alive : (c.remove id).1.world.alive e.key = true ↔
      c.world.alive e.key = true ∧ c.key? id ≠ some e.key := alive_elim_drop _ _ _
  apply accounts.leaves
  · exact Nat.le_of_eq (length_elim_drop c.world (c.key? id)).2.symm
  · rw [entries, List.mem_filter, bne_iff_ne, ne_comm]
  · intro he
    rw [alive, Ne, h.key?_eq_iff he, accounts.alive, and_iff_right he, eq_comm]
  · intro dead
    rw [Bool.eq_false_iff, Ne, alive, dead]
    simp

theorem Sound.leaves_clear (h : c.Sound) (accounts : c.Accounts e) : c.Leaves e True c.clear := by
  have entries : c.clear.entries = [] := c.registry.sound_clear.2
  have alive : c.clear.world.alive e.key = true ↔ c.world.alive e.key = true ∧
      ∀ f ∈ c.registry.slots.filterMap id, e.key ≠ f.key := alive_foldl_drop _ _ _
  apply accounts.leaves
  · exact Nat.le_of_eq (length_foldl_drop (c.registry.slots.filterMap id) c.world).2.symm
  · simp [entries]
  · intro he
    obtain ⟨s, hs⟩ := h.registry.mem_entries.mp he
    have filled : e ∈ c.registry.slots.filterMap id := by
      refine List.mem_filterMap.mpr ⟨some e, ?_, rfl⟩
      exact List.mem_of_getElem? (Option.join_eq_some_iff.mp hs)
    rw [alive]
    exact iff_of_false (fun stays => stays.2 e filled rfl) (not_not.mpr trivial)
  · intro dead
    rw [Bool.eq_false_iff, Ne, alive, dead]
    simp

section Deeds

variable [BEq α]

/-- An entry leaves when another member gets its id. -/
theorem Sound.leaves_add (h : c.Sound) (accounts : c.Accounts e) (run : Runner α) (id : String)
    (r : Recipe α) : c.Leaves e (id = e.id) (c.add run id r) := by
  have newest := create_newest run id r h.aligned
  have entries : (c.add run id r).entries =
    put Entry.id ⟨id, c.world.nextKey, r.concrete⟩ c.entries := (h.registry.insert _).2
  have alive : (c.add run id r).world.alive e.key = true ↔
      c.world.alive e.key = true ∧ c.key? id ≠ some e.key := by
    refine (alive_elim_drop _ _ _).trans ?_
    rw [alive_congr (newest.others accounts.old)]
  apply accounts.leaves
  · have length := (length_elim_drop (c.world.create run id r) (c.key? id)).2
    refine Nat.le_trans ?_ (Nat.le_of_eq length.symm)
    rw [newest.slots, List.length_append]
    exact Nat.le_add_right _ _
  · rw [entries, mem_put_iff]
    rintro rfl
    exact Nat.lt_irrefl _ accounts.old
  · intro he
    rw [alive, Ne, h.key?_eq_iff he, accounts.alive, and_iff_right he, eq_comm]
  · intro dead
    rw [Bool.eq_false_iff, Ne, alive, dead]
    simp

/-- Of all actions only upkeep makes an entry leave. -/
theorem Sound.leaves_perform (h : c.Sound) (accounts : c.Accounts e) (depth : Nat) (a : Action α) :
    c.Leaves e (a.Evicts e.id) (c.perform (react depth) a).1 := by
  by_cases keeps : ∃ u : Upkeep α, a = u.action
  · obtain ⟨u, rfl⟩ := keeps
    cases u with
    | add id r => exact h.leaves_add accounts (react depth) id r
    | remove id => exact h.leaves_remove accounts id
    | clear => exact h.leaves_clear accounts
  · have lasts := (perform_lasts depth a c).resolve_left keeps
    have stays : ¬a.Evicts e.id := fun evicts => keeps evicts.upkeep
    simpa [stays] using lasts.leaves accounts

def live (d : Deed α) (c : Container α) : Container α :=
  match d with
  | .perform depth a => (c.perform (react depth) a).1
  | .arm owner who acts => { c with world := (c.world.arm owner who acts).1 }
  | .watch occasion watcher => c.watch occasion watcher

def after (ds : List (Deed α)) (c : Container α) : Container α := ds.foldl (fun c d => c.live d) c

theorem Reached.live (h : c.Reached) (d : Deed α) : (c.live d).Reached := by
  cases d with
  | perform depth a => exact h.perform depth a
  | arm owner who acts => exact h.arm owner who acts
  | watch occasion watcher => exact h.watch occasion watcher

theorem Reached.after (h : c.Reached) (ds : List (Deed α)) : (c.after ds).Reached := by
  induction ds generalizing c with
  | nil => exact h
  | cons d ds ih => exact ih (h.live d)

theorem Sound.leaves (h : c.Sound) (accounts : c.Accounts e) (d : Deed α) :
    c.Leaves e (d.Evicts e.id) (c.live d) := by
  cases d with
  | perform depth a => exact h.leaves_perform accounts depth a
  | arm owner who acts =>
    have lasts : c.Lasts (c.live (.arm owner who acts)) := ⟨rfl, rfl, rfl, fun _ => rfl⟩
    exact lasts.leaves accounts
  | watch occasion watcher =>
    have lasts : c.Lasts (c.live (.watch occasion watcher)) := by
      cases occasion <;> exact ⟨rfl, .refl _⟩
    exact lasts.leaves accounts

/-- Induction on the deeds: an entry stays until one of them evicts it, and never comes back. -/
theorem Reached.leaves_after (h : c.Reached) (accounts : c.Accounts e) (ds : List (Deed α)) :
    c.Leaves e (∃ d ∈ ds, d.Evicts e.id) (c.after ds) := by
  induction ds generalizing c with
  | nil => exact ⟨accounts, by simp [Container.after]⟩
  | cons d ds ih =>
    have first := h.sound.leaves accounts d
    have rest := ih (h.live d) first.accounts
    refine ⟨rest.accounts, rest.entry.trans ?_⟩
    rw [first.entry]
    simp [and_assoc]

end Deeds

section Handles

variable [BEq α]

/-- A handle to a member that is there does what the owner does under the id: it comes to the same
container, and tells the same. -/
structure Serves (c : Container α) (name owner : String) (run : Runner α) : Prop where
  get : c.perform run (.handle name .get) = c.perform run (.command owner .get)
  source : c.perform run (.handle name .source) = c.perform run (.command owner .source)
  set (v : α) : c.perform run (.handle name (.set v)) =
    (c.perform run (.command owner (.edit (.set v)))).map id Reply.throughHandle
  pull : c.perform run (.handle name .pull) =
    (c.perform run (.command owner (.call .pull))).map id Reply.throughHandle
  /-- Monitored values also have a pull of their own. -/
  refresh {m : Member α} : c.member? owner = some m → m.body.kind ≠ .full →
    c.perform run (.handle name .pull) =
      (c.perform run (.command owner .refresh)).map id Reply.throughHandle
  alive : c.perform run (.handle name .alive) = (c, .flag true)

structure Fails (c : Container α) (name : String) (run : Runner α) : Prop where
  get : c.perform run (.handle name .get) = (c, .nothing)
  source : c.perform run (.handle name .source) = (c, .nothing)
  set (v : α) : c.perform run (.handle name (.set v)) = (c, .refused .valueDropped)
  pull : c.perform run (.handle name .pull) = (c, .refused .valueDropped)
  alive : c.perform run (.handle name .alive) = (c, .flag false)

variable {m : Member α} {name : String} {run : Runner α}

theorem perform_command {id : String} {key : Nat} (hk : c.key? id = some key) (cmd : Command α) :
    c.perform run (.command id cmd) =
      ({ c with world := (c.world.exec run key cmd).1 }, (c.world.exec run key cmd).2) := by
  simp only [Container.perform, command, hk]

/-- A handle leads by its key to the member that the owner finds by the id. -/
theorem Sound.serves (h : c.Sound) (he : e ∈ c.entries) (hm : c.world.member? e.key = some m)
    (shared : m.body.shared = true) (held : c.world.handleKey? name = some e.key) :
    c.Serves name e.id run := by
  have hk := (h.key?_eq_iff he).mpr rfl
  have alive : c.world.alive e.key = true := alive_iff.mpr ⟨m, hm⟩
  refine ⟨?_, ?_, fun v => ?_, ?_, fun found other => ?_, ?_⟩
  · rw [perform_command hk]
    simp only [Container.perform, execHandle, held, exec, hm, shared, execShared, if_true]
    rfl
  · rw [perform_command hk]
    simp only [Container.perform, execHandle, held, exec, hm, shared, execShared, if_true]
    rfl
  · obtain ⟨same, told⟩ := exec_set run hm shared v
    rw [perform_command hk]
    simp only [Container.perform, execHandle, held, same, told]
    rfl
  · obtain ⟨same, told⟩ := exec_pull run hm shared
    rw [perform_command hk]
    simp only [Container.perform, execHandle, held, same, told]
    rfl
  · rw [Container.member?, hk, Option.bind_some, hm] at found
    cases found
    rw [perform_command hk]
    simp only [Container.perform, execHandle, held, pullShared, alive, exec, hm, shared, execShared,
      if_neg other, if_true]
    rfl
  · simp only [Container.perform, execHandle, held, alive]

/-- A key is never given again, so a handle whose member is gone stays without one. -/
theorem fails_of_dead (dead : c.world.alive e.key = false)
    (held : c.world.handleKey? name = some e.key) : c.Fails name run := by
  have gone : c.world.member? e.key = none := by simpa [World.alive] using dead
  refine ⟨?_, ?_, fun v => ?_, ?_, ?_⟩ <;>
    simp only [Container.perform, execHandle, held, gone, dead, setShared, pullShared]
  all_goals rfl

/-- How a member that can be shared, its entry and the handles to it go together from now on. -/
structure Owns (c : Container α) (e : Entry) : Prop where
  /-- A handle can be taken, and leads to this member. -/
  taken (run : Runner α) (name : String) : ∃ w : World α, w.handleKey? name = some e.key ∧
    c.perform run (.command e.id (.takeHandle name)) = ({ c with world := w }, .nothing)
  /-- The member stays until it is removed, cleared away or replaced, and does not come back. -/
  stored (ds : List (Deed α)) : e ∈ (c.after ds).entries ↔ ∀ d ∈ ds, ¬d.Evicts e.id
  alive (ds : List (Deed α)) :
    (c.after ds).world.alive e.key = true ↔ e ∈ (c.after ds).entries
  serves (ds : List (Deed α)) {name : String} (run : Runner α) :
    (c.after ds).world.handleKey? name = some e.key → e ∈ (c.after ds).entries →
      (c.after ds).Serves name e.id run
  fails (ds : List (Deed α)) {name : String} (run : Runner α) :
    (c.after ds).world.handleKey? name = some e.key → e ∉ (c.after ds).entries →
      (c.after ds).Fails name run

/-- **Ownership.** A handle taken from a member is alive just as long as the very member is stored:
until its id is removed, cleared away or given another member, and never again, whatever is stored under
the id. While it is alive it does what the owner does; once it is dead it does nothing. -/
theorem handles_follow_ownership (reached : c.Reached) (he : e ∈ c.entries)
    (hm : c.world.member? e.key = some m) (shared : m.body.shared = true) : c.Owns e := by
  have leaves (ds : List (Deed α)) := reached.leaves_after (reached.sound.accounts he) ds
  refine ⟨fun run name => ?_, fun ds => ?_, fun ds => (leaves ds).accounts.alive, ?_, ?_⟩
  · refine ⟨c.world.setHandle name e.key, by simp [handleKey?, setHandle], ?_⟩
    rw [perform_command ((reached.sound.key?_eq_iff he).mpr rfl)]
    simp only [exec, hm, shared, execShared, if_true]
  · simp [(leaves ds).entry, he]
  · intro ds name run held stored
    have sound := (reached.after ds).sound
    obtain ⟨n, hn, typed⟩ := sound.members e stored
    have same : n.concrete = m.concrete := typed.trans (reached.sound.concrete he hm).symm
    have kinds : n.body.kind = m.body.kind := congrArg Concrete.kind same
    exact sound.serves stored hn ((Body.shared_congr kinds).trans shared) held
  · intro ds name run held gone
    refine fails_of_dead ?_ held
    rw [Bool.eq_false_iff, Ne, (leaves ds).accounts.alive]
    exact gone

end Handles

def coat : Recipe Nat where
  kind := .full
  type := ⟨"u64", fun _ n => toString n, String.toNat?⟩
  initial := 1
  outside := 5
  linked := true
  settings := [.validator fun n => if n ≤ 9 then .ok n else .error "too large"]

def cloakroom : Container Nat :=
  Container.after [.perform 0 (.add "coat" coat), .perform 0 (.command "coat" (.takeHandle "tag"))] {}

def exchange : List (Deed Nat) := [.perform 0 (.add "coat" coat)]

theorem handle_fails_after_exchange : ∃ e m, e ∈ cloakroom.entries ∧ cloakroom.world.member? e.key = some m ∧
    m.body.shared = true ∧ cloakroom.Owns e ∧ cloakroom.Serves "tag" "coat" (react 1) ∧
    (cloakroom.after exchange).contains "coat" = true ∧
    (cloakroom.after exchange).Fails "tag" (react 1) := by
  have reached : cloakroom.Reached := (Reached.empty _).after _
  obtain ⟨m, here, shared⟩ : ∃ m, cloakroom.world.member? 0 = some m ∧ m.body.shared = true :=
    ⟨_, rfl, rfl⟩
  have stored : (⟨"coat", 0, coat.concrete⟩ : Entry) ∈ cloakroom.entries := by decide
  have owns := handles_follow_ownership reached stored here shared
  exact ⟨_, m, stored, here, shared, owns, owns.serves [] _ rfl stored, by decide,
    owns.fails exchange _ rfl (by decide)⟩

end Container

end BoundValues
