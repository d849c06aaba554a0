import BoundValues.Proofs.Connections
import BoundValues.Proofs.Passes

namespace BoundValues

variable {α : Type}

inductive Topic
  | name | tooltip | mode | validator | default | template | shown | advanced | group | immediate
  | capacity | kind | range | speed | options | widget | listeners
deriving DecidableEq, Repr

namespace Topic

/-- What a member holds under a topic. A widget is held with the number of times it was drawn. -/
abbrev Holding (α : Type) : Topic → Type
  | name | tooltip | group => String
  | mode => EditMode
  | validator => Option (Validator α)
  | default => Option α
  | template => Option String
  | shown | advanced | immediate => Bool
  | capacity => Nat
  | kind => WidgetKind
  | range => Option (α × α)
  | speed => Option Nat
  | options => List String
  | widget => Option (Widget α) × Nat
  | listeners => Signal Listener

def suits : Topic → Kind → Bool
  | validator, k | default, k | advanced, k | group, k | immediate, k => k = .config || k = .full
  | template, k | shown, k => k = .captioned || k = .full
  | capacity, k => k = .full
  | listeners, k => k = .monitored || k = .captioned || k = .full
  | _, _ => true

end Topic

namespace Member

def holding (m : Member α) : (t : Topic) → t.Holding α
  | .name => m.body.cell.name
  | .tooltip => m.body.cell.tooltip
  | .mode => m.body.cell.mode
  | .validator => m.body.validation.validator
  | .default => m.body.fallback?
  | .template => m.body.caption.template
  | .shown => m.body.caption.shown
  | .advanced => m.body.visibility.advanced
  | .group => m.body.visibility.group
  | .immediate => m.body.immediate
  | .capacity => m.body.history.capacity
  | .kind => m.hints.kind
  | .range => m.hints.range
  | .speed => m.hints.speed
  | .options => m.hints.options
  | .widget => (m.widget, m.drawn)
  | .listeners => m.body.listeners

end Member

def Body.edited : Body α → Bool
  | .config c => c.edited
  | .full f => f.edited
  | _ => false

structure Member.Core (α : Type) where
  type : ValueType α
  kind : Kind
  value : α
  changed : Bool
  edited : Bool
  staging : Staging α
  source : Option Source
  entries : List α
  cursor : Nat
  error : String
  link : Link
  hooks : Hooks
  visible : Bool
  connections : List (String × Ticket)

def Member.core (m : Member α) : Member.Core α where
  type := m.type
  kind := m.body.kind
  value := m.body.value
  changed := m.body.cell.changed
  edited := m.body.edited
  staging := m.body.staging
  source := m.body.source?
  entries := m.body.history.entries
  cursor := m.body.history.cursor
  error := m.body.validation.error
  link := m.body.link
  hooks := m.body.hooks
  visible := m.body.visibility.visible
  connections := m.connections

/-- Puts a member together from what no setting is about and what it holds under the topics. -/
def Member.assemble (c : Core α) (held : (t : Topic) → t.Holding α) : Member α where
  type := c.type
  body :=
    let cell : Cell α := ⟨c.value, c.changed, held .name, held .tooltip, held .mode⟩
    let source := c.source.getD .default
    let fallback := Option.getD (held .default) c.value
    let validation : Validation α := ⟨held .validator, c.error⟩
    let visibility : Visibility := ⟨c.visible, held .advanced, held .group⟩
    let caption : Caption := ⟨held .shown, held .template⟩
    match c.kind with
    | .plain => .plain ⟨cell⟩
    | .monitored => .monitored ⟨cell, source, c.link, held .listeners⟩
    | .captioned => .captioned ⟨cell, source, c.link, held .listeners⟩ caption
    | .config =>
      .config ⟨cell, fallback, c.staging, validation, source, visibility, held .immediate, c.edited⟩
    | .full =>
      .full ⟨cell, fallback, c.staging, validation, ⟨c.entries, c.cursor, held .capacity⟩, source,
        visibility, caption, c.hooks, held .immediate, c.edited, c.link, held .listeners⟩
  hints := ⟨held .kind, held .range, held .speed, held .options⟩
  widget := Prod.fst (held .widget)
  drawn := Prod.snd (held .widget)
  connections := c.connections

theorem Member.assemble_holding (m : Member α) : assemble m.core m.holding = m := by
  obtain ⟨type, body, hints, widget, drawn, connections⟩ := m
  cases body <;> rfl

/-- A member is what it holds under the topics, and what no setting is about. -/
theorem Member.ext_of_holding {m m' : Member α} (core : m.core = m'.core)
    (holding : ∀ t, m.holding t = m'.holding t) : m = m' := by
  rw [← m.assemble_holding, ← m'.assemble_holding, core, funext holding]

namespace Setting

def topic : Setting α → Topic
  | name _ => .name
  | tooltip _ => .tooltip
  | mode _ => .mode
  | validator _ => .validator
  | default _ => .default
  | template _ => .template
  | shown _ => .shown
  | advanced => .advanced
  | group _ => .group
  | immediate _ => .immediate
  | capacity _ => .capacity
  | kind _ => .kind
  | range .. => .range
  | speed _ => .speed
  | options _ => .options
  | widget _ => .widget
  | onChange _ => .listeners

/-- What a setting makes of what was held under its topic. -/
def put : (s : Setting α) → s.topic.Holding α → s.topic.Holding α
  | name s, _ | tooltip s, _ | group s, _ => s
  | mode e, _ => e
  | validator rule, _ => some rule
  | default v, _ => some v
  | template s, _ => if s.isEmpty then none else some s
  | shown b, _ | immediate b, _ => b
  | advanced, _ => true
  | capacity n, _ => (max n 1 : Nat)
  | kind k, _ => k
  | range low high, _ => some (low, high)
  | speed bits, _ => some bits
  | options ss, _ => ss
  | widget w, _ => (some w, 0)
  | onChange listener, (s : Signal Listener) => (s.connect ⟨listener, .built, none⟩).1

/-- What a setting is not about it leaves alone, in every kind. -/
theorem holding_configure_of_ne (s : Setting α) (m : Member α) {t : Topic} (other : t ≠ s.topic) :
    (s.configure m).holding t = m.holding t := by
  obtain ⟨type, body, hints, widget, drawn, connections⟩ := m
  cases body <;> cases s <;> cases t <;> first | rfl | exact absurd rfl other

/-- A setting that the kind has use for puts in what it says. -/
theorem holding_configure_self (s : Setting α) (m : Member α)
    (suits : s.topic.suits m.body.kind = true) :
    (s.configure m).holding s.topic = s.put (m.holding s.topic) := by
  obtain ⟨type, body, hints, widget, drawn, connections⟩ := m
  cases body <;> cases s <;> first | rfl | cases suits

theorem configure_of_unsuited (s : Setting α) (m : Member α)
    (unsuited : s.topic.suits m.body.kind = false) : s.configure m = m := by
  obtain ⟨type, body, hints, widget, drawn, connections⟩ := m
  cases body <;> cases s <;> first | rfl | cases unsuited

/-- No setting reaches the value, its marks or its history. -/
theorem core_configure (s : Setting α) {m : Member α} (fresh : m.core.entries.length ≤ 1) :
    (s.configure m).core = m.core := by
  obtain ⟨type, body, hints, widget, drawn, connections⟩ := m
  cases s
  case capacity n =>
    cases body
    case full f =>
      -- The capacity is at least one, so the only entry stays.
      have room : f.history.setCapacity n = { f.history with capacity := max n 1 } := by
        have one : f.history.entries.length ≤ 1 := fresh
        have none : f.history.entries.length - max n 1 = 0 := by omega
        simp only [History.setCapacity, History.evict, none, List.drop_zero, Nat.sub_zero]
      simp only [configure, mapBody, Body.setCapacity, Full.setCapacity, room]
      rfl
    all_goals rfl
  all_goals cases body <;> rfl

def putAt (s : Setting α) (t : Topic) (held : t.Holding α) : t.Holding α :=
  if own : s.topic = t then own ▸ s.put (own ▸ held) else held

theorem putAt_self (s : Setting α) (held : s.topic.Holding α) : s.putAt s.topic held = s.put held := by
  rw [putAt, dif_pos rfl]

theorem putAt_of_ne {s : Setting α} {t : Topic} (other : s.topic ≠ t) (held : t.Holding α) :
    s.putAt t held = held := by
  rw [putAt, dif_neg other]

/-- Only a listener is added to what was there. -/
theorem putAt_replaces {s : Setting α} {t : Topic} (own : s.topic = t) (replaces : t ≠ .listeners)
    (held held' : t.Holding α) : s.putAt t held = s.putAt t held' := by
  subst own
  rw [putAt_self, putAt_self]
  cases s
  case onChange => exact absurd rfl replaces
  all_goals rfl

theorem holding_configure (s : Setting α) (m : Member α) (t : Topic) :
    (s.configure m).holding t = if t.suits m.body.kind then s.putAt t (m.holding t) else m.holding t := by
  by_cases own : s.topic = t
  · subst own
    split
    · rename_i suits
      rw [holding_configure_self s m suits, putAt_self]
    · rename_i unsuited
      rw [configure_of_unsuited s m (by simpa using unsuited)]
  · rw [putAt_of_ne own, ite_self]
    exact holding_configure_of_ne s m (Ne.symm own)

end Setting

open Setting (configureAll)

namespace Topic

variable {t : Topic}

def after (t : Topic) (chain : List (Setting α)) (held : t.Holding α) : t.Holding α :=
  chain.foldl (fun held s => s.putAt t held) held

/-- The settings of a chain that decide on a topic: the last one that is about it, and all listeners. -/
def deciding (t : Topic) (chain : List (Setting α)) : List (Setting α) :=
  let own := chain.filter fun s => s.topic = t
  if t = .listeners then own else own.getLast?.toList

theorem after_filter (chain : List (Setting α)) (held : t.Holding α) :
    t.after (chain.filter fun s => s.topic = t) held = t.after chain held := by
  induction chain generalizing held with
  | nil => rfl
  | cons s chain ih =>
    by_cases own : s.topic = t
    · rw [List.filter_cons_of_pos (by simpa using own)]
      exact ih (s.putAt t held)
    · rw [List.filter_cons_of_neg (by simpa using own), ih held]
      simp only [after, List.foldl_cons, Setting.putAt_of_ne own]

/-- Settings that are overridden make no difference. -/
theorem after_deciding (chain : List (Setting α)) (held : t.Holding α) :
    t.after (t.deciding chain) held = t.after chain held := by
  rw [← after_filter chain held, deciding]
  split
  · rfl
  · rename_i replaces
    have own : ∀ s ∈ chain.filter fun s => s.topic = t, s.topic = t := by
      intro s hs
      simpa using (List.mem_filter.mp hs).2
    rcases List.eq_nil_or_concat' (chain.filter fun s => s.topic = t) with none | ⟨before, last, some⟩
    · rw [none]
      rfl
    · rw [some, List.getLast?_concat]
      simp only [after, List.foldl_append]
      exact Setting.putAt_replaces (own last (by simp [some])) replaces ..

/-- Settings of different topics can be swapped. -/
theorem deciding_swap {s s' : Setting α} (different : s.topic ≠ s'.topic)
    (before behind : List (Setting α)) :
    t.deciding (before ++ s :: s' :: behind) = t.deciding (before ++ s' :: s :: behind) := by
  have swapped : (s :: s' :: behind).filter (fun s => s.topic = t) =
      (s' :: s :: behind).filter (fun s => s.topic = t) := by
    by_cases first : s.topic = t <;> by_cases second : s'.topic = t <;> simp_all
  simp only [deciding, List.filter_append, swapped]

/-- A later setting of a topic takes the place of an earlier one. -/
theorem deciding_overridden {s s' : Setting α} (same : s.topic = s'.topic)
    (replaces : s.topic ≠ .listeners) (before between behind : List (Setting α)) :
    t.deciding (before ++ s :: between ++ s' :: behind) =
      t.deciding (before ++ between ++ s' :: behind) := by
  by_cases own : s.topic = t
  · subst own
    have last : (s' :: behind).filter (fun x => x.topic = s.topic) ≠ [] := by simp [same]
    simp only [deciding, if_neg replaces, List.filter_append, List.getLast?_append_of_ne_nil _ last]
  · have dropped : (s :: between).filter (fun x => x.topic = t) = between.filter (fun x => x.topic = t) :=
      List.filter_cons_of_neg (by simpa using own)
    simp only [deciding, List.filter_append, dropped]

end Topic

namespace Setting

theorem configureAll_cons (s : Setting α) (chain : List (Setting α)) (m : Member α) :
    configureAll (s :: chain) m = configureAll chain (s.configure m) := rfl

theorem configureAll_append (chain chain' : List (Setting α)) (m : Member α) :
    configureAll (chain ++ chain') m = configureAll chain' (configureAll chain m) := List.foldl_append

theorem core_configureAll (chain : List (Setting α)) {m : Member α} (fresh : m.core.entries.length ≤ 1) :
    (configureAll chain m).core = m.core := by
  induction chain generalizing m with
  | nil => rfl
  | cons s chain ih =>
    have kept := core_configure s fresh
    rw [configureAll_cons, ih (kept ▸ fresh), kept]

/-- Topic by topic, a chain does what its settings of that topic do. -/
theorem holding_configureAll (chain : List (Setting α)) (m : Member α) (t : Topic) :
    (configureAll chain m).holding t =
      if t.suits m.body.kind then t.after chain (m.holding t) else m.holding t := by
  induction chain generalizing m with
  | nil => exact (ite_self _).symm
  | cons s chain ih =>
    have kind : (s.configure m).body.kind = m.body.kind := congrArg Concrete.kind (configure_concrete s m)
    rw [configureAll_cons, ih, kind, holding_configure]
    split <;> rfl

/-- Chains in which the same settings decide come to the same. -/
theorem configureAll_congr {chain chain' : List (Setting α)} {m : Member α}
    (fresh : m.core.entries.length ≤ 1) (same : ∀ t : Topic, t.deciding chain = t.deciding chain') :
    configureAll chain m = configureAll chain' m := by
  refine Member.ext_of_holding ?_ fun t => ?_
  · rw [core_configureAll chain fresh, core_configureAll chain' fresh]
  · rw [holding_configureAll, holding_configureAll, ← Topic.after_deciding chain, same t,
      Topic.after_deciding]

def listener? : Setting α → Option Listener
  | onChange listener => some ⟨listener, .built, none⟩
  | _ => none

theorem putAt_listeners (s : Setting α) (signal : Signal Listener) :
    s.putAt .listeners signal = s.listener?.elim signal fun l => (signal.connect l).1 := by
  cases s <;> rfl

theorem slots_after (chain : List (Setting α)) (signal : Signal Listener) :
    Signal.slots (Topic.listeners.after chain signal) = signal.slots ++ chain.filterMap listener? := by
  induction chain generalizing signal with
  | nil => exact (List.append_nil _).symm
  | cons s chain ih =>
    have rest : Signal.slots (Topic.listeners.after (s :: chain) signal) =
        Signal.slots (s.putAt .listeners signal) ++ chain.filterMap listener? := ih _
    rw [rest, putAt_listeners]
    cases h : s.listener? with
    | none => simp [h]
    | some l => simp [h, Signal.slots_connect]

/-- The listeners of a chain are connected in its order, behind those that are there. -/
theorem slots_configureAll (chain : List (Setting α)) {m : Member α} (shared : m.body.shared = true) :
    (configureAll chain m).body.listeners.slots = m.body.listeners.slots ++ chain.filterMap listener? := by
  have suits : Topic.listeners.suits m.body.kind = true := by
    cases hb : m.body <;> rw [hb] at shared <;> first | rfl | cases shared
  have heard : (configureAll chain m).body.listeners = Topic.listeners.after chain m.body.listeners := by
    have held := holding_configureAll chain m .listeners
    rwa [if_pos suits] at held
  rw [heard, slots_after]

end Setting

theorem Body.isChanged_eq (b : Body α) : b.isChanged = (b.cell.changed || b.edited) := by
  cases b
  case config | full => rfl
  all_goals exact (Bool.or_false _).symm

/-- What a chain of settings makes of a member: it stays as it was in all that no setting is about, and
holds what the last settings say under the topics that its kind has use for. -/
structure Member.Built (m : Member α) (chain : List (Setting α)) (built : Member α) : Prop where
  core : built.core = m.core
  changed : built.body.isChanged = m.body.isChanged
  holding (t : Topic) : built.holding t =
    if t.suits m.body.kind then t.after (t.deciding chain) (m.holding t) else m.holding t
  listeners : m.body.shared = true →
    built.body.listeners.slots = m.body.listeners.slots ++ chain.filterMap Setting.listener?
  /-- A setting that the kind has no use for makes no difference. -/
  unsuited {before behind : List (Setting α)} {s : Setting α} : chain = before ++ s :: behind →
    s.topic.suits m.body.kind = false → built = configureAll (before ++ behind) m
  swap {before behind : List (Setting α)} {s s' : Setting α} : chain = before ++ s :: s' :: behind →
    s.topic ≠ s'.topic → built = configureAll (before ++ s' :: s :: behind) m
  /-- A setting makes no difference when another one follows that replaces it. -/
  last {before between behind : List (Setting α)} {s s' : Setting α} :
    chain = before ++ s :: between ++ s' :: behind → s.topic = s'.topic → s.topic ≠ .listeners →
      built = configureAll (before ++ between ++ s' :: behind) m

theorem Member.built_configureAll {m : Member α} (fresh : m.core.entries.length ≤ 1)
    (chain : List (Setting α)) : m.Built chain (configureAll chain m) := by
  have core := Setting.core_configureAll chain fresh
  refine ⟨core, ?_, fun t => ?_, Setting.slots_configureAll chain, ?_, ?_, ?_⟩
  · rw [Body.isChanged_eq, Body.isChanged_eq]
    exact congrArg (fun c => c.changed || c.edited) core
  · rw [Setting.holding_configureAll, Topic.after_deciding]
  · rintro before behind s rfl unsuited
    have kind : (configureAll before m).body.kind = m.body.kind :=
      congrArg Concrete.kind (Setting.configureAll_concrete before m)
    rw [Setting.configureAll_append, Setting.configureAll_cons,
      Setting.configure_of_unsuited s _ (kind ▸ unsuited), ← Setting.configureAll_append]
  · rintro before behind s s' rfl different
    exact Setting.configureAll_congr fresh fun t => Topic.deciding_swap different before behind
  · rintro before between behind s s' rfl same replaces
    exact Setting.configureAll_congr fresh fun t =>
      Topic.deciding_overridden same replaces before between behind

theorem Body.history_mapLink (g : Link → Link) (b : Body α) : (b.mapLink g).history = b.history := by
  cases b <;> rfl

theorem Body.entries_of_kind {b : Body α} (other : b.kind ≠ .full) : b.history.entries = [] := by
  cases b
  case full => exact absurd rfl other
  all_goals rfl

theorem Body.entries_new (kind : Kind) (v : α) : (Body.new kind v).history.entries.length ≤ 1 := by
  cases kind
  case full => exact Nat.le_refl 1
  all_goals exact Nat.zero_le 1

namespace World

variable [BEq α]

def make (run : Runner α) (label : String) (r : Recipe α) (w : World α) : World α :=
  let linked := (w.add label r.base r.outside).mapBody w.nextKey (Body.mapLink fun _ => r.link w.nextKey)
  if r.pulls then (linked.pull run w.nextKey).1 else linked

/-- Setting up is the last thing that is done to a new member. -/
theorem create_eq_make (run : Runner α) (label : String) (r : Recipe α) (w : World α) :
    w.create run label r = (w.make run label r).modify w.nextKey (configureAll r.settings) := rfl

/-- A member that was just made has at most its first value in its history. -/
theorem fresh_made (depth : Nat) (label : String) (r : Recipe α) (w : World α) :
    ∃ m, (w.make (react depth) label r).member? w.nextKey = some m ∧
      m.body.kind = r.kind ∧ m.core.entries.length ≤ 1 := by
  let linked := (w.add label r.base r.outside).mapBody w.nextKey (Body.mapLink fun _ => r.link w.nextKey)
  have newest : w.Newest linked { r.base with body := r.base.body.mapLink fun _ => r.link w.nextKey }
      r.outside := (newest_add w label r.base r.outside).modify _
  have kind : (r.base.body.mapLink fun _ => r.link w.nextKey).kind = r.kind := by simp [Recipe.base]
  show ∃ m, (if r.pulls then (linked.pull (react depth) w.nextKey).1 else linked).member? w.nextKey =
    some m ∧ _
  by_cases pulls : r.pulls = true
  · have lasts := (lasting_pull depth linked w.nextKey).members w.nextKey
    rw [newest.here, Option.map_some, Option.map_eq_some_iff] at lasts
    obtain ⟨m, hm, concrete⟩ := lasts
    have kind : m.body.kind = r.kind := (congrArg Concrete.kind concrete).trans kind
    have other : r.kind ≠ .full := by simpa using (Bool.and_eq_true_iff.mp pulls).2
    have none : m.body.history.entries.length ≤ 1 := by
      rw [Body.entries_of_kind (kind ▸ other)]
      exact Nat.zero_le 1
    rw [if_pos pulls]
    exact ⟨m, hm, kind, none⟩
  · have one : (r.base.body.mapLink fun _ => r.link w.nextKey).history.entries.length ≤ 1 := by
      rw [Body.history_mapLink]
      exact Body.entries_new r.kind r.initial
    rw [if_neg pulls]
    exact ⟨_, newest.here, kind, one⟩

/-- **Chains only configure.** Setting up a member that was just made replaces it in its place and does
nothing else in the world: nobody is called, and nothing is read or written outside. Whatever the chain,
the member stays what it was but for what the settings that decide put under their topics. -/
theorem chains_only_configure (depth : Nat) (label : String) (r : Recipe α) (w : World α) :
    let made := w.make (react depth) label r
    ∃ m, made.member? w.nextKey = some m ∧ m.body.kind = r.kind ∧
      w.create (react depth) label r = made.setMember w.nextKey (configureAll r.settings m) ∧
      (w.create (react depth) label r).log = made.log ∧
      m.Built r.settings (configureAll r.settings m) := by
  intro made
  obtain ⟨m, hm, kind, fresh⟩ := fresh_made depth label r w
  have set : w.create (react depth) label r = made.setMember w.nextKey (configureAll r.settings m) := by
    rw [create_eq_make, modify_of_member? hm]
  refine ⟨m, hm, kind, set, ?_, Member.built_configureAll fresh r.settings⟩
  rw [set]
  rfl

end World

end BoundValues
