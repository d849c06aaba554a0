import BoundValues.Proofs.OrderedMap
import BoundValues.Proofs.Unfolding
import BoundValues.Proofs.Views

namespace BoundValues

structure Stamp (α : Type) where
  value : α
  source : Source
  changed : Bool

inductive Sighting
  /-- Its value was replaced by a different one. There is an origin if it was written or pulled. -/
  | committed (origin : Option Source)
  | cleared
deriving DecidableEq, Repr

namespace Sighting

/-- Where the latest commit came from; the value is the default one before any commit. The sightings
stand in a list, the latest first. -/
def origin : List Sighting → Option Source
  | [] => some .default
  | committed origin :: _ => origin
  | cleared :: earlier => origin earlier

def changed : List Sighting → Bool
  | committed _ :: _ => true
  | cleared :: _ | [] => false

end Sighting

variable {α : Type}

def Edit.origin? : Edit α → Option Source
  | .set _ => some .user
  | _ => none

/-- Where a value comes from that a job commits to a member: what the member pulls comes from outside, and
a write or an edit at its widget is the user's. No other job commits to a monitored value. -/
def Job.origin? (key : Nat) : Job α → Option Source
  | .take k _ => if k = key then some .external else none
  | .write k _ | .finish k _ _ => if k = key then some .user else none
  | .command k (.edit e) => if k = key then e.origin? else none
  | _ => none

def Job.clears (key : Nat) : Job α → Bool
  | .command k .clearChanged => k == key
  | _ => false

namespace Moment

variable [BEq α]

/-- What is seen of a member in the happening that follows a moment. -/
def sighting? (key : Nat) (s : Moment α) : Option Sighting :=
  match s.agenda with
  | [] => none
  | (_, job) :: _ =>
    match s.world.value? key, s.next.world.value? key with
    | some old, some new =>
      if old != new then some (.committed (job.origin? key))
      else if job.clears key then some .cleared
      else none
    | _, _ => none

def seen (key : Nat) (s : Moment α) : Nat → List Sighting
  | 0 => []
  | n + 1 => ((s.after n).sighting? key).toList ++ s.seen key n

end Moment

namespace Body

def stamp? : Body α → Option (Stamp α)
  | monitored m | captioned m _ => some ⟨m.cell.value, m.source, m.cell.changed⟩
  | _ => none

variable {b : Body α} {g : Stamp α}

theorem value_of_stamp? (h : b.stamp? = some g) : b.value = g.value := by
  cases b <;> cases h <;> rfl

theorem source?_of_stamp? (h : b.stamp? = some g) : b.source? = some g.source := by
  cases b <;> cases h <;> rfl

theorem isChanged_of_stamp? (h : b.stamp? = some g) : b.isChanged = g.changed := by
  cases b <;> cases h <;> rfl

theorem shared_of_stamp? (h : b.stamp? = some g) : b.shared = true := by
  cases b <;> cases h <;> rfl

@[simp] theorem stamp?_mapLink (f : Link → Link) (b : Body α) : (b.mapLink f).stamp? = b.stamp? := by
  cases b <;> rfl

@[simp] theorem stamp?_mapListeners (s : Signal Listener → Signal Listener) (b : Body α) :
    (b.mapListeners s).stamp? = b.stamp? := by
  cases b <;> rfl

theorem stamp?_clearChanged (b : Body α) :
    b.clearChanged.stamp? = b.stamp?.map fun g => { g with changed := false } := by
  cases b <;> rfl

end Body

/-- What a single happening makes of a stamp: nothing, or a different value is committed, attributed to
an origin. -/
inductive Stamp.Follows (origin : Option Source) (g : Stamp α) : Stamp α → Prop
  | same : Follows origin g g
  | committed {v : α} {source : Source} (attributed : origin = some source)
      (different : v ≠ g.value) : Follows origin g ⟨v, source, true⟩

theorem Stamp.Follows.eq_of_none {g g' : Stamp α} (h : g.Follows none g') : g' = g := by
  cases h with
  | same => rfl
  | committed attributed => cases attributed

def Body.Stamps (origin : Option Source) (b b' : Body α) : Prop :=
  ∀ g, b.stamp? = some g → ∃ g', b'.stamp? = some g' ∧ g.Follows origin g'

section Operations

variable [BEq α] [LawfulBEq α]

theorem Monitored.commitFrom_stamp (m : Monitored α) (v : α) (source : Source) :
    (Body.monitored m).Stamps (some source) (.monitored (m.commitFrom v source).state) := by
  intro g hg
  cases hg
  unfold Monitored.commitFrom
  split
  · exact ⟨_, rfl, .same⟩
  · rename_i different
    have new : v ≠ m.cell.value := fun same => different (by simp [same])
    refine ⟨⟨v, source, true⟩, ?_, .committed rfl new⟩
    simp [Body.stamp?, Cell.assign, new]

theorem Body.setShared_stamps (b : Body α) (v : α) :
    b.Stamps (some .user) (b.setShared v).state := by
  cases b with
  | monitored m => exact m.commitFrom_stamp v .user
  | captioned m caption => exact m.commitFrom_stamp v .user
  | _ => exact nofun

theorem Body.commitPulled_stamps (b : Body α) (v : α) :
    b.Stamps (some .external) (b.commitPulled v).state := by
  cases b with
  | monitored m => exact m.commitFrom_stamp v .external
  | captioned m caption => exact m.commitFrom_stamp v .external
  | _ => exact nofun

/-- An edit of a widget is the user's. -/
theorem Body.edit_stamps (b before : Body α) (r : Response) (v : α) :
    b.Stamps (some .user) (Body.edit before r v b).state := by
  have edited : ∀ m : Monitored α, (Body.monitored m).Stamps (some .user)
      (.monitored (m.edit before.cell.mode r v).state) := by
    intro m
    unfold Monitored.edit
    split
    · exact m.commitFrom_stamp v .user
    · exact fun g hg => ⟨g, hg, .same⟩
  cases b with
  | monitored m => exact edited m
  | captioned m caption => exact edited m
  | _ => exact nofun

/-- A monitored value knows one edit, and that is the user's. -/
theorem Edit.step_stamps {type : ValueType α} {b : Body α} {e : Edit α}
    {s : Step (Body α) α (Reply α)} (known : e.step type b = some s) :
    b.Stamps e.origin? s.state := by
  have set_only : ∀ {wrap : Monitored α → Body α} {m : Monitored α},
      e.onMonitored wrap m = some s →
      ∃ v, e = .set v ∧ s.state = wrap (m.commitFrom v .user).state := by
    intro wrap m h
    cases e <;> simp only [Edit.onMonitored, Option.some.injEq, reduceCtorEq] at h
    subst h
    exact ⟨_, rfl, rfl⟩
  cases b with
  | monitored m =>
    obtain ⟨v, rfl, hs⟩ := set_only known
    rw [hs]
    exact m.commitFrom_stamp v .user
  | captioned m caption =>
    obtain ⟨v, rfl, hs⟩ := set_only known
    rw [hs]
    exact m.commitFrom_stamp v .user
  | _ =>
    intro g hg
    cases hg

omit [LawfulBEq α] [BEq α] in
/-- Operations that refit a body commit nothing. -/
theorem Body.Refits.stamp? {b b' : Body α} (h : b.Refits b') {g : Stamp α}
    (hg : b.stamp? = some g) : b'.stamp? = some g := by
  cases h with
  | same => exact hg
  | captioned m caption caption' => exact hg
  | config => cases hg
  | full => cases hg

/-- What is asked of a monitored value through a capability leaves its stamp alone. -/
theorem Call.step_stamps (m : Member α) (c : Call) : m.body.Stamps none (c.step m).state := by
  intro g hg
  refine ⟨g, ?_, .same⟩
  refine Call.step_along (R := fun b => b.stamp? = some g) ?_ ?_
  · intro e s stands known
    have foreign : e.origin? = none := by
      cases c <;> cases stands <;> rfl
    obtain ⟨g', hg', follows⟩ := Edit.step_stamps known g hg
    rw [foreign] at follows
    rw [hg', follows.eq_of_none]
  · intro b refits
    exact refits.stamp? hg

end Operations

theorem Setting.configureAll_stamp (settings : List (Setting α)) (m : Member α) :
    (Setting.configureAll settings m).body.stamp? = m.body.stamp? := by
  induction settings generalizing m with
  | nil => rfl
  | cons s settings ih =>
    refine (ih (s.configure m)).trans ?_
    cases s <;> simp only [configure, mapBody, mapHints]
    case onChange listener => exact Body.stamp?_mapListeners _ m.body
    all_goals cases m.body <;> rfl

namespace World

def stamp? (w : World α) (key : Nat) : Option (Stamp α) := (w.body? key).bind Body.stamp?

section Lookup

variable {w : World α} {key : Nat} {m : Member α} {g : Stamp α}

theorem stamp?_of_member? (hm : w.member? key = some m) : w.stamp? key = m.body.stamp? := by
  rw [stamp?, body?_of_member? hm, Option.bind_some]

theorem member?_of_stamp? (h : w.stamp? key = some g) :
    ∃ m, w.member? key = some m ∧ m.body.stamp? = some g := by
  obtain ⟨b, hb, hg⟩ := Option.bind_eq_some_iff.mp h
  obtain ⟨m, hm, rfl⟩ := member?_of_body? hb
  exact ⟨m, hm, hg⟩

theorem value?_of_stamp? (h : w.stamp? key = some g) : w.value? key = some g.value := by
  obtain ⟨m, hm, hg⟩ := member?_of_stamp? h
  rw [value?_of_member? hm, Body.value_of_stamp? hg]

@[simp] theorem stamp?_arm (w : World α) (k : Nat) (who : String) (acts : List (Act α)) (key : Nat) :
    (w.arm k who acts).1.stamp? key = w.stamp? key := rfl

theorem stamp?_modify (w : World α) (k : Nat) (f : Member α → Member α) (key : Nat)
    (kept : ∀ m, (f m).body.stamp? = m.body.stamp?) :
    (w.modify k f).stamp? key = w.stamp? key := by
  by_cases he : key = k
  · subst he
    simp only [stamp?, body?, member?_modify_self]
    cases w.member? key with
    | none => rfl
    | some m => exact kept m
  · simp only [stamp?, body?, member?_modify_of_ne he]

theorem stamp?_mapBody (w : World α) (k : Nat) (f : Body α → Body α) (key : Nat)
    (kept : ∀ b, (f b).stamp? = b.stamp?) : (w.mapBody k f).stamp? key = w.stamp? key :=
  stamp?_modify w k _ key fun m => kept m.body

@[simp] theorem stamp?_mapListeners (w : World α) (k : Nat)
    (f : Signal Listener → Signal Listener) (key : Nat) :
    (w.mapBody k (Body.mapListeners f)).stamp? key = w.stamp? key :=
  stamp?_mapBody w k _ key (Body.stamp?_mapListeners f)

@[simp] theorem stamp?_mapLink (w : World α) (k : Nat) (f : Link → Link) (key : Nat) :
    (w.mapBody k (Body.mapLink f)).stamp? key = w.stamp? key :=
  stamp?_mapBody w k _ key (Body.stamp?_mapLink f)

@[simp] theorem stamp?_listen (w : World α) (k : Nat) (name : String) (form : ListenerForm)
    (acts : List (Act α)) (key : Nat) : (w.listen k name form acts).stamp? key = w.stamp? key := by
  refine (stamp?_modify _ k _ key fun m => ?_).trans (stamp?_arm w k name acts key)
  simp only [Member.connect, Body.stamp?_mapListeners]

@[simp] theorem stamp?_unlisten (w : World α) (k : Nat) (m : Member α) (name : String) (key : Nat) :
    (w.unlisten k m name).1.stamp? key = w.stamp? key := by
  unfold unlisten
  split
  · rfl
  · exact stamp?_mapListeners ..

theorem stamp?_takeAct {script i : Nat} {s : Script α} {a : Act α} {w' : World α}
    (h : w.takeAct script i = some (s, a, w')) : w'.stamp? key = w.stamp? key := by
  obtain ⟨-, -, s', -, -, rfl⟩ := takeAct_spends h
  rfl

variable [BEq α]

/-- The body is in its place before anything is set off, so the stamp has followed by then. -/
theorem enact_stamp {ρ : Type} {s : Step (Body α) α ρ} {origin : Option Source} {k : Nat}
    (behind : List (Job α)) (hm : w.member? k = some m) (step : m.body.Stamps origin s.state)
    (h : w.stamp? key = some g) :
    ∃ g', (w.enact k s behind).1.stamp? key = some g' ∧
      g.Follows (if k = key then origin else none) g' := by
  have told : (w.enact k s behind).1.stamp? key = (w.mapBody k fun _ => s.state).stamp? key := by
    unfold enact
    cases s.change <;> rfl
  rw [told, mapBody_of_member? hm]
  by_cases he : key = k
  · subst he
    rw [stamp?_of_member? hm] at h
    rw [stamp?_of_member? (member?_setMember_self hm _), if_pos rfl]
    exact step g h
  · refine ⟨g, ?_, .same⟩
    simpa only [stamp?, body?, member?_setMember_of_ne he] using h

theorem enactPushed_stamp {ρ : Type} {s : Step (Body α) α ρ} {origin : Option Source} {k : Nat}
    (hm : w.member? k = some m) (step : m.body.Stamps origin s.state)
    (h : w.stamp? key = some g) :
    ∃ g', (w.enactPushed k s).1.stamp? key = some g' ∧
      g.Follows (if k = key then origin else none) g' := by
  refine enact_stamp [.push k] ((member?_noteCheck ..).trans hm) step ?_
  simpa only [stamp?, body?, member?_noteCheck] using h

end Lookup

end World

def Job.Moves (key : Nat) (job : Job α) (g g' : Stamp α) : Prop :=
  if job.clears key then g' = { g with changed := false } else g.Follows (job.origin? key) g'

theorem Job.Moves.of_follows {key : Nat} {job : Job α} {g g' : Stamp α}
    (lasting : job.clears key = false) (h : g.Follows (job.origin? key) g') : job.Moves key g g' := by
  rw [Moves, lasting]
  exact h

/-- A single happening leads to a world where the stamp of a member has moved as it may. -/
def Job.Leads (key : Nat) (job : Job α) (g : Stamp α) (w : World α) : Prop :=
  ∃ g', w.stamp? key = some g' ∧ job.Moves key g g'

section Leading

variable {w w' : World α} {key : Nat} {job : Job α} {g : Stamp α}

theorem Job.leads_of_follows (lasting : job.clears key = false)
    (moved : ∃ g', w.stamp? key = some g' ∧ g.Follows (job.origin? key) g') : job.Leads key g w :=
  moved.imp fun _ ⟨hg', follows⟩ => ⟨hg', .of_follows lasting follows⟩

theorem Job.leads_of_stays (lasting : job.clears key = false) (h : w.stamp? key = some g)
    (stays : w'.stamp? key = w.stamp? key) : job.Leads key g w' :=
  leads_of_follows lasting ⟨g, stays.trans h, .same⟩

end Leading

namespace Job

open World

variable [BEq α] {run : Runner α} {w : World α} {key : Nat} {g : Stamp α}

theorem clearChanged_leads {k : Nat} {m : Member α} (hm : w.member? k = some m)
    (h : w.stamp? key = some g) :
    (command k .clearChanged).Leads key g (beginCommand run k m .clearChanged w).1 := by
  have cleared : (beginCommand run k m .clearChanged w).1 = w.mapBody k Body.clearChanged := by
    simp only [beginCommand, exec, hm]
  rw [cleared]
  by_cases own : key = k
  · subst own
    obtain ⟨m', hm', hg⟩ := member?_of_stamp? h
    refine ⟨{ g with changed := false }, ?_, by simp [Moves, clears]⟩
    rw [mapBody, stamp?, body?, member?_modify_self, hm']
    simp [Body.stamp?_clearChanged, hg]
  · refine ⟨g, ?_, .of_follows (by simp [clears, Ne.symm own]) .same⟩
    simpa only [mapBody, stamp?, body?, member?_modify_of_ne own] using h

variable [LawfulBEq α]

theorem beginCommand_leads {k : Nat} {m : Member α} (c : Command α)
    (hm : w.member? k = some m) (h : w.stamp? key = some g) :
    (command k c).Leads key g (beginCommand run k m c w).1 := by
  by_cases clearing : c = .clearChanged
  · subst clearing
    exact clearChanged_leads hm h
  have lasting : (command k c).clears key = false := by
    cases c <;> simp_all [clears]
  have kept {w' : World α} (stays : w'.stamp? key = w.stamp? key) :
      (command k c).Leads key g w' := leads_of_stays lasting h stays
  cases c
  case clearChanged => exact absurd rfl clearing
  case draw label =>
    simp only [beginCommand]
    split
    · exact kept rfl
    · exact kept (stamp?_modify _ k _ key fun _ => rfl)
  case call c =>
    simp only [beginCommand]
    split
    · split
      · exact kept rfl
      · exact kept rfl
      · obtain ⟨g', hg', follows⟩ := enactPushed_stamp hm (Call.step_stamps m _) h
        rw [ite_self] at follows
        exact leads_of_follows lasting ⟨g', hg', follows⟩
    · exact kept rfl
  case edit e =>
    simp only [beginCommand]
    cases known : e.step m.type m.body with
    | none => exact kept rfl
    | some s => exact leads_of_follows lasting (enactPushed_stamp hm (Edit.step_stamps known) h)
  case refresh | setThroughHandle | pullThroughHandle => exact kept rfl
  case setName | setTooltip | setMode =>
    simp only [beginCommand, exec, hm]
    exact kept (stamp?_mapBody w k _ key fun b => by cases b <;> rfl)
  case setWidget widget =>
    simp only [beginCommand, exec, hm]
    exact kept (stamp?_modify _ k _ key fun m => rfl)
  case get | source | listen | unlisten | unlistenAll | bindGetter | bindSetter =>
    simp only [beginCommand, exec, hm]
    split
    · exact kept (by simp [execShared])
    · exact kept rfl
  case takeHandle name =>
    simp only [beginCommand, exec, hm]
    split <;> exact kept rfl
  all_goals
    simp only [beginCommand, exec, hm]
    exact kept rfl

theorem command_leads (run : Runner α) (k : Nat) (c : Command α) (h : w.stamp? key = some g) :
    (command k c).Leads key g ((command k c).begin run w).1 := by
  simp only [begin]
  cases hm : w.member? k with
  | some m => exact beginCommand_leads c hm h
  | none =>
    have other : k ≠ key := by
      rintro rfl
      obtain ⟨m, hm', -⟩ := member?_of_stamp? h
      rw [hm] at hm'
      cases hm'
    exact leads_of_stays (by cases c <;> simp [clears, other]) h rfl

/-- A write commits at once; the rest of it is announcing and pushing. -/
theorem write_leads (run : Runner α) (k : Nat) (v : α) (h : w.stamp? key = some g) :
    (write k v).Leads key g ((write k v).begin run w).1 := by
  simp only [begin]
  cases hm : w.member? k with
  | none => exact leads_of_stays rfl h rfl
  | some m => exact leads_of_follows rfl (enactPushed_stamp hm (m.body.setShared_stamps v) h)

/-- A pull commits at the moment of taking over, after the getter has run. -/
theorem take_leads (run : Runner α) (k : Nat) (v : α) (h : w.stamp? key = some g) :
    (take k v).Leads key g ((take k v).begin run w).1 := by
  simp only [begin]
  cases hm : w.member? k with
  | none => exact leads_of_stays rfl h rfl
  | some m => exact leads_of_follows rfl (enact_stamp [] hm (m.body.commitPulled_stamps v) h)

/-- A draw takes the widget's edit when the widget and the hooks are done. -/
theorem finish_leads (run : Runner α) (k : Nat) (before : Body α) (s : Stroke α)
    (h : w.stamp? key = some g) :
    (finish k before s).Leads key g ((finish k before s).begin run w).1 := by
  simp only [begin]
  cases hm : w.member? k with
  | none => exact leads_of_stays rfl h rfl
  | some m => exact leads_of_follows rfl (enactPushed_stamp hm (m.body.edit_stamps before _ _) h)

section Staying

omit [LawfulBEq α]

variable (run : Runner α) (w : World α) (key : Nat)

theorem act_stays (s i : Nat) : ((act s i).begin run w).1.stamp? key = w.stamp? key := by
  simp only [begin]
  split
  · rfl
  · exact stamp?_takeAct ‹_›
  · exact stamp?_takeAct ‹_›

theorem handle_stays (name : String) (q : HandleRequest α) :
    ((handle name q).begin run w).1.stamp? key = w.stamp? key := by
  simp only [begin]
  split
  · rfl
  · split <;> rfl

theorem poke_stays (p : Poke α) : ((poke p).begin run w).1.stamp? key = w.stamp? key := by
  simp only [begin]
  split <;> rfl

theorem push_stays (k : Nat) : ((push k).begin run w).1.stamp? key = w.stamp? key := by
  simp only [begin]
  split
  · rfl
  · split <;> rfl

/-- A pull only reads at once. -/
theorem pull_stays (k : Nat) : ((pull k).begin run w).1.stamp? key = w.stamp? key := by
  simp only [begin]
  split
  · rfl
  · split
    · rfl
    · split
      · rfl
      · split <;> rfl

/-- The new member has a key of its own. -/
theorem enter_stays (label : String) (r : Recipe α) (h : w.stamp? key = some g) :
    ((enter label r).begin run w).1.stamp? key = w.stamp? key := by
  obtain ⟨m, hm, -⟩ := member?_of_stamp? h
  have entered := (newest_add w label r.base r.outside).modify
    fun m => { m with body := m.body.mapLink fun _ => r.link w.nextKey }
  simp only [begin, stamp?, body?, mapBody]
  rw [entered.others (lt_of_member? hm)]

end Staying

/-- What a happening does at once to a monitored value. -/
theorem begin_leads (run : Runner α) (job : Job α) (h : w.stamp? key = some g) :
    job.Leads key g (job.begin run w).1 := by
  cases job
  case script | note | call | hook => exact leads_of_stays rfl h rfl
  case act s i => exact leads_of_stays rfl h (act_stays run w key s i)
  case command k c => exact command_leads run k c h
  case handle name q => exact leads_of_stays rfl h (handle_stays run w key name q)
  case poke p => exact leads_of_stays rfl h (poke_stays run w key p)
  case write k v => exact write_leads run k v h
  case push k => exact leads_of_stays rfl h (push_stays run w key k)
  case pull k => exact leads_of_stays rfl h (pull_stays run w key k)
  case take k v => exact take_leads run k v h
  case finish k before s => exact finish_leads run k before s h
  case enter label r => exact leads_of_stays rfl h (enter_stays run w key label r h)
  case setUp k settings =>
    exact leads_of_stays rfl h (stamp?_modify w k _ key (Setting.configureAll_stamp settings))

end Job

structure Stamp.Describes (g : Stamp α) (seen : List Sighting) : Prop where
  origin : Sighting.origin seen = some g.source
  changed : Sighting.changed seen = g.changed

namespace Moment

open World

def opening (depth : Nat) (label : String) (r : Recipe α) (qs : List (Request α)) (w : World α) :
    Moment α :=
  ⟨w, (depth, .enter label r) :: qs.map fun q => (depth, q.job)⟩

variable [BEq α]

/-- A script does nothing itself, so that what happens at once is what the job in front does at once. -/
theorem next_world (depth : Nat) (job : Job α) (w : World α) (rest : List (Nat × Job α)) :
    (next ⟨w, (depth, job) :: rest⟩).world = (job.begin (react depth) w).1 := by
  simp only [next, Job.unfold]
  split <;> rfl

theorem after_succ (n : Nat) (s : Moment α) : s.after (n + 1) = (s.after n).next :=
  after_add n 1 s

/-- The member is made, the requests are served, and then there is nothing left to be done. -/
theorem opening_completes (depth : Nat) (label : String) (r : Recipe α) (qs : List (Request α))
    (w : World α) :
    ∃ n, (opening depth label r qs w).after n =
      ⟨(w.create (react depth) label r).serveAll depth qs, []⟩ := by
  obtain ⟨m, made⟩ := completes depth (.enter label r) w (qs.map fun q => (depth, q.job))
  obtain ⟨n, served⟩ := serves depth qs (w.create (react depth) label r)
  refine ⟨m + n, ?_⟩
  rw [after_add, opening, made]
  exact served

/-- Nothing is seen of a member that is not there yet. -/
theorem sighting?_of_absent {key : Nat} {s : Moment α} (absent : s.world.value? key = none) :
    s.sighting? key = none := by
  unfold sighting?
  split
  · rfl
  · simp [absent]

variable [LawfulBEq α]

/-- Whatever happens next, the value goes on to say what was seen of it. -/
theorem next_describes {key : Nat} {s : Moment α} {g : Stamp α} {seen : List Sighting}
    (here : s.world.stamp? key = some g) (h : g.Describes seen) :
    ∃ g', s.next.world.stamp? key = some g' ∧
      g'.Describes ((s.sighting? key).toList ++ seen) := by
  rcases s with ⟨w, _ | ⟨⟨depth, job⟩, rest⟩⟩
  · exact ⟨g, here, h⟩
  · obtain ⟨g', here', moves⟩ := job.begin_leads (react depth) here
    have now : (next ⟨w, (depth, job) :: rest⟩).world.stamp? key = some g' := by
      rw [next_world]
      exact here'
    refine ⟨g', now, ?_⟩
    simp only [sighting?, value?_of_stamp? here, value?_of_stamp? now]
    unfold Job.Moves at moves
    by_cases clears : job.clears key = true
    · rw [if_pos clears] at moves
      subst moves
      simp only [bne_self_eq_false, Bool.false_eq_true, if_false, clears, if_true]
      exact ⟨h.origin, rfl⟩
    · rw [if_neg clears] at moves
      cases moves with
      | same =>
        simp only [bne_self_eq_false, Bool.false_eq_true, if_false, clears]
        exact h
      | committed attributed different =>
        simp only [bne_iff_ne.mpr (Ne.symm different), if_true, attributed]
        exact ⟨rfl, rfl⟩

/-- From the making of a monitored value on, at every moment, the value says what was seen of it. -/
theorem opening_describes {depth : Nat} {label : String} {r : Recipe α} {qs : List (Request α)}
    {w : World α} (kind : r.kind = .monitored ∨ r.kind = .captioned) (n : Nat) :
    ∃ g, ((opening depth label r qs w).after (n + 1)).world.stamp? w.nextKey = some g ∧
      g.Describes ((opening depth label r qs w).seen w.nextKey (n + 1)) := by
  induction n with
  | zero =>
    have entered := (newest_add w label r.base r.outside).modify
      fun m => { m with body := m.body.mapLink fun _ => r.link w.nextKey }
    have absent : w.value? w.nextKey = none := by
      simp [value?, body?, member?, nextKey]
    have unseen : (opening depth label r qs w).seen w.nextKey 1 = [] := by
      simp only [seen, after, List.append_nil]
      rw [sighting?_of_absent absent]
      rfl
    rw [unseen]
    refine ⟨⟨r.initial, .default, false⟩, ?_, rfl, rfl⟩
    have made : ((opening depth label r qs w).after 1).world = _ := next_world ..
    rw [made]
    refine (stamp?_of_member? entered.here).trans ?_
    rw [Body.stamp?_mapLink]
    rcases kind with kind | kind <;> simp only [Recipe.base, kind] <;> rfl
  | succ n ih =>
    obtain ⟨g, here, h⟩ := ih
    rw [after_succ]
    exact next_describes here h

end Moment

namespace World

variable [BEq α] {w : World α} {key : Nat} {g : Stamp α}

theorem exec_source_of_stamp? (h : w.stamp? key = some g) (run : Runner α) :
    w.exec run key .source = (w, .source g.source) := by
  obtain ⟨m, hm, hg⟩ := member?_of_stamp? h
  simp only [exec, hm, Body.shared_of_stamp? hg, if_true, execShared, Body.source?_of_stamp? hg,
    Option.elim_some]

theorem exec_isChanged_of_stamp? (h : w.stamp? key = some g) (run : Runner α) :
    w.exec run key .isChanged = (w, .flag g.changed) := by
  obtain ⟨m, hm, hg⟩ := member?_of_stamp? h
  simp only [exec, hm, Body.isChanged_of_stamp? hg]

/-- **The tags of a monitored value describe its commits.** A monitored value is made, linked or not, and
requests are served one after the other, whatever they set off. At every moment on the way, the source is
that of the commit that replaced the value last by a different one, and the default one before any, and the
value is changed exactly when there was such a commit since it was made or its flag was cleared. -/
theorem tags_describe_commits [LawfulBEq α] (w : World α) (depth : Nat) (label : String)
    {r : Recipe α} (kind : r.kind = .monitored ∨ r.kind = .captioned) (qs : List (Request α)) :
    let start := Moment.opening depth label r qs w
    (∃ n, start.after n = ⟨(w.create (react depth) label r).serveAll depth qs, []⟩) ∧
      ∀ n, let now := (start.after (n + 1)).world
        let seen := start.seen w.nextKey (n + 1)
        ∃ source, Sighting.origin seen = some source ∧
          ∀ run, now.exec run w.nextKey .source = (now, .source source) ∧
            now.exec run w.nextKey .isChanged = (now, .flag (Sighting.changed seen)) := by
  refine ⟨Moment.opening_completes depth label r qs w, fun n => ?_⟩
  obtain ⟨g, here, describes⟩ := Moment.opening_describes kind n
  refine ⟨g.source, describes.origin, fun run => ⟨exec_source_of_stamp? here run, ?_⟩⟩
  rw [describes.changed]
  exact exec_isChanged_of_stamp? here run

def reservoir : Recipe Nat :=
  { kind := .monitored, linked := true, type := ⟨"u64", fun _ n => toString n, String.toNat?⟩,
    initial := 0, outside := 5 }

def overflow : List (Request Nat) :=
  [.command 0 (.listen "valve" .pair [.command 1 .refresh]), .command 0 .clearChanged,
    .command 0 (.edit (.set 7))]

/-- The pull in the listener commits before the set that it answers has returned. -/
theorem tags_follow_pull_inside_set :
    let start := Moment.opening 2 "reservoir" reservoir overflow {}
    let tags n := (((start.after n).world.exec (react 2) 0 .source).2,
      ((start.after n).world.exec (react 2) 0 .isChanged).2)
    (start.after 18).agenda = [] ∧ tags 6 = (.source .external, .flag false) ∧
      tags 12 = (.source .user, .flag true) ∧ tags 18 = (.source .external, .flag true) := by
  intro start tags
  obtain ⟨-, tagged⟩ :=
    tags_describe_commits {} 2 "reservoir" (r := reservoir) (.inl rfl) overflow
  have told (n : Nat) {source : Source} {flag : Bool}
      (origin : Sighting.origin (start.seen 0 (n + 1)) = some source)
      (changed : Sighting.changed (start.seen 0 (n + 1)) = flag) :
      tags (n + 1) = (.source source, .flag flag) := by
    obtain ⟨source', origin', answers⟩ := tagged n
    obtain rfl : source = source' := Option.some.inj (origin.symm.trans origin')
    obtain ⟨asked, asked'⟩ := answers (react 2)
    rw [← changed]
    exact congrArg₂ Prod.mk (congrArg Prod.snd asked) (congrArg Prod.snd asked')
  refine ⟨by decide +kernel, told 5 ?_ ?_, told 11 ?_ ?_, told 17 ?_ ?_⟩
  all_goals decide +kernel

end World

end BoundValues
