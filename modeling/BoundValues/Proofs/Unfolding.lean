import BoundValues.Proofs.Course
import BoundValues.World.Create

namespace BoundValues

inductive Job (α : Type)
  | script (s : Nat)
  | act (s i : Nat)
  | command (key : Nat) (c : Command α)
  | handle (name : String) (q : HandleRequest α)
  | poke (p : Poke α)
  | write (key : Nat) (v : α)
  | push (key : Nat)
  | pull (key : Nat)
  /-- Takes over what a pull has read. -/
  | take (key : Nat) (v : α)
  | call (key : Nat) (change : Change α) (l : Listener)
  | hook (key : Nat) (occurrence : Occurrence) (hook : Hook)
  /-- Takes what a widget did after it was shown `before`. -/
  | finish (key : Nat) (before : Body α) (s : Stroke α)
  | note (e : Event α)
  | enter (label : String) (r : Recipe α)
  | setUp (key : Nat) (settings : List (Setting α))

def Request.job {α : Type} : Request α → Job α
  | .command key c => .command key c
  | .handle name q => .handle name q

/-- A world, and what is still to be done in it, each job with the depth that scripts may be nested to. -/
structure Moment (α : Type) where
  world : World α
  agenda : List (Nat × Job α)

variable {α : Type} [BEq α]

def Job.run (run : World.Runner α) (job : Job α) (w : World α) : World α :=
  match job with
  | .script s => run s w
  | .act s i => w.perform run s i
  | .command key c => (w.exec run key c).1
  | .handle name q => (w.execHandle run name q).1
  | .poke p => w.poke run p
  | .write key v => (w.setShared run key v).1
  | .push key => (w.push run key).1
  | .pull key => (w.pull run key).1
  | .take key v => (w.commitPulled run key v).1
  | .call key change l => w.call run key change l
  | .hook key occurrence h => (w.record (.hooked key occurrence h.name)).runScript run h.script
  | .finish key before s => (w.finishDraw run key before s).1
  | .note e => w.record e
  | .enter label r => w.create run label r
  | .setUp key settings => w.modify key (Setting.configureAll settings)

namespace World

def carry (run : Runner α) (tasks : List (Job α)) (w : World α) : World α :=
  tasks.foldl (fun w t => t.run run w) w

def callsFor (key : Nat) (change : Change α) (w : World α) : List (Job α) :=
  match (w.member? key).bind fun m => change.audience m.body.listeners with
  | some listeners => listeners.map (Job.call key change)
  | none => []

def enact {ρ : Type} (key : Nat) (s : Step (Body α) α ρ) (behind : List (Job α)) (w : World α) :
    World α × List (Job α) :=
  let w := w.mapBody key fun _ => s.state
  match s.change with
  | some change =>
    let w := w.record (.committed key change)
    (w, w.callsFor key change ++ behind)
  | none => (w, [])

def enactPushed {ρ : Type} (key : Nat) (s : Step (Body α) α ρ) (w : World α) :
    World α × List (Job α) :=
  (w.noteCheck key s.checked).enact key s [.push key]

end World

namespace Job

open World (Runner react)

def scripted (script : Option Nat) : List (Job α) := script.toList.map Job.script

def beginCommand (run : Runner α) (key : Nat) (m : Member α) (c : Command α) (w : World α) :
    World α × List (Job α) :=
  match c with
  | .draw label => match m.widget with
    | none => (w, [])
    | some widget =>
      let picture := m.picture label
      let stroke := widget m.drawn picture
      ((w.record (.drew key picture)).modify key fun m => { m with drawn := m.drawn + 1 },
        stroke.pokes.map Job.poke ++
          (m.body.hooks.due stroke.response.hovered stroke.response.menu).map
            (fun (occurrence, h) => Job.hook key occurrence h) ++
          [.finish key m.body stroke])
  | .call c =>
    if m.interface.answers c.capability then
      match c with
      | .pull => (w, [.pull key])
      | .push => (w, [.push key])
      | c => w.enactPushed key (c.step m)
    else (w, [])
  | .edit e => match e.step m.type m.body with
    | some s => w.enactPushed key s
    | none => (w, [])
  | .refresh => (w, if m.body.shared ∧ m.body.kind ≠ .full then [.pull key] else [])
  | .setThroughHandle v => (w, if m.body.shared then [.write key v] else [])
  | .pullThroughHandle => (w, if m.body.shared then [.pull key] else [])
  | c => ((w.exec run key c).1, [])

/-- What a job does at once, and what it sets off. How scripts are run matters only for replies. -/
def begin (run : Runner α) (job : Job α) (w : World α) : World α × List (Job α) :=
  match job with
  | .script _ => (w, [])
  | .act s i => match w.takeAct s i with
    | none => (w, [])
    | some (s, .command _ c, w) =>
      (w, [.command s.owner c, .note (.acted s.who c (w.exec run s.owner c).2)])
    | some (_, .poke p, w) => (w, [.poke p])
  | .command key c => match w.member? key with
    | none => (w, [])
    | some m => beginCommand run key m c w
  | .handle name q => match w.handleKey? name with
    | none => (w, [])
    | some key => match q with
      | .set v => (w, [.write key v])
      | .pull => (w, if w.alive key then [.pull key] else [])
      | .copy other => (w.setHandle other key, [])
      | _ => (w, [])
  | .poke p => match w.handleKey? p.handle with
    | none => (w, [.note (.poked p.handle .unknownHandle)])
    | some key =>
      (w, [.write key p.value,
        .note (.poked p.handle (.outcome .flag (w.setShared run key p.value).2))])
  | .write key v => match w.member? key with
    | none => (w, [])
    | some m => w.enactPushed key (m.body.setShared v)
  | .push key => match w.member? key with
    | none => (w, [])
    | some m => match m.body.link.setter with
      | none => (w, [])
      | some setter =>
        ((w.record (.pushed key m.body.value)).setVariable setter.external m.body.value,
          scripted setter.script)
  | .pull key => match w.member? key with
    | none => (w, [])
    | some m => match m.body.link.getter with
      | none => (w, [])
      | some getter =>
        if m.body.hasPending then (w, [])
        else match w.externals[getter.external]? with
          | none => (w, [])
          | some v => (w.record (.read key v), scripted getter.script ++ [.take key v])
  | .take key v => match w.member? key with
    | none => (w, [])
    | some m => w.enact key (m.body.commitPulled v) []
  | .call key change l => (w.record (.notified key l.name l.form change), scripted l.script)
  | .hook key occurrence h => (w.record (.hooked key occurrence h.name), scripted h.script)
  | .finish key before s => match w.member? key with
    | none => (w, [])
    | some m => w.enactPushed key (Body.edit before s.response s.value m.body)
  | .note e => (w.record e, [])
  | .enter label r =>
    let key := w.nextKey
    ((w.add label r.base r.outside).mapBody key (Body.mapLink fun _ => r.link key),
      (if r.pulls then [.pull key] else []) ++ [.setUp key r.settings])
  | .setUp key settings => (w.modify key (Setting.configureAll settings), [])

/-- Begins a job where scripts may be nested to a depth. The acts of a script are one level further in. -/
def unfold (depth : Nat) (job : Job α) (w : World α) : World α × List (Nat × Job α) :=
  match depth, job with
  | 0, .script _ => (w, [])
  | depth + 1, .script s => (w, (List.range (w.actCount s)).map fun i => (depth, .act s i))
  | depth, job =>
    ((job.begin (react depth) w).1, (job.begin (react depth) w).2.map fun t => (depth, t))

end Job

namespace Moment

def next (s : Moment α) : Moment α :=
  match s.agenda with
  | [] => s
  | (depth, job) :: rest =>
    ⟨(job.unfold depth s.world).1, (job.unfold depth s.world).2 ++ rest⟩

def after : Nat → Moment α → Moment α
  | 0, s => s
  | n + 1, s => after n s.next

end Moment

namespace World

variable {run : Runner α} {w : World α}

theorem carry_nil (run : Runner α) (w : World α) : w.carry run [] = w := rfl

theorem carry_cons (run : Runner α) (t : Job α) (ts : List (Job α)) (w : World α) :
    w.carry run (t :: ts) = (t.run run w).carry run ts := rfl

theorem carry_append (run : Runner α) (ts us : List (Job α)) (w : World α) :
    w.carry run (ts ++ us) = (w.carry run ts).carry run us :=
  List.foldl_append

theorem carry_scripted (run : Runner α) (script : Option Nat) (w : World α) :
    w.carry run (Job.scripted script) = w.runScript run script := by
  cases script with
  | none => rfl
  | some s => rfl

theorem carry_callsFor (run : Runner α) (key : Nat) (change : Change α) (w : World α) :
    w.carry run (w.callsFor key change) = w.notify run key change := by
  unfold callsFor notify
  cases (w.member? key).bind fun m => change.audience m.body.listeners with
  | none => rfl
  | some listeners => exact List.foldl_map

/-- The announcement of a commit is carried out call by call. -/
theorem carry_enact {ρ : Type} (run : Runner α) (key : Nat) (s : Step (Body α) α ρ)
    (behind : List (Job α)) (w : World α) :
    (w.enact key s behind).1.carry run (w.enact key s behind).2 =
      match s.change with
      | some change => ((w.mapBody key fun _ => s.state).announce run key change).carry run behind
      | none => w.mapBody key fun _ => s.state := by
  unfold enact
  cases s.change with
  | none => rfl
  | some change =>
    simp only [carry_append, carry_callsFor]
    rfl

theorem carry_enactPushed {ρ : Type} (run : Runner α) (key : Nat) (s : Step (Body α) α ρ)
    (w : World α) :
    (w.enactPushed key s).1.carry run (w.enactPushed key s).2 = (w.settle run key s).1 := by
  rw [enactPushed, carry_enact]
  unfold settle
  cases s.change with
  | none => rfl
  | some change => rfl

end World

namespace Job

open World

/-- A command begins with its step and goes on with telling and pushing. -/
theorem carry_beginCommand {run : Runner α} {key : Nat} {m : Member α} {c : Command α}
    {w : World α} (hm : w.member? key = some m) :
    (beginCommand run key m c w).1.carry run (beginCommand run key m c w).2 =
      (w.exec run key c).1 := by
  cases c
  case draw label =>
    simp only [beginCommand, exec, hm, draw]
    cases m.widget with
    | none => rfl
    | some widget =>
      simp only [carry_append]
      simp only [carry, List.foldl_map, List.foldl_cons, List.foldl_nil]
      rfl
  case call c =>
    simp only [beginCommand, exec, hm, callThrough]
    split
    · cases c
      case pull | push => rfl
      all_goals exact carry_enactPushed run key _ w
    · rfl
  case edit e =>
    simp only [beginCommand, exec, hm]
    cases e.step m.type m.body with
    | none => rfl
    | some s => exact carry_enactPushed ..
  case refresh =>
    simp only [beginCommand, exec, hm, execShared]
    by_cases shared : m.body.shared = true
    · by_cases full : m.body.kind = .full
      · simp [shared, full, carry_nil]
      · simp [shared, full, carry_cons, carry_nil, Job.run]
    · simp [shared, carry_nil]
  case setThroughHandle v =>
    simp only [beginCommand, exec, hm, execShared]
    split
    · rfl
    · rfl
  case pullThroughHandle =>
    simp only [beginCommand, exec, hm, execShared, pullShared, alive]
    split
    · rfl
    · rfl
  all_goals rfl

/-- A job comes to what it does at once, followed by what it sets off. -/
def Carried (run : Runner α) (job : Job α) (w : World α) : Prop :=
  (job.begin run w).1.carry run (job.begin run w).2 = job.run run w

section Carrying

variable (run : Runner α) (w : World α) (key : Nat)

theorem act_carried (s i : Nat) : (act s i).Carried run w := by
  simp only [Carried, begin, Job.run, perform]
  rcases w.takeAct s i with _ | ⟨s, a, w'⟩
  · rfl
  · cases a with
    | command times c => rfl
    | poke p => rfl

/-- A command to a member that is gone sets off nothing. -/
theorem command_carried (c : Command α) : (command key c).Carried run w := by
  simp only [Carried, begin, Job.run]
  cases hm : w.member? key with
  | none => simp [carry_nil, exec, hm]
  | some m => exact carry_beginCommand hm

theorem handle_carried (name : String) (q : HandleRequest α) : (handle name q).Carried run w := by
  simp only [Carried, begin, Job.run, execHandle]
  cases w.handleKey? name with
  | none => rfl
  | some key =>
    cases q
    case pull =>
      simp only [pullShared]
      split
      · rfl
      · rfl
    all_goals rfl

theorem poke_carried (p : Poke α) : (poke p).Carried run w := by
  simp only [Carried, begin, Job.run, World.poke]
  cases w.handleKey? p.handle with
  | none => rfl
  | some key => rfl

theorem write_carried (v : α) : (write key v).Carried run w := by
  simp only [Carried, begin, Job.run, setShared]
  cases w.member? key with
  | none => rfl
  | some m => exact carry_enactPushed ..

theorem push_carried : (push key).Carried run w := by
  simp only [Carried, begin, Job.run, World.push]
  cases w.member? key with
  | none => rfl
  | some m =>
    dsimp only
    cases m.body.link.setter with
    | none => rfl
    | some setter => exact carry_scripted ..

/-- A pull runs the getter and then takes over what it read. -/
theorem pull_carried : (pull key).Carried run w := by
  simp only [Carried, begin, Job.run, World.pull]
  cases w.member? key with
  | none => rfl
  | some m =>
    dsimp only
    cases m.body.link.getter with
    | none => rfl
    | some getter =>
      dsimp only
      split
      · rfl
      · cases w.externals[getter.external]? with
        | none => rfl
        | some v =>
          simp only [carry_append, carry_scripted]
          rfl

theorem take_carried (v : α) : (take key v).Carried run w := by
  simp only [Carried, begin, Job.run, commitPulled]
  cases w.member? key with
  | none => rfl
  | some m =>
    simp only [carry_enact]
    cases (m.body.commitPulled v).change with
    | none => rfl
    | some change => rfl

/-- A draw ends with the edit of its widget, applied, told and pushed. -/
theorem finish_carried (before : Body α) (s : Stroke α) : (finish key before s).Carried run w := by
  simp only [Carried, begin, Job.run, finishDraw]
  cases w.member? key with
  | none => rfl
  | some m => exact carry_enactPushed ..

theorem enter_carried (label : String) (r : Recipe α) : (enter label r).Carried run w := by
  simp only [Carried, begin, Job.run, create]
  split
  · rfl
  · rfl

/-- Only a script leaves it to the one who runs it what it comes to. -/
theorem begin_carried {job : Job α} (known : ∀ s, job ≠ .script s) : job.Carried run w := by
  cases job
  case script s => exact absurd rfl (known s)
  case act s i => exact act_carried run w s i
  case command key c => exact command_carried run w key c
  case handle name q => exact handle_carried run w name q
  case poke p => exact poke_carried run w p
  case write key v => exact write_carried run w key v
  case push key => exact push_carried run w key
  case pull key => exact pull_carried run w key
  case take key v => exact take_carried run w key v
  case call key change l => exact carry_scripted ..
  case hook key occurrence h => exact carry_scripted ..
  case finish key before s => exact finish_carried run w key before s
  case enter label r => exact enter_carried run w label r
  case note | setUp => rfl

end Carrying

/-- A job with all that it sets off, step by step. -/
theorem unfold_carries (depth : Nat) (job : Job α) (w : World α) :
    (job.unfold depth w).2.foldl (fun w e => e.2.run (react e.1) w) (job.unfold depth w).1 =
      job.run (react depth) w := by
  by_cases known : ∀ s, job ≠ .script s
  · have same : job.unfold depth w = ((job.begin (react depth) w).1,
        (job.begin (react depth) w).2.map fun t => (depth, t)) := by
      unfold unfold
      split
      · exact absurd rfl (known _)
      · exact absurd rfl (known _)
      · rfl
    have carried : (job.begin (react depth) w).1.carry (react depth) _ = _ :=
      begin_carried (react depth) w known
    rw [same]
    exact List.foldl_map.trans carried
  · obtain ⟨s, rfl⟩ : ∃ s, job = .script s := by
      simpa using known
    cases depth with
    | zero => rfl
    | succ depth => exact List.foldl_map

/-- How far a job is from being done; what a job sets off is nearer. -/
def rank : Job α → Nat
  | note _ | setUp .. => 0
  | script _ => 1
  | push _ | call .. | hook .. => 2
  | take .. | write .. | finish .. => 3
  | pull _ | poke _ => 4
  | command .. | handle .. | enter .. => 5
  | act .. => 6

def weight (depth : Nat) (job : Job α) : Nat := 7 * depth + job.rank

omit [BEq α] in
theorem scripted_rank (script : Option Nat) : ∀ t ∈ scripted (α := α) script, t.rank < 2 := by
  simp [scripted, rank]

theorem callsFor_rank (key : Nat) (change : Change α) (w : World α) :
    ∀ t ∈ w.callsFor key change, t.rank < 3 := by
  unfold callsFor
  split
  · simp [rank]
  · simp

theorem enact_rank {ρ : Type} (key : Nat) (s : Step (Body α) α ρ) {behind : List (Job α)}
    (near : ∀ t ∈ behind, t.rank < 3) (w : World α) :
    ∀ t ∈ (w.enact key s behind).2, t.rank < 3 := by
  unfold enact
  cases s.change with
  | none => simp
  | some change => exact List.forall_mem_append.mpr ⟨callsFor_rank key change _, near⟩

theorem enactPushed_rank {ρ : Type} (key : Nat) (s : Step (Body α) α ρ) (w : World α) :
    ∀ t ∈ (w.enactPushed key s).2, t.rank < 3 :=
  enact_rank key s (by simp [rank]) _

theorem beginCommand_rank (run : Runner α) (key : Nat) (m : Member α) (c : Command α)
    (w : World α) : ∀ t ∈ (beginCommand run key m c w).2, t.rank < 5 := by
  have enacted {ρ : Type} (s : Step (Body α) α ρ) :
      ∀ t ∈ (w.enactPushed key s).2, t.rank < 5 := by
    intro t ht
    have := enactPushed_rank key s w t ht
    omega
  cases c
  case draw label =>
    simp only [beginCommand]
    split
    · simp
    · simp only [List.forall_mem_append, List.forall_mem_map]
      simp [rank]
  case call c =>
    simp only [beginCommand]
    split
    · split
      · simp [rank]
      · simp [rank]
      · exact enacted _
    · simp
  case edit e =>
    simp only [beginCommand]
    split
    · exact enacted _
    · simp
  case refresh | setThroughHandle | pullThroughHandle =>
    simp only [beginCommand]
    split <;> simp [rank]
  all_goals exact List.forall_mem_nil _

theorem handle_rank (run : Runner α) (name : String) (q : HandleRequest α) (w : World α) :
    ∀ t ∈ ((handle name q).begin run w).2, t.rank < 5 := by
  simp only [begin]
  split
  · simp
  · split
    · simp [rank]
    · split <;> simp [rank]
    · simp
    · simp

/-- The getter runs first, and what it read is taken over after that. -/
theorem pull_rank (run : Runner α) (key : Nat) (w : World α) :
    ∀ t ∈ ((pull key).begin run w).2, t.rank < 4 := by
  simp only [begin]
  split
  · simp
  · split
    · simp
    · split
      · simp
      · split
        · simp
        · refine List.forall_mem_append.mpr ⟨fun t ht => ?_, by simp [rank]⟩
          have := scripted_rank _ t ht
          omega

/-- What a job sets off is nearer to being done than the job. -/
theorem begin_rank (run : Runner α) (job : Job α) (w : World α) :
    ∀ t ∈ (job.begin run w).2, t.rank < job.rank := by
  cases job
  case handle name q => exact handle_rank run name q w
  case pull key => exact pull_rank run key w
  all_goals simp only [begin]
  case act s i => split <;> simp [rank]
  case command key c =>
    split
    · simp
    · exact beginCommand_rank run key _ c w
  case poke p => split <;> simp [rank]
  case write key v =>
    split
    · simp
    · exact enactPushed_rank key _ w
  case push key =>
    split
    · simp
    · split
      · simp
      · exact scripted_rank _
  case take key v =>
    split
    · simp
    · exact enact_rank key _ (by simp) w
  case call | hook => exact scripted_rank _
  case finish key before s =>
    split
    · simp
    · exact enactPushed_rank key _ w
  case enter label r =>
    refine List.forall_mem_append.mpr ⟨?_, by simp [rank]⟩
    split <;> simp [rank]
  all_goals exact List.forall_mem_nil _

/-- What a job sets off is nearer to being done, and the acts of a script are one level further in. -/
theorem unfold_weight (depth : Nat) (job : Job α) (w : World α) :
    ∀ e ∈ (job.unfold depth w).2, e.2.weight e.1 < job.weight depth := by
  unfold unfold
  split
  · simp
  · intro e he
    obtain ⟨i, -, rfl⟩ := List.mem_map.mp he
    simp only [weight, rank]
    omega
  · intro e he
    obtain ⟨t, ht, rfl⟩ := List.mem_map.mp he
    have := begin_rank _ _ _ t ht
    simp only [weight]
    omega

end Job

namespace Moment

open Job World

theorem after_add (m n : Nat) (s : Moment α) : s.after (m + n) = (s.after m).after n := by
  induction m generalizing s with
  | zero => rw [Nat.zero_add]; rfl
  | succ m ih => rw [Nat.succ_add]; exact ih s.next

/-- An agenda is worked off from the front, when each of its tasks can be. -/
theorem works_off {es : List (Nat × Job α)} (rest : List (Nat × Job α))
    (each : ∀ e ∈ es, ∀ w rest, ∃ n, after n ⟨w, e :: rest⟩ = ⟨e.2.run (react e.1) w, rest⟩)
    (w : World α) :
    ∃ n, after n ⟨w, es ++ rest⟩ = ⟨es.foldl (fun w e => e.2.run (react e.1) w) w, rest⟩ := by
  induction es generalizing w with
  | nil => exact ⟨0, rfl⟩
  | cons e es ih =>
    obtain ⟨m, first⟩ := each e List.mem_cons_self w (es ++ rest)
    obtain ⟨n, others⟩ := ih (fun e he => each e (List.mem_cons_of_mem _ he)) (e.2.run (react e.1) w)
    refine ⟨m + n, ?_⟩
    rw [after_add, List.cons_append, first, others]
    rfl

/-- Every job is carried to its end, where the world is the one that the operation makes of it. The
induction is on the weight: each step leaves lighter tasks. -/
theorem completes (depth : Nat) (job : Job α) (w : World α) (rest : List (Nat × Job α)) :
    ∃ n, after n ⟨w, (depth, job) :: rest⟩ = ⟨job.run (react depth) w, rest⟩ := by
  suffices h : ∀ bound, ∀ depth (job : Job α), job.weight depth < bound → ∀ w rest,
      ∃ n, after n ⟨w, (depth, job) :: rest⟩ = ⟨job.run (react depth) w, rest⟩ from
    h _ depth job (Nat.lt_succ_self _) w rest
  intro bound
  induction bound with
  | zero => exact fun _ _ h => absurd h (Nat.not_lt_zero _)
  | succ bound ih =>
    intro depth job light w rest
    have each : ∀ e ∈ (job.unfold depth w).2, ∀ w rest,
        ∃ n, after n ⟨w, e :: rest⟩ = ⟨e.2.run (react e.1) w, rest⟩ := by
      intro e he w' rest
      have lighter := unfold_weight depth job w e he
      exact ih e.1 e.2 (by omega) w' rest
    obtain ⟨n, done⟩ := works_off rest each (job.unfold depth w).1
    rw [unfold_carries] at done
    exact ⟨n + 1, done⟩

/-- Requests are served one after the other. -/
theorem serves (depth : Nat) (qs : List (Request α)) (w : World α) :
    ∃ n, after n ⟨w, qs.map fun q => (depth, q.job)⟩ = ⟨w.serveAll depth qs, []⟩ := by
  have each : ∀ e ∈ qs.map (fun q => (depth, q.job)), ∀ w rest,
      ∃ n, after n ⟨w, e :: rest⟩ = ⟨e.2.run (react e.1) w, rest⟩ :=
    fun e _ w rest => completes e.1 e.2 w rest
  obtain ⟨n, done⟩ := works_off [] each w
  refine ⟨n, ?_⟩
  rw [List.append_nil, List.foldl_map] at done
  have same : (fun (w : World α) (q : Request α) => q.job.run (react depth) w) =
      fun w q => w.serve depth q := by
    funext w q
    cases q <;> rfl
  rw [done, same]
  rfl

end Moment

end BoundValues
