import BoundValues.Proofs.BulkApply
import BoundValues.Proofs.Tame

namespace BoundValues

variable {α : Type}

inductive Draft (α : Type)
  | keep
  | drop
  | stage (v : α)

namespace Draft

def of : Except String α → Draft α
  | .ok v => stage v
  | .error _ => keep

def on (staged : Option α) : Draft α → Option α
  | keep => staged
  | drop => none
  | stage v => some v

end Draft

/-- A value that stages its edits until they are applied. -/
inductive Body.Defers : Body α → Prop
  | config {c : Config α} (deferred : c.immediate = false) : Defers (.config c)
  | full {f : Full α} (deferred : f.immediate = false) : Defers (.full f)

structure Body.Unmoved (b b' : Body α) : Prop where
  kind : b'.kind = b.kind
  value : b'.value = b.value
  history : b'.history = b.history
  link : b'.link = b.link
  listeners : b'.listeners = b.listeners
  hooks : b'.hooks = b.hooks
  immediate : b'.immediate = b.immediate

namespace Body

theorem Unmoved.refl (b : Body α) : b.Unmoved b := ⟨rfl, rfl, rfl, rfl, rfl, rfl, rfl⟩

theorem Unmoved.trans {a b c : Body α} (h : a.Unmoved b) (h' : b.Unmoved c) : a.Unmoved c where
  kind := h'.kind.trans h.kind
  value := h'.value.trans h.value
  history := h'.history.trans h.history
  link := h'.link.trans h.link
  listeners := h'.listeners.trans h.listeners
  hooks := h'.hooks.trans h.hooks
  immediate := h'.immediate.trans h.immediate

/-- Whether edits are deferred is decided by kind and mode, and drafting changes neither. -/
theorem Defers.unmoved {b b' : Body α} (defers : b.Defers) (h : b.Unmoved b') : b'.Defers := by
  obtain ⟨kind, -, -, -, -, -, immediate⟩ := h
  cases defers with
  | config deferred =>
    cases b' with
    | config c => exact .config (immediate.trans deferred)
    | _ => cases kind
  | full deferred =>
    cases b' with
    | full f => exact .full (immediate.trans deferred)
    | _ => cases kind

end Body

namespace Edit

def drafts : Edit α → Bool
  | trySet _ | stage _ | revert | setValidator _ | setDefault _ => true
  | _ => false

end Edit

/-- Requests that only concern what is staged. The widgets they bring along write to no member. -/
inductive Command.Drafts (mute : String → Prop) : Command α → Prop
  | edit {e : Edit α} (drafts : e.drafts = true) : Drafts mute (.edit e)
  | revert : Drafts mute (.call .revert)
  | validate : Drafts mute (.call .validate)
  | clearChanged : Drafts mute .clearChanged
  | draw (label : String) : Drafts mute (.draw label)
  | setWidget (widget : Widget α)
      (silent : ∀ n picture, ∀ p ∈ (widget n picture).pokes, mute p.handle) :
      Drafts mute (.setWidget widget)

structure Step.Drafts {ρ : Type} (s : Step (Body α) α ρ) (b : Body α) (d : Draft α) : Prop where
  untold : s.change = none
  unmoved : b.Unmoved s.state
  staged : s.state.staging.pending = d.on b.staging.pending

section Steps

variable {b : Body α}

theorem Step.Drafts.map {ρ π : Type} {s : Step (Body α) α ρ} {d : Draft α} (h : s.Drafts b d)
    (g : ρ → π) : (s.map id g).Drafts b d :=
  ⟨h.untold, h.unmoved, h.staged⟩

theorem Body.Defers.declares (defers : b.Defers) :
    b.kind.capabilities.declares .deferred = true ∧
      b.kind.capabilities.declares .validation = true := by
  cases defers with
  | config => exact (by decide : Kind.config.capabilities.declares .deferred = true ∧
      Kind.config.capabilities.declares .validation = true)
  | full => exact (by decide : Kind.full.capabilities.declares .deferred = true ∧
      Kind.full.capabilities.declares .validation = true)

variable [BEq α]

end Steps

namespace World

/-- A member was drafted on: it is there with what is staged now, and otherwise the world is as it
was. The log tells of no commit, no call of a listener, and no traffic with the outside. -/
structure Drafted (key : Nat) (m m' : Member α) (staged : Option α) (w w' : World α) : Prop where
  rests : ∃ told, Rests .full told (w.setMember key m') w' ∧ ∀ e ∈ told, e.Aside
  unmoved : m.body.Unmoved m'.body
  staged : m'.body.staging.pending = staged
  tame : w'.Tame m'

section Requests

variable {w w' w'' : World α} {key : Nat} {m m' m'' : Member α} {staged : Option α}
  {run : Runner α}

namespace Drafted

/-- Drafts on drafts: the log goes on, and the later draft is the one that is staged. -/
theorem trans {staged' : Option α} (h : Drafted key m m' staged w w')
    (h' : Drafted key m' m'' staged' w' w'') : Drafted key m m'' staged' w w'' := by
  obtain ⟨told, first, aside⟩ := h.rests
  obtain ⟨told', second, aside'⟩ := h'.rests
  have moved := first.setMember key m''
  rw [setMember_setMember] at moved
  exact ⟨⟨told ++ told', moved.trans second, List.forall_mem_append.mpr ⟨aside, aside'⟩⟩,
    h.unmoved.trans h'.unmoved, h'.staged, h'.tame⟩

theorem here (h : Drafted key m m' staged w w') (hm : w.member? key = some m) :
    w'.member? key = some m' := by
  obtain ⟨told, rests, -⟩ := h.rests
  exact (rests.member? key).trans (member?_setMember_self hm m')

theorem mute (h : Drafted key m m' staged w w') (hm : w.member? key = some m) :
    w'.Mute = w.Mute := by
  obtain ⟨told, rests, -⟩ := h.rests
  exact rests.mute.trans (mute_setMember hm m')

end Drafted

variable [BEq α]

end Requests

end World

end BoundValues
