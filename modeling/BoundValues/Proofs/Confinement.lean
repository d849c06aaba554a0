import BoundValues.Proofs.Moves
import BoundValues.Proofs.Reading

namespace BoundValues

variable {α : Type}

/-- A command that writes to no member. A handle that is taken is none of those that lead nowhere. -/
def Command.Spares (mute : String → Prop) : Command α → Prop
  | .takeHandle handle => ¬mute handle
  | c => c.looks = true

/-- An act that writes to no member, through handles that lead to none at most. -/
def Act.Spares (mute : String → Prop) : Act α → Prop
  | .command _ c => c.Spares mute
  | .poke p => mute p.handle

/-- What is left of a budget is not part of a script's text. -/
theorem Script.text_spend {t : Script α} {i : Nat} {a : Act α} {left : Option Nat}
    (ha : t.acts[i]? = some (a, left)) (left' : Option Nat) :
    Script.text { t with acts := t.acts.set i (a, left') } = t.text := by
  obtain ⟨inside, at_i⟩ := List.getElem?_eq_some_iff.mp ha
  refine Prod.ext rfl ?_
  simp only [Script.text, List.map_set]
  refine List.ext_getElem? fun j => ?_
  by_cases hj : i = j
  · subst hj
    simp [inside, at_i]
  · rw [List.getElem?_set_ne hj]

namespace Regime

variable (r : Regime α)

/-- A script that may be attached to the member under a key: one that only reads, or one of the member's
own that writes to no member. -/
def Private (key s : Nat) : Prop :=
  r.Inert s ∨ ∀ text, r.texts[s]? = some text → text.1 = key ∧ ∀ a ∈ text.2, a.Spares r.mute

end Regime

def Link.endpoints (l : Link) : List Endpoint := l.getter.toList ++ l.setter.toList

def Body.attached (b : Body α) : List Nat :=
  b.listeners.slots.filterMap Listener.script ++ b.link.endpoints.filterMap Endpoint.script ++
    (b.hooks.due true true).filterMap fun h => h.2.script

/-- Everything attached to a body keeps to the member under a key, and so does its link. -/
structure Body.Fits (r : Regime α) (key : Nat) (b : Body α) : Prop where
  scripts : ∀ s ∈ b.attached, r.Private key s
  links : ∀ endpoint ∈ b.link.endpoints, endpoint.external = key

section Attached

variable {r : Regime α} {key : Nat} {b b' : Body α} (fits : b.Fits r key)

include fits

theorem Body.Fits.listeners : ∀ l ∈ b.listeners.slots, ∀ s ∈ l.script, r.Private key s :=
  fun _ hl s hs => fits.scripts s
    (List.mem_append_left _ (List.mem_append_left _ (List.mem_filterMap.mpr ⟨_, hl, hs⟩)))

theorem Body.Fits.endpoint {endpoint : Endpoint} (he : endpoint ∈ b.link.endpoints) :
    endpoint.external = key ∧ ∀ s ∈ endpoint.script, r.Private key s :=
  ⟨fits.links endpoint he, fun s hs => fits.scripts s
    (List.mem_append_left _ (List.mem_append_right _ (List.mem_filterMap.mpr ⟨_, he, hs⟩)))⟩

theorem Body.Fits.getter : ∀ getter ∈ b.link.getter,
    getter.external = key ∧ ∀ s ∈ getter.script, r.Private key s :=
  fun _ hg => fits.endpoint (List.mem_append_left _ (Option.mem_toList.mpr hg))

theorem Body.Fits.setter : ∀ setter ∈ b.link.setter,
    setter.external = key ∧ ∀ s ∈ setter.script, r.Private key s :=
  fun _ hs => fits.endpoint (List.mem_append_right _ (Option.mem_toList.mpr hs))

theorem Body.Fits.hooks : ∀ h ∈ b.hooks.due true true, ∀ s ∈ h.2.script, r.Private key s :=
  fun _ hh s hs => fits.scripts s (List.mem_append_right _ (List.mem_filterMap.mpr ⟨_, hh, hs⟩))

/-- Only listeners, link and hooks bear on what is attached. -/
theorem Body.Fits.congr (listeners : b'.listeners = b.listeners) (link : b'.link = b.link)
    (hooks : b'.hooks = b.hooks) : b'.Fits r key := by
  have attached : b'.attached = b.attached := by simp only [Body.attached, listeners, link, hooks]
  exact ⟨attached ▸ fits.scripts, link ▸ fits.links⟩

end Attached

structure Member.Fits (r : Regime α) (key : Nat) (m : Member α) : Prop where
  body : m.body.Fits r key
  widget : ∀ widget ∈ m.widget, ∀ n picture, ∀ p ∈ (widget n picture).pokes, r.mute p.handle

theorem Command.writes_of_looks {c : Command α} (looks : c.looks = true) (writes : c.reads = false) :
    (∃ v, c = .setOutside v) ∨ c = .call .push := by
  unfold reads at writes
  split at writes
  · exact .inl ⟨_, rfl⟩
  · exact .inr rfl
  · cases writes.symm.trans looks

section Steps

variable {r : Regime α} {key : Nat}

/-- Only full values have hooks. -/
theorem Body.hooks_of_kind {b : Body α} (h : b.kind ≠ .full) : b.hooks = {} := by
  cases b <;> first | rfl | exact absurd rfl h

/-- What a step leaves attached to a body, when it keeps the hooks of full values. -/
theorem Body.Fits.moves {b b' : Body α} {change : Option (Change α)} (fits : b.Fits r key)
    (moves : b.Moves (fun _ => False) b' change)
    (hooks : b.kind = .full → b'.hooks = b.hooks) : b'.Fits r key := by
  refine fits.congr moves.faithful.listeners moves.faithful.link ?_
  by_cases full : b.kind = .full
  · exact hooks full
  · rw [hooks_of_kind full, hooks_of_kind (moves.kind ▸ full)]

theorem Full.stage_hooks (f : Full α) (v : α) : (f.stage v).state.hooks = f.hooks := by
  unfold stage
  split <;> rfl

variable [BEq α]

theorem Full.apply_hooks (f : Full α) : f.apply.state.hooks = f.hooks := by
  unfold apply
  split <;> rfl

theorem Full.edit_hooks (f : Full α) (mode : EditMode) (immediate : Bool) (response : Response)
    (v : α) : (f.edit mode immediate response v).state.hooks = f.hooks := by
  unfold edit
  split
  · dsimp only
    split
    · exact f.stage_hooks v
    · split
      · exact (apply_hooks _).trans (f.stage_hooks v)
      · exact f.stage_hooks v
  · rfl

theorem Full.commitPulled_hooks (f : Full α) (v : α) : (f.commitPulled v).state.hooks = f.hooks := by
  unfold commitPulled
  split <;> rfl

namespace Body

theorem Fits.edit {b : Body α} (fits : b.Fits r key) (before : Body α) (response : Response) (v : α) :
    (Body.edit before response v b).state.Fits r key := by
  refine fits.moves (b.edit_moves before response v) fun full => ?_
  cases b with
  | full f => exact f.edit_hooks before.cell.mode before.immediate response v
  | _ => cases full

theorem Fits.commitPulled {b : Body α} (fits : b.Fits r key) (v : α) :
    (b.commitPulled v).state.Fits r key := by
  refine fits.moves (b.commitPulled_moves v) fun full => ?_
  cases b with
  | full f => exact f.commitPulled_hooks v
  | _ => cases full

theorem Fits.apply {b : Body α} (fits : b.Fits r key) : b.apply.state.Fits r key := by
  refine fits.moves b.apply_moves fun full => ?_
  cases b with
  | full f => exact f.apply_hooks
  | _ => cases full

end Body

end Steps

namespace World

/-- A world in which everything keeps to the member that it is attached to. -/
structure Orderly (r : Regime α) (w : World α) : Prop extends w.Abides r where
  fits {key : Nat} {m : Member α} (hm : w.member? key = some m) : m.Fits r key

structure Alike (r : Regime α) (key : Nat) (w w' : World α) : Prop where
  member : w'.member? key = w.member? key
  outside : w'.externals[key]? = w.externals[key]?
  scripts {s : Nat} {text : Nat × List (Act α)} (here : r.texts[s]? = some text) (own : text.1 = key)
    (writes : ¬r.Inert s) : w'.scripts[s]? = w.scripts[s]?
  log : w'.log.filter (r.about key) = w.log.filter (r.about key)

/-- An operation on the member under a key stays with it: it keeps the world orderly, changes nothing
about other members, and depends on nothing about them. -/
structure Confined {ρ : Type} (r : Regime α) (key : Nat) (f : World α → World α × ρ) : Prop where
  orderly {w : World α} (h : w.Orderly r) : (f w).1.Orderly r
  away {w : World α} (h : w.Orderly r) {k : Nat} (other : k ≠ key) : Alike r k w (f w).1
  follows {w w' : World α} (h : w.Orderly r) (h' : w'.Orderly r) (alike : Alike r key w w') :
    Alike r key (f w).1 (f w').1 ∧ (f w').2 = (f w).2

section Likeness

variable {r : Regime α} {key : Nat} {w w' w'' : World α}

theorem Alike.refl (w : World α) : Alike r key w w := ⟨rfl, rfl, fun _ _ _ => rfl, rfl⟩

theorem Alike.symm (h : Alike r key w w') : Alike r key w' w where
  member := h.member.symm
  outside := h.outside.symm
  scripts here own writes := (h.scripts here own writes).symm
  log := h.log.symm

theorem Alike.trans (h : Alike r key w w') (h' : Alike r key w' w'') : Alike r key w w'' where
  member := h'.member.trans h.member
  outside := h'.outside.trans h.outside
  scripts here own writes := (h'.scripts here own writes).trans (h.scripts here own writes)
  log := h'.log.trans h.log

theorem Untouched.alike (h : Untouched r w w') (key : Nat) : Alike r key w w' where
  member := h.member? key
  outside := by rw [h.externals]
  scripts _ _ writes := h.scripts _ writes
  log := h.log key

theorem Untouched.orderly (h : Untouched r w w') (orderly : w.Orderly r) : w'.Orderly r :=
  ⟨h.abides orderly.toAbides, fun hm => orderly.fits ((h.member? _).symm.trans hm)⟩

end Likeness

namespace Confined

variable {ρ σ : Type} {r : Regime α} {key : Nat} {f g : World α → World α × ρ}

/-- Whatever member is asked about: alike worlds stay alike. -/
theorem alike (h : Confined r key f) {w w' : World α} (orderly : w.Orderly r)
    (orderly' : w'.Orderly r) {k : Nat} (alike : Alike r k w w') : Alike r k (f w).1 (f w').1 := by
  by_cases here : k = key
  · subst here
    exact (h.follows orderly orderly' alike).1
  · exact (h.away orderly here).symm.trans (alike.trans (h.away orderly' here))

theorem congr (h : Confined r key g) (same : ∀ w, w.Orderly r → f w = g w) : Confined r key f where
  orderly ho := same _ ho ▸ h.orderly ho
  away ho _ other := same _ ho ▸ h.away ho other
  follows ho ho' alike := by
    rw [same _ ho, same _ ho']
    exact h.follows ho ho' alike

theorem pure (x : ρ) : Confined r key fun w => (w, x) :=
  ⟨id, fun _ _ _ => .refl _, fun _ _ alike => ⟨alike, rfl⟩⟩

/-- Two operations that stay with a member stay with it one after the other, the second chosen by
what the first tells. -/
theorem bind {g : ρ → World α → World α × σ} (hf : Confined r key f)
    (hg : ∀ x, Confined r key (g x)) : Confined r key fun w => g (f w).2 (f w).1 where
  orderly ho := (hg _).orderly (hf.orderly ho)
  away ho _ other := (hf.away ho other).trans ((hg _).away (hf.orderly ho) other)
  follows ho ho' alike := by
    obtain ⟨between, same⟩ := hf.follows ho ho' alike
    rw [same]
    exact (hg _).follows (hf.orderly ho) (hf.orderly ho') between

/-- One thing after another. -/
theorem next {f : World α → World α} {g : World α → World α × σ}
    (hf : Confined r key fun w => (f w, ())) (hg : Confined r key g) :
    Confined r key fun w => g (f w) :=
  hf.bind fun _ => hg

/-- What scripts record of themselves may follow, and is not noticed. -/
theorem trailed {f g : World α → World α} (hf : Confined r key fun w => (f w, ()))
    (hg : ∀ w, w.Orderly r → Untouched r (f w) (g w)) : Confined r key fun w => (g w, ()) where
  orderly ho := (hg _ ho).orderly (hf.orderly ho)
  away ho k other := (hf.away ho other).trans ((hg _ ho).alike k)
  follows ho ho' alike :=
    ⟨((hg _ ho).alike key).symm.trans ((hf.follows ho ho' alike).1.trans ((hg _ ho').alike key)), rfl⟩

/-- What leaves every member and variable alone stays with any member. -/
theorem untouched {f : World α → World α} (hf : ∀ w, w.Orderly r → Untouched r w (f w)) :
    Confined r key fun w => (f w, ()) := (pure ()).trailed hf

theorem foldl {β : Type} {f : World α → β → World α} {xs : List β}
    (hf : ∀ x ∈ xs, Confined r key fun w => (f w x, ())) : Confined r key fun w => (xs.foldl f w, ()) := by
  induction xs with
  | nil => exact pure ()
  | cons x xs ih =>
    exact (hf x List.mem_cons_self).next (ih fun y hy => hf y (List.mem_cons_of_mem x hy))

/-- What is done may depend on what is the same in alike worlds. -/
theorem of_seen {β : Type} (see : World α → β) (meets : β → Prop)
    (same : ∀ {w w'}, Alike r key w w' → see w' = see w) (met : ∀ {w}, w.Orderly r → meets (see w))
    (h : ∀ o, meets o → ∃ g, Confined r key g ∧ ∀ w, w.Orderly r → see w = o → f w = g w) :
    Confined r key f where
  orderly {w} ho := by
    obtain ⟨g, hg, as⟩ := h (see w) (met ho)
    exact as w ho rfl ▸ hg.orderly ho
  away {w} ho k other := by
    obtain ⟨g, hg, as⟩ := h (see w) (met ho)
    exact as w ho rfl ▸ hg.away ho other
  follows {w w'} ho ho' alike := by
    obtain ⟨g, hg, as⟩ := h (see w) (met ho)
    rw [as w ho rfl, as w' ho' (same alike)]
    exact hg.follows ho ho' alike

/-- It is enough to look at the member that is there. -/
theorem of_member (absent : ∃ x, ∀ w, w.member? key = none → f w = (w, x))
    (present : ∀ m, m.Fits r key →
      ∃ g, Confined r key g ∧ ∀ w, w.member? key = some m → f w = g w) : Confined r key f := by
  refine of_seen (fun w => w.member? key) (fun o => ∀ m ∈ o, m.Fits r key) Alike.member
    (fun ho m hm => ho.fits hm) fun o fits => ?_
  cases o with
  | none =>
    obtain ⟨x, as⟩ := absent
    exact ⟨_, pure x, fun w _ => as w⟩
  | some m =>
    obtain ⟨g, hg, as⟩ := present m (fits m rfl)
    exact ⟨g, hg, fun w _ => as w⟩

/-- What is done may depend on the member's own variable, which is the same in alike worlds. -/
theorem of_outside (h : ∀ v, ∃ g, Confined r key g ∧ ∀ w, w.externals[key]? = v → f w = g w) :
    Confined r key f := by
  refine of_seen (fun w => w.externals[key]?) (fun _ => True) Alike.outside (fun _ => trivial)
    fun v _ => ?_
  obtain ⟨g, hg, as⟩ := h v
  exact ⟨g, hg, fun w _ => as w⟩

/-- A script of the member's own, which may store values, is the same in alike worlds. -/
theorem of_script {s : Nat} {text : Nat × List (Act α)} (here : r.texts[s]? = some text)
    (own : text.1 = key) (writes : ¬r.Inert s)
    (h : ∀ t : Script α, t.text = text →
      ∃ g, Confined r key g ∧ ∀ w, w.scripts[s]? = some t → f w = g w) : Confined r key f := by
  refine of_seen (fun w => w.scripts[s]?) (fun o => o.map Script.text = some text)
    (fun alike => alike.scripts here own writes) (fun ho => ?_) fun o known => ?_
  · rw [← List.getElem?_map, ho.texts, here]
  · obtain ⟨t, rfl, ht⟩ := Option.map_eq_some_iff.mp known
    obtain ⟨g, hg, as⟩ := h t ht
    exact ⟨g, hg, fun w _ => as w⟩

end Confined

section Updates

variable {r : Regime α} {key : Nat}

theorem confined_record {e : Event α} (only : ∀ k ≠ key, r.about k e = false) :
    Confined r key fun w => (w.record e, ()) where
  orderly ho := ⟨⟨ho.texts, ho.mute⟩, ho.fits⟩
  away _ k other := ⟨rfl, rfl, fun _ _ _ => rfl, by simp [World.record, only k other]⟩
  follows _ _ alike :=
    ⟨⟨alike.member, alike.outside, alike.scripts, by simp [World.record, alike.log]⟩, rfl⟩

theorem confined_setVariable (v : α) : Confined r key fun w => (w.setVariable key v, ()) where
  orderly ho := ⟨⟨ho.texts, ho.mute⟩, ho.fits⟩
  away _ _ other := ⟨rfl, List.getElem?_set_ne (Ne.symm other), fun _ _ _ => rfl, rfl⟩
  follows _ _ alike := by
    refine ⟨⟨alike.member, ?_, alike.scripts, alike.log⟩, rfl⟩
    simp only [setVariable, List.getElem?_set_self', alike.outside]

/-- Nobody writes through a handle that was taken, so it makes no difference where it leads. -/
theorem confined_setHandle {name : String} (unmuted : ¬r.mute name) :
    Confined r key fun w => (w.setHandle name key, ()) where
  orderly ho := by
    refine ⟨⟨ho.texts, fun other muted k hk => ?_⟩, ho.fits⟩
    have apart : other ≠ name := fun same => unmuted (same ▸ muted)
    rw [handleKey?, setHandle, List.lookup_cons, beq_false_of_ne apart] at hk
    exact ho.mute other muted k hk
  away _ _ _ := ⟨rfl, rfl, fun _ _ _ => rfl, rfl⟩
  follows _ _ alike := ⟨⟨alike.member, alike.outside, alike.scripts, alike.log⟩, rfl⟩

theorem Orderly.modify {w : World α} (orderly : w.Orderly r) {g : Member α → Member α}
    (fits : ∀ m, m.Fits r key → (g m).Fits r key) : (w.modify key g).Orderly r := by
  refine ⟨⟨(modify_scripts w key g).symm ▸ orderly.texts, fun name muted k hk => ?_⟩,
    fun {k m} hm => ?_⟩
  · rw [handleKey?, modify_handles] at hk
    have gone := orderly.mute name muted k hk
    by_cases here : k = key
    · subst here
      rw [member?_modify_self, gone]
      rfl
    · rwa [member?_modify_of_ne here]
  · by_cases here : k = key
    · subst here
      rw [member?_modify_self] at hm
      obtain ⟨n, hn, rfl⟩ := Option.map_eq_some_iff.mp hm
      exact fits n (orderly.fits hn)
    · rw [member?_modify_of_ne here] at hm
      exact orderly.fits hm

theorem confined_modify {g : Member α → Member α} (fits : ∀ m, m.Fits r key → (g m).Fits r key) :
    Confined r key fun w => (w.modify key g, ()) where
  orderly ho := ho.modify fits
  away {w} _ k other := by
    exact ⟨member?_modify_of_ne other g, by rw [modify_externals], fun _ _ _ => by rw [modify_scripts],
      by rw [modify_log]⟩
  follows {w w'} _ _ alike := by
    refine ⟨⟨?_, ?_, fun here own writes => ?_, ?_⟩, rfl⟩
    · rw [member?_modify_self, member?_modify_self, alike.member]
    · rw [modify_externals, modify_externals, alike.outside]
    · rw [modify_scripts, modify_scripts, alike.scripts here own writes]
    · rw [modify_log, modify_log, alike.log]

theorem confined_noteCheck (checked : Option α) :
    Confined r key fun w => (w.noteCheck key checked, ()) := by
  cases checked with
  | none => exact .pure ()
  | some v => exact confined_record (r.about_of_ne rfl)

theorem confined_setBody {b : Body α} (fits : b.Fits r key) :
    Confined r key fun w => (w.mapBody key fun _ => b, ()) :=
  confined_modify fun _ old => ⟨fits, old.widget⟩

theorem confined_pokes [BEq α] (run : Runner α) {ps : List (Poke α)} (mute : ∀ p ∈ ps, r.mute p.handle) :
    Confined r key fun w => (ps.foldl (fun w p => w.poke run p) w, ()) :=
  .foldl fun p hp => .untouched fun _ ho => untouched_poke ho.toAbides (mute p hp) run

/-- A script of the member's own uses up its acts. -/
theorem confined_spend {s : Nat} {text : Nat × List (Act α)} (here : r.texts[s]? = some text)
    (own : text.1 = key) {spent : Script α} (same : spent.text = text) :
    Confined r key fun w => ({ w with scripts := w.scripts.set s spent }, ()) where
  orderly {w} ho := by
    refine ⟨⟨?_, ho.mute⟩, ho.fits⟩
    obtain ⟨inside, at_s⟩ := List.getElem?_eq_some_iff.mp (ho.texts.symm ▸ here)
    rw [List.map_set, same, ← at_s, List.set_getElem_self inside]
    exact ho.texts
  away {w} _ k other := by
    refine ⟨rfl, rfl, fun {s'} text' here' own' _ => List.getElem?_set_ne ?_, rfl⟩
    rintro rfl
    cases here.symm.trans here'
    exact other (own'.symm.trans own)
  follows {w w'} _ _ alike := by
    refine ⟨⟨alike.member, alike.outside, fun {s'} text' here' own' writes' => ?_, alike.log⟩, rfl⟩
    by_cases hs : s = s'
    · subst hs
      simp only [List.getElem?_set_self', alike.scripts here' own' writes']
    · simp only [List.getElem?_set_ne hs, alike.scripts here' own' writes']

end Updates

section Running

variable {r : Regime α} {key : Nat} {run : Runner α}
  (runs : ∀ s, r.Private key s → Confined r key fun w => (run s w, ()))

include runs

theorem confined_runScript {script : Option Nat} (own : ∀ s ∈ script, r.Private key s) :
    Confined r key fun w => (w.runScript run script, ()) := by
  cases script with
  | none => exact .pure ()
  | some s => exact runs s (own s rfl)

/-- Whoever is called about a member is called by an event about it. -/
theorem confined_call {e : Event α} (only : ∀ k ≠ key, r.about k e = false) {script : Option Nat}
    (own : ∀ s ∈ script, r.Private key s) :
    Confined r key fun w => ((w.record e).runScript run script, ()) :=
  (confined_record only).next (confined_runScript runs own)

theorem confined_runHooks {hooks : Hooks}
    (own : ∀ h ∈ hooks.due true true, ∀ s ∈ h.2.script, r.Private key s) (response : Response) :
    Confined r key fun w => (w.runHooks run key hooks response, ()) :=
  .foldl fun h hh => confined_call runs (r.about_of_ne rfl) (own h (Hooks.due_subset hh))

theorem confined_push : Confined r key fun w => w.push run key := by
  refine .of_member ⟨false, fun w hm => by simp only [push, hm]⟩ fun m fits => ?_
  cases hs : m.body.link.setter with
  | none => exact ⟨_, .pure false, fun w hm => by simp only [push, hm, hs]⟩
  | some setter =>
    obtain ⟨own, scripts⟩ := fits.body.setter setter hs
    have recorded : Confined r key fun w => (w.record (.pushed key m.body.value), ()) :=
      confined_record (r.about_of_ne rfl)
    have stored := recorded.next ((confined_setVariable m.body.value).next
      ((confined_runScript runs scripts).next (.pure true)))
    exact ⟨_, stored, fun w hm => by simp only [push, hm, hs, own]⟩

variable [BEq α]

theorem confined_notify (change : Change α) :
    Confined r key fun w => (w.notify run key change, ()) := by
  refine .of_member ⟨(), fun w hm => ?_⟩ fun m fits => ?_
  · simp only [notify, hm, Option.bind_none]
  · cases audience : change.audience m.body.listeners with
    | none => exact ⟨_, .pure (), fun w hm => by simp only [notify, hm, Option.bind_some, audience]⟩
    | some listeners =>
      have told : Confined r key fun w =>
          (listeners.foldl (fun w l => w.call run key change l) w, ()) :=
        .foldl fun l hl => confined_call runs (r.about_of_ne rfl)
          (fits.body.listeners l (Change.mem_slots_of_audience audience hl))
      exact ⟨_, told, fun w hm => by simp only [notify, hm, Option.bind_some, audience]⟩

theorem confined_announce (change : Change α) :
    Confined r key fun w => (w.announce run key change, ()) :=
  (confined_record (r.about_of_ne rfl)).next
    (confined_notify runs change)

/-- A step is stored, recorded, told and pushed, all of it about one member. -/
theorem confined_settle {ρ : Type} {s : Step (Body α) α ρ} (fits : s.state.Fits r key) :
    Confined r key fun w => w.settle run key s := by
  have put := (confined_noteCheck s.checked).next (confined_setBody fits)
  cases hc : s.change with
  | none => exact (put.next (.pure s.reply)).congr fun w _ => by simp only [settle, hc]
  | some change =>
    have told := put.next ((confined_announce runs change).next
      ((confined_push runs).bind fun _ => .pure s.reply))
    exact told.congr fun w _ => by simp only [settle, hc]

theorem confined_commitPulled (v : α) : Confined r key fun w => w.commitPulled run key v := by
  refine .of_member ⟨false, fun w hm => by simp only [commitPulled, hm]⟩ fun m fits => ?_
  have put := confined_setBody (fits.body.commitPulled v)
  cases hc : (m.body.commitPulled v).change with
  | none =>
    exact ⟨_, put.next (.pure (m.body.commitPulled v).reply), fun w hm => by
      simp only [commitPulled, hm, hc]⟩
  | some change =>
    exact ⟨_, put.next ((confined_announce runs change).next (.pure (m.body.commitPulled v).reply)),
      fun w hm => by simp only [commitPulled, hm, hc]⟩

theorem confined_pull : Confined r key fun w => w.pull run key := by
  refine .of_member ⟨false, fun w hm => by simp only [pull, hm]⟩ fun m fits => ?_
  cases hg : m.body.link.getter with
  | none => exact ⟨_, .pure false, fun w hm => by simp only [pull, hm, hg]⟩
  | some getter =>
    obtain ⟨own, scripts⟩ := fits.body.getter getter hg
    cases pending : m.body.hasPending with
    | true => exact ⟨_, .pure false, fun w hm => by simp only [pull, hm, hg, pending, if_true]⟩
    | false =>
      have taken (v : α) := (confined_call runs (e := .read key v) (r.about_of_ne rfl) scripts).next
        (confined_commitPulled runs v)
      have read : Confined r key fun w => w.externals[key]?.elim (w, false) fun v =>
          ((w.record (.read key v)).runScript run getter.script).commitPulled run key v := by
        refine .of_outside fun v => ?_
        cases v with
        | none => exact ⟨_, .pure false, fun w hv => by simp only [hv, Option.elim_none]⟩
        | some v => exact ⟨_, taken v, fun w hv => by simp only [hv, Option.elim_some]⟩
      refine ⟨_, read, fun w hm => ?_⟩
      simp only [pull, hm, hg, pending, own, Bool.false_eq_true, if_false]
      cases w.externals[key]? <;> rfl

theorem confined_apply : Confined r key fun w => w.apply run key := by
  refine .of_member ⟨false, fun w hm => by simp only [World.apply, hm]⟩ fun m fits => ?_
  exact ⟨_, confined_settle runs fits.body.apply, fun w hm => by simp only [World.apply, hm]⟩

theorem confined_finishDraw (before : Body α) (stroke : Stroke α) :
    Confined r key fun w => w.finishDraw run key before stroke := by
  refine .of_member ⟨false, fun w hm => by simp only [finishDraw, hm]⟩ fun m fits => ?_
  exact ⟨_, confined_settle runs (fits.body.edit before stroke.response stroke.value),
    fun w hm => by simp only [finishDraw, hm]⟩

theorem confined_draw (label : String) : Confined r key fun w => w.draw run key label := by
  refine .of_member ⟨false, fun w hm => by simp only [draw, hm]⟩ fun m fits => ?_
  cases hw : m.widget with
  | none => exact ⟨_, .pure false, fun w hm => by simp only [draw, hm, hw]⟩
  | some widget =>
    have shown : Confined r key fun w => (w.record (.drew key (m.picture label)), ()) :=
      confined_record (r.about_of_ne rfl)
    have counted : Confined r key fun w =>
        (w.modify key fun m => { m with drawn := m.drawn + 1 }, ()) :=
      confined_modify fun _ old => ⟨old.body, old.widget⟩
    have stroked : Confined r key fun w =>
        ((widget m.drawn (m.picture label)).pokes.foldl (fun w p => w.poke run p) w, ()) :=
      confined_pokes run (fits.widget widget hw m.drawn (m.picture label))
    have drawn := shown.next (counted.next (stroked.next
      ((confined_runHooks runs fits.body.hooks (widget m.drawn (m.picture label)).response).next
        (confined_finishDraw runs m.body (widget m.drawn (m.picture label))))))
    exact ⟨_, drawn, fun w hm => by simp only [draw, hm, hw]⟩

/-- A command that leaves every member as it is stays with the member that it is given to. -/
theorem confined_look {c : Command α} (looks : c.looks = true) :
    Confined r key fun w => ((w.exec run key c).1, ()) := by
  cases reads : c.reads with
  | true => exact (Confined.pure ()).congr fun w _ => by rw [exec_of_reads run w key reads]
  | false =>
    rcases Command.writes_of_looks looks reads with ⟨v, rfl⟩ | rfl
    · refine .of_member ⟨(), fun w hm => by simp only [exec, hm]⟩ fun m _ => ?_
      exact ⟨_, confined_setVariable v, fun w hm => by simp only [exec, hm]⟩
    · refine .of_member ⟨(), fun w hm => by simp only [exec, hm]⟩ fun m _ => ?_
      cases answers : m.interface.answers .external with
      | false =>
        exact ⟨_, .pure (), fun w hm => by
          simp only [exec, hm, callThrough, Call.capability, answers, Bool.false_eq_true, if_false]⟩
      | true =>
        have pushed := (confined_push runs).bind fun _ => .pure ()
        exact ⟨_, pushed, fun w hm => by
          simp only [exec, hm, callThrough, Call.capability, answers, if_true]⟩

theorem confined_exec {c : Command α} (spares : c.Spares r.mute) :
    Confined r key fun w => ((w.exec run key c).1, ()) := by
  unfold Command.Spares at spares
  split at spares
  · rename_i name
    refine .of_member ⟨(), fun w hm => by simp only [exec, hm]⟩ fun m _ => ?_
    cases shared : m.body.shared with
    | false =>
      exact ⟨_, .pure (), fun w hm => by simp only [exec, hm, shared, Bool.false_eq_true, if_false]⟩
    | true =>
      exact ⟨_, confined_setHandle spares, fun w hm => by
        simp only [exec, hm, shared, execShared, if_true]⟩
  · exact confined_look runs spares

/-- An act that was taken is carried out, whatever taking it made of its budget. -/
theorem confined_act {s i : Nat} {t : Script α} (owner : t.owner = key) {a : Act α} (spares : a.Spares r.mute)
    {spend : World α → World α} (spent : Confined r key fun w => (spend w, ()))
    (takes : ∀ w, w.scripts[s]? = some t → w.takeAct s i = some (t, a, spend w)) :
    ∃ g, Confined r key g ∧ ∀ w, w.scripts[s]? = some t → (w.perform run s i, ()) = g w := by
  cases a with
  | command times c =>
    have done := (spent.next (confined_exec runs spares)).trailed
      (g := fun w => ((spend w).exec run key c).1.record (.acted t.who c ((spend w).exec run key c).2))
      fun w _ => .record _ fun _ => rfl
    exact ⟨_, done, fun w hs => by simp only [perform, takes w hs, owner]⟩
  | poke p =>
    have done := spent.trailed (g := fun w => (spend w).poke run p)
      fun w ho => untouched_poke (spent.orderly ho).toAbides spares run
    exact ⟨_, done, fun w hs => by simp only [perform, takes w hs]⟩

/-- One act of a script of the member's own. -/
theorem confined_perform {s : Nat} {text : Nat × List (Act α)} (here : r.texts[s]? = some text)
    (own : text.1 = key) (spares : ∀ a ∈ text.2, a.Spares r.mute) (writes : ¬r.Inert s) (i : Nat) :
    Confined r key fun w => (w.perform run s i, ()) := by
  refine .of_script here own writes fun t ht => ?_
  have owner : t.owner = key := (congrArg Prod.fst ht).trans own
  cases ha : t.acts[i]? with
  | none => exact ⟨_, .pure (), fun w hs => by simp only [perform, takeAct, hs, ha]⟩
  | some act =>
    obtain ⟨a, left⟩ := act
    have allowed := spares a (ht ▸ List.mem_map_of_mem (List.mem_of_getElem? ha))
    match left with
    | none =>
      exact confined_act runs owner allowed (.pure ()) fun w hs => by simp only [takeAct, hs, ha]
    | some 0 => exact ⟨_, .pure (), fun w hs => by simp only [perform, takeAct, hs, ha]⟩
    | some (left + 1) =>
      have same := (Script.text_spend ha (some left)).trans ht
      exact confined_act runs owner allowed (confined_spend here own same) fun w hs => by
        simp only [takeAct, hs, ha]

end Running

variable [BEq α] {r : Regime α} {key : Nat}

/-- Induction on the depth: what an act of the script sets off are scripts of the same member. -/
theorem confined_react (depth : Nat) (s : Nat) (own : r.Private key s) :
    Confined r key fun w => (react depth s w, ()) := by
  induction depth generalizing s with
  | zero => exact .pure ()
  | succ depth ih =>
    -- Scripts that only read may be shared by members, so that their budgets differ; nobody notices.
    by_cases inert : r.Inert s
    · exact .untouched fun w ho => untouched_react ho.toAbides inert (depth + 1)
    · rcases own with reads | own
      · exact absurd reads inert
      · cases here : r.texts[s]? with
        | none => exact absurd (fun text ht => by cases here.symm.trans ht) inert
        | some text =>
          obtain ⟨mine, spares⟩ := own text here
          have acts : Confined r key fun w =>
              ((List.range text.2.length).foldl (fun w i => w.perform (react depth) s i) w, ()) :=
            .foldl fun i _ => confined_perform ih here mine spares inert i
          refine acts.congr fun w ho => ?_
          have known : w.scripts[s]?.map Script.text = some text := by
            rw [← List.getElem?_map, ho.texts, here]
          obtain ⟨t, ht, rfl⟩ := Option.map_eq_some_iff.mp known
          have count : w.actCount s = t.text.2.length := by simp [actCount, ht, Script.text]
          simp only [react, count]

end World

end BoundValues
