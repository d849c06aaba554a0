import BoundValues.Proofs.Calm

namespace BoundValues

variable {α : Type}

/-- Commands that leave every member and every variable as it is. -/
def Command.reads : Command α → Bool
  | .setOutside _ | .call .push => false
  | c => c.looks

def Act.Reads (mute : String → Prop) : Act α → Prop
  | .command _ c => c.reads = true
  | .poke p => mute p.handle

/-- What stays as it is while members are at work: the texts of the scripts, and handles that lead to
no member. `signs` are the events of a container that are about a member. -/
structure Regime (α : Type) where
  texts : List (Nat × List (Act α))
  mute : String → Prop
  signs : Nat → Event α → Bool := fun _ _ => false

def Event.key? : Event α → Option Nat
  | .validated k _ | .read k _ | .pushed k _ | .committed k _ | .notified k .. | .drew k _
  | .hooked k .. => some k
  | _ => none

namespace Regime

variable (r : Regime α)

/-- Whether an event is about the member under a key. What scripts do is not. -/
def about (key : Nat) : Event α → Bool
  | .poked .. | .acted .. => false
  | e => e.key?.elim (r.signs key e) (· == key)

theorem about_of_ne {e : Event α} {key : Nat} (h : e.key? = some key) (k : Nat) (other : k ≠ key) :
    r.about k e = false := by
  cases e <;> simp_all [about, Event.key?, Ne.symm]

/-- A script that only reads, as far as it is there at all. -/
def Inert (s : Nat) : Prop := ∀ text, r.texts[s]? = some text → ∀ a ∈ text.2, a.Reads r.mute

end Regime

namespace World

variable {r : Regime α} {w w' w'' : World α} {key : Nat}

structure Abides (r : Regime α) (w : World α) : Prop where
  texts : w.scripts.map Script.text = r.texts
  mute : ∀ name, r.mute name → w.Mute name

def regime (w : World α) : Regime α := { texts := w.scripts.map Script.text, mute := w.Mute }

theorem abides_regime (w : World α) : w.Abides w.regime := ⟨rfl, fun _ => id⟩

/-- Nothing but budgets and the log is different. -/
structure Stays (w w' : World α) : Prop where
  slots : w'.slots = w.slots
  externals : w'.externals = w.externals
  handles : w'.handles = w.handles
  texts : w'.scripts.map Script.text = w.scripts.map Script.text

theorem Stays.refl (w : World α) : Stays w w := ⟨rfl, rfl, rfl, rfl⟩

theorem Stays.trans (h : Stays w w') (h' : Stays w' w'') : Stays w w'' where
  slots := h'.slots.trans h.slots
  externals := h'.externals.trans h.externals
  handles := h'.handles.trans h.handles
  texts := h'.texts.trans h.texts

theorem Stays.record (w : World α) (e : Event α) : Stays w (w.record e) := ⟨rfl, rfl, rfl, rfl⟩

theorem Stays.member? (h : Stays w w') (key : Nat) : w'.member? key = w.member? key := by
  simp only [World.member?, h.slots]

theorem Stays.setMember (h : Stays w w') (key : Nat) (m : Member α) :
    Stays (w.setMember key m) (w'.setMember key m) :=
  ⟨by simp only [World.setMember, h.slots], h.externals, h.handles, h.texts⟩

theorem Stays.abides (h : Stays w w') (abides : w.Abides r) : w'.Abides r := by
  refine ⟨h.texts.trans abides.texts, fun name muted key hk => ?_⟩
  rw [handleKey?, h.handles] at hk
  exact (h.member? key).trans (abides.mute name muted key hk)

/-- Of scripts that only read the budgets may be different, and in the log what scripts recorded of
themselves. -/
structure Untouched (r : Regime α) (w w' : World α) : Prop extends Stays w w' where
  scripts (s : Nat) : ¬r.Inert s → w'.scripts[s]? = w.scripts[s]?
  log (key : Nat) : w'.log.filter (r.about key) = w.log.filter (r.about key)

theorem Untouched.refl (w : World α) : Untouched r w w := ⟨.refl w, fun _ _ => rfl, fun _ => rfl⟩

theorem Untouched.trans (h : Untouched r w w') (h' : Untouched r w' w'') : Untouched r w w'' where
  toStays := h.toStays.trans h'.toStays
  scripts s touched := (h'.scripts s touched).trans (h.scripts s touched)
  log key := (h'.log key).trans (h.log key)

/-- What is about nobody is not noticed. -/
theorem Untouched.record (w : World α) {e : Event α} (aside : ∀ key, r.about key e = false) :
    Untouched r w (w.record e) := by
  refine ⟨.record w e, fun _ _ => rfl, fun key => ?_⟩
  simp [World.record, aside key]

theorem untouched_foldl {β : Type} {f : World α → β → World α}
    (hf : ∀ w x, w.Abides r → Untouched r w (f w x)) (xs : List β) (abides : w.Abides r) :
    Untouched r w (xs.foldl f w) := by
  induction xs generalizing w with
  | nil => exact .refl w
  | cons x xs ih =>
    have first := hf w x abides
    exact first.trans (ih (first.abides abides))

/-- Taking an act of a script that only reads is not noticed. -/
theorem takeAct_untouched (abides : w.Abides r) {script i : Nat} (inert : r.Inert script)
    {s : Script α} {a : Act α} (taken : w.takeAct script i = some (s, a, w')) :
    a.Reads r.mute ∧ Untouched r w w' := by
  obtain ⟨text, mem, rests⟩ := takeAct_text (t := Tally.full) taken
  obtain ⟨-, -, s', -, -, rfl⟩ := takeAct_spends taken
  refine ⟨inert _ (abides.texts ▸ text) a mem, ⟨rfl, rfl, rfl, rests.scripts⟩,
    fun other touched => ?_, fun _ => rfl⟩
  refine List.getElem?_set_ne ?_
  rintro rfl
  exact touched inert

variable [BEq α]

theorem exec_of_reads (run : Runner α) (w : World α) (key : Nat) {c : Command α}
    (reads : c.reads = true) : (w.exec run key c).1 = w := by
  have looks : c.looks = true := by
    unfold Command.reads at reads
    split at reads
    · cases reads
    · cases reads
    · exact reads
  rcases exec_of_looks run w key looks with stays | ⟨v, rfl, -⟩ | ⟨rfl, -⟩
  · exact stays
  · cases reads
  · cases reads

theorem untouched_poke (abides : w.Abides r) {p : Poke α} (mute : r.mute p.handle)
    (run : Runner α) : Untouched r w (w.poke run p) := by
  unfold poke
  cases hk : w.handleKey? p.handle with
  | none => exact .record w fun _ => rfl
  | some key =>
    simp only [setShared, abides.mute _ mute key hk]
    exact .record w fun _ => rfl

/-- The act is taken, and what it asks for leaves the world as it is. -/
theorem untouched_perform (abides : w.Abides r) {script : Nat} (inert : r.Inert script)
    (run : Runner α) (i : Nat) : Untouched r w (w.perform run script i) := by
  unfold perform
  split
  · exact .refl w
  · rename_i s times c w' taken
    obtain ⟨reads, spent⟩ := takeAct_untouched abides inert taken
    dsimp only
    rw [exec_of_reads run w' s.owner reads]
    exact spent.trans (.record _ fun _ => rfl)
  · rename_i s p w' taken
    obtain ⟨mute, spent⟩ := takeAct_untouched abides inert taken
    exact spent.trans (untouched_poke (spent.abides abides) mute run)

/-- Scripts that only read set off nothing, so that no induction on the depth is needed. -/
theorem untouched_react (abides : w.Abides r) {script : Nat} (inert : r.Inert script) (depth : Nat) :
    Untouched r w (react depth script w) := by
  cases depth with
  | zero => exact .refl w
  | succ depth =>
    exact untouched_foldl (fun w i abides => untouched_perform abides inert (react depth) i) _ abides

theorem untouched_runScript (abides : w.Abides r) {script : Option Nat}
    (inert : ∀ s ∈ script, r.Inert s) (depth : Nat) :
    Untouched r w (w.runScript (react depth) script) := by
  cases script with
  | none => exact .refl w
  | some s => exact untouched_react abides (inert s rfl) depth

end World

end BoundValues
