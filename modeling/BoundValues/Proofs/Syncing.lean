import BoundValues.Proofs.Passes
import BoundValues.Proofs.Reading

namespace BoundValues

variable {α : Type}

namespace Member

/-- A member that is linked both ways to the variable under its key. Whoever is told of its commits, or
is called when it is read or stored, only reads. -/
structure Synced (r : Regime α) (key : Nat) (m : Member α) : Prop where
  getter : ∃ getter, m.body.link.getter = some getter ∧ getter.external = key ∧
    ∀ s ∈ getter.script, r.Inert s
  setter : ∃ setter, m.body.link.setter = some setter ∧ setter.external = key ∧
    ∀ s ∈ setter.script, r.Inert s
  listeners : ∀ l ∈ m.body.listeners.slots, ∀ s ∈ l.script, r.Inert s

variable [BEq α]

/-- Whether a pull finds a value that the member lacks: it is linked, no edit waits in it, and the
variable differs. -/
def diverges (v : α) (m : Member α) : Bool :=
  m.body.link.linked && !m.body.hasPending && m.body.value != v

def pulled (v : α) (m : Member α) : Member α :=
  if m.diverges v then { m with body := (m.body.commitPulled v).state } else m

end Member

structure View (α : Type) where
  member : Option (Member α)
  outside : Option α

namespace View

def linked (o : View α) : Bool := o.member.any fun m => m.body.link.linked

def pushed (o : View α) : View α :=
  { o with outside := if o.linked then o.member.map fun m => m.body.value else o.outside }

variable [BEq α]

def diverges (o : View α) : Bool := o.member.any fun m => o.outside.any fun v => m.diverges v

def pulled (o : View α) : View α :=
  { o with member := o.member.map fun m => o.outside.elim m fun v => m.pulled v }

end View

def World.view (w : World α) (key : Nat) : View α := ⟨w.member? key, w.externals[key]?⟩

section Taking

variable [BEq α] {b : Body α} {v : α}

/-- A linked body without a waiting edit takes over just what differs. -/
theorem Body.commitPulled_of_settled (linked : b.link.linked = true) (settled : b.hasPending = false) :
    if b.value == v then b.commitPulled v = { state := b, reply := false }
    else (b.commitPulled v).reply = true ∧ (b.commitPulled v).state.value = v ∧
      (b.commitPulled v).state.source? = some .external := by
  cases b with
  | plain p => cases linked
  | config c => cases linked
  | monitored m =>
    simp only [value, cell, commitPulled, Monitored.commitPulled, Monitored.commitFrom]
    split
    · rfl
    · exact ⟨rfl, rfl, rfl⟩
  | captioned m caption =>
    simp only [value, cell, commitPulled, Monitored.commitPulled, Monitored.commitFrom]
    split
    · rfl
    · exact ⟨rfl, rfl, rfl⟩
  | full f =>
    have settled : f.hasPending = false := settled
    simp only [value, cell, commitPulled, Full.commitPulled, settled, Bool.false_or]
    split
    · rfl
    · exact ⟨rfl, rfl, rfl⟩

namespace Member

variable {m : Member α}

theorem diverges_of_settled (linked : m.body.link.linked = true) (settled : m.body.hasPending = false) :
    m.diverges v = (m.body.value != v) := by
  simp [diverges, linked, settled]

/-- Taking over what was read makes of a settled member just what a pull makes of it. -/
theorem commitPulled_eq_pulled (linked : m.body.link.linked = true)
    (settled : m.body.hasPending = false) :
    { m with body := (m.body.commitPulled v).state } = m.pulled v ∧
      (m.body.commitPulled v).reply = m.diverges v := by
  have takes := Body.commitPulled_of_settled (v := v) linked settled
  rw [pulled, diverges_of_settled linked settled, bne]
  cases same : m.body.value == v with
  | true =>
    rw [if_pos same] at takes
    rw [takes]
    exact ⟨rfl, rfl⟩
  | false =>
    rw [if_neg (by simp [same])] at takes
    exact ⟨rfl, takes.1⟩

/-- A member that lacked a value has it after the pull, and knows where it came from. -/
theorem pulled_of_diverges (diverges : m.diverges v = true) :
    (m.pulled v).body.value = v ∧ (m.pulled v).body.source? = some .external := by
  obtain ⟨⟨linked, settled⟩, differs⟩ : (m.body.link.linked = true ∧ m.body.hasPending = false) ∧
      (m.body.value == v) = false := by
    simpa [Member.diverges, bne] using diverges
  have takes := Body.commitPulled_of_settled (v := v) linked settled
  rw [if_neg (by simp [differs])] at takes
  rw [pulled, if_pos diverges]
  exact takes.2

theorem pulled_of_agrees (agrees : m.diverges v = false) : m.pulled v = m := by
  simp [pulled, agrees]

/-- Nothing is left to pull from a variable that was just pulled. -/
theorem diverges_pulled [LawfulBEq α] (m : Member α) (v : α) : (m.pulled v).diverges v = false := by
  cases h : m.diverges v with
  | true =>
    have value := (pulled_of_diverges h).1
    simp [Member.diverges, value]
  | false => rw [pulled_of_agrees h, h]

end Member

end Taking

namespace World

variable {r : Regime α} {w w' : World α} {key : Nat} {m : Member α}

theorem stays_foldl {β : Type} {f : World α → β → World α} {xs : List β}
    (hf : ∀ w, ∀ x ∈ xs, w.Abides r → Stays w (f w x)) (abides : w.Abides r) :
    Stays w (xs.foldl f w) := by
  induction xs generalizing w with
  | nil => exact .refl w
  | cons x xs ih =>
    have first := hf w x List.mem_cons_self abides
    exact first.trans (ih (fun w y hy => hf w y (List.mem_cons_of_mem x hy)) (first.abides abides))

theorem stays_setMember (abides : w.Abides r) (hm : w.member? key = some m) (m' : Member α) :
    (w.setMember key m').Abides r :=
  ⟨abides.texts, fun name muted => (mute_setMember hm m').symm ▸ abides.mute name muted⟩

theorem push_of_unlinked (hm : w.member? key = some m) (unlinked : m.body.link.linked = false)
    (run : Runner α) : w.push run key = (w, false) := by
  have setter : m.body.link.setter = none := by
    simp only [Link.linked, Bool.or_eq_false_iff, Option.isSome_eq_false_iff, Option.isNone_iff_eq_none]
      at unlinked
    exact unlinked.2
  simp only [World.push, hm, setter]

variable [BEq α] (depth : Nat)

theorem stays_record_runScript (abides : w.Abides r) (e : Event α) {script : Option Nat}
    (inert : ∀ s ∈ script, r.Inert s) : Stays w ((w.record e).runScript (react depth) script) := by
  have recorded := Stays.record w e
  exact recorded.trans (untouched_runScript (recorded.abides abides) inert depth).toStays

/-- Telling listeners that only read changes no member and no variable. -/
theorem stays_announce (abides : w.Abides r) (hm : w.member? key = some m)
    (inert : ∀ l ∈ m.body.listeners.slots, ∀ s ∈ l.script, r.Inert s) (change : Change α) :
    Stays w (w.announce (react depth) key change) := by
  have recorded := Stays.record w (.committed key change)
  refine recorded.trans ?_
  unfold announce notify
  rw [recorded.member? key, hm, Option.bind_some]
  cases audience : change.audience m.body.listeners with
  | none => exact .refl _
  | some listeners =>
    refine stays_foldl (r := r) (fun w l hl abides => ?_) (recorded.abides abides)
    exact stays_record_runScript depth abides _ (inert l (Change.mem_slots_of_audience audience hl))

/-- Taking over tells only those who read. -/
theorem stays_commitPulled (abides : w.Abides r) (hm : w.member? key = some m)
    (synced : m.Synced r key) (v : α) :
    Stays (w.setMember key { m with body := (m.body.commitPulled v).state })
      (w.commitPulled (react depth) key v).1 := by
  have listeners : (m.body.commitPulled v).state.listeners = m.body.listeners :=
    m.body.commitPulled_listeners v
  simp only [commitPulled, hm, mapBody_of_member? hm]
  split
  · refine stays_announce depth (stays_setMember abides hm _) (member?_setMember_self hm _) ?_ _
    rw [listeners]
    exact synced.listeners
  · exact .refl _

theorem commitPulled_reply {run : Runner α} (hm : w.member? key = some m) (v : α) :
    (w.commitPulled run key v).2 = (m.body.commitPulled v).reply := by
  simp only [commitPulled, hm]
  split <;> rfl

theorem pull_of_unlinked (hm : w.member? key = some m) (unlinked : m.body.link.linked = false)
    (run : Runner α) : w.pull run key = (w, false) := by
  have getter : m.body.link.getter = none := by
    simp only [Link.linked, Bool.or_eq_false_iff, Option.isSome_eq_false_iff, Option.isNone_iff_eq_none]
      at unlinked
    exact unlinked.1
  simp only [World.pull, hm, getter]

/-- A pull takes over what the member lacks, and nothing else. -/
theorem pull_synced (abides : w.Abides r) (hm : w.member? key = some m)
    (synced : m.body.link.linked = true → m.Synced r key) {v : α} (hv : w.externals[key]? = some v) :
    Stays (w.setMember key (m.pulled v)) (w.pull (react depth) key).1 ∧
      (w.pull (react depth) key).2 = m.diverges v := by
  cases linked : m.body.link.linked with
  | false =>
    have same : m.diverges v = false := by simp [Member.diverges, linked]
    rw [pull_of_unlinked hm linked, Member.pulled, same, if_neg Bool.false_ne_true, setMember_self hm]
    exact ⟨.refl w, rfl⟩
  | true =>
    obtain ⟨getter, hg, own, inert⟩ := (synced linked).getter
    cases pending : m.body.hasPending with
    | true =>
      have same : m.diverges v = false := by simp [Member.diverges, pending]
      rw [Member.pulled, same, if_neg Bool.false_ne_true, setMember_self hm]
      simp only [World.pull, hm, hg, pending, if_true]
      exact ⟨.refl w, trivial⟩
    | false =>
      have read := stays_record_runScript depth abides (.read key v) inert
      have hm' := (read.member? key).trans hm
      have taken := stays_commitPulled depth (read.abides abides) hm' (synced linked) v
      obtain ⟨pulled, told⟩ := Member.commitPulled_eq_pulled (v := v) linked pending
      simp only [World.pull, hm, hg, own, pending, hv, Bool.false_eq_true, if_false]
      refine ⟨pulled ▸ (read.setMember key _).trans taken, ?_⟩
      rw [← told]
      exact commitPulled_reply hm' v

/-- A push stores the committed value of a synced member, and does nothing else. -/
theorem push_synced (abides : w.Abides r) (hm : w.member? key = some m) (synced : m.Synced r key) :
    Stays (w.setVariable key m.body.value) (w.push (react depth) key).1 ∧
      (w.push (react depth) key).2 = true := by
  obtain ⟨setter, hs, own, inert⟩ := synced.setter
  have stored : Stays (w.setVariable key m.body.value)
      ((w.record (.pushed key m.body.value)).setVariable key m.body.value) := ⟨rfl, rfl, rfl, rfl⟩
  have abides' : (w.setVariable key m.body.value).Abides r := ⟨abides.texts, abides.mute⟩
  simp only [World.push, hm, hs, own]
  exact ⟨stored.trans (untouched_runScript (stored.abides abides') inert depth).toStays, trivial⟩

end World

/-- A member with its variable, ready to be synced: when it is linked at all, it is linked both ways. -/
structure View.Ready (r : Regime α) (key : Nat) (o : View α) : Prop where
  present : ∃ m v, o = ⟨some m, some v⟩ ∧ (m.body.link.linked = true → m.Synced r key)

namespace View

variable {o : View α} {r : Regime α} {key : Nat}

theorem pushed_of_unlinked (unlinked : o.linked = false) : o.pushed = o := by
  simp [pushed, unlinked]

theorem Ready.pushed (h : o.Ready r key) : o.pushed.Ready r key := by
  obtain ⟨m, v, rfl, synced⟩ := h.present
  refine ⟨m, if m.body.link.linked then m.body.value else v, ?_, synced⟩
  cases linked : m.body.link.linked <;> simp [View.pushed, View.linked, linked]

variable [BEq α]

theorem pulled_of_agrees (agrees : o.diverges = false) : o.pulled = o := by
  obtain ⟨m, v⟩ := o
  cases m with
  | none => rfl
  | some m =>
    cases v with
    | none => rfl
    | some v =>
      have same : m.diverges v = false := by simpa [diverges] using agrees
      simp [pulled, Member.pulled_of_agrees same]

theorem Ready.pulled (h : o.Ready r key) : o.pulled.Ready r key := by
  obtain ⟨m, v, rfl, synced⟩ := h.present
  have moves : m.body.Moves (fun _ => False) _ _ := m.body.commitPulled_moves v
  have faithful := moves.faithful
  refine ⟨m.pulled v, v, rfl, ?_⟩
  unfold Member.pulled
  split
  · intro linked
    obtain ⟨getter, setter, listeners⟩ := synced (faithful.link ▸ linked)
    exact ⟨faithful.link ▸ getter, faithful.link ▸ setter, faithful.listeners ▸ listeners⟩
  · exact synced

variable [LawfulBEq α]

/-- Nothing is left to pull from a variable that was just pulled. -/
theorem diverges_pulled (o : View α) : o.pulled.diverges = false := by
  obtain ⟨m, v⟩ := o
  cases m with
  | none => rfl
  | some m =>
    cases v with
    | none => rfl
    | some v => exact Member.diverges_pulled m v

/-- A variable that the committed value was just stored in does not differ from it. -/
theorem diverges_pushed (o : View α) : o.pushed.diverges = false := by
  obtain ⟨m, v⟩ := o
  cases m with
  | none => rfl
  | some m =>
    cases linked : m.body.link.linked with
    | false => cases v <;> simp [diverges, pushed, View.linked, Member.diverges, linked]
    | true => simp [diverges, pushed, View.linked, Member.diverges, linked]

end View

namespace World

structure Syncs (r : Regime α) (becomes : View α → View α) (counts : View α → Bool) (key : Nat)
    (w : World α) (out : World α × Bool) : Prop where
  abides : out.1.Abides r
  here : out.1.view key = becomes (w.view key)
  others (k : Nat) : k ≠ key → out.1.view k = w.view k
  reply : out.2 = counts (w.view key)

variable {r : Regime α} {w w' : World α} {key : Nat}

theorem Stays.view (h : Stays w w') (k : Nat) : w'.view k = w.view k := by
  simp only [World.view, h.member?, h.externals]

variable [BEq α] (depth : Nat)

/-- A pull changes the member, and no variable. -/
theorem syncs_pull (abides : w.Abides r) (ready : (w.view key).Ready r key) :
    Syncs r View.pulled View.diverges key w (w.pull (react depth) key) := by
  obtain ⟨m, v, seen, synced⟩ := ready.present
  obtain ⟨hm, hv⟩ := View.mk.inj seen
  obtain ⟨stays, told⟩ := pull_synced depth abides hm synced hv
  refine ⟨stays.abides (stays_setMember abides hm _), ?_, fun k hk => ?_, ?_⟩
  · rw [stays.view, seen]
    simp only [view, member?_setMember_self hm]
    exact congrArg (View.mk _) hv
  · rw [stays.view]
    simp only [view, member?_setMember_of_ne hk]
    rfl
  · rw [told, seen]
    rfl

/-- A push changes the variable, and no member. -/
theorem syncs_push (abides : w.Abides r) (ready : (w.view key).Ready r key) :
    Syncs r View.pushed View.linked key w (w.push (react depth) key) := by
  obtain ⟨m, v, seen, synced⟩ := ready.present
  obtain ⟨hm, hv⟩ := View.mk.inj seen
  cases linked : m.body.link.linked with
  | false =>
    rw [push_of_unlinked hm linked]
    refine ⟨abides, ?_, fun _ _ => rfl, ?_⟩
    · simp [seen, View.pushed, View.linked, linked]
    · simp [seen, View.linked, linked]
  | true =>
    obtain ⟨stays, told⟩ := push_synced depth abides hm (synced linked)
    have abides' : (w.setVariable key m.body.value).Abides r := ⟨abides.texts, abides.mute⟩
    refine ⟨stays.abides abides', ?_, fun k hk => ?_, ?_⟩
    · obtain ⟨inside, -⟩ := List.getElem?_eq_some_iff.mp hv
      rw [stays.view, seen]
      simp only [view, setVariable, List.getElem?_set_self inside, View.pushed, View.linked, linked,
        Option.any_some, if_true, Option.map_some]
      exact congrArg (View.mk · _) hm
    · rw [stays.view]
      simp only [view, setVariable, List.getElem?_set_ne (Ne.symm hk)]
      rfl
    · simp [told, seen, View.linked, linked]

end World

namespace Container

open World

structure Swept (r : Regime α) (becomes : View α → View α) (counts : View α → Bool) (es : List Entry)
    (w : World α) (out : World α × Nat) : Prop where
  abides : out.1.Abides r
  here : ∀ e ∈ es, out.1.view e.key = becomes (w.view e.key)
  others : ∀ key ∉ es.map Entry.key, out.1.view key = w.view key
  count : out.2 = (es.filter fun e => counts (w.view e.key)).length

section Sweeps

variable {r : Regime α} {becomes : View α → View α} {counts : View α → Bool} {es : List Entry}
  {w : World α} {out : World α × Nat}

/-- Induction on the entries: each member is met once, and the others are not touched meanwhile. -/
theorem sweep_swept {act : Nat → World α → World α × Bool}
    (acts : ∀ {w key}, w.Abides r → (w.view key).Ready r key → Syncs r becomes counts key w (act key w))
    (keys : (es.map Entry.key).Nodup) (abides : w.Abides r)
    (ready : ∀ e ∈ es, (w.view e.key).Ready r e.key) :
    Swept r becomes counts es w (sweep act es w) := by
  induction es generalizing w with
  | nil => exact ⟨abides, by simp, fun _ _ => rfl, rfl⟩
  | cons e es ih =>
    rw [List.map_cons, List.nodup_cons] at keys
    obtain ⟨absent, keys⟩ := keys
    have first := acts abides (ready e List.mem_cons_self)
    have apart {f : Entry} (hf : f ∈ es) : (act e.key w).1.view f.key = w.view f.key :=
      first.others f.key fun same => absent (same ▸ List.mem_map_of_mem hf)
    have rest := ih keys first.abides fun f hf => apart hf ▸ ready f (List.mem_cons_of_mem e hf)
    rw [sweep_cons]
    refine ⟨rest.abides, ?_, ?_, ?_⟩
    · intro f hf
      rcases List.mem_cons.mp hf with rfl | hf
      · exact (rest.others _ absent).trans first.here
      · exact (rest.here f hf).trans (congrArg becomes (apart hf))
    · intro key hk
      rw [List.map_cons, List.mem_cons, not_or] at hk
      exact (rest.others key hk.2).trans (first.others key hk.1)
    · have same : (es.filter fun f => counts ((act e.key w).1.view f.key)) =
          es.filter fun f => counts (w.view f.key) :=
        List.filter_congr fun f hf => by rw [apart hf]
      dsimp only
      rw [rest.count, same, first.reply, List.filter_cons]
      split <;> simp [Nat.add_comm]

/-- A member that is not counted is left as it is. -/
theorem Swept.leaves (h : Swept r becomes counts es w out)
    (fixed : ∀ o, counts o = false → becomes o = o) {key : Nat}
    (uncounted : key ∉ (es.filter fun e => counts (w.view e.key)).map Entry.key) :
    out.1.view key = w.view key := by
  by_cases hk : key ∈ es.map Entry.key
  · obtain ⟨e, he, rfl⟩ := List.mem_map.mp hk
    cases counted : counts (w.view e.key) with
    | false => exact (h.here e he).trans (fixed _ counted)
    | true => exact absurd (List.mem_map_of_mem (List.mem_filter.mpr ⟨he, counted⟩)) uncounted
  · exact h.others key hk

/-- What one member's turn keeps of each view, the pass keeps of each view. -/
theorem Swept.keeps (h : Swept r becomes counts es w out) {β : Type} {f : View α → β}
    (kept : ∀ o, f (becomes o) = f o) (key : Nat) : f (out.1.view key) = f (w.view key) := by
  by_cases hk : key ∈ es.map Entry.key
  · obtain ⟨e, he, rfl⟩ := List.mem_map.mp hk
    exact (congrArg f (h.here e he)).trans (kept _)
  · exact congrArg f (h.others key hk)

end Sweeps

/-- Whatever members are linked, are linked both ways to variables of their own, and who is called
about them only reads. -/
def Synced (c : Container α) : Prop :=
  ∀ e ∈ c.entries, ∀ m, c.world.member? e.key = some m → m.body.link.linked = true →
    m.Synced c.world.regime e.key

def linkedEntries (c : Container α) : List Entry :=
  c.entries.filter fun e => (c.world.view e.key).linked

theorem Sound.ready {c : Container α} (h : c.Sound) (synced : c.Synced) {e : Entry} (he : e ∈ c.entries) :
    (c.world.view e.key).Ready c.world.regime e.key := by
  obtain ⟨m, hm, -⟩ := h.members e he
  have inside : e.key < c.world.externals.length := h.aligned ▸ h.key_lt he
  refine ⟨m, c.world.externals[e.key], ?_, synced e he m hm⟩
  simp only [view, hm, List.getElem?_eq_getElem inside]

section Converging

variable [BEq α] {c : Container α} {r : Regime α}

/-- The entries whose members lack the value outside: they are linked, no edit waits in them, and the
variable differs. -/
def divergingEntries (c : Container α) : List Entry :=
  c.entries.filter fun e => (c.world.view e.key).diverges

/-- What syncing all members comes to, in either direction. -/
structure Converges (c : Container α) (run : Runner α) : Prop where
  pull_counts : (c.pullAll run).2 = c.divergingEntries.length
  pull_takes {e : Entry} (lacks : e ∈ c.divergingEntries) : ∃ m v,
    c.world.member? e.key = some m ∧ c.world.externals[e.key]? = some v ∧
      (c.pullAll run).1.world.member? e.key = some (m.pulled v) ∧
      (m.pulled v).body.value = v ∧ (m.pulled v).body.source? = some .external
  pull_leaves {key : Nat} (settled : key ∉ c.divergingEntries.map Entry.key) :
    (c.pullAll run).1.world.member? key = c.world.member? key
  pull_stores (key : Nat) : (c.pullAll run).1.world.externals[key]? = c.world.externals[key]?
  pull_again : ((c.pullAll run).1.pullAll run).2 = 0
  push_counts : (c.pushAll run).2 = c.linkedEntries.length
  push_stores {e : Entry} (linked : e ∈ c.linkedEntries) : ∃ m, c.world.member? e.key = some m ∧
    (c.pushAll run).1.world.externals[e.key]? = some m.body.value
  push_leaves {key : Nat} (unlinked : key ∉ c.linkedEntries.map Entry.key) :
    (c.pushAll run).1.world.externals[key]? = c.world.externals[key]?
  push_members (key : Nat) : (c.pushAll run).1.world.member? key = c.world.member? key
  pull_after_push : ((c.pushAll run).1.pullAll run).2 = 0

variable (depth : Nat)

/-- Where no member lacks a value, pulling comes to nothing. -/
theorem pullAll_of_settled (keys : (c.entries.map Entry.key).Nodup) (abides : c.world.Abides r)
    (ready : ∀ e ∈ c.entries, (c.world.view e.key).Ready r e.key)
    (settled : ∀ e ∈ c.entries, (c.world.view e.key).diverges = false) :
    (c.pullAll (react depth)).2 = 0 := by
  have swept := sweep_swept (fun abides ready => syncs_pull depth abides ready) keys abides ready
  refine swept.count.trans (List.length_eq_zero_iff.mpr (List.filter_eq_nil_iff.mpr fun e he => ?_))
  rw [settled e he]
  exact Bool.false_ne_true

/-- After a pass that leaves no member without the value outside, pulling comes to nothing. -/
theorem Swept.pullAll_settled {becomes : View α → View α} {counts : View α → Bool}
    {out : World α × Nat} (h : Swept r becomes counts c.entries c.world out)
    (keys : (c.entries.map Entry.key).Nodup)
    (ready : ∀ e ∈ c.entries, (becomes (c.world.view e.key)).Ready r e.key)
    (settles : ∀ o, (becomes o).diverges = false) :
    (({ c with world := out.1 } : Container α).pullAll (react depth)).2 = 0 := by
  refine pullAll_of_settled depth keys h.abides (fun e he => ?_) fun e he => ?_
  · exact h.here e he ▸ ready e he
  · exact (congrArg View.diverges (h.here e he)).trans (settles _)

/-- **Convergence.** Pulling all members takes over just the variables that differ, pushing all members
stores their committed values and changes no member, and after either there is nothing to pull. -/
theorem bulk_sync_converges [LawfulBEq α] (reached : c.Reached) (synced : c.Synced) (depth : Nat) :
    c.Converges (react depth) := by
  have keys := reached.sound.keys
  have abides := c.world.abides_regime
  have ready : ∀ e ∈ c.entries, (c.world.view e.key).Ready c.world.regime e.key :=
    fun e he => reached.sound.ready synced he
  have pulls := sweep_swept (fun abides ready => syncs_pull depth abides ready) keys abides ready
  have pushes := sweep_swept (fun abides ready => syncs_push depth abides ready) keys abides ready
  refine ⟨pulls.count, ?_, ?_, ?_, ?_, pushes.count, ?_, ?_, ?_, ?_⟩
  · intro e lacks
    obtain ⟨he, diverges⟩ := List.mem_filter.mp lacks
    obtain ⟨m, v, seen, -⟩ := (ready e he).present
    obtain ⟨hm, hv⟩ := View.mk.inj seen
    have lacking : m.diverges v = true := by simpa [seen, View.diverges] using diverges
    have taken := pulls.here e he
    rw [seen] at taken
    exact ⟨m, v, hm, hv, congrArg View.member taken, Member.pulled_of_diverges lacking⟩
  · intro key settled
    exact congrArg View.member (pulls.leaves (fun _ => View.pulled_of_agrees) settled)
  · exact fun key => pulls.keeps (f := View.outside) (fun _ => rfl) key
  · exact pulls.pullAll_settled depth keys (fun e he => (ready e he).pulled) View.diverges_pulled
  · intro e linked
    obtain ⟨he, linked⟩ := List.mem_filter.mp linked
    obtain ⟨m, v, seen, -⟩ := (ready e he).present
    have stored := pushes.here e he
    rw [seen] at stored linked
    refine ⟨m, congrArg View.member seen, (congrArg View.outside stored).trans ?_⟩
    simp [View.pushed, linked]
  · intro key unlinked
    exact congrArg View.outside (pushes.leaves (fun _ => View.pushed_of_unlinked) unlinked)
  · exact fun key => pushes.keeps (f := View.member) (fun _ => rfl) key
  · exact pushes.pullAll_settled depth keys (fun e he => (ready e he).pushed) View.diverges_pushed

end Converging

/-- A container is synced when all scripts only read and its members are linked to their own variables. -/
theorem synced_of_reading {c : Container α}
    (reads : ∀ text ∈ c.world.regime.texts, ∀ a ∈ text.2, a.Reads c.world.Mute)
    (links : ∀ e ∈ c.entries, ∀ m ∈ c.world.member? e.key, m.body.link.linked = true →
      m.body.link.getter.map Endpoint.external = some e.key ∧
        m.body.link.setter.map Endpoint.external = some e.key) : c.Synced := by
  have inert (s : Nat) : c.world.regime.Inert s := fun text here a ha =>
    reads text (List.mem_of_getElem? here) a ha
  intro e he m hm linked
  obtain ⟨getter, setter⟩ := links e he m hm linked
  obtain ⟨g, hg, own⟩ := Option.map_eq_some_iff.mp getter
  obtain ⟨s, hs, own'⟩ := Option.map_eq_some_iff.mp setter
  exact ⟨⟨g, hg, own, fun i _ => inert i⟩, ⟨s, hs, own', fun i _ => inert i⟩, fun _ _ i _ => inert i⟩

def station : Container Nat :=
  let recipe (kind : Kind) (linked : Bool) : Recipe Nat :=
    { kind, linked, type := ⟨"u64", fun _ n => toString n, String.toNat?⟩, initial := 1, outside := 1 }
  [.add "dial" (recipe .monitored true), .add "gauge" (recipe .full true),
    .add "note" (recipe .plain false),
    .command "dial" (.listen "ear" .pair [.command 1 .get]),
    .command "gauge" (.edit (.stage 1)), .command "dial" (.setOutside 3),
    .command "gauge" (.setOutside 4)].foldl (fun c a => (c.perform (react 0) a).1) {}

/-- One member is not linked. -/
theorem pulling_two_of_three_converges : station.Converges (react 1) ∧ (station.pullAll (react 1)).2 = 2 := by
  have reached : station.Reached := (Reached.empty _).performAll 0 _
  refine ⟨bulk_sync_converges reached (synced_of_reading ?_ ?_) 1, by decide⟩
  · intro text ht a ha
    have texts : station.world.regime.texts = [(0, [.command 1 .get])] := rfl
    rw [texts, List.mem_singleton] at ht
    subst ht
    rw [List.mem_singleton.mp ha]
    rfl
  · decide

end Container

end BoundValues
