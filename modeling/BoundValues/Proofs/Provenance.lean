import BoundValues.Proofs.Keeping

namespace BoundValues

variable {α : Type}

/-- The values that a full value holds. -/
inductive Full.Holds (f : Full α) : α → Prop
  | committed : Holds f f.cell.value
  | staged {v : α} (h : f.staging.pending = some v) : Holds f v
  | entry {v : α} (h : v ∈ f.history.entries) : Holds f v
  | fallback : Holds f f.fallback

/-- The rule stays, and what is held afterwards was held before or is new in a known way. -/
structure Full.Takes (new : α → Prop) (f f' : Full α) : Prop where
  rule : f'.validation.validator = f.validation.validator
  held : ∀ v, f'.Holds v → f.Holds v ∨ new v

namespace History

variable {h h' : History α} {v u : α}

theorem mem_evict (hv : v ∈ h.evict.entries) : v ∈ h.entries := List.mem_of_mem_drop hv

theorem mem_push (hv : v ∈ (h.push u).entries) : v ∈ h.entries ∨ v = u := by
  rcases List.mem_append.mp (mem_evict hv) with kept | pushed
  · exact .inl (List.mem_of_mem_take kept)
  · exact .inr (List.mem_singleton.mp pushed)

theorem step_entries (forward : Bool) : (h.step forward).1.entries = h.entries := by
  unfold step
  split <;> split <;> rfl

theorem mem_of_step {forward : Bool} (hs : h.step forward = (h', some v)) : v ∈ h.entries := by
  have entry : h.step forward = (h', some v) → h'.current? = some v := by
    unfold step
    split <;> split <;> intro he
    all_goals
      first
      | cases he
      | obtain ⟨rfl, hv⟩ := Prod.mk.inj he
        exact hv
  have current : h'.entries[h'.cursor]? = some v := entry hs
  have same : h'.entries = h.entries := by
    have kept := step_entries (h := h) forward
    rwa [hs] at kept
  exact same ▸ List.mem_of_getElem? current

end History

namespace Full

variable {new : α → Prop} {f f' : Full α}

theorem Takes.refl (f : Full α) : f.Takes new f := ⟨rfl, fun _ => .inl⟩

theorem Takes.mono {more : α → Prop} (h : f.Takes new f') (hm : ∀ v, new v → more v) :
    f.Takes more f' :=
  ⟨h.rule, fun v hv => (h.held v hv).imp id (hm v)⟩

theorem Takes.trans {f'' : Full α} (h : f.Takes new f') (h' : f'.Takes new f'') :
    f.Takes new f'' where
  rule := h'.rule.trans h.rule
  held v hv := by
    rcases h'.held v hv with before | came
    · exact h.held v before
    · exact .inr came

/-- To say where everything comes from is to say it of each place. -/
theorem takes_of (rule : f'.validation.validator = f.validation.validator)
    (committed : f.Holds f'.cell.value ∨ new f'.cell.value)
    (staged : ∀ v, f'.staging.pending = some v → f.Holds v ∨ new v)
    (entry : ∀ v ∈ f'.history.entries, f.Holds v ∨ new v)
    (fallback : f.Holds f'.fallback ∨ new f'.fallback) : f.Takes new f' := by
  refine ⟨rule, fun v hv => ?_⟩
  cases hv with
  | committed => exact committed
  | staged h => exact staged v h
  | entry h => exact entry v h
  | fallback => exact fallback

/-- An operation that touches neither the staged value nor the default. -/
theorem takes_commit {v : α} (taken : f.Holds v ∨ new v)
    (rule : f'.validation.validator = f.validation.validator) (committed : f'.cell.value = v)
    (staged : f'.staging.pending = f.staging.pending ∨ f'.staging.pending = none)
    (history : f'.history = f.history.push v) (fallback : f'.fallback = f.fallback) :
    f.Takes new f' := by
  refine takes_of rule (committed ▸ taken) ?_ ?_ (.inl (fallback ▸ .fallback))
  · intro u hu
    rcases staged with same | none
    · exact .inl (.staged (same ▸ hu))
    · rw [none] at hu
      cases hu
  · intro u hu
    rw [history] at hu
    rcases History.mem_push hu with before | rfl
    · exact .inl (.entry before)
    · exact taken

/-- Only places that hold no value change, or values are dropped. -/
theorem takes_less (rule : f'.validation.validator = f.validation.validator)
    (committed : f'.cell.value = f.cell.value)
    (staged : ∀ v, f'.staging.pending = some v → f.staging.pending = some v)
    (entry : ∀ v ∈ f'.history.entries, v ∈ f.history.entries)
    (fallback : f'.fallback = f.fallback) : f.Takes new f' :=
  takes_of rule (.inl (committed ▸ .committed)) (fun v hv => .inl (.staged (staged v hv)))
    (fun v hv => .inl (.entry (entry v hv))) (.inl (fallback ▸ .fallback))

theorem refuse_takes {ρ : Type} (f : Full α) (candidate : α) (message : String) :
    f.Takes new (f.refuse (ρ := ρ) candidate message).state :=
  takes_less rfl rfl (fun _ => id) (fun _ => id) rfl

theorem revert_takes (f : Full α) : f.Takes new f.revert :=
  takes_less rfl rfl (fun _ hv => nomatch hv) (fun _ => id) rfl

theorem pass_takes (f : Full α) : f.Takes new { f with validation := f.validation.pass } :=
  takes_less rfl rfl (fun _ => id) (fun _ => id) rfl

def Gives (f : Full α) (v : α) : Prop := ∃ candidate, f.validation.run candidate = .ok v

/-- What is staged came out of the validator. -/
theorem stage_takes (f : Full α) (candidate : α) : f.Takes f.Gives (f.stage candidate).state := by
  unfold stage
  split
  · exact refuse_takes f candidate _
  · rename_i accepted given
    refine takes_of rfl (.inl .committed) ?_ (fun _ hv => .inl (.entry hv)) (.inl .fallback)
    rintro v ⟨rfl⟩
    exact .inr ⟨candidate, given⟩

theorem step_takes [BEq α] (f : Full α) (forward : Bool) : f.Takes new (f.step forward).state := by
  have entries := History.step_entries (h := f.history) forward
  unfold step
  split
  · rename_i history found
    rw [found] at entries
    exact takes_less rfl rfl (fun _ => id) (fun _ hv => entries ▸ hv) rfl
  · rename_i history v found
    have there : f.Holds v := .entry (History.mem_of_step found)
    rw [found] at entries
    exact takes_of rfl (.inl there) (fun _ hv => .inl (.staged hv))
      (fun _ hv => .inl (.entry (entries ▸ hv))) (.inl .fallback)

theorem setCapacity_takes (f : Full α) (n : Nat) : f.Takes new (f.setCapacity n) :=
  takes_less rfl rfl (fun _ => id) (fun _ hv => List.mem_of_mem_drop hv) rfl

theorem clearHistory_takes (f : Full α) : f.Takes new f.clearHistory :=
  takes_less rfl rfl (fun _ => id) (fun _ hv => nomatch hv) rfl

theorem setFallback_takes (f : Full α) {v : α} (h : new v) : f.Takes new { f with fallback := v } :=
  takes_of rfl (.inl .committed) (fun _ hv => .inl (.staged hv)) (fun _ hv => .inl (.entry hv))
    (.inr h)

theorem check_takes (f : Full α) : f.Takes new f.check.state := by
  refine takes_less ?_ rfl (fun _ => id) (fun _ => id) rfl
  simp only [check, Validation.check]
  split <;> rfl

variable [BEq α]

theorem commitFrom_takes (f : Full α) {v : α} (source : Source) (h : f.Holds v ∨ new v) :
    f.Takes new (f.commitFrom v source).1 := by
  unfold commitFrom
  split
  · exact .refl f
  · exact takes_commit h rfl rfl (.inl rfl) rfl rfl

theorem set_takes (f : Full α) (candidate : α) : f.Takes f.Gives (f.set candidate).state := by
  unfold set
  split
  · exact refuse_takes f candidate _
  · rename_i accepted given
    exact f.pass_takes.trans (commitFrom_takes _ .user (.inr ⟨candidate, given⟩))

/-- The staged value is committed; that is what is held already. -/
theorem apply_takes (f : Full α) : f.Takes new f.apply.state := by
  unfold apply
  split
  · exact .refl f
  · rename_i v staging taken
    obtain ⟨u, hu, he⟩ := Option.map_eq_some_iff.mp taken
    obtain ⟨rfl, rfl⟩ := Prod.mk.inj he
    have staged : f.Holds u := .staged (Option.eq_some_of_filter_eq_some hu)
    exact takes_commit (.inl staged) rfl rfl (.inr rfl) rfl rfl

/-- A pull takes in what was read, unchecked. -/
theorem commitPulled_takes (f : Full α) (v : α) : f.Takes (· = v) (f.commitPulled v).state := by
  unfold commitPulled
  split
  · exact .refl f
  · exact takes_commit (.inr rfl) rfl rfl (.inl rfl) rfl rfl

theorem reset_takes (f : Full α) : f.Takes new f.reset.state :=
  f.revert_takes.trans (commitFrom_takes _ .default (.inl .fallback))

/-- What is loaded came out of the validator. -/
theorem load_takes (type : ValueType α) (f : Full α) (text : String) :
    f.Takes f.Gives (f.load type text).state := by
  unfold load
  split
  · exact .refl f
  · rename_i candidate _
    split
    · exact refuse_takes f candidate _
    · rename_i accepted given
      let reverted : Full α := revert { f with validation := f.validation.pass }
      have dropped : f.Takes f.Gives reverted := f.pass_takes.trans (revert_takes _)
      have committed : reverted.Takes f.Gives (reverted.commitFrom accepted .config).1 :=
        commitFrom_takes reverted .config (.inr ⟨candidate, given⟩)
      -- The source is marked last; it is no value.
      exact (dropped.trans committed).trans (takes_less rfl rfl (fun _ => id) (fun _ => id) rfl)

theorem edit_takes (f : Full α) (mode : EditMode) (immediate : Bool) (r : Response) (v : α) :
    f.Takes f.Gives (f.edit mode immediate r v).state := by
  have edited : f.Takes f.Gives { (f.stage v).state with edited := true } :=
    (f.stage_takes v).trans (takes_less rfl rfl (fun _ => id) (fun _ => id) rfl)
  unfold edit
  split
  · dsimp only
    split
    · exact f.stage_takes v
    · split
      · exact edited.trans (apply_takes _)
      · exact edited
  · exact .refl f

end Full

def Body.Takes (new : α → Prop) (b b' : Body α) : Prop :=
  ∀ f, b = .full f → ∃ f', b' = .full f' ∧ f.Takes (fun v => new v ∨ f.Gives v) f'

namespace Body

variable {new : α → Prop} {f f' : Full α}

theorem takes_full (h : f.Takes f.Gives f') : Takes new (.full f) (.full f') := by
  rintro _ ⟨rfl⟩
  exact ⟨f', rfl, h.mono fun _ => .inr⟩

theorem takes_of_new (h : f.Takes new f') : Takes new (.full f) (.full f') := by
  rintro _ ⟨rfl⟩
  exact ⟨f', rfl, h.mono fun _ => .inl⟩

theorem takes_refl (b : Body α) : Takes new b b := fun f hf => ⟨f, hf, .refl f⟩

end Body

section Requests

variable [BEq α] {new : α → Prop}

/-- Edits that leave the rule alone, and set only known values as the default. -/
def Edit.Sourced (new : α → Prop) (e : Edit α) : Prop :=
  (∀ rule, e ≠ .setValidator rule) ∧ ∀ v, e = .setDefault v → new v

/-- All edits of all kinds: only a full value holds anything to begin with. -/
theorem Edit.step_takes {type : ValueType α} {b : Body α} {e : Edit α}
    {s : Step (Body α) α (Reply α)} (sourced : e.Sourced new) (h : e.step type b = some s) :
    b.Takes new s.state := by
  rintro f rfl
  suffices Body.Takes new (.full f) s.state from this f rfl
  cases e
  case setValidator rule => exact absurd rfl (sourced.1 rule)
  all_goals
    simp only [Edit.step, Edit.onFull, Edit.settled, Option.some.injEq, reduceCtorEq] at h
  all_goals subst h
  case set v => exact Body.takes_full (f.set_takes v)
  case stage v => exact Body.takes_full (f.stage_takes v)
  case apply => exact Body.takes_full f.apply_takes
  case revert => exact Body.takes_full f.revert_takes
  case undo => exact Body.takes_full (f.step_takes false)
  case redo => exact Body.takes_full (f.step_takes true)
  case reset => exact Body.takes_full f.reset_takes
  case load text => exact Body.takes_full (f.load_takes type text)
  case setCapacity n => exact Body.takes_full (f.setCapacity_takes n)
  case setDefault v => exact Body.takes_of_new (f.setFallback_takes (sourced.2 v rfl))

theorem Call.edit_takes {m : Member α} {e : Edit α} {g : Reply α → Reply α}
    (sourced : e.Sourced new) : m.body.Takes new (Call.edit m e g).state := by
  unfold Call.edit
  split
  · rename_i step h
    exact Edit.step_takes (s := step) sourced h
  · exact Body.takes_refl m.body

/-- No call through a capability replaces the rule or the default. -/
theorem Call.step_takes (m : Member α) (c : Call) : m.body.Takes new (c.step m).state := by
  cases c
  case apply | revert | undo | redo | setValueText =>
    exact Call.edit_takes ⟨by simp, by simp⟩
  case validate =>
    intro f hf
    simp only [Call.step, hf, Call.check]
    exact ⟨_, rfl, f.check_takes⟩
  case clear =>
    intro f hf
    simp only [Call.step, hf, Call.clearHistory]
    exact ⟨_, rfl, f.clearHistory_takes⟩
  case setVisible | setAdvanced | setGroup | setShown | setTemplate | setTooltipHook | setMenuHook |
      setImmediate =>
    intro f hf
    simp only [Call.step, hf]
    exact ⟨_, rfl, Full.takes_less rfl rfl (fun _ => id) (fun _ => id) rfl⟩
  all_goals exact Body.takes_refl m.body

theorem Body.setShared_takes (b : Body α) (v : α) : b.Takes new (b.setShared v).state := by
  rintro f rfl
  exact Body.takes_full (f.set_takes v) f rfl

theorem Body.edit_takes (b before : Body α) (r : Response) (v : α) :
    b.Takes new (Body.edit before r v b).state := by
  rintro f rfl
  exact Body.takes_full (f.edit_takes before.cell.mode before.immediate r v) f rfl

theorem Body.commitPulled_takes (b : Body α) (v : α) : b.Takes (· = v) (b.commitPulled v).state := by
  rintro f rfl
  exact Body.takes_of_new (f.commitPulled_takes v) f rfl

end Requests

def Event.reading? (key : Nat) : Event α → Option α
  | .read k v => if k = key then some v else none
  | _ => none

def Event.handed (key : Nat) : Event α → List α
  | .notified k _ _ change => if k = key then [change.old, change.new] else []
  | .pushed k v => if k = key then [v] else []
  | _ => []

theorem Event.Aside.reading? {e : Event α} (h : e.Aside) (key : Nat) : e.reading? key = none := by
  cases h <;> rfl

theorem Event.Aside.handed {e : Event α} (h : e.Aside) (key : Nat) : e.handed key = [] := by
  cases h <;> rfl

def Member.Vouched (P : α → Prop) (rule : Validator α) (m : Member α) : Prop :=
  ∃ f, m.body = .full f ∧ f.validation.validator = some rule ∧ ∀ v, f.Holds v → P v

def Validator.Ensures (rule : Validator α) (P : α → Prop) : Prop :=
  ∀ candidate v, rule candidate = .ok v → P v

namespace Member.Vouched

variable {P : α → Prop} {rule : Validator α} {m m' : Member α}

theorem value (h : m.Vouched P rule) : P m.body.value := by
  obtain ⟨f, hf, _, held⟩ := h
  rw [hf]
  exact held _ .committed

/-- A rule that ensures the condition lets only such values in. -/
theorem takes (h : m.Vouched P rule) (ensures : rule.Ensures P)
    (takes : m.body.Takes P m'.body) : m'.Vouched P rule := by
  obtain ⟨f, hf, installed, held⟩ := h
  obtain ⟨f', hf', taken⟩ := takes f hf
  refine ⟨f', hf', taken.rule.trans installed, fun v hv => ?_⟩
  rcases taken.held v hv with before | known | ⟨candidate, given⟩
  · exact held v before
  · exact known
  · rw [Validation.run, installed] at given
    exact ensures candidate v given

end Member.Vouched

namespace World

def readings (w : World α) (key : Nat) : List α := w.log.filterMap (Event.reading? key)

def handed (w : World α) (key : Nat) : List α := w.log.flatMap (Event.handed key)

theorem readings_record (w : World α) (e : Event α) (key : Nat) :
    (w.record e).readings key = w.readings key ++ (e.reading? key).toList := by
  simp only [readings, record, List.filterMap_append]
  cases h : e.reading? key <;> simp [h]

theorem handed_record (w : World α) (e : Event α) (key : Nat) :
    (w.record e).handed key = w.handed key ++ e.handed key := by
  simp [handed, record]

/-- Requests that leave the rule of a member alone, and set only good values as its default. -/
def keepsRule (key : Nat) (P : α → Prop) : Rules α :=
  .commands fun k c => k = key → ∀ e, c = .edit e → e.Sourced P

def Sourced (key : Nat) (P : α → Prop) (k : Nat) (b b' : Body α) (change : Option (Change α)) :
    Prop :=
  b.Faithful b' change ∧ (k = key → b.Takes P b')

def Clean (w : World α) (key : Nat) (P : α → Prop) : Prop := ∀ v ∈ w.readings key, P v

/-- The member holds only good values, and only such were handed on. -/
structure Trusted (w : World α) (key : Nat) (P : α → Prop) (rule : Validator α) : Prop where
  member : w.Meets key (Member.Vouched P rule)
  handed : ∀ v ∈ w.handed key, P v

/-- As long as what is read is good, so is what is held and handed on. `known` is what is known
besides. -/
def Trusting (key : Nat) (P : α → Prop) (rule : Validator α) (known : Prop) (w w' : World α) :
    Prop :=
  w'.Clean key P → w.Clean key P ∧ (known → w.Trusted key P rule → w'.Trusted key P rule)

section Trust

variable {key : Nat} {P : α → Prop} {rule : Validator α} {known : Prop} {w w' : World α}

theorem trusting_refl (w : World α) : Trusting key P rule known w w :=
  fun clean => ⟨clean, fun _ => id⟩

theorem trusting_trans (a b c : World α) (h : Trusting key P rule known a b)
    (h' : Trusting key P rule known b c) : Trusting key P rule known a c := by
  intro clean
  obtain ⟨cleanb, later⟩ := h' clean
  obtain ⟨cleana, first⟩ := h cleanb
  exact ⟨cleana, fun hk trusted => later hk (first hk trusted)⟩

theorem trusting_anyway (a b : World α) (h : Trusting key P rule True a b) :
    Trusting key P rule known a b :=
  fun clean => ⟨(h clean).1, fun _ => (h clean).2 trivial⟩

theorem trusting_record (w : World α) {e : Event α} (reading : e.reading? key = none)
    (handed : known → w.Trusted key P rule → ∀ v ∈ e.handed key, P v) :
    Trusting key P rule known w (w.record e) := by
  intro clean
  refine ⟨?_, fun hk trusted => ⟨trusted.member, ?_⟩⟩
  · simpa [Clean, readings_record, reading] using clean
  · intro v hv
    rw [handed_record] at hv
    rcases List.mem_append.mp hv with before | now
    · exact trusted.handed v before
    · exact handed hk trusted v now

/-- Nothing is told; the member stays as it is, or takes in what it may. -/
theorem trusting_quiet (log : w'.log = w.log)
    (member : known → w.Meets key (Member.Vouched P rule) → w'.Meets key (Member.Vouched P rule)) :
    Trusting key P rule known w w' := by
  have readings : w'.readings key = w.readings key := by simp only [World.readings, log]
  have handed : w'.handed key = w.handed key := by simp only [World.handed, log]
  intro clean
  refine ⟨?_, fun hk trusted => ⟨member hk trusted.member, ?_⟩⟩
  · rwa [Clean, ← readings]
  · rw [handed]
    exact trusted.handed

/-- Of what becomes of a member in one go, only operations take anything in. -/
theorem turns_takes {m m' : Member α} (h : m.Turns (keepsRule key P) (Sourced key P) key m') :
    m.body.Takes P m'.body := by
  cases h with
  | widget | drawn => exact Body.takes_refl m.body
  | step h => exact h.2 rfl
  | cell g kept =>
    intro f hf
    simp only [hf]
    exact ⟨_, rfl, Full.takes_less rfl (kept f.cell).1 (fun _ => id) (fun _ => id) rfl⟩
  | clearChanged | listen | unlisten | unlistenAll | bindGetter | bindSetter =>
    intro f hf
    simp only [hf, Member.connect]
    exact ⟨_, rfl, Full.takes_less rfl rfl (fun _ => id) (fun _ => id) rfl⟩

/-- What a commit tells is what the member held before it and holds after it. -/
theorem told_good {m : Member α} {b : Body α} {change : Change α} (ensures : rule.Ensures P)
    (faithful : m.body.Faithful b (some change)) (takes : m.body.Takes P b)
    (vouched : m.Vouched P rule) : P change.old ∧ P change.new := by
  have after : Member.Vouched P rule { m with body := b } := vouched.takes ensures takes
  have shared : m.body.shared = true := by
    obtain ⟨f, hf, _⟩ := vouched
    rw [hf]
    rfl
  have accounts : change = ⟨m.body.value, b.value⟩ := faithful.value shared
  rw [accounts]
  exact ⟨vouched.value, after.value⟩

theorem Trusted.vouched {m : Member α} (h : w.Trusted key P rule) (hm : w.member? key = some m) :
    m.Vouched P rule := by
  obtain ⟨n, hn, vouched⟩ := h.member
  cases hm.symm.trans hn
  exact vouched

variable [BEq α] {depth : Nat}

theorem steps_sourced (key : Nat) (P : α → Prop) (k : Nat) :
    Body.Steps ((keepsRule key P).command k) ((keepsRule key P).Pokes k) (Sourced key P k) := by
  have faithful : Body.Steps ((keepsRule key P).command k) ((keepsRule key P).Pokes k)
      Body.Faithful := Body.steps_faithful ..
  exact
    { written := fun b v h => ⟨faithful.written b v h, fun _ => b.setShared_takes v⟩
      drawn := fun b before r v _ h =>
        ⟨faithful.drawn b before r v h, fun _ => b.edit_takes before r v⟩
      called := fun m c h => ⟨faithful.called m c h, fun _ => Call.step_takes m c⟩
      edited := fun type b e s h hs =>
        ⟨faithful.edited type b e s h hs, fun hk => Edit.step_takes (h hk e rfl) hs⟩ }

section Happenings

variable (runs : Runs (keepsRule key P) (Trusting key P rule True) depth)

include runs

/-- A call hands on the two values of the change. -/
theorem trusting_notify (w : World α) (k : Nat) (change : Change α) :
    Under (keepsRule key P) (Trusting key P rule (k = key → P change.old ∧ P change.new)) w
      (w.notify (react depth) k change) := by
  refine notify_under trusting_refl trusting_trans (fun s w => (runs s w).mono trusting_anyway) ?_ w
  intro w name form
  refine trusting_record w rfl fun good _ v hv => ?_
  simp only [Event.handed] at hv
  split at hv
  · rename_i hk
    obtain ⟨old, new⟩ := good hk
    simp only [List.mem_cons, List.not_mem_nil, or_false] at hv
    rcases hv with rfl | rfl
    · exact old
    · exact new
  · cases hv

/-- A push hands on the committed value, which is good. -/
theorem trusting_push (w : World α) (k : Nat) :
    Under (keepsRule key P) (Trusting key P rule True) w (w.push (react depth) k).1 := by
  refine push_under trusting_refl trusting_trans runs ?_ w
  intro w m external hm
  have pushed : Trusting key P rule True w (w.record (.pushed k m.body.value)) := by
    refine trusting_record w rfl fun _ trusted v hv => ?_
    simp only [Event.handed] at hv
    split at hv
    · rename_i hk
      rw [List.mem_singleton.mp hv]
      exact (trusted.vouched (hk ▸ hm)).value
    · cases hv
  exact trusting_trans _ _ _ pushed (trusting_quiet rfl fun _ => id)

variable (ensures : rule.Ensures P)

include ensures

/-- A commit is recorded and then told of. -/
theorem trusting_commit {w : World α} {k : Nat} {m : Member α} {b : Body α} {change : Change α}
    (hm : w.member? k = some m) (faithful : m.body.Faithful b (some change))
    (takes : known → k = key → m.body.Takes P b) :
    Under (keepsRule key P) (Trusting key P rule known) w
      ((w.commit k m b change).notify (react depth) k change) := by
  have stored : Trusting key P rule known w (w.setMember k { m with body := b }) := by
    refine trusting_quiet rfl fun hk meets => ?_
    exact meets.setMember hm _ fun same vouched => vouched.takes ensures (takes hk same)
  have committed : Under (keepsRule key P) (Trusting key P rule known) w (w.commit k m b change) :=
    .of_same rfl rfl
      (trusting_trans _ _ _ stored (trusting_record _ rfl fun _ _ _ hv => nomatch hv))
  refine committed.comp (trusting_notify runs _ k change) fun first telling clean => ?_
  obtain ⟨cleaned, told⟩ := telling clean
  obtain ⟨before, kept⟩ := first cleaned
  refine ⟨before, fun hk trusted => told ?_ (kept hk trusted)⟩
  rintro rfl
  exact told_good ensures faithful (takes hk rfl) (trusted.vouched hm)

/-- A value that is taken over from outside has to be good for the member to stay so. -/
theorem trusting_commitPulled (w : World α) (k : Nat) (v : α) :
    Under (keepsRule key P) (Trusting key P rule (k = key → P v)) w
      (w.commitPulled (react depth) k v).1 := by
  unfold commitPulled
  split
  · exact .of_same rfl rfl (trusting_refl w)
  · rename_i m hm
    have moves : m.body.Moves (fun _ => False) (m.body.commitPulled v).state
        (m.body.commitPulled v).change := m.body.commitPulled_moves v
    have takes : (k = key → P v) → k = key → m.body.Takes P (m.body.commitPulled v).state := by
      intro good hk f hf
      obtain ⟨f', hf', taken⟩ := m.body.commitPulled_takes v f hf
      refine ⟨f', hf', taken.mono fun u hu => hu.imp_left ?_⟩
      rintro rfl
      exact good hk
    simp only [mapBody_of_member? hm]
    cases hc : (m.body.commitPulled v).change with
    | none =>
      refine .of_same rfl rfl (trusting_quiet rfl fun good meets => ?_)
      exact meets.setMember hm _ fun hk vouched => vouched.takes ensures (takes good hk)
    | some change => exact trusting_commit runs ensures hm (hc ▸ moves).faithful takes

/-- What was read is in the log, so it is good when everything read is. -/
theorem trusting_pull (w : World α) (k : Nat) :
    Under (keepsRule key P) (Trusting key P rule True) w (w.pull (react depth) k).1 := by
  rcases pull_cases (react depth) k w with nothing | ⟨_, getter, v, _, _, _, _, reads⟩
  · rw [nothing]
    exact .of_same rfl rfl (trusting_refl w)
  · rw [reads]
    have seen : (w.record (.read k v)).Clean key P → w.Clean key P ∧ (k = key → P v) := by
      intro clean
      simp only [Clean, readings_record, List.mem_append] at clean
      refine ⟨fun u hu => clean u (.inl hu), ?_⟩
      rintro rfl
      exact clean v (.inr (by simp [Event.reading?]))
    have ran := runScript_under trusting_refl runs getter.script (w.record (.read k v))
    have taken := (ran.mono trusting_anyway).trans trusting_trans
      (trusting_commitPulled runs ensures _ k v)
    intro ho
    obtain ⟨ho', rest⟩ := taken (ho.congr rfl rfl)
    refine ⟨ho', fun clean => ?_⟩
    obtain ⟨cleaned, kept⟩ := rest clean
    obtain ⟨before, good⟩ := seen cleaned
    refine ⟨before, fun _ trusted => kept good ⟨trusted.member, ?_⟩⟩
    simpa [handed_record, Event.handed] using trusted.handed

end Happenings

theorem trusting_course (ensures : rule.Ensures P) :
    Course (keepsRule key P) (Sourced key P) (Trusting key P rule True) where
  refl := trusting_refl
  trans := trusting_trans
  steps := steps_sourced key P
  note w e h := trusting_record w (h.reading? key) fun _ _ v hv => by
    rw [h.handed key] at hv
    cases hv
  scripts _ _ _ := trusting_quiet rfl fun _ => id
  handle _ _ _ _ := trusting_quiet rfl fun _ => id
  outside _ _ _ _ := trusting_quiet rfl fun _ => id
  turn hm h _ := trusting_quiet rfl fun _ meets =>
    Meets.setMember meets hm _ fun hk vouched => vouched.takes ensures (turns_takes (hk ▸ h))
  commit runs := fun hm h =>
    (trusting_commit runs ensures hm h.1 fun _ => h.2).trans trusting_trans (trusting_push runs _ _)
  pull runs w k _ := trusting_pull runs ensures w k
  push runs w k := trusting_push runs w k

/-- **Validated values only.** A full value that validates by a rule which accepts nothing but values
of some sort, and that holds only such values at the start, holds only such values after any run of
requests, as long as its defaults and what its getter reads are of that sort. Neither its listeners
nor its setter are ever handed another value, whatever they do to it meanwhile. -/
theorem validated_only (ensures : rule.Ensures P) {f : Full α} (start : w.body? key = some (.full f))
    (installed : f.validation.validator = some rule) (held : ∀ v, f.Holds v → P v)
    (handed : ∀ v ∈ w.handed key, P v) (obeys : w.Obeys (keepsRule key P))
    {qs : List (Request α)} (admits : ∀ q ∈ qs, (keepsRule key P).Admits q) (depth : Nat)
    (read : ∀ v ∈ (w.serveAll depth qs).readings key, P v) :
    (∃ f', (w.serveAll depth qs).body? key = some (.full f') ∧ ∀ v, f'.Holds v → P v) ∧
      ∀ v ∈ (w.serveAll depth qs).handed key, P v := by
  obtain ⟨_, trusting⟩ := (trusting_course ensures).serveAll admits depth w obeys
  obtain ⟨m, hm, hf⟩ := member?_of_body? start
  have trusted : w.Trusted key P rule := ⟨⟨m, hm, f, hf, installed, held⟩, handed⟩
  obtain ⟨⟨m', hm', f', hf', _, held'⟩, handed'⟩ := (trusting read).2 trivial trusted
  exact ⟨⟨f', by rw [body?_of_member? hm', hf'], held'⟩, handed'⟩

end Trust

def capped : World Nat :=
  ((solo .full true).serve 0 (.command 0 (.edit (.setValidator fun n => .ok (min n 5))))).serve 0
    (.command 0 (.listen "echo" .pair
      [.command 1 (.edit (.set 9)), .command 1 (.edit (.stage 8)), .command 1 (.call .undo)]))

def cappedRequests : List (Request Nat) :=
  [.command 0 (.edit (.set 7)), .command 0 (.edit .apply), .command 0 (.setOutside 4),
    .command 0 (.call .revert), .command 0 (.call .pull), .command 0 (.edit (.setDefault 3)),
    .command 0 (.call .redo), .command 0 (.edit .reset)]

theorem capped_obeys : capped.Obeys (keepsRule 0 (· ≤ 5)) where
  scripts s hs a ha := by
    have listener : s = ⟨0, "echo", [(.command 1 (.edit (.set 9)), some 1),
        (.command 1 (.edit (.stage 8)), some 1), (.command 1 (.call .undo), some 1)]⟩ :=
      List.eq_of_mem_singleton hs
    subst listener
    simp only [List.mem_cons, List.not_mem_nil, or_false] at ha
    rcases ha with rfl | rfl | rfl
    all_goals
      refine .of_plain (fun _ e he => ?_) rfl
      cases he
    all_goals exact ⟨by simp, by simp⟩
  handles _ _ _ := trivial

theorem only_capped_values_held_or_handed :
    (∃ f, (capped.serveAll 5 cappedRequests).body? 0 = some (.full f) ∧ ∀ v, f.Holds v → v ≤ 5) ∧
      ∀ v ∈ (capped.serveAll 5 cappedRequests).handed 0, v ≤ 5 := by
  have ensures : Validator.Ensures (fun n : Nat => .ok (min n 5)) (· ≤ 5) := by
    intro candidate v accepted
    cases accepted
    exact Nat.min_le_right candidate 5
  refine validated_only ensures rfl rfl ?_ (by decide) capped_obeys ?_ 5 (by decide)
  · intro v hv
    cases hv with
    | committed | fallback => decide
    | staged h => cases h
    | entry h => simp [List.mem_singleton.mp h]
  · intro q hq
    simp only [cappedRequests, List.mem_cons, List.not_mem_nil, or_false] at hq
    rcases hq with rfl | rfl | rfl | rfl | rfl | rfl | rfl | rfl
    all_goals
      refine .command (.of_plain (fun _ e he => ?_) rfl)
      cases he
    all_goals exact ⟨by simp, by simp⟩

end World

end BoundValues
