import GuardedExpr.Code.Run

/-!
Where parts of a run lead. A part that is started in a machine either gives a value or fails, and leaves a
machine behind in both cases. What must hold before a part for something to hold behind it is computed
from the last primitive to the first.
-/

namespace GuardedExpr

variable {σ α β : Type}

namespace Run

def Leads (part : Run σ α) (m : Machine σ) (good : α → Machine σ → Prop)
    (bad : Error → Machine σ → Prop) : Prop :=
  match part.run.run m with
  | (.ok value, last) => good value last
  | (.error failure, last) => bad failure last

variable {m : Machine σ} {good : α → Machine σ → Prop} {bad : Error → Machine σ → Prop}

theorem leads_iff {part : Run σ α} :
    part.Leads m good bad ↔
      let ended := part.run.run m
      (∀ value, ended.1 = .ok value → good value ended.2) ∧
        ∀ failure, ended.1 = .error failure → bad failure ended.2 := by
  unfold Leads
  rcases part.run.run m with ⟨outcome, last⟩
  cases outcome <;> simp

theorem Leads.mono {part : Run σ α} {better : α → Machine σ → Prop}
    {worse : Error → Machine σ → Prop} (leads : part.Leads m good bad)
    (onValue : ∀ value last, good value last → better value last)
    (onFailure : ∀ failure last, bad failure last → worse failure last) : part.Leads m better worse := by
  unfold Leads at *
  split at leads
  · exact onValue _ _ leads
  · exact onFailure _ _ leads

theorem Leads.imp {part : Run σ α} {better : α → Machine σ → Prop} (leads : part.Leads m good bad)
    (onValue : ∀ value last, good value last → better value last) : part.Leads m better bad :=
  leads.mono onValue fun _ _ failed => failed

/-- A part of a run has one end, of which all holds that it leads to. -/
theorem Leads.and {part : Run σ α} {also : α → Machine σ → Prop} {besides : Error → Machine σ → Prop}
    (first : part.Leads m good bad) (second : part.Leads m also besides) :
    part.Leads m (fun value last => good value last ∧ also value last)
      fun failure last => bad failure last ∧ besides failure last := by
  rw [leads_iff] at *
  exact ⟨fun value done => ⟨first.1 value done, second.1 value done⟩,
    fun failure done => ⟨first.2 failure done, second.2 failure done⟩⟩

theorem Leads.all.{u} {part : Run σ α} {ι : Sort u} {each : ι → α → Machine σ → Prop}
    (leads : ∀ i, part.Leads m (each i) fun _ _ => True) :
    part.Leads m (fun value last => ∀ i, each i value last) fun _ _ => True := by
  simp only [leads_iff] at *
  exact ⟨fun value done i => (leads i).1 value done, fun _ _ => trivial⟩

@[simp]
theorem leads_pure (value : α) : Leads (pure value) m good bad ↔ good value m :=
  Iff.rfl

@[simp]
theorem leads_throw (failure : Error) : Leads (throw failure : Run σ α) m good bad ↔ bad failure m :=
  Iff.rfl

@[simp]
theorem leads_bind (part : Run σ β) (next : β → Run σ α) :
    (part >>= next).Leads m good bad ↔
      part.Leads m (fun value last => (next value).Leads last good bad) bad := by
  unfold Leads
  rw [ExceptT.run_bind, StateT.run_bind]
  rcases part.run.run m with ⟨outcome, last⟩
  cases outcome <;> rfl

/-- A part of a run, and then whatever follows on its value. -/
theorem Leads.bind {part : Run σ β} {next : β → Run σ α} {middle : β → Machine σ → Prop}
    (first : part.Leads m middle bad)
    (rest : ∀ value last, middle value last → (next value).Leads last good bad) :
    (part >>= next).Leads m good bad :=
  (leads_bind part next).mpr (first.imp rest)

theorem leads_ite (condition : Prop) [Decidable condition] (yes no : Run σ α) :
    (if condition then yes else no).Leads m good bad ↔
      if condition then yes.Leads m good bad else no.Leads m good bad := by
  split <;> rfl

@[simp]
theorem leads_answer (outcome : Except Error α) :
    (answer outcome).Leads m good bad ↔
      (∀ value, outcome = .ok value → good value m) ∧
        ∀ failure, outcome = .error failure → bad failure m := by
  cases outcome <;> simp [answer]

@[simp]
theorem leads_record (event : Event) {good : Unit → Machine σ → Prop} :
    (record event).Leads m good bad ↔ good () (m.note event) :=
  Iff.rfl

@[simp]
theorem leads_get {good : Machine σ → Machine σ → Prop} :
    Leads (get : Run σ (Machine σ)) m good bad ↔ good m m :=
  Iff.rfl

@[simp]
theorem leads_set (after : Machine σ) {good : PUnit → Machine σ → Prop} :
    Leads (set after : Run σ PUnit) m good bad ↔ good () after :=
  Iff.rfl

@[simp]
theorem leads_ask (question : Heap → Except Error α) :
    (ask question).Leads m good bad ↔
      (∀ value, question m.heap = .ok value → good value m) ∧
        ∀ failure, question m.heap = .error failure → bad failure m := by
  simp [ask]

@[simp]
theorem leads_alloc (cell : Cell) {good : Value → Machine σ → Prop} :
    (alloc cell).Leads m good bad ↔
      good (.ref m.heap.size) { m with heap := (m.heap.alloc cell).2 } :=
  Iff.rfl

@[simp]
theorem leads_has (container : Value) (name : Text) {good : Bool → Machine σ → Prop} :
    (has container name).Leads m good bad ↔
      let outcome := m.heap.hasMember container name
      let after := m.note (.asked container name outcome.toOption)
      (∀ found, outcome = .ok found → good found after) ∧
        ∀ failure, outcome = .error failure → bad failure after := by
  simp [has]

@[simp]
theorem leads_read (container : Value) (selector : Selector) (key : Value)
    {good : Value → Machine σ → Prop} :
    (read container selector key).Leads m good bad ↔
      let outcome := m.heap.getMember container key
      let after := m.note (.read container selector key outcome.toOption)
      (∀ found, outcome = .ok found → good found after) ∧
        ∀ failure, outcome = .error failure → bad failure after := by
  simp [read]

@[simp]
theorem leads_write (event : Event) (container key value : Value) {good : Unit → Machine σ → Prop} :
    (write event container key value).Leads m good bad ↔
      (∀ heap, m.heap.setMember container key value = .ok heap →
        good () { m.note event with heap }) ∧
        ∀ failure, m.heap.setMember container key value = .error failure →
          bad failure (m.note event) := by
  simp only [write, leads_bind, leads_record, leads_get]
  have same : (m.note event).heap = m.heap := rfl
  rw [same]
  cases m.heap.setMember container key value <;> simp

@[simp]
theorem leads_invoke (host : Host σ) (slot : Nat) (callee : Value) (arguments : List Value)
    {good : Value → Machine σ → Prop} :
    (invoke host slot callee arguments).Leads m good bad ↔
      let result := host.call callee arguments m.heap m.world
      let after : Machine σ := ⟨result.2.1, result.2.2, .invoked slot callee arguments :: m.journal⟩
      (∀ value, result.1 = .ok value → good value after) ∧
        ∀ failure, result.1 = .error failure → bad failure after := by
  simp only [invoke, leads_bind, leads_record, leads_get]
  simp [Machine.note]

@[simp]
theorem leads_guarded (value : Value) {good : Value → Machine σ → Prop} :
    (guarded value).Leads m good bad ↔
      (Guard.object m.heap value = .ok () → good value m) ∧
        ∀ failure, Guard.object m.heap value = .error failure → bad failure m := by
  simp only [guarded, leads_bind, leads_ask, leads_pure]
  exact and_congr ⟨fun passed => passed (), fun passed _ => passed⟩ Iff.rfl

end Run

theorem Frame.leads_slot {m : Machine σ} {frame : Frame} {slot : Nat} {good : Value → Machine σ → Prop}
    {bad : Error → Machine σ → Prop} :
    (frame.slot slot : Run σ Value).Leads m good bad ↔
      (∀ value, frame.slots[slot]? = some value → good value m) ∧
        (frame.slots[slot]? = none → bad (.fault .missingSlot) m) := by
  unfold Frame.slot
  cases frame.slots[slot]? <;> simp

end GuardedExpr
