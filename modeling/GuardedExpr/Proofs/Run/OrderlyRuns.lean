import GuardedExpr.Proofs.Run.RunJournal

/-!
Checked code runs in an orderly way, whatever the host does in between. What is known of the slots holds of
the frame before and behind every statement, so the induction is on the code and then on the statements;
the host can change the heap and its own state, but neither the frame nor the journal.
-/

namespace GuardedExpr

variable {σ : Type}

/-- A sense in which values are fit to be used. The guard of objects establishes it, new containers of an
expression have it, and neither an expression nor a call takes it away. -/
structure Fitness (host : Host σ) (fit : Heap → Value → Prop) : Prop where
  scalar {h : Heap} {value : Value} : value.isScalar → fit h value
  guarded {h : Heap} {value : Value} : Guard.object h value = .ok () → fit h value
  list {h : Heap} {items : List Value} : fit (h.alloc (.list items)).2 (.ref h.size)
  mapping {h : Heap} {entries : Entries} : fit (h.alloc (.mapping .plain entries)).2 (.ref h.size)
  alloc {h : Heap} {cell : Cell} {value : Value} : fit h value → fit (h.alloc cell).2 value
  write {h after : Heap} {container key written value : Value} :
    h.setMember container key written = .ok after → fit h value → fit after value
  call {callee : Value} {arguments : List Value} {h : Heap} {world : σ} {value : Value} :
    fit h value → fit (host.call callee arguments h world).2.1 value

variable {host : Host σ} {fit : Heap → Value → Prop} {known : Standings} {frame : Frame}
  {m last : Machine σ}

structure Machine.Sound (fit : Heap → Value → Prop) (m : Machine σ) : Prop where
  orderly : Event.Orderly m.journal
  objects : ∀ event ∈ m.journal, ∀ value ∈ event.objects, fit m.heap value

structure Frame.Sound (fit : Heap → Value → Prop) (known : Standings) (frame : Frame)
    (m : Machine σ) : Prop extends Machine.Sound fit m where
  locals : fit m.heap frame.locals
  scope : fit m.heap frame.scope
  result : fit m.heap frame.result
  slots : ∀ slot, (known slot).Holds (fit m.heap) m.journal slot frame.slots[slot]?

structure Frame.Continues (fit : Heap → Value → Prop) (known : Standings) (frame : Frame)
    (m last : Machine σ) : Prop where
  sound : frame.Sound fit known last
  later : ∀ value, fit m.heap value → fit last.heap value
  grown : ∀ event ∈ m.journal, event ∈ last.journal

namespace Machine.Sound

theorem note (sound : m.Sound fit) {event : Event} (follows : event.Follows m.journal)
    (objects : ∀ value ∈ event.objects, fit m.heap value) : (m.note event).Sound fit where
  orderly := ⟨follows, sound.orderly⟩
  objects := by
    intro other member
    rcases List.mem_cons.mp member with rfl | earlier
    · exact objects
    · exact sound.objects other earlier

theorem move (sound : m.Sound fit) (journal : last.journal = m.journal)
    (later : ∀ value, fit m.heap value → fit last.heap value) : last.Sound fit where
  orderly := journal ▸ sound.orderly
  objects := by
    intro event member value used
    rw [journal] at member
    exact later value (sound.objects event member value used)

end Machine.Sound

namespace Frame

theorem Sound.continues (sound : frame.Sound fit known m) : frame.Continues fit known m m :=
  ⟨sound, fun _ good => good, fun _ member => member⟩

theorem Continues.trans {middle : Machine σ} (first : frame.Continues fit known m middle)
    (second : frame.Continues fit known middle last) : frame.Continues fit known m last :=
  ⟨second.sound, fun value good => second.later value (first.later value good),
    fun event member => second.grown event (first.grown event member)⟩

theorem Sound.note (sound : frame.Sound fit known m) (event : Event) (elsewhere : event.slot? = none)
    (follows : event.Follows m.journal) (objects : ∀ value ∈ event.objects, fit m.heap value) :
    frame.Continues fit known m (m.note event) where
  sound := {
    toSound := sound.toSound.note follows objects
    locals := sound.locals
    scope := sound.scope
    result := sound.result
    slots := fun slot => (sound.slots slot).cons (by simp [elsewhere]) }
  later := fun _ good => good
  grown := fun _ member => List.mem_cons_of_mem _ member

theorem Sound.move (sound : frame.Sound fit known m) (last : Machine σ)
    (journal : last.journal = m.journal) (later : ∀ value, fit m.heap value → fit last.heap value) :
    frame.Continues fit known m last where
  sound := {
    toSound := sound.toSound.move journal later
    locals := later _ sound.locals
    scope := later _ sound.scope
    result := later _ sound.result
    slots := fun slot => by
      rw [journal]
      exact (sound.slots slot).mono later }
  later := later
  grown := fun _ member => journal ▸ member

/-- An event about a slot, in a frame that differs in that slot alone. -/
theorem Sound.noteSlot (sound : frame.Sound fit known m) {event : Event} {slot : Nat}
    {standing : Standing} {after : Frame} (about : event.slot? = some slot)
    (follows : event.Follows m.journal) (objects : event.objects = [])
    (same : after.locals = frame.locals ∧ after.scope = frame.scope ∧ after.result = frame.result)
    (others : ∀ other, other ≠ slot → after.slots[other]? = frame.slots[other]?)
    (holds : standing.Holds (fit m.heap) (event :: m.journal) slot after.slots[slot]?) :
    after.Sound fit (Function.update known slot standing) (m.note event) where
  toSound := sound.toSound.note follows (by simp [objects])
  locals := same.1 ▸ sound.locals
  scope := same.2.1 ▸ sound.scope
  result := same.2.2 ▸ sound.result
  slots := by
    intro other
    by_cases here : other = slot
    · subst other
      rw [Function.update_self]
      exact holds
    · rw [Function.update_of_ne here, others other here]
      exact (sound.slots other).cons (by simp [about, Ne.symm here])

theorem Sound.relabel (sound : frame.Sound fit known m) {slot : Nat} {standing : Standing}
    (holds : standing.Holds (fit m.heap) m.journal slot frame.slots[slot]?) :
    frame.Sound fit (Function.update known slot standing) m where
  toSound := sound.toSound
  locals := sound.locals
  scope := sound.scope
  result := sound.result
  slots := by
    intro other
    by_cases here : other = slot
    · subst other
      rw [Function.update_self]
      exact holds
    · rw [Function.update_of_ne here]
      exact sound.slots other

end Frame

section Primitives

variable (fitness : Fitness host fit) (sound : frame.Sound fit known m)

include sound

theorem leads_has_sound {container : Value} {name : Text} (good : fit m.heap container)
    (safe : Guard.isSafeName name) :
    (Run.has container name : Run σ Bool).Leads m (fun _ last => frame.Continues fit known m last)
      (fun _ last => last.Sound fit) := by
  have noted := sound.note (.asked container name (m.heap.hasMember container name).toOption) rfl safe
    (by simpa [Event.objects] using good)
  exact (Run.leads_has container name).mpr
    ⟨fun _ _ => noted, fun _ _ => noted.sound.toSound⟩

theorem leads_slot_sound (slot : Nat) :
    (frame.slot slot : Run σ Value).Leads m
      (fun value last => last = m ∧ frame.slots[slot]? = some value ∧
        (known slot).Holds (fit m.heap) m.journal slot (some value))
      (fun _ last => last.Sound fit) := by
  refine Frame.leads_slot.mpr ⟨fun value held => ⟨rfl, held, ?_⟩, fun _ => sound.toSound⟩
  have holds := sound.slots slot
  rw [held] at holds
  exact holds

theorem leads_key_sound {selector : Selector} (proper : selector.isProper known) :
    (selector.key frame : Run σ Value).Leads m
      (fun key last => last = m ∧ selector.Presents m.journal key) (fun _ last => last.Sound fit) := by
  cases selector with
  | name field => exact ⟨rfl, rfl, proper⟩
  | slot index =>
    simp only [Selector.isProper, decide_eq_true_eq] at proper
    apply Run.Leads.imp (leads_slot_sound sound index)
    intro key last reached
    obtain ⟨unchanged, _, holds⟩ := reached
    refine ⟨unchanged, ?_⟩
    rw [proper] at holds
    obtain ⟨_, same, cleared⟩ := holds
    cases same
    exact cleared

theorem leads_read_sound {container key : Value} {selector : Selector} (good : fit m.heap container)
    (presents : selector.Presents m.journal key) :
    (Run.read container selector key : Run σ Value).Leads m
      (fun _ last => frame.Continues fit known m last) (fun _ last => last.Sound fit) := by
  have noted := sound.note (.read container selector key (m.heap.getMember container key).toOption) rfl
    presents (by simpa [Event.objects] using good)
  exact (Run.leads_read container selector key).mpr
    ⟨fun _ _ => noted, fun _ _ => noted.sound.toSound⟩

include fitness

theorem leads_write_sound {event : Event} {container key value : Value} (elsewhere : event.slot? = none)
    (follows : event.Follows m.journal) (objects : ∀ value ∈ event.objects, fit m.heap value) :
    (Run.write event container key value : Run σ Unit).Leads m
      (fun _ last => frame.Continues fit known m last) (fun _ last => last.Sound fit) := by
  have noted := sound.note event elsewhere follows objects
  refine (Run.leads_write event container key value).mpr
    ⟨fun heap written => noted.trans ?_, fun _ _ => noted.sound.toSound⟩
  exact noted.sound.move _ rfl fun _ good => fitness.write written good

theorem leads_alloc_sound (cell : Cell) (good : fit (m.heap.alloc cell).2 (.ref m.heap.size)) :
    (Run.alloc cell : Run σ Value).Leads m
      (fun value last => frame.Continues fit known m last ∧ fit last.heap value)
      (fun _ last => last.Sound fit) :=
  (Run.leads_alloc cell).mpr ⟨sound.move _ rfl fun _ earlier => fitness.alloc earlier, good⟩

theorem leads_create_sound {container key : Value} {selector : Selector} (good : fit m.heap container)
    (presents : selector.Presents m.journal key) :
    (Run.create container selector key : Run σ Unit).Leads m
      (fun _ last => frame.Continues fit known m last) (fun _ last => last.Sound fit) := by
  apply Run.Leads.bind (leads_alloc_sound fitness sound _ fitness.mapping)
  intro made middle reached
  obtain ⟨step, fresh⟩ := reached
  have follows : (Event.created container selector key made).Follows middle.journal :=
    presents.mono step.grown
  have objects : ∀ value ∈ (Event.created container selector key made).objects,
      fit middle.heap value := by
    simpa [Event.objects] using ⟨step.later _ good, fresh⟩
  exact (leads_write_sound fitness step.sound rfl follows objects).imp fun _ _ rest => step.trans rest

theorem leads_guarded_sound (value : Value) :
    (Run.guarded value : Run σ Value).Leads m
      (fun passed last => last = m ∧ passed = value ∧ fit last.heap passed)
      (fun _ last => last.Sound fit) :=
  (Run.leads_guarded value).mpr
    ⟨fun passed => ⟨rfl, rfl, fitness.guarded passed⟩, fun _ _ => sound.toSound⟩

theorem leads_invoke_sound {slot : Nat} {callee : Value} {arguments : List Value}
    (admitted : .admitted slot callee ∈ m.journal) (good : ∀ value ∈ arguments, fit m.heap value) :
    (Run.invoke host slot callee arguments).Leads m
      (fun _ last => frame.Continues fit known m last) (fun _ last => last.Sound fit) := by
  let result := host.call callee arguments m.heap m.world
  let last : Machine σ := ⟨result.2.1, result.2.2, .invoked slot callee arguments :: m.journal⟩
  have noted := sound.note (.invoked slot callee arguments) rfl admitted good
  have moved : frame.Continues fit known m last :=
    noted.trans (noted.sound.move last rfl fun _ earlier => fitness.call earlier)
  exact (Run.leads_invoke host slot callee arguments).mpr
    ⟨fun _ _ => moved, fun _ _ => moved.sound.toSound⟩

end Primitives

end GuardedExpr
