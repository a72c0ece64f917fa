import GuardedExpr.Proofs.Code.EmittedCode
import GuardedExpr.Proofs.Run.MirroredReadings
import GuardedExpr.Proofs.Run.RunFaults

/-!
Slots in a run. No access to a slot can fail, since every slot that a statement comes to is one of the frame; and as
none is filled any more once it has been read, all that read it find the same value in it, whatever the host does in
between.
-/

namespace GuardedExpr

variable {σ α β : Type} {host : Host σ} {m : Machine σ} {frame : Frame}

def Host.Misses (host : Host σ) : Prop :=
  ∃ callee arguments heap world, (host.call callee arguments heap world).1 = .error (.fault .missingSlot)

def Host.Spares (host : Host σ) (failure : Error) : Prop :=
  failure = .fault .missingSlot → host.Misses

namespace Error

theorem ne_missingSlot_of_isReported {failure : Error} (reported : failure.isReported) :
    failure ≠ .fault .missingSlot := by
  rintro rfl
  cases reported

end Error

private theorem Machine.Accounts.ne_missingSlot {failure : Error} (accounts : m.Accounts failure) :
    failure ≠ .fault .missingSlot := by
  rcases accounts with reported | escapes
  · exact Error.ne_missingSlot_of_isReported reported
  · cases escapes <;> nofun

private theorem Value.position?_ne_missingSlot (key : Value) :
    key.position? ≠ .error (.fault .missingSlot) := by
  intro failed
  obtain ⟨_, _, _, ⟨_, impossible⟩ | ⟨_, impossible⟩⟩ := Value.position?_eq_error failed <;> cases impossible

namespace Run

def FindsSlots (host : Host σ) (part : Run σ α) : Prop :=
  ∀ m, part.Leads m (fun _ _ => True) fun failure _ => host.Spares failure

theorem findsSlots_pure (value : α) : FindsSlots host (pure value) :=
  fun _ => (leads_pure value).mpr trivial

theorem findsSlots_throw {failure : Error} (other : failure ≠ .fault .missingSlot) :
    FindsSlots host (throw failure : Run σ α) :=
  fun _ => (leads_throw failure).mpr fun same => absurd same other

theorem FindsSlots.bind {part : Run σ β} {next : β → Run σ α} (first : part.FindsSlots host)
    (rest : ∀ value, (next value).FindsSlots host) : (part >>= next).FindsSlots host :=
  fun m => (first m).bind fun value last _ => rest value last

theorem findsSlots_ite {condition : Prop} [Decidable condition] {yes no : Run σ α} (onYes : yes.FindsSlots host)
    (onNo : no.FindsSlots host) : (if condition then yes else no).FindsSlots host := by
  split
  · exact onYes
  · exact onNo

theorem findsSlots_get : (get : Run σ (Machine σ)).FindsSlots host :=
  fun _ => leads_get.mpr trivial

theorem findsSlots_record (event : Event) : (record event : Run σ Unit).FindsSlots host :=
  fun _ => (leads_record event).mpr trivial

theorem findsSlots_alloc (cell : Cell) : (alloc cell : Run σ Value).FindsSlots host :=
  fun _ => (leads_alloc cell).mpr trivial

theorem findsSlots_ask {question : Heap → Except Error α}
    (never : ∀ h, question h ≠ .error (.fault .missingSlot)) : (ask question : Run σ α).FindsSlots host :=
  fun m => (leads_ask question).mpr ⟨fun _ _ => trivial, fun _ failed same => absurd (same ▸ failed) (never m.heap)⟩

theorem findsSlots_isTruthy (v : Value) : (ask fun h => h.isTruthy v : Run σ Bool).FindsSlots host :=
  findsSlots_ask fun _ failed => nomatch (Heap.isTruthy_eq_error failed).1

private theorem findsSlots_function (v : Value) :
    (ask fun h => Guard.function h v : Run σ Unit).FindsSlots host := by
  refine findsSlots_ask fun h failed => ?_
  rcases Guard.function_eq_error failed with reported | ⟨impossible, _⟩
  · cases reported
  · cases impossible

theorem findsSlots_guarded (v : Value) : (guarded v : Run σ Value).FindsSlots host := by
  refine FindsSlots.bind (findsSlots_ask fun h failed => ?_) fun _ => findsSlots_pure v
  rcases Guard.object_eq_error failed with reported | ⟨impossible, _⟩
  · cases reported
  · cases impossible

private theorem findsSlots_memberName (key : Value) :
    (answer (Guard.memberName key) : Run σ Unit).FindsSlots host :=
  fun _ => (leads_answer _).mpr ⟨fun _ _ => trivial, fun _ failed same =>
    absurd same (Error.ne_missingSlot_of_isReported (Guard.memberName_eq_error failed))⟩

theorem findsSlots_has (container : Value) (name : Text) : (has container name : Run σ Bool).FindsSlots host :=
  fun _ => (leads_has container name).mpr ⟨fun _ _ => trivial, fun _ failed same =>
    nomatch (Heap.hasMember_eq_error failed).1.symm.trans same⟩

private theorem findsSlots_read (container : Value) (selector : Selector) (key : Value) :
    (read container selector key : Run σ Value).FindsSlots host :=
  fun _ => (leads_read container selector key).mpr ⟨fun _ _ => trivial, fun _ failed same =>
    absurd (same ▸ Heap.getMember_eq_error failed) key.position?_ne_missingSlot⟩

theorem findsSlots_write {event : Event} {container key value : Value}
    (writes : event.write? = some (container, key, value)) (used : event.key? = some key) :
    (write event container key value : Run σ Unit).FindsSlots host :=
  fun _ => (leads_write event container key value).mpr ⟨fun _ _ => trivial, fun _ failed same =>
    absurd same (Machine.accounts_of_setMember writes used failed).ne_missingSlot⟩

private theorem findsSlots_create (container : Value) (selector : Selector) (key : Value) :
    (create container selector key : Run σ Unit).FindsSlots host :=
  (findsSlots_alloc _).bind fun _ => findsSlots_write rfl rfl

theorem findsSlots_invoke (slot : Nat) (callee : Value) (arguments : List Value) :
    (invoke host slot callee arguments).FindsSlots host :=
  fun m => (leads_invoke host slot callee arguments).mpr ⟨fun _ _ => trivial, fun _ failed same =>
    ⟨callee, arguments, m.heap, m.world, same ▸ failed⟩⟩

end Run

open Run

theorem Frame.findsSlots_slot {slot : Nat} (room : slot < frame.slots.length) :
    (frame.slot slot : Run σ Value).FindsSlots host := by
  intro m
  refine Frame.leads_slot.mpr ⟨fun _ _ => trivial, fun missing => ?_⟩
  rw [List.getElem?_eq_getElem room] at missing
  cases missing

def Frame.HasRoom (frame : Frame) (slots : List Nat) : Prop :=
  ∀ slot ∈ slots, slot < frame.slots.length

theorem Frame.hasRoom_append {slots more : List Nat} :
    frame.HasRoom (slots ++ more) ↔ frame.HasRoom slots ∧ frame.HasRoom more :=
  List.forall_mem_append

theorem Selector.findsSlots_key {selector : Selector} (room : frame.HasRoom selector.reads) :
    (selector.key frame : Run σ Value).FindsSlots host := by
  cases selector with
  | name field => exact findsSlots_pure _
  | slot index => exact Frame.findsSlots_slot (room index (List.mem_singleton_self index))

namespace Code

mutual

theorem findsSlots_run : (code : Code) → frame.HasRoom code.reads → (code.run host frame).FindsSlots host
  | .locals, _ | .scope, _ | .parameter, _ | .literal _ _, _ => findsSlots_pure _
  | .slot index, room => Frame.findsSlots_slot (room index (List.mem_singleton_self index))
  | .owner name, _ => by
    refine (findsSlots_has _ _).bind fun found => ?_
    exact findsSlots_ite (findsSlots_pure _) (findsSlots_pure _)
  | .array items, room => (findsSlots_runAll items room).bind fun values =>
      (findsSlots_record _).bind fun _ => findsSlots_alloc _
  | .object keys values, room => (findsSlots_runEntries keys values [] room).bind fun _ => findsSlots_alloc _
  | .member container selector, room => by
    obtain ⟨inContainer, inSelector⟩ := Frame.hasRoom_append.mp room
    exact (findsSlots_run container inContainer).bind fun subject =>
      (Selector.findsSlots_key inSelector).bind fun key => findsSlots_read _ _ _
  | .guarded code, room => (findsSlots_run code room).bind fun value => findsSlots_guarded value
  | .call callee arguments, room => by
    obtain ⟨own, others⟩ := List.forall_mem_cons.mp room
    refine (Frame.findsSlots_slot own).bind fun target => (findsSlots_isTruthy target).bind fun truth => ?_
    refine findsSlots_ite (findsSlots_pure _) (findsSlots_get.bind fun now => ?_)
    dsimp only
    split
    · refine FindsSlots.bind (findsSlots_throw ?_) fun _ => (findsSlots_runAll arguments others).bind fun _ =>
        (findsSlots_invoke _ _ _).bind fun value => findsSlots_guarded value
      nofun
    · exact (findsSlots_runAll arguments others).bind fun _ => (findsSlots_invoke _ _ _).bind fun value =>
        findsSlots_guarded value
  | .store site container selector value, room => by
    obtain ⟨inPlace, inValue⟩ := Frame.hasRoom_append.mp room
    obtain ⟨inContainer, inSelector⟩ := Frame.hasRoom_append.mp inPlace
    exact (findsSlots_run container inContainer).bind fun subject =>
      (Selector.findsSlots_key inSelector).bind fun key => (findsSlots_run value inValue).bind fun stored =>
        (findsSlots_write rfl rfl).bind fun _ => findsSlots_pure stored

theorem findsSlots_runAll : (codes : List Code) → frame.HasRoom (readsAll codes) →
    (runAll host frame codes).FindsSlots host
  | [], _ => findsSlots_pure _
  | code :: codes, room => by
    obtain ⟨own, others⟩ := Frame.hasRoom_append.mp room
    exact (findsSlots_run code own).bind fun _ => (findsSlots_runAll codes others).bind fun _ => findsSlots_pure _

theorem findsSlots_runEntries : (keys : List (Value × Text)) → (codes : List Code) → (entries : Entries) →
    frame.HasRoom (readsAll codes) → (runEntries host frame keys codes entries).FindsSlots host
  | key :: keys, code :: codes, entries, room => by
    obtain ⟨own, others⟩ := Frame.hasRoom_append.mp room
    rw [runEntries]
    refine (findsSlots_run code own).bind fun value => (findsSlots_record _).bind fun _ => ?_
    refine findsSlots_get.bind fun now => ?_
    split
    · exact findsSlots_runEntries keys codes _ others
    · exact findsSlots_throw nofun
  | [], [], _, _ | [], _ :: _, _, _ | _ :: _, [], _, _ => by
    rw [runEntries]
    · exact findsSlots_pure _
    · nofun

end

end Code

theorem Question.findsSlots_run (question : Question) (room : frame.HasRoom question.reads) :
    (question.run host frame).FindsSlots host := by
  cases question with
  | has container name => exact (Code.findsSlots_run container room).bind fun _ => findsSlots_has _ _
  | holds code => exact (Code.findsSlots_run code room).bind fun value => findsSlots_isTruthy value

theorem Condition.findsSlots_runAll : (conditions : List Condition) →
    frame.HasRoom (conditions.flatMap (·.question.reads)) → (Condition.runAll host frame conditions).FindsSlots host
  | [], _ => findsSlots_pure _
  | condition :: conditions, room => by
    obtain ⟨own, others⟩ := Frame.hasRoom_append.mp room
    have asked : (condition.run host frame).FindsSlots host :=
      (Question.findsSlots_run condition.question own).bind fun _ => findsSlots_pure _
    exact asked.bind fun _ => findsSlots_ite (Condition.findsSlots_runAll conditions others) (findsSlots_pure _)

structure Frame.Holds (frame : Frame) (fills : Nat → Prop) (after : Frame) : Prop where
  room : after.slots.length = frame.slots.length
  slots : ∀ slot, ¬ fills slot → after.slots[slot]? = frame.slots[slot]?

theorem Frame.holds_self (frame : Frame) (fills : Nat → Prop) : frame.Holds fills frame :=
  ⟨rfl, fun _ _ => rfl⟩

theorem Frame.Holds.trans {fills : Nat → Prop} {after last : Frame} (first : frame.Holds fills after)
    (second : after.Holds fills last) : frame.Holds fills last :=
  ⟨second.room.trans first.room, fun slot kept => (second.slots slot kept).trans (first.slots slot kept)⟩

theorem Frame.Holds.mono {fills more : Nat → Prop} {after : Frame} (holds : frame.Holds fills after)
    (imp : ∀ slot, fills slot → more slot) : frame.Holds more after :=
  ⟨holds.room, fun slot kept => holds.slots slot fun filled => kept (imp slot filled)⟩

/-- A part of a run that leads to a frame in which nothing is changed but slots that are to be filled. -/
def Run.FillsOnly (host : Host σ) (frame : Frame) (fills : Nat → Prop) (part : Run σ Frame) : Prop :=
  ∀ m, part.Leads m (fun after _ => frame.Holds fills after) fun failure _ => host.Spares failure

variable {fills : Nat → Prop}

theorem Run.fillsOnly_bind {part : Run σ β} {next : β → Run σ Frame} (first : part.FindsSlots host)
    (rest : ∀ value, (next value).FillsOnly host frame fills) : (part >>= next).FillsOnly host frame fills :=
  fun m => (first m).bind fun value last _ => rest value last

theorem Run.fillsOnly_pure {after : Frame} (holds : frame.Holds fills after) :
    (pure after : Run σ Frame).FillsOnly host frame fills :=
  fun _ => (leads_pure after).mpr holds

theorem Action.fillsOnly_run (action : Action) (reads : frame.HasRoom action.reads)
    (fills : frame.HasRoom action.filled?.toList) :
    (action.run host frame).FillsOnly host frame fun slot => action.filled? = some slot := by
  cases action with
  | assign slot code =>
    refine fillsOnly_bind (Code.findsSlots_run code reads) fun value m => ?_
    have room : slot < frame.slots.length := fills slot (List.mem_singleton_self slot)
    refine (Frame.leads_setSlot room).mpr ⟨List.length_set, fun other kept => ?_⟩
    exact List.getElem?_set_ne fun same => kept (congrArg some same)
  | create container selector =>
    obtain ⟨inContainer, inSelector⟩ := Frame.hasRoom_append.mp reads
    exact fillsOnly_bind (Selector.findsSlots_key inSelector) fun key =>
      fillsOnly_bind (Code.findsSlots_run container inContainer) fun subject =>
        fillsOnly_bind (findsSlots_create _ _ _) fun _ => fillsOnly_pure (frame.holds_self _)

namespace Statement

theorem fillsOnly_run (statement : Statement) (reads : frame.HasRoom statement.reads)
    (fills : frame.HasRoom statement.filled?.toList) :
    (statement.run host frame).FillsOnly host frame fun slot => statement.filled? = some slot := by
  cases statement with
  | perform action => exact action.fillsOnly_run reads fills
  | guardedBy conditions action =>
    obtain ⟨asked, done⟩ := Frame.hasRoom_append.mp reads
    refine fillsOnly_bind (Condition.findsSlots_runAll conditions asked) fun holds => ?_
    split
    · exact action.fillsOnly_run done fills
    · exact fillsOnly_pure (frame.holds_self _)
  | checkObject code =>
    exact fillsOnly_bind (Code.findsSlots_run code reads) fun value =>
      fillsOnly_bind (findsSlots_guarded value) fun _ => fillsOnly_pure (frame.holds_self _)
  | checkName slot =>
    exact fillsOnly_bind (Frame.findsSlots_slot (reads slot (List.mem_singleton_self slot))) fun key =>
      fillsOnly_bind (findsSlots_memberName key) fun _ =>
        fillsOnly_bind (findsSlots_record _) fun _ => fillsOnly_pure (frame.holds_self _)
  | checkFunction slot =>
    exact fillsOnly_bind (Frame.findsSlots_slot (reads slot (List.mem_singleton_self slot))) fun callee =>
      fillsOnly_bind (findsSlots_function callee) fun _ =>
        fillsOnly_bind (findsSlots_record _) fun _ => fillsOnly_pure (frame.holds_self _)
  | result code =>
    exact fillsOnly_bind (Code.findsSlots_run code reads) fun value => fillsOnly_pure ⟨rfl, fun _ _ => rfl⟩

def HaveRoom (frame : Frame) (statements : List Statement) : Prop :=
  ∀ statement ∈ statements, frame.HasRoom statement.reads ∧ frame.HasRoom statement.filled?.toList

theorem fillsOnly_runAll (statements : List Statement) (room : HaveRoom frame statements) :
    (runAll host frame statements).FillsOnly host frame fun slot =>
      ∃ statement ∈ statements, statement.filled? = some slot := by
  induction statements generalizing frame with
  | nil => exact fillsOnly_pure (frame.holds_self _)
  | cons statement rest hypothesis =>
    obtain ⟨⟨reads, fills⟩, others⟩ := List.forall_mem_cons.mp room
    intro m
    refine (statement.fillsOnly_run reads fills m).bind fun middle next held => ?_
    have still : HaveRoom middle rest := fun other member =>
      ⟨fun slot read => held.room ▸ (others other member).1 slot read,
        fun slot filled => held.room ▸ (others other member).2 slot filled⟩
    refine (hypothesis still next).imp fun after last further => ?_
    refine Frame.Holds.trans (held.mono fun slot filled => ?_) (further.mono fun slot filled => ?_)
    · exact ⟨statement, List.mem_cons_self, filled⟩
    · obtain ⟨other, member, fills⟩ := filled
      exact ⟨other, List.mem_cons_of_mem _ member, fills⟩

end Statement

/-- The statements between two points of a run lead from the one frame to the other. -/
theorem Statement.run_between {statements : List Statement} {start before behind : Frame} {now last : Machine σ}
    {i j : Nat} (early : (runAll host start (statements.take i)).run.run m = (.ok before, now))
    (late : (runAll host start (statements.take j)).run.run m = (.ok behind, last)) (le : i ≤ j) :
    (runAll host before ((statements.take j).drop i)).run.run now = (.ok behind, last) := by
  have split : statements.take j = statements.take i ++ (statements.take j).drop i := by
    have parts := List.take_append_drop i (statements.take j)
    rw [List.take_take, Nat.min_eq_left le] at parts
    exact parts.symm
  rw [split, runAll_append, ExceptT.run_bind, StateT.run_bind, early] at late
  exact late

namespace EmittedBody

open Statement

/-- The slots of a body are named in order, and filled and read as slots should be: only such as there are, each one
filled for the node that it was declared for and by no other, and before it is read. So no run comes to a slot that is
not there, and what a statement reads in a slot is what all later ones read in it. -/
structure IsDisciplined (emitted : EmittedBody) : Prop where
  names : emitted.names.map Prod.snd = (List.range emitted.names.length).map slotName
  within : ∀ one ∈ emitted.body, ∀ slot, slot ∈ one.2.reads ∨ one.2.filled? = some slot → slot < emitted.names.length
  filled : ∀ slot < emitted.names.length, ∃ one ∈ emitted.body, one.2.filled? = some slot
  owned : ∀ one ∈ emitted.body, ∀ slot, one.2.filled? = some slot → (emitted.names[slot]?).map Prod.fst = some one.1
  ordered : ∀ (i j : Nat) (first later : Address × Statement) (slot : Nat), emitted.body[i]? = some first →
    emitted.body[j]? = some later → first.2.filled? = some slot → slot ∈ later.2.reads → i < j
  finds : ∀ {σ : Type} (host : Host σ) (locals scope parameter : Value) (m : Machine σ),
    ((emitted.routine.run host locals scope parameter).run.run m).1 = .error (.fault .missingSlot) → host.Misses
  steady : ∀ {σ : Type} (host : Host σ) (locals scope parameter : Value) (m now last : Machine σ) (i j : Nat)
    (guard : Address × Statement) (before behind : Frame),
    let start := Frame.start locals scope parameter emitted.routine.slots
    (Statement.runAll host start (emitted.routine.statements.take i)).run.run m = (.ok before, now) →
      (Statement.runAll host start (emitted.routine.statements.take j)).run.run m = (.ok behind, last) →
        i ≤ j → emitted.body[i]? = some guard → ∀ slot ∈ guard.2.reads,
          ∃ value, before.slots[slot]? = some value ∧ behind.slots[slot]? = some value

variable {emitted : EmittedBody}

/-- In tidy statements, whatever fills a slot comes before whatever reads it. -/
theorem before_of_areTidy {statements : List Statement} {slots : Nat} (tidy : AreTidy statements 0 slots) {i j : Nat}
    {first later : Statement} {slot : Nat} (at_i : statements[i]? = some first) (at_j : statements[j]? = some later)
    (fills : first.filled? = some slot) (reads : slot ∈ later.reads) : i < j := by
  obtain ⟨insideFirst, rfl⟩ := List.getElem?_eq_some_iff.mp at_i
  obtain ⟨insideLater, rfl⟩ := List.getElem?_eq_some_iff.mp at_j
  have sorted := List.pairwise_iff_getElem.mp tidy.order.sorted
  by_contra behind
  by_cases same : i = j
  · subst same
    exact tidy.order.apart _ (List.getElem_mem insideFirst) slot reads fills
  · exact sorted j i insideLater insideFirst (by omega) slot reads fills

theorem haveRoom_of_areTidy {statements : List Statement} {slots : Nat} (tidy : AreTidy statements 0 slots)
    (room : frame.slots.length = slots) : Statement.HaveRoom frame statements := by
  refine fun statement member => ⟨fun slot read => ?_, fun slot fills => ?_⟩
  · exact room ▸ (tidy.within statement member slot (.inl read)).2
  · exact room ▸ (tidy.within statement member slot (.inr (Option.mem_toList.mp fills))).2

private theorem steady_of_areTidy {statements : List Statement} {slots : Nat}
    (tidy : AreTidy statements 0 slots)
    {start before behind : Frame} (room : start.slots.length = slots) {now last : Machine σ} {i j : Nat}
    (early : (runAll host start (statements.take i)).run.run m = (.ok before, now))
    (late : (runAll host start (statements.take j)).run.run m = (.ok behind, last)) (le : i ≤ j) {guard : Statement}
    (at_i : statements[i]? = some guard) {slot : Nat} (read : slot ∈ guard.reads) :
    ∃ value, before.slots[slot]? = some value ∧ behind.slots[slot]? = some value := by
  have whole : HaveRoom start statements := haveRoom_of_areTidy tidy room
  have taken : HaveRoom start (statements.take i) := fun statement member =>
    whole statement (List.mem_of_mem_take member)
  have first := (leads_iff.mp (fillsOnly_runAll _ taken m)).1 before (congrArg Prod.fst early)
  have roomBefore : before.slots.length = slots := first.room.trans room
  have rest : HaveRoom before ((statements.take j).drop i) := fun statement member =>
    haveRoom_of_areTidy tidy roomBefore statement (List.mem_of_mem_take (List.mem_of_mem_drop member))
  have between := run_between early late le
  have second := (leads_iff.mp (fillsOnly_runAll _ rest now)).1 behind (congrArg Prod.fst between)
  have inside : slot < before.slots.length := by
    have member : guard ∈ statements := List.mem_of_getElem? at_i
    exact roomBefore ▸ (tidy.within guard member slot (.inl read)).2
  refine ⟨before.slots[slot], List.getElem?_eq_getElem inside, ?_⟩
  rw [second.slots slot, List.getElem?_eq_getElem inside]
  -- whatever still fills the slot would have come before the statement that read it
  rintro ⟨statement, member, fills⟩
  obtain ⟨k, inRest, rfl⟩ := List.mem_iff_getElem.mp member
  rw [List.getElem_drop, List.getElem_take] at fills
  have at_k := List.getElem?_eq_getElem (l := statements) (i := i + k) (by grind)
  have order := before_of_areTidy tidy at_k at_i fills read
  omega

theorem isDisciplined_of_areTidy (sound : emitted.IsSound)
    (tidy : AreTidy emitted.routine.statements 0 emitted.routine.slots) : emitted.IsDisciplined where
  names := sound.names
  within one member slot used := (tidy.within one.2 (List.mem_map_of_mem member) slot used).2
  filled slot inside := by
    obtain ⟨statement, member, fills⟩ := tidy.full slot (Nat.zero_le slot) inside
    obtain ⟨one, also, rfl⟩ := List.mem_map.mp member
    exact ⟨one, also, fills⟩
  owned := sound.owned
  ordered i j first later slot at_i at_j fills reads :=
    before_of_areTidy tidy (by simp [routine, at_i]) (by simp [routine, at_j]) fills reads
  finds host locals scope parameter m failed := by
    have room : Statement.HaveRoom (Frame.start locals scope parameter emitted.routine.slots)
        emitted.routine.statements :=
      haveRoom_of_areTidy tidy List.length_replicate
    have leads : (emitted.routine.run host locals scope parameter).FindsSlots host := fun m =>
      (fillsOnly_runAll _ room m).bind fun _ _ _ => trivial
    exact (leads_iff.mp (leads m)).2 _ failed rfl
  steady host locals scope parameter m now last i j guard before behind := by
    intro start early late le at_i slot read
    exact steady_of_areTidy tidy List.length_replicate early late le (by simp [routine, at_i]) read

end EmittedBody

namespace Evaluator

private theorem exists_program_of_ofTree {h : Heap} {tree : Node} {text : Text}
    {evaluator : Evaluator}
    (made : ofTree h tree text = .ok evaluator) : ∃ body, tree = .program body := by
  cases tree with
  | program body => exact ⟨body, rfl⟩
  | _ =>
    rw [ofTree, bind_eq_ok] at made
    · obtain ⟨_, _, impossible⟩ := made
      cases impossible
    · rintro _ ⟨⟩

/-- Whatever an instance of the compiler has compiled before, or failed to compile, it emits disciplined bodies for a
tree that compiles. -/
theorem ofTree_disciplined (h : Heap) (tree : Node) (text : Text) (evaluator : Evaluator)
    (compiled : ofTree h tree text = .ok evaluator) (earlier : List (Heap × Node)) :
    ∃ main assigner after, (Emitter.evaluator h tree).run.run (Emitter.history earlier) = (.ok (main, assigner), after) ∧
      main.routine = evaluator.routine ∧ assigner.map EmittedBody.routine = evaluator.assigner ∧
        main.IsDisciplined ∧ ∀ other ∈ assigner, other.IsDisciplined := by
  have follows := Emitter.follows_evaluator h tree text (Emitter.history earlier)
  rw [compiled] at follows
  obtain ⟨⟨main, assigner⟩, after, run, rfl, sound, others⟩ := follows
  obtain ⟨body, rfl⟩ := exists_program_of_ofTree compiled
  obtain ⟨_, _, made, alsoMade, _, same⟩ := parts_ofTree compiled
  cases same
  refine ⟨main, assigner, after, run, rfl, rfl, ?_, fun other found => ?_⟩
  · exact EmittedBody.isDisciplined_of_areTidy sound (Node.areTidy_routine made)
  · have assigning : assigner.map EmittedBody.routine = some other.routine := congrArg _ found
    exact EmittedBody.isDisciplined_of_areTidy (others other found) (Node.areTidy_routine (alsoMade _ assigning))

/-- A member is compiled by an instance that has compiled another tree and refused a third. -/
theorem ofTree_disciplined_after_refusal :
    let tree : Node := .program (.member (.identifier (Text.of "a")) (.identifier (Text.of "b")) true)
    let refused : Node := .program (.assignment (.identifier (Text.of "c")) (.identifier (Text.of "__proto__")))
    let earlier := [(Heap.empty, refused), (Heap.empty, tree)]
    ∃ evaluator main assigner after, ofTree Heap.empty tree (Text.of "a[b]") = .ok evaluator ∧
      (∃ failure, ofTree Heap.empty refused (Text.of "c = __proto__") = .error failure) ∧
        (Emitter.evaluator Heap.empty tree).run.run (Emitter.history earlier) = (.ok (main, assigner), after) ∧
          main.IsDisciplined ∧ ∀ other ∈ assigner, other.IsDisciplined := by
  intro tree refused earlier
  obtain ⟨evaluator, made⟩ : ∃ evaluator, ofTree Heap.empty tree (Text.of "a[b]") = .ok evaluator :=
    exists_ofTree (by decide +kernel)
  obtain ⟨main, assigner, after, run, -, -, disciplined, others⟩ :=
    ofTree_disciplined Heap.empty tree (Text.of "a[b]") evaluator made earlier
  exact ⟨evaluator, main, assigner, after, made, ⟨_, rfl⟩, run, disciplined, others⟩

end Evaluator

end GuardedExpr
