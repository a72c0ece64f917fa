import GuardedExpr.Code.Compile
import GuardedExpr.Proofs.Run.HeapLookups

/-!
Statements that mirror a reading. They run on a heap of their own, which has grown from the same one as the heap
of the reading, fill slots that were unused, and fail as the reading fails. Parts that mirror their readings are
put together as the compiler puts them together.
-/

namespace GuardedExpr

variable {σ : Type} {host : Host σ} {base a b h : Heap} {frame after : Frame} {m : Machine σ}

namespace Heap

variable {container like key other : Value}

theorem Branches.guarded (branches : Branches base a b) {first second : Except Error Value}
    (answers : AnswerAlike base.size a b first second) :
    AnswerAlike base.size a b (a.guarded first) (b.guarded second) := by
  cases answers with
  | error failure => exact .error failure
  | ok alike =>
    simp only [Heap.guarded, bind, Except.bind, branches.object alike]
    cases Guard.object b _ with
    | error failure => exact .error failure
    | ok => exact .ok alike

theorem Branches.resolve (branches : Branches base a b) {locals scope : Value}
    (localsBelow : locals.isBelow base.size) (scopeBelow : scope.isBelow base.size) (name : Text) :
    AnswerAlike base.size a b (a.resolve locals scope name) (b.resolve locals scope name) := by
  unfold Heap.resolve
  rw [branches.hasMember localsBelow, branches.isTruthy (.same scopeBelow)]
  cases b.hasMember locals name with
  | error failure => exact .error failure
  | ok owns =>
    cases owns with
    | true => exact branches.getMember (.same localsBelow) (.same rfl)
    | false =>
      cases b.isTruthy scope with
      | error failure => exact .error failure
      | ok truthy =>
        cases truthy with
        | true => exact branches.getMember (.same scopeBelow) (.same rfl)
        | false => exact .ok (.same rfl)

end Heap

section Access

variable {container : Code} {selector : Selector} {bound : Nat} {like key other : Value} {middle : Machine σ}

variable (branches : base.Branches m.heap b)
  (yields : container.Yields host base.size bound frame m.heap b like)

include branches yields

private theorem Question.leads_holds :
    ((Question.holds container).run host frame).Leads m
      (fun holds middle => m.heap.Grows middle.heap ∧ b.isTruthy like = .ok holds)
      fun failure _ => b.isTruthy like = .error failure := by
  apply Run.Leads.bind (yields.leads (.refl _))
  rintro found middle ⟨grows, alike⟩
  have same := (branches.grow grows (.refl _)).isTruthy alike
  rw [Run.leads_ask, same]
  exact ⟨fun holds answered => ⟨grows, answered⟩, fun failure failed => failed⟩

variable (keyed : ∀ h, (selector.key frame : Run σ Value).Finds h (.ok key))
  (keys : Heap.Alike base.size m.heap b key other)

include keyed keys

private theorem Code.leads_guarded_member (grows : m.heap.Grows middle.heap) :
    ((Code.guarded (.member container selector)).run host frame).Leads middle
      (fun found last => middle.heap.Grows last.heap ∧ ∃ value,
        b.guarded (b.getMember like other) = .ok value ∧ Heap.Alike base.size last.heap b found value)
      fun failure _ => b.guarded (b.getMember like other) = .error failure := by
  simp only [Code.run, bind_assoc]
  apply Run.Leads.bind (yields.leads grows)
  rintro subject last ⟨further, alike⟩
  have later := branches.grow (grows.trans further) (.refl _)
  have answers : Heap.AnswerAlike base.size last.heap b
      (last.heap.guarded (last.heap.getMember subject key)) (b.guarded (b.getMember like other)) :=
    later.guarded (later.getMember alike (keys.grow (grows.trans further) (.refl _)))
  have found : (do
      let key ← selector.key frame
      let value ← Run.read subject selector key
      Run.guarded value : Run σ Value).Finds last.heap
        (last.heap.guarded (last.heap.getMember subject key)) :=
    (keyed last.heap).bind_ok (Run.finds_bind (Run.finds_read subject selector key)
      fun value _ => Run.finds_guarded value)
  apply found.leads
  · intro value final same present
    rw [present] at answers
    generalize b.guarded (b.getMember like other) = read at answers
    cases answers with
    | ok alike => exact ⟨same ▸ further, _, rfl, same ▸ alike⟩
  · intro failure _ failed
    rw [failed] at answers
    generalize b.guarded (b.getMember like other) = read at answers
    cases answers
    rfl

/-- The statements that read a member find what the reading finds, though they run the code of the container
twice. -/
theorem leads_access {slot : Nat} (room : slot < frame.slots.length)
    (null : frame.slots[slot]? = some .null) :
    (Statement.runAll host frame (access container selector false slot)).Leads m
      (fun after last => m.heap.Grows last.heap ∧ ∃ found value,
        b.guarded (b.memberOrNull like other) = .ok value ∧ after = frame.fill slot found ∧
          Heap.Alike base.size last.heap b found value)
      fun failure _ => b.guarded (b.memberOrNull like other) = .error failure := by
  have outcome : (Statement.run host frame (.guardedBy [(Question.holds container).yes]
      (.assign slot (.guarded (.member container selector))))).Leads m
      (fun after last => m.heap.Grows last.heap ∧ ∃ found value,
        b.guarded (b.memberOrNull like other) = .ok value ∧ after = frame.fill slot found ∧
          Heap.Alike base.size last.heap b found value)
      fun failure _ => b.guarded (b.memberOrNull like other) = .error failure := by
    unfold Heap.memberOrNull
    simp only [Statement.run, Condition.runAll, Condition.run, bind_assoc]
    refine (Run.leads_bind _ _).mpr ((Question.leads_holds branches yields).mono ?_ ?_)
    · rintro holds middle ⟨grows, answered⟩
      rw [answered]
      cases holds with
      | false => exact ⟨grows, .null, .null, rfl, (Frame.fill_self null).symm, .same rfl⟩
      | true =>
        have performed : ((Action.assign slot (.guarded (.member container selector))).run host frame).Leads
            middle (fun after last => m.heap.Grows last.heap ∧ ∃ found value,
              b.guarded (b.getMember like other) = .ok value ∧ after = frame.fill slot found ∧
                Heap.Alike base.size last.heap b found value)
            fun failure _ => b.guarded (b.getMember like other) = .error failure := by
          apply (Code.leads_guarded_member branches yields keyed keys grows).bind
          rintro found last ⟨further, value, read, alike⟩
          exact (Frame.leads_setSlot room).mpr ⟨grows.trans further, found, value, read, rfl, alike⟩
        exact performed
    · rintro failure last failed
      rw [failed]
      rfl
  exact outcome.bind fun _ _ reached => reached

end Access

namespace Frame

theorem IsFree.mono {free next : Nat} (unused : frame.IsFree free) (above : free ≤ next) :
    frame.IsFree next :=
  fun slot outside room => unused slot (Nat.le_trans above outside) room

theorem IsFree.fill {next slot : Nat} (unused : frame.IsFree next) (below : slot < next) (value : Value) :
    (frame.fill slot value).IsFree next := by
  intro other outside room
  have different : slot ≠ other := by omega
  have same : (frame.fill slot value).slots[other]? = frame.slots[other]? :=
    List.getElem?_set_ne different
  rw [same]
  exact unused other outside (by simpa [Frame.fill] using room)

/-- A frame before the statements of a node, with the slots that they may use unused, on a heap that has
grown from the same one as the heap of the reading. -/
structure Ready (base : Heap) (locals scope : Value) (frame : Frame) (free : Nat) (a b : Heap) : Prop where
  branches : base.Branches a b
  below : locals.isBelow base.size ∧ scope.isBelow base.size
  locals : frame.locals = locals
  scope : frame.scope = scope
  unused : frame.IsFree free

/-- A frame behind statements that fill the slots between two bounds and make nothing but new cells, while
the reading makes new cells, too. -/
structure Passes (free next : Nat) (frame after : Frame) (m last : Machine σ) (b further : Heap) :
    Prop where
  agrees : frame.Agrees free after
  unused : after.IsFree next
  left : m.heap.Grows last.heap
  right : b.Grows further

variable {free middle next start : Nat} {locals scope : Value} {last final : Machine σ} {further : Heap}

theorem Ready.pass (ready : frame.Ready base locals scope free m.heap b)
    (passes : frame.Passes free next after m last b further) :
    after.Ready base locals scope next last.heap further where
  branches := ready.branches.grow passes.left passes.right
  locals := passes.agrees.locals.trans ready.locals
  scope := passes.agrees.scope.trans ready.scope
  below := ready.below
  unused := passes.unused

theorem Ready.mono (ready : frame.Ready base locals scope free a b) (above : free ≤ next) :
    frame.Ready base locals scope next a b :=
  { ready with unused := ready.unused.mono above }

theorem Passes.trans {ending : Frame} {furthest : Heap}
    (first : frame.Passes free middle after m last b further)
    (second : after.Passes start next ending last final further furthest) (ordered : free ≤ start) :
    frame.Passes free next ending m final b furthest where
  agrees := first.agrees.trans (second.agrees.mono ordered)
  unused := second.unused
  left := first.left.trans second.left
  right := first.right.trans second.right

theorem passes_refl (unused : frame.IsFree free) : frame.Passes free free frame m m b b :=
  ⟨.refl _ _, unused, .refl _, .refl _⟩

theorem passes_fill {slot : Nat} {value : Value} (unused : frame.IsFree next) (below : slot < next)
    (left : m.heap.Grows last.heap) : frame.Passes slot next (frame.fill slot value) m last b b :=
  ⟨frame.agrees_fill slot value, unused.fill below value, left, .refl _⟩

end Frame

theorem Statement.runAll_append (first second : List Statement) :
    Statement.runAll host frame (first ++ second) =
      Statement.runAll host frame first >>= fun after => Statement.runAll host after second := by
  induction first generalizing frame with
  | nil => rw [List.nil_append, Statement.runAll, pure_bind]
  | cons statement rest hypothesis =>
    simp only [List.cons_append, Statement.runAll, bind_assoc, hypothesis]

/-- Statements that do what a reading does: they fail as it fails, or fill their slots in such a way that
code yields what is read. -/
def Statement.Mirror {α : Type} (host : Host σ) (statements : List Statement) (next : Nat)
    (reads : α → Heap → Prop) (fails : Error → Prop) (yields : α → Frame → Heap → Heap → Prop)
    (frame : Frame) (free : Nat) (m : Machine σ) (b : Heap) : Prop :=
  (Statement.runAll host frame statements).Leads m
    (fun after last => ∃ value further, reads value further ∧
      frame.Passes free next after m last b further ∧ yields value after last.heap further)
    fun failure _ => fails failure

namespace Reading

variable {α β : Type} {reading : Reading β} {next : β → Reading α}

theorem bind_run_ok {value : β} {further : Heap} (read : reading.run b = .ok (value, further)) :
    (reading >>= next).run b = (next value).run further := by
  rw [StateT.run_bind, read]
  rfl

theorem bind_run_error {failure : Error} (read : reading.run b = .error failure) :
    (reading >>= next).run b = .error failure := by
  rw [StateT.run_bind, read]
  rfl

theorem ask_run (question : Heap → Except Error α) :
    (ask question).run b = (question b).map fun answer => (answer, b) := by
  unfold ask
  rw [StateT.run_bind]
  cases found : question b with
  | ok value => simp [found]; rfl
  | error failure => simp [found]; rfl

end Reading

abbrev Fragment.Means (host : Host σ) (base : Heap) (fragment : Fragment) (reading : Reading Value)
    (frame : Frame) (free : Nat) (m : Machine σ) (b : Heap) : Prop :=
  Statement.Mirror host fragment.statements fragment.next
    (fun value further => reading.run b = .ok (value, further))
    (fun failure => reading.run b = .error failure)
    (fun value after a further => fragment.code.Yields host base.size fragment.next after a further value)
    frame free m b

section Parts

variable {α β : Type} {locals scope : Value} {free start middle next : Nat}
  {first second : List Statement}

theorem Statement.Mirror.append {reads : α → Heap → Prop} {fails : Error → Prop}
    {yields : α → Frame → Heap → Heap → Prop} {finalReads : β → Heap → Prop}
    {finalFails : Error → Prop} {finalYields : β → Frame → Heap → Heap → Prop} {resumed : Nat}
    (earlier : Mirror host first middle reads fails yields frame start m b) (ordered : free ≤ start)
    (later : ∀ value after last further, reads value further →
      frame.Passes start middle after m last b further → yields value after last.heap further →
        Mirror host second next finalReads finalFails finalYields after resumed last further)
    (resumes : free ≤ resumed) (failing : ∀ failure, fails failure → finalFails failure) :
    Mirror host (first ++ second) next finalReads finalFails finalYields frame free m b := by
  unfold Mirror
  rw [runAll_append]
  refine (Run.leads_bind _ _).mpr (earlier.mono ?_ fun failure _ failed => failing failure failed)
  rintro after last ⟨value, further, read, passes, yielded⟩
  apply (later value after last further read passes yielded).imp
  rintro ending final ⟨result, furthest, readFinally, rest, yieldedFinally⟩
  have widened : frame.Passes free middle after m last b further :=
    { passes with agrees := passes.agrees.mono ordered }
  exact ⟨result, furthest, readFinally, widened.trans rest resumes, yieldedFinally⟩

namespace Fragment

theorem means_inline (ready : frame.Ready base locals scope free m.heap b) {code : Code} {value : Value}
    (yields : code.Yields host base.size free frame m.heap b value) :
    (inline code free).Means host base (pure value) frame free m b :=
  ⟨value, b, rfl, Frame.passes_refl ready.unused, yields⟩

theorem means_filled {statements : List Statement} {place : Option Place} {reading : Reading Value}
    (ready : frame.Ready base locals scope next m.heap b) (below : free < next)
    (room : free < frame.slots.length)
    (leads : (Statement.runAll host frame statements).Leads m
      (fun after last => m.heap.Grows last.heap ∧ ∃ found value, reading.run b = .ok (value, b) ∧
        after = frame.fill free found ∧ Heap.Alike base.size last.heap b found value)
      fun failure _ => reading.run b = .error failure) :
    Means host base ⟨statements, .slot free, place, next⟩ reading frame free m b := by
  apply leads.imp
  rintro after last ⟨grows, found, value, read, rfl, alike⟩
  have held : (frame.fill free found).slots[free]? = some found := List.getElem?_set_self room
  exact ⟨value, b, read, Frame.passes_fill ready.unused below grows, Code.yields_slot held below alike⟩

theorem means_identifier (ready : frame.Ready base locals scope free m.heap b)
    (room : free < frame.slots.length) (name : Text) (place : Option Place) :
    Means host base ⟨resolution name false free, .slot free, place, free + 1⟩
      (Reading.ask fun h => h.guarded (h.resolve locals scope name)) frame free m b := by
  have answers := ready.branches.guarded (ready.branches.resolve ready.below.1 ready.below.2 name)
  have null := ready.unused free (Nat.le_refl _) room
  have found : (Statement.runAll host frame (resolution name false free)).Finds m.heap
      (frame.fill free <$> m.heap.guarded (m.heap.resolve locals scope name)) := by
    rw [← ready.locals, ← ready.scope]
    exact finds_resolution room null
  apply means_filled (ready.mono (Nat.le_succ free)) (Nat.lt_succ_self free) room
  rw [Reading.ask_run]
  generalize m.heap.guarded (m.heap.resolve locals scope name) = outcome at answers found
  generalize b.guarded (b.resolve locals scope name) = read at answers
  cases answers with
  | error failure =>
    apply found.leads
    · exact fun _ _ _ => nofun
    · rintro other _ ⟨⟩
      rfl
  | @ok v w alike =>
    apply found.leads
    · rintro after last same ⟨⟩
      exact ⟨same ▸ .refl _, v, w, rfl, rfl, same ▸ alike⟩
    · exact fun _ _ => nofun

/-- Reading a member into a slot, whose key is alike to the one of the reading. -/
theorem means_access {container : Code} {selector : Selector} {like key other : Value}
    (ready : frame.Ready base locals scope next m.heap b)
    (yields : container.Yields host base.size next frame m.heap b like)
    (keyed : ∀ h, (selector.key frame : Run σ Value).Finds h (.ok key))
    (keys : Heap.Alike base.size m.heap b key other) (below : free < next)
    (room : free < frame.slots.length) (null : frame.slots[free]? = some .null) (place : Option Place) :
    Means host base ⟨access container selector false free, .slot free, place, next⟩
      (Reading.ask fun h => h.guarded (h.memberOrNull like other)) frame free m b := by
  apply means_filled ready below room
  rw [Reading.ask_run]
  refine (leads_access ready.branches yields keyed keys room null).mono ?_ ?_
  · rintro after last ⟨grows, found, value, read, filled, alike⟩
    exact ⟨grows, found, value, by rw [read]; rfl, filled, alike⟩
  · intro failure _ failed
    rw [failed]
    rfl

theorem means_named {inner : Fragment} {reading : Reading Value}
    (ready : frame.Ready base locals scope free m.heap b)
    (subject : inner.Means host base reading frame (free + 1) m b) (above : free + 1 ≤ inner.next)
    (room : inner.next ≤ frame.slots.length) (name : Text) (place : Option Place) :
    Means host base ⟨inner.statements ++ access inner.code (.name name) false free, .slot free, place,
        inner.next⟩
      (do
        let container ← reading
        Reading.ask fun h => h.guarded (h.memberOrNull container (.text name))) frame free m b := by
  refine subject.append (Nat.le_succ free) ?_ (Nat.le_refl free) fun _ failed => Reading.bind_run_error failed
  intro container after last further read passes yields
  have inside : free < frame.slots.length := by omega
  have null : after.slots[free]? = some .null := by
    rw [passes.agrees.slots free (Nat.lt_succ_self free)]
    exact ready.unused free (Nat.le_refl free) inside
  have keyed (h : Heap) : ((Selector.name name).key after : Run σ Value).Finds h (.ok (.text name)) :=
    Run.finds_pure _
  have accessed := means_access ((ready.mono (Nat.le_succ free)).pass passes) yields keyed (.same rfl)
    above (passes.agrees.room ▸ inside) null place
  simpa only [Means, Reading.bind_run_ok read] using accessed

private theorem mirror_cleared {index : Fragment} {value : Value}
    (ready : frame.Ready base locals scope index.next m.heap b)
    (yields : index.code.Yields host base.size index.next frame m.heap b value)
    (room : index.next < frame.slots.length) :
    Statement.Mirror host [.perform (.assign index.next index.code), .checkName index.next] (index.next + 1)
      (fun key further => (do
        Reading.ask fun _ => Guard.memberName value
        return value : Reading Value).run b = .ok (key, further))
      (fun failure => (do
        Reading.ask fun _ => Guard.memberName value
        return value : Reading Value).run b = .error failure)
      (fun key after a further => ∃ found, after.slots[index.next]? = some found ∧
        Heap.Alike base.size a further found key)
      frame index.next m b := by
  have stored : ((Statement.perform (.assign index.next index.code)).run host frame).Leads m
      (fun after last => m.heap.Grows last.heap ∧ ∃ found, after = frame.fill index.next found ∧
        Heap.Alike base.size last.heap b found value)
      fun _ _ => False := by
    apply (yields frame m (.refl _ _) (.refl _)).bind
    rintro found last ⟨grows, alike⟩
    exact (Frame.leads_setSlot room).mpr ⟨grows, found, rfl, alike⟩
  refine (Run.leads_bind _ _).mpr (stored.mono ?_ fun _ _ never => never.elim)
  rintro after last ⟨grows, found, rfl, alike⟩
  have held : (frame.fill index.next found).slots[index.next]? = some found := List.getElem?_set_self room
  have checked : (Statement.runAll host (frame.fill index.next found) [.checkName index.next]).Finds
      last.heap (Guard.memberName value >>= fun _ => .ok (frame.fill index.next found)) := by
    rw [← alike.memberName]
    have whole : (Statement.runAll host (frame.fill index.next found) [.checkName index.next]).Finds last.heap
        ((Guard.memberName found >>= fun _ => .ok (frame.fill index.next found)) >>= pure) :=
      Run.finds_bind (Statement.finds_checkName held) fun after _ => Run.finds_pure after
    rwa [bind_pure] at whole
  apply checked.leads
  · rintro after final same passed
    cases accepted : Guard.memberName value with
    | error failure =>
      rw [accepted] at passed
      cases passed
    | ok =>
      rw [accepted] at passed
      cases passed
      refine ⟨value, b, ?_, ?_, found, held, same ▸ alike⟩
      · rw [Reading.bind_run_ok (by rw [Reading.ask_run]; rfl)]
        rfl
      · exact Frame.passes_fill (ready.unused.mono (Nat.le_succ _)) (Nat.lt_succ_self _) (same ▸ grows)
  · intro failure _ failed
    cases accepted : Guard.memberName value with
    | error other =>
      rw [accepted] at failed
      cases failed
      exact Reading.bind_run_error (by rw [Reading.ask_run]; rfl)
    | ok =>
      rw [accepted] at failed
      cases failed

private theorem mirror_key {index : Fragment} {reading : Reading Value}
    (ready : frame.Ready base locals scope free m.heap b) (key : index.Means host base reading frame free m b)
    (above : free ≤ index.next) (room : index.next < frame.slots.length) :
    Statement.Mirror host (index.spilled.statements ++ [.checkName index.next]) (index.next + 1)
      (fun value further => (reading >>= fun key => do
        Reading.ask fun _ => Guard.memberName key
        return key).run b = .ok (value, further))
      (fun failure => (reading >>= fun key => do
        Reading.ask fun _ => Guard.memberName key
        return key).run b = .error failure)
      (fun value after a further => ∃ found, after.slots[index.next]? = some found ∧
        Heap.Alike base.size a further found value)
      frame free m b := by
  rw [Fragment.spilled, List.append_assoc]
  refine key.append (Nat.le_refl free) ?_ above fun _ failed => Reading.bind_run_error failed
  intro value after last further read passes yields
  simp only [Reading.bind_run_ok read]
  exact mirror_cleared (ready.pass passes) yields (passes.agrees.room ▸ room)

theorem means_computed {inner index : Fragment} {subject key : Reading Value}
    (ready : frame.Ready base locals scope free m.heap b)
    (container : inner.Means host base subject frame (free + 1) m b) (above : free + 1 ≤ inner.next)
    (computed : ∀ after last further, after.Ready base locals scope inner.next last.heap further →
      after.slots.length = frame.slots.length → index.Means host base key after inner.next last further)
    (beyond : inner.next ≤ index.next) (room : index.next < frame.slots.length) (place : Option Place) :
    Means host base ⟨inner.statements ++ index.spilled.statements ++ [.checkName index.next] ++
        access inner.code (.slot index.next) false free, .slot free, place, index.next + 1⟩
      (do
        let container ← subject
        let key ← key
        Reading.ask fun _ => Guard.memberName key
        Reading.ask fun h => h.guarded (h.memberOrNull container key)) frame free m b := by
  have inside : free < frame.slots.length := by omega
  -- The check of the key is a statement between the two, so it is read as a part of the key.
  have assoc (container : Value) (h : Heap) : (do
        let key ← key
        Reading.ask fun _ => Guard.memberName key
        Reading.ask fun h => h.guarded (h.memberOrNull container key) : Reading Value).run h =
      ((key >>= fun key => do
        Reading.ask fun _ => Guard.memberName key
        return key) >>= fun key => Reading.ask fun h => h.guarded (h.memberOrNull container key)).run h := by
    simp only [bind_assoc, pure_bind]
  unfold Means
  simp only [List.append_assoc inner.statements]
  refine container.append (Nat.le_succ free) ?_ (Nat.le_refl free) fun _ failed =>
    Reading.bind_run_error failed
  intro found after last further read passes yields
  simp only [Reading.bind_run_ok read, assoc]
  have next := (ready.mono (Nat.le_succ free)).pass passes
  have room' : index.next < after.slots.length := passes.agrees.room ▸ room
  have checked := mirror_key next (computed after last further next passes.agrees.room) beyond room'
  refine checked.append (Nat.le_trans (Nat.le_succ free) above) ?_ (Nat.le_refl free) fun _ failed =>
    Reading.bind_run_error failed
  rintro key ending final furthest readKey passed ⟨held, holds, alike⟩
  simp only [Reading.bind_run_ok readKey]
  have null : ending.slots[free]? = some .null := by
    rw [passed.agrees.slots free (by omega), passes.agrees.slots free (Nat.lt_succ_self free)]
    exact ready.unused free (Nat.le_refl free) inside
  have keyed (h : Heap) : ((Selector.slot index.next).key ending : Run σ Value).Finds h (.ok held) :=
    Frame.finds_of_held holds
  exact means_access (next.pass passed)
    (yields.mono (by omega) passed.agrees passed.left passed.right) keyed alike (by omega)
    (passed.agrees.room ▸ passes.agrees.room ▸ inside) null place

abbrev AllMean (host : Host σ) (base : Heap) (statements : List Statement) (codes : List Code) (next : Nat)
    (reading : Reading (List Value)) (frame : Frame) (free : Nat) (m : Machine σ) (b : Heap) : Prop :=
  Statement.Mirror host statements next (fun values further => reading.run b = .ok (values, further))
    (fun failure => reading.run b = .error failure)
    (fun values after a further => Code.YieldAll host base.size next after a further codes values)
    frame free m b

abbrev PropertiesMean (host : Host σ) (base : Heap) (statements : List Statement)
    (keys : List (Value × Text)) (codes : List Code) (next : Nat) (reading : Entries → Reading Entries)
    (frame : Frame) (free : Nat) (m : Machine σ) (b : Heap) : Prop :=
  Statement.Mirror host statements next
    (fun members further => ∀ entries, (reading entries).run b = .ok (members.setAll entries, further))
    (fun failure => ∀ entries, (reading entries).run b = .error failure)
    (fun members after a further =>
      Code.YieldMembers host base.size next after a further keys codes members) frame free m b

theorem means_array {statements : List Statement} {codes : List Code} {reading : Reading (List Value)}
    (ready : frame.Ready base locals scope free m.heap b)
    (items : AllMean host base statements codes next reading frame free m b) :
    Means host base ⟨statements, .array codes, none, next⟩
      (do Reading.alloc (.list (← reading))) frame free m b := by
  refine Run.Leads.mono items ?_ fun failure _ failed => Reading.bind_run_error failed
  rintro after last ⟨values, further, read, passes, yield⟩
  refine ⟨.ref further.size, (further.alloc (.list values)).2, ?_, ?_, ?_⟩
  · rw [Reading.bind_run_ok read]
    rfl
  · exact { passes with right := passes.right.trans (further.grows_alloc _) }
  · exact Code.yields_array (ready.pass passes).branches yield

theorem means_object {statements : List Statement} {keys : List (Value × Text)} {codes : List Code}
    {reading : Entries → Reading Entries} (ready : frame.Ready base locals scope free m.heap b)
    (properties : PropertiesMean host base statements keys codes next reading frame free m b) :
    Means host base ⟨statements, .object keys codes, none, next⟩
      (do Reading.alloc (.mapping .plain (← reading []))) frame free m b := by
  refine Run.Leads.mono properties ?_ fun failure _ failed => Reading.bind_run_error (failed [])
  rintro after last ⟨members, further, read, passes, yield⟩
  refine ⟨.ref further.size, (further.alloc (.mapping .plain (members.setAll []))).2, ?_, ?_, ?_⟩
  · rw [Reading.bind_run_ok (read [])]
    rfl
  · exact { passes with right := passes.right.trans (further.grows_alloc _) }
  · exact Code.yields_object (ready.pass passes).branches yield

end Fragment

end Parts

end GuardedExpr
