import GuardedExpr.Proofs.Code.CompileVerdict
import GuardedExpr.Proofs.Run.CompiledMeaning
import GuardedExpr.Proofs.Run.QuietRuns

/-!
What an assignment stores. Its left side runs first and puts empty objects into the places that are missing on
the way to its target, the target among them; then the right side is read, and at last its value is written.
So the right side is read on the heap that the left side leaves behind, which is the first one wherever nothing
was missing.
-/

namespace GuardedExpr

variable {σ : Type} {host : Host σ} {heap before during : Heap} {frame : Frame} {m last : Machine σ}
  {locals scope : Value}

structure Heap.Precedes (locals scope : Value) (earlier later : Heap) : Prop where
  closed : earlier.IsClosed
  grows : earlier.Grows later
  locals : locals.isBelow earlier.size
  scope : scope.isBelow earlier.size

def Node.IsReadAs (node : Node) (locals scope : Value) (before during : Heap) (value : Value) : Prop :=
  ∀ earlier, Heap.Precedes locals scope earlier before →
    ∃ found further, (node.read locals scope).run earlier = .ok (found, further) ∧
      Heap.Alike earlier.size during further value found

/-- From the first heap on, the left side of an assignment has made the second; the right side has added to it
what it built; and then the value was written to its place, which nothing followed. -/
structure Heap.Assigns (heap before during after : Heap) (journal : List Event) (value : Value) : Prop where
  filled : heap.Filled (Event.creations journal) before
  grows : before.Grows during
  stored : ∃ site container selector key past,
    journal = .stored site container selector key value :: past ∧
      during.setMember container key value = .ok after

private theorem Frame.filling_start (closed : heap.IsClosed)
    (localsBelow : locals.isBelow heap.size)
    (scopeBelow : scope.isBelow heap.size) (world : σ) (slots : Nat) :
    (Frame.start locals scope .null slots).Filling heap ⟨heap, world, []⟩ where
  closed := closed
  inside := {
    locals := localsBelow
    scope := scopeBelow
    parameter := rfl
    slots := by
      intro value member
      rw [(List.mem_replicate.mp member).2]
      rfl }
  filled := .start

theorem Frame.Sound.isFree {fit : Heap → Value → Prop} {known : Standings} {free : Nat}
    (sound : frame.Sound fit known m) (fresh : known.Fresh free) : frame.IsFree free := by
  intro slot outside room
  have empty := sound.slots slot
  rw [fresh slot outside, List.getElem?_eq_getElem room] at empty
  rw [List.getElem?_eq_getElem room, empty.2.2 _ rfl]

section Sides

variable {h : Heap} {left right : Node} {free : Nat} {target source : Fragment} {place : Place}

/-- The statements of a left side fill the slots before the next free one, and fill missing places. -/
theorem Node.leads_left (written : left.isWritten) (calm : left.acts = false)
    (compiled : left.compile h true 0 = .ok target) (closed : heap.IsClosed)
    (localsBelow : locals.isBelow heap.size) (scopeBelow : scope.isBelow heap.size) (world : σ) (slots : Nat) :
    let start := Frame.start locals scope .null slots
    (Statement.runAll host start target.statements).Leads ⟨heap, world, []⟩
      (fun after last => start.Advances heap true after ⟨heap, world, []⟩ last ∧ after.IsFree target.next)
      fun _ _ => True := by
  intro start
  have made := becomes_of_compile left compiled
  have pass := (made.sound written Standings.fresh_empty).pass
  have quiet := made.isQuiet written calm
  have sound : start.Sound (fun _ _ => True) (fun _ => .empty) ⟨heap, world, []⟩ :=
    Frame.sound_start (Fitness.any host) rfl trivial trivial .null slots
  have fills : (Statement.runAll host start target.statements).Leads ⟨heap, world, []⟩
      (fun after last => start.Advances heap true after ⟨heap, world, []⟩ last) fun _ _ => True :=
    Statement.leads_runAll_fills (Frame.filling_start closed localsBelow scopeBelow world slots)
      target.statements quiet.statements
  have filled := Statement.leads_runAll_sound (Fitness.any host) sound target.statements pass.proper
  refine (fills.and filled).mono ?_ fun _ _ _ => trivial
  rintro after last ⟨advances, kept⟩
  exact ⟨advances, kept.isFree pass.fresh⟩

/-- The statements of a right side add to the heap what it builds, and prepare its code for what it is read
as. -/
theorem Node.leads_right (written : right.isWritten) (calm : right.acts = false)
    (compiled : right.compile h false free = .ok source) (filling : frame.Filling heap m)
    (same : frame.locals = locals ∧ frame.scope = scope) (unused : frame.IsFree free)
    (room : source.next ≤ frame.slots.length) :
    (Statement.runAll host frame source.statements).Leads m
      (fun after last => frame.Advances heap false after m last ∧
        ∀ earlier, Heap.Precedes locals scope earlier m.heap →
          ∃ found further, (right.read locals scope).run earlier = .ok (found, further) ∧
            source.code.Yields host earlier.size source.next after last.heap further found)
      fun _ _ => True := by
  have fills : (Statement.runAll host frame source.statements).Leads m
      (fun after last => frame.Advances heap false after m last) fun _ _ => True :=
    Statement.leads_runAll_fills filling source.statements
      ((becomes_of_compile right compiled).isQuiet written calm).statements
  have reads : ∀ earlier, (Statement.runAll host frame source.statements).Leads m
      (fun after last => Heap.Precedes locals scope earlier m.heap →
        ∃ found further, (right.read locals scope).run earlier = .ok (found, further) ∧
          source.code.Yields host earlier.size source.next after last.heap further found)
      fun _ _ => True := by
    refine fun earlier => Run.Leads.all fun precedes => ?_
    have ready : frame.Ready earlier locals scope free m.heap earlier := {
      branches := ⟨precedes.closed, precedes.grows, .refl _⟩
      below := ⟨precedes.locals, precedes.scope⟩
      locals := same.1
      scope := same.2
      unused := unused }
    refine Run.Leads.mono (means_compile right written calm compiled ready room) ?_ fun _ _ _ => trivial
    rintro after last ⟨found, further, read, _, yields⟩
    exact ⟨found, further, read, yields⟩
  exact (fills.and (Run.Leads.all reads)).mono (fun _ _ reached => reached) fun _ _ _ => trivial

/-- Writing what a right side is read as, which is looked at again only by the guard. -/
theorem Code.leads_store_assigns {code : Code} {bound : Nat} (filling : frame.Filling heap m)
    (container : place.container.isQuiet) (quiet : code.isQuiet) (site : Nat)
    (filled : heap.Filled (Event.creations m.journal) before) (grows : before.Grows m.heap)
    (reads : ∀ earlier, Heap.Precedes locals scope earlier before →
      ∃ found further, (right.read locals scope).run earlier = .ok (found, further) ∧
        code.Yields host earlier.size bound frame m.heap further found) :
    ((Code.store site place.container place.selector (.guarded code)).run host frame).Leads m
      (fun value last => ∃ during, heap.Assigns before during last.heap last.journal value ∧
        right.IsReadAs locals scope before during value)
      fun _ _ => True := by
  apply Run.Leads.bind (place.container.leads_run_builds filling.closed filling.inside container)
  rintro subject middle ⟨first, _⟩
  have still := filling.build first
  apply Run.Leads.bind (leads_key_builds still.closed still.inside place.selector)
  rintro key later ⟨second, _⟩
  have grown := first.grows.trans second.grows
  have ready := still.build second
  have builds : ((Code.guarded code).run host frame).Leads later
      (fun value last => later.Builds last ∧ value.isBelow last.heap.size) fun _ _ => True :=
    (Code.guarded code).leads_run_builds ready.closed ready.inside quiet
  have found : ∀ earlier, ((Code.guarded code).run host frame).Leads later
      (fun value last => Heap.Precedes locals scope earlier before →
        ∃ found further, (right.read locals scope).run earlier = .ok (found, further) ∧
          Heap.Alike earlier.size last.heap further value found)
      fun _ _ => True := by
    refine fun earlier => Run.Leads.all fun precedes => ?_
    obtain ⟨found, further, read, yields⟩ := reads earlier precedes
    apply Run.Leads.bind (yields.leads grown)
    rintro value last ⟨_, alike⟩
    exact (Run.leads_guarded value).mpr ⟨fun _ => ⟨found, further, read, alike⟩, fun _ _ => trivial⟩
  have guarded := (builds.and (Run.Leads.all found)).mono (fun _ _ reached => reached) fun _ _ _ => trivial
  apply Run.Leads.bind guarded
  rintro value last ⟨⟨third, _⟩, read⟩
  refine (Run.leads_bind _ _).mpr ((Run.leads_write _ _ _ _).mpr ⟨fun after written => ?_, fun _ _ => trivial⟩)
  refine ⟨last.heap, ⟨?_, grows.trans (grown.trans third.grows), site, subject, place.selector, key, _, rfl,
    written⟩, read⟩
  -- What was built since then has put nothing into a missing place.
  have same : Event.creations last.journal = Event.creations m.journal :=
    third.created.trans (second.created.trans first.created)
  show heap.Filled (Event.creations last.journal) before
  rw [same]
  exact filled

end Sides

/-- Running an assignment: it stores what the right side is read as on the heap that the left side leaves. -/
theorem Routine.leads_run_assigns (host : Host σ) {h : Heap} {left right : Node} {routine : Routine}
    (made : (Node.program (.assignment left right)).routine h = .ok routine)
    (leftWritten : left.isWritten) (leftCalm : left.acts = false) (rightWritten : right.isWritten)
    (rightCalm : right.acts = false) (closed : heap.IsClosed) (localsBelow : locals.isBelow heap.size)
    (scopeBelow : scope.isBelow heap.size) (world : σ) :
    (routine.run host locals scope .null).Leads ⟨heap, world, []⟩
      (fun value last => ∃ before during, heap.Assigns before during last.heap last.journal value ∧
        before.IsClosed ∧ locals.isBelow before.size ∧ scope.isBelow before.size ∧
        right.IsReadAs locals scope before during value)
      fun _ _ => True := by
  obtain ⟨inner, bodyCompiled, rfl⟩ := Node.parts_routine made
  obtain ⟨target, place, source, leftCompiled, placed, rightCompiled, rfl⟩ := Node.parts_assignment bodyCompiled
  have container := ((Node.becomes_of_compile left leftCompiled).isQuiet leftWritten leftCalm).place place placed
  have quiet := ((Node.becomes_of_compile right rightCompiled).isQuiet rightWritten rightCalm).code
  unfold Routine.run
  simp only [Statement.runAll_append, bind_assoc]
  apply Run.Leads.bind (Node.leads_left leftWritten leftCalm leftCompiled closed localsBelow scopeBelow world _)
  rintro after middle ⟨leftDone, unused⟩
  have same : after.locals = locals ∧ after.scope = scope := ⟨leftDone.agrees.locals, leftDone.agrees.scope⟩
  have room : source.next ≤ after.slots.length := by
    rw [leftDone.agrees.room]
    exact Nat.le_of_eq List.length_replicate.symm
  apply Run.Leads.bind (Node.leads_right rightWritten rightCalm rightCompiled leftDone.filling same unused room)
  rintro ending later ⟨rightDone, reads⟩
  -- The right side creates nothing, so all the empty objects of the journal are from the left side.
  have builds := rightDone.builds rfl
  have filled : heap.Filled (Event.creations later.journal) middle.heap := by
    rw [builds.created]
    exact leftDone.filling.filled
  have stored := Code.leads_store_assigns rightDone.filling container quiet target.code.site filled
    builds.grows reads
  have result : ((Statement.result (.store target.code.site place.container place.selector
      (.guarded source.code))).run host ending).Leads later
      (fun last final => ∃ during, heap.Assigns middle.heap during final.heap final.journal last.result ∧
        right.IsReadAs locals scope middle.heap during last.result) fun _ _ => True :=
    stored.bind fun _ _ reached => reached
  have inside := leftDone.filling.inside
  refine (Run.leads_bind _ _).mpr (result.bind ?_)
  rintro last final ⟨during, assigns, read⟩
  exact ⟨middle.heap, during, assigns, leftDone.filling.closed, same.1 ▸ inside.locals,
    same.2 ▸ inside.scope, read⟩

namespace Evaluator

def GivesAlike (evaluator : Evaluator) (host : Host σ) (locals scope : Value) (heap : Heap) (world : σ)
    (during : Heap) (value : Value) : Prop :=
  let ended := evaluator.outcome host .run locals scope heap world
  ∃ found, ended.1 = .ok found ∧ Heap.Alike heap.size during ended.2.heap value found

theorem givesAlike_of_isReadAs {h : Heap} {body : Node} {text : Text} {evaluator : Evaluator}
    (made : ofTree h (.program body) text = .ok evaluator) (written : body.isWritten)
    (calm : body.acts = false) {value : Value} (read : body.IsReadAs locals scope before during value)
    {earlier : Heap} (precedes : Heap.Precedes locals scope earlier before) (world : σ) :
    evaluator.GivesAlike host locals scope earlier world during value := by
  obtain ⟨found, further, reads, alike⟩ := read earlier precedes
  obtain ⟨onValue, onFailure⟩ := Run.leads_iff.mp (Routine.leads_run_means host
    (m := ⟨earlier, world, []⟩) (routines_of_ofTree made).1 written calm precedes.closed
    ⟨precedes.locals, precedes.scope⟩ .null)
  unfold GivesAlike
  intro ended
  cases done : ended.1 with
  | ok other =>
    obtain ⟨_, _, same, _, _, likewise⟩ := onValue other done
    rw [reads] at same
    cases same
    exact ⟨other, rfl, alike.trans_symm likewise⟩
  | error failure =>
    have failed := onFailure failure done
    rw [reads] at failed
    cases failed

/-- What an assignment stores and returns, if it succeeds, is what its right side alone gives on the heap that
the left side leaves behind, up to the arrays and objects built on the way. That heap is the first one but for
what was built and the empty objects that the journal tells of, each put where a member was missing or false;
where there are none, the right side alone gives the same on the first heap. -/
theorem run_assigns_right {h : Heap} {left right : Node} {text : Text} {evaluator : Evaluator}
    (made : ofTree h (.program (.assignment left right)) text = .ok evaluator)
    (leftWritten : left.isWritten) (leftCalm : left.acts = false) (rightWritten : right.isWritten)
    (rightCalm : right.acts = false) (other : Text) (host : Host σ) {heap : Heap} (closed : heap.IsClosed)
    {locals scope : Value} (localsBelow : locals.isBelow heap.size) (scopeBelow : scope.isBelow heap.size)
    (world : σ) :
    let ended := evaluator.outcome host .run locals scope heap world
    ∃ alone, ofTree h (.program right) other = .ok alone ∧ ∀ value, ended.1 = .ok value →
      ∃ before during, heap.Assigns before during ended.2.heap ended.2.journal value ∧
        alone.GivesAlike host locals scope before world during value ∧
        (Event.creations ended.2.journal = [] → alone.GivesAlike host locals scope heap world during value) := by
  intro ended
  have sound : right.verdict = .ok () := Node.verdict_right ((reports_ofTree h _ text).eq_ok made)
  obtain ⟨alone, aloneMade⟩ := (sound ▸ reports_ofTree h right other).exists_ok
  refine ⟨alone, aloneMade, fun value done => ?_⟩
  obtain ⟨before, during, assigns, stillClosed, stillLocals, stillScope, read⟩ :=
    (Run.leads_iff.mp (Routine.leads_run_assigns host (routines_of_ofTree made).1 leftWritten leftCalm
      rightWritten rightCalm closed localsBelow scopeBelow world)).1 value done
  refine ⟨before, during, assigns, ?_, ?_⟩
  · exact givesAlike_of_isReadAs aloneMade rightWritten rightCalm read
      ⟨stillClosed, .refl before, stillLocals, stillScope⟩ world
  · intro none
    have grows : heap.Grows before := Heap.Filled.grows (none ▸ assigns.filled)
    exact givesAlike_of_isReadAs aloneMade rightWritten rightCalm read ⟨closed, grows, localsBelow, scopeBelow⟩
      world

/-- The place of an array in which the right side is put, created in an object that has other members. -/
theorem run_assigns_right_of_array :
    let left : Node := .member (.identifier (Text.of "a")) (.identifier (Text.of "b")) false
    let right : Node := .array [.identifier (Text.of "c")]
    let heap : Heap := ⟨#[.mapping .plain (named [("c", .int 1)])]⟩
    ∃ evaluator, ofTree Heap.empty (.program (.assignment left right)) (Text.of "a.b = [c]") = .ok evaluator ∧
      left.isWritten ∧ left.acts = false ∧ right.isWritten ∧ right.acts = false ∧ heap.IsClosed ∧
      Value.null.isBelow heap.size ∧ (Value.ref 0).isBelow heap.size ∧
      let ended := evaluator.outcome (Host.standard 1) .run .null (.ref 0) heap .start
      ∃ value, ended.1 = .ok value ∧
        ∃ alone, ofTree Heap.empty (.program right) (Text.of "[c]") = .ok alone ∧
        ∃ before during, heap.Assigns before during ended.2.heap ended.2.journal value ∧
          alone.GivesAlike (Host.standard 1) .null (.ref 0) before .start during value ∧
          (Event.creations ended.2.journal = [] →
            alone.GivesAlike (Host.standard 1) .null (.ref 0) heap .start during value) := by
  intro left right heap
  have ran : (ofTree Heap.empty (.program (.assignment left right)) (Text.of "a.b = [c]")).toOption.any
      fun evaluator => (evaluator.outcome (Host.standard 1) .run .null (.ref 0) heap .start).1.toOption.any
        fun _ => true := by
    decide +kernel
  obtain ⟨evaluator, made, ran⟩ := exists_eq_ok ran
  obtain ⟨value, done, _⟩ := exists_eq_ok ran
  have closed : heap.IsClosed := by decide +kernel
  have localsBelow : Value.null.isBelow heap.size := rfl
  have scopeBelow : (Value.ref 0).isBelow heap.size := rfl
  obtain ⟨alone, aloneMade, gives⟩ := run_assigns_right made rfl rfl rfl rfl (Text.of "[c]") (Host.standard 1)
    closed localsBelow scopeBelow .start
  exact ⟨evaluator, made, rfl, rfl, rfl, rfl, closed, localsBelow, scopeBelow, value, done, alone, aloneMade,
    gives value done⟩

/-- The right side can see what the left side creates: where there is no `a`, it is null alone, but assigning it
to a member of itself stores the new object. -/
theorem assigns_created_object :
    let left : Node := .member (.identifier (Text.of "a")) (.identifier (Text.of "b")) false
    let right : Node := .identifier (Text.of "a")
    let heap : Heap := ⟨#[.mapping .plain []]⟩
    ∃ evaluator alone,
      ofTree Heap.empty (.program (.assignment left right)) (Text.of "a.b = a") = .ok evaluator ∧
      ofTree Heap.empty (.program right) (Text.of "a") = .ok alone ∧
      left.isAssignable ∧ left.isWritten ∧ left.acts = false ∧ right.isWritten ∧ right.acts = false ∧
      heap.IsClosed ∧
      let ended := evaluator.outcome (Host.standard 1) .run .null (.ref 0) heap .start
      ∃ value, ended.1 = .ok value ∧
        ∀ during, ¬ alone.GivesAlike (Host.standard 1) .null (.ref 0) heap .start during value := by
  intro left right heap
  have ran : (ofTree Heap.empty (.program (.assignment left right)) (Text.of "a.b = a")).toOption.any
      fun evaluator => (evaluator.outcome (Host.standard 1) .run .null (.ref 0) heap .start).1.toOption.any
        fun value => decide (value = .ref 1) := by
    decide +kernel
  have aloneRan : (ofTree Heap.empty (.program right) (Text.of "a")).toOption.any
      fun alone => (alone.outcome (Host.standard 1) .run .null (.ref 0) heap .start).1.toOption.any
        fun value => decide (value = .null) := by
    decide +kernel
  obtain ⟨evaluator, made, ran⟩ := exists_eq_ok ran
  obtain ⟨alone, aloneMade, aloneRan⟩ := exists_eq_ok aloneRan
  obtain ⟨value, done, isRef⟩ := exists_eq_ok ran
  obtain ⟨nothing, aloneDone, isNull⟩ := exists_eq_ok aloneRan
  cases of_decide_eq_true isRef
  cases of_decide_eq_true isNull
  have closed : heap.IsClosed := by decide +kernel
  refine ⟨evaluator, alone, made, aloneMade, rfl, rfl, rfl, rfl, rfl, closed, .ref 1, done, ?_⟩
  rintro during ⟨found, same, alike⟩
  rw [aloneDone] at same
  cases same
  cases alike

end Evaluator

end GuardedExpr
