import GuardedExpr.Proofs.Code.NodeOccurrences
import GuardedExpr.Proofs.Run.ScriptedRuns

/-!
When the parts of an expression have their effects. A run follows the script of its routine, in which the deeds
of each node have their place. The deeds in the code of an argument are behind the gate of the call, and those of
items stand in the order of the items; but what is hoisted into a statement comes before both.
-/

namespace GuardedExpr

variable {σ : Type}

namespace Evaluator

def Use.body (use : Use) (body : Node) : Node :=
  match use with
  | .run => body
  | .assign _ => .assignment body .parameter

def routine? (evaluator : Evaluator) : Use → Option Routine
  | .run => some evaluator.routine
  | .assign _ => evaluator.assigner

end Evaluator

theorem Node.script_routine {h : Heap} {body : Node} {routine : Routine}
    (made : (Node.program body).routine h = .ok routine) :
    ∃ whole, body.compile h false 0 = .ok whole ∧ routine.script = whole.hoisted ++ whole.deferred := by
  obtain ⟨whole, bodyCompiled, rfl⟩ := parts_routine made
  refine ⟨whole, bodyCompiled, ?_⟩
  simp [Routine.script, Fragment.hoisted, Fragment.deferred, Statement.script]

namespace Evaluator

variable {h : Heap} {body : Node} {text : Text} {evaluator : Evaluator} {use : Use} {routine : Routine}

theorem outcome_follows (made : ofTree h (.program body) text = .ok evaluator) (written : body.isWritten)
    (ready : evaluator.routine? use = some routine) :
    ∃ whole, (use.body body).compile h false 0 = .ok whole ∧
      routine.script = whole.hoisted ++ whole.deferred ∧
      ∀ (host : Host σ) (locals scope : Value) (heap : Heap) (world : σ),
        Machine.Follows ⟨heap, world, []⟩ host ⟨heap, world, []⟩ routine.script
          (evaluator.outcome host use locals scope heap world).2 := by
  obtain ⟨runs, assigns⟩ := routines_of_ofTree made
  have last {part : Run σ Value} {host : Host σ} {m : Machine σ}
      (follows : part.Follows host m routine.script m) :
      m.Follows host m routine.script (part.run.run m).2 := by
    obtain ⟨onValue, onFailure⟩ := Run.leads_iff.mp follows
    cases done : (part.run.run m).1 with
    | ok value => exact onValue value done
    | error failure => exact onFailure failure done
  cases use with
  | run =>
    cases ready
    have proper := Node.isProper_routine runs fun _ compiled =>
      (Node.becomes_of_compile body compiled).sound written Standings.fresh_empty
    obtain ⟨whole, compiled, script⟩ := Node.script_routine runs
    exact ⟨whole, compiled, script, fun host locals scope heap world =>
      last (Routine.run_follows proper host ⟨heap, world, []⟩ rfl locals scope .null)⟩
  | assign value =>
    have routineMade := assigns routine ready
    have proper := Node.isProper_routine routineMade fun _ compiled =>
      Node.sound_compile_assigner written Standings.fresh_empty compiled
    obtain ⟨whole, compiled, script⟩ := Node.script_routine routineMade
    refine ⟨whole, compiled, script, fun host locals scope heap world => ?_⟩
    have assigner : evaluator.assigner = some routine := ready
    unfold outcome assign
    rw [assigner]
    exact last (Routine.run_follows proper host ⟨heap, world, []⟩ rfl locals scope value)

theorem journal_of_none (missing : evaluator.routine? use = none) (host : Host σ) (locals scope : Value)
    (heap : Heap) (world : σ) : (evaluator.outcome host use locals scope heap world).2.journal = [] := by
  cases use with
  | run => cases missing
  | assign value =>
    have assigner : evaluator.assigner = none := missing
    unfold outcome assign
    rw [assigner]
    rfl

end Evaluator

namespace Code

mutual

theorem isSome_owner : (code : Code) → ∀ duty ∈ code.script, duty.deed.owner?.isSome
  | .locals, _, inside | .scope, _, inside | .parameter, _, inside | .slot _, _, inside
  | .owner _, _, inside | .literal _ _, _, inside => nomatch inside
  | .array items, duty, inside => areSome_owner items duty inside
  | .object _ values, duty, inside => areSome_owner values duty inside
  | .member container _, duty, inside => isSome_owner container duty inside
  | .guarded code, duty, inside => isSome_owner code duty inside
  | .call callee arguments, duty, inside => by
    obtain ⟨inner, known, rfl⟩ := List.mem_map.mp inside
    rcases List.mem_append.mp known with argument | own
    · exact areSome_owner arguments inner argument
    · rw [List.mem_singleton.mp own]
      rfl
  | .store site container _ value, duty, inside => by
    rcases List.mem_append.mp inside with parts | own
    · rcases List.mem_append.mp parts with first | second
      · exact isSome_owner container duty first
      · exact isSome_owner value duty second
    · rw [List.mem_singleton.mp own]
      rfl

theorem areSome_owner : (codes : List Code) → ∀ duty ∈ scriptAll codes, duty.deed.owner?.isSome
  | [], _, inside => nomatch inside
  | code :: codes, duty, inside => by
    rcases List.mem_append.mp inside with first | rest
    · exact isSome_owner code duty first
    · exact areSome_owner codes duty rest

end

end Code

namespace Node

/-- An argument of a call that occurs in a tree is compiled from the given slot on; the callee is called in the
other slot. -/
inductive IsArgument (h : Heap) (root : Node) (slot : Nat) : Node → Nat → Prop where
  | intro {callee argument : Node} {before behind : List Node} {create : Bool} {free start next : Nat}
      {call : Fragment} {statements : List Statement} {codes handed : List Code}
      (occurs : Occurs h root (.call callee (before ++ argument :: behind)) create free)
      (compiled : (Node.call callee (before ++ argument :: behind)).compile h create free = .ok call)
      (calls : call.code = .call slot handed)
      (starts : (Node.call callee (before ++ argument :: behind)).itemsFrom h free = .ok start)
      (earlier : compileAll h before start = .ok (statements, codes, next)) :
      IsArgument h root slot argument next

/-- The deeds in the code of an argument are behind the gate of the call. -/
theorem IsArgument.lies {h : Heap} {root argument : Node} {slot free : Nat} {whole inner : Fragment}
    (isArgument : IsArgument h root slot argument free) (rootCompiled : root.compile h false 0 = .ok whole)
    (compiled : argument.compile h false free = .ok inner) :
    ∃ gates, slot ∈ gates ∧ inner.LiesIn free gates (whole.hoisted ++ whole.deferred) := by
  obtain ⟨occurs, callCompiled, calls, starts, earlier⟩ := isArgument
  obtain ⟨call, gates, same, lies⟩ := occurs.lies rootCompiled
  cases callCompiled.symm.trans same
  obtain ⟨item, itemCompiled, within⟩ := lies_item callCompiled lies rfl starts earlier
  cases compiled.symm.trans itemCompiled
  refine ⟨_, ?_, within⟩
  simp [calls, Code.gate]

end Node

def Fragment.deeds (fragment : Fragment) : List Deed :=
  (fragment.hoisted ++ fragment.deferred).map Duty.deed

/-- A duty with a deed of a fragment that hoists nothing is behind the gates of the fragment. -/
theorem Fragment.LiesIn.behind {fragment : Fragment} {free : Nat} {gates : List Nat} {script : List Duty}
    (lies : fragment.LiesIn free gates script) (calm : fragment.hoisted = []) (owned : fragment.OwnsDeeds free)
    {duty : Duty} (member : duty ∈ script) (done : duty.deed ∈ fragment.deeds) :
    ∀ slot ∈ gates, slot ∈ duty.gates := by
  obtain ⟨before, between, after, split, apart⟩ := lies
  rw [calm, List.append_nil] at split
  rw [deeds, calm, List.nil_append] at done
  obtain ⟨own, known, same⟩ := List.mem_map.mp done
  obtain ⟨owner, owns⟩ := Option.isSome_iff_exists.mp (Code.isSome_owner fragment.code own known)
  have bounds := owned.deferred own known owner owns
  have others : duty ∉ before ++ between ++ after := by
    intro other
    have outside := apart duty other owner (same ▸ owns)
    omega
  have inside : duty ∈ fragment.deferred.map (Duty.behind gates) := by
    rw [split] at member
    simp only [List.mem_append] at member others ⊢
    tauto
  obtain ⟨inner, _, rfl⟩ := List.mem_map.mp inside
  intro slot listed
  exact List.mem_append_left _ listed

namespace Evaluator

/-- An effect of an argument of a call, whether it calls, stores or creates, comes only after the call was gone
through with: the run had come to a moment at which the callee had been admitted, was true and could be called.
This holds of arguments of which nothing is hoisted into a statement. -/
theorem gates_arguments {h : Heap} {body : Node} {text : Text} {evaluator : Evaluator}
    (made : ofTree h (.program body) text = .ok evaluator) (written : body.isWritten) (use : Use)
    {argument : Node} {slot free : Nat} {inner : Fragment}
    (isArgument : (use.body body).IsArgument h slot argument free) (calm : argument.hoists = false)
    (compiled : argument.compile h false free = .ok inner) (host : Host σ) (locals scope : Value) (heap : Heap)
    (world : σ) :
    let ended := evaluator.outcome host use locals scope heap world
    ∀ later event past deed, ended.2.journal = later ++ event :: past → event.deed? = some deed →
      deed ∈ inner.deeds → Gate host ⟨heap, world, []⟩ slot past := by
  intro ended later event past deed split done ours
  have present : (deed, past) ∈ Event.deedsAfter ended.2.journal :=
    Event.mem_deedsAfter.mpr ⟨later, event, split, done⟩
  cases ready : evaluator.routine? use with
  | none =>
    have nothing : ended.2.journal = [] := journal_of_none ready host locals scope heap world
    rw [nothing] at present
    cases present
  | some routine =>
    obtain ⟨whole, rootCompiled, script, follows⟩ := outcome_follows made written ready
    obtain ⟨gates, listed, lies⟩ := isArgument.lies rootCompiled compiled
    obtain ⟨record, told⟩ := (follows host locals scope heap world).told
    rw [told.complete] at present
    obtain ⟨entry, known, same⟩ := List.mem_map.mp present
    cases same
    have inScript : entry.1 ∈ whole.hoisted ++ whole.deferred :=
      script ▸ told.ordered.subset (List.mem_map_of_mem known)
    have behind := lies.behind ((Node.becomes_of_compile argument compiled).hoisted_eq_nil rfl calm)
      ((Node.becomes_of_compile argument compiled).ownsDeeds) inScript ours
    exact (told.gated entry known).2 slot (behind slot listed)

/-- The argument is called for, as the callee is found true and callable. -/
theorem gates_arguments_of_nested_call :
    let argument : Node := .call (.identifier (Text.of "g")) [.literal (.int 1)]
    let body : Node := .call (.identifier (Text.of "f")) [argument]
    let heap : Heap := ⟨#[.mapping .plain (named [("f", .ref 1), ("g", .ref 2)]),
      .function (Text.of "f") .first [], .function (Text.of "g") .first []]⟩
    ∃ evaluator inner, ofTree Heap.empty (.program body) (Text.of "f(g(1))") = .ok evaluator ∧
      body.isWritten ∧ (Use.run.body body).IsArgument Heap.empty 3 argument 1 ∧ argument.hoists = false ∧
      argument.compile Heap.empty false 1 = .ok inner ∧
      let ended := evaluator.outcome (Host.standard 1) .run .null (.ref 0) heap .start
      ∀ later event past deed, ended.2.journal = later ++ event :: past → event.deed? = some deed →
        deed ∈ inner.deeds → Gate (Host.standard 1) ⟨heap, .start, []⟩ 3 past := by
  intro argument body heap
  obtain ⟨evaluator, made⟩ : ∃ evaluator, ofTree Heap.empty (.program body) (Text.of "f(g(1))") =
      .ok evaluator := exists_ofTree (by decide +kernel)
  have occurs : (Use.run.body body).Occurs Heap.empty (.call (.identifier (Text.of "f")) ([] ++ argument :: []))
      false 0 := .root
  have isArgument : (Use.run.body body).IsArgument Heap.empty 3 argument 1 := .intro occurs rfl rfl rfl rfl
  exact ⟨evaluator, _, made, rfl, isArgument, rfl, rfl,
    gates_arguments made rfl .run isArgument rfl rfl (Host.standard 1) .null (.ref 0) heap .start⟩

/-- A call in the argument is hoisted, as a member of its value is read: it is made although the callee of the
outer call, a function that works by reflection, is refused. -/
theorem hoists_call_out_of_argument :
    let argument : Node := .member (.call (.identifier (Text.of "g")) []) (.identifier (Text.of "x")) false
    let body : Node := .call (.identifier (Text.of "f")) [argument]
    let heap : Heap := ⟨#[.mapping .plain (named [("f", .primitive (.reflective (Text.of "setattr"))),
      ("g", .ref 1)]), .function (Text.of "g") .fresh []]⟩
    ∃ evaluator inner, ofTree Heap.empty (.program body) (Text.of "f(g().x)") = .ok evaluator ∧
      body.isWritten ∧ (Use.run.body body).IsArgument Heap.empty 5 argument 1 ∧
      argument.compile Heap.empty false 1 = .ok inner ∧
      let ended := evaluator.outcome (Host.standard 1) .run .null (.ref 0) heap .start
      ended.1 = .error (.disallowedFunction .reflective) ∧
        (∀ callee, .admitted 5 callee ∉ ended.2.journal) ∧
        .call 3 ∈ inner.deeds ∧ .call 3 ∈ Event.deeds ended.2.journal := by
  intro argument body heap
  have ran : (ofTree Heap.empty (.program body) (Text.of "f(g().x)")).toOption.any fun evaluator =>
      let ended := evaluator.outcome (Host.standard 1) .run .null (.ref 0) heap .start
      decide (ended.1 = .error (.disallowedFunction .reflective) ∧ .call 3 ∈ Event.deeds ended.2.journal) &&
        ended.2.journal.all fun event => match event with
          | .admitted slot _ => decide (slot ≠ 5)
          | _ => true := by
    decide +kernel
  obtain ⟨evaluator, made, ran⟩ := exists_eq_ok ran
  obtain ⟨refused, unadmitted⟩ := Bool.and_eq_true_iff.mp ran
  obtain ⟨failed, called⟩ := of_decide_eq_true refused
  have occurs : (Use.run.body body).Occurs Heap.empty (.call (.identifier (Text.of "f")) ([] ++ argument :: []))
      false 0 := .root
  have isArgument : (Use.run.body body).IsArgument Heap.empty 5 argument 1 := .intro occurs rfl rfl rfl rfl
  refine ⟨evaluator, _, made, rfl, isArgument, rfl, failed, fun callee admitted => ?_, ?_, called⟩
  · exact of_decide_eq_true (List.all_eq_true.mp unadmitted _ admitted) rfl
  · decide +kernel

end Evaluator

/-- A script in two parts: the deeds of the one fragment lie in the first, where the other has none, and the deeds
of the other lie in the second, where the one has none. -/
structure Fragment.Precedes (one : Fragment) (low : Nat) (other : Fragment) (high : Nat)
    (earlier later : List Duty) : Prop where
  first : ∃ gates, one.LiesIn low gates earlier
  second : ∃ gates, other.LiesIn high gates later
  firstOnly : Duty.AreApart low one.next later
  secondOnly : Duty.AreApart high other.next earlier

namespace Fragment

variable {one other : Fragment} {low high start : Nat}

theorem OwnsDeeds.apart (owned : one.OwnsDeeds low) (start stop : Nat) (ordered : one.next ≤ start ∨ stop ≤ low) :
    Duty.AreApart start stop one.hoisted ∧ Duty.AreApart start stop one.deferred :=
  ⟨owned.hoisted.apart ordered, owned.deferred.apart ordered⟩

/-- Of two items among others, the deeds of the first come before those of the second, if the first has none in its
code or the second has none in its statements. -/
theorem exists_precedes {before between behind : Fragment} (gates : List Nat)
    {script ahead amid after : List Duty} (beforeOwns : before.OwnsDeeds start) (owned : one.OwnsDeeds before.next)
    (betweenOwns : between.OwnsDeeds one.next) (otherOwns : other.OwnsDeeds between.next)
    (behindOwns : behind.OwnsDeeds other.next)
    (split : script = ahead ++
      (before.hoisted ++ (one.hoisted ++ (between.hoisted ++ (other.hoisted ++ behind.hoisted)))) ++ amid ++
      (before.deferred ++ (one.deferred ++ (between.deferred ++ (other.deferred ++ behind.deferred)))).map
        (Duty.behind gates) ++ after)
    (apart : Duty.AreApart start behind.next (ahead ++ amid ++ after))
    (settled : one.deferred = [] ∨ other.hoisted = []) :
    ∃ earlier later, script = earlier ++ later ∧ one.Precedes before.next other between.next earlier later := by
  have bounds := And.intro beforeOwns.advance owned.advance
  have further := And.intro betweenOwns.advance (And.intro otherOwns.advance behindOwns.advance)
  have around : Duty.AreApart before.next one.next (ahead ++ amid ++ after) := apart.mono bounds.1 (by omega)
  have beyond : Duty.AreApart between.next other.next (ahead ++ amid ++ after) :=
    apart.mono (by omega) further.2.2
  simp only [Duty.areApart_append] at around beyond
  -- What stands beside an item is apart from it.
  have firstBefore := beforeOwns.apart before.next one.next (.inl (Nat.le_refl _))
  have firstBetween := betweenOwns.apart before.next one.next (.inr (Nat.le_refl _))
  have firstOther := otherOwns.apart before.next one.next (.inr further.1)
  have firstBehind := behindOwns.apart before.next one.next (.inr (by omega))
  have secondBefore := beforeOwns.apart between.next other.next (.inl (by omega))
  have secondOne := owned.apart between.next other.next (.inl further.1)
  have secondBetween := betweenOwns.apart between.next other.next (.inl (Nat.le_refl _))
  have secondBehind := behindOwns.apart between.next other.next (.inr (Nat.le_refl _))
  rcases settled with none | none
  · -- The first item is done when its statements are: the script is divided behind them.
    refine ⟨ahead ++ before.hoisted ++ one.hoisted ++ between.hoisted,
      other.hoisted ++ behind.hoisted ++ amid ++
        (before.deferred ++ between.deferred ++ other.deferred ++ behind.deferred).map (Duty.behind gates) ++
          after, ?_,
      ⟨gates, .intro (ahead ++ before.hoisted) between.hoisted [] ?_ ?_⟩,
      ⟨gates, .intro [] (behind.hoisted ++ amid ++ (before.deferred ++ between.deferred).map (Duty.behind gates))
        (behind.deferred.map (Duty.behind gates) ++ after) ?_ ?_⟩, ?_, ?_⟩
    · simp [split, none]
    · simp [none]
    · simp only [Duty.areApart_append]
      tauto
    · simp
    · simp only [Duty.areApart_append, Duty.areApart_behind]
      tauto
    · simp only [Duty.areApart_append, Duty.areApart_behind]
      tauto
    · simp only [Duty.areApart_append]
      tauto
  · -- The second item begins with its code: the script is divided before that.
    refine ⟨ahead ++ before.hoisted ++ one.hoisted ++ between.hoisted ++ behind.hoisted ++ amid ++
        (before.deferred ++ one.deferred ++ between.deferred).map (Duty.behind gates),
      (other.deferred ++ behind.deferred).map (Duty.behind gates) ++ after, ?_,
      ⟨gates, .intro (ahead ++ before.hoisted) (between.hoisted ++ behind.hoisted ++ amid ++
        before.deferred.map (Duty.behind gates)) (between.deferred.map (Duty.behind gates)) ?_ ?_⟩,
      ⟨gates, .intro [] [] (behind.deferred.map (Duty.behind gates) ++ after) ?_ ?_⟩, ?_, ?_⟩
    · simp [split, none]
    · simp
    · simp only [Duty.areApart_append, Duty.areApart_behind]
      tauto
    · simp [none]
    · simp only [Duty.areApart_append, Duty.areApart_behind]
      tauto
    · simp only [Duty.areApart_append, Duty.areApart_behind]
      tauto
    · simp only [Duty.areApart_append, Duty.areApart_behind]
      tauto

end Fragment

namespace Node

variable {h : Heap} {root first second : Node} {low high : Nat}

/-- Two items of an array, an object or a call that occurs in a tree, the first before the second, are compiled
from the given slots on. -/
inductive AreItems (h : Heap) (root : Node) : Node → Nat → Node → Nat → Prop where
  | intro {outer first second : Node} {before between behind : List Node} {create : Bool}
      {free start low high : Nat} {one : Fragment} {statements further : List Statement} {codes others : List Code}
      (occurs : Occurs h root outer create free)
      (items : outer.items = before ++ first :: (between ++ second :: behind))
      (starts : outer.itemsFrom h free = .ok start)
      (earlier : compileAll h before start = .ok (statements, codes, low))
      (compiled : first.compile h false low = .ok one)
      (inBetween : compileAll h between one.next = .ok (further, others, high)) :
      AreItems h root first low second high

/-- Where the first item defers nothing or the second hoists nothing, a script can be divided between them. -/
theorem AreItems.precedes {whole one other : Fragment} (items : AreItems h root first low second high)
    (rootCompiled : root.compile h false 0 = .ok whole) (firstCompiled : first.compile h false low = .ok one)
    (secondCompiled : second.compile h false high = .ok other)
    (settled : first.defers = false ∨ second.hoists = false) :
    ∃ earlier later, whole.hoisted ++ whole.deferred = earlier ++ later ∧
      one.Precedes low other high earlier later := by
  obtain ⟨occurs, listed, starts, beforeCompiled, compiled, betweenCompiled⟩ := items
  cases firstCompiled.symm.trans compiled
  obtain ⟨outer, gates, outerCompiled, lies⟩ := occurs.lies rootCompiled
  obtain ⟨_, _, last, itemsCompiled, among⟩ := lies_items outerCompiled lies (by simp [listed]) starts
  rw [listed] at itemsCompiled
  obtain ⟨_, _, _, _, _, _, same, again, restCompiled, rfl, rfl⟩ := exists_of_compileAll_item itemsCompiled
  cases beforeCompiled.symm.trans same
  cases firstCompiled.symm.trans again
  obtain ⟨_, _, _, _, _, _, same, again, behindCompiled, rfl, rfl⟩ := exists_of_compileAll_item restCompiled
  cases betweenCompiled.symm.trans same
  cases secondCompiled.symm.trans again
  obtain ⟨ahead, amid, after, split, apart⟩ := among
  have beforeOwns := ownsDeeds_items beforeCompiled
  have betweenOwns := ownsDeeds_items betweenCompiled
  have behindOwns := ownsDeeds_items behindCompiled
  refine Fragment.exists_precedes (gates ++ outer.code.gate) beforeOwns ((becomes_of_compile first firstCompiled).ownsDeeds)
    betweenOwns ((becomes_of_compile second secondCompiled).ownsDeeds) behindOwns (split.trans ?_) apart ?_
  · simp [Fragment.items, Fragment.hoisted, Fragment.deferred, Code.script, Code.scriptAll]
  · exact settled.imp (fun still => (becomes_of_compile first firstCompiled).deferred_eq_nil still)
      fun still => (becomes_of_compile second secondCompiled).hoisted_eq_nil rfl still

end Node

namespace Evaluator

/-- The items of an array, an object or a list of arguments have their effects in order, in each run and for each
host: the script of the run divides into two parts, of which the first has all deeds of the first item and none of
the second, and the other has all deeds of the second and none of the first; and what is done of the one part comes
before what is done of the other. This holds unless the first item calls or assigns in its code while something is
hoisted out of the second. -/
theorem orders_items {h : Heap} {body : Node} {text : Text} {evaluator : Evaluator}
    (made : ofTree h (.program body) text = .ok evaluator) (written : body.isWritten) {use : Use}
    {routine : Routine} (ready : evaluator.routine? use = some routine) {first second : Node} {low high : Nat}
    (items : (use.body body).AreItems h first low second high)
    (settled : first.defers = false ∨ second.hoists = false) {one other : Fragment}
    (firstCompiled : first.compile h false low = .ok one)
    (secondCompiled : second.compile h false high = .ok other) :
    ∃ earlier later, routine.script = earlier ++ later ∧ one.Precedes low other high earlier later ∧
      ∀ (host : Host σ) (locals scope : Value) (heap : Heap) (world : σ),
        let ended := evaluator.outcome host use locals scope heap world
        ∃ done rest, Event.deeds ended.2.journal = done ++ rest ∧
          done.Sublist (earlier.map Duty.deed) ∧ rest.Sublist (later.map Duty.deed) ∧
          (∀ deed ∈ done, deed.IsApart high other.next) ∧ ∀ deed ∈ rest, deed.IsApart low one.next := by
  obtain ⟨whole, rootCompiled, script, follows⟩ := outcome_follows (σ := σ) made written ready
  obtain ⟨earlier, later, split, precedes⟩ := items.precedes rootCompiled firstCompiled secondCompiled settled
  refine ⟨earlier, later, script.trans split, precedes, fun host locals scope heap world => ?_⟩
  obtain ⟨record, told⟩ := (follows host locals scope heap world).told
  have ordered : (record.map Prod.fst).Sublist (earlier ++ later) := by
    rw [← split, ← script]
    exact told.ordered
  obtain ⟨done, rest, divided, doneSub, restSub⟩ := List.sublist_append_iff.mp ordered
  refine ⟨done.map Duty.deed, rest.map Duty.deed, ?_, doneSub.map _, restSub.map _, ?_, ?_⟩
  · rw [Event.deeds, told.complete, ← List.map_append, ← divided]
    simp [Event.deedsAfter]
  · exact List.forall_mem_map.mpr fun duty member => precedes.secondOnly duty (doneSub.subset member)
  · exact List.forall_mem_map.mpr fun duty member => precedes.firstOnly duty (restSub.subset member)

/-- Two calls in an array, nothing of which is hoisted. -/
theorem orders_items_of_calls :
    let first : Node := .call (.identifier (Text.of "f")) []
    let second : Node := .call (.identifier (Text.of "g")) []
    let body : Node := .array [first, second]
    ∃ evaluator one other, ofTree Heap.empty (.program body) (Text.of "[f(), g()]") = .ok evaluator ∧
      body.isWritten ∧ evaluator.routine? .run = some evaluator.routine ∧
      (Use.run.body body).AreItems Heap.empty first 0 second 2 ∧
      (first.defers = false ∨ second.hoists = false) ∧ first.compile Heap.empty false 0 = .ok one ∧
      second.compile Heap.empty false 2 = .ok other ∧
      ∃ earlier later, evaluator.routine.script = earlier ++ later ∧ one.Precedes 0 other 2 earlier later ∧
        ∀ (host : Host World) (locals scope : Value) (heap : Heap) (world : World),
          let ended := evaluator.outcome host .run locals scope heap world
          ∃ done rest, Event.deeds ended.2.journal = done ++ rest ∧
            done.Sublist (earlier.map Duty.deed) ∧ rest.Sublist (later.map Duty.deed) ∧
            (∀ deed ∈ done, deed.IsApart 2 other.next) ∧ ∀ deed ∈ rest, deed.IsApart 0 one.next := by
  intro first second body
  obtain ⟨evaluator, made⟩ : ∃ evaluator, ofTree Heap.empty (.program body) (Text.of "[f(), g()]") =
      .ok evaluator := exists_ofTree (by decide +kernel)
  have listed : (Use.run.body body).items = [] ++ first :: ([] ++ second :: []) := rfl
  have items : (Use.run.body body).AreItems Heap.empty first 0 second 2 := .intro .root listed rfl rfl rfl rfl
  exact ⟨evaluator, _, _, made, rfl, rfl, items, .inr rfl, rfl, rfl,
    orders_items made rfl rfl items (.inr rfl) rfl rfl⟩

/-- The call in the second item is hoisted, as a member of its value is read: it is made before the call in the
first item. -/
theorem hoists_call_before_item :
    let first : Node := .call (.identifier (Text.of "f")) []
    let second : Node := .member (.call (.identifier (Text.of "g")) []) (.identifier (Text.of "x")) false
    let body : Node := .array [first, second]
    let heap : Heap := ⟨#[.mapping .plain (named [("f", .ref 1), ("g", .ref 2)]),
      .function (Text.of "f") .fresh [], .function (Text.of "g") .fresh []]⟩
    ∃ evaluator one other, ofTree Heap.empty (.program body) (Text.of "[f(), g().x]") = .ok evaluator ∧
      body.isWritten ∧ (Use.run.body body).AreItems Heap.empty first 0 second 2 ∧
      first.compile Heap.empty false 0 = .ok one ∧ second.compile Heap.empty false 2 = .ok other ∧
      let ended := evaluator.outcome (Host.standard 1) .run .null (.ref 0) heap .start
      ended.1.isOk ∧ .call 1 ∈ one.deeds ∧ .call 4 ∈ other.deeds ∧
        Event.deeds ended.2.journal = [.call 4, .call 1] := by
  intro first second body heap
  have ran : (ofTree Heap.empty (.program body) (Text.of "[f(), g().x]")).toOption.any fun evaluator =>
      let ended := evaluator.outcome (Host.standard 1) .run .null (.ref 0) heap .start
      decide (ended.1.isOk ∧ Event.deeds ended.2.journal = [.call 4, .call 1]) := by
    decide +kernel
  obtain ⟨evaluator, made, ran⟩ := exists_eq_ok ran
  obtain ⟨done, order⟩ := of_decide_eq_true ran
  have listed : (Use.run.body body).items = [] ++ first :: ([] ++ second :: []) := rfl
  have items : (Use.run.body body).AreItems Heap.empty first 0 second 2 := .intro .root listed rfl rfl rfl rfl
  refine ⟨evaluator, _, _, made, rfl, items, rfl, rfl, done, ?_, ?_, order⟩
  · decide +kernel
  · decide +kernel

end Evaluator

end GuardedExpr
