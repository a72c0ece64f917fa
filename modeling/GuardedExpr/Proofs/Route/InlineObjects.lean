import GuardedExpr.Proofs.Route.PairedAssignments

/-!
Objects that are written into an assignment. The code of an object runs again at each use, so an assignment to a
member of one asks for the member in one object, makes it in a second and reads it in a third. Only where the member
is there, or nothing is looked up in it, does the object behave like one that a name stands for.
-/

namespace GuardedExpr

variable {σ α : Type} {host : Host σ} {frame : Frame} {h a b : Heap} {d : Value} {r : Ref} {name : Text}

def Node.behind (base : Node) (names : List Text) : Node :=
  names.foldl (fun node name => .member node (.identifier name) false) base

open Run Heap

/-! What the statements do. -/

theorem Run.Makes.does {part : Run σ α} {builder : Builder α} (makes : part.Makes builder) :
    part.Does (Reading.make builder) Eq :=
  fun m => (makes m).mono (fun _ _ made => ⟨_, congrArg Except.ok (Prod.ext rfl (made.2 ▸ rfl)), made.1⟩)
    fun _ _ impossible => impossible.elim

namespace Node

variable {base body right : Node} {free : Nat} {fragment : Fragment} {names : List Text} {start : Reading Value}

theorem behind_append (base : Node) (names : List Text) (last : Text) :
    base.behind (names ++ [last]) = .member (base.behind names) (.identifier last) false := by
  simp [behind]

/-- The code of a member of an object that is written there makes the object for each use. -/
theorem parts_anew (constant : body.isConstant) (regular : body.isRegular)
    (compiled : (member body (.identifier name) false).compile h true free = .ok fragment) :
    checkedName name = .ok () ∧ ∃ code, fragment = ⟨access code (.name name) true free, .slot free,
      some ⟨code, .name name⟩, free + 1⟩ ∧
        ∀ {σ : Type} (host : Host σ) (frame : Frame), (code.run host frame).Does (Reading.make body.build) Eq := by
  obtain ⟨inner, _, first, ⟨⟩, checked, rfl⟩ := parts_named compiled
  obtain ⟨code, inline, still, makes⟩ := exists_code_of_constant h true (free + 1) body constant regular
  cases inline.symm.trans first
  refine ⟨checked, code, ?_, fun host frame => (makes host frame).does⟩
  simp [Fragment.settled, Fragment.inline, still]

def Reaches (host : Host σ) (h : Heap) (frame : Frame) (base : Node) (start : Reading Value) : Prop :=
  ∀ {free : Nat} {fragment : Fragment}, base.compile h true free = .ok fragment → frame.IsFree free →
    fragment.Reaches host frame free start (fragment.Arrives frame free)

theorem reaches_anew (host : Host σ) (h : Heap) (frame : Frame) (constant : body.isConstant) (regular : body.isRegular)
    (name : Text) :
    (member body (.identifier name) false).Reaches host h frame
      (Reading.accessAnew true (Reading.make body.build) (.text name)) := by
  intro free fragment compiled unused
  obtain ⟨-, code, rfl, does⟩ := parts_anew constant regular compiled
  refine ⟨rfl, Nat.lt_succ_self free, fun (room : free < frame.slots.length) => ?_⟩
  refine (does_accessAnew true (does host frame) (does_pure rfl) room (unused free (Nat.le_refl free) room)).mono ?_
  rintro _ value rfl
  exact {
    agrees := Frame.agrees_fill frame free value
    parameter := rfl
    unused := (unused.mono (Nat.le_succ free)).fill (Nat.lt_succ_self free) value
    held := by simp [Frame.fill, room] }

theorem Reaches.behind (reaches : base.Reaches host h frame start) (names : List Text) :
    (base.behind names).Reaches host h frame (Reading.walk start names) := by
  induction names using List.reverseRecOn with
  | nil => exact reaches
  | append_singleton names last ih =>
    intro free fragment compiled unused
    rw [behind_append] at compiled
    obtain ⟨code, next, does⟩ := reaches_named compiled unused fun inner before =>
      ih before (unused.mono (Nat.le_succ free))
    refine ⟨code, next, fun room => ?_⟩
    have walked : Reading.walk start (names ++ [last]) =
        Prod.snd <$> (Reading.walk start names >>= Reading.member true (.text last)) := by
      simp [Reading.walk]
    rw [walked]
    exact (does room).map fun _ _ belongs => belongs.arrives

end Node

namespace Evaluator

variable {base body left right : Node} {text : Text} {evaluator : Evaluator} {locals scope : Value}

theorem does_run_assignment (made : ofTree h (.program (.assignment left right)) text = .ok evaluator)
    (constant : right.isConstant) (regular : right.isRegular) {reading : Reading α} {container : α → Reading Value}
    {key : Value}
    (reaches : ∀ target place, left.compile h true 0 = .ok target → target.place = some place →
      (Statement.runAll host (Frame.start locals scope .null target.next) target.statements).Does reading
        fun after found => place.Names host after (container found) key) :
    (evaluator.run host locals scope).Does
      (reading >>= fun found => container found >>= fun subject =>
        Reading.make right.build >>= fun value => Reading.store subject key value) Eq := by
  obtain ⟨inner, compiled, same⟩ := Node.parts_routine (routines_of_ofTree made).1
  obtain ⟨target, place, source, first, placed, second, rfl⟩ := Node.parts_assignment compiled
  obtain ⟨code, inline, -, makes⟩ := Node.exists_code_of_constant h false target.next right constant regular
  cases inline.symm.trans second
  have reached := reaches target place first placed
  rw [run, same]
  simp only [Fragment.inline, List.append_nil]
  exact Routine.does_run reached fun after found names => names.store (makes host after).does _

theorem does_run_behind {names : List Text} {last : Text} {start : Reading Value}
    (made : ofTree h (.program (.assignment (base.behind (names ++ [last])) right)) text = .ok evaluator)
    (constant : right.isConstant) (regular : right.isRegular)
    (reaches : ∀ slots, base.Reaches host h (Frame.start locals scope .null slots) start) :
    (evaluator.run host locals scope).Does (Reading.assignBehind start names last right.build) Eq := by
  have same : Reading.assignBehind start names last right.build =
      (Reading.walk start names >>= Reading.member true (.text last)) >>= fun found =>
        pure found.1 >>= fun subject => Reading.make right.build >>= fun value =>
          Reading.store subject (.text last) value := by
    simp only [pure_bind, Reading.assignBehind]
  rw [Node.behind_append] at made
  rw [same]
  refine does_run_assignment made constant regular fun target place compiled placed => ?_
  have unused := start_isFree locals scope .null target.next
  obtain ⟨-, -, does⟩ := Node.reaches_named compiled unused fun inner before =>
    Node.Reaches.behind (reaches target.next) names before (unused.mono (Nat.zero_le 1))
  exact (does (by simp [Frame.start])).mono fun after found belongs => belongs.names place placed

private theorem does_run_anew {name : Text}
    (made : ofTree h (.program (.assignment (.member body (.identifier name) false) right)) text = .ok evaluator)
    (bodyConstant : body.isConstant) (bodyRegular : body.isRegular) (constant : right.isConstant)
    (regular : right.isRegular) (host : Host σ) (locals scope : Value) :
    (evaluator.run host locals scope).Does
      (Reading.accessAnew true (Reading.make body.build) (.text name) >>= fun _ =>
        Reading.make body.build >>= fun subject => Reading.make right.build >>= fun value =>
          Reading.store subject (.text name) value) Eq := by
  refine does_run_assignment made constant regular fun target place compiled placed => ?_
  have does := (Node.reaches_anew host h (Frame.start locals scope .null target.next) bodyConstant bodyRegular name
    compiled (start_isFree locals scope .null target.next)).does (by simp [Frame.start])
  obtain ⟨-, code, rfl, makes⟩ := Node.parts_anew bodyConstant bodyRegular compiled
  cases placed
  exact does.mono fun after _ _ => ⟨makes host after, does_pure rfl⟩

end Evaluator

namespace Reading

variable {body right : Node} {v : Value} {later : Heap} {i : Nat} {s : Ref} {first second : Reading Value}

theorem Alongside.told {β γ : Type} {first : Reading β} {second : Reading γ} {related : β → Heap → γ → Heap → Prop}
    (here : Alongside first second a b related) :
    Alongside first second a b fun v later w last => related v later w last ∧ second.run b = .ok (w, last) := by
  rcases here with ⟨v, later, w, last, left, known, holds⟩ | failed
  · exact .inl ⟨v, later, w, last, left, known, holds, known⟩
  · exact .inr failed

def IsTwin (body : Node) (b : Heap) (d : Value) : Prop :=
  ∀ a, Alongside (make body.build) (pure d) a b fun c later other last =>
    Copies later last c other ∧ other = d ∧ last = b

private theorem isTwin_build (constant : body.isConstant) (regular : body.isRegular)
    (contains : b.Contains i (body.build i).cells) : IsTwin body b (body.build i).made :=
  fun _ => .inl ⟨_, _, _, _, rfl, rfl, Node.copies_build body constant regular contains_adding contains, rfl, rfl⟩

/-- A member that is there is read from an object made anew as from any other. -/
theorem access_of_present (twin : IsTwin body b d) (present : (isFalse d (.text name)).run b = .ok (false, b)) :
    Alongside (accessAnew true (make body.build) (.text name)) (access true d (.text name)) a b
      fun v later w last => Copies later last v w ∧ last = b := by
  rw [← accessAnew_pure]
  have lacking : Alongside (make body.build >>= fun made => isFalse made (.text name))
      ((Pure.pure d : Reading Value) >>= fun made => isFalse made (.text name)) a b
      fun v _ w last => v = false ∧ w = false ∧ last = b := by
    refine (twin a).bind ?_
    rintro c _ _ _ ⟨copies, rfl, rfl⟩
    refine (Alongside.isFalse copies name).told.mono ?_
    rintro _ _ answer _ ⟨⟨rfl, -, rfl⟩, known⟩
    cases known.symm.trans present
    exact ⟨rfl, rfl, rfl⟩
  have supplied : Alongside (supplyAnew true (make body.build >>= fun made => isFalse made (.text name))
        (make body.build) (.text name))
      (supplyAnew true ((Pure.pure d : Reading Value) >>= fun made => isFalse made (.text name)) (Pure.pure d)
        (.text name)) a b fun _ _ _ last => last = b := by
    refine lacking.bind ?_
    rintro _ _ _ _ ⟨rfl, rfl, rfl⟩
    exact .pure rfl
  refine supplied.bind ?_
  rintro _ later _ b rfl
  have whole : Alongside (make body.build >>= fun made => ask fun h => h.isTruthy made)
      ((Pure.pure d : Reading Value) >>= fun made => ask fun h => h.isTruthy made) later b
      fun v _ w last => v = w ∧ last = b := by
    refine (twin later).bind ?_
    rintro c _ _ _ ⟨copies, rfl, rfl⟩
    refine (Alongside.isTruthy_of_copies copies).mono ?_
    rintro _ _ _ _ ⟨rfl, -, rfl⟩
    exact ⟨rfl, rfl⟩
  refine whole.bind ?_
  rintro truth further _ _ ⟨rfl, rfl⟩
  cases truth with
  | false => exact .pure ⟨.same rfl, rfl⟩
  | true =>
    refine (twin further).bind ?_
    rintro c _ _ _ ⟨copies, rfl, rfl⟩
    refine (Alongside.member_of_copies copies name).bind ?_
    rintro v _ w _ ⟨found, rfl, rfl⟩
    refine (Alongside.guarded found).mono ?_
    rintro _ _ _ _ ⟨rfl, rfl, rfl, rfl⟩
    exact ⟨found, rfl⟩

theorem exists_object {properties : List Node} (constant : (Node.object properties).isConstant)
    (regular : (Node.object properties).isRegular) (contains : b.Contains i ((Node.object properties).build i).cells)
    (a : Heap) :
    ∃ r entries later, (make (Node.object properties).build).run a = .ok (.ref r, later) ∧
      later.cell r = .mapping .plain entries ∧ Copies later b (.ref r) ((Node.object properties).build i).made := by
  have added : (a.adding ((Node.object properties).build a.size)).Contains a.size _ := contains_adding
  exact ⟨_, _, _, rfl, (added.append (Node.buildEntries properties [] a.size).cells).2 0 _ rfl,
    Node.copies_build (Node.object properties) constant regular added contains⟩

private theorem object_of_falsy (falsy : v.truth = false) (h : Heap) :
    Guard.object h v = .ok () := by
  cases v with
  | ref r => cases falsy
  | primitive p => cases falsy
  | constructor c => cases falsy
  | method m => cases falsy
  | derived cls scalar => cases scalar <;> rfl
  | _ => rfl

theorem Alongside.of_run_eq {β γ : Type} {first : Reading β} {second third : Reading γ}
    {related : β → Heap → γ → Heap → Prop} (here : Alongside first second a b related)
    (same : third.run b = second.run b) : Alongside first third a b related := by
  rwa [Alongside, same]

private theorem run_bind_congr {β γ : Type} {first second : Reading β}
    (same : first.run b = second.run b)
    (next : β → Reading γ) : (first >>= next).run b = (second >>= next).run b := by
  rw [StateT.run_bind, StateT.run_bind, same]

theorem run_step (safe : Guard.isSafeName name) (started : first.run b = .ok (d, b)) :
    (first >>= member true (.text name)).run b = (Prod.mk d <$> access true d (.text name)).run b := by
  have checked : Guard.memberName (.text name) = .ok () := Guard.memberName_of_isSafeName safe
  rw [bind_run_ok started, member_of_safe checked]

section Object

variable {properties : List Node} (constant : (Node.object properties).isConstant)
  (regular : (Node.object properties).isRegular) (contains : b.Contains i ((Node.object properties).build i).cells)

include constant regular contains

/-- A member that is false stays so in an object that is made anew: what is made for it goes into another one. -/
theorem run_anew_of_lacking (lacks : (b.own ((Node.object properties).build i).made name).truth = false) (a : Heap) :
    ∃ v later, (accessAnew true (make (Node.object properties).build) (.text name)).run a = .ok (v, later) ∧
      v.truth = false := by
  have anew (a : Heap) : ∃ r entries later, (make (Node.object properties).build).run a = .ok (.ref r, later) ∧
      later.cell r = .mapping .plain entries ∧ (later.own (.ref r) name).truth = false ∧
      ¬ later.IsEndless (.ref r) := by
    obtain ⟨r, entries, later, made, content, copies⟩ := exists_object constant regular contains a
    exact ⟨r, entries, later, made, content, ((branches_empty later b).own copies name).truth.trans lacks,
      copies.not_isEndless⟩
  obtain ⟨r, _, first, madeFirst, content, falsy, -⟩ := anew a
  have lacking : (make (Node.object properties).build >>= fun made => isFalse made (.text name)).run a =
      .ok (true, first) := by
    rw [bind_run_ok madeFirst]
    exact isFalse_eq_ok.mpr ⟨_, false, getMember_of_own content name, Value.isTruthy_eq_false_iff.mpr falsy, rfl, rfl⟩
  obtain ⟨s, members, second, madeSecond, contentSecond, -, -⟩ := anew first
  have supplied : (supplyAnew true (make (Node.object properties).build >>= fun made => isFalse made (.text name))
      (make (Node.object properties).build) (.text name)).run a =
        .ok ((), second.withCreated s .plain members name) := by
    rw [supplyAnew, if_pos rfl, bind_run_ok lacking, if_pos rfl, bind_run_ok madeSecond]
    exact create_eq_ok.mpr (setMember_withCreated contentSecond (by decide) name)
  obtain ⟨_, _, third, madeThird, -, -, ends⟩ := anew (second.withCreated s .plain members name)
  have asked : (make (Node.object properties).build >>= fun made => ask fun h => h.isTruthy made).run
      (second.withCreated s .plain members name) = .ok (true, third) := by
    rw [bind_run_ok madeThird]
    exact run_isTruthy ends
  obtain ⟨t, _, last, madeLast, contentLast, falsyLast, -⟩ := anew third
  have found : (ask fun h => h.getMember (.ref t) (.text name)).run last = .ok (last.own (.ref t) name, last) :=
    ask_eq_ok.mpr ⟨getMember_of_own contentLast name, rfl⟩
  refine ⟨last.own (.ref t) name, last, ?_, falsyLast⟩
  rw [accessAnew, bind_run_ok supplied, bind_run_ok asked, if_pos rfl, bind_run_ok madeLast, bind_run_ok found]
  exact guarded_eq_ok.mpr ⟨object_of_falsy falsyLast last, rfl, rfl⟩

/-- In the object that a name stands for, what was made for a member that was false is found there. -/
theorem run_named_of_lacking (lacks : (b.own ((Node.object properties).build i).made name).truth = false) :
    ∃ t others, ((Node.object properties).build i).made = .ref t ∧ b.cell t = .mapping .plain others ∧
      (access true ((Node.object properties).build i).made (.text name)).run b =
        .ok (.ref b.size, b.withCreated t .plain others name) := by
  have copies := Node.copies_build (Node.object properties) constant regular contains contains
  have content := (contains.append (Node.buildEntries properties [] i).cells).2 0 _ rfl
  exact ⟨_, _, rfl, content, run_access_of_lacking content lacks (copies.not_isEndless_withCreated content name)⟩

/-- A member that is there is read from an object made anew as from the one that a name stands for. -/
theorem alongside_first (present : (b.own ((Node.object properties).build i).made name).truth) (a : Heap) :
    Alongside (accessAnew true (make (Node.object properties).build) (.text name))
      (access true ((Node.object properties).build i).made (.text name)) a b
      fun v later w last => Copies later last v w ∧ last = b := by
  have copies := Node.copies_build (Node.object properties) constant regular contains contains
  have content := (contains.append (Node.buildEntries properties [] i).cells).2 0 _ rfl
  refine access_of_present (isTwin_build constant regular contains) ?_
  have ends := Copies.not_isEndless ((branches_empty b b).own copies name)
  refine isFalse_eq_ok.mpr ⟨_, true, getMember_of_own content name, ?_, rfl, rfl⟩
  exact (isTruthy_of_not_isEndless ends).trans (congrArg Except.ok present)

variable (rightConstant : right.isConstant) (rightRegular : right.isRegular)
  (started : first.run b = .ok (((Node.object properties).build i).made, b))

include rightConstant rightRegular started

/-- Assignments to a member of an object that is made anew and of one that a name stands for end alike. -/
theorem alongside_single (word : Lexeme.IsName name) (safe : Guard.isSafeName name) (a : Heap) :
    Alongside (accessAnew true (make (Node.object properties).build) (.text name) >>= fun _ =>
        make (Node.object properties).build >>= fun subject => make right.build >>= fun value =>
          store subject (.text name) value)
      (assignBehind first [] name right.build) a b
      fun v later w last => later.picture v = right.portrait ∧ last.picture w = right.portrait := by
  have stepped : (assignBehind first [] name right.build).run b =
      (access true ((Node.object properties).build i).made (.text name) >>= fun _ => make right.build >>= fun value =>
        store ((Node.object properties).build i).made (.text name) value).run b := by
    refine (run_bind_congr (run_step safe started) _).trans ?_
    rw [bind_map_left]
  -- Behind the first step both objects are there, whatever the member was.
  have reached : Alongside (accessAnew true (make (Node.object properties).build) (.text name))
      (access true ((Node.object properties).build i).made (.text name)) a b fun _ _ _ last =>
        ∃ t others, ((Node.object properties).build i).made = .ref t ∧ last.cell t = .mapping .plain others := by
    cases present : (b.own ((Node.object properties).build i).made name).truth with
    | true =>
      refine (alongside_first constant regular contains present a).mono ?_
      rintro _ _ _ _ ⟨-, rfl⟩
      exact ⟨_, _, rfl, (contains.append (Node.buildEntries properties [] i).cells).2 0 _ rfl⟩
    | false =>
      obtain ⟨v, later, anew, -⟩ := run_anew_of_lacking constant regular contains present a
      obtain ⟨t, others, same, content, named⟩ := run_named_of_lacking constant regular contains present
      exact .inl ⟨v, later, _, _, anew, named, t, _, same, cell_withCreated_same content name⟩
  refine Alongside.of_run_eq (reached.bind ?_) stepped
  rintro _ later _ last ⟨t, others, same, there⟩
  obtain ⟨r, entries, further, made, content, -⟩ := exists_object constant regular contains later
  have stored : Alongside (make right.build >>= fun value => store (.ref r) (.text name) value)
      (make right.build >>= fun value => store (.ref t) (.text name) value) further last _ :=
    Alongside.store (.mappings content there) word rightConstant rightRegular
  rw [same, Alongside, bind_run_ok made]
  exact stored

/-- Where the first of several names is there, assignments to what they lead to end alike. -/
theorem alongside_several {names : List Text} {last : Text} (safe : Guard.isSafeName name)
    (present : (b.own ((Node.object properties).build i).made name).truth)
    (words : ∀ other ∈ names, Lexeme.IsName other) (word : Lexeme.IsName last) (a : Heap) :
    Alongside (assignBehind (accessAnew true (make (Node.object properties).build) (.text name)) names last right.build)
      (assignBehind first (name :: names) last right.build) a b
      fun v later w last => later.picture v = right.portrait ∧ last.picture w = right.portrait := by
  have stepped : (Prod.snd <$> (first >>= member true (.text name))).run b =
      (access true ((Node.object properties).build i).made (.text name)).run b := by
    rw [StateT.run_map, run_step safe started, StateT.run_map]
    cases (access true ((Node.object properties).build i).made (.text name)).run b <;> rfl
  have here := ((alongside_first constant regular contains present a).mono fun _ _ _ _ both => both.1).of_run_eq stepped
  exact here.assignBehind words word rightConstant rightRegular

/-- Where the first of several names is not there, the assignment fails in an object that is made anew, and goes
through in one that a name stands for. -/
theorem lacking_several {names : List Text} {last : Text}
    (lacks : (b.own ((Node.object properties).build i).made name).truth = false)
    (safe : ∀ other ∈ name :: names, Guard.isSafeName other) (safeLast : Guard.isSafeName last) (a : Heap) :
    (∃ failure, (assignBehind (accessAnew true (make (Node.object properties).build) (.text name)) names last
        right.build).run a = .error failure) ∧
      (Guard.object (Heap.empty.adding (right.build 0)) (right.build 0).made = .ok () →
        ∃ w further, (assignBehind first (name :: names) last right.build).run b = .ok (w, further) ∧
          further.picture w = right.portrait) := by
  constructor
  · obtain ⟨v, later, anew, falsy⟩ := run_anew_of_lacking constant regular contains lacks a
    have begins (w : Value) (further : Heap)
        (read : (accessAnew true (make (Node.object properties).build) (.text name)).run a = .ok (w, further)) :
        w.truth = false := by
      cases anew.symm.trans read
      exact falsy
    cases ended : (assignBehind (accessAnew true (make (Node.object properties).build) (.text name)) names last
        right.build).run a with
    | ok pair => exact absurd ended (not_ok_of_falsy begins pair.1 pair.2)
    | error failure => exact ⟨failure, rfl⟩
  · intro accepted
    obtain ⟨here, rest⟩ := List.forall_mem_cons.mp safe
    obtain ⟨t, others, same, content, named⟩ := run_named_of_lacking constant regular contains lacks
    have begun : (Prod.snd <$> (first >>= member true (.text name))).run b =
        .ok (.ref b.size, b.withCreated t .plain others name) := by
      rw [StateT.run_map, run_step here started, StateT.run_map, named]
      rfl
    have goes : ∃ w further, (assignBehind (Prod.snd <$> (first >>= member true (.text name))) names last
        right.build).run b = .ok (w, further) ∧ further.picture w = right.portrait :=
      assignBehind_making begun (cell_withCreated_new content name) rest safeLast rightConstant rightRegular accepted
    exact goes

end Object

end Reading

/-! Whole runs. -/

namespace Node

variable {base body left right : Node} {names : List Text}

theorem verdict_of_constant (constant : body.isConstant) (regular : body.isRegular) : body.verdict = .ok () := by
  obtain ⟨_, compiled, -⟩ := exists_code_of_constant Heap.empty false 0 body constant regular
  exact (reports_compile Heap.empty body false 0).eq_ok compiled

private theorem verdict_behind (sound : base.verdict = .ok ())
    (safe : ∀ name ∈ names, Guard.isSafeName name) :
    (base.behind names).verdict = .ok () := by
  induction names using List.reverseRecOn with
  | nil => exact sound
  | append_singleton names last ih =>
    obtain ⟨before, own⟩ := List.forall_mem_append.mp safe
    have checked : Guard.isSafeName last := own last (List.mem_singleton_self last)
    rw [behind_append]
    simp only [verdict, ih before]
    simp [fieldVerdict, memberName, checkedName, Guard.memberName, checked, bind, Except.bind]

end Node

namespace Evaluator

variable {properties : List Node} {right : Node} {x first : Text} {more : List Text}

theorem exists_evaluator_behind {base : Node} {names : List Text} (compiling : Heap) (text : Text)
    (sound : base.verdict = .ok ()) (safe : ∀ name ∈ names, Guard.isSafeName name) (some_ : names ≠ [])
    (constant : right.isConstant) (regular : right.isRegular) :
    ∃ evaluator, ofTree compiling (.program (.assignment (base.behind names) right)) text = .ok evaluator := by
  have assignable : (base.behind names).isAssignable := by
    obtain ⟨before, last, rfl⟩ := (List.eq_nil_or_concat names).resolve_left some_
    rw [List.concat_eq_append, Node.behind_append]
    rfl
  have verdict : (Node.assignment (base.behind names) right).verdict = .ok () := by
    simp only [Node.verdict, Node.verdict_behind sound safe, assignable, if_true,
      Node.verdict_of_constant constant regular]
    rfl
  exact (verdict ▸ reports_ofTree compiling (.assignment (base.behind names) right) text).exists_ok

private theorem run_name_of_put {g : Heap} {s : Ref} {kind : MappingKind} {entries : Entries}
    {d : Value} (inside : s < g.size)
    (ends : ¬ (g.put s (.mapping kind (entries.set [.text x] (.text x) d))).IsEndless (.ref s))
    (accepted : Guard.object (g.put s (.mapping kind (entries.set [.text x] (.text x) d))) d = .ok ()) :
    (Reading.name true .null (.ref s) x).run (g.put s (.mapping kind (entries.set [.text x] (.text x) d))) =
      .ok (d, g.put s (.mapping kind (entries.set [.text x] (.text x) d))) := by
  have content := cell_put_same g (.mapping kind (entries.set [.text x] (.text x) d)) inside
  generalize g.put s (.mapping kind (entries.set [.text x] (.text x) d)) = extended at ends accepted content ⊢
  have found : ∃ shown, Table.lookup [.text x] (entries.set [.text x] (.text x) d) = some (shown, d) := by
    rw [Entries.set, Table.lookup_alter_same]
    cases Table.lookup [KeyPart.text x] entries <;> exact ⟨_, rfl⟩
  obtain ⟨shown, found⟩ := found
  have owned : extended.isOwned (.ref s) x := by
    simp [isOwned, owns, entries?, content, found, Value.truth]
  have member : extended.getMember (.ref s) (.text x) = .ok d := by
    rw [getMember_of_own content, own_of_mapping content, found]
    rfl
  have null : ¬ extended.IsEndless .null := not_isEndless_of_acc acc_null
  rw [Reading.run_name_of_free null ends rfl rfl fun _ => owned,
    Reading.bind_run_ok (Reading.ask_eq_ok.mpr ⟨member, rfl⟩)]
  exact Reading.guarded_eq_ok.mpr ⟨accepted, rfl, rfl⟩

theorem outcomes_of_alongside {inline named : Evaluator} {locals scope : Value} {one other : Reading Value}
    {related : Value → Heap → Value → Heap → Prop} {world : σ}
    (does : (inline.run host locals scope).Does one Eq) (also : (named.run host locals scope).Does other Eq)
    (alongside : Reading.Alongside one other a b related) :
    (∃ v w, (inline.outcome host .run locals scope a world).1 = .ok v ∧
      (named.outcome host .run locals scope b world).1 = .ok w ∧
      related v (inline.outcome host .run locals scope a world).2.heap w
        (named.outcome host .run locals scope b world).2.heap) ∨
    ∃ failure, (inline.outcome host .run locals scope a world).1 = .error failure ∧
      (named.outcome host .run locals scope b world).1 = .error failure := by
  rcases alongside with ⟨v, later, w, last, left, right, holds⟩ | ⟨failure, left, right⟩
  · obtain ⟨value, rfl⟩ := does.ok (m := ⟨a, world, []⟩) left
    obtain ⟨value', rfl⟩ := also.ok (m := ⟨b, world, []⟩) right
    exact .inl ⟨v, w, value, value', holds⟩
  · exact .inr ⟨failure, does.error (m := ⟨a, world, []⟩) left, also.error (m := ⟨b, world, []⟩) right⟩

/-- An object that is written into an assignment behaves like one that a name stands for, if its first member is there
or is what is assigned to: both assignments give copies of what the right side builds, or fail with the same error.
Where the first of several names leads to something false in the object, it does not: in the assignment to the
name's object that member is made and the rest behind it, but in the other one what is made goes into an object
that is built for the making alone, and the assignment always fails. -/
theorem assigns_to_inline_object (constant : (Node.object properties).isConstant)
    (regular : (Node.object properties).isRegular) (rightConstant : right.isConstant) (rightRegular : right.isRegular)
    (words : ∀ name ∈ first :: more, Lexeme.IsName name) (safe : ∀ name ∈ x :: first :: more, Guard.isSafeName name)
    (compiling : Heap) (text : Text) :
    ∃ inline named,
      ofTree compiling (.program (.assignment ((Node.object properties).behind (first :: more)) right)) text =
        .ok inline ∧
      ofTree compiling (.program (.assignment ((Node.identifier x).behind (first :: more)) right)) text = .ok named ∧
      ∀ {σ : Type} (host : Host σ) (world : σ) (h : Heap) (s : Ref) (kind : MappingKind) (entries : Entries),
        let built := h.adding ((Node.object properties).build h.size)
        let object := ((Node.object properties).build h.size).made
        let extended := built.put s (.mapping kind (entries.set [.text x] (.text x) object))
        let one := inline.outcome host .run .null (.ref s) h world
        let other := named.outcome host .run .null (.ref s) extended world
        h.cell s = .mapping kind entries → Guard.object built object = .ok () → ¬ extended.IsEndless (.ref s) →
          (more = [] ∨ (built.own object first).truth →
            (∃ v w, one.1 = .ok v ∧ other.1 = .ok w ∧ one.2.heap.picture v = right.portrait ∧
              other.2.heap.picture w = right.portrait) ∨
            ∃ failure, one.1 = .error failure ∧ other.1 = .error failure) ∧
          (more ≠ [] → (built.own object first).truth = false → (∃ failure, one.1 = .error failure) ∧
            (Guard.object (Heap.empty.adding (right.build 0)) (right.build 0).made = .ok () →
              ∃ w, other.1 = .ok w ∧ other.2.heap.picture w = right.portrait)) := by
  obtain ⟨safeName, safePath⟩ := List.forall_mem_cons.mp safe
  have namedSound : (Node.identifier x).verdict = .ok () := by
    simp [Node.verdict, checkedName, Guard.memberName, safeName]
  obtain ⟨inline, inlineMade⟩ := exists_evaluator_behind compiling text (Node.verdict_of_constant constant regular)
    safePath (List.cons_ne_nil _ _) rightConstant rightRegular
  obtain ⟨named, namedMade⟩ := exists_evaluator_behind compiling text namedSound safePath (List.cons_ne_nil _ _)
    rightConstant rightRegular
  refine ⟨inline, named, inlineMade, namedMade, ?_⟩
  intro σ host world h s kind entries built object extended one other content accepted ends
  have inside : s < h.size := inside_of_mapping content
  have contains : extended.Contains h.size ((Node.object properties).build h.size).cells :=
    contains_put contains_adding inside _
  have copies : Copies extended built object object :=
    Node.copies_build (Node.object properties) constant regular contains contains_adding
  have branches := branches_empty extended built
  have started : (Reading.name true .null (.ref s) x).run extended = .ok (object, extended) :=
    run_name_of_put (inside.trans_le (by rw [size_adding]; exact Nat.le_add_right _ _)) ends
      ((branches.object copies).trans accepted)
  have reaches (slots : Nat) : (Node.identifier x).Reaches host compiling (Frame.start .null (.ref s) .null slots)
      (Reading.name true .null (.ref s) x) := fun compiled unused => Node.reaches_identifier compiled unused
  have sameMember : (extended.own object first).truth = (built.own object first).truth :=
    (branches.own copies first).truth
  obtain ⟨wordFirst, wordsMore⟩ := List.forall_mem_cons.mp words
  obtain ⟨safeFirst, safeMore⟩ := List.forall_mem_cons.mp safePath
  rcases List.eq_nil_or_concat more with rfl | ⟨names, last, rfl⟩
  · have inlineDoes := does_run_anew inlineMade constant regular rightConstant rightRegular host .null (.ref s)
    have namedDoes : (named.run host .null (.ref s)).Does
        (Reading.assignBehind (Reading.name true .null (.ref s) x) [] first right.build) Eq :=
      does_run_behind namedMade rightConstant rightRegular reaches
    have alongside := Reading.alongside_single constant regular contains rightConstant rightRegular started wordFirst
      safeFirst h
    exact ⟨fun _ => outcomes_of_alongside inlineDoes namedDoes alongside, fun some_ => absurd rfl some_⟩
  · rw [List.concat_eq_append] at inlineMade namedMade wordsMore safeMore ⊢
    obtain ⟨wordsNames, wordLast⟩ := List.forall_mem_append.mp wordsMore
    obtain ⟨safeNames, safeLast⟩ := List.forall_mem_append.mp safeMore
    have inlineDoes : (inline.run host .null (.ref s)).Does
        (Reading.assignBehind (Reading.accessAnew true (Reading.make (Node.object properties).build) (.text first))
          names last right.build) Eq :=
      does_run_behind inlineMade rightConstant rightRegular fun slots =>
        Node.reaches_anew host compiling (Frame.start .null (.ref s) .null slots) constant regular first
    have namedDoes : (named.run host .null (.ref s)).Does
        (Reading.assignBehind (Reading.name true .null (.ref s) x) (first :: names) last right.build) Eq :=
      does_run_behind namedMade rightConstant rightRegular reaches
    refine ⟨fun there => ?_, fun _ lacks => ?_⟩
    · have present :=
        sameMember.trans (there.resolve_left (List.append_ne_nil_of_right_ne_nil _ (List.cons_ne_nil _ _)))
      have alongside := Reading.alongside_several constant regular contains rightConstant rightRegular started safeFirst
        present wordsNames (wordLast last (List.mem_singleton_self last)) h
      exact outcomes_of_alongside inlineDoes namedDoes alongside
    · obtain ⟨⟨failure, fails⟩, goes⟩ := Reading.lacking_several constant regular contains rightConstant rightRegular
        started (sameMember.trans lacks) (List.forall_mem_cons.mpr ⟨safeFirst, safeNames⟩)
        (safeLast last (List.mem_singleton_self last)) h
      refine ⟨⟨failure, inlineDoes.error (m := ⟨h, world, []⟩) fails⟩, fun admitted => ?_⟩
      obtain ⟨w, further, read, shown⟩ := goes admitted
      obtain ⟨value, heap_⟩ := namedDoes.ok (m := ⟨extended, world, []⟩) read
      exact ⟨w, value, heap_ ▸ shown⟩

/-- `{a: {}}.a.b = 1` ends as `x.a.b = 1` does where `x` stands for `{a: {}}`. -/
theorem assigns_below_inline_member :
    let properties : List Node := [.property (.identifier (Text.of "a")) (.object [])]
    let right : Node := .literal (.int 1)
    let names := [Text.of "a", Text.of "b"]
    let h : Heap := ⟨#[.mapping .plain []]⟩
    let built := h.adding ((Node.object properties).build h.size)
    let object := ((Node.object properties).build h.size).made
    let extended := built.put 0 (.mapping .plain (Entries.set [] [.text (Text.of "x")] (.text (Text.of "x")) object))
    (Node.object properties).isConstant ∧ (Node.object properties).isRegular ∧ right.isConstant ∧ right.isRegular ∧
      (∀ name ∈ names, Lexeme.IsName name) ∧ (∀ name ∈ Text.of "x" :: names, Guard.isSafeName name) ∧
      Guard.object built object = .ok () ∧ ¬ extended.IsEndless (.ref 0) ∧ (built.own object (Text.of "a")).truth ∧
      ∃ inline named,
        ofTree Heap.empty (.program (.assignment ((Node.object properties).behind names) right))
          (Text.of "\x7ba: \x7b\x7d\x7d.a.b = 1") = .ok inline ∧
        ofTree Heap.empty (.program (.assignment ((Node.identifier (Text.of "x")).behind names) right))
          (Text.of "\x7ba: \x7b\x7d\x7d.a.b = 1") = .ok named ∧
        ((∃ v w, (inline.outcome (Host.standard 1) .run .null (.ref 0) h .start).1 = .ok v ∧
          (named.outcome (Host.standard 1) .run .null (.ref 0) extended .start).1 = .ok w ∧
          (inline.outcome (Host.standard 1) .run .null (.ref 0) h .start).2.heap.picture v = right.portrait ∧
          (named.outcome (Host.standard 1) .run .null (.ref 0) extended .start).2.heap.picture w = right.portrait) ∨
        ∃ failure, (inline.outcome (Host.standard 1) .run .null (.ref 0) h .start).1 = .error failure ∧
          (named.outcome (Host.standard 1) .run .null (.ref 0) extended .start).1 = .error failure) := by
  intro properties right names h built object extended
  have words : ∀ name ∈ names, Lexeme.IsName name := by
    intro name member
    rcases List.mem_cons.mp member with rfl | inner
    · exact ⟨_, [], rfl, by decide, nofun⟩
    · rw [List.mem_singleton.mp inner]
      exact ⟨_, [], rfl, by decide, nofun⟩
  have safe : ∀ name ∈ Text.of "x" :: names, Guard.isSafeName name := by decide +kernel
  have accepted : Guard.object built object = .ok () := by decide +kernel
  have ends : ¬ extended.IsEndless (.ref 0) := kind?_isSome_iff.mp (by decide +kernel)
  have present : (built.own object (Text.of "a")).truth := by decide +kernel
  obtain ⟨inline, named, inlineMade, namedMade, outcomes⟩ := assigns_to_inline_object
    (rfl : (Node.object properties).isConstant) rfl (rfl : right.isConstant) rfl words safe Heap.empty
    (Text.of "\x7ba: \x7b\x7d\x7d.a.b = 1")
  have alike := (outcomes (Host.standard 1) .start h 0 .plain [] rfl accepted ends).1 (.inr present)
  exact ⟨rfl, rfl, rfl, rfl, words, safe, accepted, ends, present, inline, named, inlineMade, namedMade, alike⟩

/-- `{}.a.b = 1` fails, though `x.a.b = 1` gives 1 where `x` stands for an empty object. -/
theorem inline_object_is_built_anew :
    ∃ inline named, (ofSource Heap.empty false 1 (Text.of "\x7b\x7d.a.b = 1")).2 = .ok inline ∧
      (ofSource Heap.empty false 1 (Text.of "x.a.b = 1")).2 = .ok named ∧
      Guard.object (nested "x") (.ref 1) = .ok () ∧
      (inline.outcome (Host.standard 1) .run .null (.ref 0) ⟨#[.mapping .plain []]⟩ .start).1 ≠ .ok (.int 1) ∧
      (named.outcome (Host.standard 1) .run .null (.ref 0) (nested "x") .start).1 = .ok (.int 1) := by
  have failed : (ofSource Heap.empty false 1 (Text.of "\x7b\x7d.a.b = 1")).2.toOption.any fun inline =>
      decide ((inline.outcome (Host.standard 1) .run .null (.ref 0) ⟨#[.mapping .plain []]⟩ .start).1 ≠
        .ok (.int 1)) := by
    decide +kernel
  have ran : (ofSource Heap.empty false 1 (Text.of "x.a.b = 1")).2.toOption.any fun named =>
      decide ((named.outcome (Host.standard 1) .run .null (.ref 0) (nested "x") .start).1 = .ok (.int 1)) := by
    decide +kernel
  obtain ⟨inline, inlineMade, fails⟩ := exists_eq_ok failed
  obtain ⟨named, namedMade, gives⟩ := exists_eq_ok ran
  exact ⟨inline, named, inlineMade, namedMade, by decide +kernel, of_decide_eq_true fails, of_decide_eq_true gives⟩

end Evaluator

end GuardedExpr
