import GuardedExpr.Proofs.Code.CompilationRules
import GuardedExpr.Proofs.Code.SlotStandings

/-!
Compiled code passes the check. A node is given the slots from a free one on and leaves the slots before it
as they are, so what is known before its statements is still known behind them.
-/

namespace GuardedExpr

def Standings.Fresh (known : Standings) (free : Nat) : Prop :=
  ∀ slot, free ≤ slot → known slot = .empty

theorem Standings.Fresh.mono {known : Standings} {free next : Nat} (fresh : known.Fresh free)
    (above : free ≤ next) : known.Fresh next :=
  fun slot outside => fresh slot (Nat.le_trans above outside)

theorem Standings.fresh_empty {free : Nat} : Standings.Fresh (fun _ => .empty) free :=
  fun _ _ => rfl

def Place.isProper (known : Standings) (place : Place) : Bool :=
  place.container.isProper known && place.container.isFit known && place.selector.isProper known

theorem Place.isProper_mono {known later : Standings} (agree : known.Extends later) {place : Place}
    (proper : place.isProper known) : place.isProper later := by
  simp only [Place.isProper, Bool.and_eq_true] at proper ⊢
  exact ⟨⟨Code.isProper_mono agree _ proper.1.1, Code.isFit_mono agree _ proper.1.2⟩,
    Selector.isProper_mono agree proper.2⟩

namespace Statement

theorem afterAll_append (known : Standings) (first second : List Statement) :
    afterAll known (first ++ second) = afterAll (afterAll known first) second :=
  List.foldl_append

theorem areProper_append (known : Standings) (first second : List Statement) :
    areProper known (first ++ second) =
      (areProper known first && areProper (afterAll known first) second) := by
  induction first generalizing known with
  | nil => rfl
  | cons statement rest ih =>
    simp only [List.cons_append, areProper, ih, Bool.and_assoc]
    rfl

structure Pass (known : Standings) (free next : Nat) (statements : List Statement) : Prop where
  proper : areProper known statements
  advance : free ≤ next
  fresh : (afterAll known statements).Fresh next
  old : ∀ slot, slot < free → afterAll known statements slot = known slot

namespace Pass

variable {known : Standings} {free middle next : Nat} {first second : List Statement}

theorem nil (fresh : known.Fresh free) : Pass known free free [] :=
  ⟨rfl, Nat.le_refl _, fresh, fun _ _ => rfl⟩

theorem append {start : Nat} (earlier : Pass known free middle first)
    (later : Pass (afterAll known first) start next second) (ordered : free ≤ start) :
    Pass known free next (first ++ second) where
  proper := by
    rw [areProper_append, earlier.proper, later.proper]
    rfl
  advance := Nat.le_trans ordered later.advance
  fresh := by
    rw [afterAll_append]
    exact later.fresh
  old := by
    intro slot before
    rw [afterAll_append, later.old slot (by omega), earlier.old slot before]

private theorem widen (pass : Pass known middle next first) (below : free ≤ middle) :
    Pass known free next first :=
  ⟨pass.proper, Nat.le_trans below pass.advance, pass.fresh, fun slot before => pass.old slot (by omega)⟩

theorem keeps (pass : Pass known free next first) (fresh : known.Fresh free) :
    known.Extends (afterAll known first) := by
  intro slot filled
  apply pass.old
  by_contra outside
  exact filled (fresh slot (by omega))

theorem ofEffect {slot : Nat} {standing : Standing} (proper : areProper known first)
    (effect : afterAll known first = Function.update known slot standing) (fresh : known.Fresh next)
    (above : free ≤ slot) (below : slot < next) : Pass known free next first where
  proper := proper
  advance := by omega
  fresh := by
    intro other outside
    rw [effect, Function.update_of_ne (by omega), fresh other outside]
  old := by
    intro other before
    rw [effect, Function.update_of_ne (by omega)]

end Pass

end Statement

open Statement

private theorem resolution_effect {known : Standings} {name : Text} {slot : Nat} (create : Bool)
    (safe : Guard.isSafeName name) (empty : known slot = .empty) :
    areProper known (resolution name create slot) ∧
      afterAll known (resolution name create slot) = Function.update known slot .object := by
  cases create <;>
    simp [resolution, areProper, afterAll, isProper, after, Question.yes, Question.no,
      Question.isProper, Code.isProper, Code.isFit, Selector.isProper, safe, empty,
      Standing.isOpen, Standing.refilled]

private theorem access_effect {known : Standings} {container : Code} {selector : Selector}
    {slot : Nat}
    (create : Bool) (proper : Place.isProper known ⟨container, selector⟩)
    (empty : known slot = .empty) :
    areProper known (access container selector create slot) ∧
      afterAll known (access container selector create slot) = Function.update known slot .object := by
  simp only [Place.isProper, Bool.and_eq_true] at proper
  obtain ⟨⟨inner, fit⟩, named⟩ := proper
  cases create <;>
    simp [access, areProper, afterAll, isProper, after, Question.yes, Question.no,
      Question.isProper, Code.isProper, Code.isFit, inner, fit, named, empty, Standing.isOpen,
      Standing.refilled]

theorem Standings.extends_update {known : Standings} {slot : Nat} (standing : Standing)
    (empty : known slot = .empty) : known.Extends (Function.update known slot standing) := by
  intro other filled
  rw [Function.update_of_ne]
  rintro rfl
  exact filled empty

private theorem Code.areProper_guarded {known : Standings} {codes : List Code}
    (proper : Code.areProper known codes) : Code.areProper known (codes.map .guarded) := by
  induction codes with
  | nil => rfl
  | cons code codes ih =>
    simp only [Code.areProper, Bool.and_eq_true] at proper
    simp only [List.map_cons, Code.areProper, Code.isProper, Code.isFit, proper.1.1, ih proper.2,
      Bool.and_self]

structure Fragment.Sound (known : Standings) (free : Nat) (fragment : Fragment) : Prop where
  pass : Pass known free fragment.next fragment.statements
  proper : fragment.code.isProper (afterAll known fragment.statements)
  fit : fragment.code.isFit (afterAll known fragment.statements)
  place : ∀ place, fragment.place = some place → place.isProper (afterAll known fragment.statements)

namespace Fragment

variable {known : Standings} {free : Nat} {fragment : Fragment}

theorem sound_inline (fresh : known.Fresh free) {code : Code} (proper : code.isProper known)
    (fit : code.isFit known) : (inline code free).Sound known free :=
  ⟨Pass.nil fresh, proper, fit, nofun⟩

namespace Sound

theorem spilled_effect (sound : fragment.Sound known free) :
    afterAll known fragment.spilled.statements =
      Function.update (afterAll known fragment.statements) fragment.next (.filled true) := by
  have fit := sound.fit
  rw [spilled, afterAll_append]
  simp only [afterAll, List.foldl_cons, List.foldl_nil, after] at fit ⊢
  rw [fit]

theorem spilled (sound : fragment.Sound known free) : fragment.spilled.Sound known free := by
  have effect := sound.spilled_effect
  have filled : Pass (afterAll known fragment.statements) fragment.next (fragment.next + 1)
      [.perform (.assign fragment.next fragment.code)] := by
    refine Pass.ofEffect ?_ rfl (sound.pass.fresh.mono (Nat.le_succ _)) (Nat.le_refl _)
      (Nat.lt_succ_self _)
    simp [areProper, isProper, sound.proper, sound.pass.fresh fragment.next (Nat.le_refl _)]
  refine ⟨sound.pass.append filled sound.pass.advance, rfl, ?_, nofun⟩
  rw [effect]
  simp [Fragment.spilled, Code.isFit, Standing.isFit]

theorem settled (sound : fragment.Sound known free) : fragment.settled.Sound known free :=
  fragment.settled_of (fun _ => sound.spilled) fun _ => sound

end Sound

theorem Sound.beside {rest : Fragment} {code : Code} {codes : List Code} (head : fragment.Sound known free)
    (tail : rest.Sound (afterAll known fragment.statements) fragment.next)
    (before : ∀ later, rest.code.isProper later = Code.areProper later codes)
    (proper : ∀ later, code.isProper later = Code.areProper later (fragment.code :: codes))
    (fit : ∀ later, code.isFit later) :
    Sound known free ⟨fragment.statements ++ rest.statements, code, none, rest.next⟩ := by
  have agree := tail.pass.keeps head.pass.fresh
  refine ⟨head.pass.append tail.pass head.pass.advance, ?_, fit _, nofun⟩
  have others := tail.proper
  rw [before] at others
  rw [afterAll_append, proper]
  simp only [Code.areProper, Code.isProper_mono agree _ head.proper, Code.isFit_mono agree _ head.fit, others,
    Bool.and_self]

theorem sound_member {next : Nat} {statements : List Statement} {container : Code}
    {selector : Selector} (create : Bool) (fresh : known.Fresh free)
    (pass : Pass known (free + 1) next statements)
    (proper : Place.isProper (afterAll known statements) ⟨container, selector⟩) :
    Sound known free ⟨statements ++ access container selector create free, .slot free,
      some ⟨container, selector⟩, next⟩ := by
  have empty : afterAll known statements free = .empty := by
    rw [pass.old free (Nat.lt_succ_self _), fresh free (Nat.le_refl _)]
  obtain ⟨accessed, effect⟩ := access_effect create proper empty
  have reading : Pass (afterAll known statements) free next (access container selector create free) :=
    Pass.ofEffect accessed effect pass.fresh (Nat.le_refl _) pass.advance
  refine ⟨(pass.widen (Nat.le_succ _)).append reading (Nat.le_refl _), rfl, ?_, ?_⟩
  · rw [afterAll_append, effect]
    simp [Code.isFit, Standing.isFit]
  · rintro place ⟨⟩
    rw [afterAll_append, effect]
    exact Place.isProper_mono (Standings.extends_update _ empty) proper

private theorem sound_computed {index : Fragment} (create : Bool) (fresh : known.Fresh free)
    (left : fragment.Sound known (free + 1))
    (key : index.Sound (afterAll known fragment.statements) fragment.next) :
    Sound known free ⟨fragment.statements ++ index.spilled.statements ++ [.checkName index.next] ++
        access fragment.code (.slot index.next) create free,
      .slot free, some ⟨fragment.code, .slot index.next⟩, index.next + 1⟩ := by
  have filled := key.spilled.pass
  have checked : Pass (afterAll (afterAll known fragment.statements) index.spilled.statements)
      fragment.next (index.next + 1) [.checkName index.next] := by
    refine Pass.ofEffect ?_ rfl filled.fresh key.pass.advance (Nat.lt_succ_self _)
    simp [areProper, isProper, key.spilled_effect, Standing.isFilled]
  have settled := filled.append checked (Nat.le_refl _)
  have agree := settled.keeps left.pass.fresh
  have pass := left.pass.append settled left.pass.advance
  rw [List.append_assoc fragment.statements]
  refine sound_member create fresh pass ?_
  rw [afterAll_append]
  simp only [Place.isProper, Code.isProper_mono agree _ left.proper, Code.isFit_mono agree _ left.fit,
    Bool.true_and]
  rw [afterAll_append]
  simp [afterAll, after, Selector.isProper]

theorem sound_assignment {next : Nat} {statements : List Statement} {place : Place} {value : Code}
    (target : fragment.Sound known free) (placed : fragment.place = some place)
    (pass : Pass (afterAll known fragment.statements) fragment.next next statements)
    (proper : value.isProper (afterAll (afterAll known fragment.statements) statements)) :
    Sound known free ⟨fragment.statements ++ statements,
      .store fragment.code.site place.container place.selector (.guarded value), none, next⟩ := by
  have named := Place.isProper_mono (pass.keeps target.pass.fresh) (target.place place placed)
  simp only [Place.isProper, Bool.and_eq_true] at named
  refine ⟨target.pass.append pass target.pass.advance, ?_, rfl, nofun⟩
  rw [afterAll_append]
  simp only [Code.isProper, Code.isFit, named, proper, Bool.and_self]

private theorem after_checkObject {code : Code} (fit : code.isFit known) :
    (Statement.checkObject code).after known = known := by
  cases code with
  | slot index =>
    have firm : known index ≠ .loose := by
      intro loose
      simp [Code.isFit, loose, Standing.isFit] at fit
    simp [after, firm]
  | _ => rfl

private theorem reread_effect {later : Standings} {slot : Nat} (sound : fragment.Sound known free)
    (agree : (afterAll known fragment.statements).Extends later) (empty : later slot = .empty) :
    areProper later (fragment.reread slot ++ [.checkFunction slot]) ∧
      afterAll later (fragment.reread slot ++ [.checkFunction slot]) =
        Function.update later slot .callee := by
  unfold reread
  cases placed : fragment.place with
  | none =>
    have proper := Code.isProper_mono agree _ sound.proper
    simp [areProper, afterAll, isProper, after, proper, empty, Standing.isFilled]
  | some place =>
    have proper := Place.isProper_mono agree (sound.place place placed)
    simp only [Place.isProper, Bool.and_eq_true] at proper
    obtain ⟨⟨inner, fit⟩, named⟩ := proper
    have unchanged := after_checkObject fit
    simp only [List.cons_append, List.nil_append, areProper, afterAll, List.foldl_cons,
      List.foldl_nil, unchanged]
    simp [isProper, after, Code.isProper, inner, fit, named, empty, Standing.isFilled]

private theorem sound_call {next : Nat} {statements : List Statement} {codes : List Code}
    (callee : fragment.Sound known free)
    (pass : Pass (afterAll known fragment.statements) fragment.next next statements)
    (proper : Code.areProper (afterAll (afterAll known fragment.statements) statements) codes) :
    Sound known free ⟨fragment.statements ++ statements ++ fragment.reread next ++
      [.checkFunction next], .call next (codes.map .guarded), none, next + 1⟩ := by
  have before := callee.pass.append pass callee.pass.advance
  have agree := pass.keeps callee.pass.fresh
  rw [← afterAll_append] at agree proper
  have empty := before.fresh next (Nat.le_refl _)
  obtain ⟨admitted, effect⟩ := reread_effect callee agree empty
  have calling : Pass (afterAll known (fragment.statements ++ statements)) next (next + 1)
      (fragment.reread next ++ [.checkFunction next]) :=
    Pass.ofEffect admitted effect (before.fresh.mono (Nat.le_succ _))
      (Nat.le_refl _) (Nat.lt_succ_self _)
  have arguments := Code.areProper_guarded
    (Code.areProper_mono (Standings.extends_update .callee empty) _ proper)
  refine ⟨?_, ?_, rfl, nofun⟩
  · rw [List.append_assoc]
    exact before.append calling before.advance
  · rw [List.append_assoc, afterAll_append, effect]
    simp [Code.isProper, arguments]

end Fragment

namespace Node

open Fragment

variable {known : Standings} {free : Nat}

theorem isSafeName_of_checkedName {name : Text} (checked : checkedName name = .ok ()) :
    Guard.isSafeName name := by
  by_contra unsafeName
  simp [checkedName, Guard.memberName, unsafeName] at checked

/-- The statements of a written node pass from any free slot on, whether missing places are created or not. -/
theorem Becomes.sound {h : Heap} {node : Node} {create : Bool} {fragment : Fragment}
    (made : node.Becomes h create free fragment) (written : node.isWritten) (fresh : known.Fresh free) :
    fragment.Sound known free := by
  induction made generalizing known with
  | program | parameter => cases written
  | literal => exact sound_inline fresh rfl written
  | this | locals | noItems | noProperties => exact sound_inline fresh rfl rfl
  | item _ _ head tail =>
    obtain ⟨one, others⟩ := Bool.and_eq_true_iff.mp written
    have first := head one fresh
    exact first.beside (tail others first.pass.fresh) (fun _ => rfl) (fun _ => rfl) fun _ => rfl
  | property _ _ _ head tail =>
    obtain ⟨both, others⟩ := Bool.and_eq_true_iff.mp written
    have first := head (Bool.and_eq_true_iff.mp both).2 fresh
    exact first.beside (tail others first.pass.fresh) (fun _ => rfl) (fun _ => rfl) fun _ => rfl
  | identifier checked create free =>
    have safe := isSafeName_of_checkedName checked
    obtain ⟨resolved, effect⟩ := resolution_effect create safe (fresh free (Nat.le_refl _))
    refine ⟨Pass.ofEffect resolved effect (fresh.mono (Nat.le_succ _))
      (Nat.le_refl _) (Nat.lt_succ_self _), rfl, ?_, ?_⟩
    · rw [effect]
      simp [Code.isFit, Standing.isFit]
    · rintro place ⟨⟩
      simp [Place.isProper, Code.isProper, Code.isFit, Selector.isProper, safe]
  | @computed _ _ create free _ _ _ _ left right =>
    obtain ⟨one, other⟩ := Bool.and_eq_true_iff.mp written
    have subject := (left one (fresh.mono (Nat.le_succ free))).settled
    exact sound_computed create fresh subject (right other subject.pass.fresh)
  | @named _ _ create free _ _ checked left =>
    have subject := (left (Bool.and_eq_true_iff.mp written).1 (fresh.mono (Nat.le_succ free))).settled
    refine sound_member create fresh subject.pass ?_
    simp [Place.isProper, subject.proper, subject.fit, Selector.isProper, isSafeName_of_checkedName checked]
  | call _ _ called handed =>
    obtain ⟨one, others⟩ := Bool.and_eq_true_iff.mp written
    have callee := called one fresh
    have arguments := handed others callee.pass.fresh
    exact sound_call callee arguments.pass arguments.proper
  | assignment _ placed _ assigned given =>
    obtain ⟨one, other⟩ := Bool.and_eq_true_iff.mp written
    have target := assigned one fresh
    have value := given other target.pass.fresh
    exact sound_assignment target placed value.pass value.proper

/-- Writing the value handed over from outside to a written place passes, as the value is guarded. -/
theorem sound_compile_assigner {h : Heap} {place : Node} (written : place.isWritten)
    {known : Standings} {fragment : Fragment} (fresh : known.Fresh free)
    (compiled : (Node.assignment place .parameter).compile h false free = .ok fragment) :
    fragment.Sound known free := by
  obtain ⟨target, _, value, placeCompiled, placed, valueCompiled, rfl⟩ := parts_assignment compiled
  cases valueCompiled
  have assigned := (becomes_of_compile place placeCompiled).sound written fresh
  exact sound_assignment assigned placed (Pass.nil assigned.pass.fresh) rfl

theorem isProper_routine {h : Heap} {body : Node} {routine : Routine}
    (compiled : (Node.program body).routine h = .ok routine)
    (sound : ∀ fragment, body.compile h false 0 = .ok fragment →
      fragment.Sound (fun _ => .empty) 0) : routine.isProper := by
  obtain ⟨inner, bodyCompiled, rfl⟩ := parts_routine compiled
  have passed := sound inner bodyCompiled
  simp only [Routine.isProper]
  rw [areProper_append, passed.pass.proper]
  simp [areProper, isProper, passed.proper, passed.fit]

end Node

namespace Evaluator

/-- Evaluators that some source text compiles to. -/
def IsCompiled (evaluator : Evaluator) : Prop :=
  ∃ h strict marks source, (ofSource h strict marks source).2 = .ok evaluator

/-- The routines of an evaluator are those of its tree and of an assignment to it. -/
theorem routines_of_ofTree {h : Heap} {body : Node} {text : Text} {evaluator : Evaluator}
    (made : ofTree h (.program body) text = .ok evaluator) :
    (Node.program body).routine h = .ok evaluator.routine ∧
      ∀ routine, evaluator.assigner = some routine →
        (Node.program (.assignment body .parameter)).routine h = .ok routine := by
  obtain ⟨routine, assigner, routineMade, assigningMade, _, rfl⟩ := parts_ofTree made
  exact ⟨routineMade, assigningMade⟩

/-- The routine of a compiled evaluator passes the check, and so does the one that assigns. -/
theorem IsCompiled.isProper {evaluator : Evaluator} (compiled : evaluator.IsCompiled) :
    evaluator.routine.isProper ∧ ∀ routine, evaluator.assigner = some routine → routine.isProper := by
  obtain ⟨h, strict, marks, source, compiled⟩ := compiled
  unfold ofSource at compiled
  split at compiled
  next => cases compiled
  next tree leftover read =>
    obtain ⟨body, rfl, written⟩ := isWritten_of_parse read
    have fresh : Standings.Fresh (fun _ => .empty) 0 := Standings.fresh_empty
    cases done : ofTree h (.program body) source with
    | error failure =>
      rw [done] at compiled
      cases compiled
    | ok made =>
      rw [done] at compiled
      cases compiled
      obtain ⟨routineMade, assignerMade⟩ := routines_of_ofTree done
      refine ⟨Node.isProper_routine routineMade fun _ bodyCompiled =>
        (Node.becomes_of_compile body bodyCompiled).sound written fresh, fun routine assigning => ?_⟩
      exact Node.isProper_routine (assignerMade routine assigning) fun _ bodyCompiled =>
        Node.sound_compile_assigner written fresh bodyCompiled

end Evaluator

end GuardedExpr
