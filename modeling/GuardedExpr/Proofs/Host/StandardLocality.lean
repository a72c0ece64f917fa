import GuardedExpr.Host.Standard
import GuardedExpr.Proofs.Heap.CommonRegions

/-!
The standard host is local. Its functions see and change what they are given and what is inside it, except for those
that reach a registered container, which no region encloses.
-/

namespace GuardedExpr

namespace Heap

variable {region : Ref → Prop} {a b : Heap} {v key container : Value} {entries : Entries}

section Conversions

variable (common : Common region a b)

include common

theorem Common.liesIn_yielded (lies : v.LiesIn region) {items : List Value} (found : a.yielded? v = some items) :
    ∀ item ∈ items, item.LiesIn region := by
  unfold Heap.yielded? at found
  split at found
  · cases found
    intro item member
    obtain ⟨c, -, rfl⟩ := List.mem_map.mp member
    trivial
  · split at found
    · next entries isMapping =>
      cases found
      intro item member
      obtain ⟨entry, present, rfl⟩ := List.mem_map.mp member
      exact (common.closed.entries lies isMapping entry present).1
    · exact common.closed.items lies found

theorem Common.asText (lies : v.LiesIn region) : b.asText v = a.asText v := by
  cases v with
  | text t => rfl
  | derived cls scalar =>
    cases scalar with
    | text t => rfl
    | _ => exact common.display common.size lies
  | ref r =>
    have inside := common.closed r lies
    simp only [Heap.asText, common.same r lies, common.display common.size lies, common.size]
    cases content : a.cell r <;> rw [content] at inside
    case mapping kind entries =>
      unfold entriesText
      dsimp only
      rw [List.map_congr_left fun entry member => by
        rw [common.displayWithin _ _ (inside entry member).1, common.displayWithin _ _ (inside entry member).2]]
  | _ => exact common.display common.size lies

private theorem Common.conversionText (lies : v.LiesIn region) :
    Conversion.text b v = Conversion.text a v := by
  simp only [Conversion.text, common.overlong? common.size lies, common.asText lies]

theorem Common.pairsInto {pairs : List Value} (lie : ∀ pair ∈ pairs, pair.LiesIn region) :
    Conversion.pairsInto b pairs entries = Conversion.pairsInto a pairs entries := by
  induction pairs generalizing entries with
  | nil => rfl
  | cons pair rest ih =>
    obtain ⟨head, tail⟩ := List.forall_mem_cons.mp lie
    simp only [Conversion.pairsInto, common.yielded? head]
    split
    · next key value found =>
      have each := common.liesIn_yielded head found
      simp only [common.key? (each key List.mem_cons_self), ih tail]
    · rfl
    · rfl

private theorem Common.liesIn_pairsInto {pairs : List Value}
    (lie : ∀ pair ∈ pairs, pair.LiesIn region)
    (before : entries.LieIn region) {after : Entries}
    (done : Conversion.pairsInto a pairs entries = .ok after) : after.LieIn region := by
  induction pairs generalizing entries with
  | nil =>
    cases done
    exact before
  | cons pair rest ih =>
    obtain ⟨head, tail⟩ := List.forall_mem_cons.mp lie
    simp only [Conversion.pairsInto] at done
    split at done
    · next key value found =>
      have each := common.liesIn_yielded head found
      split at done
      · next hashed keyed =>
        exact ih tail (before.set (each key (by simp)) (each value (by simp)) hashed) done
      · cases done
    · cases done
    · cases done

private theorem Common.conversionEntries (lies : v.LiesIn region) :
    Conversion.entries b v = Conversion.entries a v := by
  simp only [Conversion.entries, common.entries? lies, common.yielded? lies]
  split
  · rfl
  · next pairs _ found => exact common.pairsInto (common.liesIn_yielded lies found)
  · rfl

private theorem Common.liesIn_conversionEntries (lies : v.LiesIn region) {found : Entries}
    (done : Conversion.entries a v = .ok found) : found.LieIn region := by
  unfold Conversion.entries at done
  split at done
  · next inner _ isMapping =>
    cases done
    exact common.closed.entries lies isMapping
  · next pairs _ yields =>
    exact common.liesIn_pairsInto (common.liesIn_yielded lies yields) (List.forall_mem_nil _) done
  · cases done

theorem Common.askAttribute (lies : v.LiesIn region) (name : Text) : b.askAttribute v name = a.askAttribute v name := by
  unfold Heap.askAttribute
  rw [common.attribute? lies]
  cases a.attribute? v name with
  | some found => rfl
  | none =>
    cases v with
    | ref r => simp only [common.same r lies]
    | _ => rfl

private theorem Common.liesIn_askAttribute (lies : v.LiesIn region) {name : Text} {found : Value}
    (asked : a.askAttribute v name = .ok (some found)) : found.LiesIn region := by
  unfold Heap.askAttribute at asked
  split at asked
  · next value present =>
    cases asked
    exact common.closed.attribute lies present
  · split at asked <;> cases asked
  · cases asked

end Conversions

theorem Calls.after {σ : Type} {a' b' : Heap} {first second : Except Error Value × Heap × σ}
    (calls : Calls region a' b' first second) (move : Moves region a b a' b') : Calls region a b first second :=
  ⟨calls.outcome, calls.world, calls.value, move.trans calls.move⟩

end Heap

section Methods

variable {region : Ref → Prop} {items : List Value} {arguments : List Argument}

structure Argument.LiesIn (region : Ref → Prop) (argument : Argument) : Prop where
  value : argument.value.LiesIn region
  yields : ∀ items, argument.yields = some items → ∀ item ∈ items, item.LiesIn region

structure Turn.LiesIn (region : Ref → Prop) (turn : Turn) : Prop where
  items : ∀ item ∈ turn.items, item.LiesIn region
  value : ∀ v, turn.answer = .inl v → v.LiesIn region
  list : ∀ others, turn.answer = .inr others → ∀ item ∈ others, item.LiesIn region

namespace ListMethod

def StaysIn (region : Ref → Prop) (method : List Value → List Argument → Except Fault Turn) : Prop :=
  ∀ items arguments, (∀ item ∈ items, item.LiesIn region) → (∀ argument ∈ arguments, argument.LiesIn region) →
    ∀ turn, method items arguments = .ok turn → turn.LiesIn region

private theorem liesIn_quietly {turn : Turn} (lie : ∀ item ∈ items, item.LiesIn region)
    (done : quietly items = .ok turn) : turn.LiesIn region := by
  cases done
  exact ⟨lie, fun _ same => Sum.inl.inj same ▸ trivial, nofun⟩

private theorem liesIn_answering {n : Int} {turn : Turn} (lie : ∀ item ∈ items, item.LiesIn region)
    (done : answering items n = .ok turn) : turn.LiesIn region := by
  cases done
  exact ⟨lie, fun _ same => Sum.inl.inj same ▸ trivial, nofun⟩

private theorem liesIn_takes {position : Int} {turn : Turn}
    (lie : ∀ item ∈ items, item.LiesIn region)
    (done : takes items position = .ok turn) : turn.LiesIn region := by
  simp only [takes] at done
  split at done
  · next item found =>
    cases done
    rw [Option.ite_none_left_eq_some] at found
    exact ⟨fun other member => lie other (List.mem_of_mem_eraseIdx member),
      fun _ same => Sum.inl.inj same ▸ lie item (List.mem_of_getElem? found.2), nofun⟩
  · cases done

private theorem staysIn_appends : StaysIn region appends := by
  intro items arguments lie each turn done
  unfold appends at done
  split at done
  · next item =>
    have new := (each item List.mem_cons_self).value
    exact liesIn_quietly (List.forall_mem_append.mpr ⟨lie, List.forall_mem_singleton.mpr new⟩) done
  · cases done

private theorem staysIn_appendsAll : StaysIn region appendsAll := by
  intro items arguments lie each turn done
  unfold appendsAll at done
  split at done
  · next others =>
    split at done
    · next more yields =>
      have new := (each others List.mem_cons_self).yields more yields
      exact liesIn_quietly (List.forall_mem_append.mpr ⟨lie, new⟩) done
    · cases done
  · cases done

private theorem staysIn_inserts : StaysIn region inserts := by
  intro items arguments lie each turn done
  unfold inserts at done
  split at done
  · next place item =>
    obtain ⟨n, -, done⟩ := bind_eq_ok.mp done
    refine liesIn_quietly (fun other member => ?_) done
    obtain rfl | old := List.eq_or_mem_of_mem_insertIdx member
    · exact (each item (by simp)).value
    · exact lie other old
  · cases done

private theorem staysIn_pops : StaysIn region pops := by
  intro items arguments lie each turn done
  unfold pops at done
  split at done
  · exact liesIn_takes lie done
  · obtain ⟨position, -, done⟩ := bind_eq_ok.mp done
    exact liesIn_takes lie done
  · cases done

private theorem staysIn_removes : StaysIn region removes := by
  intro items arguments lie each turn done
  unfold removes at done
  split at done
  · obtain ⟨place, -, done⟩ := bind_eq_ok.mp done
    split at done
    · exact liesIn_quietly (fun other member => lie other (List.mem_of_mem_eraseIdx member)) done
    · cases done
  · cases done

private theorem staysIn_clears : StaysIn region clears := by
  intro items arguments lie each turn done
  unfold clears at done
  split at done
  · exact liesIn_quietly (List.forall_mem_nil _) done
  · cases done

private theorem staysIn_reverses : StaysIn region reverses := by
  intro items arguments lie each turn done
  unfold reverses at done
  split at done
  · exact liesIn_quietly (fun item member => lie item (List.mem_reverse.mp member)) done
  · cases done

private theorem staysIn_copies : StaysIn region copies := by
  intro items arguments lie each turn done
  unfold copies at done
  split at done
  · cases done
    exact ⟨lie, nofun, fun _ same => Sum.inr.inj same ▸ lie⟩
  · cases done

theorem staysIn_counts : StaysIn region counts := by
  intro items arguments lie each turn done
  unfold counts at done
  split at done
  · obtain ⟨n, -, done⟩ := bind_eq_ok.mp done
    exact liesIn_answering lie done
  · cases done

theorem staysIn_finds : StaysIn region finds := by
  intro items arguments lie each turn done
  unfold finds at done
  split at done
  · split at done
    · cases done
    · obtain ⟨⟨first, last⟩, -, done⟩ := bind_eq_ok.mp done
      obtain ⟨place, -, done⟩ := bind_eq_ok.mp done
      split at done
      · exact liesIn_answering lie done
      · cases done
  · cases done

private theorem staysIn_sorts : StaysIn region sorts := by
  intro items arguments lie each turn done
  unfold sorts at done
  split at done
  · split at done
    · exact liesIn_quietly lie done
    · split at done
      · exact liesIn_quietly (fun item member => lie item (List.mem_mergeSort.mp member)) done
      · cases done
  · cases done

private theorem staysIn_of_lookup {name : Text}
    {method : List Value → List Argument → Except Fault Turn}
    (found : Table.lookup name table = some method) : StaysIn region method := by
  have member := Table.mem_of_lookup found
  simp only [table, List.map_cons, List.map_nil, List.mem_cons, Prod.mk.injEq, List.not_mem_nil, or_false] at member
  obtain ⟨-, rfl⟩ | ⟨-, rfl⟩ | ⟨-, rfl⟩ | ⟨-, rfl⟩ | ⟨-, rfl⟩ | ⟨-, rfl⟩ | ⟨-, rfl⟩ | ⟨-, rfl⟩ | ⟨-, rfl⟩ | ⟨-, rfl⟩ |
    ⟨-, rfl⟩ := member
  exacts [staysIn_appends, staysIn_clears, staysIn_copies, staysIn_counts, staysIn_appendsAll, staysIn_finds,
    staysIn_inserts, staysIn_pops, staysIn_removes, staysIn_reverses, staysIn_sorts]

private theorem staysIn_of_lookup_tuple {name : Text}
    {method : List Value → List Argument → Except Fault Turn}
    (found : Table.lookup name tupleTable = some method) : StaysIn region method := by
  have member := Table.mem_of_lookup found
  simp only [tupleTable, List.map_cons, List.map_nil, List.mem_cons, Prod.mk.injEq, List.not_mem_nil,
    or_false] at member
  obtain ⟨-, rfl⟩ | ⟨-, rfl⟩ := member
  exacts [staysIn_counts, staysIn_finds]

end ListMethod

end Methods

namespace StandardHost

open Heap

variable {region : Ref → Prop} {a b : Heap} {world : World} {arguments : List Value} {r : Ref}

private theorem liesIn_whole {v value : Value} (done : Conversion.whole v = .ok value) :
    value.LiesIn region := by
  simp only [Conversion.whole, Conversion.spelled] at done
  repeat' split at done
  all_goals cases done <;> trivial

private theorem liesIn_wholeInBase {v base value : Value}
    (done : Conversion.wholeInBase v base = .ok value) :
    value.LiesIn region := by
  simp only [Conversion.wholeInBase, Conversion.spelled] at done
  repeat' split at done
  all_goals cases done <;> trivial

private theorem liesIn_makeWhole {value : Value} (done : makeWhole arguments = .ok value) :
    value.LiesIn region := by
  unfold makeWhole at done
  split at done
  · cases done
    trivial
  · exact liesIn_whole done
  · exact liesIn_wholeInBase done
  · cases done

private theorem liesIn_makeText {value : Value} (done : makeText a arguments = .ok value) :
    value.LiesIn region := by
  simp only [makeText, Conversion.text] at done
  repeat' split at done
  all_goals cases done <;> trivial

private theorem liesIn_firstOf (lie : ∀ argument ∈ arguments, argument.LiesIn region) :
    (firstOf arguments).LiesIn region := by
  cases arguments with
  | nil => trivial
  | cons first rest => exact lie first List.mem_cons_self

section Kinds

variable (common : Common region a b)

include common

theorem calls_of_still {outcome : Except Error Value} (lies : ∀ value, outcome = .ok value → value.LiesIn region) :
    Calls region a b (outcome, a, world) (outcome, b, world) :=
  ⟨rfl, rfl, lies, moves_refl common⟩

theorem calls_refuse (cause : Fault) : Calls region a b (refuse a world cause) (refuse b world cause) :=
  calls_of_still common nofun

theorem calls_put {c : Cell} {value : Value} (inside : region r) (cell : c.LiesIn region) (acts : c.ActsIn region)
    (lies : value.LiesIn region) : Calls region a b (.ok value, a.put r c, world) (.ok value, b.put r c, world) :=
  ⟨rfl, rfl, fun _ same => Except.ok.inj same ▸ lies, common.put inside cell acts⟩

theorem calls_alloc {c : Cell} (cell : c.LiesIn region) (acts : c.ActsIn region) :
    Calls region a b (.ok (.ref (a.alloc c).1), (a.alloc c).2, world)
      (.ok (.ref (b.alloc c).1), (b.alloc c).2, world) where
  outcome := congrArg (fun size => Except.ok (Value.ref size)) common.size
  world := rfl
  value := fun _ same => Except.ok.inj same ▸ common.new
  move := common.alloc cell acts

private theorem calls_increment (inside : region r) :
    Calls region a b (increment a world r arguments) (increment b world r arguments) := by
  have lies := common.closed r inside
  simp only [increment, common.same r inside]
  cases content : a.cell r <;> rw [content] at lies
  case object cls fields =>
    have whole (n : Int) : (Value.int n).LiesIn region := trivial
    exact calls_put common inside (Fields.LieIn.insert lies (whole _) _) trivial trivial
  all_goals exact calls_refuse common _

private theorem calls_answer (found : Answer) :
    Calls region a b (answer a world found) (answer b world found) := by
  have scalars (items : List Scalar) : ∀ item ∈ items.map Scalar.value, item.LiesIn region := by
    intro item member
    obtain ⟨scalar, -, rfl⟩ := List.mem_map.mp member
    exact scalar.liesIn_value region
  cases found with
  | scalar scalar => exact calls_of_still common fun _ same => Except.ok.inj same ▸ scalar.liesIn_value region
  | truth b => exact calls_of_still common fun _ same => Except.ok.inj same ▸ trivial
  | list items | tuple items => exact calls_alloc common (scalars items) trivial

theorem calls_answerTurn {turn : Turn} (lies : turn.LiesIn region) :
    Calls region a b (answerTurn a world turn) (answerTurn b world turn) := by
  obtain ⟨items, value | others⟩ := turn
  · exact calls_of_still common fun _ same => Except.ok.inj same ▸ lies.value value rfl
  · exact calls_alloc common (lies.list others rfl) trivial

theorem argument_eq {items : List Value} (each : ∀ item ∈ items, item.LiesIn region) {v : Value}
    (lies : v.LiesIn region) : b.argument items v = a.argument items v := by
  have equals : (items.map fun item => b.equal? item v) = items.map fun item => a.equal? item v :=
    List.map_congr_left fun item member => common.equal? common.size (each item member) lies
  cases v with
  | ref r => simp only [Heap.argument, common.yielded? lies, equals, common.same r lies]
  | _ => simp only [Heap.argument, common.yielded? lies, equals]

private theorem liesIn_argument (items : List Value) {v : Value} (lies : v.LiesIn region) :
    (a.argument items v).LiesIn region :=
  ⟨lies, fun _ yields => common.liesIn_yielded lies yields⟩

private theorem count?_eq {v : Value} (lies : v.LiesIn region) : count? b v = count? a v := by
  cases v with
  | text t => rfl
  | _ => simp only [count?, common.entries? lies, common.items? lies]

variable (lie : ∀ argument ∈ arguments, argument.LiesIn region)

include lie

theorem turn_eq {items : List Value} (each : ∀ item ∈ items, item.LiesIn region) (name : Text)
    (table : Table Text (List Value → List Argument → Except Fault Turn)) :
    turn b items arguments name table = turn a items arguments name table := by
  have seen : arguments.map (b.argument items) = arguments.map (a.argument items) :=
    List.map_congr_left fun argument member => argument_eq common each (lie argument member)
  simp only [turn, seen]

theorem liesIn_turn {items : List Value} (each : ∀ item ∈ items, item.LiesIn region) {name : Text}
    {table : Table Text (List Value → List Argument → Except Fault Turn)}
    (stays : ∀ {method}, Table.lookup name table = some method → ListMethod.StaysIn region method) {result : Turn}
    (done : turn a items arguments name table = .ok result) : result.LiesIn region := by
  unfold turn at done
  split at done
  · next method found =>
    refine stays found _ _ each (fun argument member => ?_) _ done
    obtain ⟨v, given, rfl⟩ := List.mem_map.mp member
    exact liesIn_argument common items (lie v given)
  · cases done

private theorem calls_callMethod {method : Method} (lies : method.LiesIn region) :
    Calls region a b (callMethod a world arguments method) (callMethod b world arguments method) := by
  cases method with
  | increment counter => exact calls_increment common lies
  | ofList list name =>
    have inside := common.closed list lies
    simp only [callMethod, common.same list lies]
    cases content : a.cell list <;> rw [content] at inside
    case list items =>
      dsimp only
      rw [turn_eq common lie inside]
      cases done : turn a items arguments name ListMethod.table with
      | ok turn =>
        have stays := liesIn_turn common lie inside ListMethod.staysIn_of_lookup done
        have move := common.put lies (c := .list turn.items) stays.items trivial
        exact (calls_answerTurn move.common stays).after move
      | error cause => exact calls_refuse common cause
    all_goals exact calls_refuse common _
  | ofTuple tuple name =>
    have inside := common.closed tuple lies
    simp only [callMethod, common.same tuple lies]
    cases content : a.cell tuple <;> rw [content] at inside
    case tuple items =>
      dsimp only
      rw [turn_eq common lie inside]
      cases done : turn a items arguments name ListMethod.tupleTable with
      | ok turn =>
        exact calls_answerTurn common (liesIn_turn common lie inside ListMethod.staysIn_of_lookup_tuple done)
      | error cause => exact calls_refuse common cause
    all_goals exact calls_refuse common _
  | ofScalar scalar name =>
    have seen : arguments.map (b.argument []) = arguments.map (a.argument []) :=
      List.map_congr_left fun argument member => argument_eq common (List.forall_mem_nil _) (lie argument member)
    simp only [callMethod, seen]
    cases scalar.call name (arguments.map (a.argument [])) with
    | ok found => exact calls_answer common found
    | error cause => exact calls_refuse common cause

private theorem makeText_eq : makeText b arguments = makeText a arguments := by
  unfold makeText
  split
  · rfl
  · exact common.conversionText (lie _ List.mem_cons_self)
  · rfl

private theorem makeEntries_eq : makeEntries b arguments = makeEntries a arguments := by
  unfold makeEntries
  split
  · rfl
  · exact common.conversionEntries (lie _ List.mem_cons_self)
  · rfl

private theorem liesIn_makeEntries {entries : Entries}
    (done : makeEntries a arguments = .ok entries) :
    entries.LieIn region := by
  unfold makeEntries at done
  split at done
  · cases done
    exact List.forall_mem_nil _
  · exact common.liesIn_conversionEntries (lie _ List.mem_cons_self) done
  · cases done

private theorem calls_construct (constructor : Constructor) :
    Calls region a b (construct a world arguments constructor) (construct b world arguments constructor) := by
  cases constructor with
  | ofClasses name => exact calls_refuse common _
  | ofObjects =>
    simp only [construct]
    split
    · exact calls_alloc common (List.forall_mem_nil _) trivial
    · exact calls_refuse common _
  | ofIntegers => exact calls_of_still common fun _ done => liesIn_makeWhole done
  | ofTexts =>
    simp only [construct, makeText_eq common lie]
    exact calls_of_still common fun _ done => liesIn_makeText done
  | ofMappings =>
    simp only [construct, makeEntries_eq common lie]
    cases done : makeEntries a arguments with
    | ok entries => exact calls_alloc common (liesIn_makeEntries common lie done) trivial
    | error failure =>
      refine calls_of_still common fun _ impossible => ?_
      cases impossible

/-- The functions of the host do their work in the region, unless they reach a registered container. -/
theorem calls_callFunction (host : Host World) {name : Text} {behaviour : Behaviour} {fields : Fields}
    (content : a.cell r = .function name behaviour fields) (inside : region r) :
    Calls region a b (callFunction host a world r arguments name behaviour fields)
      (callFunction host b world r arguments name behaviour fields) := by
  have lies := common.closed r inside
  have acts := common.deeds r inside
  rw [content] at lies acts
  have pictures : arguments.map b.picture = arguments.map a.picture :=
    List.map_congr_left fun argument member => common.picture common.size (lie argument member)
  unfold callFunction
  rw [pictures]
  cases behaviour with
  | collect => exact calls_alloc common lie trivial
  | first => exact calls_of_still common fun _ same => Except.ok.inj same ▸ liesIn_firstOf lie
  | fresh => exact calls_alloc common (List.forall_mem_nil _) trivial
  | constant value => exact calls_of_still common fun _ same => Except.ok.inj same ▸ acts
  | sequence container next =>
    simp only [common.yielded? acts]
    refine calls_put common inside lies acts ?_
    cases read : (do
        let position ← next
        let items ← a.yielded? container
        items[position]? : Option Value) with
    | none => trivial
    | some item =>
      simp only [Option.bind_eq_bind, Option.bind_eq_some_iff] at read
      obtain ⟨position, -, items, found, present⟩ := read
      exact common.liesIn_yielded acts found item (List.mem_of_getElem? present)
  | put key value target => exact acts.elim
  | fail message => exact calls_of_still common nofun
  | evaluate source marks scope => exact acts.elim

theorem calls_invoke (host : Host World) {callee : Value} (lies : callee.LiesIn region) :
    Calls region a b (invoke host callee arguments a world) (invoke host callee arguments b world) := by
  cases callee with
  | ref r =>
    simp only [invoke, common.same r lies]
    cases content : a.cell r
    case function name behaviour fields => exact calls_callFunction common lie host content lies
    case userClass fields =>
      dsimp only
      split
      · exact calls_alloc common ⟨lies, List.forall_mem_nil _⟩ trivial
      · exact calls_refuse common _
    all_goals exact calls_refuse common _
  | primitive p =>
    cases p
    case size =>
      simp only [invoke]
      split
      · rw [count?_eq common (lie _ List.mem_cons_self)]
        split
        · exact calls_of_still common fun _ same => Except.ok.inj same ▸ trivial
        · exact calls_refuse common _
      · exact calls_refuse common _
    all_goals exact calls_refuse common _
  | constructor c => exact calls_construct common lie c
  | method m => exact calls_callMethod common lie lies
  | _ => exact calls_refuse common _

end Kinds

private theorem calls_makeFromKeys (host : Host World) (common : Common region a b) {keys : Value}
    (lies : keys.LiesIn region) :
    Calls region a b (makeFromKeys host a world keys) (makeFromKeys host b world keys) := by
  have calls : Calls region a b (invoke host keys [] a world) (invoke host keys [] b world) :=
    calls_invoke common (List.forall_mem_nil _) host lies
  unfold makeFromKeys
  generalize invoke host keys [] a world = one at calls ⊢
  generalize invoke host keys [] b world = other at calls ⊢
  rcases one with ⟨first, left, world⟩
  rcases other with ⟨second, right, after⟩
  obtain ⟨outcome, same, value, move⟩ := calls
  dsimp only at outcome same value move
  subst outcome same
  cases second with
  | error failure => exact ⟨rfl, rfl, value, move⟩
  | ok found =>
    dsimp only
    rw [move.common.yielded? (value found rfl)]
    split
    · exact (calls_alloc move.common (c := .mapping .plain []) (List.forall_mem_nil _) trivial).after move
    · exact (calls_refuse move.common _).after move

/-- Calls of the standard host do their work in the region of what they are given. -/
theorem calls_call (host : Host World) (common : Common region a b) {callee : Value} (lies : callee.LiesIn region)
    (lie : ∀ argument ∈ arguments, argument.LiesIn region) :
    Calls region a b (call host callee arguments a world) (call host callee arguments b world) := by
  unfold call
  split
  · next v =>
    have inner := lie v List.mem_cons_self
    rw [common.entries? inner, common.askAttribute inner]
    split
    · exact calls_invoke common lie host lies
    · split
      · next keys asked => exact calls_makeFromKeys host common (common.liesIn_askAttribute inner asked)
      · exact calls_invoke common lie host lies
      · exact calls_of_still common nofun
  · exact calls_invoke common lie host lies

end StandardHost

theorem Host.isLocal_standard (depth : Nat) : (Host.standard depth).IsLocal := by
  intro region a b callee arguments world common lies lie
  cases depth with
  | zero => exact StandardHost.calls_refuse common _
  | succ depth => exact StandardHost.calls_call (Host.standard depth) common lies lie

end GuardedExpr
