import GuardedExpr.Proofs.Run.CheckedRuns
import Mathlib.Data.List.Infix
import Mathlib.Logic.Relation

/-!
The deeds of a run: what others can see of it besides its answer. Code has a script, the deeds that it is
written to do in the order in which it is written to do them, and a run leaves out some of them but does no
others and changes no order. The arguments of a call come in a script before the call itself, and behind the
gate of the call: their deeds are done only after the callee was admitted, and found true and callable.
-/

namespace GuardedExpr

variable {σ : Type} {host : Host σ}

/-- An empty object put into a member, a member written by the assignment whose target was read into the given
slot, or a call of the function in a slot. -/
inductive Deed where
  | create (selector : Selector)
  | store (site : Nat)
  | call (slot : Nat)
  deriving DecidableEq

namespace Event

def deed? : Event → Option Deed
  | .created _ selector _ _ => some (.create selector)
  | .stored site _ _ _ _ => some (.store site)
  | .invoked slot _ _ => some (.call slot)
  | _ => none

def write? : Event → Option (Value × Value × Value)
  | .created container _ key made => some (container, key, made)
  | .stored _ container _ key value => some (container, key, value)
  | _ => none

def deedsAfter : List Event → List (Deed × List Event)
  | [] => []
  | event :: past => deedsAfter past ++ (event.deed?.map fun deed => (deed, past)).toList

def deeds (journal : List Event) : List Deed :=
  (deedsAfter journal).map Prod.fst

theorem mem_deedsAfter {deed : Deed} {past journal : List Event} :
    (deed, past) ∈ deedsAfter journal ↔
      ∃ later event, journal = later ++ event :: past ∧ event.deed? = some deed := by
  induction journal with
  | nil => simp [deedsAfter]
  | cons newest journal hypothesis =>
    rw [deedsAfter, List.mem_append, hypothesis]
    constructor
    · rintro (⟨later, event, rfl, done⟩ | newer)
      · exact ⟨newest :: later, event, rfl, done⟩
      · obtain ⟨found, done, same⟩ := Option.map_eq_some_iff.mp (Option.mem_toList.mp newer)
        cases same
        exact ⟨[], newest, rfl, done⟩
    · rintro ⟨later, event, split, done⟩
      cases later with
      | nil =>
        cases split
        exact .inr (Option.mem_toList.mpr (by rw [done]; rfl))
      | cons _ later =>
        cases split
        exact .inl ⟨later, event, rfl, done⟩

end Event

/-- A deed that code is written to do, with the calls that it is an argument of, outermost first: the slots of
their callees. -/
structure Duty where
  deed : Deed
  gates : List Nat

def Deed.toDuty (deed : Deed) : Duty :=
  ⟨deed, []⟩

def Duty.behind (slots : List Nat) (duty : Duty) : Duty :=
  { duty with gates := slots ++ duty.gates }

namespace Code

mutual

def script : Code → List Duty
  | .array items => scriptAll items
  | .object _ values => scriptAll values
  | .member container _ => container.script
  | .guarded code => code.script
  | .call callee arguments => (scriptAll arguments ++ [Deed.toDuty (.call callee)]).map (Duty.behind [callee])
  | .store site container _ value => container.script ++ value.script ++ [Deed.toDuty (.store site)]
  | _ => []

def scriptAll : List Code → List Duty
  | [] => []
  | code :: codes => code.script ++ scriptAll codes

end

end Code

def Question.script : Question → List Duty
  | .has container _ => container.script
  | .holds code => code.script

def Action.script : Action → List Duty
  | .assign _ code => code.script
  | .create container selector => container.script ++ [Deed.toDuty (.create selector)]

namespace Statement

def script : Statement → List Duty
  | .perform action => action.script
  | .guardedBy conditions action => conditions.flatMap (·.question.script) ++ action.script
  | .checkObject code => code.script
  | .checkName _ => []
  | .checkFunction _ => []
  | .result code => code.script

def scriptAll (statements : List Statement) : List Duty :=
  statements.flatMap script

end Statement

def Routine.script (routine : Routine) : List Duty :=
  Statement.scriptAll routine.statements

def Cell.isBuilt : Cell → Bool
  | .list _ | .mapping .plain _ => true
  | _ => false

namespace Machine

inductive Step (host : Host σ) : Machine σ → Machine σ → Prop where
  | note {m : Machine σ} {event : Event} (other : event.deed? = none) : Step host m (m.note event)
  | alloc {m : Machine σ} {cell : Cell} (built : cell.isBuilt) :
      Step host m { m with heap := (m.heap.alloc cell).2 }
  | write {m : Machine σ} {event : Event} {container key value : Value} {heap : Heap}
      (writes : event.write? = some (container, key, value))
      (written : m.heap.setMember container key value = .ok heap) :
      Step host m { m.note event with heap }
  | refuse {m : Machine σ} {event : Event} {container key value : Value} {failure : Error}
      (writes : event.write? = some (container, key, value))
      (refused : m.heap.setMember container key value = .error failure) : Step host m (m.note event)
  | call {m : Machine σ} (slot : Nat) {callee : Value} {arguments : List Value}
      {outcome : Except Error Value} {heap : Heap} {world : σ}
      (called : host.call callee arguments m.heap m.world = (outcome, heap, world)) :
      Step host m ⟨heap, world, .invoked slot callee arguments :: m.journal⟩

abbrev Comes (m : Machine σ) (host : Host σ) (last : Machine σ) : Prop :=
  Relation.ReflTransGen (Step host) m last

variable {m middle last start : Machine σ}

theorem Comes.older (comes : m.Comes host last) : m.journal <:+ last.journal := by
  induction comes with
  | refl => exact List.suffix_refl _
  | tail _ step older =>
    apply older.trans
    cases step with
    | alloc => exact List.suffix_refl _
    | _ => exact List.suffix_cons _ _

end Machine

/-- Before what is told in a journal, the call of what a slot holds was gone through with: the run had come to a
machine in which the callee had been admitted, was true and could be called. -/
def Gate (host : Host σ) (start : Machine σ) (slot : Nat) (past : List Event) : Prop :=
  ∃ (moment : Machine σ) (callee : Value), start.Comes host moment ∧ moment.journal <:+ past ∧
    .admitted slot callee ∈ moment.journal ∧ moment.heap.isTruthy callee = .ok true ∧
    moment.heap.isCallable callee

abbrev Record := List (Duty × List Event)

/-- A record of what was done between two machines: it leaves out duties of the script, but has no others and
keeps their order, and the gates of all that was done had been passed. -/
structure Record.Tells (host : Host σ) (start : Machine σ) (record : Record) (script : List Duty)
    (m last : Machine σ) : Prop where
  ordered : (record.map Prod.fst).Sublist script
  complete : Event.deedsAfter last.journal =
    Event.deedsAfter m.journal ++ record.map fun entry => (entry.1.deed, entry.2)
  gated : ∀ entry ∈ record, m.journal <:+ entry.2 ∧ ∀ slot ∈ entry.1.gates, Gate host start slot entry.2

structure Machine.Follows (m : Machine σ) (host : Host σ) (start : Machine σ) (script : List Duty)
    (last : Machine σ) : Prop where
  comes : m.Comes host last
  told : ∃ record : Record, record.Tells host start script m last

namespace Machine

variable {m middle last start : Machine σ} {script rest : List Duty}

theorem follows_refl (host : Host σ) (start m : Machine σ) : m.Follows host start [] m :=
  ⟨.refl, [], .slnil, by simp, by simp⟩

theorem Follows.trans (first : m.Follows host start script middle)
    (second : middle.Follows host start rest last) : m.Follows host start (script ++ rest) last := by
  obtain ⟨record, earlier⟩ := first.told
  obtain ⟨further, later⟩ := second.told
  refine ⟨first.comes.trans second.comes, record ++ further, ?_, ?_, ?_⟩
  · rw [List.map_append]
    exact earlier.ordered.append later.ordered
  · rw [later.complete, earlier.complete, List.map_append, List.append_assoc]
  · intro entry member
    rcases List.mem_append.mp member with old | new
    · exact earlier.gated entry old
    · exact ⟨first.comes.older.trans (later.gated entry new).1, (later.gated entry new).2⟩

theorem Follows.mono (follows : m.Follows host start script last) (sub : script.Sublist rest) :
    m.Follows host start rest last := by
  obtain ⟨record, told⟩ := follows.told
  exact ⟨follows.comes, record, told.ordered.trans sub, told.complete, told.gated⟩

theorem Follows.behind (follows : m.Follows host start script last) {slots : List Nat}
    (passed : ∀ slot ∈ slots, Gate host start slot m.journal) :
    m.Follows host start (script.map (Duty.behind slots)) last := by
  obtain ⟨record, told⟩ := follows.told
  refine ⟨follows.comes, record.map (Prod.map (Duty.behind slots) id), ?_, ?_, ?_⟩
  · rw [List.map_map]
    have same : Prod.fst ∘ Prod.map (Duty.behind slots) id =
        Duty.behind slots ∘ (Prod.fst : Duty × List Event → Duty) := rfl
    rw [same, ← List.map_map]
    exact told.ordered.map _
  · rw [told.complete, List.map_map]
    rfl
  · intro entry member
    obtain ⟨inner, known, rfl⟩ := List.mem_map.mp member
    obtain ⟨older, gates⟩ := told.gated inner known
    refine ⟨older, fun slot listed => ?_⟩
    rcases List.mem_append.mp listed with outer | own
    · obtain ⟨moment, callee, comes, before, facts⟩ := passed slot outer
      exact ⟨moment, callee, comes, before.trans older, facts⟩
    · exact gates slot own

theorem follows_step {event : Event} (step : Step host m last) (journal : last.journal = event :: m.journal)
    {deed : Deed} (done : event.deed? = some deed) : m.Follows host start [deed.toDuty] last := by
  refine ⟨.single step, [(deed.toDuty, m.journal)], .refl _, ?_, ?_⟩
  · rw [journal, Event.deedsAfter, done]
    rfl
  · intro entry member
    rw [List.mem_singleton.mp member]
    exact ⟨List.suffix_refl _, nofun⟩

theorem follows_note {event : Event} (other : event.deed? = none) (host : Host σ) (start m : Machine σ) :
    m.Follows host start [] (m.note event) := by
  refine ⟨.single (.note other), [], .slnil, ?_, by simp⟩
  have journal : (m.note event).journal = event :: m.journal := rfl
  rw [journal, Event.deedsAfter, other]
  rfl

end Machine

def Run.Follows {α : Type} (host : Host σ) (start : Machine σ) (part : Run σ α) (script : List Duty)
    (m : Machine σ) : Prop :=
  part.Leads m (fun _ last => m.Follows host start script last) fun _ last => m.Follows host start script last

end GuardedExpr
