import GuardedExpr.Proofs.Node.WrittenTrees
import Mathlib.Logic.Function.Basic

/-!
A check of code before it runs. It goes through the statements of a body in order and keeps for every slot
what is known of it by then. Code passes if it uses safe names and checked slots as keys, calls slots with
admitted functions only, and puts objects to use only where they have passed the guard.
-/

namespace GuardedExpr

inductive Standing where
  /-- Nothing was put into it. -/
  | empty
  /-- Something may have been put into it, perhaps more than once. -/
  | loose
  /-- Something was put into it, once; whether that is fit to be used is known from its code. -/
  | filled (fit : Bool)
  /-- It was filled once, and then checked as a key. -/
  | key
  /-- It was filled once, and then admitted as a function. -/
  | callee
  /-- What it holds is fit to be used. -/
  | object
  deriving DecidableEq

namespace Standing

def isFit : Standing → Bool
  | .filled fit => fit
  | .object => true
  | _ => false

def isFilled : Standing → Bool
  | .filled _ => true
  | _ => false

def isOpen : Standing → Bool
  | .empty => true
  | .loose => true
  | .object => true
  | _ => false

/-- The standing after the slot was perhaps filled. An empty slot holds null, which is fit. -/
def refilled (fit : Bool) : Standing → Standing
  | .empty => if fit then .object else .loose
  | .object => if fit then .object else .loose
  | _ => .loose

end Standing

abbrev Standings := Nat → Standing

def Selector.isProper (known : Standings) : Selector → Bool
  | .name field => Guard.isSafeName field
  | .slot index => known index = .key

namespace Code

def isFit (known : Standings) : Code → Bool
  | .locals => true
  | .scope => true
  | .parameter => false
  | .slot index => (known index).isFit
  | .owner _ => true
  | .literal value _ => value.isScalar
  | .array _ => true
  | .object _ _ => true
  | .member _ _ => false
  | .guarded _ => true
  | .call _ _ => true
  | .store _ _ _ value => value.isFit known

mutual

def isProper (known : Standings) : Code → Bool
  | .owner name => Guard.isSafeName name
  | .array items => areProper known items
  | .object _ values => areProper known values
  | .member container selector =>
    container.isProper known && container.isFit known && selector.isProper known
  | .guarded code => code.isProper known
  | .call callee arguments => known callee = .callee && areProper known arguments
  | .store _ container selector value =>
    container.isProper known && container.isFit known && selector.isProper known &&
      value.isProper known && value.isFit known
  | _ => true

def areProper (known : Standings) : List Code → Bool
  | [] => true
  | code :: codes => code.isProper known && code.isFit known && areProper known codes

end

end Code

def Question.isProper (known : Standings) : Question → Bool
  | .has container name =>
    container.isProper known && container.isFit known && Guard.isSafeName name
  | .holds code => code.isProper known

namespace Statement

def isProper (known : Standings) : Statement → Bool
  | .perform (.assign slot code) => known slot = .empty && code.isProper known
  | .perform (.create container selector) =>
    container.isProper known && container.isFit known && selector.isProper known
  | .guardedBy conditions (.assign slot code) =>
    conditions.all (·.question.isProper known) && (known slot).isOpen && code.isProper known
  | .guardedBy conditions (.create container selector) =>
    conditions.all (·.question.isProper known) && container.isProper known && container.isFit known &&
      selector.isProper known
  | .checkObject code => code.isProper known
  | .checkName slot => (known slot).isFilled
  | .checkFunction slot => (known slot).isFilled
  | .result code => code.isProper known && code.isFit known

def after (known : Standings) : Statement → Standings
  | .perform (.assign slot code) => Function.update known slot (.filled (code.isFit known))
  | .guardedBy _ (.assign slot code) =>
    Function.update known slot ((known slot).refilled (code.isFit known))
  | .checkObject (.slot slot) =>
    if known slot = .loose then Function.update known slot .object else known
  | .checkName slot => Function.update known slot .key
  | .checkFunction slot => Function.update known slot .callee
  | _ => known

def afterAll (known : Standings) (statements : List Statement) : Standings :=
  statements.foldl after known

def areProper (known : Standings) : List Statement → Bool
  | [] => true
  | statement :: statements =>
    statement.isProper known && areProper (statement.after known) statements

end Statement

def Routine.isProper (routine : Routine) : Bool :=
  Statement.areProper (fun _ => .empty) routine.statements

/-! What is known of slots stays known while others are filled. -/

def Standings.Extends (known later : Standings) : Prop :=
  ∀ slot, known slot ≠ .empty → later slot = known slot

section Extension

variable {known later : Standings}

theorem Selector.isProper_mono (agree : known.Extends later) {selector : Selector}
    (proper : selector.isProper known) : selector.isProper later := by
  cases selector with
  | name field => exact proper
  | slot index =>
    simp only [Selector.isProper, decide_eq_true_eq] at proper ⊢
    rw [agree index (by simp [proper]), proper]

theorem Code.isFit_mono (agree : known.Extends later) :
    (code : Code) → code.isFit known → code.isFit later
  | .slot index, fit => by
    have filled : known index ≠ .empty := by
      intro empty
      simp [Code.isFit, empty, Standing.isFit] at fit
    simpa only [Code.isFit, agree index filled] using fit
  | .store _ _ _ value, fit => Code.isFit_mono agree value fit
  | .literal _ _, fit => fit
  | .locals, _ | .scope, _ | .owner _, _ | .array _, _ | .object _ _, _ | .guarded _, _
  | .call _ _, _ => rfl

mutual

theorem Code.isProper_mono (agree : known.Extends later) :
    (code : Code) → code.isProper known → code.isProper later
  | .locals, _ => rfl
  | .scope, _ => rfl
  | .parameter, _ => rfl
  | .slot _, _ => rfl
  | .literal _ _, _ => rfl
  | .owner _, proper => proper
  | .array items, proper => Code.areProper_mono agree items proper
  | .object _ values, proper => Code.areProper_mono agree values proper
  | .guarded code, proper => Code.isProper_mono agree code proper
  | .member container selector, proper => by
    simp only [Code.isProper, Bool.and_eq_true] at proper ⊢
    exact ⟨⟨Code.isProper_mono agree container proper.1.1, Code.isFit_mono agree _ proper.1.2⟩,
      Selector.isProper_mono agree proper.2⟩
  | .call callee arguments, proper => by
    simp only [Code.isProper, Bool.and_eq_true, decide_eq_true_eq] at proper ⊢
    exact ⟨by rw [agree callee (by simp [proper.1]), proper.1],
      Code.areProper_mono agree arguments proper.2⟩
  | .store _ container selector value, proper => by
    simp only [Code.isProper, Bool.and_eq_true] at proper ⊢
    obtain ⟨⟨⟨⟨inner, fit⟩, named⟩, stored⟩, storedFit⟩ := proper
    exact ⟨⟨⟨⟨Code.isProper_mono agree container inner, Code.isFit_mono agree _ fit⟩,
      Selector.isProper_mono agree named⟩, Code.isProper_mono agree value stored⟩,
      Code.isFit_mono agree _ storedFit⟩

theorem Code.areProper_mono (agree : known.Extends later) :
    (codes : List Code) → Code.areProper known codes → Code.areProper later codes
  | [], _ => rfl
  | code :: codes, proper => by
    simp only [Code.areProper, Bool.and_eq_true] at proper ⊢
    exact ⟨⟨Code.isProper_mono agree code proper.1.1, Code.isFit_mono agree _ proper.1.2⟩,
      Code.areProper_mono agree codes proper.2⟩

end

end Extension

end GuardedExpr
