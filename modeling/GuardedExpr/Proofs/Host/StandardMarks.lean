import GuardedExpr.Host.Standard
import GuardedExpr.Proofs.Heap.KeptMarks
import GuardedExpr.Proofs.Run.RunsWithin

/-!
The standard host leaves every container what it is. Its own functions only write to containers that they
have looked at, and the evaluations that they start keep marks because a less deeply nested host does.
-/

namespace GuardedExpr

theorem Host.KeepsMarks.permits {σ : Type} {host : Host σ} (keeps : host.KeepsMarks) :
    host.Permits fun first last => first.heap.Keeps last.heap where
  refl m := Heap.Keeps.refl m.heap
  trans first second := first.trans second
  note m _ := Heap.Keeps.refl m.heap
  alloc m cell := Heap.keeps_alloc m.heap cell
  write _ _ _ _ _ written := Heap.keeps_of_setMember written
  call m callee arguments := keeps callee arguments m.heap m.world

namespace StandardHost

variable {heap : Heap} {world : World} {r : Ref} {items arguments : List Value}

private theorem keeps_increment : heap.Keeps (increment heap world r arguments).2.1 := by
  unfold increment
  split
  · next cls fields found =>
    apply Heap.keeps_put found
    cases cls <;> rfl
  · exact Heap.Keeps.refl heap

private theorem keeps_answer (found : Answer) : heap.Keeps (answer heap world found).2.1 := by
  cases found with
  | list | tuple => exact Heap.keeps_alloc heap _
  | _ => exact Heap.Keeps.refl heap

theorem keeps_answerTurn (turn : Turn) : heap.Keeps (answerTurn heap world turn).2.1 := by
  unfold answerTurn
  split
  · exact Heap.Keeps.refl heap
  · exact Heap.keeps_alloc heap _

private theorem keeps_callMethod (method : Method) :
    heap.Keeps (callMethod heap world arguments method).2.1 := by
  cases method with
  | increment counter => exact keeps_increment
  | ofList list name =>
    simp only [callMethod]
    split
    · next isList =>
      split
      · next turn _ =>
        have put : heap.Keeps (heap.put list (.list turn.items)) := Heap.keeps_put isList rfl
        exact put.trans (keeps_answerTurn turn)
      · exact Heap.Keeps.refl heap
    · exact Heap.Keeps.refl heap
  | ofTuple tuple name =>
    simp only [callMethod]
    split
    · split
      · exact keeps_answerTurn _
      · exact Heap.Keeps.refl heap
    · exact Heap.Keeps.refl heap
  | ofScalar scalar name =>
    simp only [callMethod]
    split
    · exact keeps_answer _
    · exact Heap.Keeps.refl heap

private theorem keeps_construct (constructor : Constructor) :
    heap.Keeps (construct heap world arguments constructor).2.1 := by
  cases constructor with
  | ofObjects =>
    simp only [construct]
    split
    · exact Heap.keeps_alloc heap _
    · exact Heap.Keeps.refl heap
  | ofMappings =>
    simp only [construct]
    split
    · exact Heap.keeps_alloc heap _
    · exact Heap.Keeps.refl heap
  | _ => exact Heap.Keeps.refl heap

private theorem keeps_of_putRegistered {key value : Value} {target : Text} {after : Heap}
    (done : putRegistered heap world key value target = .ok after) : heap.Keeps after := by
  unfold putRegistered at done
  split at done
  · split at done
    · cases done
    · next kind entries _ found =>
      split at done
      · cases done
        apply Heap.keeps_put found
        cases kind <;> rfl
      · cases done
    · cases done
  · cases done

section Nested

variable {host : Host World} (keeps : host.KeepsMarks)

include keeps

private theorem keeps_evaluateFor (source : Text) (marks : Nat) (scope : Text) :
    heap.Keeps (evaluateFor host heap world arguments source marks scope).2.1 := by
  have prepared (cell : Cell) :=
    (Heap.keeps_alloc heap (.list arguments)).trans (Heap.keeps_alloc _ cell)
  unfold evaluateFor
  dsimp only
  split
  · exact prepared _
  · next evaluator _ =>
    exact (prepared _).trans
      ((evaluator.routine.staysWithin_run keeps.permits _ _ .null).last ⟨_, world, []⟩)

private theorem keeps_callFunction {name : Text} {behaviour : Behaviour} {fields : Fields}
    (isFunction : heap.cell r = .function name behaviour fields) :
    heap.Keeps (callFunction host heap world r arguments name behaviour fields).2.1 := by
  unfold callFunction
  cases behaviour with
  | collect => exact Heap.keeps_alloc heap _
  | fresh => exact Heap.keeps_alloc heap _
  | sequence container next => exact Heap.keeps_put isFunction rfl
  | put key value target =>
    dsimp only
    split
    · next done => exact keeps_of_putRegistered done
    · exact Heap.Keeps.refl heap
  | evaluate source marks scope => exact keeps_evaluateFor keeps source marks scope
  | _ => exact Heap.Keeps.refl heap

theorem keeps_invoke (callee : Value) :
    heap.Keeps (invoke host callee arguments heap world).2.1 := by
  unfold invoke
  split
  · split
    · next isFunction => exact keeps_callFunction keeps isFunction
    · split
      · exact Heap.keeps_alloc heap _
      · exact Heap.Keeps.refl heap
    · exact Heap.Keeps.refl heap
  · split
    · split <;> exact Heap.Keeps.refl heap
    · exact Heap.Keeps.refl heap
  · exact keeps_construct _
  · exact keeps_callMethod _
  · exact Heap.Keeps.refl heap

private theorem keeps_makeFromKeys (keys : Value) :
    heap.Keeps (makeFromKeys host heap world keys).2.1 := by
  have asked : heap.Keeps (invoke host keys [] heap world).2.1 := keeps_invoke keeps keys
  unfold makeFromKeys
  split
  · next found =>
    rw [found] at asked
    split
    · exact asked.trans (Heap.keeps_alloc _ _)
    · exact asked
  · exact asked

private theorem keeps_call (callee : Value) :
    heap.Keeps (call host callee arguments heap world).2.1 := by
  unfold call
  split
  · split
    · exact keeps_invoke keeps _
    · split
      · exact keeps_makeFromKeys keeps _
      · exact keeps_invoke keeps _
      · exact Heap.Keeps.refl heap
  · exact keeps_invoke keeps _

end Nested

end StandardHost

/-- However deep its evaluations may nest, the standard host leaves every container what it is. -/
theorem Host.keepsMarks_standard (depth : Nat) : (Host.standard depth).KeepsMarks := by
  induction depth with
  | zero => exact fun _ _ heap _ => Heap.Keeps.refl heap
  | succ depth hypothesis => exact fun callee _ _ _ => StandardHost.keeps_call hypothesis callee

end GuardedExpr
