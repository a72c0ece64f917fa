import GuardedExpr.Heap.Key

/-!
Equality of values. Numbers, texts and whatever has a key are equal if their keys are, lists, tuples and mappings if
they hold equal values. On containers that are inside themselves the question may have no end.
-/

namespace GuardedExpr.Heap

def allTrue : List (Option Bool) → Option Bool
  | [] => some true
  | some true :: answers => allTrue answers
  | answer :: _ => answer

def equalWithin (h : Heap) : Nat → Value → Value → Option Bool
  | 0, _, _ => none
  | depth + 1, v, w =>
    let items (us ws : List Value) :=
      if us.length = ws.length then allTrue ((us.zip ws).map fun pair => equalWithin h depth pair.1 pair.2)
      else some false
    if v = w then some true
    else match h.key? v, h.key? w with
      | some key, some other => some (key = other)
      | _, _ => match v, w with
        | .ref r, .ref s => match h.cell r, h.cell s with
          | .list us, .list ws => items us ws
          | .tuple us, .tuple ws => items us ws
          | .mapping _ entries, .mapping _ others =>
            if entries.length = others.length then
              allTrue (entries.map fun entry => match others.find? entry.1 with
                | some other => equalWithin h depth entry.2.2 other
                | none => some false)
            else some false
          | _, _ => some false
        | _, _ => some false

/-- Whether two values are equal. Pairs of containers that nest deeper than there are such pairs have come to one for
the second time. -/
def equal? (h : Heap) (v w : Value) : Option Bool :=
  h.equalWithin (h.size * h.size + 2) v w

end GuardedExpr.Heap
