import GuardedExpr.Proofs.Code.CompileVerdict
import GuardedExpr.Proofs.Heap.AlikeAnswers
import GuardedExpr.Proofs.Heap.DirectKinds
import GuardedExpr.Proofs.Heap.WrittenSpots
import GuardedExpr.Proofs.Route.ReturnedValues

/-!
Assignments to a path of which nothing is there. They make one object for the name and one for each field but the
last, each inside the one before. The name is looked up again after its object was put into the scope, so locals
that are the scope itself are in the way of their own creation.
-/

namespace GuardedExpr

def Entries.entry (name : Text) (value : Value) : Key × Value × Value :=
  ([.text name], .text name, value)

namespace Heap

variable {h g after : Heap} {r s : Ref} {v w value : Value} {name : Text} {kind : MappingKind} {entries : Entries}

def withCreated (h : Heap) (s : Ref) (kind : MappingKind) (entries : Entries) (name : Text) : Heap :=
  (h.alloc (.mapping .plain [])).2.put s (.mapping kind (entries.set [.text name] (.text name) (.ref h.size)))

private theorem set_of_absent {hashed : Key} (absent : Table.lookup hashed entries = none)
    (shown : Value) :
    entries.set hashed shown value = entries ++ [(hashed, shown, value)] := by
  induction entries with
  | nil => rfl
  | cons entry rest ih =>
    obtain ⟨other, member⟩ := entry
    by_cases same : hashed = other
    · simp [Table.lookup, same] at absent
    · have further : Table.lookup hashed rest = none := by simpa [Table.lookup, same] using absent
      simpa [Entries.set, Table.alter, same] using ih further

theorem getMember_of_own (content : h.cell r = .mapping kind entries) (name : Text) :
    h.getMember (.ref r) (.text name) = .ok (h.own (.ref r) name) := by
  rw [getMember_of_mapping content, own_of_mapping content]
  rfl

section Created

theorem size_withCreated (name : Text) : (h.withCreated s kind entries name).size = h.size + 1 := by
  rw [withCreated, size_put, size_alloc]

theorem cell_withCreated_old (name : Text) (inside : r < h.size) (apart : r ≠ s) :
    (h.withCreated s kind entries name).cell r = h.cell r := by
  rw [withCreated, cell_put_other _ _ apart, h.cell_alloc_old _ inside]

variable (content : h.cell s = .mapping kind entries)

include content

theorem cell_withCreated_same (name : Text) :
    (h.withCreated s kind entries name).cell s =
      .mapping kind (entries.set [.text name] (.text name) (.ref h.size)) := by
  refine cell_put_same _ _ ?_
  rw [size_alloc]
  exact (inside_of_mapping content).trans (Nat.lt_succ_self _)

theorem cell_withCreated_new (name : Text) : (h.withCreated s kind entries name).cell h.size = .mapping .plain [] := by
  rw [withCreated, cell_put_other _ _ (inside_of_mapping content).ne']
  exact h.cell_alloc_new _

theorem own_withCreated (name field : Text) :
    (h.withCreated s kind entries name).own (.ref s) field =
      if field = name then .ref h.size else ((Table.lookup [.text field] entries).map Prod.snd).getD .null := by
  rw [own_of_mapping (cell_withCreated_same content name), Entries.set]
  split
  · next same =>
    subst same
    rw [Table.lookup_alter_same]
    cases Table.lookup [KeyPart.text field] entries <;> rfl
  · next other => rw [Table.lookup_alter_other _ _ fun equal => other (by simpa using equal)]

theorem setMember_withCreated (writable : kind ≠ .readOnly) (name : Text) :
    (h.alloc (.mapping .plain [])).2.setMember (.ref s) (.text name) (.ref h.size) =
      .ok (h.withCreated s kind entries name) := by
  have old : (h.alloc (.mapping .plain [])).2.cell s = .mapping kind entries := by
    rw [h.cell_alloc_old _ (inside_of_mapping content), content]
  cases kind with
  | readOnly => exact absurd rfl writable
  | _ => simp only [setMember, old]; rfl

private theorem puts_withCreated (writable : kind ≠ .readOnly) (name : Text) :
    (h.alloc (.mapping .plain [])).2.Puts s (.ref h.size) (h.withCreated s kind entries name) := by
  refine puts_of_setMember ?_ (setMember_withCreated content writable name)
  rw [h.cell_alloc_old _ (inside_of_mapping content), content]
  simpa [Cell.isWritable] using writable

theorem isClosed_withCreated (closed : h.IsClosed) (writable : kind ≠ .readOnly) (name : Text) :
    (h.withCreated s kind entries name).IsClosed := by
  have closed : (h.alloc (.mapping .plain [])).2.IsClosed := closed.alloc rfl
  exact (closed.setMember rfl (by simp [Value.isBelow, size_alloc]) (setMember_withCreated content writable name)).1

end Created

structure SameAt (h g : Heap) (v : Value) : Prop where
  marked : g.markedKind? v = h.markedKind? v
  plain : g.plainKind v = h.plainKind v
  own : ∀ name, g.own v name = h.own v name

theorem sameAt_withCreated (content : h.cell s = .mapping kind entries) (writable : kind ≠ .readOnly)
    (closed : h.IsClosed) (below : v.isBelow h.size) (apart : v ≠ .ref s) (name : Text) :
    h.SameAt (h.withCreated s kind entries name) v := by
  have puts := puts_withCreated content writable name
  have cells (q : Ref) (same : v = .ref q) : (h.withCreated s kind entries name).cell q = h.cell q := by
    subst same
    exact cell_withCreated_old name (of_decide_eq_true below) fun equal => apart (equal ▸ rfl)
  refine ⟨?_, ?_, fun field => (puts.own apart field).trans ((h.grows_alloc _).own closed below field)⟩
  · cases v with
    | ref q => simp only [markedKind?, cells q rfl]
    | constructor c => cases c <;> rfl
    | _ => rfl
  · cases v with
    | ref q => simp only [plainKind, cells q rfl]
    | _ => rfl

namespace SameAt

theorem asks_iff (same : h.SameAt g v) : g.Asks v w ↔ h.Asks v w := by
  have own : g.own v = h.own v := funext same.own
  simp only [Asks, inquiries, same.marked, own]

/-- The guard of objects tells the same of it where both questions have an end. -/
theorem object (same : h.SameAt g v) (before : ¬ h.IsEndless v) (after : ¬ g.IsEndless v) :
    Guard.object g v = Guard.object h v := by
  have kinds : g.directKind v = h.directKind v := by
    simp only [directKind, same.marked, same.plain, same.own]
  simp only [Guard.object, classify, kind?_eq_directKind before, kind?_eq_directKind after, kinds]

end SameAt

section Empty

variable (empty : h.cell r = .mapping .plain [])

include empty

theorem own_of_empty (name : Text) : h.own (.ref r) name = .null := by
  simp [own, entries?, empty, Table.lookup]

theorem acc_of_empty : Acc (fun w v => h.Asks v w) (.ref r) := by
  constructor
  intro w asks
  obtain ⟨-, name, rfl⟩ := unmarked_of_asks asks
  rw [own_of_empty empty]
  exact acc_null

private theorem not_isEndless_of_empty : ¬ h.IsEndless (.ref r) :=
  not_isEndless_of_acc (acc_of_empty empty)

theorem object_of_empty : Guard.object h (.ref r) = .ok () := by
  have isMapping : h.directKind (.ref r) = .mapping := by
    simp [directKind, markedKind?, empty, Cell.mark?, own_of_empty empty, shape, Value.truth, plainKind]
  simp only [Guard.object, classify, kind?_eq_directKind (not_isEndless_of_empty empty), isMapping]
  rfl

theorem acc_created (name : Text) :
    Acc (fun w v => (h.withCreated r .plain [] name).Asks v w) (.ref r) := by
  constructor
  intro w asks
  obtain ⟨-, field, rfl⟩ := unmarked_of_asks asks
  rw [own_withCreated empty]
  split
  · exact acc_of_empty (cell_withCreated_new empty name)
  · exact acc_null

/-- A question that has an end still has one when something was put into an empty object. -/
theorem not_isEndless_withCreated (closed : h.IsClosed) (name : Text) (below : v.isBelow h.size)
    (ends : ¬ h.IsEndless v) : ¬ (h.withCreated r .plain [] name).IsEndless v := by
  apply not_isEndless_of_acc
  induction acc_iff.mpr ends with
  | intro v _ ih =>
    by_cases here : v = .ref r
    · rw [here]
      exact acc_created empty name
    · constructor
      intro w asks
      obtain ⟨-, field, asked⟩ := unmarked_of_asks asks
      have same := sameAt_withCreated empty (by decide) closed below here name
      refine ih w (same.asks_iff.mp asks) ?_ (fun endless => ends (endless.head (same.asks_iff.mp asks)))
      rw [asked, same.own]
      exact closed.own below field

end Empty

/-- From the first value, new objects with one entry each lead along the names to the last value. -/
inductive Chain (h : Heap) (old : Nat) : Value → List Text → Value → Prop where
  | nil {v : Value} : Chain h old v [] v
  | cons {r : Ref} {name : Text} {d v : Value} {names : List Text} (new : old ≤ r)
      (content : h.cell r = .mapping .plain [Entries.entry name d]) (rest : Chain h old d names v) :
      Chain h old (.ref r) (name :: names) v

/-- A chain goes on where something is put into the empty object at its end. -/
theorem Chain.snoc {old : Nat} {names : List Text} (chain : g.Chain old v names (.ref r)) (new : old ≤ r)
    (empty : g.cell r = .mapping .plain []) (others : ∀ q, old ≤ q → q < g.size → q ≠ r → after.cell q = g.cell q)
    (content : after.cell r = .mapping .plain [Entries.entry name w]) : after.Chain old v (names ++ [name]) w := by
  generalize ends : Value.ref r = last at chain
  induction chain with
  | nil =>
    subst ends
    exact .cons new content .nil
  | @cons q other d _ _ newer here _ ih =>
    have inside : q < g.size := inside_of_cell here nofun
    have apart : q ≠ r := by
      rintro rfl
      cases here.symm.trans empty
    exact .cons newer ((others q newer inside apart).trans here) (ih ends)

/-- A heap in which an assignment is making its path: the scope has one more entry, from which new objects lead
along the names to an empty one, and the value may still be assigned. -/
structure Making (h : Heap) (s : Ref) (kind : MappingKind) (entries : Entries) (name : Text) (value : Value) (g : Heap)
    (names : List Text) (r : Ref) : Prop where
  closed : g.IsClosed
  scope : g.cell s = .mapping kind (entries ++ [Entries.entry name (.ref h.size)])
  others : ∀ q, q < h.size → q ≠ s → g.cell q = h.cell q
  chain : g.Chain h.size (.ref h.size) names (.ref r)
  outside : h.size ≤ r
  inside : r < g.size
  empty : g.cell r = .mapping .plain []
  accepted : Guard.object g value = .ok ()

theorem Making.create {names : List Text} (making : h.Making s kind entries name value g names r) (inside : s < h.size)
    (below : value.isBelow h.size) (field : Text) :
    h.Making s kind entries name value (g.withCreated r .plain [] field) (names ++ [field]) g.size := by
  have grown : h.size < g.size := making.outside.trans_lt making.inside
  have old (q : Ref) (before : q < h.size) : (g.withCreated r .plain [] field).cell q = g.cell q :=
    cell_withCreated_old field (before.trans grown) (before.trans_le making.outside).ne
  have valueBelow : value.isBelow g.size := Value.isBelow_mono grown.le below
  have apart : value ≠ .ref r := by
    rintro rfl
    exact absurd (of_decide_eq_true below) (Nat.not_lt.mpr making.outside)
  have valueEnds : ¬ g.IsEndless value := fun endless =>
    nomatch (object_of_isEndless endless).symm.trans making.accepted
  exact {
    closed := isClosed_withCreated making.empty making.closed nofun field
    scope := (old s inside).trans making.scope
    others := fun q before apart => (old q before).trans (making.others q before apart)
    chain := making.chain.snoc making.outside making.empty
      (fun q _ inside apart => cell_withCreated_old field inside apart) (cell_withCreated_same making.empty field)
    outside := grown.le
    inside := by
      rw [size_withCreated]
      exact Nat.lt_succ_self _
    empty := cell_withCreated_new making.empty field
    accepted := by
      have same := sameAt_withCreated making.empty nofun making.closed valueBelow apart field
      rw [same.object valueEnds (not_isEndless_withCreated making.empty making.closed field valueBelow valueEnds)]
      exact making.accepted }

end Heap

namespace Reading

variable {h g after : Heap} {r s : Ref} {value locals : Value} {name field : Text} {kind : MappingKind}
  {entries : Entries} {names : List Text}

/-- What was made for a member of an object is found there, and may be referred to. -/
theorem run_created (content : g.cell r = .mapping .plain entries) (field : Text)
    (ends : ¬ (g.withCreated r .plain entries field).IsEndless (.ref r)) :
    (do if ← ask fun h => h.isTruthy (.ref r) then guarded (← ask fun h => h.getMember (.ref r) (.text field))
        else pure .null : Reading Value).run (g.withCreated r .plain entries field) =
      .ok (.ref g.size, g.withCreated r .plain entries field) := by
  have found : (ask fun h => h.getMember (.ref r) (.text field)).run (g.withCreated r .plain entries field) =
      .ok (.ref g.size, g.withCreated r .plain entries field) := by
    refine ask_eq_ok.mpr ⟨?_, rfl⟩
    rw [Heap.getMember_of_own (Heap.cell_withCreated_same content field), Heap.own_withCreated content, if_pos rfl]
  rw [bind_run_ok (run_isTruthy ends), if_pos (show (Value.ref r).truth = true from rfl), bind_run_ok found]
  exact guarded_eq_ok.mpr ⟨Heap.object_of_empty (Heap.cell_withCreated_new content field), rfl, rfl⟩

/-- Where a member of an object is false, a new empty object is put there. -/
theorem run_access_of_lacking (content : g.cell r = .mapping .plain entries)
    (lacks : (g.own (.ref r) field).truth = false)
    (ends : ¬ (g.withCreated r .plain entries field).IsEndless (.ref r)) :
    (access true (.ref r) (.text field)).run g = .ok (.ref g.size, g.withCreated r .plain entries field) := by
  have lacking : (isFalse (.ref r) (.text field)).run g = .ok (true, g) :=
    isFalse_eq_ok.mpr
      ⟨_, false, Heap.getMember_of_own content field, Value.isTruthy_eq_false_iff.mpr lacks, rfl, rfl⟩
  have created : (Reading.create (.ref r) (.text field)).run g = .ok ((), g.withCreated r .plain entries field) :=
    create_eq_ok.mpr (Heap.setMember_withCreated content (by decide) field)
  have supplied : (supply true (isFalse (.ref r) (.text field)) (.ref r) (.text field)).run g =
      .ok ((), g.withCreated r .plain entries field) := by
    rw [supply, if_pos rfl, bind_run_ok lacking, if_pos rfl, created]
  rw [access, bind_run_ok supplied]
  exact run_created content field ends

/-- A step to a field of an empty object puts a new empty object there. -/
theorem run_member_of_empty (safe : Guard.isSafeName field) (empty : g.cell r = .mapping .plain []) :
    (member true (.text field) (.ref r)).run g =
      .ok ((.ref r, .ref g.size), g.withCreated r .plain [] field) := by
  have checked : Guard.memberName (.text field) = .ok () := Guard.memberName_of_isSafeName safe
  have lacks : (g.own (.ref r) field).truth = false := by
    rw [Heap.own_of_empty empty]
    rfl
  have ends := Heap.not_isEndless_of_acc (Heap.acc_created empty field)
  rw [member_of_safe checked, StateT.run_map, run_access_of_lacking empty lacks ends]
  rfl

open Heap in
/-- Behind a name whose object has just been made, an assignment makes an object for each field. -/
theorem run_route_making (inside : s < h.size) (below : value.isBelow h.size)
    (named : (Reading.name true locals (.ref s) name).run h = .ok (.ref h.size, g))
    (making : h.Making s kind entries name value g [] h.size) (safe : ∀ field ∈ names, Guard.isSafeName field) :
    ∃ r after, (route true locals (.ref s) name (names.map .text)).run h = .ok (.ref r, after) ∧
      h.Making s kind entries name value after names r := by
  induction names using List.reverseRecOn with
  | nil => exact ⟨h.size, g, named, making⟩
  | append_singleton names field ih =>
    obtain ⟨r, middle, went, making⟩ := ih fun other there => safe other (List.mem_append_left _ there)
    have step := run_member_of_empty (safe field (by simp)) making.empty
    refine ⟨middle.size, _, ?_, making.create inside below field⟩
    rw [List.map_append, List.map_singleton, route_append, StateT.run_map, bind_run_ok went, step]
    rfl

open Heap in
private theorem run_assignMember_making (inside : s < h.size) (below : value.isBelow h.size)
    (named : (Reading.name true locals (.ref s) name).run h = .ok (.ref h.size, g))
    (making : h.Making s kind entries name value g [] h.size) (safe : ∀ other ∈ names, Guard.isSafeName other)
    (safeField : Guard.isSafeName field) :
    ∃ after, (assignMember locals (.ref s) name (names.map .text) (.text field) value).run h = .ok (value, after) ∧
      after.cell s = .mapping kind (entries ++ [Entries.entry name (.ref h.size)]) ∧
      after.Chain h.size (.ref h.size) (names ++ [field]) value ∧
      ∀ q, q < h.size → q ≠ s → after.cell q = h.cell q := by
  obtain ⟨r, middle, went, made⟩ := run_route_making inside below named making safe
  have step := run_member_of_empty safeField made.empty
  have further := made.create inside below field
  have content := Heap.cell_withCreated_same made.empty field
  have room : r < (middle.withCreated r .plain [] field).size := made.inside.trans further.inside
  have apart {q : Ref} (old : q < h.size) : q ≠ r := (old.trans_le made.outside).ne
  have written : (middle.withCreated r .plain [] field).setMember (.ref r) (.text field) value =
      .ok ((middle.withCreated r .plain [] field).put r (.mapping .plain [Entries.entry field value])) := by
    simp [setMember, content, key?, keyWithin, Entries.set, Table.alter, Entries.entry]
  have stored : (store (.ref r) (.text field) value).run (middle.withCreated r .plain [] field) =
      .ok (value, (middle.withCreated r .plain [] field).put r (.mapping .plain [Entries.entry field value])) :=
    store_eq_ok.mpr ⟨further.accepted, rfl, written⟩
  have reached : (route true locals (.ref s) name (names.map .text) >>= member true (.text field)).run h =
      .ok ((.ref r, .ref middle.size), middle.withCreated r .plain [] field) := by
    rw [bind_run_ok went, step]
  refine ⟨(middle.withCreated r .plain [] field).put r (.mapping .plain [Entries.entry field value]), ?_, ?_, ?_,
    fun q old other => ?_⟩
  · rw [assignMember, bind_run_ok reached, stored]
  · rw [cell_put_other _ _ (apart inside)]
    exact further.scope
  · refine made.chain.snoc made.outside made.empty (fun q _ inner other => ?_) (cell_put_same _ _ room)
    rw [cell_put_other _ _ other, cell_withCreated_old field inner other]
  · rw [cell_put_other _ _ (apart old)]
    exact further.others q old other

/-- Where a name is missing, its first step puts a new empty object into the scope, and then looks the name up
again. -/
theorem run_name_of_missing (content : h.cell s = .mapping kind entries) (writable : kind ≠ .readOnly)
    (absent : Table.lookup [.text name] entries = none) (unowned : h.isOwned locals name = false)
    (before : ∀ v ∈ [locals, .ref s], ¬ h.IsEndless v)
    (after : ∀ v ∈ [locals, .ref s], ¬ (h.withCreated s kind entries name).IsEndless v) :
    (Reading.name true locals (.ref s) name).run h =
      if (h.withCreated s kind entries name).isOwned locals name then .ok (.null, h.withCreated s kind entries name)
      else .ok (.ref h.size, h.withCreated s kind entries name) := by
  have scopeLacks : h.isOwned (.ref s) name = false := by
    simp [Heap.isOwned, Heap.owns, Heap.entries?, content, absent]
  have first : (ofLocals locals name).run h = .ok (.null, h) := by
    rw [run_ofLocals (before _ (by simp)), unowned]
    rfl
  have lacks : (lacksName locals (.ref s) name).run h = .ok (true, h) := by
    rw [run_lacksName (before _ (by simp)) (before _ (by simp)), unowned, scopeLacks]
    rfl
  have created : (Reading.create (.ref s) (.text name)).run h = .ok ((), h.withCreated s kind entries name) :=
    create_eq_ok.mpr (Heap.setMember_withCreated content writable name)
  have supplied : (supply true (lacksName locals (.ref s) name) (.ref s) (.text name)).run h =
      .ok ((), h.withCreated s kind entries name) := by
    rw [supply, if_pos rfl, bind_run_ok lacks, if_pos rfl, created]
  rw [Reading.name, bind_run_ok first, bind_run_ok supplied, StateT.run_bind,
    run_ofScope (after _ (by simp)) (after _ (by simp))]
  have passed (v : Value) (accepted : Guard.object (h.withCreated s kind entries name) v = .ok ()) :
      (guarded v).run (h.withCreated s kind entries name) = .ok (v, h.withCreated s kind entries name) :=
    guarded_eq_ok.mpr ⟨accepted, rfl, rfl⟩
  cases (h.withCreated s kind entries name).isOwned locals name with
  | true => exact passed .null rfl
  | false =>
    have found : (ask fun h => h.getMember (.ref s) (.text name)).run (h.withCreated s kind entries name) =
        .ok (.ref h.size, h.withCreated s kind entries name) := by
      refine ask_eq_ok.mpr ⟨?_, rfl⟩
      simp [Heap.getMember, Heap.entries?, Heap.cell_withCreated_same content, Heap.key?, Heap.keyWithin,
        Entries.find?, Entries.set, Table.lookup_alter_same, absent]
    rw [if_pos (show (!false && (Value.ref s).truth) = true from rfl), found]
    exact passed (.ref h.size) (Heap.object_of_empty (Heap.cell_withCreated_new content name))

open Heap in
/-- Assigning to a path of which nothing is there makes the path, unless the locals are the scope. -/
theorem run_assignMember_of_missing (closed : h.IsClosed) (content : h.cell s = .mapping kind entries)
    (writable : kind ≠ .readOnly) (absent : Table.lookup [.text name] entries = none)
    (unowned : h.isOwned locals name = false) (stillUnowned : (h.withCreated s kind entries name).isOwned locals name = false)
    (before : ∀ v ∈ [locals, .ref s], ¬ h.IsEndless v)
    (after : ∀ v ∈ [locals, .ref s], ¬ (h.withCreated s kind entries name).IsEndless v)
    (below : value.isBelow h.size) (accepted : Guard.object (h.withCreated s kind entries name) value = .ok ())
    (safe : ∀ other ∈ names, Guard.isSafeName other) (safeField : Guard.isSafeName field) :
    ∃ after, (assignMember locals (.ref s) name (names.map .text) (.text field) value).run h = .ok (value, after) ∧
      after.cell s = .mapping kind (entries ++ [Entries.entry name (.ref h.size)]) ∧
      after.Chain h.size (.ref h.size) (names ++ [field]) value ∧
      ∀ q, q < h.size → q ≠ s → after.cell q = h.cell q := by
  have named := run_name_of_missing content writable absent unowned before after
  rw [stillUnowned, if_neg Bool.false_ne_true] at named
  refine run_assignMember_making (inside_of_mapping content) below named ?_ safe safeField
  exact {
    closed := isClosed_withCreated content closed writable name
    scope := by
      rw [cell_withCreated_same content, set_of_absent absent]
      rfl
    others := fun q old other => cell_withCreated_old name old other
    chain := .nil
    outside := Nat.le_refl _
    inside := by
      rw [size_withCreated]
      exact Nat.lt_succ_self _
    empty := cell_withCreated_new content name
    accepted := accepted }

private theorem run_member_of_null (safe : Guard.isSafeName field) :
    (member true (.text field) .null).run g = .error (.unsettableProperty field.quoted (Text.of "null")) := by
  have checked : Guard.memberName (.text field) = .ok () := Guard.memberName_of_isSafeName safe
  have lacks : (isFalse .null (.text field)).run g = .ok (true, g) :=
    isFalse_eq_ok.mpr ⟨.null, false, rfl, rfl, rfl, rfl⟩
  have refused : (Reading.create .null (.text field)).run g =
      .error (.unsettableProperty field.quoted (Text.of "null")) := rfl
  have supplied : (supply true (isFalse .null (.text field)) .null (.text field)).run g =
      .error (.unsettableProperty field.quoted (Text.of "null")) := by
    rw [supply, if_pos rfl, bind_run_ok lacks, if_pos rfl, refused]
  rw [member_of_safe checked, StateT.run_map, access, bind_run_error supplied]
  rfl

private theorem run_foldl_of_error {reading : Reading Value} {failure : Error}
    (failed : reading.run h = .error failure)
    (create : Bool) (keys : List Value) :
    (keys.foldl (fun subject key => Prod.snd <$> (subject >>= member create key)) reading).run h =
      .error failure := by
  induction keys generalizing reading with
  | nil => exact failed
  | cons key keys ih =>
    refine ih ?_
    rw [StateT.run_map, bind_run_error failed]
    rfl

private theorem run_assignMember_of_null {first : Text}
    (named : (Reading.name true locals (.ref s) name).run h = .ok (.null, g))
    (safe : Guard.isSafeName first) (begins : (names ++ [field]).head? = some first) :
    (assignMember locals (.ref s) name (names.map .text) (.text field) value).run h =
      .error (.unsettableProperty first.quoted (Text.of "null")) := by
  have step : (Reading.name true locals (.ref s) name >>= member true (.text first)).run h =
      .error (.unsettableProperty first.quoted (Text.of "null")) := by
    rw [bind_run_ok named, run_member_of_null safe]
  cases names with
  | nil =>
    cases begins
    exact bind_run_error step
  | cons other names =>
    cases begins
    have stuck : (Prod.snd <$> (Reading.name true locals (.ref s) name >>= member true (.text first))).run h =
        .error (.unsettableProperty first.quoted (Text.of "null")) := by
      rw [StateT.run_map, step]
      rfl
    have went : (route true locals (.ref s) name ((first :: names).map .text)).run h =
        .error (.unsettableProperty first.quoted (Text.of "null")) :=
      run_foldl_of_error stuck true (names.map .text)
    exact bind_run_error (bind_run_error went)

end Reading

namespace Heap

variable {h : Heap} {s : Ref} {locals : Value} {name : Text} {kind : MappingKind} {entries : Entries}

def LacksName (h : Heap) (locals : Value) (name : Text) : Prop :=
  locals = .null ∨ ∃ r kind entries, locals = .ref r ∧ h.cell r = .mapping kind entries ∧
    Table.lookup [.text name] entries = none

theorem LacksName.isOwned (lacks : h.LacksName locals name) : h.isOwned locals name = false := by
  rcases lacks with rfl | ⟨r, kind, entries, rfl, content, absent⟩
  · rfl
  · simp [Heap.isOwned, owns, entries?, content, absent]

/-- Creating the name in the scope gives it to the locals just if they are the scope. -/
theorem isOwned_withCreated (content : h.cell s = .mapping kind entries) (lacks : h.LacksName locals name) :
    (h.withCreated s kind entries name).isOwned locals name = decide (locals = .ref s) := by
  rcases lacks with rfl | ⟨r, others, members, rfl, there, absent⟩
  · rfl
  · by_cases same : r = s
    · subst same
      simp [isOwned, owns, entries?, cell_withCreated_same content, Entries.set, Table.lookup_alter_same, Value.truth]
    · have cell : (h.withCreated s kind entries name).cell r = .mapping others members :=
        (cell_withCreated_old name (inside_of_mapping there) same).trans there
      simp [isOwned, owns, entries?, cell, absent, same]

end Heap

namespace Node

private theorem verdict_route {name : Text} {fields : List Text}
    (safe : ∀ other ∈ name :: fields, Guard.isSafeName other) :
    (route name (fields.map .field)).verdict = .ok () := by
  induction fields using List.reverseRecOn with
  | nil =>
    have named := safe name (by simp)
    simp [route, verdict, checkedName, Guard.memberName, named]
  | append_singleton fields field ih =>
    have last := safe field (by simp)
    have before := ih fun other there => safe other (by
      rcases List.mem_cons.mp there with rfl | there
      · exact List.mem_cons_self
      · exact List.mem_cons_of_mem _ (List.mem_append_left _ there))
    rw [List.map_append, List.map_singleton, route_append]
    simp only [Segment.onto, verdict, before]
    simp [fieldVerdict, memberName, checkedName, Guard.memberName, last, bind, Except.bind]

end Node

namespace Evaluator

variable {σ : Type} {heap : Heap} {name first : Text} {more : List Text} {s : Ref} {kind : MappingKind}
  {entries : Entries} {locals value : Value}

/-- An assignment to a path of fields behind a name that neither the scope nor the locals have. Unless the locals
are the scope itself, it makes the whole path: the scope has one more entry, from which new objects with one entry
each lead to the value, and nothing else that was there has changed. The new entry of the scope must not make the
scope or the locals endless, nor the value one that may not be referred to, which it can only do where the value is
the scope or leads to it. Where the locals are the scope, the object that was just put into it is taken for a local
that stands for null, and the assignment fails at the first field. -/
theorem assign_makes_path (compiling : Heap) (text : Text)
    (safe : ∀ other ∈ name :: first :: more, Guard.isSafeName other) (host : Host σ) (closed : heap.IsClosed)
    (content : heap.cell s = .mapping kind entries) (writable : kind ≠ .readOnly)
    (absent : Table.lookup [.text name] entries = none) (lacks : heap.LacksName locals name)
    (below : value.isBelow heap.size) (accepted : Guard.object heap value = .ok ())
    (before : ∀ v ∈ [locals, .ref s], ¬ heap.IsEndless v)
    (after : ∀ v ∈ [locals, .ref s, value], ¬ (heap.withCreated s kind entries name).IsEndless v) (world : σ) :
    ∃ evaluator, ofTree compiling (.program (.route name ((first :: more).map .field))) text = .ok evaluator ∧
      let ended := evaluator.outcome host (.assign value) locals (.ref s) heap world
      (locals ≠ .ref s → (value = .ref s → Guard.object (heap.withCreated s kind entries name) value = .ok ()) →
        ended.1 = .ok value ∧
        ended.2.heap.cell s = .mapping kind (entries ++ [Entries.entry name (.ref heap.size)]) ∧
        ended.2.heap.Chain heap.size (.ref heap.size) (first :: more) value ∧
        ∀ q, q < heap.size → q ≠ s → ended.2.heap.cell q = heap.cell q) ∧
      (locals = .ref s → ended.1 = .error (.unsettableProperty first.quoted (Text.of "null"))) := by
  obtain ⟨evaluator, made⟩ :=
    ((Node.verdict_route safe) ▸ reports_ofTree compiling (.route name ((first :: more).map .field)) text).exists_ok
  obtain ⟨names, field, split⟩ : ∃ names field, first :: more = names ++ [field] :=
    ⟨_, _, (List.dropLast_append_getLast (List.cons_ne_nil first more)).symm⟩
  refine ⟨evaluator, made, ?_⟩
  rw [split, List.map_append, List.map_singleton] at made
  have does := does_assign_route made host locals (.ref s) value
  rw [List.map_map] at does
  have stays := Heap.isOwned_withCreated content lacks
  have scopesEnd : ∀ v ∈ [locals, .ref s], ¬ (heap.withCreated s kind entries name).IsEndless v :=
    fun v there => after v (by simp only [List.mem_cons] at there ⊢; tauto)
  refine ⟨fun distinct unlessScope => ?_, fun same => ?_⟩
  · have still : Guard.object (heap.withCreated s kind entries name) value = .ok () := by
      by_cases isScope : value = .ref s
      · exact unlessScope isScope
      · have same := Heap.sameAt_withCreated content writable closed below isScope name
        have ends : ¬ heap.IsEndless value := fun endless =>
          nomatch (Heap.object_of_isEndless endless).symm.trans accepted
        rw [same.object ends (after value (by simp)), accepted]
    rw [decide_eq_false distinct] at stays
    have safeAll : ∀ other ∈ names ++ [field], Guard.isSafeName other := split ▸ fun other there =>
      safe other (List.mem_cons_of_mem _ there)
    obtain ⟨last, read, facts⟩ := Reading.run_assignMember_of_missing closed content writable absent lacks.isOwned
      stays before scopesEnd below still (fun other there => safeAll other (List.mem_append_left _ there))
      (safeAll field (by simp))
    obtain ⟨value_, heap_⟩ := does.ok (m := ⟨heap, world, []⟩) read
    rw [split]
    exact ⟨value_, heap_ ▸ facts⟩
  · rw [decide_eq_true same] at stays
    have named := Reading.run_name_of_missing content writable absent lacks.isOwned before scopesEnd
    rw [stays, if_pos rfl] at named
    have begins : (names ++ [field]).head? = some first := by
      rw [← split]
      rfl
    exact does.error (m := ⟨heap, world, []⟩)
      (Reading.run_assignMember_of_null named (safe first (by simp)) begins)

/-- A path of two fields behind a new name, with locals beside the scope and an object as the value. -/
theorem assign_makes_path_of_two_fields :
    let heap : Heap := ⟨#[.mapping .plain (named [("x", .int 5)]), .mapping .plain [], .mapping .plain []]⟩
    let entries : Entries := named [("x", .int 5)]
    (∀ other ∈ [Text.of "a", Text.of "b", Text.of "c"], Guard.isSafeName other) ∧ heap.IsClosed ∧
      heap.cell 0 = .mapping .plain entries ∧ MappingKind.plain ≠ .readOnly ∧
      Table.lookup [.text (Text.of "a")] entries = none ∧ heap.LacksName (.ref 1) (Text.of "a") ∧
      (Value.ref 2).isBelow heap.size ∧ Guard.object heap (.ref 2) = .ok () ∧
      (∀ v ∈ [Value.ref 1, .ref 0], ¬ heap.IsEndless v) ∧
      (∀ v ∈ [Value.ref 1, .ref 0, .ref 2], ¬ (heap.withCreated 0 .plain entries (Text.of "a")).IsEndless v) ∧
      ∃ evaluator, ofTree Heap.empty (.program (.route (Text.of "a")
          ([Text.of "b", Text.of "c"].map .field))) (Text.of "a.b.c") = .ok evaluator ∧
        let ended := evaluator.outcome (Host.standard 1) (.assign (.ref 2)) (.ref 1) (.ref 0) heap .start
        ended.1 = .ok (.ref 2) ∧
        ended.2.heap.cell 0 = .mapping .plain (entries ++ [Entries.entry (Text.of "a") (.ref 3)]) ∧
        ended.2.heap.Chain 3 (.ref 3) [Text.of "b", Text.of "c"] (.ref 2) ∧
        ∀ q, q < 3 → q ≠ 0 → ended.2.heap.cell q = heap.cell q := by
  intro heap entries
  have safe : ∀ other ∈ [Text.of "a", Text.of "b", Text.of "c"], Guard.isSafeName other := by decide +kernel
  have closed : heap.IsClosed := by decide +kernel
  have absent : Table.lookup [.text (Text.of "a")] entries = none := by decide +kernel
  have lacks : heap.LacksName (.ref 1) (Text.of "a") := .inr ⟨1, .plain, [], rfl, rfl, rfl⟩
  have accepted : Guard.object heap (.ref 2) = .ok () := by decide +kernel
  have acyclic : heap.HasNoCycle := Heap.hasNoCycle_of_later (by decide +kernel)
  have stillAcyclic : (heap.withCreated 0 .plain entries (Text.of "a")).HasNoCycle :=
    Heap.hasNoCycle_of_later (by decide +kernel)
  have before : ∀ v ∈ [Value.ref 1, .ref 0], ¬ heap.IsEndless v := fun v _ => acyclic.not_isEndless v
  have after : ∀ v ∈ [Value.ref 1, .ref 0, .ref 2],
      ¬ (heap.withCreated 0 .plain entries (Text.of "a")).IsEndless v := fun v _ => stillAcyclic.not_isEndless v
  obtain ⟨evaluator, made, makes, -⟩ := assign_makes_path Heap.empty (Text.of "a.b.c") safe (Host.standard 1) closed
    (rfl : heap.cell 0 = .mapping .plain entries) nofun absent lacks rfl accepted before after .start
  exact ⟨safe, closed, rfl, nofun, absent, lacks, rfl, accepted, before, after, evaluator, made,
    makes (by decide) (fun same => nomatch same)⟩

/-- With an empty scope that is the locals as well, `a.b` cannot be assigned. -/
theorem assign_fails_in_scope_as_locals :
    let heap : Heap := ⟨#[.mapping .plain []]⟩
    ∃ evaluator, ofTree Heap.empty (.program (.route (Text.of "a") [.field (Text.of "b")])) (Text.of "a.b") =
        .ok evaluator ∧
      heap.LacksName (.ref 0) (Text.of "a") ∧ Guard.object heap (.int 1) = .ok () ∧
      (evaluator.outcome (Host.standard 1) (.assign (.int 1)) (.ref 0) (.ref 0) heap .start).1 ≠ .ok (.int 1) := by
  intro heap
  have ran : (ofTree Heap.empty (.program (.route (Text.of "a") [.field (Text.of "b")])) (Text.of "a.b")).toOption.any
      fun evaluator => decide ((evaluator.outcome (Host.standard 1) (.assign (.int 1)) (.ref 0) (.ref 0) heap
        .start).1 ≠ .ok (.int 1)) := by
    decide +kernel
  obtain ⟨evaluator, made, ran⟩ := exists_eq_ok ran
  have lacks : heap.LacksName (.ref 0) (Text.of "a") := .inr ⟨0, .plain, [], rfl, rfl, rfl⟩
  exact ⟨evaluator, made, lacks, by decide +kernel, of_decide_eq_true ran⟩

end Evaluator

end GuardedExpr
