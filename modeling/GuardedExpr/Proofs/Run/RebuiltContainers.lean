import GuardedExpr.Proofs.Heap.WrittenSpots
import GuardedExpr.Proofs.Run.WritingSteps

/-!
Containers that are made anew. The code of a container is run once to ask for a member, and again to write it. Where
it is an array or object written in the expression, these are two containers; but they differ at most in which
arrays and objects they hold, and so what is false in one is false in the other.
-/

namespace GuardedExpr

variable {σ : Type} {setting : Setting σ} {journal : List Event} {h g : Heap}

inductive Code.Gathers (setting : Setting σ) (journal : List Event) :
    List (Value × Text) → List Code → Entries → Prop where
  | nil : Gathers setting journal [] [] []
  | cons {key : Value × Text} {keys : List (Value × Text)} {code : Code} {codes : List Code} {hashed : Key}
      {value : Value} {members : Entries} (scalar : key.1.isScalar)
      (hashes : ∀ h : Heap, h.key? key.1 = some hashed) (denotes : code.Denotes setting journal value)
      (rest : Gathers setting journal keys codes members) :
      Gathers setting journal (key :: keys) (code :: codes) ((hashed, key.1, value) :: members)

theorem Code.Gathers.later {keys : List (Value × Text)} {codes : List Code} {members : Entries} {past : List Event}
    (gathers : Gathers setting past keys codes members) (same : Event.SameSlots past journal) :
    Gathers setting journal keys codes members := by
  induction gathers with
  | nil => exact .nil
  | cons scalar hashes denotes _ ih => exact .cons scalar hashes (denotes.later same) ih

def Heap.Shows (h : Heap) (setting : Setting σ) (journal : List Event) : Code → Value → Prop
  | .array items, v => ∃ r values, v = .ref r ∧ h.cell r = .list values ∧
      List.Forall₂ (Code.Denotes setting journal) items values
  | .object keys codes, v => ∃ r members, v = .ref r ∧ h.cell r = .mapping .plain (members.setAll []) ∧
      Code.Gathers setting journal keys codes members
  | code, v => code.Denotes setting journal v

theorem Heap.Shows.denotes {code : Code} {v : Value} (shows : h.Shows setting journal code v) :
    code.Denotes setting journal v := by
  cases code with
  | array items =>
    obtain ⟨r, _, same, _⟩ := shows
    exact ⟨r, same⟩
  | object keys codes =>
    obtain ⟨r, _, same, _⟩ := shows
    exact ⟨r, same⟩
  | _ => exact shows

namespace Code

open Run

variable {frame : Frame}

mutual

theorem leads_shows : (code : Code) → code.isPlain → ∀ {m : Machine σ}, frame.Matches setting m.journal →
    (code.run setting.host frame).Leads m
      (fun v last => m.Goes setting last ∧ last.heap.Shows setting m.journal code v)
      fun _ last => m.Goes setting last
  | .locals, _, _, matching => ⟨Machine.goes_refl _ _, matching.locals⟩
  | .scope, _, _, matching => ⟨Machine.goes_refl _ _, matching.scope⟩
  | .slot index, _, m, matching =>
    (Frame.leads_slot_held matching index).mono
      (fun _ _ reached => ⟨reached.1 ▸ Machine.goes_refl setting m, reached.2⟩)
      fun _ _ same => same ▸ Machine.goes_refl setting m
  | .literal _ _, _, _, _ => ⟨Machine.goes_refl _ _, rfl⟩
  | .array items, plain, m, matching => by
    refine leads_bind_goes (leads_denoteAll items plain matching) fun values middle went denote => ?_
    refine ⟨⟨.tail (.single (.note rfl)) (.alloc rfl), fun _ => rfl⟩, _, values, rfl,
      Heap.cell_alloc_new _ _, denote⟩
  | .object keys values, plain, m, matching => by
    obtain ⟨front, each⟩ := Bool.and_eq_true_iff.mp plain
    obtain ⟨scalars, length⟩ := Bool.and_eq_true_iff.mp front
    refine leads_bind_goes
      (leads_gathers keys values [] scalars (beq_iff_eq.mp length) each matching) fun entries middle went gathers => ?_
    obtain ⟨members, gathers, rfl⟩ := gathers
    exact ⟨⟨.single (.alloc rfl), fun _ => rfl⟩, _, members, rfl, Heap.cell_alloc_new _ _, gathers⟩

theorem leads_denoteAll : (codes : List Code) → arePlain codes → ∀ {m : Machine σ}, frame.Matches setting m.journal →
    (runAll setting.host frame codes).Leads m
      (fun values last => m.Goes setting last ∧ List.Forall₂ (Denotes setting m.journal) codes values)
      fun _ last => m.Goes setting last
  | [], _, m, _ => ⟨Machine.goes_refl _ m, .nil⟩
  | code :: codes, plain, m, matching => by
    obtain ⟨head, tail⟩ := Bool.and_eq_true_iff.mp plain
    refine leads_bind_goes (leads_shows code head matching) fun value middle went shows => ?_
    refine leads_bind_goes (leads_denoteAll codes tail (matching.goes went)) fun values last further denote => ?_
    refine ⟨Machine.goes_refl _ last, .cons shows.denotes (denote.imp fun code value denotes => ?_)⟩
    exact denotes.later fun slot => (went.slots slot).symm

theorem leads_gathers : (keys : List (Value × Text)) → (codes : List Code) → (entries : Entries) →
    keys.all (·.1.isScalar) → keys.length = codes.length → arePlain codes → ∀ {m : Machine σ},
    frame.Matches setting m.journal →
    (runEntries setting.host frame keys codes entries).Leads m
      (fun made last => m.Goes setting last ∧
        ∃ members, Gathers setting m.journal keys codes members ∧ made = members.setAll entries)
      fun _ last => m.Goes setting last
  | [], [], entries, _, _, _, m, _ => ⟨Machine.goes_refl _ m, [], .nil, rfl⟩
  | key :: keys, code :: codes, entries, scalars, length, plain, m, matching => by
    obtain ⟨scalar, others⟩ := Bool.and_eq_true_iff.mp scalars
    obtain ⟨head, tail⟩ := Bool.and_eq_true_iff.mp plain
    obtain ⟨hashed, hashes, -⟩ := Heap.key?_of_isScalar scalar
    refine leads_bind_goes (leads_shows code head matching) fun value middle went shows => ?_
    rw [Run.leads_bind, Run.leads_record, Run.leads_bind, Run.leads_get]
    simp only [hashes]
    have noted : middle.Goes setting (middle.note (.built [value])) := Machine.goes_note rfl fun _ => rfl
    have step := went.trans noted
    refine (leads_gathers keys codes _ others (Nat.succ.inj length) tail (matching.goes step)).mono ?_
      fun _ _ further => noted.trans further
    rintro made last ⟨further, members, gathers, rfl⟩
    refine ⟨noted.trans further, (hashed, key.1, value) :: members, ?_, rfl⟩
    exact .cons scalar hashes shows.denotes (gathers.later fun slot => (step.slots slot).symm)

end

end Code

def Value.IsTwin (v w : Value) : Prop :=
  v = w ∨ ∃ r s, v = .ref r ∧ w = .ref s

def Key.isWritten : Key → Bool
  | [.null] | [.int _] | [.float _] | [.text _] => true
  | _ => false

variable {v w key member : Value} {code : Code}

theorem Code.Denotes.twin (plain : code.isPlain) (first : code.Denotes setting journal v)
    (second : code.Denotes setting journal w) : v.IsTwin w := by
  cases code with
  | array items =>
    obtain ⟨r, rfl⟩ := first
    obtain ⟨s, rfl⟩ := second
    exact .inr ⟨r, s, rfl, rfl⟩
  | object keys codes =>
    obtain ⟨r, rfl⟩ := first
    obtain ⟨s, rfl⟩ := second
    exact .inr ⟨r, s, rfl, rfl⟩
  | locals | scope | slot index | literal value shown => exact .inl (Eq.trans first (Eq.symm second))
  | _ => cases plain

theorem Value.IsTwin.eq_of_falsy (twin : v.IsTwin w) (falsy : v.truth = false) : w = v := by
  rcases twin with rfl | ⟨r, s, rfl, rfl⟩
  · rfl
  · cases falsy

namespace Heap

def IsGap (h : Heap) (container key : Value) : Prop :=
  ∃ member, h.getMember container key = .ok member ∧ h.isTruthy member = .ok false

variable {r s : Ref}

theorem isGap_of_truth (present : h.getMember v key = .ok member) (falsy : member.truth = false) : h.IsGap v key :=
  ⟨member, present, Value.isTruthy_eq_false_iff.mpr falsy⟩

private theorem truth_namedMember_of_list {items others : List Value} (one : h.cell r = .list items)
    (other : g.cell s = .list others) :
    (g.namedMember (.ref s) key).truth = (h.namedMember (.ref r) key).truth := by
  unfold namedMember
  split
  · simp only [attribute?, fields?, inherited?, one, other, Option.bind_none]
    split_ifs <;> rfl
  · rfl

private theorem IsGap.of_lists {items others : List Value} (gap : h.IsGap (.ref r) key)
    (one : h.cell r = .list items)
    (other : g.cell s = .list others) (each : List.Forall₂ Value.IsTwin items others) : g.IsGap (.ref s) key := by
  obtain ⟨member, present, falsy⟩ := gap
  rw [Value.isTruthy_eq_false_iff] at falsy
  rw [getMember_of_list one, positionedMember, bind_eq_ok] at present
  obtain ⟨position, found, present⟩ := present
  cases position with
  | some position =>
    cases present
    have reads : g.getMember (.ref s) key = .ok (itemAt others id position) := by
      rw [getMember_of_list other, positionedMember, found]
      rfl
    refine isGap_of_truth reads ?_
    rw [(itemAt_related (.inl rfl) each position).eq_of_falsy falsy]
    exact falsy
  | none =>
    have reads : g.getMember (.ref s) key = if key.plain = .text (Text.of "length") then .ok (.int others.length)
        else .ok (g.namedMember (.ref s) key) := by
      rw [getMember_of_list other, positionedMember, found]
      simp only [bind, Except.bind, pure, Except.pure]
    dsimp only at present
    split at present
    · next length =>
      cases present
      rw [if_pos length, ← each.length_eq] at reads
      exact isGap_of_truth reads falsy
    · next noLength =>
      cases present
      rw [if_neg noLength] at reads
      exact isGap_of_truth reads ((truth_namedMember_of_list one other).trans falsy)

private theorem not_isWritten_key_of_ref {hashed : Key} (found : h.key? (.ref r) = some hashed) :
    hashed.isWritten = false := by
  simp only [key?, keyWithin] at found
  split at found
  · cases found
  · cases found
  · simp only [Option.bind_eq_bind, Option.bind_eq_some_iff] at found
    obtain ⟨keys, -, same⟩ := found
    cases same
    rfl
  · cases found
    rfl

private theorem isWritten_key_of_scalar {hashed : Key} (scalar : v.isScalar)
    (found : h.key? v = some hashed) :
    hashed.isWritten := by
  cases v with
  | float x =>
    cases found
    simp only [Double.keyPart]
    split <;> rfl
  | null | bool | int | text =>
    cases found
    rfl
  | _ => cases scalar

/-- A mapping has a gap where another one, with written keys and twins for values, has one. -/
theorem IsGap.of_mappings {entries others : Entries} (gap : h.IsGap (.ref r) key)
    (one : h.cell r = .mapping .plain entries) (other : g.cell s = .mapping .plain others)
    (paired : PairedEntries Value.IsTwin entries others) (written : ∀ entry ∈ others, entry.1.isWritten) :
    g.IsGap (.ref s) key := by
  obtain ⟨member, present, falsy⟩ := gap
  rw [Value.isTruthy_eq_false_iff] at falsy
  rw [getMember_of_mapping one] at present
  cases present
  refine isGap_of_truth (getMember_of_mapping other) ?_
  cases hashes : g.key? key with
  | none => rfl
  | some hashed =>
    rw [Option.bind_some, Entries.find?]
    by_cases isRef : ∃ t, key = .ref t
    · obtain ⟨t, rfl⟩ := isRef
      cases looked : Table.lookup hashed others with
      | none => rfl
      | some entry =>
        have is := written _ (Table.mem_of_lookup looked)
        rw [not_isWritten_key_of_ref hashes] at is
        cases is
    · -- What is no container has the same key in both heaps.
      have same : h.key? key = some hashed := by
        rw [← hashes]
        cases key with
        | ref t => exact absurd ⟨t, rfl⟩ isRef
        | _ => rfl
      rw [same, Option.bind_some, Entries.find?] at falsy
      rw [(related_of_lookup (.inl rfl) (lookup_paired paired hashed)).eq_of_falsy falsy]
      exact falsy

end Heap

theorem Code.Gathers.paired {keys : List (Value × Text)} {codes : List Code} {members others : Entries}
    (plain : Code.arePlain codes) (first : Gathers setting journal keys codes members)
    (second : Gathers setting journal keys codes others) : Heap.PairedEntries Value.IsTwin members others := by
  induction first generalizing others with
  | nil =>
    cases second
    exact .nil
  | cons _ hashes denotes _ ih =>
    cases second with
    | cons _ again likewise rest =>
      obtain ⟨head, tail⟩ := Bool.and_eq_true_iff.mp plain
      cases (hashes Heap.empty).symm.trans (again Heap.empty)
      exact .cons ⟨⟨rfl, rfl⟩, denotes.twin head likewise⟩ (ih tail rest)

theorem Code.Gathers.written {keys : List (Value × Text)} {codes : List Code} {members : Entries}
    (gathers : Gathers setting journal keys codes members) : ∀ member ∈ members, member.1.isWritten := by
  induction gathers with
  | nil => exact fun _ inside => nomatch inside
  | cons scalar hashes _ _ ih =>
    exact List.forall_mem_cons.mpr ⟨Heap.isWritten_key_of_scalar scalar (hashes Heap.empty), ih⟩

private theorem denotes_twins {items : List Code} {values others : List Value}
    (plain : Code.arePlain items)
    (first : List.Forall₂ (Code.Denotes setting journal) items values)
    (second : List.Forall₂ (Code.Denotes setting journal) items others) :
    List.Forall₂ Value.IsTwin values others := by
  induction first generalizing others with
  | nil =>
    cases second
    exact .nil
  | cons denotes _ ih =>
    cases second with
    | cons likewise rest =>
      obtain ⟨head, tail⟩ := Bool.and_eq_true_iff.mp plain
      exact .cons (denotes.twin head likewise) (ih tail rest)

namespace Code

def isFixed : Code → Bool
  | .array _ | .object _ _ => false
  | _ => true

/-- Where the container that code gives first has a gap, the one that it gives later has it. -/
theorem gap_of_shows (plain : code.isPlain) (first : h.Shows setting journal code v)
    (second : g.Shows setting journal code w) (still : code.isFixed → g = h) (gap : h.IsGap v key) :
    g.IsGap w key := by
  cases code with
  | array items =>
    obtain ⟨r, values, rfl, one, each⟩ := first
    obtain ⟨s, others, rfl, other, also⟩ := second
    exact gap.of_lists one other (denotes_twins plain each also)
  | object keys codes =>
    obtain ⟨r, members, rfl, one, gathers⟩ := first
    obtain ⟨s, others, rfl, other, also⟩ := second
    have each := (Bool.and_eq_true_iff.mp plain).2
    exact gap.of_mappings one other (Heap.paired_setAll (gathers.paired each also) .nil)
      (Entries.keys_setAll (P := fun k => k.isWritten) (fun _ inside => nomatch inside) also.written)
  | locals | scope | slot | literal =>
    cases still rfl
    cases (Eq.trans first (Eq.symm second) : v = w)
    exact gap
  | _ => cases plain

variable {frame : Frame} {m : Machine σ}

private theorem leads_same (host : Host σ) (plain : code.isPlain) (fixed : code.isFixed) :
    (code.run host frame).Leads m (fun _ last => last = m) fun _ last => last = m := by
  cases code with
  | slot index => exact Frame.leads_slot.mpr ⟨fun _ _ => rfl, fun _ => rfl⟩
  | locals | scope | literal => exact rfl
  | array | object => cases fixed
  | _ => cases plain

end Code

theorem Heap.Shows.later {past : List Event} (shows : h.Shows setting past code v)
    (same : Event.SameSlots past journal) : h.Shows setting journal code v := by
  cases code with
  | array items =>
    obtain ⟨r, values, equal, one, each⟩ := shows
    exact ⟨r, values, equal, one, each.imp fun _ _ denotes => denotes.later same⟩
  | object keys codes =>
    obtain ⟨r, members, equal, one, gathers⟩ := shows
    exact ⟨r, members, equal, one, gathers.later same⟩
  | _ => exact shows.denotes.later same

open Run

variable {frame : Frame} {m : Machine σ}

theorem Code.leads_rebuilds (plain : code.isPlain) (matching : frame.Matches setting m.journal) :
    (code.run setting.host frame).Leads m
      (fun v last => m.Goes setting last ∧
        (last.heap.Shows setting m.journal code v ∧ (code.isFixed → last = m)))
      fun _ last => m.Goes setting last := by
  cases fixed : code.isFixed with
  | true =>
    refine ((leads_shows code plain matching).and (leads_same setting.host plain fixed)).mono ?_ ?_
    · rintro v last ⟨⟨went, shows⟩, same⟩
      exact ⟨went, shows, fun _ => same⟩
    · exact fun _ _ both => both.1
  | false => exact (leads_shows code plain matching).imp fun v last ⟨went, shows⟩ => ⟨went, shows, nofun⟩

/-- Where a member is found false, it is found false in the container that the same code gives next. -/
theorem Question.leads_gap (matching : frame.Matches setting m.journal) (plain : code.isPlain) (selector : Selector) :
    ((Question.holds (.member code selector)).run setting.host frame).Leads m
      (fun holds last => m.Goes setting last ∧ (holds = false →
        (code.run setting.host frame).Leads last
          (fun subject after => last.Goes setting after ∧ (code.Denotes setting last.journal subject ∧
            after.heap.IsGap subject (selector.denoted last.journal)))
          fun _ after => last.Goes setting after))
      fun _ last => m.Goes setting last := by
  unfold Question.run
  simp only [Code.run, bind_assoc]
  refine leads_bind_goes (Code.leads_rebuilds plain matching) fun subject middle went shown => ?_
  have here := matching.goes went
  refine (leads_bind _ _).mpr ((selector.leads_denoted here).mono ?_ fun _ _ same => same ▸ Machine.goes_refl setting middle)
  rintro key later ⟨same, rfl⟩
  rw [same]
  have noted (event : Event) (other : event.deed? = none)
      (slots : Event.SameSlots middle.journal (event :: middle.journal)) : middle.Goes setting (middle.note event) :=
    Machine.goes_note other slots
  refine (leads_bind _ _).mpr ((leads_read _ _ _).mpr
    ⟨fun member present => ?_, fun _ _ => noted _ rfl fun _ => rfl⟩)
  have step := noted (.read subject selector (selector.denoted middle.journal)
    (middle.heap.getMember subject (selector.denoted middle.journal)).toOption) rfl fun _ => rfl
  refine (leads_ask _).mpr ⟨fun holds answered => ⟨step, fun denied => ?_⟩, fun _ _ => step⟩
  have gap : middle.heap.IsGap subject (selector.denoted middle.journal) := ⟨member, present, denied ▸ answered⟩
  refine (Code.leads_rebuilds plain (here.goes step)).imp ?_
  rintro again last ⟨further, shows, still⟩
  refine ⟨further, shows.denotes, ?_⟩
  rw [selector.denoted_later step.slots]
  have heap (fixed : code.isFixed) : last.heap = middle.heap := by
    rw [still fixed]
    rfl
  exact Code.gap_of_shows plain (shown.1.later (went.trans step).slots) shows heap gap

end GuardedExpr
