import GuardedExpr.Proofs.Run.CompiledMeaning

/-!
What the statements of names and members do to the heap. They only read it, and put new empty objects into it
where that is asked for; so they can be read as computations on the heap alone, which know neither slots nor
code.
-/

namespace GuardedExpr

variable {σ α β : Type} {host : Host σ} {frame : Frame} {locals scope : Value}

namespace Reading

def create (container key : Value) : Reading Unit := fun h => do
  let (r, made) := h.alloc (.mapping .plain [])
  return ((), ← made.setMember container key (.ref r))

def write (container key value : Value) : Reading Unit := fun h => do
  return ((), ← h.setMember container key value)

def guarded (value : Value) : Reading Value := do
  ask fun h => Guard.object h value
  return value

def ofLocals (locals : Value) (name : Text) : Reading Value := do
  if ← ask fun h => h.hasMember locals name then ask fun h => h.getMember locals (.text name) else pure .null

def lacksName (locals scope : Value) (name : Text) : Reading Bool := do
  if ← ask fun h => h.hasMember locals name then return false
  else if ← ask fun h => h.isTruthy scope then return !(← ask fun h => h.hasMember scope name)
  else return false

def isFalse (container key : Value) : Reading Bool := do
  let found ← ask fun h => h.getMember container key
  return !(← ask fun h => h.isTruthy found)

def supply (create : Bool) (lacking : Reading Bool) (container key : Value) : Reading Unit :=
  if create then do if ← lacking then Reading.create container key
  else pure ()

def isFree (locals scope : Value) (name : Text) : Reading Bool := do
  if ← ask fun h => h.hasMember locals name then return false else ask fun h => h.isTruthy scope

def ofScope (locals scope : Value) (name : Text) (otherwise : Value) : Reading Value := do
  if ← isFree locals scope name then ask fun h => h.getMember scope (.text name) else pure otherwise

def name (create : Bool) (locals scope : Value) (name : Text) : Reading Value := do
  let first ← ofLocals locals name
  supply create (lacksName locals scope name) scope (.text name)
  guarded (← ofScope locals scope name first)

def access (create : Bool) (container key : Value) : Reading Value := do
  supply create (isFalse container key) container key
  if ← ask fun h => h.isTruthy container then guarded (← ask fun h => h.getMember container key)
  else pure .null

def supplyAnew (create : Bool) (lacking : Reading Bool) (subject : Reading Value) (key : Value) : Reading Unit :=
  if create then do if ← lacking then subject >>= fun container => Reading.create container key
  else pure ()

def accessAnew (create : Bool) (subject : Reading Value) (key : Value) : Reading Value := do
  supplyAnew create (subject >>= fun container => isFalse container key) subject key
  if ← subject >>= fun container => ask fun h => h.isTruthy container then
    subject >>= fun container => ask (fun h => h.getMember container key) >>= guarded
  else pure .null

theorem supplyAnew_pure (create : Bool) (lacking : Reading Bool) (container key : Value) :
    supplyAnew create lacking (pure container) key = supply create lacking container key := by
  simp only [supplyAnew, supply, pure_bind]

theorem accessAnew_pure (create : Bool) (container key : Value) :
    accessAnew create (pure container) key = access create container key := by
  simp only [accessAnew, access, pure_bind, supplyAnew_pure]

def member (create : Bool) (key container : Value) : Reading (Value × Value) := do
  ask fun _ => Guard.memberName key
  return (container, ← access create container key)

def owner (locals scope : Value) (name : Text) : Reading Value := do
  if ← ask fun h => h.hasMember locals name then return locals else return scope

def store (container key value : Value) : Reading Value := do
  let stored ← guarded value
  write container key stored
  return stored

section Inversion

variable {h after : Heap} {γ : Type} {answer : γ}

theorem bind_eq_ok {reading : Reading α} {next : α → Reading γ} :
    (reading >>= next).run h = .ok (answer, after) ↔
      ∃ found middle, reading.run h = .ok (found, middle) ∧ (next found).run middle = .ok (answer, after) := by
  cases read : reading.run h with
  | ok pair =>
    obtain ⟨found, middle⟩ := pair
    rw [bind_run_ok read]
    constructor
    · exact fun rest => ⟨found, middle, rfl, rest⟩
    · rintro ⟨_, _, ⟨⟩, rest⟩
      exact rest
  | error failure =>
    rw [bind_run_error read]
    simp

theorem pure_eq_ok {value : γ} : (pure value : Reading γ).run h = .ok (answer, after) ↔ answer = value ∧ after = h := by
  constructor
  · intro same
    cases same
    exact ⟨rfl, rfl⟩
  · rintro ⟨rfl, rfl⟩
    rfl

theorem ask_eq_ok {question : Heap → Except Error γ} :
    (ask question).run h = .ok (answer, after) ↔ question h = .ok answer ∧ after = h := by
  rw [ask_run]
  cases question h with
  | ok found =>
    constructor
    · intro same
      cases same
      exact ⟨rfl, rfl⟩
    · rintro ⟨⟨⟩, rfl⟩
      rfl
  | error failure => exact ⟨nofun, fun both => nomatch both.1⟩

theorem write_eq_ok {container key value : Value} {done : Unit} :
    (write container key value).run h = .ok (done, after) ↔ h.setMember container key value = .ok after := by
  change (do return ((), ← h.setMember container key value) : Except Error (Unit × Heap)) = _ ↔ _
  cases h.setMember container key value with
  | ok written =>
    constructor
    · intro same
      cases same
      rfl
    · rintro ⟨⟩
      rfl
  | error failure => exact ⟨nofun, nofun⟩

theorem create_eq_ok {container key : Value} {done : Unit} :
    (create container key).run h = .ok (done, after) ↔
      (h.alloc (.mapping .plain [])).2.setMember container key (.ref h.size) = .ok after :=
  write_eq_ok

theorem guarded_eq_ok {value found : Value} :
    (guarded value).run h = .ok (found, after) ↔ Guard.object h value = .ok () ∧ found = value ∧ after = h := by
  simp only [guarded, bind_eq_ok, ask_eq_ok, pure_eq_ok]
  constructor
  · rintro ⟨⟨⟩, _, ⟨passed, rfl⟩, rfl, rfl⟩
    exact ⟨passed, rfl, rfl⟩
  · rintro ⟨passed, rfl, rfl⟩
    exact ⟨(), _, ⟨passed, rfl⟩, rfl, rfl⟩

theorem map_eq_ok {reading : Reading α} {f : α → γ} :
    (f <$> reading).run h = .ok (answer, after) ↔
      ∃ found, reading.run h = .ok (found, after) ∧ answer = f found := by
  rw [map_eq_pure_bind, bind_eq_ok]
  constructor
  · rintro ⟨found, _, read, last⟩
    obtain ⟨rfl, rfl⟩ := pure_eq_ok.mp last
    exact ⟨found, read, rfl⟩
  · rintro ⟨found, read, rfl⟩
    exact ⟨found, _, read, rfl⟩

theorem supply_cases {lacking : Reading Bool} {container key : Value} {done : Unit}
    (read : (supply true lacking container key).run h = .ok (done, after)) :
    ∃ lacks middle, lacking.run h = .ok (lacks, middle) ∧
      (lacks = false ∧ after = middle ∨ lacks = true ∧
        (middle.alloc (.mapping .plain [])).2.setMember container key (.ref middle.size) = .ok after) := by
  obtain ⟨lacks, middle, asked, rest⟩ := bind_eq_ok.mp read
  refine ⟨lacks, middle, asked, ?_⟩
  cases lacks with
  | false => exact .inl ⟨rfl, (pure_eq_ok.mp rest).2⟩
  | true => exact .inr ⟨rfl, create_eq_ok.mp rest⟩

end Inversion

end Reading

namespace Run

def Does (part : Run σ α) (reading : Reading β) (related : α → β → Prop) : Prop :=
  ∀ m : Machine σ, part.Leads m
    (fun found last => ∃ value, reading.run m.heap = .ok (value, last.heap) ∧ related found value)
    fun failure _ => reading.run m.heap = .error failure

variable {γ δ : Type} {related : α → β → Prop} {further : γ → δ → Prop}

theorem does_pure {found : α} {value : β} (holds : related found value) :
    (pure found : Run σ α).Does (pure value) related :=
  fun _ => ⟨value, rfl, holds⟩

theorem does_bind {part : Run σ α} {next : α → Run σ γ} {reading : Reading β} {rest : β → Reading δ}
    (first : part.Does reading related)
    (later : ∀ found value, related found value → (next found).Does (rest value) further) :
    (part >>= next).Does (reading >>= rest) further := by
  intro m
  refine (leads_bind part next).mpr ((first m).mono ?_ ?_)
  · rintro found last ⟨value, read, holds⟩
    rw [Reading.bind_run_ok read]
    exact later found value holds last
  · intro failure last failed
    exact Reading.bind_run_error failed

theorem does_bind_same {part : Run σ α} {next : α → Run σ γ} {reading : Reading α} {rest : α → Reading δ}
    (first : part.Does reading Eq) (later : ∀ value, (next value).Does (rest value) further) :
    (part >>= next).Does (reading >>= rest) further :=
  does_bind first fun _ value same => same ▸ later value

/-- A part that only hands on a value makes no difference. -/
theorem does_bind_pure {part : Run σ α} {next : α → Run σ γ} {value : α} {rest : Reading δ}
    (first : part.Does (pure value) Eq) (later : (next value).Does rest further) :
    (part >>= next).Does rest further := by
  intro m
  refine (leads_bind part next).mpr ((first m).mono ?_ nofun)
  rintro found last ⟨_, read, rfl⟩
  obtain ⟨rfl, same⟩ := Prod.mk.inj (Except.ok.inj read)
  rw [same]
  exact later last

theorem Does.mono {part : Run σ α} {reading : Reading β} {weaker : α → β → Prop}
    (does : part.Does reading related) (implies : ∀ found value, related found value → weaker found value) :
    part.Does reading weaker :=
  fun m => (does m).imp fun found _ ⟨value, read, holds⟩ => ⟨value, read, implies found value holds⟩

theorem Does.map {part : Run σ α} {reading : Reading β} {weaker : α → δ → Prop} {f : β → δ}
    (does : part.Does reading related) (implies : ∀ found value, related found value → weaker found (f value)) :
    part.Does (f <$> reading) weaker := by
  have all : (part >>= pure).Does (reading >>= fun value => pure (f value)) weaker :=
    does_bind does fun found value holds => does_pure (implies found value holds)
  rwa [bind_pure, ← map_eq_pure_bind] at all

theorem Does.read_of_ok {part : Run σ α} {reading : Reading α} (does : part.Does reading Eq) {m : Machine σ}
    {value : α} (ended : (part.run.run m).1 = .ok value) :
    reading.run m.heap = .ok (value, (part.run.run m).2.heap) := by
  obtain ⟨_, read, rfl⟩ := (leads_iff.mp (does m)).1 value ended
  exact read

theorem Does.ok {part : Run σ α} {reading : Reading α} (does : part.Does reading Eq) {m : Machine σ} {value : α}
    {after : Heap} (read : reading.run m.heap = .ok (value, after)) :
    (part.run.run m).1 = .ok value ∧ (part.run.run m).2.heap = after := by
  cases ended : (part.run.run m).1 with
  | ok found =>
    have same := (does.read_of_ok ended).symm.trans read
    cases same
    exact ⟨rfl, rfl⟩
  | error failure =>
    have failed := (leads_iff.mp (does m)).2 failure ended
    cases failed.symm.trans read

theorem Does.error {part : Run σ α} {reading : Reading α} (does : part.Does reading Eq) {m : Machine σ}
    {failure : Error} (read : reading.run m.heap = .error failure) : (part.run.run m).1 = .error failure := by
  cases ended : (part.run.run m).1 with
  | ok found => cases (does.read_of_ok ended).symm.trans read
  | error other =>
    cases ((leads_iff.mp (does m)).2 other ended).symm.trans read
    rfl

theorem does_ask (question : Heap → Except Error α) : (ask question : Run σ α).Does (Reading.ask question) Eq := by
  intro m
  refine (leads_ask question).mpr ⟨fun value found => ⟨value, ?_, rfl⟩, fun failure failed => ?_⟩
  · rw [Reading.ask_run, found]
    rfl
  · rw [Reading.ask_run, failed]
    rfl

theorem does_answer (outcome : Except Error α) :
    (answer outcome : Run σ α).Does (Reading.ask fun _ => outcome) Eq :=
  does_ask fun _ => outcome

theorem does_record (event : Event) {rest : Reading β} {part : Run σ α} (does : part.Does rest related) :
    (record event >>= fun _ => part).Does rest related :=
  fun m => (leads_bind _ _).mpr ((leads_record event).mpr (does (m.note event)))

theorem does_has (container : Value) (name : Text) :
    (has container name : Run σ Bool).Does (Reading.ask fun h => h.hasMember container name) Eq := by
  intro m
  refine (leads_has container name).mpr ⟨fun value found => ⟨value, ?_, rfl⟩, fun failure failed => ?_⟩
  · rw [Reading.ask_run, found]
    rfl
  · rw [Reading.ask_run, failed]
    rfl

theorem does_read (container : Value) (selector : Selector) (key : Value) :
    (read container selector key : Run σ Value).Does (Reading.ask fun h => h.getMember container key) Eq := by
  intro m
  refine (leads_read container selector key).mpr ⟨fun value found => ⟨value, ?_, rfl⟩, fun failure failed => ?_⟩
  · rw [Reading.ask_run, found]
    rfl
  · rw [Reading.ask_run, failed]
    rfl

theorem does_write (event : Event) (container key value : Value) :
    (write event container key value : Run σ Unit).Does (Reading.write container key value) Eq := by
  intro m
  refine (leads_write event container key value).mpr
    ⟨fun heap written => ⟨(), ?_, rfl⟩, fun failure refused => ?_⟩
  · show (do return ((), ← m.heap.setMember container key value) : Except Error (Unit × Heap)) = _
    rw [written]
    rfl
  · show (do return ((), ← m.heap.setMember container key value) : Except Error (Unit × Heap)) = _
    rw [refused]
    rfl

theorem does_create (container : Value) (selector : Selector) (key : Value) :
    (create container selector key : Run σ Unit).Does (Reading.create container key) Eq :=
  fun m => does_write (.created container selector key (.ref m.heap.size)) container key (.ref m.heap.size)
    { m with heap := (m.heap.alloc (.mapping .plain [])).2 }

theorem does_guarded (value : Value) :
    (guarded value : Run σ Value).Does (Reading.guarded value) fun found passed =>
      found = value ∧ passed = value :=
  does_bind (does_ask fun h => Guard.object h value) fun _ _ _ => does_pure ⟨rfl, rfl⟩

end Run

open Run

theorem Frame.does_slot {slot : Nat} {value : Value} (held : frame.slots[slot]? = some value) :
    (frame.slot slot : Run σ Value).Does (pure value) Eq := by
  unfold Frame.slot
  rw [held]
  exact does_pure rfl

theorem Frame.does_setSlot {slot : Nat} (room : slot < frame.slots.length) (value : Value) :
    (frame.setSlot slot value : Run σ Frame).Does (pure value) fun after value => after = frame.fill slot value :=
  fun _ => (leads_setSlot room).mpr ⟨value, rfl, rfl⟩

private theorem Frame.fill_fill (frame : Frame) (slot : Nat) (first second : Value) :
    (frame.fill slot first).fill slot second = frame.fill slot second := by
  simp [fill]

section Names

variable {slot : Nat} {name : Text}

abbrev Frame.Filled (frame : Frame) (slot : Nat) (after : Frame) (value : Value) : Prop :=
  after = frame.fill slot value

theorem Statement.does_alone {statement : Statement} {reading : Reading β} {related : Frame → β → Prop}
    (does : (statement.run host frame).Does reading related) :
    (Statement.runAll host frame [statement]).Does reading related := by
  have all : (Statement.runAll host frame [statement]).Does (reading >>= pure) related :=
    does_bind does fun _ _ holds => does_pure holds
  rwa [bind_pure] at all

theorem Statement.does_guardedBy {conditions : List Condition} {code : Code} {holds : Reading Bool}
    {reading : Reading Value} {otherwise : Value}
    (room : slot < frame.slots.length) (held : frame.slots[slot]? = some otherwise)
    (asked : (Condition.runAll host frame conditions).Does holds Eq)
    (read : (code.run host frame).Does reading Eq) :
    ((Statement.guardedBy conditions (.assign slot code)).run host frame).Does
      (do if ← holds then reading else pure otherwise) (frame.Filled slot) := by
  refine does_bind_same asked fun hold => ?_
  cases hold with
  | true =>
    rw [if_pos rfl, ← bind_pure reading]
    exact does_bind_same read (Frame.does_setSlot room)
  | false => exact does_pure (Frame.fill_self held).symm

theorem Statement.does_create {conditions : List Condition} {container : Code} {selector : Selector}
    {subject : Reading Value} {key : Value} {holds : Reading Bool}
    (asked : (Condition.runAll host frame conditions).Does holds Eq)
    (found : (container.run host frame).Does subject Eq)
    (keyed : (selector.key frame : Run σ Value).Does (pure key) Eq) :
    ((Statement.guardedBy conditions (.create container selector)).run host frame).Does
      (do if ← holds then subject >>= fun made => Reading.create made key) fun after _ => after = frame := by
  refine does_bind_same asked fun hold => ?_
  cases hold with
  | true =>
    refine does_bind_pure keyed ?_
    rw [if_pos rfl]
    refine does_bind_same found fun made => ?_
    rw [← bind_pure (Reading.create made key)]
    exact does_bind (Run.does_create made selector key) fun _ _ _ => does_pure rfl
  | false => exact does_pure rfl

/-- The statement that creates a lacking member is there only where that is asked for. -/
theorem Statement.does_supplyAnew {conditions : List Condition} {container : Code} {selector : Selector}
    {subject : Reading Value} {key : Value} {lacking : Reading Bool} (create : Bool)
    (asked : (Condition.runAll host frame conditions).Does lacking Eq)
    (found : (container.run host frame).Does subject Eq)
    (keyed : (selector.key frame : Run σ Value).Does (pure key) Eq) :
    (Statement.runAll host frame (if create then [.guardedBy conditions (.create container selector)] else [])).Does
      (Reading.supplyAnew create lacking subject key) fun after _ => after = frame := by
  cases create with
  | false => exact does_pure rfl
  | true => exact Statement.does_alone (Statement.does_create asked found keyed)

theorem Condition.does_no {question : Question} {conditions : List Condition} {reading rest : Reading Bool}
    (asked : (question.run host frame).Does reading Eq)
    (others : (Condition.runAll host frame conditions).Does rest Eq) :
    (Condition.runAll host frame (question.no :: conditions)).Does
      (do if ← reading then return false else rest) Eq := by
  simp only [Condition.runAll, Condition.run, bind_assoc, pure_bind]
  refine does_bind_same asked fun answer => ?_
  cases answer with
  | true => exact does_pure rfl
  | false => exact others

theorem Condition.does_yes {question : Question} {conditions : List Condition} {reading rest : Reading Bool}
    (asked : (question.run host frame).Does reading Eq)
    (others : (Condition.runAll host frame conditions).Does rest Eq) :
    (Condition.runAll host frame (question.yes :: conditions)).Does
      (do if ← reading then rest else return false) Eq := by
  simp only [Condition.runAll, Condition.run, bind_assoc, pure_bind]
  refine does_bind_same asked fun answer => ?_
  cases answer with
  | true => exact others
  | false => exact does_pure rfl

theorem Condition.does_alone {question : Question} {reading : Reading Bool}
    (asked : (question.run host frame).Does reading Eq) :
    (Condition.runAll host frame [question.yes]).Does reading Eq := by
  have none : (Condition.runAll host frame []).Does (pure true) Eq := does_pure rfl
  have all := Condition.does_yes asked none
  have same : (do if ← reading then pure true else return false) = reading := by
    conv_rhs => rw [← bind_pure reading]
    exact bind_congr fun answer => by cases answer <;> rfl
  rwa [same] at all

theorem Condition.does_denied {question : Question} {reading : Reading Bool}
    (asked : (question.run host frame).Does reading Eq) :
    (Condition.runAll host frame [question.no]).Does (do return !(← reading)) Eq := by
  have none : (Condition.runAll host frame []).Does (pure true) Eq := does_pure rfl
  have all := Condition.does_no asked none
  have same : (do if ← reading then return false else pure true : Reading Bool) = do return !(← reading) :=
    bind_congr fun answer => by cases answer <;> rfl
  rwa [same] at all

private theorem Code.does_member {container : Code} {selector : Selector} {subject : Reading Value}
    {key : Value}
    (found : (container.run host frame).Does subject Eq)
    (keyed : (selector.key frame : Run σ Value).Does (pure key) Eq) :
    ((Code.member container selector).run host frame).Does
      (subject >>= fun made => Reading.ask fun h => h.getMember made key) Eq :=
  does_bind_same found fun made => does_bind_pure keyed (does_read made selector key)

private theorem Statement.does_checkObject {value : Value}
    (held : frame.slots[slot]? = some value) :
    ((Statement.checkObject (.slot slot)).run host frame).Does (Reading.guarded value) fun after passed =>
      after = frame ∧ passed = value := by
  rw [← bind_pure (Reading.guarded value)]
  exact does_bind_pure (Frame.does_slot held)
    (does_bind (does_guarded value) fun _ _ passed => does_pure ⟨rfl, passed.2⟩)

theorem does_resolution (create : Bool) (room : slot < frame.slots.length)
    (null : frame.slots[slot]? = some .null) :
    (Statement.runAll host frame (resolution name create slot)).Does
      (Reading.name create frame.locals frame.scope name) (frame.Filled slot) := by
  have filled (value : Value) : (frame.fill slot value).slots[slot]? = some value := by simp [Frame.fill, room]
  have first : ((Statement.guardedBy [(Question.has .locals name).yes]
      (.assign slot (.member .locals (.name name)))).run host frame).Does
      (Reading.ofLocals frame.locals name) (frame.Filled slot) :=
    Statement.does_guardedBy room null
      (Condition.does_alone (does_has frame.locals name))
      (does_bind_pure (does_pure rfl) (does_bind_pure (does_pure rfl) (does_read _ _ _)))
  have supplied (value : Value) : (Statement.runAll host (frame.fill slot value) (if create then
      [.guardedBy [(Question.has .locals name).no, (Question.holds .scope).yes, (Question.has .scope name).no]
        (.create .scope (.name name))] else [])).Does
      (Reading.supply create (Reading.lacksName frame.locals frame.scope name) frame.scope (.text name))
      fun after _ => after = frame.fill slot value := by
    rw [← Reading.supplyAnew_pure]
    exact Statement.does_supplyAnew create
      (Condition.does_no (does_has frame.locals name)
        (Condition.does_yes (does_ask fun h => h.isTruthy frame.scope)
          (Condition.does_denied (does_has frame.scope name))))
      (does_pure rfl) (does_pure rfl)
  have found (value : Value) : ((Statement.guardedBy [(Question.has .locals name).no, (Question.holds .scope).yes]
      (.assign slot (.member .scope (.name name)))).run host (frame.fill slot value)).Does
      (Reading.ofScope frame.locals frame.scope name value) ((frame.fill slot value).Filled slot) :=
    Statement.does_guardedBy (by simpa [Frame.fill] using room) (filled value)
      (Condition.does_no (does_has frame.locals name) (Condition.does_alone (does_ask fun h => h.isTruthy frame.scope)))
      (does_bind_pure (does_pure rfl) (does_bind_pure (does_pure rfl) (does_read _ _ _)))
  simp only [resolution, Statement.runAll_append, bind_assoc]
  refine does_bind (Statement.does_alone first) ?_
  rintro _ value rfl
  refine does_bind (supplied value) ?_
  rintro _ _ rfl
  refine does_bind (found value) ?_
  rintro _ last rfl
  rw [Frame.fill_fill]
  refine (Statement.does_alone (Statement.does_checkObject (filled last))).mono ?_
  rintro _ _ ⟨rfl, rfl⟩
  rfl

theorem does_accessAnew {container : Code} {selector : Selector} {subject : Reading Value} {key : Value} (create : Bool)
    (found : (container.run host frame).Does subject Eq)
    (keyed : (selector.key frame : Run σ Value).Does (pure key) Eq) (room : slot < frame.slots.length)
    (null : frame.slots[slot]? = some .null) :
    (Statement.runAll host frame (access container selector create slot)).Does
      (Reading.accessAnew create subject key) (frame.Filled slot) := by
  have target := Code.does_member found keyed
  have lacking : (Condition.runAll host frame [(Question.holds (.member container selector)).no]).Does
      (subject >>= fun made => Reading.isFalse made key) Eq := by
    have asked : ((Question.holds (.member container selector)).run host frame).Does
        ((subject >>= fun made => Reading.ask fun h => h.getMember made key) >>= fun found =>
          Reading.ask fun h => h.isTruthy found) Eq :=
      does_bind_same target fun value => does_ask fun h => h.isTruthy value
    simpa only [Reading.isFalse, bind_assoc] using Condition.does_denied asked
  have read : ((Code.guarded (.member container selector)).run host frame).Does
      (subject >>= fun made => Reading.ask (fun h => h.getMember made key) >>= Reading.guarded) Eq := by
    have all : ((Code.guarded (.member container selector)).run host frame).Does
        ((subject >>= fun made => Reading.ask fun h => h.getMember made key) >>= Reading.guarded) Eq :=
      does_bind_same target fun value => (does_guarded value).mono fun _ _ both => both.1.trans both.2.symm
    rwa [bind_assoc] at all
  rw [access, Statement.runAll_append]
  refine does_bind (Statement.does_supplyAnew create lacking found keyed) ?_
  rintro _ _ rfl
  exact Statement.does_alone (Statement.does_guardedBy room null
    (Condition.does_alone (does_bind_same found fun made => does_ask fun h => h.isTruthy made)) read)

theorem does_access {container : Code} {selector : Selector} {subject key : Value} (create : Bool)
    (found : (container.run host frame).Does (pure subject) Eq)
    (keyed : (selector.key frame : Run σ Value).Does (pure key) Eq) (room : slot < frame.slots.length)
    (null : frame.slots[slot]? = some .null) :
    (Statement.runAll host frame (access container selector create slot)).Does
      (Reading.access create subject key) (frame.Filled slot) := by
  rw [← Reading.accessAnew_pure]
  exact does_accessAnew create found keyed room null

end Names

end GuardedExpr
