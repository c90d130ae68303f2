import Bytecode.Proofs.Execution.Machine
/-!
# What no operation changes

Whatever an operation does and however it ends, a final field that has its value keeps it, and a class that is initialized
stays initialized. Only an operation that ends a block jumps, and only one that can throw raises an exception. The cases of
one operation are read off lemmas on the few ways in which operations go on: with an object, with an initialized class,
with a stored memory or with code that is not known.
-/

namespace Bytecode.Execution

open LoadElimination (Scope)

variable {Datum Address World : Type}

namespace Memory

variable {isFinal : FieldId → Bool} {memory later last other : Memory Datum Address}

/-- Final fields that have their value keep it, and initialized classes stay so. -/
structure KeepsSettled (isFinal : FieldId → Bool) (memory later : Memory Datum Address) : Prop where
  instanceField : ∀ address field, isFinal field = true → memory.settledInstance address field = true →
    later.instanceField address field = memory.instanceField address field
  settledInstance : ∀ address field, memory.settledInstance address field = true →
    later.settledInstance address field = true
  staticField : ∀ field, isFinal field = true → memory.settledStatic field = true →
    later.staticField field = memory.staticField field
  settledStatic : ∀ field, memory.settledStatic field = true → later.settledStatic field = true
  initialized : ∀ type, memory.initialized type = true → later.initialized type = true

theorem KeepsSettled.refl (isFinal : FieldId → Bool) (memory : Memory Datum Address) :
    KeepsSettled isFinal memory memory :=
  ⟨fun _ _ _ _ => rfl, fun _ _ h => h, fun _ _ _ => rfl, fun _ h => h, fun _ h => h⟩

theorem KeepsSettled.trans (hfirst : KeepsSettled isFinal memory later) (hsecond : KeepsSettled isFinal later last) :
    KeepsSettled isFinal memory last where
  instanceField address field hfinal hsettled :=
    (hsecond.instanceField address field hfinal (hfirst.settledInstance address field hsettled)).trans
      (hfirst.instanceField address field hfinal hsettled)
  settledInstance address field hsettled :=
    hsecond.settledInstance address field (hfirst.settledInstance address field hsettled)
  staticField field hfinal hsettled :=
    (hsecond.staticField field hfinal (hfirst.settledStatic field hsettled)).trans
      (hfirst.staticField field hfinal hsettled)
  settledStatic field hsettled := hsecond.settledStatic field (hfirst.settledStatic field hsettled)
  initialized type hinitialized := hsecond.initialized type (hfirst.initialized type hinitialized)

theorem keepsSettled_disturbedBy (isFinal : FieldId → Bool) (memory other : Memory Datum Address) :
    KeepsSettled isFinal memory (memory.disturbedBy isFinal other) where
  instanceField address field hfinal hsettled := by simp [disturbedBy, hfinal, hsettled]
  settledInstance address field hsettled := by simp [disturbedBy, hsettled]
  staticField field hfinal hsettled := by simp [disturbedBy, hfinal, hsettled]
  settledStatic field hsettled := by simp [disturbedBy, hsettled]
  initialized type hinitialized := by simp [disturbedBy, hinitialized]

theorem keepsSettled_initializedBy (isFinal : FieldId → Bool) (memory other : Memory Datum Address) :
    KeepsSettled isFinal memory (memory.initializedBy isFinal other) :=
  { keepsSettled_disturbedBy isFinal memory other with
    instanceField := fun _ _ _ _ => rfl
    settledInstance := fun _ _ h => h }

theorem keepsSettled_markInitialized (isFinal : FieldId → Bool) (memory : Memory Datum Address) (type : TypeId) :
    KeepsSettled isFinal memory (memory.markInitialized type) :=
  { KeepsSettled.refl isFinal memory with
    initialized := fun other hother => by simp [markInitialized, hother] }

private theorem keepsSettled_settleStatic (isFinal : FieldId → Bool) (memory : Memory Datum Address) (field : FieldId) :
    KeepsSettled isFinal memory (memory.settleStatic field) :=
  { KeepsSettled.refl isFinal memory with
    settledStatic := fun member hmember => by simp [settleStatic, hmember] }

theorem putStatic?_eq_some {field : FieldId} {datum : Datum} (h : memory.putStatic? isFinal field datum = some later) :
    KeepsSettled isFinal memory later ∧ later.instanceField = memory.instanceField ∧
      later.initialized = memory.initialized ∧
      (∀ member, later.staticField member = if member = field then datum else memory.staticField member) ∧
      later.settledStatic field = true := by
  unfold putStatic? at h
  split at h
  · cases h
  · rename_i hopen
    cases h
    refine ⟨{ KeepsSettled.refl isFinal memory with
      staticField := fun member hfinal hsettled => ?_
      settledStatic := fun member hsettled => ?_ }, rfl, rfl, fun _ => rfl, ?_⟩
    · have hne : member ≠ field := by
        rintro rfl
        simp [hfinal, hsettled] at hopen
      exact if_neg hne
    · simp [hsettled]
    · simp

theorem putInstance?_eq_some [DecidableEq Address] {address : Address} {field : FieldId} {datum : Datum}
    (h : memory.putInstance? isFinal address field datum = some later) :
    KeepsSettled isFinal memory later ∧ later.staticField = memory.staticField ∧
      later.settledStatic = memory.settledStatic ∧ later.initialized = memory.initialized ∧
      (∀ other member, member ≠ field → later.instanceField other member = memory.instanceField other member) ∧
      later.instanceField address field = datum ∧ later.settledInstance address field = true := by
  unfold putInstance? at h
  split at h
  · cases h
  · rename_i hopen
    cases h
    refine ⟨{ KeepsSettled.refl isFinal memory with
      instanceField := fun other member hfinal hsettled => ?_
      settledInstance := fun other member hsettled => ?_ }, rfl, rfl, rfl, fun other member hne => ?_, ?_, ?_⟩
    · have hne : ¬(other = address ∧ member = field) := by
        rintro ⟨rfl, rfl⟩
        simp [hfinal, hsettled] at hopen
      exact if_neg hne
    · simp [hsettled]
    · exact if_neg fun heq => hne heq.2
    · simp
    · simp

end Memory

/-! ### The ways in which operations go on -/

/-- The situation that an outcome leaves, whether it goes on or has raised an exception. -/
def Outcome.Leaves (outcome : Outcome Datum Address World) (situation : Situation Datum Address World) : Prop :=
  (∃ result, outcome = .done result situation) ∨ ∃ exception, outcome = .raised exception situation

section Ways

variable {machine : Machine Datum Address World} {scope : Scope} {response : Response Datum Address World}
  {situation later : Situation Datum Address World}

theorem memory_of_quiet {canThrow : Bool} (h : (quiet response situation canThrow).Leaves later) :
    later.memory = situation.memory := by
  unfold quiet at h
  split at h <;> rcases h with ⟨_, h⟩ | ⟨_, h⟩ <;> cases h <;> rfl

theorem memory_of_unknownCode (h : (unknownCode scope response situation).Leaves later) :
    later.memory = situation.memory.disturbedBy scope.program.isFinalField response.memory := by
  unfold unknownCode at h
  split at h <;> rcases h with ⟨_, h⟩ | ⟨_, h⟩ <;> cases h <;> rfl

theorem dereferencing_leaves {datum : Option Datum} {next : Address → Outcome Datum Address World}
    (h : (dereferencing machine response situation datum next).Leaves later) :
    later.memory = situation.memory ∨ ∃ object address, datum = some object ∧ machine.address? object = some address ∧
      (next address).Leaves later := by
  unfold dereferencing at h
  split at h
  · rcases h with ⟨_, h⟩ | ⟨_, h⟩ <;> cases h
  · rename_i object
    split at h
    · rename_i address haddress
      exact .inr ⟨object, address, rfl, haddress, h⟩
    · rcases h with ⟨_, h⟩ | ⟨_, h⟩ <;> cases h
      exact .inl rfl

theorem dereferencing_eq_done {datum : Option Datum} {next : Address → Outcome Datum Address World} {result : Datum}
    (h : dereferencing machine response situation datum next = .done result later) :
    ∃ object address, datum = some object ∧ machine.address? object = some address ∧
      next address = .done result later := by
  unfold dereferencing at h
  split at h
  · cases h
  · rename_i object
    split at h
    · rename_i address haddress
      exact ⟨object, address, rfl, haddress, h⟩
    · cases h

/-- An operation on an object raises an exception itself, or there is no object. -/
theorem dereferencing_eq_raised {datum : Option Datum} {next : Address → Outcome Datum Address World}
    {exception : Datum} (h : dereferencing machine response situation datum next = .raised exception later)
    (hnext : ∀ address, next address ≠ .raised exception later) : later.memory = situation.memory := by
  unfold dereferencing at h
  split at h
  · cases h
  · split at h
    · rename_i address _
      exact absurd h (hnext address)
    · cases h
      rfl

private theorem initializing_leaves {type : TypeId} {next : Situation Datum Address World → Outcome Datum Address World}
    (h : (initializing scope response situation type next).Leaves later) :
    (situation.memory.initialized type = true ∧ (next situation).Leaves later) ∨
      situation.memory.initialized type = false ∧
        (later.memory = situation.memory.initializedBy scope.program.isFinalField response.memory ∨
          ∃ middle, middle.memory
              = (situation.memory.initializedBy scope.program.isFinalField response.memory).markInitialized type ∧
            (next middle).Leaves later) := by
  unfold initializing at h
  split at h
  · rename_i hinitialized
    exact .inl ⟨hinitialized, h⟩
  · rename_i hnot
    refine .inr ⟨by simpa using hnot, ?_⟩
    dsimp only at h
    split at h
    · rcases h with ⟨_, h⟩ | ⟨_, h⟩ <;> cases h
      exact .inl rfl
    · exact .inr ⟨_, rfl, h⟩

theorem initializing_eq_done {type : TypeId} {next : Situation Datum Address World → Outcome Datum Address World}
    {result : Datum} (h : initializing scope response situation type next = .done result later) :
    ∃ middle, next middle = .done result later ∧ middle.memory.initialized type = true ∧
      (middle = situation ∨ situation.memory.initialized type = false ∧ middle.memory
        = (situation.memory.initializedBy scope.program.isFinalField response.memory).markInitialized type) := by
  unfold initializing at h
  split at h
  · rename_i hinitialized
    exact ⟨situation, h, hinitialized, .inl rfl⟩
  · rename_i hnot
    dsimp only at h
    split at h
    · cases h
    · exact ⟨_, h, by simp [Memory.markInitialized], .inr ⟨by simpa using hnot, rfl⟩⟩

/-- An operation on a class raises an exception itself, or the initializer of the class does. -/
theorem initializing_eq_raised {type : TypeId} {next : Situation Datum Address World → Outcome Datum Address World}
    {exception : Datum} (h : initializing scope response situation type next = .raised exception later)
    (hnext : ∀ middle, next middle ≠ .raised exception later) :
    situation.memory.initialized type = false ∧
      later.memory = situation.memory.initializedBy scope.program.isFinalField response.memory := by
  unfold initializing at h
  split at h
  · exact absurd h (hnext situation)
  · rename_i hnot
    dsimp only at h
    split at h
    · cases h
      exact ⟨by simpa using hnot, rfl⟩
    · exact absurd h (hnext _)

theorem storing_ne_raised {memory : Option (Memory Datum Address)} {exception : Datum} :
    storing machine situation memory ≠ .raised exception later := by
  unfold storing
  split <;> nofun

theorem storing_leaves {memory : Option (Memory Datum Address)}
    (h : (storing machine situation memory).Leaves later) : memory = some later.memory := by
  unfold storing at h
  split at h <;> rcases h with ⟨_, h⟩ | ⟨_, h⟩ <;> cases h
  rfl

private theorem canThrow_of_quiet {canThrow : Bool} {exception : Datum}
    (h : quiet response situation canThrow = .raised exception later) : canThrow = true := by
  unfold quiet at h
  dsimp only at h
  split at h
  · rename_i hthrown
    exact (Bool.and_eq_true_iff.1 hthrown).1
  · cases h

private theorem quiet_ne_jump {canThrow : Bool} {target : Nat} : quiet response situation canThrow ≠ .jump target := by
  unfold quiet
  dsimp only
  split <;> nofun

theorem unknownCode_ne_jump {target : Nat} : unknownCode scope response situation ≠ .jump target := by
  unfold unknownCode
  dsimp only
  split <;> nofun

private theorem storing_ne_jump {memory : Option (Memory Datum Address)} {target : Nat} :
    storing machine situation memory ≠ .jump target := by
  unfold storing
  split <;> nofun

private theorem dereferencing_ne_jump {datum : Option Datum} {next : Address → Outcome Datum Address World}
    {target : Nat}
    (hnext : ∀ address, next address ≠ .jump target) :
    dereferencing machine response situation datum next ≠ .jump target := by
  unfold dereferencing
  split
  · nofun
  · split
    · exact hnext _
    · nofun

private theorem initializing_ne_jump {type : TypeId}
    {next : Situation Datum Address World → Outcome Datum Address World}
    {target : Nat} (hnext : ∀ middle, next middle ≠ .jump target) :
    initializing scope response situation type next ≠ .jump target := by
  unfold initializing
  dsimp only
  split
  · exact hnext _
  · split
    · nofun
    · exact hnext _

theorem keepsSettled_of_initializing {type : TypeId}
    {next : Situation Datum Address World → Outcome Datum Address World}
    (hnext : ∀ middle last, (next middle).Leaves last →
      Memory.KeepsSettled scope.program.isFinalField middle.memory last.memory)
    (h : (initializing scope response situation type next).Leaves later) :
    Memory.KeepsSettled scope.program.isFinalField situation.memory later.memory := by
  have hinitialized := Memory.keepsSettled_initializedBy scope.program.isFinalField situation.memory response.memory
  rcases initializing_leaves h with ⟨-, hleaves⟩ | ⟨-, heq | ⟨middle, hmiddle, hleaves⟩⟩
  · exact hnext situation later hleaves
  · rw [heq]
    exact hinitialized
  · refine Memory.KeepsSettled.trans ?_ (hnext middle later hleaves)
    rw [hmiddle]
    exact hinitialized.trans (Memory.keepsSettled_markInitialized _ _ _)

end Ways

/-! ### Initializers with a summary -/

section Summaries

variable {machine : Machine Datum Address World} {scope : Scope} {response : Response Datum Address World}
  {data : List Datum} {memory later : Memory Datum Address}

theorem guards_eq (h : machine.guarded = true) (program : Program) : machine.guards program = program.isFinalField := by
  funext field
  simp [Machine.guards, h]

theorem initialDatum?_eq_some {unspecified datum : Datum} {source : FieldInitialization}
    (h : initialDatum? machine scope data memory unspecified source = some (datum, later)) :
    Memory.KeepsSettled scope.program.isFinalField memory later ∧ later.instanceField = memory.instanceField ∧
      later.settledInstance = memory.settledInstance ∧ later.staticField = memory.staticField ∧
      later.initialized = memory.initialized := by
  unfold initialDatum? at h
  split at h
  case h_5 =>
    split at h
    · cases h
      exact ⟨.refl _ _, rfl, rfl, rfl, rfl⟩
    · split at h
      · cases h
      · cases h
        exact ⟨Memory.keepsSettled_settleStatic _ _ _, rfl, rfl, rfl, rfl⟩
  all_goals
    cases h
    exact ⟨.refl _ _, rfl, rfl, rfl, rfl⟩

variable [DecidableEq Address]

/-- One field set by an initializer: a datum is found and stored. -/
theorem initializeField_eq_some {address : Address} {entry : FieldId × FieldInitialization}
    (h : initializeField machine scope response address data memory entry = some later) :
    ∃ datum middle, initialDatum? machine scope data memory (response.memory.instanceField address entry.1) entry.2
        = some (datum, middle) ∧
      middle.putInstance? (machine.guards scope.program) address entry.1 datum = some later := by
  obtain ⟨⟨datum, middle⟩, hdatum, hput⟩ := Option.bind_eq_some_iff.1 h
  exact ⟨datum, middle, hdatum, hput⟩

private theorem keepsSettled_of_initializeField (hguarded : machine.guarded = true) {address : Address}
    {entry : FieldId × FieldInitialization}
    (h : initializeField machine scope response address data memory entry = some later) :
    Memory.KeepsSettled scope.program.isFinalField memory later := by
  obtain ⟨datum, middle, hdatum, hput⟩ := initializeField_eq_some h
  rw [guards_eq hguarded] at hput
  exact (initialDatum?_eq_some hdatum).1.trans (Memory.putInstance?_eq_some hput).1

private theorem keepsSettled_of_foldlM (hguarded : machine.guarded = true) {address : Address}
    {entries : List (FieldId × FieldInitialization)}
    (h : entries.foldlM (initializeField machine scope response address data) memory = some later) :
    Memory.KeepsSettled scope.program.isFinalField memory later := by
  induction entries generalizing memory with
  | nil =>
    obtain rfl := Option.some.inj h
    exact .refl _ _
  | cons entry entries ih =>
    rw [List.foldlM_cons] at h
    obtain ⟨middle, hentry, hrest⟩ := Option.bind_eq_some_iff.1 h
    exact (keepsSettled_of_initializeField hguarded hentry).trans (ih hrest)

variable {situation last : Situation Datum Address World} {summary : InitializerSummary}

theorem construct_eq_done {result : Datum}
    (h : construct machine scope response situation summary data = .done result last) :
    ∃ receiver address, data.head? = some receiver ∧ machine.address? receiver = some address ∧
      summary.fields.foldlM (initializeField machine scope response address data)
        (if summary.hasOtherEffects then
          situation.memory.disturbedBy scope.program.isFinalField response.memory else situation.memory)
        = some last.memory := by
  obtain ⟨receiver, address, hreceiver, haddress, hnext⟩ := dereferencing_eq_done h
  refine ⟨receiver, address, hreceiver, haddress, ?_⟩
  dsimp only at hnext
  split at hnext
  · cases hnext
  · split at hnext
    · rename_i memory hfold
      cases hnext
      exact hfold
    · cases hnext

private theorem keepsSettled_of_construct (hguarded : machine.guarded = true)
    (h : (construct machine scope response situation summary data).Leaves last) :
    Memory.KeepsSettled scope.program.isFinalField situation.memory last.memory := by
  have hdisturbed := Memory.keepsSettled_disturbedBy scope.program.isFinalField situation.memory response.memory
  rcases dereferencing_leaves h with heq | ⟨receiver, address, -, -, hnext⟩
  · rw [heq]
    exact .refl _ _
  · dsimp only at hnext
    split at hnext
    · rcases hnext with ⟨_, hnext⟩ | ⟨_, hnext⟩ <;> cases hnext
      exact hdisturbed
    · split at hnext <;> rcases hnext with ⟨_, hnext⟩ | ⟨_, hnext⟩ <;> cases hnext
      rename_i memory hfold
      refine Memory.KeepsSettled.trans ?_ (keepsSettled_of_foldlM hguarded hfold)
      split
      · exact hdisturbed
      · exact .refl _ _

end Summaries

/-! ### Operations -/

section Operations

variable [DecidableEq Address] {machine : Machine Datum Address World} {scope : Scope}
  {response : Response Datum Address World} {situation later : Situation Datum Address World} {choice : Nat}
  {data : List Datum} {operation : Operation}

/-- However an operation ends, final fields keep their values and classes stay initialized. -/
theorem keepsSettled_of_outcome (hguarded : machine.guarded = true)
    (h : (outcome machine scope response situation choice data operation).Leaves later) :
    Memory.KeepsSettled scope.program.isFinalField situation.memory later.memory := by
  have hsame : ∀ {middle last : Situation Datum Address World}, last.memory = middle.memory →
      Memory.KeepsSettled scope.program.isFinalField middle.memory last.memory := by
    intro middle last heq
    rw [heq]
    exact .refl _ _
  have hdone : ∀ {result : Datum} {middle last : Situation Datum Address World},
      (Outcome.done result middle).Leaves last → last.memory = middle.memory := by
    rintro result middle last (⟨_, h⟩ | ⟨_, h⟩) <;> cases h
    rfl
  have hunknown : ∀ {last : Situation Datum Address World}, (unknownCode scope response situation).Leaves last →
      Memory.KeepsSettled scope.program.isFinalField situation.memory last.memory := by
    intro last hleaves
    rw [memory_of_unknownCode hleaves]
    exact Memory.keepsSettled_disturbedBy _ _ _
  cases operation
  case argument | constNumber | constNull | debugLocalRead | constString | moveException => exact hsame (hdone h)
  case goto | branch | switch | «return» => rcases h with ⟨_, h⟩ | ⟨_, h⟩ <;> cases h
  case assume | throw =>
    simp only [outcome] at h
    split at h <;> rcases h with ⟨_, h⟩ | ⟨_, h⟩ <;> cases h
    exact .refl _ _
  case instanceGet =>
    simp only [outcome] at h
    split at h
    · exact hunknown h
    · rcases dereferencing_leaves h with heq | ⟨_, _, -, -, hnext⟩
      · exact hsame heq
      · exact hsame (hdone hnext)
  case instancePut =>
    simp only [outcome] at h
    split at h
    · exact hunknown h
    · rcases dereferencing_leaves h with heq | ⟨_, _, -, -, hnext⟩
      · exact hsame heq
      · obtain ⟨written, -, hput⟩ := Option.bind_eq_some_iff.1 (storing_leaves hnext)
        rw [guards_eq hguarded] at hput
        exact (Memory.putInstance?_eq_some hput).1
  case staticGet =>
    simp only [outcome] at h
    split at h
    · exact hunknown h
    · exact keepsSettled_of_initializing (fun middle last hnext => hsame (hdone hnext)) h
  case staticPut =>
    simp only [outcome] at h
    split at h
    · exact hunknown h
    · refine keepsSettled_of_initializing (fun middle last hnext => ?_) h
      obtain ⟨written, -, hput⟩ := Option.bind_eq_some_iff.1 (storing_leaves hnext)
      rw [guards_eq hguarded] at hput
      exact (Memory.putStatic?_eq_some hput).1
  case initClass => exact keepsSettled_of_initializing (fun middle last hnext => hsame (hdone hnext)) h
  case newInstance =>
    simp only [outcome] at h
    have hmemory : ∀ condition : Bool, Memory.KeepsSettled scope.program.isFinalField situation.memory
        (if condition then situation.memory.disturbedBy scope.program.isFinalField response.memory
          else situation.memory) := by
      intro condition
      cases condition
      · exact .refl _ _
      · exact Memory.keepsSettled_disturbedBy _ _ _
    split at h <;> rcases h with ⟨_, h⟩ | ⟨_, h⟩ <;> cases h
    · exact hmemory _
    · exact (hmemory _).trans (Memory.keepsSettled_markInitialized _ _ _)
  case invoke =>
    simp only [outcome] at h
    split at h
    · split at h
      · exact hunknown h
      · exact keepsSettled_of_construct hguarded h
    · exact hunknown h
  case invokeCustom | monitorEnter => exact hunknown h
  all_goals
    simp only [outcome] at h
    exact hsame (memory_of_quiet h)

/-- Only operations that end a block jump. -/
theorem isTerminator_of_jump {target : Nat}
    (h : outcome machine scope response situation choice data operation = .jump target) :
    operation.isTerminator = true := by
  cases operation
  case goto | branch | switch => rfl
  case argument | constNumber | constNull | debugLocalRead | constString | moveException | «return» => cases h
  case instanceGet | instancePut =>
    simp only [outcome] at h
    split at h
    · exact absurd h unknownCode_ne_jump
    · refine absurd h (dereferencing_ne_jump fun address => ?_)
      first | exact storing_ne_jump | nofun
  case staticGet | staticPut =>
    simp only [outcome] at h
    split at h
    · exact absurd h unknownCode_ne_jump
    · refine absurd h (initializing_ne_jump fun later => ?_)
      first | exact storing_ne_jump | nofun
  case initClass => exact absurd h (initializing_ne_jump nofun)
  case newInstance =>
    simp only [outcome] at h
    split at h <;> cases h
  case invoke =>
    simp only [outcome] at h
    split at h
    · split at h
      · exact absurd h unknownCode_ne_jump
      · refine absurd h (dereferencing_ne_jump fun address => ?_)
        dsimp only
        split
        · nofun
        · split <;> nofun
    · exact absurd h unknownCode_ne_jump
  case invokeCustom | monitorEnter => exact absurd h unknownCode_ne_jump
  case assume | throw =>
    simp only [outcome] at h
    split at h <;> cases h
  all_goals
    simp only [outcome] at h
    exact absurd h quiet_ne_jump

/-- Only operations that can throw raise an exception. -/
theorem canThrow_of_raised {exception : Datum}
    (h : outcome machine scope response situation choice data operation = .raised exception later) :
    operation.canThrow = true := by
  cases operation
  case argument | constNumber | constNull | debugLocalRead | constString | moveException | goto | branch | switch
      | «return» => cases h
  case assume =>
    simp only [outcome] at h
    split at h <;> cases h
  case binary => exact canThrow_of_quiet h
  case instanceOf | unary =>
    simp only [outcome] at h
    exact absurd (canThrow_of_quiet h) Bool.false_ne_true
  all_goals rfl

end Operations

end Bytecode.Execution
