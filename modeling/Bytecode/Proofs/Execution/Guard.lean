import Bytecode.Proofs.Execution.Machine
/-!
# Runs under guard

A guarded machine differs from the same machine without its guard only in what it takes for a fault. As long as the
guarded run has no fault, the two runs are the same.
-/

namespace Bytecode.Execution

open LoadElimination (Scope)

variable {Datum Address World : Type} {machine : Machine Datum Address World} {scope : Scope}
  {response : Response Datum Address World} {situation : Situation Datum Address World} {data : List Datum}

/-! ### The ways in which operations go on -/

private theorem storing_of_guard {guarded plain : Option (Memory Datum Address)}
    (hput : ∀ memory, guarded = some memory → plain = some memory)
    (h : storing machine.guard situation guarded ≠ .faulty) :
    storing machine situation plain = storing machine.guard situation guarded := by
  cases guarded with
  | none => exact absurd rfl h
  | some memory =>
    rw [hput memory rfl]
    rfl

private theorem dereferencing_of_guard {datum : Option Datum} {guarded plain : Address → Outcome Datum Address World}
    (hnext : ∀ address, guarded address ≠ .faulty → plain address = guarded address)
    (h : dereferencing machine.guard response situation datum guarded ≠ .faulty) :
    dereferencing machine response situation datum plain
      = dereferencing machine.guard response situation datum guarded := by
  cases datum with
  | none => rfl
  | some datum =>
    have hsame : machine.guard.address? datum = machine.address? datum := rfl
    simp only [dereferencing, hsame] at h ⊢
    cases haddress : machine.address? datum with
    | none => rfl
    | some address =>
      simp only [haddress] at h ⊢
      exact hnext address h

private theorem initializing_of_guard {type : TypeId}
    {guarded plain : Situation Datum Address World → Outcome Datum Address World}
    (hnext : ∀ later, guarded later ≠ .faulty → plain later = guarded later)
    (h : initializing scope response situation type guarded ≠ .faulty) :
    initializing scope response situation type plain = initializing scope response situation type guarded := by
  unfold initializing at h ⊢
  split at h
  · rename_i hinitialized
    rw [if_pos hinitialized, if_pos hinitialized]
    exact hnext situation h
  · rename_i hinitialized
    rw [if_neg hinitialized, if_neg hinitialized]
    dsimp only at h ⊢
    split at h
    · rename_i hthrown
      rw [if_pos hthrown, if_pos hthrown]
    · rename_i hthrown
      rw [if_neg hthrown, if_neg hthrown]
      exact hnext _ h

/-! ### Writes -/

private theorem putStatic?_of_guard {memory later : Memory Datum Address} {field : FieldId} {datum : Datum}
    (h : memory.putStatic? (machine.guard.guards scope.program) field datum = some later) :
    memory.putStatic? (machine.guards scope.program) field datum = some later := by
  unfold Memory.putStatic? at h ⊢
  split at h
  · cases h
  · rename_i hopen
    rw [if_neg, h]
    intro hclosed
    simp_all [Machine.guards, Machine.guard]

private theorem initialDatum?_of_guard {memory : Memory Datum Address} {unspecified : Datum}
    {source : FieldInitialization}
    {found : Datum × Memory Datum Address}
    (h : initialDatum? machine.guard scope data memory unspecified source = some found) :
    initialDatum? machine scope data memory unspecified source = some found := by
  unfold initialDatum? at h ⊢
  split at h
  case h_5 =>
    split at h
    · exact h
    · split at h
      · cases h
      · rename_i hopen
        rw [if_neg, h]
        intro hclosed
        simp_all [Machine.guard]
  all_goals exact h

variable [DecidableEq Address]

private theorem putInstance?_of_guard {memory later : Memory Datum Address} {address : Address} {field : FieldId}
    {datum : Datum}
    (h : memory.putInstance? (machine.guard.guards scope.program) address field datum = some later) :
    memory.putInstance? (machine.guards scope.program) address field datum = some later := by
  unfold Memory.putInstance? at h ⊢
  split at h
  · cases h
  · rename_i hopen
    rw [if_neg, h]
    intro hclosed
    simp_all [Machine.guards, Machine.guard]

private theorem initializeFields_of_guard {address : Address} {entries : List (FieldId × FieldInitialization)}
    {memory later : Memory Datum Address}
    (h : entries.foldlM (initializeField machine.guard scope response address data) memory = some later) :
    entries.foldlM (initializeField machine scope response address data) memory = some later := by
  induction entries generalizing memory with
  | nil => exact h
  | cons entry entries ih =>
    rw [List.foldlM_cons] at h ⊢
    obtain ⟨middle, hentry, hrest⟩ := Option.bind_eq_some_iff.1 h
    obtain ⟨⟨datum, copied⟩, hdatum, hput⟩ := Option.bind_eq_some_iff.1 hentry
    refine Option.bind_eq_some_iff.2 ⟨middle, ?_, ih hrest⟩
    exact Option.bind_eq_some_iff.2 ⟨(datum, copied), initialDatum?_of_guard hdatum, putInstance?_of_guard hput⟩

/-! ### Operations -/

private theorem construct_of_guard {summary : InitializerSummary}
    (h : construct machine.guard scope response situation summary data ≠ .faulty) :
    construct machine scope response situation summary data
      = construct machine.guard scope response situation summary data := by
  refine dereferencing_of_guard (fun address hnext => ?_) h
  dsimp only at hnext ⊢
  split at hnext
  · rename_i hthrown
    rw [if_pos hthrown, if_pos hthrown]
  · rename_i hthrown
    rw [if_neg hthrown, if_neg hthrown]
    split at hnext
    · rename_i memory hfields
      simp only [initializeFields_of_guard hfields]
    · exact absurd rfl hnext

private theorem outcome_of_guard {choice : Nat} {operation : Operation}
    (h : outcome machine.guard scope response situation choice data operation ≠ .faulty) :
    outcome machine scope response situation choice data operation
      = outcome machine.guard scope response situation choice data operation := by
  cases operation
  case instancePut object field value =>
    simp only [outcome] at h ⊢
    split at h
    · rfl
    · refine dereferencing_of_guard (fun address hnext => storing_of_guard (fun memory hput => ?_) hnext) h
      obtain ⟨datum, hdatum, hput⟩ := Option.bind_eq_some_iff.1 hput
      exact Option.bind_eq_some_iff.2 ⟨datum, hdatum, putInstance?_of_guard hput⟩
  case staticPut field value =>
    simp only [outcome] at h ⊢
    split at h
    · rfl
    · refine initializing_of_guard (fun later hnext => storing_of_guard (fun memory hput => ?_) hnext) h
      obtain ⟨datum, hdatum, hput⟩ := Option.bind_eq_some_iff.1 hput
      exact Option.bind_eq_some_iff.2 ⟨datum, hdatum, putStatic?_of_guard hput⟩
  case invoke dest kind method arguments =>
    simp only [outcome] at h ⊢
    split at h
    · split at h
      · rename_i hempty
        rw [if_pos hempty, if_pos hempty]
      · rename_i hempty
        rw [if_neg hempty, if_neg hempty]
        exact construct_of_guard h
    · rfl
  all_goals rfl

private theorem execute_of_guard {operation : Operation} {state : State Datum Address World}
    (h : execute machine.guard scope operation state ≠ .faulty) :
    execute machine scope operation state = execute machine.guard scope operation state := by
  unfold execute at h ⊢
  cases hdata : operation.operands.mapM state.env with
  | none => rfl
  | some data =>
    simp only [hdata] at h ⊢
    have hperform : perform machine scope operation data state.situation
        = perform machine.guard scope operation data state.situation := by
      refine outcome_of_guard fun hfaulty => h ?_
      rw [show perform machine.guard scope operation data state.situation = .faulty from hfaulty]
    rw [hperform]

/-! ### Runs -/

variable {body : Body} {start : Situation Datum Address World}

private theorem executeAll_of_guard {instructions : List Instruction} {state : State Datum Address World}
    (h : executeAll machine.guard scope instructions state ≠ .faulty) :
    executeAll machine scope instructions state = executeAll machine.guard scope instructions state := by
  induction instructions generalizing state with
  | nil => rfl
  | cons instruction rest ih =>
    have hfirst : execute machine scope instruction.operation state
        = execute machine.guard scope instruction.operation state := by
      refine execute_of_guard fun hfaulty => h ?_
      rw [executeAll, hfaulty]
    unfold executeAll at h ⊢
    rw [hfirst]
    split at h
    · exact ih h
    · rfl

/-- Without a fault under guard, a run is the same with and without guard. -/
theorem run_of_guard {count : Nat} (h : run machine.guard scope body start count ≠ .faulty) :
    run machine scope body start count = run machine.guard scope body start count := by
  induction count with
  | zero => rfl
  | succ count ih =>
    rw [run, run] at *
    have hbefore : run machine.guard scope body start count ≠ .faulty := by
      intro hfaulty
      rw [hfaulty] at h
      exact h rfl
    rw [ih hbefore]
    generalize run machine.guard scope body start count = status at h
    cases status with
    | finished | faulty => rfl
    | running position state =>
      simp only [step] at h ⊢
      cases hblock : body.block? position with
      | none => rfl
      | some block =>
        simp only [hblock] at h ⊢
        have hall : executeAll machine scope block.instructions state
            = executeAll machine.guard scope block.instructions state := by
          refine executeAll_of_guard fun hfaulty => h ?_
          rw [hfaulty, leave]
        rw [hall]
        rfl

/-- If two bodies look the same under guard and have no fault, they look the same. -/
theorem observe_eq_of_guard {other : Body} {count : Nat} (h : run machine.guard scope body start count ≠ .faulty)
    (hsame : (run machine.guard scope other start count).observe = (run machine.guard scope body start count).observe) :
    (run machine scope other start count).observe = (run machine scope body start count).observe := by
  have hother : run machine.guard scope other start count ≠ .faulty := by
    intro hfaulty
    rw [hfaulty] at hsame
    cases hstatus : run machine.guard scope body start count with
    | running | finished =>
      rw [hstatus] at hsame
      cases hsame
    | faulty => exact h hstatus
  rw [run_of_guard h, run_of_guard hother, hsame]

end Bytecode.Execution
