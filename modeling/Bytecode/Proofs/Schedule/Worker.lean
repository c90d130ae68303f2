import Bytecode.Proofs.LoadElimination.Alone
import Bytecode.Schedule
import Mathlib.Algebra.GroupWithZero.Nat
/-!
# The worker of a method

A worker takes the body of its method out of the program, sends it through the pass, puts the result back and sets the
mark. What is known of the method at each stage depends on its first body alone, because the pass reads nothing of the
program that any worker changes. One step of a worker takes what is known at its stage to what is known at the next one;
the other methods keep their bodies and marks.
-/

namespace Bytecode

/-! ### Programs under change -/

namespace Program

variable (program : Program) (method : MethodId) (body : Body)

private theorem outline_markProcessed : (program.markProcessed method).outline = program.outline := by
  unfold markProcessed
  split <;> rfl

theorem body?_markProcessed (other : MethodId) : (program.markProcessed method).body? other = program.body? other := by
  unfold markProcessed
  split <;> rfl

theorem mem_processed_markProcessed {program : Program} {method other : MethodId} :
    other ∈ (program.markProcessed method).processed ↔ other ∈ program.processed ∨ other = method := by
  unfold markProcessed
  split
  · next hmark =>
    refine ⟨.inl, ?_⟩
    rintro (hmem | rfl)
    · exact hmem
    · exact List.contains_iff_mem.1 hmark
  · rw [List.mem_append, List.mem_singleton]

private theorem body?_putBody (other : MethodId) :
    (program.putBody method body).body? other = if other = method then some body else program.body? other :=
  Table.find?_insert program.bodies method other body

private theorem body?_removeBody (other : MethodId) :
    (program.removeBody method).body? other = if other = method then none else program.body? other :=
  Table.find?_erase program.bodies method other

end Program

namespace EventLog

theorem count_record (log : EventLog) (event : Event) (kind : EventKind) :
    (log.record event).count kind = log.count kind + if event.kind = kind then 1 else 0 := by
  simp [count, record, List.countP_append, List.countP_cons]

private theorem count_merge (log other : EventLog) (kind : EventKind) :
    (log.merge other).count kind = log.count kind + other.count kind :=
  List.countP_append

end EventLog

namespace Scheduler

open LoadElimination

/-! ### The passes on one body -/

/-- A body at which a worker fails, with the error and the body that is left: the pass fails on it, or the check refuses
what the pass makes of it. -/
inductive Rejected (settings : Settings) (program : Program) (body : Body) : Error → Body → Prop
  | failed {error : Error} : outcomeAlone settings program body = .error error →
      Rejected settings program body error body
  | refused {outcome : PassOutcome} {error : Error} : outcomeAlone settings program body = .ok outcome →
      settings.verifyBodies = true → outcome.changed = true → outcome.body.check = .error error →
      Rejected settings program body error outcome.body

/-- How the pass of the standard scheduler can end on a body: the body is rejected, or what comes of it goes on. -/
inductive Ending (settings : Settings) (program : Program) (body : Body) (progress : Progress) : Prop
  | stopped {error : Error} : progress.error = some error → Rejected settings program body error progress.body →
      Ending settings program body progress
  | passed {outcome : PassOutcome} : progress.error = none → outcomeAlone settings program body = .ok outcome →
      progress.body = outcome.body → progress.changed = outcome.changed →
      (settings.verifyBodies = true → outcome.changed = true → outcome.body.check = .ok ()) →
      Ending settings program body progress

/-- The log of an outcome announces no wave. -/
theorem count_leavesPicked_outcome {settings : Settings} {program : Program} {body : Body} {outcome : PassOutcome}
    (h : outcomeAlone settings program body = .ok outcome) :
    (EventLog.mk outcome.events).count .leavesPicked = 0 := by
  rw [EventLog.count, List.countP_eq_zero]
  intro event hevent
  rcases kind_of_outcomeAlone h event hevent with hkind | hkind
  · intro heq
    rw [of_decide_eq_true heq] at hkind
    cases hkind
  · simp [hkind]

private theorem runPass_ending (settings : Settings) (program : Program) (callGraph : Option CallGraph) (body : Body) :
    let progress := runPass { program, settings, callGraph } { body } pass
    Ending settings program body progress ∧ (EventLog.mk progress.events).count .leavesPicked = 0 := by
  rw [runPass]
  by_cases happlies : pass.applies (contextAlone settings program) body = true
  · have hsame : pass.applies { program, settings, callGraph } body = true := happlies
    have houtcome : outcomeAlone settings program body = pass.run (contextAlone settings program) body := by
      rw [outcomeAlone, if_pos happlies]
    simp only [hsame, Option.isSome_none, Bool.not_true, Bool.or_self, Bool.false_eq_true, if_false, pass_run_eq]
    rw [← houtcome]
    cases hrun : outcomeAlone settings program body with
    | error error => exact ⟨.stopped rfl (.failed hrun), rfl⟩
    | ok outcome =>
      have hquiet := count_leavesPicked_outcome hrun
      simp only [List.nil_append]
      cases hchanged : outcome.changed with
      | false =>
        refine ⟨.passed rfl hrun rfl hchanged.symm fun _ hchanges => ?_, hquiet⟩
        exact absurd (hchanged.symm.trans hchanges) Bool.false_ne_true
      | true =>
        simp only [if_true]
        cases hcheck : if settings.verifyBodies then outcome.body.check else .ok () with
        | error error =>
          split at hcheck
          · next hverify => exact ⟨.stopped rfl (.refused hrun hverify hchanged hcheck), hquiet⟩
          · cases hcheck
        | ok =>
          refine ⟨.passed rfl hrun rfl hchanged.symm fun hverify _ => ?_, hquiet⟩
          rwa [if_pos hverify] at hcheck
  · have hsame : pass.applies { program, settings, callGraph } body = false := Bool.eq_false_iff.2 happlies
    have houtcome : outcomeAlone settings program body = .ok (.unchanged body) := if_neg happlies
    simp only [hsame, Option.isSome_none, Bool.not_false, Bool.or_true, if_true]
    exact ⟨.passed rfl houtcome rfl rfl fun _ hchanges => absurd hchanges Bool.false_ne_true, rfl⟩

private theorem runPasses_ending (settings : Settings) (turns : Nat → List MethodId) (program : Program)
    (callGraph : Option CallGraph) (body : Body) :
    let progress := (standard settings turns).runPasses { program, settings, callGraph } body
    Ending settings program body progress ∧ (EventLog.mk progress.events).count .leavesPicked = 0 := by
  intro progress
  -- the narrowing step of the standard scheduler leaves every body as it is
  obtain ⟨narrowed, hnarrowed⟩ : ∃ narrowed,
      progress = { runPass { program, settings, callGraph } { body } pass with narrowed } := by
    change ∃ narrowed, (standard settings turns).narrow _ (runPass { program, settings, callGraph } { body } pass) = _
    rw [narrow]
    split
    · exact ⟨_, rfl⟩
    · exact ⟨_, rfl⟩
  obtain ⟨hending, hquiet⟩ := runPass_ending settings program callGraph body
  rw [hnarrowed]
  refine ⟨?_, hquiet⟩
  cases hending with
  | stopped herror hrejected => exact .stopped herror hrejected
  | passed herror houtcome hbody hchanged hcheck => exact .passed herror houtcome hbody hchanged hcheck

/-! ### What is to become of a method -/

/-- The body that a method is to have in the end: none if it has none, else what comes of its body alone. -/
inductive BodyAlone (settings : Settings) (program : Program) (method : MethodId) : Option Body → Prop
  | none : program.body? method = .none → BodyAlone settings program method .none
  | some {body : Body} {outcome : PassOutcome} : program.body? method = .some body →
      outcomeAlone settings program body = .ok outcome → BodyAlone settings program method (.some outcome.body)

/-- If bodies are checked, what the pass makes of the body of the method is accepted. -/
def Accepted (settings : Settings) (program : Program) (method : MethodId) : Prop :=
  ∀ body outcome, program.body? method = some body → outcomeAlone settings program body = .ok outcome →
    settings.verifyBodies = true → outcome.changed = true → outcome.body.check = .ok ()

/-- The pass changes the body of the method. -/
def changedAlone (settings : Settings) (program : Program) (method : MethodId) : Bool :=
  (program.body? method).any fun body =>
    match outcomeAlone settings program body with
    | .ok outcome => outcome.changed
    | .error _ => false

/-- A method that is done: it is marked and has its body alone, which was accepted. -/
structure Done (settings : Settings) (start program : Program) (method : MethodId) (changed : Bool) : Prop where
  mark : method ∈ program.processed
  body : BodyAlone settings start method (program.body? method)
  accepted : Accepted settings start method
  changed_eq : changedAlone settings start method = changed

/-- What is known of a method at a stage of its worker, in a run that started with the program `start`. -/
inductive AtStage (settings : Settings) (start program : Program) (method : MethodId) : Stage → Prop
  | waiting : program.body? method = start.body? method → method ∉ program.processed →
      AtStage settings start program method .waiting
  | taken {body : Body} : start.body? method = some body → program.body? method = none → method ∉ program.processed →
      AtStage settings start program method (.taken body)
  | passed {body : Body} {progress : Progress} : start.body? method = some body → Ending settings start body progress →
      program.body? method = none → method ∉ program.processed →
      AtStage settings start program method (.passed progress)
  | returned {body : Body} {progress : Progress} : start.body? method = some body →
      Ending settings start body progress → program.body? method = some progress.body → method ∉ program.processed →
      AtStage settings start program method (.returned progress)
  | marked {changed : Bool} : Done settings start program method changed →
      AtStage settings start program method (.marked changed)
  | finished {changed : Bool} : Done settings start program method changed →
      AtStage settings start program method (.finished changed)
  | failed {body left : Body} {error : Error} : start.body? method = some body →
      Rejected settings start body error left → program.body? method = some left → method ∉ program.processed →
      AtStage settings start program method (.failed error)

variable {settings : Settings} {start program : Program} {method : MethodId}

/-- The outcome for a body depends on the outline of the program only. -/
theorem outcomeAlone_congr {other : Program} (h : program.outline = other.outline) (body : Body) :
    outcomeAlone settings program body = outcomeAlone settings other body := by
  rw [outcomeAlone, contextAlone, h]
  rfl

theorem Ending.congr {other : Program} {body : Body} {progress : Progress}
    (h : Ending settings program body progress) (houtline : program.outline = other.outline) :
    Ending settings other body progress := by
  have hsame : outcomeAlone settings program body = outcomeAlone settings other body := outcomeAlone_congr houtline body
  cases h with
  | stopped herror hrejected =>
    refine .stopped herror ?_
    generalize progress.body = left at hrejected ⊢
    cases hrejected with
    | failed hfailed => exact .failed (hsame ▸ hfailed)
    | refused houtcome hverify hchanged hcheck => exact .refused (hsame ▸ houtcome) hverify hchanged hcheck
  | passed herror houtcome hbody hchanged hcheck => exact .passed herror (hsame ▸ houtcome) hbody hchanged hcheck

/-- A method stays at its stage while its body and its mark stay. -/
theorem AtStage.frame {later : Program} {stage : Stage} (h : AtStage settings start program method stage)
    (hbody : later.body? method = program.body? method)
    (hmark : method ∈ later.processed ↔ method ∈ program.processed) : AtStage settings start later method stage := by
  have hdone {changed : Bool} (hdone : Done settings start program method changed) :
      Done settings start later method changed :=
    ⟨hmark.2 hdone.mark, hbody ▸ hdone.body, hdone.accepted, hdone.changed_eq⟩
  cases h with
  | waiting hfound hopen => exact .waiting (hbody.trans hfound) (mt hmark.1 hopen)
  | taken hfirst hfound hopen => exact .taken hfirst (hbody.trans hfound) (mt hmark.1 hopen)
  | passed hfirst hending hfound hopen => exact .passed hfirst hending (hbody.trans hfound) (mt hmark.1 hopen)
  | returned hfirst hending hfound hopen => exact .returned hfirst hending (hbody.trans hfound) (mt hmark.1 hopen)
  | marked hmarked => exact .marked (hdone hmarked)
  | finished hfinished => exact .finished (hdone hfinished)
  | failed hfirst hrejected hfound hopen => exact .failed hfirst hrejected (hbody.trans hfound) (mt hmark.1 hopen)

/-! ### One step -/

/-- The reports count the same waves, cut calls and methods. -/
structure SameCounts (report later : Report) : Prop where
  waves : later.waves = report.waves
  picked : later.events.count .leavesPicked = report.events.count .leavesPicked
  severed : later.severedCalls = report.severedCalls
  processed : later.methodsProcessed = report.methodsProcessed
  changed : later.changedMethods = report.changedMethods

theorem SameCounts.refl (report : Report) : SameCounts report report :=
  ⟨rfl, rfl, rfl, rfl, rfl⟩

theorem SameCounts.trans {first second third : Report} (h : SameCounts first second) (h' : SameCounts second third) :
    SameCounts first third :=
  ⟨h'.waves.trans h.waves, h'.picked.trans h.picked, h'.severed.trans h.severed, h'.processed.trans h.processed,
    h'.changed.trans h.changed⟩

/-- What one step of the worker of a method can do. -/
structure Moved (settings : Settings) (start : Program) (method : MethodId) (crew next : Crew) : Prop where
  /-- The worker is at a stage closer to its end. -/
  at_stage : AtStage settings start next.run.program method (next.stage method)
  closer : (next.stage method).stepsLeft ≤ (crew.stage method).stepsLeft - 1
  /-- Nothing is changed for the other methods. -/
  stages : ∀ other, other ≠ method → next.stage other = crew.stage other
  bodies : ∀ other, other ≠ method → next.run.program.body? other = crew.run.program.body? other
  marks : ∀ other, other ≠ method → (other ∈ next.run.program.processed ↔ other ∈ crew.run.program.processed)
  outline : next.run.program.outline = crew.run.program.outline
  counts : SameCounts crew.run.report next.run.report
  /-- An error stays, and a new one is that of the method. -/
  error_kept : ∀ error, crew.run.error = some error → next.run.error = some error
  error_new : ∀ error, crew.run.error = none → next.run.error = some error → next.stage method = .failed error
  failed_kept : ∀ error, crew.stage method = .failed error → next = crew
  failed_new : ∀ error, crew.stage method ≠ .failed error → next.stage method = .failed error →
    next.run.error.isSome = true

variable {crew : Crew} {stage : Stage} {run : Run}

/-- A worker that is not at its end comes closer to it. -/
theorem Moved.of_advance (hcloser : stage.stepsLeft < (crew.stage method).stepsLeft)
    (hstage : AtStage settings start run.program method stage)
    (hbodies : ∀ other, other ≠ method → run.program.body? other = crew.run.program.body? other)
    (hmarks : ∀ other, other ≠ method → (other ∈ run.program.processed ↔ other ∈ crew.run.program.processed))
    (houtline : run.program.outline = crew.run.program.outline) (hcounts : SameCounts crew.run.report run.report)
    (herror : (run.error = crew.run.error ∧ ∀ error, stage ≠ .failed error) ∨
      ∃ error, stage = .failed error ∧ run.error = crew.run.error.or (some error)) :
    Moved settings start method crew (crew.advance method stage run) := by
  have hself : (crew.advance method stage run).stage method = stage := if_pos rfl
  constructor
  case at_stage => rwa [hself]
  case closer =>
    rw [hself]
    omega
  case stages => exact fun other hne => if_neg hne
  case bodies => exact hbodies
  case marks => exact hmarks
  case outline => exact houtline
  case counts => exact hcounts
  case error_kept =>
    intro error hcrew
    change run.error = some error
    rcases herror with ⟨hsame, -⟩ | ⟨_, -, hadded⟩
    · rw [hsame, hcrew]
    · rw [hadded, hcrew, Option.some_or]
  case error_new =>
    intro error hnone hnext
    change run.error = some error at hnext
    rcases herror with ⟨hsame, -⟩ | ⟨found, hfailed, hadded⟩
    · rw [hsame, hnone] at hnext
      cases hnext
    · rw [hadded, hnone, Option.none_or] at hnext
      rw [hself, hfailed, Option.some.inj hnext]
  case failed_kept =>
    intro error hfailed
    rw [hfailed] at hcloser
    exact absurd hcloser (Nat.not_lt_zero _)
  case failed_new =>
    intro error _ hfailed
    rw [hself] at hfailed
    change run.error.isSome = true
    rcases herror with ⟨-, hopen⟩ | ⟨found, -, hadded⟩
    · exact absurd hfailed (hopen error)
    · rw [hadded, Option.isSome_or, Option.isSome_some, Bool.or_true]

/-- A worker at its end does nothing more. -/
theorem Moved.refl (hstage : AtStage settings start crew.run.program method (crew.stage method))
    (hend : (crew.stage method).stepsLeft = 0) : Moved settings start method crew crew := by
  constructor
  case at_stage => exact hstage
  case closer => exact Nat.le_trans (Nat.le_of_eq hend) (Nat.zero_le _)
  case stages => exact fun _ _ => rfl
  case bodies => exact fun _ _ => rfl
  case marks => exact fun _ _ => Iff.rfl
  case outline => rfl
  case counts => exact .refl _
  case error_kept => exact fun _ herror => herror
  case error_new => exact fun _ hnone hsome => absurd (hsome.symm.trans hnone) (Option.some_ne_none _)
  case failed_kept => exact fun _ _ => rfl
  case failed_new => exact fun _ hopen hfailed => absurd hfailed hopen

theorem Moved.of_mark (hcloser : stage.stepsLeft < (crew.stage method).stepsLeft)
    (hopen : ∀ error, stage ≠ .failed error)
    (hstage : AtStage settings start (crew.run.program.markProcessed method) method stage) :
    Moved settings start method crew
      (crew.advance method stage { crew.run with program := crew.run.program.markProcessed method }) := by
  refine .of_advance hcloser hstage ?_ ?_ ?_ (.refl _) (.inl ⟨rfl, hopen⟩)
  · exact fun other _ => Program.body?_markProcessed _ _ other
  · intro other hne
    rw [Program.mem_processed_markProcessed]
    exact or_iff_left hne
  · exact Program.outline_markProcessed _ _

variable (turns : Nat → List MethodId) (graph : CallGraph)

private theorem step_of_waiting (hat : crew.stage method = .waiting)
    (hstage : AtStage settings start crew.run.program method .waiting) :
    Moved settings start method crew ((standard settings turns).step graph crew method) := by
  obtain ⟨hbody, hopen⟩ : crew.run.program.body? method = start.body? method ∧ method ∉ crew.run.program.processed := by
    cases hstage with
    | waiting hbody hopen => exact ⟨hbody, hopen⟩
  cases hfound : crew.run.program.body? method with
  | none =>
    have hfirst : start.body? method = none := hbody.symm.trans hfound
    simp only [step, hat, hfound]
    refine .of_mark (by rw [hat]; decide) nofun (.finished ⟨?_, ?_, ?_, ?_⟩)
    · exact Program.mem_processed_markProcessed.2 (.inr rfl)
    · rw [Program.body?_markProcessed, hfound]
      exact .none hfirst
    · intro body _ hsome
      rw [hfirst] at hsome
      cases hsome
    · rw [changedAlone, hfirst]
      rfl
  | some body =>
    simp only [step, hat, hfound]
    refine .of_advance (by rw [hat]; exact Nat.lt_succ_self 4) (.taken (hbody.symm.trans hfound) ?_ hopen) ?_
      (fun _ _ => Iff.rfl) rfl (.refl _) (.inl ⟨rfl, nofun⟩)
    · rw [Program.body?_removeBody, if_pos rfl]
    · intro other hne
      rw [Program.body?_removeBody, if_neg hne]

/-- The passes read the program as it is at their time. Their result is that of the first body alone, because the
outline is still the first one. -/
theorem step_of_taken {body : Body} (hat : crew.stage method = .taken body)
    (hstage : AtStage settings start crew.run.program method (.taken body))
    (houtline : crew.run.program.outline = start.outline) :
    Moved settings start method crew ((standard settings turns).step graph crew method) := by
  obtain ⟨hending, hquiet⟩ := runPasses_ending settings turns crew.run.program (some graph) body
  cases hstage with
  | taken hfirst hfound hopen =>
    simp only [step, hat]
    refine .of_advance (by rw [hat]; exact Nat.lt_succ_self 3) (.passed hfirst (hending.congr houtline) hfound hopen)
      (fun _ _ => rfl) (fun _ _ => Iff.rfl) rfl ⟨rfl, ?_, rfl, rfl, rfl⟩ (.inl ⟨rfl, nofun⟩)
    exact (EventLog.count_merge _ _ _).trans (congrArg (crew.run.report.events.count .leavesPicked + ·) hquiet)

private theorem step_of_passed {progress : Progress} (hat : crew.stage method = .passed progress)
    (hstage : AtStage settings start crew.run.program method (.passed progress)) :
    Moved settings start method crew ((standard settings turns).step graph crew method) := by
  cases hstage with
  | passed hfirst hending hfound hopen =>
    simp only [step, hat]
    refine .of_advance (by rw [hat]; exact Nat.lt_succ_self 2) (.returned hfirst hending ?_ hopen) ?_
      (fun _ _ => Iff.rfl) rfl (.refl _) (.inl ⟨rfl, nofun⟩)
    · rw [Program.body?_putBody, if_pos rfl]
    · intro other hne
      rw [Program.body?_putBody, if_neg hne]

private theorem step_of_returned {progress : Progress} (hat : crew.stage method = .returned progress)
    (hstage : AtStage settings start crew.run.program method (.returned progress)) :
    Moved settings start method crew ((standard settings turns).step graph crew method) := by
  cases hstage with
  | @returned body _ hfirst hending hfound hopen =>
    cases hending with
    | @stopped error herror hrejected =>
      simp only [step, hat, herror]
      exact .of_advance (by rw [hat]; exact Nat.zero_lt_two) (.failed hfirst hrejected hfound hopen) (fun _ _ => rfl)
        (fun _ _ => Iff.rfl) rfl (.refl _) (.inr ⟨error, rfl, rfl⟩)
    | @passed outcome herror houtcome hbody hchanged hcheck =>
      simp only [step, hat, herror]
      refine .of_mark (by rw [hat]; exact Nat.lt_succ_self 1) nofun (.marked ⟨?_, ?_, ?_, ?_⟩)
      · exact Program.mem_processed_markProcessed.2 (.inr rfl)
      · rw [Program.body?_markProcessed, hfound, hbody]
        exact .some hfirst houtcome
      · intro other result hother hresult
        obtain rfl : body = other := Option.some.inj (hfirst.symm.trans hother)
        obtain rfl : outcome = result := Except.ok.inj (houtcome.symm.trans hresult)
        exact hcheck
      · rw [changedAlone, hfirst, Option.any_some, houtcome, hchanged]

private theorem step_of_marked {changed : Bool} (hat : crew.stage method = .marked changed)
    (hstage : AtStage settings start crew.run.program method (.marked changed)) :
    Moved settings start method crew ((standard settings turns).step graph crew method) := by
  cases hstage with
  | marked hdone =>
    simp only [step, hat]
    refine .of_advance (by rw [hat]; exact Nat.lt_succ_self 0) (.finished hdone) (fun _ _ => rfl) (fun _ _ => Iff.rfl)
      rfl ⟨rfl, ?_, rfl, rfl, rfl⟩ (.inl ⟨rfl, nofun⟩)
    exact EventLog.count_record _ _ _

/-- **One step of a worker.** It comes closer to its end, with what is known at the stage it comes to, and disturbs no
other method. -/
theorem step_moved (hstage : AtStage settings start crew.run.program method (crew.stage method))
    (houtline : crew.run.program.outline = start.outline) :
    Moved settings start method crew ((standard settings turns).step graph crew method) := by
  cases hat : crew.stage method with
  | waiting => exact step_of_waiting turns graph hat (hat ▸ hstage)
  | taken body => exact step_of_taken turns graph hat (hat ▸ hstage) houtline
  | passed progress => exact step_of_passed turns graph hat (hat ▸ hstage)
  | returned progress => exact step_of_returned turns graph hat (hat ▸ hstage)
  | marked changed => exact step_of_marked turns graph hat (hat ▸ hstage)
  | finished changed =>
    simp only [step, hat]
    exact .refl hstage (by rw [hat]; rfl)
  | failed error =>
    simp only [step, hat]
    exact .refl hstage (by rw [hat]; rfl)

end Scheduler

end Bytecode
