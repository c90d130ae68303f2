import Bytecode.Proofs.LoadElimination.Sweep
/-!
# What the pass reads of a program

The pass looks up types, members, summaries and pins. It reads no body but the one it is given, no mark and no call
graph. So its outcome is the same in any two programs with the same outline: whatever has been done to other methods, in
whatever order, a method's body comes out as it would have at first.
-/

namespace Bytecode

/-- The program without its bodies and without the marks of processed methods. -/
def Program.outline (program : Program) : Program :=
  { program with bodies := .empty, processed := [] }

namespace LoadElimination

/-! ### The facts -/

namespace Scope

def outline (scope : Scope) : Scope :=
  { scope with program := scope.program.outline }

variable (scope : Scope)

private theorem after_outline (body : Body) (facts : Facts) (operation : Operation) :
    scope.outline.after body facts operation = scope.after body facts operation := by
  cases operation <;> rfl

private theorem redundancy?_outline (body : Body) (facts : Facts) (operation : Operation) :
    scope.outline.redundancy? body facts operation = scope.redundancy? body facts operation := by
  cases operation <;> rfl

private theorem withoutEffectOf_outline (body : Body) (facts : Facts) (operation : Operation) :
    scope.outline.withoutEffectOf body facts operation = scope.withoutEffectOf body facts operation := by
  cases operation <;> rfl

end Scope

/-! ### The sweep -/

variable (scope : Scope)

private theorem eliminate_outline (sweep : Sweep) (block position : Nat) (redundancy : Redundancy) :
    sweep.eliminate scope.outline block position redundancy = sweep.eliminate scope block position redundancy := by
  cases redundancy <;> rfl

private theorem sweepBlock_outline (block remaining position : Nat) (sweep : Sweep) (facts : Facts) :
    sweepBlock scope.outline block remaining position sweep facts
      = sweepBlock scope block remaining position sweep facts := by
  induction remaining generalizing position sweep facts with
  | zero => rfl
  | succ remaining ih =>
    simp only [sweepBlock, Scope.redundancy?_outline, Scope.after_outline, eliminate_outline, ih]

private theorem propagate_outline (body : Body) (position : Nat) (facts : Facts) (waiting : Waiting) :
    propagate scope.outline body position facts waiting = propagate scope body position facts waiting := by
  simp only [propagate, passedFacts, Scope.withoutEffectOf_outline]

private theorem visitBlock_outline : visitBlock scope.outline = visitBlock scope := by
  funext state block
  simp only [visitBlock, sweepBlock_outline, propagate_outline]

private theorem sweepBody_outline (body : Body) : sweepBody scope.outline body = sweepBody scope body := by
  simp only [sweepBody, visitBlock_outline]

/-! ### The pass -/

/-- The pass reads nothing of its context but the outline of the program and the settings. -/
theorem runWithStats_outline (program : Program) (settings : Settings) (callGraph : Option CallGraph) (body : Body) :
    runWithStats { program, settings, callGraph } body = runWithStats { program := program.outline, settings } body := by
  unfold runWithStats
  refine congrArg (program.method body.method >>= ·) ?_
  funext definition
  let scope : Scope := { program, settings, method := body.method, holder := definition.holder }
  have hsweep := sweepBody_outline scope body
  exact congrArg (fun result => result >>= fun sweep => pure (finish scope sweep)) hsweep.symm

/-! ### Events -/

/-- A sweep logs what it eliminates and nothing else. -/
theorem Reached.isTransformation {scope : Scope} {body : Body} {done : List Nat} {sweep : Sweep} {stage : Stage}
    (h : Reached scope body done sweep stage) : ∀ event ∈ sweep.events, event.kind.isTransformation = true := by
  induction h using Reached.induction with
  | start => simp
  | step _ hstep ih =>
    cases hstep with
    | enter | keep | leave => exact ih
    | @eliminate _ block position sweep _ _ _ redundancy _ _ =>
      intro event hevent
      cases redundancy
      all_goals
        rcases List.mem_append.1 hevent with hbefore | hlast
        · exact ih event hbefore
        · rw [List.mem_singleton.1 hlast]
          rfl

/-! ### A body on its own -/

/-- All that the pass is given besides a body: the outline of the program and the settings. -/
def contextAlone (settings : Settings) (program : Program) : PassContext :=
  { program := program.outline, settings }

/-- What comes of a body by itself: the outcome of the pass, or the body as it is if the pass does not apply. -/
def outcomeAlone (settings : Settings) (program : Program) (body : Body) : Except Error PassOutcome :=
  if pass.applies (contextAlone settings program) body then pass.run (contextAlone settings program) body
  else .ok (.unchanged body)

theorem pass_run_eq (settings : Settings) (program : Program) (callGraph : Option CallGraph) (body : Body) :
    pass.run { program, settings, callGraph } body = pass.run (contextAlone settings program) body :=
  congrArg (Functor.map Prod.fst) (runWithStats_outline program settings callGraph body)

/-- The events of an outcome are changes of code and the note that the pass is complete. -/
theorem kind_of_outcomeAlone {settings : Settings} {program : Program} {body : Body} {outcome : PassOutcome}
    (h : outcomeAlone settings program body = .ok outcome) :
    ∀ event ∈ outcome.events, event.kind.isTransformation = true ∨ event.kind = .passCompleted := by
  unfold outcomeAlone at h
  split at h
  · obtain ⟨⟨finished, stats⟩, hrun, rfl⟩ := exists_of_map_eq_ok h
    obtain ⟨definition, -, hrest⟩ := exists_of_bind_eq_ok hrun
    obtain ⟨sweep, hsweep, hfinish⟩ := exists_of_bind_eq_ok hrest
    obtain ⟨waiting, hreached⟩ := sweepBody_reached hsweep
    have hevents := congrArg (·.1.events) (Except.ok.inj hfinish)
    intro event hevent
    simp only at hevents hevent
    rw [← hevents, finish] at hevent
    split at hevent
    · rcases List.mem_append.1 hevent with hswept | hlast
      · exact .inl (hreached.isTransformation event hswept)
      · rw [List.mem_singleton.1 hlast]
        exact .inr rfl
    · exact absurd hevent List.not_mem_nil
  · cases h
    simp [PassOutcome.unchanged]

end LoadElimination

end Bytecode
