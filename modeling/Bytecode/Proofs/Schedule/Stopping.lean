import Bytecode.Proofs.Schedule.Pointwise
/-!
# A run that is stopped

An error can stop a run at any wave: the wave holds a method that was processed before, or the body of one of its
methods is rejected. By then the workers of the wave may have made any steps in any order, so which methods of the wave
are done, which are rejected and which were not begun is open, and so is which of several errors is reported. But each of
its methods is settled in one of these ways. So no body is lost, every new mark stands for a method that was finished, no
mark stands at a rejected one, and what was not handed out is as it was.
-/

namespace Bytecode.Scheduler

open LoadElimination CallGraph

variable {settings : Settings} {start program : Program} {done : List MethodId} {method : MethodId}

/-! ### Bodies -/

theorem BodyAlone.isSome {found : Option Body} (h : BodyAlone settings start method found) :
    found.isSome = (start.body? method).isSome := by
  cases h with
  | none hnone => rw [hnone]
  | some hsome => rw [hsome]; rfl

private theorem Settled.isSome_body? (h : Settled settings start program method) :
    (program.body? method).isSome = (start.body? method).isSome := by
  cases h with
  | done _ hbody _ => exact hbody.isSome
  | rejected hfirst _ hfound _ => rw [hfirst, hfound]; rfl
  | untouched hbody _ => rw [hbody]

/-! ### How a run is stopped -/

/-- The reason for which a run was stopped, with the waves it handed out and those still to come. Either the next wave
holds a method that had been processed before, and then all that was handed out is done; or the body of a method of the
last wave was rejected, and this method has the body that is left of it and no mark. Then all waves before are done, and
every method of the last one is done, rejected or untouched. -/
inductive StopReason (settings : Settings) (program : Program) (run : Run) : List Wave → List Wave → Error → Prop
  | processed {handed later : List Wave} {wave : Wave} {method : MethodId} : method ∈ wave.methods →
      program.isProcessed method = true →
      (∀ other ∈ handed.flatMap (·.methods), run.program.isProcessed other = true) →
      StopReason settings program run handed (wave :: later) (.alreadyProcessed method)
  | rejected {handed later : List Wave} {wave : Wave} {method : MethodId} {body left : Body} {error : Error} :
      method ∈ wave.methods → program.body? method = some body → Rejected settings program body error left →
      run.program.body? method = some left → run.program.isProcessed method = false →
      (∀ other ∈ handed.flatMap (·.methods), run.program.isProcessed other = true) →
      (∀ other ∈ wave.methods, Settled settings program run.program other) →
      StopReason settings program run (handed ++ [wave]) later error

/-- What a run that handed out the given waves leaves in order. -/
structure KeepsOrder (settings : Settings) (program : Program) (handed : List Wave) (run : Run) : Prop where
  definitions : run.program.outline = program.outline
  bodies : ∀ method, (run.program.body? method).isSome = (program.body? method).isSome
  marks_kept : ∀ method, program.isProcessed method = true → run.program.isProcessed method = true
  marked : ∀ method, run.program.isProcessed method = true → program.isProcessed method = false →
    method ∈ program.programMethods ∧ method ∈ handed.flatMap (·.methods) ∧
      BodyAlone settings program method (run.program.body? method) ∧ Accepted settings program method
  rejected : ∀ method body error left, program.body? method = some body → Rejected settings program body error left →
    program.isProcessed method = false → run.program.isProcessed method = false
  not_handed : ∀ method, method ∉ handed.flatMap (·.methods) → run.program.body? method = program.body? method

theorem isProcessed_iff_mem : program.isProcessed method = true ↔ method ∈ program.processed :=
  List.contains_iff_mem

/-- If every handed out method is settled and the rest is as it was, all is in order. -/
theorem KeepsOrder.of_settled {run : Run} {handed : List Wave} (houtline : run.program.outline = start.outline)
    (hmarks : ∀ method ∈ start.processed, method ∈ run.program.processed)
    (hsettled : ∀ method ∈ handed.flatMap (·.methods), Settled settings start run.program method)
    (hothers : ∀ method, method ∉ handed.flatMap (·.methods) →
      run.program.body? method = start.body? method ∧ (method ∈ run.program.processed → method ∈ start.processed))
    (hmethods : handed.flatMap (·.methods) ⊆ start.programMethods) : KeepsOrder settings start handed run := by
  have hmarked : ∀ method, run.program.isProcessed method = true → start.isProcessed method = false →
      method ∈ start.programMethods ∧ method ∈ handed.flatMap (·.methods) ∧
        BodyAlone settings start method (run.program.body? method) ∧ Accepted settings start method := by
    intro method hmark hnew
    have hmem := isProcessed_iff_mem.1 hmark
    by_cases hmethod : method ∈ handed.flatMap (·.methods)
    · refine ⟨hmethods hmethod, hmethod, ?_⟩
      cases hsettled method hmethod with
      | done _ hbody haccepted => exact ⟨hbody, haccepted⟩
      | rejected _ _ _ hopen => exact absurd hmem hopen
      | untouched _ hopen => exact absurd hmem hopen
    · have hold := isProcessed_iff_mem.2 ((hothers method hmethod).2 hmem)
      exact absurd (hnew.symm.trans hold) Bool.false_ne_true
  constructor
  case definitions => exact houtline
  case bodies =>
    intro method
    by_cases hmethod : method ∈ handed.flatMap (·.methods)
    · exact (hsettled method hmethod).isSome_body?
    · rw [(hothers method hmethod).1]
  case marks_kept => exact fun method hmark => isProcessed_iff_mem.2 (hmarks method (isProcessed_iff_mem.1 hmark))
  case marked => exact hmarked
  case rejected =>
    intro method body error left hbody hrejected hnew
    rw [Bool.eq_false_iff]
    intro hmark
    obtain ⟨-, -, hfound, haccepted⟩ := hmarked method hmark hnew
    exact hrejected.not_accepted hbody hfound haccepted
  case not_handed => exact fun method hmethod => (hothers method hmethod).1

/-- A stopped run is in order and has one of the two reasons. -/
theorem Stopped.keepsOrder {run : Run} {handed later : List Wave} (h : Stopped settings start [] [] handed later run)
    (hmethods : handed.flatMap (·.methods) ⊆ start.programMethods) :
    run.report.waves = handed.length ∧ KeepsOrder settings start handed run ∧
      ∀ error, run.error = some error → StopReason settings start run handed later error := by
  cases h with
  | @processed handed later wave method _ hhandled hwaves haccepted hmethod hprocessed herror =>
    refine ⟨hwaves, .of_settled hhandled.outline (fun other hmark => (hhandled.marked other).2 (.inl hmark)) ?_ ?_ hmethods,
      ?_⟩
    · exact fun other hother =>
        .done ((hhandled.marked other).2 (.inr hother)) (hhandled.finished other hother) (haccepted other hother)
    · intro other hother
      exact ⟨hhandled.untouched other hother, fun hmark => ((hhandled.marked other).1 hmark).resolve_right hother⟩
    · intro error hstop
      obtain rfl : Error.alreadyProcessed method = error := Option.some.inj (herror.symm.trans hstop)
      refine .processed hmethod (isProcessed_iff_mem.2 hprocessed) fun other hother => ?_
      exact isProcessed_iff_mem.2 ((hhandled.marked other).2 (.inr hother))
  | @rejected handed later wave _ hwaves haccepted hstopped =>
    rw [List.nil_append] at hwaves hstopped
    have hlast {other : MethodId} : other ∈ (handed ++ [wave]).flatMap (·.methods) ↔
        other ∈ handed.flatMap (·.methods) ∨ other ∈ wave.methods := by
      simp
    refine ⟨hwaves, .of_settled hstopped.outline hstopped.marks_kept ?_ ?_ hmethods, ?_⟩
    · intro other hother
      rcases hlast.1 hother with hdone | hwave
      · obtain ⟨hmark, hbody⟩ := hstopped.finished other hdone
        exact .done hmark hbody (haccepted other hdone)
      · exact hstopped.settled other hwave
    · intro other hother
      rw [hlast, not_or] at hother
      exact hstopped.untouched other hother.1 hother.2
    · intro stop hstop
      obtain ⟨method, hmethod, error, body, left, herror, hbody, hrejected, hfound, hopen⟩ := hstopped.error
      obtain rfl : error = stop := Option.some.inj (herror.symm.trans hstop)
      refine .rejected hmethod hbody hrejected hfound ?_ ?_ hstopped.settled
      · rw [Bool.eq_false_iff]
        exact mt isProcessed_iff_mem.1 hopen
      · exact fun other hother => isProcessed_iff_mem.2 (hstopped.finished other hother).1

/-- **A stopped run loses nothing.** Whatever was processed before and in whatever order the workers make their steps, if a
run ends with an error, it has handed out the first of the waves in which the call graph comes apart. Every method that
had a body has one and no other; a new mark stands for a method of the program that was handed out, on which the pass
succeeded, with the body that comes of its own first body; a method whose body is rejected gets no mark; what was not
handed out has the body it had. The error is that of a wave with a method processed before, or that of a rejected body of
the last wave, each of whose methods is then done, rejected or untouched. -/
theorem stopped_run_keeps_order {program : Program} (hbuilt : program.Built) (settings : Settings)
    (turns : Nat → List MethodId) (mapping : MethodMapping) {error : Error}
    (h : ((standard settings turns).run program mapping).error = some error) :
    ∃ handed later, ((build program mapping).drain fun _ => false).waves = handed ++ later ∧
      ((standard settings turns).run program mapping).report.waves = handed.length ∧
      KeepsOrder settings program handed ((standard settings turns).run program mapping) ∧
      StopReason settings program ((standard settings turns).run program mapping) handed later error := by
  rcases run_cases settings turns program mapping with ⟨hend, -⟩ | ⟨handed, later, hwaves, hstopped⟩
  · exact absurd (h.symm.trans hend) (Option.some_ne_none error)
  · have hmethods : handed.flatMap (·.methods) ⊆ program.programMethods := by
      intro method hmethod
      rw [← (drained_perm hbuilt.coherent mapping).mem_iff, hwaves, List.flatMap_append]
      exact List.mem_append_left _ hmethod
    obtain ⟨hannounced, horder, hreason⟩ := hstopped.keepsOrder hmethods
    exact ⟨handed, later, hwaves, hannounced, horder, hreason error h⟩

/-- Three methods that call nothing and read a field twice, and one that calls the first. The second and the third return
values that are nowhere defined. -/
def failingTwo : Program :=
  let declared := (({} : Program).declareClass "LA;" .program ⟨1⟩ none []).1
  let withField := (declared.addField ⟨0⟩ "x" "I" ⟨1⟩).1
  let withFirst := ((withField.addMethod ⟨0⟩ "f" "(LA;)I" ⟨9⟩).1.addMethod ⟨0⟩ "g" "(LA;)I" ⟨9⟩).1
  let withMethods := ((withFirst.addMethod ⟨0⟩ "h" "(LA;)I" ⟨9⟩).1.addMethod ⟨0⟩ "k" "(LA;)V" ⟨9⟩).1
  let argument : Instruction := { operation := .argument ⟨0⟩ 0 }
  let read (dest : Nat) : Instruction :=
    { operation := .instanceGet ⟨dest⟩ ⟨0⟩ { holder := ⟨0⟩, name := "x", descriptor := "I" } }
  let call : Instruction :=
    { operation := .invoke none .static { holder := ⟨0⟩, name := "f", descriptor := "(LA;)I" } [⟨0⟩] }
  let body (method : Nat) (instructions : List Instruction) : Body :=
    { method := ⟨method⟩
      values := [{}, {}, {}]
      blocks := [{ instructions := argument :: instructions }] }
  let reading (method result : Nat) : Body := body method [read 1, read 2, { operation := .return (some ⟨result⟩) }]
  let calling : Body := body 3 [call, { operation := .return none }]
  (((withMethods.putBody ⟨0⟩ (reading 0 2)).putBody ⟨1⟩ (reading 1 7)).putBody ⟨2⟩ (reading 2 8)).putBody ⟨3⟩ calling

private theorem failingTwo_built : failingTwo.Built :=
  .putBody _ _ (.putBody _ _ (.putBody _ _ (.putBody _ _ (.addMethod _ _ _ _ (.addMethod _ _ _ _ (.addMethod _ _ _ _
    (.addMethod _ _ _ _ (.addField _ _ _ _ (.declareClass _ _ _ _ _ .empty)))))))))

/-- The third worker is the first to report its error, while the first one is on its way and goes on to its end. The
second is not begun, and the last method is not handed out. One after another, the second would have stopped the run. -/
theorem stopped_run_keeps_failingTwo :
    let turns : Nat → List MethodId := fun _ => [⟨2⟩, ⟨0⟩, ⟨2⟩, ⟨2⟩, ⟨2⟩]
    let run := (standard {} turns).run failingTwo .empty
    failingTwo.Built ∧ run.error = some (.defectiveBody ⟨2⟩ (.undefinedUse 0 ⟨8⟩)) ∧ run.program.processed = [⟨0⟩] ∧
      run.program.body? ⟨1⟩ = failingTwo.body? ⟨1⟩ ∧
      ((standard {}).run failingTwo .empty).error = some (.defectiveBody ⟨1⟩ (.undefinedUse 0 ⟨7⟩)) ∧
      ∃ handed later, ((build failingTwo .empty).drain fun _ => false).waves = handed ++ later ∧
        run.report.waves = handed.length ∧ KeepsOrder {} failingTwo handed run ∧
        StopReason {} failingTwo run handed later (.defectiveBody ⟨2⟩ (.undefinedUse 0 ⟨8⟩)) := by
  intro turns run
  have herror : run.error = some (.defectiveBody ⟨2⟩ (.undefinedUse 0 ⟨8⟩)) := by decide +kernel
  exact ⟨failingTwo_built, herror, by decide +kernel, by decide +kernel, by decide +kernel,
    stopped_run_keeps_order failingTwo_built {} turns .empty herror⟩

end Bytecode.Scheduler
