import Bytecode.Proofs.CallGraph.Waves
import Bytecode.Proofs.Schedule.Crew
/-!
# A run is the pass on every method

A run processes the methods in the order in which the call graph comes apart, those of a wave with their steps in any
order. What it does to a method depends neither on these orders nor on what was done to other methods: after a run that
was not stopped, every method of the program is marked and has the body that comes of its first body alone, nothing else
is different, and the report counts the waves, the calls that were cut for them and the methods. Whether a run is stopped
does not depend on the order of steps either. A second run is refused at its first wave.
-/

namespace Bytecode.Scheduler

open LoadElimination CallGraph

variable {settings : Settings} {turns : Nat → List MethodId} {start : Program} {waves : List Wave}
  {done : List MethodId}

/-! ### Wave after wave -/

private theorem severed_nextWave {graph : CallGraph} (h : graph.nextWave.brokeCycles = false) :
    graph.nextWave.severed = [] := by
  unfold nextWave at h ⊢
  split at h
  · cases h
  · next hfrontier => rw [if_neg hfrontier]

private theorem processGraph_of_wave {graph rest : CallGraph} {run : Run} {wave : Wave}
    (h : graph.pick run.program.isProcessed = (rest, .ok (some wave))) :
    (standard settings turns).processGraph graph run
      = if ((standard settings turns).processWave rest run wave).error.isSome then (standard settings turns).processWave rest run wave
        else (standard settings turns).processGraph rest ((standard settings turns).processWave rest run wave) := by
  rw [processGraph]
  split
  · next heq => simp [h] at heq
  · next heq => simp [h] at heq
  · next later picked heq =>
    obtain ⟨rfl, rfl⟩ : rest = later ∧ wave = picked := by simpa [h] using heq
    rfl

private theorem processGraph_of_refused {graph rest : CallGraph} (run : Run) {error : Error}
    (h : graph.pick run.program.isProcessed = (rest, .error error)) :
    (standard settings turns).processGraph graph run = { run with error := some error } := by
  rw [processGraph]
  split
  · next heq =>
    obtain ⟨-, rfl⟩ : _ ∧ error = _ := by simpa [h] using heq
    rfl
  · next heq => simp [h] at heq
  · next heq => simp [h] at heq

private theorem processGraph_of_isEmpty {graph : CallGraph} (hgraph : graph.Peelable) (hnodes : graph.nodes = [])
    (run : Run) :
    (standard settings turns).processGraph graph run = run := by
  have hpick := pick_of_isEmpty hgraph hnodes run.program.isProcessed
  rw [processGraph]
  split
  · next heq => simp [hpick] at heq
  · rfl
  · next heq => simp [hpick] at heq

/-- A run that was stopped, with the waves it handed out and those still to come: a wave was refused for a method that
had been processed before the run, or the run was stopped in the last wave. -/
inductive Stopped (settings : Settings) (start : Program) (waves : List Wave) (done : List MethodId) :
    List Wave → List Wave → Run → Prop
  | processed {handed later : List Wave} {wave : Wave} {method : MethodId} {run : Run} :
      Handled settings start (done ++ handed.flatMap (·.methods)) run.program →
      run.report.waves = (waves ++ handed).length →
      (∀ other ∈ handed.flatMap (·.methods), Accepted settings start other) →
      method ∈ wave.methods → method ∈ start.processed → run.error = some (.alreadyProcessed method) →
      Stopped settings start waves done handed (wave :: later) run
  | rejected {handed later : List Wave} {wave : Wave} {run : Run} :
      run.report.waves = (waves ++ (handed ++ [wave])).length →
      (∀ other ∈ handed.flatMap (·.methods), Accepted settings start other) →
      StoppedIn settings start (done ++ handed.flatMap (·.methods)) wave run →
      Stopped settings start waves done (handed ++ [wave]) later run

theorem Stopped.exists_error {handed later : List Wave} {run : Run}
    (h : Stopped settings start waves done handed later run) : ∃ error, run.error = some error := by
  cases h with
  | processed _ _ _ _ _ herror => exact ⟨_, herror⟩
  | rejected _ _ hstopped =>
    obtain ⟨_, _, error, _, _, herror, -⟩ := hstopped.error
    exact ⟨error, herror⟩

/-- A run that was stopped after a wave was done. -/
theorem Stopped.cons {first : Wave} {handed later : List Wave} {run : Run}
    (h : Stopped settings start (waves ++ [first]) (done ++ first.methods) handed later run)
    (hfirst : ∀ method ∈ first.methods, Accepted settings start method) :
    Stopped settings start waves done (first :: handed) later run := by
  cases h with
  | @processed handed later wave method _ hhandled hwaves haccepted hmethod hprocessed herror =>
    refine .processed ?_ ?_ ?_ hmethod hprocessed herror
    · rwa [List.flatMap_cons, ← List.append_assoc]
    · rwa [List.append_cons]
    · exact List.forall_mem_append.2 ⟨hfirst, haccepted⟩
  | @rejected handed later wave _ hwaves haccepted hstopped =>
    change Stopped settings start waves done ((first :: handed) ++ [wave]) later run
    refine .rejected ?_ ?_ ?_
    · rwa [List.cons_append, List.append_cons]
    · exact List.forall_mem_append.2 ⟨hfirst, haccepted⟩
    · rwa [List.flatMap_cons, ← List.append_assoc]

/-- A method that is marked and was not done in the run was marked at the start. -/
theorem Handled.mem_processed_start {program : Program} {method : MethodId} (h : Handled settings start done program)
    (hmark : program.isProcessed method = true) (hfresh : method ∉ done) : method ∈ start.processed := by
  have hmem : method ∈ program.processed := List.contains_iff_mem.1 hmark
  exact ((h.marked method).1 hmem).resolve_right hfresh

/-- **Wave after wave.** Either the run does the methods of all waves that the graph comes apart in, or it is stopped with
some of these waves handed out. -/
theorem processGraph_cases {graph : CallGraph} {run : Run} (hgraph : graph.Peelable) (hrun : run.error = none)
    (hhandled : Handled settings start done run.program) (hcounted : Counted settings start waves done run.report)
    (hdone : ∀ method ∈ graph.methods, method ∉ done) :
    let drained := (graph.drain fun _ => false).waves
    let last := (standard settings turns).processGraph graph run
    (last.error = none ∧ Handled settings start (done ++ drained.flatMap (·.methods)) last.program ∧
      Counted settings start (waves ++ drained) (done ++ drained.flatMap (·.methods)) last.report ∧
      ∀ method ∈ drained.flatMap (·.methods), Accepted settings start method) ∨
    ∃ handed later, drained = handed ++ later ∧ Stopped settings start waves done handed later last := by
  -- every wave leaves a smaller graph
  induction hsize : graph.size using Nat.strong_induction_on generalizing graph run waves done with
  | _ size ih =>
    subst hsize
    by_cases hnodes : graph.nodes = []
    · rw [processGraph_of_isEmpty hgraph hnodes, drain_of_isEmpty hgraph hnodes]
      refine .inl ⟨hrun, ?_⟩
      simpa using ⟨hhandled, hcounted⟩
    · obtain ⟨rest, hpick, hrest, hpeelable⟩ := pick_eq_accept hgraph hnodes
      -- what is left does not depend on which methods have been processed, so draining meets the same graphs
      have hdrain : graph.pick (fun _ => false) = (rest, .ok (some graph.nextWave)) := by
        rw [hpick, acceptWave_of_fresh fun _ _ => rfl]
      rw [drain_of_wave hdrain]
      cases hfind : graph.nextWave.methods.find? run.program.isProcessed with
      | some method =>
        have hrefused : graph.pick run.program.isProcessed = (rest, .error (.alreadyProcessed method)) := by
          rw [hpick, acceptWave, hfind]
        have hmethod := List.mem_of_find?_eq_some hfind
        have hprocessed : method ∈ start.processed :=
          hhandled.mem_processed_start (List.find?_some hfind) (hdone method (nextWave_methods_subset hgraph hmethod))
        rw [processGraph_of_refused run hrefused]
        refine .inr ⟨[], _, rfl, .processed ?_ ?_ (by simp) hmethod hprocessed rfl⟩
        · simpa using hhandled
        · simpa using hcounted.announced
      | none =>
        have hpicked : graph.pick run.program.isProcessed = (rest, .ok (some graph.nextWave)) := by
          rw [hpick, acceptWave, hfind]
        have hnew : ∀ method ∈ graph.nextWave.methods, method ∉ run.program.processed ∧ method ∉ done := by
          intro method hmethod
          refine ⟨?_, hdone method (nextWave_methods_subset hgraph hmethod)⟩
          simpa [Program.isProcessed] using List.find?_eq_none.1 hfind method hmethod
        rw [processGraph_of_wave hpicked]
        rcases processWave_cases turns rest hrun hhandled hcounted severed_nextWave hnew with
          ⟨herror, hhandled', hcounted', haccepted⟩ | ⟨hannounced, hstopped⟩
        · have hgoes : ¬ ((standard settings turns).processWave rest run graph.nextWave).error.isSome = true := by
            rw [herror]
            exact Bool.false_ne_true
          have hdone' : ∀ method ∈ rest.methods, method ∉ done ++ graph.nextWave.methods := by
            intro method hmethod
            rw [methods, hrest, methods_remaining, List.mem_filter] at hmethod
            rw [List.mem_append, not_or]
            exact ⟨hdone method hmethod.1, by simpa using hmethod.2⟩
          rw [if_neg hgoes]
          rcases ih rest.size (size_pick_lt hpicked) hpeelable herror hhandled' hcounted' hdone' rfl with
            ⟨hend, hall, hcount, hothers⟩ | ⟨handed, later, hwaves, hstopped⟩
          · refine .inl ⟨hend, by simpa using hall, by simpa using hcount, ?_⟩
            exact List.forall_mem_append.2 ⟨haccepted, hothers⟩
          · exact .inr ⟨graph.nextWave :: handed, later, by simp [hwaves], hstopped.cons haccepted⟩
        · obtain ⟨_, _, _, _, _, herror, -⟩ := hstopped.error
          rw [if_pos (by rw [herror]; rfl)]
          refine .inr ⟨[] ++ [graph.nextWave], _, rfl, .rejected hannounced (by simp) ?_⟩
          simpa using hstopped

/-! ### The whole run -/

/-- How a run can end: with all methods done, or stopped with some of the waves handed out. -/
theorem run_cases (settings : Settings) (turns : Nat → List MethodId) (program : Program) (mapping : MethodMapping) :
    let drained := ((build program mapping).drain fun _ => false).waves
    let last := (standard settings turns).run program mapping
    (last.error = none ∧ Handled settings program (drained.flatMap (·.methods)) last.program ∧
      Counted settings program drained (drained.flatMap (·.methods)) last.report ∧
      ∀ method ∈ drained.flatMap (·.methods), Accepted settings program method) ∨
    ∃ handed later, drained = handed ++ later ∧ Stopped settings program [] [] handed later last := by
  let initial : Run := { program, report := ({} : Report).record (build program mapping).builtEvent }
  have hstart : Handled settings program [] initial.program := .init settings program
  have hreport : Counted settings program [] [] initial.report := ⟨rfl, rfl, rfl, rfl, rfl⟩
  exact processGraph_cases (Peelable.build program mapping) rfl hstart hreport fun _ _ => List.not_mem_nil

/-- The waves hold the methods of the program, each once. -/
theorem drained_perm {program : Program} (hprogram : program.Coherent) (mapping : MethodMapping) :
    (((build program mapping).drain fun _ => false).waves.flatMap (·.methods)).Perm program.programMethods := by
  have hpeelable := Peelable.build program mapping
  have htaken := (drain_takenApart hpeelable fun _ _ => rfl).1
  exact (htaken.waves_methods_perm hpeelable.balanced.distinct).trans (methods_build_perm hprogram mapping)

theorem Handled.programMethods_eq {program : Program} (h : Handled settings start done program) :
    program.programMethods = start.programMethods := by
  have hsame := congrArg Program.programMethods h.outline
  exact hsame

theorem Handled.coherent {program : Program} (h : Handled settings start done program) (hstart : start.Coherent) :
    program.Coherent := by
  have htypes := congrArg Program.types h.outline
  have hmethods := congrArg Program.methods h.outline
  have hfields := congrArg Program.fields h.outline
  exact hstart.of_tables_eq htypes hmethods hfields

/-- A program whose methods have all been processed is refused as it is. -/
theorem run_of_processed {program : Program} (hprogram : program.Coherent) (hmethods : program.programMethods ≠ [])
    (hall : ∀ method ∈ program.programMethods, program.isProcessed method = true) (settings : Settings)
    (turns : Nat → List MethodId) (mapping : MethodMapping) :
    ((standard settings turns).run program mapping).program = program ∧
      ∃ method ∈ program.programMethods,
        ((standard settings turns).run program mapping).error = some (.alreadyProcessed method) := by
  have hbuild := methods_build_perm hprogram mapping
  have hpeelable := Peelable.build program mapping
  have hnodes : (build program mapping).nodes ≠ [] := by
    intro hnil
    rw [methods, hnil] at hbuild
    exact hmethods hbuild.symm.eq_nil
  have hmem : ∀ method ∈ (build program mapping).nextWave.methods, method ∈ program.programMethods :=
    fun method hmethod => hbuild.mem_iff.1 (nextWave_methods_subset hpeelable hmethod)
  obtain ⟨rest, hpick, -⟩ := pick_eq_accept hpeelable hnodes
  obtain ⟨method, hfind⟩ : ∃ method, (build program mapping).nextWave.methods.find? program.isProcessed = some method := by
    obtain ⟨first, hfirst⟩ := List.exists_mem_of_ne_nil _ (nextWave_methods_ne_nil hnodes)
    rw [← Option.isSome_iff_exists, List.find?_isSome]
    exact ⟨first, hfirst, hall first (hmem first hfirst)⟩
  have hrefused : (build program mapping).pick program.isProcessed = (rest, .error (.alreadyProcessed method)) := by
    rw [hpick, acceptWave, hfind]
  let initial : Run := { program, report := ({} : Report).record (build program mapping).builtEvent }
  have hstopped : (standard settings turns).run program mapping = { initial with error := some (.alreadyProcessed method) } :=
    processGraph_of_refused initial hrefused
  rw [hstopped]
  exact ⟨rfl, method, hmem method (List.mem_of_find?_eq_some hfind), rfl⟩

/-- The run is the pass on every method of the program: these and no others are marked, each has the body that comes of its
own first body, and the report counts them, the waves in which the call graph comes apart and the calls cut for these. -/
structure PointwisePass (settings : Settings) (program : Program) (mapping : MethodMapping) (run : Run) : Prop where
  marked : ∀ method, run.program.isProcessed method = true ↔ method ∈ program.programMethods
  bodies : ∀ method ∈ program.programMethods, BodyAlone settings program method (run.program.body? method)
  other_bodies : ∀ method, method ∉ program.programMethods → run.program.body? method = program.body? method
  definitions : run.program.outline = program.outline
  methodsProcessed : run.report.methodsProcessed = program.programMethods.length
  changedMethods : run.report.changedMethods = program.programMethods.countP (changedAlone settings program)
  waves : run.report.waves = ((build program mapping).drain fun _ => false).waves.length
  leavesPicked : run.report.waves = run.report.events.count .leavesPicked
  severedCalls : run.report.severedCalls
    = (((build program mapping).drain fun _ => false).waves.map (·.severedCount)).sum

/-- A method that is done is not one at which a worker fails. -/
theorem Rejected.not_accepted {program : Program} {method : MethodId} {body left : Body} {error : Error}
    (h : Rejected settings program body error left) (hbody : program.body? method = some body) {found : Option Body}
    (hfound : BodyAlone settings program method found) (haccepted : Accepted settings program method) : False := by
  cases hfound with
  | none hnone => cases hbody.symm.trans hnone
  | @some first outcome hfirst houtcome =>
    obtain rfl : first = body := Option.some.inj (hfirst.symm.trans hbody)
    cases h with
    | failed hfailed => cases houtcome.symm.trans hfailed
    | refused hresult hverify hchanged hcheck =>
      cases (haccepted first _ hbody hresult hverify hchanged).symm.trans hcheck

/-- **The order of steps does not decide whether a run is stopped.** If it is not stopped with its workers taking turns in
one order, it is not in any other. -/
theorem error_eq_none_of_turns {program : Program} (hfresh : program.processed = []) (settings : Settings)
    (turns others : Nat → List MethodId) (mapping : MethodMapping)
    (h : ((standard settings turns).run program mapping).error = none) :
    ((standard settings others).run program mapping).error = none := by
  rcases run_cases settings turns program mapping with ⟨-, hhandled, -, haccepted⟩ | ⟨handed, later, -, hstopped⟩
  · rcases run_cases settings others program mapping with ⟨hend, -⟩ | ⟨handed, later, hwaves, hstopped⟩
    · exact hend
    · exfalso
      cases hstopped with
      | processed _ _ _ _ hprocessed =>
        rw [hfresh] at hprocessed
        exact List.not_mem_nil hprocessed
      | @rejected handed later wave _ _ _ hstopped =>
        obtain ⟨method, hmethod, error, body, left, -, hbody, hrejected, -⟩ := hstopped.error
        have hmem : method ∈ ((build program mapping).drain fun _ => false).waves.flatMap (·.methods) := by
          rw [hwaves]
          simp [hmethod]
        exact hrejected.not_accepted hbody (hhandled.finished method hmem) (haccepted method hmem)
  · obtain ⟨error, herror⟩ := hstopped.exists_error
    exact absurd (herror.symm.trans h) (Option.some_ne_none error)

/-- **A run is the pointwise pass.** If a run over a program without processed methods is not stopped, it is the pass on
every method by itself, whatever the waves and in whatever order their workers make their steps. Another run over the
result is refused at a method of the program and leaves the program as it is. -/
theorem run_is_pass_on_every_method {program : Program} (hbuilt : program.Built) (hfresh : program.processed = [])
    (settings : Settings) (turns : Nat → List MethodId) (mapping : MethodMapping)
    (h : ((standard settings turns).run program mapping).error = none) :
    PointwisePass settings program mapping ((standard settings turns).run program mapping) ∧
    ∀ settings' turns' mapping', program.programMethods ≠ [] →
      let again := (standard settings' turns').run ((standard settings turns).run program mapping).program mapping'
      again.program = ((standard settings turns).run program mapping).program ∧
        ∃ method ∈ program.programMethods, again.error = some (.alreadyProcessed method) := by
  have hprogram := hbuilt.coherent
  rcases run_cases settings turns program mapping with ⟨-, hhandled, hcounted, -⟩ | ⟨handed, later, -, hstopped⟩
  case inr =>
    obtain ⟨error, herror⟩ := hstopped.exists_error
    exact absurd (herror.symm.trans h) (Option.some_ne_none error)
  -- the methods done are those of the program, in the order of the waves
  have hperm := drained_perm hprogram mapping
  have hmarked : ∀ method, ((standard settings turns).run program mapping).program.isProcessed method = true ↔
      method ∈ program.programMethods := by
    intro method
    rw [Program.isProcessed, List.contains_iff_mem, hhandled.marked, hfresh, ← hperm.mem_iff]
    simp
  refine ⟨?_, ?_⟩
  · exact
      { marked := hmarked
        bodies := fun method hmethod => hhandled.finished method (hperm.mem_iff.2 hmethod)
        other_bodies := fun method hmethod => hhandled.untouched method fun hdone => hmethod (hperm.mem_iff.1 hdone)
        definitions := hhandled.outline
        methodsProcessed := hcounted.processed.trans hperm.length_eq
        changedMethods := hcounted.changed.trans (hperm.countP_eq _)
        waves := hcounted.announced
        leavesPicked := hcounted.announced.trans hcounted.picked.symm
        severedCalls := hcounted.severed }
  · intro settings' turns' mapping' hmethods
    have hsame := hhandled.programMethods_eq
    have hagain := run_of_processed (hhandled.coherent hprogram) (hsame ▸ hmethods)
      (fun method hmethod => (hmarked method).2 (hsame ▸ hmethod)) settings' turns' mapping'
    rwa [hsame] at hagain

/-- Two methods that call each other, one of which reads a field twice, and a method without a body. -/
def readingTwice : Program :=
  let declared := (({} : Program).declareClass "LA;" .program ⟨1⟩ none []).1
  let withField := (declared.addField ⟨0⟩ "x" "I" ⟨1⟩).1
  let withMethods := (((withField.addMethod ⟨0⟩ "f" "(LA;)V" ⟨9⟩).1.addMethod ⟨0⟩ "g" "()V" ⟨9⟩).1.addMethod ⟨0⟩ "h"
    "()V" ⟨0x401⟩).1
  let read (dest : Nat) : Instruction :=
    { operation := .instanceGet ⟨dest⟩ ⟨0⟩ { holder := ⟨0⟩, name := "x", descriptor := "I" } }
  let call (callee descriptor : String) (arguments : List ValueId) : Instruction :=
    { operation := .invoke none .static { holder := ⟨0⟩, name := callee, descriptor } arguments }
  let reading : Body :=
    { method := ⟨0⟩
      values := [{}, {}, {}]
      blocks := [{ instructions := [{ operation := .argument ⟨0⟩ 0 }, read 1, read 2, call "g" "()V" [],
        { operation := .return none }] }] }
  let calling : Body :=
    { method := ⟨1⟩
      values := [{}]
      blocks := [{ instructions := [{ operation := .constNull ⟨0⟩ }, call "f" "(LA;)V" [⟨0⟩],
        { operation := .return none }] }] }
  (withMethods.putBody ⟨0⟩ reading).putBody ⟨1⟩ calling

private theorem readingTwice_built : readingTwice.Built :=
  .putBody _ _ (.putBody _ _ (.addMethod _ _ _ _ (.addMethod _ _ _ _ (.addMethod _ _ _ _ (.addField _ _ _ _
    (.declareClass _ _ _ _ _ .empty))))))

/-- The method without a body comes first, then the cycle is cut and two workers make their steps in turn. One body is
changed. -/
theorem run_is_pass_on_readingTwice :
    let turns : Nat → List MethodId := fun _ => [⟨1⟩, ⟨0⟩, ⟨1⟩, ⟨0⟩, ⟨1⟩, ⟨0⟩]
    let run := (standard {} turns).run readingTwice .empty
    readingTwice.Built ∧ readingTwice.processed = [] ∧ run.error = none ∧ readingTwice.programMethods ≠ [] ∧
      run.report.changedMethods = 1 ∧ run.report.severedCalls = 2 ∧ PointwisePass {} readingTwice .empty run ∧
      ∀ settings' turns' mapping', readingTwice.programMethods ≠ [] →
        let again := (standard settings' turns').run run.program mapping'
        again.program = run.program ∧ ∃ method ∈ readingTwice.programMethods, again.error = some (.alreadyProcessed method) := by
  intro turns run
  have herror : run.error = none := Option.isNone_iff_eq_none.1 (by decide +kernel)
  exact ⟨readingTwice_built, rfl, herror, by decide, by decide +kernel, by decide +kernel,
    run_is_pass_on_every_method readingTwice_built rfl {} turns .empty herror⟩

end Bytecode.Scheduler
