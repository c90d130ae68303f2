import Bytecode.Proofs.Schedule.Worker
/-!
# A wave in any order

The workers of a wave make their steps in any order. What is known of each method at its stage is kept by the steps of its
own worker and of all others, so it is known after any turns. In the end every worker has come to its end, or waits
because there is an error. Without an error all methods of the wave are done. With an error some are done, some are
rejected and some were not begun, and the error is that of a rejected one.
-/

namespace Bytecode.Scheduler

open LoadElimination

/-! ### What has been done -/

/-- The program in the course of a run that started with `start`, with the given methods done. -/
structure Handled (settings : Settings) (start : Program) (done : List MethodId) (program : Program) : Prop where
  outline : program.outline = start.outline
  marked : ∀ method, method ∈ program.processed ↔ method ∈ start.processed ∨ method ∈ done
  finished : ∀ method ∈ done, BodyAlone settings start method (program.body? method)
  untouched : ∀ method, method ∉ done → program.body? method = start.body? method

/-- The report in the course of a run, with the given waves announced and the given methods done. -/
structure Counted (settings : Settings) (start : Program) (waves : List Wave) (done : List MethodId) (report : Report) :
    Prop where
  announced : report.waves = waves.length
  picked : report.events.count .leavesPicked = waves.length
  severed : report.severedCalls = (waves.map (·.severedCount)).sum
  processed : report.methodsProcessed = done.length
  changed : report.changedMethods = done.countP (changedAlone settings start)

/-- A wave under way that began with the run `before`. -/
structure Working (settings : Settings) (start : Program) (before : Run) (methods : List MethodId) (crew : Crew) :
    Prop where
  stages : ∀ method ∈ methods, AtStage settings start crew.run.program method (crew.stage method)
  bodies : ∀ method, method ∉ methods → crew.run.program.body? method = before.program.body? method
  marks : ∀ method, method ∉ methods → (method ∈ crew.run.program.processed ↔ method ∈ before.program.processed)
  outline : crew.run.program.outline = start.outline
  counts : SameCounts before.report crew.run.report
  /-- The error is that of a worker that failed, and there is one if a worker failed. -/
  error_of : ∀ error, crew.run.error = some error → ∃ method ∈ methods, crew.stage method = .failed error
  reported : ∀ method ∈ methods, ∀ error, crew.stage method = .failed error → crew.run.error.isSome = true

/-- What a wave that ended has made of one of its methods: it is done, or its body was rejected, or it was not begun. -/
inductive Settled (settings : Settings) (start program : Program) (method : MethodId) : Prop
  | done : method ∈ program.processed → BodyAlone settings start method (program.body? method) →
      Accepted settings start method → Settled settings start program method
  | rejected {body left : Body} {error : Error} : start.body? method = some body →
      Rejected settings start body error left → program.body? method = some left → method ∉ program.processed →
      Settled settings start program method
  | untouched : program.body? method = start.body? method → method ∉ program.processed →
      Settled settings start program method

variable {settings : Settings} {start : Program} {before : Run} {methods : List MethodId} {crew : Crew}
  (turns : Nat → List MethodId) (graph : CallGraph)

theorem Handled.init (settings : Settings) (program : Program) : Handled settings program [] program :=
  ⟨rfl, by simp, by simp, fun _ _ => rfl⟩

/-! ### Steps in any order -/

/-- A step of one worker keeps what is known of all. -/
theorem Working.step (h : Working settings start before methods crew) {method : MethodId} (hmethod : method ∈ methods) :
    Working settings start before methods ((standard settings turns).step graph crew method) := by
  have hmoved := step_moved turns graph (h.stages method hmethod) h.outline
  generalize (standard settings turns).step graph crew method = next at hmoved ⊢
  have hne {other : MethodId} (hother : other ∉ methods) : other ≠ method := fun heq => hother (heq ▸ hmethod)
  have hkept : crew.run.error.isSome = true → next.run.error.isSome = true := by
    intro hsome
    obtain ⟨error, herror⟩ := Option.isSome_iff_exists.1 hsome
    rw [hmoved.error_kept error herror]
    rfl
  constructor
  case stages =>
    intro other hother
    by_cases heq : other = method
    · rw [heq]
      exact hmoved.at_stage
    · rw [hmoved.stages other heq]
      exact (h.stages other hother).frame (hmoved.bodies other heq) (hmoved.marks other heq)
  case bodies => exact fun other hother => (hmoved.bodies other (hne hother)).trans (h.bodies other hother)
  case marks => exact fun other hother => (hmoved.marks other (hne hother)).trans (h.marks other hother)
  case outline => exact hmoved.outline.trans h.outline
  case counts => exact h.counts.trans hmoved.counts
  case error_of =>
    intro error hnext
    cases hcrew : crew.run.error with
    | none => exact ⟨method, hmethod, hmoved.error_new error hcrew hnext⟩
    | some found =>
      obtain rfl : found = error := Option.some.inj ((hmoved.error_kept found hcrew).symm.trans hnext)
      obtain ⟨other, hother, hfailed⟩ := h.error_of found hcrew
      refine ⟨other, hother, ?_⟩
      by_cases heq : other = method
      · subst heq
        rwa [hmoved.failed_kept found hfailed]
      · rwa [hmoved.stages other heq]
  case reported =>
    intro other hother error hfailed
    by_cases heq : other = method
    · subst heq
      by_cases hold : crew.stage other = .failed error
      · exact hkept (h.reported other hother error hold)
      · exact hmoved.failed_new error hold hfailed
    · rw [hmoved.stages other heq] at hfailed
      exact hkept (h.reported other hother error hfailed)

theorem Working.foldl_step (taken : List MethodId) (htaken : ∀ method ∈ taken, method ∈ methods) {crew : Crew}
    (h : Working settings start before methods crew) :
    Working settings start before methods (taken.foldl ((standard settings turns).step graph) crew) := by
  induction taken generalizing crew with
  | nil => exact h
  | cons method taken ih =>
    rw [List.forall_mem_cons] at htaken
    exact ih htaken.2 (h.step turns graph htaken.1)

/-! ### Coming to the end -/

/-- A worker has come to its end, or waits because there is an error. -/
def AtEnd (crew : Crew) (method : MethodId) : Prop :=
  (crew.stage method).stepsLeft = 0 ∨ (crew.stage method).isWaiting = true ∧ crew.run.error.isSome = true

/-- Some steps of one worker bring it closer to its end and leave the others where they are. -/
theorem Working.foldl_replicate (h : Working settings start before methods crew) {method : MethodId}
    (hmethod : method ∈ methods) (count : Nat) :
    let next := (List.replicate count method).foldl ((standard settings turns).step graph) crew
    (next.stage method).stepsLeft ≤ (crew.stage method).stepsLeft - count ∧
      (∀ other, other ≠ method → next.stage other = crew.stage other) ∧
      (crew.run.error.isSome = true → next.run.error.isSome = true) := by
  induction count generalizing crew with
  | zero => exact ⟨Nat.le_refl _, fun _ _ => rfl, id⟩
  | succ count ih =>
    have hmoved := step_moved turns graph (h.stages method hmethod) h.outline
    obtain ⟨hleft, hothers, herror⟩ := ih (h.step turns graph hmethod)
    rw [List.replicate_succ, List.foldl_cons]
    refine ⟨?_, ?_, ?_⟩
    · have hcloser := hmoved.closer
      omega
    · exact fun other hne => (hothers other hne).trans (hmoved.stages other hne)
    · intro hsome
      obtain ⟨error, hcrew⟩ := Option.isSome_iff_exists.1 hsome
      exact herror (by rw [hmoved.error_kept error hcrew]; rfl)

theorem Working.complete (h : Working settings start before methods crew) {method : MethodId}
    (hmethod : method ∈ methods) :
    let next := (standard settings turns).complete graph crew method
    Working settings start before methods next ∧ AtEnd next method ∧ ∀ other, AtEnd crew other → AtEnd next other := by
  intro next
  by_cases hwaits : crew.run.error.isSome = true ∧ (crew.stage method).isWaiting = true
  · have hnext : next = crew := if_pos (by rw [hwaits.1, hwaits.2]; rfl)
    rw [hnext]
    exact ⟨h, .inr hwaits.symm, fun _ hend => hend⟩
  · have hnext : next = (List.replicate (crew.stage method).stepsLeft method).foldl ((standard settings turns).step graph)
        crew := if_neg (by rwa [Bool.and_eq_true])
    obtain ⟨hleft, hothers, herror⟩ := h.foldl_replicate turns graph hmethod (crew.stage method).stepsLeft
    have hworking := h.foldl_step turns graph (List.replicate (crew.stage method).stepsLeft method)
      fun other hother => List.eq_of_mem_replicate hother ▸ hmethod
    rw [← hnext] at hleft hothers herror hworking
    have hend : AtEnd next method := .inl (by omega)
    refine ⟨hworking, hend, fun other hother => ?_⟩
    by_cases heq : other = method
    · exact heq ▸ hend
    · rw [AtEnd, hothers other heq]
      exact hother.imp_right (And.imp_right herror)

/-- When all have gone on, every worker has come to its end. -/
theorem Working.foldl_complete {rest : List MethodId} (hrest : ∀ method ∈ rest, method ∈ methods) {crew : Crew}
    (h : Working settings start before methods crew) :
    let last := rest.foldl ((standard settings turns).complete graph) crew
    Working settings start before methods last ∧ ∀ method, AtEnd crew method ∨ method ∈ rest → AtEnd last method := by
  induction rest generalizing crew with
  | nil => exact ⟨h, fun method hend => hend.resolve_right List.not_mem_nil⟩
  | cons first rest ih =>
    rw [List.forall_mem_cons] at hrest
    obtain ⟨hworking, hend, hkept⟩ := h.complete turns graph hrest.1
    obtain ⟨hlast, hends⟩ := ih hrest.2 hworking
    refine ⟨hlast, fun method hmethod => hends method ?_⟩
    rcases hmethod with hbefore | hmem
    · exact .inl (hkept method hbefore)
    · rcases List.mem_cons.1 hmem with rfl | hlater
      · exact .inl hend
      · exact .inr hlater

/-! ### The end of a wave -/

theorem AtStage.settled {program : Program} {method : MethodId} {stage : Stage}
    (h : AtStage settings start program method stage) (hend : stage.stepsLeft = 0 ∨ stage.isWaiting = true) :
    Settled settings start program method := by
  cases h with
  | waiting hbody hopen => exact .untouched hbody hopen
  | finished hdone => exact .done hdone.mark hdone.body hdone.accepted
  | failed hfirst hrejected hfound hopen => exact .rejected hfirst hrejected hfound hopen
  | taken | passed | returned | marked => exact absurd hend (by simp [Stage.stepsLeft, Stage.isWaiting])

/-- Without an error every method of the wave is done. -/
theorem Working.done (h : Working settings start before methods crew) (hnone : crew.run.error = none)
    {method : MethodId} (hmethod : method ∈ methods) (hend : AtEnd crew method) :
    Done settings start crew.run.program method (crew.stage method).isChanged := by
  have hstage := h.stages method hmethod
  have hreported := h.reported method hmethod
  have hleft : (crew.stage method).stepsLeft = 0 := by
    refine hend.resolve_right fun hwaits => ?_
    rw [hnone] at hwaits
    exact absurd hwaits.2 Bool.false_ne_true
  generalize crew.stage method = stage at hstage hreported hleft ⊢
  cases hstage with
  | finished hdone => exact hdone
  | @failed _ _ error =>
    have hsome := hreported error rfl
    rw [hnone] at hsome
    exact absurd hsome Bool.false_ne_true
  | waiting | taken | passed | returned | marked => exact absurd hleft (by simp [Stage.stepsLeft])

/-! ### Announcing a wave -/

/-- What the report counts, apart from the log, is added up over the cut calls. -/
theorem foldl_severed (severed : List (MethodId × List MethodId)) (report : Report) :
    let later := severed.foldl (fun report (method, callees) =>
      { report with severedCalls := report.severedCalls + callees.length }.record
        { kind := .cyclesBroken, method, message := s!"{callees.length} severed calls" }) report
    later.waves = report.waves ∧ later.methodsProcessed = report.methodsProcessed ∧
      later.changedMethods = report.changedMethods ∧
      later.severedCalls = report.severedCalls + (severed.flatMap (·.2)).length ∧
      later.events.count .leavesPicked = report.events.count .leavesPicked := by
  induction severed generalizing report with
  | nil => simp
  | cons entry rest ih =>
    obtain ⟨hwaves, hprocessed, hchanged, hsevered, hpicked⟩ := ih
      ({ report with severedCalls := report.severedCalls + entry.2.length }.record
        { kind := .cyclesBroken, method := entry.1, message := s!"{entry.2.length} severed calls" })
    refine ⟨hwaves, hprocessed, hchanged, ?_, ?_⟩
    · rw [List.flatMap_cons, List.length_append, ← Nat.add_assoc]
      exact hsevered
    · refine hpicked.trans ?_
      rw [Report.record, EventLog.count_record]
      rfl

private theorem Counted.announce {waves : List Wave} {done : List MethodId} {report : Report}
    (h : Counted settings start waves done report) {wave : Wave}
    (hwave : wave.brokeCycles = false → wave.severed = []) :
    Counted settings start (waves ++ [wave]) done (announceWave report wave) := by
  have hnumber : report.waves + 1 = (waves ++ [wave]).length := by simp [h.announced]
  have hsum : ((waves ++ [wave]).map (·.severedCount)).sum = report.severedCalls + wave.severedCount := by
    simp [h.severed]
  have hlog : ∀ message, (report.events.record { kind := .leavesPicked, message }).count .leavesPicked
      = (waves ++ [wave]).length := by
    intro message
    rw [EventLog.count_record, h.picked, List.length_append]
    rfl
  unfold announceWave
  cases hbroke : wave.brokeCycles with
  | false =>
    have hnone : wave.severedCount = 0 := by
      rw [Wave.severedCount, hwave hbroke]
      rfl
    constructor
    · exact hnumber
    · exact hlog _
    · rw [hsum, hnone]
      rfl
    · exact h.processed
    · exact h.changed
  | true =>
    obtain ⟨hwaves, hprocessed, hchanged, hsevered, hpicked⟩ := foldl_severed wave.severed
      { report with
        waves := report.waves + 1
        events := report.events.record
          { kind := .leavesPicked, message := s!"wave {report.waves + 1}: {wave.text}" }
        cycleBrokenWaves := report.cycleBrokenWaves + 1 }
    constructor
    · exact hwaves.trans hnumber
    · exact hpicked.trans (hlog _)
    · exact hsevered.trans hsum.symm
    · exact hprocessed.trans h.processed
    · exact hchanged.trans h.changed

/-! ### The whole wave -/

/-- A run that was stopped in a wave, with the given methods done before: every method of the wave is settled, and the
error is that of a rejected one. -/
structure StoppedIn (settings : Settings) (start : Program) (done : List MethodId) (wave : Wave) (run : Run) : Prop where
  outline : run.program.outline = start.outline
  marks_kept : ∀ method ∈ start.processed, method ∈ run.program.processed
  finished : ∀ method ∈ done, method ∈ run.program.processed ∧ BodyAlone settings start method (run.program.body? method)
  settled : ∀ method ∈ wave.methods, Settled settings start run.program method
  untouched : ∀ method, method ∉ done → method ∉ wave.methods →
    run.program.body? method = start.body? method ∧ (method ∈ run.program.processed → method ∈ start.processed)
  error : ∃ method ∈ wave.methods, ∃ error body left, run.error = some error ∧ start.body? method = some body ∧
    Rejected settings start body error left ∧ run.program.body? method = some left ∧ method ∉ run.program.processed

variable {waves : List Wave} {done : List MethodId} {wave : Wave} {run : Run}

/-- A wave begins with its methods waiting. -/
theorem Working.init (hhandled : Handled settings start done run.program) (hrun : run.error = none)
    (hnew : ∀ method ∈ methods, method ∉ run.program.processed ∧ method ∉ done) :
    Working settings start run methods { run } where
  stages := fun method hmethod => .waiting (hhandled.untouched method (hnew method hmethod).2) (hnew method hmethod).1
  bodies := fun _ _ => rfl
  marks := fun _ _ => Iff.rfl
  outline := hhandled.outline
  counts := .refl _
  error_of := fun _ herror => absurd (herror.symm.trans hrun) (Option.some_ne_none _)
  reported := fun _ _ _ hfailed => nomatch hfailed

theorem Handled.append (hhandled : Handled settings start done run.program) {program : Program}
    (houtline : program.outline = start.outline)
    (hdone : ∀ method ∈ methods, method ∈ program.processed ∧ BodyAlone settings start method (program.body? method))
    (hbodies : ∀ method, method ∉ methods → program.body? method = run.program.body? method)
    (hmarks : ∀ method, method ∉ methods → (method ∈ program.processed ↔ method ∈ run.program.processed)) :
    Handled settings start (done ++ methods) program where
  outline := houtline
  marked := by
    intro method
    rw [List.mem_append]
    by_cases hmethod : method ∈ methods
    · exact iff_of_true (hdone method hmethod).1 (.inr (.inr hmethod))
    · rw [hmarks method hmethod, hhandled.marked, or_iff_left hmethod]
  finished := by
    intro method hmem
    by_cases hmethod : method ∈ methods
    · exact (hdone method hmethod).2
    · rw [hbodies method hmethod]
      exact hhandled.finished method ((List.mem_append.1 hmem).resolve_right hmethod)
  untouched := by
    intro method hmem
    rw [List.mem_append, not_or] at hmem
    rw [hbodies method hmem.2, hhandled.untouched method hmem.1]

/-- A wave that ended with an error. -/
theorem Working.stoppedIn (h : Working settings start run wave.methods crew)
    (hhandled : Handled settings start done run.program)
    (hnew : ∀ method ∈ wave.methods, method ∉ run.program.processed ∧ method ∉ done)
    (hends : ∀ method ∈ wave.methods, AtEnd crew method) {error : Error} (herror : crew.run.error = some error) :
    StoppedIn settings start done wave crew.run where
  outline := h.outline
  marks_kept := by
    intro method hmark
    have hbefore := (hhandled.marked method).2 (.inl hmark)
    exact (h.marks method fun hmethod => (hnew method hmethod).1 hbefore).2 hbefore
  finished := by
    intro method hdone
    have hother : method ∉ wave.methods := fun hmethod => (hnew method hmethod).2 hdone
    rw [h.marks method hother, h.bodies method hother]
    exact ⟨(hhandled.marked method).2 (.inr hdone), hhandled.finished method hdone⟩
  settled := fun method hmethod => (h.stages method hmethod).settled ((hends method hmethod).imp_right And.left)
  untouched := by
    intro method hdone hother
    rw [h.marks method hother, h.bodies method hother, hhandled.marked, or_iff_left hdone]
    exact ⟨hhandled.untouched method hdone, id⟩
  error := by
    obtain ⟨method, hmethod, hfailed⟩ := h.error_of error herror
    have hstage := h.stages method hmethod
    rw [hfailed] at hstage
    cases hstage with
    | @failed body left _ hfirst hrejected hfound hopen =>
      exact ⟨method, hmethod, error, body, left, herror, hfirst, hrejected, hfound, hopen⟩

/-- **One wave.** In whatever order its workers make their steps, all its methods are done or the run is stopped in it. -/
theorem processWave_cases (hrun : run.error = none) (hhandled : Handled settings start done run.program)
    (hcounted : Counted settings start waves done run.report) (hwave : wave.brokeCycles = false → wave.severed = [])
    (hnew : ∀ method ∈ wave.methods, method ∉ run.program.processed ∧ method ∉ done) :
    let last := (standard settings turns).processWave graph run wave
    (last.error = none ∧ Handled settings start (done ++ wave.methods) last.program ∧
      Counted settings start (waves ++ [wave]) (done ++ wave.methods) last.report ∧
      ∀ method ∈ wave.methods, Accepted settings start method) ∨
    (last.report.waves = (waves ++ [wave]).length ∧ StoppedIn settings start done wave last) := by
  intro result
  have hannounced := hcounted.announce hwave
  let announced : Run := { run with report := announceWave run.report wave }
  have hhandled' : Handled settings start done announced.program := hhandled
  have hinit : Working settings start announced wave.methods { run := announced } := .init hhandled' hrun hnew
  have hturned := hinit.foldl_step turns graph ((turns announced.report.waves).filter (· ∈ wave.methods))
    fun method hmethod => of_decide_eq_true (List.mem_filter.1 hmethod).2
  obtain ⟨last, hresult, hlast, hends⟩ : ∃ last : Crew,
      result = (if last.run.error.isSome then last.run else { last.run with
        report.methodsProcessed := last.run.report.methodsProcessed + wave.methods.length
        report.changedMethods := last.run.report.changedMethods + wave.methods.countP fun method =>
          (last.stage method).isChanged }) ∧
      Working settings start announced wave.methods last ∧ ∀ method ∈ wave.methods, AtEnd last method := by
    obtain ⟨hlast, hends⟩ := hturned.foldl_complete turns graph fun method hmethod => hmethod
    exact ⟨_, rfl, hlast, fun method hmethod => hends method (.inr hmethod)⟩
  cases herror : last.run.error with
  | none =>
    have hdone : ∀ method ∈ wave.methods,
        Done settings start last.run.program method (last.stage method).isChanged :=
      fun method hmethod => hlast.done herror hmethod (hends method hmethod)
    rw [hresult, herror]
    refine .inl ⟨herror, ?_, ?_, fun method hmethod => (hdone method hmethod).accepted⟩
    · exact hhandled'.append hlast.outline (fun method hmethod => ⟨(hdone method hmethod).mark, (hdone method hmethod).body⟩)
        hlast.bodies hlast.marks
    · constructor
      · exact hlast.counts.waves.trans hannounced.announced
      · exact hlast.counts.picked.trans hannounced.picked
      · exact hlast.counts.severed.trans hannounced.severed
      · rw [List.length_append, ← hannounced.processed, ← hlast.counts.processed]
        rfl
      · have hchanged : wave.methods.countP (fun method => (last.stage method).isChanged)
            = wave.methods.countP (changedAlone settings start) :=
          List.countP_congr fun method hmethod => by rw [(hdone method hmethod).changed_eq]
        rw [List.countP_append, ← hannounced.changed, ← hlast.counts.changed, ← hchanged]
        rfl
  | some error =>
    rw [hresult, herror]
    exact .inr ⟨hlast.counts.waves.trans hannounced.announced, hlast.stoppedIn hhandled' hnew hends herror⟩

end Bytecode.Scheduler
