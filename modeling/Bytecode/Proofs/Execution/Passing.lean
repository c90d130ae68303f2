import Bytecode.Proofs.Body.Rewriting
import Bytecode.Proofs.Execution.Machine
/-!
# The points that a run passes

A run over blocks passes every point in between: a position in a block with the state there. What is proved about all of
them goes by one induction, over an instruction that goes on to the next one and over an edge between blocks. Two facts
about environments come out of it. Whatever a block has yet to define is undefined. And if one value is available where
another gets the same datum, the two agree wherever both can be used.
-/

namespace Bytecode

/-- The value is available at a point that is given by the instructions in front of it. -/
def Body.Available (body : Body) (position : Nat) (earlier : List Instruction) (value : ValueId) : Prop :=
  ∃ block, body.block? position = some block ∧ body.AvailableAfter position block earlier value

namespace Execution

open LoadElimination (Scope)

variable {Datum Address World : Type}

/-! ### From block to block -/

section Edges

variable {machine : Machine Datum Address World} {body : Body}

/-- An effect that leads from a block to another one. -/
inductive Exits (machine : Machine Datum Address World) (block : Block) (target : Nat) :
    Effect Datum Address World → State Datum Address World → Prop
  | jump {choice : Nat} {state : State Datum Address World} (hsuccessor : block.successors[choice]? = some target) :
      Exits machine block target (.jump choice state) state
  | raise {exception : Datum} {state : State Datum Address World} {index : Nat} {handler : Handler}
      (hcatcher : machine.catcher? block.handlers exception state.situation.world = some index)
      (hhandler : block.handlers[index]? = some handler) (htarget : handler.target = target) :
      Exits machine block target (.raised exception state)
        { state with situation := { state.situation with caught := exception } }

theorem Exits.mem_allSuccessors {machine : Machine Datum Address World} {block : Block} {target : Nat}
    {effect : Effect Datum Address World} {moved : State Datum Address World}
    (h : Exits machine block target effect moved) : target ∈ block.allSuccessors := by
  cases h with
  | jump hsuccessor => exact List.mem_append_left _ (List.mem_of_getElem? hsuccessor)
  | raise _ hhandler htarget =>
    exact List.mem_append_right _ (List.mem_map.2 ⟨_, List.mem_of_getElem? hhandler, htarget⟩)

private theorem goTo_eq_running {source position : Nat} {target : Option Nat} {moved state : State Datum Address World}
    (h : goTo body source target moved = .running position state) :
    target = some position ∧ ∃ next, body.block? position = some next ∧
      state = { moved with env := arrive body source position next moved.env } := by
  unfold goTo at h
  split at h
  · cases h
  · split at h
    · cases h
    · rename_i next hnext
      cases h
      exact ⟨rfl, next, hnext, rfl⟩

private theorem leave_eq_running {source position : Nat} {block : Block} {effect : Effect Datum Address World}
    {state : State Datum Address World} (h : leave machine body source block effect = .running position state) :
    ∃ moved next, Exits machine block position effect moved ∧ body.block? position = some next ∧
      state = { moved with env := arrive body source position next moved.env } := by
  cases effect with
  | next => cases h
  | faulty => cases h
  | returned => cases h
  | jump choice moved =>
    obtain ⟨hsuccessor, next, hnext, rfl⟩ := goTo_eq_running h
    exact ⟨moved, next, .jump hsuccessor, hnext, rfl⟩
  | raised exception moved =>
    simp only [leave] at h
    split at h
    · cases h
    · rename_i index hcatcher
      obtain ⟨hhandler, next, hnext, rfl⟩ := goTo_eq_running h
      obtain ⟨handler, hget, htarget⟩ := Option.map_eq_some_iff.1 hhandler
      exact ⟨_, next, .raise hcatcher hget htarget, hnext, rfl⟩

theorem arrive_of_not_mem {source target : Nat} {next : Block} {env : ValueId → Option Datum} {value : ValueId}
    (h : value ∉ next.definitions) : arrive body source target next env value = env value := by
  rw [Block.definitions, List.mem_append, not_or] at h
  have hphi : next.phis.find? (·.dest = value) = none := by
    rw [List.find?_eq_none]
    intro phi hphi heq
    exact h.1 (List.mem_map.2 ⟨phi, hphi, of_decide_eq_true heq⟩)
  rw [arrive, hphi]
  exact if_neg h.2

private theorem arrive_of_instruction {source target : Nat} {next : Block} (hdistinct : next.definitions.Nodup)
    {env : ValueId → Option Datum} {value : ValueId}
    (h : value ∈ next.instructions.filterMap (·.operation.dest?)) :
    arrive body source target next env value = none := by
  have hphi : next.phis.find? (·.dest = value) = none := by
    rw [List.find?_eq_none]
    intro phi hphi heq
    obtain rfl : phi.dest = value := of_decide_eq_true heq
    exact (List.nodup_append.1 hdistinct).2.2 _ (List.mem_map_of_mem hphi) _ h rfl
  rw [arrive, hphi]
  exact if_pos h

theorem arrive_of_phi {source target : Nat} {next : Block} (hdistinct : next.definitions.Nodup) {phi : Phi}
    (hphi : phi ∈ next.phis) (env : ValueId → Option Datum) :
    arrive body source target next env phi.dest
      = (((body.predecessors target).idxOf? source).bind (phi.operands[·]?)).bind env := by
  have hfound : next.phis.find? (·.dest = phi.dest) = some phi := by
    have hsome : (next.phis.find? (·.dest = phi.dest)).isSome = true := List.find?_isSome.2 ⟨phi, hphi, by simp⟩
    obtain ⟨found, hfound⟩ := Option.isSome_iff_exists.1 hsome
    have heq : found.dest = phi.dest := by simpa using List.find?_some hfound
    rw [List.inj_on_of_nodup_map (List.nodup_append.1 hdistinct).1 (List.mem_of_find?_eq_some hfound) hphi heq]
      at hfound
    exact hfound
  rw [arrive, hfound]

end Edges

variable [DecidableEq Address]

/-! ### One instruction -/

section Instructions

variable {machine : Machine Datum Address World} {scope : Scope} {operation : Operation}
  {state after : State Datum Address World}

theorem execute_eq_next (h : execute machine scope operation state = .next after) :
    ∃ data result situation, operation.operands.mapM state.env = some data ∧
      perform machine scope operation data state.situation = .done result situation ∧
      after = { env := assign state.env operation.dest? result, situation } := by
  unfold execute at h
  split at h
  · cases h
  · rename_i data hdata
    split at h
    · rename_i result situation hperform
      cases h
      exact ⟨data, result, situation, hdata, hperform, rfl⟩
    all_goals cases h

theorem execute_eq_jump {choice : Nat} (h : execute machine scope operation state = .jump choice after) :
    after = state ∧ ∃ data, operation.operands.mapM state.env = some data ∧
      perform machine scope operation data state.situation = .jump choice := by
  unfold execute at h
  split at h
  · cases h
  · rename_i data hdata
    split at h
    case h_2 hperform =>
      cases h
      exact ⟨rfl, data, hdata, hperform⟩
    all_goals cases h

theorem execute_eq_raised {exception : Datum} (h : execute machine scope operation state = .raised exception after) :
    after.env = state.env ∧ ∃ data, operation.operands.mapM state.env = some data ∧
      perform machine scope operation data state.situation = .raised exception after.situation := by
  unfold execute at h
  split at h
  · cases h
  · rename_i data hdata
    split at h
    case h_4 hperform =>
      cases h
      exact ⟨rfl, data, hdata, hperform⟩
    all_goals cases h

/-- An instruction changes nothing in the environment but the value that it defines. -/
theorem env_of_execute (h : execute machine scope operation state = .next after) {value : ValueId}
    (hne : operation.dest? ≠ some value) : after.env value = state.env value := by
  obtain ⟨data, result, situation, -, -, rfl⟩ := execute_eq_next h
  exact assign_of_ne hne

end Instructions

/-! ### Points -/

/-- The points that the run of a body passes, each with its block, the instructions of the block executed and the state. -/
inductive Passes (machine : Machine Datum Address World) (scope : Scope) (body : Body)
    (start : Situation Datum Address World) : Nat → List Instruction → State Datum Address World → Prop
  | start : Passes machine scope body start 0 [] { env := fun _ => none, situation := start }
  | step {position : Nat} {block : Block} {earlier later : List Instruction} {instruction : Instruction}
      {state after : State Datum Address World} (hpasses : Passes machine scope body start position earlier state)
      (hblock : body.block? position = some block) (hsplit : block.instructions = earlier ++ instruction :: later)
      (hexecute : execute machine scope instruction.operation state = .next after) :
      Passes machine scope body start position (earlier ++ [instruction]) after
  | edge {position target : Nat} {block next : Block} {earlier later : List Instruction} {instruction : Instruction}
      {state moved : State Datum Address World} (hpasses : Passes machine scope body start position earlier state)
      (hblock : body.block? position = some block) (hsplit : block.instructions = earlier ++ instruction :: later)
      (hexit : Exits machine block target (execute machine scope instruction.operation state) moved)
      (hnext : body.block? target = some next) :
      Passes machine scope body start target [] { moved with env := arrive body position target next moved.env }

theorem Exits.env_eq {machine : Machine Datum Address World} {scope : Scope} {block : Block} {target : Nat}
    {operation : Operation} {state moved : State Datum Address World}
    (h : Exits machine block target (execute machine scope operation state) moved) : moved.env = state.env := by
  generalize heffect : execute machine scope operation state = effect at h
  cases h with
  | jump => rw [(execute_eq_jump heffect).1]
  | raise => exact (execute_eq_raised heffect).1

section Run

variable {machine : Machine Datum Address World} {scope : Scope} {body : Body} {start : Situation Datum Address World}

theorem Passes.executeAll {position : Nat} {block : Block} (hblock : body.block? position = some block)
    {middle earlier later : List Instruction} {state after : State Datum Address World}
    (hpasses : Passes machine scope body start position earlier state)
    (hsplit : block.instructions = earlier ++ (middle ++ later))
    (h : executeAll machine scope middle state = .next after) :
    Passes machine scope body start position (earlier ++ middle) after := by
  induction middle generalizing earlier state with
  | nil =>
    cases h
    rwa [List.append_nil]
  | cons instruction middle ih =>
    unfold Execution.executeAll at h
    split at h
    · rename_i next hnext
      have hstep := hpasses.step hblock hsplit hnext
      have hrest := ih hstep (by rw [hsplit]; simp) h
      rwa [List.append_assoc] at hrest
    · rename_i hno
      exact absurd h (hno after)

/-- An effect other than going on is that of one instruction, with all instructions in front of it executed. -/
theorem executeAll_eq {instructions : List Instruction} {state : State Datum Address World}
    {effect : Effect Datum Address World} (h : executeAll machine scope instructions state = effect)
    (hexit : ∀ after, effect ≠ .next after) :
    ∃ earlier instruction later middle, instructions = earlier ++ instruction :: later ∧
      executeAll machine scope earlier state = .next middle ∧
      execute machine scope instruction.operation middle = effect := by
  induction instructions generalizing state with
  | nil => exact absurd h.symm (hexit state)
  | cons instruction rest ih =>
    unfold executeAll at h
    split at h
    · rename_i next hnext
      obtain ⟨earlier, found, later, middle, rfl, hmiddle, hfound⟩ := ih h
      refine ⟨instruction :: earlier, found, later, middle, rfl, ?_, hfound⟩
      simp only [executeAll, hnext]
      exact hmiddle
    · exact ⟨[], instruction, rest, state, rfl, rfl, h⟩

/-- A run that has arrived at a block passes the start of that block. -/
theorem passes_of_run {count position : Nat} {state : State Datum Address World}
    (h : run machine scope body start count = .running position state) :
    Passes machine scope body start position [] state := by
  induction count generalizing position state with
  | zero =>
    cases h
    exact .start
  | succ count ih =>
    rw [run] at h
    cases hbefore : run machine scope body start count with
    | finished => simp [hbefore, step] at h
    | faulty => simp [hbefore, step] at h
    | running source before =>
      simp only [hbefore, step] at h
      split at h
      · cases h
      · rename_i block hblock
        obtain ⟨moved, next, hexit, hnext, rfl⟩ := leave_eq_running h
        generalize heffect : executeAll machine scope block.instructions before = effect at hexit
        obtain ⟨earlier, instruction, later, middle, hsplit, hmiddle, rfl⟩ := executeAll_eq heffect (by
          rintro after rfl
          cases hexit)
        exact ((ih hbefore).executeAll hblock (by rw [hsplit]; rfl) hmiddle).edge hblock hsplit hexit hnext

/-- A run passes only blocks that can be reached. -/
theorem Passes.reachable (hbody : body.WellFormed) {position : Nat} {earlier : List Instruction}
    {state : State Datum Address World} (h : Passes machine scope body start position earlier state) :
    body.Reachable position := by
  induction h with
  | start => exact ⟨[0], .start (List.length_pos_iff.2 hbody.nonempty)⟩
  | step _ _ _ _ ih => exact ih
  | edge _ hblock _ hexit hnext ih =>
    exact ih.step (Body.mem_flowGraph_successors.2 ⟨_, hblock, hexit.mem_allSuccessors⟩)
      (List.getElem?_eq_some_iff.1 hnext).1

/-- A point after an instruction is passed only if that instruction has gone on. -/
theorem Passes.of_append {position : Nat} {earlier : List Instruction} {instruction : Instruction}
    {after : State Datum Address World}
    (h : Passes machine scope body start position (earlier ++ [instruction]) after) :
    ∃ state, Passes machine scope body start position earlier state ∧
      execute machine scope instruction.operation state = .next after := by
  generalize hpoint : earlier ++ [instruction] = point at h
  cases h with
  | start => simp at hpoint
  | edge => simp at hpoint
  | step hpasses _ _ hexecute =>
    obtain ⟨rfl, hlast⟩ := List.append_inj' hpoint rfl
    obtain rfl := List.singleton_inj.1 hlast
    exact ⟨_, hpasses, hexecute⟩

/-! ### What is undefined -/

/-- What a block has yet to define is undefined, also if it was defined the last time the block was executed. -/
theorem Passes.env_eq_none (hdistinct : body.definitions.Nodup) {position : Nat} {earlier : List Instruction}
    {state : State Datum Address World} (h : Passes machine scope body start position earlier state) {block : Block}
    (hblock : body.block? position = some block) {later : List Instruction}
    (hsplit : block.instructions = earlier ++ later) {value : ValueId}
    (hvalue : value ∈ later.filterMap (·.operation.dest?)) : state.env value = none := by
  induction h generalizing block later with
  | start => rfl
  | @step _ found front back instruction state after _ hfound hparts hexecute ih =>
    obtain rfl := Option.some.inj (hfound.symm.trans hblock)
    obtain rfl : back = later := by
      rw [hparts, List.append_assoc] at hsplit
      exact (List.cons.inj (List.append_cancel_left hsplit)).2
    have hne : instruction.operation.dest? ≠ some value := by
      intro hdest
      have hget : found.instructions[front.length]? = some instruction := by simp [hparts]
      obtain ⟨-, -, -, hnot⟩ :=
        Rewriting.split_at_definition (Body.block_definitions_nodup hdistinct hblock) hget hdest
      refine hnot ?_
      rw [hparts]
      simpa using hvalue
    rw [env_of_execute hexecute hne]
    refine ih hfound hparts ?_
    rw [List.filterMap_cons]
    split
    · exact hvalue
    · exact List.mem_cons_of_mem _ hvalue
  | edge _ _ _ _ hnext _ =>
    obtain rfl := Option.some.inj (hnext.symm.trans hblock)
    refine arrive_of_instruction (Body.block_definitions_nodup hdistinct hblock) ?_
    rwa [hsplit]

/-! ### Availability along a run -/

section Availability

variable {position : Nat} {earlier later : List Instruction} {state : State Datum Address World} {block : Block}

/-- Of what is available at the end of a block, whatever is defined now is available now. -/
theorem Passes.available_of_atEnd (hdistinct : body.definitions.Nodup)
    (h : Passes machine scope body start position earlier state) (hblock : body.block? position = some block)
    (hsplit : block.instructions = earlier ++ later) {value : ValueId} (hend : body.AvailableAtEnd position value)
    (hdefined : state.env value ≠ none) : body.Available position earlier value := by
  refine ⟨block, hblock, ?_⟩
  obtain ⟨upper, ⟨definer, hdefiner, hmem⟩, hdominates⟩ := hend
  by_cases heq : upper = position
  · subst heq
    obtain rfl := Option.some.inj (hdefiner.symm.trans hblock)
    rcases List.mem_append.1 hmem with hphi | hinstruction
    · exact .inr (.inl hphi)
    · rw [hsplit, List.filterMap_append, List.mem_append] at hinstruction
      rcases hinstruction with hearlier | hlater
      · exact .inr (.inr hearlier)
      · exact absurd (h.env_eq_none hdistinct hblock hsplit hlater) hdefined
  · exact .inl ⟨upper, heq, ⟨definer, hdefiner, hmem⟩, hdominates⟩

/-- What is available at the start of a block is available at the end of a block that leads there. -/
theorem availableAtEnd_of_edge {target : Nat} {next : Block} (hblock : body.block? position = some block)
    (hsuccessor : target ∈ block.allSuccessors) (hnext : body.block? target = some next) {value : ValueId}
    (h : body.AvailableAtStart target value) : body.AvailableAtEnd position value := by
  obtain ⟨upper, hne, hdefined, hdominates⟩ := h
  exact ⟨upper, hdefined, Digraph.Dominates.of_edge hdominates hne
    (Body.mem_flowGraph_successors.2 ⟨block, hblock, hsuccessor⟩) (List.getElem?_eq_some_iff.1 hnext).1⟩

/-- What is available at the start of a block survives the arrival there. -/
theorem arrive_of_availableAtStart (hdistinct : body.definitions.Nodup) {source target : Nat} {next : Block}
    (hnext : body.block? target = some next) {env : ValueId → Option Datum} {value : ValueId}
    (h : body.AvailableAtStart target value) : arrive body source target next env value = env value := by
  obtain ⟨upper, hne, hdefined, -⟩ := h
  exact arrive_of_not_mem fun hmem => hne (Body.DefinedIn.unique hdistinct hdefined ⟨next, hnext, hmem⟩)

/-- A value is not available in front of its definition. -/
theorem not_available_of_dest? (hdistinct : body.definitions.Nodup) (hblock : body.block? position = some block)
    {instruction : Instruction} (hsplit : block.instructions = earlier ++ instruction :: later) {value : ValueId}
    (hdest : instruction.operation.dest? = some value) : ¬body.Available position earlier value := by
  rintro ⟨found, hfound, havailable⟩
  obtain rfl := Option.some.inj (hfound.symm.trans hblock)
  have hget : found.instructions[earlier.length]? = some instruction := by simp [hsplit]
  have hnot := Body.not_availableAfter_of_dest? hdistinct hblock hget hdest
  rw [hsplit, List.take_left] at hnot
  exact hnot havailable

theorem available_append_iff {instruction : Instruction} {value : ValueId} :
    body.Available position (earlier ++ [instruction]) value ↔ body.Available position earlier value ∨
      instruction.operation.dest? = some value ∧ (body.block? position).isSome = true := by
  constructor
  · rintro ⟨block, hblock, havailable⟩
    rcases havailable with hstart | hphi | hearlier
    · exact .inl ⟨block, hblock, .inl hstart⟩
    · exact .inl ⟨block, hblock, .inr (.inl hphi)⟩
    · rw [List.filterMap_append, List.mem_append] at hearlier
      rcases hearlier with hmem | hmem
      · exact .inl ⟨block, hblock, .inr (.inr hmem)⟩
      · obtain ⟨found, hfound, hdest⟩ := List.mem_filterMap.1 hmem
        rw [List.mem_singleton] at hfound
        exact .inr ⟨hfound ▸ hdest, by rw [hblock]; rfl⟩
  · rintro (⟨block, hblock, havailable⟩ | ⟨hdest, hsome⟩)
    · exact ⟨block, hblock, havailable.append _⟩
    · obtain ⟨block, hblock⟩ := Option.isSome_iff_exists.1 hsome
      exact ⟨block, hblock, .inr (.inr (List.mem_filterMap.2 ⟨instruction, by simp, hdest⟩))⟩

end Availability

/-- Two values agree at a point if the one, where it is available and defined, holds what the other holds. -/
def AgreeAt (body : Body) (old new : ValueId) (position : Nat) (earlier : List Instruction)
    (state : State Datum Address World) : Prop :=
  body.Available position earlier old → ∀ datum, state.env old = some datum → state.env new = some datum

/-- Two values agree at every point if the new one is available where the old one gets its datum and agrees with it
there, be it at an instruction or at a phi. -/
theorem Passes.agreeAt (hbody : body.WellFormed) {old new : ValueId} (hsupports : Rewriting.Supports body old new)
    (hinstruction : ∀ {position block earlier instruction later state after},
      Passes machine scope body start position earlier state → body.block? position = some block →
      block.instructions = earlier ++ instruction :: later → instruction.operation.dest? = some old →
      execute machine scope instruction.operation state = .next after → state.env new = after.env old)
    (hphi : ∀ {position target block next earlier instruction later state moved},
      Passes machine scope body start position earlier state → body.block? position = some block →
      block.instructions = earlier ++ instruction :: later →
      Exits machine block target (execute machine scope instruction.operation state) moved →
      body.block? target = some next → old ∈ next.phis.map (·.dest) → AgreeAt body old new position earlier state →
      ∀ datum, arrive body position target next moved.env old = some datum → moved.env new = some datum)
    {position : Nat} {earlier : List Instruction} {state : State Datum Address World}
    (h : Passes machine scope body start position earlier state) : AgreeAt body old new position earlier state := by
  have hdistinct := hbody.distinct
  induction h with
  | start =>
    intro _ datum hdatum
    cases hdatum
  | @step position block earlier later instruction state after hpasses hblock hsplit hexecute ih =>
    intro havailable datum hdatum
    have hreachable := hpasses.reachable hbody
    rcases available_append_iff.1 havailable with hbefore | ⟨hdest, -⟩
    · have hne : instruction.operation.dest? ≠ some old := fun hdest =>
        not_available_of_dest? hdistinct hblock hsplit hdest hbefore
      rw [env_of_execute hexecute hne] at hdatum
      have hnew : body.Available position earlier new := by
        obtain ⟨found, hfound, hold⟩ := hbefore
        obtain rfl := Option.some.inj (hfound.symm.trans hblock)
        exact ⟨found, hblock, hsupports.availableAfter hblock hreachable hsplit hold⟩
      have hneNew : instruction.operation.dest? ≠ some new := fun hdest =>
        not_available_of_dest? hdistinct hblock hsplit hdest hnew
      rw [env_of_execute hexecute hneNew]
      exact ih hbefore datum hdatum
    · have hnew : body.Available position earlier new :=
        ⟨block, hblock, (hsupports position block hblock hreachable).2 _ _ _ hsplit hdest⟩
      have hneNew : instruction.operation.dest? ≠ some new := fun hdest =>
        not_available_of_dest? hdistinct hblock hsplit hdest hnew
      rw [env_of_execute hexecute hneNew, hinstruction hpasses hblock hsplit hdest hexecute]
      exact hdatum
  | @edge position target block next earlier later instruction state moved hpasses hblock hsplit hexit hnext ih =>
    rintro ⟨found, hfound, havailable⟩ datum hdatum
    obtain rfl := Option.some.inj (hfound.symm.trans hnext)
    have hreachable := (Passes.edge hpasses hblock hsplit hexit hnext).reachable hbody
    rcases havailable with hstart | hphis | hnone
    · have hnewStart := hsupports.availableAtStart hreachable hstart
      simp only [arrive_of_availableAtStart hdistinct hnext hstart] at hdatum
      simp only [arrive_of_availableAtStart hdistinct hnext hnewStart]
      rw [hexit.env_eq] at hdatum ⊢
      refine ih (hpasses.available_of_atEnd hdistinct hblock hsplit
        (availableAtEnd_of_edge hblock hexit.mem_allSuccessors hnext hstart) ?_) datum hdatum
      rw [hdatum]
      exact Option.some_ne_none datum
    · have hnewStart := (hsupports target found hnext hreachable).1 hphis
      simp only [arrive_of_availableAtStart hdistinct hnext hnewStart]
      exact hphi hpasses hblock hsplit hexit hnext hphis ih datum hdatum
    · cases hnone

end Run

end Execution

end Bytecode
