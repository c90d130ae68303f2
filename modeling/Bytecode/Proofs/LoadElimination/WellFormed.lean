import Bytecode.Proofs.LoadElimination.Elimination
/-!
# The pass keeps bodies well formed

Every value that facts mention is available where they hold: at a position of the block being visited it is defined
earlier in the block or in a dominator, and what waits for a block is defined in a dominator that is done. Hence a value
that supersedes the result of a read is available wherever the result was, the result itself is mentioned nowhere, and
the body stays strict and without defects through the whole sweep.
-/

namespace Bytecode.LoadElimination

/-- What the sweep keeps of the body it started from. -/
structure Intact (original body : Body) : Prop where
  wellFormed : body.WellFormed
  strictSSA : body.StrictSSA
  initUnused : body.InitUnused
  sameFlow : original.SameFlow body
  values_eq : body.values = original.values
  method_eq : body.method = original.method

/-- The facts mention only values that are defined in done blocks above the block they wait for. -/
def Passable (body : Body) (done : List Nat) (block : Nat) (facts : Facts) : Prop :=
  ∀ value, Mentions facts.fields value →
    ¬body.IsInitResult value ∧ ∃ upper ∈ done, body.DefinedIn upper value ∧ body.Dominates upper block

/-- The facts mention only values that are available at a position of a block. -/
def Usable (body : Body) (block position : Nat) (facts : Facts) : Prop :=
  ∀ value, Mentions facts.fields value → ¬body.IsInitResult value ∧
    ∀ target, body.block? block = some target →
      body.AvailableAfter block target (target.instructions.take position) value

def AllPassable (body : Body) (done : List Nat) (waiting : Waiting) : Prop :=
  ∀ block facts, block ∉ done → waiting.find? block = some facts → Passable body done block facts

/-- At every stage facts mention only values that can be used where they are. -/
def StageFits (original body : Body) (done : List Nat) : Stage → Prop
  | .between waiting => AllPassable body done waiting
  | .within block position facts waiting =>
    (∃ rest, visitOrder original = done ++ block :: rest) ∧ AllPassable body done waiting ∧
      Usable body block position facts

/-! ### Entering a block -/

private theorem usable_empty (body : Body) (block position : Nat) : Usable body block position {} :=
  fun value hvalue => absurd hvalue (not_mentions_empty value)

theorem not_mem_done {original : Body} {done rest : List Nat} {block : Nat}
    (horder : visitOrder original = done ++ block :: rest) : block ∉ done := by
  have hnodup := DominatorTree.preorder_nodup original.flowGraph 0
  rw [← visitOrder, horder, List.nodup_append] at hnodup
  exact fun hmem => hnodup.2.2 block hmem block List.mem_cons_self rfl

theorem reachable_of_visitOrder {original : Body} {done rest : List Nat} {block : Nat}
    (horder : visitOrder original = done ++ block :: rest) : original.Reachable block := by
  apply DominatorTree.reachable_of_mem_preorder
  rw [← visitOrder, horder]
  simp

private theorem Passable.usable {body : Body} {done : List Nat} {block : Nat} {facts : Facts}
    (h : Passable body done block facts) (hblock : block ∉ done) (position : Nat) : Usable body block position facts := by
  intro value hvalue
  obtain ⟨hinit, upper, hupper, hdefined, hdominates⟩ := h value hvalue
  exact ⟨hinit, fun target _ => .inl ⟨upper, fun heq => hblock (heq ▸ hupper), hdefined, hdominates⟩⟩

theorem StageFits.enter {original body : Body} {done rest : List Nat} {block : Nat} {waiting : Waiting}
    (h : AllPassable body done waiting) (horder : visitOrder original = done ++ block :: rest) :
    StageFits original body done (.within block 0 ((waiting.find? block).getD {}) (waiting.erase block)) := by
  have hblock := not_mem_done horder
  refine ⟨⟨rest, horder⟩, fun other facts hother hfound => ?_, ?_⟩
  · rw [Table.find?_erase] at hfound
    split at hfound
    · cases hfound
    · exact h other facts hother hfound
  · cases hfound : waiting.find? block with
    | none => exact usable_empty body block 0
    | some facts => exact (h block facts hblock hfound).usable hblock 0

/-! ### An instruction that stays -/

theorem Usable.keep {original body : Body} (hintact : Intact original body) {block position : Nat}
    {scope : Scope} {facts later : Facts} {instruction : Instruction} (h : Usable body block position facts)
    (hreachable : original.Reachable block) (hinstruction : body.instruction? block position = some instruction)
    (hafter : scope.after body facts instruction.operation = .ok later) : Usable body block (position + 1) later := by
  obtain ⟨target, htarget, hget⟩ := Option.bind_eq_some_iff.1 hinstruction
  have hmem := Body.mem_instructions_of_instruction? hinstruction
  intro value hvalue
  rcases Scope.mentions_of_after hafter hvalue with hold | hoperand | ⟨hdest, hnotInit⟩
  · obtain ⟨hinit, havailable⟩ := h value hold
    exact ⟨hinit, fun target htarget => (havailable target htarget).mono_take (Nat.le_succ position)⟩
  · have huse : value ∈ instruction.uses := List.mem_append_left _ hoperand
    refine ⟨fun hinit => hintact.initUnused value hinit (Body.mem_uses_of_mem_instructions hmem huse), ?_⟩
    intro other hother
    obtain rfl := Option.some.inj (htarget.symm.trans hother)
    exact (hintact.strictSSA.use_available block target htarget (hintact.sameFlow.reachable_iff.2 hreachable) _ _ _
      (eq_take_cons_drop hget) value huse).mono_take (Nat.le_succ position)
  · refine ⟨?_, fun other hother => ?_⟩
    · rintro ⟨other, hother, type, hoperation⟩
      have hsame := Body.instruction_unique hintact.wellFormed.distinct hmem hother hdest (by rw [hoperation]; rfl)
      exact hnotInit value type (hsame ▸ hoperation)
    · obtain rfl := Option.some.inj (htarget.symm.trans hother)
      refine .inr (.inr (List.mem_filterMap.2 ⟨instruction, ?_, hdest⟩))
      rw [List.take_add_one, hget]
      simp

/-! ### An instruction that is eliminated -/

/-- Eliminating creates no initialization check. -/
theorem isInitResult_of_rewriting {redundancy : Redundancy} {dest value : ValueId} {body : Body}
    (h : ((redundancy.rewriting dest).body body).IsInitResult value) : body.IsInitResult value := by
  obtain ⟨rewritten, hmem, type, hinit⟩ := h
  obtain ⟨instruction, hinstruction, hrewritten⟩ := Rewriting.mem_instructions_body.1 hmem
  rcases Redundancy.operation_rewriting hrewritten with ⟨rename, hsame⟩ | hdebug | ⟨constant, hconstant⟩
  · refine ⟨instruction, hinstruction, type, ?_⟩
    rw [hsame] at hinit
    cases hoperation : instruction.operation <;> rw [hoperation] at hinit <;> cases hinit
    rfl
  · rw [hdebug] at hinit
    cases hinit
  · rw [hconstant] at hinit
    cases constant <;> cases hinit

section Elimination

variable {original : Body} {scope : Scope} {sweep : Sweep} {block position : Nat} {facts : Facts}
  {instruction : Instruction} {redundancy : Redundancy}

/-- The value in a fact can stand for the result of the read at hand. -/
theorem Usable.supports {body : Body} (hdistinct : body.definitions.Nodup) (h : Usable body block position facts)
    (hinstruction : body.instruction? block position = some instruction) {dest value : ValueId}
    (hdest : instruction.operation.dest? = some dest) (hvalue : Mentions facts.fields value) :
    value ≠ dest ∧ value ∈ body.definitions ∧ Rewriting.Supports body dest value := by
  obtain ⟨target, htarget, hget⟩ := Option.bind_eq_some_iff.1 hinstruction
  have havailable := (h value hvalue).2 target htarget
  have hsplit := eq_take_cons_drop hget
  refine ⟨?_, ?_, Rewriting.supports_of_availableAfter hdistinct htarget hsplit hdest havailable⟩
  · rintro rfl
    exact Body.not_availableAfter_of_dest? hdistinct htarget hget hdest havailable
  · obtain ⟨upper, hupper, -⟩ := havailable.atEnd htarget hsplit
    exact Body.mem_definitions.2 ⟨upper, hupper⟩

theorem Intact.eliminate (hintact : Intact original sweep.body) (husable : Usable sweep.body block position facts)
    (hinstruction : sweep.body.instruction? block position = some instruction)
    (hredundant : scope.redundancy? sweep.body facts instruction.operation = some redundancy) {dest : ValueId}
    (hdest : instruction.operation.dest? = some dest) :
    Intact original ((redundancy.rewriting dest).body sweep.body) := by
  have hlawful := redundancy.rewriting_lawful dest
  have hmem := Body.mem_instructions_of_instruction? hinstruction
  obtain ⟨⟨hbody, hssa⟩, huses⟩ :
      (((redundancy.rewriting dest).body sweep.body).WellFormed ∧
        ((redundancy.rewriting dest).body sweep.body).StrictSSA) ∧
      ∀ used ∈ sweep.body.uses, (redundancy.rewriting dest).rename used ∈ sweep.body.uses ∨
        ¬sweep.body.IsInitResult ((redundancy.rewriting dest).rename used) := by
    rcases Scope.redundancy?_cases hredundant with ⟨found, known, hfound, -, hread, husable'⟩ | ⟨found, type, hinit, -, rfl⟩
    · obtain rfl : dest = found := Option.some.inj (hdest.symm.trans hfound)
      cases known with
      | existing value =>
        obtain rfl := Option.some.inj husable'
        have hmentions := mentions_of_knownRead? hread
        refine ⟨Rewriting.supersede_keeps hintact.wellFormed hintact.strictSSA fun _ =>
          husable.supports hintact.wellFormed.distinct hinstruction hdest hmentions, fun used hused => ?_⟩
        by_cases heq : used = dest
        · right
          simpa [Redundancy.rewriting, Rewriting.supersede, Rewriting.replacing, heq] using (husable value hmentions).1
        · left
          simpa [Redundancy.rewriting, Rewriting.supersede, Rewriting.replacing, heq] using hused
      | constant constant =>
        rw [Scope.usable?, Option.ite_none_right_eq_some] at husable'
        obtain rfl := Option.some.inj husable'.2
        exact ⟨Rewriting.redefine_keeps hintact.wellFormed hintact.strictSSA (constant.dest?_materialize dest)
          (constant.operands_materialize dest), fun used hused => .inl hused⟩
    · have hunused : dest ∉ sweep.body.uses := by
        refine hintact.initUnused dest ⟨instruction, hmem, type, ?_⟩
        rw [hinit] at hdest
        cases hdest
        exact hinit
      refine ⟨Rewriting.supersede_keeps hintact.wellFormed hintact.strictSSA fun hused => absurd hused hunused, ?_⟩
      intro used hused
      left
      have hne : used ≠ dest := fun heq => hunused (heq ▸ hused)
      simpa [Redundancy.rewriting, Rewriting.supersede, Rewriting.replacing, hne] using hused
  refine ⟨hbody, hssa, fun value hinit huse => ?_, hintact.sameFlow.trans (Rewriting.sameFlow _ _), hintact.values_eq,
    hintact.method_eq⟩
  have hinit' := isInitResult_of_rewriting hinit
  obtain ⟨used, hused, rfl⟩ := hlawful.body_uses huse
  rcases huses used hused with hstill | hnot
  · exact hintact.initUnused _ hinit' hstill
  · exact hnot hinit'

theorem Passable.rewriting {body : Body} (hdistinct : body.definitions.Nodup) {done : List Nat} {other : Nat}
    (h : Passable body done other facts) {dest : ValueId} (hdefined : body.DefinedIn block dest) (hblock : block ∉ done)
    (redundancy : Redundancy) : Passable ((redundancy.rewriting dest).body body) done other facts := by
  intro value hvalue
  obtain ⟨hinit, upper, hupper, hupperDefined, hdominates⟩ := h value hvalue
  have hne : value ≠ dest := by
    rintro rfl
    exact hblock (Body.DefinedIn.unique hdistinct hdefined hupperDefined ▸ hupper)
  refine ⟨fun hinit' => hinit (isInitResult_of_rewriting hinit'), upper, hupper, ?_,
    (Rewriting.sameFlow _ body).dominates_iff.2 hdominates⟩
  exact (redundancy.rewriting_lawful dest).definedIn_iff.2 ⟨hupperDefined, Redundancy.gone_rewriting hne⟩

theorem Usable.rewriting {body : Body} (hdistinct : body.definitions.Nodup) (h : Usable body block position facts)
    (hinstruction : body.instruction? block position = some instruction) {dest : ValueId}
    (hdest : instruction.operation.dest? = some dest) (redundancy : Redundancy) {next : Nat} (hnext : position ≤ next) :
    Usable ((redundancy.rewriting dest).body body) block next facts := by
  obtain ⟨target, htarget, hget⟩ := Option.bind_eq_some_iff.1 hinstruction
  obtain ⟨-, -, hearlier, -⟩ :=
    Rewriting.split_at_definition (Body.block_definitions_nodup hdistinct htarget) hget hdest
  have hlength : (target.instructions.take position).length = position :=
    List.length_take_of_le (List.getElem?_eq_some_iff.1 hget).1.le
  intro value hvalue
  obtain ⟨hinit, havailable⟩ := h value hvalue
  have hne := (h.supports hdistinct hinstruction hdest hvalue).1
  refine ⟨fun hinit' => hinit (isInitResult_of_rewriting hinit'), fun rewritten hrewritten => ?_⟩
  rw [Rewriting.block?_body, htarget] at hrewritten
  obtain rfl := Option.some.inj hrewritten
  have hafter := (redundancy.rewriting_lawful dest).availableAfter (havailable target htarget)
    (Redundancy.gone_rewriting hne)
  rw [← Redundancy.take_rewriting hearlier, hlength] at hafter
  exact hafter.mono_take hnext

theorem StageFits.eliminate (hintact : Intact original sweep.body) {done : List Nat} {waiting : Waiting}
    (h : StageFits original sweep.body done (.within block position facts waiting))
    (hinstruction : sweep.body.instruction? block position = some instruction) {dest : ValueId}
    (hdest : instruction.operation.dest? = some dest) (redundancy : Redundancy) {next : Nat} (hnext : position ≤ next) :
    StageFits original ((redundancy.rewriting dest).body sweep.body) done (.within block next facts waiting) := by
  obtain ⟨⟨rest, horder⟩, hwaiting, husable⟩ := h
  have hdistinct := hintact.wellFormed.distinct
  obtain ⟨target, htarget, hget⟩ := Option.bind_eq_some_iff.1 hinstruction
  have hdefined : sweep.body.DefinedIn block dest := .of_dest? htarget (List.mem_of_getElem? hget) hdest
  refine ⟨⟨rest, horder⟩, fun other passed hother hfound => ?_, ?_⟩
  · exact (hwaiting other passed hother hfound).rewriting hdistinct hdefined (not_mem_done horder) redundancy
  · exact husable.rewriting hdistinct hinstruction hdest redundancy hnext

end Elimination

/-! ### Leaving a block -/

/-- A block leaves facts for its successors without other predecessors and leaves other facts alone. -/
theorem find?_propagate_eq {scope : Scope} {body : Body} {position target : Nat} {block : Block}
    (hblock : body.block? position = some block) (facts : Facts) (waiting : Waiting) :
    (propagate scope body position facts waiting).find? target =
      if target ∈ block.allSuccessors ∧ (body.predecessors target).length = 1 then
        some (passedFacts scope body block facts target)
      else waiting.find? target := by
  have hfold : ∀ (successors : List Nat) (start : Waiting),
      (successors.foldl (fun waiting successor => if (body.predecessors successor).length = 1 then
        waiting.insert successor (passedFacts scope body block facts successor) else waiting) start).find? target
        = if target ∈ successors ∧ (body.predecessors target).length = 1 then
            some (passedFacts scope body block facts target)
          else start.find? target := by
    intro successors
    induction successors with
    | nil => simp
    | cons successor successors ih =>
      intro start
      rw [List.foldl_cons, ih]
      by_cases hlater : target ∈ successors ∧ (body.predecessors target).length = 1
      · rw [if_pos hlater, if_pos ⟨List.mem_cons_of_mem _ hlater.1, hlater.2⟩]
      · rw [if_neg hlater]
        by_cases heq : target = successor
        · subst heq
          by_cases hone : (body.predecessors target).length = 1
          · simp [hone, Table.find?_insert]
          · simp [hone]
        · have hsame : (target ∈ successor :: successors ∧ (body.predecessors target).length = 1)
              ↔ target ∈ successors ∧ (body.predecessors target).length = 1 := by
            simp [heq]
          rw [if_neg (hsame.not.2 hlater)]
          split
          · rw [Table.find?_insert, if_neg heq]
          · rfl
  rw [propagate, hblock]
  exact hfold block.allSuccessors waiting

/-- Facts wait for a block because they did before or because its only predecessor passes them on. -/
theorem find?_propagate {scope : Scope} {body : Body} {block other : Nat} {facts found : Facts} {waiting : Waiting}
    (h : (propagate scope body block facts waiting).find? other = some found) :
    waiting.find? other = some found ∨
      ∃ target, body.block? block = some target ∧ other ∈ target.allSuccessors ∧
        (body.predecessors other).length = 1 ∧ found = passedFacts scope body target facts other := by
  cases htarget : body.block? block with
  | none =>
    rw [propagate, htarget] at h
    exact .inl h
  | some target =>
    rw [find?_propagate_eq htarget] at h
    split at h
    · next hpassed => exact .inr ⟨target, rfl, hpassed.1, hpassed.2, (Option.some.inj h).symm⟩
    · exact .inl h

/-- The only predecessor of a block that is not done yet dominates it, and so does whatever dominates that. -/
theorem dominates_of_only_predecessor {body : Body} {upper block other : Nat} (hdominates : body.Dominates upper block)
    (hentry : other ≠ 0) {target : Block} (htarget : body.block? block = some target)
    (hsuccessor : other ∈ target.allSuccessors) (hone : (body.predecessors other).length = 1)
    (hlt : other < body.blocks.length) : body.Dominates upper other := by
  refine Digraph.Dominates.of_only_edge hdominates hentry fun source hsource hedge => ?_
  obtain ⟨only, honly⟩ := List.length_eq_one_iff.1 hone
  have hsourceMem : source ∈ body.predecessors other :=
    Body.mem_predecessors.2 ⟨hlt, Body.mem_flowGraph_successors.1 hedge⟩
  have hblockMem : block ∈ body.predecessors other := Body.mem_predecessors.2 ⟨hlt, target, htarget, hsuccessor⟩
  rw [honly, List.mem_singleton] at hsourceMem hblockMem
  rw [hsourceMem, hblockMem]

/-- The dominators of the block at hand are done with it. -/
theorem mem_done_of_dominates {original body : Body} (hflow : original.SameFlow body) {done rest : List Nat}
    {block upper : Nat} (horder : visitOrder original = done ++ block :: rest) (h : body.Dominates upper block) :
    upper ∈ done ++ [block] := by
  by_cases heq : upper = block
  · simp [heq]
  · refine List.mem_append_left _ (DominatorTree.dominator_before_in_preorder
      original.flowGraph_predecessorsSound horder ?_ heq)
    exact hflow.dominates_iff.1 h

/-- What is available at the end of a block comes to a block without other predecessors from blocks that are done. -/
theorem exists_upper_of_atEnd {original body : Body} (hflow : original.SameFlow body) {done rest : List Nat}
    {block other : Nat} (horder : visitOrder original = done ++ block :: rest) {target : Block}
    (htarget : body.block? block = some target) (hsuccessor : other ∈ target.allSuccessors)
    (hone : (body.predecessors other).length = 1) (hother : other ∉ done ++ [block]) {value : ValueId}
    (h : body.AvailableAtEnd block value) :
    ∃ upper ∈ done ++ [block], body.DefinedIn upper value ∧ body.Dominates upper other := by
  obtain ⟨upper, hupper, hdominates⟩ := h
  have hentry : other ≠ 0 := by
    rintro rfl
    exact hother (mem_done_of_dominates hflow horder (Digraph.entry_dominates block))
  have hlt : other < body.blocks.length := by
    apply Nat.lt_of_not_le
    intro hle
    rw [Body.predecessors, if_neg (Nat.not_lt.2 hle)] at hone
    cases hone
  exact ⟨upper, mem_done_of_dominates hflow horder hdominates, hupper,
    dominates_of_only_predecessor hdominates hentry htarget hsuccessor hone hlt⟩

theorem AllPassable.leave {original body : Body} (hintact : Intact original body) {done : List Nat}
    {block position : Nat} {facts : Facts} {waiting : Waiting} {scope : Scope}
    (h : StageFits original body done (.within block position facts waiting)) :
    AllPassable body (done ++ [block]) (propagate scope body block facts waiting) := by
  obtain ⟨⟨rest, horder⟩, hwaiting, husable⟩ := h
  intro other passed hother hfound
  rcases find?_propagate hfound with hbefore | ⟨target, htarget, hsuccessor, hone, rfl⟩
  · intro value hvalue
    obtain ⟨hinit, upper, hupper, hplace⟩ :=
      hwaiting other passed (fun hmem => hother (List.mem_append_left _ hmem)) hbefore value hvalue
    exact ⟨hinit, upper, List.mem_append_left _ hupper, hplace⟩
  · intro value hvalue
    obtain ⟨hinit, havailable⟩ := husable value (mentions_of_passedFacts hvalue)
    exact ⟨hinit, exists_upper_of_atEnd hintact.sameFlow horder htarget hsuccessor hone hother
      ((havailable target htarget).atEnd htarget (List.take_append_drop position _).symm)⟩

/-! ### The whole sweep -/

theorem Reached.intact {scope : Scope} {original : Body} (hbody : original.WellFormed) (hssa : original.StrictSSA)
    (hunused : original.InitUnused) {done : List Nat} {sweep : Sweep} {stage : Stage}
    (h : Reached scope original done sweep stage) :
    Intact original sweep.body ∧ StageFits original sweep.body done stage := by
  induction h using Reached.induction with
  | start =>
    refine ⟨⟨hbody, hssa, hunused, .refl original, rfl, rfl⟩, fun block facts _ hfound => ?_⟩
    rw [Table.find?_empty] at hfound
    cases hfound
  | step _ hstep ih =>
    cases hstep with
    | enter horder => exact ⟨ih.1, .enter ih.2 horder⟩
    | keep hinstruction _ hafter =>
      obtain ⟨hintact, ⟨rest, horder⟩, hwaiting, husable⟩ := ih
      exact ⟨hintact, ⟨rest, horder⟩, hwaiting,
        husable.keep hintact (reachable_of_visitOrder horder) hinstruction hafter⟩
    | eliminate hinstruction hredundant =>
      obtain ⟨hintact, hstage⟩ := ih
      obtain ⟨dest, hdest⟩ := Scope.dest?_of_redundancy? hredundant
      rw [Sweep.body_eliminate hintact.wellFormed.distinct hinstruction hredundant hdest]
      refine ⟨hintact.eliminate hstage.2.2 hinstruction hredundant hdest,
        hstage.eliminate hintact hinstruction hdest _ ?_⟩
      split <;> omega
    | leave => exact ⟨ih.1, .leave ih.1 ih.2⟩

/-! ### Whether anything changes -/

private theorem Sweep.hasChanges_eliminate (sweep : Sweep) (scope : Scope) (block position : Nat)
    (redundancy : Redundancy) :
    (sweep.eliminate scope block position redundancy).stats.hasChanges = true := by
  cases redundancy <;>
  · refine decide_eq_true ?_
    simp only [eliminate, record, Stats.total]
    omega

/-- As long as nothing has been eliminated, the sweep is as it was at its start. -/
theorem Reached.eq_start {scope : Scope} {original : Body} {done : List Nat} {sweep : Sweep} {stage : Stage}
    (h : Reached scope original done sweep stage) (hchanges : sweep.stats.hasChanges = false) :
    sweep = { body := original } := by
  induction h using Reached.induction with
  | start => rfl
  | step _ hstep ih =>
    cases hstep with
    | enter => exact ih hchanges
    | keep => exact ih hchanges
    | eliminate =>
      rw [Sweep.hasChanges_eliminate] at hchanges
      cases hchanges
    | leave => exact ih hchanges

theorem Reached.body_eq {scope : Scope} {original : Body} {done : List Nat} {sweep : Sweep} {stage : Stage}
    (h : Reached scope original done sweep stage) (hchanges : sweep.stats.hasChanges = false) :
    sweep.body = original := by
  rw [h.eq_start hchanges]

private theorem isFieldReadOrInitCheck_of_redundancy? {scope : Scope} {body : Body} {facts : Facts}
    {operation : Operation}
    {redundancy : Redundancy} (h : scope.redundancy? body facts operation = some redundancy) :
    operation.isFieldReadOrInitCheck = true := by
  unfold Scope.redundancy? at h
  split at h
  · rfl
  · rfl
  · rfl
  · cases h

/-- Without a field read or an initialization check nothing is eliminated. -/
theorem Reached.hasChanges_eq_false {scope : Scope} {original : Body} (hnone : original.hasFieldReadOrInitCheck = false)
    {done : List Nat} {sweep : Sweep} {stage : Stage} (h : Reached scope original done sweep stage) :
    sweep.stats.hasChanges = false := by
  induction h using Reached.induction with
  | start => rfl
  | step hreached hstep ih =>
    cases hstep with
    | enter => exact ih
    | keep => exact ih
    | eliminate hinstruction hredundant =>
      have hread := isFieldReadOrInitCheck_of_redundancy? hredundant
      have hmem := Body.mem_instructions_of_instruction? hinstruction
      rw [hreached.body_eq ih] at hmem
      exact absurd (List.any_eq_true.2 ⟨_, hmem, hread⟩) (Bool.eq_false_iff.1 hnone)
    | leave => exact ih

/-! ### The pass -/

/-- What the end of the pass makes of a sweep that kept its body intact. -/
theorem finish_keeps (scope : Scope) {original : Body} {sweep : Sweep} (h : Intact original sweep.body) :
    (finish scope sweep).1.body.WellFormed ∧ (finish scope sweep).1.body.StrictSSA ∧
      original.SameFlow (finish scope sweep).1.body ∧ (finish scope sweep).1.body.values = original.values ∧
      (finish scope sweep).1.body.method = original.method := by
  unfold finish
  split
  · obtain ⟨hbody, hssa, hflow, hvalues, hmethod⟩ := Body.removeTrivialPhis_keeps h.wellFormed h.strictSSA
    exact ⟨hbody, hssa, h.sameFlow.trans hflow, hvalues.trans h.values_eq, hmethod.trans h.method_eq⟩
  · exact ⟨h.wellFormed, h.strictSSA, h.sameFlow, h.values_eq, h.method_eq⟩

private theorem hasChanges_finish (scope : Scope) (sweep : Sweep) :
    (finish scope sweep).2.hasChanges = sweep.stats.hasChanges := by
  unfold finish
  split <;> rfl

private theorem body_finish {scope : Scope} {sweep : Sweep} (h : sweep.stats.hasChanges = false) :
    (finish scope sweep).1.body = sweep.body := by
  rw [finish, h]
  rfl

/-- What the pass knows of the method of a body and of the program. -/
def scopeFor (context : PassContext) (body : Body) (definition : MethodDef) : Scope :=
  { program := context.program, settings := context.settings, method := body.method, holder := definition.holder }

theorem runWithStats_eq {context : PassContext} {body : Body} {definition : MethodDef}
    (hmethod : context.program.method? body.method = some definition) :
    runWithStats context body = finish (scopeFor context body definition) <$> sweepBody (scopeFor context body definition) body := by
  simp only [runWithStats, Program.method, hmethod]
  rfl

/-- The pass succeeds on every strict body without defects that uses no result of an initialization check. What it returns
is such a body again, with the same flow of control and the same values, and it is the body itself if nothing was
eliminated, as is the case without field reads and initialization checks. -/
theorem runWithStats_keeps_wellFormed (context : PassContext) (body : Body)
    (hfields : context.program.SummariesNameFields) (hmethod : (context.program.method? body.method).isSome = true)
    (hdefect : body.defect? = none) (hssa : body.StrictSSA) (hunused : body.InitUnused) :
    ∃ outcome stats, runWithStats context body = .ok (outcome, stats) ∧
      outcome.body.defect? = none ∧ outcome.body.StrictSSA ∧
      outcome.body.blocks.map (fun block => (block.successors, block.handlers))
        = body.blocks.map (fun block => (block.successors, block.handlers)) ∧
      outcome.body.predecessors = body.predecessors ∧ outcome.body.values = body.values ∧
      outcome.body.method = body.method ∧
      (stats.hasChanges = false → outcome.body = body) ∧
      (body.hasFieldReadOrInitCheck = false → stats.hasChanges = false) := by
  obtain ⟨definition, hdefinition⟩ := Option.isSome_iff_exists.1 hmethod
  let scope := scopeFor context body definition
  obtain ⟨sweep, hsweep⟩ := sweepBody_succeeds (show scope.program.SummariesNameFields from hfields) body
  obtain ⟨waiting, hreached⟩ := sweepBody_reached hsweep
  have hintact := (hreached.intact ((Body.defect?_eq_none_iff body).1 hdefect) hssa hunused).1
  obtain ⟨hbody', hssa', hflow, hvalues, hmethod'⟩ := finish_keeps scope hintact
  refine ⟨(finish scope sweep).1, (finish scope sweep).2, ?_, (Body.defect?_eq_none_iff _).2 hbody', hssa', hflow,
    hflow.predecessors_eq, hvalues, hmethod', fun hchanges => ?_, fun hnone => ?_⟩
  · rw [runWithStats_eq hdefinition, hsweep]
    rfl
  · rw [hasChanges_finish] at hchanges
    rw [body_finish hchanges, hreached.body_eq hchanges]
  · rw [hasChanges_finish]
    exact hreached.hasChanges_eq_false hnone

/-- A class with a field that one method reads, before a branch and on one side of it again. -/
def readOnBothWays : Program × Body :=
  let declared := (({} : Program).declareClass "LA;" .program ⟨1⟩ none []).1
  let field : FieldRef := { holder := ⟨0⟩, name := "f", descriptor := "I" }
  let withField := (declared.addField ⟨0⟩ "f" "I" ⟨1⟩).1
  let withMethod := (withField.addMethod ⟨0⟩ "m" "(LA;)I" (AccessFlags.withStatic ⟨1⟩)).1
  (withMethod.recordSummary ⟨7⟩ { fields := [(⟨0⟩, .argument 1)] },
    { method := ⟨0⟩
      values := List.replicate 4 {}
      blocks :=
        [{ instructions :=
            [{ operation := .argument ⟨0⟩ 0 }, { operation := .instanceGet ⟨1⟩ ⟨0⟩ field },
              { operation := .branch .eq ⟨1⟩ none }]
           successors := [1, 2] },
          { instructions := [{ operation := .instanceGet ⟨2⟩ ⟨0⟩ field }, { operation := .goto }]
            successors := [3] },
          { instructions := [{ operation := .goto }], successors := [3] },
          { phis := [{ dest := ⟨3⟩, operands := [⟨2⟩, ⟨1⟩] }]
            instructions := [{ operation := .return (some ⟨3⟩) }] }] })

theorem runWithStats_keeps_readOnBothWays :
    readOnBothWays.1.SummariesNameFields ∧ readOnBothWays.2.defect? = none ∧ readOnBothWays.2.StrictSSA ∧
      readOnBothWays.2.InitUnused ∧
      ∃ outcome stats, runWithStats { program := readOnBothWays.1, settings := {} } readOnBothWays.2 = .ok (outcome, stats) ∧
        stats.total = 1 ∧ outcome.body.defect? = none ∧ outcome.body.StrictSSA := by
  have hfields : readOnBothWays.1.SummariesNameFields := by
    intro method summary hsummary entry hentry
    have hfound : (readOnBothWays.1.summaries).find? method = some summary := hsummary
    simp only [readOnBothWays, Program.recordSummary, Table.find?_insert] at hfound
    split at hfound
    · cases hfound
      simp only [List.mem_singleton] at hentry
      subst hentry
      rfl
    · cases hfound
  have hdefect : readOnBothWays.2.defect? = none := by decide
  have hssa : readOnBothWays.2.StrictSSA := Body.strictSSA_of_usesEntryOnly (by decide)
  have hunused : readOnBothWays.2.InitUnused := by decide
  obtain ⟨outcome, stats, hrun, hdefect', hssa', -⟩ :=
    runWithStats_keeps_wellFormed { program := readOnBothWays.1, settings := {} } readOnBothWays.2 hfields (by decide)
      hdefect hssa hunused
  have htotal : (runWithStats { program := readOnBothWays.1, settings := {} } readOnBothWays.2).toOption.map
      (·.2.total) = some 1 := by decide +kernel
  rw [hrun] at htotal
  exact ⟨hfields, hdefect, hssa, hunused, outcome, stats, hrun, Option.some.inj htotal, hdefect', hssa'⟩

end Bytecode.LoadElimination
