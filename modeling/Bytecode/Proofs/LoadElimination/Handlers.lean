import Bytecode.Proofs.LoadElimination.Course
import Bytecode.Proofs.LoadElimination.Retraction
/-!
# What a handler starts with

A block that is the only predecessor of a handler passes it the facts it ended with, without the effect of the one
instruction that can throw. So the handler starts with what was known before that instruction, apart from what a call with
a summary sets on its receiver. In a body that is not strict a field access may not be taken back either.

What was known before an instruction is related to what is known at the end of its block by an invariant of the sweep: as
long as nothing else that was visited since then can throw, the facts are those that the instruction left.
-/

namespace Bytecode.LoadElimination

/-! ### What an instruction left -/

private theorem instruction?_eliminate_of_lt (scope : Scope) {sweep : Sweep} {block position index : Nat}
    {instruction : Instruction}
    (h : sweep.body.instruction? block position = some instruction) (hlt : index < position) (redundancy : Redundancy) :
    (sweep.eliminate scope block position redundancy).body.instruction? block index
      = (sweep.body.instruction? block index).map (·.mapUses redundancy.rename) := by
  have hlength : index < (((sweep.body.instructionsAt block).take position).map (·.mapUses redundancy.rename)).length := by
    have hbound := Body.lt_length_of_instruction? h
    rw [List.length_map, List.length_take]
    omega
  rw [Body.instruction?_eq, instructionsAt_eliminate h, List.append_assoc, List.getElem?_append_left hlength,
    List.getElem?_map, List.getElem?_take_of_lt hlt, Body.instruction?_eq]

private theorem instruction?_eliminate_self {scope : Scope} {sweep : Sweep} {block position : Nat}
    {instruction : Instruction}
    (h : sweep.body.instruction? block position = some instruction) {redundancy : Redundancy}
    (hstays : isRemoved instruction redundancy = false) :
    (sweep.eliminate scope block position redundancy).body.instruction? block position
      = some { instruction.mapUses redundancy.rename with operation := redundancy.left } := by
  have hlength : (((sweep.body.instructionsAt block).take position).map (·.mapUses redundancy.rename)).length = position := by
    have hbound := Body.lt_length_of_instruction? h
    rw [List.length_map, List.length_take]
    omega
  rw [Body.instruction?_eq, instructionsAt_eliminate h, List.append_assoc, List.getElem?_append_right (Nat.le_of_eq hlength),
    hlength, Nat.sub_self, Redundancy.remnant, hstays]
  rfl

/-- What the sweep knew before an instruction that it has visited, how the instruction stands in the body now, and what
was known after it. As long as nothing else that was visited since can throw, that is still what is known. -/
structure Behind (scope : Scope) (original body : Body) (block position : Nat) (facts : Facts) (index : Nat)
    (known later : Facts) (instruction : Instruction) (rename : ValueId → ValueId) : Prop where
  reached : KnownAt scope original block index known
  stands : body.instruction? block index = some (instruction.mapUses rename)
  made : scope.after original known instruction.operation = .ok later ∨ later = known
  named : original.definitions.Nodup → original.StrictSSA → instruction.mapUses rename = instruction
  knows : (∀ between other, index < between → between < position → body.instruction? block between = some other →
    other.operation.canThrow = false) → facts = later

section Behind

variable {scope : Scope} {original : Body} {done : List Nat} {sweep : Sweep} {block position index : Nat}
  {facts known later : Facts} {waiting : Waiting} {instruction visited : Instruction} {rename : ValueId → ValueId}

theorem Behind.keep (h : Behind scope original sweep.body block position facts index known later visited rename)
    (hlt : index < position) (hinstruction : sweep.body.instruction? block position = some instruction) {next : Facts}
    (hafter : scope.after sweep.body facts instruction.operation = .ok next) :
    Behind scope original sweep.body block (position + 1) next index known later visited rename := by
  refine ⟨h.reached, h.stands, h.made, h.named, fun hquiet => ?_⟩
  have hsilent := hquiet position instruction hlt (Nat.lt_succ_self _) hinstruction
  obtain rfl := Except.ok.inj ((after_of_canThrow_eq_false hsilent).symm.trans hafter)
  exact h.knows fun between other hearly hlate => hquiet between other hearly (Nat.lt_succ_of_lt hlate)

/-- In a strict body an elimination leaves the names that visited instructions use. -/
theorem Reached.rename_visited (h : Reached scope original done sweep (.within block position facts waiting))
    (hdistinct : original.definitions.Nodup) (hssa : original.StrictSSA)
    (hinstruction : sweep.body.instruction? block position = some instruction) {redundancy : Redundancy}
    (hredundant : scope.redundancy? sweep.body facts instruction.operation = some redundancy) (hlt : index < position)
    (hvisited : sweep.body.instruction? block index = some visited) :
    visited.mapUses redundancy.rename = visited := by
  obtain ⟨_, _, htracked⟩ := h.tracked hdistinct hssa
  refine Rewriting.mapUses_eq_self fun value huse => ?_
  refine htracked.rename_eq_of_isPast h.not_done hinstruction hredundant (htracked.passed visited ?_ value huse)
  rw [Body.instruction?_eq] at hvisited
  exact List.mem_of_getElem? (by rw [List.getElem?_take_of_lt hlt, hvisited])

theorem Behind.eliminate (hreached : Reached scope original done sweep (.within block position facts waiting))
    (h : Behind scope original sweep.body block position facts index known later visited rename)
    (hlt : index < position) (hinstruction : sweep.body.instruction? block position = some instruction)
    {redundancy : Redundancy}
    (hredundant : scope.redundancy? sweep.body facts instruction.operation = some redundancy) {next : Nat}
    (hnext : position ≤ next) :
    Behind scope original (sweep.eliminate scope block position redundancy).body block next facts index known later
      visited fun value => redundancy.rename (rename value) := by
  refine ⟨h.reached, ?_, h.made, fun hdistinct hssa => ?_, fun hquiet => h.knows fun between other hearly hlate hother => ?_⟩
  · rw [instruction?_eliminate_of_lt scope hinstruction hlt, h.stands, Option.map_some, Rewriting.mapUses_mapUses]
  · have hnamed := h.named hdistinct hssa
    have hstands := h.stands
    rw [← Rewriting.mapUses_mapUses, hnamed]
    rw [hnamed] at hstands
    exact hreached.rename_visited hdistinct hssa hinstruction hredundant hlt hstands
  · have hrenamed := instruction?_eliminate_of_lt scope hinstruction hlate redundancy
    rw [hother] at hrenamed
    have hsilent : (other.operation.mapOperands redundancy.rename).canThrow = false :=
      hquiet between _ hearly (Nat.lt_of_lt_of_le hlate hnext) hrenamed
    rwa [Operation.canThrow_mapOperands] at hsilent

/-- With the effect of the instruction taken back, little is known that was not known before it. -/
theorem Behind.onlyAdds (h : Behind scope original sweep.body block position facts index known later visited rename) :
    OnlyAdds (fun field object => field ∈ scope.initializedFields (visited.mapUses rename).operation ∨
      scope.accessedField? (visited.mapUses rename).operation = some field ∧
        (visited.mapUses rename).operation.receiver?.map original.aliasRoot ≠ some object) known
      (scope.withoutEffectOf original later (visited.mapUses rename).operation) := by
  have hoperation : (visited.mapUses rename).operation = visited.operation.mapOperands rename := rfl
  rcases h.made with hafter | rfl
  · refine (Scope.onlyAdds_withoutEffectOf hafter rename).mono fun field object hadded => ?_
    rw [hoperation, Scope.initializedFields_mapOperands, Scope.accessedField?_mapOperands]
    exact hadded.2
  · exact Scope.onlyAdds_withoutEffectOf_self ..

/-- In a strict body only a summary adds anything, of the receiver. -/
theorem Behind.onlyAdds_of_strict
    (h : Behind scope original sweep.body block position facts index known later visited rename)
    (hdistinct : original.definitions.Nodup) (hssa : original.StrictSSA) :
    OnlyAdds (fun field object => field ∈ scope.initializedFields (visited.mapUses rename).operation ∧
      (visited.mapUses rename).operation.receiver?.map original.aliasRoot = some object) known
      (scope.withoutEffectOf original later (visited.mapUses rename).operation) := by
  have hoperation : visited.operation.mapOperands rename = visited.operation :=
    congrArg Instruction.operation (h.named hdistinct hssa)
  rw [h.named hdistinct hssa]
  rcases h.made with hafter | rfl
  · have honly := Scope.onlyAdds_withoutEffectOf hafter rename
    rw [hoperation] at honly
    refine honly.mono fun field object ⟨hobject, hadded⟩ => ?_
    exact ⟨hadded.resolve_right fun hother => hother.2 hobject, hobject⟩
  · exact Scope.onlyAdds_withoutEffectOf_self ..

end Behind

/-- Every instruction of the block that the sweep has passed lies behind it in this way. -/
theorem Reached.behind {scope : Scope} {original : Body} {done : List Nat} {sweep : Sweep} {stage : Stage}
    (h : Reached scope original done sweep stage) :
    match stage with
    | .between _ => True
    | .within block position facts _ => ∀ index < position, ∃ known later instruction rename,
      Behind scope original sweep.body block position facts index known later instruction rename := by
  have hsame : ∀ instruction : Instruction, instruction.mapUses id = instruction := fun instruction =>
    Rewriting.mapUses_eq_self fun _ _ => rfl
  induction h using Reached.induction with
  | start => trivial
  | step hreached hstep ih =>
    cases hstep with
    | leave => trivial
    | enter => exact fun index hlt => absurd hlt (Nat.not_lt_zero index)
    | @keep _ block position _ facts later waiting instruction hinstruction hkept hafter =>
      intro index hlt
      rcases Nat.lt_or_eq_of_le (Nat.le_of_lt_succ hlt) with hbefore | rfl
      · obtain ⟨known, left, visited, rename, hbehind⟩ := ih index hbefore
        exact ⟨known, left, visited, rename, hbehind.keep hbefore hinstruction hafter⟩
      · -- the instruction that has just been kept
        refine ⟨facts, later, instruction, id, ⟨_, _, waiting, hreached⟩, ?_, .inl ?_, fun _ _ => hsame instruction,
          fun _ => rfl⟩
        · rw [hsame]
          exact hinstruction
        · rwa [after_eq hreached.sameFlow.2] at hafter
    | @eliminate _ block position _ facts waiting instruction redundancy hinstruction hredundant =>
      intro index hlt
      by_cases hbefore : index < position
      · obtain ⟨known, left, visited, rename, hbehind⟩ := ih index hbefore
        refine ⟨known, left, visited, _, hbehind.eliminate hreached hbefore hinstruction hredundant ?_⟩
        split <;> omega
      · -- what is left of the instruction that has just been eliminated, if anything: it tells nothing new
        cases hremoved : isRemoved instruction redundancy with
        | true =>
          rw [hremoved, if_pos rfl] at hlt
          exact absurd hlt hbefore
        | false =>
          rw [hremoved] at hlt
          obtain rfl : index = position := by
            simp only [Bool.false_eq_true, if_false] at hlt
            omega
          refine ⟨facts, facts, { instruction.mapUses redundancy.rename with operation := redundancy.left }, id,
            ⟨_, _, waiting, hreached⟩, ?_, .inr rfl, fun _ _ => hsame _, fun _ => rfl⟩
          rw [hsame]
          exact instruction?_eliminate_self hinstruction hremoved

/-! ### Handlers -/

private theorem mem_throwers {block : Block} {index : Nat} {instruction : Instruction}
    (h : block.instructions[index]? = some instruction) (hthrows : instruction.operation.canThrow = true) :
    index ∈ block.throwers := by
  rw [Block.throwers, List.mem_filter, List.mem_range, h]
  exact ⟨(List.getElem?_eq_some_iff.1 h).1, hthrows⟩

private theorem passedFacts_of_throwers_eq {scope : Scope} {body : Body} {block : Block} {handler index : Nat}
    {thrower : Instruction} (hcatch : block.hasCatchSuccessor handler = true) (hthrowers : block.throwers = [index])
    (hthrower : block.instructions[index]? = some thrower) (facts : Facts) :
    passedFacts scope body block facts handler = scope.withoutEffectOf body facts thrower.operation := by
  apply passedFacts_of_thrower hcatch
  have hmap := block.map_throwers
  rw [hthrowers, List.map_singleton, hthrower] at hmap
  obtain ⟨only, honly, hsame⟩ := List.map_eq_singleton_iff.1 hmap.symm
  rw [honly, Option.some.inj hsame]

/-- The sweep is at the end of the block, of which it leaves `left`, and knows `last` there. -/
structure AtBlockEnd (scope : Scope) (original : Body) (block position : Nat) (sweep : Sweep) (last : Facts)
    (left : Block) : Prop where
  reached : ∃ done waiting, Reached scope original done sweep (.within block position last waiting)
  ended : sweep.body.instruction? block position = none
  found : sweep.body.block? block = some left

/-- A handler that only one block leads to, what the sweep leaves of that block and what it knows at the start of the
handler. -/
structure HandlerStart (scope : Scope) (original : Body) (block handler : Nat) (left : Block) (start : Facts) : Prop where
  only : original.predecessors handler = [block]
  caught : left.hasCatchSuccessor handler = true
  before : ∃ position sweep last, AtBlockEnd scope original block position sweep last left
  known : KnownAt scope original handler 0 start

section Handler

variable {scope : Scope} {body : Body} {sweep : Sweep} {block handler position : Nat} {last start : Facts} {left : Block}

/-- A handler starts with nothing or with what its only predecessor passes to it at its end. -/
theorem HandlerStart.eq_passedFacts (h : HandlerStart scope body block handler left start)
    (hend : AtBlockEnd scope body block position sweep last left) :
    start = {} ∨ start = passedFacts scope body left last handler := by
  obtain ⟨_, _, _, hstart⟩ := h.known
  obtain ⟨_, _, hleft⟩ := hend.reached
  rcases hstart.passedTo.1 rfl with hempty | ⟨_, other, only, _, found, _, target, hother, hlast, htarget, hpred, rfl⟩
  · exact .inl hempty
  · right
    obtain ⟨rfl, -⟩ := List.cons.inj (h.only.symm.trans hpred)
    obtain ⟨rfl, rfl⟩ := hleft.left_unique hend.ended hother hlast
    obtain rfl := Option.some.inj (hend.found.symm.trans htarget)
    exact passedFacts_eq_of_values hleft.sameFlow.2 left found handler

/-- At the end of a block with one instruction that can throw, what is known is what that instruction left. -/
theorem AtBlockEnd.exists_behind (h : AtBlockEnd scope body block position sweep last left) {index : Nat}
    {thrower : Instruction} (hthrowers : left.throwers = [index]) (hthrower : left.instructions[index]? = some thrower)
    {known : Facts} (hknown : KnownAt scope body block index known) :
    ∃ instruction rename, instruction.mapUses rename = thrower ∧
      Behind scope body sweep.body block position last index known last instruction rename := by
  have hinstruction : ∀ between, sweep.body.instruction? block between = left.instructions[between]? := by
    intro between
    rw [Body.instruction?_eq, Body.instructionsAt_eq h.found]
  have hlt : index < position := by
    have hend := h.ended
    have hlength := (List.getElem?_eq_some_iff.1 hthrower).1
    rw [hinstruction, List.getElem?_eq_none_iff] at hend
    omega
  obtain ⟨_, _, hleft⟩ := h.reached
  obtain ⟨found, later, instruction, rename, hbehind⟩ := hleft.behind index hlt
  obtain rfl := hknown.unique hbehind.reached
  -- nothing after the instruction can throw, so the facts are those that it left
  have hquiet : last = later := by
    refine hbehind.knows fun between other hearly _ hother => ?_
    by_contra hthrows
    rw [hinstruction] at hother
    have hmem := mem_throwers hother (Bool.not_eq_false _ ▸ hthrows)
    rw [hthrowers, List.mem_singleton] at hmem
    omega
  subst hquiet
  refine ⟨instruction, rename, ?_, hbehind⟩
  exact Option.some.inj (hbehind.stands.symm.trans ((hinstruction index).trans hthrower))

end Handler

/-- A handler starts with what was known before the one instruction of its only predecessor that can throw, and with
nothing if there are several. What a call sets according to a summary is not taken back. Unless the body is strict, a
field access is not taken back either if its receiver has come to count as another object. -/
theorem handler_starts_with_known (scope : Scope) (body : Body) (block handler : Nat) (left : Block) (start : Facts)
    (h : HandlerStart scope body block handler left start) :
    (1 < left.throwers.length → start = {}) ∧
    ∀ index thrower known, left.throwers = [index] → left.instructions[index]? = some thrower →
      KnownAt scope body block index known →
        OnlyAdds (fun field object => field ∈ scope.initializedFields thrower.operation ∨
          scope.accessedField? thrower.operation = some field ∧
            thrower.operation.receiver?.map body.aliasRoot ≠ some object) known start ∧
        (body.definitions.Nodup → body.StrictSSA →
          OnlyAdds (fun field object => field ∈ scope.initializedFields thrower.operation ∧
            thrower.operation.receiver?.map body.aliasRoot = some object) known start) := by
  obtain ⟨position, sweep, last, hend⟩ := h.before
  have hpassed := h.eq_passedFacts hend
  refine ⟨fun hmany => ?_, fun index thrower known hthrowers hthrower hknown => ?_⟩
  · rcases hpassed with hempty | rfl
    · exact hempty
    · rw [passedFacts, h.caught, if_neg (by decide), if_pos hmany]
  · rcases hpassed with rfl | rfl
    · exact ⟨.empty known, fun _ _ => .empty known⟩
    · rw [passedFacts_of_throwers_eq h.caught hthrowers hthrower]
      obtain ⟨instruction, rename, rfl, hbehind⟩ := hend.exists_behind hthrowers hthrower hknown
      exact ⟨hbehind.onlyAdds, hbehind.onlyAdds_of_strict⟩

/-- A method that creates an object and calls its initializer, which sets the size. If the call throws, the size is read. -/
def sizeReadInHandler : Program × Body :=
  let declared := (({} : Program).declareClass "LA;" .program ⟨1⟩ none []).1
  let withField := (declared.addField ⟨0⟩ "size" "I" ⟨1⟩).1
  let withInitializer := (withField.addMethod ⟨0⟩ "<init>" "(I)V" ⟨0x10001⟩).1
  let withMethod := (withInitializer.addMethod ⟨0⟩ "m" "()I" (AccessFlags.withStatic ⟨1⟩)).1
  let size : FieldRef := { holder := ⟨0⟩, name := "size", descriptor := "I" }
  let initializer : MethodRef := { holder := ⟨0⟩, name := "<init>", descriptor := "(I)V" }
  (withMethod.recordSummary ⟨0⟩ { fields := [(⟨0⟩, .argument 1)] },
    { method := ⟨1⟩
      values := List.replicate 4 {}
      blocks :=
        [{ instructions :=
            [{ operation := .newInstance ⟨0⟩ ⟨0⟩ }, { operation := .constNumber ⟨1⟩ 5 }, { operation := .goto }]
           successors := [1] },
          { instructions := [{ operation := .invoke none .direct initializer [⟨0⟩, ⟨1⟩] }, { operation := .goto }]
            successors := [2]
            handlers := [{ guard := none, target := 3 }] },
          { instructions := [{ operation := .return (some ⟨1⟩) }] },
          { instructions :=
              [{ operation := .moveException ⟨2⟩ }, { operation := .instanceGet ⟨3⟩ ⟨0⟩ size },
                { operation := .return (some ⟨3⟩) }] }] })

def sizeReadInHandlerScope : Scope :=
  { program := sizeReadInHandler.1, settings := {}, method := ⟨1⟩, holder := ⟨0⟩ }

/-- What is known before the call. -/
def sizeReadInHandlerKnown : Facts :=
  { initialized := [⟨0⟩] }

/-- What is known after the call. -/
def sizeReadInHandlerLast : Facts :=
  { sizeReadInHandlerKnown with fields := .recordInstance {} false ⟨0⟩ ⟨0⟩ (.existing ⟨1⟩) }

private theorem sizeReadInHandler_order : visitOrder sizeReadInHandler.2 = [0, 1, 3, 2] := by
  decide +kernel

/-- What waits while the block with the call is visited. -/
def sizeReadInHandlerWaiting : Waiting :=
  (propagate sizeReadInHandlerScope sizeReadInHandler.2 0 sizeReadInHandlerKnown .empty).erase 1

private theorem sizeReadInHandler_before :
    Reached sizeReadInHandlerScope sizeReadInHandler.2 [0] { body := sizeReadInHandler.2 }
      (.within 1 0 sizeReadInHandlerKnown sizeReadInHandlerWaiting) := by
  have hnew : sizeReadInHandlerScope.after sizeReadInHandler.2 {} (.newInstance ⟨0⟩ ⟨0⟩) = .ok sizeReadInHandlerKnown := by
    refine congrArg Except.ok ?_
    decide +kernel
  have hentry : Reached sizeReadInHandlerScope sizeReadInHandler.2 [] { body := sizeReadInHandler.2 }
      (.within 0 0 {} .empty) := Reached.start.step (.enter sizeReadInHandler_order)
  have hvisited := ((hentry.step (.keep rfl rfl hnew)).step (.keep rfl rfl rfl)).step (.keep rfl rfl rfl)
  have hentered := (hvisited.step (.leave rfl)).step (.enter sizeReadInHandler_order)
  have hfacts : ((propagate sizeReadInHandlerScope sizeReadInHandler.2 0 sizeReadInHandlerKnown .empty).find? 1).getD {}
      = sizeReadInHandlerKnown := by
    decide +kernel
  exact hfacts ▸ hentered

private theorem sizeReadInHandler_left :
    Reached sizeReadInHandlerScope sizeReadInHandler.2 [0] { body := sizeReadInHandler.2 }
      (.within 1 2 sizeReadInHandlerLast sizeReadInHandlerWaiting) := by
  have hcall : (sizeReadInHandlerScope.after sizeReadInHandler.2 sizeReadInHandlerKnown (.invoke none .direct
      { holder := ⟨0⟩, name := "<init>", descriptor := "(I)V" } [⟨0⟩, ⟨1⟩])).toOption.map id
      = some sizeReadInHandlerLast := by
    decide +kernel
  obtain ⟨last, hafter, rfl⟩ := exists_of_toOption_map hcall
  exact (sizeReadInHandler_before.step (.keep rfl rfl hafter)).step (.keep rfl rfl rfl)

private theorem sizeReadInHandler_start :
    Reached sizeReadInHandlerScope sizeReadInHandler.2 [0, 1] { body := sizeReadInHandler.2 }
      (.within 3 0 sizeReadInHandlerLast
        ((propagate sizeReadInHandlerScope sizeReadInHandler.2 1 sizeReadInHandlerLast sizeReadInHandlerWaiting).erase 3)) := by
  have hentered := (sizeReadInHandler_left.step (.leave rfl)).step (.enter sizeReadInHandler_order)
  have hfacts : ((propagate sizeReadInHandlerScope sizeReadInHandler.2 1 sizeReadInHandlerLast
      sizeReadInHandlerWaiting).find? 3).getD {} = sizeReadInHandlerLast := by
    decide +kernel
  exact hfacts ▸ hentered

private theorem sizeReadInHandler_strict : sizeReadInHandler.2.StrictSSA :=
  Body.strictSSA_of_usesEntryOnly (by decide)

/-- The handler knows the size of the object and nothing else that was not known before the call. -/
theorem handler_starts_with_known_of_sizeReadInHandler :
    (∃ left, HandlerStart sizeReadInHandlerScope sizeReadInHandler.2 1 3 left sizeReadInHandlerLast ∧
      left.throwers = [0]) ∧
    KnownAt sizeReadInHandlerScope sizeReadInHandler.2 1 0 sizeReadInHandlerKnown ∧
    OnlyAdds (fun field object => field = ⟨0⟩ ∧ object = ⟨0⟩) sizeReadInHandlerKnown sizeReadInHandlerLast := by
  have hnames : sizeReadInHandlerScope.initializedFields (.invoke none .direct
      { holder := ⟨0⟩, name := "<init>", descriptor := "(I)V" } [⟨0⟩, ⟨1⟩]) = [⟨0⟩] := by
    decide +kernel
  have hknown : KnownAt sizeReadInHandlerScope sizeReadInHandler.2 1 0 sizeReadInHandlerKnown :=
    ⟨_, _, _, sizeReadInHandler_before⟩
  have hend : AtBlockEnd sizeReadInHandlerScope sizeReadInHandler.2 1 2 { body := sizeReadInHandler.2 }
      sizeReadInHandlerLast _ := ⟨⟨_, _, sizeReadInHandler_left⟩, rfl, rfl⟩
  have hstart : HandlerStart sizeReadInHandlerScope sizeReadInHandler.2 1 3 _ sizeReadInHandlerLast :=
    ⟨by decide, rfl, ⟨2, _, _, hend⟩, ⟨_, _, _, sizeReadInHandler_start⟩⟩
  have hone := (handler_starts_with_known _ _ 1 3 _ _ hstart).2 0 _ _ rfl rfl hknown
  refine ⟨⟨_, hstart, rfl⟩, hknown, (hone.2 (by decide) sizeReadInHandler_strict).mono fun field object hadded => ?_⟩
  rw [hnames, List.mem_singleton] at hadded
  exact ⟨hadded.1, (Option.some.inj hadded.2).symm⟩

/-- A method that reads the size of an object before it reads the object, which another read has made known. If the first
of these reads throws, the size is read from another name for the object. -/
def sizeReadThroughOldName : Program × Body :=
  let declared := (({} : Program).declareClass "LA;" .program ⟨1⟩ none []).1
  let successor : FieldRef := { holder := ⟨0⟩, name := "next", descriptor := "LA;" }
  let size : FieldRef := { holder := ⟨0⟩, name := "size", descriptor := "I" }
  let withFields := ((declared.addField ⟨0⟩ "next" "LA;" ⟨1⟩).1.addField ⟨0⟩ "size" "I" ⟨1⟩).1
  ((withFields.addMethod ⟨0⟩ "m" "(LA;)I" (AccessFlags.withStatic ⟨1⟩)).1,
    { method := ⟨0⟩
      values := [{}, {}, {}, {}, {}, { aliasOf := some ⟨3⟩ }, {}]
      blocks :=
        [{ instructions :=
            [{ operation := .argument ⟨0⟩ 0 }, { operation := .instanceGet ⟨1⟩ ⟨0⟩ successor }, { operation := .goto }]
           successors := [1] },
          { instructions :=
              [{ operation := .instanceGet ⟨2⟩ ⟨3⟩ size }, { operation := .instanceGet ⟨3⟩ ⟨0⟩ successor },
                { operation := .goto }]
            successors := [2]
            handlers := [{ guard := none, target := 3 }] },
          { instructions := [{ operation := .return (some ⟨2⟩) }] },
          { instructions :=
              [{ operation := .moveException ⟨4⟩ }, { operation := .assume ⟨5⟩ ⟨3⟩ },
                { operation := .instanceGet ⟨6⟩ ⟨5⟩ size }, { operation := .return (some ⟨6⟩) }] }] })

/-- The effect of the instruction that throws can reach the handler. The size that the call sets is known in the handler
and not before the call, and the read there is replaced. In a body that is not strict, a read in the handler can be replaced
by the result of the read that throws, after the receiver of that one was renamed. -/
theorem call_effect_reaches_handler :
    (sizeReadInHandler.2.defect? = none ∧ sizeReadInHandler.2.StrictSSA ∧
      sizeReadInHandler.2.predecessors 3 = [1] ∧
      (∃ waiting pending, Reached sizeReadInHandlerScope sizeReadInHandler.2 [0] { body := sizeReadInHandler.2 }
          (.within 1 0 sizeReadInHandlerKnown waiting) ∧
        Reached sizeReadInHandlerScope sizeReadInHandler.2 [0, 1] { body := sizeReadInHandler.2 }
          (.within 3 0 sizeReadInHandlerLast pending)) ∧
      sizeReadInHandlerKnown.fields.instanceFact? false ⟨0⟩ ⟨0⟩ = none ∧
      sizeReadInHandlerLast.fields.instanceFact? false ⟨0⟩ ⟨0⟩ = some (.existing ⟨1⟩) ∧
      (runWithStats { program := sizeReadInHandler.1, settings := {} } sizeReadInHandler.2).toOption.map
        (fun finished => finished.1.body.instructionsAt 3)
        = some [{ operation := .moveException ⟨2⟩ }, { operation := .return (some ⟨1⟩) }]) ∧
    sizeReadThroughOldName.2.defect? = none ∧ sizeReadThroughOldName.2.predecessors 3 = [1] ∧
      (runWithStats { program := sizeReadThroughOldName.1, settings := {} } sizeReadThroughOldName.2).toOption.map
        (fun finished => (finished.1.body.instructionsAt 1, finished.1.body.instructionsAt 3))
        = some ([{ operation := .instanceGet ⟨2⟩ ⟨1⟩ { holder := ⟨0⟩, name := "size", descriptor := "I" } },
            { operation := .goto }],
          [{ operation := .moveException ⟨4⟩ }, { operation := .assume ⟨5⟩ ⟨1⟩ }, { operation := .return (some ⟨2⟩) }]) := by
  refine ⟨⟨by decide, sizeReadInHandler_strict, by decide, ⟨_, _, sizeReadInHandler_before, sizeReadInHandler_start⟩, rfl,
    rfl, ?_⟩, by decide, by decide, ?_⟩
  · decide +kernel
  · decide +kernel

end Bytecode.LoadElimination
