import Bytecode.Proofs.LoadElimination.Idempotence
import Bytecode.Proofs.LoadElimination.Tracking
/-!
# Reading a field twice

Of two reads of one field from one object, with nothing between them that spoils the field, the second goes. When the
sweep has come past the first, the field is known on the object, and it stays known up to the second.

Facts name an object by the end of its alias chain. Eliminating a read renames its result in the operands of the body but
not in the alias chains that lead to it, so a result that is renamed and an alias of it no longer count as one object. The
two reads therefore need receivers that are the same value or that have not been renamed.
-/

namespace Bytecode

namespace LoadElimination

/-! ### Known fields -/

namespace Scope

variable {scope : Scope} {body : Body} {facts later : Facts} {field : FieldId} {object : ValueId}

/-- What is known of the field on the object can be used. -/
def Knows (scope : Scope) (facts : Facts) (field : FieldId) (object : ValueId) : Prop :=
  ∃ known, facts.fields.instance? field object = some known ∧ ∀ dest, (scope.usable? dest known).isSome = true

/-- The instruction may make a known field unknown: it may run other code, or it writes the field. -/
def maySpoil (scope : Scope) (field : FieldId) : Operation → Bool
  | .invoke .. | .invokeCustom .. | .monitorEnter _ => true
  | .instanceGet _ _ reference => (scope.trackedField? reference false).isNone
  | .instancePut _ reference _ => (scope.trackedField? reference false).all (·.id = field)
  | .staticGet _ reference | .staticPut reference _ => (scope.trackedField? reference true).isNone
  | .newInstance _ type => scope.program.initializationHasEffects type scope.holder
  | _ => false

private theorem maySpoil_mapOperands (field : FieldId) (operation : Operation) (rename : ValueId → ValueId) :
    scope.maySpoil field (operation.mapOperands rename) = scope.maySpoil field operation := by
  cases operation <;> rfl

private theorem usable?_isSome {dest other : ValueId} {known : Known} (h : (scope.usable? dest known).isSome = true) :
    (scope.usable? other known).isSome = true := by
  cases known with
  | existing value => rfl
  | constant constant =>
    rw [usable?] at h ⊢
    split at h
    · next hmaterializable =>
      rw [if_pos hmaterializable]
      rfl
    · cases h

theorem Knows.of_instance? (h : scope.Knows facts field object)
    (hsame : later.fields.instance? field object = facts.fields.instance? field object) :
    scope.Knows later field object := by
  obtain ⟨known, hknown, husable⟩ := h
  exact ⟨known, hsame.trans hknown, husable⟩

private theorem knows_of_record (dest : ValueId) (h : later.fields.instance? field object = some (.existing dest)) :
    scope.Knows later field object :=
  ⟨.existing dest, h, fun _ => rfl⟩

theorem instance?_touch (facts : Facts) (type : TypeId) :
    (scope.touch facts type).fields.instance? field object = facts.fields.instance? field object := by
  rw [touch, fields_markInitialized]
  split <;> rfl

/-- A record of the field on an object replaces what was known there and nothing else. -/
theorem Knows.record (h : scope.Knows facts field object) (isFinal : Bool) (other : FieldId) (receiver value : ValueId) :
    scope.Knows { facts with fields := facts.fields.recordInstance isFinal other receiver (.existing value) } field
      object := by
  by_cases hkey : field = other ∧ object = receiver
  · refine knows_of_record value ?_
    rw [KnownFields.instance?_recordInstance, if_pos hkey]
  · refine h.of_instance? ?_
    rw [KnownFields.instance?_recordInstance, if_neg hkey]

/-- What is known stays known as long as nothing spoils it. -/
theorem Knows.after {operation : Operation} (h : scope.Knows facts field object)
    (hspoil : scope.maySpoil field operation = false) (hafter : scope.after body facts operation = .ok later) :
    scope.Knows later field object := by
  cases operation
  case instanceGet dest receiver reference =>
    obtain rfl := Except.ok.inj hafter
    cases hdefinition : scope.trackedField? reference false with
    | none => simp [maySpoil, hdefinition] at hspoil
    | some definition =>
      simp only [afterInstanceGet, hdefinition]
      split
      · exact h
      · exact h.record false definition.id (body.aliasRoot receiver) dest
  case instancePut receiver reference value =>
    obtain rfl := Except.ok.inj hafter
    cases hdefinition : scope.trackedField? reference false with
    | none => simp [maySpoil, hdefinition] at hspoil
    | some definition =>
      have hother : definition.id ≠ field := by simpa [maySpoil, hdefinition] using hspoil
      simp only [afterInstancePut, hdefinition]
      have hforgotten : scope.Knows { facts with fields := facts.fields.forgetNonFinalInstances definition.id } field
          object := by
        refine h.of_instance? ?_
        simp only [KnownFields.instance?_eq, KnownFields.instanceFact?_forgetNonFinalInstances, Ne.symm hother, and_false,
          if_false]
      exact hforgotten.record definition.isFinal definition.id (body.aliasRoot receiver) value
  case staticGet dest reference =>
    obtain rfl := Except.ok.inj hafter
    cases hdefinition : scope.trackedField? reference true with
    | none => simp [maySpoil, hdefinition] at hspoil
    | some definition =>
      refine h.of_instance? ?_
      simp only [afterStaticGet, hdefinition]
      split
      · exact instance?_touch facts definition.holder
      · rw [KnownFields.instance?_eq, KnownFields.instanceFact?_recordStatic, KnownFields.instanceFact?_recordStatic]
        exact instance?_touch facts definition.holder
  case staticPut reference value =>
    obtain rfl := Except.ok.inj hafter
    cases hdefinition : scope.trackedField? reference true with
    | none => simp [maySpoil, hdefinition] at hspoil
    | some definition =>
      refine h.of_instance? ?_
      simp only [afterStaticPut, hdefinition]
      rw [KnownFields.instance?_eq, KnownFields.instanceFact?_recordStatic, KnownFields.instanceFact?_recordStatic]
      exact instance?_touch facts definition.holder
  case initClass dest type =>
    obtain rfl := Except.ok.inj hafter
    exact h.of_instance? (instance?_touch facts type)
  case newInstance dest type =>
    obtain rfl := Except.ok.inj hafter
    have hquiet : scope.program.initializationHasEffects type scope.holder = false := hspoil
    refine h.of_instance? ?_
    rw [afterNewInstance, fields_markInitialized, hquiet, Bool.and_false]
    rfl
  case invoke | invokeCustom | monitorEnter => cases hspoil
  all_goals
    obtain rfl := Except.ok.inj hafter
    exact h

/-! ### Reads of a tracked field -/

/-- The operation reads a tracked field into a value that is bound to no local. -/
def ReadsTracked (scope : Scope) (body : Body) (operation : Operation) (dest object : ValueId) (field : FieldId) : Prop :=
  ∃ reference definition, operation = .instanceGet dest object reference ∧
    scope.trackedField? reference false = some definition ∧ definition.id = field ∧ body.hasLocalInfo dest = false

variable {operation : Operation} {dest : ValueId}

private theorem readsTracked_of_id {reference : FieldRef}
    (hfield : (scope.trackedField? reference false).map (·.id) = some field) (hlocal : body.hasLocalInfo dest = false) :
    scope.ReadsTracked body (.instanceGet dest object reference) dest object field := by
  obtain ⟨definition, hdefinition, hid⟩ := Option.map_eq_some_iff.1 hfield
  exact ⟨reference, definition, rfl, hdefinition, hid, hlocal⟩

theorem ReadsTracked.mapOperands (h : scope.ReadsTracked body operation dest object field) (rename : ValueId → ValueId) :
    scope.ReadsTracked body (operation.mapOperands rename) dest (rename object) field := by
  obtain ⟨reference, definition, rfl, hrest⟩ := h
  exact ⟨reference, definition, rfl, hrest⟩

private theorem ReadsTracked.maySpoil_eq_false (h : scope.ReadsTracked body operation dest object field)
    (other : FieldId) :
    scope.maySpoil other operation = false := by
  obtain ⟨reference, definition, rfl, hdefinition, -⟩ := h
  rw [maySpoil, hdefinition]
  rfl

/-- Such a read stays only if its field is not known on its receiver. -/
theorem ReadsTracked.redundancy?_eq_none (h : scope.ReadsTracked body operation dest object field)
    (hnone : scope.redundancy? body facts operation = none) : ¬ scope.Knows facts field (body.aliasRoot object) := by
  obtain ⟨reference, definition, rfl, hdefinition, rfl, hlocal⟩ := h
  rintro ⟨known, hknown, husable⟩
  have hredundant := husable dest
  simp [redundancy?, hdefinition, hlocal, hknown] at hnone
  rw [hnone] at hredundant
  cases hredundant

private theorem ReadsTracked.knows_of_redundancy? (h : scope.ReadsTracked body operation dest object field)
    {redundancy : Redundancy} (hsome : scope.redundancy? body facts operation = some redundancy) :
    scope.Knows facts field (body.aliasRoot object) := by
  obtain ⟨reference, definition, rfl, hdefinition, rfl, hlocal⟩ := h
  simp only [redundancy?, hdefinition, hlocal, Option.bind_eq_bind, Option.bind_some] at hsome
  obtain ⟨known, hknown, husable⟩ := Option.bind_eq_some_iff.1 hsome
  exact ⟨known, hknown, fun _ => usable?_isSome (Option.isSome_iff_exists.2 ⟨redundancy, husable⟩)⟩

private theorem ReadsTracked.knows_after (h : scope.ReadsTracked body operation dest object field)
    (hafter : scope.after body facts operation = .ok later) : scope.Knows later field (body.aliasRoot object) := by
  obtain ⟨reference, definition, rfl, hdefinition, rfl, hlocal⟩ := h
  obtain rfl := Except.ok.inj hafter
  refine knows_of_record dest ?_
  simp [afterInstanceGet, hdefinition, hlocal, KnownFields.instance?_recordInstance]

end Scope

/-- Two reads in a block, at the places `early` and `late`, of one tracked field from one object, with nothing between them
that may spoil the field. -/
structure RepeatedRead (scope : Scope) (body : Body) (block early late : Nat) (field : FieldId)
    (firstObject secondObject result : ValueId) : Prop where
  before : early < late
  first : ∃ instruction dest, (body.instructionsAt block)[early]? = some instruction ∧
    scope.ReadsTracked body instruction.operation dest firstObject field
  second : ∃ instruction, (body.instructionsAt block)[late]? = some instruction ∧
    scope.ReadsTracked body instruction.operation result secondObject field
  sameObject : body.aliasRoot firstObject = body.aliasRoot secondObject
  quiet : ∀ index, early < index → index < late → ∀ instruction, (body.instructionsAt block)[index]? = some instruction →
    scope.maySpoil field instruction.operation = false

/-! ### While the sweep passes the reads -/

/-- The second read is gone, or the receivers differ and one of them was renamed. -/
def SecondGone (original body : Body) (firstObject secondObject result : ValueId) : Prop :=
  ¬ body.ReadsInstance result ∨ firstObject ≠ secondObject ∧
    ∃ object ∈ [firstObject, secondObject], original.ReadsField object ∧ ¬ body.Computes object

theorem SecondGone.rewriting {original body : Body} {firstObject secondObject result dest : ValueId}
    (h : SecondGone original body firstObject secondObject result) (redundancy : Redundancy) :
    SecondGone original ((redundancy.rewriting dest).body body) firstObject secondObject result := by
  rcases h with hnot | ⟨hne, object, hmem, hreads, hnot⟩
  · exact .inl fun hreads => hnot (readsInstance_of_rewriting hreads)
  · exact .inr ⟨hne, object, hmem, hreads, fun hcomputes => hnot (computes_of_rewriting hcomputes).1⟩

/-- What is left of an eliminated read is no read of an instance. -/
theorem not_readsInstance_rewriting (redundancy : Redundancy) (dest : ValueId) (body : Body) :
    ¬ ((redundancy.rewriting dest).body body).ReadsInstance dest := by
  rintro ⟨rewritten, hmem, object, field, hread⟩
  have hdest : rewritten.operation.dest? = some dest := by
    rw [hread]
    rfl
  have hstays := (computes_of_rewriting ⟨rewritten, hmem, hdest⟩).2
  cases redundancy with
  | existingValue _ value => simp [Redundancy.rewriting, Rewriting.supersede] at hstays
  | initialized _ => simp [Redundancy.rewriting, Rewriting.supersede] at hstays
  | constantValue _ constant =>
    obtain ⟨instruction, -, hrewritten⟩ := Rewriting.mem_instructions_body.1 hmem
    obtain rfl := Option.some.inj hrewritten
    split at hread
    · cases constant <;> cases hread
    · next hother =>
      rw [if_neg hother] at hdest
      exact hother hdest

section Passing

variable {scope : Scope} {original : Body} {home early late : Nat} {field : FieldId}
  {firstObject secondObject result : ValueId}

/-- What the sweep knows of the field, from the first read to the second, and what has become of the second. -/
structure Follows (scope : Scope) (original : Body) (home early late : Nat) (field : FieldId)
    (firstObject secondObject result : ValueId) (done : List Nat) (body : Body) (rename : ValueId → ValueId)
    (block visited : Nat) (facts : Facts) : Prop where
  done : home ∈ done → SecondGone original body firstObject secondObject result
  knows : block = home → early < visited → visited ≤ late →
    scope.Knows facts field (original.aliasRoot (rename firstObject))
  gone : block = home → late < visited → SecondGone original body firstObject secondObject result

variable {done rest : List Nat} {sweep : Sweep} {rename : ValueId → ValueId} {block position visited : Nat}
  {facts : Facts} {waiting : Waiting} {instruction : Instruction}
  (hrepeated : RepeatedRead scope original home early late field firstObject secondObject result)
  (htracked : Tracked original sweep.body done rename block position visited facts waiting)
  (hfollows : Follows scope original home early late field firstObject secondObject result done sweep.body rename block
    visited facts)

include hrepeated htracked

/-- At the first read the sweep sees a read of the field from the first object under its present name. -/
theorem RepeatedRead.sees_first (hhome : home ∉ done) (hblock : block = home) (hvisited : visited = early)
    (hinstruction : sweep.body.instruction? block position = some instruction) :
    ∃ dest, scope.ReadsTracked original instruction.operation dest (rename firstObject) field := by
  subst hblock hvisited
  obtain ⟨first, dest, hfirst, hreads⟩ := hrepeated.first
  obtain ⟨origin, horigin, rfl⟩ := htracked.exists_origin hhome hinstruction
  obtain rfl := Option.some.inj (hfirst.symm.trans horigin)
  exact ⟨dest, hreads.mapOperands rename⟩

theorem RepeatedRead.sees_second (hhome : home ∉ done) (hblock : block = home) (hvisited : visited = late)
    (hinstruction : sweep.body.instruction? block position = some instruction) :
    scope.ReadsTracked original instruction.operation result (rename secondObject) field := by
  subst hblock hvisited
  obtain ⟨second, hsecond, hreads⟩ := hrepeated.second
  obtain ⟨origin, horigin, rfl⟩ := htracked.exists_origin hhome hinstruction
  obtain rfl := Option.some.inj (hsecond.symm.trans horigin)
  exact hreads.mapOperands rename

/-- If the two receivers have come to count as different objects, one of them was renamed. -/
theorem RepeatedRead.renamed_of_ne
    (hne : original.aliasRoot (rename firstObject) ≠ original.aliasRoot (rename secondObject)) :
    firstObject ≠ secondObject ∧
      ∃ object ∈ [firstObject, secondObject], original.ReadsField object ∧ ¬ sweep.body.Computes object := by
  refine ⟨fun heq => hne (by rw [heq]), ?_⟩
  by_cases hfirst : rename firstObject = firstObject
  · have hsecond : rename secondObject ≠ secondObject := by
      intro hsecond
      rw [hfirst, hsecond] at hne
      exact hne hrepeated.sameObject
    exact ⟨secondObject, by simp, (htracked.renamed secondObject hsecond).2⟩
  · exact ⟨firstObject, by simp, (htracked.renamed firstObject hfirst).2⟩

include hfollows

theorem Follows.keep (hblock : block ∉ done) (hinstruction : sweep.body.instruction? block position = some instruction)
    (hkept : scope.redundancy? sweep.body facts instruction.operation = none) {later : Facts}
    (hafter : scope.after sweep.body facts instruction.operation = .ok later) :
    Follows scope original home early late field firstObject secondObject result done sweep.body rename block
      (visited + 1) later := by
  rw [redundancy?_eq htracked.values_eq] at hkept
  rw [after_eq htracked.values_eq] at hafter
  refine ⟨hfollows.done, fun hhome hearly hlate => ?_, fun hhome hlate => ?_⟩
  · rcases Nat.lt_or_eq_of_le (Nat.le_of_lt_succ hearly) with hbetween | heq
    · -- between the reads nothing spoils the field
      subst hhome
      obtain ⟨origin, horigin, rfl⟩ := htracked.exists_origin hblock hinstruction
      have hquiet := hrepeated.quiet visited hbetween hlate origin horigin
      have hknows := hfollows.knows rfl hbetween (by omega)
      refine hknows.after ?_ hafter
      rw [Instruction.mapUses, Scope.maySpoil_mapOperands, hquiet]
    · obtain ⟨dest, hreads⟩ := hrepeated.sees_first htracked (hhome ▸ hblock) hhome heq.symm hinstruction
      exact hreads.knows_after hafter
  · rcases Nat.lt_or_eq_of_le (Nat.le_of_lt_succ hlate) with hpassed | heq
    · exact hfollows.gone hhome hpassed
    · -- a second read that stays has another receiver than the field is known on
      have hreads := hrepeated.sees_second htracked (hhome ▸ hblock) hhome heq.symm hinstruction
      have hknows := hfollows.knows hhome (heq ▸ hrepeated.before) (Nat.le_of_eq heq.symm)
      refine .inr (hrepeated.renamed_of_ne htracked fun hsame => ?_)
      exact hreads.redundancy?_eq_none hkept (hsame ▸ hknows)

theorem Follows.eliminate (hdistinct : original.definitions.Nodup) (hssa : original.StrictSSA)
    (horder : visitOrder original = done ++ block :: rest)
    (hinstruction : sweep.body.instruction? block position = some instruction) {redundancy : Redundancy}
    (hredundant : scope.redundancy? sweep.body facts instruction.operation = some redundancy) :
    Follows scope original home early late field firstObject secondObject result done
      (sweep.eliminate scope block position redundancy).body (fun value => redundancy.rename (rename value)) block
      (visited + 1) facts := by
  have hblock := not_mem_done horder
  obtain ⟨dest, hdest⟩ := Scope.dest?_of_redundancy? hredundant
  rw [Sweep.body_eliminate htracked.distinct hinstruction hredundant hdest]
  refine ⟨fun hmem => (hfollows.done hmem).rewriting redundancy, fun hhome hearly hlate => ?_, fun hhome hlate => ?_⟩
  · -- the receiver of the first read is past and keeps its name
    have hname : redundancy.rename (rename firstObject) = rename firstObject := by
      subst hhome
      obtain ⟨first, _, hfirst, reference, _, hread, -⟩ := hrepeated.first
      refine htracked.rename_eq_of_isPast hblock hinstruction hredundant
        (htracked.isPast_rename hdistinct hssa horder (Nat.le_of_lt_succ hearly) hfirst ?_)
      rw [Instruction.uses, hread]
      exact List.mem_cons_self
    rw [hname]
    rcases Nat.lt_or_eq_of_le (Nat.le_of_lt_succ hearly) with hbetween | heq
    · exact hfollows.knows hhome hbetween (by omega)
    · obtain ⟨_, hreads⟩ := hrepeated.sees_first htracked (hhome ▸ hblock) hhome heq.symm hinstruction
      rw [redundancy?_eq htracked.values_eq] at hredundant
      exact hreads.knows_of_redundancy? hredundant
  · rcases Nat.lt_or_eq_of_le (Nat.le_of_lt_succ hlate) with hpassed | heq
    · exact (hfollows.gone hhome hpassed).rewriting redundancy
    · obtain ⟨_, _, hread, -⟩ := hrepeated.sees_second htracked (hhome ▸ hblock) hhome heq.symm hinstruction
      rw [hread] at hdest
      obtain rfl := Option.some.inj hdest
      exact .inl (not_readsInstance_rewriting redundancy result sweep.body)

theorem Follows.leave (hblock : block ∉ done) (hend : sweep.body.instruction? block position = none)
    (hmem : home ∈ done ++ [block]) : SecondGone original sweep.body firstObject secondObject result := by
  rcases List.mem_append.1 hmem with hbefore | hlast
  · exact hfollows.done hbefore
  · obtain rfl := List.mem_singleton.1 hlast
    refine hfollows.gone rfl ?_
    -- nothing is left of the block, so the second read has been visited
    have hupcoming := congrArg List.length (htracked.upcoming home hblock)
    rw [Body.instruction?_eq, List.getElem?_eq_none_iff] at hend
    rw [if_pos rfl, if_pos rfl, List.length_map, List.length_drop, List.length_drop] at hupcoming
    obtain ⟨second, hsecond, -⟩ := hrepeated.second
    have hlt := (List.getElem?_eq_some_iff.1 hsecond).1
    omega

end Passing

/-- At every stage of the sweep it is known what has become of a repeated read. -/
theorem Reached.follows {scope : Scope} {original : Body} {home early late : Nat} {field : FieldId}
    {firstObject secondObject result : ValueId} (hdistinct : original.definitions.Nodup) (hssa : original.StrictSSA)
    (hrepeated : RepeatedRead scope original home early late field firstObject secondObject result) {done : List Nat}
    {sweep : Sweep} {stage : Stage} (h : Reached scope original done sweep stage) :
    ∃ rename visited, match stage with
      | .between waiting => Tracked original sweep.body done rename 0 0 0 {} waiting ∧
        (home ∈ done → SecondGone original sweep.body firstObject secondObject result)
      | .within block position facts waiting =>
        Tracked original sweep.body done rename block position visited facts waiting ∧
        Follows scope original home early late field firstObject secondObject result done sweep.body rename block visited
          facts := by
  induction h using Reached.induction with
  | start => exact ⟨id, 0, .start hdistinct, fun hmem => absurd hmem List.not_mem_nil⟩
  | step hreached hstep ih =>
    cases hstep with
    | @enter _ _ block _ _ horder =>
      obtain ⟨rename, -, htracked, hdone⟩ := ih
      exact ⟨rename, 0, htracked.enter block, hdone, fun _ hearly => absurd hearly (Nat.not_lt_zero _),
        fun _ hlate => absurd hlate (Nat.not_lt_zero _)⟩
    | keep hinstruction hkept hafter =>
      obtain ⟨rename, visited, htracked, hfollows⟩ := ih
      obtain ⟨rest, horder⟩ := hreached.order
      exact ⟨rename, visited + 1, htracked.keep hdistinct hssa horder hinstruction hafter,
        hfollows.keep hrepeated htracked (not_mem_done horder) hinstruction hkept hafter⟩
    | eliminate hinstruction hredundant =>
      obtain ⟨rename, visited, htracked, hfollows⟩ := ih
      obtain ⟨rest, horder⟩ := hreached.order
      exact ⟨_, visited + 1, htracked.eliminate hdistinct hssa horder hinstruction hredundant,
        hfollows.eliminate hrepeated htracked hdistinct hssa horder hinstruction hredundant⟩
    | @leave _ _ _ _ _ _ hend =>
      obtain ⟨rename, visited, htracked, hfollows⟩ := ih
      obtain ⟨rest, horder⟩ := hreached.order
      exact ⟨rename, 0, htracked.leave scope, hfollows.leave hrepeated htracked (not_mem_done horder) hend⟩

/-! ### The pass -/

private theorem exists_of_mem_finish {scope : Scope} {sweep : Sweep} {instruction : Instruction}
    (h : instruction ∈ (finish scope sweep).1.body.instructions) :
    ∃ before ∈ sweep.body.instructions, ∃ rename, before.mapUses rename = instruction := by
  unfold finish at h
  split at h
  · obtain ⟨rename, hrename⟩ := sweep.body.map_instructions_removeTrivialPhis
    have hinstructions : sweep.body.removeTrivialPhis.1.instructions
        = sweep.body.instructions.map (·.mapUses rename) := by
      rw [Body.instructions, List.flatMap_def, hrename, Body.instructions, List.map_flatMap, List.flatMap_def]
    change instruction ∈ sweep.body.removeTrivialPhis.1.instructions at h
    rw [hinstructions] at h
    obtain ⟨before, hbefore, hsame⟩ := List.mem_map.1 h
    exact ⟨before, hbefore, rename, hsame⟩
  · exact ⟨instruction, h, id, Rewriting.mapUses_eq_self fun _ _ => rfl⟩

private theorem readsInstance_of_finish {scope : Scope} {sweep : Sweep} {value : ValueId}
    (h : (finish scope sweep).1.body.ReadsInstance value) : sweep.body.ReadsInstance value := by
  obtain ⟨instruction, hmem, object, field, hread⟩ := h
  obtain ⟨before, hbefore, rename, rfl⟩ := exists_of_mem_finish hmem
  refine ⟨before, hbefore, ?_⟩
  rw [Instruction.mapUses] at hread
  cases hoperation : before.operation <;> rw [hoperation] at hread <;> cases hread
  exact ⟨_, _, rfl⟩

private theorem computes_of_finish {scope : Scope} {sweep : Sweep} {value : ValueId}
    (h : (finish scope sweep).1.body.Computes value) : sweep.body.Computes value := by
  obtain ⟨instruction, hmem, hdest⟩ := h
  obtain ⟨before, hbefore, rename, rfl⟩ := exists_of_mem_finish hmem
  rw [Instruction.mapUses, Operation.dest?_mapOperands] at hdest
  exact ⟨before, hbefore, hdest⟩

private theorem mem_visitOrder_of_reachable {body : Body} {block : Nat} (h : body.Reachable block) :
    block ∈ visitOrder body :=
  DominatorTree.mem_preorder_of_reachable body.flowGraph_predecessorsInverse h

/-- Of two reads of a field from one object in a block that can be reached, with nothing between them that may spoil the
field, the second is gone after the pass, if both have the same receiver or no receiver is a read that was eliminated. -/
theorem repeated_read_eliminated (context : PassContext) (body : Body) (definition : MethodDef)
    (hmethod : context.program.method? body.method = some definition) (hdefect : body.defect? = none)
    (hssa : body.StrictSSA) (outcome : PassOutcome) (stats : Stats)
    (hrun : runWithStats context body = .ok (outcome, stats)) (block : Nat) (hreachable : body.Reachable block)
    (early late : Nat) (field : FieldId) (firstObject secondObject result : ValueId)
    (hrepeated : RepeatedRead (scopeFor context body definition) body block early late field firstObject secondObject
      result)
    (hreceivers : firstObject = secondObject ∨
      ∀ object ∈ [firstObject, secondObject], body.ReadsField object → outcome.body.Computes object) :
    ¬ outcome.body.ReadsInstance result := by
  have hbody := (Body.defect?_eq_none_iff body).1 hdefect
  rw [runWithStats_eq hmethod] at hrun
  cases hsweep : sweepBody (scopeFor context body definition) body with
  | error error =>
    rw [hsweep] at hrun
    cases hrun
  | ok sweep =>
    rw [hsweep] at hrun
    obtain rfl : (finish (scopeFor context body definition) sweep).1 = outcome :=
      congrArg Prod.fst (Except.ok.inj hrun)
    obtain ⟨waiting, hreached⟩ := sweepBody_reached hsweep
    obtain ⟨-, -, -, hdone⟩ := hreached.follows hbody.distinct hssa hrepeated
    rcases hdone (mem_visitOrder_of_reachable hreachable) with hgone | ⟨hne, object, hmem, hreads, hnot⟩
    · exact fun hreads => hgone (readsInstance_of_finish hreads)
    · exact absurd (computes_of_finish (hreceivers.resolve_left hne object hmem hreads)) hnot

/-- A method that reads the successor of an object twice and then its size three times, twice from the second successor
and once in between from another name for it. -/
def sizeReadThroughAlias : Program × Body :=
  let declared := (({} : Program).declareClass "LA;" .program ⟨1⟩ none []).1
  let successor : FieldRef := { holder := ⟨0⟩, name := "next", descriptor := "LA;" }
  let size : FieldRef := { holder := ⟨0⟩, name := "size", descriptor := "I" }
  let withFields := ((declared.addField ⟨0⟩ "next" "LA;" ⟨1⟩).1.addField ⟨0⟩ "size" "I" ⟨1⟩).1
  ((withFields.addMethod ⟨0⟩ "m" "(LA;)I" (AccessFlags.withStatic ⟨1⟩)).1,
    { method := ⟨0⟩
      values := [{}, {}, {}, { aliasOf := some ⟨2⟩ }, {}, {}, {}, {}]
      blocks :=
        [{ instructions :=
            [{ operation := .argument ⟨0⟩ 0 }, { operation := .instanceGet ⟨1⟩ ⟨0⟩ successor },
              { operation := .instanceGet ⟨2⟩ ⟨0⟩ successor }, { operation := .assume ⟨3⟩ ⟨2⟩ },
              { operation := .instanceGet ⟨4⟩ ⟨2⟩ size }, { operation := .instanceGet ⟨5⟩ ⟨3⟩ size },
              { operation := .instanceGet ⟨6⟩ ⟨2⟩ size }, { operation := .binary ⟨7⟩ .add ⟨5⟩ ⟨6⟩ },
              { operation := .return (some ⟨7⟩) }] }] })

theorem sizeReadThroughAlias_readsTracked {definition : MethodDef}
    (hmethod : sizeReadThroughAlias.1.method? sizeReadThroughAlias.2.method = some definition) (dest object : ValueId)
    (hlocal : sizeReadThroughAlias.2.hasLocalInfo dest = false) :
    (scopeFor { program := sizeReadThroughAlias.1, settings := {} } sizeReadThroughAlias.2 definition).ReadsTracked
      sizeReadThroughAlias.2 (.instanceGet dest object { holder := ⟨0⟩, name := "size", descriptor := "I" }) dest object
      ⟨1⟩ := by
  have hholder : (sizeReadThroughAlias.1.method? sizeReadThroughAlias.2.method).map (·.holder) = some ⟨0⟩ := by decide
  rw [hmethod] at hholder
  refine Scope.readsTracked_of_id ?_ hlocal
  rw [scopeFor, show definition.holder = ⟨0⟩ from Option.some.inj hholder]
  decide +kernel

/-- The size is read again from the second successor, whose read was eliminated. -/
theorem repeated_read_eliminated_of_sizeReadThroughAlias :
    ∃ (definition : MethodDef) (outcome : PassOutcome) (stats : Stats),
      sizeReadThroughAlias.2.defect? = none ∧ sizeReadThroughAlias.2.StrictSSA ∧
        RepeatedRead (scopeFor { program := sizeReadThroughAlias.1, settings := {} } sizeReadThroughAlias.2 definition)
          sizeReadThroughAlias.2 0 4 6 ⟨1⟩ ⟨2⟩ ⟨2⟩ ⟨6⟩ ∧
        runWithStats { program := sizeReadThroughAlias.1, settings := {} } sizeReadThroughAlias.2
          = .ok (outcome, stats) ∧ stats.eliminated = 2 ∧ ¬ outcome.body.ReadsInstance ⟨6⟩ := by
  let context : PassContext := { program := sizeReadThroughAlias.1, settings := {} }
  obtain ⟨definition, hmethod⟩ := Option.isSome_iff_exists.1
    (show (context.program.method? sizeReadThroughAlias.2.method).isSome = true by decide)
  have hdefect : sizeReadThroughAlias.2.defect? = none := by decide
  have hssa : sizeReadThroughAlias.2.StrictSSA := Body.strictSSA_of_usesEntryOnly (by decide)
  have hrepeated : RepeatedRead (scopeFor context sizeReadThroughAlias.2 definition) sizeReadThroughAlias.2 0 4 6 ⟨1⟩
      ⟨2⟩ ⟨2⟩ ⟨6⟩ := by
    refine ⟨by decide, ⟨_, ⟨4⟩, rfl, sizeReadThroughAlias_readsTracked hmethod _ _ rfl⟩,
      ⟨_, rfl, sizeReadThroughAlias_readsTracked hmethod _ _ rfl⟩, rfl, ?_⟩
    intro index hearly hlate instruction hget
    obtain rfl : index = 5 := by omega
    cases hget
    exact (sizeReadThroughAlias_readsTracked hmethod ⟨5⟩ ⟨3⟩ rfl).maySpoil_eq_false ⟨1⟩
  have hchecked : (runWithStats context sizeReadThroughAlias.2).toOption.map (·.2.eliminated) = some 2 := by
    decide +kernel
  obtain ⟨⟨outcome, stats⟩, hrun, heliminated⟩ := exists_of_toOption_map hchecked
  exact ⟨definition, outcome, stats, hdefect, hssa, hrepeated, hrun, heliminated,
    repeated_read_eliminated context sizeReadThroughAlias.2 definition hmethod hdefect hssa outcome stats hrun 0
      ⟨[0], .start (by decide)⟩ 4 6 ⟨1⟩ ⟨2⟩ ⟨2⟩ ⟨6⟩ hrepeated (.inl rfl)⟩

/-- The size is read from the second successor and from another name for it, and the second of these reads stays: after the
first successor has taken the place of the second, the two receivers no longer count as one object. -/
theorem repeated_read_through_alias_stays :
    ∃ (definition : MethodDef) (outcome : PassOutcome) (stats : Stats),
      sizeReadThroughAlias.1.method? sizeReadThroughAlias.2.method = some definition ∧
        sizeReadThroughAlias.2.defect? = none ∧ sizeReadThroughAlias.2.StrictSSA ∧
        sizeReadThroughAlias.2.Reachable 0 ∧
        RepeatedRead (scopeFor { program := sizeReadThroughAlias.1, settings := {} } sizeReadThroughAlias.2 definition)
          sizeReadThroughAlias.2 0 4 5 ⟨1⟩ ⟨2⟩ ⟨3⟩ ⟨5⟩ ∧
        runWithStats { program := sizeReadThroughAlias.1, settings := {} } sizeReadThroughAlias.2
          = .ok (outcome, stats) ∧ outcome.body.ReadsInstance ⟨5⟩ := by
  let context : PassContext := { program := sizeReadThroughAlias.1, settings := {} }
  obtain ⟨definition, hmethod⟩ := Option.isSome_iff_exists.1
    (show (context.program.method? sizeReadThroughAlias.2.method).isSome = true by decide)
  have hrepeated : RepeatedRead (scopeFor context sizeReadThroughAlias.2 definition) sizeReadThroughAlias.2 0 4 5 ⟨1⟩
      ⟨2⟩ ⟨3⟩ ⟨5⟩ := by
    refine ⟨by decide, ⟨_, ⟨4⟩, rfl, sizeReadThroughAlias_readsTracked hmethod _ _ rfl⟩,
      ⟨_, rfl, sizeReadThroughAlias_readsTracked hmethod _ _ rfl⟩, rfl, ?_⟩
    intro index hearly hlate
    omega
  have hchecked : (runWithStats context sizeReadThroughAlias.2).toOption.map (fun finished =>
      decide (({ operation := .instanceGet ⟨5⟩ ⟨3⟩ { holder := ⟨0⟩, name := "size", descriptor := "I" } } : Instruction)
        ∈ finished.1.body.instructions)) = some true := by
    decide +kernel
  obtain ⟨⟨outcome, stats⟩, hrun, hreads⟩ := exists_of_toOption_map hchecked
  exact ⟨definition, outcome, stats, hmethod, by decide, Body.strictSSA_of_usesEntryOnly (by decide),
    ⟨[0], .start (by decide)⟩, hrepeated, hrun, _, of_decide_eq_true hreads, _, _, rfl⟩

end LoadElimination

end Bytecode
