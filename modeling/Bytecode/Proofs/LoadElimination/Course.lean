import Bytecode.Proofs.LoadElimination.Tracking
/-!
# The course of a sweep

The sweep is deterministic, so what is known at a place is unique and a block is left only once. It leaves the flow of
control and the table of values as they are, and a block that it comes to starts with what the only predecessor of that
block passed on when the sweep left it, or with nothing.
-/

namespace Bytecode.LoadElimination

/-! ### The sweep is deterministic -/

section Determinism

variable {scope : Scope} {original : Body}

theorem Step.rightUnique : Relator.RightUnique (Step scope original) := by
  intro before first second hfirst hsecond
  cases hfirst with
  | enter horder =>
    cases hsecond with
    | enter hother =>
      have htail := List.append_cancel_left (horder.symm.trans hother)
      obtain ⟨rfl, -⟩ := List.cons.inj htail
      rfl
  | keep hinstruction hkept hafter =>
    cases hsecond with
    | keep hother _ hlater =>
      obtain rfl := Option.some.inj (hinstruction.symm.trans hother)
      obtain rfl := Except.ok.inj (hafter.symm.trans hlater)
      rfl
    | eliminate hother hredundant =>
      obtain rfl := Option.some.inj (hinstruction.symm.trans hother)
      cases hkept.symm.trans hredundant
    | leave hend => cases hinstruction.symm.trans hend
  | eliminate hinstruction hredundant =>
    cases hsecond with
    | keep hother hkept _ =>
      obtain rfl := Option.some.inj (hinstruction.symm.trans hother)
      cases hkept.symm.trans hredundant
    | eliminate hother hagain =>
      obtain rfl := Option.some.inj (hinstruction.symm.trans hother)
      obtain rfl := Option.some.inj (hredundant.symm.trans hagain)
      rfl
    | leave hend => cases hinstruction.symm.trans hend
  | leave hend =>
    cases hsecond with
    | keep hother => cases hother.symm.trans hend
    | eliminate hother => cases hother.symm.trans hend
    | leave => rfl

theorem Step.mem_done {before after : Moment} (h : Step scope original before after) {block : Nat}
    (hdone : block ∈ before.1) : block ∈ after.1 := by
  cases h with
  | leave => exact List.mem_append_left _ hdone
  | enter | keep | eliminate => exact hdone

private theorem mem_done_of_steps {before after : Moment} (h : Relation.ReflTransGen (Step scope original) before after)
    {block : Nat} (hdone : block ∈ before.1) : block ∈ after.1 := by
  induction h with
  | refl => exact hdone
  | tail _ hstep ih => exact hstep.mem_done ih

/-- The sweep has come to a place with the facts, or it has passed that place. -/
def IsAt (block position : Nat) (facts : Facts) (moment : Moment) : Prop :=
  block ∈ moment.1 ∨ ∃ present found waiting, moment.2.2 = .within block present found waiting ∧ position ≤ present ∧
    (present = position → found = facts)

theorem IsAt.step {block position : Nat} {facts : Facts} {before after : Moment} (h : IsAt block position facts before)
    (hstep : Step scope original before after) : IsAt block position facts after := by
  rcases h with hdone | ⟨present, found, waiting, hstage, hle, hfacts⟩
  · exact .inl (hstep.mem_done hdone)
  · cases hstep with
    | enter => cases hstage
    | keep =>
      cases hstage
      exact .inr ⟨_, _, _, rfl, by omega, fun heq => by omega⟩
    | eliminate =>
      cases hstage
      refine .inr ⟨_, _, _, rfl, ?_, fun heq => hfacts ?_⟩
      · split <;> omega
      · split at heq <;> omega
    | leave =>
      cases hstage
      exact .inl (List.mem_append_right _ List.mem_cons_self)

theorem IsAt.steps {block position : Nat} {facts : Facts} {before after : Moment} (h : IsAt block position facts before)
    (hsteps : Relation.ReflTransGen (Step scope original) before after) : IsAt block position facts after := by
  induction hsteps with
  | refl => exact h
  | tail _ hstep ih => exact ih.step hstep

variable {done others : List Nat} {sweep other : Sweep} {block position : Nat} {facts found : Facts}
  {waiting pending : Waiting}

theorem Reached.not_done {position : Nat} (h : Reached scope original done sweep (.within block position facts waiting)) :
    block ∉ done := by
  obtain ⟨rest, horder⟩ := h.order
  exact not_mem_done horder

private theorem facts_eq_of_steps (h : Reached scope original others other (.within block position found pending))
    (hsteps : Relation.ReflTransGen (Step scope original) (done, sweep, .within block position facts waiting)
      (others, other, .within block position found pending)) : found = facts := by
  have hstart : IsAt block position facts (done, sweep, .within block position facts waiting) :=
    .inr ⟨position, facts, waiting, rfl, Nat.le_refl _, fun _ => rfl⟩
  rcases hstart.steps hsteps with hdone | ⟨_, _, _, hstage, -, hfacts⟩
  · exact absurd hdone h.not_done
  · cases hstage
    exact hfacts rfl

/-- The sweep comes to the position of the block with the facts. -/
def KnownAt (scope : Scope) (original : Body) (block position : Nat) (facts : Facts) : Prop :=
  ∃ done sweep waiting, Reached scope original done sweep (.within block position facts waiting)

/-- What is known at a place is unique. -/
theorem KnownAt.unique (h : KnownAt scope original block position facts)
    (hother : KnownAt scope original block position found) : found = facts := by
  obtain ⟨_, _, _, hreached⟩ := h
  obtain ⟨_, _, _, hagain⟩ := hother
  rcases Relation.ReflTransGen.total_of_right_unique Step.rightUnique hreached hagain with hsteps | hsteps
  · exact facts_eq_of_steps hagain hsteps
  · exact (facts_eq_of_steps hreached hsteps).symm

/-- From the end of a block the sweep can only leave it, and it does not come back. -/
theorem eq_of_steps_of_end {last : Nat} (h : Reached scope original others other (.within block last found pending))
    (hend : sweep.body.instruction? block position = none)
    (hsteps : Relation.ReflTransGen (Step scope original) (done, sweep, .within block position facts waiting)
      (others, other, .within block last found pending)) : other = sweep ∧ found = facts := by
  rcases hsteps.cases_head with hsame | ⟨next, hstep, hrest⟩
  · cases hsame
    exact ⟨rfl, rfl⟩
  · obtain rfl := Step.rightUnique hstep (.leave hend)
    have hdone := mem_done_of_steps hrest (List.mem_append_right done List.mem_cons_self)
    exact absurd hdone h.not_done

/-- A block is left only once. -/
theorem Reached.left_unique {last : Nat} (h : Reached scope original done sweep (.within block position facts waiting))
    (hend : sweep.body.instruction? block position = none)
    (hother : Reached scope original others other (.within block last found pending))
    (hlast : other.body.instruction? block last = none) : other = sweep ∧ found = facts := by
  rcases Relation.ReflTransGen.total_of_right_unique Step.rightUnique h hother with hsteps | hsteps
  · exact eq_of_steps_of_end hother hend hsteps
  · obtain ⟨rfl, rfl⟩ := eq_of_steps_of_end h hlast hsteps
    exact ⟨rfl, rfl⟩

end Determinism

/-! ### Where facts come from -/

section Origin

variable {scope : Scope} {original : Body} {done : List Nat} {sweep : Sweep} {stage : Stage} {block position : Nat}
  {facts : Facts} {waiting : Waiting}

private theorem sameFlow_eliminate (scope : Scope) (sweep : Sweep) (block position : Nat) (redundancy : Redundancy) :
    sweep.body.SameFlow (sweep.eliminate scope block position redundancy).body := by
  have hmodify : ∀ (body : Body) (f : Block → Block),
      (∀ target, (f target).successors = target.successors ∧ (f target).handlers = target.handlers) →
      body.SameFlow (body.modifyBlock block f) := by
    intro body f hf
    rw [Body.SameFlow, Body.modifyBlock]
    refine List.ext_getElem? fun index => ?_
    rw [List.getElem?_map, List.getElem?_map, List.getElem?_modify]
    cases body.blocks[index]? with
    | none => rfl
    | some target =>
      split
      · show some ((f target).successors, (f target).handlers) = _
        rw [(hf target).1, (hf target).2]
        rfl
      · rfl
  have hdiscard : ∀ body : Body, body.SameFlow (body.discardInstruction block position) := by
    intro body
    rw [Body.discardInstruction]
    split <;> exact hmodify body _ fun _ => ⟨rfl, rfl⟩
  cases redundancy with
  | existingValue dest value =>
    refine Body.SameFlow.trans ?_ (hdiscard (sweep.body.replaceUses dest value))
    rw [Body.SameFlow, Body.replaceUses, Body.mapUses, List.map_map]
    rfl
  | constantValue dest constant => exact hmodify sweep.body _ fun _ => ⟨rfl, rfl⟩
  | initialized type => exact hdiscard sweep.body

/-- The sweep leaves the flow of control and the table of values as they are. -/
theorem Reached.sameFlow (h : Reached scope original done sweep stage) :
    original.SameFlow sweep.body ∧ sweep.body.values = original.values := by
  induction h using Reached.induction with
  | start => exact ⟨.refl original, rfl⟩
  | step _ hstep ih =>
    cases hstep with
    | enter | keep | leave => exact ih
    | eliminate =>
      exact ⟨ih.1.trans (sameFlow_eliminate ..), (values_eliminate _).trans ih.2⟩

/-- The facts were passed to the block by its only predecessor. -/
def PassedTo (scope : Scope) (original : Body) (target : Nat) (facts : Facts) : Prop :=
  ∃ done sweep block position last waiting left,
    Reached scope original done sweep (.within block position last waiting) ∧
    sweep.body.instruction? block position = none ∧ sweep.body.block? block = some left ∧
    original.predecessors target = [block] ∧ facts = passedFacts scope sweep.body left last target

private theorem passedTo_of_propagate (h : Reached scope original done sweep (.within block position facts waiting))
    (hend : sweep.body.instruction? block position = none) {target : Nat} {found : Facts}
    (hfound : (propagate scope sweep.body block facts waiting).find? target = some found) :
    waiting.find? target = some found ∨ PassedTo scope original target found := by
  rcases find?_propagate hfound with hbefore | ⟨left, hblock, hsuccessor, hone, hpassed⟩
  · exact .inl hbefore
  · right
    obtain ⟨only, honly⟩ := List.length_eq_one_iff.1 hone
    have hlt : target < sweep.body.blocks.length := by
      have hmem : only ∈ sweep.body.predecessors target := by
        rw [honly]
        exact List.mem_cons_self
      exact (Body.mem_predecessors.1 hmem).1
    have hmem : block ∈ sweep.body.predecessors target := Body.mem_predecessors.2 ⟨hlt, left, hblock, hsuccessor⟩
    rw [honly, List.mem_singleton] at hmem
    rw [h.sameFlow.1.predecessors_eq, ← hmem] at honly
    exact ⟨done, sweep, block, position, facts, waiting, left, h, hend, hblock, honly, hpassed⟩

/-- A block starts with what its only predecessor passed to it, or with nothing. -/
theorem Reached.passedTo (h : Reached scope original done sweep stage) :
    match stage with
    | .between waiting => ∀ target found, waiting.find? target = some found → PassedTo scope original target found
    | .within block position facts waiting => (position = 0 → facts = {} ∨ PassedTo scope original block facts) ∧
      ∀ target found, waiting.find? target = some found → PassedTo scope original target found := by
  induction h using Reached.induction with
  | start =>
    intro target found hfound
    rw [Table.find?_empty] at hfound
    cases hfound
  | step hreached hstep ih =>
    cases hstep with
    | @enter _ _ block _ waiting _ =>
      refine ⟨fun _ => ?_, fun target found hfound => ?_⟩
      · cases hfound : waiting.find? block with
        | none => exact .inl rfl
        | some found => exact .inr (ih block found hfound)
      · rw [Table.find?_erase, Option.ite_none_left_eq_some] at hfound
        exact ih target found hfound.2
    | keep => exact ⟨fun hzero => absurd hzero (Nat.succ_ne_zero _), ih.2⟩
    | eliminate =>
      refine ⟨fun hzero => ih.1 ?_, ih.2⟩
      split at hzero
      · exact hzero
      · exact absurd hzero (Nat.succ_ne_zero _)
    | leave hend =>
      intro target found hfound
      rcases passedTo_of_propagate hreached hend hfound with hbefore | hpassed
      · exact ih.2 target found hbefore
      · exact hpassed

end Origin

end Bytecode.LoadElimination
