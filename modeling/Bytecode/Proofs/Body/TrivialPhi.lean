import Bytecode.Body.TrivialPhi
import Bytecode.Proofs.Body.Composition
/-!
# Removing trivial phis

The value that a trivial phi selects supersedes the phi. It is available at the start of the phi's block: a path that
arrives there for the first time comes from a predecessor for which the phi has an operand, and that operand cannot be
the phi itself, which has not been passed. So a strict body without defects stays one, phi by phi.

All removals together are one rewriting: some phis go, every instruction stays, and only results of the phis that go are
replaced. What replaces them has not gone itself, however long the chain of removals was, because each removal replaces its
phi in the whole body and a phi that has gone is used nowhere any more. For this, and for a body to stay without defects,
strictness is not needed.
-/

namespace Bytecode

/-- The operands, apart from the phi's own result, are all one value, and there is such an operand. -/
def Phi.Trivial (phi : Phi) : Prop :=
  ∃ value ∈ phi.operands, value ≠ phi.dest ∧ ∀ operand ∈ phi.operands, operand = phi.dest ∨ operand = value

theorem Phi.trivialValue?_eq_some {phi : Phi} {value : ValueId} (h : phi.trivialValue? = some value) :
    value ∈ phi.operands ∧ value ≠ phi.dest ∧ ∀ operand ∈ phi.operands, operand = phi.dest ∨ operand = value := by
  unfold trivialValue? at h
  split at h
  · cases h
  · next first rest hfilter =>
    split at h
    · next hall =>
      obtain rfl := Option.some.inj h
      have hfirst : first ∈ phi.operands.filter (· ≠ phi.dest) := by
        rw [hfilter]
        exact List.mem_cons_self
      obtain ⟨hmem, hne⟩ := List.mem_filter.1 hfirst
      refine ⟨hmem, of_decide_eq_true hne, fun operand hoperand => ?_⟩
      by_cases heq : operand = phi.dest
      · exact .inl heq
      · have hkept : operand ∈ phi.operands.filter (· ≠ phi.dest) := List.mem_filter.2 ⟨hoperand, decide_eq_true heq⟩
        rw [hfilter] at hkept
        rcases List.mem_cons.1 hkept with rfl | hrest
        · exact .inr rfl
        · exact .inr (of_decide_eq_true (List.all_eq_true.1 hall operand hrest))
    · cases h

private theorem Phi.not_trivial_of_trivialValue? {phi : Phi} (h : phi.trivialValue? = none) : ¬phi.Trivial := by
  rintro ⟨value, hmem, hne, hoperands⟩
  have hothers : ∀ operand ∈ phi.operands.filter (· ≠ phi.dest), operand = value := by
    intro operand hoperand
    obtain ⟨hoperand, hother⟩ := List.mem_filter.1 hoperand
    exact (hoperands operand hoperand).resolve_left (of_decide_eq_true hother)
  have hkept : value ∈ phi.operands.filter (· ≠ phi.dest) := List.mem_filter.2 ⟨hmem, decide_eq_true hne⟩
  unfold trivialValue? at h
  split at h
  · next hnil =>
    rw [hnil] at hkept
    exact List.not_mem_nil hkept
  · next first rest hfilter =>
    rw [hfilter] at hothers
    rw [if_pos] at h
    · cases h
    · rw [List.all_eq_true]
      intro operand hoperand
      rw [decide_eq_true_eq, hothers operand (List.mem_cons_of_mem _ hoperand), hothers first List.mem_cons_self]

private theorem splitTrivial_eq_some {phis before after : List Phi} {phi : Phi} {value : ValueId}
    (h : splitTrivial phis = some (before, phi, value, after)) :
    phis = before ++ phi :: after ∧ phi.trivialValue? = some value := by
  induction phis generalizing before with
  | nil => cases h
  | cons head rest ih =>
    unfold splitTrivial at h
    split at h
    · next hvalue =>
      cases h
      exact ⟨rfl, hvalue⟩
    · obtain ⟨⟨front, found, selected, back⟩, hrest, heq⟩ := Option.map_eq_some_iff.1 h
      cases heq
      obtain ⟨rfl, hvalue⟩ := ih hrest
      exact ⟨rfl, hvalue⟩

private theorem splitTrivial_eq_none {phis : List Phi} (h : splitTrivial phis = none) :
    ∀ phi ∈ phis, phi.trivialValue? = none := by
  induction phis with
  | nil => exact fun phi hphi => absurd hphi List.not_mem_nil
  | cons head rest ih =>
    unfold splitTrivial at h
    split at h
    · cases h
    · next hhead => exact List.forall_mem_cons.2 ⟨hhead, ih (Option.map_eq_none_iff.1 h)⟩

/-- The first trivial phi is taken out of its block, and nothing else changes. -/
theorem extractTrivial_eq_some {blocks rest : List Block} {phi : Phi} {value : ValueId}
    (h : extractTrivial blocks = some (phi, value, rest)) :
    ∃ front block back before after, blocks = front ++ block :: back ∧ block.phis = before ++ phi :: after ∧
      phi.trivialValue? = some value ∧ rest = front ++ { block with phis := before ++ after } :: back := by
  induction blocks generalizing rest with
  | nil => cases h
  | cons head tail ih =>
    unfold extractTrivial at h
    split at h
    · next before found selected after hsplit =>
      cases h
      obtain ⟨hphis, hvalue⟩ := splitTrivial_eq_some hsplit
      exact ⟨[], head, tail, before, after, rfl, hphis, hvalue, rfl⟩
    · obtain ⟨⟨found, selected, blocks⟩, htail, heq⟩ := Option.map_eq_some_iff.1 h
      cases heq
      obtain ⟨front, block, back, before, after, rfl, hphis, hvalue, rfl⟩ := ih htail
      exact ⟨head :: front, block, back, before, after, rfl, hphis, hvalue, rfl⟩

private theorem extractTrivial_eq_none {blocks : List Block} (h : extractTrivial blocks = none) :
    ∀ block ∈ blocks, ∀ phi ∈ block.phis, ¬phi.Trivial := by
  induction blocks with
  | nil => exact fun block hblock => absurd hblock List.not_mem_nil
  | cons head tail ih =>
    unfold extractTrivial at h
    split at h
    · cases h
    · next hsplit =>
      refine List.forall_mem_cons.2 ⟨fun phi hphi => ?_, ih (Option.map_eq_none_iff.1 h)⟩
      exact Phi.not_trivial_of_trivialValue? (splitTrivial_eq_none hsplit phi hphi)

namespace Rewriting

private theorem supersede_block_of_phi {block : Block} (hdistinct : block.definitions.Nodup) {before after : List Phi}
    {phi : Phi}
    (hphis : block.phis = before ++ phi :: after) (new : ValueId) :
    (supersede phi.dest new).block block =
      { block with phis := before ++ after }.mapUses (replacing phi.dest new) := by
  rw [Block.definitions, hphis, List.map_append, List.map_cons, List.nodup_append, List.nodup_append,
    List.nodup_cons] at hdistinct
  obtain ⟨⟨-, ⟨hafter, -⟩, hbefore⟩, -, hinstructions⟩ := hdistinct
  have hnotBefore : phi.dest ∉ before.map (·.dest) := fun hmem => hbefore _ hmem _ List.mem_cons_self rfl
  have hnotInstructions : phi.dest ∉ block.instructions.filterMap (·.operation.dest?) := fun hmem =>
    hinstructions phi.dest (by simp) _ hmem rfl
  have hgone : (!(supersede phi.dest new).gone phi.dest) = false := by simp [supersede]
  rw [Rewriting.block, filterMap_supersede new hnotInstructions, hphis, List.filter_append,
    filter_supersede_phis new hnotBefore, List.filter_cons_of_neg (by rw [hgone]; exact Bool.false_ne_true),
    filter_supersede_phis new hafter]
  rfl

/-- Taking out a trivial phi and using its value instead. -/
theorem replaceUses_extractTrivial {body : Body} (hdistinct : body.definitions.Nodup) {phi : Phi} {value : ValueId}
    {rest : List Block} (h : extractTrivial body.blocks = some (phi, value, rest)) :
    ({ body with blocks := rest } : Body).replaceUses phi.dest value = (supersede phi.dest value).body body := by
  obtain ⟨front, block, back, before, after, hblocks, hphis, -, rfl⟩ := extractTrivial_eq_some h
  have hdest : phi.dest ∈ block.definitions := by
    rw [Block.definitions, hphis]
    simp
  rw [Body.definitions, hblocks, List.flatMap_append, List.flatMap_cons, List.nodup_append, List.nodup_append]
    at hdistinct
  obtain ⟨-, ⟨hblock, -, hback⟩, hfront⟩ := hdistinct
  have hother : ∀ other, other ∈ front ∨ other ∈ back → phi.dest ∉ other.definitions := by
    rintro other (hmem | hmem) hdefined
    · exact hfront _ (List.mem_flatMap.2 ⟨other, hmem, hdefined⟩) _ (List.mem_append_left _ hdest) rfl
    · exact hback _ hdest _ (List.mem_flatMap.2 ⟨other, hmem, hdefined⟩) rfl
  have hmap : ∀ blocks : List Block, (∀ other ∈ blocks, other ∈ front ∨ other ∈ back) →
      blocks.map (supersede phi.dest value).block = blocks.map (·.mapUses (replacing phi.dest value)) := by
    intro blocks hsubset
    exact List.map_congr_left fun other hmem => supersede_block_of_not_mem value (hother other (hsubset other hmem))
  rw [Rewriting.body, hblocks, List.map_append, List.map_cons, hmap front fun _ => .inl, hmap back fun _ => .inr,
    supersede_block_of_phi hblock hphis]
  rw [Body.replaceUses, Body.mapUses, List.map_append, List.map_cons]
  rfl

end Rewriting

namespace Body

/-- The value of the first trivial phi is an operand of it and not its own result. -/
theorem used_of_extractTrivial {body : Body} {phi : Phi} {value : ValueId} {rest : List Block}
    (h : extractTrivial body.blocks = some (phi, value, rest)) : value ≠ phi.dest ∧ value ∈ body.uses := by
  obtain ⟨front, block, back, before, after, hblocks, hphis, hvalue, -⟩ := extractTrivial_eq_some h
  obtain ⟨hmem, hne, -⟩ := Phi.trivialValue?_eq_some hvalue
  refine ⟨hne, List.mem_flatMap.2 ⟨block, by simp [hblocks], List.mem_append_left _ ?_⟩⟩
  exact List.mem_flatMap.2 ⟨phi, by simp [hphis], hmem⟩

private theorem removeTrivialPhis_wellFormed {body : Body} (hbody : body.WellFormed) :
    body.removeTrivialPhis.1.WellFormed := by
  fun_induction removeTrivialPhis body with
  | case1 body hnone => exact hbody
  | case2 body phi value blocks hsome result removed hrec ih =>
    obtain ⟨hne, hused⟩ := used_of_extractTrivial hsome
    rw [Rewriting.replaceUses_extractTrivial hbody.distinct hsome] at hrec ih
    rw [hrec] at ih
    exact ih (Rewriting.supersede_wellFormed hbody fun _ => ⟨hne, hbody.defined_of_use hused⟩)

/-- A trivial phi's value is available wherever the phi is. -/
theorem supports_trivialValue {body : Body} (hbody : body.WellFormed) (hssa : body.StrictSSA) {position : Nat}
    {block : Block} (hblock : body.block? position = some block) {phi : Phi} (hphi : phi ∈ block.phis) {value : ValueId}
    (hvalue : phi.trivialValue? = some value) :
    value ≠ phi.dest ∧ value ∈ body.definitions ∧ Rewriting.Supports body phi.dest value := by
  obtain ⟨hmem, hne, hoperands⟩ := Phi.trivialValue?_eq_some hvalue
  have hfits := hbody.fits position block hblock
  have hdefined : value ∈ body.definitions :=
    hfits.uses value (List.mem_append_left _ (List.mem_flatMap.2 ⟨phi, hphi, hmem⟩))
  have hdest : body.DefinedIn position phi.dest :=
    ⟨block, hblock, List.mem_append_left _ (List.mem_map_of_mem hphi)⟩
  obtain ⟨upper, hupper⟩ := mem_definitions.1 hdefined
  have hentry : position ≠ 0 := by
    rintro rfl
    rw [hssa.entry_phis block hblock] at hphi
    exact List.not_mem_nil hphi
  -- the operand for the edge over which a path first arrives is the value, and its definition has been passed
  have harrival : ∀ passed, body.flowGraph.Path 0 passed position → upper ∈ passed ∧ upper ≠ position := by
    intro passed hpath
    obtain ⟨front, last, hfront, hedge, hfresh, hsubset⟩ := hpath.firstArrival hentry
    have hpredecessor : last ∈ body.predecessors position :=
      mem_predecessors.2 ⟨hpath.target_lt, mem_flowGraph_successors.1 hedge⟩
    obtain ⟨index, hindex⟩ := List.mem_iff_getElem?.1 hpredecessor
    have hlt : index < phi.operands.length := by
      rw [hfits.phis phi hphi]
      exact (List.getElem?_eq_some_iff.1 hindex).1
    have hoperand := List.getElem?_eq_getElem hlt
    obtain ⟨definer, hdefiner, hdominates⟩ :=
      hssa.operand_available position block hblock phi hphi index last _ hindex hoperand
    have hpassed := hdominates front hfront
    rcases hoperands _ (List.getElem_mem hlt) with heq | heq
    · rw [heq] at hdefiner
      rw [DefinedIn.unique hbody.distinct hdefiner hdest] at hpassed
      exact absurd hpassed hfresh
    · rw [heq] at hdefiner
      rw [DefinedIn.unique hbody.distinct hdefiner hupper] at hpassed
      exact ⟨hsubset hpassed, fun heq => hfresh (heq ▸ hpassed)⟩
  refine ⟨hne, hdefined, fun other otherBlock hother hreachable => ?_⟩
  have hsame : ∀ {dest : ValueId}, dest ∈ otherBlock.definitions → dest = phi.dest → other = position := by
    rintro dest hdest' rfl
    exact DefinedIn.unique hbody.distinct ⟨otherBlock, hother, hdest'⟩ hdest
  constructor
  · intro hphis
    obtain rfl := hsame (List.mem_append_left _ hphis) rfl
    obtain ⟨passed, hpath⟩ := hreachable
    exact ⟨upper, (harrival passed hpath).2, hupper, fun passed hpath => (harrival passed hpath).1⟩
  · intro earlier instruction later hsplit hinstruction
    have hinstructions : phi.dest ∈ otherBlock.instructions.filterMap (·.operation.dest?) :=
      List.mem_filterMap.2 ⟨instruction, by rw [hsplit]; simp, hinstruction⟩
    obtain rfl := hsame (List.mem_append_right _ hinstructions) rfl
    obtain rfl := Option.some.inj (hother.symm.trans hblock)
    have hnodup := block_definitions_nodup hbody.distinct hblock
    exact absurd rfl ((List.nodup_append.1 hnodup).2.2 _ (List.mem_map_of_mem hphi) _ hinstructions)

private theorem removeTrivialPhis_strictSSA {body : Body} (hbody : body.WellFormed) (hssa : body.StrictSSA) :
    body.removeTrivialPhis.1.StrictSSA := by
  fun_induction removeTrivialPhis body with
  | case1 body hnone => exact hssa
  | case2 body phi value blocks hsome result removed hrec ih =>
    obtain ⟨front, block, back, before, after, hblocks, hphis, hvalue, -⟩ := extractTrivial_eq_some hsome
    have hblock : body.block? front.length = some block := by
      rw [block?, hblocks]
      simp
    have hsupports := supports_trivialValue hbody hssa hblock (by rw [hphis]; simp) hvalue
    have hkeeps := Rewriting.supersede_keeps hbody hssa fun _ => hsupports
    rw [Rewriting.replaceUses_extractTrivial hbody.distinct hsome] at hrec ih
    rw [hrec] at ih
    exact ih hkeeps.1 hkeeps.2

/-- The value is the result of a phi. -/
def IsPhiResult (body : Body) (value : ValueId) : Prop :=
  ∃ block ∈ body.blocks, ∃ phi ∈ block.phis, phi.dest = value

theorem IsPhiResult.dest?_ne {body : Body} (hdistinct : body.definitions.Nodup) {value : ValueId}
    (h : body.IsPhiResult value) {instruction : Instruction} (hinstruction : instruction ∈ body.instructions) :
    instruction.operation.dest? ≠ some value := by
  obtain ⟨block, hblock, phi, hphi, rfl⟩ := h
  obtain ⟨other, hother, hmem⟩ := List.mem_flatMap.1 hinstruction
  obtain ⟨position, hposition⟩ := List.mem_iff_getElem?.1 hblock
  obtain ⟨place, hplace⟩ := List.mem_iff_getElem?.1 hother
  exact dest?_ne_of_phi hdistinct hposition (List.mem_map_of_mem hphi) hplace hmem

end Body

/-! ### All removals as one -/

namespace Rewriting

/-- Some phis go, and other values are used in place of their results. -/
def withoutPhis (gone : ValueId → Bool) (rename : ValueId → ValueId) : Rewriting where
  gone
  rename
  instruction instruction := some (instruction.mapUses rename)

theorem withoutPhis_nothing (body : Body) : (withoutPhis (fun _ => false) id).body body = body := by
  have hsame : (withoutPhis (fun _ => false) id).instruction = identity.instruction := by
    funext instruction
    exact congrArg some (mapUses_eq_self fun _ _ => rfl)
  rw [show withoutPhis (fun _ => false) id = identity from congrArg (Rewriting.mk _ _) hsame, identity_body]

private theorem withoutPhis_andThen (gone more : ValueId → Bool) (rename further : ValueId → ValueId) :
    (withoutPhis gone rename).andThen (withoutPhis more further)
      = withoutPhis (fun value => gone value || more value) fun value => further (rename value) := by
  simp only [andThen, withoutPhis, Option.bind_some, mapUses_mapUses]

/-- Superseding the result of a phi leaves every instruction in place. -/
theorem supersede_body_of_phi {body : Body} (hdistinct : body.definitions.Nodup) {dest : ValueId}
    (hphi : body.IsPhiResult dest) (new : ValueId) :
    (supersede dest new).body body = (withoutPhis (fun value => value = dest) (replacing dest new)).body body := by
  rw [Rewriting.body, Rewriting.body]
  congr 1
  apply List.map_congr_left
  intro block hblock
  have hnot : dest ∉ block.instructions.filterMap (·.operation.dest?) := by
    intro hmem
    obtain ⟨instruction, hinstruction, hdest⟩ := List.mem_filterMap.1 hmem
    exact hphi.dest?_ne hdistinct (List.mem_flatMap.2 ⟨block, hblock, hinstruction⟩) hdest
  rw [Rewriting.block, filterMap_supersede new hnot, Rewriting.block]
  simp [supersede, withoutPhis]

end Rewriting

namespace Body

theorem isPhiResult_of_rewriting {rewriting : Rewriting} {body : Body} {value : ValueId}
    (h : (rewriting.body body).IsPhiResult value) : body.IsPhiResult value := by
  obtain ⟨_, hblock, _, hphi, rfl⟩ := h
  obtain ⟨block, hbefore, rfl⟩ := List.mem_map.1 hblock
  obtain ⟨phi, hmem, rfl⟩ := List.mem_map.1 hphi
  exact ⟨block, hbefore, phi, List.mem_of_mem_filter hmem, rfl⟩

/-- Superseding leaves no use of the superseded value. -/
theorem used_of_supersede {body : Body} {old new value : ValueId} (hne : new ≠ old) (hnew : new ∈ body.uses)
    (h : value ∈ ((Rewriting.supersede old new).body body).uses) : value ≠ old ∧ value ∈ body.uses := by
  obtain ⟨used, hused, rfl⟩ := (Rewriting.supersede_lawful old new).body_uses h
  by_cases heq : used = old
  · simp [Rewriting.supersede, Rewriting.replacing, heq, hne, hnew]
  · simp [Rewriting.supersede, Rewriting.replacing, heq, hused]

/-- Some phis go and only their results are replaced, by values that are used and have not gone. -/
structure ReplacesPhis (body : Body) (gone : ValueId → Bool) (rename : ValueId → ValueId) : Prop where
  isPhiResult : ∀ value, gone value = true → body.IsPhiResult value
  gone_of_ne : ∀ value, rename value ≠ value → gone value = true
  stays : ∀ value, gone value = true → gone (rename value) = false ∧ rename value ∈ body.uses

theorem ReplacesPhis.rename_eq_self {body : Body} {gone : ValueId → Bool} {rename : ValueId → ValueId}
    (h : body.ReplacesPhis gone rename) {value : ValueId} (hkept : gone value = false) : rename value = value := by
  by_contra hchanged
  exact Bool.false_ne_true (hkept.symm.trans (h.gone_of_ne value hchanged))

/-- Superseding one phi and then replacing others is replacing them all. What the others are replaced by is used when the
first phi has gone, so it is not the first phi. -/
theorem ReplacesPhis.after_supersede {body : Body} {dest new : ValueId} {gone : ValueId → Bool}
    {rename : ValueId → ValueId} (hphi : body.IsPhiResult dest) (hne : new ≠ dest) (hused : new ∈ body.uses)
    (h : ((Rewriting.supersede dest new).body body).ReplacesPhis gone rename) :
    body.ReplacesPhis (fun value => decide (value = dest) || gone value)
      fun value => rename (Rewriting.replacing dest new value) where
  isPhiResult value hgone := by
    rcases Bool.or_eq_true_iff.1 hgone with hfirst | hlater
    · exact of_decide_eq_true hfirst ▸ hphi
    · exact isPhiResult_of_rewriting (h.isPhiResult value hlater)
  gone_of_ne value hchanged := by
    by_cases hfirst : value = dest
    · simp [hfirst]
    · have hsame : Rewriting.replacing dest new value = value := if_neg hfirst
      simp only [hsame] at hchanged
      simp [h.gone_of_ne value hchanged]
  stays value hgone := by
    have hlater : ∀ other, other ≠ dest → other ∈ body.uses ∨ gone other = true →
        rename other ≠ dest ∧ gone (rename other) = false ∧ rename other ∈ body.uses := by
      intro other hother hcases
      cases hlost : gone other with
      | true =>
        obtain ⟨hkept, hmem⟩ := h.stays other hlost
        obtain ⟨hfirst, hmem⟩ := used_of_supersede hne hused hmem
        exact ⟨hfirst, hkept, hmem⟩
      | false =>
        rw [h.rename_eq_self hlost]
        exact ⟨hother, hlost, hcases.resolve_right (by simp [hlost])⟩
    have hreplaced : Rewriting.replacing dest new value ≠ dest ∧ (Rewriting.replacing dest new value ∈ body.uses ∨
        gone (Rewriting.replacing dest new value) = true) := by
      by_cases hfirst : value = dest
      · rw [Rewriting.replacing, if_pos hfirst]
        exact ⟨hne, .inl hused⟩
      · rw [Rewriting.replacing, if_neg hfirst]
        exact ⟨hfirst, .inr (by simpa [hfirst] using hgone)⟩
    obtain ⟨hfirst, hkept, hmem⟩ := hlater _ hreplaced.1 hreplaced.2
    exact ⟨by simp [hfirst, hkept], hmem⟩

/-- Removing trivial phis takes out some phis and replaces their results. -/
theorem removeTrivialPhis_eq {body : Body} (hdistinct : body.definitions.Nodup) :
    ∃ gone rename, body.removeTrivialPhis.1 = (Rewriting.withoutPhis gone rename).body body ∧
      body.ReplacesPhis gone rename := by
  fun_induction removeTrivialPhis body with
  | case1 body hnone =>
    exact ⟨fun _ => false, id, (Rewriting.withoutPhis_nothing body).symm, by simp, by simp, by simp⟩
  | case2 body phi value blocks hsome result removed hrec ih =>
    obtain ⟨front, block, back, before, after, hblocks, hphis, -, -⟩ := extractTrivial_eq_some hsome
    have hphi : body.IsPhiResult phi.dest := ⟨block, by simp [hblocks], phi, by simp [hphis], rfl⟩
    obtain ⟨hne, hused⟩ := used_of_extractTrivial hsome
    rw [Rewriting.replaceUses_extractTrivial hdistinct hsome] at hrec ih
    have hdistinct' : ((Rewriting.supersede phi.dest value).body body).definitions.Nodup := by
      rw [(Rewriting.supersede_lawful phi.dest value).body_definitions]
      exact hdistinct.filter _
    obtain ⟨gone, rename, hbody, hreplaces⟩ := ih hdistinct'
    refine ⟨_, _, ?_, hreplaces.after_supersede hphi hne hused⟩
    rw [← Rewriting.withoutPhis_andThen, Rewriting.andThen_body, ← Rewriting.supersede_body_of_phi hdistinct hphi,
      ← hbody, hrec]

/-- What the removal of trivial phis keeps. -/
theorem removeTrivialPhis_keeps {body : Body} (hbody : body.WellFormed) (hssa : body.StrictSSA) :
    body.removeTrivialPhis.1.WellFormed ∧ body.removeTrivialPhis.1.StrictSSA ∧
      body.SameFlow body.removeTrivialPhis.1 ∧ body.removeTrivialPhis.1.values = body.values ∧
      body.removeTrivialPhis.1.method = body.method := by
  refine ⟨removeTrivialPhis_wellFormed hbody, removeTrivialPhis_strictSSA hbody hssa, ?_⟩
  obtain ⟨gone, rename, heq, -⟩ := removeTrivialPhis_eq hbody.distinct
  rw [heq]
  exact ⟨Rewriting.sameFlow _ body, rfl, rfl⟩

/-! ### No trivial phi is left -/

private theorem not_trivial_of_removeTrivialPhis (body : Body) :
    ∀ block ∈ body.removeTrivialPhis.1.blocks, ∀ phi ∈ block.phis, ¬phi.Trivial := by
  fun_induction removeTrivialPhis body with
  | case1 body hnone => exact extractTrivial_eq_none hnone
  | case2 body phi value blocks hsome result removed hrec ih =>
    rw [hrec] at ih
    exact ih

private theorem phiCount_removeTrivialPhis (body : Body) :
    phiCount body.blocks = phiCount body.removeTrivialPhis.1.blocks + body.removeTrivialPhis.2 := by
  fun_induction removeTrivialPhis body with
  | case1 body hnone => rfl
  | case2 body phi value blocks hsome result removed hrec ih =>
    rw [hrec, replaceUses, phiCount_mapUses] at ih
    rw [phiCount_of_extractTrivial hsome, ih, Nat.add_assoc]

/-- What has not gone is still defined. -/
theorem mem_definitions_withoutPhis {body : Body} {gone : ValueId → Bool} {rename : ValueId → ValueId} {value : ValueId}
    (hvalue : value ∈ body.definitions) (hstays : gone value = false) :
    value ∈ ((Rewriting.withoutPhis gone rename).body body).definitions := by
  obtain ⟨block, hblock, hmem⟩ := List.mem_flatMap.1 hvalue
  refine List.mem_flatMap.2 ⟨_, List.mem_map_of_mem hblock, ?_⟩
  rcases List.mem_append.1 hmem with hphi | hinstruction
  · obtain ⟨phi, hmember, rfl⟩ := List.mem_map.1 hphi
    refine List.mem_append_left _ (List.mem_map.2 ⟨phi.mapOperands rename, List.mem_map_of_mem ?_, rfl⟩)
    exact List.mem_filter.2 ⟨hmember, by simp [Rewriting.withoutPhis, hstays]⟩
  · obtain ⟨instruction, hinstruction, hdest⟩ := List.mem_filterMap.1 hinstruction
    refine List.mem_append_right _ (List.mem_filterMap.2 ⟨instruction.mapUses rename, ?_, ?_⟩)
    · exact List.mem_filterMap.2 ⟨instruction, hinstruction, rfl⟩
    · rw [Instruction.mapUses, Operation.dest?_mapOperands]
      exact hdest

/-- **Removing trivial phis.** A body without defects stays one and has no trivial phi left, and the number is that of the
phis that went. The body differs from what it was only in that some phis went and that in the operands and debug values of
all that stays their results are replaced by values that are still defined. -/
theorem trivial_phis_removed_safely {body : Body} (h : body.defect? = none) :
    body.removeTrivialPhis.1.defect? = none ∧
      (∀ block ∈ body.removeTrivialPhis.1.blocks, ∀ phi ∈ block.phis, ¬phi.Trivial) ∧
      phiCount body.blocks = phiCount body.removeTrivialPhis.1.blocks + body.removeTrivialPhis.2 ∧
      ∃ gone rename, body.removeTrivialPhis.1 = (Rewriting.withoutPhis gone rename).body body ∧
        (∀ value, gone value = true →
          body.IsPhiResult value ∧ rename value ∈ body.removeTrivialPhis.1.definitions) ∧
        ∀ value, gone value = false → rename value = value := by
  rw [defect?_eq_none_iff] at h
  obtain ⟨gone, rename, hbody, hreplaces⟩ := removeTrivialPhis_eq h.distinct
  refine ⟨(defect?_eq_none_iff _).2 (removeTrivialPhis_wellFormed h), body.not_trivial_of_removeTrivialPhis,
    body.phiCount_removeTrivialPhis, gone, rename, hbody, fun value hgone => ⟨hreplaces.isPhiResult value hgone, ?_⟩,
    fun _ => hreplaces.rename_eq_self⟩
  obtain ⟨hkept, hused⟩ := hreplaces.stays value hgone
  rw [hbody]
  exact mem_definitions_withoutPhis (h.defined_of_use hused) hkept

/-- A loop that carries a value around unchanged, through two phis. Only the second of them is trivial at first. -/
def carriedAround : Body where
  method := ⟨0⟩
  values := [{}, {}, {}]
  blocks :=
    [{ instructions := [{ operation := .argument ⟨0⟩ 0 }, { operation := .goto }], successors := [1] },
      { phis := [{ dest := ⟨1⟩, operands := [⟨0⟩, ⟨2⟩] }], instructions := [{ operation := .goto }], successors := [2] },
      { phis := [{ dest := ⟨2⟩, operands := [⟨1⟩] }]
        instructions := [{ operation := .branch .eq ⟨1⟩ none, debugValues := [⟨2⟩] }], successors := [1, 3] },
      { instructions := [{ operation := .return (some ⟨2⟩) }] }]

theorem trivial_phis_removed_from_carriedAround :
    carriedAround.defect? = none ∧ carriedAround.removeTrivialPhis.2 = 2 ∧
      carriedAround.removeTrivialPhis.1.defect? = none ∧ phiCount carriedAround.removeTrivialPhis.1.blocks = 0 ∧
      carriedAround.removeTrivialPhis.1.uses = [⟨0⟩, ⟨0⟩, ⟨0⟩] := by
  have hsound : carriedAround.defect? = none := by decide
  have hremoved : carriedAround.removeTrivialPhis.2 = 2 := by decide +kernel
  obtain ⟨hresult, -, hcount, -⟩ := trivial_phis_removed_safely hsound
  rw [hremoved] at hcount
  exact ⟨hsound, hremoved, hresult, Nat.add_right_cancel hcount.symm, by decide +kernel⟩

end Body

end Bytecode
