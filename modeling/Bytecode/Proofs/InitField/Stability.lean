import Bytecode.Proofs.InitField.Synthesis
/-!
# Choosing again

Among the fields of a class, the search keeps the best candidate it has seen, so it ends with the earliest of the most
visible ones (`FirstMostVisible`). A field that was added is a candidate for every check, and it was added only to a class
without any candidate; so in the extended program it is what the search finds, while the search in the other classes
finds what it found before. Hence each choice can be read off the extended program alone (`answer`), and a second run,
which starts from that program, makes the same choices and adds nothing.
-/

namespace Bytecode

private theorem Program.FieldsAppended.initRequirements_eq {before after : Program} {added : List FieldDef}
    (h : before.FieldsAppended after added) : after.initRequirements = before.initRequirements := by
  have hsites : after.initCheckSites = before.initCheckSites := by
    unfold Program.initCheckSites Program.body? Program.method?
    rw [h.programMethods_eq, h.bodies, h.methods]
  have hrequired : after.requiredVisibility = before.requiredVisibility := by
    funext type context
    unfold Program.requiredVisibility
    rw [h.typeName, h.typeName, h.isSubtype_eq]
  rw [Program.initRequirements, Program.initRequirements, hsites, hrequired]

namespace InitField

variable {program : Program} {type : TypeId} {required : Visibility}

/-! ### The search in one class -/

/-- A field that can stand for checks which need the given visibility. -/
structure Fits (required : Visibility) (definition : FieldDef) : Prop where
  isStatic : definition.isStatic = true
  isLive : definition.isDead = false
  isNarrow : definition.isWide = false
  isVisible : required.rank ≤ definition.visibility.rank

theorem isCandidate_iff {definition : FieldDef} : isCandidate required definition = true ↔ Fits required definition := by
  simp only [isCandidate, Bool.and_eq_true, Bool.not_eq_true', Visibility.satisfies_iff]
  constructor
  · rintro ⟨⟨⟨hstatic, hlive⟩, hnarrow⟩, hvisible⟩
    exact ⟨hstatic, hlive, hnarrow, hvisible⟩
  · intro h
    exact ⟨⟨⟨h.isStatic, h.isLive⟩, h.isNarrow⟩, h.isVisible⟩

/-- The earliest of the most visible fields that fit. -/
def FirstMostVisible (required : Visibility) (definitions : List FieldDef) (best : FieldDef) : Prop :=
  ∃ earlier later, definitions = earlier ++ best :: later ∧ Fits required best ∧
    (∀ other ∈ earlier, Fits required other → other.visibility.rank < best.visibility.rank) ∧
    ∀ other ∈ later, Fits required other → other.visibility.rank ≤ best.visibility.rank

/-- What a search has kept of the fields it has seen. -/
def Kept (required : Visibility) (seen : List FieldDef) : Option FieldDef → Prop
  | none => ∀ other ∈ seen, ¬Fits required other
  | some best => FirstMostVisible required seen best

/-- Fields that are not more visible than the best one, or do not fit, can follow. -/
theorem FirstMostVisible.append {seen more : List FieldDef} {best : FieldDef} (h : FirstMostVisible required seen best)
    (hmore : ∀ other ∈ more, Fits required other → other.visibility.rank ≤ best.visibility.rank) :
    FirstMostVisible required (seen ++ more) best := by
  obtain ⟨earlier, later, rfl, hfits, hearlier, hlater⟩ := h
  refine ⟨earlier, later ++ more, by simp, hfits, hearlier, ?_⟩
  intro other hother
  exact (List.mem_append.1 hother).elim (hlater other) (hmore other)

theorem Kept.skip {seen : List FieldDef} {best : Option FieldDef} (h : Kept required seen best) {definition : FieldDef}
    (hunfit : ¬Fits required definition) : Kept required (seen ++ [definition]) best := by
  cases best with
  | none =>
    intro other hother
    rcases List.mem_append.1 hother with hseen | hlast
    · exact h other hseen
    · rwa [List.mem_singleton.1 hlast]
  | some best =>
    apply FirstMostVisible.append h
    intro other hother hfits
    rw [List.mem_singleton.1 hother] at hfits
    exact absurd hfits hunfit

theorem Kept.compare {seen : List FieldDef} {best : Option FieldDef} (h : Kept required seen best) {definition : FieldDef}
    (hfits : Fits required definition) :
    ∃ better, (if best.all (·.visibility.isBelow definition.visibility) then some definition else best) = some better ∧
      FirstMostVisible required (seen ++ [definition]) better ∧
      definition.visibility.rank ≤ better.visibility.rank := by
  cases best with
  | none =>
    refine ⟨definition, rfl, ⟨seen, [], rfl, hfits, ?_, by simp⟩, Nat.le_refl _⟩
    intro other hother hother'
    exact absurd hother' (h other hother)
  | some best =>
    by_cases hbelow : best.visibility.rank < definition.visibility.rank
    · refine ⟨definition, by simp [Visibility.isBelow, hbelow], ⟨seen, [], rfl, hfits, ?_, by simp⟩, Nat.le_refl _⟩
      obtain ⟨earlier, later, rfl, -, hearlier, hlater⟩ := h
      intro other hother hfitsOther
      rcases List.mem_append.1 hother with hbefore | hafter
      · exact Nat.lt_trans (hearlier other hbefore hfitsOther) hbelow
      · rcases List.mem_cons.1 hafter with rfl | hafter
        · exact hbelow
        · exact Nat.lt_of_le_of_lt (hlater other hafter hfitsOther) hbelow
    · refine ⟨best, by simp [Visibility.isBelow, hbelow], ?_, Nat.le_of_not_lt hbelow⟩
      apply FirstMostVisible.append h
      intro other hother _
      rw [List.mem_singleton.1 hother]
      exact Nat.le_of_not_lt hbelow

/-- The search may stop at a public field, since nothing is more visible. -/
theorem Kept.mostVisible? {seen : List FieldDef} {best : Option FieldDef} (h : Kept required seen best)
    (definitions : List FieldDef) : Kept required (seen ++ definitions) (mostVisible? required best definitions) := by
  induction definitions generalizing seen best with
  | nil => rwa [List.append_nil]
  | cons definition rest ih =>
    rw [InitField.mostVisible?, List.append_cons]
    by_cases hcandidate : isCandidate required definition = true
    · obtain ⟨better, hbetter, hfirst, hle⟩ := h.compare (isCandidate_iff.1 hcandidate)
      simp only [hcandidate, if_true, hbetter]
      split
      · next hpublic =>
        apply hfirst.append
        intro other _ _
        have htop : other.visibility.rank ≤ Visibility.anywhere.rank := by cases other.visibility <;> decide
        rw [hpublic] at hle
        exact Nat.le_trans htop hle
      · exact ih hfirst
    · rw [if_neg hcandidate]
      exact ih (h.skip (mt isCandidate_iff.2 hcandidate))

private theorem kept_existing? {owner : ClassDef} (howner : program.class? type = some owner) :
    Kept required (program.fieldsOf owner) (existing? program type required) := by
  have hnone : Kept required [] none := by simp [Kept]
  rw [existing?, howner]
  exact hnone.mostVisible? (program.fieldsOf owner)

/-- Fields that do not fit make no difference to the search. -/
theorem mostVisible?_append_of_unfit {seen rest : List FieldDef} {best : Option FieldDef}
    (h : ∀ other ∈ seen, ¬Fits required other) :
    mostVisible? required best (seen ++ rest) = mostVisible? required best rest := by
  induction seen with
  | nil => rfl
  | cons definition seen ih =>
    have hunfit : ¬isCandidate required definition = true := mt isCandidate_iff.1 (h definition List.mem_cons_self)
    rw [List.cons_append, mostVisible?, if_neg hunfit]
    exact ih fun other hother => h other (List.mem_cons_of_mem _ hother)

/-! ### The search in an extended program -/

private theorem existing?_addField_of_ne (hlisted : program.FieldsListed) {holder : TypeId} (hne : type ≠ holder)
    (name descriptor : String) (flags : AccessFlags) :
    existing? (program.addField holder name descriptor flags).1 type required = existing? program type required := by
  rw [existing?, existing?, Program.class?_addField, if_neg hne]
  cases howner : program.class? type with
  | none => rfl
  | some owner =>
    have hfields := hlisted.fieldsOf_of_append (Program.fields_addField program holder name descriptor flags) howner
    exact congrArg (mostVisible? required none) hfields

/-- A field that is added to a class without a fitting one is what is found there afterwards. -/
theorem existing?_addition (hlisted : program.FieldsListed) {owner : ClassDef} (howner : program.class? type = some owner)
    (hnone : existing? program type required = none) :
    existing? (program.addField type (addition program type owner).reference.name fieldDescriptor .generatedConstant).1
      type required = some (addition program type owner) := by
  have hunfit : Kept required (program.fieldsOf owner) none := hnone ▸ kept_existing? howner
  have hfields : (program.addField type (addition program type owner).reference.name fieldDescriptor
      .generatedConstant).1.fieldsOf { owner with fields := owner.fields ++ [⟨program.fields.length⟩] }
        = program.fieldsOf owner ++ [addition program type owner] := by
    have hbefore := hlisted.fieldsOf_of_append (Program.fields_addField program type
      (addition program type owner).reference.name fieldDescriptor .generatedConstant) howner
    rw [← hbefore, Program.fieldsOf, List.filterMap_append]
    exact congrArg _ (List.filterMap_cons_some (Program.field?_nextField program type _ fieldDescriptor _))
  have hcandidate := (generated_addition program type owner).isCandidate required
  rw [existing?, Program.class?_addField, if_pos rfl, howner]
  show mostVisible? required none _ = _
  rw [hfields, mostVisible?_append_of_unfit hunfit, mostVisible?, if_pos hcandidate]
  simp [mostVisible?]

private theorem isProgramType_addField (program : Program) (holder : TypeId) (name descriptor : String)
    (flags : AccessFlags)
    (type : TypeId) :
    (program.addField holder name descriptor flags).1.isProgramType type = program.isProgramType type := by
  rw [Program.isProgramType, Program.class?_addField, Program.isProgramType]
  split
  · rw [Option.any_map]
    rfl
  · rfl

/-! ### Choices read off a program -/

/-- Takes the field that the search finds for a class, if it finds one. -/
def answer (program : Program) (chosen : InitFields) (requirement : TypeId × Visibility) : InitFields :=
  match existing? program requirement.1 requirement.2 with
  | some definition => chosen.insert requirement.1 definition.id
  | none => chosen

/-- A step only answers if the search finds a field or the class cannot get one. -/
theorem step_answers {synthesis : Synthesis}
    (h : existing? synthesis.program type required = none → synthesis.program.isProgramType type = false) :
    synthesis.step (type, required)
      = .ok { synthesis with chosen := answer synthesis.program synthesis.chosen (type, required) } := by
  cases hexisting : existing? synthesis.program type required with
  | some definition => rw [step_of_existing hexisting, answer, hexisting]
  | none => rw [step_of_foreign hexisting (h hexisting), answer, hexisting]

private theorem foldlM_answers {requirements : List (TypeId × Visibility)} (synthesis : Synthesis)
    (h : ∀ type required, (type, required) ∈ requirements → existing? synthesis.program type required = none →
      synthesis.program.isProgramType type = false) :
    requirements.foldlM Synthesis.step synthesis
      = .ok { synthesis with chosen := requirements.foldl (answer synthesis.program) synthesis.chosen } := by
  induction requirements generalizing synthesis with
  | nil => rfl
  | cons requirement rest ih =>
    obtain ⟨type, required⟩ := requirement
    rw [List.foldlM_cons, step_answers (h type required List.mem_cons_self)]
    exact ih { synthesis with chosen := answer synthesis.program synthesis.chosen (type, required) }
      fun other visibility hmem => h other visibility (List.mem_cons_of_mem _ hmem)

/-- The choices made for some requirements are what the program so far answers, and what it answers for them comes from
the program at the start or was added. -/
structure Answered (program : Program) (done : List (TypeId × Visibility)) (synthesis : Synthesis) : Prop where
  listed : synthesis.program.FieldsListed
  longer : program.fields.length ≤ synthesis.program.fields.length
  waiting : ∀ type, (∀ required, (type, required) ∉ done) → ∀ required,
    existing? synthesis.program type required = existing? program type required
  chosen : synthesis.chosen = done.foldl (answer synthesis.program) .empty
  foreign : ∀ type required, (type, required) ∈ done → existing? synthesis.program type required = none →
    synthesis.program.isProgramType type = false
  origin : ∀ type required definition, (type, required) ∈ done →
    existing? synthesis.program type required = some definition →
    existing? program type required = some definition ∨ program.fields.length ≤ definition.id.index

namespace Answered

variable {done : List (TypeId × Visibility)} {synthesis next : Synthesis}

/-- A step that only answers. -/
theorem answer (h : Answered program done synthesis) (hnew : ∀ required, (type, required) ∉ done)
    (hanswers : existing? synthesis.program type required = none → synthesis.program.isProgramType type = false) :
    Answered program (done ++ [(type, required)])
      { synthesis with chosen := InitField.answer synthesis.program synthesis.chosen (type, required) } where
  listed := h.listed
  longer := h.longer
  waiting := by
    intro other hother
    exact h.waiting other fun visibility hmem => hother visibility (List.mem_append_left _ hmem)
  chosen := by
    rw [List.foldl_append, ← h.chosen]
    rfl
  foreign := by
    intro other visibility hmem hnone
    rcases List.mem_append.1 hmem with hdone | hlast
    · exact h.foreign other visibility hdone hnone
    · cases List.mem_singleton.1 hlast
      exact hanswers hnone
  origin := by
    intro other visibility definition hmem hfound
    rcases List.mem_append.1 hmem with hdone | hlast
    · exact h.origin other visibility definition hdone hfound
    · cases List.mem_singleton.1 hlast
      left
      rw [← h.waiting type hnew]
      exact hfound

/-- A step that adds a field, which no other class can see. -/
theorem add (h : Answered program done synthesis) (hnew : ∀ required, (type, required) ∉ done) {owner : ClassDef}
    (howner : synthesis.program.class? type = some owner) (hnone : existing? synthesis.program type required = none)
    (events : List Event) :
    Answered program (done ++ [(type, required)]) {
      program := (synthesis.program.addField type (addition synthesis.program type owner).reference.name
        fieldDescriptor .generatedConstant).1
      chosen := synthesis.chosen.insert type (addition synthesis.program type owner).id
      events } := by
  have hown := existing?_addition h.listed howner hnone
  have hother : ∀ other, other ≠ type → ∀ visibility,
      existing? (synthesis.program.addField type (addition synthesis.program type owner).reference.name
        fieldDescriptor .generatedConstant).1 other visibility = existing? synthesis.program other visibility :=
    fun other hne visibility => existing?_addField_of_ne h.listed hne _ fieldDescriptor .generatedConstant
  have hdone : ∀ other visibility, (other, visibility) ∈ done → other ≠ type :=
    fun other visibility hmem heq => hnew visibility (heq ▸ hmem)
  constructor
  · exact h.listed.addField type _ fieldDescriptor .generatedConstant
  · rw [Program.fields_addField, List.length_append]
    exact Nat.le_add_right_of_le h.longer
  · intro other hwaits visibility
    have hne : other ≠ type := fun heq => hwaits required (heq ▸ List.mem_append_right _ List.mem_cons_self)
    rw [hother other hne]
    exact h.waiting other (fun visibility hmem => hwaits visibility (List.mem_append_left _ hmem)) visibility
  · rw [List.foldl_append, List.foldl_cons, List.foldl_nil, InitField.answer, hown, h.chosen]
    refine congrArg (fun chosen : InitFields => chosen.insert type _) (List.foldl_ext _ _ _ ?_)
    intro chosen entry hentry
    rw [InitField.answer, InitField.answer, hother entry.1 (hdone entry.1 entry.2 hentry)]
  · intro other visibility hmem hunfound
    rcases List.mem_append.1 hmem with hearlier | hlast
    · rw [hother other (hdone other visibility hearlier)] at hunfound
      rw [isProgramType_addField]
      exact h.foreign other visibility hearlier hunfound
    · cases List.mem_singleton.1 hlast
      exact absurd (hown.symm.trans hunfound) (by simp)
  · intro other visibility definition hmem hfound
    rcases List.mem_append.1 hmem with hearlier | hlast
    · rw [hother other (hdone other visibility hearlier)] at hfound
      exact h.origin other visibility definition hearlier hfound
    · cases List.mem_singleton.1 hlast
      cases hown.symm.trans hfound
      exact .inr h.longer

theorem step (h : Answered program done synthesis) (hnew : ∀ required, (type, required) ∉ done)
    (hstep : synthesis.step (type, required) = .ok next) : Answered program (done ++ [(type, required)]) next := by
  by_cases hanswers : existing? synthesis.program type required = none → synthesis.program.isProgramType type = false
  · cases (step_answers hanswers).symm.trans hstep
    exact h.answer hnew hanswers
  · obtain ⟨hnone, hprogram⟩ := Classical.not_imp.1 hanswers
    obtain ⟨owner, howner, hprogram⟩ := (Option.any_eq_true _ _).1 (eq_true_of_ne_false hprogram)
    obtain ⟨events, hadds⟩ := step_of_own hnone howner hprogram
    cases hadds.symm.trans hstep
    exact h.add hnew howner hnone events

end Answered

private theorem synthesize_answered (hlisted : program.FieldsListed) {synthesis : Synthesis}
    (hrun : synthesize program = .ok synthesis) : Answered program program.initRequirements synthesis := by
  apply foldlM_reaches (Answered program) hrun
  · exact ⟨hlisted, Nat.le_refl _, fun _ _ _ => rfl, rfl, by simp, by simp⟩
  · intro done ⟨type, required⟩ rest state next hentries hstate hstep
    exact hstate.step (program.covers_initRequirements.ascending.not_mem_before hentries) hstep

private theorem exists_of_find?_foldl_answer {requirements : List (TypeId × Visibility)} {chosen : InitFields}
    {field : FieldId}
    (h : (requirements.foldl (answer program) chosen).find? type = some field) :
    chosen.find? type = some field ∨ ∃ required definition, (type, required) ∈ requirements ∧
      existing? program type required = some definition ∧ definition.id = field := by
  induction requirements generalizing chosen with
  | nil => exact .inl h
  | cons requirement rest ih =>
    rcases ih h with hfirst | ⟨required, definition, hmem, hrest⟩
    · cases hexisting : existing? program requirement.1 requirement.2 with
      | none =>
        rw [answer, hexisting] at hfirst
        exact .inl hfirst
      | some definition =>
        rw [answer, hexisting, Table.find?_insert] at hfirst
        split at hfirst
        · next heq =>
          subst heq
          exact .inr ⟨requirement.2, definition, List.mem_cons_self, hexisting, Option.some.inj hfirst⟩
        · exact .inl hfirst
    · exact .inr ⟨required, definition, List.mem_cons_of_mem _ hmem, hrest⟩

/-- A second run starts where the first one ended: it succeeds with the same choices, adds no field and reports nothing.
A field that a class had already is chosen for it only if it is the earliest of its most visible fields that fit. -/
theorem choices_stable {synthesis : Synthesis} (h : program.Built) (hrun : synthesize program = .ok synthesis) :
    synthesize synthesis.program = .ok { synthesis with events := [] } ∧
    ∀ type field definition, synthesis.chosen.find? type = some field → program.field? field = some definition →
      ∃ required owner, (type, required) ∈ program.initRequirements ∧ program.class? type = some owner ∧
        FirstMostVisible required (program.fieldsOf owner) definition := by
  have hanswered := synthesize_answered h.fieldsListed hrun
  constructor
  · obtain ⟨reached, added, hreached, hadditions, -⟩ := synthesize_additions h.fieldsListed
    cases hrun.symm.trans hreached
    rw [synthesize, hadditions.appended.initRequirements_eq]
    refine (foldlM_answers { program := synthesis.program } hanswered.foreign).trans ?_
    rw [hanswered.chosen]
  · intro type field definition hchosen hfield
    rw [hanswered.chosen] at hchosen
    obtain ⟨required, found, hmem, hfound, hid⟩ := (exists_of_find?_foldl_answer hchosen).resolve_left (by simp)
    have hexisting : existing? program type required = some found := by
      apply (hanswered.origin type required found hmem hfound).resolve_right
      rw [hid]
      exact Nat.not_le_of_lt (List.getElem?_eq_some_iff.1 hfield).1
    obtain ⟨-, owner, howner, hlisted⟩ := existing?_eq_some hexisting
    obtain ⟨place, -, hplace⟩ := Program.mem_fieldsOf.1 hlisted
    -- a field is filed under its own number
    rw [← h.coherent.field_id place found hplace, hid, hfield] at hplace
    cases hplace
    refine ⟨required, owner, hmem, howner, ?_⟩
    have hkept : Kept required (program.fieldsOf owner) (existing? program type required) := kept_existing? howner
    rwa [hexisting] at hkept

/-- A class whose method checks three others. The first has two protected fields, after fields that are dead, less visible
or wide; the second has only a private field, with the name that would be tried first; the third is outside the program. -/
def checkingThree : Program :=
  let user := (({} : Program).declareClass "Lp/User;" .program ⟨1⟩ none []).1
  let near := (user.declareClass "Lp/Near;" .program ⟨1⟩ none []).1
  let far := (near.declareClass "Lq/Far;" .program ⟨1⟩ none []).1
  let outside := (far.declareClass "Lr/Outside;" .library ⟨1⟩ none []).1
  let dead := (outside.addField ⟨1⟩ "dead" "I" ⟨9⟩).1.markFieldDead ⟨0⟩
  let unfit := ((dead.addField ⟨1⟩ "hidden" "I" ⟨8⟩).1.addField ⟨1⟩ "wide" "J" ⟨9⟩).1
  let shown := ((unfit.addField ⟨1⟩ "first" "I" ⟨12⟩).1.addField ⟨1⟩ "second" "I" ⟨12⟩).1
  let withFields := (shown.addField ⟨2⟩ "$clinit" "I" ⟨10⟩).1
  let withMethod := (withFields.addMethod ⟨0⟩ "run" "()V" ⟨9⟩).1
  withMethod.putBody ⟨0⟩
    { method := ⟨0⟩
      values := [{}, {}, {}]
      blocks := [{ instructions := [{ operation := .initClass ⟨0⟩ ⟨1⟩ }, { operation := .initClass ⟨1⟩ ⟨2⟩ },
        { operation := .initClass ⟨2⟩ ⟨3⟩ }, { operation := .return none }] }] }

private theorem checkingThree_built : checkingThree.Built :=
  .putBody _ _ (.addMethod _ _ _ _ (.addField _ _ _ _ (.addField _ _ _ _ (.addField _ _ _ _ (.addField _ _ _ _
    (.addField _ _ _ _ (.markFieldDead _ (.addField _ _ _ _ (.declareClass _ _ _ _ _ (.declareClass _ _ _ _ _
      (.declareClass _ _ _ _ _ (.declareClass _ _ _ _ _ .empty))))))))))))

theorem choices_stable_of_checkingThree :
    ∃ synthesis definition required owner, synthesize checkingThree = .ok synthesis ∧
      synthesis.chosen = .ofList [(⟨1⟩, ⟨3⟩), (⟨2⟩, ⟨6⟩)] ∧ synthesis.events.length = 1 ∧
      synthesize synthesis.program = .ok { synthesis with events := [] } ∧
      checkingThree.field? ⟨3⟩ = some definition ∧ (⟨1⟩, required) ∈ checkingThree.initRequirements ∧
      checkingThree.class? ⟨1⟩ = some owner ∧ FirstMostVisible required (checkingThree.fieldsOf owner) definition := by
  have hevaluated : (synthesize checkingThree).toOption.map (fun synthesis => (synthesis.chosen, synthesis.events.length))
      = some (.ofList [(⟨1⟩, ⟨3⟩), (⟨2⟩, ⟨6⟩)], 1) := by decide +kernel
  obtain ⟨synthesis, hrun, hresult⟩ := exists_of_toOption_map hevaluated
  obtain ⟨hchosen, hevents⟩ := Prod.mk.inj hresult
  obtain ⟨hagain, hearliest⟩ := choices_stable checkingThree_built hrun
  have hfound : synthesis.chosen.find? ⟨1⟩ = some ⟨3⟩ := by
    rw [hchosen]
    decide +kernel
  obtain ⟨required, owner, hrequired, howner, hfirst⟩ := hearliest ⟨1⟩ ⟨3⟩ _ hfound rfl
  exact ⟨synthesis, _, required, owner, hrun, hchosen, hevents, hagain, rfl, hrequired, howner, hfirst⟩

end InitField

end Bytecode
