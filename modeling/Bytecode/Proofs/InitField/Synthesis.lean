import Bytecode.InitField
import Bytecode.Proofs.Except
import Bytecode.Proofs.InitField.Requirements
import Bytecode.Proofs.Program.Fields
/-!
# Every chosen field can be used at every check

The fields are chosen class by class, and each choice may add a field to the program. A class occurs once among the
requirements, so it gets at most one field, and its other fields are still those it had at the start: a name that is
fresh among them stays fresh. The added fields belong to no other class, so nothing that decides about visibility is
different afterwards, and a field that satisfies what all checks of the class require together is accessible to each.
-/

namespace Bytecode.InitField

/-! ### Names -/

theorem candidateName_succ (number : Nat) : candidateName (number + 1) = baseName ++ ("$" ++ (number + 1).repr) := by
  rw [← String.append_assoc]
  rfl

private theorem candidateName_injective : Function.Injective candidateName := by
  -- a number makes a name longer than the base name
  have hlonger : ∀ number, candidateName (number + 1) ≠ baseName := by
    intro number h
    have hlength := congrArg String.length h
    rw [candidateName_succ, String.length_append, String.length_append] at hlength
    have hdollar : ("$" : String).length = 1 := rfl
    omega
  intro left right h
  match left, right with
  | 0, 0 => rfl
  | 0, number + 1 => exact absurd h.symm (hlonger number)
  | number + 1, 0 => exact absurd h (hlonger number)
  | first + 1, second + 1 =>
    rw [candidateName_succ, candidateName_succ, String.append_right_inj, String.append_right_inj] at h
    rw [Nat.repr_eq_ofList_toDigits, Nat.repr_eq_ofList_toDigits, String.ofList_inj] at h
    calc first + 1 = Nat.ofDigitChars 10 (Nat.toDigits 10 (first + 1)) 0 := (Nat.ofDigitChars_ten_toDigits).symm
      _ = Nat.ofDigitChars 10 (Nat.toDigits 10 (second + 1)) 0 := by rw [h]
      _ = second + 1 := Nat.ofDigitChars_ten_toDigits

/-- A name tried later is another name, so that forgetting the names tried before makes no difference. -/
theorem freshName_not_mem (taken : List String) (number : Nat) : freshName taken number ∉ taken := by
  have hlater : ∀ taken number, (∃ later, number ≤ later ∧ freshName taken number = candidateName later) ∧
      freshName taken number ∉ taken := by
    intro taken number
    induction taken, number using freshName.induct with
    | case1 taken number htaken ih =>
      obtain ⟨⟨later, hle, heq⟩, hnot⟩ := ih
      rw [freshName, if_pos htaken]
      refine ⟨⟨later, by omega, heq⟩, ?_⟩
      have hne : candidateName later ≠ candidateName number := fun h => by
        have := candidateName_injective h
        omega
      rw [heq] at hnot ⊢
      rwa [List.mem_erase_of_ne hne] at hnot
    | case2 taken number htaken =>
      rw [freshName, if_neg htaken]
      exact ⟨⟨number, Nat.le_refl _, rfl⟩, htaken⟩
  exact (hlater taken number).2

/-! ### One choice -/

/-- A field that was chosen from a list is in it and fits. -/
theorem mostVisible?_eq_some {required : Visibility} {best : Option FieldDef} {definitions : List FieldDef}
    {definition : FieldDef} (h : mostVisible? required best definitions = some definition) :
    best = some definition ∨ definition ∈ definitions ∧ isCandidate required definition = true := by
  induction definitions generalizing best with
  | nil => exact .inl h
  | cons first rest ih =>
    have hlater : ∀ {best : Option FieldDef}, mostVisible? required best rest = some definition →
        best = some definition ∨ definition ∈ first :: rest ∧ isCandidate required definition = true :=
      fun hrest => (ih hrest).imp id (.imp (List.mem_cons_of_mem _) id)
    rw [mostVisible?] at h
    split at h
    · next hcandidate =>
      have hbetter : (if best.all (·.visibility.isBelow first.visibility) then some first else best) = some definition →
          best = some definition ∨ definition ∈ first :: rest ∧ isCandidate required definition = true := by
        split
        · intro heq
          cases heq
          exact .inr ⟨List.mem_cons_self, hcandidate⟩
        · exact .inl
      dsimp only at h
      split at h
      · exact hbetter h
      · exact (hlater h).elim hbetter .inr
    · exact hlater h

theorem existing?_eq_some {program : Program} {type : TypeId} {required : Visibility} {definition : FieldDef}
    (h : existing? program type required = some definition) :
    isCandidate required definition = true ∧
      ∃ owner, program.class? type = some owner ∧ definition ∈ program.fieldsOf owner := by
  obtain ⟨owner, howner, hfound⟩ := Option.bind_eq_some_iff.1 h
  obtain ⟨hmem, hcandidate⟩ := (mostVisible?_eq_some hfound).resolve_left (by simp)
  exact ⟨hcandidate, owner, howner, hmem⟩

/-- The field that is added to a class without a fitting one. -/
def addition (program : Program) (type : TypeId) (owner : ClassDef) : FieldDef :=
  program.nextField type (freshName ((program.fieldsOf owner).map (·.reference.name)) 0) fieldDescriptor
    .generatedConstant

theorem step_of_existing {synthesis : Synthesis} {type : TypeId} {required : Visibility} {definition : FieldDef}
    (h : existing? synthesis.program type required = some definition) :
    synthesis.step (type, required) = .ok { synthesis with chosen := synthesis.chosen.insert type definition.id } := by
  unfold Synthesis.step
  simp only [h]
  rfl

theorem step_of_foreign {synthesis : Synthesis} {type : TypeId} {required : Visibility}
    (h : existing? synthesis.program type required = none) (hforeign : synthesis.program.isProgramType type = false) :
    synthesis.step (type, required) = .ok synthesis := by
  unfold Synthesis.step
  cases howner : synthesis.program.class? type with
  | none =>
    simp only [h, howner]
    rfl
  | some owner =>
    have hprogram : owner.isProgramClass = false := by simpa [Program.isProgramType, howner] using hforeign
    simp only [h, howner, hprogram]
    rfl

theorem step_of_own {synthesis : Synthesis} {type : TypeId} {required : Visibility} {owner : ClassDef}
    (h : existing? synthesis.program type required = none) (howner : synthesis.program.class? type = some owner)
    (hprogram : owner.isProgramClass = true) :
    ∃ events, synthesis.step (type, required) = .ok {
      program := (synthesis.program.addField type (addition synthesis.program type owner).reference.name
        fieldDescriptor .generatedConstant).1
      chosen := synthesis.chosen.insert type (addition synthesis.program type owner).id
      events } := by
  have htype : synthesis.program.isProgramType type = true := by simp [Program.isProgramType, howner, hprogram]
  unfold Synthesis.step
  simp only [h, howner, hprogram, if_true, Program.addStaticField, htype]
  exact ⟨_, rfl⟩

/-- What one choice can do: take a field, leave a class outside the program without one, or add one. -/
theorem step_cases (synthesis : Synthesis) (type : TypeId) (required : Visibility) :
    (∃ definition, existing? synthesis.program type required = some definition ∧
      synthesis.step (type, required)
        = .ok { synthesis with chosen := synthesis.chosen.insert type definition.id }) ∨
    (synthesis.program.isProgramType type = false ∧ synthesis.step (type, required) = .ok synthesis) ∨
    ∃ owner events, synthesis.program.class? type = some owner ∧ owner.isProgramClass = true ∧
      synthesis.step (type, required) = .ok {
        program := (synthesis.program.addField type (addition synthesis.program type owner).reference.name
          fieldDescriptor .generatedConstant).1
        chosen := synthesis.chosen.insert type (addition synthesis.program type owner).id
        events } := by
  cases hexisting : existing? synthesis.program type required with
  | some definition => exact .inl ⟨definition, rfl, step_of_existing hexisting⟩
  | none =>
    right
    by_cases hforeign : synthesis.program.isProgramType type = false
    · exact .inl ⟨hforeign, step_of_foreign hexisting hforeign⟩
    · right
      obtain ⟨owner, howner, hprogram⟩ := (Option.any_eq_true _ _).1 (eq_true_of_ne_false hforeign)
      obtain ⟨events, hstep⟩ := step_of_own hexisting howner hprogram
      exact ⟨owner, events, howner, hprogram, hstep⟩

/-! ### The choices so far -/

/-- A field as it is generated: a public static final synthetic int that is in use. -/
structure Generated (definition : FieldDef) : Prop where
  isPublic : definition.flags.isPublic = true
  isStatic : definition.isStatic = true
  isFinal : definition.isFinal = true
  isSynthetic : definition.flags.isSynthetic = true
  no_other_flag : definition.flags = .generatedConstant
  isInt : definition.reference.descriptor = "I"
  inUse : definition.isDead = false

theorem generatedConstant_flags :
    AccessFlags.generatedConstant.isPublic = true ∧ AccessFlags.generatedConstant.isStatic = true ∧
      AccessFlags.generatedConstant.isFinal = true ∧ AccessFlags.generatedConstant.isSynthetic = true := by
  decide

theorem generated_addition (program : Program) (type : TypeId) (owner : ClassDef) :
    Generated (addition program type owner) where
  isPublic := generatedConstant_flags.1
  isStatic := generatedConstant_flags.2.1
  isFinal := generatedConstant_flags.2.2.1
  isSynthetic := generatedConstant_flags.2.2.2
  no_other_flag := rfl
  isInt := rfl
  inUse := rfl

/-- A generated field can stand for any check, since it is public. -/
theorem Generated.isCandidate {definition : FieldDef} (h : Generated definition) (required : Visibility) :
    isCandidate required definition = true := by
  have hwide : definition.isWide = false := by simp [FieldDef.isWide, FieldRef.isWide, h.isInt]
  have hvisible : definition.visibility = .anywhere := by
    simp [FieldDef.visibility, AccessFlags.visibility, h.isPublic]
  rw [InitField.isCandidate, h.isStatic, h.inUse, hwide, hvisible]
  cases required <;> rfl

/-- The fields added for the given requirements. -/
structure Additions (program : Program) (done : List (TypeId × Visibility)) (after : Program) (added : List FieldDef) :
    Prop where
  appended : program.FieldsAppended after added
  generated : ∀ definition ∈ added, Generated definition
  one_each : (added.map (·.holder)).Nodup
  holder_done : ∀ definition ∈ added, ∃ required, (definition.holder, required) ∈ done
  name_fresh : ∀ definition ∈ added, ∃ owner, program.class? definition.holder = some owner ∧
    owner.isProgramClass = true ∧ ∀ other ∈ program.fieldsOf owner, other.reference.name ≠ definition.reference.name

/-- The fields chosen for the given requirements, each a field that the class had or one of those added. -/
structure Choices (program : Program) (done : List (TypeId × Visibility)) (chosen : InitFields) (added : List FieldDef) :
    Prop where
  fits : ∀ type field, chosen.find? type = some field →
    ∃ required definition, (type, required) ∈ done ∧ definition.id = field ∧ definition.holder = type ∧
      isCandidate required definition = true ∧
      ((∃ owner, program.class? type = some owner ∧ definition ∈ program.fieldsOf owner) ∨ definition ∈ added)
  complete : ∀ type required, (type, required) ∈ done → program.isProgramType type = true →
    ∃ field, chosen.find? type = some field

variable {program after : Program} {done : List (TypeId × Visibility)} {chosen : InitFields} {added : List FieldDef}
  {type : TypeId} {required : Visibility}

theorem Additions.mono (h : Additions program done after added) {more : List (TypeId × Visibility)} (hsubset : done ⊆ more) :
    Additions program more after added :=
  { h with
    holder_done := by
      intro definition hmem
      obtain ⟨required, hdone⟩ := h.holder_done definition hmem
      exact ⟨required, hsubset hdone⟩ }

/-- A class that is not done has the fields that it had at the start. -/
theorem Additions.class?_eq (h : Additions program done after added) (hnew : ∀ required, (type, required) ∉ done) :
    after.class? type = program.class? type := by
  apply h.appended.class?_eq
  intro definition hmem heq
  obtain ⟨required, hdone⟩ := h.holder_done definition hmem
  exact hnew required (heq ▸ hdone)

theorem Additions.fieldsOf_eq (h : Additions program done after added) (hlisted : program.FieldsListed)
    {owner : ClassDef} (howner : program.class? type = some owner) : after.fieldsOf owner = program.fieldsOf owner :=
  hlisted.fieldsOf_of_append h.appended.fields howner

theorem Additions.add (h : Additions program done after added) (hlisted : program.FieldsListed) {owner : ClassDef}
    (howner : program.class? type = some owner) (hprogram : owner.isProgramClass = true)
    (hnew : ∀ required, (type, required) ∉ done) (required : Visibility) :
    Additions program (done ++ [(type, required)])
      (after.addField type (addition after type owner).reference.name fieldDescriptor .generatedConstant).1
      (added ++ [addition after type owner]) where
  appended := h.appended.addField type _ fieldDescriptor .generatedConstant
  generated := by
    intro definition hmem
    rcases List.mem_append.1 hmem with hbelow | hlast
    · exact h.generated definition hbelow
    · rw [List.mem_singleton.1 hlast]
      exact generated_addition after type owner
  one_each := by
    rw [List.map_append, List.nodup_append]
    refine ⟨h.one_each, List.nodup_singleton _, ?_⟩
    intro left hleft right hright heq
    obtain ⟨definition, hmem, rfl⟩ := List.mem_map.1 hleft
    obtain ⟨earlier, hdone⟩ := h.holder_done definition hmem
    have hlast : right = type := List.mem_singleton.1 hright
    exact hnew earlier (hlast ▸ heq ▸ hdone)
  holder_done := by
    intro definition hmem
    rcases List.mem_append.1 hmem with hbelow | hlast
    · obtain ⟨earlier, hdone⟩ := h.holder_done definition hbelow
      exact ⟨earlier, List.mem_append_left _ hdone⟩
    · rw [List.mem_singleton.1 hlast]
      exact ⟨required, List.mem_append_right _ List.mem_cons_self⟩
  name_fresh := by
    intro definition hmem
    rcases List.mem_append.1 hmem with hbelow | hlast
    · exact h.name_fresh definition hbelow
    · rw [List.mem_singleton.1 hlast]
      refine ⟨owner, howner, hprogram, ?_⟩
      intro other hother heq
      rw [← h.fieldsOf_eq hlisted howner] at hother
      have htaken : other.reference.name ∈ (after.fieldsOf owner).map (·.reference.name) := List.mem_map_of_mem hother
      rw [heq] at htaken
      exact freshName_not_mem _ 0 htaken

theorem Choices.mono (h : Choices program done chosen added) {more : List FieldDef} (hsubset : added ⊆ more) :
    Choices program done chosen more where
  fits := by
    intro type field hfound
    obtain ⟨required, definition, hdone, hid, hholder, hfits, horigin⟩ := h.fits type field hfound
    exact ⟨required, definition, hdone, hid, hholder, hfits, horigin.imp id (hsubset ·)⟩
  complete := h.complete

/-- A class outside the program may stay without a field. -/
theorem Choices.skip (h : Choices program done chosen added) (hforeign : program.isProgramType type = false) :
    Choices program (done ++ [(type, required)]) chosen added where
  fits := by
    intro other field hfound
    obtain ⟨earlier, definition, hdone, hrest⟩ := h.fits other field hfound
    exact ⟨earlier, definition, List.mem_append_left _ hdone, hrest⟩
  complete := by
    intro other earlier hmem hprogram
    rcases List.mem_append.1 hmem with hdone | hlast
    · exact h.complete other earlier hdone hprogram
    · cases List.mem_singleton.1 hlast
      exact absurd hprogram (by simp [hforeign])

theorem Choices.choose (h : Choices program done chosen added) {definition : FieldDef}
    (hholder : definition.holder = type) (hfits : isCandidate required definition = true)
    (horigin : (∃ owner, program.class? type = some owner ∧ definition ∈ program.fieldsOf owner) ∨ definition ∈ added) :
    Choices program (done ++ [(type, required)]) (chosen.insert type definition.id) added where
  fits := by
    intro other field hfound
    rw [Table.find?_insert] at hfound
    split at hfound
    · next heq =>
      subst heq
      exact ⟨required, definition, List.mem_append_right _ List.mem_cons_self, Option.some.inj hfound, hholder, hfits,
        horigin⟩
    · obtain ⟨earlier, source, hdone, hrest⟩ := h.fits other field hfound
      exact ⟨earlier, source, List.mem_append_left _ hdone, hrest⟩
  complete := by
    intro other earlier hmem hprogram
    rw [Table.find?_insert]
    split
    · exact ⟨definition.id, rfl⟩
    · next hne =>
      rcases List.mem_append.1 hmem with hdone | hlast
      · exact h.complete other earlier hdone hprogram
      · cases List.mem_singleton.1 hlast
        exact absurd rfl hne

/-- What one step leads to from the additions and choices before it. -/
theorem Additions.step {synthesis : Synthesis} (hadditions : Additions program done synthesis.program added)
    (hchoices : Choices program done synthesis.chosen added) (hlisted : program.FieldsListed)
    (hnew : ∀ required, (type, required) ∉ done) (required : Visibility) :
    ∃ next more, synthesis.step (type, required) = .ok next ∧
      Additions program (done ++ [(type, required)]) next.program more ∧
      Choices program (done ++ [(type, required)]) next.chosen more := by
  have hclass := hadditions.class?_eq hnew
  have hlonger := List.subset_append_left done [(type, required)]
  rcases step_cases synthesis type required with ⟨definition, hexisting, hstep⟩ | ⟨hforeign, hstep⟩ |
    ⟨owner, events, howner, hprogram, hstep⟩
  · obtain ⟨hfits, owner, howner, hmem⟩ := existing?_eq_some hexisting
    rw [hclass] at howner
    rw [hadditions.fieldsOf_eq hlisted howner] at hmem
    obtain ⟨field, hfield, hfound⟩ := Program.mem_fieldsOf.1 hmem
    obtain ⟨known, hknown, hholder⟩ := hlisted type owner howner field hfield
    cases hknown.symm.trans hfound
    exact ⟨_, added, hstep, hadditions.mono hlonger, hchoices.choose hholder hfits (.inl ⟨owner, howner, hmem⟩)⟩
  · have houtside : program.isProgramType type = false := by rwa [Program.isProgramType, ← hclass]
    exact ⟨_, added, hstep, hadditions.mono hlonger, hchoices.skip houtside⟩
  · rw [hclass] at howner
    refine ⟨_, added ++ [addition synthesis.program type owner], hstep,
      hadditions.add hlisted howner hprogram hnew required, ?_⟩
    have hlast : addition synthesis.program type owner ∈ added ++ [addition synthesis.program type owner] :=
      List.mem_append_right _ List.mem_cons_self
    exact (hchoices.mono (List.subset_append_left _ _)).choose rfl
      ((generated_addition synthesis.program type owner).isCandidate required) (.inr hlast)

/-- Every class is done once, so the steps can be taken one after another to the end. -/
theorem synthesize_additions (hlisted : program.FieldsListed) :
    ∃ synthesis added, synthesize program = .ok synthesis ∧
      Additions program program.initRequirements synthesis.program added ∧
      Choices program program.initRequirements synthesis.chosen added := by
  have hsucceeds : ∀ requirement ∈ program.initRequirements, ∀ synthesis : Synthesis,
      ∃ next, synthesis.step requirement = .ok next := by
    intro requirement _ synthesis
    rcases step_cases synthesis requirement.1 requirement.2 with ⟨_, -, hstep⟩ | ⟨-, hstep⟩ | ⟨_, _, -, -, hstep⟩
    all_goals exact ⟨_, hstep⟩
  obtain ⟨synthesis, hrun⟩ := foldlM_succeeds hsucceeds { program }
  have hascending := (program.covers_initRequirements).ascending
  have hreached : ∃ added, Additions program program.initRequirements synthesis.program added ∧
      Choices program program.initRequirements synthesis.chosen added := by
    refine foldlM_reaches (fun done (synthesis : Synthesis) => ∃ added,
      Additions program done synthesis.program added ∧ Choices program done synthesis.chosen added) hrun ?_ ?_
    · exact ⟨[], ⟨.refl program, by simp, List.nodup_nil, by simp, by simp⟩, ⟨by simp, by simp⟩⟩
    · rintro done ⟨type, required⟩ rest state next hentries ⟨added, hadditions, hchoices⟩ hstep
      obtain ⟨reached, more, hreached, hlater⟩ :=
        hadditions.step hchoices hlisted (hascending.not_mem_before hentries) required
      cases hstep.symm.trans hreached
      exact ⟨more, hlater⟩
  obtain ⟨added, hadditions, hchoices⟩ := hreached
  exact ⟨synthesis, added, hrun, hadditions, hchoices⟩

/-! ### The chosen fields -/

/-- A field of the class itself that every method with a check of the class can read in place of the check. -/
def UsableAtChecks (before after : Program) (type : TypeId) (field : FieldId) : Prop :=
  ∃ owner definition, after.class? type = some owner ∧ field ∈ owner.fields ∧ after.field? field = some definition ∧
    definition.holder = type ∧ definition.isStatic = true ∧ definition.isDead = false ∧ definition.isWide = false ∧
    ∀ method, before.ChecksInit method type → ∃ caller, after.method? method = some caller ∧
      after.isAccessible type definition.visibility caller.holder = true

/-- The program was changed by adding generated fields to classes of its own, at most one to each and each under a name
of its own. -/
structure OnlyGenerated (before after : Program) (added : List FieldDef) : Prop where
  appended : before.FieldsAppended after added
  generated : ∀ definition ∈ added, Generated definition
  own_class : ∀ definition ∈ added, before.isProgramType definition.holder = true
  one_each : (added.map (·.holder)).Nodup
  name_unique : ∀ definition ∈ added, ∀ owner, after.class? definition.holder = some owner →
    ∀ other ∈ after.fieldsOf owner, other.reference.name = definition.reference.name → other = definition

private theorem Additions.onlyGenerated (h : Additions program done after added) (hlisted : program.FieldsListed) :
    OnlyGenerated program after added where
  appended := h.appended
  generated := h.generated
  own_class := by
    intro definition hmem
    obtain ⟨owner, howner, hprogram, -⟩ := h.name_fresh definition hmem
    simp [Program.isProgramType, howner, hprogram]
  one_each := h.one_each
  name_unique := by
    intro definition hmem owner howner other hother hname
    obtain ⟨before, hbefore, -, hfresh⟩ := h.name_fresh definition hmem
    rcases h.appended.mem_fieldsOf hlisted howner hother with ⟨earlier, hearlier, hold⟩ | ⟨hadded, hholder⟩
    · cases hbefore.symm.trans hearlier
      exact absurd hname (hfresh other hold)
    · exact List.inj_on_of_nodup_map h.one_each hadded hmem hholder

/-- A field that satisfies what the checks of a class require together is usable at each of them. -/
theorem Additions.usableAtChecks (h : Additions program done after added) (hcoherent : program.Coherent)
    {definition : FieldDef} (hrequired : (type, required) ∈ program.initRequirements)
    (hfits : isCandidate required definition = true) (hholder : definition.holder = type)
    (horigin : (∃ owner, program.class? type = some owner ∧ definition ∈ program.fieldsOf owner) ∨ definition ∈ added) :
    UsableAtChecks program after type definition.id := by
  have hfound : ∃ owner, after.class? type = some owner ∧ definition.id ∈ owner.fields ∧
      after.field? definition.id = some definition := by
    rcases horigin with ⟨owner, howner, hmem⟩ | hmem
    · obtain ⟨field, hfield, hfound⟩ := Program.mem_fieldsOf.1 hmem
      have hid := hcoherent.field_id field definition hfound
      rw [hid]
      refine ⟨_, (h.appended.class? type).trans (congrArg _ howner), List.mem_append_left _ hfield, ?_⟩
      exact Program.field?_of_append h.appended.fields hfound
    · obtain ⟨owner, howner, -⟩ := h.name_fresh definition hmem
      rw [hholder] at howner
      refine ⟨_, (h.appended.class? type).trans (congrArg _ howner), ?_, h.appended.added_id definition hmem⟩
      exact List.mem_append_right _ (List.mem_map_of_mem (List.mem_filter.2 ⟨hmem, by simpa using hholder⟩))
  obtain ⟨owner, howner, hlisted, hdefinition⟩ := hfound
  simp only [isCandidate, Bool.and_eq_true, Bool.not_eq_true'] at hfits
  obtain ⟨⟨⟨hstatic, hdead⟩, hwide⟩, hvisible⟩ := hfits
  refine ⟨owner, definition, howner, hlisted, hdefinition, hholder, hstatic, hdead, hwide, ?_⟩
  intro method hchecks
  obtain ⟨caller, hcaller, hsite⟩ := hchecks.mem_initCheckSites hcoherent
  refine ⟨caller, by rwa [Program.method?, h.appended.methods], ?_⟩
  have henough := program.covers_initRequirements.enough type required caller.holder hrequired hsite
  rw [h.appended.isAccessible_eq]
  exact Program.isAccessible_of_rank_le (Nat.le_trans henough (Visibility.satisfies_iff.1 hvisible))

/-- Choosing fields for the checks of a declared program always succeeds. It chooses a field only for classes that some
body of the program checks, and one for each of these that is a class of the program; each chosen field is usable at
every check of its class; and the program is changed only by generated fields. -/
theorem chosen_fields_usable_at_every_check (h : program.Built) :
    ∃ synthesis added, synthesize program = .ok synthesis ∧
      (∀ type field, synthesis.chosen.find? type = some field →
        (∃ method, program.ChecksInit method type) ∧ UsableAtChecks program synthesis.program type field) ∧
      (∀ type method, program.ChecksInit method type → program.isProgramType type = true →
        ∃ field, synthesis.chosen.find? type = some field) ∧
      OnlyGenerated program synthesis.program added := by
  have hcovers := program.covers_initRequirements
  obtain ⟨synthesis, added, hrun, hadditions, hchoices⟩ := synthesize_additions h.fieldsListed
  refine ⟨synthesis, added, hrun, ?_, ?_, hadditions.onlyGenerated h.fieldsListed⟩
  · intro type field hchosen
    obtain ⟨required, definition, hrequired, rfl, hholder, hfits, horigin⟩ := hchoices.fits type field hchosen
    obtain ⟨context, hsite⟩ := (hcovers.exists_iff type).1 ⟨required, hrequired⟩
    obtain ⟨method, -, hchecks, -⟩ := Program.mem_initCheckSites.1 hsite
    exact ⟨⟨method, hchecks⟩, hadditions.usableAtChecks h.coherent hrequired hfits hholder horigin⟩
  · intro type method hchecks hprogram
    obtain ⟨caller, -, hsite⟩ := hchecks.mem_initCheckSites h.coherent
    obtain ⟨required, hrequired⟩ := (hcovers.exists_iff type).2 ⟨caller.holder, hsite⟩
    exact hchoices.complete type required hrequired hprogram

/-- A class whose method checks two others: one of its package, with a field that fits, and one of another package,
whose only field is not visible enough and has the name that would be tried first. -/
def checkingTwo : Program :=
  let user := (({} : Program).declareClass "Lp/User;" .program ⟨1⟩ none []).1
  let near := (user.declareClass "Lp/Near;" .program ⟨1⟩ none []).1
  let far := (near.declareClass "Lq/Far;" .program ⟨1⟩ none []).1
  let withFields := ((far.addField ⟨1⟩ "count" "I" ⟨8⟩).1.addField ⟨2⟩ "$clinit" "I" ⟨8⟩).1
  let withMethod := (withFields.addMethod ⟨0⟩ "run" "()V" ⟨9⟩).1
  withMethod.putBody ⟨0⟩
    { method := ⟨0⟩
      values := [{}, {}]
      blocks := [{ instructions := [{ operation := .initClass ⟨0⟩ ⟨1⟩ }, { operation := .initClass ⟨1⟩ ⟨2⟩ },
        { operation := .return none }] }] }

private theorem checkingTwo_built : checkingTwo.Built :=
  .putBody _ _ (.addMethod _ _ _ _ (.addField _ _ _ _ (.addField _ _ _ _ (.declareClass _ _ _ _ _
    (.declareClass _ _ _ _ _ (.declareClass _ _ _ _ _ .empty))))))

theorem chosen_fields_usable_of_checkingTwo :
    checkingTwo.ChecksInit ⟨0⟩ ⟨1⟩ ∧ checkingTwo.ChecksInit ⟨0⟩ ⟨2⟩ ∧ checkingTwo.isProgramType ⟨2⟩ = true ∧
      ∃ synthesis added, synthesize checkingTwo = .ok synthesis ∧
        (∀ type field, synthesis.chosen.find? type = some field →
          (∃ method, checkingTwo.ChecksInit method type) ∧
            UsableAtChecks checkingTwo synthesis.program type field) ∧
        (∀ type method, checkingTwo.ChecksInit method type → checkingTwo.isProgramType type = true →
          ∃ field, synthesis.chosen.find? type = some field) ∧
        OnlyGenerated checkingTwo synthesis.program added :=
  ⟨⟨by decide, _, rfl, _, .head _, _, rfl⟩, ⟨by decide, _, rfl, _, .tail _ (.head _), _, rfl⟩, by decide,
    chosen_fields_usable_at_every_check checkingTwo_built⟩

end Bytecode.InitField
