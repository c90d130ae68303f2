import Bytecode.Proofs.LoadElimination.Holds
import Bytecode.Proofs.Program.Coherence
/-!
# What changes a memory keeps facts true

The memory changes in few ways: a class is initialized, a field is written, an initializer sets the fields that its
summary names. Each is matched by a change to the facts, and the facts hold afterwards if they held before.
-/

namespace Bytecode

namespace LoadElimination

open Execution

variable {Datum Address World : Type} {machine : Machine Datum Address World} {scope : Scope} {origin : ValueId → ValueId}
  {body : Body} {env later : ValueId → Option Datum} {memory after : Memory Datum Address} {facts : Facts}

/-! ### Fields -/

namespace Scope

private theorem field?_of_declaredField? (hcoherent : scope.program.Coherent) {reference : FieldRef} {type : TypeId}
    {definition : FieldDef} (h : scope.program.declaredField? reference type = some definition) :
    scope.program.field? definition.id = some definition := by
  obtain ⟨owner, -, hfound⟩ := Option.bind_eq_some_iff.1 h
  obtain ⟨field, -, hfield⟩ := List.mem_filterMap.1 (List.mem_of_find?_eq_some hfound)
  rw [hcoherent.field_id field definition hfield]
  exact hfield

private theorem field?_of_resolveField? (hcoherent : scope.program.Coherent) {reference : FieldRef}
    {definition : FieldDef}
    (h : scope.program.resolveField? reference = some definition) :
    scope.program.field? definition.id = some definition := by
  obtain ⟨type, -, hdeclared⟩ := List.exists_of_findSome?_eq_some h
  exact field?_of_declaredField? hcoherent hdeclared

theorem field?_of_trackedField? (hcoherent : scope.program.Coherent) {reference : FieldRef} {isStatic : Bool}
    {definition : FieldDef} (h : scope.trackedField? reference isStatic = some definition) :
    scope.program.field? definition.id = some definition := by
  obtain ⟨hbound, -⟩ := Option.filter_eq_some_iff.1 h
  split at hbound
  · exact field?_of_resolveField? hcoherent hbound
  · split at hbound
    · exact field?_of_declaredField? hcoherent hbound
    · cases hbound

theorem isFinalField_eq {definition : FieldDef} (h : scope.program.field? definition.id = some definition) :
    scope.program.isFinalField definition.id = definition.isFinal := by
  rw [Program.isFinalField, h]
  rfl

end Scope

/-! ### Classes -/

theorem not_isInitialized (h : Holds machine scope origin facts env memory) (hholder : memory.initialized scope.holder = true)
    {type : TypeId} (hnot : memory.initialized type = false) : scope.isInitialized facts type = false := by
  unfold Scope.isInitialized
  rw [Bool.or_eq_false_iff, decide_eq_false_iff_not, decide_eq_false_iff_not]
  constructor
  · rintro rfl
    rw [hholder] at hnot
    cases hnot
  · intro hmem
    rw [h.initialized type hmem] at hnot
    cases hnot

/-- Facts without those on static fields that are not final, once a class initializer has been run. -/
theorem Holds.clearNonFinalStatics (h : Holds machine scope origin facts env memory) (other : Memory Datum Address) :
    Holds machine scope origin { facts with fields := facts.fields.clearNonFinalStatics } env
      (memory.initializedBy scope.program.isFinalField other) := by
  refine h.mono (.refl env) (Memory.keepsSettled_initializedBy _ _ _)
    (fun isFinal field receiver known hfact => ⟨hfact, .inr fun _ => rfl⟩) (fun isFinal field known hfact => ?_)
    fun type htype => .inl htype
  rw [KnownFields.staticFact?_clearNonFinalStatics] at hfact
  split at hfact
  · rename_i hfinal
    exact ⟨hfact, .inl hfinal⟩
  · cases hfact

/-- Holding facts hold of a memory in which a class has been marked. -/
theorem Holds.marked (h : Holds machine scope origin facts env memory) (type : TypeId) :
    Holds machine scope origin facts env (memory.markInitialized type) :=
  h.mono (.refl env) (Memory.keepsSettled_markInitialized _ _ _) (fun _ _ _ _ hfact => ⟨hfact, .inr fun _ => rfl⟩)
    (fun _ _ _ hfact => ⟨hfact, .inr rfl⟩) fun _ htype => .inl htype

/-- A class is touched, be it initialized already or initialized now. -/
theorem Holds.touch (h : Holds machine scope origin facts env memory) (hholder : memory.initialized scope.holder = true)
    {type : TypeId} {other : Memory Datum Address} (hinitialized : after.initialized type = true)
    (hafter : after = memory ∨ memory.initialized type = false ∧
      after = (memory.initializedBy scope.program.isFinalField other).markInitialized type) :
    Holds machine scope origin (scope.touch facts type) env after := by
  unfold Scope.touch
  refine Holds.markInitialized ?_ hinitialized
  rcases hafter with rfl | ⟨hnot, rfl⟩
  · split
    · exact h
    · refine h.mono (.refl env) (.refl _ _) (fun _ _ _ _ hfact => ⟨hfact, .inr fun _ => rfl⟩)
        (fun isFinal field known hfact => ?_) fun _ htype => .inl htype
      rw [KnownFields.staticFact?_clearNonFinalStatics] at hfact
      split at hfact
      · exact ⟨hfact, .inr rfl⟩
      · cases hfact
  · rw [not_isInitialized h hholder hnot, if_neg Bool.false_ne_true]
    exact (h.clearNonFinalStatics other).marked type

/-! ### Writes -/

theorem Holds.forgetNonFinalInstances (h : Holds machine scope origin facts env memory) {field : FieldId}
    (hkeeps : Memory.KeepsSettled scope.program.isFinalField memory after)
    (hinstance : ∀ address member, member ≠ field →
      after.instanceField address member = memory.instanceField address member)
    (hstatic : after.staticField = memory.staticField) :
    Holds machine scope origin { facts with fields := facts.fields.forgetNonFinalInstances field } env after := by
  refine h.mono (.refl env) hkeeps (fun isFinal other receiver known hfact => ?_)
    (fun isFinal other known hfact => ⟨hfact, .inr (by rw [hstatic])⟩) fun type htype => .inl htype
  rw [KnownFields.instanceFact?_forgetNonFinalInstances] at hfact
  split at hfact
  · cases hfact
  · rename_i hkept
    refine ⟨hfact, ?_⟩
    cases isFinal with
    | true => exact .inl rfl
    | false => exact .inr fun address => hinstance address other fun heq => hkept ⟨rfl, heq⟩

theorem Holds.putInstance [DecidableEq Address] (hcoherent : scope.program.Coherent)
    (h : Holds machine scope origin facts env memory) {reference : FieldRef} {definition : FieldDef}
    (htracked : scope.trackedField? reference false = some definition) {receiver value : ValueId}
    {object datum : Datum} {address : Address} (hreceiver : env (origin receiver) = some object)
    (haddress : machine.address? object = some address) (hvalue : env value = some datum)
    (hput : memory.putInstance? scope.program.isFinalField address definition.id datum = some after) :
    Holds machine scope origin
      { facts with
        fields := (facts.fields.forgetNonFinalInstances definition.id).recordInstance definition.isFinal definition.id
          receiver (.existing value) } env after := by
  obtain ⟨hkeeps, hstatic, -, -, hothers, hwritten, hsettled⟩ := Memory.putInstance?_eq_some hput
  have hspoiled := h.forgetNonFinalInstances hkeeps (fun address member => hothers address member) hstatic
  refine hspoiled.recordInstance ⟨object, address, hreceiver, haddress, ?_, fun hfinal => ⟨?_, hsettled⟩⟩
  · rw [hwritten]
    exact hvalue
  · rw [Scope.isFinalField_eq (Scope.field?_of_trackedField? hcoherent htracked)]
    exact hfinal

theorem Holds.putStatic (hcoherent : scope.program.Coherent) (h : Holds machine scope origin facts env memory)
    {reference : FieldRef} {definition : FieldDef} (htracked : scope.trackedField? reference true = some definition)
    {value : ValueId} {datum : Datum} (hvalue : env value = some datum)
    (hinitialized : memory.initialized definition.holder = true)
    (hput : memory.putStatic? scope.program.isFinalField definition.id datum = some after) :
    Holds machine scope origin
      { facts with
        fields := facts.fields.recordStatic definition.isFinal definition.id (.existing value) } env after := by
  obtain ⟨hkeeps, hinstance, hclasses, hwritten, hsettled⟩ := Memory.putStatic?_eq_some hput
  have hfield := Scope.field?_of_trackedField? hcoherent htracked
  refine ⟨fun part other object found hfact => ?_, fun part other found hfact => ?_, fun type htype => ?_⟩
  · rw [KnownFields.instanceFact?_recordStatic] at hfact
    exact (h.instanceField part other object found hfact).mono (.refl env) hkeeps (.inr fun _ => by rw [hinstance])
  · rw [KnownFields.staticFact?_recordStatic] at hfact
    split at hfact
    · rename_i heq
      subst heq
      split at hfact
      · rename_i hpart
        subst hpart
        cases hfact
        refine ⟨?_, fun found hfound => ?_, fun hfinal => ⟨?_, hsettled⟩⟩
        · rw [hwritten, if_pos rfl]
          exact hvalue
        · obtain rfl := Option.some.inj (hfield.symm.trans hfound)
          rw [hclasses]
          exact hinitialized
        · rw [Scope.isFinalField_eq hfield]
          exact hfinal
      · cases hfact
    · rename_i hne
      refine (h.staticField part other found hfact).mono (.refl env) hkeeps (.inr ?_)
      rw [hwritten, if_neg hne]
  · rw [hclasses]
    exact h.initialized type htype

/-! ### Initializers with a summary -/

section Summaries

variable {response : Response Datum Address World} {data : List Datum}

/-- What an initializer stores is what the caller takes the field to hold. -/
theorem denotes_initialValue (hguarded : machine.guarded = true) (hcoherent : scope.program.Coherent)
    (hwhole : scope.settings.wholeProgram = true)
    {arguments : List ValueId} (hdata : arguments.mapM env = some data) {unspecified datum : Datum}
    {source : FieldInitialization}
    (hdatum : initialDatum? machine scope data memory unspecified source = some (datum, after)) {known : Known}
    (hknown : scope.initialValue? arguments source = some known) : Denotes machine scope env after datum known := by
  cases source with
  | argument index =>
    obtain ⟨argument, hargument, rfl⟩ := Option.map_eq_some_iff.1 hknown
    have hget := congrArg (·[index]?) (map_eq_of_mapM hdata)
    simp only [List.getElem?_map, hargument, Option.map_some] at hget
    obtain ⟨read, hread, heq⟩ := Option.map_eq_some_iff.1 hget.symm
    simp only [initialDatum?, hread, Option.getD_some, Option.some.injEq, Prod.mk.injEq] at hdatum
    obtain ⟨rfl, rfl⟩ := hdatum
    exact heq.symm
  | constant constant =>
    rw [Scope.initialValue?, Option.ite_none_right_eq_some] at hknown
    obtain ⟨hmaterializable, hknown⟩ := hknown
    obtain rfl := Option.some.inj hknown
    cases constant with
    | number | null | string =>
      cases hdatum
      rfl
    | staticField reference =>
      simp only [Program.isMaterializable, Option.any_eq_true, Bool.and_eq_true] at hmaterializable
      obtain ⟨definition, hresolved, hstatic, -⟩ := hmaterializable
      have hfield := Scope.field?_of_resolveField? hcoherent hresolved
      simp only [initialDatum?, hresolved, Option.filter_some_pos hstatic, hguarded, Bool.true_and] at hdatum
      split at hdatum
      · cases hdatum
      · rename_i hconstant
        simp only [Option.some.injEq, Prod.mk.injEq] at hdatum
        obtain ⟨rfl, rfl⟩ := hdatum
        simp only [Program.isConstantField, Bool.not_eq_true, Bool.not_eq_false', Bool.and_eq_true] at hconstant
        obtain ⟨⟨hfinal, hpropagate⟩, hinitialized⟩ := hconstant
        refine ⟨definition, ?_, ?_, by simp [Memory.settleStatic], hinitialized, rfl⟩
        · simp [Scope.trackedField?, hwhole, hresolved, hstatic, hpropagate]
        · rw [Scope.isFinalField_eq hfield, hfinal]

variable [DecidableEq Address]

/-- One field set by an initializer on its receiver. -/
theorem Holds.initializeField (hguarded : machine.guarded = true) (hcoherent : scope.program.Coherent)
    (hwhole : scope.settings.wholeProgram = true)
    {arguments : List ValueId} (hdata : arguments.mapM env = some data) {receiver : ValueId} {object : Datum}
    {address : Address} (hreceiver : env (origin receiver) = some object) (haddress : machine.address? object = some address)
    {fields known : KnownFields} {initialized : List TypeId} {entry : FieldId × FieldInitialization}
    (h : Holds machine scope origin ⟨fields, initialized⟩ env memory)
    (hfield : Execution.initializeField machine scope response address data memory entry = some after)
    (hafter : scope.afterFieldInitialization receiver arguments fields entry = .ok known) :
    Holds machine scope origin ⟨known, initialized⟩ env after := by
  obtain ⟨field, source⟩ := entry
  obtain ⟨datum, middle, hdatum, hput⟩ := initializeField_eq_some hfield
  rw [guards_eq hguarded] at hput
  obtain ⟨hkeeps, hsameInstance, hsameSettled, hsameStatic, -⟩ := initialDatum?_eq_some hdatum
  obtain ⟨hkeepsPut, hstatic, -, -, hothers, hwritten, hsettled⟩ := Memory.putInstance?_eq_some hput
  have hspoiled : Holds machine scope origin
      ⟨(fields.forgetNonFinalInstances field).forgetInstance field receiver, initialized⟩ env after := by
    have hforgotten := h.forgetNonFinalInstances (hkeeps.trans hkeepsPut)
      (fun address member hne => by rw [hothers address member hne, hsameInstance]) (hstatic.trans hsameStatic)
    refine hforgotten.mono (.refl env) (.refl _ _) (fun isFinal other object found hfact => ?_)
      (fun isFinal other found hfact => ⟨hfact, .inr rfl⟩) fun type htype => .inl htype
    rw [KnownFields.instanceFact?_forgetInstance] at hfact
    split at hfact
    · cases hfact
    · exact ⟨hfact, .inr fun _ => rfl⟩
  obtain ⟨definition, hdefinition, rfl | ⟨value, -, hvalue, rfl⟩⟩ := Scope.afterFieldInitialization_cases hafter
  · exact hspoiled
  · refine hspoiled.recordInstance ⟨object, address, hreceiver, haddress, ?_, fun hfinal => ⟨?_, hsettled⟩⟩
    · rw [hwritten]
      exact (denotes_initialValue hguarded hcoherent hwhole hdata hdatum hvalue).mono (.refl env) hkeepsPut
    · rw [Program.isFinalField, hdefinition]
      exact hfinal

theorem Holds.initializeFields (hguarded : machine.guarded = true) (hcoherent : scope.program.Coherent)
    (hwhole : scope.settings.wholeProgram = true)
    {arguments : List ValueId} (hdata : arguments.mapM env = some data) {receiver : ValueId} {object : Datum}
    {address : Address} (hreceiver : env (origin receiver) = some object) (haddress : machine.address? object = some address)
    {initialized : List TypeId} {entries : List (FieldId × FieldInitialization)} :
    ∀ {fields known : KnownFields} {memory : Memory Datum Address},
      Holds machine scope origin ⟨fields, initialized⟩ env memory →
      entries.foldlM (Execution.initializeField machine scope response address data) memory = some after →
      entries.foldlM (scope.afterFieldInitialization receiver arguments) fields = .ok known →
      Holds machine scope origin ⟨known, initialized⟩ env after := by
  induction entries with
  | nil =>
    intro fields known memory h hmemory hfacts
    obtain rfl := Option.some.inj hmemory
    obtain rfl : fields = known := Except.ok.inj hfacts
    exact h
  | cons entry entries ih =>
    intro fields known memory h hmemory hfacts
    rw [List.foldlM_cons] at hmemory hfacts
    obtain ⟨middle, hentry, hrest⟩ := Option.bind_eq_some_iff.1 hmemory
    cases hstep : scope.afterFieldInitialization receiver arguments fields entry with
    | error => simp [hstep, bind, Except.bind] at hfacts
    | ok next =>
      rw [hstep] at hfacts
      exact ih (h.initializeField hguarded hcoherent hwhole hdata hreceiver haddress hentry hstep) hrest hfacts

end Summaries

end LoadElimination

end Bytecode
