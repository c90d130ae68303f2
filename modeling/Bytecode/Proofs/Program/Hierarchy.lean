import Bytecode.Proofs.Graph.Search
import Bytecode.Proofs.Program.Coherence
/-!
# The hierarchy seen from below and from above

A class of a declared program carries the identifier of the type that it defines. So the types below a type, which are
found by going down through the classes that name a parent, are exactly those from which a way up leads to it, whatever
cycles and undefined types the hierarchy has. Only above a type outside the table nothing is found to lie below.

Every search that goes up, be it through all parents or through some of them, finds exactly what its steps lead to: a type
without a definition has no parents, so that nothing is missed where the search does not go on.
-/

namespace Bytecode.Program

variable {program : Program}

/-- Every class carries the identifier of its type. -/
def ClassesNamed (program : Program) : Prop :=
  ∀ type owner, program.class? type = some owner → owner.id = type

namespace ClassesNamed

theorem of_class?_eq {later : Program} (h : program.ClassesNamed)
    (hclass : ∀ type, later.class? type = program.class? type) : later.ClassesNamed := by
  intro type owner hfound
  rw [hclass] at hfound
  exact h type owner hfound

theorem modifyClass (h : program.ClassesNamed) (type : TypeId) {f : ClassDef → ClassDef}
    (hf : ∀ owner, (f owner).id = owner.id) : (program.modifyClass type f).ClassesNamed := by
  intro other owner hfound
  obtain ⟨before, hbefore, rfl | ⟨-, rfl⟩⟩ := exists_of_class?_modifyClass hfound
  · exact h other _ hbefore
  · rw [hf]
    exact h other before hbefore

theorem declareClass (h : program.ClassesNamed) (name : String) (kind : ClassKind) (flags : AccessFlags)
    (superclass : Option TypeId) (interfaces : List TypeId) :
    (program.declareClass name kind flags superclass interfaces).1.ClassesNamed := by
  intro type owner hfound
  rw [class?_declareClass] at hfound
  split at hfound
  · next heq =>
    cases hfound
    exact heq.symm
  · exact h type owner hfound

end ClassesNamed

theorem Built.classesNamed (h : program.Built) : program.ClassesNamed := by
  induction h with
  | empty => simp [ClassesNamed, class?]
  | typeRef name _ ih => exact ih.of_class?_eq (class?_typeRef _ name)
  | declareClass name kind flags superclass interfaces _ ih =>
    exact ih.declareClass name kind flags superclass interfaces
  | setQuietInitializer type quiet _ ih => exact ih.modifyClass type fun _ => rfl
  | addMethod holder name descriptor flags _ ih =>
    exact (ih.of_class?_eq fun _ => rfl).modifyClass holder fun _ => rfl
  | addField holder name descriptor flags _ ih =>
    exact (ih.of_class?_eq fun _ => rfl).modifyClass holder fun _ => rfl
  | markFieldDead | putBody | removeBody | recordSummary | closeWorld | pinMethod | pinField =>
    next ih => exact ih.of_class?_eq fun _ => rfl
  | markProcessed method _ ih =>
    rw [markProcessed_eq]
    exact ih.of_class?_eq fun _ => rfl

/-! ### Below a type -/

/-- The class of the lower type names the upper type as a parent. -/
def Extends (program : Program) (lower upper : TypeId) : Prop :=
  upper ∈ program.parents lower

theorem mem_typeIds {type : TypeId} : type ∈ program.typeIds ↔ type.index < program.types.length := by
  simp only [typeIds, List.mem_map, List.mem_range]
  constructor
  · rintro ⟨index, hindex, rfl⟩
    exact hindex
  · exact fun hlt => ⟨type.index, hlt, rfl⟩

theorem mem_typeIds_of_class? {type : TypeId} {owner : ClassDef} (h : program.class? type = some owner) :
    type ∈ program.typeIds := by
  obtain ⟨entry, hentry, -⟩ := Option.bind_eq_some_iff.1 h
  exact mem_typeIds.2 (List.getElem?_eq_some_iff.1 hentry).1

theorem mem_classes {owner : ClassDef} : owner ∈ program.classes ↔ ∃ type, program.class? type = some owner := by
  rw [classes, List.mem_filterMap]
  constructor
  · rintro ⟨entry, hentry, hdefinition⟩
    obtain ⟨index, hindex⟩ := List.mem_iff_getElem?.1 hentry
    exact ⟨⟨index⟩, (class?_eq_some_of_mem hindex).trans hdefinition⟩
  · rintro ⟨type, hclass⟩
    obtain ⟨entry, hentry, hdefinition⟩ := Option.bind_eq_some_iff.1 hclass
    exact ⟨entry, List.mem_of_getElem? hentry, hdefinition⟩

theorem extends_iff {lower upper : TypeId} :
    program.Extends lower upper ↔ ∃ owner, program.class? lower = some owner ∧ upper ∈ owner.parents := by
  unfold Extends parents
  cases program.class? lower <;> simp

private theorem mem_directSubtypes (h : program.ClassesNamed) {lower upper : TypeId} :
    lower ∈ program.directSubtypes upper ↔ upper ∈ program.typeIds ∧ program.Extends lower upper := by
  rw [extends_iff, mem_typeIds, directSubtypes]
  by_cases hlt : upper.index < program.types.length
  · rw [if_pos hlt]
    simp only [List.mem_map, List.mem_filter, mem_classes, List.contains_iff_mem, hlt, true_and]
    constructor
    · rintro ⟨owner, ⟨⟨type, hclass⟩, hparent⟩, rfl⟩
      rw [h type owner hclass]
      exact ⟨owner, hclass, hparent⟩
    · rintro ⟨owner, hclass, hparent⟩
      exact ⟨owner, ⟨⟨lower, hclass⟩, hparent⟩, h lower owner hclass⟩
  · rw [if_neg hlt]
    simp [hlt]

theorem subtypes_nodup (program : Program) (type : TypeId) : (program.subtypes type).Nodup :=
  (Graph.search_nodup [type]).filter _

/-- From a type of the table, the ways down are the ways up. -/
theorem down_iff_up (h : program.ClassesNamed) {lower upper : TypeId} (hupper : upper ∈ program.typeIds) :
    Relation.ReflTransGen (Graph.Link program.typeIds program.directSubtypes) upper lower ↔
      Relation.ReflTransGen program.Extends lower upper := by
  have hlink : ∀ source target, Graph.Link program.typeIds program.directSubtypes source target ↔
      source ∈ program.typeIds ∧ program.Extends target source := by
    intro source target
    rw [Graph.Link, mem_directSubtypes h, and_self_left]
  constructor
  · intro hpath
    induction hpath with
    | refl => exact .refl
    | tail _ hstep ih => exact .head ((hlink _ _).1 hstep).2 ih
  · intro hpath
    induction hpath using Relation.ReflTransGen.head_induction_on with
    | refl => exact .refl
    | @head lower middle hextends hrest ih =>
      refine ih.tail ((hlink _ _).2 ⟨?_, hextends⟩)
      -- a type between the two has a class, and so it stands in the table
      rcases hrest.cases_head with rfl | ⟨next, hnext, -⟩
      · exact hupper
      · obtain ⟨owner, hclass, -⟩ := extends_iff.1 hnext
        exact mem_typeIds_of_class? hclass

/-- A type of the table has below it exactly the types from which a way up leads to it. -/
theorem mem_subtypes_iff (h : program.ClassesNamed) {lower upper : TypeId} (hupper : upper ∈ program.typeIds) :
    lower ∈ program.subtypes upper ↔ lower ≠ upper ∧ Relation.ReflTransGen program.Extends lower upper := by
  rw [subtypes, List.mem_filter, Graph.mem_search_iff, decide_eq_true_eq, and_comm, ← down_iff_up h hupper]
  simp

/-! ### Above a type -/

/-- The class of the lower type has the upper type as its superclass. -/
def Inherits (program : Program) (lower upper : TypeId) : Prop :=
  program.superclass? lower = some upper

theorem Inherits.extends {lower upper : TypeId} (h : program.Inherits lower upper) : program.Extends lower upper := by
  obtain ⟨owner, hclass, hsuper⟩ := Option.bind_eq_some_iff.1 h
  rw [extends_iff]
  exact ⟨owner, hclass, List.mem_append_left _ (by rw [hsuper]; exact List.mem_singleton_self upper)⟩

theorem mem_typeIds_of_superclass? {lower upper : TypeId} (h : program.superclass? lower = some upper) :
    lower ∈ program.typeIds := by
  obtain ⟨owner, hclass, -⟩ := Option.bind_eq_some_iff.1 h
  exact mem_typeIds_of_class? hclass

theorem extends_path_of_inherits {lower upper : TypeId} (h : Relation.ReflTransGen program.Inherits lower upper) :
    Relation.ReflTransGen program.Extends lower upper :=
  h.lift id fun _ _ => Inherits.extends

section Searching

variable {order : SearchOrder} {links : TypeId → List TypeId} {step : TypeId → TypeId → Prop}
  (hlinks : ∀ lower upper, upper ∈ links lower ↔ step lower upper)
  (hextends : ∀ lower upper, step lower upper → program.Extends lower upper)

include hlinks hextends

/-- Only types of the table have parents, so a search that goes up misses no step. -/
theorem link_eq_step : Graph.Link program.typeIds links = step := by
  funext lower upper
  refine propext ⟨fun hlink => (hlinks _ _).1 hlink.2, fun hstep => ⟨?_, (hlinks _ _).2 hstep⟩⟩
  obtain ⟨owner, hclass, -⟩ := extends_iff.1 (hextends _ _ hstep)
  exact mem_typeIds_of_class? hclass

theorem mem_search_iff_path {lower upper : TypeId} :
    upper ∈ Graph.search order program.typeIds links [lower] ↔ Relation.ReflTransGen step lower upper := by
  rw [Graph.mem_search_iff, link_eq_step hlinks hextends]
  simp

end Searching

theorem mem_supertypes_iff {lower upper : TypeId} :
    upper ∈ program.supertypes lower ↔ Relation.ReflTransGen program.Extends lower upper :=
  mem_search_iff_path (fun _ _ => Iff.rfl) fun _ _ => id

theorem mem_superclassChain_iff {lower upper : TypeId} :
    upper ∈ program.superclassChain lower ↔ Relation.ReflTransGen program.Inherits lower upper :=
  mem_search_iff_path (fun _ _ => Option.mem_toList) fun _ _ => Inherits.extends

theorem isSubtype_iff {lower upper : TypeId} :
    program.isSubtype lower upper = true ↔ Relation.ReflTransGen program.Extends lower upper := by
  rw [isSubtype, List.contains_iff_mem, mem_supertypes_iff]

/-! ### Both views -/

/-- **Subtyping.** The types found below a type of the table, each of them once, are the others that count as its
subtypes, and a type counts as a subtype exactly if superclasses and interfaces lead from it to the upper type. -/
theorem subtypes_agree_with_isSubtype (h : program.Built) (upper : TypeId) (hupper : upper.index < program.typeCount) :
    (program.subtypes upper).Nodup ∧
      (∀ lower, lower ∈ program.subtypes upper ↔ lower ≠ upper ∧ program.isSubtype lower upper = true) ∧
      ∀ lower higher, program.isSubtype lower higher = true ↔ Relation.ReflTransGen program.Extends lower higher := by
  refine ⟨program.subtypes_nodup upper, fun lower => ?_, fun _ _ => isSubtype_iff⟩
  rw [mem_subtypes_iff h.classesNamed (mem_typeIds.2 hupper), isSubtype_iff]

/-- Two classes that extend each other, the second of which names an interface without a definition twice, and a
subclass of the first. -/
def extendingEachOther : Program :=
  let first := (({} : Program).declareClass "LA;" .program ⟨1⟩ (some ⟨1⟩) []).1
  let second := (first.declareClass "LB;" .program ⟨1⟩ (some ⟨0⟩) [⟨3⟩, ⟨3⟩]).1
  let third := (second.declareClass "LC;" .program ⟨1⟩ (some ⟨0⟩) []).1
  (third.typeRef "LI;").1

private theorem extendingEachOther_built : extendingEachOther.Built :=
  .typeRef _ (.declareClass _ _ _ _ _ (.declareClass _ _ _ _ _ (.declareClass _ _ _ _ _ .empty)))

theorem subtypes_agree_of_extendingEachOther :
    extendingEachOther.subtypes ⟨3⟩ = [⟨1⟩, ⟨0⟩, ⟨2⟩] ∧ extendingEachOther.isSubtype ⟨2⟩ ⟨3⟩ = true ∧
      Relation.ReflTransGen extendingEachOther.Extends ⟨2⟩ ⟨3⟩ := by
  have hbelow : extendingEachOther.subtypes ⟨3⟩ = [⟨1⟩, ⟨0⟩, ⟨2⟩] := by decide +kernel
  obtain ⟨-, hviews, hpath⟩ := subtypes_agree_with_isSubtype extendingEachOther_built ⟨3⟩ (by decide)
  have hsubtype : extendingEachOther.isSubtype ⟨2⟩ ⟨3⟩ = true := ((hviews ⟨2⟩).1 (by rw [hbelow]; decide)).2
  exact ⟨hbelow, hsubtype, (hpath _ _).1 hsubtype⟩

end Bytecode.Program
