import Bytecode.Program.Initialization
import Bytecode.Proofs.Program.Hierarchy
/-!
# Effects of initializing a class

Touching a class may run the initializers of the class and its superclasses, apart from those that the code at hand
relies on. The walk up the superclasses ends at the first type that the context derives from. Nothing is lost by that,
since the context derives from everything above such a type as well.
-/

namespace Bytecode.Program

variable {program : Program}

/-- Nothing is known of the type, or it is not declared quiet and comes from a library or declares a class initializer. -/
def InitializerMayRun (program : Program) (type : TypeId) : Prop :=
  program.class? type = none ∨
    ∃ owner, program.class? type = some owner ∧ owner.quietInitializer = false ∧
      (owner.isLibraryClass = true ∨ ∃ method ∈ program.methodsOf owner, method.isClassInitializer = true)

private theorem mayRunInitializer_iff {type : TypeId} :
    program.mayRunInitializer type = true ↔ program.InitializerMayRun type := by
  unfold mayRunInitializer hasClassInitializer InitializerMayRun
  cases program.class? type <;> simp

/-! ### Stopping early -/

/-- A walk that ends where a lasting condition begins has met every item without the condition. -/
private theorem any_takeWhile_of_lasting {α : Type} {items : List α} {stop test : α → Bool}
    (h : items.Pairwise fun earlier later => stop earlier = true → stop later = true) :
    (items.takeWhile fun item => !stop item).any test = items.any fun item => !stop item && test item := by
  induction items with
  | nil => rfl
  | cons first rest ih =>
    obtain ⟨hlasts, hrest⟩ := List.pairwise_cons.1 h
    cases hstop : stop first with
    | false => simp [hstop, ih hrest]
    | true =>
      have hnone : (rest.any fun item => !stop item && test item) = false := by
        rw [List.any_eq_false]
        intro item hitem
        simp [hlasts item hitem hstop]
      simp [hstop, hnone]

private theorem superclassChain_pairwise (program : Program) (type : TypeId) :
    (program.superclassChain type).Pairwise (Relation.ReflTransGen program.Inherits) := by
  have hlink : Graph.Link program.typeIds (fun lower => (program.superclass? lower).toList) = program.Inherits :=
    link_eq_step (fun _ _ => Option.mem_toList) fun _ _ => Inherits.extends
  rw [← hlink]
  exact Graph.search_climb_pairwise type

/-- Whatever is above a supertype is a supertype. -/
theorem isSubtype_of_inherits {context lower upper : TypeId} (hbelow : program.isSubtype context lower = true)
    (habove : Relation.ReflTransGen program.Inherits lower upper) : program.isSubtype context upper = true := by
  rw [isSubtype_iff] at hbelow ⊢
  exact hbelow.trans (extends_path_of_inherits habove)

private theorem initializationHasEffects_eq_any (program : Program) (type context : TypeId) :
    program.initializationHasEffects type context
      = (program.superclassChain type).any fun upper =>
          !program.isSubtype context upper && program.mayRunInitializer upper :=
  any_takeWhile_of_lasting ((program.superclassChain_pairwise type).imp fun habove hbelow =>
    isSubtype_of_inherits hbelow habove)

/-- **Effects of an initialization.** They are possible exactly if some type on the superclass chain, to its end or its
first repetition, may run an initializer and is no supertype of the context. So it makes no difference that the walk ends at
the first supertype of the context. -/
theorem initialization_effects_iff (program : Program) (type context : TypeId) :
    (program.initializationHasEffects type context = true ↔
      ∃ upper, Relation.ReflTransGen program.Inherits type upper ∧
        ¬Relation.ReflTransGen program.Extends context upper ∧ program.InitializerMayRun upper) ∧
    program.initializationHasEffects type context
      = (program.superclassChain type).any fun upper =>
          !program.isSubtype context upper && program.mayRunInitializer upper := by
  refine ⟨?_, program.initializationHasEffects_eq_any type context⟩
  rw [initializationHasEffects_eq_any, List.any_eq_true]
  simp only [mem_superclassChain_iff, Bool.and_eq_true, Bool.not_eq_true', ← Bool.not_eq_true, isSubtype_iff,
    mayRunInitializer_iff]

end Bytecode.Program
