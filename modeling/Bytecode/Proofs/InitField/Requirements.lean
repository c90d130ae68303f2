import Bytecode.Program.Initialization
import Bytecode.Proofs.Program.Coherence
/-!
# What the initialization checks of a program ask for

Each check in a body asks for a visibility that lets the class of the method use a member of the checked class. The
requirements of a program hold, for every class that is checked at all and for no other, a visibility that is enough
for all of its checks at once. That visibility is compared by rank everywhere: where a member must be visible at
least so far, where the more demanding of two requirements is kept, and where a member turns out to be accessible.
-/

namespace Bytecode

/-! ### The order of visibilities -/

namespace Visibility

private theorem rank_max (left right : Visibility) : (left.max right).rank = Nat.max left.rank right.rank := by
  cases left <;> cases right <;> rfl

theorem satisfies_iff {actual required : Visibility} : actual.satisfies required = true ↔ required.rank ≤ actual.rank := by
  cases actual <;> cases required <;> decide

end Visibility

namespace Program

variable {program : Program}

/-- A class can use a member of another class just if the member has the visibility that this class requires. -/
theorem isAccessible_iff {holder context : TypeId} (hne : holder ≠ context) (visibility : Visibility) :
    program.isAccessible holder visibility context = true ↔
      (program.requiredVisibility holder context).rank ≤ visibility.rank := by
  unfold isAccessible requiredVisibility
  rw [if_neg hne]
  by_cases hpackage : packageOf (program.typeName holder) = packageOf (program.typeName context)
  · cases visibility <;> simp [hpackage, Visibility.rank]
  · by_cases hbelow : program.isSubtype context holder = true
    · cases visibility <;> simp [hpackage, hbelow, Visibility.rank]
    · cases visibility <;> simp [hpackage, hbelow, Visibility.rank]

theorem isAccessible_of_rank_le {holder context : TypeId} {visibility : Visibility}
    (h : (program.requiredVisibility holder context).rank ≤ visibility.rank) :
    program.isAccessible holder visibility context = true := by
  by_cases hne : holder = context
  · simp [isAccessible, hne]
  · exact (isAccessible_iff hne visibility).2 h

/-! ### Recording requirements -/

/-- Strictly ascending by type, so that no type occurs twice. -/
def Ascending (known : List (TypeId × Visibility)) : Prop :=
  known.Pairwise fun left right => left.1.index < right.1.index

/-- A type comes up once. -/
theorem Ascending.not_mem_before {known before after : List (TypeId × Visibility)} (h : Ascending known) {type : TypeId}
    {visibility : Visibility} (hknown : known = before ++ (type, visibility) :: after) (earlier : Visibility) :
    (type, earlier) ∉ before := by
  subst hknown
  intro hmem
  have hlt := (List.pairwise_append.1 h).2.2 _ hmem _ List.mem_cons_self
  exact Nat.lt_irrefl _ hlt

/-- What is recorded of one type is unchanged by a requirement of another; of its own type the requirement is recorded
together with what was known before. -/
theorem mem_addRequirement {known : List (TypeId × Visibility)} (hascending : Ascending known) {type other : TypeId}
    {visibility required : Visibility} :
    (other, required) ∈ addRequirement type visibility known ↔
      other ≠ type ∧ (other, required) ∈ known ∨
      other = type ∧ ((∃ earlier, (type, earlier) ∈ known ∧ required = earlier.max visibility) ∨
        (∀ earlier, (type, earlier) ∉ known) ∧ required = visibility) := by
  induction known with
  | nil => simp [addRequirement]
  | cons entry rest ih =>
    obtain ⟨head, first⟩ := entry
    obtain ⟨hbefore, hrest⟩ := List.pairwise_cons.1 hascending
    -- the types after the first one lie above it
    have habove : ∀ later, (head, later) ∉ rest := fun later hmem =>
      Nat.lt_irrefl head.index (hbefore (head, later) hmem)
    rw [addRequirement]
    split
    · next hlt =>
      have hne : type ≠ head := fun heq => Nat.lt_irrefl _ (heq ▸ hlt)
      have hnone : ∀ earlier, (type, earlier) ∉ rest := fun earlier hmem =>
        Nat.lt_asymm hlt (hbefore _ hmem)
      grind
    · split
      · next heq =>
        subst heq
        grind
      · next hne =>
        rw [List.mem_cons, ih hrest]
        grind

private theorem ascending_addRequirement {known : List (TypeId × Visibility)} (hascending : Ascending known)
    (type : TypeId)
    (visibility : Visibility) : Ascending (addRequirement type visibility known) := by
  induction known with
  | nil => exact List.pairwise_singleton _ _
  | cons entry rest ih =>
    obtain ⟨head, first⟩ := entry
    obtain ⟨hbefore, hrest⟩ := List.pairwise_cons.1 hascending
    rw [addRequirement]
    split
    · next hlt =>
      apply List.pairwise_cons.2
      refine ⟨?_, hascending⟩
      intro later hlater
      rcases List.mem_cons.1 hlater with rfl | hmem
      · exact hlt
      · exact Nat.lt_trans hlt (hbefore later hmem)
    · next hle =>
      split
      · exact List.pairwise_cons.2 ⟨hbefore, hrest⟩
      · next hne =>
        apply List.pairwise_cons.2
        refine ⟨?_, ih hrest⟩
        intro ⟨later, required⟩ hlater
        rcases (mem_addRequirement hrest).1 hlater with ⟨-, hmem⟩ | ⟨heq, -⟩
        · exact hbefore (later, required) hmem
        · have hindex : type.index ≠ head.index := fun h => hne (by cases type; cases head; simp_all)
          show head.index < later.index
          rw [heq]
          omega

/-- The requirements recorded for some checks, each given by the checked type and the class that checks it. -/
structure Covers (program : Program) (sites : List (TypeId × TypeId)) (known : List (TypeId × Visibility)) : Prop where
  ascending : Ascending known
  exists_iff : ∀ type, (∃ required, (type, required) ∈ known) ↔ ∃ context, (type, context) ∈ sites
  enough : ∀ type required context, (type, required) ∈ known → (type, context) ∈ sites →
    (program.requiredVisibility type context).rank ≤ required.rank

theorem Covers.addRequirement {sites : List (TypeId × TypeId)} {known : List (TypeId × Visibility)}
    (h : program.Covers sites known) (type context : TypeId) :
    program.Covers (sites ++ [(type, context)])
      (addRequirement type (program.requiredVisibility type context) known) where
  ascending := ascending_addRequirement h.ascending type _
  exists_iff := by
    intro other
    simp only [mem_addRequirement h.ascending, List.mem_append, List.mem_singleton, Prod.mk.injEq]
    by_cases heq : other = type
    · subst heq
      refine iff_of_true ?_ ⟨context, .inr ⟨rfl, rfl⟩⟩
      by_cases hknown : ∃ earlier, (other, earlier) ∈ known
      · obtain ⟨earlier, hearlier⟩ := hknown
        exact ⟨_, .inr ⟨rfl, .inl ⟨earlier, hearlier, rfl⟩⟩⟩
      · exact ⟨_, .inr ⟨rfl, .inr ⟨fun earlier hmem => hknown ⟨earlier, hmem⟩, rfl⟩⟩⟩
    · simpa [heq] using h.exists_iff other
  enough := by
    intro other required place hmem hsite
    rw [List.mem_append, List.mem_singleton, Prod.mk.injEq] at hsite
    rcases (mem_addRequirement h.ascending).1 hmem with ⟨hne, hknown⟩ | ⟨rfl, hnew⟩
    · have hearlier : (other, place) ∈ sites := hsite.resolve_right fun hlast => hne hlast.1
      exact h.enough other required place hknown hearlier
    · rcases hnew with ⟨earlier, hearlier, hmax⟩ | ⟨hnone, honly⟩
      · rw [hmax, Visibility.rank_max]
        rcases hsite with hbelow | ⟨-, rfl⟩
        · exact Nat.le_trans (h.enough other earlier place hearlier hbelow) (Nat.le_max_left _ _)
        · exact Nat.le_max_right _ _
      · rcases hsite with hbelow | ⟨-, rfl⟩
        · -- a type that was checked before has a requirement already
          obtain ⟨earlier, hearlier⟩ := (h.exists_iff other).2 ⟨place, hbelow⟩
          exact absurd hearlier (hnone earlier)
        · exact Nat.le_of_eq (congrArg Visibility.rank honly.symm)

theorem Covers.foldl {done : List (TypeId × TypeId)} {known : List (TypeId × Visibility)}
    (h : program.Covers done known) (sites : List (TypeId × TypeId)) :
    program.Covers (done ++ sites) (sites.foldl
      (fun known (type, context) => Program.addRequirement type (program.requiredVisibility type context) known)
      known) := by
  induction sites generalizing done known with
  | nil => rwa [List.append_nil]
  | cons site rest ih =>
    rw [List.append_cons]
    exact ih (h.addRequirement site.1 site.2)

theorem covers_initRequirements (program : Program) :
    program.Covers program.initCheckSites program.initRequirements := by
  have hnone : program.Covers [] [] := ⟨.nil, by simp, by simp⟩
  exact hnone.foldl program.initCheckSites

/-! ### The checks of a program -/

/-- The body of one of the program's own methods checks the initialization of the type. -/
def ChecksInit (program : Program) (method : MethodId) (type : TypeId) : Prop :=
  method ∈ program.programMethods ∧
    ∃ body, program.body? method = some body ∧
      ∃ instruction ∈ body.instructions, ∃ dest, instruction.operation = .initClass dest type

private theorem mem_initChecks {body : Body} {type : TypeId} :
    type ∈ body.initChecks ↔ ∃ instruction ∈ body.instructions, ∃ dest, instruction.operation = .initClass dest type := by
  rw [Body.initChecks, List.mem_filterMap]
  refine exists_congr fun instruction => and_congr_right fun _ => ?_
  cases instruction.operation <;> simp

theorem mem_initCheckSites {type context : TypeId} :
    (type, context) ∈ program.initCheckSites ↔
      ∃ method definition, program.ChecksInit method type ∧ program.method? method = some definition ∧
        definition.holder = context := by
  rw [initCheckSites, List.mem_flatMap]
  refine exists_congr fun method => ?_
  unfold ChecksInit
  constructor
  · rintro ⟨hmethod, hsite⟩
    split at hsite
    · next body definition hbody hdefinition =>
      obtain ⟨checked, hchecked, heq⟩ := List.mem_map.1 hsite
      cases heq
      exact ⟨definition, ⟨hmethod, body, hbody, mem_initChecks.1 hchecked⟩, hdefinition, rfl⟩
    · exact absurd hsite List.not_mem_nil
  · rintro ⟨definition, ⟨hmethod, body, hbody, hchecks⟩, hdefinition, rfl⟩
    refine ⟨hmethod, ?_⟩
    rw [hbody, hdefinition]
    exact List.mem_map.2 ⟨type, mem_initChecks.2 hchecks, rfl⟩

/-- A method that checks something has a definition, and so a class in which it checks it. -/
theorem ChecksInit.mem_initCheckSites (hcoherent : program.Coherent) {method : MethodId} {type : TypeId}
    (h : program.ChecksInit method type) :
    ∃ definition, program.method? method = some definition ∧ (type, definition.holder) ∈ program.initCheckSites := by
  obtain ⟨holder, owner, howner, -, hlisted⟩ := mem_programMethods.1 h.1
  obtain ⟨definition, hdefinition, -⟩ := hcoherent.method_listed holder owner howner method hlisted
  exact ⟨definition, hdefinition, Program.mem_initCheckSites.2 ⟨method, definition, h, hdefinition, rfl⟩⟩

end Program

end Bytecode
