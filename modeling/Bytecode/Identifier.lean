/-!
# Identifiers and references

A program keeps its types, methods and fields in tables, and a method body keeps its values in one; an identifier
is a position in such a table. Each kind of identifier is a type of its own, so a field is never looked up where a
method is meant. An identifier need not lie inside its table: a lookup then finds nothing.

A *reference* names a member the way an instruction does, by the type that is asked for it, its name and its
descriptor. What a reference binds to is a question for the program.
-/

namespace Bytecode

/-- Position of a type in a program. -/
structure TypeId where
  index : Nat
deriving DecidableEq, Ord, Inhabited

/-- Position of a method in a program. -/
structure MethodId where
  index : Nat
deriving DecidableEq, Ord, Inhabited

/-- Position of a field in a program. -/
structure FieldId where
  index : Nat
deriving DecidableEq, Ord, Inhabited

/-- Position of a value in a method body. -/
structure ValueId where
  index : Nat
deriving DecidableEq, Ord, Inhabited

def TypeId.text (type : TypeId) : String :=
  s!"t{type.index}"

/-- The long form, which names the kind of identifier. -/
def TypeId.longText (type : TypeId) : String :=
  s!"TypeId({type.index})"

def MethodId.text (method : MethodId) : String :=
  s!"m{method.index}"

/-- The long form, which names the kind of identifier. -/
def MethodId.longText (method : MethodId) : String :=
  s!"MethodId({method.index})"

def FieldId.text (field : FieldId) : String :=
  s!"f{field.index}"

/-- The long form, which names the kind of identifier. -/
def FieldId.longText (field : FieldId) : String :=
  s!"FieldId({field.index})"

/-- Values have one form only. -/
def ValueId.text (value : ValueId) : String :=
  s!"v{value.index}"

/-- A method as an instruction names it. References are ordered by holder, then name, then descriptor. -/
structure MethodRef where
  holder : TypeId
  name : String
  descriptor : String
deriving DecidableEq, Ord, Inhabited

namespace MethodRef

def text (reference : MethodRef) : String :=
  s!"{reference.holder.text}.{reference.name}{reference.descriptor}"

def isInstanceInitializer (reference : MethodRef) : Bool :=
  reference.name == "<init>"

/-- Same name and descriptor, whatever the holder. -/
def hasSignature (reference : MethodRef) (name descriptor : String) : Bool :=
  reference.name == name && reference.descriptor == descriptor

def precedes (left right : MethodRef) : Bool :=
  compare left right == .lt

end MethodRef

/-- A field as an instruction names it. References are ordered by holder, then name, then descriptor. -/
structure FieldRef where
  holder : TypeId
  name : String
  descriptor : String
deriving DecidableEq, Ord, Inhabited

namespace FieldRef

def text (reference : FieldRef) : String :=
  s!"{reference.holder.text}.{reference.name}:{reference.descriptor}"

/-- Long and double fields take two slots. -/
def isWide (reference : FieldRef) : Bool :=
  reference.descriptor == "J" || reference.descriptor == "D"

def precedes (left right : FieldRef) : Bool :=
  compare left right == .lt

end FieldRef

/-! ### Sets of identifiers

A set of identifiers is shown as the strictly ascending list of its members. The list is built by insertion, so it
computes by recursion on the items. -/

section Ascending

variable {α : Type}

/-- Puts an item at its place in an ascending list, unless an item of the same index stands there. -/
def insertAscending (index : α → Nat) (item : α) : List α → List α
  | [] => [item]
  | head :: rest =>
    if index item < index head then item :: head :: rest
    else if index item = index head then head :: rest
    else head :: insertAscending index item rest

/-- The items in ascending order, each once. -/
def ascending (index : α → Nat) (items : List α) : List α :=
  items.foldr (insertAscending index) []

variable {index : α → Nat} (hinjective : Function.Injective index)

include hinjective

theorem mem_insertAscending {item other : α} {items : List α} :
    other ∈ insertAscending index item items ↔ other = item ∨ other ∈ items := by
  induction items with
  | nil => simp [insertAscending]
  | cons head rest ih =>
    unfold insertAscending
    split
    · exact List.mem_cons
    · split
      · next heq =>
        obtain rfl := hinjective heq
        simp
      · rw [List.mem_cons, ih, List.mem_cons]
        exact or_left_comm

theorem pairwise_insertAscending (item : α) {items : List α} (h : items.Pairwise (index · < index ·)) :
    (insertAscending index item items).Pairwise (index · < index ·) := by
  induction items with
  | nil => exact List.pairwise_singleton _ _
  | cons head rest ih =>
    obtain ⟨hhead, hrest⟩ := List.pairwise_cons.1 h
    unfold insertAscending
    split
    · next hlt =>
      refine List.pairwise_cons.2 ⟨fun other hother => ?_, h⟩
      rcases List.mem_cons.1 hother with rfl | hmem
      · exact hlt
      · exact Nat.lt_trans hlt (hhead other hmem)
    · split
      · exact h
      · refine List.pairwise_cons.2 ⟨fun other hother => ?_, ih hrest⟩
        rcases (mem_insertAscending hinjective).1 hother with rfl | hmem
        · omega
        · exact hhead other hmem

theorem mem_ascending {item : α} {items : List α} : item ∈ ascending index items ↔ item ∈ items := by
  unfold ascending
  induction items with
  | nil => exact Iff.rfl
  | cons head rest ih => rw [List.foldr_cons, mem_insertAscending hinjective, ih, List.mem_cons]

theorem pairwise_ascending (items : List α) : (ascending index items).Pairwise (index · < index ·) := by
  unfold ascending
  induction items with
  | nil => exact .nil
  | cons head rest ih => exact pairwise_insertAscending hinjective head ih

end Ascending

theorem ValueId.index_injective : Function.Injective ValueId.index := by
  rintro ⟨left⟩ ⟨right⟩ rfl
  rfl

end Bytecode
