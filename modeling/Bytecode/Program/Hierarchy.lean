import Bytecode.Program
import Bytecode.Graph.Search
/-!
# The type hierarchy

Subtyping is reachability along superclass and interface links, upwards from a type through the definitions of
classes. Downwards, a type's direct subtypes are the classes that name it as a parent. A hierarchy may be cyclic and may
name types that have no definition; every question is a search of a finite graph and ends.
-/

namespace Bytecode.Program

/-- The superclass and then the interfaces of a type. -/
def parents (program : Program) (type : TypeId) : List TypeId :=
  ((program.class? type).map (·.parents)).getD []

def superclass? (program : Program) (type : TypeId) : Option TypeId :=
  (program.class? type).bind (·.superclass)

def interfaces (program : Program) (type : TypeId) : List TypeId :=
  ((program.class? type).map (·.interfaces)).getD []

/-- The type and everything above it, nearest first. -/
def supertypes (program : Program) (type : TypeId) : List TypeId :=
  Graph.search .breadthFirst program.typeIds program.parents [type]

/-- Every type is a subtype of itself. -/
def isSubtype (program : Program) (lower upper : TypeId) : Bool :=
  (program.supertypes lower).contains upper

/-- The classes that name a type of the table as parent, in the order of the table. -/
def directSubtypes (program : Program) (type : TypeId) : List TypeId :=
  if type.index < program.types.length then
    (program.classes.filter (·.parents.contains type)).map (·.id)
  else []

/-- The types strictly below a type, level by level. -/
def subtypes (program : Program) (type : TypeId) : List TypeId :=
  (Graph.search .breadthFirst program.typeIds program.directSubtypes [type]).filter (· ≠ type)

/-- The type, its superclass and so on, up to a type without one or to the first repetition. -/
def superclassChain (program : Program) (type : TypeId) : List TypeId :=
  Graph.search .breadthFirst program.typeIds (fun lower => (program.superclass? lower).toList) [type]

/-- The interfaces of the given types and what these extend, level by level. -/
def superinterfaces (program : Program) (types : List TypeId) : List TypeId :=
  Graph.search .breadthFirst program.typeIds program.interfaces (types.flatMap program.interfaces)

/-- The order in which a field is looked for: a type, then its interfaces one by one with all above them, then its
superclass. -/
def fieldSearchOrder (program : Program) (type : TypeId) : List TypeId :=
  Graph.search .depthFirst program.typeIds
    (fun lower => program.interfaces lower ++ (program.superclass? lower).toList) [type]

/-- A member of `holder` with the given visibility can be used in the class `context`. -/
def isAccessible (program : Program) (holder : TypeId) (visibility : Visibility) (context : TypeId) : Bool :=
  let samePackage := packageOf (program.typeName holder) == packageOf (program.typeName context)
  if holder = context then true
  else
    match visibility with
    | .anywhere => true
    | .inSubclasses => samePackage || program.isSubtype context holder
    | .inPackage => samePackage
    | .inClass => false

end Bytecode.Program
