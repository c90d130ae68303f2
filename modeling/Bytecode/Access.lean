/-!
# Access flags and visibility

Classes, methods and fields carry one word of access flags each. A bit has one meaning per kind of definition: bit
six marks a bridge method or a volatile field. Bits without a meaning are kept. Visibility is read off three of the
bits and is ordered from the least visible to the most visible.
-/

namespace Bytecode

/-- How far a member can be seen, from the least to the most visible. -/
inductive Visibility where
  /-- A private member, seen by its own class. -/
  | inClass
  /-- A member without a visibility bit, seen by the classes of its package. -/
  | inPackage
  /-- A protected member, seen by its package and by subclasses. -/
  | inSubclasses
  /-- A public member. -/
  | anywhere
deriving DecidableEq, Inhabited

namespace Visibility

def rank : Visibility → Nat
  | .inClass => 0
  | .inPackage => 1
  | .inSubclasses => 2
  | .anywhere => 3

/-- Strictly less visible. -/
def isBelow (left right : Visibility) : Bool :=
  left.rank < right.rank

/-- The more visible of two. -/
def max (left right : Visibility) : Visibility :=
  if left.isBelow right then right else left

/-- A member of visibility `actual` can be used wherever one of visibility `required` has to be. -/
def satisfies (actual required : Visibility) : Bool :=
  match required with
  | .anywhere => actual == .anywhere
  | .inSubclasses => actual == .anywhere || actual == .inSubclasses
  | .inPackage => actual != .inClass
  | .inClass => true

end Visibility

/-- The access flags of one definition. -/
structure AccessFlags where
  bits : BitVec 32
deriving DecidableEq, Inhabited

namespace AccessFlags

def isPublic (flags : AccessFlags) : Bool :=
  flags.bits.getLsbD 0

def isPrivate (flags : AccessFlags) : Bool :=
  flags.bits.getLsbD 1

def isProtected (flags : AccessFlags) : Bool :=
  flags.bits.getLsbD 2

def isStatic (flags : AccessFlags) : Bool :=
  flags.bits.getLsbD 3

def isFinal (flags : AccessFlags) : Bool :=
  flags.bits.getLsbD 4

/-- Read on methods. -/
def isBridge (flags : AccessFlags) : Bool :=
  flags.bits.getLsbD 6

/-- Read on fields; it shares its bit with `isBridge`. -/
def isVolatile (flags : AccessFlags) : Bool :=
  flags.bits.getLsbD 6

/-- Read on classes. -/
def isInterface (flags : AccessFlags) : Bool :=
  flags.bits.getLsbD 9

def isAbstract (flags : AccessFlags) : Bool :=
  flags.bits.getLsbD 10

def isSynthetic (flags : AccessFlags) : Bool :=
  flags.bits.getLsbD 12

/-- If several visibility bits are set, public wins over protected and protected over private. -/
def visibility (flags : AccessFlags) : Visibility :=
  if flags.isPublic then .anywhere
  else if flags.isProtected then .inSubclasses
  else if flags.isPrivate then .inClass
  else .inPackage

def withStatic (flags : AccessFlags) : AccessFlags :=
  ⟨flags.bits ||| 0x8#32⟩

/-- The flags of an ordinary class. -/
def publicClass : AccessFlags :=
  ⟨0x1#32⟩

def publicInterface : AccessFlags :=
  ⟨0x601#32⟩

/-- The flags of a generated constant: public, static, final and synthetic. -/
def generatedConstant : AccessFlags :=
  ⟨0x1019#32⟩

end AccessFlags

end Bytecode
