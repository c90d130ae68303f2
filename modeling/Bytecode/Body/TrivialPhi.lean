import Bytecode.Body
/-!
# Trivial phis

A phi is trivial if its operands, apart from its own result, are all one value: it selects nothing. Such a phi goes
away and its result is replaced by that value. A removal can make other phis trivial, so the first trivial phi, block by
block, is removed until there is none. Every removal leaves one phi less.
-/

namespace Bytecode

/-- The only value among the operands other than the phi's own result. -/
def Phi.trivialValue? (phi : Phi) : Option ValueId :=
  match phi.operands.filter (· ≠ phi.dest) with
  | [] => none
  | value :: rest => if rest.all (· = value) then some value else none

/-- The phis in front of the first trivial one, that phi with its value, and the phis after it. -/
def splitTrivial : List Phi → Option (List Phi × Phi × ValueId × List Phi)
  | [] => none
  | phi :: rest =>
    match phi.trivialValue? with
    | some value => some ([], phi, value, rest)
    | none => (splitTrivial rest).map fun (before, found, value, after) => (phi :: before, found, value, after)

/-- Takes the first trivial phi out of the blocks. -/
def extractTrivial : List Block → Option (Phi × ValueId × List Block)
  | [] => none
  | block :: rest =>
    match splitTrivial block.phis with
    | some (before, phi, value, after) => some (phi, value, { block with phis := before ++ after } :: rest)
    | none => (extractTrivial rest).map fun (phi, value, blocks) => (phi, value, block :: blocks)

def phiCount (blocks : List Block) : Nat :=
  (blocks.flatMap (·.phis)).length

private theorem length_of_splitTrivial {phis : List Phi} {before : List Phi} {phi : Phi} {value : ValueId}
    {after : List Phi} (h : splitTrivial phis = some (before, phi, value, after)) :
    phis.length = (before ++ after).length + 1 := by
  induction phis generalizing before with
  | nil => simp [splitTrivial] at h
  | cons head rest ih =>
    unfold splitTrivial at h
    split at h
    · obtain ⟨rfl, -, -, rfl⟩ := by simpa using h
      simp
    · obtain ⟨⟨before', phi', value', after'⟩, hrest, heq⟩ := Option.map_eq_some_iff.1 h
      simp only [Prod.mk.injEq] at heq
      obtain ⟨rfl, rfl, rfl, rfl⟩ := heq
      simp [ih hrest]

theorem phiCount_of_extractTrivial {blocks : List Block} {phi : Phi} {value : ValueId} {rest : List Block}
    (h : extractTrivial blocks = some (phi, value, rest)) : phiCount blocks = phiCount rest + 1 := by
  induction blocks generalizing rest with
  | nil => simp [extractTrivial] at h
  | cons head tail ih =>
    unfold extractTrivial at h
    split at h
    · next before found result after hsplit =>
      obtain ⟨-, -, rfl⟩ := by simpa using h
      have hlength := length_of_splitTrivial hsplit
      simp only [phiCount, List.flatMap_cons, List.length_append, hlength]
      omega
    · obtain ⟨⟨phi', value', blocks'⟩, htail, heq⟩ := Option.map_eq_some_iff.1 h
      simp only [Prod.mk.injEq] at heq
      obtain ⟨rfl, rfl, rfl⟩ := heq
      have hcount := ih htail
      simp only [phiCount, List.flatMap_cons, List.length_append] at hcount ⊢
      omega

namespace Body

theorem phiCount_mapUses (f : ValueId → ValueId) (body : Body) :
    phiCount (body.mapUses f).blocks = phiCount body.blocks := by
  simp [phiCount, mapUses, Block.mapUses, List.length_flatMap, Function.comp_def]

/-- The body without trivial phis, and how many were removed. -/
def removeTrivialPhis (body : Body) : Body × Nat :=
  match _h : extractTrivial body.blocks with
  | none => (body, 0)
  | some (phi, value, blocks) =>
    let (result, removed) := ({ body with blocks }.replaceUses phi.dest value).removeTrivialPhis
    (result, removed + 1)
termination_by phiCount body.blocks
decreasing_by
  rw [replaceUses, phiCount_mapUses, phiCount_of_extractTrivial _h]
  exact Nat.lt_succ_self _

end Body

end Bytecode
