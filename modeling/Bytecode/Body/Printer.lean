import Bytecode.Body
/-!
# The text of a body

A body is written block by block. A block's heading names its predecessors, then come its phis and instructions, its
successors and its handlers, each on a line of its own.
-/

namespace Bytecode

/-- Items between square brackets. -/
def bracketed (items : List String) : String :=
  "[" ++ ", ".intercalate items ++ "]"

def blockList (blocks : List Nat) : String :=
  bracketed (blocks.map toString)

def Phi.text (phi : Phi) : String :=
  s!"{phi.dest.text} = phi " ++ bracketed (phi.operands.map (·.text))

namespace Body

def headingText (body : Body) (position : Nat) : String :=
  let sources := body.predecessors position
  let origin := if sources.isEmpty then "" else " <- " ++ blockList sources
  s!"  B{position}" ++ origin ++ ":"

def blockLines (body : Body) (position : Nat) (block : Block) : List String :=
  let exits := if block.successors.isEmpty then [] else ["-> " ++ blockList block.successors]
  let contents := block.phis.map (·.text) ++ block.instructions.map (·.operation.text) ++ exits ++
    block.handlers.map fun handler => s!"catch -> B{handler.target}"
  body.headingText position :: contents.map ("    " ++ ·)

def lines (body : Body) : List String :=
  s!"method {body.method.text}:" ::
    body.blocks.zipIdx.flatMap fun (block, position) => body.blockLines position block

def text (body : Body) : String :=
  String.join (body.lines.map (· ++ "\n"))

end Body

end Bytecode
