import Bytecode.Text.Invisible
/-!
# Escaped text

Text is written between quotes in two places, each with its own escapes.

A string constant is shown as a literal. A quote and a backslash are written with a backslash before them, the
tab, the two line ends and the null character by their letters, any other character without a visible shape by its
code in lower-case hexadecimal, and everything else, an apostrophe too, as itself.

A label stands in the description of a graph, where a backslash starts an escape and angle brackets group. It is escaped by
replacing one character after another in the whole text: a backslash, a quote and the angle brackets get a backslash, a
newline is written as a backslash and the letter n, and a carriage return is dropped.
-/

namespace Bytecode.Text

/-! ### Literals -/

/-- How one character stands inside a quoted literal. -/
def quoteChar (character : Char) : List Char :=
  match character with
  | '\x00' => ['\\', '0']
  | '\t' => ['\\', 't']
  | '\r' => ['\\', 'r']
  | '\n' => ['\\', 'n']
  | '"' => ['\\', '"']
  | '\\' => ['\\', '\\']
  | _ =>
    if isInvisible character then
      ['\\', 'u', '{'] ++ Nat.toDigits 16 character.toNat ++ ['}']
    else [character]

def quote (text : String) : String :=
  String.ofList ('"' :: text.toList.flatMap quoteChar ++ ['"'])

/-! ### Labels -/

/-- Writes `replacement` wherever `character` stands. -/
def replaceAll (character : Char) (replacement text : List Char) : List Char :=
  text.flatMap fun found => if found = character then replacement else [found]

/-- What is replaced, in this order. The backslash is the first, since the other replacements write backslashes. -/
def labelReplacements : List (Char × List Char) :=
  [('\\', ['\\', '\\']), ('"', ['\\', '"']), ('\n', ['\\', 'n']), ('\r', []), ('<', ['\\', '<']), ('>', ['\\', '>'])]

/-- Makes replacements one after another, each in what the one before it has left. -/
def replaceInTurn (replacements : List (Char × List Char)) (text : List Char) : List Char :=
  replacements.foldl (fun done (character, replacement) => replaceAll character replacement done) text

def escapeLabel (text : String) : String :=
  String.ofList (replaceInTurn labelReplacements text.toList)

end Bytecode.Text
