import Bytecode.Text.Escape
import Mathlib.Data.List.Induction
/-!
# Escaped labels can be read back

Replacements that are made one after another in a whole text act on each of its characters apart from the others,
whatever they are, since what a character becomes does not depend on what stands around it. So escaping a label is a map
from characters to texts (`escapeLabelChar`). An escape is a backslash with one more character, and every other
character is no backslash; hence between escapes the number of backslashes in a row is even, a quote in an escaped label
never ends it, and a reader that takes a backslash together with the character behind it finds the label again. Only
carriage returns are lost.
-/

namespace Bytecode.Text

/-- What a character of a label becomes. -/
def escapeLabelChar (character : Char) : List Char :=
  match character with
  | '\\' => ['\\', '\\']
  | '"' => ['\\', '"']
  | '\n' => ['\\', 'n']
  | '\r' => []
  | '<' => ['\\', '<']
  | '>' => ['\\', '>']
  | _ => [character]

/-! ### Each character on its own -/

private theorem replaceInTurn_eq_flatMap (replacements : List (Char × List Char)) (text : List Char) :
    replaceInTurn replacements text = text.flatMap fun character => replaceInTurn replacements [character] := by
  induction replacements generalizing text with
  | nil => simp [replaceInTurn]
  | cons first rest ih =>
    obtain ⟨character, replacement⟩ := first
    have hfirst : ∀ text, replaceInTurn ((character, replacement) :: rest) text
        = replaceInTurn rest (replaceAll character replacement text) := fun _ => rfl
    simp only [hfirst]
    rw [ih, replaceAll, List.flatMap_assoc]
    congr 1
    funext found
    rw [← ih, replaceAll, List.flatMap_singleton]

private theorem replaceInTurn_labelReplacements (character : Char) :
    replaceInTurn labelReplacements [character] = escapeLabelChar character := by
  unfold escapeLabelChar
  split
  case h_7 =>
    simp_all [replaceInTurn, labelReplacements, replaceAll]
  all_goals rfl

theorem toList_escapeLabel (text : String) : (escapeLabel text).toList = text.toList.flatMap escapeLabelChar := by
  rw [escapeLabel, String.toList_ofList, replaceInTurn_eq_flatMap]
  exact congrArg text.toList.flatMap (funext replaceInTurn_labelReplacements)

/-! ### Safety -/

/-- Escaping writes backslashes and the letter n; what else stands in an escaped text was there before. -/
theorem mem_escapeLabelChar {character written : Char} (h : written ∈ escapeLabelChar character) :
    written = '\\' ∨ written = 'n' ∨ written = character ∧ written ≠ '\n' ∧ written ≠ '\r' := by
  unfold escapeLabelChar at h
  split at h <;> grind

private theorem isOneLine_escapeLabel (text : String) :
    '\n' ∉ (escapeLabel text).toList ∧ '\r' ∉ (escapeLabel text).toList := by
  rw [toList_escapeLabel, List.mem_flatMap, List.mem_flatMap]
  constructor
  · rintro ⟨character, -, hmem⟩
    simpa using mem_escapeLabelChar hmem
  · rintro ⟨character, -, hmem⟩
    simpa using mem_escapeLabelChar hmem

/-- The length of the row of backslashes that a text ends in. -/
def trailingBackslashes (text : List Char) : Nat :=
  (text.reverse.takeWhile (· = '\\')).length

@[simp] theorem trailingBackslashes_concat (text : List Char) (character : Char) :
    trailingBackslashes (text ++ [character]) = if character = '\\' then trailingBackslashes text + 1 else 0 := by
  unfold trailingBackslashes
  rw [List.reverse_concat, List.takeWhile_cons]
  split <;> simp_all

private theorem even_trailingBackslashes_append {text : List Char} (h : trailingBackslashes text % 2 = 0)
    (character : Char) :
    trailingBackslashes (text ++ escapeLabelChar character) % 2 = 0 := by
  have htwo : ∀ first second, text ++ [first, second] = text ++ [first] ++ [second] := by simp
  unfold escapeLabelChar
  split
  case h_1 =>
    rw [htwo, trailingBackslashes_concat, trailingBackslashes_concat, if_pos rfl, if_pos rfl]
    omega
  case h_4 => rwa [List.append_nil]
  case h_7 hbackslash _ _ _ _ _ =>
    rw [trailingBackslashes_concat, if_neg hbackslash]
  all_goals
    rw [htwo, trailingBackslashes_concat, if_neg (by decide)]

/-- No escape is left open at the end of an escaped text. -/
theorem even_trailingBackslashes_flatMap (text : List Char) :
    trailingBackslashes (text.flatMap escapeLabelChar) % 2 = 0 := by
  induction text using List.reverseRecOn with
  | nil => rfl
  | append_singleton text character ih =>
    rw [List.flatMap_append, List.flatMap_singleton]
    exact even_trailingBackslashes_append ih character

/-- A quote in an escaped text comes from a quote, and a backslash was written before it. -/
theorem eq_of_flatMap_eq_quote {text before after : List Char}
    (h : text.flatMap escapeLabelChar = before ++ '"' :: after) :
    ∃ earlier : List Char, before = earlier.flatMap escapeLabelChar ++ ['\\'] := by
  induction text generalizing before with
  | nil => simp at h
  | cons character text ih =>
    rw [List.flatMap_cons, List.append_eq_append_iff] at h
    rcases h with ⟨between, rfl, hrest⟩ | ⟨between, hfirst, hrest⟩
    · obtain ⟨earlier, rfl⟩ := ih hrest
      exact ⟨character :: earlier, by simp⟩
    · cases between with
      | nil =>
        obtain ⟨earlier, hnil⟩ := @ih [] hrest.symm
        simp at hnil
      | cons quote between =>
        obtain ⟨rfl, -⟩ := List.cons.inj hrest
        have hmem : '"' ∈ escapeLabelChar character := by rw [hfirst]; simp
        obtain rfl : '"' = character := by simpa using mem_escapeLabelChar hmem
        have hbefore : before = ['\\'] ∧ between = [] := by
          simpa [escapeLabelChar, List.cons_eq_append_iff] using hfirst
        exact ⟨[], hbefore.1⟩

/-! ### Reading back -/

/-- Reads from left to right. A backslash is read together with the character behind it, which is meant by it; only the
letter n then means a newline. -/
def unescape : List Char → List Char
  | [] => []
  | '\\' :: 'n' :: rest => '\n' :: unescape rest
  | '\\' :: escaped :: rest => escaped :: unescape rest
  | character :: rest => character :: unescape rest

def unescapeLabel (label : String) : String :=
  String.ofList (unescape label.toList)

private theorem unescape_append (character : Char) (rest : List Char) :
    unescape (escapeLabelChar character ++ rest) = [character].filter (· ≠ '\r') ++ unescape rest := by
  unfold escapeLabelChar
  split
  case h_7 hbackslash _ _ hreturn _ _ =>
    have hkept : [character].filter (· ≠ '\r') = [character] := List.filter_cons_of_pos (decide_eq_true hreturn)
    rw [List.singleton_append, unescape, hkept, List.singleton_append]
    · simp_all
    · simp_all
  all_goals simp [unescape]

private theorem unescape_flatMap (text : List Char) :
    unescape (text.flatMap escapeLabelChar) = text.filter (· ≠ '\r') := by
  induction text with
  | nil => rfl
  | cons character text ih => rw [List.flatMap_cons, unescape_append, ih, ← List.filter_append, List.singleton_append]

private theorem unescapeLabel_escapeLabel (text : String) :
    unescapeLabel (escapeLabel text) = String.ofList (text.toList.filter (· ≠ '\r')) := by
  rw [unescapeLabel, toList_escapeLabel, unescape_flatMap]

private theorem eq_of_escapeLabel_eq {text other : String} (htext : '\r' ∉ text.toList) (hother : '\r' ∉ other.toList)
    (h : escapeLabel text = escapeLabel other) : text = other := by
  have hkept : ∀ text : String, '\r' ∉ text.toList → unescapeLabel (escapeLabel text) = text := by
    intro text hreturn
    rw [unescapeLabel_escapeLabel, List.filter_eq_self.2, String.ofList_toList]
    intro character hmem
    exact decide_eq_true fun heq => hreturn (heq ▸ hmem)
  rw [← hkept text htext, h, hkept other hother]

/-- **Escaped labels.** Escaping acts on each character on its own. An escaped label is one line, each quote in it stands
behind an odd number of backslashes in a row, and reading it from left to right gives the label without its carriage
returns; so labels without carriage returns that are escaped alike are the same. -/
theorem escaped_labels_read_back (text : String) :
    escapeLabel text = String.ofList (text.toList.flatMap escapeLabelChar) ∧
    ('\n' ∉ (escapeLabel text).toList ∧ '\r' ∉ (escapeLabel text).toList) ∧
    (∀ before after, (escapeLabel text).toList = before ++ '"' :: after → trailingBackslashes before % 2 = 1) ∧
    unescapeLabel (escapeLabel text) = String.ofList (text.toList.filter (· ≠ '\r')) ∧
    ∀ other : String, '\r' ∉ text.toList → '\r' ∉ other.toList → escapeLabel text = escapeLabel other →
      text = other := by
  refine ⟨?_, isOneLine_escapeLabel text, ?_, unescapeLabel_escapeLabel text, fun other => eq_of_escapeLabel_eq⟩
  · rw [← toList_escapeLabel, String.ofList_toList]
  · intro before after hquote
    rw [toList_escapeLabel] at hquote
    obtain ⟨earlier, rfl⟩ := eq_of_flatMap_eq_quote hquote
    have heven := even_trailingBackslashes_flatMap earlier
    rw [trailingBackslashes_concat, if_pos rfl]
    omega

/-- A quote behind a backslash, and a backslash before the letter n, which is not a newline. -/
theorem escaped_labels_read_back_of_backslashes :
    escapeLabel "\\\"" = "\\\\\\\"" ∧ trailingBackslashes ['\\', '\\', '\\'] % 2 = 1 ∧
    '\r' ∉ "\\n".toList ∧ '\r' ∉ "\n".toList ∧ escapeLabel "\\n" ≠ escapeLabel "\n" := by
  have hquoted : escapeLabel "\\\"" = "\\\\\\\"" := by decide
  have hletter : '\r' ∉ "\\n".toList := by decide
  have hnewline : '\r' ∉ "\n".toList := by decide
  obtain ⟨-, -, hodd, -⟩ := escaped_labels_read_back "\\\""
  obtain ⟨-, -, -, -, hinjective⟩ := escaped_labels_read_back "\\n"
  refine ⟨hquoted, hodd _ [] (by rw [hquoted]; decide), hletter, hnewline, fun heq => ?_⟩
  exact absurd (hinjective "\n" hletter hnewline heq) (by decide)

end Bytecode.Text
