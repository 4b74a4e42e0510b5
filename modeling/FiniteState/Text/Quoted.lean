import FiniteState.Text.Combining
import FiniteState.Text.Unprintable

/-!
# Quoted text

How a character or a string is written into a message: between quotation
marks, on one line, and so that what a reader sees determines what is
meant. Characters with a short escape get it, the mark in use is
escaped, and whatever has no visible form, or would be drawn onto its
neighbour, is written by its code. All else stands for itself.

The two kinds of quotation differ only in their mark.
-/

namespace FiniteState.Text

/-- A character by its code, in lower case and without leading zeros. -/
def codeEscape (c : Char) : String :=
  "\\u\x7b" ++ String.ofList (Nat.toDigits 16 c.toNat) ++ "\x7d"

/-- One character between quotation marks `mark`. -/
def escape (mark c : Char) : String :=
  if c = '\x00' then "\\0"
  else if c = '\t' then "\\t"
  else if c = '\r' then "\\r"
  else if c = '\n' then "\\n"
  else if c = '\\' || c = mark then String.ofList ['\\', c]
  else if combining.contains c || unprintable.contains c then codeEscape c
  else c.toString

/-- A text between quotation marks `mark`. -/
def quoted (mark : Char) (text : List Char) : String :=
  mark.toString ++ String.join (text.map (escape mark)) ++ mark.toString

/-- A character, in single quotation marks. -/
def quotedChar (c : Char) : String := quoted '\'' [c]

/-- A string, in double quotation marks. -/
def quotedString (s : String) : String := quoted '"' s.toList

end FiniteState.Text
