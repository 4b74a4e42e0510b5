import FiniteState.Text.Quoted

/-!
# Alphabets

What an automaton asks of its symbols: a linear order in which they are
listed and tried, a way to write one into a message, and a test for the
symbols that consume nothing. An alphabet may reserve such symbols -
the empty string among textual tokens - and a transition labelled with
one is an epsilon move, so no automaton ever stores it as a symbol.
-/

namespace FiniteState

open Std

/-- A type of symbols, with the order in which they are listed. -/
class Alphabet (σ : Type) extends Ord σ, TransOrd σ, LawfulEqOrd σ where
  /-- Whether the symbol stands for the move that consumes nothing. -/
  isEpsilon : σ → Bool := fun _ => false
  /-- The symbol as it is written in a message. -/
  text : σ → String

namespace Alphabet

/-- A label as a symbol to store: none where the move consumes nothing. -/
def visible? {σ : Type} [Alphabet σ] (label : Option σ) : Option σ :=
  label.filter fun a => !isEpsilon a

instance : Alphabet Char where
  text := Text.quotedChar

instance : Alphabet UInt8 where
  text a := toString a

instance : Alphabet UInt32 where
  text a := toString a

/-- Textual tokens; the empty one consumes nothing. -/
instance : Alphabet String where
  isEpsilon a := a.isEmpty
  text := Text.quotedString

end Alphabet

end FiniteState
