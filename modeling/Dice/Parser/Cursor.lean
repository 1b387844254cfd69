/-!
# Dice.Parser.Cursor

A place in a text, and what a parser answers there.

* `Cursor` : an offset with the text that follows it;
* `Cursor.ofText` : the place at an offset of a text, which may lie past its end;
* `Outcome` : success with a value and the place after it, failure, or a number too long to read.
-/

namespace Dice.Parser

/-- The offset counts characters from the start of the text. Past the end of the text nothing
follows, and it is not the end of the input either. -/
structure Cursor where
  offset : Nat
  rest : List Char
  pastEnd : Bool
  deriving DecidableEq

namespace Cursor

def ofText (text : List Char) (offset : Nat) : Cursor :=
  ⟨offset, text.drop offset, text.length < offset⟩

/-- The cursor behind a number of characters. -/
def advance (c : Cursor) (count : Nat) : Cursor :=
  { c with offset := c.offset + count, rest := c.rest.drop count }

def atEnd (c : Cursor) : Bool :=
  c.rest.isEmpty && !c.pastEnd

end Cursor

/-- A failure tells what was expected, and the offset where it was not found. A run of digits that
is too long to be read as a number stops everything at once, and no parser recovers from it. -/
inductive Outcome (α : Type) where
  | success (value : α) (next : Cursor)
  | failure (expected : String) (offset : Nat)
  | overlong (digits : Nat)
  deriving DecidableEq

namespace Outcome

def map {α β : Type} (f : α → β) : Outcome α → Outcome β
  | .success value next => .success (f value) next
  | .failure expected offset => .failure expected offset
  | .overlong digits => .overlong digits

theorem map_map {α β γ : Type} (o : Outcome α) (f : α → β) (g : β → γ) :
    (o.map f).map g = o.map fun a => g (f a) := by
  cases o <;> rfl

end Outcome

end Dice.Parser
