/-!
This module contains the positions of a source text. Lines and columns are counted from 1, and a
column is a number of characters.
-/

namespace Splice

/--
The place of one character. The place `0:0` stands for no character at all.
-/
structure Position where
  line : Nat
  column : Nat
deriving DecidableEq, Inhabited, Repr

namespace Position

def first : Position := ⟨1, 1⟩

def next (p : Position) (c : Char) : Position :=
  if c = '\n' then ⟨p.line + 1, 1⟩ else ⟨p.line, p.column + 1⟩

def after (p : Position) (cs : List Char) : Position :=
  cs.foldl next p

/--
The place in front of `p` on the same line. At the start of a line there is none, and `p` stays.
-/
def back (p : Position) : Position :=
  ⟨p.line, max (p.column - 1) 1⟩

@[simp]
theorem after_nil (p : Position) : p.after [] = p := rfl

@[simp]
theorem after_cons (p : Position) (c : Char) (cs : List Char) :
    p.after (c :: cs) = (p.next c).after cs := rfl

theorem after_append (p : Position) (cs ds : List Char) :
    p.after (cs ++ ds) = (p.after cs).after ds := by
  simp [after]

end Position

/--
A range of the source text from its first to its last character, both of them included.
-/
structure Span where
  start : Position
  stop : Position
deriving DecidableEq, Inhabited, Repr

namespace Span

def none : Span := ⟨⟨0, 0⟩, ⟨0, 0⟩⟩

def join (a b : Span) : Span :=
  ⟨a.start, b.stop⟩

end Span
end Splice
