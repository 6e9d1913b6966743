/-!
This module contains the white space of the Unicode standard as a table of ranges, and what is done
with it: a text can be cut at its end, and it can be split into lines.
-/

namespace Splice
namespace Text

/--
The code points with the Unicode property `White_Space`, as closed ranges in ascending order. The
table is that of Unicode 15.
-/
def blankRanges : List (Nat × Nat) :=
  [(0x09, 0x0d), (0x20, 0x20), (0x85, 0x85), (0xa0, 0xa0), (0x1680, 0x1680), (0x2000, 0x200a),
    (0x2028, 0x2029), (0x202f, 0x202f), (0x205f, 0x205f), (0x3000, 0x3000)]

def isBlank (c : Char) : Bool :=
  blankRanges.any fun range => range.1 ≤ c.toNat && c.toNat ≤ range.2

def trimEnd (s : String) : String :=
  String.ofList (s.toList.reverse.dropWhile isBlank).reverse

/--
The lines of a text. A line ends with a line feed, which is not part of it, and neither is a
carriage return directly in front of that line feed. Nothing follows the last line feed, so a text
that ends with one has no empty line after it.
-/
def lines : List Char → List (List Char)
  | [] => []
  | '\n' :: rest => [] :: lines rest
  | '\r' :: '\n' :: rest => [] :: lines rest
  | c :: rest =>
    match lines rest with
    | [] => [[c]]
    | line :: others => (c :: line) :: others

end Text
end Splice
