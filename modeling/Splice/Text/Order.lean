/-!
This module contains lists that are in the order of the text of a key and hold each key once. The
order of texts is that of their characters by code point.
-/

namespace Splice
namespace Text

def insertBy {α : Type} (key : α → String) (a : α) : List α → List α
  | [] => [a]
  | b :: bs =>
    if key a < key b then a :: b :: bs
    else if key a = key b then a :: bs
    else b :: insertBy key a bs

/--
The members of a list in order. Of those with one key the last one counts.
-/
def orderBy {α : Type} (key : α → String) (as : List α) : List α :=
  as.foldl (fun ordered a => insertBy key a ordered) []

def ordered (texts : List String) : List String :=
  orderBy id texts

end Text
end Splice
