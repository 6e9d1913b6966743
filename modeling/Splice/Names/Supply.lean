/-!
This module contains the supply of fresh names. A name is made of a stem and, where the stem alone
will not do, a counter: `a`, `a_1`, `a_2` and so on.
-/

namespace Splice

/--
The name without the counter at its end, if it has one: an underscore and at least one digit behind
at least one other character.
-/
def stem (name : String) : String :=
  let reversed := name.toList.reverse
  match reversed.takeWhile Char.isDigit, reversed.dropWhile Char.isDigit with
  | _ :: _, '_' :: c :: rest => String.ofList (c :: rest).reverse
  | _, _ => name

def counted (s : String) (counter : Nat) : String :=
  s ++ "_" ++ toString counter

/--
The least counter from `counter` on with which `s` is none of the names `taken`. A name that was met
once is not met again with another counter, so it can be struck off.
-/
def freeCounter (s : String) (counter : Nat) (taken : List String) : Nat :=
  if counted s counter ∈ taken then
    freeCounter s (counter + 1) (taken.erase (counted s counter))
  else
    counter
termination_by taken.length
decreasing_by
  rename_i h
  have := List.length_pos_of_mem h
  rw [List.length_erase_of_mem h]
  omega

structure Supply where
  used : List String
  nodup : used.Nodup

namespace Supply

def empty : Supply := ⟨[], .nil⟩

def add (supply : Supply) (name : String) : Supply :=
  if h : name ∈ supply.used then
    supply
  else
    ⟨name :: supply.used, List.nodup_cons.2 ⟨h, supply.nodup⟩⟩

def ofNames (names : List String) : Supply :=
  names.foldl add empty

def size (supply : Supply) : Nat :=
  supply.used.length

/--
The names in use that `s` and an underscore start, those that came into use first in front. Counters
are mostly given out in ascending order, so that the search for a free one finds the others at the
front.
-/
def startedBy (supply : Supply) (s : String) : List String :=
  let start := (s ++ "_").toList
  supply.used.reverse.filter fun name => start.isPrefixOf name.toList

/--
The fresh name that is made of `label`: the label itself if it has no counter and is not in use, and
else its stem with the least counter from 1 on.
-/
def freshName (supply : Supply) (label : String) : String :=
  if label ≠ "" ∧ stem label = label ∧ label ∉ supply.used then
    label
  else
    counted (stem label) (freeCounter (stem label) 1 (supply.startedBy (stem label)))

def fresh (supply : Supply) (label : String) : String × Supply :=
  let name := supply.freshName label
  (name, supply.add name)

end Supply
end Splice
