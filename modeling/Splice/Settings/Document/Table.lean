import Splice.Settings.Value

/-!
This module contains the tables of a settings document while it is read, and what its lines do to
them. A key gets a value only once, and a table is opened only once.
-/

namespace Splice
namespace Document

inductive Origin where
  | implied
  | header
  | dotted
deriving DecidableEq

inductive Node where
  | value (v : Value)
  | table (origin : Origin) (entries : List (String × Node))
  /--
  A list of tables, the last of which is the current one.
  -/
  | tables (items : List (List (String × Node)))

abbrev Entries := List (String × Node)

namespace Entries

def alter (f : Option Node → Option Node) (k : String) : Entries → Option Entries
  | [] => do
    let node ← f none
    return [(k, node)]
  | (l, node) :: rest =>
    if k = l then do
      let node ← f (some node)
      return (k, node) :: rest
    else do
      let rest ← alter f k rest
      return (l, node) :: rest

/--
Gives a value to a key that has none, below tables that keys with dots may add to.
-/
def put (v : Value) : List String → Entries → Option Entries
  | [], _ => none
  | [k], entries => alter (fun node? => if node?.isNone then some (.value v) else none) k entries
  | k :: ks, entries => alter (below ks) k entries
where
  below (ks : List String) : Option Node → Option Node
    | none => (put v ks []).map (.table .dotted)
    | some (.table .dotted entries) => (put v ks entries).map (.table .dotted)
    | some _ => none

/--
Applies `f` to the entries of the table at the given place, the last part of which `atEnd` deals
with.
-/
def within (atEnd : Option Node → Option Node) : List String → Entries → Option Entries
  | [], _ => none
  | [k], entries => alter atEnd k entries
  | k :: ks, entries => alter (below ks) k entries
where
  below (ks : List String) : Option Node → Option Node
    | none => (within atEnd ks []).map (.table .implied)
    | some (.table origin entries) => (within atEnd ks entries).map (.table origin)
    | some (.tables items) =>
      match items.getLast? with
      | none => none
      | some last => do
        let last ← within atEnd ks last
        return .tables (items.dropLast ++ [last])
    | some (.value _) => none

/--
The header of a table: there may be none yet, or one that a header of a table within it implied.
-/
def openTable (path : List String) (entries : Entries) : Option Entries :=
  within (fun
    | none => some (.table .header [])
    | some (.table .implied entries) => some (.table .header entries)
    | some _ => none) path entries

def openItem (path : List String) (entries : Entries) : Option Entries :=
  within (fun
    | none => some (.tables [[]])
    | some (.tables items) => some (.tables (items ++ [[]]))
    | some _ => none) path entries

def putIn (path ks : List String) (v : Value) (entries : Entries) : Option Entries :=
  match path with
  | [] => put v ks entries
  | _ =>
    within (fun
      | some (.table origin entries) => (put v ks entries).map (.table origin)
      | some (.tables items) => do
        let last ← put v ks (← items.getLast?)
        return .tables (items.dropLast ++ [last])
      | _ => none) path entries

end Entries

mutual

def Node.toValue : Node → Value
  | .value v => v
  | .table _ entries => .table (Node.toValues entries)
  | .tables items => .list (Node.toTables items)

def Node.toValues : List (String × Node) → List (String × Value)
  | [] => []
  | (k, node) :: rest => (k, node.toValue) :: Node.toValues rest

def Node.toTables : List (List (String × Node)) → List Value
  | [] => []
  | entries :: rest => .table (Node.toValues entries) :: Node.toTables rest

end

end Document
end Splice
