import Splice.Dialect
import Splice.Tree.Basic

/-!
This module contains what a program runs on: a host machine that carries out its instructions, the
variables, and the functions that are visible.
-/

namespace Splice

inductive Effect (State Value : Type) where
  | returns (values : List Value) (state : State)
  | halts (state : State)

/--
An interpretation of the literals and the instructions. A movable instruction has nothing but its
arguments to compute its value from, and does nothing else.
-/
structure Machine where
  Value : Type
  State : Type
  [decEq : DecidableEq Value]
  literal : LiteralKind → String → Value
  compute : String → List Value → Value
  execute : String → List Value → State → Effect State Value

namespace Machine

instance (m : Machine) : DecidableEq m.Value := m.decEq

def zero (m : Machine) : m.Value := m.literal .number "0"

end Machine

structure World (m : Machine) where
  state : m.State
  host : String → m.Value
  /--
  The instructions that were executed so far, the movable ones aside, each with its arguments.
  -/
  trace : List (String × List m.Value)

abbrev Locals (m : Machine) := String → Option m.Value

structure Memory (m : Machine) where
  locals : Locals m
  world : World m

/--
What part of a run comes to: nothing if it goes on for longer than is waited for or makes no sense,
an error if an instruction halts the run.
-/
abbrev Result (m : Machine) := ExceptT (World m) Option

abbrev Run (m : Machine) := StateT (Memory m) (Result m)

abbrev Calls (m : Machine) := String → List m.Value → World m → Result m (List m.Value × World m)

variable {m : Machine}

/-! ## Variables -/

namespace Memory

def read (μ : Memory m) (x : String) : m.Value :=
  (μ.locals x).getD (μ.world.host x)

def declare (μ : Memory m) (x : String) (v : m.Value) : Memory m :=
  { μ with locals := fun y => if y = x then some v else μ.locals y }

def assign (μ : Memory m) (x : String) (v : m.Value) : Memory m :=
  if (μ.locals x).isSome then
    μ.declare x v
  else
    { μ with world := { μ.world with host := fun y => if y = x then v else μ.world.host y } }

def leave (μ : Memory m) (entry : Locals m) : Memory m :=
  { μ with locals := fun x => if (entry x).isSome then μ.locals x else none }

end Memory

namespace Run

def stuck {α : Type} : Run m α := fun _ => none

def one : List m.Value → Run m m.Value
  | [v] => return v
  | _ => stuck

def nothing : List m.Value → Run m Unit
  | [] => return
  | _ => stuck

def read (x : String) : Run m m.Value :=
  return (← get).read x

def declare (x : String) (v : m.Value) : Run m Unit :=
  modify fun μ => μ.declare x v

def declareAll : List Binder → List m.Value → Run m Unit
  | [], [] => return
  | x :: xs, v :: vs => do
    declare x.name v
    declareAll xs vs
  | _, _ => stuck

def declareZeros (xs : List Binder) : Run m Unit :=
  declareAll xs (xs.map fun _ => m.zero)

def assign (x : String) (v : m.Value) : Run m Unit :=
  modify fun μ => μ.assign x v

def assignAll : List Identifier → List m.Value → Run m Unit
  | [], [] => return
  | i :: is, v :: vs => do
    assign i.name v
    assignAll is vs
  | _, _ => stuck

def readAll : List Binder → Run m (List m.Value)
  | [] => return []
  | x :: xs => return (← read x.name) :: (← readAll xs)

def inScope (body : Run m Unit) : Run m Unit := do
  let entry := (← get).locals
  body
  modify fun μ => μ.leave entry

def rounds (condition : Run m m.Value) (step : Run m Unit) : Nat → Run m Unit
  | 0 => stuck
  | n + 1 => do
    if (← condition) = m.zero then
      return
    else
      step
      rounds condition step n

/-! ## Calls -/

def instruction (name : String) (arguments : List m.Value) : Run m (List m.Value) := fun μ =>
  if (Instruction.find? name).any Instruction.movable then
    return ([m.compute name arguments], μ)
  else
    let trace := μ.world.trace ++ [(name, arguments)]
    match m.execute name arguments μ.world.state with
    | .returns vs state => return (vs, { μ with world := { μ.world with state, trace } })
    | .halts state => throw { μ.world with state, trace }

def call (calls : Calls m) (name : String) (arguments : List m.Value) : Run m (List m.Value) :=
  fun μ => do
    let (vs, world) ← calls name arguments μ.world
    return (vs, { μ with world })

def frame (f : Signature) (body : Run m Unit) (arguments : List m.Value) :
    Run m (List m.Value) := do
  declareAll f.parameters arguments
  declareZeros f.returns
  body
  readAll f.returns

def invoke (f : Signature) (body : Run m Unit) (arguments : List m.Value) (world : World m) :
    Result m (List m.Value × World m) := do
  let (vs, μ) ← frame f body arguments ⟨fun _ => none, world⟩
  return (vs, μ.world)

end Run

namespace Calls

def empty : Calls m := fun _ _ _ => none

abbrev Closure (m : Machine) :=
  String × (Calls m → List m.Value → World m → Result m (List m.Value × World m))

def define (closures : List (Closure m)) (outer : Calls m) : Nat → Calls m
  | 0 => fun name =>
    match closures.lookup name with
    | some _ => fun _ _ => none
    | none => outer name
  | n + 1 => fun name =>
    match closures.lookup name with
    | some f => f (define closures outer n)
    | none => outer name

section

variable {closures : List (Closure m)} {outer : Calls m} {name : String}

theorem define_of_lookup (h : closures.lookup name = none) (n : Nat) :
    define closures outer n name = outer name := by
  cases n with
  | zero =>
    unfold define
    rw [h]
  | succ n =>
    unfold define
    rw [h]

theorem define_zero_of_lookup {F} (h : closures.lookup name = some F) :
    define closures outer 0 name = fun _ _ => none := by
  unfold define
  rw [h]

theorem define_succ_of_lookup {F} (h : closures.lookup name = some F) (n : Nat) :
    define closures outer (n + 1) name = F (define closures outer n) := by
  conv => lhs; unfold define
  rw [h]

end

end Calls
end Splice
