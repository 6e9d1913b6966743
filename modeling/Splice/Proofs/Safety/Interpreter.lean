import Splice.Analysis.Word
import Splice.Dialect

/-!
This module contains an interpreter that notices what makes no sense: the use of a name that is not
bound, a call with the wrong number of arguments, and an expression with the wrong number of values.
The scopes of a run are those that the program is written with. A function knows the functions
around its definition, but none of the variables around it other than those of the host.
-/

namespace Splice
namespace Safety

inductive Effect (State Value : Type) where
  | returns (values : List Value) (state : State)
  | halts (state : State)

structure Interpretation where
  Value : Type
  State : Type
  [decEq : DecidableEq Value]
  zero : Value
  literal : Literal → Value
  execute : String → List Value → State → Effect State Value

instance (m : Interpretation) : DecidableEq m.Value := m.decEq

/--
With as many arguments as the table of the instructions says, an instruction has as many results as
the table says, or it halts the run.
-/
def Interpretation.Fits (m : Interpretation) : Prop :=
  ∀ (name : String) (i : Instruction) (arguments : List m.Value) (state : m.State),
    Instruction.find? name = some i → arguments.length = i.arguments →
      match m.execute name arguments state with
      | .returns values _ => values.length = i.returns
      | .halts _ => True

def Interpretation.zeros : Interpretation where
  Value := Nat
  State := Unit
  zero := 0
  literal l := l.value?.getD 0
  execute name _ _ := .returns (List.replicate (((Instruction.find? name).map (·.returns)).getD 0) 0) ()

theorem Interpretation.zeros_fits : zeros.Fits := by
  intro name i _ _ hi _
  simp [zeros, hi]

inductive Fault where
  | unbound (name : String)
  | undefined (name : String)
  | argumentCount (name : String)
  | valueCount
  | stackForm
deriving DecidableEq

structure World (m : Interpretation) where
  state : m.State
  host : String → Option m.Value

inductive Stop (m : Interpretation) where
  | halted (world : World m)
  | exhausted
  | stuck (fault : Fault)

abbrev Locals (m : Interpretation) := List (List (String × m.Value))

structure Memory (m : Interpretation) where
  locals : Locals m
  world : World m

abbrev Run (m : Interpretation) := StateT (Memory m) (Except (Stop m))

abbrev Functions := List (List Function)

variable {m : Interpretation}

/-! ## Names -/

namespace Locals

def read? (x : String) (locals : Locals m) : Option m.Value :=
  locals.findSome? fun scope => scope.lookup x

def declare (x : String) (v : m.Value) : Locals m → Locals m
  | [] => [[(x, v)]]
  | scope :: outer => ((x, v) :: scope) :: outer

def assign? (x : String) (v : m.Value) : Locals m → Option (Locals m)
  | [] => none
  | scope :: outer =>
    match scope.lookup x with
    | some _ => some (scope.map (fun (y, w) => if y = x then (y, v) else (y, w)) :: outer)
    | none => (assign? x v outer).map (scope :: ·)

end Locals

def Functions.find? (name : String) : Functions → Option (Function × Functions)
  | [] => none
  | scope :: outer =>
    match scope.find? fun f => f.name = name with
    | some f => some (f, scope :: outer)
    | none => Functions.find? name outer

def definitions : List Stmt → List Function
  | [] => []
  | .function f :: ss => f :: definitions ss
  | _ :: ss => definitions ss

namespace Run

/-! ## Single steps -/

def stuck {α : Type} (fault : Fault) : Run m α :=
  throw (.stuck fault)

def one : List m.Value → Run m m.Value
  | [v] => return v
  | _ => stuck .valueCount

def nothing : List m.Value → Run m Unit
  | [] => return
  | _ => stuck .valueCount

def read (x : String) : Run m m.Value := do
  let μ ← get
  match (μ.locals.read? x).or (μ.world.host x) with
  | some v => return v
  | none => stuck (.unbound x)

def readAll : List Binder → Run m (List m.Value)
  | [] => return []
  | x :: xs => return (← read x.name) :: (← readAll xs)

def declare (x : String) (v : m.Value) : Run m Unit :=
  modify fun μ => { μ with locals := μ.locals.declare x v }

def declareAll (fault : Fault) : List Binder → List m.Value → Run m Unit
  | [], [] => return
  | x :: xs, v :: vs => do
    declare x.name v
    declareAll fault xs vs
  | _, _ => stuck fault

def declareZeros : List Binder → Run m Unit
  | [] => return
  | x :: xs => do
    declare x.name m.zero
    declareZeros xs

def assign (x : String) (v : m.Value) : Run m Unit := do
  let μ ← get
  match μ.locals.assign? x v, μ.world.host x with
  | some locals, _ => set { μ with locals }
  | none, some _ =>
    set { μ with world := { μ.world with host := fun y => if y = x then some v else μ.world.host y } }
  | none, none => stuck (.unbound x)

def assignAll : List Identifier → List m.Value → Run m Unit
  | [], [] => return
  | i :: is, v :: vs => do
    assign i.name v
    assignAll is vs
  | _, _ => stuck .valueCount

def inScope (body : Run m Unit) : Run m Unit := do
  modify fun μ => { μ with locals := [] :: μ.locals }
  body
  modify fun μ => { μ with locals := μ.locals.tail }

def inFrame {α : Type} (body : Run m α) : Run m α := do
  let locals := (← get).locals
  modify fun μ => { μ with locals := [[]] }
  let a ← body
  modify fun μ => { μ with locals }
  return a

def instruction (name : String) (arguments : List m.Value) : Run m (List m.Value) := do
  match Instruction.find? name with
  | none => stuck (.undefined name)
  | some i =>
    if arguments.length = i.arguments then
      let μ ← get
      match m.execute name arguments μ.world.state with
      | .returns vs state =>
        set { μ with world := { μ.world with state } }
        return vs
      | .halts state => throw (.halted { μ.world with state })
    else
      stuck (.argumentCount name)

end Run

def chosen? (v : m.Value) (arms : List Case) : Option Block :=
  let arm? := arms.find? fun arm => arm.value.any fun l => m.literal l = v
  (arm?.or (arms.find? fun arm => arm.value.isNone)).map Case.body

/-! ## Programs -/

open Run

mutual

/--
The values of an expression. Here and below, the number bounds the steps: it is how many of them may
be within each other. A statement is within the one in front of it, and a round of a loop is within
the round in front of it, so a run with no more steps than the bound always comes to its end.
-/
def evalExpr : Nat → Functions → Expr → Run m (List m.Value)
  | 0, _, _ => throw .exhausted
  | _ + 1, _, .literal l => return [m.literal l]
  | _ + 1, _, .identifier i => return [← read i.name]
  | n + 1, fs, .call _ callee arguments => do
    let vs ← evalArguments n fs arguments
    match fs.find? callee.name with
    | some (f, inner) => invoke n inner f vs
    | none => stuck (.undefined callee.name)
  | n + 1, fs, .instruction _ name arguments => do instruction name (← evalArguments n fs arguments)

def evalArguments : Nat → Functions → List Expr → Run m (List m.Value)
  | 0, _, _ => throw .exhausted
  | _ + 1, _, [] => return []
  | n + 1, fs, e :: es => do
    let vs ← evalArguments n fs es
    let v ← one (← evalExpr n fs e)
    return v :: vs

def invoke : Nat → Functions → Function → List m.Value → Run m (List m.Value)
  | 0, _, _, _ => throw .exhausted
  | n + 1, fs, f, arguments =>
    inFrame do
      declareAll (.argumentCount f.name) f.parameters arguments
      declareZeros f.returns
      execBlock n fs f.body
      readAll f.returns

def execStmt : Nat → Functions → Stmt → Run m Unit
  | 0, _, _ => throw .exhausted
  | n + 1, fs, .expression e => do nothing (← evalExpr n fs e)
  | _ + 1, _, .declaration _ vars none => declareZeros vars
  | n + 1, fs, .declaration _ vars (some value) => do
    declareAll .valueCount vars (← evalExpr n fs value)
  | n + 1, fs, .assignment _ targets value => do assignAll targets (← evalExpr n fs value)
  | n + 1, fs, .conditional _ condition body => do
    if (← one (← evalExpr n fs condition)) = m.zero then return else execBlock n fs body
  | n + 1, fs, .switch _ subject arms => do
    match chosen? (← one (← evalExpr n fs subject)) arms with
    | some body => execBlock n fs body
    | none => return
  | n + 1, fs, .loop _ ⟨_, pre⟩ condition post body =>
    inScope do
      execStmts n (definitions pre :: fs) pre
      execRounds n (definitions pre :: fs) condition post body
  | _ + 1, _, .function _ => return
  | n + 1, fs, .block b => execBlock n fs b
  | _ + 1, _, .stack _ => stuck .stackForm

def execStmts : Nat → Functions → List Stmt → Run m Unit
  | 0, _, _ => throw .exhausted
  | _ + 1, _, [] => return
  | n + 1, fs, s :: ss => do
    execStmt n fs s
    execStmts n fs ss

def execRounds : Nat → Functions → Expr → Block → Block → Run m Unit
  | 0, _, _, _, _ => throw .exhausted
  | n + 1, fs, condition, post, body => do
    if (← one (← evalExpr n fs condition)) = m.zero then
      return
    else
      execBlock n fs body
      execBlock n fs post
      execRounds n fs condition post body

def execBlock : Nat → Functions → Block → Run m Unit
  | 0, _, _ => throw .exhausted
  | n + 1, fs, ⟨_, ss⟩ => inScope (execStmts n (definitions ss :: fs) ss)

end

def run (b : Block) (bound : Nat) (start : World m) : Except (Stop m) (World m) :=
  (fun (_, μ) => μ.world) <$> execBlock bound [] b ⟨[], start⟩

/--
Outside of the loop, the variable of the loop is not bound.
-/
example :
    (run (m := Interpretation.zeros) ⟨.none, [.loop .none ⟨.none, [.declaration .none
      [⟨.none, "i", none⟩] none]⟩ (.identifier ⟨.none, "i"⟩) ⟨.none, []⟩ ⟨.none, []⟩,
      .expression (.instruction .none "pop" [.identifier ⟨.none, "i"⟩])]⟩ 20 ⟨(), fun _ => none⟩ matches
      .error (.stuck (.unbound "i"))) = true := by
  rfl

end Safety
end Splice
