import Splice.Pass.Failure

/-!
This module contains what the optimiser reports while it runs. A computation that reports events
keeps them when it fails.
-/

namespace Splice

inductive Event where
  | renamed (before after : String)
  | disambiguated (bindings renamed : Nat)
  | callInlined (callee : String) (line : Nat)
  | inliningFinished (inlined hoisted : Nat)
  | inliningStepDone (inlined : Nat)
  | timed (label : String)
deriving DecidableEq, Repr

inductive EventLevel where
  | trace
  | debug
  | info
deriving DecidableEq, Repr

namespace Event

def level : Event → EventLevel
  | renamed .. => .trace
  | disambiguated .. => .debug
  | callInlined .. => .trace
  | inliningFinished .. => .debug
  | inliningStepDone _ => .debug
  | timed _ => .info

def message : Event → String
  | renamed .. => "renamed binding"
  | disambiguated .. => "disambiguation finished"
  | callInlined .. => "inlined call"
  | inliningFinished .. => "full inlining finished"
  | inliningStepDone _ => "inlining step done"
  | timed _ => "optimiser timing"

end Event

/--
The result of a computation and what it reported until then.
-/
structure Traced (α : Type) where
  events : List Event
  result : Except Failure α

namespace Traced

variable {α β : Type}

def bind (x : Traced α) (f : α → Traced β) : Traced β :=
  match x.result with
  | .ok a =>
    let y := f a
    ⟨x.events ++ y.events, y.result⟩
  | .error e => ⟨x.events, .error e⟩

instance : Monad Traced where
  pure a := ⟨[], .ok a⟩
  bind := bind

def ofExcept (x : Except Failure α) : Traced α :=
  ⟨[], x⟩

def report (e : Event) : Traced Unit :=
  ⟨[e], .ok ()⟩

end Traced
end Splice
