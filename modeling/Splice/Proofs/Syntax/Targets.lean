import Splice.Proofs.Syntax.Parsed
import Splice.Proofs.Tree.Parts

/-!
This module contains the proof that no source text has an assignment without a target.
-/

namespace Splice

def Targeted (assignments : List (List Identifier)) : Prop :=
  ∀ targets ∈ assignments, targets ≠ []

theorem targeted_append {a b : List (List Identifier)} :
    Targeted (a ++ b) ↔ Targeted a ∧ Targeted b :=
  List.forall_mem_append

theorem targeted_nil : Targeted [] :=
  List.forall_mem_nil _

theorem targeted_singleton {targets : List Identifier} : Targeted [targets] ↔ targets ≠ [] :=
  List.forall_mem_singleton

variable {d : Dialect}

theorem Identifier.AllTargets.ne_nil {targets : List Identifier}
    (h : Identifier.AllTargets d targets) : targets ≠ [] := by
  rintro rfl
  exact h

mutual

theorem Stmt.Legible.targeted : {s : Stmt} → s.Legible d → Targeted s.assignments
  | .expression _, _ => targeted_nil
  | .declaration .., _ => targeted_nil
  | .assignment .., h => targeted_singleton.2 h.1.ne_nil
  | .conditional .., h => Block.Legible.targeted h.2
  | .switch .., h => Case.AllLegible.targeted h.2.1
  | .loop .., h =>
    targeted_append.2 ⟨targeted_append.2 ⟨Block.Legible.targeted h.1,
      Block.Legible.targeted h.2.2.1⟩, Block.Legible.targeted h.2.2.2⟩
  | .function ⟨_, _⟩, h => Block.Legible.targeted h.2
  | .block _, h => Block.Legible.targeted h
  | .stack (.label ..), _ => targeted_nil
  | .stack (.assignment ..), _ => targeted_singleton.2 (List.cons_ne_nil _ _)
  | .stack (.instruction ..), _ => targeted_nil

theorem Stmt.AllLegible.targeted :
    {ss : List Stmt} → Stmt.AllLegible d ss → Targeted (Stmt.allAssignments ss)
  | [], _ => targeted_nil
  | _ :: _, h => targeted_append.2 ⟨Stmt.Legible.targeted h.1, Stmt.AllLegible.targeted h.2⟩

theorem Block.Legible.targeted : {b : Block} → b.Legible d → Targeted b.assignments
  | ⟨_, _⟩, h => Stmt.AllLegible.targeted h

theorem Case.AllLegible.targeted :
    {cs : List Case} → Case.AllLegible d cs → Targeted (Case.allAssignments cs)
  | [], _ => targeted_nil
  | ⟨_, _, _⟩ :: _, h =>
    targeted_append.2 ⟨Block.Legible.targeted h.2.1, Case.AllLegible.targeted h.2.2⟩

end

theorem targeted_of_parse {source : String} {b : Block} (h : parse d source = .ok b) :
    Targeted b.assignments :=
  (legible_of_parse h).1.targeted

end Splice
