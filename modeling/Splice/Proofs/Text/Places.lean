import Mathlib.Data.List.Induction
import Splice.Span

/-!
This module contains the places of a text as they are counted in it, and that the places which are
carried along from one character to the next are these.
-/

namespace Splice
namespace Position

/--
The place behind the characters `cs`, with which a text begins. A line begins behind each line feed,
and a column is a character of it.
-/
def behind (cs : List Char) : Position :=
  ⟨cs.count '\n' + 1, (cs.reverse.takeWhile (· ≠ '\n')).length + 1⟩

theorem behind_concat (cs : List Char) (c : Char) : behind (cs ++ [c]) = (behind cs).next c := by
  unfold behind next
  rw [List.count_append, List.reverse_append]
  split
  . next h => simp [h]
  . next h => simp [h]

theorem first_after (cs : List Char) : first.after cs = behind cs := by
  induction cs using List.reverseRecOn with
  | nil => rfl
  | append_singleton cs c ih =>
    rw [after_append, ih, behind_concat]
    rfl

theorem back_behind {c : Char} (hc : c ≠ '\n') (cs : List Char) :
    (behind (cs ++ [c])).back = behind cs := by
  rw [behind_concat]
  unfold next
  rw [if_neg hc]
  unfold back behind
  simp

theorem back_behind_newline (cs : List Char) :
    (behind (cs ++ ['\n'])).back = behind (cs ++ ['\n']) := by
  rw [behind_concat]
  rfl

end Position

/--
The span of the characters `cs` that stand in a text behind the characters `before`: the places of
the first and of the last one.
-/
def Span.covering (before cs : List Char) : Span :=
  ⟨.behind before, .behind (before ++ cs.dropLast)⟩

theorem Span.covering_eq {before cs : List Char} (hne : cs ≠ []) (hline : '\n' ∉ cs) :
    covering before cs =
      ⟨Position.first.after before, ((Position.first.after before).after cs).back⟩ := by
  unfold covering
  rw [← Position.after_append, Position.first_after, Position.first_after]
  congr 1
  have hlast : cs = cs.dropLast ++ [cs.getLast hne] := (List.dropLast_concat_getLast hne).symm
  have hc : cs.getLast hne ≠ '\n' := fun h => hline (h ▸ List.getLast_mem hne)
  conv_rhs => rw [hlast, ← List.append_assoc, Position.back_behind hc]

end Splice
