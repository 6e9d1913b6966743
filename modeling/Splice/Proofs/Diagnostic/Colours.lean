import Splice.Diagnostic.Render

/-!
This module contains what a reader sees of a coloured text: the text without the control sequences
that a terminal takes for colours.
-/

namespace Splice
namespace Diagnostic

def isColourParameter (c : Char) : Bool :=
  c.isDigit || c = ';'

/--
What comes behind the control sequence for a colour that the text begins with: an escape character,
an opening bracket, parameters and an `m`.
-/
def behindColour? : List Char → Option (List Char)
  | '\x1b' :: '[' :: cs =>
    match cs.dropWhile isColourParameter with
    | 'm' :: rest => some rest
    | _ => none
  | _ => none

theorem length_behindColour? {cs rest : List Char} (h : behindColour? cs = some rest) :
    rest.length < cs.length := by
  unfold behindColour? at h
  split at h
  . next cs =>
    split at h
    . next rest' hdrop =>
      have hle := (List.dropWhile_sublist (l := cs) isColourParameter).length_le
      rw [hdrop] at hle
      cases h
      simp only [List.length_cons] at hle ⊢
      omega
    . contradiction
  . contradiction

def withoutColours : List Char → List Char
  | [] => []
  | c :: cs =>
    match _h : behindColour? (c :: cs) with
    | some rest => withoutColours rest
    | none => c :: withoutColours cs
termination_by cs => cs.length
decreasing_by
  . exact length_behindColour? _h
  . simp

theorem withoutColours_nil : withoutColours [] = [] := by
  unfold withoutColours
  rfl

theorem withoutColours_cons {c : Char} (hc : c ≠ '\x1b') (cs : List Char) :
    withoutColours (c :: cs) = c :: withoutColours cs := by
  have hnone : behindColour? (c :: cs) = none := by
    unfold behindColour?
    split
    . next h => cases h; contradiction
    . rfl
  rw [withoutColours]
  split
  . next h => rw [hnone] at h; contradiction
  . rfl

theorem withoutColours_of_behindColour? {cs rest : List Char} (h : behindColour? cs = some rest) :
    withoutColours cs = withoutColours rest := by
  cases cs with
  | nil => contradiction
  | cons c cs =>
    rw [withoutColours]
    split
    . next h' => rw [h] at h'; cases h'; rfl
    . next h' => rw [h] at h'; contradiction

/--
Wherever the text `s` stands, what is seen of it is `t`.
-/
def Shows (s t : List Char) : Prop :=
  ∀ rest, withoutColours (s ++ rest) = t ++ withoutColours rest

namespace Shows

theorem withoutColours_eq {s t : List Char} (h : Shows s t) : withoutColours s = t := by
  have := h []
  rwa [withoutColours_nil, List.append_nil, List.append_nil] at this

theorem append {s s' t t' : List Char} (h : Shows s t) (h' : Shows s' t') :
    Shows (s ++ s') (t ++ t') := by
  intro rest
  rw [List.append_assoc, h, h', List.append_assoc]

theorem plain {cs : List Char} (h : '\x1b' ∉ cs) : Shows cs cs := by
  intro rest
  induction cs with
  | nil => rfl
  | cons c cs ih =>
    rw [List.mem_cons, not_or] at h
    rw [List.cons_append, withoutColours_cons (Ne.symm h.1), ih h.2, List.cons_append]

theorem sequence (colour : Colour) : Shows colour.sequence.toList [] := by
  intro rest
  apply withoutColours_of_behindColour?
  cases colour <;> rfl

theorem reset : Shows Colour.reset.toList [] := by
  intro rest
  apply withoutColours_of_behindColour?
  rfl

theorem paint (coloured : Bool) (colour : Colour) {text : String} (h : '\x1b' ∉ text.toList) :
    Shows (paint coloured colour text).toList text.toList := by
  unfold Diagnostic.paint
  split
  . rw [String.toList_append, String.toList_append]
    have := ((sequence colour).append (plain h)).append reset
    rwa [List.nil_append, List.append_nil] at this
  . exact plain h

end Shows
end Diagnostic
end Splice
