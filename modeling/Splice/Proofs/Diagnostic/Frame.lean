import Splice.Proofs.Diagnostic.Colours
import Splice.Proofs.Text.Digits

/-!
This module contains where the carets of a frame stand: under the characters of the source that the
span is about, whatever the number of the line and however the span is out of range.
-/

namespace Splice

namespace Text

theorem newline_notMem_of_mem_lines {cs line : List Char} (h : line ∈ lines cs) : '\n' ∉ line := by
  fun_induction lines cs generalizing line with
  | case1 => contradiction
  | case2 rest ih =>
    rcases List.mem_cons.1 h with rfl | h
    . exact List.not_mem_nil
    . exact ih h
  | case3 rest ih =>
    rcases List.mem_cons.1 h with rfl | h
    . exact List.not_mem_nil
    . exact ih h
  | case4 c rest hline hpair hnil ih =>
    obtain rfl := List.mem_singleton.1 h
    exact fun hmem => hline (List.mem_singleton.1 hmem).symm
  | case5 c rest hline hpair first others hcons ih =>
    rw [hcons] at ih
    rcases List.mem_cons.1 h with rfl | h
    . rw [List.mem_cons, not_or]
      exact ⟨Ne.symm hline, ih List.mem_cons_self⟩
    . exact ih (List.mem_cons_of_mem first h)

theorem subset_of_mem_lines {cs line : List Char} (h : line ∈ lines cs) : line ⊆ cs := by
  fun_induction lines cs generalizing line with
  | case1 => contradiction
  | case2 rest ih =>
    rcases List.mem_cons.1 h with rfl | h
    . exact List.nil_subset _
    . exact List.subset_cons_of_subset _ (ih h)
  | case3 rest ih =>
    rcases List.mem_cons.1 h with rfl | h
    . exact List.nil_subset _
    . exact List.subset_cons_of_subset _ (List.subset_cons_of_subset _ (ih h))
  | case4 c rest hline hpair hnil ih =>
    obtain rfl := List.mem_singleton.1 h
    exact List.cons_subset_cons c (List.nil_subset rest)
  | case5 c rest hline hpair first others hcons ih =>
    rw [hcons] at ih
    rcases List.mem_cons.1 h with rfl | h
    . exact List.cons_subset_cons c (ih List.mem_cons_self)
    . exact List.subset_cons_of_subset c (ih (List.mem_cons_of_mem first h))

end Text

namespace Diagnostic

/-! ## The rows of a frame -/

section

variable (coloured : Bool) (severity : Severity)

def topRow (number : Nat) : String :=
  if coloured then
    paint coloured .grey (repeated ' ' (toString number).length ++ " |")
  else
    "  |"

def numberMargin (number : Nat) : String :=
  paint coloured .grey (toString number ++ " |") ++ " "

def caretRow (number : Nat) (columns : Nat × Nat) : String :=
  paint coloured .grey (repeated ' ' (toString number).length ++ " |") ++ " "
    ++ repeated ' ' (columns.1 - 1)
    ++ paint coloured (caretColour severity) (repeated '^' (columns.2 - columns.1 + 1))

def remark : Option String → String
  | none => ""
  | some message => " " ++ paint coloured (messageColour severity) message

end

def line? (source : String) (span : Span) : Option (List Char) :=
  if span.start.line = 0 then none else (Text.lines source.toList)[span.start.line - 1]?

theorem line?_eq_none_iff {source : String} {span : Span} : line? source span = none ↔
    span.start.line = 0 ∨ (Text.lines source.toList).length < span.start.line := by
  unfold line?
  split
  . next h => simp [h]
  . next h =>
    rw [List.getElem?_eq_none_iff]
    omega

theorem mem_lines_of_line? {source : String} {span : Span} {line : List Char}
    (h : line? source span = some line) : line ∈ Text.lines source.toList := by
  unfold line? at h
  split at h
  . contradiction
  . exact List.mem_of_getElem? h

theorem frame_eq (coloured : Bool) (severity : Severity) (source : String) (span : Span)
    (message? : Option String) :
    frame coloured severity source span message? =
      match line? source span with
      | none => ""
      | some line =>
        topRow coloured span.start.line ++ "\n"
          ++ (numberMargin coloured span.start.line ++ String.ofList line) ++ "\n"
          ++ (caretRow coloured severity span.start.line (caretColumns line.length span)
            ++ remark coloured severity message?) ++ "\n" := by
  unfold frame line?
  split
  . rfl
  . cases (Text.lines source.toList)[span.start.line - 1]? with
    | none => rfl
    | some line =>
      unfold topRow numberMargin caretRow remark
      cases message? <;> simp only [String.append_assoc]

/-! ## The columns of the carets -/

namespace Frame

def firstColumn (length : Nat) (span : Span) : Nat :=
  min (max span.start.column 1) (length + 1)

def lastColumn (length : Nat) (span : Span) : Nat :=
  if span.start.line = span.stop.line then
    max (firstColumn length span) (min span.stop.column (max length (firstColumn length span)))
  else
    firstColumn length span

end Frame

theorem caretColumns_eq (length : Nat) (span : Span) :
    caretColumns length span = (Frame.firstColumn length span, Frame.lastColumn length span) := by
  unfold caretColumns Frame.lastColumn Frame.firstColumn
  dsimp only
  split <;> split <;> congr 1 <;> omega

theorem toList_repeated (c : Char) (n : Nat) : (repeated c n).toList = List.replicate n c :=
  String.toList_ofList

/-! ## What is seen of the rows -/

theorem notMem_toString {c : Char} (hc : c.isDigit = false) (n : Nat) :
    c ∉ (toString n).toList := by
  intro h
  rw [Text.isDigit_of_mem_toString h] at hc
  contradiction

theorem notMem_repeated {c d : Char} (hcd : c ≠ d) (n : Nat) : d ∉ (repeated c n).toList := by
  rw [toList_repeated, List.mem_replicate]
  exact fun h => hcd h.2.symm

theorem notMem_append {c : Char} {s t : String} :
    c ∉ (s ++ t).toList ↔ c ∉ s.toList ∧ c ∉ t.toList := by
  rw [String.toList_append, List.mem_append, not_or]

theorem notMem_gutter {c : Char} (hc : c ∉ " |".toList) {text : String} (h : c ∉ text.toList) :
    c ∉ (text ++ " |").toList :=
  notMem_append.2 ⟨h, hc⟩

theorem shows_margin (coloured : Bool) {text : String} (h : '\x1b' ∉ text.toList) :
    Shows (paint coloured .grey (text ++ " |") ++ " ").toList (text.toList ++ " | ".toList) := by
  have hbar := notMem_gutter (by decide) h
  have hblank : '\x1b' ∉ " ".toList := by decide
  have hshows := (Shows.paint coloured .grey hbar).append (.plain hblank)
  rwa [String.toList_append, List.append_assoc, ← String.toList_append] at hshows

theorem shows_numberMargin (coloured : Bool) (number : Nat) :
    Shows (numberMargin coloured number).toList ((toString number).toList ++ " | ".toList) :=
  shows_margin coloured (notMem_toString (by decide) number)

theorem shows_caretRow (coloured : Bool) (severity : Severity) (number : Nat)
    (columns : Nat × Nat) : Shows (caretRow coloured severity number columns).toList
      (List.replicate (toString number).length ' ' ++ " | ".toList ++
        List.replicate (columns.1 - 1) ' ' ++ List.replicate (columns.2 - columns.1 + 1) '^') := by
  have hblank : ' ' ≠ '\x1b' := by decide
  have hcaret : '^' ≠ '\x1b' := by decide
  have hmargin := shows_margin coloured (notMem_repeated hblank (toString number).length)
  have hblanks := Shows.plain (notMem_repeated hblank (columns.1 - 1))
  have hcarets := Shows.paint coloured (caretColour severity)
    (notMem_repeated hcaret (columns.2 - columns.1 + 1))
  have hshows := (hmargin.append hblanks).append hcarets
  simp only [toList_repeated] at hshows
  unfold caretRow
  rwa [String.toList_append, String.toList_append, toList_repeated]

theorem newline_notMem_paint (coloured : Bool) (colour : Colour) {text : String}
    (h : '\n' ∉ text.toList) : '\n' ∉ (paint coloured colour text).toList := by
  unfold paint
  split
  . have hsequence : '\n' ∉ colour.sequence.toList := by cases colour <;> decide
    have hreset : '\n' ∉ Colour.reset.toList := by decide
    rw [notMem_append, notMem_append]
    exact ⟨⟨hsequence, h⟩, hreset⟩
  . exact h

theorem getElem?_cells (margin : List Char) {first last : Nat} (hfirst : 1 ≤ first)
    (hlast : first ≤ last) {column : Nat} (hcolumn : 1 ≤ column) :
    (margin ++ List.replicate (first - 1) ' ' ++ List.replicate (last - first + 1) '^')[
        margin.length + column - 1]? =
      if column < first then some ' ' else if column ≤ last then some '^' else none := by
  have hindex : margin.length + column - 1 - margin.length = column - 1 := by omega
  rw [List.append_assoc, List.getElem?_append_right (by omega), hindex, List.getElem?_append,
    List.length_replicate, List.getElem?_replicate, List.getElem?_replicate]
  by_cases hblank : column < first
  . have hin : column - 1 < first - 1 := by omega
    rw [if_pos hin, if_pos hin, if_pos hblank]
  . have hout : ¬column - 1 < first - 1 := by omega
    have hcaret : column - 1 - (first - 1) < last - first + 1 ↔ column ≤ last := by omega
    rw [if_neg hout, if_neg hblank]
    simp only [hcaret]

/-! ## The frame -/

theorem newline_notMem_topRow (coloured : Bool) (number : Nat) :
    '\n' ∉ (topRow coloured number).toList := by
  unfold topRow
  split
  . apply newline_notMem_paint
    exact notMem_gutter (by decide) (notMem_repeated (by decide) _)
  . decide

theorem newline_notMem_numberMargin (coloured : Bool) (number : Nat) :
    '\n' ∉ (numberMargin coloured number).toList := by
  unfold numberMargin
  rw [notMem_append]
  refine ⟨newline_notMem_paint coloured .grey ?_, by decide⟩
  exact notMem_gutter (by decide) (notMem_toString (by decide) number)

theorem newline_notMem_caretRow (coloured : Bool) (severity : Severity) (number : Nat)
    (columns : Nat × Nat) : '\n' ∉ (caretRow coloured severity number columns).toList := by
  unfold caretRow
  have hblanks (n : Nat) : '\n' ∉ (repeated ' ' n).toList := notMem_repeated (by decide) n
  have hcarets (n : Nat) : '\n' ∉ (repeated '^' n).toList := notMem_repeated (by decide) n
  simp only [notMem_append, and_assoc]
  refine ⟨?_, by decide, hblanks _, newline_notMem_paint coloured _ (hcarets _)⟩
  exact newline_notMem_paint coloured .grey (notMem_gutter (by decide) (hblanks _))

/--
The text has three rows: one above the given line of the source, this line behind a margin, and one
that ends with a remark. In the last one, up to the remark, carets are seen exactly in the cells of
the columns from `first` to `last` of the line, with blanks in the cells of the columns in front.
-/
def Underlines (line : List Char) (first last : Nat) (remark text : String) : Prop :=
  ∃ top margin carets seen,
    text = top ++ "\n" ++ (margin ++ String.ofList line) ++ "\n" ++ (carets ++ remark) ++ "\n" ∧
    '\n' ∉ top.toList ∧ '\n' ∉ margin.toList ∧ '\n' ∉ line ∧ '\n' ∉ carets.toList ∧
    Shows margin.toList seen ∧ '^' ∉ (withoutColours carets.toList).take seen.length ∧
    ∀ column, 1 ≤ column → (withoutColours carets.toList)[seen.length + column - 1]? =
      if column < first then some ' ' else if column ≤ last then some '^' else none

/--
A frame is drawn exactly if the source has the line in which the span starts. It shows this line as
it is, with carets below the columns that the span is about and nowhere else.
-/
theorem frame_carets (coloured : Bool) (severity : Severity) (source : String) (span : Span)
    (message? : Option String) :
    (frame coloured severity source span message? = "" ↔
      span.start.line = 0 ∨ (Text.lines source.toList).length < span.start.line) ∧
    ∀ line, span.start.line ≠ 0 →
      (Text.lines source.toList)[span.start.line - 1]? = some line →
      Underlines line (Frame.firstColumn line.length span) (Frame.lastColumn line.length span)
        (remark coloured severity message?) (frame coloured severity source span message?) := by
  rw [frame_eq, ← line?_eq_none_iff]
  constructor
  . cases line? source span <;> simp
  . intro line hstart hline
    have hline? : line? source span = some line := by
      unfold line?
      rwa [if_neg hstart]
    have hshown := shows_caretRow coloured severity span.start.line (caretColumns line.length span)
    have hwidth : ((toString span.start.line).toList ++ " | ".toList).length =
        (List.replicate (toString span.start.line).length ' ' ++ " | ".toList).length := by
      rw [List.length_append, List.length_append, List.length_replicate, String.length_toList]
    rw [hline?]
    refine ⟨_, _, _, _, rfl, newline_notMem_topRow _ _, newline_notMem_numberMargin _ _,
      Text.newline_notMem_of_mem_lines (mem_lines_of_line? hline?), newline_notMem_caretRow _ _ _ _,
      shows_numberMargin _ _, ?_⟩
    rw [hshown.withoutColours_eq, caretColumns_eq, hwidth]
    constructor
    . rw [List.append_assoc, List.take_left]
      simp
    . intro column hcolumn
      apply getElem?_cells _ _ _ hcolumn
      . unfold Frame.firstColumn
        omega
      . unfold Frame.lastColumn
        split <;> omega

/--
A span that starts behind the end of the tenth line and ends on a later one: a caret stands behind
the line, below a number of two digits.
-/
theorem frame_carets_tenth :
    10 ≠ 0 ∧ (Text.lines "\n\n\n\n\n\n\n\n\n\tx\r\nz".toList)[10 - 1]? = some ['\t', 'x'] ∧
    Underlines ['\t', 'x'] 3 3 (remark true .error (some "m"))
      (frame true .error "\n\n\n\n\n\n\n\n\n\tx\r\nz" ⟨⟨10, 7⟩, ⟨11, 1⟩⟩ (some "m")) := by
  have hline : (Text.lines "\n\n\n\n\n\n\n\n\n\tx\r\nz".toList)[10 - 1]? = some ['\t', 'x'] := by
    decide
  have hcarets := (frame_carets true .error _ ⟨⟨10, 7⟩, ⟨11, 1⟩⟩ (some "m")).2 _ (by decide) hline
  exact ⟨by decide, hline, hcarets⟩

end Diagnostic
end Splice
