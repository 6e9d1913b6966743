import Mathlib.Algebra.GroupWithZero.Nat
import Splice.Proofs.Diagnostic.Frame
import Splice.Proofs.Syntax.Layout

/-!
This module contains how much the coloured and the plain form of diagnostics have in common. Without
the colours they are the same text, but for the row above a line of the source: in the plain form it
is as wide as it has to be for a number of one digit.
-/

namespace Splice
namespace Diagnostic

/--
The text `s` is the text `t`, but for `n` more blanks. They are in rows that hold nothing but blanks
and a bar.
-/
inductive Widens : Nat → List Char → List Char → Prop where
  | same (cs : List Char) : Widens 0 cs cs
  | row (n : Nat) : Widens n ('\n' :: (List.replicate n ' ' ++ "  |\n".toList)) "\n  |\n".toList
  | append {m n : Nat} {s s' t t' : List Char} (h : Widens m s t) (h' : Widens n s' t') :
    Widens (m + n) (s ++ s') (t ++ t')

namespace Widens

theorem length_eq {n : Nat} {s t : List Char} (h : Widens n s t) : s.length = t.length + n := by
  induction h with
  | same cs => rfl
  | row n =>
    have hlength : "\n  |\n".toList.length = "  |\n".toList.length + 1 := rfl
    rw [List.length_cons, List.length_append, List.length_replicate, hlength]
    omega
  | append h h' ih ih' =>
    rw [List.length_append, List.length_append]
    omega

theorem eq_of_eq_zero {n : Nat} {s t : List Char} (h : Widens n s t) (hn : n = 0) : s = t := by
  induction h with
  | same cs => rfl
  | row n => subst hn; rfl
  | append h h' ih ih' => rw [ih (by omega), ih' (by omega)]

theorem eq_iff {n : Nat} {s t : List Char} (h : Widens n s t) : s = t ↔ n = 0 := by
  constructor
  . intro heq
    have := h.length_eq
    rw [heq] at this
    omega
  . exact h.eq_of_eq_zero

end Widens

def Agree (n : Nat) (s t : String) : Prop :=
  ∃ seen, Shows s.toList seen ∧ Widens n seen t.toList

namespace Agree

theorem append {m n : Nat} {s s' t t' : String} (h : Agree m s t) (h' : Agree n s' t') :
    Agree (m + n) (s ++ s') (t ++ t') := by
  obtain ⟨seen, hshows, hwidens⟩ := h
  obtain ⟨seen', hshows', hwidens'⟩ := h'
  refine ⟨seen ++ seen', ?_, ?_⟩
  . rw [String.toList_append]
    exact hshows.append hshows'
  . rw [String.toList_append]
    exact hwidens.append hwidens'

theorem plain {text : String} (h : '\x1b' ∉ text.toList) : Agree 0 text text :=
  ⟨_, .plain h, .same _⟩

theorem paint (colour : Colour) {text : String} (h : '\x1b' ∉ text.toList) :
    Agree 0 (paint true colour text) (Diagnostic.paint false colour text) :=
  ⟨_, .paint true colour h, .same _⟩

theorem join {α : Type} {width : α → Nat} {f g : α → String} {xs : List α}
    (h : ∀ x ∈ xs, Agree (width x) (f x) (g x)) :
    Agree (xs.map width).sum (String.join (xs.map f)) (String.join (xs.map g)) := by
  induction xs with
  | nil => exact .plain List.not_mem_nil
  | cons x xs ih =>
    rw [List.forall_mem_cons] at h
    rw [List.map_cons, List.map_cons, List.map_cons, List.sum_cons, String.join_cons,
      String.join_cons]
    exact h.1.append (ih h.2)

theorem intercalate {α : Type} {width : α → Nat} {f g : α → String} {separator : String}
    {xs : List α} (hseparator : '\x1b' ∉ separator.toList)
    (h : ∀ x ∈ xs, Agree (width x) (f x) (g x)) :
    Agree (xs.map width).sum (separator.intercalate (xs.map f))
      (separator.intercalate (xs.map g)) := by
  induction xs with
  | nil => exact .plain List.not_mem_nil
  | cons x xs ih =>
    rw [List.forall_mem_cons] at h
    cases xs with
    | nil => exact h.1
    | cons y ys =>
      simp only [List.map_cons, List.sum_cons, String.intercalate_cons_cons] at ih ⊢
      exact (h.1.append (.plain hseparator)).append (ih h.2)

end Agree

/-! ## The white space at the end -/

def EndsVisibly (text : String) : Prop :=
  ∃ cs c, text.toList = cs ++ [c] ∧ Text.isBlank c = false

namespace EndsVisibly

theorem append {s t : String} (h : EndsVisibly t) : EndsVisibly (s ++ t) := by
  obtain ⟨cs, c, ht, hc⟩ := h
  refine ⟨s.toList ++ cs, c, ?_, hc⟩
  rw [String.toList_append, ht, List.append_assoc]

theorem before {s t : String} (h : EndsVisibly s) (ht : t = "" ∨ EndsVisibly t) :
    EndsVisibly (s ++ t) := by
  rcases ht with rfl | ht
  . rwa [String.append_empty]
  . exact ht.append

theorem paint (coloured : Bool) (colour : Colour) {text : String} (h : EndsVisibly text) :
    EndsVisibly (paint coloured colour text) := by
  unfold Diagnostic.paint
  split
  . exact append ⟨['\x1b', '[', '0'], 'm', rfl, by decide⟩
  . exact h

theorem toString (n : Nat) : EndsVisibly (toString n) := by
  refine ⟨_, _, (List.dropLast_concat_getLast (Text.toList_toString_ne_nil n)).symm, ?_⟩
  apply Lexer.isBlank_of_isIdentifierPart
  apply Lexer.isIdentifierPart_of_isDigit
  exact Text.isDigit_of_mem_toString (List.getLast_mem _)

theorem carets (n : Nat) : EndsVisibly (repeated '^' (n + 1)) := by
  refine ⟨List.replicate n '^', '^', ?_, by decide⟩
  rw [toList_repeated, List.replicate_succ']

end EndsVisibly

theorem trimEnd_newline {text : String} (h : EndsVisibly text) :
    Text.trimEnd (text ++ "\n") = text := by
  obtain ⟨cs, c, htext, hc⟩ := h
  have hnewline : Text.isBlank '\n' = true := by decide
  unfold Text.trimEnd
  have htext' : (text ++ "\n").toList.reverse = '\n' :: c :: cs.reverse := by
    simp [htext]
  rw [htext', List.dropWhile_cons_of_pos hnewline, List.dropWhile_cons_of_neg (by simp [hc]),
    ← String.toList_inj, String.toList_ofList, List.reverse_cons, List.reverse_reverse, htext]

/-! ## The parts of a text -/

section

variable (coloured : Bool) (severity : Severity) (origin source : String)

def rows (span : Span) (message? : Option String) : String :=
  match line? source span with
  | none => ""
  | some line =>
    "\n" ++ topRow coloured span.start.line ++ "\n"
      ++ (numberMargin coloured span.start.line ++ String.ofList line) ++ "\n"
      ++ (caretRow coloured severity span.start.line (caretColumns line.length span)
        ++ remark coloured severity message?)

theorem newline_frame (span : Span) (message? : Option String) :
    "\n" ++ frame coloured severity source span message? =
      rows coloured severity source span message? ++ "\n" := by
  rw [frame_eq]
  unfold rows
  cases line? source span with
  | none => rfl
  | some line => simp only [String.append_assoc]

def noteRows (note : Note) : String :=
  "\n" ++ (paint coloured .cyan "note" ++ ": " ++ paint coloured .white note.message ++ " at "
    ++ paint coloured .grey (place origin note.span.start))
    ++ rows coloured severity source note.span none

theorem newline_renderNote (note : Note) :
    "\n" ++ renderNote coloured severity origin source note =
      noteRows coloured severity origin source note ++ "\n" := by
  unfold renderNote noteRows
  simp only [String.append_assoc, ← newline_frame]

theorem newline_join_renderNote (notes : List Note) :
    "\n" ++ String.join (notes.map (renderNote coloured severity origin source)) =
      String.join (notes.map (noteRows coloured severity origin source)) ++ "\n" := by
  induction notes with
  | nil => rfl
  | cons note notes ih =>
    rw [List.map_cons, List.map_cons, String.join_cons, String.join_cons, ← String.append_assoc,
      newline_renderNote, String.append_assoc, ih, String.append_assoc]

def header (d : Diagnostic) : String :=
  paint coloured .yellow (severityWord d.severity ++ "[" ++ d.code ++ "]") ++ " "
    ++ paint coloured .grey (place origin d.span.start) ++ "\n  "
    ++ paint coloured .white d.message

def body (d : Diagnostic) : String :=
  header coloured origin d ++ rows coloured d.severity source d.span (some d.message)
    ++ String.join (d.notes.map (noteRows coloured d.severity origin source))

theorem renderOne_eq_trimEnd (d : Diagnostic) :
    renderOne coloured origin source d = Text.trimEnd (body coloured origin source d ++ "\n") := by
  -- The line break at the end moves up in front of the notes, and from there in front of the frame.
  have hbody : body coloured origin source d ++ "\n" = header coloured origin d ++
      ("\n" ++ frame coloured d.severity source d.span (some d.message)) ++
      String.join (d.notes.map (renderNote coloured d.severity origin source)) := by
    rw [newline_frame]
    unfold body
    simp only [String.append_assoc, ← newline_join_renderNote]
  rw [hbody]
  unfold renderOne header
  simp only [String.append_assoc]

end

/-! ## The two forms of each part -/

/--
The number of blanks that the frame of the span lacks in the plain form.
-/
def lineSurplus (source : String) (span : Span) : Nat :=
  if span.start.line ≤ (Text.lines source.toList).length then
    (toString span.start.line).length - 1
  else
    0

theorem lineSurplus_eq_zero_iff {source : String} {span : Span} : lineSurplus source span = 0 ↔
    (span.start.line ≤ (Text.lines source.toList).length → span.start.line < 10) := by
  have hdigits : (toString span.start.line).length - 1 = 0 ↔ span.start.line < 10 := by
    rw [Nat.sub_eq_zero_iff_le, Text.length_toString_le_one_iff]
  unfold lineSurplus
  split
  . next h => rw [hdigits]; exact ⟨fun hlt _ => hlt, fun himp => himp h⟩
  . next h => exact ⟨fun _ hle => absurd hle h, fun _ => rfl⟩

theorem agree_topRow (number : Nat) :
    Agree ((toString number).length - 1) ("\n" ++ topRow true number ++ "\n")
      ("\n" ++ topRow false number ++ "\n") := by
  have hpos : 0 < (toString number).length := by
    rw [← String.length_toList]
    exact List.length_pos_iff.2 (Text.toList_toString_ne_nil number)
  -- The plain row is made for a number of one digit, so the other `w` digits are what it lacks.
  obtain ⟨w, hw⟩ := Nat.exists_eq_add_one.2 hpos
  have hnewline : '\x1b' ∉ "\n".toList := by decide
  have hblank : '\x1b' ∉ (repeated ' ' (w + 1)).toList := notMem_repeated (by decide) _
  have hbar := notMem_gutter (by decide) hblank
  have hshows := ((Shows.plain hnewline).append (.paint true .grey hbar)).append (.plain hnewline)
  rw [hw, Nat.add_sub_cancel]
  refine ⟨'\n' :: (List.replicate w ' ' ++ "  |\n".toList), ?_, .row w⟩
  unfold topRow
  rw [hw, if_pos rfl, String.toList_append, String.toList_append]
  rw [String.toList_append, toList_repeated, List.replicate_succ'] at hshows
  simpa using hshows

theorem agree_numberMargin (number : Nat) :
    Agree 0 (numberMargin true number) (numberMargin false number) := by
  refine (Agree.paint .grey ?_).append (.plain (by decide))
  exact notMem_gutter (by decide) (notMem_toString (by decide) number)

theorem agree_caretRow (severity : Severity) (number : Nat) (columns : Nat × Nat) :
    Agree 0 (caretRow true severity number columns) (caretRow false severity number columns) := by
  have hspace : '\x1b' ∉ " ".toList := by decide
  have hblanks (n : Nat) : '\x1b' ∉ (repeated ' ' n).toList := notMem_repeated (by decide) n
  have hcarets (n : Nat) : '\x1b' ∉ (repeated '^' n).toList := notMem_repeated (by decide) n
  have hgutter := Agree.paint .grey (notMem_gutter (by decide) (hblanks (toString number).length))
  have hmargin := hgutter.append (.plain hspace)
  have hindented := hmargin.append (.plain (hblanks (columns.1 - 1)))
  exact hindented.append (.paint _ (hcarets _))

theorem agree_remark (severity : Severity) {message? : Option String}
    (h : ∀ message ∈ message?, '\x1b' ∉ message.toList) :
    Agree 0 (remark true severity message?) (remark false severity message?) := by
  cases message? with
  | none => exact .plain List.not_mem_nil
  | some message => exact (Agree.plain (by decide)).append (.paint _ (h message rfl))

theorem agree_rows (severity : Severity) {source : String} (span : Span) {message? : Option String}
    (hsource : '\x1b' ∉ source.toList) (hmessage : ∀ message ∈ message?, '\x1b' ∉ message.toList) :
    Agree (lineSurplus source span) (rows true severity source span message?)
      (rows false severity source span message?) := by
  unfold lineSurplus rows
  cases h : line? source span with
  | none =>
    split
    . next hle =>
      -- There is no such line although the source is long enough: it is line 0, of one digit.
      have hzero : span.start.line = 0 := by
        rcases line?_eq_none_iff.1 h with hzero | hlt
        . exact hzero
        . omega
      rw [hzero]
      exact .plain List.not_mem_nil
    . exact .plain List.not_mem_nil
  | some line =>
    have hle : span.start.line ≤ (Text.lines source.toList).length := by
      rw [← Nat.not_lt]
      intro hlt
      rw [line?_eq_none_iff.2 (.inr hlt)] at h
      contradiction
    have hline : '\x1b' ∉ (String.ofList line).toList := by
      rw [String.toList_ofList]
      exact fun hmem => hsource (Text.subset_of_mem_lines (mem_lines_of_line? h) hmem)
    have hnewline : '\x1b' ∉ "\n".toList := by decide
    rw [if_pos hle]
    have htop := agree_topRow span.start.line
    have hshown := (agree_numberMargin span.start.line).append (.plain hline)
    have hcarets := (agree_caretRow severity span.start.line (caretColumns line.length span)).append
      (agree_remark severity hmessage)
    have hrows := (htop.append hshown).append (.plain hnewline)
    exact hrows.append hcarets

theorem escape_notMem_place {origin : String} (h : '\x1b' ∉ origin.toList) (p : Position) :
    '\x1b' ∉ (place origin p).toList := by
  unfold place
  have hdigits := fun n => notMem_toString (show '\x1b'.isDigit = false by decide) n
  have hcolon : '\x1b' ∉ ":".toList := by decide
  simp only [notMem_append, and_assoc]
  exact ⟨h, hcolon, hdigits _, hcolon, hdigits _⟩

theorem agree_noteRows (severity : Severity) {origin source : String} {note : Note}
    (horigin : '\x1b' ∉ origin.toList) (hsource : '\x1b' ∉ source.toList)
    (hmessage : '\x1b' ∉ note.message.toList) :
    Agree (lineSurplus source note.span) (noteRows true severity origin source note)
      (noteRows false severity origin source note) := by
  have hplace := escape_notMem_place horigin note.span.start
  have hword : '\x1b' ∉ "note".toList := by decide
  have hcolon : '\x1b' ∉ ": ".toList := by decide
  have hat : '\x1b' ∉ " at ".toList := by decide
  have hnewline : '\x1b' ∉ "\n".toList := by decide
  have htitle := (Agree.paint .cyan hword).append (.plain hcolon)
  have hsaid := (htitle.append (.paint .white hmessage)).append (.plain hat)
  have htext := hsaid.append (.paint .grey hplace)
  have hnone : ∀ message ∈ (none : Option String), '\x1b' ∉ message.toList := by simp
  have hrows := agree_rows severity note.span hsource hnone
  have hnote := ((Agree.plain hnewline).append htext).append hrows
  rwa [Nat.zero_add] at hnote

/--
The diagnostic can be told from its colours: its texts hold no escape character, and there is no
white space at the end of the message.
-/
structure Presentable (d : Diagnostic) : Prop where
  code : '\x1b' ∉ d.code.toList
  message : '\x1b' ∉ d.message.toList
  notes : ∀ note ∈ d.notes, '\x1b' ∉ note.message.toList
  visible : EndsVisibly d.message

theorem agree_header {origin : String} {d : Diagnostic} (horigin : '\x1b' ∉ origin.toList)
    (hd : d.Presentable) : Agree 0 (header true origin d) (header false origin d) := by
  have hplace := escape_notMem_place horigin d.span.start
  have hcode : '\x1b' ∉ (severityWord d.severity ++ "[" ++ d.code ++ "]").toList := by
    have hseverity : '\x1b' ∉ (severityWord d.severity).toList := by
      cases d.severity <;> decide
    rw [notMem_append, notMem_append, notMem_append]
    exact ⟨⟨⟨hseverity, by decide⟩, hd.code⟩, by decide⟩
  have hspace : '\x1b' ∉ " ".toList := by decide
  have hbreak : '\x1b' ∉ "\n  ".toList := by decide
  unfold header
  have htag := (Agree.paint .yellow hcode).append (.plain hspace)
  have hfirst := htag.append (.paint .grey hplace)
  have hindented := hfirst.append (.plain hbreak)
  exact hindented.append (.paint .white hd.message)

/--
The spans of the diagnostic. A frame is drawn for each of them that starts in a line of the source.
-/
def spans (d : Diagnostic) : List Span :=
  d.span :: d.notes.map Note.span

def surplus (source : String) (d : Diagnostic) : Nat :=
  (d.spans.map (lineSurplus source)).sum

theorem surplus_eq_zero_iff {source : String} {d : Diagnostic} : surplus source d = 0 ↔
    ∀ span ∈ d.spans,
      span.start.line ≤ (Text.lines source.toList).length → span.start.line < 10 := by
  unfold surplus
  rw [List.sum_eq_zero_iff_forall_eq_nat, List.forall_mem_map]
  exact forall₂_congr fun span _ => lineSurplus_eq_zero_iff

theorem agree_body {origin source : String} {d : Diagnostic} (horigin : '\x1b' ∉ origin.toList)
    (hsource : '\x1b' ∉ source.toList) (hd : d.Presentable) :
    Agree (surplus source d) (body true origin source d) (body false origin source d) := by
  have hmessage : ∀ message ∈ some d.message, '\x1b' ∉ message.toList := by
    simpa using hd.message
  have hrows := agree_rows d.severity d.span hsource hmessage
  have hnotes := Agree.join fun note hnote =>
    agree_noteRows d.severity horigin hsource (hd.notes note hnote)
  have hbody := ((agree_header horigin hd).append hrows).append hnotes
  unfold surplus spans body
  rw [List.map_cons, List.sum_cons, List.map_map]
  rwa [Nat.zero_add] at hbody

/-! ## The end of each part -/

section

variable (coloured : Bool) (severity : Severity) (origin source : String)

theorem rows_eq_empty_or_endsVisibly (span : Span) {message? : Option String}
    (h : ∀ message ∈ message?, EndsVisibly message) :
    rows coloured severity source span message? = "" ∨
      EndsVisibly (rows coloured severity source span message?) := by
  unfold rows
  split
  . exact .inl rfl
  . right
    apply EndsVisibly.append
    unfold caretRow
    cases message? with
    | none =>
      unfold remark
      rw [String.append_empty]
      exact ((EndsVisibly.carets _).paint _ _).append
    | some message => exact (((h message rfl).paint _ _).append).append

theorem endsVisibly_noteRows (note : Note) :
    EndsVisibly (noteRows coloured severity origin source note) := by
  have hplace : EndsVisibly (place origin note.span.start) := (EndsVisibly.toString _).append
  exact (((hplace.paint _ _).append).append).before
    (rows_eq_empty_or_endsVisibly _ _ _ _ (by simp))

theorem join_noteRows_eq_empty_or_endsVisibly (notes : List Note) :
    String.join (notes.map (noteRows coloured severity origin source)) = "" ∨
      EndsVisibly (String.join (notes.map (noteRows coloured severity origin source))) := by
  induction notes with
  | nil => exact .inl rfl
  | cons note notes ih =>
    rw [List.map_cons, String.join_cons]
    exact .inr ((endsVisibly_noteRows _ _ _ _ note).before ih)

theorem renderOne_eq_body {d : Diagnostic} (h : EndsVisibly d.message) :
    renderOne coloured origin source d = body coloured origin source d := by
  have hheader : EndsVisibly (header coloured origin d) := (h.paint _ _).append
  have hmessage : ∀ message ∈ some d.message, EndsVisibly message := by
    simpa using h
  have hrows := rows_eq_empty_or_endsVisibly coloured d.severity source d.span hmessage
  rw [renderOne_eq_trimEnd]
  apply trimEnd_newline
  exact (hheader.before hrows).before (join_noteRows_eq_empty_or_endsVisibly _ _ _ _ _)

end

theorem agree_render {origin source : String} {ds : List Diagnostic}
    (horigin : '\x1b' ∉ origin.toList) (hsource : '\x1b' ∉ source.toList)
    (hds : ∀ d ∈ ds, d.Presentable) :
    Agree (ds.map (surplus source)).sum (render true origin source ds)
      (render false origin source ds) := by
  apply Agree.intercalate (by decide)
  intro d hd
  have hvisible := (hds d hd).visible
  rw [renderOne_eq_body true origin source hvisible, renderOne_eq_body false origin source hvisible]
  exact agree_body horigin hsource (hds d hd)

/--
The coloured form without its colours is the plain form, but for blanks above the lines with a
number of more than one digit. The two are the same exactly if no such line is shown.
-/
theorem render_withoutColours {origin source : String} {ds : List Diagnostic}
    (horigin : '\x1b' ∉ origin.toList) (hsource : '\x1b' ∉ source.toList)
    (hds : ∀ d ∈ ds, d.Presentable) :
    Widens (ds.map (surplus source)).sum (withoutColours (render true origin source ds).toList)
      (render false origin source ds).toList ∧
    (withoutColours (render true origin source ds).toList = (render false origin source ds).toList ↔
      ∀ d ∈ ds, ∀ span ∈ d.spans,
        span.start.line ≤ (Text.lines source.toList).length → span.start.line < 10) := by
  obtain ⟨seen, hshows, hwidens⟩ := agree_render horigin hsource hds
  rw [hshows.withoutColours_eq]
  refine ⟨hwidens, ?_⟩
  rw [hwidens.eq_iff, List.sum_eq_zero_iff_forall_eq_nat, List.forall_mem_map]
  exact forall₂_congr fun d _ => surplus_eq_zero_iff

theorem render_withoutColours_tenth : ∃ warning failure : Diagnostic,
    warning.spans = [⟨⟨10, 1⟩, ⟨10, 1⟩⟩, ⟨⟨1, 1⟩, ⟨2, 1⟩⟩] ∧ failure.spans = [⟨⟨11, 3⟩, ⟨11, 4⟩⟩] ∧
    (∀ d ∈ [warning, failure], d.Presentable) ∧
    Widens 1 (withoutColours (render true "o" "a\n\n\n\n\n\n\n\n\nx" [warning, failure]).toList)
      (render false "o" "a\n\n\n\n\n\n\n\n\nx" [warning, failure]).toList := by
  have hvisible : EndsVisibly "m" := ⟨[], 'm', by decide, by decide⟩
  have hwarning : Presentable
      ⟨"E1", .warning, "m", ⟨⟨10, 1⟩, ⟨10, 1⟩⟩, [⟨"n", ⟨⟨1, 1⟩, ⟨2, 1⟩⟩⟩]⟩ :=
    ⟨by decide, by decide, List.forall_mem_singleton.2 (by decide), hvisible⟩
  have hfailure : Presentable (.error "E2" "m" ⟨⟨11, 3⟩, ⟨11, 4⟩⟩) :=
    ⟨by decide, by decide, List.forall_mem_nil _, hvisible⟩
  have hds := List.forall_mem_cons.2 ⟨hwarning, List.forall_mem_singleton.2 hfailure⟩
  have horigin : '\x1b' ∉ "o".toList := by decide
  have hsource : '\x1b' ∉ "a\n\n\n\n\n\n\n\n\nx".toList := by decide
  exact ⟨_, _, rfl, rfl, hds, (render_withoutColours horigin hsource hds).1⟩

/--
The two forms differ as soon as a number has two digits, although no text has an escape character
and every message ends with something that can be seen.
-/
theorem render_withoutColours_ne : ¬∀ (origin source : String) (ds : List Diagnostic),
    '\x1b' ∉ origin.toList → '\x1b' ∉ source.toList →
    (∀ d ∈ ds, d.Presentable ∧ ∀ note ∈ d.notes, EndsVisibly note.message) →
    withoutColours (render true origin source ds).toList =
      (render false origin source ds).toList := by
  intro hall
  have hd : Presentable (.error "E1" "m" ⟨⟨10, 1⟩, ⟨10, 1⟩⟩) :=
    ⟨by decide, by decide, List.forall_mem_nil _, ⟨[], 'm', by decide, by decide⟩⟩
  have horigin : '\x1b' ∉ "o".toList := by decide
  have hsource : '\x1b' ∉ "\n\n\n\n\n\n\n\n\nx".toList := by decide
  obtain ⟨seen, hshows, hwidens⟩ := agree_render horigin hsource (List.forall_mem_singleton.2 hd)
  have heq := hall _ _ _ horigin hsource
    (List.forall_mem_singleton.2 ⟨hd, List.forall_mem_nil _⟩)
  rw [hshows.withoutColours_eq, hwidens.eq_iff] at heq
  revert heq
  decide

end Diagnostic
end Splice
