import Mathlib.Data.List.Infix
import Splice.Proofs.Syntax.Layout
import Splice.Proofs.Text.Digits

/-!
This module contains what the lexer reads in one step off a text in which it finds no fault: a
lexeme, which has the same token if it stands for itself, or a piece of what is skipped.
-/

namespace Splice
namespace Lexer

/-! ## Gaps -/

/--
One piece of what stands between tokens, where `rest` is all that stands behind it: white space, a
comment up to the end of its line, or a comment up to the first `*/`.
-/
inductive Skipped (rest : List Char) : List Char → Prop
  | blank {c : Char} (hc : Text.isBlank c = true) : Skipped rest [c]
  | line {cs : List Char} (hcs : '\n' ∉ cs) (hrest : ∀ c, rest.head? = some c → c = '\n') :
    Skipped rest ('/' :: '/' :: cs)
  | block {cs : List Char} (hcs : ¬['*', '/'] <:+: cs ++ ['*']) :
    Skipped rest ('/' :: '*' :: cs ++ ['*', '/'])

inductive Gap (rest : List Char) : List Char → Prop
  | nil : Gap rest []
  | cons {piece cs : List Char} (hpiece : Skipped (cs ++ rest) piece) (hcs : Gap rest cs) :
    Gap rest (piece ++ cs)

theorem eq_of_commentLength? {cs : List Char} {n : Nat} (h : commentLength? cs = some n) :
    ∃ body rest, cs = body ++ '*' :: '/' :: rest ∧ n = body.length + 2 ∧
      ¬['*', '/'] <:+: body ++ ['*'] := by
  fun_induction commentLength? cs generalizing n with
  | case1 rest =>
    refine ⟨[], rest, rfl, (Option.some.inj h).symm, fun hinfix => ?_⟩
    exact absurd hinfix.length_le (by decide)
  | case2 c cs hopen ih =>
    obtain ⟨m, hm, rfl⟩ := Option.map_eq_some_iff.1 h
    obtain ⟨body, rest, rfl, rfl, hbody⟩ := ih hm
    refine ⟨c :: body, rest, rfl, rfl, fun hinfix => ?_⟩
    rw [List.cons_append, List.infix_cons_iff] at hinfix
    rcases hinfix with hprefix | hinfix
    -- A mark at the front would have ended the comment.
    . obtain ⟨rfl, htail⟩ := List.cons_prefix_cons.1 hprefix
      cases body with
      | nil => exact absurd htail (by decide)
      | cons d body =>
        have hd : '/' = d := (List.cons_prefix_cons.1 htail).1
        exact hopen _ rfl (congrArg (· :: (body ++ '*' :: '/' :: rest)) hd.symm)
    . exact hbody hinfix
  | case3 => contradiction

/-! ## Escapes -/

def escapes : List (Char × Char) :=
  [('\\', '\\'), ('"', '"'), ('\'', '\''), ('n', '\n'), ('t', '\t'), ('r', '\r')]

theorem mem_escapes_iff {c d : Char} : (c, d) ∈ escapes ↔ simpleEscape? c = some d := by
  unfold simpleEscape?
  split <;> simp_all [escapes, eq_comm]

theorem byteEscape?_of_isHex {high low : Char} (hhigh : Text.IsHex high) (hlow : Text.IsHex low) :
    byteEscape? high low = some (Char.ofNat (16 * Text.digit high + Text.digit low)) := by
  unfold byteEscape?
  rw [Text.digitIn?_eq_some (Text.isHex_iff.1 hhigh), Text.digitIn?_eq_some (Text.isHex_iff.1 hlow),
    Nat.mul_comm]

theorem isHex_of_byteEscape? {high low d : Char} (h : byteEscape? high low = some d) :
    Text.IsHex high ∧ Text.IsHex low := by
  unfold byteEscape? at h
  split at h
  . next hhigh hlow =>
    rw [Text.isHex_iff, Text.isHex_iff, hhigh, hlow]
    exact ⟨rfl, rfl⟩
  . contradiction

/-! ## Lexemes -/

/--
What the characters between the quotes of a string stand for.
-/
inductive Unescaped : List Char → List Char → Prop
  | nil : Unescaped [] []
  | plain {c : Char} {cs text : List Char} (hc : c ≠ '"' ∧ c ≠ '\\' ∧ c ≠ '\n')
    (hcs : Unescaped cs text) : Unescaped (c :: cs) (c :: text)
  | simple {c d : Char} {cs text : List Char} (hc : (c, d) ∈ escapes) (hcs : Unescaped cs text) :
    Unescaped ('\\' :: c :: cs) (d :: text)
  | byte {high low : Char} {cs text : List Char} (hhigh : Text.IsHex high) (hlow : Text.IsHex low)
    (hcs : Unescaped cs text) : Unescaped ('\\' :: 'x' :: high :: low :: cs)
      (Char.ofNat (16 * Text.digit high + Text.digit low) :: text)

theorem stringBody_plain {c : Char} (hc : c ≠ '"' ∧ c ≠ '\\' ∧ c ≠ '\n') (n : Nat)
    (cs : List Char) : stringBody n (c :: cs) = (stringBody (n + 1) cs).push c := by
  have hescape : ∀ {p : Prop}, c = '\\' → p := fun h => (hc.2.1 h).elim
  exact stringBody.eq_9 n c cs hc.2.2 hc.1 hescape hescape (fun _ => hescape) (fun _ _ _ => hescape)
    fun _ _ => hescape

theorem stringBody_simple {c d : Char} (hc : (c, d) ∈ escapes) (n : Nat) (cs : List Char) :
    stringBody n ('\\' :: c :: cs) = (stringBody (n + 2) cs).push d := by
  rw [mem_escapes_iff] at hc
  have hx : ∀ {p : Prop}, c = 'x' → p := by
    rintro _ rfl
    contradiction
  rw [stringBody.eq_8 n c cs hx (fun _ => hx) fun _ _ _ => hx, hc]
  rfl

theorem stringBody_of_unescaped {cs text : List Char} (h : Unescaped cs text) (n : Nat)
    (rest : List Char) :
    stringBody n (cs ++ '"' :: rest) = ⟨text, n + cs.length + 1, []⟩ := by
  induction h generalizing n with
  | nil => rfl
  | plain hc _ ih =>
    rw [List.cons_append, stringBody_plain hc, ih]
    simp only [StringBody.push, List.length_cons, StringBody.mk.injEq, true_and, and_true]
    omega
  | simple hc _ ih =>
    rw [List.cons_append, List.cons_append, stringBody_simple hc, ih]
    simp only [StringBody.push, List.length_cons, StringBody.mk.injEq, true_and, and_true]
    omega
  | byte hhigh hlow _ ih =>
    simp only [List.cons_append, stringBody, ih, byteEscape?_of_isHex hhigh hlow,
      StringBody.pushOr, StringBody.push, List.length_cons, StringBody.mk.injEq, true_and, and_true]
    omega

theorem StringBody.findings_pushOr {c? : Option Char} {f : Finding} {body : StringBody}
    (h : (body.pushOr c? f).findings = []) :
    ∃ c, c? = some c ∧ body.pushOr c? f = body.push c ∧ body.findings = [] := by
  cases c? with
  | none => contradiction
  | some c => exact ⟨c, rfl, rfl, h⟩

theorem exists_unescaped {n : Nat} {cs : List Char} (h : (stringBody n cs).findings = []) :
    ∃ body rest, cs = body ++ '"' :: rest ∧ Unescaped body (stringBody n cs).text ∧
      (stringBody n cs).length = n + body.length + 1 := by
  -- A string that does not end, or that has a line feed or a broken escape in it, has a fault.
  fun_induction stringBody n cs with
  | case1 n => contradiction
  | case2 n rest => contradiction
  | case3 n rest => exact ⟨[], rest, rfl, .nil, rfl⟩
  | case4 n ih => contradiction
  | case5 n ih => contradiction
  | case6 n c ih => contradiction
  | case7 n high low rest ih =>
    obtain ⟨d, hd, hpush, hrest⟩ := StringBody.findings_pushOr h
    obtain ⟨body, rest, rfl, htext, hlength⟩ := ih hrest
    obtain ⟨hhigh, hlow⟩ := isHex_of_byteEscape? hd
    obtain rfl := Option.some.inj ((byteEscape?_of_isHex hhigh hlow).symm.trans hd)
    rw [hpush]
    refine ⟨'\\' :: 'x' :: high :: low :: body, rest, rfl, .byte hhigh hlow htext, ?_⟩
    simp only [StringBody.push, hlength, List.length_cons]
    omega
  | case8 n c rest _ _ _ ih =>
    obtain ⟨d, hd, hpush, hrest⟩ := StringBody.findings_pushOr h
    obtain ⟨body, rest, rfl, htext, hlength⟩ := ih hrest
    rw [hpush]
    refine ⟨'\\' :: c :: body, rest, rfl, .simple (mem_escapes_iff.2 hd) htext, ?_⟩
    simp only [StringBody.push, hlength, List.length_cons]
    omega
  | case9 n c rest hline hquote _ _ _ _ hescape ih =>
    obtain ⟨body, rest, rfl, htext, hlength⟩ := ih h
    refine ⟨c :: body, rest, rfl, .plain ⟨hquote, ?_, hline⟩ htext, ?_⟩
    . rintro rfl
      cases body with
      | nil => exact hescape _ _ rfl rfl
      | cons => exact hescape _ _ rfl rfl
    . simp only [StringBody.push, hlength, List.length_cons]
      omega

def Spells (lexeme : List Char) : Word → Prop
  | (.string, text) => ∃ body, lexeme = '"' :: body ++ ['"'] ∧ Unescaped body text.toList
  | (_, text) => lexeme = text.toList

theorem holds_of_spells {w : Word} {lexeme : List Char} (hw : w.Lexed) (h : Spells lexeme w) :
    Holds lexeme [w] := by
  obtain ⟨kind, text⟩ := w
  cases kind with
  | identifier =>
    obtain rfl : lexeme = text.toList := h
    have := holds_identifier hw delimited_nil holds_nil
    rwa [List.append_nil] at this
  | number =>
    obtain rfl : lexeme = text.toList := h
    have := holds_number hw delimited_nil holds_nil
    rwa [List.append_nil] at this
  | string =>
    obtain ⟨body, rfl, htext⟩ := h
    have hbody := stringBody_of_unescaped htext 1 []
    have hscan : ∀ cs, scan '"' cs = ⟨(stringBody 1 cs).length,
        some (.string, String.ofList (stringBody 1 cs).text), (stringBody 1 cs).findings,
        le_length_stringBody 1 cs⟩ := fun _ => rfl
    have := holds_scan '"' (body ++ ['"']) [] []
    simp only [hscan, hbody, String.ofList_toList] at this
    refine this trivial ?_ holds_nil
    apply List.drop_of_length_le
    simp only [List.length_cons, List.length_append, List.length_nil]
    omega
  | _ =>
    obtain rfl : lexeme = text.toList := h
    obtain rfl := hw
    exact holds_token (by omega) rfl rfl holds_nil

theorem Unescaped.newline_notMem {cs text : List Char} (h : Unescaped cs text) : '\n' ∉ cs := by
  induction h with
  | nil => exact List.not_mem_nil
  | plain hc _ ih =>
    rw [List.mem_cons, not_or]
    exact ⟨hc.2.2.symm, ih⟩
  | @simple c d cs text hc _ ih =>
    have hne : '\n' ≠ c := by
      rintro rfl
      rw [mem_escapes_iff] at hc
      contradiction
    simp only [List.mem_cons, not_or]
    exact ⟨by decide, hne, ih⟩
  | @byte high low cs text hhigh hlow _ ih =>
    have hne {c : Char} (hc : Text.IsHex c) : '\n' ≠ c := by
      rintro rfl
      exact absurd hc (by decide)
    simp only [List.mem_cons, not_or]
    exact ⟨by decide, by decide, hne hhigh, hne hlow, ih⟩

theorem all_isIdentifierPart_of_isIdentifier {cs : List Char} (h : isIdentifier cs = true) :
    cs.all isIdentifierPart = true := by
  cases cs with
  | nil => rfl
  | cons c cs =>
    obtain ⟨hc, hcs⟩ := Bool.and_eq_true_iff.1 h
    rw [List.all_cons, isIdentifierPart_of_isIdentifierStart hc, hcs]
    rfl

theorem all_isIdentifierPart_of_isNumber {cs : List Char} (h : isNumber cs = true) :
    cs.all isIdentifierPart = true := by
  have himp : ∀ {p : Char → Bool} {ds : List Char}, (∀ c, p c = true → isIdentifierPart c = true) →
      ds.all p = true → ds.all isIdentifierPart = true := by
    intro p ds hp hds
    exact List.all_eq_true.2 fun c hc => hp c (List.all_eq_true.1 hds c hc)
  unfold isNumber at h
  split at h
  . rfl
  . rw [List.all_cons, List.all_cons]
    exact himp (fun _ => isIdentifierPart_of_isHexDigit) (Bool.and_eq_true_iff.1 h).2
  . rw [List.all_cons, List.all_cons]
    exact himp (fun _ => isIdentifierPart_of_isHexDigit) (Bool.and_eq_true_iff.1 h).2
  . next c cs _ _ =>
    obtain ⟨hc, hcs⟩ := Bool.and_eq_true_iff.1 h
    rw [List.all_cons, isIdentifierPart_of_isDigit hc]
    exact himp (fun _ => isIdentifierPart_of_isDigit) hcs

theorem newline_notMem_of_all {cs : List Char} (h : cs.all isIdentifierPart = true) :
    '\n' ∉ cs :=
  fun hmem => absurd (List.all_eq_true.1 h _ hmem) (by decide)

theorem newline_notMem_of_spells {w : Word} {lexeme : List Char} (hw : w.Lexed)
    (h : Spells lexeme w) : '\n' ∉ lexeme := by
  obtain ⟨kind, text⟩ := w
  cases kind with
  | identifier =>
    obtain rfl : lexeme = text.toList := h
    exact newline_notMem_of_all (all_isIdentifierPart_of_isIdentifier hw)
  | number =>
    obtain rfl : lexeme = text.toList := h
    exact newline_notMem_of_all (all_isIdentifierPart_of_isNumber hw)
  | string =>
    obtain ⟨body, rfl, htext⟩ := h
    simp [htext.newline_notMem]
  | _ =>
    obtain rfl : lexeme = text.toList := h
    obtain rfl := hw
    decide

/-! ## Pieces -/

def Piece.Cuts (piece : Piece) (cs : List Char) : Prop :=
  piece.findings = [] → ∃ taken rest, cs = taken ++ rest ∧ taken.length = piece.length ∧
    match piece.token? with
    | some w => Spells taken w
    | none => Skipped rest taken

theorem Piece.cuts_gap (taken : List Char) {rest : List Char} (h : Skipped rest taken) {n : Nat}
    (hpos : 0 < n) (hn : taken.length = n) : (Piece.gap n hpos).Cuts (taken ++ rest) :=
  fun _ => ⟨taken, rest, rfl, hn, h⟩

theorem Piece.cuts_token (taken : List Char) {rest : List Char} {kind : TokenKind} {text : String}
    (h : Spells taken (kind, text)) {n : Nat} (hpos : 0 < n) (hn : taken.length = n) :
    (Piece.token kind text n hpos).Cuts (taken ++ rest) :=
  fun _ => ⟨taken, rest, rfl, hn, h⟩

theorem cuts_while {kind : TokenKind} (hkind : kind ≠ .string) (p : Char → Bool) (c : Char)
    (cs : List Char) :
    (Piece.token kind (String.ofList (c :: cs.takeWhile p)) (c :: cs.takeWhile p).length
      (Nat.succ_pos _)).Cuts (c :: cs) := by
  have hcs : c :: cs = (c :: cs.takeWhile p) ++ cs.dropWhile p := by
    rw [List.cons_append, List.takeWhile_append_dropWhile]
  conv => arg 2; rw [hcs]
  refine Piece.cuts_token _ ?_ _ rfl
  cases kind with
  | string => contradiction
  | _ => exact String.toList_ofList.symm

theorem cuts_hexNumber (x : Char) (cs : List Char) :
    (scan.hexNumber x (cs.takeWhile isHexDigit)).Cuts ('0' :: x :: cs) := by
  refine fun _ => ⟨'0' :: x :: cs.takeWhile isHexDigit, cs.dropWhile isHexDigit, ?_, ?_, ?_⟩
  . rw [List.cons_append, List.cons_append, List.takeWhile_append_dropWhile]
  . exact Nat.add_comm _ 2
  . exact String.toList_ofList.symm

theorem cuts_number (c : Char) (cs : List Char) : (scan.number c cs).Cuts (c :: cs) := by
  unfold scan.number
  split
  . exact cuts_hexNumber 'x' _
  . exact cuts_hexNumber 'X' _
  . exact cuts_while (by decide) Char.isDigit c cs

theorem cuts_line (cs : List Char) {n : Nat} (hpos : 0 < n)
    (hn : n = 2 + (cs.takeWhile (· ≠ '\n')).length) :
    (Piece.gap n hpos).Cuts ('/' :: '/' :: cs) := by
  have hline : '\n' ∉ cs.takeWhile (· ≠ '\n') := by
    intro hmem
    have := List.all_eq_true.1 List.all_takeWhile _ hmem
    contradiction
  have hend : ∀ c, (cs.dropWhile (· ≠ '\n')).head? = some c → c = '\n' := by
    intro c hc
    have := List.head?_dropWhile_not (· ≠ '\n') cs
    rw [hc] at this
    simpa using this
  refine fun _ => ⟨'/' :: '/' :: _, _, ?_, ?_, .line hline hend⟩
  . rw [List.cons_append, List.cons_append, List.takeWhile_append_dropWhile]
  . simp only [List.length_cons, Piece.gap, hn]
    omega

theorem cuts_block {cs : List Char} {m n : Nat} (hm : commentLength? cs = some m) (hpos : 0 < n)
    (hn : n = 2 + m) : (Piece.gap n hpos).Cuts ('/' :: '*' :: cs) := by
  obtain ⟨body, rest, rfl, rfl, hbody⟩ := eq_of_commentLength? hm
  refine fun _ => ⟨_, rest, ?_, ?_, .block hbody⟩
  . simp only [List.cons_append, List.append_assoc, List.nil_append]
  . simp only [List.length_cons, List.length_append, List.length_nil, Piece.gap, hn]
    omega

theorem cuts_string (cs : List Char) : (scan '"' cs).Cuts ('"' :: cs) := by
  intro (h : (stringBody 1 cs).findings = [])
  obtain ⟨body, rest, hrest, htext, hlength⟩ := exists_unescaped h
  have hscan : (scan '"' cs).length = 1 + body.length + 1 := hlength
  refine ⟨'"' :: body ++ ['"'], rest, ?_, ?_, body, rfl, ?_⟩
  . rw [hrest, List.append_assoc]
    rfl
  . rw [hscan, List.length_append, List.length_cons, List.length_singleton, Nat.add_comm 1]
  . rwa [String.toList_ofList]

theorem cuts_scan (c : Char) (cs : List Char) : (scan c cs).Cuts (c :: cs) := by
  by_cases hc : c = '"'
  . rw [hc]
    exact cuts_string cs
  unfold scan
  split
  . next hblank => exact Piece.cuts_gap [c] (.blank hblank) _ rfl
  . split
    . exact cuts_line _ _ rfl
    . split
      . next hn => exact cuts_block hn _ rfl
      . exact fun h => absurd h (by simp)
    . exact Piece.cuts_token ['\x7b'] (by rfl) _ rfl
    . exact Piece.cuts_token ['\x7d'] (by rfl) _ rfl
    . exact Piece.cuts_token ['('] (by rfl) _ rfl
    . exact Piece.cuts_token [')'] (by rfl) _ rfl
    . exact Piece.cuts_token [','] (by rfl) _ rfl
    . exact Piece.cuts_token [':', '='] (by rfl) _ rfl
    . exact Piece.cuts_token [':'] (by rfl) _ rfl
    . exact Piece.cuts_token ['=', ':'] (by rfl) _ rfl
    . exact Piece.cuts_token ['-', '>'] (by rfl) _ rfl
    . contradiction
    . split
      . exact cuts_number c cs
      . split
        . exact cuts_while (by decide) isIdentifierPart c cs
        . exact fun h => absurd h (by simp)

end Lexer
end Splice
