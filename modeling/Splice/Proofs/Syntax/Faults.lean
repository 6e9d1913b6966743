import Splice.Proofs.Syntax.Pieces
import Splice.Proofs.Text.Places

/-!
This module contains the texts that the lexer finds fault with, and the proof that each of its
diagnostics names such a text and its place: from its first character to the last one that was read
when the fault was found. Behind a line feed, though, the place is not the one of the line feed but
the start of the next line, where no character needs to stand.
-/

namespace Splice

namespace Lexer

/-! ## Faulty texts -/

/--
Characters behind the opening quote of a string that do not end it. Each backslash takes the
characters of an escape with it, of whatever kind these are.
-/
inductive Unclosed : List Char → Prop
  | nil : Unclosed []
  | plain {c : Char} {cs : List Char} (hc : c ≠ '"' ∧ c ≠ '\\' ∧ c ≠ '\n') (hcs : Unclosed cs) :
    Unclosed (c :: cs)
  | escape {c : Char} {cs : List Char} (hc : c ≠ 'x') (hcs : Unclosed cs) :
    Unclosed ('\\' :: c :: cs)
  | byte (high low : Char) {cs : List Char} (hcs : Unclosed cs) :
    Unclosed ('\\' :: 'x' :: high :: low :: cs)

inductive Cut : List Char → Prop
  | nil : Cut []
  | backslash : Cut ['\\']
  | byte {digits : List Char} (hdigits : digits.length ≤ 1) : Cut ('\\' :: 'x' :: digits)

/--
The source holds `text` behind `before` and in front of `rest`, and the fault is with `text`. It has
all characters that were read when the fault was found.
-/
inductive Offends : LexicalFault → (before text rest : List Char) → Prop
  | unexpected {before rest : List Char} {c : Char} (hblank : Text.isBlank c = false)
    (hword : c.isAlphanum = false)
    (hsign : c ∉ ['_', '$', '\x7b', '\x7d', '(', ')', ',', ':', '"'])
    (hnext : (c, rest.head?) ∉
      [('/', some '/'), ('/', some '*'), ('=', some ':'), ('-', some '>')]) :
    Offends (.unexpectedCharacter c) before [c] rest
  | comment {before body : List Char} (hbody : ¬['*', '/'] <:+: body) :
    Offends .unterminatedComment before ('/' :: '*' :: body) []
  | hex {before rest : List Char} {x : Char} (hx : x = 'x' ∨ x = 'X')
    (hrest : ∀ c ∈ rest.head?, ¬Text.IsHex c) :
    Offends .hexWithoutDigits before ['0', x] rest
  | line {before body rest : List Char} (hbody : Unclosed body) :
    Offends .unterminatedString before ('"' :: body ++ ['\n']) rest
  | source {before body cut : List Char} (hbody : Unclosed body) (hcut : Cut cut) :
    Offends .unterminatedString before ('"' :: body ++ cut) []
  | escape {before body rest : List Char} {c : Char} (hbody : Unclosed body) (hx : c ≠ 'x')
    (hc : ∀ d, (c, d) ∉ escapes) :
    Offends (.invalidEscape (some c)) (before ++ '"' :: body) ['\\', c] rest
  | backslash {before body : List Char} (hbody : Unclosed body) :
    Offends (.invalidEscape none) (before ++ '"' :: body) ['\\'] []
  | byte {before body rest : List Char} {high low : Char} (hbody : Unclosed body)
    (hbyte : ¬(Text.IsHex high ∧ Text.IsHex low)) :
    Offends .invalidByteEscape (before ++ '"' :: body) ['\\', 'x', high, low] rest
  | cutByte {before body digits : List Char} (hbody : Unclosed body) (hdigits : digits.length ≤ 1) :
    Offends .invalidByteEscape (before ++ '"' :: body) ('\\' :: 'x' :: digits) []

theorem Unclosed.append {cs ds : List Char} (h : Unclosed cs) (hd : Unclosed ds) :
    Unclosed (cs ++ ds) := by
  induction h with
  | nil => exact hd
  | plain hc _ ih => exact .plain hc ih
  | escape hc _ ih => exact .escape hc ih
  | byte high low _ ih => exact .byte high low ih

theorem Offends.ne_nil {fault : LexicalFault} {before text rest : List Char}
    (h : Offends fault before text rest) : text ≠ [] := by
  cases h <;> simp

/-! ## Findings -/

def Finding.Fits (f : Finding) (before cs : List Char) : Prop :=
  ∃ front text rest, cs = front ++ text ++ rest ∧ f.start = front.length ∧
    f.stop = front.length + text.length ∧ Offends f.fault (before ++ front) text rest

theorem Finding.Fits.front {fault : LexicalFault} {before text rest : List Char} {n : Nat}
    (h : Offends fault before text rest) (hn : n = text.length) :
    Finding.Fits ⟨fault, 0, n⟩ before (text ++ rest) := by
  refine ⟨[], text, rest, rfl, rfl, ?_, ?_⟩
  . rw [hn, List.length_nil, Nat.zero_add]
  . rwa [List.append_nil]

theorem Finding.Fits.behind {fault : LexicalFault} {before read text rest : List Char} {m n : Nat}
    (h : Offends fault (before ++ '"' :: read) text rest) (hm : m = read.length + 1)
    (hn : n = m + text.length) :
    Finding.Fits ⟨fault, m, n⟩ before ('"' :: read ++ (text ++ rest)) := by
  refine ⟨'"' :: read, text, rest, ?_, hm, ?_, h⟩
  . rw [List.append_assoc]
  . rw [hn, hm, List.length_cons]

theorem fits_pushOr {before cs : List Char} {c? : Option Char} {f : Finding} {body : StringBody}
    (hf : c? = none → f.Fits before cs) (hbody : ∀ g ∈ body.findings, g.Fits before cs) :
    ∀ g ∈ (body.pushOr c? f).findings, g.Fits before cs := by
  cases c? with
  | none => exact List.forall_mem_cons.2 ⟨hf rfl, hbody⟩
  | some c => exact hbody

theorem fits_stringBody_nil {before read cut : List Char} (hread : Unclosed read) (hcut : Cut cut)
    {n : Nat} (hn : n = read.length + 1 + cut.length) :
    ∀ f ∈ (stringBody n []).findings, f.Fits before ('"' :: read ++ cut) := by
  have hfits := Finding.Fits.front (.source hread hcut : Offends _ before _ []) rfl
  intro f hf
  obtain rfl := List.mem_singleton.1 hf
  rw [List.append_nil, List.length_append, List.length_cons, ← hn] at hfits
  exact hfits

theorem fits_stringBody_step {before read more rest : List Char} (hread : Unclosed read)
    (hmore : Unclosed more) {n : Nat} (hn : n = read.length + 1 + more.length)
    (h : ∀ {read : List Char}, Unclosed read → n = read.length + 1 →
      ∀ f ∈ (stringBody n rest).findings, f.Fits before ('"' :: read ++ rest)) :
    ∀ f ∈ (stringBody n rest).findings, f.Fits before ('"' :: read ++ (more ++ rest)) := by
  have hall := h (hread.append hmore) (by rw [hn, List.length_append]; omega)
  rwa [← List.cons_append, List.append_assoc] at hall

theorem fits_stringBody {before read : List Char} (hread : Unclosed read) {n : Nat}
    (hn : n = read.length + 1) (cs : List Char) :
    ∀ f ∈ (stringBody n cs).findings, f.Fits before ('"' :: read ++ cs) := by
  -- On the rounds of the reader: what was read grows from one to the next.
  fun_induction stringBody n cs generalizing read with
  | case1 n => exact fits_stringBody_nil hread .nil hn
  | case2 n rest =>
    have hfits := Finding.Fits.front (.line hread : Offends _ before _ rest) rfl
    rw [List.append_assoc, List.length_append, List.length_cons, ← hn] at hfits
    intro f hf
    obtain rfl := List.mem_singleton.1 hf
    exact hfits
  | case3 n rest => exact List.forall_mem_nil _
  | case4 n ih =>
    refine List.forall_mem_cons.2 ⟨.behind (.backslash hread) hn rfl, ?_⟩
    exact fits_stringBody_nil hread .backslash (by rw [hn]; rfl)
  | case5 n ih =>
    have hdigits : ([] : List Char).length ≤ 1 := Nat.zero_le 1
    refine List.forall_mem_cons.2 ⟨.behind (.cutByte hread hdigits) hn rfl, ?_⟩
    exact fits_stringBody_nil hread (.byte hdigits) (by rw [hn]; rfl)
  | case6 n c ih =>
    have hdigits : [c].length ≤ 1 := Nat.le_refl 1
    refine List.forall_mem_cons.2 ⟨.behind (.cutByte hread hdigits) hn rfl, ?_⟩
    exact fits_stringBody_nil hread (.byte hdigits) (by rw [hn]; rfl)
  | case7 n high low rest ih =>
    have hbyte (h : byteEscape? high low = none) : ¬(Text.IsHex high ∧ Text.IsHex low) := by
      rintro ⟨hhigh, hlow⟩
      rw [byteEscape?_of_isHex hhigh hlow] at h
      contradiction
    refine fits_pushOr (fun h => .behind (.byte hread (hbyte h)) hn rfl) ?_
    exact fits_stringBody_step hread (.byte high low .nil) (by rw [hn]; rfl) ih
  | case8 n c rest hx₀ hx₁ hx₂ ih =>
    have hc : c ≠ 'x' := by
      rintro rfl
      rcases rest with _ | ⟨x, _ | ⟨y, rest⟩⟩
      . exact hx₀ rfl rfl
      . exact hx₁ x rfl rfl
      . exact hx₂ x y rest rfl rfl
    have hescape (h : simpleEscape? c = none) (d : Char) : (c, d) ∉ escapes := by
      rw [mem_escapes_iff, h]
      exact Option.some_ne_none d ∘ Eq.symm
    refine fits_pushOr (fun h => .behind (.escape hread hc (hescape h)) hn rfl) ?_
    exact fits_stringBody_step hread (.escape hc .nil) (by rw [hn]; rfl) ih
  | case9 n c rest hline hquote hnil _ _ _ hcons ih =>
    have hbackslash : c ≠ '\\' := by
      intro hc
      cases rest with
      | nil => exact hnil hc rfl
      | cons d rest => exact hcons d rest hc rfl
    have hplain : Unclosed [c] := .plain ⟨hquote, hbackslash, hline⟩ .nil
    exact fits_stringBody_step hread hplain (by rw [hn]; rfl) ih

theorem not_infix_of_commentLength? {cs : List Char} (h : commentLength? cs = none) :
    ¬['*', '/'] <:+: cs := by
  fun_induction commentLength? cs with
  | case1 rest => contradiction
  | case2 c cs hopen ih =>
    rw [List.infix_cons_iff, not_or]
    refine ⟨fun hprefix => ?_, ih (Option.map_eq_none_iff.1 h)⟩
    obtain ⟨rest, hrest⟩ := hprefix
    obtain ⟨rfl, rfl⟩ := List.cons.inj hrest
    exact hopen rest rfl rfl
  | case3 => decide

theorem fits_hexNumber {before cs : List Char} {x : Char} (hx : x = 'x' ∨ x = 'X') :
    ∀ f ∈ (scan.hexNumber x (cs.takeWhile isHexDigit)).findings,
      f.Fits before ('0' :: x :: cs) := by
  unfold scan.hexNumber
  dsimp only
  split
  . next hempty =>
    rw [List.isEmpty_iff] at hempty
    have hrest : ∀ c ∈ cs.head?, ¬Text.IsHex c := by
      intro c hc
      obtain ⟨cs, rfl⟩ := List.head?_eq_some_iff.1 hc
      have hdigit : isHexDigit c = false := by simpa [List.takeWhile_cons] using hempty
      rw [Text.isHex_iff]
      exact Bool.eq_false_iff.1 hdigit
    exact List.forall_mem_singleton.2 (.front (.hex hx hrest) rfl)
  . exact List.forall_mem_nil _

theorem fits_number (before : List Char) (c : Char) (cs : List Char) :
    ∀ f ∈ (scan.number c cs).findings, f.Fits before (c :: cs) := by
  unfold scan.number
  split
  . exact fits_hexNumber (.inl rfl)
  . exact fits_hexNumber (.inr rfl)
  . exact List.forall_mem_nil _

theorem fits_scan (before : List Char) (c : Char) (cs : List Char) :
    ∀ f ∈ (scan c cs).findings, f.Fits before (c :: cs) := by
  unfold scan
  split
  . exact List.forall_mem_nil _
  . next hblank =>
    split
    . exact List.forall_mem_nil _
    . next rest =>
      split
      . exact List.forall_mem_nil _
      . next hnone =>
        have hlength : 2 + rest.length = ('/' :: '*' :: rest).length := Nat.add_comm 2 _
        have hfits : Finding.Fits ⟨.unterminatedComment, 0, 2 + rest.length⟩ before
            (('/' :: '*' :: rest) ++ []) :=
          .front (.comment (not_infix_of_commentLength? hnone)) hlength
        rw [List.append_nil] at hfits
        exact List.forall_mem_singleton.2 hfits
    all_goals try exact List.forall_mem_nil _
    . exact fits_stringBody .nil rfl _
    . next _ _ hopen hclose hleft hright hcomma hcolon hquote hline hblock _ hstack harrow =>
      split
      . exact fits_number before c cs
      . next hdigit =>
        split
        . exact List.forall_mem_nil _
        . next hstart =>
          -- None of the forms above fits, so no token and no comment starts here.
          have hpair {d e : Char} (h : ∀ tail, c = d → cs = e :: tail → False) :
              (c, cs.head?) ≠ (d, some e) := by
            intro heq
            obtain ⟨hc, hcs⟩ := Prod.mk.inj heq
            obtain ⟨tail, htail⟩ := List.head?_eq_some_iff.1 hcs
            exact h tail hc htail
          have hstart : (c.isAlpha = false ∧ c ≠ '_') ∧ c ≠ '$' := by
            simpa [isIdentifierStart] using hstart
          refine List.forall_mem_singleton.2 (.front (.unexpected ?_ ?_ ?_ ?_) rfl)
          . exact Bool.eq_false_iff.2 hblank
          . exact Bool.or_eq_false_iff.2 ⟨hstart.1.1, Bool.eq_false_iff.2 hdigit⟩
          . simp only [List.mem_cons, List.not_mem_nil, or_false, not_or]
            exact ⟨hstart.1.2, hstart.2, hopen, hclose, hleft, hright, hcomma, hcolon, hquote⟩
          . simp only [List.mem_cons, List.not_mem_nil, or_false, not_or]
            exact ⟨hpair hline, hpair hblock, hpair hstack, hpair harrow⟩

/-! ## Diagnostics -/

/--
Where a fault with `text` behind `before` is reported. Where a line feed is the last of the text,
the next line has begun when the fault is found.
-/
def reported (before text : List Char) : Span :=
  if text.getLast? = some '\n' then ⟨.behind before, .behind (before ++ text)⟩
  else .covering before text

theorem spanOf_eq_reported {before front text rest : List Char} (hne : text ≠ []) {p : Position}
    (hp : p = Position.first.after before) {start stop : Nat} (hstart : start = front.length)
    (hstop : stop = front.length + text.length) :
    spanOf p (front ++ text ++ rest) start stop = reported (before ++ front) text := by
  have hfront : (front ++ text ++ rest).take start = front := by
    rw [hstart, List.append_assoc, List.take_left]
  have htext : (front ++ text ++ rest).take stop = front ++ text := by
    rw [hstop, ← List.length_append, List.take_left]
  unfold spanOf reported Span.covering
  rw [hfront, htext, hp, ← Position.after_append, ← Position.after_append, Position.first_after,
    Position.first_after, ← List.append_assoc]
  obtain ⟨init, c, rfl⟩ : ∃ init c, text = init ++ [c] :=
    ⟨_, _, (List.dropLast_concat_getLast hne).symm⟩
  rw [List.getLast?_concat, List.dropLast_concat, ← List.append_assoc]
  split
  . next hline =>
    obtain rfl := Option.some.inj hline
    rw [Position.back_behind_newline]
  . next hline =>
    rw [Position.back_behind fun hc => hline (congrArg some hc)]

theorem faults_lexFrom (before : List Char) {p : Position} (hp : p = Position.first.after before)
    (cs : List Char) : ∀ d ∈ (lexFrom p cs).2, ∃ fault front text rest, cs = front ++ text ++ rest ∧
      Offends fault (before ++ front) text rest ∧
      d = .error fault.code fault.message (reported (before ++ front) text) := by
  -- On the pieces: a finding is in the one cut off the front, or behind it.
  fun_induction lexFrom p cs generalizing before with
  | case1 p => exact List.forall_mem_nil _
  | case2 p c cs piece others ih =>
    refine List.forall_mem_append.2 ⟨?_, ?_⟩
    . intro d hd
      obtain ⟨f, hf, rfl⟩ := List.mem_map.1 hd
      obtain ⟨front, text, rest, hcs, hstart, hstop, hoffends⟩ := fits_scan before c cs f hf
      refine ⟨f.fault, front, text, rest, hcs, hoffends, ?_⟩
      rw [hcs, spanOf_eq_reported hoffends.ne_nil hp hstart hstop]
    . intro d hd
      obtain ⟨fault, front, text, rest, hcs, hoffends, rfl⟩ :=
        ih (before ++ (c :: cs).take piece.length) (by rw [hp, Position.after_append]) d hd
      rw [List.append_assoc] at hoffends ⊢
      refine ⟨fault, _, text, rest, ?_, hoffends, rfl⟩
      rw [List.append_assoc _ front, List.append_assoc _ (front ++ text), ← hcs,
        List.take_append_drop]

end Lexer

/--
Each diagnostic of the lexer is about a text that it finds fault with, and names its place: from its
first character to the last one that was read when the fault was found, unless that is a line feed.
In that case it ends where the next line starts.
-/
theorem lex_reports (source : String) : ∀ d ∈ (lex source).2, ∃ fault before text rest,
    source.toList = before ++ text ++ rest ∧ Lexer.Offends fault before text rest ∧ text ≠ [] ∧
    d = .error fault.code fault.message d.span ∧ d.span.start = .behind before ∧
    (text.getLast? ≠ some '\n' → d.span.stop = .behind (before ++ text.dropLast)) ∧
    (text.getLast? = some '\n' → d.span.stop = .behind (before ++ text)) := by
  intro d hd
  obtain ⟨fault, before, text, rest, hsource, hoffends, rfl⟩ :=
    Lexer.faults_lexFrom [] rfl source.toList d hd
  refine ⟨fault, before, text, rest, hsource, hoffends, hoffends.ne_nil, rfl, ?_⟩
  simp only [Diagnostic.error, Lexer.reported, List.nil_append]
  split
  . next hline => exact ⟨rfl, fun h => absurd hline h, fun _ => rfl⟩
  . next hline => exact ⟨rfl, fun _ => rfl, fun h => absurd h hline⟩

theorem lex_reports_escape : ∃ d ∈ (lex "\"\\x\n5\"").2,
    (d.code = "E1004" ∧ d.span = ⟨⟨1, 2⟩, ⟨2, 1⟩⟩) ∧ ∃ fault before text rest,
    "\"\\x\n5\"".toList = before ++ text ++ rest ∧
    Lexer.Offends fault before text rest ∧ text ≠ [] ∧
    d = .error fault.code fault.message d.span ∧ d.span.start = .behind before ∧
    (text.getLast? ≠ some '\n' → d.span.stop = .behind (before ++ text.dropLast)) ∧
    (text.getLast? = some '\n' → d.span.stop = .behind (before ++ text)) := by
  have h : ∃ d ∈ (lex "\"\\x\n5\"").2, d.code = "E1004" ∧ d.span = ⟨⟨1, 2⟩, ⟨2, 1⟩⟩ := by
    decide +kernel
  obtain ⟨d, hd, hspan⟩ := h
  exact ⟨d, hd, hspan, lex_reports _ d hd⟩

/--
A comment that the end of the source cuts off behind a line feed is reported up to a line on which
nothing stands.
-/
theorem lex_reports_comment : ¬∀ source : String, ∀ d ∈ (lex source).2, ∃ before text rest,
    source.toList = before ++ text ++ rest ∧ text ≠ [] ∧ d.span = .covering before text := by
  intro hall
  have hlex : ∃ d ∈ (lex "/*\n").2, d.span = ⟨⟨1, 1⟩, ⟨2, 1⟩⟩ := by
    decide +kernel
  obtain ⟨d, hd, hspan⟩ := hlex
  obtain ⟨before, text, rest, hsource, hne, hcovering⟩ := hall _ d hd
  have hstop : Position.behind (before ++ text.dropLast) = ⟨2, 1⟩ := by
    rw [hspan] at hcovering
    exact (Span.mk.inj hcovering).2.symm
  rw [← List.dropLast_concat_getLast hne, ← List.append_assoc, List.append_assoc] at hsource
  have hlength : (before ++ text.dropLast).length < 3 := by
    have := congrArg List.length hsource
    simp only [List.length_append, List.length_singleton] at this ⊢
    have hthree : "/*\n".toList.length = 3 := by decide
    omega
  have htake : before ++ text.dropLast = "/*\n".toList.take (before ++ text.dropLast).length := by
    rw [hsource, List.take_left]
  have hfirst : ∀ n < 3, Position.behind ("/*\n".toList.take n) ≠ ⟨2, 1⟩ := by
    decide
  exact hfirst _ hlength (htake ▸ hstop)

end Splice
