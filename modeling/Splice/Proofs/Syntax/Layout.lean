import Splice.Proofs.Syntax.Lexeme
import Splice.Syntax.Printer

/-!
This module contains what the lexer makes of the pieces that printed text is made of: a word is read
back as it was written if something stands behind it that does not belong to it.
-/

namespace Splice

namespace Lexer

def Holds (cs : List Char) (ws : List Word) : Prop :=
  ∀ p, (lexFrom p cs).1.map Token.word = ws ∧ (lexFrom p cs).2 = []

/--
Whether the characters do not go on with a name, a number or one of the two-character tokens.
-/
def Delimited (cs : List Char) : Prop :=
  ∀ c, cs.head? = some c → isIdentifierPart c = false ∧ c ≠ '='

theorem delimited_nil : Delimited [] := by
  intro c h
  simp at h

theorem delimited_cons {c : Char} {cs : List Char} (h : isIdentifierPart c = false)
    (h' : c ≠ '=') : Delimited (c :: cs) := by
  intro d hd
  simp only [List.head?_cons, Option.some.injEq] at hd
  subst hd
  exact ⟨h, h'⟩

theorem holds_nil : Holds [] [] := by
  intro p
  unfold lexFrom
  exact ⟨rfl, rfl⟩

theorem holds_scan (c : Char) (cs rest : List Char) (ws : List Word)
    (hf : (scan c cs).findings = []) (hrest : (c :: cs).drop (scan c cs).length = rest)
    (h : Holds rest ws) : Holds (c :: cs) ((scan c cs).token?.toList ++ ws) := by
  intro p
  unfold lexFrom
  dsimp only
  rw [hrest, List.map_append, (h _).1, (h _).2]
  unfold Piece.tokens Piece.diagnostics
  rw [hf]
  cases (scan c cs).token? <;> simp [Token.word]

theorem holds_blank {c : Char} {cs : List Char} {ws : List Word} (hc : Text.isBlank c = true)
    (h : Holds cs ws) : Holds (c :: cs) ws := by
  have hs : scan c cs = .gap 1 := by
    unfold scan
    rw [if_pos hc]
  have := holds_scan c cs cs ws
  rw [hs] at this
  exact this rfl rfl h

theorem holds_token {c : Char} {cs rest : List Char} {ws : List Word} {kind : TokenKind}
    {text : String} {n : Nat} (hn : 0 < n) (hs : scan c cs = .token kind text n hn)
    (hrest : (c :: cs).drop n = rest) (h : Holds rest ws) :
    Holds (c :: cs) ((kind, text) :: ws) := by
  have := holds_scan c cs rest ws
  rw [hs] at this
  exact this rfl hrest h

/-! ## Names and numbers -/

theorem toNat_of_isDigit {c : Char} (h : c.isDigit = true) : 48 ≤ c.toNat ∧ c.toNat ≤ 57 := by
  simp only [Char.isDigit, Bool.and_eq_true, decide_eq_true_eq, UInt32.le_iff_toNat_le] at h
  exact h

theorem toNat_of_isAlpha {c : Char} (h : c.isAlpha = true) :
    65 ≤ c.toNat ∧ c.toNat ≤ 90 ∨ 97 ≤ c.toNat ∧ c.toNat ≤ 122 := by
  rcases Bool.or_eq_true_iff.1 (h : (c.isUpper || c.isLower) = true) with h | h
  . have h : c.val ≥ 'A'.val ∧ c.val ≤ 'Z'.val := of_decide_eq_true h
    simp only [ge_iff_le, UInt32.le_iff_toNat_le] at h
    exact .inl h
  . have h := Bool.and_eq_true_iff.1 (h : (c.val ≥ 'a'.val && c.val ≤ 'z'.val) = true)
    simp only [ge_iff_le, decide_eq_true_eq, UInt32.le_iff_toNat_le] at h
    exact .inr h

theorem isDigit_of_isIdentifierStart {c : Char} (h : isIdentifierStart c = true) :
    c.isDigit = false := by
  rw [Bool.eq_false_iff]
  intro hd
  have := toNat_of_isDigit hd
  simp only [isIdentifierStart, Bool.or_eq_true, decide_eq_true_eq] at h
  rcases h with (h | rfl) | rfl
  . have := toNat_of_isAlpha h
    omega
  all_goals contradiction

theorem toNat_of_isIdentifierPart {c : Char} (h : isIdentifierPart c = true) :
    0x24 ≤ c.toNat ∧ c.toNat ≤ 0x7a := by
  simp only [isIdentifierPart, Char.isAlphanum, Bool.or_eq_true, decide_eq_true_eq] at h
  rcases h with (((h | h) | rfl) | rfl) | rfl
  . have := toNat_of_isAlpha h
    omega
  . have := toNat_of_isDigit h
    omega
  all_goals decide

theorem isBlank_of_isIdentifierPart {c : Char} (h : isIdentifierPart c = true) :
    Text.isBlank c = false := by
  have := toNat_of_isIdentifierPart h
  simp only [Text.isBlank, Text.blankRanges, List.any_cons, List.any_nil, Bool.or_false,
    Bool.or_eq_false_iff, Bool.and_eq_false_iff, decide_eq_false_iff_not]
  omega

theorem isIdentifierPart_of_isIdentifierStart {c : Char} (h : isIdentifierStart c = true) :
    isIdentifierPart c = true := by
  simp only [isIdentifierStart, isIdentifierPart, Char.isAlphanum, Bool.or_eq_true] at h ⊢
  rcases h with (h | h) | h <;> simp [h]

theorem isIdentifierPart_of_isDigit {c : Char} (h : c.isDigit = true) :
    isIdentifierPart c = true := by
  simp [isIdentifierPart, Char.isAlphanum, h]

theorem isIdentifierPart_of_isHexDigit {c : Char} (h : isHexDigit c = true) :
    isIdentifierPart c = true := by
  have hsome : (Text.digitValue? c).isSome = true := by
    simp only [isHexDigit, Text.digitIn?] at h
    revert h
    cases Text.digitValue? c <;> simp
  have hsame : ∀ d : Char, d ≤ c ↔ d.val ≤ c.val := fun d => Char.le_def
  have hsame' : ∀ d : Char, c ≤ d ↔ c.val ≤ d.val := fun d => Char.le_def
  have halpha (hc : c.isUpper = true ∨ c.isLower = true) : c.isAlpha = true :=
    Bool.or_eq_true_iff.2 hc
  simp only [isIdentifierPart, Char.isAlphanum, Bool.or_eq_true, decide_eq_true_eq, or_assoc]
  simp only [Text.digitValue?, Bool.and_eq_true, decide_eq_true_eq, hsame, hsame'] at hsome
  split at hsome
  . next hd =>
    have hd : c.isDigit = true :=
      Bool.and_eq_true_iff.2 ⟨decide_eq_true hd.1, decide_eq_true hd.2⟩
    exact .inr (.inl hd)
  . split at hsome
    . next hd =>
      have hd : c.isLower = true :=
        Bool.and_eq_true_iff.2 ⟨decide_eq_true hd.1, decide_eq_true hd.2⟩
      exact .inl (halpha (.inr hd))
    . split at hsome
      . next hd => exact .inl (halpha (.inl (decide_eq_true hd)))
      . simp at hsome

theorem scan_of_isIdentifierPart {c : Char} (h : isIdentifierPart c = true) (cs : List Char) :
    scan c cs =
      if c.isDigit then scan.number c cs
      else if isIdentifierStart c then
        .token .identifier (String.ofList (c :: cs.takeWhile isIdentifierPart))
          (c :: cs.takeWhile isIdentifierPart).length (Nat.succ_pos _)
      else ⟨1, none, [⟨.unexpectedCharacter c, 0, 1⟩], Nat.one_pos⟩ := by
  have hb := isBlank_of_isIdentifierPart h
  have hc : c ∉ ['/', '\x7b', '\x7d', '(', ')', ',', ':', '=', '-', '"'] := by
    intro hc
    simp only [List.mem_cons, List.not_mem_nil, or_false] at hc
    rcases hc with rfl | rfl | rfl | rfl | rfl | rfl | rfl | rfl | rfl | rfl <;>
      exact absurd h (by decide)
  unfold scan
  split
  . simp_all
  . split <;> simp_all

theorem takeWhile_append {p : Char → Bool} {cs rest : List Char} (h : cs.all p = true)
    (hrest : ∀ c, rest.head? = some c → p c = false) : (cs ++ rest).takeWhile p = cs := by
  rw [List.takeWhile_append_of_pos (by simpa using h)]
  cases rest with
  | nil => simp
  | cons c rest => simp [hrest c rfl]

theorem Delimited.not_identifierPart {cs : List Char} (h : Delimited cs) :
    ∀ c, cs.head? = some c → isIdentifierPart c = false :=
  fun c hc => (h c hc).1

theorem Delimited.not_digit {cs : List Char} (h : Delimited cs) :
    ∀ c, cs.head? = some c → c.isDigit = false := by
  intro c hc
  rw [Bool.eq_false_iff]
  intro hd
  have := (h c hc).1
  rw [isIdentifierPart_of_isDigit hd] at this
  contradiction

theorem Delimited.not_hexDigit {cs : List Char} (h : Delimited cs) :
    ∀ c, cs.head? = some c → isHexDigit c = false := by
  intro c hc
  rw [Bool.eq_false_iff]
  intro hd
  have := (h c hc).1
  rw [isIdentifierPart_of_isHexDigit hd] at this
  contradiction

theorem holds_identifier {text : String} {rest : List Char} {ws : List Word}
    (ht : isIdentifier text.toList = true) (hd : Delimited rest) (h : Holds rest ws) :
    Holds (text.toList ++ rest) (.ofName text :: ws) := by
  obtain ⟨cs, rfl⟩ : ∃ cs, text = String.ofList cs := ⟨text.toList, by simp⟩
  rw [String.toList_ofList] at ht ⊢
  cases cs with
  | nil => simp [isIdentifier] at ht
  | cons c cs =>
    simp only [isIdentifier, Bool.and_eq_true] at ht
    have hs := scan_of_isIdentifierPart (isIdentifierPart_of_isIdentifierStart ht.1) (cs ++ rest)
    have hn := isDigit_of_isIdentifierStart ht.1
    simp only [hn, Bool.false_eq_true, if_false, ht.1, if_true,
      takeWhile_append ht.2 hd.not_identifierPart] at hs
    exact holds_token _ hs (by simp) h

theorem scan_of_isDigit {c : Char} (h : c.isDigit = true) (cs : List Char) :
    scan c cs = scan.number c cs := by
  rw [scan_of_isIdentifierPart (isIdentifierPart_of_isDigit h), if_pos h]

theorem holds_hexNumber {x : Char} {digits rest : List Char} {ws : List Word}
    (hx : ∀ cs, scan '0' (x :: cs) = scan.hexNumber x (cs.takeWhile isHexDigit))
    (hne : digits.isEmpty = false) (hall : digits.all isHexDigit = true) (hd : Delimited rest)
    (h : Holds rest ws) :
    Holds ('0' :: x :: digits ++ rest) ((.number, String.ofList ('0' :: x :: digits)) :: ws) := by
  have hs := hx (digits ++ rest)
  rw [takeWhile_append hall hd.not_hexDigit] at hs
  have := holds_scan '0' (x :: (digits ++ rest)) rest ws
  rw [hs] at this
  unfold scan.hexNumber at this
  rw [hne] at this
  apply this
  . rfl
  . rw [show '0' :: x :: (digits ++ rest) = ['0', x] ++ digits ++ rest by simp]
    apply List.drop_left'
    simp
    omega
  . exact h

theorem holds_number {text : String} {rest : List Char} {ws : List Word}
    (ht : isNumber text.toList = true) (hd : Delimited rest) (h : Holds rest ws) :
    Holds (text.toList ++ rest) ((.number, text) :: ws) := by
  obtain ⟨cs, rfl⟩ : ∃ cs, text = String.ofList cs := ⟨text.toList, by simp⟩
  rw [String.toList_ofList] at ht ⊢
  unfold isNumber at ht
  split at ht
  . simp at ht
  . simp only [Bool.and_eq_true, Bool.not_eq_true'] at ht
    apply holds_hexNumber _ ht.1 ht.2 hd h
    intro cs
    rw [scan_of_isDigit (by decide)]
    rfl
  . simp only [Bool.and_eq_true, Bool.not_eq_true'] at ht
    apply holds_hexNumber _ ht.1 ht.2 hd h
    intro cs
    rw [scan_of_isDigit (by decide)]
    rfl
  . next c cs h₁ h₂ =>
    simp only [Bool.and_eq_true] at ht
    -- Neither `x` nor `X` is next, so that a leading zero does not start a number in base 16.
    have hx : ∀ x, isIdentifierPart x = true → x.isDigit = false → ∀ us, cs ++ rest ≠ x :: us := by
      intro x hpart hdigit us heq
      cases cs with
      | nil =>
        rw [List.nil_append] at heq
        rw [heq] at hd
        have := hd.not_identifierPart x rfl
        rw [hpart] at this
        contradiction
      | cons d ds =>
        simp only [List.cons_append, List.cons.injEq] at heq
        have hd' := ht.2
        rw [heq.1, List.all_cons, hdigit] at hd'
        contradiction
    have hs := scan_of_isDigit ht.1 (cs ++ rest)
    unfold scan.number at hs
    split at hs
    . next heq => exact absurd heq (hx 'x' (by decide) (by decide) _)
    . next heq => exact absurd heq (hx 'X' (by decide) (by decide) _)
    . simp only [takeWhile_append ht.2 hd.not_digit] at hs
      exact holds_token _ hs (by simp) h

/-! ## Strings -/

theorem byteEscape?_hexDigit {n : Nat} (h : n ≤ 0xff) :
    byteEscape? (Text.hexDigit (n / 16)) (Text.hexDigit (n % 16)) = some (Char.ofNat n) := by
  unfold byteEscape?
  rw [Text.digitIn?_hexDigit (by omega), Text.digitIn?_hexDigit (by omega)]
  dsimp only
  rw [Nat.div_add_mod']

theorem stringBody_escape (n : Nat) (c : Char) (cs : List Char) :
    stringBody n (Printer.escape c ++ cs) =
      (stringBody (n + (Printer.escape c).length) cs).push c := by
  unfold Printer.escape
  split
  . next h => subst h; rfl
  split
  . next h => subst h; rfl
  split
  . next h => subst h; rfl
  split
  . next h => subst h; rfl
  split
  . next h => subst h; rfl
  split
  . next h =>
    have hc : c.toNat ≤ 0xff := by
      simp only [Bool.or_eq_true, Bool.and_eq_true, decide_eq_true_eq] at h
      omega
    have hb := byteEscape?_hexDigit hc
    rw [Char.ofNat_toNat] at hb
    simp only [List.cons_append, List.nil_append]
    rw [stringBody, hb]
    rfl
  . next h₁ h₂ h₃ h₄ h₅ h₆ =>
    simp only [List.cons_append, List.nil_append, List.length_cons, List.length_nil]
    rw [stringBody.eq_def]
    split
    all_goals simp_all

theorem stringBody_quote (n : Nat) (cs rest : List Char) :
    stringBody n (cs.flatMap Printer.escape ++ '"' :: rest) =
      ⟨cs, n + (cs.flatMap Printer.escape).length + 1, []⟩ := by
  induction cs generalizing n with
  | nil => simp [stringBody]
  | cons c cs ih =>
    rw [List.flatMap_cons, List.append_assoc, stringBody_escape, ih]
    simp only [StringBody.push, List.length_append, Nat.add_assoc]

theorem holds_quote (text : String) {rest : List Char} {ws : List Word} (h : Holds rest ws) :
    Holds ((Printer.quote text).toList ++ rest) ((.string, text) :: ws) := by
  have hb := stringBody_quote 1 text.toList rest
  have := holds_scan '"' (text.toList.flatMap Printer.escape ++ '"' :: rest) rest ws
  have hs : ∀ cs, scan '"' cs = ⟨(stringBody 1 cs).length,
      some (.string, String.ofList (stringBody 1 cs).text), (stringBody 1 cs).findings,
      le_length_stringBody 1 cs⟩ := fun _ => rfl
  rw [hs] at this
  simp only [hb, String.ofList_toList] at this
  unfold Printer.quote
  simp only [String.toList_append, String.toList_ofList, List.append_assoc]
  apply this
  . trivial
  . rw [show '"' :: (text.toList.flatMap Printer.escape ++ '"' :: rest) =
        ('"' :: text.toList.flatMap Printer.escape ++ ['"']) ++ rest by simp]
    apply List.drop_left'
    simp
    omega
  . exact h

/-! ## Symbols and layout -/

theorem holds_space {cs : List Char} {ws : List Word} (h : Holds cs ws) :
    Holds (" ".toList ++ cs) ws :=
  holds_blank (by decide) h

theorem holds_newline {cs : List Char} {ws : List Word} (h : Holds cs ws) :
    Holds ("\n".toList ++ cs) ws :=
  holds_blank (by decide) h

theorem holds_indentation (level : Nat) {cs : List Char} {ws : List Word} (h : Holds cs ws) :
    Holds ((Printer.indentation level).toList ++ cs) ws := by
  unfold Printer.indentation
  rw [String.toList_ofList]
  induction 4 * level with
  | zero => exact h
  | succ n ih => exact holds_blank (by decide) ih

theorem holds_leftBrace {cs : List Char} {ws : List Word} (h : Holds cs ws) :
    Holds ("\x7b".toList ++ cs) (.leftBrace :: ws) :=
  holds_token (by omega) rfl rfl h

theorem holds_rightBrace {cs : List Char} {ws : List Word} (h : Holds cs ws) :
    Holds ("\x7d".toList ++ cs) (.rightBrace :: ws) :=
  holds_token (by omega) rfl rfl h

theorem holds_leftParen {cs : List Char} {ws : List Word} (h : Holds cs ws) :
    Holds ("(".toList ++ cs) (.leftParen :: ws) :=
  holds_token (by omega) rfl rfl h

theorem holds_rightParen {cs : List Char} {ws : List Word} (h : Holds cs ws) :
    Holds (")".toList ++ cs) (.rightParen :: ws) :=
  holds_token (by omega) rfl rfl h

theorem holds_comma {cs : List Char} {ws : List Word} (h : Holds cs ws) :
    Holds (", ".toList ++ cs) (.comma :: ws) :=
  holds_token (by omega) rfl rfl (holds_space h)

theorem holds_colon {cs : List Char} {ws : List Word} (hd : cs.head? ≠ some '=')
    (h : Holds cs ws) : Holds (":".toList ++ cs) (.colon :: ws) := by
  have hs : scan ':' cs = .token .colon ":" 1 := by
    cases cs with
    | nil => rfl
    | cons c cs =>
      have hc : c ≠ '=' := by
        intro hc
        rw [hc] at hd
        exact hd rfl
      unfold scan
      rw [if_neg (by decide)]
      split <;> simp_all
  exact holds_token _ hs rfl h

theorem holds_assign {cs : List Char} {ws : List Word} (h : Holds cs ws) :
    Holds (" := ".toList ++ cs) (.assign :: ws) :=
  holds_space (holds_token (by omega) rfl rfl (holds_space h))

theorem holds_stackAssign {cs : List Char} {ws : List Word} (h : Holds cs ws) :
    Holds ("=: ".toList ++ cs) (.stackAssign :: ws) :=
  holds_token (by omega) rfl rfl (holds_space h)

theorem holds_arrow {cs : List Char} {ws : List Word} (h : Holds cs ws) :
    Holds (" -> ".toList ++ cs) (.arrow :: ws) :=
  holds_space (holds_token (by omega) rfl rfl (holds_space h))

theorem holds_keyword {text : String} {cs : List Char} {ws : List Word}
    (ht : isIdentifier text.toList = true) (h : Holds cs ws) :
    Holds (text.toList ++ (" ".toList ++ cs)) (.ofName text :: ws) :=
  holds_identifier ht (delimited_cons (by decide) (by decide)) (holds_space h)

end Lexer

end Splice
