import Splice.Proofs.Syntax.Words
import Splice.Syntax.Parser

/-!
This module contains what the smallest parsers do, those that look at the first tokens, take one of
them or report an error, and what they tell about the tokens. To parse without an error is `.ok`.
-/

namespace Splice

namespace Attempt

variable {α β : Type}

theorem bind_eq_ok {x : Attempt α} {f : α → Attempt β} {b : β} :
    x.bind f = .ok b ↔ ∃ a, x = .ok a ∧ f a = .ok b := by
  obtain ⟨_ | a, errors⟩ := x
  . simp [bind, ok]
  . simp only [bind, ok, Attempt.mk.injEq, List.append_eq_nil_iff, Option.some.injEq]
    constructor
    . rintro ⟨hresult, rfl, herrors⟩
      refine ⟨a, ⟨rfl, rfl⟩, ?_⟩
      rw [← hresult, ← herrors]
    . rintro ⟨_, ⟨rfl, rfl⟩, h⟩
      rw [h]
      exact ⟨rfl, rfl, rfl⟩

theorem map_eq_ok {x : Attempt α} {f : α → β} {b : β} :
    x.map f = .ok b ↔ ∃ a, x = .ok a ∧ f a = b := by
  obtain ⟨_ | a, errors⟩ := x
  . simp [map, ok]
  . simp only [map, ok, Attempt.mk.injEq, Option.map_some, Option.some.injEq]
    grind

end Attempt

namespace Parser

variable {α β : Type} {ts : List Token}

/-! ## Runs without an error -/

@[simp]
theorem run_bind_eq_ok {p : Parse α} {f : α → Parse β} {r : β × List Token} :
    (p >>= f).run ts = .ok r ↔ ∃ a mid, p.run ts = .ok (a, mid) ∧ (f a).run mid = .ok r := by
  rw [StateT.run_bind]
  exact Attempt.bind_eq_ok.trans Prod.exists

@[simp]
theorem run_pure_eq_ok {a : α} {r : α × List Token} :
    (pure a : Parse α).run ts = .ok r ↔ (a, ts) = r := by
  rw [StateT.run_pure]
  simp [pure, Attempt.ok]

@[simp]
theorem run_get_eq_ok {r : List Token × List Token} :
    (get : Parse (List Token)).run ts = .ok r ↔ (ts, ts) = r := by
  rw [StateT.run_get]
  simp [pure, Attempt.ok]

@[simp]
theorem run_stop_ne_ok {r : α × List Token} : (stop : Parse α).run ts ≠ .ok r := nofun

theorem run_fail (fault : SyntaxFault) (span : Span) (ts : List Token) :
    (fail fault span : Parse α).run ts = .failed ⟨fault, span⟩ := rfl

@[simp]
theorem run_fail_ne_ok {fault : SyntaxFault} {span : Span} {r : α × List Token} :
    (fail fault span : Parse α).run ts ≠ .ok r := nofun

@[simp]
theorem run_skip_eq_ok {r : Unit × List Token} : skip.run ts = .ok r ↔ ((), ts.tail) = r := by
  unfold skip
  rw [StateT.run_modify]
  simp [pure, Attempt.ok]

@[simp]
theorem run_peekKind_eq_ok {r : Option TokenKind × List Token} :
    peekKind.run ts = .ok r ↔ (firstKind? ts, ts) = r := by
  unfold peekKind
  simp only [run_bind_eq_ok, run_get_eq_ok, run_pure_eq_ok, Prod.mk.injEq]
  grind

@[simp]
theorem run_peekWord_eq_ok {word : String} {r : Bool × List Token} :
    (peekWord word).run ts = .ok r ↔ (startsWith word ts, ts) = r := by
  unfold peekWord
  simp only [run_bind_eq_ok, run_get_eq_ok, run_pure_eq_ok, Prod.mk.injEq]
  grind

theorem run_next (t : Token) (ts : List Token) : next.run (t :: ts) = .ok (t, ts) := rfl

@[simp]
theorem run_next_eq_ok {r : Token × List Token} : next.run ts = .ok r ↔ ts = r.1 :: r.2 := by
  cases ts with
  | nil => exact iff_of_false nofun nofun
  | cons t ts =>
    rw [run_next]
    simp [Attempt.ok, Prod.ext_iff]

theorem run_expect_eq_ok {s : Setting} {kind : TokenKind} {what : String}
    {r : Token × List Token} :
    (expect s kind what).run ts = .ok r ↔ ts = r.1 :: r.2 ∧ r.1.kind = kind := by
  unfold expect
  simp only [run_bind_eq_ok, run_get_eq_ok, Prod.mk.injEq]
  cases ts with
  | nil => simp
  | cons t ts =>
    constructor
    . rintro ⟨_, _, ⟨rfl, rfl⟩, h⟩
      dsimp only [List.head?_cons] at h
      split at h
      . next hkind =>
        obtain ⟨rfl, rfl⟩ := List.cons.inj (run_next_eq_ok.1 h)
        exact ⟨rfl, hkind⟩
      . exact (run_fail_ne_ok h).elim
    . rintro ⟨hts, hkind⟩
      obtain ⟨rfl, rfl⟩ := List.cons.inj hts
      refine ⟨_, _, ⟨rfl, rfl⟩, ?_⟩
      dsimp only [List.head?_cons]
      rw [if_pos hkind, run_next]

theorem eq_cons_of_run_name {s : Setting} {what : String} {instructions : Bool} {i : Identifier}
    {rest : List Token} (h : (name s what instructions).run ts = .ok (i, rest)) :
    ∃ t, ts = t :: rest ∧ t.word = .ofName i.name ∧ i.span = t.span := by
  unfold name at h
  obtain ⟨t, mid, ht, h⟩ := run_bind_eq_ok.1 h
  obtain ⟨hts, hkind⟩ := run_expect_eq_ok.1 ht
  split at h
  . exact (run_fail_ne_ok h).elim
  . split at h
    . exact (run_fail_ne_ok h).elim
    . obtain ⟨rfl, rfl⟩ := Prod.mk.inj (run_pure_eq_ok.1 h)
      exact ⟨t, hts, congrArg (·, t.text) hkind, rfl⟩

/-! ## First tokens -/

theorem eq_cons_of_firstKind? {kind : TokenKind} (h : firstKind? ts = some kind) :
    ∃ t rest, ts = t :: rest ∧ t.kind = kind := by
  cases ts with
  | nil => contradiction
  | cons t rest => exact ⟨t, rest, rfl, Option.some.inj h⟩

theorem eq_cons_of_startsWith {word : String} (h : startsWith word ts = true) :
    ∃ t rest, ts = t :: rest ∧ t.word = .ofName word := by
  cases ts with
  | nil => contradiction
  | cons t rest =>
    refine ⟨t, rest, rfl, ?_⟩
    simpa [startsWith, Token.word, Word.ofName] using h

theorem isBareInstruction_cons {d : Dialect} {t : Token} :
    isBareInstruction d (t :: ts) = true ↔ d.stackForms = true ∧ firstKind? ts ≠ some .leftParen ∧
      t.kind = .identifier ∧ Instruction.isName t.text = true := by
  simp only [isBareInstruction, List.head?_cons, Option.any_some, Bool.and_eq_true,
    decide_eq_true_eq, and_assoc]
  exact Iff.rfl

theorem eq_cons_of_isBareInstruction {d : Dialect} (h : isBareInstruction d ts = true) :
    d.stackForms = true ∧ ∃ t rest, ts = t :: rest ∧ t.kind = .identifier ∧
      Instruction.isName t.text = true := by
  cases ts with
  | nil => simp [isBareInstruction] at h
  | cons t rest =>
    obtain ⟨hforms, _, ht⟩ := isBareInstruction_cons.1 h
    exact ⟨hforms, t, rest, rfl, ht⟩

def Form.Opens (d : Dialect) (ts : List Token) : Form → Prop
  | .block => firstKind? ts = some .leftBrace
  | .stackAssignment => firstKind? ts = some .stackAssign ∧ d.stackForms = true
  | .declaration => startsWith "let" ts = true
  | .function => startsWith "function" ts = true
  | .conditional => startsWith "if" ts = true
  | .switch => startsWith "switch" ts = true
  | .loop => startsWith "for" ts = true
  | .strayCase => startsWith "case" ts = true ∨ startsWith "default" ts = true
  | .label => d.stackForms = true ∧ firstKind? ts = some .identifier ∧ secondKind? ts = some .colon
  | .instruction => isBareInstruction d ts = true
  | .simple => isBareInstruction d ts = false

theorem Form.opens_ofTokens (d : Dialect) (ts : List Token) :
    (Form.ofTokens d ts).Opens d ts := by
  unfold Form.ofTokens
  repeat' refine iteInduction (fun h => ?_) fun h => ?_
  all_goals simpa [Form.Opens, and_assoc] using h

/-! ## Loops -/

/--
Where nothing is reported, the condition of a loop only looks at the tokens, and what it finds is
what `look` does.
-/
def Peeks (goesOn : Parse Bool) (look : List Token → Bool) : Prop :=
  ∀ ts found rest, goesOn.run ts = .ok (found, rest) → rest = ts ∧ found = look ts

theorem peeks_atComma : Peeks atComma (firstKind? · = some .comma) := by
  intro ts found rest h
  unfold atComma at h
  simp only [run_bind_eq_ok, run_peekKind_eq_ok, run_pure_eq_ok, Prod.mk.injEq] at h
  obtain ⟨_, _, ⟨rfl, rfl⟩, rfl, rfl⟩ := h
  exact ⟨rfl, rfl⟩

theorem peeks_peekWord (word : String) : Peeks (peekWord word) (startsWith word) := by
  intro ts found rest h
  obtain ⟨rfl, rfl⟩ := Prod.mk.inj (run_peekWord_eq_ok.1 h)
  exact ⟨rfl, rfl⟩

theorem peeks_inBlock (start : Span) : Peeks (inBlock start) (firstKind? · ≠ some .rightBrace) := by
  intro ts found rest h
  unfold inBlock at h
  obtain ⟨_, _, hpeek, h⟩ := run_bind_eq_ok.1 h
  obtain ⟨rfl, rfl⟩ := Prod.mk.inj (run_peekKind_eq_ok.1 hpeek)
  split at h
  . next hkind =>
    obtain ⟨rfl, rfl⟩ := Prod.mk.inj (run_pure_eq_ok.1 h)
    exact ⟨rfl, by simp [hkind]⟩
  . next hne hkind =>
    obtain ⟨rfl, rfl⟩ := Prod.mk.inj (run_pure_eq_ok.1 h)
    exact ⟨rfl, by simpa [hkind] using hne⟩
  . exact (run_fail_ne_ok h).elim

theorem run_repeatWhile_eq (goesOn : Parse Bool) (p : Parse α) (ts : List Token) :
    (repeatWhile goesOn p).run ts = (repeatWhile.go goesOn p (ts.length + 1)).run ts := rfl

theorem look_of_run_repeatWhile {goesOn : Parse Bool} {look : List Token → Bool} {p : Parse α}
    {as : List α} {rest : List Token} (hgoesOn : Peeks goesOn look)
    (h : (repeatWhile goesOn p).run ts = .ok (as, rest)) : look rest = false := by
  rw [run_repeatWhile_eq] at h
  generalize ts.length + 1 = rounds at h
  induction rounds generalizing ts as with
  | zero => exact (run_stop_ne_ok h).elim
  | succ rounds ih =>
    obtain ⟨found, mid, hfound, h⟩ := run_bind_eq_ok.1 h
    obtain ⟨rfl, rfl⟩ := hgoesOn ts found mid hfound
    split at h
    . obtain ⟨a, mid, _, h⟩ := run_bind_eq_ok.1 h
      obtain ⟨others, last, hothers, h⟩ := run_bind_eq_ok.1 h
      obtain ⟨rfl, rfl⟩ := Prod.mk.inj (run_pure_eq_ok.1 h)
      exact ih hothers
    . next hlook =>
      obtain ⟨rfl, rfl⟩ := Prod.mk.inj (run_pure_eq_ok.1 h)
      exact Bool.eq_false_iff.2 hlook

theorem eq_cons_of_run_statements {start : Span} {p : Parse α} {as : List α} {rest : List Token}
    (h : (repeatWhile (inBlock start) p).run ts = .ok (as, rest)) :
    ∃ close us, rest = close :: us ∧ close.kind = .rightBrace := by
  have hlook := look_of_run_repeatWhile (peeks_inBlock start) h
  refine eq_cons_of_firstKind? ?_
  simpa using hlook

theorem run_program_eq_ok {s : Setting} {b : Block} {rest : List Token} :
    (program s).run ts = .ok (b, rest) ↔ (block s maxNesting).run ts = .ok (b, []) ∧ rest = [] := by
  unfold program
  simp only [run_bind_eq_ok, run_get_eq_ok, Prod.mk.injEq]
  constructor
  . rintro ⟨root, mid, hroot, _, _, ⟨rfl, rfl⟩, h⟩
    split at h
    . next hhead =>
      obtain rfl := List.head?_eq_none_iff.1 hhead
      obtain ⟨rfl, rfl⟩ := Prod.mk.inj (run_pure_eq_ok.1 h)
      exact ⟨hroot, rfl⟩
    . exact (run_fail_ne_ok h).elim
  . rintro ⟨hroot, rfl⟩
    exact ⟨_, _, hroot, _, _, ⟨rfl, rfl⟩, rfl⟩

end Parser

theorem parseTokens_eq_ok {d : Dialect} {ts : List Token} {b : Block} :
    parseTokens d ts = .ok b ↔
      (Parser.block ⟨d, (ts.getLast?.map Token.span).getD .none⟩ Parser.maxNesting).run ts =
        .ok (b, []) := by
  unfold parseTokens
  rw [Attempt.map_eq_ok]
  constructor
  . rintro ⟨⟨_, rest⟩, hrun, rfl⟩
    exact (Parser.run_program_eq_ok.1 hrun).1
  . intro h
    exact ⟨(b, []), Parser.run_program_eq_ok.2 ⟨h, rfl⟩, rfl⟩

end Splice
