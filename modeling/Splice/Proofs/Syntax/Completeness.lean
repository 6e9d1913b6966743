import Splice.Proofs.Syntax.Parsed

/-!
This module contains the completeness of the parser: the words of a legible tree are read as that
tree, if it is not nested too deep.
-/

namespace Splice

def Word.token (w : Word) : Token :=
  ⟨w.1, w.2, .none⟩

namespace Word

@[simp]
theorem kind_token (w : Word) : w.token.kind = w.1 := rfl

@[simp]
theorem text_token (w : Word) : w.token.text = w.2 := rfl

@[simp]
theorem span_token (w : Word) : w.token.span = .none := rfl

@[simp]
theorem word_token (w : Word) : w.token.word = w := rfl

end Word

theorem Token.map_bare_eq_map_word (ts : List Token) :
    ts.map Token.bare = (ts.map Token.word).map Word.token := by
  rw [List.map_map]
  rfl

/-! ## First words -/

theorem Expr.exists_words_eq (e : Expr) : ∃ w ws, e.words = w :: ws ∧
    w.1 ∈ [TokenKind.identifier, .number, .string] := by
  cases e with
  | literal l => exact ⟨_, _, rfl, by cases l.kind <;> simp [LiteralKind.tokenKind]⟩
  | identifier i => exact ⟨_, _, rfl, List.mem_cons_self⟩
  | call _ callee arguments => exact ⟨_, _, rfl, List.mem_cons_self⟩
  | instruction _ name arguments => exact ⟨_, _, rfl, List.mem_cons_self⟩

theorem Block.exists_words_eq (b : Block) : ∃ ws, b.words = Word.leftBrace :: ws := by
  obtain ⟨_, ss⟩ := b
  exact ⟨_, rfl⟩

theorem Case.Ordered.exists_append {arms : List Case}
    (h : Case.Ordered (arms.map Case.value)) : ∃ valued default, arms = valued ++ default ∧
      (∀ c ∈ valued, ∃ l, c.value = some l) ∧ default.length ≤ 1 ∧ ∀ c ∈ default, c.value = none := by
  obtain ⟨hne, hvalues⟩ := h
  have hvalued : ∀ c ∈ arms.dropLast, ∃ l, c.value = some l := by
    intro c hc
    rw [← Option.ne_none_iff_exists']
    intro hnone
    apply hvalues
    rw [← List.map_dropLast, ← hnone]
    exact List.mem_map_of_mem hc
  have hne' : arms ≠ [] := fun heq => hne (by rw [heq, List.map_nil])
  have hlast := List.dropLast_concat_getLast hne'
  cases hvalue : (arms.getLast hne').value with
  | none =>
    refine ⟨_, _, hlast.symm, hvalued, Nat.le_refl 1, ?_⟩
    exact List.forall_mem_singleton.2 hvalue
  | some l =>
    refine ⟨arms, [], (List.append_nil arms).symm, ?_, Nat.zero_le 1, List.forall_mem_nil _⟩
    rw [← hlast, List.forall_mem_append, List.forall_mem_singleton]
    exact ⟨hvalued, l, hvalue⟩

namespace Parser

def Apart (kinds : List TokenKind) (ts : List Token) : Prop :=
  ∀ kind ∈ firstKind? ts, kind ∉ kinds

theorem apart_cons {kinds : List TokenKind} {t : Token} {ts : List Token} :
    Apart kinds (t :: ts) ↔ t.kind ∉ kinds := by
  simp [Apart, firstKind?]

theorem Apart.ne {kinds : List TokenKind} {ts : List Token} (h : Apart kinds ts) {kind : TokenKind}
    (hk : kind ∈ kinds) : firstKind? ts ≠ some kind :=
  fun heq => h kind heq hk

theorem Apart.mono {kinds kinds' : List TokenKind} {ts : List Token} (h : Apart kinds ts)
    (hsub : kinds' ⊆ kinds) : Apart kinds' ts :=
  fun kind hk hmem => h kind hk (hsub hmem)

def Reads {α : Type} (follow : List Token → Prop) (p : Parse α) (words : α → List Word)
    (bare : α → α) (a : α) : Prop :=
  ∀ rest, follow rest → p.run ((words a).map Word.token ++ rest) = .ok (bare a, rest)

variable {α : Type} {s : Setting}

theorem run_ite_pos {c : Prop} [Decidable c] {p q : Parse α} {ts : List Token}
    {r : Attempt (α × List Token)} (hc : c) (h : p.run ts = r) :
    (if c then p else q).run ts = r := by
  rwa [if_pos hc]

theorem run_ite_neg {c : Prop} [Decidable c] {p q : Parse α} {ts : List Token}
    {r : Attempt (α × List Token)} (hc : ¬c) (h : q.run ts = r) :
    (if c then p else q).run ts = r := by
  rwa [if_neg hc]

/-! ## Names and lists -/

theorem run_expect (s : Setting) (what : String) (t : Token) (rest : List Token) :
    (expect s t.kind what).run (t :: rest) = .ok (t, rest) :=
  run_expect_eq_ok.2 ⟨rfl, rfl⟩

theorem run_name {x : String} {instructions : Bool} (what : String) (hx : Usable x)
    (hi : instructions = true ∨ Instruction.isName x = false) (rest : List Token) :
    (name s what instructions).run ((Word.ofName x).token :: rest) = .ok (⟨.none, x⟩, rest) := by
  unfold name
  rw [run_bind_eq_ok]
  refine ⟨_, _, run_expect s what (Word.ofName x).token rest, ?_⟩
  have hkeyword : ¬keywords.contains x = true := by simpa using hx.not_keyword
  have hinstruction : ¬(!instructions && Instruction.isName x) = true := by
    rcases hi with hi | hi <;> simp [hi]
  exact run_ite_neg hkeyword (run_ite_neg hinstruction rfl)

theorem run_name_of_bindable {x : String} (what : String) (hx : Bindable x) (rest : List Token) :
    (name s what false).run ((Word.ofName x).token :: rest) = .ok (⟨.none, x⟩, rest) :=
  run_name what hx.toUsable (.inr hx.not_instruction) rest

section

variable {p : Parse α} {words : α → List Word} {bare : α → α}
  {follow : List Token → Prop}

theorem length_le_flatMap {as : List α} (h : ∀ a ∈ as, words a ≠ []) :
    as.length ≤ (as.flatMap words).length := by
  induction as with
  | nil => simp
  | cons a as ih =>
    have ha : 0 < (words a).length := List.length_pos_iff.2 (h a List.mem_cons_self)
    have has := ih fun b hb => h b (List.mem_cons_of_mem _ hb)
    simp only [List.flatMap_cons, List.length_append, List.length_cons]
    omega

theorem run_repeatWhile {goesOn : Parse Bool} {as : List α}
    (hgoesOn : ∀ a ∈ as, ∀ ts, goesOn.run ((words a).map Word.token ++ ts) =
      .ok (true, (words a).map Word.token ++ ts))
    (h : ∀ a ∈ as, Reads follow p words bare a)
    (hfollow : ∀ a ∈ as, ∀ ts, follow ((words a).map Word.token ++ ts)) {rest : List Token}
    (hrest : follow rest) (hend : goesOn.run rest = .ok (false, rest)) :
    (repeatWhile goesOn p).run ((as.flatMap words).map Word.token ++ rest) =
      .ok (as.map bare, rest) := by
  have hne : ∀ a ∈ as, words a ≠ [] := by
    intro a ha hnil
    have hfound := hgoesOn a ha rest
    rw [hnil, List.map_nil, List.nil_append, hend] at hfound
    cases hfound
  have hlength := length_le_flatMap hne
  -- Each item takes one round, and so does the end.
  have hgo : ∀ rounds, as.length < rounds →
      (repeatWhile.go goesOn p rounds).run ((as.flatMap words).map Word.token ++ rest) =
        .ok (as.map bare, rest) := by
    intro rounds hrounds
    clear hlength hne
    induction as generalizing rounds with
    | nil =>
      obtain ⟨rounds, rfl⟩ := Nat.exists_eq_add_one_of_ne_zero (Nat.ne_zero_of_lt hrounds)
      simp only [repeatWhile.go, run_bind_eq_ok]
      exact ⟨_, _, hend, rfl⟩
    | cons a as ih =>
      obtain ⟨rounds, rfl⟩ := Nat.exists_eq_add_one_of_ne_zero (Nat.ne_zero_of_lt hrounds)
      rw [List.forall_mem_cons] at hgoesOn h hfollow
      have hbehind : follow ((as.flatMap words).map Word.token ++ rest) := by
        cases as with
        | nil => exact hrest
        | cons b as =>
          rw [List.flatMap_cons, List.map_append, List.append_assoc]
          exact hfollow.2 b List.mem_cons_self _
      have hothers := ih hgoesOn.2 h.2 hfollow.2 rounds (Nat.lt_of_succ_lt_succ hrounds)
      rw [List.flatMap_cons, List.map_append, List.append_assoc]
      simp only [repeatWhile.go, run_bind_eq_ok]
      refine ⟨_, _, hgoesOn.1 _, run_ite_pos rfl ?_⟩
      simp only [run_bind_eq_ok]
      exact ⟨_, _, h.1 _ hbehind, _, _, hothers, rfl⟩
  rw [run_repeatWhile_eq]
  apply hgo
  simp only [List.length_append, List.length_map]
  omega

theorem run_atComma (ts : List Token) :
    atComma.run ts = .ok (decide (firstKind? ts = some .comma), ts) := rfl

theorem run_others (hcomma : ∀ ts, follow (Word.comma.token :: ts)) {as : List α}
    (h : ∀ a ∈ as, Reads follow p words bare a) {rest : List Token} (hfollow : follow rest)
    (hrest : Apart [.comma] rest) :
    (repeatWhile atComma (behindComma p)).run
        ((as.flatMap fun a => Word.comma :: words a).map Word.token ++ rest) =
      .ok (as.map bare, rest) := by
  have hitems : ∀ a ∈ as, Reads follow (behindComma p) (fun a => Word.comma :: words a) bare a :=
    fun a ha rest hrest => h a ha rest hrest
  refine run_repeatWhile (fun _ _ _ => rfl) hitems (fun _ _ _ => hcomma _) hfollow ?_
  rw [run_atComma, decide_eq_false (hrest.ne List.mem_cons_self)]

theorem run_commaSeparated (hcomma : ∀ ts, follow (Word.comma.token :: ts)) {as : List α}
    (hne : as ≠ []) (h : ∀ a ∈ as, Reads follow p words bare a) {rest : List Token}
    (hfollow : follow rest) (hrest : Apart [.comma] rest) :
    (commaSeparated p).run ((Word.separated (as.map words)).map Word.token ++ rest) =
      .ok (as.map bare, rest) := by
  cases as with
  | nil => contradiction
  | cons a as =>
    have hbehind : follow
        ((as.flatMap fun a => Word.comma :: words a).map Word.token ++ rest) := by
      cases as with
      | nil => exact hfollow
      | cons => exact hcomma _
    have ha := h a List.mem_cons_self _ hbehind
    have hothers := run_others hcomma (fun b hb => h b (List.mem_cons_of_mem _ hb)) hfollow hrest
    unfold commaSeparated
    simp only [Word.separated, List.map_cons, List.flatMap_map, List.map_append, List.append_assoc,
      run_bind_eq_ok]
    exact ⟨_, _, ha, _, _, hothers, rfl⟩

theorem run_items (hcomma : ∀ ts, follow (Word.comma.token :: ts))
    (hclose : ∀ ts, follow (Word.rightParen.token :: ts)) {as : List α}
    (hopen : ∀ a ∈ as, ∃ w ws, words a = w :: ws ∧ w.1 ≠ .rightParen)
    (h : ∀ a ∈ as, Reads follow p words bare a) (rest : List Token) :
    (items p).run
        ((Word.separated (as.map words)).map Word.token ++ Word.rightParen.token :: rest) =
      .ok (as.map bare, Word.rightParen.token :: rest) := by
  unfold items
  simp only [run_bind_eq_ok, run_peekKind_eq_ok]
  refine ⟨_, _, rfl, ?_⟩
  cases as with
  | nil => exact run_ite_pos rfl rfl
  | cons a as =>
    obtain ⟨w, ws, hw, hkind⟩ := hopen a List.mem_cons_self
    refine run_ite_neg ?_ (run_commaSeparated hcomma (List.cons_ne_nil a as) h (hclose rest)
      (apart_cons.2 (by decide)))
    simpa [Word.separated, hw, Word.token, firstKind?] using hkind

end

/-! ## Variables and expressions -/

theorem reads_typeSuffix {type : Option String} (h : s.dialect.TypeLegible type) :
    Reads (Apart [.colon]) (typeSuffix s) Word.typeSuffix id type := by
  intro rest hrest
  unfold typeSuffix
  simp only [run_bind_eq_ok, run_peekKind_eq_ok]
  refine ⟨_, _, rfl, ?_⟩
  cases type with
  | none =>
    refine run_ite_neg ?_ rfl
    rw [Bool.and_eq_true, decide_eq_true_eq]
    exact fun hc => hrest.ne List.mem_cons_self hc.2
  | some t =>
    obtain ⟨htypes, ht⟩ := h t rfl
    refine run_ite_pos ?_ ?_
    . rw [htypes]
      rfl
    . simp only [run_bind_eq_ok, run_skip_eq_ok]
      exact ⟨_, _, rfl, _, _, run_name_of_bindable _ ht rest, rfl⟩

theorem reads_binder {x : Binder} (h : x.Legible s.dialect) :
    Reads (Apart [.colon]) (binder s) Binder.words Binder.bare x := by
  intro rest hrest
  unfold binder
  simp only [run_bind_eq_ok]
  exact ⟨_, _, run_name_of_bindable _ h.1 _, _, _, reads_typeSuffix h.2 rest hrest, rfl⟩

theorem run_binders {xs : List Binder} (hne : xs ≠ []) (h : ∀ x ∈ xs, x.Legible s.dialect)
    {rest : List Token} (hrest : Apart [.colon, .comma] rest) :
    (commaSeparated (binder s)).run
        ((Word.separated (xs.map Binder.words)).map Word.token ++ rest) =
      .ok (xs.map Binder.bare, rest) :=
  run_commaSeparated (fun _ => apart_cons.2 (by decide)) hne (fun x hx => reads_binder (h x hx))
    (hrest.mono (by simp)) (hrest.mono (by simp))

theorem reads_literal {l : Literal} (h : l.Legible s.dialect) :
    Reads (Apart [.colon]) (literal s l.kind) Expr.words Expr.bare (.literal l) := by
  intro rest hrest
  unfold literal
  simp only [Expr.words, Literal.words, List.map_cons, List.cons_append, run_bind_eq_ok,
    run_next_eq_ok]
  exact ⟨_, _, rfl, _, _, reads_typeSuffix h.2.2 rest hrest, rfl⟩

/--
An expression must not be taken for a call or for something with a type.
-/
abbrev EndsExpr : List Token → Prop :=
  Apart [.leftParen, .colon]

theorem run_arguments {expression : Parse Expr} {es : List Expr}
    (h : ∀ e ∈ es, Reads EndsExpr expression Expr.words Expr.bare e) (rest : List Token) :
    (arguments s expression).run
        ((Word.separated (Expr.allWords es)).map Word.token ++ Word.rightParen.token :: rest) =
      .ok ((Expr.allBare es, Word.rightParen.token), rest) := by
  have hitems := run_items (fun _ => apart_cons.2 (by decide)) (fun _ => apart_cons.2 (by decide))
    (fun e _ => e.exists_words_eq.imp fun w => .imp fun ws hw => ⟨hw.1, by grind⟩) h rest
  unfold arguments
  rw [Expr.allWords_eq_map, Expr.allBare_eq_map]
  simp only [run_bind_eq_ok]
  exact ⟨_, _, hitems, _, _, run_expect s _ Word.rightParen.token rest, rfl⟩

theorem run_named_call {expression : Parse Expr} {x : String} (hx : Usable x) {es : List Expr}
    (h : ∀ e ∈ es, Reads EndsExpr expression Expr.words Expr.bare e) (rest : List Token) :
    (named s expression).run ((Word.ofName x ::
        Word.parenthesised (Word.separated (Expr.allWords es))).map Word.token ++ rest) =
      .ok (if Instruction.isName x then .instruction .none x (Expr.allBare es)
        else .call .none ⟨.none, x⟩ (Expr.allBare es), rest) := by
  unfold named
  simp only [Word.parenthesised, List.map_cons, List.map_append, List.cons_append,
    List.append_assoc, List.map_nil, List.nil_append, run_bind_eq_ok, run_peekKind_eq_ok]
  refine ⟨_, _, run_name _ hx (.inl rfl) _, _, _, rfl, run_ite_pos rfl ?_⟩
  simp only [run_bind_eq_ok, run_skip_eq_ok]
  refine ⟨_, _, rfl, _, _, run_arguments h rest, ?_⟩
  split <;> rfl

theorem run_named_identifier {expression : Parse Expr} {x : String} (hx : Usable x)
    {rest : List Token} (hrest : EndsExpr rest) :
    (named s expression).run ((Word.ofName x).token :: rest) =
      .ok (.identifier ⟨.none, x⟩, rest) := by
  unfold named
  simp only [run_bind_eq_ok, run_peekKind_eq_ok]
  exact ⟨_, _, run_name _ hx (.inl rfl) rest, _, _, rfl,
    run_ite_neg (hrest.ne List.mem_cons_self) rfl⟩

theorem run_expression_named {depth : Nat} {x : String} (hx : Usable x) {ts : List Token}
    {r : Attempt (Expr × List Token)}
    (h : (named s (expression s depth)).run ((Word.ofName x).token :: ts) = r) :
    (expression s (depth + 1)).run ((Word.ofName x).token :: ts) = r := by
  have hne : ¬(startsWith "true" ((Word.ofName x).token :: ts) ||
      startsWith "false" ((Word.ofName x).token :: ts)) = true := by
    have := hx.not_keyword
    simp only [keywords, List.mem_cons, List.not_mem_nil, or_false] at this
    simp only [startsWith, List.head?_cons, Option.any_some, Word.kind_token, Word.text_token,
      Word.ofName, decide_true, Bool.true_and]
    grind
  exact run_ite_neg hne h

theorem reads_expression (depth : Nat) (e : Expr) (h : e.Legible s.dialect)
    (hdepth : e.nesting ≤ depth) :
    Reads EndsExpr (expression s depth) Expr.words Expr.bare e := by
  induction depth generalizing e with
  | zero =>
    have := e.nesting_pos
    omega
  | succ depth ih =>
    have hall {es : List Expr} (hes : Expr.AllLegible s.dialect es)
        (hn : Expr.maxNesting es + 1 ≤ depth + 1) :
        ∀ e ∈ es, Reads EndsExpr (expression s depth) Expr.words Expr.bare e := by
      intro e he
      exact ih e ((Expr.allLegible_iff _ es).1 hes e he)
        ((Expr.maxNesting_le es depth).1 (Nat.le_of_succ_le_succ hn) e he)
    intro rest hrest
    cases e with
    | literal l =>
      have hrun := reads_literal h rest (hrest.mono (by simp))
      obtain ⟨_, kind, text, type⟩ := l
      cases kind with
      | number => exact hrun
      | string => exact hrun
      | boolean =>
        have htext : text = "true" ∨ text = "false" := h.2.1 rfl
        refine run_ite_pos ?_ hrun
        rcases htext with rfl | rfl <;> rfl
    | identifier i => exact run_expression_named h (run_named_identifier h hrest)
    | call _ callee arguments =>
      have hrun := run_named_call (s := s) h.1.toUsable (hall h.2 hdepth) rest
      rw [h.1.not_instruction] at hrun
      exact run_expression_named h.1.toUsable hrun
    | instruction _ name arguments =>
      have hrun := run_named_call (s := s) (Instruction.usable h.1) (hall h.2 hdepth) rest
      rw [h.1] at hrun
      exact run_expression_named (Instruction.usable h.1) hrun

/-! ## Statements -/

structure EndsStmt (ts : List Token) : Prop where
  apart : Apart [.leftParen, .colon, .comma, .assign, .arrow] ts
  not_arm : ∀ t ∈ ts.head?, t.word ≠ .ofName "case" ∧ t.word ≠ .ofName "default"

theorem EndsStmt.endsExpr {ts : List Token} (h : EndsStmt ts) : EndsExpr ts :=
  h.apart.mono (by simp)

abbrev ReadsBlock (p : Parse Block) : Block → Prop :=
  Reads (fun _ => True) p Block.words Block.bare

abbrev ReadsExpr (p : Parse Expr) : Expr → Prop :=
  Reads EndsExpr p Expr.words Expr.bare

variable {block : Parse Block} {expression : Parse Expr}

theorem endsExpr_words (b : Block) (ts : List Token) :
    EndsExpr (b.words.map Word.token ++ ts) := by
  obtain ⟨ws, hws⟩ := b.exists_words_eq
  rw [hws]
  exact apart_cons.2 (by decide)

abbrev ReadsStmt (p : Parse Stmt) : Stmt → Prop :=
  Reads EndsStmt p Stmt.words Stmt.bare

theorem reads_declaration_none {span : Span} {vars : List Binder} (hne : vars ≠ [])
    (hvars : ∀ x ∈ vars, x.Legible s.dialect) :
    ReadsStmt (declaration s expression) (.declaration span vars none) := by
  intro rest hrest
  have hspan : ((vars.map Binder.bare).getLast?.map Binder.span).getD .none = Span.none := by
    rw [List.getLast?_map]
    cases vars.getLast? <;> rfl
  unfold declaration
  simp only [Stmt.words, List.map_cons, List.cons_append, run_bind_eq_ok, run_next_eq_ok,
    run_peekKind_eq_ok]
  refine ⟨_, _, rfl, _, _, run_binders hne hvars (hrest.apart.mono (by simp)), _, _, rfl,
    run_ite_neg (hrest.apart.ne (by simp)) ?_⟩
  rw [Word.span_token, hspan]
  rfl

theorem reads_declaration_some {span : Span} {vars : List Binder} (hne : vars ≠ [])
    (hvars : ∀ x ∈ vars, x.Legible s.dialect) {value : Expr}
    (hvalue : ReadsExpr expression value) :
    ReadsStmt (declaration s expression) (.declaration span vars (some value)) := by
  intro rest hrest
  unfold declaration
  simp only [Stmt.words, List.map_cons, List.cons_append, List.map_append, List.append_assoc,
    run_bind_eq_ok, run_next_eq_ok, run_peekKind_eq_ok]
  refine ⟨_, _, rfl, _, _, run_binders hne hvars (apart_cons.2 (by decide)), _, _, rfl,
    run_ite_pos rfl ?_⟩
  simp only [run_bind_eq_ok, run_skip_eq_ok]
  refine ⟨_, _, rfl, _, _, hvalue rest hrest.endsExpr, ?_⟩
  rw [Expr.span_bare]
  rfl

theorem run_returns {xs : List Binder} (h : ∀ x ∈ xs, x.Legible s.dialect) {rest : List Token}
    (hrest : Apart [.colon, .comma, .arrow] rest) :
    (returns s).run ((if xs.isEmpty then [] else
        Word.arrow :: Word.separated (xs.map Binder.words)).map Word.token ++ rest) =
      .ok (xs.map Binder.bare, rest) := by
  unfold returns
  simp only [run_bind_eq_ok, run_peekKind_eq_ok]
  refine ⟨_, _, rfl, ?_⟩
  cases xs with
  | nil => exact run_ite_neg (hrest.ne (by simp)) rfl
  | cons x xs =>
    refine run_ite_pos rfl ?_
    simp only [run_bind_eq_ok, run_skip_eq_ok]
    exact ⟨_, _, rfl, run_binders (List.cons_ne_nil x xs) h (hrest.mono (by simp))⟩

theorem reads_function {f : Signature} (hf : f.Legible s.dialect) {body : Block}
    (hbody : ReadsBlock block body) : ReadsStmt (function s block) (.function ⟨f, body⟩) := by
  intro rest _
  have hparameters := run_items (p := binder s) (fun _ => apart_cons.2 (by decide))
    (fun _ => apart_cons.2 (by decide)) (fun x _ => ⟨_, _, rfl, by simp [Word.ofName]⟩)
    (fun x hx => reads_binder (hf.parameters x hx))
  have hapart : Apart [.colon, .comma, .arrow] (body.words.map Word.token ++ rest) := by
    obtain ⟨ws, hws⟩ := body.exists_words_eq
    rw [hws]
    exact apart_cons.2 (by decide)
  unfold function
  simp only [Stmt.words, Signature.words, Word.parenthesised, List.cons_append, List.map_cons,
    List.map_append, List.append_assoc, List.nil_append, run_bind_eq_ok, run_next_eq_ok]
  refine ⟨_, _, rfl, _, _, run_name_of_bindable _ hf.name _, _, _,
    run_expect s _ Word.leftParen.token _, _, _, hparameters _, _, _,
    run_expect s _ Word.rightParen.token _, _, _, run_returns hf.returns hapart, _, _,
    hbody rest trivial, ?_⟩
  rw [Block.span_bare]
  rfl

theorem reads_conditional {span : Span} {condition : Expr}
    (hcondition : ReadsExpr expression condition) {body : Block} (hbody : ReadsBlock block body) :
    ReadsStmt (conditional block expression) (.conditional span condition body) := by
  intro rest _
  unfold conditional
  simp only [Stmt.words, List.map_cons, List.cons_append, List.map_append, List.append_assoc,
    run_bind_eq_ok, run_next_eq_ok]
  refine ⟨_, _, rfl, _, _, hcondition _ (endsExpr_words body rest), _, _, hbody rest trivial, ?_⟩
  rw [Block.span_bare]
  rfl

theorem reads_loop {span : Span} {pre : Block} (hpre : ReadsBlock block pre) {condition : Expr}
    (hcondition : ReadsExpr expression condition) {post : Block} (hpost : ReadsBlock block post)
    {body : Block} (hbody : ReadsBlock block body) :
    ReadsStmt (loop block expression) (.loop span pre condition post body) := by
  intro rest _
  unfold loop
  simp only [Stmt.words, List.map_cons, List.cons_append, List.map_append, List.append_assoc,
    run_bind_eq_ok, run_next_eq_ok]
  refine ⟨_, _, rfl, _, _, hpre _ trivial, _, _, hcondition _ (endsExpr_words post _), _, _,
    hpost _ trivial, _, _, hbody rest trivial, ?_⟩
  rw [Block.span_bare]
  rfl

/-! ## Switches -/

theorem startsWith_eq_false {word : String} {ts : List Token}
    (h : ∀ t ∈ ts.head?, t.word ≠ .ofName word) : startsWith word ts = false := by
  rw [← Bool.not_eq_true]
  intro hword
  obtain ⟨t, us, rfl, ht⟩ := eq_cons_of_startsWith hword
  exact h t rfl ht

theorem run_peekWord (word : String) (ts : List Token) :
    (peekWord word).run ts = .ok (startsWith word ts, ts) := rfl

theorem reads_caseArm {span : Span} {l : Literal} (hl : ReadsExpr expression (.literal l))
    {body : Block} (hbody : ReadsBlock block body) :
    Reads (fun _ => True) (caseArm block expression) Case.words Case.bare
      ⟨span, some l, body⟩ := by
  intro rest _
  unfold caseArm
  simp only [Case.words, List.map_cons, List.cons_append, List.map_append, List.append_assoc,
    run_bind_eq_ok, run_next_eq_ok]
  refine ⟨_, _, rfl, _, _, hl _ (endsExpr_words body _), ?_⟩
  simp only [Expr.bare, run_bind_eq_ok]
  refine ⟨_, _, hbody rest trivial, ?_⟩
  rw [Block.span_bare]
  rfl

theorem run_caseArms {arms : List Case}
    (hvalues : ∀ c ∈ arms, ∃ l, c.value = some l ∧ ReadsExpr expression (.literal l))
    (hbodies : ∀ c ∈ arms, ReadsBlock block c.body) {rest : List Token}
    (hrest : ∀ t ∈ rest.head?, t.word ≠ .ofName "case") :
    (repeatWhile (peekWord "case") (caseArm block expression)).run
        ((Case.allWords arms).map Word.token ++ rest) =
      .ok (Case.allBare arms, rest) := by
  have harms : ∀ c ∈ arms,
      Reads (fun _ => True) (caseArm block expression) Case.words Case.bare c := by
    rintro ⟨span, value, body⟩ hc
    obtain ⟨l, rfl, hl⟩ := hvalues _ hc
    exact reads_caseArm hl (hbodies _ hc)
  rw [Case.allWords_eq_flatMap, Case.allBare_eq_map]
  refine run_repeatWhile ?_ harms (fun _ _ _ => trivial) trivial ?_
  . rintro ⟨span, value, body⟩ hc ts
    obtain ⟨l, rfl, _⟩ := hvalues _ hc
    rfl
  . rw [run_peekWord, startsWith_eq_false hrest]

theorem run_defaultArm {default : List Case} (hlength : default.length ≤ 1)
    (h : ∀ c ∈ default, c.value = none ∧ ReadsBlock block c.body) {rest : List Token}
    (hrest : ∀ t ∈ rest.head?, t.word ≠ .ofName "default") :
    (defaultArm block).run ((Case.allWords default).map Word.token ++ rest) =
      .ok (Case.allBare default, rest) := by
  unfold defaultArm
  simp only [run_bind_eq_ok, run_peekWord_eq_ok]
  refine ⟨_, _, rfl, ?_⟩
  cases default with
  | nil =>
    refine run_ite_neg ?_ rfl
    rw [Bool.not_eq_true]
    exact startsWith_eq_false hrest
  | cons c others =>
    obtain rfl := List.eq_nil_of_length_eq_zero (Nat.le_zero.1 (Nat.le_of_succ_le_succ hlength))
    obtain ⟨span, value, body⟩ := c
    obtain ⟨rfl, hbody⟩ := h _ List.mem_cons_self
    refine run_ite_pos rfl ?_
    simp only [Case.allWords, Case.words, List.append_nil, List.map_cons, List.cons_append,
      run_bind_eq_ok, run_next_eq_ok]
    refine ⟨_, _, rfl, _, _, hbody rest trivial, ?_⟩
    rw [Block.span_bare]
    rfl

theorem endsExpr_allWords (cs : List Case) {rest : List Token} (hrest : EndsStmt rest) :
    EndsExpr ((Case.allWords cs).map Word.token ++ rest) := by
  match cs with
  | [] => exact hrest.endsExpr
  | ⟨_, none, _⟩ :: _ => exact apart_cons.2 (by decide)
  | ⟨_, some _, _⟩ :: _ => exact apart_cons.2 (by decide)

theorem not_case_allWords {cs : List Case} (hcs : ∀ c ∈ cs, c.value = none) {rest : List Token}
    (hrest : EndsStmt rest) :
    ∀ t ∈ ((Case.allWords cs).map Word.token ++ rest).head?, t.word ≠ .ofName "case" := by
  match cs with
  | [] => exact fun t ht => (hrest.not_arm t ht).1
  | ⟨_, none, _⟩ :: _ =>
    intro t ht
    cases ht
    simp [Token.word, Word.token, Word.ofName]
  | ⟨_, some _, _⟩ :: _ => cases hcs _ List.mem_cons_self

theorem run_arms {arms : List Case} (hordered : Case.Ordered (arms.map Case.value))
    (hvalues : ∀ c ∈ arms, ∀ l ∈ c.value, ReadsExpr expression (.literal l))
    (hbodies : ∀ c ∈ arms, ReadsBlock block c.body) {rest : List Token} (hrest : EndsStmt rest) :
    ∃ valued default mid,
      (repeatWhile (peekWord "case") (caseArm block expression)).run
        ((Case.allWords arms).map Word.token ++ rest) = .ok (valued, mid) ∧
      (defaultArm block).run mid = .ok (default, rest) ∧ valued ++ default = Case.allBare arms := by
  obtain ⟨valued, default, rfl, hvalued, hlength, hdefault⟩ := hordered.exists_append
  rw [List.forall_mem_append] at hvalues hbodies
  have harms := run_caseArms
    (fun c hc => (hvalued c hc).imp fun l hl => ⟨hl, hvalues.1 c hc l hl⟩) hbodies.1
    (not_case_allWords hdefault hrest)
  have harm := run_defaultArm hlength (fun c hc => ⟨hdefault c hc, hbodies.2 c hc⟩)
    fun t ht => (hrest.not_arm t ht).2
  rw [Case.allWords_append, List.map_append, List.append_assoc]
  refine ⟨_, _, _, harms, harm, ?_⟩
  rw [Case.allBare_eq_map, Case.allBare_eq_map, Case.allBare_eq_map, List.map_append]

theorem reads_switch {span : Span} {subject : Expr} (hsubject : ReadsExpr expression subject)
    {arms : List Case} (hordered : Case.Ordered (arms.map Case.value))
    (hvalues : ∀ c ∈ arms, ∀ l ∈ c.value, ReadsExpr expression (.literal l))
    (hbodies : ∀ c ∈ arms, ReadsBlock block c.body) :
    ReadsStmt (switch block expression) (.switch span subject arms) := by
  intro rest hrest
  obtain ⟨valued, default, mid, harms, hdefault, hall⟩ := run_arms hordered hvalues hbodies hrest
  unfold switch
  simp only [Stmt.words, List.map_cons, List.cons_append, List.map_append, List.append_assoc,
    run_bind_eq_ok, run_next_eq_ok]
  refine ⟨_, _, rfl, _, _, hsubject _ (endsExpr_allWords arms hrest), _, _, harms, _, _, hdefault, ?_⟩
  rw [hall, Case.allBare_eq_map, List.getLast?_map]
  cases hlast : arms.getLast? with
  | none =>
    rw [List.getLast?_eq_none_iff] at hlast
    exact absurd (by rw [hlast, List.map_nil]) hordered.1
  | some last =>
    simp only [Option.map_some, Case.span_bare, Stmt.bare, Case.allBare_eq_map]
    rfl

/-! ## Statements that start with an expression -/

theorem reads_simple_expression {e : Expr} (he : ReadsExpr expression e) :
    ReadsStmt (simple s expression) (.expression e) := by
  intro rest hrest
  have hkind : ¬(firstKind? rest = some .comma || firstKind? rest = some .assign) = true := by
    simp [hrest.apart.ne]
  unfold simple
  simp only [Stmt.words, run_bind_eq_ok, run_peekKind_eq_ok]
  refine ⟨_, _, he rest hrest.endsExpr, _, _, rfl, ?_⟩
  cases e with
  | identifier i => exact run_ite_neg hkind rfl
  | _ => rfl

theorem reads_simple_assignment {span : Span} {first : Identifier} {others : List Identifier}
    (hfirst : ReadsExpr expression (.identifier first)) (hothers : ∀ i ∈ others, Bindable i.name)
    {value : Expr} (hvalue : ReadsExpr expression value) :
    ReadsStmt (simple s expression) (.assignment span (first :: others) value) := by
  intro rest hrest
  have hnames : ∀ i ∈ others, Reads (fun _ => True) (name s "a variable name" false)
      (fun i => [Word.ofName i.name]) Identifier.bare i :=
    fun i hi rest _ => run_name_of_bindable _ (hothers i hi) rest
  have hends : EndsExpr ((others.flatMap fun i => [Word.comma, Word.ofName i.name]).map Word.token ++
      Word.assign.token :: (value.words.map Word.token ++ rest)) := by
    cases others <;> exact apart_cons.2 (by decide)
  unfold simple
  simp only [Stmt.words, List.map_cons, Word.separated, List.flatMap_map, List.cons_append,
    List.nil_append, List.map_append, List.append_assoc, run_bind_eq_ok, run_peekKind_eq_ok]
  refine ⟨_, _, hfirst _ hends, _, _, rfl, run_ite_pos ?_ ?_⟩
  . cases others <;> rfl
  . simp only [run_bind_eq_ok]
    refine ⟨_, _, run_others (fun _ => trivial) hnames trivial (apart_cons.2 (by decide)), _, _,
      run_expect s _ Word.assign.token _, _, _, hvalue rest hrest.endsExpr, ?_⟩
    rw [Expr.span_bare]
    rfl

/-! ## Forms of statements -/

def leadingWords : List String :=
  ["let", "function", "if", "switch", "for", "case", "default"]

theorem notMem_leadingWords_of_usable {x : String} (h : Usable x) : x ∉ leadingWords :=
  fun hx => h.not_keyword ((by decide : leadingWords ⊆ keywords) hx)

theorem ofTokens_word {d : Dialect} {x : String} (hx : x ∉ leadingWords) (ts : List Token) :
    Form.ofTokens d ((Word.ofName x).token :: ts) =
      if d.stackForms && firstKind? ts = some .colon then .label
      else if isBareInstruction d ((Word.ofName x).token :: ts) then .instruction
      else .simple := by
  simp only [leadingWords, List.mem_cons, List.not_mem_nil, or_false, not_or] at hx
  simp [Form.ofTokens, firstKind?, secondKind?, startsWith, Word.ofName, hx]

theorem ofTokens_named {d : Dialect} {x : String} {ts : List Token} (hx : x ∉ leadingWords)
    (hts : d.stackForms = true → firstKind? ts ≠ some .colon ∧
      (firstKind? ts ≠ some .leftParen → Instruction.isName x = false)) :
    Form.ofTokens d ((Word.ofName x).token :: ts) = .simple := by
  rw [ofTokens_word hx, if_neg, if_neg]
  . intro hbare
    obtain ⟨hforms, hparen, _, hname⟩ := isBareInstruction_cons.1 hbare
    rw [Word.text_token, Word.ofName, (hts hforms).2 hparen] at hname
    cases hname
  . intro hlabel
    simp only [Bool.and_eq_true, decide_eq_true_eq] at hlabel
    exact (hts hlabel.1).1 hlabel.2

theorem ofTokens_literal {d : Dialect} {w : Word} (hw : w.1 = .number ∨ w.1 = .string)
    (ts : List Token) : Form.ofTokens d (w.token :: ts) = .simple := by
  rcases hw with hw | hw <;> simp [Form.ofTokens, isBareInstruction, firstKind?, startsWith, hw]

theorem ofTokens_expression {d : Dialect} {e : Expr} (hlegible : e.Legible d) (hleads : e.Leads d)
    {rest : List Token} (hrest : EndsStmt rest) :
    Form.ofTokens d (e.words.map Word.token ++ rest) = .simple := by
  cases e with
  | literal l =>
    obtain ⟨_, kind, text, type⟩ := l
    cases kind with
    | number => exact ofTokens_literal (.inl rfl) _
    | string => exact ofTokens_literal (.inr rfl) _
    -- A truth value is a name to the lexer, but none that a statement is told by.
    | boolean =>
      have hword : text ∉ leadingWords ∧ Instruction.isName text = false := by
        rcases hlegible.2.1 rfl with rfl | rfl <;> decide
      refine ofTokens_named hword.1 fun hforms => ⟨?_, fun _ => hword.2⟩
      cases type with
      | none => exact hrest.apart.ne (by simp)
      | some t =>
        have := (hlegible.2.2 t rfl).1
        cases d <;> simp_all [Dialect.types, Dialect.stackForms]
  | identifier i =>
    exact ofTokens_named (notMem_leadingWords_of_usable hlegible)
      fun hforms => ⟨hrest.apart.ne (by simp), fun _ => hleads hforms⟩
  | call _ callee arguments =>
    exact ofTokens_named (notMem_leadingWords_of_usable hlegible.1.toUsable)
      fun _ => ⟨nofun, fun hne => absurd rfl hne⟩
  | instruction _ name arguments =>
    exact ofTokens_named (notMem_leadingWords_of_usable (Instruction.usable hlegible.1))
      fun _ => ⟨nofun, fun hne => absurd rfl hne⟩

theorem ReadsStmt.of_form {x : Stmt} (form : Form)
    (hform : ∀ rest, EndsStmt rest →
      Form.ofTokens s.dialect (x.words.map Word.token ++ rest) = form)
    (h : ReadsStmt (statementOf s block expression form) x) :
    ReadsStmt (statement s block expression) x := by
  intro rest hrest
  unfold statement
  simp only [run_bind_eq_ok, run_get_eq_ok]
  refine ⟨_, _, rfl, ?_⟩
  rw [hform rest hrest]
  exact h rest hrest

theorem reads_assignmentStmt {span : Span} {targets : List Identifier}
    (htargets : Identifier.AllTargets s.dialect targets) {n : Nat}
    (he : ∀ e : Expr, e.Legible s.dialect → e.nesting ≤ n → ReadsExpr expression e) {value : Expr}
    (hlegible : value.Legible s.dialect) (hn : value.nesting ≤ n) :
    ReadsStmt (statement s block expression) (.assignment span targets value) := by
  cases targets with
  | nil => contradiction
  | cons first others =>
    obtain ⟨husable, hleads, hothers⟩ := htargets
    have hfirst : ReadsExpr expression (.identifier first) :=
      he _ husable (Nat.le_trans value.nesting_pos hn)
    refine .of_form .simple (fun rest _ => ?_)
      (reads_simple_assignment hfirst hothers (he value hlegible hn))
    refine ofTokens_named (notMem_leadingWords_of_usable husable) fun hforms =>
      ⟨?_, fun _ => hleads hforms⟩
    cases others <;> simp [Word.comma, Word.assign, Word.token, firstKind?]

theorem reads_stackFormStmt {form : StackForm} (hforms : s.dialect.stackForms = true)
    (hlegible : form.Legible) : ReadsStmt (statement s block expression) (.stack form) := by
  cases form with
  | label _ name =>
    refine .of_form .label (fun rest _ => ?_) fun rest _ => ?_
    . refine (ofTokens_word (notMem_leadingWords_of_usable hlegible.toUsable) _).trans (if_pos ?_)
      rw [hforms]
      rfl
    . simp only [statementOf, label, Stmt.words, StackForm.words, List.map_cons, List.cons_append,
        run_bind_eq_ok, run_next_eq_ok]
      exact ⟨_, _, run_name_of_bindable _ hlegible _, _, _, rfl, rfl⟩
  | assignment _ target =>
    refine .of_form .stackAssignment (fun rest _ => ?_) fun rest _ => ?_
    . unfold Form.ofTokens
      rw [if_neg, if_pos]
      . rw [hforms]
        rfl
      . rintro ⟨⟩
    . simp only [statementOf, stackAssignment, Stmt.words, StackForm.words, List.map_cons,
        List.cons_append, run_bind_eq_ok, run_next_eq_ok]
      exact ⟨_, _, rfl, _, _, run_name_of_bindable _ hlegible rest, rfl⟩
  | instruction _ name =>
    refine .of_form .instruction (fun rest hrest => ?_) fun rest _ => ?_
    . refine (ofTokens_word (notMem_leadingWords_of_usable (Instruction.usable hlegible)) _).trans ?_
      rw [if_neg, if_pos]
      . exact isBareInstruction_cons.2 ⟨hforms, hrest.apart.ne (by simp), rfl, hlegible⟩
      . simp [hrest.apart.ne]
    . simp only [statementOf, instruction, Stmt.words, StackForm.words, List.map_cons,
        List.cons_append, run_bind_eq_ok, run_next_eq_ok]
      exact ⟨_, _, rfl, rfl⟩

theorem reads_statement {n : Nat}
    (hb : ∀ b : Block, b.Legible s.dialect → b.nesting ≤ n → ReadsBlock block b)
    (he : ∀ e : Expr, e.Legible s.dialect → e.nesting ≤ n → ReadsExpr expression e) {x : Stmt}
    (hx : x.Legible s.dialect) (hn : x.nesting ≤ n) :
    ReadsStmt (statement s block expression) x := by
  cases x with
  | expression e =>
    exact .of_form .simple (fun _ hrest => ofTokens_expression hx.1 hx.2 hrest)
      (reads_simple_expression (he e hx.1 hn))
  | declaration _ vars value =>
    obtain ⟨hne, hvars, hvalue⟩ := hx
    cases value with
    | none => exact .of_form .declaration (fun _ _ => rfl) (reads_declaration_none hne hvars)
    | some value =>
      exact .of_form .declaration (fun _ _ => rfl)
        (reads_declaration_some hne hvars (he value (hvalue value rfl) hn))
  | assignment _ targets value => exact reads_assignmentStmt hx.1 he hx.2 hn
  | conditional _ condition body =>
    obtain ⟨hcondition, hbody⟩ := Nat.max_le.1 hn
    exact .of_form .conditional (fun _ _ => rfl)
      (reads_conditional (he condition hx.1 hcondition) (hb body hx.2 hbody))
  | switch _ subject arms =>
    obtain ⟨hsubject, harms⟩ := Nat.max_le.1 hn
    rw [Case.maxNesting_le] at harms
    obtain ⟨hlegible, hcases, hordered⟩ := hx
    rw [Case.allLegible_iff] at hcases
    have hvalues : ∀ c ∈ arms, ∀ l ∈ c.value, ReadsExpr expression (.literal l) := by
      intro c hc l hl
      exact he (.literal l) ((hcases c hc).1 l hl) (Nat.le_trans subject.nesting_pos hsubject)
    exact .of_form .switch (fun _ _ => rfl)
      (reads_switch (he subject hlegible hsubject) hordered hvalues
        fun c hc => hb c.body (hcases c hc).2 (harms c hc))
  | loop _ pre condition post body =>
    simp only [Stmt.nesting, Nat.max_le] at hn
    obtain ⟨⟨hpre, hcondition⟩, hpost, hbody⟩ := hn
    exact .of_form .loop (fun _ _ => rfl)
      (reads_loop (hb pre hx.1 hpre) (he condition hx.2.1 hcondition) (hb post hx.2.2.1 hpost)
        (hb body hx.2.2.2 hbody))
  | function f =>
    obtain ⟨f, body⟩ := f
    exact .of_form .function (fun _ _ => rfl) (reads_function hx.1 (hb body hx.2 hn))
  | block b =>
    obtain ⟨ws, hws⟩ := b.exists_words_eq
    refine .of_form .block (fun rest _ => ?_) fun rest _ => ?_
    . rw [Stmt.words, hws]
      rfl
    . simp only [statementOf, Stmt.words, run_bind_eq_ok]
      exact ⟨_, _, hb b hx hn rest trivial, rfl⟩
  | stack form => exact reads_stackFormStmt hx.1 hx.2

/-! ## Blocks -/

structure Opens (w : Word) : Prop where
  kind : w.1 ∈ [TokenKind.identifier, .number, .string, .leftBrace, .stackAssign]
  not_case : w ≠ .ofName "case"
  not_default : w ≠ .ofName "default"

theorem opens_ofName {x : String} (hcase : x ≠ "case") (hdefault : x ≠ "default") :
    Opens (.ofName x) where
  kind := List.mem_cons_self
  not_case heq := hcase (Prod.mk.inj heq).2
  not_default heq := hdefault (Prod.mk.inj heq).2

theorem opens_of_usable {x : String} (h : Usable x) : Opens (.ofName x) := by
  have hx := notMem_leadingWords_of_usable h
  simp only [leadingWords, List.mem_cons, List.not_mem_nil, or_false, not_or] at hx
  exact opens_ofName hx.2.2.2.2.2.1 hx.2.2.2.2.2.2

theorem opens_of_kind (kind : TokenKind)
    (h : kind ∈ [TokenKind.number, .string, .leftBrace, .stackAssign]) (text : String) :
    Opens (kind, text) where
  kind := List.mem_cons_of_mem _ h
  not_case heq := by
    rw [(Prod.mk.inj heq).1] at h
    contradiction
  not_default heq := by
    rw [(Prod.mk.inj heq).1] at h
    contradiction

theorem exists_opens_of_expr {d : Dialect} {e : Expr} (he : e.Legible d) :
    ∃ w ws, e.words = w :: ws ∧ Opens w := by
  cases e with
  | literal l =>
    obtain ⟨_, kind, text, type⟩ := l
    refine ⟨_, _, rfl, ?_⟩
    cases kind with
    | number => exact opens_of_kind .number (by decide) text
    | string => exact opens_of_kind .string (by decide) text
    | boolean =>
      have htext : text = "true" ∨ text = "false" := he.2.1 rfl
      rcases htext with rfl | rfl
      . exact opens_ofName (x := "true") (by decide) (by decide)
      . exact opens_ofName (x := "false") (by decide) (by decide)
  | identifier i => exact ⟨_, _, rfl, opens_of_usable he⟩
  | call _ callee arguments => exact ⟨_, _, rfl, opens_of_usable he.1.toUsable⟩
  | instruction _ name arguments => exact ⟨_, _, rfl, opens_of_usable (Instruction.usable he.1)⟩

theorem exists_opens {d : Dialect} {x : Stmt} (hx : x.Legible d) :
    ∃ w ws, x.words = w :: ws ∧ Opens w := by
  cases x with
  | expression e => exact exists_opens_of_expr hx.1
  | declaration _ vars value =>
    cases value <;> exact ⟨_, _, rfl, opens_ofName (by decide) (by decide)⟩
  | assignment _ targets value =>
    cases targets with
    | nil => cases hx.1
    | cons first others => exact ⟨_, _, rfl, opens_of_usable hx.1.1⟩
  | conditional _ condition body => exact ⟨_, _, rfl, opens_ofName (by decide) (by decide)⟩
  | switch _ subject arms => exact ⟨_, _, rfl, opens_ofName (by decide) (by decide)⟩
  | loop _ pre condition post body => exact ⟨_, _, rfl, opens_ofName (by decide) (by decide)⟩
  | function f =>
    obtain ⟨f, body⟩ := f
    exact ⟨_, _, rfl, opens_ofName (by decide) (by decide)⟩
  | block b =>
    obtain ⟨ws, hws⟩ := b.exists_words_eq
    exact ⟨_, _, hws, opens_of_kind .leftBrace (by decide) _⟩
  | stack form =>
    cases form with
    | label _ name => exact ⟨_, _, rfl, opens_of_usable hx.2.toUsable⟩
    | assignment _ target => exact ⟨_, _, rfl, opens_of_kind .stackAssign (by decide) _⟩
    | instruction _ name => exact ⟨_, _, rfl, opens_of_usable (Instruction.usable hx.2)⟩

theorem endsStmt_words {d : Dialect} {x : Stmt} (hx : x.Legible d) (ts : List Token) :
    EndsStmt (x.words.map Word.token ++ ts) := by
  obtain ⟨w, ws, hw, hkind, hcase, hdefault⟩ := exists_opens hx
  rw [hw]
  refine ⟨apart_cons.2 ?_, fun t ht => ?_⟩
  . rw [Word.kind_token]
    revert hkind
    cases w.1 <;> decide
  . cases ht
    exact ⟨hcase, hdefault⟩

theorem endsStmt_rightBrace (ts : List Token) : EndsStmt (Word.rightBrace.token :: ts) := by
  refine ⟨apart_cons.2 (by decide), fun t ht => ?_⟩
  cases ht
  exact ⟨by decide, by decide⟩

theorem run_inBlock (start : Span) {t : Token} (h : t.kind ≠ .rightBrace) (ts : List Token) :
    (inBlock start).run (t :: ts) = .ok (true, t :: ts) := by
  obtain ⟨kind, text, span⟩ := t
  cases kind
  case rightBrace => contradiction
  all_goals rfl

theorem run_statements {start : Span} {p : Parse Stmt} {d : Dialect} {ss : List Stmt}
    (hlegible : Stmt.AllLegible d ss) (h : ∀ x ∈ ss, ReadsStmt p x) (rest : List Token) :
    (repeatWhile (inBlock start) p).run
        ((Stmt.allWords ss).map Word.token ++ Word.rightBrace.token :: rest) =
      .ok (Stmt.allBare ss, Word.rightBrace.token :: rest) := by
  rw [Stmt.allLegible_iff] at hlegible
  rw [Stmt.allWords_eq_flatMap, Stmt.allBare_eq_map]
  refine run_repeatWhile ?_ h (fun x hx => endsStmt_words (hlegible x hx))
    (endsStmt_rightBrace rest) rfl
  intro x hx ts
  obtain ⟨w, ws, hw, hopens⟩ := exists_opens (hlegible x hx)
  rw [hw]
  refine run_inBlock start (fun heq => ?_) _
  have hkind := hopens.kind
  rw [← w.kind_token, heq] at hkind
  contradiction

theorem reads_block (depth : Nat) (b : Block) (h : b.Legible s.dialect) (hdepth : b.nesting ≤ depth) :
    ReadsBlock (Parser.block s depth) b := by
  induction depth generalizing b with
  | zero =>
    have := b.nesting_pos
    omega
  | succ depth ih =>
    obtain ⟨_, ss⟩ := b
    intro rest _
    have hn := (Stmt.maxNesting_le ss depth).1 (Nat.le_of_succ_le_succ hdepth)
    have hstatements : ∀ x ∈ ss,
        ReadsStmt (statement s (Parser.block s depth) (expression s depth)) x := by
      intro x hx
      exact reads_statement ih (reads_expression depth) ((Stmt.allLegible_iff _ ss).1 h x hx) (hn x hx)
    unfold Parser.block
    simp only [Block.words, List.cons_append, List.map_cons, List.map_append, List.map_nil,
      List.append_assoc, List.nil_append, run_bind_eq_ok, run_next_eq_ok]
    exact ⟨_, _, run_expect s _ Word.leftBrace.token _, _, _, run_statements h hstatements rest,
      _, _, rfl, rfl⟩

end Parser

theorem exists_parseTokens_eq {d : Dialect} {b : Block} (h : b.Legible d)
    (hn : b.nesting ≤ Parser.maxNesting) {ts : List Token} (hts : ts.map Token.word = b.words) :
    ∃ b', parseTokens d ts = .ok b' ∧ b'.bare = b.bare := by
  apply parseTokens_bare_eq_ok.1
  rw [Token.map_bare_eq_map_word, hts, parseTokens_eq_ok]
  let s : Parser.Setting := ⟨d, ((b.words.map Word.token).getLast?.map Token.span).getD .none⟩
  have hrun := Parser.reads_block (s := s) Parser.maxNesting b h hn [] trivial
  rwa [List.append_nil] at hrun

theorem Block.bare_eq_of_words_eq {d : Dialect} {b b' : Block} (hb : b.Legible d)
    (hb' : b'.Legible d) (h : b.words = b'.words) : b.bare = b'.bare := by
  let s : Parser.Setting := ⟨d, .none⟩
  have hrun := Parser.reads_block (s := s) _ b hb (Nat.le_max_left _ b'.nesting) [] trivial
  have hrun' := Parser.reads_block (s := s) _ b' hb' (Nat.le_max_right b.nesting _) [] trivial
  rw [h, hrun'] at hrun
  simpa [Attempt.ok] using hrun.symm

theorem exists_parse_print_iff {d : Dialect} {b : Block} (h : b.Legible d) :
    (∃ b', parse d b.print = .ok b' ∧ b'.bare = b.bare) ↔ b.nesting ≤ Parser.maxNesting := by
  obtain ⟨hwords, hclean⟩ := b.lex_print h.lexed
  constructor
  . rintro ⟨b', hparse, hbare⟩
    rw [← b.nesting_bare, ← hbare, b'.nesting_bare]
    exact (legible_of_parse hparse).2
  . intro hn
    obtain ⟨b', hparse, hbare⟩ := exists_parseTokens_eq h hn hwords
    exact ⟨b', parse_eq_ok.2 ⟨hparse, hclean⟩, hbare⟩

theorem bare_eq_of_parse_print {d : Dialect} {b b' : Block} (h : b.Legible d)
    (hparse : parse d b.print = .ok b') : b'.bare = b.bare := by
  obtain ⟨hwords, _⟩ := b.lex_print h.lexed
  refine Block.bare_eq_of_words_eq (legible_of_parse hparse).1 h ?_
  rw [← (words_of_parse hparse).1, hwords]

end Splice
