import Splice.Proofs.Syntax.Layout

/-!
This module contains the proof that the text of a tree holds the words of the tree.
-/

namespace Splice

open Lexer

namespace Printer

def Prints (text : String) (words : List Word) : Prop :=
  (∀ w ∈ words, w.Lexed) → ∀ rest ws, Delimited rest → Holds rest ws →
    Holds (text.toList ++ rest) (words ++ ws)

theorem prints_name (text : String) : Prints text [.ofName text] := by
  intro hw rest ws hd h
  exact holds_identifier (hw _ List.mem_cons_self) hd h

theorem head?_of_isIdentifier {cs rest : List Char} (h : isIdentifier cs = true) :
    (cs ++ rest).head? ≠ some '=' := by
  cases cs with
  | nil => simp [isIdentifier] at h
  | cons c cs =>
    simp only [isIdentifier, Bool.and_eq_true] at h
    rintro heq
    simp only [List.cons_append, List.head?_cons, Option.some.injEq] at heq
    rw [heq] at h
    exact absurd h.1 (by decide)

theorem prints_typeSuffix (type : Option String) :
    Prints (typeSuffix type) (Word.typeSuffix type) := by
  intro hw rest ws hd h
  cases type with
  | none => exact h
  | some type =>
    have ht : isIdentifier type.toList = true := hw (.ofName type) (by simp [Word.typeSuffix])
    unfold typeSuffix Word.typeSuffix
    simp only [String.toList_append, List.append_assoc, List.cons_append]
    apply holds_colon (head?_of_isIdentifier ht)
    exact holds_identifier ht hd h

theorem delimited_typeSuffix (type : Option String) {rest : List Char} (h : Delimited rest) :
    Delimited ((typeSuffix type).toList ++ rest) := by
  cases type with
  | none => exact h
  | some type =>
    unfold typeSuffix
    rw [String.toList_append]
    exact delimited_cons (by decide) (by decide)

theorem lexed_append {u v : List Word} (h : ∀ w ∈ u ++ v, w.Lexed) :
    (∀ w ∈ u, w.Lexed) ∧ ∀ w ∈ v, w.Lexed :=
  List.forall_mem_append.1 h

theorem lexed_cons {w : Word} {ws : List Word} (h : ∀ u ∈ w :: ws, u.Lexed) :
    w.Lexed ∧ ∀ u ∈ ws, u.Lexed :=
  List.forall_mem_cons.1 h

theorem prints_binder (x : Binder) : Prints (binder x) x.words := by
  intro hw rest ws hd h
  obtain ⟨hname, htype⟩ := lexed_cons hw
  unfold binder Binder.words
  simp only [String.toList_append, List.append_assoc, List.cons_append]
  apply holds_identifier hname (delimited_typeSuffix _ hd)
  exact prints_typeSuffix x.type htype rest ws hd h

theorem prints_literal (l : Literal) : Prints (literal l) l.words := by
  intro hw rest ws hd h
  obtain ⟨htext, htype⟩ := lexed_cons hw
  have hrest := prints_typeSuffix l.type htype rest ws hd h
  have hd' := delimited_typeSuffix l.type hd
  unfold literal Literal.words
  unfold LiteralKind.tokenKind at htext ⊢
  cases hk : l.kind <;> rw [hk] at htext <;>
    simp only [String.toList_append, List.append_assoc, List.cons_append]
  . exact holds_number htext hd' hrest
  . exact holds_identifier htext hd' hrest
  . exact holds_quote l.text hrest

theorem lexed_separated {α : Type} {words : α → List Word} {as : List α}
    (h : ∀ w ∈ Word.separated (as.map words), w.Lexed) : ∀ a ∈ as, ∀ w ∈ words a, w.Lexed := by
  intro a ha w hw
  apply h
  cases as with
  | nil => simp at ha
  | cons first as =>
    simp only [List.map_cons, Word.separated, List.mem_append, List.mem_flatMap, List.mem_map]
    rcases List.mem_cons.1 ha with rfl | ha
    . exact .inl hw
    . exact .inr ⟨words a, ⟨a, ha, rfl⟩, List.mem_cons_of_mem _ hw⟩

theorem prints_intercalate {α : Type} {print : α → String} {words : α → List Word} (as : List α)
    (hp : ∀ a ∈ as, Prints (print a) (words a)) :
    Prints (", ".intercalate (as.map print)) (Word.separated (as.map words)) := by
  intro hw
  have hlexed := lexed_separated hw
  clear hw
  cases as with
  | nil =>
    intro rest ws _ h
    exact h
  | cons a as =>
    induction as generalizing a with
    | nil =>
      intro rest ws hd h
      simpa [Word.separated] using hp a (by simp) (hlexed a (by simp)) rest ws hd h
    | cons b bs ih =>
      intro rest ws hd h
      have htail := ih b (fun x hx => hp x (List.mem_cons_of_mem _ hx))
        (fun x hx => hlexed x (List.mem_cons_of_mem _ hx)) rest ws hd h
      simp only [List.map_cons, String.intercalate_cons_cons, String.toList_append,
        List.append_assoc, Word.separated, List.flatMap_cons, List.cons_append] at htail ⊢
      apply hp a (by simp) (hlexed a (by simp))
      . exact delimited_cons (by decide) (by decide)
      . exact holds_comma htail

theorem exprs_eq_map (es : List Expr) : exprs es = es.map expr := by
  induction es with
  | nil => rfl
  | cons e es ih => rw [exprs, ih, List.map_cons]

theorem prints_applied (name : String) {items : String} {words : List Word}
    (hi : Prints items words) :
    Prints (name ++ "(" ++ items ++ ")") (.ofName name :: Word.parenthesised words) := by
  intro hw rest ws _ h
  obtain ⟨hname, hw⟩ := lexed_cons hw
  obtain ⟨_, hw⟩ := lexed_cons hw
  unfold Word.parenthesised
  simp only [String.toList_append, List.append_assoc, List.cons_append]
  apply holds_identifier hname (delimited_cons (by decide) (by decide))
  apply holds_leftParen
  apply hi (lexed_append hw).1 _ _ (delimited_cons (by decide) (by decide))
  exact holds_rightParen h

mutual

theorem prints_expr : (e : Expr) → Prints (expr e) e.words
  | .literal l => prints_literal l
  | .identifier i => prints_name i.name
  | .call _ callee arguments => by
    unfold expr Expr.words
    apply prints_applied
    rw [exprs_eq_map, Expr.allWords_eq_map]
    exact prints_intercalate arguments (prints_exprs arguments)
  | .instruction _ i arguments => by
    unfold expr Expr.words
    apply prints_applied
    rw [exprs_eq_map, Expr.allWords_eq_map]
    exact prints_intercalate arguments (prints_exprs arguments)

theorem prints_exprs : (es : List Expr) → ∀ e ∈ es, Prints (expr e) e.words
  | [], _, h => absurd h List.not_mem_nil
  | e :: es, _, h => (List.mem_cons.1 h).elim (fun h => h ▸ prints_expr e) (prints_exprs es _)

end

/-! ## Statements -/

theorem prints_signature (f : Signature) : Prints (signature f) f.words := by
  intro hw rest ws hd h
  unfold Signature.words at hw ⊢
  obtain ⟨hkeyword, hw⟩ := lexed_cons hw
  obtain ⟨happlied, hreturns⟩ := lexed_append (u := .ofName f.name :: Word.parenthesised _) hw
  have hitems := prints_intercalate f.parameters fun x _ => prints_binder x
  have hprints := prints_applied f.name hitems happlied
  have hsplit : "function " = "function" ++ " " := rfl
  unfold signature
  simp only [hsplit, String.toList_append, List.append_assoc, List.cons_append] at hprints ⊢
  apply holds_keyword hkeyword
  split at hreturns
  . next hempty =>
    rw [if_pos hempty, if_pos hempty]
    exact hprints _ _ hd h
  . next hempty =>
    rw [if_neg hempty, if_neg hempty, String.toList_append, List.append_assoc]
    apply hprints _ _ (delimited_cons (by decide) (by decide))
    apply holds_arrow
    exact prints_intercalate f.returns (fun x _ => prints_binder x) (lexed_cons hreturns).2 _ _ hd h

theorem prints_stackForm (form : StackForm) : Prints (stackForm form) form.words := by
  intro hw rest ws hd h
  cases form with
  | label _ text =>
    unfold stackForm StackForm.words
    simp only [String.toList_append, List.append_assoc, List.cons_append]
    apply holds_identifier (hw _ List.mem_cons_self) (delimited_cons (by decide) (by decide))
    apply holds_colon
    . intro heq
      exact (hd _ heq).2 rfl
    . exact h
  | assignment _ target =>
    unfold stackForm StackForm.words
    simp only [String.toList_append, List.append_assoc, List.cons_append]
    apply holds_stackAssign
    exact holds_identifier (hw (.ofName target.name) (by simp [StackForm.words])) hd h
  | instruction _ i => exact prints_name i hw rest ws hd h

theorem delimited_cases (level : Nat) (cs : List Case) {rest : List Char} (h : Delimited rest) :
    Delimited ((cases level cs).toList ++ rest) := by
  cases cs with
  | nil => exact h
  | cons c cs =>
    obtain ⟨_, value, body⟩ := c
    unfold cases
    simp only [String.toList_append, List.append_assoc]
    exact delimited_cons (by decide) (by decide)

theorem delimited_indentation (level : Nat) {rest : List Char} (h : Delimited rest) :
    Delimited ((indentation level).toList ++ rest) := by
  unfold indentation
  rw [String.toList_ofList]
  cases 4 * level with
  | zero => exact h
  | succ n => exact delimited_cons (by decide) (by decide)

theorem prints_targets (targets : List Identifier) :
    Prints (", ".intercalate (targets.map Identifier.name))
      (Word.separated (targets.map fun i => [.ofName i.name])) :=
  prints_intercalate targets fun i _ => prints_name i.name

theorem prints_binders (xs : List Binder) :
    Prints (binders xs) (Word.separated (xs.map Binder.words)) :=
  prints_intercalate xs fun x _ => prints_binder x

mutual

theorem prints_stmt (level : Nat) : (s : Stmt) → Prints (stmt level s) s.words
  | .expression e => prints_expr e
  | .declaration _ vars none => by
    intro hw rest ws hd h
    unfold Stmt.words at hw ⊢
    obtain ⟨hkeyword, hvars⟩ := lexed_cons hw
    have hsplit : "let " = "let" ++ " " := rfl
    unfold stmt
    simp only [hsplit, String.toList_append, List.append_assoc, List.cons_append]
    apply holds_keyword hkeyword
    exact prints_binders vars hvars rest ws hd h
  | .declaration _ vars (some value) => by
    intro hw rest ws hd h
    unfold Stmt.words at hw ⊢
    obtain ⟨hkeyword, hw⟩ := lexed_cons hw
    obtain ⟨hvars, hw⟩ := lexed_append hw
    have hsplit : "let " = "let" ++ " " := rfl
    unfold stmt
    simp only [hsplit, String.toList_append, List.append_assoc, List.cons_append]
    apply holds_keyword hkeyword
    apply prints_binders vars hvars _ _ (delimited_cons (by decide) (by decide))
    apply holds_assign
    exact prints_expr value (lexed_cons hw).2 rest ws hd h
  | .assignment _ targets value => by
    intro hw rest ws hd h
    unfold Stmt.words at hw ⊢
    obtain ⟨htargets, hw⟩ := lexed_append hw
    unfold stmt
    simp only [String.toList_append, List.append_assoc, List.cons_append]
    apply prints_targets targets htargets _ _ (delimited_cons (by decide) (by decide))
    apply holds_assign
    exact prints_expr value (lexed_cons hw).2 rest ws hd h
  | .conditional _ condition body => by
    intro hw rest ws hd h
    unfold Stmt.words at hw ⊢
    obtain ⟨hkeyword, hw⟩ := lexed_cons hw
    obtain ⟨hcondition, hbody⟩ := lexed_append hw
    have hsplit : "if " = "if" ++ " " := rfl
    unfold stmt
    simp only [hsplit, String.toList_append, List.append_assoc, List.cons_append]
    apply holds_keyword hkeyword
    apply prints_expr condition hcondition _ _ (delimited_cons (by decide) (by decide))
    apply holds_space
    exact prints_block level body hbody rest ws hd h
  | .switch _ subject arms => by
    intro hw rest ws hd h
    unfold Stmt.words at hw ⊢
    obtain ⟨hkeyword, hw⟩ := lexed_cons hw
    obtain ⟨hsubject, harms⟩ := lexed_append hw
    have hsplit : "switch " = "switch" ++ " " := rfl
    unfold stmt
    simp only [hsplit, String.toList_append, List.append_assoc, List.cons_append]
    apply holds_keyword hkeyword
    apply prints_expr subject hsubject _ _ (delimited_cases level arms hd)
    exact prints_cases level arms harms rest ws hd h
  | .loop _ pre condition post body => by
    intro hw rest ws hd h
    unfold Stmt.words at hw ⊢
    simp only [List.cons_append, List.append_assoc] at hw ⊢
    obtain ⟨hkeyword, hw⟩ := lexed_cons hw
    obtain ⟨hpre, hw⟩ := lexed_append hw
    obtain ⟨hcondition, hw⟩ := lexed_append hw
    obtain ⟨hpost, hbody⟩ := lexed_append hw
    have hsplit : "for " = "for" ++ " " := rfl
    unfold stmt
    simp only [hsplit, String.toList_append, List.append_assoc]
    apply holds_keyword hkeyword
    apply prints_block level pre hpre _ _ (delimited_cons (by decide) (by decide))
    apply holds_space
    apply prints_expr condition hcondition _ _ (delimited_cons (by decide) (by decide))
    apply holds_space
    apply prints_block level post hpost _ _ (delimited_cons (by decide) (by decide))
    apply holds_space
    exact prints_block level body hbody rest ws hd h
  | .function ⟨f, body⟩ => by
    intro hw rest ws hd h
    unfold Stmt.words at hw ⊢
    obtain ⟨hf, hbody⟩ := lexed_append hw
    unfold stmt
    simp only [String.toList_append, List.append_assoc]
    apply prints_signature f hf _ _ (delimited_cons (by decide) (by decide))
    apply holds_space
    exact prints_block level body hbody rest ws hd h
  | .block b => prints_block level b
  | .stack form => prints_stackForm form

theorem prints_stmts (level : Nat) : (ss : List Stmt) → Prints (stmts level ss) (Stmt.allWords ss)
  | [] => fun _ _ _ _ h => h
  | s :: ss => by
    intro hw rest ws hd h
    obtain ⟨hs, hss⟩ := lexed_append hw
    unfold stmts Stmt.allWords
    simp only [String.toList_append, List.append_assoc]
    apply holds_indentation
    apply prints_stmt level s hs _ _ (delimited_cons (by decide) (by decide))
    apply holds_newline
    exact prints_stmts level ss hss rest ws hd h

theorem prints_block (level : Nat) : (b : Block) → Prints (block level b) b.words
  | ⟨_, ss⟩ => by
    intro hw rest ws hd h
    unfold Block.words at hw ⊢
    unfold block
    split
    . next hempty =>
      rw [List.isEmpty_iff.1 hempty]
      exact holds_leftBrace (holds_space (holds_rightBrace h))
    . have hsplit : "\x7b\n" = "\x7b" ++ "\n" := rfl
      simp only [hsplit, String.toList_append, List.append_assoc, List.cons_append] at hw ⊢
      apply holds_leftBrace
      apply holds_newline
      apply prints_stmts (level + 1) ss (lexed_append (lexed_cons hw).2).1
      . exact delimited_indentation level (delimited_cons (by decide) (by decide))
      . apply holds_indentation
        exact holds_rightBrace h

theorem prints_cases (level : Nat) :
    (cs : List Case) → Prints (cases level cs) (Case.allWords cs)
  | [] => fun _ _ _ _ h => h
  | ⟨_, value, body⟩ :: cs => by
    intro hw rest ws hd h
    obtain ⟨hc, hcs⟩ := lexed_append hw
    have hothers := prints_cases level cs hcs rest ws hd h
    have hd' := delimited_cases level cs hd
    unfold cases Case.allWords
    simp only [String.toList_append, List.append_assoc]
    apply holds_newline
    apply holds_indentation
    cases value with
    | none =>
      obtain ⟨hkeyword, hbody⟩ := lexed_cons hc
      have hsplit : "default " = "default" ++ " " := rfl
      unfold cases.arm Case.words
      simp only [hsplit, String.toList_append, List.append_assoc, List.cons_append]
      apply holds_keyword hkeyword
      exact prints_block level body hbody _ _ hd' hothers
    | some value =>
      unfold Case.words at hc
      obtain ⟨hkeyword, hc⟩ := lexed_cons hc
      obtain ⟨hvalue, hbody⟩ := lexed_append hc
      have hsplit : "case " = "case" ++ " " := rfl
      unfold cases.arm Case.words
      simp only [hsplit, String.toList_append, List.append_assoc, List.cons_append]
      apply holds_keyword hkeyword
      apply prints_literal value hvalue _ _ (delimited_cons (by decide) (by decide))
      apply holds_space
      exact prints_block level body hbody _ _ hd' hothers

end

end Printer
end Splice
