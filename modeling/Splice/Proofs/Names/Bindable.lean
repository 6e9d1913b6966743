import Splice.Proofs.Names.Supply
import Splice.Proofs.Syntax.Legible

/-!
This module contains the proof that the names that the passes make up can be bound: they are spelled
like names, and they are neither keywords nor instructions.
-/

namespace Splice

namespace Lexer

theorem isIdentifierPart_of_start {c : Char} (h : isIdentifierStart c = true) :
    isIdentifierPart c = true := by
  simp only [isIdentifierStart, isIdentifierPart, Char.isAlphanum, Bool.or_eq_true] at h ⊢
  exact .inl (h.imp_left fun h => h.imp_left Or.inl)

theorem isIdentifierPart_underscore : ∀ c ∈ "_".toList, isIdentifierPart c = true :=
  List.forall_mem_singleton.2 rfl

theorem isIdentifier_append {as bs : List Char} (ha : isIdentifier as = true)
    (hb : ∀ c ∈ bs, isIdentifierPart c = true) : isIdentifier (as ++ bs) = true := by
  cases as with
  | nil => contradiction
  | cons c cs =>
    simp only [isIdentifier, Bool.and_eq_true, List.all_eq_true, List.cons_append] at ha ⊢
    exact ⟨ha.1, List.forall_mem_append.2 ⟨ha.2, hb⟩⟩

theorem isIdentifier_of_append {as bs : List Char} (hne : as ≠ [])
    (h : isIdentifier (as ++ bs) = true) : isIdentifier as = true := by
  cases as with
  | nil => contradiction
  | cons c cs =>
    simp only [isIdentifier, Bool.and_eq_true, List.all_eq_true, List.cons_append] at h ⊢
    exact ⟨h.1, (List.forall_mem_append.1 h.2).1⟩

theorem isIdentifierPart_of_isIdentifier {cs : List Char} (h : isIdentifier cs = true) :
    ∀ c ∈ cs, isIdentifierPart c = true := by
  cases cs with
  | nil => contradiction
  | cons c cs =>
    simp only [isIdentifier, Bool.and_eq_true, List.all_eq_true] at h
    exact List.forall_mem_cons.2 ⟨isIdentifierPart_of_start h.1, h.2⟩

end Lexer

open Lexer

theorem notMem_keywords_of_underscore {x : String} (h : '_' ∈ x.toList) : x ∉ keywords := by
  have hall : ∀ k ∈ keywords, '_' ∉ k.toList := by decide
  exact fun hk => hall x hk h

theorem bindable_of_underscore {x : String} (hx : isIdentifier x.toList = true)
    (h : '_' ∈ x.toList) : Bindable x where
  isIdentifier := hx
  not_keyword := notMem_keywords_of_underscore h
  not_instruction := Instruction.isName_of_underscore h

theorem exists_toList_eq_stem_append (x : String) :
    ∃ cs, x.toList = (stem x).toList ++ cs ∧ (x.toList ≠ [] → (stem x).toList ≠ []) := by
  unfold stem
  dsimp only
  split
  . next d ds c rest hdigits hothers =>
    have hx : x.toList.reverse = (d :: ds) ++ '_' :: c :: rest := by
      rw [← hdigits, ← hothers, List.takeWhile_append_dropWhile]
    have hx' := congrArg List.reverse hx
    rw [List.reverse_reverse] at hx'
    refine ⟨'_' :: (d :: ds).reverse, ?_, fun _ => ?_⟩
    . rw [hx', String.toList_ofList]
      simp
    . simp
  . exact ⟨[], (List.append_nil _).symm, id⟩

theorem isIdentifier_stem {x : String} (h : isIdentifier x.toList = true) :
    isIdentifier (stem x).toList = true := by
  obtain ⟨cs, hx, hne⟩ := exists_toList_eq_stem_append x
  have hnil : x.toList ≠ [] := by
    intro heq
    rw [heq] at h
    contradiction
  rw [hx] at h
  exact isIdentifier_of_append (hne hnil) h

theorem isIdentifier_counted {x : String} (h : isIdentifier x.toList = true) (n : Nat) :
    isIdentifier (counted x n).toList = true := by
  rw [toList_counted, String.toList_append]
  refine isIdentifier_append (isIdentifier_append h isIdentifierPart_underscore) fun c hc => ?_
  have hdigit : c.isDigit = true := Text.isDigit_of_mem_toString hc
  simp [isIdentifierPart, Char.isAlphanum, hdigit]

namespace Supply

theorem bindable_fresh (supply : Supply) {label : String}
    (hlabel : isIdentifier label.toList = true) (h : Bindable label ∨ '_' ∈ label.toList) :
    Bindable (supply.fresh label).1 := by
  unfold fresh freshName
  dsimp only
  split
  . exact h.elim id (bindable_of_underscore hlabel)
  . refine bindable_of_underscore (isIdentifier_counted (isIdentifier_stem hlabel) _) ?_
    simp [toList_counted]

theorem bindable_fresh_append (supply : Supply) {a b : String} (ha : isIdentifier a.toList = true)
    (hb : isIdentifier b.toList = true) : Bindable (supply.fresh (a ++ "_" ++ b)).1 := by
  apply bindable_fresh
  . rw [String.toList_append, String.toList_append]
    exact isIdentifier_append (isIdentifier_append ha isIdentifierPart_underscore)
      (isIdentifierPart_of_isIdentifier hb)
  . simp

end Supply
end Splice
