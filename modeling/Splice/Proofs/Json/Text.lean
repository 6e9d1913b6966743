import Mathlib.Data.List.DropRight
import Splice.Proofs.Json.Strings

/-!
This module contains the proof that the text of a JSON value is read as the value. It is about the
values whose numbers are natural numbers, which are the only ones that are written.
-/

namespace Splice
namespace Json

mutual

def Natural : Json → Prop
  | .number text => ∃ n : Nat, text = toString n
  | .list items => AllNatural items
  | .object fields => FieldsNatural fields
  | _ => True

def AllNatural : List Json → Prop
  | [] => True
  | item :: items => item.Natural ∧ AllNatural items

def FieldsNatural : List (String × Json) → Prop
  | [] => True
  | (_, v) :: fields => v.Natural ∧ FieldsNatural fields

end

/-! ## Spaces -/

theorem skipSpaces_cons {c : Char} (h : isSpace c = false) (cs : List Char) :
    skipSpaces (c :: cs) = c :: cs :=
  List.dropWhile_cons_of_neg (by simp [h])

theorem skipSpaces_newLine (depth : Nat) (cs : List Char) :
    skipSpaces ((newLine depth).toList ++ cs) = skipSpaces cs := by
  unfold newLine skipSpaces
  simp only [String.toList_append, String.toList_ofList, List.append_assoc]
  refine (List.dropWhile_cons_of_pos rfl).trans ?_
  refine Eq.trans (b := ((List.replicate (2 * depth) ' ' ++ cs).dropWhile isSpace)) rfl ?_
  refine List.dropWhile_append_of_pos fun c hc => ?_
  rw [List.eq_of_mem_replicate hc]
  rfl

theorem skipSpaces_skipSpaces (cs : List Char) : skipSpaces (skipSpaces cs) = skipSpaces cs :=
  List.dropWhile_idempotent isSpace cs

theorem readValue?_skipSpaces (n : Nat) (cs : List Char) :
    readValue? n (skipSpaces cs) = readValue? n cs := by
  cases n with
  | zero => rfl
  | succ n => rw [readValue?, readValue?, skipSpaces_skipSpaces]

theorem readValue?_newLine (n depth : Nat) (cs : List Char) :
    readValue? n ((newLine depth).toList ++ cs) = readValue? n cs := by
  rw [← readValue?_skipSpaces, skipSpaces_newLine, readValue?_skipSpaces]

theorem readItems?_skipSpaces (n : Nat) (cs : List Char) :
    readItems? n (skipSpaces cs) = readItems? n cs := by
  cases n with
  | zero => rfl
  | succ n => rw [readItems?, readItems?, readValue?_skipSpaces]

theorem readFields?_skipSpaces (n : Nat) (cs : List Char) :
    readFields? n (skipSpaces cs) = readFields? n cs := by
  cases n with
  | zero => rfl
  | succ n => rw [readFields?, readFields?, skipSpaces_skipSpaces]

/-! ## The first character of a value -/

def Opens (cs : List Char) : Prop :=
  ∃ c ds, cs = c :: ds ∧ isSpace c = false ∧ c ≠ ']'

theorem opens_digits (n : Nat) : Opens (Nat.toDigits 10 n) := by
  obtain ⟨c, ds, hds⟩ := List.exists_cons_of_ne_nil
    (Nat.toDigits_ne_nil : Nat.toDigits 10 n ≠ [])
  have hdigit : c.isDigit = true := Text.isDigit_of_mem_toDigits (n := n) (hds ▸ List.mem_cons_self)
  refine ⟨c, ds, hds, ?_, ?_⟩
  . unfold isSpace
    simp only [Bool.or_eq_false_iff, decide_eq_false_iff_not]
    refine ⟨⟨⟨?_, ?_⟩, ?_⟩, ?_⟩ <;> rintro rfl <;> contradiction
  . rintro rfl
    contradiction

/-! ## The characters of a value -/

theorem pretty_list_nil (depth : Nat) : pretty depth (.list []) = "[]" := by
  rw [pretty]
  rfl

theorem pretty_object_nil (depth : Nat) : pretty depth (.object []) = "\x7b\x7d" := by
  rw [pretty]
  rfl

theorem toList_pretty_list (depth : Nat) (item : Json) (items : List Json) :
    (pretty depth (.list (item :: items))).toList =
      '[' :: ((",".intercalate (prettyItems (depth + 1) (item :: items))).toList ++
        ((newLine depth).toList ++ [']'])) := by
  simp only [pretty, List.isEmpty_cons, Bool.false_eq_true, if_false, String.toList_append,
    List.append_assoc]
  rfl

theorem toList_pretty_object (depth : Nat) (field : String × Json)
    (fields : List (String × Json)) :
    (pretty depth (.object (field :: fields))).toList =
      '\x7b' :: ((",".intercalate (prettyFields (depth + 1) (field :: fields))).toList ++
        ((newLine depth).toList ++ ['\x7d'])) := by
  simp only [pretty, List.isEmpty_cons, Bool.false_eq_true, if_false, String.toList_append,
    List.append_assoc]
  rfl

theorem opens_pretty {j : Json} (h : j.Natural) (depth : Nat) : Opens (j.pretty depth).toList := by
  cases j with
  | null =>
    rw [pretty]
    exact ⟨'n', _, rfl, rfl, by decide⟩
  | boolean b =>
    rw [pretty]
    cases b with
    | false => exact ⟨'f', _, rfl, rfl, by decide⟩
    | true => exact ⟨'t', _, rfl, rfl, by decide⟩
  | number text =>
    obtain ⟨n, rfl⟩ := h
    rw [pretty, Text.toList_toString]
    exact opens_digits n
  | string text =>
    rw [pretty, toList_quote]
    exact ⟨'"', _, rfl, rfl, by decide⟩
  | list items =>
    cases items with
    | nil =>
      rw [pretty_list_nil]
      exact ⟨'[', _, rfl, rfl, by decide⟩
    | cons item items =>
      rw [toList_pretty_list]
      exact ⟨'[', _, rfl, rfl, by decide⟩
  | object fields =>
    cases fields with
    | nil =>
      rw [pretty_object_nil]
      exact ⟨'\x7b', _, rfl, rfl, by decide⟩
    | cons field fields =>
      rw [toList_pretty_object]
      exact ⟨'\x7b', _, rfl, rfl, by decide⟩

/-! ## One round of reading -/

theorem readValue?_string (n : Nat) (text rest : List Char) :
    readValue? (n + 1) ('"' :: (text.flatMap escape ++ '"' :: rest)) =
      some (string (String.ofList text), rest) := by
  rw [readValue?, skipSpaces_cons rfl]
  simp only [readString?_escaped, Option.bind_eq_bind, Option.bind_some, Option.pure_def]

theorem readValue?_number (n m : Nat) {rest : List Char} (h : EndsNumber rest) :
    readValue? (n + 1) (Nat.toDigits 10 m ++ rest) = some (ofNat m, rest) := by
  obtain ⟨c, ds, hds⟩ := List.exists_cons_of_ne_nil
    (Nat.toDigits_ne_nil : Nat.toDigits 10 m ≠ [])
  have hdigit : c.isDigit = true := Text.isDigit_of_mem_toDigits (n := m) (hds ▸ List.mem_cons_self)
  have hspace : skipSpaces (Nat.toDigits 10 m ++ rest) = Nat.toDigits 10 m ++ rest := by
    obtain ⟨c, ds, hds, hc, -⟩ := opens_digits m
    rw [hds]
    exact skipSpaces_cons hc _
  have hnumber := readNumber?_digits (n := m) h
  rw [readValue?, hspace]
  -- No other kind of value starts with a digit.
  split
  iterate 6
    . next heq =>
      rw [hds, List.cons_append, List.cons.injEq] at heq
      rw [heq.1] at hdigit
      contradiction
  . rw [hnumber]
    simp only [Option.bind_eq_bind, Option.bind_some, Option.pure_def, ← Text.toList_toString,
      String.ofList_toList]
    rfl

theorem readValue?_list (n : Nat) {cs ds : List Char} (hcs : Opens cs)
    (hds : skipSpaces ds = cs) :
    readValue? (n + 1) ('[' :: ds) =
      (readItems? n cs).map fun (items, rest) => (.list items, rest) := by
  obtain ⟨c, cs, rfl, -, hc⟩ := hcs
  rw [readValue?, skipSpaces_cons rfl]
  simp only [hds]
  split
  . next heq => exact (hc (List.cons.inj heq).1).elim
  . cases readItems? n (c :: cs) <;> rfl

theorem readValue?_object (n : Nat) {cs ds : List Char} (hds : skipSpaces ds = '"' :: cs) :
    readValue? (n + 1) ('\x7b' :: ds) =
      (readFields? n ('"' :: cs)).map fun (fields, rest) => (.object fields, rest) := by
  rw [readValue?, skipSpaces_cons rfl]
  simp only [hds]
  split
  . next heq => exact absurd (List.cons.inj heq).1 (by decide)
  . cases readFields? n ('"' :: cs) <;> rfl

/-! ## Whole values -/

theorem endsNumber_cons {c : Char} (h : c.isDigit = false ∧ c ≠ '.' ∧ c ≠ 'e' ∧ c ≠ 'E')
    (rest : List Char) : EndsNumber (c :: rest) := by
  intro d hd
  obtain rfl := Option.some.inj hd
  exact h

theorem endsNumber_newLine (depth : Nat) (rest : List Char) :
    EndsNumber ((newLine depth).toList ++ rest) := by
  unfold newLine
  rw [String.toList_append, List.append_assoc]
  exact endsNumber_cons (by decide) _

def itemsTail (depth : Nat) : List Json → List Char
  | [] => []
  | item :: items => ',' :: (",".intercalate (prettyItems depth (item :: items))).toList

def fieldsTail (depth : Nat) : List (String × Json) → List Char
  | [] => []
  | field :: fields => ',' :: (",".intercalate (prettyFields depth (field :: fields))).toList

theorem toList_prettyItems (depth : Nat) (item : Json) (items : List Json) :
    (",".intercalate (prettyItems depth (item :: items))).toList =
      (newLine depth).toList ++ ((item.pretty depth).toList ++ itemsTail depth items) := by
  cases items with
  | nil =>
    simp only [prettyItems, String.intercalate_singleton, String.toList_append, itemsTail,
      List.append_nil]
  | cons next items =>
    simp only [prettyItems, String.intercalate_cons_cons, String.toList_append, itemsTail,
      List.append_assoc]
    rfl

theorem toList_prettyFields (depth : Nat) (name : String) (v : Json)
    (fields : List (String × Json)) :
    (",".intercalate (prettyFields depth ((name, v) :: fields))).toList =
      (newLine depth).toList ++ ('"' :: (name.toList.flatMap escape ++ '"' :: ':' :: ' ' ::
        ((v.pretty depth).toList ++ fieldsTail depth fields))) := by
  cases fields with
  | nil =>
    simp only [prettyFields, String.intercalate_singleton, String.toList_append, toList_quote,
      fieldsTail, List.append_nil, List.append_assoc, List.cons_append, List.nil_append]
    rfl
  | cons next fields =>
    simp only [prettyFields, String.intercalate_cons_cons, String.toList_append, toList_quote,
      fieldsTail, List.append_assoc, List.cons_append, List.nil_append]
    rfl

def Reads (j : Json) : Prop :=
  ∀ (depth n : Nat) (rest : List Char), 2 * (j.pretty depth).toList.length < n → EndsNumber rest →
    readValue? n ((j.pretty depth).toList ++ rest) = some (j, rest)

theorem endsNumber_itemsTail (depth outer : Nat) (items : List Json) (rest : List Char) :
    EndsNumber (itemsTail depth items ++ ((newLine outer).toList ++ rest)) := by
  cases items with
  | nil => exact endsNumber_newLine outer rest
  | cons item items => exact endsNumber_cons (by decide) _

theorem endsNumber_fieldsTail (depth outer : Nat) (fields : List (String × Json))
    (rest : List Char) :
    EndsNumber (fieldsTail depth fields ++ ((newLine outer).toList ++ rest)) := by
  cases fields with
  | nil => exact endsNumber_newLine outer rest
  | cons field fields => exact endsNumber_cons (by decide) _

theorem readItems?_pretty (depth outer : Nat) (rest : List Char) (item : Json) (items : List Json)
    (h : ∀ j ∈ item :: items, j.Reads) (n : Nat)
    (hn : 2 * (",".intercalate (prettyItems depth (item :: items))).toList.length + 1 < n) :
    readItems? n ((",".intercalate (prettyItems depth (item :: items))).toList ++
      ((newLine outer).toList ++ ']' :: rest)) = some (item :: items, rest) := by
  induction items generalizing item n with
  | nil =>
    obtain ⟨n, rfl⟩ : ∃ m, n = m + 1 := ⟨n - 1, by omega⟩
    rw [toList_prettyItems] at hn ⊢
    simp only [List.length_append] at hn
    have hitem := h item List.mem_cons_self depth n _ (by omega)
      (endsNumber_itemsTail depth outer [] (']' :: rest))
    rw [readItems?, List.append_assoc, List.append_assoc, readValue?_newLine, hitem]
    simp only [itemsTail, List.nil_append, skipSpaces_newLine, skipSpaces_cons (c := ']') rfl,
      Option.bind_eq_bind, Option.bind_some, Option.pure_def]
  | cons next items ih =>
    obtain ⟨n, rfl⟩ : ∃ m, n = m + 1 := ⟨n - 1, by omega⟩
    rw [toList_prettyItems] at hn ⊢
    simp only [itemsTail, List.length_append, List.length_cons] at hn
    have hitem := h item List.mem_cons_self depth n _ (by omega)
      (endsNumber_itemsTail depth outer (next :: items) (']' :: rest))
    have hitems := ih next (fun j hj => h j (List.mem_cons_of_mem _ hj)) n (by omega)
    rw [readItems?, List.append_assoc, List.append_assoc, readValue?_newLine, hitem]
    simp only [itemsTail, List.cons_append, skipSpaces_cons (c := ',') rfl, Option.bind_eq_bind,
      Option.bind_some, hitems, Option.pure_def]

theorem Reads.behind_space {v : Json} (h : v.Reads) (depth n : Nat) {rest : List Char}
    (hn : 2 * (v.pretty depth).toList.length < n) (hrest : EndsNumber rest) :
    readValue? n (' ' :: ((v.pretty depth).toList ++ rest)) = some (v, rest) := by
  have hspace : skipSpaces (' ' :: ((v.pretty depth).toList ++ rest)) =
      skipSpaces ((v.pretty depth).toList ++ rest) := List.dropWhile_cons_of_pos rfl
  rw [← readValue?_skipSpaces, hspace, readValue?_skipSpaces]
  exact h depth n rest hn hrest

theorem readFields?_pretty (depth outer : Nat) (rest : List Char) (field : String × Json)
    (fields : List (String × Json)) (h : ∀ f ∈ field :: fields, f.2.Reads) (n : Nat)
    (hn : 2 * (",".intercalate (prettyFields depth (field :: fields))).toList.length + 1 < n) :
    readFields? n ((",".intercalate (prettyFields depth (field :: fields))).toList ++
      ((newLine outer).toList ++ '\x7d' :: rest)) = some (field :: fields, rest) := by
  induction fields generalizing field n with
  | nil =>
    obtain ⟨n, rfl⟩ : ∃ m, n = m + 1 := ⟨n - 1, by omega⟩
    obtain ⟨name, v⟩ := field
    rw [toList_prettyFields] at hn ⊢
    simp only [List.length_append, List.length_cons] at hn
    have hv : v.Reads := h (name, v) List.mem_cons_self
    have hvalue := hv.behind_space depth n (by omega)
      (endsNumber_fieldsTail depth outer [] ('\x7d' :: rest))
    simp only [List.append_assoc, List.cons_append]
    rw [readFields?, skipSpaces_newLine, skipSpaces_cons rfl]
    simp only [readString?_escaped, skipSpaces_cons (c := ':') rfl, hvalue, Option.bind_eq_bind,
      Option.bind_some]
    simp only [fieldsTail, List.nil_append, skipSpaces_newLine, skipSpaces_cons (c := '\x7d') rfl,
      String.ofList_toList, Option.pure_def]
  | cons next fields ih =>
    obtain ⟨n, rfl⟩ : ∃ m, n = m + 1 := ⟨n - 1, by omega⟩
    obtain ⟨name, v⟩ := field
    rw [toList_prettyFields] at hn ⊢
    simp only [fieldsTail, List.length_append, List.length_cons] at hn
    have hv : v.Reads := h (name, v) List.mem_cons_self
    have hvalue := hv.behind_space depth n (by omega)
      (endsNumber_fieldsTail depth outer (next :: fields) ('\x7d' :: rest))
    have hfields := ih next (fun f hf => h f (List.mem_cons_of_mem _ hf)) n (by omega)
    simp only [List.append_assoc, List.cons_append]
    rw [readFields?, skipSpaces_newLine, skipSpaces_cons rfl]
    simp only [readString?_escaped, skipSpaces_cons (c := ':') rfl, hvalue, Option.bind_eq_bind,
      Option.bind_some]
    simp only [fieldsTail, List.cons_append, skipSpaces_cons (c := ',') rfl, hfields,
      Option.bind_some, String.ofList_toList, Option.pure_def]

theorem reads_list {items : List Json} (hnatural : AllNatural items)
    (h : ∀ j ∈ items, j.Reads) : (Json.list items).Reads := by
  intro depth n rest hn hrest
  obtain ⟨n, rfl⟩ : ∃ m, n = m + 1 := ⟨n - 1, by omega⟩
  cases items with
  | nil =>
    rw [pretty_list_nil]
    rfl
  | cons item items =>
    rw [toList_pretty_list] at hn ⊢
    simp only [List.length_cons, List.length_append] at hn
    have hitems := readItems?_pretty (depth + 1) depth rest item items h n (by omega)
    have hopens : Opens (skipSpaces ((",".intercalate (prettyItems (depth + 1)
        (item :: items))).toList ++ ((newLine depth).toList ++ ']' :: rest))) := by
      obtain ⟨c, ds, hds, hspace, hc⟩ := opens_pretty hnatural.1 (depth + 1)
      rw [toList_prettyItems, List.append_assoc, skipSpaces_newLine, hds]
      exact ⟨c, _, skipSpaces_cons hspace _, hspace, hc⟩
    rw [List.cons_append, List.append_assoc, List.append_assoc, List.singleton_append,
      readValue?_list n hopens rfl, readItems?_skipSpaces, hitems]
    rfl

theorem reads_object {fields : List (String × Json)} (h : ∀ f ∈ fields, f.2.Reads) :
    (Json.object fields).Reads := by
  intro depth n rest hn hrest
  obtain ⟨n, rfl⟩ : ∃ m, n = m + 1 := ⟨n - 1, by omega⟩
  cases fields with
  | nil =>
    rw [pretty_object_nil]
    rfl
  | cons field fields =>
    rw [toList_pretty_object] at hn ⊢
    simp only [List.length_cons, List.length_append] at hn
    have hfields := readFields?_pretty (depth + 1) depth rest field fields h n (by omega)
    obtain ⟨cs, hcs⟩ : ∃ cs, skipSpaces ((",".intercalate (prettyFields (depth + 1)
        (field :: fields))).toList ++ ((newLine depth).toList ++ '\x7d' :: rest)) = '"' :: cs := by
      obtain ⟨name, v⟩ := field
      rw [toList_prettyFields, List.append_assoc, skipSpaces_newLine]
      exact ⟨_, skipSpaces_cons rfl _⟩
    rw [List.cons_append, List.append_assoc, List.append_assoc, List.singleton_append,
      readValue?_object n hcs, ← hcs, readFields?_skipSpaces, hfields]
    rfl

theorem reads_atom {j : Json} (h : j.Natural) (hlist : j.list? = none)
    (hobject : ∀ fields, j ≠ .object fields) : j.Reads := by
  intro depth n rest hn hrest
  obtain ⟨n, rfl⟩ : ∃ m, n = m + 1 := ⟨n - 1, by omega⟩
  cases j with
  | null =>
    rw [pretty]
    rfl
  | boolean b =>
    rw [pretty]
    cases b <;> rfl
  | number text =>
    obtain ⟨m, rfl⟩ := h
    rw [pretty, Text.toList_toString]
    exact readValue?_number n m hrest
  | string text =>
    rw [pretty, toList_quote, List.cons_append, List.append_assoc]
    refine (readValue?_string n text.toList rest).trans ?_
    rw [String.ofList_toList]
  | list items => contradiction
  | object fields => exact (hobject fields rfl).elim

mutual

theorem reads_of_natural : (j : Json) → j.Natural → j.Reads
  | .list items, h => reads_list h (allRead_of_natural items h)
  | .object fields, h => reads_object (fieldsRead_of_natural fields h)
  | .null, h | .boolean _, h | .number _, h | .string _, h => reads_atom h rfl nofun

theorem allRead_of_natural : (items : List Json) → AllNatural items → ∀ j ∈ items, j.Reads
  | [], _ => nofun
  | item :: items, h =>
    List.forall_mem_cons.2 ⟨reads_of_natural item h.1, allRead_of_natural items h.2⟩

theorem fieldsRead_of_natural : (fields : List (String × Json)) → FieldsNatural fields →
    ∀ f ∈ fields, f.2.Reads
  | [], _ => nofun
  | (_, v) :: fields, h =>
    List.forall_mem_cons.2 ⟨reads_of_natural v h.1, fieldsRead_of_natural fields h.2⟩

end

theorem read?_pretty {j : Json} (h : j.Natural) : read? (j.pretty 0) = some j := by
  have hj := reads_of_natural j h 0 (2 * (j.pretty 0).toList.length + 1) [] (Nat.lt_succ_self _)
    nofun
  rw [List.append_nil] at hj
  unfold read?
  simp only [hj, Option.bind_eq_bind, Option.bind_some]
  rfl

end Json
end Splice
