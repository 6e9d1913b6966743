import Mathlib.Data.List.Find
import Mathlib.Data.List.Infix
import Mathlib.Data.Nat.Digits.Lemmas
import Splice.Proofs.Analysis.Acceptance
import Splice.Proofs.Syntax.Parsed
import Splice.Proofs.Text.Digits
import Splice.Tree.Equality

/-!
This module contains the words that the literals of a source text stand for, byte by byte, and the
proof that the cases of a switch are compared by them, whatever their kinds and types and however
they are spelled.
-/

namespace Splice

/-! ## Numerals -/

namespace Text

theorem ne_of_digitIn? {base : Nat} {c x : Char} (h : (digitIn? base c).isSome = true)
    (hx : digitValue? x = none) : c ≠ x := by
  rintro rfl
  rw [digitIn?, hx] at h
  contradiction

theorem digitIn?_of_isDigit {c : Char} (h : c.isDigit = true) : (digitIn? 10 c).isSome = true := by
  have hbounds : '0' ≤ c ∧ c ≤ '9' := by
    simpa [Char.isDigit, Char.le_def] using h
  have hvalue : digitValue? c = some (c.toNat - '0'.toNat) := by
    simp [digitValue?, hbounds]
  have hlt : c.toNat - '0'.toNat < 10 := by
    have : c.toNat ≤ '9'.toNat := hbounds.2
    have h0 : '0'.toNat = 48 := rfl
    have h9 : '9'.toNat = 57 := rfl
    omega
  rw [digitIn?, hvalue, Option.filter_some, if_pos (decide_eq_true hlt)]
  rfl

theorem digits?_eq_some {base value : Nat} {cs : List Char}
    (h : ∀ c ∈ cs, (digitIn? base c).isSome = true) : digits? base value cs =
      some (value * base ^ cs.length + Nat.ofDigits base (cs.map digit).reverse) := by
  induction cs generalizing value with
  | nil => simp [digits?]
  | cons c cs ih =>
    have hc := h c List.mem_cons_self
    unfold digits?
    rw [if_neg (ne_of_digitIn? hc rfl), digitIn?_eq_some hc]
    dsimp only
    rw [ih fun x hx => h x (List.mem_cons_of_mem _ hx), List.map_cons, Nat.ofDigits_reverse_cons,
      List.length_map, List.length_cons, Nat.pow_succ]
    congr 1
    ring

theorem numeral?_eq_some {base : Nat} {cs : List Char} (hne : cs ≠ [])
    (h : ∀ c ∈ cs, (digitIn? base c).isSome = true) :
    numeral? base cs = some (Nat.ofDigits base (cs.map digit).reverse) := by
  cases cs with
  | nil => contradiction
  | cons c cs =>
    have hc := h c List.mem_cons_self
    have hsign : numeral?.dropSign (c :: cs) = c :: cs := by
      unfold numeral?.dropSign
      split
      . next heq => exact absurd (List.cons.inj heq).1 (ne_of_digitIn? hc rfl)
      . rfl
    unfold numeral?
    rw [hsign]
    dsimp only
    rw [if_neg (ne_of_digitIn? hc rfl), digits?_eq_some h, Nat.zero_mul, Nat.zero_add]

end Text

namespace Literal

/-! ## Words -/

def baseDigits (text : String) : Nat × List Char :=
  match text.toList with
  | '0' :: 'x' :: digits => (16, digits)
  | '0' :: 'X' :: digits => (16, digits)
  | digits => (10, digits)

def number (text : String) : Nat :=
  let (base, digits) := baseDigits text
  Nat.ofDigits base (digits.map Text.digit).reverse

def continuation (n : Nat) : Nat := 0x80 + n % 64

/--
The bytes of a character in UTF-8, for the characters of more than one byte.
-/
def utf8 (n : Nat) : List Nat :=
  if n < 0x800 then [0xc0 + n / 64, continuation n]
  else if n < 0x10000 then [0xe0 + n / 64 / 64, continuation (n / 64), continuation n]
  else [0xf0 + n / 64 / 64 / 64, continuation (n / 64 / 64), continuation (n / 64), continuation n]

/--
The bytes that a string stands for: one for each character up to U+00FF, and for the others those in
UTF-8.
-/
def content (text : String) : List Nat :=
  text.toList.flatMap fun c => if c.toNat < 256 then [c.toNat] else utf8 c.toNat

def wordOf (n : Nat) : List Nat :=
  ((List.range 32).map fun i => n / 256 ^ i % 256).reverse

/--
The bytes of the word that a literal stands for, the most significant one first.
-/
def word (l : Literal) : List Nat :=
  match l.kind with
  | .number => wordOf (number l.text)
  | .boolean => wordOf (if l.text = "true" then 1 else 0)
  | .string => content l.text ++ List.replicate (32 - (content l.text).length) 0

theorem map_utf8EncodeChar {c : Char} (h : 0x80 ≤ c.toNat) :
    (String.utf8EncodeChar c).map UInt8.toNat = utf8 c.toNat := by
  have hlt : c.toNat < 0x110000 := by
    have hvalid := c.valid
    have hval : c.val.toNat = c.toNat := Char.toNat_val
    unfold UInt32.isValidChar Nat.isValidChar at hvalid
    omega
  unfold String.utf8EncodeChar utf8 continuation
  dsimp only
  rw [Char.toNat_val, if_neg (by omega)]
  by_cases htwo : c.toNat < 0x800
  . rw [if_pos htwo, if_pos (by omega)]
    simp only [List.map_cons, List.map_nil, UInt8.toNat_ofNat', List.cons.injEq, and_true]
    omega
  . rw [if_neg htwo, if_neg (by omega)]
    by_cases hthree : c.toNat < 0x10000
    . rw [if_pos hthree, if_pos (by omega)]
      simp only [List.map_cons, List.map_nil, UInt8.toNat_ofNat', List.cons.injEq, and_true]
      omega
    . rw [if_neg hthree, if_neg (by omega)]
      simp only [List.map_cons, List.map_nil, UInt8.toNat_ofNat', List.cons.injEq, and_true]
      omega

theorem bytes_eq_content (text : String) : bytes text = content text := by
  unfold bytes content
  refine List.flatMap_congr fun c _ => ?_
  unfold charBytes
  by_cases h : c.toNat < 256
  . rw [if_pos h, if_pos (by omega)]
  . rw [if_neg h, if_neg (by omega), map_utf8EncodeChar (by omega)]

theorem number?_eq (text : String) :
    number? text = Text.numeral? (baseDigits text).1 (baseDigits text).2 := by
  unfold number? baseDigits
  split <;> simp [*]

theorem baseDigits_spec {text : String} (h : Lexer.isNumber text.toList = true) :
    (baseDigits text).2 ≠ [] ∧
    ∀ c ∈ (baseDigits text).2, (Text.digitIn? (baseDigits text).1 c).isSome = true := by
  have hhex {digits : List Char} (h : (!digits.isEmpty && digits.all Lexer.isHexDigit) = true) :
      digits ≠ [] ∧ ∀ c ∈ digits, (Text.digitIn? 16 c).isSome = true := by
    rw [Bool.and_eq_true_iff, Bool.not_eq_true', List.isEmpty_eq_false_iff] at h
    exact ⟨h.1, List.all_eq_true.1 h.2⟩
  unfold baseDigits
  generalize text.toList = cs at h
  unfold Lexer.isNumber at h
  split at h
  . contradiction
  . exact hhex h
  . exact hhex h
  . next c cs hx hX =>
    rw [← List.all_cons, List.all_eq_true] at h
    split
    . next heq => exact (hx _ (List.cons.inj heq).1 (List.cons.inj heq).2).elim
    . next heq => exact (hX _ (List.cons.inj heq).1 (List.cons.inj heq).2).elim
    . exact ⟨List.cons_ne_nil _ _, fun x hx => Text.digitIn?_of_isDigit (h x hx)⟩

theorem number?_eq_some {text : String} (h : Lexer.isNumber text.toList = true) :
    number? text = some (number text) := by
  obtain ⟨hne, hdigits⟩ := baseDigits_spec h
  rw [number?_eq, Text.numeral?_eq_some hne hdigits]
  rfl

theorem ofBytes_eq (bs : List Nat) : ofBytes bs = Nat.ofDigits 256 bs.reverse := by
  have hfold (value : Nat) : bs.foldl (fun value byte => value * 256 + byte) value =
      value * 256 ^ bs.length + Nat.ofDigits 256 bs.reverse := by
    induction bs generalizing value with
    | nil => simp
    | cons b bs ih =>
      rw [List.foldl_cons, ih, Nat.ofDigits_reverse_cons, List.length_cons, Nat.pow_succ]
      ring
  rw [ofBytes, hfold, Nat.zero_mul, Nat.zero_add]

theorem ofDigits_bytes (n k : Nat) :
    Nat.ofDigits 256 ((List.range k).map fun i => n / 256 ^ i % 256) = n % 256 ^ k := by
  induction k with
  | zero => simp [Nat.mod_one]
  | succ k ih =>
    rw [List.range_succ, List.map_append, List.map_singleton, Nat.ofDigits_append, ih,
      Nat.ofDigits_singleton, List.length_map, List.length_range, Nat.mod_pow_succ]

theorem content_lt {text : String} : ∀ b ∈ content text, b < 256 := by
  intro b hb
  rw [← bytes_eq_content] at hb
  obtain ⟨c, _, hb⟩ := List.mem_flatMap.1 hb
  unfold charBytes at hb
  split at hb
  . next h =>
    rw [List.mem_singleton.1 hb]
    omega
  . obtain ⟨byte, _, rfl⟩ := List.mem_map.1 hb
    exact byte.toNat_lt

structure IsWord (word : List Nat) (n : Nat) : Prop where
  length : word.length = 32
  bytes : ∀ b ∈ word, b < 256
  value : ofBytes word = n

theorem IsWord.eq_iff {word word' : List Nat} {n n' : Nat} (h : IsWord word n)
    (h' : IsWord word' n') : n = n' ↔ word = word' := by
  constructor
  . intro hn
    rw [← h.value, ← h'.value, ofBytes_eq, ofBytes_eq] at hn
    refine List.reverse_injective (Nat.ofDigits_inj_of_len_eq (by decide) ?_ ?_ ?_ hn)
    . rw [List.length_reverse, List.length_reverse, h.length, h'.length]
    . exact fun b hb => h.bytes b (List.mem_reverse.1 hb)
    . exact fun b hb => h'.bytes b (List.mem_reverse.1 hb)
  . rintro rfl
    rw [← h.value, ← h'.value]

theorem isWord_wordOf {n : Nat} (h : n < wordCount) : IsWord (wordOf n) n where
  length := by rw [wordOf, List.length_reverse, List.length_map, List.length_range]
  bytes := by
    intro b hb
    obtain ⟨i, _, rfl⟩ := List.mem_map.1 (List.mem_reverse.1 hb)
    exact Nat.mod_lt _ (by decide)
  value := by
    rw [ofBytes_eq, wordOf, List.reverse_reverse, ofDigits_bytes]
    exact Nat.mod_eq_of_lt h

theorem isWord_content {text : String} (h : (content text).length ≤ 32) :
    IsWord (content text ++ List.replicate (32 - (content text).length) 0)
      (ofBytes (content text ++ List.replicate (32 - (content text).length) 0)) where
  length := by rw [List.length_append, List.length_replicate, Nat.add_sub_cancel' h]
  bytes := by
    intro b hb
    rcases List.mem_append.1 hb with hb | hb
    . exact content_lt b hb
    . rw [List.eq_of_mem_replicate hb]
      decide
  value := rfl

theorem value?_spec {d : Dialect} {l : Literal} (hl : l.Legible d) (hv : l.Valid) :
    ∃ n, l.value? = some n ∧ IsWord l.word n := by
  obtain ⟨hword, -, -⟩ := hl
  unfold Valid Env.literal at hv
  unfold value? word
  cases hkind : l.kind with
  | number =>
    rw [hkind] at hword hv
    have hn := number?_eq_some hword
    rw [hn] at hv
    have hlt : number l.text < wordCount := by
      simpa using Report.clean_onlyIf.1 hv
    exact ⟨number l.text, hn, isWord_wordOf hlt⟩
  | boolean =>
    refine ⟨_, rfl, isWord_wordOf ?_⟩
    split <;> decide
  | string =>
    rw [hkind] at hv
    have hle : (bytes l.text).length ≤ wordBytes := by
      simpa using Report.clean_onlyIf.1 hv
    rw [bytes_eq_content] at hle
    refine ⟨_, rfl, ?_⟩
    rw [bytes_eq_content]
    exact isWord_content hle

end Literal

/-! ## The literals of a source text -/

section Legible

variable {d : Dialect} {l : Literal}

mutual

theorem Expr.Legible.literals : {e : Expr} → e.Legible d → l ∈ e.literals → l.Legible d
  | .literal _, h, hl => List.mem_singleton.1 hl ▸ h
  | .call _ _ _, h, hl => Expr.AllLegible.literals h.2 hl
  | .instruction _ _ _, h, hl => Expr.AllLegible.literals h.2 hl

theorem Expr.AllLegible.literals :
    {es : List Expr} → Expr.AllLegible d es → l ∈ Expr.allLiterals es → l.Legible d
  | _ :: _, h, hl => (List.mem_append.1 hl).elim h.1.literals (Expr.AllLegible.literals h.2)

end

mutual

theorem Stmt.Legible.literals : {s : Stmt} → s.Legible d → l ∈ s.literals → l.Legible d
  | .expression _, h, hl => h.1.literals hl
  | .declaration _ _ (some _), h, hl => (h.2.2 _ rfl).literals hl
  | .assignment _ _ _, h, hl => h.2.literals hl
  | .conditional _ _ _, h, hl => (List.mem_append.1 hl).elim h.1.literals h.2.literals
  | .switch _ _ _, h, hl => (List.mem_append.1 hl).elim h.1.literals h.2.1.literals
  | .loop _ _ _ _ _, h, hl => by
    obtain ⟨hpre, hcondition, hpost, hbody⟩ := h
    simp only [Stmt.literals, List.mem_append] at hl
    rcases hl with ((hl | hl) | hl) | hl
    . exact hpre.literals hl
    . exact hcondition.literals hl
    . exact hpost.literals hl
    . exact hbody.literals hl
  | .function ⟨_, _⟩, h, hl => h.2.literals hl
  | .block _, h, hl => Block.Legible.literals h hl

theorem Stmt.AllLegible.literals :
    {ss : List Stmt} → Stmt.AllLegible d ss → l ∈ Stmt.allLiterals ss → l.Legible d
  | _ :: _, h, hl => (List.mem_append.1 hl).elim h.1.literals h.2.literals

theorem Block.Legible.literals : {b : Block} → b.Legible d → l ∈ b.literals → l.Legible d
  | ⟨_, _⟩, h, hl => Stmt.AllLegible.literals h hl

theorem Case.AllLegible.literals :
    {cs : List Case} → Case.AllLegible d cs → l ∈ Case.allLiterals cs → l.Legible d
  | ⟨_, _, _⟩ :: _, h, hl => by
    obtain ⟨hvalue, hbody, hs⟩ := h
    simp only [Case.allLiterals, List.mem_append, Option.mem_toList] at hl
    rcases hl with (hl | hl) | hl
    . exact hvalue l hl
    . exact hbody.literals hl
    . exact hs.literals hl

end

end Legible

def Literal.FromSource (l : Literal) : Prop :=
  ∃ d source b, parse d source = .ok b ∧ l ∈ b.literals

theorem Literal.FromSource.value?_spec {l : Literal} (h : l.FromSource) (hv : l.Valid) :
    ∃ n, l.value? = some n ∧ Literal.IsWord l.word n := by
  obtain ⟨d, source, b, hparse, hl⟩ := h
  exact Literal.value?_spec ((legible_of_parse hparse).1.literals hl) hv

theorem Literal.value?_eq_iff {l l' : Literal} (h : l.FromSource) (hv : l.Valid)
    (h' : l'.FromSource) (hv' : l'.Valid) : l.value? = l'.value? ↔ l.word = l'.word := by
  obtain ⟨n, hn, hword⟩ := h.value?_spec hv
  obtain ⟨n', hn', hword'⟩ := h'.value?_spec hv'
  rw [hn, hn', Option.some_inj]
  exact hword.eq_iff hword'

/-! ## The cases of a switch -/

/--
What is reported of the value of a case, if it stands for the same word as one of those in front of
it. The last of them is named.
-/
def Literal.repeated (earlier : List Literal) (l : Literal) : List Diagnostic :=
  match earlier.reverse.find? fun k => k.word = l.word with
  | some k =>
    [((AnalysisFault.duplicateCase l.text).diagnostic l.span).withNote "first used here" k.span]
  | none => []

def Case.repeated (earlier : List Case) (c : Case) : List Diagnostic :=
  c.value.elim [] (Literal.repeated (earlier.filterMap Case.value))

theorem Literal.exists_mem_repeated {earlier : List Literal} {l : Literal} :
    (∃ d ∈ l.repeated earlier, d.code = "E2010") ↔ ∃ k ∈ earlier, k.word = l.word := by
  unfold repeated
  split
  . next k hk =>
    have hmem := List.mem_of_find?_eq_some hk
    refine iff_of_true ⟨_, List.mem_singleton.2 rfl, rfl⟩ ⟨k, List.mem_reverse.1 hmem, ?_⟩
    simpa using List.find?_some hk
  . next hnone =>
    refine iff_of_false (by simp) ?_
    rintro ⟨k, hk, hword⟩
    simpa [hword] using List.find?_eq_none.1 hnone k (List.mem_reverse.2 hk)

theorem Case.exists_mem_repeated {earlier : List Case} {c : Case} :
    (∃ d ∈ c.repeated earlier, d.code = "E2010") ↔
      ∃ l ∈ c.value, ∃ c' ∈ earlier, ∃ k ∈ c'.value, k.word = l.word := by
  obtain ⟨_, value, _⟩ := c
  cases value with
  | none => simp [repeated]
  | some l =>
    have hearlier := @Literal.exists_mem_repeated (earlier.filterMap Case.value) l
    simp only [List.mem_filterMap] at hearlier
    simp only [Option.mem_def, Option.some.injEq, exists_eq_left']
    refine hearlier.trans ⟨?_, ?_⟩
    . rintro ⟨k, ⟨c', hc', hk⟩, hword⟩
      exact ⟨c', hc', k, hk, hword⟩
    . rintro ⟨c', hc', k, hk, hword⟩
      exact ⟨k, ⟨c', hc', hk⟩, hword⟩

namespace Env

def seenOf (earlier : List Literal) : SeenCases :=
  earlier.reverse.filterMap fun l => l.value?.map (·, l.span)

theorem lookup_seenOf (earlier : List Literal) (n : Nat) : (seenOf earlier).lookup n =
    (earlier.reverse.find? fun k => k.value? = some n).map Literal.span := by
  unfold seenOf
  induction earlier.reverse with
  | nil => rfl
  | cons k ks ih =>
    rw [List.find?_cons, List.filterMap_cons]
    cases hk : k.value? with
    | none => simpa [hk] using ih
    | some m =>
      by_cases h : n = m
      . simp [h]
      . have hbeq : (n == m) = false := beq_false_of_ne h
        simp [Ne.symm h, hbeq, List.lookup_cons, ih]

theorem seenOf_append (earlier : List Literal) (l : Literal) :
    (caseValue (seenOf earlier) l).1 = seenOf (earlier ++ [l]) := by
  rw [caseValue_seen, seenOf, seenOf, List.reverse_append, List.reverse_singleton,
    List.singleton_append, List.filterMap_cons]
  cases l.value? <;> rfl

theorem caseValue_eq {earlier : List Literal} {l : Literal} (hl : l.FromSource ∧ l.Valid)
    (h : ∀ k ∈ earlier, k.FromSource ∧ k.Valid) :
    (caseValue (seenOf earlier) l).2.diagnostics = l.repeated earlier := by
  obtain ⟨n, hn, -⟩ := hl.1.value?_spec hl.2
  have hfind : (earlier.reverse.find? fun k => k.value? = some n) =
      earlier.reverse.find? fun k => k.word = l.word := by
    refine List.find?_congr fun k hk => ?_
    have hk := h k (List.mem_reverse.1 hk)
    rw [← hn, decide_eq_decide]
    exact Literal.value?_eq_iff hk.1 hk.2 hl.1 hl.2
  unfold caseValue Literal.repeated
  rw [hn]
  dsimp only
  rw [lookup_seenOf, hfind]
  cases earlier.reverse.find? fun k => decide (k.word = l.word) <;> rfl

theorem caseHead_eq {before : List Case} {c : Case}
    (h : ∀ c' ∈ before ++ [c], ∀ l ∈ c'.value, l.FromSource ∧ l.Valid) :
    (caseHead (seenOf (before.filterMap Case.value)) c.value).1 =
      seenOf ((before ++ [c]).filterMap Case.value) ∧
    (caseHead (seenOf (before.filterMap Case.value)) c.value).2.diagnostics =
      c.repeated before := by
  obtain ⟨span, value, body⟩ := c
  rw [List.filterMap_append]
  cases value with
  | none => exact ⟨by simp [caseHead], rfl⟩
  | some l =>
    have hl := h _ List.mem_concat_self l rfl
    have hbefore : ∀ k ∈ before.filterMap Case.value, k.FromSource ∧ k.Valid := by
      intro k hk
      obtain ⟨c', hc', hk⟩ := List.mem_filterMap.1 hk
      exact h c' (List.mem_append_left _ hc') k hk
    have hvalid : (literal l).diagnostics = [] := hl.2
    refine ⟨seenOf_append _ l, ?_⟩
    change (literal l).diagnostics ++ (caseValue _ l).2.diagnostics = l.repeated _
    rw [hvalid, List.nil_append, caseValue_eq hl hbefore]

theorem cases_diagnostics (env : Env) (before arms : List Case)
    (h : ∀ c ∈ before ++ arms, ∀ l ∈ c.value, l.FromSource ∧ l.Valid) :
    (env.cases (seenOf (before.filterMap Case.value)) arms).diagnostics =
      (arms.inits.zip arms).flatMap fun (earlier, c) =>
        c.repeated (before ++ earlier) ++ (env.block c.body).diagnostics := by
  induction arms generalizing before with
  | nil => rfl
  | cons c arms ih =>
    rw [List.append_cons] at h
    obtain ⟨hseen, hrepeated⟩ := caseHead_eq fun c' hc' => h c' (List.mem_append_left _ hc')
    obtain ⟨span, value, body⟩ := c
    change (caseHead _ value).2.diagnostics ++ (env.block body).diagnostics ++
      (env.cases (caseHead _ value).1 arms).diagnostics = _
    rw [hrepeated, hseen, ih _ h, List.inits_cons, List.zip_cons_cons, List.flatMap_cons,
      List.zip_map_left, List.flatMap_map]
    simp only [List.append_assoc, List.append_nil, List.singleton_append, Prod.map, id]

end Env

/--
The cases of a switch are compared by the words that they stand for: two literals of source texts
that fit into a word have the same value exactly if they stand for the same word, and what a switch
of such cases reports, beside what is wrong with its parts, is each case whose word is that of an
earlier one.
-/
theorem switch_compares_words :
    (∀ l l' : Literal, l.FromSource → l.Valid → l'.FromSource → l'.Valid →
      l.value?.isSome = true ∧ (l.value? = l'.value? ↔ l.word = l'.word)) ∧
    ∀ (env : Env) (span : Span) (subject : Expr) (arms : List Case),
      (∀ c ∈ arms, ∀ l ∈ c.value, l.FromSource ∧ l.Valid) →
      (env.stmt (.switch span subject arms)).2.diagnostics =
        (env.expect subject 1).diagnostics ++
        ((arms.inits.zip arms).flatMap fun (earlier, c) =>
          c.repeated earlier ++ (env.block c.body).diagnostics) ++
        (Env.defaults span arms).diagnostics ∧
      ∀ (earlier : List Case) (c : Case), (∃ d ∈ c.repeated earlier, d.code = "E2010") ↔
        ∃ l ∈ c.value, ∃ c' ∈ earlier, ∃ k ∈ c'.value, k.word = l.word := by
  refine ⟨fun l l' h hv h' hv' => ?_, fun env span subject arms h => ⟨?_, fun _ _ => ?_⟩⟩
  . obtain ⟨n, hn, -⟩ := h.value?_spec hv
    exact ⟨Option.isSome_of_eq_some hn, Literal.value?_eq_iff h hv h' hv'⟩
  . change (env.expect subject 1).diagnostics ++
      (env.cases (Env.seenOf ([].filterMap Case.value)) arms).diagnostics ++
      (Env.defaults span arms).diagnostics = _
    rw [env.cases_diagnostics [] arms h]
    rfl
  . exact Case.exists_mem_repeated

/--
A string in two spellings, with and without the zero byte that fills it up, a truth value that is a
number, the character U+00FF as one byte but not as its two bytes in UTF-8, and the character U+20AC
as its three bytes.
-/
theorem switch_compares_words_spellings :
    ∃ (b : Block) (span : Span) (subject : Expr) (arms : List Case),
      parse .loose ("\x7bswitch 0 case \"a\" \x7b\x7d case \"\\x61\\x00\" \x7b\x7d " ++
        "case true \x7b\x7d case 0x01 \x7b\x7d case \"\\xff\" \x7b\x7d " ++
        "case \"\\xc3\\xbf\" \x7b\x7d case \"\u00ff\" \x7b\x7d case \"\u20ac\" \x7b\x7d " ++
        "case \"\\xe2\\x82\\xac\" \x7b\x7d\x7d") = .ok b ∧
      b.statements = [.switch span subject arms] ∧
      (∀ c ∈ arms, ∀ l ∈ c.value, l.FromSource ∧ l.Valid) ∧
      ((arms.filterMap Case.value).map fun l => l.word.take 4) =
        [[0x61, 0, 0, 0], [0x61, 0, 0, 0], [0, 0, 0, 0], [0, 0, 0, 0], [0xff, 0, 0, 0],
          [0xc3, 0xbf, 0, 0], [0xff, 0, 0, 0], [0xe2, 0x82, 0xac, 0], [0xe2, 0x82, 0xac, 0]] ∧
      (((Env.stmt ⟨.loose, [], []⟩ (.switch span subject arms)).2.diagnostics).map fun d =>
        (d.code, d.span.start.column)) =
        [("E2010", 28), ("E2010", 60), ("E2010", 107), ("E2010", 131)] := by
  let columns (first last : Nat) : Span := ⟨⟨1, first⟩, ⟨1, last⟩⟩
  -- The value of a case stands five columns behind its start, and its body three behind the value.
  let arm (first last : Nat) (kind : LiteralKind) (text : String) : Case :=
    ⟨columns first (last + 3), some ⟨columns (first + 5) last, kind, text, none⟩,
      ⟨columns (last + 2) (last + 3), []⟩⟩
  let zero : Expr := .literal ⟨columns 9 9, .number, "0", none⟩
  let arms : List Case := [
    arm 11 18 .string "a", arm 23 37 .string "a\x00", arm 42 50 .boolean "true",
    arm 55 63 .number "0x01", arm 68 78 .string "\u00ff", arm 83 97 .string "\u00c3\u00bf",
    arm 102 109 .string "\u00ff", arm 114 121 .string "\u20ac",
    arm 126 144 .string "\u00e2\u0082\u00ac"]
  let b : Block := ⟨columns 1 148, [.switch (columns 2 147) zero arms]⟩
  have hparse : parse .loose ("\x7bswitch 0 case \"a\" \x7b\x7d case \"\\x61\\x00\" \x7b\x7d " ++
      "case true \x7b\x7d case 0x01 \x7b\x7d case \"\\xff\" \x7b\x7d " ++
      "case \"\\xc3\\xbf\" \x7b\x7d case \"\u00ff\" \x7b\x7d case \"\u20ac\" \x7b\x7d " ++
      "case \"\\xe2\\x82\\xac\" \x7b\x7d\x7d") = .ok b := by
    decide +kernel
  have hliterals : ∀ c ∈ arms, ∀ l ∈ c.value,
      l ∈ b.literals ∧ (Env.literal l).diagnostics = [] := by
    decide +kernel
  have hwords : ((arms.filterMap Case.value).map fun l => l.word.take 4) =
      [[0x61, 0, 0, 0], [0x61, 0, 0, 0], [0, 0, 0, 0], [0, 0, 0, 0], [0xff, 0, 0, 0],
        [0xc3, 0xbf, 0, 0], [0xff, 0, 0, 0], [0xe2, 0x82, 0xac, 0], [0xe2, 0x82, 0xac, 0]] := by
    decide +kernel
  have h : ∀ c ∈ arms, ∀ l ∈ c.value, l.FromSource ∧ l.Valid := by
    intro c hc l hl
    obtain ⟨hsource, hvalid⟩ := hliterals c hc l hl
    exact ⟨⟨_, _, b, hparse, hsource⟩, hvalid⟩
  refine ⟨b, _, zero, arms, hparse, rfl, h, hwords, ?_⟩
  rw [(switch_compares_words.2 ⟨.loose, [], []⟩ (columns 2 147) zero arms h).1]
  decide +kernel

end Splice
