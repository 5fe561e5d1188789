import ObjectQuery.Proofs.Hql.Quoting

/-!
# Words and signs in query texts

A query text without floats and queries consists of words, signs and string
literals. A word is a name, a keyword or a number; the signs are the blank,
the brackets, the comma, the point, the colon and those of the operators.
The text of several of them is the texts strung together, and nothing in it
says where one ends.

That can be told all the same, if no two words and no two literals meet
without a sign between them: a word ends where the first sign stands, a
literal where its quote is not doubled. And a word is a keyword, a number or
a name, and never two of these, as long as a name is no keyword and does not
begin with a digit.

## Main definitions

* `Lexeme` — a word, a sign or a literal.
* `PlainName` — what may be used as a name.
* `Legible` — lexemes of which no two meet without a sign.

## Main results

* `Lexeme.text_append_inj` — the first lexeme of a text.
* `Legible.eq_of_texts_eq` — the lexemes of a text.
-/

namespace ObjectQuery.Hql

/-! ## Lexemes -/

/-- The signs of query texts. -/
def signs : List Char := [' ', '(', ')', ',', '.', ':', '+', '-', '*', '/', '=', '<', '>']

/-- The words of query texts that are no names. -/
def keywords : List String :=
  ["and", "or", "not", "case", "when", "then", "else", "end", "coalesce", "is", "null", "like",
    "escape", "in", "elements", "true", "false"]

/-- Whether a word may have the character in it. -/
def isWordChar (c : Char) : Bool :=
  !signs.contains c && c != '\''

/-- Whether characters make up a word that is no number. -/
def isWordText : List Char → Bool
  | [] => false
  | c :: cs => !c.isDigit && (c :: cs).all isWordChar

/-- A name that is a word and neither a number nor a keyword. -/
def PlainName (s : String) : Prop :=
  isWordText s.toList = true ∧ s ∉ keywords

instance : DecidablePred PlainName := fun _ => instDecidableAnd

/-- A word, a sign or a string literal in a query text. -/
inductive Lexeme where
  | name (s : String)
  | keyword (s : String)
  | number (n : Nat)
  | sign (c : Char)
  /-- A literal, by its content. -/
  | quoted (s : String)

namespace Lexeme

/-- The text of a lexeme. -/
def text : Lexeme → List Char
  | .name s | .keyword s => s.toList
  | .number n => n.repr.toList
  | .sign c => [c]
  | .quoted s => (quote s).toList

/-- Whether a lexeme is a sign. -/
def isSign : Lexeme → Bool
  | .sign _ => true
  | _ => false

/-- Whether names are plain, keywords are keywords and signs are signs. -/
@[simp] def IsProper : Lexeme → Prop
  | .name s => PlainName s
  | .keyword s => s ∈ keywords
  | .sign c => c ∈ signs
  | .number _ | .quoted _ => True

end Lexeme

/-! ## Literals -/

/-- A character of a literal, as it is written. -/
def doubled (c : Char) : List Char :=
  if c = '\'' then ['\'', '\''] else [c]

private theorem quote_toList (s : String) :
    (quote s).toList = '\'' :: (s.toList.flatMap doubled ++ ['\'']) := by
  rw [quote, String.toList_ofList]
  rfl

section

variable {cs ds s t : List Char}

/-- What one written character is followed by tells which it is, unless it is
a quote that stands alone. -/
theorem doubled_ne_close (c : Char) (ht : t.head? ≠ some '\'') : doubled c ++ s ≠ '\'' :: t := by
  intro h
  by_cases hc : c = '\''
  · rw [doubled, if_pos hc] at h
    exact ht (by rw [← List.tail_eq_of_cons_eq h]; rfl)
  · rw [doubled, if_neg hc] at h
    exact hc (List.head_eq_of_cons_eq h)

private theorem doubled_append_inj {c d : Char} (h : doubled c ++ s = doubled d ++ t) :
    c = d ∧ s = t := by
  have hhead : ∀ (c : Char) (s : List Char), (doubled c ++ s).head? = some c := by
    intro c s
    unfold doubled
    split
    · next hc => rw [hc]; rfl
    · rfl
  have hchars : some c = some d := by rw [← hhead c s, h, hhead d t]
  obtain rfl := Option.some.inj hchars
  exact ⟨rfl, List.append_cancel_left h⟩

/-- A literal ends where a quote stands alone. -/
theorem closed_append_inj (hs : s.head? ≠ some '\'') (ht : t.head? ≠ some '\'')
    (h : cs.flatMap doubled ++ '\'' :: s = ds.flatMap doubled ++ '\'' :: t) :
    cs = ds ∧ s = t := by
  induction cs generalizing ds with
  | nil =>
      cases ds with
      | nil => exact ⟨rfl, List.tail_eq_of_cons_eq h⟩
      | cons d ds =>
          rw [List.flatMap_cons, List.append_assoc] at h
          exact absurd h.symm (doubled_ne_close d hs)
  | cons c cs ih =>
      cases ds with
      | nil =>
          rw [List.flatMap_cons, List.append_assoc] at h
          exact absurd h (doubled_ne_close c ht)
      | cons d ds =>
          rw [List.flatMap_cons, List.flatMap_cons, List.append_assoc, List.append_assoc] at h
          obtain ⟨rfl, hrest⟩ := doubled_append_inj h
          obtain ⟨rfl, rfl⟩ := ih hrest
          exact ⟨rfl, rfl⟩

end

/-! ## The first lexeme -/

namespace Lexeme

variable {a b : Lexeme} {s t : List Char}

/-- A word is a lexeme that is neither a sign nor a literal. -/
def IsWord : Lexeme → Prop
  | .name _ | .keyword _ | .number _ => True
  | _ => False

private theorem isWordText_of_keyword {s : String} (h : s ∈ keywords) :
    isWordText s.toList = true := by
  have hall : keywords.all (fun s => isWordText s.toList) = true := by decide
  exact List.all_eq_true.mp hall s h

private theorem isDigit_of_mem_repr {n : Nat} {c : Char} (h : c ∈ n.repr.toList) :
    c.isDigit = true := by
  rw [Nat.repr, String.toList_ofList] at h
  exact Nat.isDigit_of_mem_toDigits (by decide) (by decide) h

private theorem isWordChar_of_isDigit {c : Char} (h : c.isDigit = true) : isWordChar c = true := by
  have hsigns : signs.all (fun sign => !sign.isDigit) = true := by decide
  have hsign : c ∉ signs := by
    intro hmem
    have hno := List.all_eq_true.mp hsigns c hmem
    rw [h] at hno
    cases hno
  have hquote : c ≠ '\'' := by
    rintro rfl
    cases h
  simp [isWordChar, hsign, hquote]

/-- A word has characters, and all of them are characters of words. -/
theorem IsWord.text (h : a.IsWord) (hproper : a.IsProper) :
    a.text ≠ [] ∧ ∀ c ∈ a.text, isWordChar c = true := by
  have hword : ∀ cs : List Char, isWordText cs = true →
      cs ≠ [] ∧ ∀ c ∈ cs, isWordChar c = true := by
    intro cs hcs
    cases cs with
    | nil => cases hcs
    | cons c cs => exact ⟨nofun, List.all_eq_true.mp (Bool.and_eq_true_iff.mp hcs).2⟩
  cases a with
  | name s => exact hword _ hproper.1
  | keyword s => exact hword _ (isWordText_of_keyword hproper)
  | number n =>
      refine ⟨?_, fun c hc => isWordChar_of_isDigit (isDigit_of_mem_repr hc)⟩
      rw [Lexeme.text, Nat.toList_repr]
      exact Nat.toDigits_ne_nil
  | sign c | quoted s => cases h

/-- A number is no other word. -/
theorem repr_ne_of_isWordText {n : Nat} {s : String} (h : isWordText s.toList = true) :
    n.repr.toList ≠ s.toList := by
  intro heq
  rw [← heq] at h
  cases hcs : n.repr.toList with
  | nil => rw [hcs] at h; cases h
  | cons c cs =>
      have hdigit : c.isDigit = true :=
        isDigit_of_mem_repr (n := n) (by rw [hcs]; exact List.mem_cons_self)
      rw [hcs, isWordText, hdigit] at h
      cases h

/-- The text of a word tells which one it is. -/
theorem IsWord.eq_of_text_eq (ha : a.IsWord) (hb : b.IsWord) (hproper : a.IsProper)
    (hproper' : b.IsProper) (h : a.text = b.text) : a = b := by
  cases a with
  | sign c | quoted s => cases ha
  | name s =>
      cases b with
      | sign c | quoted s => cases hb
      | name s' => rw [String.toList_inj.mp h]
      | keyword s' => exact absurd (String.toList_inj.mp h ▸ hproper') hproper.2
      | number n => exact absurd h.symm (repr_ne_of_isWordText hproper.1)
  | keyword s =>
      cases b with
      | sign c | quoted s => cases hb
      | name s' => exact absurd (String.toList_inj.mp h ▸ hproper) hproper'.2
      | keyword s' => rw [String.toList_inj.mp h]
      | number n => exact absurd h.symm (repr_ne_of_isWordText (isWordText_of_keyword hproper))
  | number n =>
      cases b with
      | sign c | quoted s => cases hb
      | name s' => exact absurd h (repr_ne_of_isWordText hproper'.1)
      | keyword s' => exact absurd h (repr_ne_of_isWordText (isWordText_of_keyword hproper'))
      | number m =>
          have hdigits : Nat.toDigits 10 n = Nat.toDigits 10 m := by
            rw [← Nat.toList_repr, ← Nat.toList_repr]
            exact h
          rw [← Nat.ofDigitChars_ten_toDigits (n := n), hdigits, Nat.ofDigitChars_ten_toDigits]

private theorem cases (a : Lexeme) :
    (∃ c, a = .sign c) ∨ (∃ content, a = .quoted content) ∨ a.IsWord := by
  cases a <;> simp [IsWord]

/-- The first character of a text tells whether it is the text of a sign, of a
literal or of a word. -/
theorem exists_first (hproper : a.IsProper) :
    ∃ c cs, a.text = c :: cs ∧ ((∃ sign, a = .sign sign) ↔ c ∈ signs) ∧
      ((∃ content, a = .quoted content) ↔ c = '\'') := by
  have hquote : '\'' ∉ signs := by decide
  rcases a.cases with ⟨c, rfl⟩ | ⟨content, rfl⟩ | hword
  · have hne : c ≠ '\'' := fun heq => hquote (heq ▸ hproper)
    exact ⟨c, [], rfl, ⟨fun _ => hproper, fun _ => ⟨c, rfl⟩⟩, ⟨nofun, fun heq => absurd heq hne⟩⟩
  · refine ⟨'\'', _, quote_toList content, ⟨nofun, fun h => absurd h hquote⟩, ?_⟩
    exact ⟨fun _ => rfl, fun _ => ⟨content, rfl⟩⟩
  · obtain ⟨hne, hchars⟩ := hword.text hproper
    obtain ⟨c, cs, htext⟩ := List.exists_cons_of_ne_nil hne
    have hchar : isWordChar c = true := hchars c (by rw [htext]; exact List.mem_cons_self)
    simp only [isWordChar, Bool.and_eq_true, Bool.not_eq_true', List.contains_eq_mem,
      decide_eq_false_iff_not, bne_iff_ne] at hchar
    refine ⟨c, cs, htext, ⟨?_, fun h => absurd h hchar.1⟩, ⟨?_, fun h => absurd h hchar.2⟩⟩
    · rintro ⟨sign, rfl⟩
      cases hword
    · rintro ⟨content, rfl⟩
      cases hword

/-- What stands after a lexeme does not belong to it: after a word or a
literal it begins with a sign, if there is anything. -/
def Ends (a : Lexeme) (rest : List Char) : Prop :=
  a.isSign = true ∨ ∀ c ∈ rest.head?, c ∈ signs

private theorem Ends.head_mem_signs (h : a.Ends s) (hsign : a.isSign = false) :
    ∀ c ∈ s.head?, c ∈ signs :=
  h.resolve_left (by simp [hsign])

private theorem Ends.head?_ne_quote (h : a.Ends s) (hsign : a.isSign = false) :
    s.head? ≠ some '\'' :=
  fun hhead => absurd (h.head_mem_signs hsign '\'' hhead) (by decide)

/-- The characters of a word end at the first sign. -/
theorem Ends.takeWhile_eq (h : a.Ends s) (hword : a.IsWord) (hproper : a.IsProper) :
    (a.text ++ s).takeWhile isWordChar = a.text := by
  have hs : s.takeWhile isWordChar = [] := by
    cases s with
    | nil => rfl
    | cons c rest =>
        have hnosign : a.isSign = false := by
          cases a with
          | sign => cases hword
          | _ => rfl
        have hsign : c ∈ signs := h.head_mem_signs hnosign c rfl
        have hchar : isWordChar c = false := by simp [isWordChar, hsign]
        rw [List.takeWhile_cons_of_neg (by simp [hchar])]
  rw [List.takeWhile_append_of_pos (hword.text hproper).2, hs, List.append_nil]

/-- A text tells where its first lexeme ends and which one it is. -/
theorem text_append_inj (hproper : a.IsProper) (hproper' : b.IsProper) (hs : a.Ends s)
    (ht : b.Ends t) (h : a.text ++ s = b.text ++ t) : a = b ∧ s = t := by
  obtain ⟨c, cs, hfirst, hsign, hquote⟩ := exists_first hproper
  obtain ⟨d, ds, hfirst', hsign', hquote'⟩ := exists_first hproper'
  have hsame : c = d := by
    rw [hfirst, hfirst'] at h
    exact List.head_eq_of_cons_eq h
  subst hsame
  rcases a.cases with ⟨sign, rfl⟩ | ⟨content, rfl⟩ | hword
  · obtain ⟨sign', rfl⟩ := hsign'.mpr (hsign.mp ⟨sign, rfl⟩)
    obtain ⟨rfl, rfl⟩ := List.cons_eq_cons.mp h
    exact ⟨rfl, rfl⟩
  · obtain ⟨content', rfl⟩ := hquote'.mpr (hquote.mp ⟨content, rfl⟩)
    have hclosed : content.toList.flatMap doubled ++ '\'' :: s =
        content'.toList.flatMap doubled ++ '\'' :: t := by
      simpa [text, quote_toList] using h
    obtain ⟨hcontent, rfl⟩ := closed_append_inj (hs.head?_ne_quote rfl) (ht.head?_ne_quote rfl)
      hclosed
    rw [String.toList_inj.mp hcontent]
    exact ⟨rfl, rfl⟩
  · have hword' : b.IsWord := by
      rcases b.cases with hsign'' | hquote'' | hword'
      · obtain ⟨sign, rfl⟩ := hsign.mpr (hsign'.mp hsign'')
        cases hword
      · obtain ⟨content, rfl⟩ := hquote.mpr (hquote'.mp hquote'')
        cases hword
      · exact hword'
    have htext : a.text = b.text := by
      rw [← hs.takeWhile_eq hword hproper, h, ht.takeWhile_eq hword' hproper']
    rw [htext] at h
    exact ⟨hword.eq_of_text_eq hword' hproper hproper' htext, List.append_cancel_left h⟩

end Lexeme

/-! ## All lexemes of a text -/

/-- The text of several lexemes. -/
def texts (ls : List Lexeme) : List Char :=
  ls.flatMap Lexeme.text

@[simp] theorem texts_nil : texts [] = [] :=
  rfl

@[simp] theorem texts_cons (a : Lexeme) (ls : List Lexeme) :
    texts (a :: ls) = a.text ++ texts ls :=
  rfl

@[simp] theorem texts_append (ls ls' : List Lexeme) : texts (ls ++ ls') = texts ls ++ texts ls' :=
  List.flatMap_append

/-- Proper lexemes of which no two meet without a sign. -/
def Legible : List Lexeme → Prop
  | [] => True
  | a :: rest => a.IsProper ∧ (a.isSign = true ∨ ∀ b ∈ rest.head?, b.isSign = true) ∧ Legible rest

section

variable {ls ls' : List Lexeme} {a : Lexeme} {c : Char}

@[simp] theorem legible_nil : Legible [] :=
  trivial

@[simp] theorem legible_singleton : Legible [a] ↔ a.IsProper := by
  simp [Legible]

private theorem legible_cons_cons {b : Lexeme} :
    Legible (a :: b :: ls) ↔
      a.IsProper ∧ (a.isSign = true ∨ b.isSign = true) ∧ Legible (b :: ls) := by
  simp [Legible]

/-- A sign may stand in front of anything. -/
@[simp] theorem legible_sign_cons : Legible (.sign c :: ls) ↔ c ∈ signs ∧ Legible ls := by
  simp [Legible, Lexeme.IsProper, Lexeme.isSign]

/-- Anything may stand in front of a sign. -/
@[simp] theorem legible_cons_sign :
    Legible (a :: .sign c :: ls) ↔ a.IsProper ∧ c ∈ signs ∧ Legible ls := by
  simp [Legible, Lexeme.IsProper, Lexeme.isSign]

@[simp] theorem legible_append_sign :
    Legible (ls ++ .sign c :: ls') ↔ Legible ls ∧ c ∈ signs ∧ Legible ls' := by
  induction ls with
  | nil => simp
  | cons a rest ih =>
      cases rest with
      | nil => simp
      | cons b rest =>
          rw [List.cons_append] at ih
          rw [List.cons_append, List.cons_append, legible_cons_cons, legible_cons_cons, ih]
          simp only [and_assoc]

/-- Legible lexemes begin, if there are any, with a character that a sign
begins with exactly if the first lexeme is a sign. -/
theorem Legible.ends (h : Legible (a :: ls)) : a.Ends (texts ls) := by
  obtain ⟨-, hapart, hrest⟩ := h
  refine hapart.imp_right fun hhead c hc => ?_
  cases ls with
  | nil => cases hc
  | cons b rest =>
      have hb := hhead b rfl
      cases b with
      | sign d =>
          obtain rfl := Option.some.inj hc
          exact hrest.1
      | _ => cases hb

/-- A text tells its lexemes. -/
theorem Legible.eq_of_texts_eq (h : Legible ls) (h' : Legible ls') (heq : texts ls = texts ls') :
    ls = ls' := by
  induction ls generalizing ls' with
  | nil =>
      cases ls' with
      | nil => rfl
      | cons b rest' =>
          obtain ⟨c, cs, hfirst, -⟩ := Lexeme.exists_first h'.1
          rw [texts, texts, List.flatMap_cons, hfirst] at heq
          cases heq
  | cons a rest ih =>
      cases ls' with
      | nil =>
          obtain ⟨c, cs, hfirst, -⟩ := Lexeme.exists_first h.1
          rw [texts, texts, List.flatMap_cons, hfirst] at heq
          cases heq
      | cons b rest' =>
          obtain ⟨rfl, hrest⟩ := Lexeme.text_append_inj h.1 h'.1 h.ends h'.ends heq
          rw [ih h.2.2 h'.2.2 hrest]

end

end ObjectQuery.Hql
