import Mathlib.Data.List.Basic
import ObjectQuery.Hql.Render

/-!
# Quotes in query texts

Whoever reads a query text from left to right finds its string literals by
their quotes: a quote opens a literal, a doubled quote inside of it stands
for one quote, and a single one closes it. `scan` is this reader. It takes a
text apart into the characters outside of literals and the literals.

A string that is written in quotes is read back as it was, whatever it
consists of. One thing has to be seen to: the closing quote must not be
followed by another one, or the two were read as one quote of the content.
So a text is said to be read as certain tokens if it is, before anything that
does not go on with a quote. Such texts may be strung together as long as
every text but the first one begins with something other than a quote.

## Main definitions

* `scan` — the tokens of a text.
* `Reads` — a text is read as tokens, before whatever does not begin with a
  quote.

## Main results

* `reads_quote` — a string in quotes is read as one literal with that content.
* `Reads.append` — texts may be strung together.
-/

namespace ObjectQuery.Hql

/-! ## Scanning -/

/-- A piece of a text. -/
inductive Token where
  /-- A character outside of literals. -/
  | plain (c : Char)
  /-- A string literal, by its content. -/
  | quoted (content : String)
  deriving DecidableEq

/-- The content of a literal. -/
def Token.quoted? : Token → Option String
  | .plain _ => none
  | .quoted content => some content

/-- A character outside of literals. -/
def Token.plain? : Token → Option Char
  | .plain c => some c
  | .quoted _ => none

mutual

/-- The tokens of what follows outside of a literal: a quote opens one. -/
def scanPlain : List Char → Option (List Token)
  | [] => some []
  | '\'' :: rest => scanQuoted [] rest
  | c :: rest => (.plain c :: ·) <$> scanPlain rest

/-- The tokens of what follows inside of a literal, of which `content` is read: a
doubled quote stands for one quote, and a single one closes the literal. A literal
that is not closed cannot be read. -/
def scanQuoted (content : List Char) : List Char → Option (List Token)
  | [] => none
  | '\'' :: '\'' :: rest => scanQuoted (content ++ ['\'']) rest
  | '\'' :: rest => (.quoted (String.ofList content) :: ·) <$> scanPlain rest
  | c :: rest => scanQuoted (content ++ [c]) rest

end

/-- The tokens of a text. -/
def scan (text : String) : Option (List Token) :=
  scanPlain text.toList

/-- The contents of the string literals in a text, from left to right. -/
def literals (text : String) : Option (List String) :=
  (·.filterMap Token.quoted?) <$> scan text

/-- What stands outside of the string literals in a text, with a mark for each of
them. -/
def outside (text : String) : Option (List (Option Char)) :=
  (·.map Token.plain?) <$> scan text

private theorem scanPlain_cons {c : Char} (h : c ≠ '\'') (rest : List Char) :
    scanPlain (c :: rest) = (.plain c :: ·) <$> scanPlain rest := by
  rw [scanPlain]
  exact h

private theorem scanQuoted_cons {c : Char} (h : c ≠ '\'') (content rest : List Char) :
    scanQuoted content (c :: rest) = scanQuoted (content ++ [c]) rest := by
  rw [scanQuoted]
  · exact fun _ hc => absurd hc h
  · exact h

/-- A quote that no other one follows closes the literal. -/
theorem scanQuoted_close (content : List Char) {rest : List Char}
    (h : rest.head? ≠ some '\'') :
    scanQuoted content ('\'' :: rest) =
      (.quoted (String.ofList content) :: ·) <$> scanPlain rest := by
  rw [scanQuoted]
  rintro other rfl
  exact h rfl

/-- Characters with their quotes doubled are read as they were. -/
theorem scanQuoted_doubled (content cs : List Char) {rest : List Char}
    (h : rest.head? ≠ some '\'') :
    scanQuoted content
        (cs.flatMap (fun c => if c = '\'' then ['\'', '\''] else [c]) ++ '\'' :: rest) =
      (.quoted (String.ofList (content ++ cs)) :: ·) <$> scanPlain rest := by
  induction cs generalizing content with
  | nil => rw [List.flatMap_nil, List.nil_append, scanQuoted_close content h, List.append_nil]
  | cons c cs ih =>
      rw [List.append_cons content c cs]
      by_cases hc : c = '\''
      · rw [List.flatMap_cons, if_pos hc, hc, ← ih (content ++ ['\''])]
        exact scanQuoted.eq_2 _ _
      · rw [List.flatMap_cons, if_neg hc, ← ih (content ++ [c])]
        exact scanQuoted_cons hc content _

/-! ## Texts that are read -/

/-- The text is read as the tokens, before anything that does not begin with a quote. -/
def Reads (text : List Char) (tokens : List Token) : Prop :=
  ∀ rest : List Char, rest.head? ≠ some '\'' →
    scanPlain (text ++ rest) = (tokens ++ ·) <$> scanPlain rest

theorem Reads.scanPlain_eq {text : List Char} {tokens : List Token} (h : Reads text tokens) :
    scanPlain text = some tokens := by
  have hall := h [] (by simp)
  rw [List.append_nil, scanPlain] at hall
  rw [hall, Option.map_eq_map, Option.map_some, List.append_nil]

/-- A text without quotes is read as it is, whatever follows. -/
theorem scanPlain_append {text : List Char} (h : '\'' ∉ text) (rest : List Char) :
    scanPlain (text ++ rest) = (text.map .plain ++ ·) <$> scanPlain rest := by
  induction text with
  | nil => simp
  | cons c cs ih =>
      rw [List.mem_cons, not_or] at h
      rw [List.cons_append, scanPlain_cons (Ne.symm h.1), ih h.2]
      cases scanPlain rest <;> rfl

theorem reads_plain {text : List Char} (h : '\'' ∉ text) : Reads text (text.map .plain) :=
  fun rest _ => scanPlain_append h rest

/-- A string in quotes is read as one literal. -/
theorem reads_quote (s : String) : Reads (quote s).toList [.quoted s] := by
  intro rest hrest
  rw [quote, String.toList_ofList, List.cons_append, scanPlain, List.append_assoc,
    List.singleton_append, scanQuoted_doubled [] s.toList hrest, List.nil_append,
    String.ofList_toList]
  rfl

/-- After a text without quotes any text is read as by itself. -/
theorem Reads.plain_append {text : List Char} {tokens : List Token} (h : Reads text tokens)
    {front : List Char} (hfront : '\'' ∉ front) :
    Reads (front ++ text) (front.map .plain ++ tokens) := by
  intro rest hrest
  rw [List.append_assoc, scanPlain_append hfront, h rest hrest]
  cases scanPlain rest with
  | none => rfl
  | some after => exact congrArg some (List.append_assoc _ _ _).symm

/-- After any text, one that does not begin with a quote is read as by itself. -/
theorem Reads.append {text text' : List Char} {tokens tokens' : List Token}
    (h : Reads text tokens) (h' : Reads text' tokens') (hhead : text'.head? ≠ some '\'') :
    Reads (text ++ text') (tokens ++ tokens') := by
  intro rest hrest
  have hnext : (text' ++ rest).head? ≠ some '\'' := by
    cases text' with
    | nil => exact hrest
    | cons c cs => exact hhead
  rw [List.append_assoc, h _ hnext, h' rest hrest]
  cases scanPlain rest with
  | none => rfl
  | some after => exact congrArg some (List.append_assoc _ _ _).symm

end ObjectQuery.Hql

/-! ## Texts without quotes -/

namespace ObjectQuery

/-- A text without quotes. -/
def QuoteFree (s : String) : Prop :=
  '\'' ∉ s.toList

instance (s : String) : Decidable (QuoteFree s) :=
  inferInstanceAs (Decidable ('\'' ∉ s.toList))

theorem QuoteFree.append {s t : String} (hs : QuoteFree s) (ht : QuoteFree t) :
    QuoteFree (s ++ t) := by
  unfold QuoteFree
  rw [String.toList_append, List.mem_append, not_or]
  exact ⟨hs, ht⟩

private theorem quote_not_mem_toDigits (n : Nat) : '\'' ∉ Nat.toDigits 10 n := by
  intro h
  have hdigit := Nat.isDigit_of_mem_toDigits (by decide) (by decide) h
  exact absurd hdigit (by decide)

/-- The text of a word is made of digits and a sign. -/
theorem Word64.quoteFree_text (n : Int64) : QuoteFree (Word64.text n) := by
  have hrepr : ∀ m : Nat, QuoteFree (Nat.repr m) := by
    intro m
    unfold QuoteFree
    rw [Nat.repr, String.toList_ofList]
    exact quote_not_mem_toDigits m
  unfold Word64.text
  rw [Int.toString_eq_repr]
  unfold Int.repr
  cases n.toInt with
  | ofNat m => exact hrepr m
  | negSucc m => exact QuoteFree.append (by decide) (hrepr (m + 1))

namespace Decimal

private theorem quote_not_mem_zeros (n : Int) : '\'' ∉ zeros n := fun h =>
  absurd (List.eq_of_mem_replicate h) (by decide)

private theorem Digits.quote_not_mem_ofGridPoint (c : Nat) (e : Int) :
    '\'' ∉ (Digits.ofGridPoint c e).digits := by
  intro h
  have hwritten := (List.dropWhile_sublist _).subset (List.mem_reverse.mp h)
  exact quote_not_mem_toDigits c (List.mem_reverse.mp hwritten)

private theorem Binary.quote_not_mem_shortest (tie : Tie) (b : Binary) :
    '\'' ∉ (b.shortest tie).digits := by
  unfold shortest
  dsimp only
  generalize hfound : List.findSome? _ _ = found
  cases found with
  | none => exact List.not_mem_nil
  | some digits =>
      obtain ⟨n, -, hn⟩ := List.exists_of_findSome?_eq_some hfound
      obtain ⟨c, -, rfl⟩ := Option.map_eq_some_iff.mp hn
      exact Digits.quote_not_mem_ofGridPoint c _

namespace Layout

private theorem quote_not_mem_placed {layout : Layout} {d : Digits}
    (hsuffix : '\'' ∉ layout.wholeSuffix.toList) (hdigits : '\'' ∉ d.digits) :
    '\'' ∉ layout.placed d := by
  unfold placed
  split
  · simp only [List.mem_append, not_or]
    exact ⟨⟨by decide, quote_not_mem_zeros _⟩, hdigits⟩
  · split
    · simp only [List.mem_append, not_or]
      exact ⟨⟨hdigits, quote_not_mem_zeros _⟩, hsuffix⟩
    · simp only [List.mem_append, not_or]
      exact ⟨⟨fun h => hdigits (List.mem_of_mem_take h), by decide⟩,
        fun h => hdigits (List.mem_of_mem_drop h)⟩

private theorem quote_not_mem_magnitude_plain (x : Float) : '\'' ∉ plain.magnitude x := by
  unfold magnitude
  dsimp only
  split
  · exact (by decide : '\'' ∉ ['0'])
  · exact @quote_not_mem_placed plain _ List.not_mem_nil (Binary.quote_not_mem_shortest _ _)

/-- The text of a float is made of digits, a point and a sign, or is a word for a float
that is no number. -/
theorem quoteFree_text_plain (x : Float) : QuoteFree (plain.text x) := by
  unfold QuoteFree text
  split
  · decide
  · have hmagnitude : '\'' ∉ (if x.isInf then "inf".toList else plain.magnitude x) := by
      split
      · decide
      · exact quote_not_mem_magnitude_plain x
    rw [String.toList_ofList]
    split
    · exact List.not_mem_cons_of_ne_of_not_mem (by decide) hmagnitude
    · exact hmagnitude

end Layout

end Decimal

/-- The entities that a type names. -/
def StaticType.entityNames : StaticType → List String
  | .entity name => [name]
  | .nullable inner => inner.entityNames
  | .collection element => element.entityNames
  | _ => []

/-- The text of a type has no quotes but those in the names of entities. -/
theorem StaticType.quoteFree_text {type : StaticType}
    (h : ∀ name ∈ type.entityNames, QuoteFree name) : QuoteFree type.text := by
  induction type with
  | entity name => exact h name List.mem_cons_self
  | nullable inner ih => exact (ih h).append (by decide)
  | collection element ih => exact (QuoteFree.append (by decide) (ih h)).append (by decide)
  | _ => decide

end ObjectQuery
