import ObjectQuery.Method.Handler
import ObjectQuery.Text.LikePattern

/-!
# What a pattern matches

Matching fills rows of truth values, one entry for every suffix of the text.
What it computes is the relation `Matches`, which says token by token which
texts a pattern stands for. With it an escaped text is a pattern that matches
this text and nothing else: cutting the pattern into tokens undoes the
escaping, whatever comes after it. To see that, the search for tokens is first
put as a recursion over the pattern.

## Main definitions

* `Matches` — the texts that tokens stand for.

## Main results

* `matchesTokens_iff` — the rows compute this relation.
* `tokens_cons` — the tokens of a pattern, character by character.
* `tokens_escapePattern` — an escaped text becomes literal tokens.
* `matches_literals_anyRun`, `matches_anyRun_literals`,
  `matches_anyRun_literals_anyRun` — literal tokens with runs after, before
  and around them.
-/

namespace ObjectQuery.Text.Like

/-- The tokens stand for the text. -/
inductive Matches : List Token → List Char → Prop where
  | nil : Matches [] []
  | anyRun (run : List Char) {ts : List Token} {rest : List Char} :
      Matches ts rest → Matches (.anyRun :: ts) (run ++ rest)
  | anyOne (c : Char) {ts : List Token} {rest : List Char} :
      Matches ts rest → Matches (.anyOne :: ts) (c :: rest)
  | literal (c : Char) {ts : List Token} {rest : List Char} :
      Matches ts rest → Matches (.literal c :: ts) (c :: rest)

/-! ## Rows -/

/-- A row has an entry for the empty suffix. -/
theorem matchRow_ne_nil (text : List Char) (ts : List Token) : matchRow text ts ≠ [] := by
  induction ts with
  | nil => simp [matchRow]
  | cons token ts ih =>
      obtain ⟨b, row, hrow⟩ := List.exists_cons_of_ne_nil ih
      cases token with
      | anyRun => simp [matchRow, extendRow, fromHereOn, hrow]
      | anyOne => simp [matchRow, extendRow]
      | literal c => simp [matchRow, extendRow]

/-- The first entry of a row is for the whole text, and the row of the rest
of the text follows. -/
theorem matchRow_cons (c : Char) (cs : List Char) (ts : List Token) :
    matchRow (c :: cs) ts = matchesTokens ts (c :: cs) :: matchRow cs ts := by
  have htail : (matchRow (c :: cs) ts).tail = matchRow cs ts := by
    induction ts with
    | nil => rfl
    | cons token ts ih =>
        obtain ⟨first, rest, hlong⟩ := List.exists_cons_of_ne_nil (matchRow_ne_nil (c :: cs) ts)
        obtain ⟨b, row, hrow⟩ := List.exists_cons_of_ne_nil (matchRow_ne_nil cs ts)
        rw [hlong, List.tail_cons, hrow] at ih
        simp only [matchRow, hlong, ih, hrow]
        cases token <;> rfl
  have hne := matchRow_ne_nil (c :: cs) ts
  obtain ⟨first, rest, hlong⟩ := List.exists_cons_of_ne_nil hne
  rw [hlong, List.tail_cons] at htail
  rw [matchesTokens, hlong, htail]
  rfl

private theorem matchRow_nil_length (ts : List Token) : (matchRow [] ts).length = 1 := by
  induction ts with
  | nil => rfl
  | cons token ts ih =>
      obtain ⟨b, hrow⟩ := List.length_eq_one_iff.mp ih
      cases token <;> simp [matchRow, extendRow, fromHereOn, hrow]

/-- The row of the empty text. -/
theorem matchRow_nil (ts : List Token) : matchRow [] ts = [matchesTokens ts []] := by
  obtain ⟨b, hrow⟩ := List.length_eq_one_iff.mp (matchRow_nil_length ts)
  rw [matchesTokens, hrow]
  rfl

/-! ### Matching, token by token -/

private theorem matchesTokens_nil (text : List Char) : matchesTokens [] text = text.isEmpty := by
  cases text <;> rfl

private theorem matchesTokens_anyRun_nil (ts : List Token) :
    matchesTokens (.anyRun :: ts) [] = matchesTokens ts [] := by
  rw [matchesTokens, matchRow, matchRow_nil, extendRow]
  simp [fromHereOn]

private theorem matchesTokens_anyRun_cons (ts : List Token) (c : Char) (cs : List Char) :
    matchesTokens (.anyRun :: ts) (c :: cs) =
      (matchesTokens ts (c :: cs) || matchesTokens (.anyRun :: ts) cs) := by
  rw [matchesTokens, matchRow, matchRow_cons]
  rfl

private theorem matchesTokens_anyOne_nil (ts : List Token) :
    matchesTokens (.anyOne :: ts) [] = false := by
  rw [matchesTokens, matchRow, matchRow_nil]
  rfl

private theorem matchesTokens_anyOne_cons (ts : List Token) (c : Char) (cs : List Char) :
    matchesTokens (.anyOne :: ts) (c :: cs) = matchesTokens ts cs := by
  rw [matchesTokens, matchRow, matchRow_cons, extendRow, List.tail_cons, matchesTokens]
  obtain ⟨b, row, hrow⟩ := List.exists_cons_of_ne_nil (matchRow_ne_nil cs ts)
  rw [hrow]
  rfl

private theorem matchesTokens_literal_nil (x : Char) (ts : List Token) :
    matchesTokens (.literal x :: ts) [] = false := by
  rw [matchesTokens, matchRow, matchRow_nil]
  rfl

private theorem matchesTokens_literal_cons (x : Char) (ts : List Token) (c : Char)
    (cs : List Char) :
    matchesTokens (.literal x :: ts) (c :: cs) = (c == x && matchesTokens ts cs) := by
  rw [matchesTokens, matchRow, matchRow_cons, extendRow, List.tail_cons, matchesTokens]
  obtain ⟨b, row, hrow⟩ := List.exists_cons_of_ne_nil (matchRow_ne_nil cs ts)
  rw [hrow]
  rfl

/-! ## The relation, token by token -/

private theorem matches_nil_iff {text : List Char} : Matches [] text ↔ text = [] := by
  constructor
  · intro h
    cases h
    rfl
  · rintro rfl
    exact .nil

private theorem matches_anyRun_iff {ts : List Token} {text : List Char} :
    Matches (.anyRun :: ts) text ↔ ∃ rest, rest <:+ text ∧ Matches ts rest := by
  constructor
  · intro h
    cases h with
    | @anyRun run ts rest h => exact ⟨rest, List.suffix_append run rest, h⟩
  · rintro ⟨rest, ⟨run, rfl⟩, h⟩
    exact .anyRun run h

theorem matches_anyOne_iff {ts : List Token} {text : List Char} :
    Matches (.anyOne :: ts) text ↔ ∃ c rest, text = c :: rest ∧ Matches ts rest := by
  constructor
  · intro h
    cases h with
    | @anyOne c ts rest h => exact ⟨c, rest, rfl, h⟩
  · rintro ⟨c, rest, rfl, h⟩
    exact .anyOne c h

theorem matches_literal_iff {x : Char} {ts : List Token} {text : List Char} :
    Matches (.literal x :: ts) text ↔ ∃ rest, text = x :: rest ∧ Matches ts rest := by
  constructor
  · intro h
    cases h with
    | @literal c ts rest h => exact ⟨rest, rfl, h⟩
  · rintro ⟨rest, rfl, h⟩
    exact .literal x h

/-- Filling rows decides the relation. -/
theorem matchesTokens_iff {ts : List Token} {text : List Char} :
    matchesTokens ts text = true ↔ Matches ts text := by
  induction ts generalizing text with
  | nil => rw [matchesTokens_nil, matches_nil_iff, List.isEmpty_iff]
  | cons token ts ih =>
      cases token with
      | anyRun =>
          rw [matches_anyRun_iff]
          induction text with
          | nil => simp [matchesTokens_anyRun_nil, ih]
          | cons c cs ihText =>
              rw [matchesTokens_anyRun_cons, Bool.or_eq_true, ih, ihText]
              simp only [List.suffix_cons_iff, or_and_right, exists_or, exists_eq_left]
      | anyOne =>
          rw [matches_anyOne_iff]
          cases text with
          | nil => simp [matchesTokens_anyOne_nil]
          | cons c cs =>
              rw [matchesTokens_anyOne_cons, ih]
              constructor
              · intro h
                exact ⟨c, cs, rfl, h⟩
              · rintro ⟨_, _, hsplit, h⟩
                cases hsplit
                exact h
      | literal x =>
          rw [matches_literal_iff]
          cases text with
          | nil => simp [matchesTokens_literal_nil]
          | cons c cs =>
              rw [matchesTokens_literal_cons, Bool.and_eq_true, beq_iff_eq, ih]
              constructor
              · rintro ⟨rfl, h⟩
                exact ⟨cs, rfl, h⟩
              · rintro ⟨_, hsplit, h⟩
                cases hsplit
                exact ⟨rfl, h⟩

/-! ## Literal texts -/

/-- Literal tokens stand for their text at the front. -/
theorem matches_literals_append {p : List Char} {ts : List Token} {text : List Char} :
    Matches (p.map .literal ++ ts) text ↔ ∃ rest, text = p ++ rest ∧ Matches ts rest := by
  induction p generalizing text with
  | nil => simp
  | cons x p ih =>
      simp only [List.map_cons, List.cons_append, matches_literal_iff, ih]
      constructor
      · rintro ⟨_, rfl, rest, rfl, h⟩
        exact ⟨rest, rfl, h⟩
      · rintro ⟨rest, rfl, h⟩
        exact ⟨_, rfl, rest, rfl, h⟩

/-! ## Tokens of a pattern -/

private theorem takeFront_wildcard (c : Char) (cs : List Char) :
    takeFront [.oneOf ['%', '_']] (c :: cs) = if c = '%' ∨ c = '_' then some [c] else none := by
  rw [takeFront, takeFront, Step.takes, Option.map_some]
  simp only [List.contains_cons, List.contains_nil, Bool.or_false, Bool.or_eq_true, beq_iff_eq]

private theorem takeFront_pair (e c : Char) (cs : List Char) :
    takeFront [.oneOf [e], .dot] (c :: cs) =
      if e = c then
        match cs with
        | [] => none
        | x :: _ => if x = '\n' then none else some [c, x]
      else none := by
  rw [takeFront, Step.takes]
  simp only [List.contains_cons, List.contains_nil, Bool.or_false, beq_iff_eq, eq_comm (a := c)]
  congr 1
  cases cs with
  | nil => rfl
  | cons x rest =>
      rw [takeFront, takeFront, Step.takes]
      by_cases hline : x = '\n'
      · simp [hline]
      · simp [hline]

/-- What is found at the front of a pattern. -/
theorem matchFront_tokenExpression (escape : Option Char) (c : Char) (cs : List Char) :
    matchFront (tokenExpression escape) (c :: cs) =
      if c = '%' ∨ c = '_' then some [c]
      else if escape = some c then
        match cs with
        | [] => none
        | x :: _ => if x = '\n' then none else some [c, x]
      else none := by
  rw [matchFront, tokenExpression, List.findSome?_cons, takeFront_wildcard]
  by_cases hc : c = '%' ∨ c = '_'
  · rw [if_pos hc, if_pos hc]
  rw [if_neg hc, if_neg hc]
  cases escape with
  | none => rfl
  | some e =>
      simp only [Option.map_some, Option.toList_some, List.findSome?_singleton, takeFront_pair,
        Option.some.injEq]

private theorem Piece.tokens_pair (c x : Char) : (Piece.found [c, x]).tokens = [.literal x] := by
  unfold tokens
  split
  · next h => cases h
  · next h => cases h
  · next pair _ _ h =>
      obtain rfl := Piece.found.inj h
      rfl
  · next h => cases h

/-- The tokens of a pattern, character by character. -/
theorem tokens_cons (escape : Option Char) (c : Char) (cs : List Char) :
    tokens escape (c :: cs) =
      if c = '%' then .anyRun :: tokens escape cs
      else if c = '_' then .anyOne :: tokens escape cs
      else if escape = some c then
        match cs with
        | [] => [.literal c]
        | x :: rest =>
          if x = '\n' then .literal c :: tokens escape (x :: rest)
          else .literal x :: tokens escape rest
      else .literal c :: tokens escape cs := by
  rw [tokens, search, matchFront_tokenExpression]
  by_cases hrun : c = '%'
  · subst hrun
    rfl
  by_cases hone : c = '_'
  · subst hone
    rfl
  rw [if_neg (not_or.mpr ⟨hrun, hone⟩), if_neg hrun, if_neg hone]
  by_cases hescape : escape = some c
  · rw [if_pos hescape, if_pos hescape]
    cases cs with
    | nil => rfl
    | cons x rest =>
        by_cases hline : x = '\n'
        · simp only [if_pos hline]
          rfl
        · simp only [if_neg hline]
          rw [List.flatMap_cons, Piece.tokens_pair]
          rfl
  · rw [if_neg hescape, if_neg hescape]
    rfl

theorem tokens_anyRun (escape : Option Char) (cs : List Char) :
    tokens escape ('%' :: cs) = .anyRun :: tokens escape cs := by
  rw [tokens_cons, if_pos rfl]

/-! ## Escaped texts -/

/-- An escaped special character is a literal token. -/
theorem tokens_escaped {c : Char} (h : c ∈ patternSpecials) (rest : List Char) :
    tokens (some patternEscape) (patternEscape :: c :: rest) =
      .literal c :: tokens (some patternEscape) rest := by
  have hline : c ≠ '\n' := by
    rintro rfl
    exact absurd h (by decide)
  rw [tokens_cons, if_neg (by decide), if_neg (by decide), if_pos rfl]
  simp only [hline, if_false]

/-- So is a character that is not special. -/
theorem tokens_plain {c : Char} (h : c ∉ patternSpecials) (rest : List Char) :
    tokens (some patternEscape) (c :: rest) =
      .literal c :: tokens (some patternEscape) rest := by
  simp only [patternSpecials, List.mem_cons, List.not_mem_nil, or_false, not_or] at h
  have hescape : ¬ some patternEscape = some c := fun heq => h.1 (Option.some.inj heq).symm
  rw [tokens_cons, if_neg h.2.1, if_neg h.2.2, if_neg hescape]

/-- Cutting an escaped text into tokens gives its characters back. -/
theorem tokens_escapePattern (p rest : List Char) :
    tokens (some patternEscape) (escapePattern p ++ rest) =
      p.map .literal ++ tokens (some patternEscape) rest := by
  induction p with
  | nil => rfl
  | cons c p ih =>
      rw [escapePattern, List.flatMap_cons, ← escapePattern, List.append_assoc]
      by_cases hspecial : c ∈ patternSpecials
      · rw [if_pos hspecial]
        exact (tokens_escaped hspecial _).trans (congrArg _ ih)
      · rw [if_neg hspecial]
        exact (tokens_plain hspecial _).trans (congrArg _ ih)

/-! ## Literal texts between runs -/

theorem matches_literals_anyRun {p text : List Char} :
    Matches (p.map .literal ++ [.anyRun]) text ↔ p <+: text := by
  rw [matches_literals_append]
  constructor
  · rintro ⟨rest, rfl, -⟩
    exact List.prefix_append p rest
  · rintro ⟨rest, rfl⟩
    have hrest : Matches [.anyRun] rest := by
      rw [← List.append_nil rest]
      exact .anyRun rest .nil
    exact ⟨rest, rfl, hrest⟩

theorem matches_anyRun_literals {p text : List Char} :
    Matches (.anyRun :: p.map .literal) text ↔ p <:+ text := by
  have hwhole : ∀ rest, Matches (p.map .literal) rest ↔ rest = p := by
    intro rest
    rw [← List.append_nil (p.map Token.literal), matches_literals_append]
    simp [matches_nil_iff]
  rw [matches_anyRun_iff]
  simp only [hwhole, exists_eq_right]

theorem matches_anyRun_literals_anyRun {p text : List Char} :
    Matches (.anyRun :: (p.map .literal ++ [.anyRun])) text ↔ p <:+: text := by
  rw [matches_anyRun_iff]
  simp only [matches_literals_anyRun]
  constructor
  · rintro ⟨rest, ⟨before, rfl⟩, after, rfl⟩
    exact ⟨before, after, List.append_assoc before p after⟩
  · rintro ⟨before, after, rfl⟩
    refine ⟨p ++ after, ⟨before, ?_⟩, List.prefix_append p after⟩
    exact (List.append_assoc before p after).symm

end ObjectQuery.Text.Like
