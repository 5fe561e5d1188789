import ObjectQuery.Proofs.Engine.Query
import ObjectQuery.Proofs.Text.LikePattern

/-!
# Pairs in a pattern

A pattern is read from left to right. Two characters next to each other may be
a pair, which stands for the second one; any other character is a wildcard or
stands for itself. So what a pattern means depends on what counts as a pair. An
escape character is meant to be a pair with whatever comes after it. The search
for pairs leaves some of them out: those with a line feed, and all of them where
the escape character is itself a wildcard.

Both readings match the same texts only if they cut the pattern into the same
tokens. The shortest texts that match show the tokens that are no runs, and
that is enough to tell the readings apart, unless `%` is the escape character.
Then no run stands in front of the first pair, and a longer text shows it.

## Main definitions

* `reading` — the tokens of a pattern for given pairs.
* `everyPair`, `plainPair` — the pairs with an escape character, and those that
  the search finds.

## Main results

* `tokens_eq_reading` — searching a pattern is reading it with the plain pairs.
* `reading_eq_of_equivalent` — both readings are the same if they match the same
  texts.
* `reading_everyPair_of_not_mem` — as they are for a pattern without a line feed
  and an escape character that is no wildcard.
* `like_eval_iff` — what `like` says of a text, and the patterns for which it
  takes every pair into account.
-/

namespace ObjectQuery.Text.Like

/-! ## Readings -/

/-- What a character stands for that is in no pair. -/
def Token.ofChar (c : Char) : Token :=
  if c = '%' then .anyRun else if c = '_' then .anyOne else .literal c

/-- The tokens of a pattern that is read from left to right. -/
def reading (pair : Char → Char → Bool) : List Char → List Token
  | [] => []
  | [c] => [.ofChar c]
  | c :: x :: rest =>
    if pair c x then .literal x :: reading pair rest
    else .ofChar c :: reading pair (x :: rest)

/-- The escape character with whatever comes after it. -/
def everyPair (escape : Option Char) (c _x : Char) : Bool :=
  escape == some c

/-- An escape character that is no wildcard, with anything but a line feed after it. -/
def plainPair (escape : Option Char) (c x : Char) : Bool :=
  escape == some c && c != '%' && c != '_' && x != '\n'

variable {pair : Char → Char → Bool}

private theorem reading_pair {c x : Char} (h : pair c x = true) (rest : List Char) :
    reading pair (c :: x :: rest) = .literal x :: reading pair rest := by
  rw [reading, if_pos h]

private theorem reading_no_pair {c x : Char} (h : pair c x = false) (rest : List Char) :
    reading pair (c :: x :: rest) = .ofChar c :: reading pair (x :: rest) := by
  rw [reading, if_neg (Bool.eq_false_iff.mp h)]

/-- A character with which no pair begins stands alone. -/
theorem reading_alone {c : Char} (h : ∀ x, pair c x = false) (cs : List Char) :
    reading pair (c :: cs) = .ofChar c :: reading pair cs := by
  cases cs with
  | nil => rfl
  | cons x rest => exact reading_no_pair (h x) rest

/-- Searching a pattern for wildcards and pairs is reading it with the plain pairs. -/
theorem tokens_eq_reading (escape : Option Char) (pattern : List Char) :
    tokens escape pattern = reading (plainPair escape) pattern := by
  fun_induction reading (plainPair escape) pattern with
  | case1 => rfl
  | case2 c =>
      rw [tokens_cons, Token.ofChar]
      split
      · rfl
      · split
        · rfl
        · split <;> rfl
  | case3 c x rest hpair ih =>
      simp only [plainPair, Bool.and_eq_true, beq_iff_eq, bne_iff_ne] at hpair
      obtain ⟨⟨⟨hescape, hrun⟩, hone⟩, hline⟩ := hpair
      rw [tokens_cons, if_neg hrun, if_neg hone, if_pos hescape, ← ih]
      exact if_neg hline
  | case4 c x rest hpair ih =>
      rw [tokens_cons, Token.ofChar, ← ih]
      split
      · rfl
      · next hrun =>
          split
          · rfl
          · next hone =>
              split
              · next hescape =>
                  -- the escape character is no wildcard, so a line feed comes after it
                  have hline : x = '\n' := by
                    simpa [plainPair, hescape, hrun, hone] using hpair
                  exact if_pos hline
              · rfl

/-! ## Shortest texts -/

/-- The tokens without the runs: what is in a shortest text. -/
def withoutRuns (ts : List Token) : List Token :=
  ts.filter (· ≠ .anyRun)

@[simp] theorem withoutRuns_nil : withoutRuns [] = [] := rfl

@[simp] theorem withoutRuns_anyRun (ts : List Token) :
    withoutRuns (.anyRun :: ts) = withoutRuns ts := rfl

@[simp] theorem withoutRuns_anyOne (ts : List Token) :
    withoutRuns (.anyOne :: ts) = .anyOne :: withoutRuns ts := rfl

@[simp] theorem withoutRuns_literal (c : Char) (ts : List Token) :
    withoutRuns (.literal c :: ts) = .literal c :: withoutRuns ts := by
  simp [withoutRuns]

variable {ts us : List Token} {text : List Char}

/-- No text that matches is shorter than the tokens without the runs. -/
theorem length_withoutRuns_le (h : Matches ts text) : (withoutRuns ts).length ≤ text.length := by
  induction h with
  | nil => exact Nat.le_refl 0
  | anyRun run _ ih =>
      rw [withoutRuns_anyRun, List.length_append]
      exact Nat.le_trans ih (Nat.le_add_left ..)
  | anyOne c _ ih =>
      rw [withoutRuns_anyOne]
      exact Nat.succ_le_succ ih
  | literal c _ ih =>
      rw [withoutRuns_literal]
      exact Nat.succ_le_succ ih

/-- Some text matches. -/
theorem exists_matches_withoutRuns (ts : List Token) : ∃ text, Matches (withoutRuns ts) text := by
  induction ts with
  | nil => exact ⟨[], .nil⟩
  | cons token ts ih =>
      obtain ⟨text, h⟩ := ih
      cases token with
      | anyRun => exact ⟨text, h⟩
      | anyOne => exact ⟨'%' :: text, .anyOne _ h⟩
      | literal c =>
          rw [withoutRuns_literal]
          exact ⟨c :: text, .literal c h⟩

/-- Without the runs, the tokens match the shortest texts. -/
theorem matches_withoutRuns_iff :
    Matches (withoutRuns ts) text ↔
      Matches ts text ∧ text.length = (withoutRuns ts).length := by
  constructor
  · intro h
    induction ts generalizing text with
    | nil =>
        cases h
        exact ⟨.nil, rfl⟩
    | cons token ts ih =>
        cases token with
        | anyRun =>
            obtain ⟨hmatches, hlength⟩ := ih h
            exact ⟨.anyRun [] hmatches, hlength⟩
        | anyOne =>
            cases h with
            | anyOne c h =>
                obtain ⟨hmatches, hlength⟩ := ih h
                exact ⟨.anyOne c hmatches, congrArg Nat.succ hlength⟩
        | literal c =>
            rw [withoutRuns_literal] at h ⊢
            cases h with
            | literal _ h =>
                obtain ⟨hmatches, hlength⟩ := ih h
                exact ⟨.literal c hmatches, congrArg Nat.succ hlength⟩
  · rintro ⟨h, hlength⟩
    induction h with
    | nil => exact .nil
    | @anyRun run ts rest h ih =>
        -- a run that is not empty would make the text longer
        rw [withoutRuns_anyRun, List.length_append] at hlength
        have hle := length_withoutRuns_le h
        obtain rfl : run = [] := List.eq_nil_of_length_eq_zero (by omega)
        exact ih (by simpa using hlength)
    | anyOne c _ ih => exact .anyOne c (ih (Nat.succ.inj hlength))
    | literal c _ ih =>
        rw [withoutRuns_literal] at hlength ⊢
        exact .literal c (ih (Nat.succ.inj hlength))

/-! ## Tokens that match the same texts -/

/-- Tokens that match the same texts. -/
def Equivalent (ts us : List Token) : Prop :=
  ∀ text, Matches ts text ↔ Matches us text

private theorem exists_ne (c : Char) : ∃ d : Char, d ≠ c := by
  by_cases h : c = '%'
  · exact ⟨'_', fun heq => absurd (heq.trans h) (by decide)⟩
  · exact ⟨'%', Ne.symm h⟩

private theorem exists_matches (ts : List Token) : ∃ text, Matches ts text := by
  obtain ⟨text, h⟩ := exists_matches_withoutRuns ts
  exact ⟨text, (matches_withoutRuns_iff.mp h).1⟩

/-- A literal token matches only texts that begin with its character. -/
theorem not_equivalent_literal {c : Char} {token : Token} (h : token ≠ .literal c) :
    ¬ Equivalent (.literal c :: ts) (token :: us) := by
  intro hequivalent
  obtain ⟨rest, hrest⟩ := exists_matches us
  have hbegins : ∀ d, Matches (token :: us) (d :: rest) → d = c := by
    intro d hd
    obtain ⟨_, hsplit, -⟩ := matches_literal_iff.mp ((hequivalent _).mpr hd)
    exact (List.cons.inj hsplit).1
  obtain ⟨other, hother⟩ := exists_ne c
  cases token with
  | anyRun => exact hother (hbegins other (.anyRun [other] hrest))
  | anyOne => exact hother (hbegins other (.anyOne other hrest))
  | literal d => exact h (congrArg Token.literal (hbegins d (.literal d hrest)))

/-- A token that is no run may be left out on both sides. -/
theorem Equivalent.tail {token : Token} (htoken : token ≠ .anyRun)
    (h : Equivalent (token :: ts) (token :: us)) : Equivalent ts us := by
  intro text
  cases token with
  | anyRun => exact absurd rfl htoken
  | anyOne =>
      have hcons := h ('%' :: text)
      simpa [matches_anyOne_iff] using hcons
  | literal c =>
      have hcons := h (c :: text)
      simpa [matches_literal_iff] using hcons

theorem Equivalent.symm (h : Equivalent ts us) : Equivalent us ts :=
  fun text => (h text).symm

private theorem eq_anyRun_of_matches_nil {token : Token} (h : Matches (token :: ts) []) :
    token = .anyRun := by
  generalize htext : ([] : List Char) = text at h
  cases h with
  | anyRun => rfl
  | anyOne | literal => cases htext

/-- Tokens without runs that match the same texts are the same. -/
theorem Equivalent.eq_of_not_mem (hts : .anyRun ∉ ts) (hus : .anyRun ∉ us)
    (h : Equivalent ts us) : ts = us := by
  induction ts generalizing us with
  | nil =>
      cases us with
      | nil => rfl
      | cons other us =>
          obtain rfl := eq_anyRun_of_matches_nil ((h []).mp .nil)
          exact absurd (List.mem_cons_self ..) hus
  | cons token ts ih =>
      cases us with
      | nil =>
          obtain rfl := eq_anyRun_of_matches_nil ((h []).mpr .nil)
          exact absurd (List.mem_cons_self ..) hts
      | cons other us =>
          rw [List.mem_cons, not_or] at hts hus
          have htoken : token = other := by
            cases token with
            | anyRun => exact absurd rfl hts.1
            | literal c =>
                by_contra hne
                exact not_equivalent_literal (Ne.symm hne) h
            | anyOne =>
                cases other with
                | anyRun => exact absurd rfl hus.1
                | anyOne => rfl
                | literal c => exact absurd h.symm (not_equivalent_literal Token.noConfusion)
          subst htoken
          rw [ih hts.2 hus.2 (h.tail (Ne.symm hts.1))]

/-- Tokens that match the same texts differ in their runs at most. -/
theorem Equivalent.withoutRuns_eq (h : Equivalent ts us) : withoutRuns ts = withoutRuns us := by
  have hle : ∀ {ts us : List Token}, Equivalent ts us →
      (withoutRuns us).length ≤ (withoutRuns ts).length := by
    intro ts us h
    obtain ⟨text, htext⟩ := exists_matches_withoutRuns ts
    obtain ⟨hmatches, hlength⟩ := matches_withoutRuns_iff.mp htext
    exact hlength ▸ length_withoutRuns_le ((h text).mp hmatches)
  have hnone : ∀ ts : List Token, .anyRun ∉ withoutRuns ts := by
    intro ts hmem
    simp [withoutRuns] at hmem
  apply Equivalent.eq_of_not_mem (hnone ts) (hnone us)
  intro text
  rw [matches_withoutRuns_iff, matches_withoutRuns_iff, h text,
    Nat.le_antisymm (hle h.symm) (hle h)]

/-! ## Patterns that are read in one way -/

private theorem everyPair_iff {escape : Option Char} {c x : Char} :
    everyPair escape c x = true ↔ escape = some c := by
  simp [everyPair]

private theorem plainPair_iff {escape : Option Char} {c x : Char} :
    plainPair escape c x = true ↔ escape = some c ∧ c ≠ '%' ∧ c ≠ '_' ∧ x ≠ '\n' := by
  simp [plainPair, and_assoc]

/-- Where no pair begins with a character, both readings take it alone. -/
theorem reading_alone_of_ne {escape : Option Char} {c : Char} (h : escape ≠ some c)
    (cs : List Char) :
    reading (everyPair escape) (c :: cs) = .ofChar c :: reading (everyPair escape) cs ∧
      reading (plainPair escape) (c :: cs) = .ofChar c :: reading (plainPair escape) cs := by
  constructor
  · exact reading_alone (fun x => Bool.eq_false_iff.mpr fun hp => h (everyPair_iff.mp hp)) cs
  · exact reading_alone (fun x => Bool.eq_false_iff.mpr fun hp => h (plainPair_iff.mp hp).1) cs

private theorem withoutRuns_cons_inj (token : Token) :
    withoutRuns (token :: ts) = withoutRuns (token :: us) ↔ withoutRuns ts = withoutRuns us := by
  cases token <;> simp

variable {e : Char} {pattern : List Char}

/-- A wildcard as escape character is in no plain pair. -/
theorem reading_plainPair_wildcard (h : e = '%' ∨ e = '_') (c : Char) (cs : List Char) :
    reading (plainPair (some e)) (c :: cs) = .ofChar c :: reading (plainPair (some e)) cs := by
  apply reading_alone
  intro x
  rw [Bool.eq_false_iff]
  intro hp
  obtain ⟨hc, hrun, hone, -⟩ := plainPair_iff.mp hp
  obtain rfl := Option.some.inj hc
  exact h.elim hrun hone

/-- With `%` as escape character, a pair is a run in the plain reading, and no run stands in
front of the first one. -/
theorem reading_eq_of_equivalent_percent
    (h : Equivalent (reading (everyPair (some '%')) pattern)
      (reading (plainPair (some '%')) pattern)) :
    reading (everyPair (some '%')) pattern = reading (plainPair (some '%')) pattern := by
  fun_induction reading (everyPair (some '%')) pattern with
  | case1 => rfl
  | case2 => rfl
  | case3 c x rest hpair ih =>
      obtain rfl := Option.some.inj (everyPair_iff.mp hpair)
      rw [reading_plainPair_wildcard (.inl rfl)] at h
      exact absurd h (not_equivalent_literal Token.noConfusion)
  | case4 c x rest hpair ih =>
      have hc : '%' ≠ c := fun heq => hpair (everyPair_iff.mpr (congrArg some heq))
      have hrun : Token.ofChar c ≠ .anyRun := by
        unfold Token.ofChar
        rw [if_neg hc.symm]
        split <;> exact Token.noConfusion
      rw [reading_plainPair_wildcard (.inl rfl)] at h ⊢
      rw [ih (h.tail hrun)]

/-- With `_` as escape character, a pair begins with any one character in the plain reading. -/
theorem reading_eq_of_withoutRuns_underscore
    (h : withoutRuns (reading (everyPair (some '_')) pattern) =
      withoutRuns (reading (plainPair (some '_')) pattern)) :
    reading (everyPair (some '_')) pattern = reading (plainPair (some '_')) pattern := by
  fun_induction reading (everyPair (some '_')) pattern with
  | case1 => rfl
  | case2 => rfl
  | case3 c x rest hpair ih =>
      obtain rfl := Option.some.inj (everyPair_iff.mp hpair)
      rw [reading_plainPair_wildcard (.inr rfl), withoutRuns_literal] at h
      cases h
  | case4 c x rest hpair ih =>
      rw [reading_plainPair_wildcard (.inr rfl)] at h ⊢
      rw [ih ((withoutRuns_cons_inj _).mp h)]

private theorem reading_plainPair_some (hrun : e ≠ '%') (hone : e ≠ '_') {x : Char} (hx : x ≠ '\n')
    (rest : List Char) :
    reading (plainPair (some e)) (e :: x :: rest) =
      .literal x :: reading (plainPair (some e)) rest :=
  reading_pair (plainPair_iff.mpr ⟨rfl, hrun, hone, hx⟩) rest

/-- A pair with a line feed is no plain pair. -/
theorem reading_plainPair_lineFeed (escape : Option Char) (c : Char) (rest : List Char) :
    reading (plainPair escape) (c :: '\n' :: rest) =
      .ofChar c :: reading (plainPair escape) ('\n' :: rest) := by
  apply reading_no_pair
  rw [Bool.eq_false_iff]
  intro hp
  exact (plainPair_iff.mp hp).2.2.2 rfl

private theorem Token.ofChar_eq_literal {c : Char} (hrun : c ≠ '%') (hone : c ≠ '_') :
    ofChar c = .literal c := by
  rw [ofChar, if_neg hrun, if_neg hone]

/-- With any other escape character but the line feed, a pair that is left out begins with that
character in the plain reading. -/
theorem reading_eq_of_withoutRuns_plain (hrun : e ≠ '%') (hone : e ≠ '_') (hline : e ≠ '\n')
    (h : withoutRuns (reading (everyPair (some e)) pattern) =
      withoutRuns (reading (plainPair (some e)) pattern)) :
    reading (everyPair (some e)) pattern = reading (plainPair (some e)) pattern := by
  fun_induction reading (everyPair (some e)) pattern with
  | case1 => rfl
  | case2 => rfl
  | case3 c x rest hpair ih =>
      obtain rfl := Option.some.inj (everyPair_iff.mp hpair)
      by_cases hx : x = '\n'
      · -- the line feed is read in place of the escape character
        subst hx
        rw [reading_plainPair_lineFeed, Token.ofChar_eq_literal hrun hone, withoutRuns_literal,
          withoutRuns_literal] at h
        exact absurd (Token.literal.inj (List.cons.inj h).1).symm hline
      · rw [reading_plainPair_some hrun hone hx] at h ⊢
        rw [ih ((withoutRuns_cons_inj _).mp h)]
  | case4 c x rest hpair ih =>
      have hc : some e ≠ some c := fun heq => hpair (everyPair_iff.mpr heq)
      rw [(reading_alone_of_ne hc _).2] at h ⊢
      rw [ih ((withoutRuns_cons_inj _).mp h)]

private theorem length_withoutRuns_cons_le_cons {token : Token}
    (h : (withoutRuns ts).length ≤ (withoutRuns us).length) :
    (withoutRuns (token :: ts)).length ≤ (withoutRuns (token :: us)).length := by
  cases token with
  | anyRun => exact h
  | anyOne => exact Nat.succ_le_succ h
  | literal c =>
      rw [withoutRuns_literal, withoutRuns_literal]
      exact Nat.succ_le_succ h

/-- No token is longer than a literal one. -/
theorem length_withoutRuns_cons_le_literal {token : Token} (c : Char)
    (h : (withoutRuns ts).length ≤ (withoutRuns us).length) :
    (withoutRuns (token :: ts)).length ≤ (withoutRuns (.literal c :: us)).length := by
  rw [withoutRuns_literal]
  cases token with
  | anyRun => exact Nat.le_succ_of_le h
  | anyOne => exact Nat.succ_le_succ h
  | literal d =>
      rw [withoutRuns_literal]
      exact Nat.succ_le_succ h

/-- Where the line feed is the escape character, the reading with every pair is never the longer
one, even if the other one has a line feed more. -/
theorem length_withoutRuns_lineFeed_le (pattern : List Char) :
    (withoutRuns (reading (everyPair (some '\n')) pattern)).length ≤
        (withoutRuns (reading (plainPair (some '\n')) pattern)).length ∧
      (withoutRuns (reading (everyPair (some '\n')) pattern)).length ≤
        (withoutRuns (reading (plainPair (some '\n')) ('\n' :: pattern))).length := by
  fun_induction reading (everyPair (some '\n')) pattern with
  | case1 => exact ⟨Nat.le_refl _, Nat.zero_le _⟩
  | case2 c =>
      refine ⟨Nat.le_refl _, ?_⟩
      by_cases hc : c = '\n'
      · subst hc
        exact Nat.le_succ 1
      · rw [reading_plainPair_some (by decide) (by decide) hc]
        exact length_withoutRuns_cons_le_literal c (Nat.le_refl 0)
  | case3 c x rest hpair ih =>
      obtain rfl := Option.some.inj (everyPair_iff.mp hpair)
      have hle : (withoutRuns (.literal x :: reading (everyPair (some '\n')) rest)).length ≤
          (withoutRuns (reading (plainPair (some '\n')) ('\n' :: x :: rest))).length := by
        by_cases hx : x = '\n'
        · subst hx
          rw [reading_plainPair_lineFeed]
          exact length_withoutRuns_cons_le_cons ih.2
        · rw [reading_plainPair_some (by decide) (by decide) hx]
          exact length_withoutRuns_cons_le_cons ih.1
      refine ⟨hle, ?_⟩
      rw [reading_plainPair_lineFeed, Token.ofChar_eq_literal (by decide) (by decide),
        withoutRuns_literal _ (reading _ _)]
      exact Nat.le_succ_of_le hle
  | case4 c x rest hpair ih =>
      have hc : some '\n' ≠ some c := fun heq => hpair (everyPair_iff.mpr heq)
      rw [(reading_alone_of_ne hc _).2]
      refine ⟨length_withoutRuns_cons_le_cons ih.1, ?_⟩
      rw [reading_plainPair_some (by decide) (by decide) fun heq => hc (congrArg some heq.symm)]
      exact length_withoutRuns_cons_le_literal c ih.1

/-- With the line feed as escape character, the line feed after one that is left out begins a
pair of its own, so that more of the pattern has to be looked at. -/
theorem reading_eq_of_withoutRuns_lineFeed
    (h : withoutRuns (reading (everyPair (some '\n')) pattern) =
      withoutRuns (reading (plainPair (some '\n')) pattern)) :
    reading (everyPair (some '\n')) pattern = reading (plainPair (some '\n')) pattern := by
  fun_induction reading (everyPair (some '\n')) pattern with
  | case1 => rfl
  | case2 => rfl
  | case3 c x rest hpair ih =>
      obtain rfl := Option.some.inj (everyPair_iff.mp hpair)
      by_cases hx : x = '\n'
      · subst hx
        rw [reading_plainPair_lineFeed, Token.ofChar_eq_literal (by decide) (by decide)] at h ⊢
        rw [withoutRuns_cons_inj] at h
        congr 1
        cases rest with
        | nil => cases h
        | cons y rest =>
            by_cases hy : y = '\n'
            · -- the line feed that is left over makes the plain reading longer
              subst hy
              rw [reading_plainPair_lineFeed] at h
              have hle := (length_withoutRuns_lineFeed_le ('\n' :: rest)).1
              rw [h, Token.ofChar_eq_literal (by decide) (by decide), withoutRuns_literal] at hle
              exact absurd hle (Nat.not_succ_le_self _)
            · rw [reading_plainPair_some (by decide) (by decide) hy] at h ⊢
              have hne : some '\n' ≠ some y := fun heq => hy (Option.some.inj heq).symm
              obtain ⟨hevery, hplain⟩ := reading_alone_of_ne hne rest
              have hofChar : Token.ofChar y = .literal y := by
                rw [hevery, Token.ofChar, withoutRuns_literal] at h
                apply Token.ofChar_eq_literal
                · rintro rfl
                  have hle := (length_withoutRuns_lineFeed_le rest).1
                  rw [if_pos rfl, withoutRuns_anyRun] at h
                  rw [h] at hle
                  exact absurd hle (Nat.not_succ_le_self _)
                · rintro rfl
                  cases h
              rw [hplain, hofChar] at ih
              exact ih h
      · rw [reading_plainPair_some (by decide) (by decide) hx] at h ⊢
        rw [ih ((withoutRuns_cons_inj _).mp h)]
  | case4 c x rest hpair ih =>
      have hc : some '\n' ≠ some c := fun heq => hpair (everyPair_iff.mpr heq)
      rw [(reading_alone_of_ne hc _).2] at h ⊢
      rw [ih ((withoutRuns_cons_inj _).mp h)]

/-- Where both readings of a pattern match the same texts, they are the same. -/
theorem reading_eq_of_equivalent {escape : Option Char}
    (h : Equivalent (reading (everyPair escape) pattern) (reading (plainPair escape) pattern)) :
    reading (everyPair escape) pattern = reading (plainPair escape) pattern := by
  cases escape with
  | none => rfl
  | some e =>
      by_cases hrun : e = '%'
      · subst hrun
        exact reading_eq_of_equivalent_percent h
      by_cases hone : e = '_'
      · subst hone
        exact reading_eq_of_withoutRuns_underscore h.withoutRuns_eq
      by_cases hline : e = '\n'
      · subst hline
        exact reading_eq_of_withoutRuns_lineFeed h.withoutRuns_eq
      · exact reading_eq_of_withoutRuns_plain hrun hone hline h.withoutRuns_eq

/-- Without a line feed in the pattern, every pair with an escape character that is no wildcard
is a plain pair. -/
theorem reading_everyPair_of_not_mem {escape : Option Char} (hrun : escape ≠ some '%')
    (hone : escape ≠ some '_') (hline : '\n' ∉ pattern) :
    reading (everyPair escape) pattern = reading (plainPair escape) pattern := by
  fun_induction reading (everyPair escape) pattern with
  | case1 => rfl
  | case2 => rfl
  | case3 c x rest hpair ih =>
      simp only [List.mem_cons, not_or] at hline
      obtain rfl := everyPair_iff.mp hpair
      rw [ih hline.2.2, reading_plainPair_some (fun h => hrun (congrArg some h))
        (fun h => hone (congrArg some h)) (Ne.symm hline.2.1)]
  | case4 c x rest hpair ih =>
      have hc : escape ≠ some c := fun heq => hpair (everyPair_iff.mpr heq)
      rw [ih (fun h => hline (List.mem_cons_of_mem c h)), (reading_alone_of_ne hc _).2]

private theorem isMatch_iff (escape : Option Char) (p s : String) :
    isMatch escape p s = true ↔ Matches (reading (plainPair escape) p.toList) s.toList := by
  rw [isMatch, matchesTokens_iff, tokens_eq_reading]

end ObjectQuery.Text.Like

namespace ObjectQuery.Hql

open Text.Like (Matches reading everyPair plainPair isMatch isMatch_iff reading_eq_of_equivalent)

variable {env : Environment} {scope : Scope} {operand pattern : Node} {s p : String}

private theorem like_eval_texts (escape : Option Char)
    (hoperand : operand.eval env scope = .ok (.string s))
    (hpattern : pattern.eval env scope = .ok (.string p)) :
    (Node.like operand pattern escape).eval env scope = .ok (.boolean (isMatch escape p s)) := by
  rw [Node.eval, hoperand, hpattern]
  rfl

/-- Of a text, `like` says whether it matches the pattern read with the plain pairs. It takes
every pair into account exactly if that makes the same tokens of the pattern. -/
theorem like_eval_iff (escape : Option Char)
    (hpattern : pattern.eval env scope = .ok (.string p)) :
    (∀ operand s, operand.eval env scope = .ok (.string s) →
      ∃ b, (Node.like operand pattern escape).eval env scope = .ok (.boolean b) ∧
        (b = true ↔ Matches (reading (plainPair escape) p.toList) s.toList)) ∧
    ((∀ operand s, operand.eval env scope = .ok (.string s) →
        ((Node.like operand pattern escape).eval env scope = .ok (.boolean true) ↔
          Matches (reading (everyPair escape) p.toList) s.toList)) ↔
      reading (everyPair escape) p.toList = reading (plainPair escape) p.toList) := by
  have htrue : ∀ {operand s}, operand.eval env scope = .ok (.string s) →
      ((Node.like operand pattern escape).eval env scope = .ok (.boolean true) ↔
        Matches (reading (plainPair escape) p.toList) s.toList) := by
    intro operand s hoperand
    rw [like_eval_texts escape hoperand hpattern, ← isMatch_iff]
    simp
  refine ⟨fun operand s hoperand => ?_, ?_, ?_⟩
  · exact ⟨_, like_eval_texts escape hoperand hpattern, isMatch_iff escape p s⟩
  · intro h
    apply reading_eq_of_equivalent
    intro text
    -- every text is the value of some operand
    have hconstant : (Node.constant (.string (String.ofList text))).eval env scope =
        .ok (.string (String.ofList text)) := rfl
    have hboth := (h _ _ hconstant).symm.trans (htrue hconstant)
    rwa [String.toList_ofList] at hboth
  · intro h operand s hoperand
    rw [h]
    exact htrue hoperand

/-- No parameters and no data. -/
def nothingGiven : Environment :=
  ⟨⟨[]⟩, []⟩

/-- A wildcard that is escaped, and one that is not. -/
theorem like_escapedPercent :
    Matches (reading (everyPair (some '!')) "50!%%".toList) "50% off".toList ∧
      (Node.like (.constant (.string "50% off")) (.constant (.string "50!%%")) (some '!')).eval
        nothingGiven [] = .ok (.boolean true) := by
  have hpattern : (Node.constant (.string "50!%%")).eval nothingGiven [] =
      .ok (.string "50!%%") := rfl
  obtain ⟨-, hevery⟩ := like_eval_iff (some '!') hpattern
  have hsame : reading (everyPair (some '!')) "50!%%".toList =
      reading (plainPair (some '!')) "50!%%".toList := by decide
  have htrue : (Node.like (.constant (.string "50% off")) (.constant (.string "50!%%"))
      (some '!')).eval nothingGiven [] = .ok (.boolean true) := rfl
  exact ⟨(hevery.mpr hsame _ _ rfl).mp htrue, htrue⟩

/-- A line feed is not escaped, and `%` is still a wildcard as escape character. -/
theorem like_pairs_left_out :
    ((Node.like (.constant (.string "\n")) (.constant (.string "!\n")) (some '!')).eval
        nothingGiven [] = .ok (.boolean false) ∧
      Matches (reading (everyPair (some '!')) "!\n".toList) "\n".toList) ∧
    (Node.like (.constant (.string "1000")) (.constant (.string "100%%")) (some '%')).eval
        nothingGiven [] = .ok (.boolean true) ∧
      ¬ Matches (reading (everyPair (some '%')) "100%%".toList) "1000".toList := by
  refine ⟨⟨rfl, ?_⟩, rfl, ?_⟩
  · rw [← Text.Like.matchesTokens_iff]
    decide
  · rw [← Text.Like.matchesTokens_iff]
    decide

end ObjectQuery.Hql
