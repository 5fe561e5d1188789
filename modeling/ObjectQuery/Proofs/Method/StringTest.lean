import ObjectQuery.Proofs.Lowering.Calls
import ObjectQuery.Proofs.Text.LikePattern

/-!
# Tests of strings

A test of a string against another one is a match against a pattern that is
built of the searched text. The text is escaped in one of two ways: at once,
character by character, where it is a constant, and otherwise by three
replacements when the query runs, one for each special character. The escape
character comes first in these, since the other two replacements write new
ones. Both give the same pattern, so the test means the same for every text
and knows no special characters.

## Main definitions

* `StringTest` — the three tests, with what each says of two texts.
* `Value.ofText` — a text that may be null.

## Main results

* `pattern?_eq` — both ways of escaping give the same pattern.
* `like_pattern` — the match against the pattern is the test.
-/

namespace ObjectQuery

open Hql (Node)
open Text.Like (Token Matches)

/-! ## The tests -/

/-- The tests of a string against another one. -/
inductive StringTest where
  | startsWith
  | endsWith
  | contains

/-- A text that may be null, as a value. -/
def Value.ofText : Option String → Value
  | none => .null
  | some s => .string s

namespace StringTest

/-- The method that a client calls for the test. -/
def method : StringTest → MethodSignature
  | .startsWith => stringTest "StartsWith"
  | .endsWith => stringTest "EndsWith"
  | .contains => stringTest "Contains"

/-- What the test says of a text `s` and the text `p` searched for. -/
def Holds : StringTest → List Char → List Char → Prop
  | .startsWith, p, s => p <+: s
  | .endsWith, p, s => p <:+ s
  | .contains, p, s => p <:+: s

instance (test : StringTest) (p s : List Char) : Decidable (test.Holds p s) :=
  match test with
  | .startsWith => inferInstanceAs (Decidable (p <+: s))
  | .endsWith => inferInstanceAs (Decidable (p <:+ s))
  | .contains => inferInstanceAs (Decidable (p <:+: s))

/-- The value of the test for texts that may be null. -/
def value (test : StringTest) : Option String → Option String → Value
  | some s, some p => .boolean (decide (test.Holds p.toList s.toList))
  | _, _ => .null

/-- What stands around the searched text in the pattern of the test. -/
def around : StringTest → Value → List Value
  | .startsWith, p => [p, anyRun]
  | .endsWith, p => [anyRun, p]
  | .contains, p => [anyRun, p, anyRun]

/-- The pattern of the test. -/
def pattern : StringTest → List Char → List Char
  | .startsWith, p => p ++ ['%']
  | .endsWith, p => ['%'] ++ p
  | .contains, p => ['%'] ++ (p ++ ['%'])

/-- The tokens of the pattern for a text that is escaped. -/
def tokens : StringTest → List Char → List Token
  | .startsWith, p => p.map .literal ++ [.anyRun]
  | .endsWith, p => .anyRun :: p.map .literal
  | .contains, p => .anyRun :: (p.map .literal ++ [.anyRun])

/-- The generator of the test. -/
def generator : StringTest → Generator
  | .startsWith => .startsWith
  | .endsWith => .endsWith
  | .contains => .stringContains

end StringTest

/-! ## Escaping -/

/-- A replacement escapes one special character. -/
theorem Seen.escaped?_string (t : List Char) (special : Char) :
    Seen.escaped? (.string (String.ofList t)) special =
      some (.string (String.ofList
        (t.flatMap fun c => if c = special then [patternEscape, special] else [c]))) := by
  have hreplace : Text.replace (String.ofList t) (String.singleton special)
      (String.ofList [patternEscape, special]) = String.ofList
        (t.flatMap fun c => if c = special then [patternEscape, special] else [c]) := by
    rw [Text.replace, String.toList_singleton, String.toList_ofList, String.toList_ofList,
      Text.replaceChars_singleton]
  rw [← hreplace]
  rfl

/-- The replacements one after the other do to each character what escaping
it at once does. -/
theorem flatMap_escapes (cs : List Char) :
    ((cs.flatMap fun c => if c = patternEscape then [patternEscape, patternEscape] else [c]).flatMap
        fun c => if c = '%' then [patternEscape, '%'] else [c]).flatMap
        (fun c => if c = '_' then [patternEscape, '_'] else [c]) = escapePattern cs := by
  rw [List.flatMap_assoc, List.flatMap_assoc, escapePattern]
  congr 1
  funext c
  -- only a special character is changed, and what is written for it is left
  -- alone by the replacements that come after
  by_cases hescape : c = patternEscape
  · subst hescape
    decide
  · by_cases hrun : c = '%'
    · subst hrun
      decide
    · by_cases hone : c = '_'
      · subst hone
        decide
      · simp [patternSpecials, hescape, hrun, hone]

theorem foldlM_escaped?_string (s : String) :
    patternSpecials.foldlM Seen.escaped? (.string s) =
      some (.string (String.ofList (escapePattern s.toList))) := by
  have hstart : Value.string s = .string (String.ofList s.toList) := by
    rw [String.ofList_toList]
  rw [hstart, patternSpecials, List.foldlM_cons, Seen.escaped?_string, Option.bind_eq_bind,
    Option.bind_some, List.foldlM_cons, Seen.escaped?_string, Option.bind_eq_bind,
    Option.bind_some, List.foldlM_cons, Seen.escaped?_string, Option.bind_eq_bind,
    Option.bind_some, List.foldlM_nil, flatMap_escapes]
  rfl

/-- A pattern built for a text that may be null. -/
def escapedText (p : Option String) : Value :=
  .ofText (p.map fun p => String.ofList (escapePattern p.toList))

/-- Both ways of escaping give the same pattern: it does not matter whether
the text is a constant. -/
theorem pattern?_eq {env : Environment} {scope : Scope} {b : Node} {p : Option String}
    (hb : b.eval env scope = .ok (.ofText p)) :
    Seen.pattern? ⟨b.constant?, .ofText p⟩ = some (escapedText p) := by
  unfold Seen.pattern?
  split
  · next t hconstant =>
      -- a constant has its own text for its value
      cases b with
      | constant value =>
          obtain rfl := Option.some.inj hconstant
          cases p with
          | none => cases hb
          | some p =>
              obtain rfl : t = p := Value.string.inj (Except.ok.inj hb)
              rfl
      | _ => cases hconstant
  · cases p with
    | none => rfl
    | some p => exact foldlM_escaped?_string p

/-! ## Matching -/

namespace StringTest

/-- The pattern of a test is written out of the escaped text. -/
theorem concat_around (test : StringTest) (q : List Char) :
    Value.concat (test.around (.string (String.ofList q))) =
      .string (String.ofList (test.pattern q)) := by
  have hrun : String.ofList ['%'] = "%" := rfl
  cases test with
  | startsWith =>
      show Value.string (String.join [String.ofList q, "%"]) = _
      simp [String.join, pattern, String.ofList_append, hrun]
  | endsWith =>
      show Value.string (String.join ["%", String.ofList q]) = _
      simp only [String.join, List.foldl, pattern, String.ofList_append, hrun, String.empty_append]
  | contains =>
      show Value.string (String.join ["%", String.ofList q, "%"]) = _
      simp only [String.join, List.foldl, pattern, String.ofList_append, hrun,
        String.empty_append, String.append_assoc]

private theorem concat_around_null (test : StringTest) :
    Value.concat (test.around .null) = .null := by
  cases test <;> rfl

private theorem tokens_pattern (test : StringTest) (p : List Char) :
    Text.Like.tokens (some patternEscape) (test.pattern (escapePattern p)) = test.tokens p := by
  have hlast : Text.Like.tokens (some patternEscape) ['%'] = [.anyRun] :=
    Text.Like.tokens_anyRun _ []
  have hplain : Text.Like.tokens (some patternEscape) (escapePattern p) = p.map .literal := by
    have h := Text.Like.tokens_escapePattern p []
    rw [List.append_nil] at h
    rw [h]
    exact List.append_nil _
  cases test with
  | startsWith => rw [pattern, Text.Like.tokens_escapePattern, hlast, tokens]
  | endsWith => exact (Text.Like.tokens_anyRun _ _).trans (congrArg _ hplain)
  | contains =>
      have hmiddle := Text.Like.tokens_escapePattern p ['%']
      rw [hlast] at hmiddle
      exact (Text.Like.tokens_anyRun _ _).trans (congrArg _ hmiddle)

private theorem matches_tokens_iff (test : StringTest) {p s : List Char} :
    Matches (test.tokens p) s ↔ test.Holds p s := by
  cases test with
  | startsWith => exact Text.Like.matches_literals_anyRun
  | endsWith => exact Text.Like.matches_anyRun_literals
  | contains => exact Text.Like.matches_anyRun_literals_anyRun

/-- The pattern of a test matches exactly the texts that pass it. -/
theorem isMatch_pattern (test : StringTest) (p : List Char) (s : String) :
    Text.Like.isMatch (some patternEscape) (String.ofList (test.pattern (escapePattern p))) s =
      decide (test.Holds p s.toList) := by
  rw [Text.Like.isMatch, String.toList_ofList, tokens_pattern, Bool.eq_iff_iff,
    Text.Like.matchesTokens_iff, matches_tokens_iff, decide_eq_true_iff]

/-- The match against the pattern is the test, for texts that may be null. -/
theorem like_pattern (test : StringTest) (s p : Option String) :
    Value.like (some patternEscape) (.ofText s) (Value.concat (test.around (escapedText p))) =
      .ok (test.value s p) := by
  cases p with
  | none =>
      show Value.like _ _ (Value.concat (test.around .null)) = _
      rw [concat_around_null]
      cases s <;> rfl
  | some p =>
      show Value.like _ _ (Value.concat (test.around (.string _))) = _
      rw [concat_around]
      cases s with
      | none => rfl
      | some s =>
          show Except.ok (Value.boolean (Text.Like.isMatch _ _ s)) = _
          rw [isMatch_pattern, value]

/-- What a test means for operands that are texts or null. -/
theorem matches?_eq (test : StringTest) {env : Environment} {scope : Scope} {a b : Node}
    {s p : Option String} (ha : a.eval env scope = .ok (.ofText s))
    (hb : b.eval env scope = .ok (.ofText p)) :
    (a.seen? env scope >>= fun x => b.seen? env scope >>= fun y => x.matches? y test.around) =
      some (test.value s p) := by
  rw [seen?_bind, ha]
  show (b.seen? env scope >>= fun y => Seen.matches? ⟨a.constant?, .ofText s⟩ y test.around) = _
  rw [seen?_bind, hb]
  show Seen.matches? ⟨a.constant?, .ofText s⟩ ⟨b.constant?, .ofText p⟩ test.around = _
  rw [Seen.matches?, pattern?_eq hb]
  show (Value.like (some patternEscape) (.ofText s) _).toOption = _
  rw [like_pattern]
  rfl

/-! ## Calls -/

/-- The default handler of a test. -/
theorem exists_handler {registry : Registry}
    (hregistry : registry = .builtin ∨ registry = .withDefaults) (test : StringTest) :
    ∃ handler, registry.lookup test.method = some handler ∧
      handler.generator = test.generator ∧ handler.expansion = .never := by
  rcases hregistry with rfl | rfl
  · cases test <;> exact ⟨_, rfl, rfl, rfl⟩
  · cases test <;> exact ⟨_, rfl, rfl, rfl⟩

private theorem meaning_generator (test : StringTest) (x y : Seen) :
    test.generator.meaning [x, y] = x.matches? y test.around := by
  cases test <;> rfl

end StringTest

/-- With the default handlers a call of a test can be lowered where its
operands can be, and says of two texts what the test says: no character in
them is special, and it does not matter whether a text is a constant. Where
one of them is null, the call is null. -/
theorem stringTest_eval {registry : Registry} {limit depth : Nat}
    (hregistry : registry = .builtin ∨ registry = .withDefaults) (test : StringTest)
    {target argument : Expr} {type : StaticType} {a b : Node}
    (htarget : target.LowersTo registry limit depth a)
    (hargument : argument.LowersTo registry limit depth b) :
    ∃ node, (Expr.call test.method (some target) [argument] type).LowersTo registry limit depth
        node ∧
      ∀ env scope s p, a.eval env scope = .ok (.ofText s) → b.eval env scope = .ok (.ofText p) →
        node.eval env scope = .ok (test.value s p) := by
  have hplain : registry.IsPlain := by
    rcases hregistry with rfl | rfl
    · exact Registry.builtin_isPlain
    · exact Registry.withDefaults_isPlain
  obtain ⟨handler, hlookup, hgenerator, hexpansion⟩ := test.exists_handler hregistry
  have hlowers : ∀ e ∈ (some target).toList ++ [argument], e.Lowers registry limit depth := by
    intro e he
    simp only [Option.toList_some, List.cons_append, List.nil_append, List.mem_cons,
      List.not_mem_nil, or_false] at he
    rcases he with rfl | rfl
    · exact ⟨a, htarget⟩
    · exact ⟨b, hargument⟩
  have haccepts : handler.generator.Accepts ((some target).toList ++ [argument]).length := by
    rw [hgenerator]
    cases test <;> exact fun n hn => Option.some.inj hn
  obtain ⟨node, hnode, -, hvalue⟩ := call_yields type hplain hlookup hlowers haccepts
  refine ⟨node, hnode, ?_⟩
  intro env scope s p hs hp
  rw [← toOption_eq_some, hvalue, hgenerator]
  simp only [Expr.operand?, hexpansion, Option.toList_some, List.cons_append, List.nil_append,
    List.mapM_cons, List.mapM_nil, htarget.seen?_eq, hargument.seen?_eq, bind_assoc, pure_bind,
    StringTest.meaning_generator]
  exact test.matches?_eq hs hp

/-- A text that is full of special characters, under a name. -/
def specialText : Environment :=
  ⟨⟨[]⟩, [("text", .string "100%_\\"), ("part", .string "%_\\")]⟩

/-- The text ends with its last three characters, whether they are given
under a name or as a constant. -/
theorem endsWith_specialText :
    ∃ node constantNode,
      (Expr.call (stringTest "EndsWith") (some (.parameter "text" .string))
        [.parameter "part" .string] .boolean).LowersTo .withDefaults 8 0 node ∧
      (Expr.call (stringTest "EndsWith") (some (.parameter "text" .string))
        [.constant (.string "%_\\")] .boolean).LowersTo .withDefaults 8 0 constantNode ∧
      node.eval specialText [] = .ok (.boolean true) ∧
      constantNode.eval specialText [] = .ok (.boolean true) := by
  obtain ⟨node, hnode, hvalue⟩ := @stringTest_eval .withDefaults 8 0 (.inr rfl) .endsWith
    (.parameter "text" .string) (.parameter "part" .string) .boolean _ _ rfl rfl
  obtain ⟨constantNode, hconstantNode, hconstantValue⟩ :=
    @stringTest_eval .withDefaults 8 0 (.inr rfl) .endsWith
      (.parameter "text" .string) (.constant (.string "%_\\")) .boolean _ _ rfl rfl
  exact ⟨node, constantNode, hnode, hconstantNode,
    hvalue specialText [] (some "100%_\\") (some "%_\\") rfl rfl,
    hconstantValue specialText [] (some "100%_\\") (some "%_\\") rfl rfl⟩

end ObjectQuery
