import ObjectQuery.Proofs.Hql.Quoting

/-!
# String literals in rendered trees

The text of a tree is read by its quotes. If no name in it has one, a reader
finds exactly the strings of the tree, with what they consist of and in the
order in which they are written: the string constants and the escape
characters of patterns. What a string consists of has no effect on anything
outside of the literals, so no string can become part of the query around it.

The proof goes along the rendering. No two literals are written next to each
other: every node is followed by a keyword, a sign or the end. That is kept
by `Rendering`, which relates a text to the text of the same tree with all
strings blanked, and by `Suffix` for the texts that follow a node.

## Main definitions

* `Node.parts`, `Query.parts` — the names and strings of a tree, as written.
* `Node.blanked`, `Query.blanked` — the tree with all strings blanked.

## Main results

* `render_literals` — what a reader finds in the text of a tree.
-/

namespace ObjectQuery.Hql

/-! ## The names and strings of a tree -/

/-- A part of a tree that is chosen freely. -/
inductive Part where
  /-- A name: of an entity, an item, a property, a parameter or a function. -/
  | name (s : String)
  /-- A string constant or an escape character. -/
  | text (s : String)

/-- A name without quotes; strings may have some. -/
def Part.IsPlain : Part → Prop
  | .name s => QuoteFree s
  | .text _ => True

instance : DecidablePred Part.IsPlain
  | .name s => inferInstanceAs (Decidable (QuoteFree s))
  | .text _ => .isTrue trivial

/-- The string that a part is. -/
def Part.text? : Part → Option String
  | .name _ => none
  | .text s => some s

/-- The strings among the parts of a tree. -/
def textsOf (parts : List Part) : List String :=
  parts.filterMap Part.text?

private theorem textsOf_append (parts parts' : List Part) :
    textsOf (parts ++ parts') = textsOf parts ++ textsOf parts' :=
  List.filterMap_append

private theorem textsOf_cons_name (name : String) (parts : List Part) :
    textsOf (.name name :: parts) = textsOf parts := rfl

private theorem textsOf_names (names : List String) : textsOf (names.map .name) = [] := by
  rw [textsOf, List.filterMap_map, List.filterMap_eq_nil_iff]
  exact fun _ _ => rfl

/-- The parts of a constant. -/
def literalParts : Literal → List Part
  | .string s => [.text s]
  | .queryable entity => [.name entity]
  | _ => []

/-- The parts of an escape clause. -/
def escapeParts : Option Char → List Part
  | none => []
  | some c => [.text (String.singleton c)]

mutual

/-- The names and strings of a node, in the order in which they are written. -/
def Node.parts : Node → List Part
  | .constant value => literalParts value
  | .parameter name | .entity name | .ident name => [.name name]
  | .dot target property => target.parts ++ [.name property]
  | .binary _ left right => left.parts ++ right.parts
  | .not operand | .negate operand | .isNull operand | .isNotNull operand => operand.parts
  | .cast operand type => operand.parts ++ type.entityNames.map .name
  | .choice whens otherwise => whensParts whens ++ optionParts otherwise
  | .coalesce left right => left.parts ++ right.parts
  | .function name arguments => .name name :: allParts arguments
  | .like operand pattern escape => operand.parts ++ (pattern.parts ++ escapeParts escape)
  | .among item collection => item.parts ++ collection.parts
  | .nonempty query | .subquery query => query.parts

/-- The parts of several nodes. -/
def allParts : List Node → List Part
  | [] => []
  | node :: rest => node.parts ++ allParts rest

/-- The parts of the conditions of a choice and of what stands beside them. -/
def whensParts : List (Node × Node) → List Part
  | [] => []
  | (condition, value) :: rest => condition.parts ++ (value.parts ++ whensParts rest)

/-- The parts of a node that may be absent. -/
def optionParts : Option Node → List Part
  | none => []
  | some node => node.parts

/-- The parts of the joins of a query. -/
def joinsParts : List Join → List Part
  | [] => []
  | ⟨source, name, on⟩ :: rest => source.parts ++ (.name name :: (on.parts ++ joinsParts rest))

/-- The parts of the keys of a query. -/
def keysParts : List OrderKey → List Part
  | [] => []
  | ⟨key, _⟩ :: rest => key.parts ++ keysParts rest

/-- The parts of the projection of a query that reads its items as `name`. -/
def projectionParts (name : String) : Option Node → List Part
  | none => [.name name]
  | some node => node.parts

/-- The parts of what a query selects. Where every row is tested, the projection is
not written. -/
def selectionParts (projected : List Part) : Option Aggregate → List Part
  | some (.all predicate) => predicate.parts
  | some (.contains item) => projected ++ item.parts
  | _ => projected

/-- The names and strings of a query, in the order in which they are written. -/
def Query.parts : Query → List Part
  | ⟨source, name, joins, filter, having, order, select, _, skip, take, aggregate⟩ =>
    selectionParts (projectionParts name select) aggregate ++
      (source.parts ++ (.name name :: (joinsParts joins ++ (optionParts filter ++
        (optionParts having ++ (keysParts order ++ (optionParts skip ++ optionParts take)))))))

end

/-! ## Trees without their strings -/

/-- A constant, without the content of a string. -/
def blankedLiteral : Literal → Literal
  | .string _ => .string ""
  | value => value

mutual

/-- A node without the contents of its strings: constants are empty, and escape
characters are blanks. -/
def Node.blanked : Node → Node
  | .constant value => .constant (blankedLiteral value)
  | .parameter name => .parameter name
  | .entity name => .entity name
  | .ident name => .ident name
  | .dot target property => .dot target.blanked property
  | .binary operator left right => .binary operator left.blanked right.blanked
  | .not operand => .not operand.blanked
  | .negate operand => .negate operand.blanked
  | .cast operand type => .cast operand.blanked type
  | .choice whens otherwise => .choice (whensBlanked whens) (optionBlanked otherwise)
  | .coalesce left right => .coalesce left.blanked right.blanked
  | .isNull operand => .isNull operand.blanked
  | .isNotNull operand => .isNotNull operand.blanked
  | .function name arguments => .function name (allBlanked arguments)
  | .like operand pattern escape =>
    .like operand.blanked pattern.blanked (escape.map fun _ => ' ')
  | .among item collection => .among item.blanked collection.blanked
  | .nonempty query => .nonempty query.blanked
  | .subquery query => .subquery query.blanked

/-- Several nodes without the contents of their strings. -/
def allBlanked : List Node → List Node
  | [] => []
  | node :: rest => node.blanked :: allBlanked rest

/-- The conditions of a choice and what stands beside them, without the contents of
their strings. -/
def whensBlanked : List (Node × Node) → List (Node × Node)
  | [] => []
  | (condition, value) :: rest => (condition.blanked, value.blanked) :: whensBlanked rest

/-- A node that may be absent, without the contents of its strings. -/
def optionBlanked : Option Node → Option Node
  | none => none
  | some node => some node.blanked

/-- Joins without the contents of their strings. -/
def joinsBlanked : List Join → List Join
  | [] => []
  | ⟨source, name, on⟩ :: rest => ⟨source.blanked, name, on.blanked⟩ :: joinsBlanked rest

/-- Keys without the contents of their strings. -/
def keysBlanked : List OrderKey → List OrderKey
  | [] => []
  | ⟨key, direction⟩ :: rest => ⟨key.blanked, direction⟩ :: keysBlanked rest

/-- An aggregate without the contents of its strings. -/
def aggregateBlanked : Option Aggregate → Option Aggregate
  | some (.all predicate) => some (.all predicate.blanked)
  | some (.contains item) => some (.contains item.blanked)
  | aggregate => aggregate

/-- A query without the contents of its strings. -/
def Query.blanked : Query → Query
  | ⟨source, name, joins, filter, having, order, select, distinct, skip, take, aggregate⟩ =>
    ⟨source.blanked, name, joinsBlanked joins, optionBlanked filter, optionBlanked having,
      keysBlanked order, optionBlanked select, distinct, optionBlanked skip, optionBlanked take,
      aggregateBlanked aggregate⟩

end

/-! ## Texts put together -/

/-- The text has the string literals `texts`, and reads like the other text outside of
the literals. -/
def Rendering (text blank : String) (texts : List String) : Prop :=
  ∃ tokens blankTokens, Reads text.toList tokens ∧ Reads blank.toList blankTokens ∧
    tokens.filterMap Token.quoted? = texts ∧
      tokens.map Token.plain? = blankTokens.map Token.plain?

/-- Besides, neither text begins with a quote, so they may follow a literal. -/
structure Suffix (text blank : String) (texts : List String) : Prop where
  rendering : Rendering text blank texts
  head : text.toList.head? ≠ some '\''
  blank_head : blank.toList.head? ≠ some '\''

private theorem filterMap_quoted?_plain (cs : List Char) :
    (cs.map Token.plain).filterMap Token.quoted? = [] := by
  rw [List.filterMap_map, List.filterMap_eq_nil_iff]
  exact fun _ _ => rfl

private theorem head?_append_ne {s t : String} (hs : QuoteFree s) (hne : s ≠ "") :
    (s ++ t).toList.head? ≠ some '\'' := by
  rw [String.toList_append]
  intro h
  cases hcs : s.toList with
  | nil => exact hne (String.toList_eq_nil_iff.mp hcs)
  | cons c cs =>
      rw [hcs, List.cons_append, List.head?_cons] at h
      obtain rfl := Option.some.inj h
      exact hs (hcs ▸ List.mem_cons_self)

section

variable {a a₀ b b₀ s : String} {ts ts' : List String}

namespace Rendering

private theorem text (hs : QuoteFree s) : Rendering s s [] :=
  ⟨_, _, reads_plain hs, reads_plain hs, filterMap_quoted?_plain _, rfl⟩

private theorem quoted (s s₀ : String) : Rendering (quote s) (quote s₀) [s] :=
  ⟨_, _, reads_quote s, reads_quote s₀, rfl, rfl⟩

/-- After a text without quotes, literals may begin. -/
theorem after (h : Rendering a a₀ ts) (front : String) (hfront : QuoteFree front) :
    Rendering (front ++ a) (front ++ a₀) ts := by
  obtain ⟨tokens, blankTokens, hreads, hblank, htexts, houtside⟩ := h
  refine ⟨front.toList.map .plain ++ tokens, front.toList.map .plain ++ blankTokens, ?_, ?_, ?_, ?_⟩
  · rw [String.toList_append]
    exact hreads.plain_append hfront
  · rw [String.toList_append]
    exact hblank.plain_append hfront
  · rw [List.filterMap_append, filterMap_quoted?_plain, List.nil_append, htexts]
  · rw [List.map_append, List.map_append, houtside]

/-- After any text, something may follow that does not begin with a quote. -/
theorem append (h : Rendering a a₀ ts) (h' : Suffix b b₀ ts') :
    Rendering (a ++ b) (a₀ ++ b₀) (ts ++ ts') := by
  obtain ⟨tokens, blankTokens, hreads, hblank, htexts, houtside⟩ := h
  obtain ⟨⟨tokens', blankTokens', hreads', hblank', htexts', houtside'⟩, hhead, hblankHead⟩ := h'
  refine ⟨tokens ++ tokens', blankTokens ++ blankTokens', ?_, ?_, ?_, ?_⟩
  · rw [String.toList_append]
    exact hreads.append hreads' hhead
  · rw [String.toList_append]
    exact hblank.append hblank' hblankHead
  · rw [List.filterMap_append, htexts, htexts']
  · rw [List.map_append, List.map_append, houtside, houtside']

end Rendering

namespace Suffix

/-- Texts that may follow a literal may follow each other. -/
theorem append (h : Suffix a a₀ ts) (h' : Suffix b b₀ ts') :
    Suffix (a ++ b) (a₀ ++ b₀) (ts ++ ts') := by
  have hhead : ∀ {s t : String}, s.toList.head? ≠ some '\'' → t.toList.head? ≠ some '\'' →
      (s ++ t).toList.head? ≠ some '\'' := by
    intro s t hs ht
    rw [String.toList_append]
    cases hcs : s.toList with
    | nil => exact ht
    | cons c cs =>
        rw [hcs] at hs
        exact hs
  exact ⟨h.rendering.append h', hhead h.head h'.head, hhead h.blank_head h'.blank_head⟩

private theorem text (hs : QuoteFree s) : Suffix s s [] := by
  have hhead : s.toList.head? ≠ some '\'' := fun h => hs (List.mem_of_mem_head? h)
  exact ⟨.text hs, hhead, hhead⟩

private theorem after (h : Rendering a a₀ ts) (front : String) (hfront : QuoteFree front)
    (hne : front ≠ "") : Suffix (front ++ a) (front ++ a₀) ts :=
  ⟨h.after front hfront, head?_append_ne hfront hne, head?_append_ne hfront hne⟩

end Suffix

/-- A text without quotes may follow. -/
theorem Rendering.close (h : Rendering a a₀ ts) (s : String) (hs : QuoteFree s) :
    Rendering (a ++ s) (a₀ ++ s) ts := by
  have happend := h.append (Suffix.text hs)
  rw [List.append_nil] at happend
  exact happend

/-- Texts without quotes may stand around. -/
theorem Rendering.enclosed (h : Rendering a a₀ ts) (front back : String)
    (hfront : QuoteFree front) (hback : QuoteFree back) :
    Rendering (front ++ a ++ back) (front ++ a₀ ++ back) ts :=
  (h.after front hfront).close back hback

private theorem Rendering.distinct (h : Rendering a a₀ ts) (distinct : Bool) :
    Rendering (if distinct then "distinct " ++ a else a)
      (if distinct then "distinct " ++ a₀ else a₀) ts := by
  cases distinct with
  | false => exact h
  | true => exact h.after "distinct " (by decide)

end

/-- Several texts, each with its literals. -/
inductive Renderings : (texts blanks : List String) → (literals : List String) → Prop
  | nil : Renderings [] [] []
  | cons {a a₀ : String} {as as₀ ts ts' : List String} : Rendering a a₀ ts →
    Renderings as as₀ ts' → Renderings (a :: as) (a₀ :: as₀) (ts ++ ts')

/-- Texts with commas between them. -/
theorem Renderings.intercalate {as as₀ ts : List String} (h : Renderings as as₀ ts) :
    Rendering (", ".intercalate as) (", ".intercalate as₀) ts := by
  induction h with
  | nil => exact .text (by decide)
  | @cons a a₀ as as₀ ts ts' hfirst hrest ih =>
      cases hrest with
      | nil =>
          rw [List.append_nil]
          exact hfirst
      | cons hsecond hmore =>
          rw [String.intercalate_cons_cons, String.intercalate_cons_cons, String.append_assoc,
            String.append_assoc]
          exact hfirst.append (.after ih ", " (by decide) (by decide))

/-! ## Rendered trees -/

private theorem literalText_rendering {value : Literal}
    (h : ∀ part ∈ literalParts value, part.IsPlain) :
    Rendering (literalText value) (literalText (blankedLiteral value))
      (textsOf (literalParts value)) := by
  cases value with
  | null => exact .text (by decide)
  | boolean b => exact .text (by cases b <;> decide)
  | integer n => exact .text (Word64.quoteFree_text n)
  | float x => exact .text (Decimal.Layout.quoteFree_text_plain x)
  | string s => exact .quoted s ""
  | queryable entity => exact .text (h _ List.mem_cons_self)

private theorem escapeText_suffix (escape : Option Char) :
    Suffix (escapeText escape) (escapeText (escape.map fun _ => ' '))
      (textsOf (escapeParts escape)) := by
  cases escape with
  | none => exact .text (by decide)
  | some c => exact .after (.quoted _ _) " escape " (by decide) (by decide)

/-- The text of an ordering with its keys, which may be none. -/
theorem orderSuffix {keys keys₀ ts : List String} (h : Renderings keys keys₀ ts) :
    Suffix (if keys.isEmpty then "" else " order by " ++ ", ".intercalate keys)
      (if keys₀.isEmpty then "" else " order by " ++ ", ".intercalate keys₀) ts := by
  cases h with
  | nil => exact .text (by decide)
  | cons hfirst hrest =>
      exact .after (Renderings.intercalate (.cons hfirst hrest)) " order by " (by decide)
        (by decide)

/-- The text of a query, clause by clause. -/
theorem clauses_rendering {name selection selection₀ source source₀ joins joins₀ filter filter₀
      having having₀ order order₀ skip skip₀ take take₀ : String}
    {ts₁ ts₂ ts₃ ts₄ ts₅ ts₆ ts₇ ts₈ : List String} (hname : QuoteFree name)
    (hselection : Rendering selection selection₀ ts₁) (hsource : Rendering source source₀ ts₂)
    (hjoins : Suffix joins joins₀ ts₃) (hfilter : Suffix filter filter₀ ts₄)
    (hhaving : Suffix having having₀ ts₅) (horder : Suffix order order₀ ts₆)
    (hskip : Suffix skip skip₀ ts₇) (htake : Suffix take take₀ ts₈) :
    Rendering
      ("select " ++ selection ++ " from " ++ source ++ " " ++ name ++ joins ++ filter ++ having ++
        order ++ skip ++ take)
      ("select " ++ selection₀ ++ " from " ++ source₀ ++ " " ++ name ++ joins₀ ++ filter₀ ++
        having₀ ++ order₀ ++ skip₀ ++ take₀)
      (ts₁ ++ (ts₂ ++ (ts₃ ++ (ts₄ ++ (ts₅ ++ (ts₆ ++ (ts₇ ++ ts₈))))))) := by
  have hclauses := hjoins.append (hfilter.append (hhaving.append (horder.append
    (hskip.append htake))))
  have hfrom := hsource.append
    (.after (hclauses.rendering.after name hname) " " (by decide) (by decide))
  simp only [String.append_assoc]
  exact (hselection.append (.after hfrom " from " (by decide) (by decide))).after "select "
    (by decide)

mutual

/-- The text of a node has the strings of the node for its literals. -/
theorem Node.rendering : ∀ (n : Node), (∀ part ∈ n.parts, part.IsPlain) →
    Rendering n.render n.blanked.render (textsOf n.parts)
  | .constant value, h => by
      rw [Node.parts] at h
      rw [Node.render, Node.blanked, Node.render, Node.parts]
      exact literalText_rendering h
  | .parameter name, h => by
      rw [Node.parts] at h
      have hname : QuoteFree name := h (.name name) List.mem_cons_self
      rw [Node.render, Node.blanked, Node.render, Node.parts]
      exact .text (QuoteFree.append (by decide) hname)
  | .entity name, h => by
      rw [Node.parts] at h
      rw [Node.render, Node.blanked, Node.render, Node.parts]
      exact .text (h (.name name) List.mem_cons_self)
  | .ident name, h => by
      rw [Node.parts] at h
      rw [Node.render, Node.blanked, Node.render, Node.parts]
      exact .text (h (.name name) List.mem_cons_self)
  | .dot target property, h => by
      rw [Node.parts, List.forall_mem_append] at h
      have hproperty : QuoteFree property := h.2 (.name property) List.mem_cons_self
      rw [Node.render, Node.blanked, Node.render, Node.parts, textsOf_append, String.append_assoc,
        String.append_assoc]
      exact (target.rendering h.1).append (.text (QuoteFree.append (by decide) hproperty))
  | .binary operator left right, h => by
      rw [Node.parts, List.forall_mem_append] at h
      have hkeyword : QuoteFree operator.keyword := by cases operator <;> decide
      rw [Node.render, Node.blanked, Node.render, Node.parts, textsOf_append]
      simp only [String.append_assoc]
      have hright := ((right.rendering h.2).close ")" (by decide)).after " " (by decide)
      exact ((left.rendering h.1).append (.after (hright.after operator.keyword hkeyword) " "
        (by decide) (by decide))).after "(" (by decide)
  | .not operand, h => by
      rw [Node.parts] at h
      rw [Node.render, Node.blanked, Node.render, Node.parts]
      exact (operand.rendering h).enclosed "not (" ")" (by decide) (by decide)
  | .negate operand, h => by
      rw [Node.parts] at h
      rw [Node.render, Node.blanked, Node.render, Node.parts]
      exact (operand.rendering h).enclosed "-(" ")" (by decide) (by decide)
  | .cast operand type, h => by
      rw [Node.parts, List.forall_mem_append, List.forall_mem_map] at h
      have htype : QuoteFree type.text := StaticType.quoteFree_text h.2
      rw [Node.render, Node.blanked, Node.render, Node.parts, textsOf_append, textsOf_names,
        List.append_nil]
      exact ((((operand.rendering h.1).after "cast(" (by decide)).close " as "
        (by decide)).close type.text htype).close ")" (by decide)
  | .choice whens otherwise, h => by
      rw [Node.parts, List.forall_mem_append] at h
      have hclauses := (whensSuffix whens h.1).append
        (clauseSuffix " else " (by decide) (by decide) otherwise h.2)
      rw [Node.render, Node.blanked, Node.render, Node.parts, textsOf_append]
      rw [@String.append_assoc "case", @String.append_assoc "case"]
      exact hclauses.rendering.enclosed "case" " end" (by decide) (by decide)
  | .coalesce left right, h => by
      rw [Node.parts, List.forall_mem_append] at h
      rw [Node.render, Node.blanked, Node.render, Node.parts, textsOf_append]
      simp only [String.append_assoc]
      exact ((left.rendering h.1).append (.after ((right.rendering h.2).close ")" (by decide)) ", "
        (by decide) (by decide))).after "coalesce(" (by decide)
  | .isNull operand, h => by
      rw [Node.parts] at h
      rw [Node.render, Node.blanked, Node.render, Node.parts]
      exact (operand.rendering h).close " is null" (by decide)
  | .isNotNull operand, h => by
      rw [Node.parts] at h
      rw [Node.render, Node.blanked, Node.render, Node.parts]
      exact (operand.rendering h).close " is not null" (by decide)
  | .function name arguments, h => by
      rw [Node.parts, List.forall_mem_cons] at h
      have hname : QuoteFree name := h.1
      have harguments := (allRenderings arguments h.2).intercalate
      rw [Node.render, Node.blanked, Node.render, Node.parts]
      exact harguments.enclosed (name ++ "(") ")" (hname.append (by decide)) (by decide)
  | .like operand pattern escape, h => by
      rw [Node.parts, List.forall_mem_append, List.forall_mem_append] at h
      have hpattern := (pattern.rendering h.2.1).append (escapeText_suffix escape)
      rw [Node.render, Node.blanked, Node.render, Node.parts, textsOf_append, textsOf_append]
      simp only [String.append_assoc]
      exact (operand.rendering h.1).append (.after hpattern " like " (by decide) (by decide))
  | .among item collection, h => by
      rw [Node.parts, List.forall_mem_append] at h
      rw [Node.render, Node.blanked, Node.render, Node.parts, textsOf_append]
      simp only [String.append_assoc]
      exact (item.rendering h.1).append (.after ((collection.rendering h.2).close ")" (by decide))
        " in elements(" (by decide) (by decide))
  | .nonempty query, h => by
      rw [Node.parts] at h
      rw [Node.render, Node.blanked, Node.render, Node.parts]
      exact (query.rendering h).enclosed "exists (" ")" (by decide) (by decide)
  | .subquery query, h => by
      rw [Node.parts] at h
      rw [Node.render, Node.blanked, Node.render, Node.parts]
      exact (query.rendering h).enclosed "(" ")" (by decide) (by decide)

theorem allRenderings : ∀ (ns : List Node), (∀ part ∈ allParts ns, part.IsPlain) →
    Renderings (renderAll ns) (renderAll (allBlanked ns)) (textsOf (allParts ns))
  | [], _ => by
      rw [allBlanked, renderAll, allParts]
      exact .nil
  | node :: rest, h => by
      rw [allParts, List.forall_mem_append] at h
      rw [allBlanked, renderAll, renderAll, allParts, textsOf_append]
      exact .cons (node.rendering h.1) (allRenderings rest h.2)

theorem whensSuffix : ∀ (whens : List (Node × Node)),
    (∀ part ∈ whensParts whens, part.IsPlain) →
      Suffix (renderWhens whens) (renderWhens (whensBlanked whens)) (textsOf (whensParts whens))
  | [], _ => by
      rw [whensBlanked, renderWhens, whensParts]
      exact .text (by decide)
  | (condition, value) :: rest, h => by
      rw [whensParts, List.forall_mem_append, List.forall_mem_append] at h
      have hvalue := (value.rendering h.2.1).append (whensSuffix rest h.2.2)
      have hcondition := (condition.rendering h.1).append
        (.after hvalue " then " (by decide) (by decide))
      rw [whensBlanked, renderWhens, renderWhens, whensParts, textsOf_append, textsOf_append]
      simp only [String.append_assoc]
      exact .after hcondition " when " (by decide) (by decide)

theorem clauseSuffix (keyword : String) (hkeyword : QuoteFree keyword) (hne : keyword ≠ "") :
    ∀ (o : Option Node), (∀ part ∈ optionParts o, part.IsPlain) →
      Suffix (renderClause keyword o) (renderClause keyword (optionBlanked o))
        (textsOf (optionParts o))
  | none, _ => by
      rw [optionBlanked, renderClause, optionParts]
      exact .text (by decide)
  | some node, h => by
      rw [optionParts] at h
      rw [optionBlanked, renderClause, renderClause, optionParts]
      exact .after (node.rendering h) keyword hkeyword hne

theorem joinsSuffix : ∀ (joins : List Join), (∀ part ∈ joinsParts joins, part.IsPlain) →
    Suffix (renderJoins joins) (renderJoins (joinsBlanked joins)) (textsOf (joinsParts joins))
  | [], _ => by
      rw [joinsBlanked, renderJoins, joinsParts]
      exact .text (by decide)
  | ⟨source, name, on⟩ :: rest, h => by
      rw [joinsParts, List.forall_mem_append, List.forall_mem_cons, List.forall_mem_append] at h
      obtain ⟨hsource, hname, hon, hrest⟩ := h
      have hcondition := ((on.rendering hon).append (joinsSuffix rest hrest)).after " on "
        (by decide)
      have hjoin := (source.rendering hsource).append
        (.after (hcondition.after name hname) " " (by decide) (by decide))
      rw [joinsBlanked, renderJoins, renderJoins, joinsParts, textsOf_append, textsOf_cons_name,
        textsOf_append]
      simp only [String.append_assoc]
      exact .after hjoin " join " (by decide) (by decide)

theorem keysRenderings : ∀ (order : List OrderKey), (∀ part ∈ keysParts order, part.IsPlain) →
    Renderings (renderKeys order) (renderKeys (keysBlanked order)) (textsOf (keysParts order))
  | [], _ => by
      rw [keysBlanked, renderKeys, keysParts]
      exact .nil
  | ⟨key, direction⟩ :: rest, h => by
      rw [keysParts, List.forall_mem_append] at h
      have hdirection : QuoteFree direction.text := by cases direction <;> decide
      rw [keysBlanked, renderKeys, renderKeys, keysParts, textsOf_append]
      exact .cons (((key.rendering h.1).close " " (by decide)).close direction.text hdirection)
        (keysRenderings rest h.2)

theorem selectedRendering {name : String} (hname : QuoteFree name) : ∀ (select : Option Node),
    (∀ part ∈ projectionParts name select, part.IsPlain) →
      Rendering (match select with | some node => node.render | none => name)
        (match optionBlanked select with | some node => node.render | none => name)
        (textsOf (projectionParts name select))
  | none, _ => by
      rw [optionBlanked, projectionParts]
      exact .text hname
  | some node, h => by
      rw [projectionParts] at h ⊢
      rw [optionBlanked]
      exact node.rendering h

theorem selectionRendering {projected blank : String} {projectedParts : List Part}
    (hprojected : (∀ part ∈ projectedParts, part.IsPlain) →
      Rendering projected blank (textsOf projectedParts)) : ∀ (aggregate : Option Aggregate),
    (∀ part ∈ selectionParts projectedParts aggregate, part.IsPlain) →
      Rendering (renderSelection projected aggregate)
        (renderSelection blank (aggregateBlanked aggregate))
        (textsOf (selectionParts projectedParts aggregate))
  | none, h => by
      simp only [selectionParts, renderSelection, aggregateBlanked] at h ⊢
      exact hprojected h
  | some .count, h | some .sum, h | some .min, h | some .max, h | some .average, h
  | some .any, h | some .first, h | some .single, h => by
      simp only [selectionParts, renderSelection, aggregateBlanked] at h ⊢
      exact (hprojected h).enclosed _ ")" (by decide) (by decide)
  | some (.all predicate), h => by
      rw [selectionParts] at h ⊢
      rw [renderSelection, aggregateBlanked, renderSelection]
      exact (predicate.rendering h).enclosed "every(" ")" (by decide) (by decide)
  | some (.contains item), h => by
      rw [selectionParts, List.forall_mem_append] at h
      rw [renderSelection, aggregateBlanked, renderSelection, selectionParts, textsOf_append]
      simp only [String.append_assoc]
      exact ((hprojected h.1).append (.after ((item.rendering h.2).close ")" (by decide)) ", "
        (by decide) (by decide))).after "contains(" (by decide)

/-- The text of a query has the strings of the query for its literals. -/
theorem Query.rendering : ∀ (q : Query), (∀ part ∈ q.parts, part.IsPlain) →
    Rendering q.render q.blanked.render (textsOf q.parts)
  | ⟨source, name, joins, filter, having, order, select, distinct, skip, take, aggregate⟩, h => by
      rw [Query.parts, List.forall_mem_append, List.forall_mem_append, List.forall_mem_cons] at h
      simp only [List.forall_mem_append] at h
      obtain ⟨hselection, hsource, hname, hjoins, hfilter, hhaving, horder, hskip, htake⟩ := h
      rw [Query.blanked, Query.parts]
      unfold Query.render
      simp only [textsOf_append, textsOf_cons_name]
      exact clauses_rendering hname
        (selectionRendering (fun hparts => (selectedRendering hname select hparts).distinct distinct)
          aggregate hselection)
        (source.rendering hsource) (joinsSuffix joins hjoins)
        (clauseSuffix " where " (by decide) (by decide) filter hfilter)
        (clauseSuffix " having " (by decide) (by decide) having hhaving)
        (orderSuffix (keysRenderings order horder))
        (clauseSuffix " skip " (by decide) (by decide) skip hskip)
        (clauseSuffix " take " (by decide) (by decide) take htake)

end

/-! ## Reading a rendered tree -/

private theorem Rendering.literals_eq {text blank : String} {texts : List String}
    (h : Rendering text blank texts) : literals text = some texts := by
  obtain ⟨tokens, _, hreads, -, htexts, -⟩ := h
  rw [literals, scan, hreads.scanPlain_eq, Option.map_eq_map, Option.map_some, htexts]

private theorem Rendering.outside_eq {text blank : String} {texts : List String}
    (h : Rendering text blank texts) : outside text = outside blank := by
  obtain ⟨tokens, blankTokens, hreads, hblank, -, houtside⟩ := h
  rw [outside, outside, scan, scan, hreads.scanPlain_eq, hblank.scanPlain_eq, Option.map_eq_map,
    Option.map_some, Option.map_some, houtside]

/-- In the text of a node or a query whose names have no quotes, a reader finds the
strings of the tree as they are and in the order in which they are written. Trees that
differ in the contents of their strings only have texts that are the same outside of
the literals. -/
theorem render_literals :
    (∀ n : Node, (∀ part ∈ n.parts, part.IsPlain) → literals n.render = some (textsOf n.parts)) ∧
      (∀ q : Query, (∀ part ∈ q.parts, part.IsPlain) →
        literals q.render = some (textsOf q.parts)) ∧
      (∀ n n' : Node, (∀ part ∈ n.parts, part.IsPlain) → (∀ part ∈ n'.parts, part.IsPlain) →
        n.blanked = n'.blanked → outside n.render = outside n'.render) ∧
      (∀ q q' : Query, (∀ part ∈ q.parts, part.IsPlain) → (∀ part ∈ q'.parts, part.IsPlain) →
        q.blanked = q'.blanked → outside q.render = outside q'.render) := by
  refine ⟨fun n h => (n.rendering h).literals_eq, fun q h => (q.rendering h).literals_eq,
    fun n n' h h' hsame => ?_, fun q q' h h' hsame => ?_⟩
  · rw [(n.rendering h).outside_eq, (n'.rendering h').outside_eq, hsame]
  · rw [(q.rendering h).outside_eq, (q'.rendering h').outside_eq, hsame]

/-- Whether all customers have a name like the pattern or the default name. -/
def everyName (pattern default projected : String) : Query where
  source := .entity "Customer"
  name := "c"
  joins := []
  filter := some (.like (.dot (.ident "c") "Name") (.constant (.string pattern)) (some '\''))
  having := none
  order := []
  select := some (.constant (.string projected))
  distinct := true
  skip := none
  take := none
  aggregate := some (.all (.binary .equal
    (.coalesce (.dot (.ident "c") "Name") (.constant (.string default)))
    (.constant (.string ""))))

/-- Quotes in a default, a pattern that is made of them and a quote as the escape
character are read as they are. The projection is not written. -/
theorem everyName_render_literals :
    literals (everyName "''" "O'Brien" "x").render = some ["O'Brien", "", "''", "'"] ∧
      literals (Node.subquery (everyName "%" "'" "")).render = some ["'", "", "%", "'"] ∧
      outside (Node.subquery (everyName "''" "O'Brien" "x")).render =
        outside (Node.subquery (everyName "%" "'" "")).render ∧
      outside (everyName "''" "O'Brien" "x").render = outside (everyName "%" "'" "").render := by
  have hplain : ∀ part ∈ (everyName "''" "O'Brien" "x").parts, part.IsPlain := by decide
  have hplain' : ∀ part ∈ (everyName "%" "'" "").parts, part.IsPlain := by decide
  exact ⟨render_literals.2.1 _ hplain, render_literals.1 (.subquery _) hplain',
    render_literals.2.2.1 (.subquery _) (.subquery _) hplain hplain' rfl,
    render_literals.2.2.2 _ _ hplain hplain' rfl⟩

end ObjectQuery.Hql
