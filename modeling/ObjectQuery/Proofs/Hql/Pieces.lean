import ObjectQuery.Proofs.Hql.Lexemes

/-!
# The pieces of a node's text

Some nodes write their operands in brackets or between keywords: the
operators, the negations, the choice, the coalesce and the collection in
which an item is looked for. Others write an operand as it is and go on
behind it: a property, the tests for null, a match and a membership. The
text of a node is therefore a row of pieces: a head, behind it what was
written after it, and with every match a further head. What stands in
brackets is again such a row, but what stands bare leaves no trace of how it
was nested.

Here the pieces of a node are given for the nodes that are made of plain
names and constants other than floats and queryables, without entities,
casts, functions and queries; such a node is called basic.

## Main definitions

* `Piece` — a part of a text; `Node.pieces` — the parts of a node's text.
* `Node.IsBasic` — the nodes looked at here.
* `Piece.lexemes` — the words, signs and literals of a piece.

## Main results

* `Node.texts_pieces` — the text of a node is that of its pieces.
* `Node.legible_pieces` — no two words of it meet without a sign.
-/

namespace ObjectQuery.Hql

/-! ## Pieces -/

/-- A part of the text of a node. Where a node has its operands in brackets
or between keywords, they are phrases of their own; the operands that stand
bare are pieces beside the others. -/
inductive Piece where
  | null
  | boolean (b : Bool)
  /-- A whole number without a sign. -/
  | natural (n : Nat)
  /-- A whole number with a minus. -/
  | negative (n : Nat)
  | string (s : String)
  | parameter (name : String)
  | ident (name : String)
  | binary (operator : BinaryOperator) (left right : List Piece)
  | not (operand : List Piece)
  | negate (operand : List Piece)
  | choice (whens : List (List Piece × List Piece)) (otherwise : Option (List Piece))
  | coalesce (left right : List Piece)
  /-- A property of what stands before. -/
  | property (name : String)
  | isNull
  | isNotNull
  /-- The word between a text and a pattern. -/
  | like
  | escape (c : Char)
  /-- The collection in which to look for what stands before. -/
  | among (collection : List Piece)

/-- The piece of a whole number. -/
def integerPiece : Int → Piece
  | .ofNat n => .natural n
  | .negSucc n => .negative (n + 1)

/-- The piece of a constant that is neither a float nor a queryable. -/
def literalPieces : Literal → List Piece
  | .null => [.null]
  | .boolean b => [.boolean b]
  | .integer n => [integerPiece n.toInt]
  | .string s => [.string s]
  | .float _ | .queryable _ => []

mutual

/-- The pieces of the text of a basic node. -/
def Node.pieces : Node → List Piece
  | .constant value => literalPieces value
  | .parameter name => [.parameter name]
  | .ident name => [.ident name]
  | .dot target property => target.pieces ++ [.property property]
  | .binary operator left right => [.binary operator left.pieces right.pieces]
  | .not operand => [.not operand.pieces]
  | .negate operand => [.negate operand.pieces]
  | .choice whens otherwise => [.choice (whensPieces whens) (optionPieces otherwise)]
  | .coalesce left right => [.coalesce left.pieces right.pieces]
  | .isNull operand => operand.pieces ++ [.isNull]
  | .isNotNull operand => operand.pieces ++ [.isNotNull]
  | .like operand pattern escape =>
    operand.pieces ++ .like :: (pattern.pieces ++ (escape.map Piece.escape).toList)
  | .among item collection => item.pieces ++ [.among collection.pieces]
  | .entity _ | .cast _ _ | .function _ _ | .nonempty _ | .subquery _ => []

/-- The pieces of the conditions of a choice and of what stands beside them. -/
def whensPieces : List (Node × Node) → List (List Piece × List Piece)
  | [] => []
  | (condition, value) :: rest => (condition.pieces, value.pieces) :: whensPieces rest

/-- The pieces of a node that may be absent. -/
def optionPieces : Option Node → Option (List Piece)
  | none => none
  | some node => some node.pieces

end

/-- A constant that is neither a float nor a queryable. -/
def literalBasic : Literal → Prop
  | .null | .boolean _ | .integer _ | .string _ => True
  | .float _ | .queryable _ => False

mutual

/-- A node without floats, entities, casts, functions and queries, in which
every name is plain. -/
def Node.IsBasic : Node → Prop
  | .constant value => literalBasic value
  | .parameter name | .ident name => PlainName name
  | .dot target property => target.IsBasic ∧ PlainName property
  | .binary _ left right => left.IsBasic ∧ right.IsBasic
  | .not operand | .negate operand | .isNull operand | .isNotNull operand => operand.IsBasic
  | .choice whens otherwise => whensBasic whens ∧ optionBasic otherwise
  | .coalesce left right => left.IsBasic ∧ right.IsBasic
  | .like operand pattern _ => operand.IsBasic ∧ pattern.IsBasic
  | .among item collection => item.IsBasic ∧ collection.IsBasic
  | .entity _ | .cast _ _ | .function _ _ | .nonempty _ | .subquery _ => False

/-- Conditions of a choice and what stands beside them, all of them basic. -/
def whensBasic : List (Node × Node) → Prop
  | [] => True
  | (condition, value) :: rest => condition.IsBasic ∧ value.IsBasic ∧ whensBasic rest

/-- A basic node, or none. -/
def optionBasic : Option Node → Prop
  | none => True
  | some node => node.IsBasic

end

/-! ## The lexemes of pieces -/

/-- The lexemes of an operator. -/
def operatorLexemes : BinaryOperator → List Lexeme
  | .add => [.sign '+']
  | .subtract => [.sign '-']
  | .multiply => [.sign '*']
  | .divide => [.sign '/']
  | .equal => [.sign '=']
  | .notEqual => [.sign '<', .sign '>']
  | .lessThan => [.sign '<']
  | .lessThanOrEqual => [.sign '<', .sign '=']
  | .greaterThan => [.sign '>']
  | .greaterThanOrEqual => [.sign '>', .sign '=']
  | .and => [.keyword "and"]
  | .or => [.keyword "or"]

mutual

/-- The lexemes of a piece. -/
def Piece.lexemes : Piece → List Lexeme
  | .null => [.keyword "null"]
  | .boolean b => [.keyword (Literal.booleanText b)]
  | .natural n => [.number n]
  | .negative n => [.sign '-', .number n]
  | .string s => [.quoted s]
  | .parameter name => [.sign ':', .name name]
  | .ident name => [.name name]
  | .binary operator left right =>
    .sign '(' :: (phraseLexemes left ++ .sign ' ' :: (operatorLexemes operator ++
      .sign ' ' :: (phraseLexemes right ++ [.sign ')'])))
  | .not operand =>
    .keyword "not" :: .sign ' ' :: .sign '(' :: (phraseLexemes operand ++ [.sign ')'])
  | .negate operand => .sign '-' :: .sign '(' :: (phraseLexemes operand ++ [.sign ')'])
  | .choice whens otherwise =>
    .keyword "case" :: (whensLexemes whens ++ (otherwiseLexemes otherwise ++
      [.sign ' ', .keyword "end"]))
  | .coalesce left right =>
    .keyword "coalesce" :: .sign '(' :: (phraseLexemes left ++ .sign ',' :: .sign ' ' ::
      (phraseLexemes right ++ [.sign ')']))
  | .property name => [.sign '.', .name name]
  | .isNull => [.sign ' ', .keyword "is", .sign ' ', .keyword "null"]
  | .isNotNull => [.sign ' ', .keyword "is", .sign ' ', .keyword "not", .sign ' ', .keyword "null"]
  | .like => [.sign ' ', .keyword "like", .sign ' ']
  | .escape c => [.sign ' ', .keyword "escape", .sign ' ', .quoted (String.singleton c)]
  | .among collection =>
    .sign ' ' :: .keyword "in" :: .sign ' ' :: .keyword "elements" :: .sign '(' ::
      (phraseLexemes collection ++ [.sign ')'])

/-- The lexemes of several pieces. -/
def phraseLexemes : List Piece → List Lexeme
  | [] => []
  | piece :: rest => piece.lexemes ++ phraseLexemes rest

/-- The lexemes of the conditions of a choice and of what stands beside them. -/
def whensLexemes : List (List Piece × List Piece) → List Lexeme
  | [] => []
  | (condition, value) :: rest =>
    .sign ' ' :: .keyword "when" :: .sign ' ' :: (phraseLexemes condition ++ .sign ' ' ::
      .keyword "then" :: .sign ' ' :: (phraseLexemes value ++ whensLexemes rest))

/-- The lexemes of the last part of a choice. -/
def otherwiseLexemes : Option (List Piece) → List Lexeme
  | none => []
  | some value => .sign ' ' :: .keyword "else" :: .sign ' ' :: phraseLexemes value

end

@[simp] theorem phraseLexemes_nil : phraseLexemes [] = [] :=
  rfl

@[simp] theorem phraseLexemes_cons (p : Piece) (ps : List Piece) :
    phraseLexemes (p :: ps) = p.lexemes ++ phraseLexemes ps :=
  rfl

@[simp] theorem phraseLexemes_append (ps qs : List Piece) :
    phraseLexemes (ps ++ qs) = phraseLexemes ps ++ phraseLexemes qs := by
  induction ps with
  | nil => rfl
  | cons p rest ih =>
      rw [List.cons_append, phraseLexemes, phraseLexemes, ih, List.append_assoc]

/-! ## The text of pieces -/

@[simp] theorem texts_operatorLexemes (operator : BinaryOperator) :
    texts (operatorLexemes operator) = operator.keyword.toList := by
  cases operator <;> rfl

private theorem texts_integerPiece (n : Int) :
    texts (integerPiece n).lexemes = (toString n).toList := by
  rw [Int.toString_eq_repr]
  unfold Int.repr
  cases n with
  | ofNat m => exact List.append_nil _
  | negSucc m =>
      rw [String.toList_append]
      exact congrArg ('-' :: ·) (List.append_nil _)

private theorem texts_literalPieces {value : Literal} (h : literalBasic value) :
    texts (phraseLexemes (literalPieces value)) = (literalText value).toList := by
  cases value with
  | null => rfl
  | boolean b => cases b <;> rfl
  | integer n =>
      rw [literalPieces, phraseLexemes_cons, phraseLexemes_nil, List.append_nil, texts_integerPiece]
      rfl
  | string s => exact List.append_nil _
  | float x | queryable entity => cases h

mutual

/-- The text of a basic node is that of its pieces. -/
theorem Node.texts_pieces : ∀ n : Node, n.IsBasic →
    texts (phraseLexemes n.pieces) = n.render.toList
  | .constant value, h => by
      rw [Node.pieces, Node.render]
      exact texts_literalPieces h
  | .parameter name, _ => by simp [Node.pieces, Node.render, Piece.lexemes, Lexeme.text]
  | .ident name, _ => by simp [Node.pieces, Node.render, Piece.lexemes, Lexeme.text]
  | .dot target property, h => by
      have htarget := target.texts_pieces h.1
      simp [Node.pieces, Node.render, htarget, Piece.lexemes, Lexeme.text]
  | .binary operator left right, h => by
      have hleft := left.texts_pieces h.1
      have hright := right.texts_pieces h.2
      simp [Node.pieces, Node.render, hleft, hright, Piece.lexemes, Lexeme.text]
  | .not operand, h => by
      have hoperand := operand.texts_pieces h
      simp [Node.pieces, Node.render, hoperand, Piece.lexemes, Lexeme.text]
  | .negate operand, h => by
      have hoperand := operand.texts_pieces h
      simp [Node.pieces, Node.render, hoperand, Piece.lexemes, Lexeme.text]
  | .choice whens otherwise, h => by
      have hwhens := texts_whensPieces whens h.1
      have hotherwise := texts_optionPieces otherwise h.2
      simp [Node.pieces, Node.render, hwhens, hotherwise, Piece.lexemes, Lexeme.text]
  | .coalesce left right, h => by
      have hleft := left.texts_pieces h.1
      have hright := right.texts_pieces h.2
      simp [Node.pieces, Node.render, hleft, hright, Piece.lexemes, Lexeme.text]
  | .isNull operand, h => by
      have hoperand := operand.texts_pieces h
      simp [Node.pieces, Node.render, hoperand, Piece.lexemes, Lexeme.text]
  | .isNotNull operand, h => by
      have hoperand := operand.texts_pieces h
      simp [Node.pieces, Node.render, hoperand, Piece.lexemes, Lexeme.text]
  | .like operand pattern escape, h => by
      have hoperand := operand.texts_pieces h.1
      have hpattern := pattern.texts_pieces h.2
      cases escape <;>
        simp [Node.pieces, Node.render, hoperand, hpattern, escapeText, Piece.lexemes, Lexeme.text]
  | .among item collection, h => by
      have hitem := item.texts_pieces h.1
      have hcollection := collection.texts_pieces h.2
      simp [Node.pieces, Node.render, hitem, hcollection, Piece.lexemes, Lexeme.text]
  | .entity _, h | .cast _ _, h | .function _ _, h | .nonempty _, h | .subquery _, h => h.elim

theorem texts_whensPieces : ∀ whens : List (Node × Node), whensBasic whens →
    texts (whensLexemes (whensPieces whens)) = (renderWhens whens).toList
  | [], _ => by simp [whensPieces, whensLexemes, renderWhens]
  | (condition, value) :: rest, h => by
      have hcondition := condition.texts_pieces h.1
      have hvalue := value.texts_pieces h.2.1
      have hrest := texts_whensPieces rest h.2.2
      simp [whensPieces, whensLexemes, renderWhens, hcondition, hvalue, hrest, Lexeme.text]

theorem texts_optionPieces : ∀ o : Option Node, optionBasic o →
    texts (otherwiseLexemes (optionPieces o)) = (renderClause " else " o).toList
  | none, _ => by simp [optionPieces, otherwiseLexemes, renderClause]
  | some node, h => by
      have hnode := node.texts_pieces h
      simp [optionPieces, otherwiseLexemes, renderClause, hnode, Lexeme.text]

end

/-! ## Pieces are legible -/

@[simp] theorem legible_operatorLexemes (operator : BinaryOperator) :
    Legible (operatorLexemes operator) := by
  cases operator <;> simp [operatorLexemes, signs, keywords]

private theorem legible_literalPieces {value : Literal} (h : literalBasic value) :
    Legible (phraseLexemes (literalPieces value)) := by
  cases value with
  | boolean b =>
      cases b <;>
        simp [literalPieces, Piece.lexemes, Literal.booleanText, keywords]
  | integer n =>
      cases hn : n.toInt <;> simp [literalPieces, integerPiece, hn, Piece.lexemes, signs]
  | null | string s =>
      simp [literalPieces, Piece.lexemes, keywords]
  | float x | queryable entity => cases h

/-- Legible lexemes that begin with a sign, and so may follow any others. -/
def Led (ls : List Lexeme) : Prop :=
  Legible ls ∧ ∃ c rest, ls = .sign c :: rest

private theorem Led.cons {ls : List Lexeme} (h : Led ls) {a : Lexeme} (hproper : a.IsProper) :
    Legible (a :: ls) := by
  obtain ⟨hlegible, c, rest, rfl⟩ := h
  exact legible_cons_sign.mpr ⟨hproper, legible_sign_cons.mp hlegible⟩

private theorem Led.append {ls ls' : List Lexeme} (h : Led ls) (h' : Legible ls') :
    Legible (ls' ++ ls) := by
  obtain ⟨hlegible, c, rest, rfl⟩ := h
  exact legible_append_sign.mpr ⟨h', legible_sign_cons.mp hlegible⟩

mutual

/-- The lexemes of a basic node are proper, and no two meet without a sign. -/
theorem Node.legible_pieces : ∀ n : Node, n.IsBasic → Legible (phraseLexemes n.pieces)
  | .constant value, h => by
      rw [Node.pieces]
      exact legible_literalPieces h
  | .parameter name, h => by
      have hname : PlainName name := h
      simp [Node.pieces, Piece.lexemes, signs, hname]
  | .ident name, h => by
      have hname : PlainName name := h
      simp [Node.pieces, Piece.lexemes, hname]
  | .dot target property, h => by
      have htarget := target.legible_pieces h.1
      have hproperty : PlainName property := h.2
      simp [Node.pieces, Piece.lexemes, signs, htarget, hproperty]
  | .binary operator left right, h => by
      have hleft := left.legible_pieces h.1
      have hright := right.legible_pieces h.2
      simp [Node.pieces, Piece.lexemes, signs, hleft, hright]
  | .not operand, h => by
      have hoperand := operand.legible_pieces h
      simp [Node.pieces, Piece.lexemes, signs, keywords, hoperand]
  | .negate operand, h => by
      have hoperand := operand.legible_pieces h
      simp [Node.pieces, Piece.lexemes, signs, hoperand]
  | .choice whens otherwise, h => by
      have hend : Led [.sign ' ', .keyword "end"] :=
        ⟨by simp [signs, keywords], _, _, rfl⟩
      have hclauses := led_whens whens h.1 (led_otherwise otherwise h.2 hend)
      have hcase : Lexeme.IsProper (.keyword "case") := by simp [keywords]
      simpa [Node.pieces, Piece.lexemes] using hclauses.cons hcase
  | .coalesce left right, h => by
      have hleft := left.legible_pieces h.1
      have hright := right.legible_pieces h.2
      simp [Node.pieces, Piece.lexemes, signs, keywords, hleft, hright]
  | .isNull operand, h => by
      have hoperand := operand.legible_pieces h
      simp [Node.pieces, Piece.lexemes, signs, keywords, hoperand]
  | .isNotNull operand, h => by
      have hoperand := operand.legible_pieces h
      simp [Node.pieces, Piece.lexemes, signs, keywords, hoperand]
  | .like operand pattern escape, h => by
      have hoperand := operand.legible_pieces h.1
      have hpattern := pattern.legible_pieces h.2
      cases escape <;>
        simp [Node.pieces, Piece.lexemes, signs, keywords, hoperand, hpattern]
  | .among item collection, h => by
      have hitem := item.legible_pieces h.1
      have hcollection := collection.legible_pieces h.2
      simp [Node.pieces, Piece.lexemes, signs, keywords, hitem, hcollection]
  | .entity _, h | .cast _ _, h | .function _ _, h | .nonempty _, h | .subquery _, h => h.elim

theorem led_whens : ∀ whens : List (Node × Node), whensBasic whens →
    ∀ {ls : List Lexeme}, Led ls → Led (whensLexemes (whensPieces whens) ++ ls)
  | [], _, _, hls => hls
  | (condition, value) :: rest, h, _, hls => by
      have hcondition := condition.legible_pieces h.1
      have hrest := (led_whens rest h.2.2 hls).append (value.legible_pieces h.2.1)
      refine ⟨?_, ' ', _, rfl⟩
      simpa [whensPieces, whensLexemes, signs, keywords, hcondition] using hrest

theorem led_otherwise : ∀ o : Option Node, optionBasic o →
    ∀ {ls : List Lexeme}, Led ls → Led (otherwiseLexemes (optionPieces o) ++ ls)
  | none, _, _, hls => hls
  | some node, h, _, hls => by
      have hnode := hls.append (node.legible_pieces h)
      refine ⟨?_, ' ', _, rfl⟩
      simpa [optionPieces, otherwiseLexemes, signs, keywords] using hnode

end

end ObjectQuery.Hql
