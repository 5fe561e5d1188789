import ObjectQuery.Engine.Run
import ObjectQuery.Proofs.Hql.Pieces

/-!
# Which nodes have the same text

The text of a node tells its pieces: every piece is known by its first
lexemes, what stands in brackets ends where no further piece can begin, and
so no text has two rows of pieces. But it tells no more. A pattern and what
is tested for null or looked up stand bare, so that a match whose pattern is
a test for null has the same text as the test whether the match is null.

It tells the node where the node is grouped as one reads from left to right:
a property belongs to what stands right before it, a pattern is a head with
its properties, and everything else takes all that stands before it. Nodes
without matches are all grouped so.

## Main definitions

* `Piece.after` — reading pieces from left to right.
* `Node.IsGrouped` — a node is grouped as it is read.
* `Node.IsMatchFree` — nothing in a node is matched against a pattern.

## Main results

* `phraseLexemes_append_inj` — lexemes tell pieces.
* `Node.render_eq_iff_pieces` — equal texts are equal pieces.
* `Node.phraseAfter_pieces` — grouped nodes are read back from their pieces.
* `render_determines` — what a text tells of a node.
-/

namespace ObjectQuery.Hql

/-! ## Pieces from lexemes -/

/-- No piece begins so. -/
def Stops (ls : List Lexeme) : Prop :=
  ∀ (p : Piece) (rest : List Lexeme), ls ≠ p.lexemes ++ rest

section

variable {ls : List Lexeme}

private theorem stops_nil : Stops [] := by
  intro p rest h
  cases p <;> simp [Piece.lexemes] at h

/-- A closing bracket or a comma begins no piece. -/
theorem stops_sign {c : Char} (h : c = ')' ∨ c = ',') : Stops (.sign c :: ls) := by
  intro p rest hp
  rcases h with rfl | rfl <;> cases p <;> simp [Piece.lexemes] at hp

/-- Neither does a blank, unless one of four keywords follows it. -/
theorem stops_blank {a : Lexeme}
    (h : ∀ word ∈ ["is", "like", "escape", "in"], a ≠ .keyword word) :
    Stops (.sign ' ' :: a :: ls) := by
  intro p rest hp
  cases p <;> simp [Piece.lexemes] at hp <;> simp [hp.1] at h

private theorem stops_operator (operator : BinaryOperator) :
    Stops (.sign ' ' :: (operatorLexemes operator ++ ls)) := by
  cases operator <;> exact stops_blank (by simp)

end

/-- The last part of a choice begins so, or its end. -/
def ClosesChoice (ls : List Lexeme) : Prop :=
  ∃ word ∈ ["else", "end"], ∃ rest, ls = .sign ' ' :: .keyword word :: rest

private theorem closesChoice_otherwise (o : Option (List Piece)) (r : List Lexeme) :
    ClosesChoice (otherwiseLexemes o ++ .sign ' ' :: .keyword "end" :: r) := by
  cases o with
  | none => exact ⟨"end", by simp, r, rfl⟩
  | some value => exact ⟨"else", by simp, _, rfl⟩

private theorem ClosesChoice.ne_when (h : ClosesChoice ls) {rest : List Lexeme} :
    ls ≠ .sign ' ' :: .keyword "when" :: rest := by
  obtain ⟨word, hword, after, rfl⟩ := h
  intro heq
  simp only [List.cons.injEq, Lexeme.keyword.injEq, true_and] at heq
  simp [heq.1] at hword

/-- Neither do the further conditions of a choice begin a piece. -/
theorem ClosesChoice.stops_whens (h : ClosesChoice ls) (ws : List (List Piece × List Piece)) :
    Stops (whensLexemes ws ++ ls) := by
  cases ws with
  | nil =>
      obtain ⟨word, hword, after, rfl⟩ := h
      have hwords : word = "else" ∨ word = "end" := by simpa using hword
      rcases hwords with rfl | rfl <;> exact stops_blank (by simp)
  | cons w rest => exact stops_blank (by simp)

/-- The lexemes of an operator before a blank tell which one it is. -/
theorem operatorLexemes_append_inj {op op' : BinaryOperator} {r s : List Lexeme}
    (h : operatorLexemes op ++ .sign ' ' :: r = operatorLexemes op' ++ .sign ' ' :: s) :
    op = op' ∧ r = s := by
  cases op <;> cases op' <;> simp [operatorLexemes] at h <;> exact ⟨rfl, h⟩

mutual

/-- The lexemes of a piece are not the beginning of those of another one. -/
theorem Piece.lexemes_append_inj : ∀ (p q : Piece) {r s : List Lexeme},
    p.lexemes ++ r = q.lexemes ++ s → p = q ∧ r = s
  | .boolean b, q, r, s, h => by
      cases q with
      | boolean b' =>
          cases b <;> cases b' <;> simp [Piece.lexemes, Literal.booleanText] at h <;>
            exact ⟨rfl, h⟩
      | _ => cases b <;> simp [Piece.lexemes, Literal.booleanText] at h
  | .null, q, _, _, h | .natural _, q, _, _, h | .negative _, q, _, _, h | .string _, q, _, _, h
  | .parameter _, q, _, _, h | .ident _, q, _, _, h | .property _, q, _, _, h
  | .isNull, q, _, _, h | .isNotNull, q, _, _, h | .like, q, _, _, h | .escape _, q, _, _, h => by
      cases q with
      | boolean b => cases b <;> simp [Piece.lexemes, Literal.booleanText] at h
      | _ => simp [Piece.lexemes] at h ⊢ <;> exact h
  | .binary operator left right, q, r, s, h => by
      cases q with
      | binary operator' left' right' =>
          simp only [Piece.lexemes, List.cons_append, List.append_assoc, List.cons.injEq,
            true_and, List.nil_append] at h
          obtain ⟨rfl, hleft⟩ := phraseLexemes_append_inj left left' (stops_operator _)
            (stops_operator _) h
          obtain ⟨rfl, hoperator⟩ := operatorLexemes_append_inj (List.tail_eq_of_cons_eq hleft)
          obtain ⟨rfl, hright⟩ := phraseLexemes_append_inj right right' (stops_sign (.inl rfl))
            (stops_sign (.inl rfl)) hoperator
          exact ⟨rfl, List.tail_eq_of_cons_eq hright⟩
      | _ => simp [Piece.lexemes] at h
  | .not operand, q, r, s, h => by
      cases q with
      | not operand' =>
          simp only [Piece.lexemes, List.cons_append, List.append_assoc, List.cons.injEq,
            true_and, List.nil_append] at h
          obtain ⟨rfl, hrest⟩ := phraseLexemes_append_inj operand operand' (stops_sign (.inl rfl))
            (stops_sign (.inl rfl)) h
          exact ⟨rfl, List.tail_eq_of_cons_eq hrest⟩
      | boolean b => cases b <;> simp [Piece.lexemes, Literal.booleanText] at h
      | _ => simp [Piece.lexemes] at h
  | .negate operand, q, r, s, h => by
      cases q with
      | negate operand' =>
          simp only [Piece.lexemes, List.cons_append, List.append_assoc, List.cons.injEq,
            true_and, List.nil_append] at h
          obtain ⟨rfl, hrest⟩ := phraseLexemes_append_inj operand operand' (stops_sign (.inl rfl))
            (stops_sign (.inl rfl)) h
          exact ⟨rfl, List.tail_eq_of_cons_eq hrest⟩
      | _ => simp [Piece.lexemes] at h
  | .choice whens otherwise, q, r, s, h => by
      cases q with
      | choice whens' otherwise' =>
          simp only [Piece.lexemes, List.cons_append, List.append_assoc, List.cons.injEq,
            true_and, List.nil_append] at h
          obtain ⟨rfl, hwhens⟩ := whensLexemes_append_inj whens whens'
            (closesChoice_otherwise otherwise r) (closesChoice_otherwise otherwise' s) h
          obtain ⟨rfl, hrest⟩ := otherwiseLexemes_append_inj otherwise otherwise' hwhens
          exact ⟨rfl, hrest⟩
      | boolean b => cases b <;> simp [Piece.lexemes, Literal.booleanText] at h
      | _ => simp [Piece.lexemes] at h
  | .coalesce left right, q, r, s, h => by
      cases q with
      | coalesce left' right' =>
          simp only [Piece.lexemes, List.cons_append, List.append_assoc, List.cons.injEq,
            true_and, List.nil_append] at h
          obtain ⟨rfl, hleft⟩ := phraseLexemes_append_inj left left' (stops_sign (.inr rfl))
            (stops_sign (.inr rfl)) h
          simp only [List.cons.injEq, true_and] at hleft
          obtain ⟨rfl, hright⟩ := phraseLexemes_append_inj right right' (stops_sign (.inl rfl))
            (stops_sign (.inl rfl)) hleft
          exact ⟨rfl, List.tail_eq_of_cons_eq hright⟩
      | boolean b => cases b <;> simp [Piece.lexemes, Literal.booleanText] at h
      | _ => simp [Piece.lexemes] at h
  | .among collection, q, r, s, h => by
      cases q with
      | among collection' =>
          simp only [Piece.lexemes, List.cons_append, List.append_assoc, List.cons.injEq,
            true_and, List.nil_append] at h
          obtain ⟨rfl, hrest⟩ := phraseLexemes_append_inj collection collection'
            (stops_sign (.inl rfl)) (stops_sign (.inl rfl)) h
          exact ⟨rfl, List.tail_eq_of_cons_eq hrest⟩
      | _ => simp [Piece.lexemes] at h

/-- The pieces of a phrase can be told from its lexemes, before anything that
begins no piece. -/
theorem phraseLexemes_append_inj : ∀ (ps qs : List Piece) {r s : List Lexeme}, Stops r → Stops s →
    phraseLexemes ps ++ r = phraseLexemes qs ++ s → ps = qs ∧ r = s
  | [], [], _, _, _, _, h => ⟨rfl, h⟩
  | [], q :: qs, r, s, hr, _, h => by
      rw [phraseLexemes_cons, List.append_assoc] at h
      exact absurd h (hr q _)
  | p :: ps, [], r, s, _, hs, h => by
      rw [phraseLexemes_cons, List.append_assoc] at h
      exact absurd h.symm (hs p _)
  | p :: ps, q :: qs, r, s, hr, hs, h => by
      rw [phraseLexemes_cons, phraseLexemes_cons, List.append_assoc, List.append_assoc] at h
      obtain ⟨rfl, hrest⟩ := p.lexemes_append_inj q h
      obtain ⟨rfl, rfl⟩ := phraseLexemes_append_inj ps qs hr hs hrest
      exact ⟨rfl, rfl⟩

/-- The conditions of a choice can be told from their lexemes, before what
closes the choice. -/
theorem whensLexemes_append_inj : ∀ (ws ws' : List (List Piece × List Piece))
    {r s : List Lexeme}, ClosesChoice r → ClosesChoice s →
    whensLexemes ws ++ r = whensLexemes ws' ++ s → ws = ws' ∧ r = s
  | [], [], _, _, _, _, h => ⟨rfl, h⟩
  | [], (_, _) :: _, _, _, hr, _, h => absurd h hr.ne_when
  | (_, _) :: _, [], _, _, _, hs, h => absurd h.symm hs.ne_when
  | (condition, value) :: rest, (condition', value') :: rest', r, s, hr, hs, h => by
      simp only [whensLexemes, List.cons_append, List.append_assoc, List.cons.injEq,
        true_and] at h
      obtain ⟨rfl, hcondition⟩ := phraseLexemes_append_inj condition condition'
        (stops_blank (by simp)) (stops_blank (by simp)) h
      simp only [List.cons.injEq, true_and] at hcondition
      obtain ⟨rfl, hvalue⟩ := phraseLexemes_append_inj value value' (hr.stops_whens rest)
        (hs.stops_whens rest') hcondition
      obtain ⟨rfl, rfl⟩ := whensLexemes_append_inj rest rest' hr hs hvalue
      exact ⟨rfl, rfl⟩

/-- So can its last part. -/
theorem otherwiseLexemes_append_inj : ∀ (o o' : Option (List Piece)) {r s : List Lexeme},
    otherwiseLexemes o ++ .sign ' ' :: .keyword "end" :: r =
      otherwiseLexemes o' ++ .sign ' ' :: .keyword "end" :: s → o = o' ∧ r = s
  | none, none, _, _, h => by simpa [otherwiseLexemes] using h
  | none, some _, _, _, h => by simp [otherwiseLexemes] at h
  | some _, none, _, _, h => by simp [otherwiseLexemes] at h
  | some value, some value', r, s, h => by
      simp only [otherwiseLexemes, List.cons_append, List.cons.injEq, true_and] at h
      obtain ⟨rfl, hrest⟩ := phraseLexemes_append_inj value value' (stops_blank (by simp))
        (stops_blank (by simp)) h
      simpa using hrest

end

/-! ## Equal texts -/

/-- Basic nodes have the same text exactly if they have the same pieces. -/
theorem Node.render_eq_iff_pieces {n n' : Node} (h : n.IsBasic) (h' : n'.IsBasic) :
    n.render = n'.render ↔ n.pieces = n'.pieces := by
  constructor
  · intro htext
    have htexts : texts (phraseLexemes n.pieces) = texts (phraseLexemes n'.pieces) := by
      rw [n.texts_pieces h, n'.texts_pieces h', htext]
    have hlexemes := (n.legible_pieces h).eq_of_texts_eq (n'.legible_pieces h') htexts
    exact (phraseLexemes_append_inj _ _ stops_nil stops_nil (congrArg (· ++ []) hlexemes)).1
  · intro hpieces
    apply String.toList_inj.mp
    rw [← n.texts_pieces h, hpieces, n'.texts_pieces h']

/-! ## Reading pieces from left to right -/

/-- What is known after some pieces of a phrase. -/
inductive Reading where
  | start
  /-- They make up the node. -/
  | read (n : Node)
  /-- They are a text and the word after which its pattern stands. -/
  | awaiting (operand : Node)
  /-- They are a text and a pattern, which may still go on with a property or an
  escape. -/
  | matching (operand pattern : Node)

/-- The node of all that was read. -/
def Reading.node : Reading → Node
  | .start => default
  | .read n => n
  | .awaiting operand => operand
  | .matching operand pattern => .like operand pattern none

/-- What is known after the pieces of a node alone. -/
def Node.reading : Node → Reading
  | .like operand pattern none => .matching operand pattern
  | n => .read n

/-- What is known once a node was read: a pattern, if one is awaited. -/
def Reading.take (n : Node) : Reading → Reading
  | .awaiting operand => .matching operand n
  | _ => n.reading

/-- What is known after a property: it belongs to the pattern, if one was read last. -/
def Reading.property (name : String) : Reading → Reading
  | .matching operand pattern => .matching operand (.dot pattern name)
  | r => .read (.dot r.node name)

/-- What is known after an escape, which belongs to the last pattern. -/
def Reading.escape (c : Char) : Reading → Reading
  | .matching operand pattern => .read (.like operand pattern (some c))
  | r => r

mutual

/-- What is known after one more piece. -/
def Piece.after : Piece → Reading → Reading
  | .null, r => r.take (.constant .null)
  | .boolean b, r => r.take (.constant (.boolean b))
  | .natural n, r => r.take (.constant (.integer (Int64.ofInt n)))
  | .negative n, r => r.take (.constant (.integer (Int64.ofInt (-n))))
  | .string s, r => r.take (.constant (.string s))
  | .parameter name, r => r.take (.parameter name)
  | .ident name, r => r.take (.ident name)
  | .binary operator left right, r =>
    r.take (.binary operator (phraseAfter left .start).node (phraseAfter right .start).node)
  | .not operand, r => r.take (.not (phraseAfter operand .start).node)
  | .negate operand, r => r.take (.negate (phraseAfter operand .start).node)
  | .choice whens otherwise, r => r.take (.choice (whensNodes whens) (optionNode otherwise))
  | .coalesce left right, r =>
    r.take (.coalesce (phraseAfter left .start).node (phraseAfter right .start).node)
  | .property name, r => r.property name
  | .isNull, r => .read (.isNull r.node)
  | .isNotNull, r => .read (.isNotNull r.node)
  | .like, r => .awaiting r.node
  | .escape c, r => r.escape c
  | .among collection, r => .read (.among r.node (phraseAfter collection .start).node)

/-- What is known after several more pieces. -/
def phraseAfter : List Piece → Reading → Reading
  | [], r => r
  | p :: rest, r => phraseAfter rest (p.after r)

/-- The conditions of a choice and what stands beside them, read from their pieces. -/
def whensNodes : List (List Piece × List Piece) → List (Node × Node)
  | [] => []
  | (condition, value) :: rest =>
    ((phraseAfter condition .start).node, (phraseAfter value .start).node) :: whensNodes rest

/-- The last part of a choice, read from its pieces. -/
def optionNode : Option (List Piece) → Option Node
  | none => none
  | some value => some (phraseAfter value .start).node

end

private theorem phraseAfter_append (ps qs : List Piece) (r : Reading) :
    phraseAfter (ps ++ qs) r = phraseAfter qs (phraseAfter ps r) := by
  induction ps generalizing r with
  | nil => rfl
  | cons p rest ih => rw [List.cons_append, phraseAfter, phraseAfter, ih]

/-- A node that was read from the start is the node of all that was read. -/
theorem Reading.take_start_node (n : Node) : (Reading.start.take n).node = n := by
  change n.reading.node = n
  unfold Node.reading
  split <;> rfl

/-! ## Grouped nodes -/

/-- A node whose text neither ends with a word nor with a collection: a head, or
properties of one. -/
def Node.IsPath : Node → Prop
  | .dot target _ => target.IsPath
  | .isNull _ | .isNotNull _ | .like _ _ _ | .among _ _ => False
  | _ => True

/-- A node whose text ends with a pattern. -/
def Node.EndsInPattern : Node → Prop
  | .like _ _ none => True
  | _ => False

mutual

/-- A node that is grouped as its text is read from left to right, properties first:
every pattern is a path, and no property is taken of what ends in a pattern. -/
def Node.IsGrouped : Node → Prop
  | .dot target _ => ¬ target.EndsInPattern ∧ target.IsGrouped
  | .like operand pattern _ => operand.IsGrouped ∧ pattern.IsPath ∧ pattern.IsGrouped
  | .binary _ left right | .coalesce left right => left.IsGrouped ∧ right.IsGrouped
  | .among item collection => item.IsGrouped ∧ collection.IsGrouped
  | .not operand | .negate operand | .isNull operand | .isNotNull operand => operand.IsGrouped
  | .choice whens otherwise => whensGrouped whens ∧ optionGrouped otherwise
  | _ => True

/-- Conditions of a choice and what stands beside them, all of them grouped. -/
def whensGrouped : List (Node × Node) → Prop
  | [] => True
  | (condition, value) :: rest => condition.IsGrouped ∧ value.IsGrouped ∧ whensGrouped rest

/-- A grouped node, or none. -/
def optionGrouped : Option Node → Prop
  | none => True
  | some node => node.IsGrouped

end

mutual

/-- A node in which nothing is matched against a pattern. -/
def Node.IsMatchFree : Node → Prop
  | .like _ _ _ => False
  | .binary _ left right | .coalesce left right | .among left right =>
    left.IsMatchFree ∧ right.IsMatchFree
  | .dot operand _ | .not operand | .negate operand | .isNull operand | .isNotNull operand =>
    operand.IsMatchFree
  | .choice whens otherwise => whensMatchFree whens ∧ optionMatchFree otherwise
  | _ => True

/-- Conditions of a choice and what stands beside them, without matches. -/
def whensMatchFree : List (Node × Node) → Prop
  | [] => True
  | (condition, value) :: rest =>
    condition.IsMatchFree ∧ value.IsMatchFree ∧ whensMatchFree rest

/-- A node without matches, or none. -/
def optionMatchFree : Option Node → Prop
  | none => True
  | some node => node.IsMatchFree

end

private theorem Node.IsMatchFree.not_endsInPattern {n : Node} (h : n.IsMatchFree) :
    ¬ n.EndsInPattern := by
  cases n with
  | like => cases h
  | _ => exact id

mutual

/-- Without matches there is only one way to group a text. -/
theorem Node.isGrouped_of_isMatchFree : ∀ n : Node, n.IsMatchFree → n.IsGrouped
  | .like _ _ _, h => h.elim
  | .dot target _, h =>
    ⟨Node.IsMatchFree.not_endsInPattern (n := target) h, target.isGrouped_of_isMatchFree h⟩
  | .binary _ left right, h | .coalesce left right, h | .among left right, h =>
    ⟨left.isGrouped_of_isMatchFree h.1, right.isGrouped_of_isMatchFree h.2⟩
  | .not operand, h | .negate operand, h | .isNull operand, h | .isNotNull operand, h =>
    operand.isGrouped_of_isMatchFree h
  | .choice whens otherwise, h =>
    ⟨whensGrouped_of_whensMatchFree whens h.1, optionGrouped_of_optionMatchFree otherwise h.2⟩
  | .constant _, _ | .parameter _, _ | .entity _, _ | .ident _, _ | .cast _ _, _
  | .function _ _, _ | .nonempty _, _ | .subquery _, _ => trivial

theorem whensGrouped_of_whensMatchFree : ∀ whens : List (Node × Node),
    whensMatchFree whens → whensGrouped whens
  | [], _ => trivial
  | (condition, value) :: rest, h =>
    ⟨condition.isGrouped_of_isMatchFree h.1, value.isGrouped_of_isMatchFree h.2.1,
      whensGrouped_of_whensMatchFree rest h.2.2⟩

theorem optionGrouped_of_optionMatchFree : ∀ o : Option Node,
    optionMatchFree o → optionGrouped o
  | none, _ => trivial
  | some node, h => node.isGrouped_of_isMatchFree h

end

private theorem Node.reading_of_not_endsInPattern {n : Node} (h : ¬ n.EndsInPattern) :
    n.reading = .read n := by
  unfold Node.reading
  split
  · exact absurd trivial h
  · rfl

/-- After a property the reading goes on as after any node. -/
theorem Reading.property_take {t : Node} (h : ¬ t.EndsInPattern) (name : String) (r : Reading) :
    (r.take t).property name = r.take (.dot t name) := by
  have hread := Node.reading_of_not_endsInPattern h
  cases r with
  | awaiting operand => rfl
  | _ => simp only [take, hread]; rfl

private theorem phraseAfter_literalPieces {value : Literal} (h : literalBasic value) (r : Reading) :
    phraseAfter (literalPieces value) r = r.take (.constant value) := by
  cases value with
  | null | boolean b | string s => rfl
  | integer n =>
      have hword : Int64.ofInt n.toInt = n := Int64.ofInt_toInt n
      rw [literalPieces]
      cases hn : n.toInt with
      | ofNat m =>
          rw [hn] at hword
          simp only [integerPiece, phraseAfter, Piece.after]
          exact congrArg (fun w => r.take (.constant (.integer w))) hword
      | negSucc m =>
          rw [hn] at hword
          simp only [integerPiece, phraseAfter, Piece.after]
          exact congrArg (fun w => r.take (.constant (.integer w))) hword
  | float x | queryable entity => cases h

mutual

/-- The pieces of a grouped node are read as the node: from the start, or, if it is a path,
at any point where a node may stand. -/
theorem Node.phraseAfter_pieces : ∀ (n : Node), n.IsBasic → n.IsGrouped →
    ∀ r : Reading, n.IsPath ∨ r = .start → phraseAfter n.pieces r = r.take n
  | .constant value, h, _, r, _ => by
      rw [Node.pieces]
      exact phraseAfter_literalPieces h r
  | .parameter name, _, _, r, _ => rfl
  | .ident name, _, _, r, _ => rfl
  | .dot target property, h, hg, r, hr => by
      have htarget := target.phraseAfter_pieces h.1 hg.2 r hr
      rw [Node.pieces, phraseAfter_append, htarget]
      exact Reading.property_take hg.1 property r
  | .binary operator left right, h, hg, r, _ => by
      have hleft := left.phraseAfter_pieces h.1 hg.1 .start (.inr rfl)
      have hright := right.phraseAfter_pieces h.2 hg.2 .start (.inr rfl)
      simp only [Node.pieces, phraseAfter, Piece.after, hleft, hright, Reading.take_start_node]
  | .not operand, h, hg, r, _ => by
      have hoperand := operand.phraseAfter_pieces h hg .start (.inr rfl)
      simp only [Node.pieces, phraseAfter, Piece.after, hoperand, Reading.take_start_node]
  | .negate operand, h, hg, r, _ => by
      have hoperand := operand.phraseAfter_pieces h hg .start (.inr rfl)
      simp only [Node.pieces, phraseAfter, Piece.after, hoperand, Reading.take_start_node]
  | .choice whens otherwise, h, hg, r, _ => by
      have hwhens := whensNodes_pieces whens h.1 hg.1
      have hotherwise := optionNode_pieces otherwise h.2 hg.2
      simp only [Node.pieces, phraseAfter, Piece.after, hwhens, hotherwise]
  | .coalesce left right, h, hg, r, _ => by
      have hleft := left.phraseAfter_pieces h.1 hg.1 .start (.inr rfl)
      have hright := right.phraseAfter_pieces h.2 hg.2 .start (.inr rfl)
      simp only [Node.pieces, phraseAfter, Piece.after, hleft, hright, Reading.take_start_node]
  | .isNull operand, h, hg, r, hr => by
      obtain rfl := hr.resolve_left id
      have hoperand := operand.phraseAfter_pieces h hg .start (.inr rfl)
      rw [Node.pieces, phraseAfter_append, hoperand]
      simp only [phraseAfter, Piece.after, Reading.take_start_node]
      rfl
  | .isNotNull operand, h, hg, r, hr => by
      obtain rfl := hr.resolve_left id
      have hoperand := operand.phraseAfter_pieces h hg .start (.inr rfl)
      rw [Node.pieces, phraseAfter_append, hoperand]
      simp only [phraseAfter, Piece.after, Reading.take_start_node]
      rfl
  | .like operand pattern escape, h, hg, r, hr => by
      obtain rfl := hr.resolve_left id
      have hoperand := operand.phraseAfter_pieces h.1 hg.1 .start (.inr rfl)
      have hpattern := pattern.phraseAfter_pieces h.2 hg.2.2 (.awaiting operand) (.inl hg.2.1)
      rw [Node.pieces, phraseAfter_append, hoperand, phraseAfter, Piece.after,
        Reading.take_start_node, phraseAfter_append, hpattern]
      cases escape <;> rfl
  | .among item collection, h, hg, r, hr => by
      obtain rfl := hr.resolve_left id
      have hitem := item.phraseAfter_pieces h.1 hg.1 .start (.inr rfl)
      have hcollection := collection.phraseAfter_pieces h.2 hg.2 .start (.inr rfl)
      rw [Node.pieces, phraseAfter_append, hitem]
      simp only [phraseAfter, Piece.after, hcollection, Reading.take_start_node]
      rfl
  | .entity _, h, _, _, _ | .cast _ _, h, _, _, _ | .function _ _, h, _, _, _
  | .nonempty _, h, _, _, _ | .subquery _, h, _, _, _ => h.elim

theorem whensNodes_pieces : ∀ whens : List (Node × Node), whensBasic whens →
    whensGrouped whens → whensNodes (whensPieces whens) = whens
  | [], _, _ => rfl
  | (condition, value) :: rest, h, hg => by
      have hcondition := condition.phraseAfter_pieces h.1 hg.1 .start (.inr rfl)
      have hvalue := value.phraseAfter_pieces h.2.1 hg.2.1 .start (.inr rfl)
      rw [whensPieces, whensNodes, hcondition, hvalue, whensNodes_pieces rest h.2.2 hg.2.2,
        Reading.take_start_node, Reading.take_start_node]

theorem optionNode_pieces : ∀ o : Option Node, optionBasic o → optionGrouped o →
    optionNode (optionPieces o) = o
  | none, _, _ => rfl
  | some node, h, hg => by
      have hnode := node.phraseAfter_pieces h hg .start (.inr rfl)
      rw [optionPieces, optionNode, hnode, Reading.take_start_node]

end

/-- Grouped nodes with the same pieces are the same. -/
theorem Node.IsGrouped.eq_of_pieces_eq {n n' : Node} (h : n.IsBasic) (h' : n'.IsBasic)
    (hg : n.IsGrouped) (hg' : n'.IsGrouped) (hpieces : n.pieces = n'.pieces) : n = n' := by
  have hread := n.phraseAfter_pieces h hg .start (.inr rfl)
  have hread' := n'.phraseAfter_pieces h' hg' .start (.inr rfl)
  calc
    n = (Reading.start.take n).node := (Reading.take_start_node n).symm
    _ = (Reading.start.take n').node := by rw [← hread, hpieces, hread']
    _ = n' := Reading.take_start_node n'

/-! ## What a text tells -/

/-- The text of a basic node tells its pieces and nothing else. Among grouped nodes it tells
the node, and so it does where nothing is matched against a pattern. -/
theorem render_determines {n n' : Node} (h : n.IsBasic) (h' : n'.IsBasic) :
    (n.render = n'.render ↔ n.pieces = n'.pieces) ∧
      (n.IsGrouped → n'.IsGrouped → n.render = n'.render → n = n') ∧
      (n.IsMatchFree → n'.IsMatchFree → n.render = n'.render → n = n') := by
  have hpieces := Node.render_eq_iff_pieces h h'
  have hgrouped : n.IsGrouped → n'.IsGrouped → n.render = n'.render → n = n' :=
    fun hg hg' htext => hg.eq_of_pieces_eq h h' hg' (hpieces.mp htext)
  refine ⟨hpieces, hgrouped, fun hfree hfree' => ?_⟩
  exact hgrouped (n.isGrouped_of_isMatchFree hfree) (n'.isGrouped_of_isMatchFree hfree')

/-- Whether it is null whether a text matches a pattern. -/
def matchIsNull (text pattern : String) : Node :=
  .isNull (.like (.parameter text) (.parameter pattern) none)

/-- Whether a text matches what says whether a pattern is null. -/
def nullnessMatches (text pattern : String) : Node :=
  .like (.parameter text) (.isNull (.parameter pattern)) none

private theorem plainName_name : PlainName "name" := by decide

private theorem plainName_pattern : PlainName "pattern" := by decide

/-- Neither a pattern nor what is tested for null stands in brackets, so these two have the
same text, although where there is no name the one is true and the other null. -/
theorem matchIsNull_render :
    (matchIsNull "name" "pattern").IsBasic ∧ (nullnessMatches "name" "pattern").IsBasic ∧
      matchIsNull "name" "pattern" ≠ nullnessMatches "name" "pattern" ∧
      (matchIsNull "name" "pattern").render = ":name like :pattern is null" ∧
      (nullnessMatches "name" "pattern").render = ":name like :pattern is null" ∧
      (matchIsNull "name" "pattern").eval
          ⟨⟨[]⟩, [("name", .null), ("pattern", .string "a")]⟩ [] = .ok (.boolean true) ∧
      (nullnessMatches "name" "pattern").eval
          ⟨⟨[]⟩, [("name", .null), ("pattern", .string "a")]⟩ [] = .ok .null :=
  ⟨⟨plainName_name, plainName_pattern⟩, ⟨plainName_name, plainName_pattern⟩, nofun, rfl, rfl,
    rfl, rfl⟩

/-- The two have the same pieces. Only the first one is grouped, and among grouped nodes its
text is its own. So is that of a test whether a parameter is null, in which nothing is
matched. -/
theorem matchIsNull_pieces :
    (matchIsNull "name" "pattern").pieces = (nullnessMatches "name" "pattern").pieces ∧
      (matchIsNull "name" "pattern").IsGrouped ∧
      ¬ (nullnessMatches "name" "pattern").IsGrouped ∧
      (matchIsNull "name" "pattern").render ≠ (matchIsNull "pattern" "name").render ∧
      (Node.isNull (.parameter "name")).render ≠ (Node.isNull (.parameter "pattern")).render := by
  have hmatch : (matchIsNull "name" "pattern").IsBasic := ⟨plainName_name, plainName_pattern⟩
  have hswapped : (matchIsNull "pattern" "name").IsBasic := ⟨plainName_pattern, plainName_name⟩
  have hnullness : (nullnessMatches "name" "pattern").IsBasic :=
    ⟨plainName_name, plainName_pattern⟩
  have hname : (Node.isNull (.parameter "name")).IsBasic := plainName_name
  have hpattern : (Node.isNull (.parameter "pattern")).IsBasic := plainName_pattern
  have hread : ∀ text pattern, (matchIsNull text pattern).IsGrouped :=
    fun _ _ => ⟨trivial, trivial, trivial⟩
  refine ⟨(render_determines hmatch hnullness).1.mp rfl, hread _ _, fun h => h.2.1, ?_, ?_⟩
  · intro htext
    have hsame := (render_determines hmatch hswapped).2.1 (hread _ _) (hread _ _) htext
    simp [matchIsNull] at hsame
  · intro htext
    have hsame := (render_determines hname hpattern).2.2 trivial trivial htext
    simp at hsame

end ObjectQuery.Hql
