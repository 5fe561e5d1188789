import ObjectQuery.Yaml.Token

/-!
# YAML documents

The tokens of a text are put together by a machine with a stack of the
collections that are open. Each collection is a `Frame`, which says what may
come next in it. A node is complete when its last token is read; it then
belongs to the innermost open collection or, if there is none, is the value
of the document.

Keys, values and items may be left out. That shows only at the token that
comes next, so before a token the machine first puts an absent value where
one was left out (`Builder.settle`).

A text holds one document, with or without the marks of its start and its
end. A text without any token has no value, and a document that is begun by
its mark and has no content has the absent value.
-/

namespace ObjectQuery.Yaml

/-! ## Open collections -/

/-- An open collection, with what stands in it so far, the latest first. -/
inductive Frame where
  /-- The mark of an item or the end of the sequence comes next. The sequence
  is opened by a column of its own, or stands at the column of its key. -/
  | items (hasColumn : Bool) (done : List Yaml)
  /-- An item comes next. -/
  | item (hasColumn : Bool) (done : List Yaml)
  /-- The mark of a key or the end of the mapping comes next. -/
  | entries (done : List (Yaml × Yaml))
  /-- A key comes next. -/
  | key (done : List (Yaml × Yaml))
  /-- A colon comes next. -/
  | colon (done : List (Yaml × Yaml)) (key : Yaml)
  /-- A value comes next. -/
  | value (done : List (Yaml × Yaml)) (key : Yaml)
  /-- In brackets: an item, the mark of a key or the end comes next. -/
  | bracketItem (done : List Yaml)
  /-- In brackets: a comma or the end comes next. -/
  | bracketComma (done : List Yaml)
  /-- In brackets: the key of an item that is a pair comes next. -/
  | pairKey (done : List Yaml)
  | pairColon (done : List Yaml) (key : Yaml)
  | pairValue (done : List Yaml) (key : Yaml)
  /-- In braces: a key that has no value, the mark of a key or the end comes
  next. -/
  | braceEntry (done : List (Yaml × Yaml))
  /-- In braces: a comma or the end comes next. -/
  | braceComma (done : List (Yaml × Yaml))
  /-- In braces: a marked key comes next. -/
  | braceKey (done : List (Yaml × Yaml))
  | braceColon (done : List (Yaml × Yaml)) (key : Yaml)
  | braceValue (done : List (Yaml × Yaml)) (key : Yaml)

namespace Frame

/-- Whether a node may come next. -/
def expectsNode : Frame → Bool
  | .item .. | .key _ | .value .. => true
  | .bracketItem _ | .pairKey _ | .pairValue .. => true
  | .braceEntry _ | .braceKey _ | .braceValue .. => true
  | _ => false

/-- Whether a collection without brackets may come next. -/
def expectsBlock : Frame → Bool
  | .item .. | .key _ | .value .. => true
  | _ => false

/-- Whether a sequence without a column of its own may come next. -/
def expectsItems : Frame → Bool
  | .key _ | .value .. => true
  | _ => false

/-- The frame after a value, which stands for itself or for what was left
out. -/
def accept? (v : Yaml) : Frame → Option Frame
  | .item hasColumn done => some (.items hasColumn (v :: done))
  | .key done => some (.colon done v)
  | .colon done k => some (.entries ((k, v) :: done))
  | .value done k => some (.entries ((k, v) :: done))
  | .bracketItem done => some (.bracketComma (v :: done))
  | .pairKey done => some (.pairColon done v)
  | .pairColon done k => some (.bracketComma (.mapping [(k, v)] :: done))
  | .pairValue done k => some (.bracketComma (.mapping [(k, v)] :: done))
  | .braceEntry done => some (.braceComma ((v, absent) :: done))
  | .braceKey done => some (.braceColon done v)
  | .braceColon done k => some (.braceComma ((k, v) :: done))
  | .braceValue done k => some (.braceComma ((k, v) :: done))
  | _ => none

/-- Whether what comes next is left out where a token is found instead. -/
def omitsBefore : Frame → Token → Bool
  | .item true _, .dash | .item true _, .closeBlock => true
  | .item false _, .dash | .item false _, .key | .item false _, .value
  | .item false _, .closeBlock => true
  | .key _, .key | .key _, .value | .key _, .closeBlock => true
  | .value .., .key | .value .., .value | .value .., .closeBlock => true
  | .pairValue .., .comma | .pairValue .., .closeBracket => true
  | .braceKey _, .value | .braceKey _, .comma | .braceKey _, .closeBrace => true
  | .braceValue .., .comma | .braceValue .., .closeBrace => true
  | .colon .., .value | .pairColon .., .value | .braceColon .., .value => false
  | .colon .., _ | .pairColon .., _ | .braceColon .., _ => true
  | _, _ => false

/-- The frame after a sign that does not complete the collection. A pair in
brackets that has no key takes the sign behind the mark of the key in place
of it. -/
def pass? : Frame → Token → Option Frame
  | .items hasColumn done, .dash => some (.item hasColumn done)
  | .entries done, .key => some (.key done)
  | .colon done k, .value => some (.value done k)
  | .bracketItem done, .key => some (.pairKey done)
  | .bracketComma done, .comma => some (.bracketItem done)
  | .pairKey done, .value | .pairKey done, .comma | .pairKey done, .closeBracket =>
    some (.pairColon done absent)
  | .pairColon done k, .value => some (.pairValue done k)
  | .braceEntry done, .key => some (.braceKey done)
  | .braceComma done, .comma => some (.braceEntry done)
  | .braceColon done k, .value => some (.braceValue done k)
  | _, _ => none

/-- The collection that a sign completes. -/
def complete? : Frame → Token → Option Yaml
  | .items true done, .closeBlock => some (.sequence done.reverse)
  | .entries done, .closeBlock => some (.mapping done.reverse)
  | .bracketItem done, .closeBracket => some (.sequence done.reverse)
  | .bracketComma done, .closeBracket => some (.sequence done.reverse)
  | .braceEntry done, .closeBrace => some (.mapping done.reverse)
  | .braceComma done, .closeBrace => some (.mapping done.reverse)
  | _, _ => none

/-- The sequence without a column of its own that has ended where a token is
found instead of a further item. -/
def endsBefore? : Frame → Token → Option Yaml
  | .items false _, .dash => none
  | .items false done, _ => some (.sequence done.reverse)
  | _, _ => none

end Frame

/-! ## Anchors -/

/-- What stands in front of a node. -/
structure Properties where
  anchor : Option String
  tag : Option YamlTag

/-- Nothing in front of a node. -/
def Properties.none : Properties := ⟨.none, .none⟩

/-- Whether nothing stands in front of a node. -/
def Properties.isNone (properties : Properties) : Bool :=
  properties.anchor.isNone && properties.tag.isNone

/-- The anchors so far. An anchor has as its number the number of names that
were known before it. A name that is used again counts once, so two anchors
may have the same number, and then the later one has it. -/
structure Anchors where
  /-- Each name and the number of the latest anchor of that name. -/
  names : List (String × Nat)
  /-- The numbers of the anchored nodes, the latest node first. -/
  numbers : List Nat

/-- The anchors with one more of them. -/
def Anchors.add (anchors : Anchors) (name : String) : Anchors :=
  let number := anchors.names.length
  ⟨(name, number) :: anchors.names.filter (·.1 != name), number :: anchors.numbers⟩

/-! ## The machine -/

/-- The machine between two tokens. -/
structure Builder where
  directives : Directives
  /-- The open collections, innermost first. One with an anchor comes with how
  many anchored nodes began before it. -/
  frames : List (Frame × Option Nat)
  /-- What stands in front of the node that comes next. -/
  properties : Properties
  anchors : Anchors
  /-- The complete nodes that have an anchor, each with how many anchored nodes
  began before it. -/
  anchored : List (Nat × Yaml)
  root : Option Yaml

namespace Builder

/-- The machine in front of the content of a document. -/
def initial (directives : Directives) : Builder :=
  ⟨directives, [], .none, ⟨[], []⟩, [], none⟩

/-- Whether a node may come next. -/
def expectsNode (b : Builder) : Bool :=
  match b.frames with
  | [] => b.root.isNone
  | (frame, _) :: _ => frame.expectsNode

/-- A value belongs to the innermost open collection. -/
def accept? (b : Builder) (v : Yaml) : Option Builder :=
  match b.frames with
  | [] => if b.root.isNone then some { b with root := some v } else none
  | (frame, label) :: outer => do return { b with frames := (← frame.accept? v, label) :: outer }

/-- A node begins: its anchor is known from here on. -/
def begin (b : Builder) : Builder × Option Nat :=
  match b.properties.anchor with
  | none => ({ b with properties := .none }, none)
  | some name =>
    ({ b with properties := .none, anchors := b.anchors.add name },
      some b.anchors.numbers.length)

/-- A node is complete. -/
def complete? (b : Builder) (label : Option Nat) (v : Yaml) : Option Builder :=
  { b with anchored := (label.map (·, v)).toList ++ b.anchored }.accept? v

/-- A scalar. The tag of a single exclamation mark says nothing about it. -/
def scalar? (b : Builder) (style : ScalarStyle) (text : String) : Option Builder :=
  let tag := b.properties.tag.filter (· ≠ [exclamationMark])
  let (b, label) := b.begin
  b.complete? label (.scalar style tag text)

/-- A collection is opened. -/
def openFrame (b : Builder) (frame : Frame) : Builder :=
  let (b, label) := b.begin
  { b with frames := (frame, label) :: b.frames }

/-- Puts an absent value where one is left out in front of a token. -/
def fill? (b : Builder) (token : Token) : Option Builder :=
  match b.frames with
  | (frame, _) :: _ => if frame.omitsBefore token then b.accept? absent else some b
  | [] => some b

/-- An anchor or tag without a node stands in front of the absent value. -/
def fillProperties? (b : Builder) : Option Builder :=
  if b.properties.isNone then some b
  else
    let tag := b.properties.tag
    let (b, label) := b.begin
    b.complete? label (.scalar .plain tag "")

/-- Ends a sequence without a column of its own where a token is found instead
of a further item. -/
def endItems? (b : Builder) (token : Token) : Option Builder :=
  match b.frames with
  | (frame, label) :: outer =>
    match frame.endsBefore? token with
    | some v => { b with frames := outer }.complete? label v
    | none => some b
  | [] => some b

/-- What a token shows about what was left out before it. -/
def settle? (b : Builder) (token : Token) : Option Builder := do
  let b ←
    if b.properties.isNone then b.fill? token
    else b.fillProperties?
  (← b.endItems? token).fill? token

/-- A sign. -/
def sign? (b : Builder) (token : Token) : Option Builder := do
  let b ← b.settle? token
  match b.frames with
  | [] => none
  | (frame, label) :: outer =>
    match frame.complete? token with
    | some v => complete? { b with frames := outer } label v
    | none => return { b with frames := (← frame.pass? token, label) :: outer }

/-- One token. -/
def step (b : Builder) (token : Token) : Option Builder :=
  let blockAllowed := b.frames.head?.all (·.1.expectsBlock) && b.expectsNode
  match token with
  | .reference name => do
    if b.expectsNode && b.properties.isNone then
      b.accept? (.reference (← b.anchors.names.lookup name))
    else none
  | .anchor name =>
    if b.expectsNode && b.properties.anchor.isNone then
      some { b with properties := { b.properties with anchor := some name } }
    else none
  | .tag tag => do
    if b.expectsNode && b.properties.tag.isNone then
      let tag ← b.directives.expand? tag
      return { b with properties := { b.properties with tag := some tag } }
    else none
  | .scalar style text => if b.expectsNode then b.scalar? style text else none
  | .openBracket => if b.expectsNode then some (b.openFrame (.bracketItem [])) else none
  | .openBrace => if b.expectsNode then some (b.openFrame (.braceEntry [])) else none
  | .openItems => if blockAllowed then some (b.openFrame (.items true [])) else none
  | .openEntries => if blockAllowed then some (b.openFrame (.entries [])) else none
  | .dash =>
    if b.frames.head?.any (·.1.expectsItems) then some (b.openFrame (.item false []))
    else b.sign? .dash
  | token => b.sign? token

/-- The document at the end of its content. -/
def document? (b : Builder) : Option Document := do
  let b ← b.fillProperties?
  if b.frames.isEmpty then
    let root ← b.root
    let numbers := b.anchors.numbers.reverse.zipIdx.reverse
    return ⟨some root, numbers.filterMap fun (number, label) =>
      (b.anchored.lookup label).map (number, ·)⟩
  else none

end Builder

/-! ## Documents -/

/-- Whether a token stands between documents. -/
def Token.isBetweenDocuments : Token → Bool
  | .directive _ | .documentStart | .documentEnd => true
  | _ => false

/-- Whether a token marks the end of a document. -/
def Token.isDocumentEnd : Token → Bool
  | .documentEnd => true
  | _ => false

/-- The directives at the head of a document, and the tokens behind them. -/
def takeDirectives? (directives : Directives) : List Token → Option (Directives × List Token)
  | .directive directive :: rest => do takeDirectives? (← directives.add? directive) rest
  | tokens => some (directives, tokens)

/-- The document with some content, behind which there may be marks of its
end and nothing more. -/
def readContent (directives : Directives) (tokens : List Token) : Option Document := do
  let content := tokens.takeWhile (!·.isBetweenDocuments)
  if (tokens.drop content.length).all Token.isDocumentEnd then
    (← content.foldlM Builder.step (Builder.initial directives)).document?
  else none

/-- The document that tokens write. Directives need the mark of the start
behind them. -/
def Document.ofTokens? (tokens : List Token) : Option Document :=
  match tokens with
  | [] => some ⟨none, []⟩
  | .directive _ :: _ => do
    let (directives, rest) ← takeDirectives? .empty tokens
    match rest with
    | .documentStart :: rest => begun directives rest
    | _ => none
  | .documentStart :: rest => begun .empty rest
  | tokens => readContent .empty tokens
where
  /-- A document behind the mark of its start. -/
  begun (directives : Directives) (tokens : List Token) : Option Document :=
    if tokens.all Token.isDocumentEnd then some ⟨some absent, []⟩
    else readContent directives tokens

/-- Reads a text. -/
def read? (text : String) : Option Document := do
  Document.ofTokens? (← tokenize text)

end ObjectQuery.Yaml
