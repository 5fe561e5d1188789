/-!
# YAML values

A value as a YAML document describes it. A scalar is kept as the text that
was written, with how it was written and with its tag, because what a scalar
means is up to whoever asks: `8` is a number where a number is wanted and a
text where a text is wanted, and `"8"` is never a number.

A value may refer to another one of its document by the number of an anchor.
References are kept and not replaced: a value may hold itself.
-/

namespace ObjectQuery

/-- How a scalar is written. -/
inductive ScalarStyle where
  /-- Without quotes. -/
  | plain
  | quoted
  /-- In lines of its own that are kept as they are. -/
  | literal
  /-- In lines of its own that are joined to paragraphs. -/
  | folded
  deriving DecidableEq, Inhabited

/-- The octets of a tag. An escape in a tag may write octets that are no
text. -/
abbrev YamlTag := List UInt8

/-- A YAML value. -/
inductive Yaml where
  | scalar (style : ScalarStyle) (tag : Option YamlTag) (text : String)
  | sequence (items : List Yaml)
  | mapping (entries : List (Yaml × Yaml))
  /-- The value with the anchor of that number. -/
  | reference (number : Nat)
  deriving Inhabited

namespace Yaml

/-- The value of an entry that has none, and of a document that is begun and
has no content. -/
def absent : Yaml := .scalar .plain none ""

/-- Whether a value is a scalar of no characters without quotes. -/
def isAbsent : Yaml → Bool
  | .scalar .plain _ text => text.isEmpty
  | _ => false

/-- The text of a scalar. -/
def text? : Yaml → Option String
  | .scalar _ _ text => some text
  | _ => none

/-- A document: its value, if it has one, and the values with an anchor. -/
structure Document where
  root : Option Yaml
  /-- The values with the numbers of their anchors. -/
  anchored : List (Nat × Yaml)

/-- A value of the document where it may be a reference to one. -/
def Document.resolve? (document : Document) : Yaml → Option Yaml
  | .reference number => document.anchored.lookup number
  | v => some v

end Yaml

end ObjectQuery
