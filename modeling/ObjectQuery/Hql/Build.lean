import ObjectQuery.Hql.Basic

/-!
# Building trees

Most nodes are built by their constructors. The functions here are the
places where a more specific node is chosen: a comparison with the null
constant is a test for null, and a cast that no value notices is left out.
-/

namespace ObjectQuery.Hql.Node

/-- A string constant. -/
def string (s : String) : Node :=
  .constant (.string s)

/-- The equality of two nodes, or a test for null where one of them is the
null constant; the left one is looked at first. -/
def equality : Node → Node → Node
  | .constant .null, other => .isNull other
  | other, .constant .null => .isNull other
  | left, right => .binary .equal left right

/-- The inequality of two nodes, or a test for something other than null
where one of them is the null constant. -/
def inequality : Node → Node → Node
  | .constant .null, other => .isNotNull other
  | other, .constant .null => .isNotNull other
  | left, right => .binary .notEqual left right

/-- A cast. Casts to the untyped object and to a nullable type are not
written. -/
def castTo (operand : Node) : StaticType → Node
  | .object => operand
  | .nullable _ => operand
  | type => .cast operand type

/-- Texts written one after the other. -/
def concat (parts : List Node) : Node :=
  .function "concat" parts

/-- A decision between two nodes. -/
def ifThenElse (test whenTrue whenFalse : Node) : Node :=
  .choice [(test, whenTrue)] (some whenFalse)

end ObjectQuery.Hql.Node
