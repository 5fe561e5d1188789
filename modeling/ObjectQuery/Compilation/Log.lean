import ObjectQuery.Expr.Visits
import ObjectQuery.Hql.Render
import ObjectQuery.Compilation.Basic

/-!
# The log of a compilation

Every event has a place in the log: a record or a few, each with a level and
a message. Only the entering of a subquery is not logged, since its model is
once it is lowered. Registrations that replace another one are logged too.
-/

namespace ObjectQuery

/-- How important a record is. -/
inductive LogLevel where
  | trace
  | debug
  | info
  deriving DecidableEq

/-- The name of a level. -/
def LogLevel.text : LogLevel → String
  | .trace => "TRACE"
  | .debug => "DEBUG"
  | .info => "INFO"

/-- One record of the log. -/
structure LogRecord where
  level : LogLevel
  message : String
  deriving DecidableEq

/-- How many subqueries stand in the projection and the filter of a model,
not counting those inside of another one. -/
def QueryModel.topLevelSubqueries (model : QueryModel) : Nat :=
  ((model.selector.toList ++ model.filter.toList).flatMap Expr.visits).countP Expr.isSubquery

/-- The record of a replaced registration. -/
def Replacement.record (replacement : Replacement) : LogRecord :=
  ⟨.debug, "MethodRegistry: " ++ replacement.method.text ++ " now handled by '" ++
    replacement.current.name ++ "' (was '" ++ replacement.previous.name ++ "')"⟩

/-- The record of an expansion. -/
def ExpansionEvent.record (event : ExpansionEvent) : LogRecord :=
  ⟨.debug, "SubQueryConditionalExpander: expanded subquery source " ++ event.source.text ++
    " into " ++ event.result.text⟩

/-- The record of a step of lowering, if the step is logged. -/
def LoweringEvent.record? : LoweringEvent → Option LogRecord
  | .entered _ => none
  | .handled method handler =>
    some ⟨.trace, "HqlGeneratorVisitor: " ++ method.text ++ " handled by '" ++ handler ++ "'"⟩
  | .distributed position method =>
    some ⟨.debug, "HqlGeneratorVisitor: expanding branching operand " ++ toString position ++
      " of " ++ method.text⟩
  | .lowered depth model =>
    some ⟨.trace, "HqlGeneratorVisitor: lowered model at depth " ++ toString depth ++ ": " ++
      model.text⟩

/-- The records of a finished expansion. -/
def normalizedRecords (changed : Bool) (model : QueryModel) : List LogRecord :=
  (if changed then
    [⟨.debug, "SubQueryConditionalExpander: rewrote model to " ++ model.text⟩,
      ⟨.info, "REWRITER: SubQueryConditionalExpansion changed the query model"⟩]
  else [⟨.trace, "REWRITER: SubQueryConditionalExpansion left the query model unchanged"⟩]) ++
  [⟨.trace, "REWRITER: " ++ toString model.topLevelSubqueries ++
    " top-level subqueries after rewriting"⟩]

/-- The records of an event. -/
def CompileEvent.records : CompileEvent → List LogRecord
  | .started model => [⟨.debug, "REWRITER: rewriting " ++ model.text⟩]
  | .expansion event => [event.record]
  | .normalized changed model => normalizedRecords changed model
  | .lowering event => event.record?.toList
  | .compiled query => [⟨.debug, "translate: " ++ query.render⟩]

/-- The log of a computation. -/
def Traced.log {ε α : Type} (x : Traced CompileEvent ε α) : List LogRecord :=
  x.events.flatMap CompileEvent.records

end ObjectQuery
