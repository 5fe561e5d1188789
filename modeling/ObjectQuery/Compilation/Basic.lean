import ObjectQuery.Expansion.Basic
import ObjectQuery.Lowering.Basic

/-!
# Compiling a model

A model is compiled in two stages: it is expanded, which brings it to a
normal form, and the result is lowered. Compilation ends with both, the
normalized model and its query, or with the first error of either stage.
Everything that happens on the way is traced.

## Main definitions

* `QueryModel.normalize` — the first stage.
* `QueryModel.compile` — both stages.
-/

namespace ObjectQuery

/-- A compiled model. -/
structure Compiled where
  /-- The model after expansion. -/
  model : QueryModel
  query : Hql.Query

/-- Why a model cannot be compiled: the stage that failed, and its error. -/
inductive CompileError where
  | expansion (error : ExpansionError)
  | lowering (error : LoweringError)

/-- The message of an error. -/
def CompileError.message : CompileError → String
  | .expansion error => "Rewrite failed: " ++ error.message
  | .lowering error => "HQL generation failed: " ++ error.message

/-- What a client can do about an error. -/
inductive CompileError.Kind where
  /-- The model is malformed and has to be corrected. -/
  | malformed
  /-- A handler for a method has to be registered. -/
  | unsupportedMethod
  | other
  deriving DecidableEq

/-- The kind of an error. -/
def CompileError.kind : CompileError → CompileError.Kind
  | .expansion (.malformed _) => .malformed
  | .lowering (.malformed _) => .malformed
  | .lowering (.unsupportedMethod _) => .unsupportedMethod
  | _ => .other

/-- What happens while a model is compiled. -/
inductive CompileEvent where
  /-- The expansion of a model begins. -/
  | started (model : QueryModel)
  | expansion (event : ExpansionEvent)
  /-- The expansion is finished, and the model has changed or not. -/
  | normalized (changed : Bool) (model : QueryModel)
  | lowering (event : LoweringEvent)
  /-- The query is complete. -/
  | compiled (query : Hql.Query)

/-- A step of compilation. -/
abbrev Compiling (α : Type) : Type := Traced CompileEvent CompileError α

/-- The model after all that is done to it before it is lowered. -/
def QueryModel.normalize (limit : Nat) (model : QueryModel) : Compiling QueryModel := do
  .emit (.started model)
  let expansion := model.expand limit
  let result ← expansion.relabel .expansion .expansion
  .emit (.normalized (!expansion.events.isEmpty) result)
  return result

/-- A model in its normal form, and its query. -/
def QueryModel.compile (registry : Registry) (limit : Nat) (model : QueryModel) :
    Compiling Compiled := do
  let model ← model.normalize limit
  let query ← (model.toQuery registry limit).relabel .lowering .lowering
  .emit (.compiled query)
  return ⟨model, query⟩

end ObjectQuery
