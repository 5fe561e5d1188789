import ObjectQuery.Main
import ObjectQuery.Compilation.Log
import ObjectQuery.Proofs.Engine.Query
import ObjectQuery.Proofs.Lowering.Operators
import ObjectQuery.Proofs.Expansion.Nominating
import ObjectQuery.Proofs.Expansion.Source
import ObjectQuery.Proofs.Expansion.Replaced
import ObjectQuery.Proofs.Expansion.Clauses
import ObjectQuery.Proofs.Expansion.Parts
import ObjectQuery.Proofs.Expansion.Again
import ObjectQuery.Proofs.Engine.Follows
import ObjectQuery.Proofs.Method.Meaning
import ObjectQuery.Proofs.Lowering.Calls
import ObjectQuery.Proofs.Lowering.Follows
import ObjectQuery.Proofs.Lowering.Models
import ObjectQuery.Proofs.Lowering.Apart
import ObjectQuery.Proofs.Lowering.Nothing
import ObjectQuery.Proofs.Compilation.Meaning
import ObjectQuery.Proofs.Lowering.Paging
import ObjectQuery.Proofs.Text.LikePattern
import ObjectQuery.Proofs.Method.StringTest
import ObjectQuery.Proofs.Expansion.Acceptance
import ObjectQuery.Proofs.Expansion.Trigger
import ObjectQuery.Proofs.Expansion.Shape
import ObjectQuery.Proofs.Expansion.Change
import ObjectQuery.Proofs.Lowering.Succeeds
import ObjectQuery.Proofs.Compilation.Acceptance
import ObjectQuery.Proofs.Inline.Node
import ObjectQuery.Proofs.Inline.Expr
import ObjectQuery.Proofs.Inline.Expansion
import ObjectQuery.Proofs.Inline.Calls
import ObjectQuery.Proofs.Inline.Lowering
import ObjectQuery.Proofs.Inline.Models
import ObjectQuery.Proofs.Inline.Compilation
import ObjectQuery.Proofs.Expr.Nesting
import ObjectQuery.Proofs.Lowering.Acceptance
import ObjectQuery.Proofs.Expansion.Repeated
import ObjectQuery.Proofs.Lowering.Distribution
import ObjectQuery.Proofs.Engine.Scoping
import ObjectQuery.Proofs.Expr.Scoping
import ObjectQuery.Proofs.Expansion.Scoping
import ObjectQuery.Proofs.Lowering.Scoping
import ObjectQuery.Proofs.Compilation.Scoping
import ObjectQuery.Proofs.Comparison
import ObjectQuery.Proofs.Expansion.Calls
import ObjectQuery.Proofs.Lowering.Comparison
import ObjectQuery.Proofs.Expansion.Limit
import ObjectQuery.Proofs.Method.Registry
import ObjectQuery.Proofs.Compilation.Comparison
import ObjectQuery.Proofs.Lowering.Existence
import ObjectQuery.Proofs.Hql.Quoting
import ObjectQuery.Proofs.Hql.Rendering
import ObjectQuery.Proofs.Method.Layering
import ObjectQuery.Proofs.Engine.FreeNames
import ObjectQuery.Proofs.Expr.Encoding
import ObjectQuery.Proofs.Hql.Unambiguous
import ObjectQuery.Proofs.Decimal.Order
import ObjectQuery.Proofs.Method.Signatures
import ObjectQuery.Proofs.Value.SortCompare
import ObjectQuery.Proofs.Engine.Ordering
import ObjectQuery.Proofs.Text.EscapePairs
import ObjectQuery.Proofs.Value.Arithmetic
import ObjectQuery.Proofs.Value.Sum
import ObjectQuery.Proofs.Engine.Arithmetic
import ObjectQuery.Proofs.Engine.Cast
import ObjectQuery.Proofs.Engine.Membership
import ObjectQuery.Proofs.Lowering.Skips
import ObjectQuery.Proofs.Lowering.Invocations
import ObjectQuery.Proofs.Engine.Rows
import ObjectQuery.Proofs.Engine.Partition
import ObjectQuery.Proofs.Engine.JoinFilters
import ObjectQuery.Proofs.Expr.Clauses
import ObjectQuery.Proofs.Lowering.Results
import ObjectQuery.Proofs.Engine.Extremes
import ObjectQuery.Proofs.Json.Equality
import ObjectQuery.Proofs.Engine.Provenance
import ObjectQuery.Proofs.Engine.Distinct
import ObjectQuery.Proofs.Expansion.OpenBranches
import ObjectQuery.Proofs.Expr.Rebuild
import ObjectQuery.Proofs.Expansion.Balance
import ObjectQuery.Proofs.StaticType.Compatibility
import ObjectQuery.Proofs.Value.RoundTrip
