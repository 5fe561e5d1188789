/-!
# Nominations

While the source of a subquery is looked through, branches are opened and
closed, and the innermost open branch may be nominated: it is then known to
depend on something outside of the subquery. Nomination can be suspended.
Suspensions add up, and while one is in force nothing is nominated.

## Main definitions

* `Nominations` — the open branches, each nominated or not, and the number
  of suspensions.
* `Nominations.after` — what a step does.
-/

namespace ObjectQuery

/-- The open branches and the suspensions in force. -/
structure Nominations where
  /-- For each open branch, innermost first, whether it is nominated. -/
  branches : List Bool
  suspensions : Nat
  deriving DecidableEq, Inhabited

namespace Nominations

/-- No branch is open, and nothing is suspended. -/
def empty : Nominations := ⟨[], 0⟩

/-- The number of open branches. -/
def depth (n : Nominations) : Nat :=
  n.branches.length

/-- Opens a branch. -/
def push (n : Nominations) : Nominations :=
  { n with branches := false :: n.branches }

/-- Whether the innermost open branch is nominated; where none is open,
nothing is. -/
def isNominated (n : Nominations) : Bool :=
  n.branches.headD false

/-- Closes the innermost open branch, if there is one. -/
def pop (n : Nominations) : Nominations :=
  { n with branches := n.branches.tail }

/-- Nominates the innermost open branch, unless nomination is suspended. -/
def nominate (n : Nominations) : Nominations :=
  match n.suspensions, n.branches with
  | 0, _ :: rest => { n with branches := true :: rest }
  | _, _ => n

/-- Suspends nomination. -/
def suspend (n : Nominations) : Nominations :=
  { n with suspensions := n.suspensions + 1 }

/-- Lifts one suspension, if one is in force. -/
def resume (n : Nominations) : Nominations :=
  { n with suspensions := n.suspensions - 1 }

/-- One step. -/
inductive Step where
  | push
  | pop
  | nominate
  | suspend
  | resume
  deriving DecidableEq

/-- The nominations after a step. -/
def after (n : Nominations) : Step → Nominations
  | .push => n.push
  | .pop => n.pop
  | .nominate => n.nominate
  | .suspend => n.suspend
  | .resume => n.resume

/-- What closing a branch tells; other steps tell nothing. -/
def answer? (n : Nominations) : Step → Option Bool
  | .pop => some n.isNominated
  | _ => none

end Nominations

end ObjectQuery
