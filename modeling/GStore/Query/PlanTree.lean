import GStore.Query.Pattern

/-! `PlanTree`: the join methods of the edges of a plan, and the constructor that joins two plans.
-/
namespace GStore
open Lib List

inductive Position where
  | subject
  | predicate
  | object
  deriving DecidableEq

/-- The methods that find one id: from the positions before the `2` to the one behind it. -/
inductive JoinMethod where
  | s2p
  | s2o
  | p2s
  | p2o
  | o2s
  | o2p
  | so2p
  | sp2o
  | po2s
  deriving DecidableEq

def JoinMethod.given : JoinMethod → List Position
  | .s2p | .s2o => [.subject]
  | .p2s | .p2o => [.predicate]
  | .o2s | .o2p => [.object]
  | .so2p => [.subject, .object]
  | .sp2o => [.subject, .predicate]
  | .po2s => [.predicate, .object]

def JoinMethod.found : JoinMethod → Position
  | .p2s | .o2s | .po2s => .subject
  | .s2p | .o2p | .so2p => .predicate
  | .s2o | .p2o | .sp2o => .object

def JoinMethod.listsOnce : JoinMethod → Bool
  | .s2p | .o2p => true
  | _ => false

inductive PairMethod where
  | s2po
  | p2so
  | o2ps
  deriving DecidableEq

/-- The variables that a plan binds: `already_so_var` and `already_joined_pre_var`. -/
structure PlanVars where
  soVar : List Nat
  preVar : List Nat

namespace PlanVars

def bound (p : PlanVars) : List Nat := p.soVar ++ p.preVar

def join (left right : PlanVars) : PlanVars :=
  ⟨left.soVar ++ right.soVar.filter (· ∉ left.soVar),
      left.preVar ++ right.preVar.filter (· ∉ left.preVar)⟩

end PlanVars

/-- `public_variables`. What `find` returns for the vector of predicate variables is compared with
the end of the other vector, so what is not found passes too, unless both vectors have no memory. -/
def publicVariables (left right : PlanVars) (joinNodes : List Nat) : List Nat :=
  joinNodes ++ left.preVar.filter fun x => decide
    (x ∈ right.preVar) || !(right.preVar.isEmpty && right.soVar.isEmpty)

end GStore
