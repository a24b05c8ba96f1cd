import ItemMapper.Expression.Update.Action
import ItemMapper.Expression.Update.Derived

/-!
# Updates

The requests of an update become changes, the changes are prepared and completed by those that they
imply, and each of them is turned into an action.  The actions are written clause by clause.
-/

namespace ItemMapper

variable {σ : Type}

namespace Scope

/-- The actions of an update of an item whose current document is as given; it is empty if it is
not known. -/
def updateActions (scope : Scope σ) (writing : Writing) (current update : Document) :
    Pipeline σ (List Action) := do
  let requested ← Pipeline.ofExcept (scope.requestedChanges update)
  let restored ← requested.mapM (Change.restoreDefault writing current)
  let prepared ← restored.mapM (Change.prepare writing)
  let changes ← scope.allChanges writing current prepared
  changes.mapM (Change.action scope writing current)

def compileUpdate (scope : Scope σ) (writing : Writing) (current update : Document) :
    Pipeline σ CompiledExpression := do
  return .ofPieces (Action.updatePieces (← scope.updateActions writing current update))

end Scope

end ItemMapper
