import FuncLift.Selection
import FuncLift.Tree.Outline

/-!
# Why code cannot be lifted

Causes, and one wording for each.
-/
namespace FuncLift

/-- Why a selection stands for no region. -/
inductive SelectionFault where
  | outOfBounds | empty | reversed | noNodeAtStart | noNodeAtEnd | notAStatementList | notAStatement
deriving DecidableEq, Repr

def SelectionFault.message : SelectionFault → String
  | .outOfBounds => "a cursor lies outside the document"
  | .empty => "the selection is empty"
  | .reversed => "the selection ends before it begins"
  | .noNodeAtStart => "no syntax node starts at the beginning of the selection"
  | .noNodeAtEnd => "no sibling node ends at the end of the selection"
  | .notAStatementList => "the selected nodes are not part of a statement list"
  | .notAStatement => "the selection covers something other than whole statements"

/-- Why code was not lifted into a function. -/
inductive LiftFault where
  | selection (s : Selection) (fault : SelectionFault)
  /-- No call can stand where the expression stands, which is in a node of this form. -/
  | context (parent : Form)
  | invalidName (name : String)
  | nameTaken (name : String)
  /-- The lines do not add up to the size of the text. -/
  | layout (expected actual : Nat)
deriving DecidableEq, Repr

def LiftFault.message : LiftFault → String
  | .selection s fault => "invalid selection " ++ s.text ++ ": " ++ fault.message
  | .context parent => "cannot extract an expression used as the operand of a " ++ parent.describe
  | .invalidName name => "`" ++ name ++ "` is not a valid Go function name"
  | .nameTaken name => "`" ++ name ++ "` is already declared in this file"
  | .layout expected actual =>
    "layout inconsistency: expected document size " ++ toString expected ++
      ", line table sums to " ++ toString actual

end FuncLift
