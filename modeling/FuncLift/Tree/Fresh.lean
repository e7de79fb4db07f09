import FuncLift.Tree

/-!
# New nodes

Nodes made by an edit take the next free numbers. They have no place in the text until they are laid
out, so their spans are unset.
-/
namespace FuncLift

/-- Building with a supply of numbers; the state is the next free one. -/
abbrev Fresh := StateM Nat

namespace Fresh

def tag : Fresh Tag := modifyGet fun n => (⟨n, .unset⟩, n + 1)

def name (text : String) : Fresh Name := return ⟨← tag, text⟩

def ident (text : String) : Fresh Expr := return .ident (← tag) text

def idents : List String → Fresh (List Expr)
  | [] => return []
  | s :: ss => do
    let e ← ident s
    return e :: (← idents ss)

def names : List String → Fresh (List Name)
  | [] => return []
  | s :: ss => do
    let n ← name s
    return n :: (← names ss)

end Fresh

end FuncLift
