/-!
# Operators and small word classes

The closed vocabularies of the tree, each with its spelling.
-/
namespace FuncLift

inductive UnaryOp where
  | add | sub | not | xor | deref | addr | recv
deriving DecidableEq, Repr

def UnaryOp.spelling : UnaryOp → String
  | .add => "+" | .sub => "-" | .not => "!" | .xor => "^" | .deref => "*" | .addr => "&"
  | .recv => "<-"

inductive BinaryOp where
  | add | sub | mul | div | mod | and | or | xor | shl | shr | andNot | lAnd | lOr
  | eq | ne | lt | le | gt | ge
deriving DecidableEq, Repr

namespace BinaryOp

def all : List BinaryOp :=
  [.add, .sub, .mul, .div, .mod, .and, .or, .xor, .shl, .shr, .andNot, .lAnd, .lOr,
   .eq, .ne, .lt, .le, .gt, .ge]

def spelling : BinaryOp → String
  | .add => "+" | .sub => "-" | .mul => "*" | .div => "/" | .mod => "%" | .and => "&"
  | .or => "|" | .xor => "^" | .shl => "<<" | .shr => ">>" | .andNot => "&^" | .lAnd => "&&"
  | .lOr => "||" | .eq => "==" | .ne => "!=" | .lt => "<" | .le => "<=" | .gt => ">"
  | .ge => ">="

/-- From 1, which binds loosest, to 5. -/
def precedence : BinaryOp → Nat
  | .lOr => 1
  | .lAnd => 2
  | .eq | .ne | .lt | .le | .gt | .ge => 3
  | .add | .sub | .or | .xor => 4
  | .mul | .div | .mod | .shl | .shr | .and | .andNot => 5

def isComparison (op : BinaryOp) : Bool := op.precedence == 3

end BinaryOp

inductive AssignOp where
  | plain | add | sub | mul | div | mod | and | or | xor | shl | shr | andNot
deriving DecidableEq, Repr

def AssignOp.spelling : AssignOp → String
  | .plain => "=" | .add => "+=" | .sub => "-=" | .mul => "*=" | .div => "/=" | .mod => "%="
  | .and => "&=" | .or => "|=" | .xor => "^=" | .shl => "<<=" | .shr => ">>=" | .andNot => "&^="

inductive StepOp where
  | inc | dec
deriving DecidableEq, Repr

def StepOp.spelling : StepOp → String
  | .inc => "++" | .dec => "--"

inductive LitKind where
  | int | float | imag | rune | string
deriving DecidableEq, Repr

inductive ChanDir where
  | both | send | recv
deriving DecidableEq, Repr

inductive DeclKind where
  | imports | consts | types | vars
deriving DecidableEq, Repr

def DeclKind.spelling : DeclKind → String
  | .imports => "import" | .consts => "const" | .types => "type" | .vars => "var"

inductive BranchKind where
  | break_ | continue_ | goto | fallthrough
deriving DecidableEq, Repr

def BranchKind.spelling : BranchKind → String
  | .break_ => "break" | .continue_ => "continue" | .goto => "goto"
  | .fallthrough => "fallthrough"

end FuncLift
