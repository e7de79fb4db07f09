import FuncLift.Text.Span
import FuncLift.Token.Scan
import FuncLift.Tree.Operator

/-!
# The tree of a source file

Every node owns its children and carries a tag: a number that no other node has, and its span. Names
that are not expressions (declared names, labels, selectors) are tagged in the same way. Texts are
kept in the tree, so that it can be written without the text it was read from.
-/
namespace FuncLift

structure Tag where
  id : Nat
  span : Span
deriving DecidableEq, Repr, Inhabited

structure Name where
  tag : Tag
  text : String
deriving DecidableEq, Repr, Inhabited

mutual
inductive Expr where
  | ident (tag : Tag) (name : String)
  | lit (tag : Tag) (kind : LitKind) (text : String)
  | funcLit (tag : Tag) (sig : Signature) (body : Block)
  | composite (tag : Tag) (type : Option TypeExpr) (elems : List Element)
  | paren (tag : Tag) (inner : Expr)
  | selector (tag : Tag) (operand : Expr) (sel : Name)
  | index (tag : Tag) (operand index : Expr)
  | slice (tag : Tag) (operand : Expr) (lo hi max : Option Expr)
  | assert (tag : Tag) (operand : Expr) (type : Option TypeExpr)
  | call (tag : Tag) (callee : Expr) (args : List Expr) (spread : Bool)
  | unary (tag : Tag) (op : UnaryOp) (operand : Expr)
  | binary (tag : Tag) (left : Expr) (op : BinaryOp) (right : Expr)
  | type (tag : Tag) (type : TypeExpr)

structure Element where
  key : Option Expr
  value : Expr

inductive TypeExpr where
  | named (tag : Tag) (pkg : Option String) (name : String)
  | pointer (tag : Tag) (elem : TypeExpr)
  | slice (tag : Tag) (elem : TypeExpr)
  | array (tag : Tag) (len : Option Expr) (elem : TypeExpr)
  | map (tag : Tag) (key value : TypeExpr)
  | chan (tag : Tag) (dir : ChanDir) (elem : TypeExpr)
  | func (tag : Tag) (sig : Signature)
  | struct (tag : Tag) (fields : List Field)
  | interface (tag : Tag) (methods : List Field)

structure Field where
  tag : Tag
  names : List Name
  type : TypeExpr
  variadic : Bool
  label : Option String

structure Signature where
  tag : Tag
  params : List Field
  results : List Field

structure Block where
  tag : Tag
  stmts : List Stmt

inductive Simple where
  | expr (tag : Tag) (e : Expr)
  | send (tag : Tag) (chan value : Expr)
  | step (tag : Tag) (e : Expr) (op : StepOp)
  | assign (tag : Tag) (lhs : List Expr) (op : AssignOp) (rhs : List Expr)
  | define (tag : Tag) (names : List Name) (values : List Expr)

inductive Stmt where
  | simple (tag : Tag) (s : Simple)
  | decl (tag : Tag) (d : Decl)
  | labeled (tag : Tag) (label : Name) (s : Stmt)
  | go (tag : Tag) (e : Expr)
  | defer (tag : Tag) (e : Expr)
  | ret (tag : Tag) (values : List Expr)
  | branch (tag : Tag) (kind : BranchKind) (label : Option Name)
  | block (tag : Tag) (b : Block)
  | ifElse (tag : Tag) (init : Option Simple) (cond : Expr) (yes : Block) (no : Option Stmt)
  | loop (tag : Tag) (head : LoopHead) (body : Block)
  | switch (tag : Tag) (init : Option Simple) (subject : Option Expr) (clauses : List Clause)
  | typeSwitch (tag : Tag) (init : Option Simple) (bind : Option Name) (guard : Expr)
      (clauses : List Clause)
  | select (tag : Tag) (clauses : List Comm)

inductive LoopHead where
  | forever
  | cond (e : Expr)
  | clause (init : Option Simple) (cond : Option Expr) (post : Option Simple)
  | range (key value : Option Expr) (define : Bool) (e : Expr)

inductive Cases where
  | default
  | exprs (es : List Expr)
  | types (ts : List TypeExpr)

structure Clause where
  tag : Tag
  cases : Cases
  stmts : List Stmt

structure Comm where
  tag : Tag
  comm : Option Simple
  stmts : List Stmt

structure Decl where
  tag : Tag
  kind : DeclKind
  grouped : Bool
  specs : List Spec

inductive Spec where
  | imports (tag : Tag) (name : Option Name) (path : String)
  | values (tag : Tag) (names : List Name) (type : Option TypeExpr) (values : List Expr)
  | type (tag : Tag) (name : Name) (isAlias : Bool) (type : TypeExpr)
end

structure FuncDecl where
  tag : Tag
  recv : Option Field
  name : Name
  sig : Signature
  body : Option Block

inductive TopDecl where
  | decl (d : Decl)
  | func (f : FuncDecl)

structure Comment where
  tag : Tag
  kind : CommentKind
  text : String
deriving DecidableEq, Repr

/-- Comments that belong together: no code stands between them, and no blank line. -/
structure CommentGroup where
  tag : Tag
  comments : List Comment
deriving DecidableEq, Repr

/-- A file. The tag is that of the package clause; the groups stand in the order of their starts. -/
structure SourceFile where
  tag : Tag
  name : Name
  decls : List TopDecl
  comments : List CommentGroup

namespace Expr

def tag : Expr → Tag
  | .ident t .. | .lit t .. | .funcLit t .. | .composite t .. | .paren t .. | .selector t ..
  | .index t .. | .slice t .. | .assert t .. | .call t .. | .unary t .. | .binary t ..
  | .type t .. => t

def span (e : Expr) : Span := e.tag.span

end Expr

namespace TypeExpr

def tag : TypeExpr → Tag
  | .named t .. | .pointer t .. | .slice t .. | .array t .. | .map t .. | .chan t ..
  | .func t .. | .struct t .. | .interface t .. => t

def span (t : TypeExpr) : Span := t.tag.span

end TypeExpr

namespace Simple

def tag : Simple → Tag
  | .expr t .. | .send t .. | .step t .. | .assign t .. | .define t .. => t

def span (s : Simple) : Span := s.tag.span

end Simple

namespace Stmt

def tag : Stmt → Tag
  | .simple t .. | .decl t .. | .labeled t .. | .go t .. | .defer t .. | .ret t ..
  | .branch t .. | .block t .. | .ifElse t .. | .loop t .. | .switch t .. | .typeSwitch t ..
  | .select t .. => t

def span (s : Stmt) : Span := s.tag.span

end Stmt

namespace Spec

def tag : Spec → Tag
  | .imports t .. | .values t .. | .type t .. => t

def span (s : Spec) : Span := s.tag.span

end Spec

namespace TopDecl

def tag : TopDecl → Tag
  | .decl d => d.tag
  | .func f => f.tag

def span (d : TopDecl) : Span := d.tag.span

end TopDecl

end FuncLift
