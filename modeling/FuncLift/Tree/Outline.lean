import FuncLift.Tree

/-!
# Outlines

An outline is the uniform view of a tree: every node with its form, its tag and its children in the
order in which a walk meets them. Names are no nodes of it.
-/
namespace FuncLift

inductive Family where
  | decl | spec | func | signature | field | block | stmt | simple | expr | type
  | clause | comm | comment | commentGroup
deriving DecidableEq, Repr

def Family.name : Family → String
  | .decl => "Decl" | .spec => "Spec" | .func => "Func" | .signature => "Signature"
  | .field => "Field" | .block => "Block" | .stmt => "Stmt" | .simple => "SimpleStmt"
  | .expr => "Expr" | .type => "Type" | .clause => "SwitchClause" | .comm => "CommClause"
  | .comment => "Comment" | .commentGroup => "CommentGroup"

/-- What a node is, down to the alternative of its family. -/
inductive Form where
  | decl | importSpec | valueSpec | typeSpec | func | signature | field | block
  | simpleStmt | declStmt | labeledStmt | goStmt | deferStmt | returnStmt | branchStmt | blockStmt
  | ifStmt | forStmt | switchStmt | typeSwitchStmt | selectStmt
  | exprSimple | sendSimple | stepSimple | assignSimple | defineSimple
  | ident | lit | funcLit | composite | paren | selector | index | slice | assert | call | unary
  | binary | typeOperand | type | clause | comm | comment | commentGroup
deriving DecidableEq, Repr

namespace Form

def family : Form → Family
  | .decl => .decl
  | .importSpec | .valueSpec | .typeSpec => .spec
  | .func => .func
  | .signature => .signature
  | .field => .field
  | .block => .block
  | .simpleStmt | .declStmt | .labeledStmt | .goStmt | .deferStmt | .returnStmt | .branchStmt
  | .blockStmt | .ifStmt | .forStmt | .switchStmt | .typeSwitchStmt | .selectStmt => .stmt
  | .exprSimple | .sendSimple | .stepSimple | .assignSimple | .defineSimple => .simple
  | .ident | .lit | .funcLit | .composite | .paren | .selector | .index | .slice | .assert
  | .call | .unary | .binary | .typeOperand => .expr
  | .type => .type
  | .clause => .clause
  | .comm => .comm
  | .comment => .comment
  | .commentGroup => .commentGroup

def describe : Form → String
  | .decl => "declaration"
  | .importSpec => "import spec"
  | .valueSpec => "value spec"
  | .typeSpec => "type spec"
  | .func => "function declaration"
  | .signature => "signature"
  | .field => "field"
  | .block => "block"
  | .simpleStmt => "simple statement"
  | .declStmt => "declaration statement"
  | .labeledStmt => "labeled statement"
  | .goStmt => "go statement"
  | .deferStmt => "defer statement"
  | .returnStmt => "return statement"
  | .branchStmt => "branch statement"
  | .blockStmt => "block statement"
  | .ifStmt => "if statement"
  | .forStmt => "for statement"
  | .switchStmt => "switch statement"
  | .typeSwitchStmt => "type switch statement"
  | .selectStmt => "select statement"
  | .exprSimple => "expression statement"
  | .sendSimple => "send statement"
  | .stepSimple => "inc/dec statement"
  | .assignSimple => "assignment"
  | .defineSimple => "short variable declaration"
  | .ident => "identifier"
  | .lit => "literal"
  | .funcLit => "function literal"
  | .composite => "composite literal"
  | .paren => "parenthesized expression"
  | .selector => "selector expression"
  | .index => "index expression"
  | .slice => "slice expression"
  | .assert => "type assertion"
  | .call => "call expression"
  | .unary => "unary expression"
  | .binary => "binary expression"
  | .typeOperand => "type expression"
  | .type => "type expression"
  | .clause => "case clause"
  | .comm => "select case"
  | .comment => "comment"
  | .commentGroup => "comment"

end Form

def Expr.form : Expr → Form
  | .ident .. => .ident
  | .lit .. => .lit
  | .funcLit .. => .funcLit
  | .composite .. => .composite
  | .paren .. => .paren
  | .selector .. => .selector
  | .index .. => .index
  | .slice .. => .slice
  | .assert .. => .assert
  | .call .. => .call
  | .unary .. => .unary
  | .binary .. => .binary
  | .type .. => .typeOperand

def Simple.form : Simple → Form
  | .expr .. => .exprSimple
  | .send .. => .sendSimple
  | .step .. => .stepSimple
  | .assign .. => .assignSimple
  | .define .. => .defineSimple

def Stmt.form : Stmt → Form
  | .simple .. => .simpleStmt
  | .decl .. => .declStmt
  | .labeled .. => .labeledStmt
  | .go .. => .goStmt
  | .defer .. => .deferStmt
  | .ret .. => .returnStmt
  | .branch .. => .branchStmt
  | .block .. => .blockStmt
  | .ifElse .. => .ifStmt
  | .loop .. => .forStmt
  | .switch .. => .switchStmt
  | .typeSwitch .. => .typeSwitchStmt
  | .select .. => .selectStmt

def Spec.form : Spec → Form
  | .imports .. => .importSpec
  | .values .. => .valueSpec
  | .type .. => .typeSpec

/-- A node of any family. -/
inductive Node where
  | decl (d : Decl)
  | spec (s : Spec)
  | func (f : FuncDecl)
  | signature (s : Signature)
  | field (f : Field)
  | block (b : Block)
  | stmt (s : Stmt)
  | simple (s : Simple)
  | expr (e : Expr)
  | type (t : TypeExpr)
  | clause (c : Clause)
  | comm (c : Comm)
  | comment (c : Comment)
  | commentGroup (g : CommentGroup)

namespace Node

def form : Node → Form
  | .decl _ => .decl
  | .spec s => s.form
  | .func _ => .func
  | .signature _ => .signature
  | .field _ => .field
  | .block _ => .block
  | .stmt s => s.form
  | .simple s => s.form
  | .expr e => e.form
  | .type _ => .type
  | .clause _ => .clause
  | .comm _ => .comm
  | .comment _ => .comment
  | .commentGroup _ => .commentGroup

def tag : Node → Tag
  | .decl d => d.tag
  | .spec s => s.tag
  | .func f => f.tag
  | .signature s => s.tag
  | .field f => f.tag
  | .block b => b.tag
  | .stmt s => s.tag
  | .simple s => s.tag
  | .expr e => e.tag
  | .type t => t.tag
  | .clause c => c.tag
  | .comm c => c.tag
  | .comment c => c.tag
  | .commentGroup g => g.tag

def span (n : Node) : Span := n.tag.span

def family (n : Node) : Family := n.form.family

def describe (n : Node) : String := n.form.describe

def isComment (n : Node) : Bool := n.family == .comment || n.family == .commentGroup

end Node

/-- A node with the outlines of its children. -/
inductive Outline where
  | node (content : Node) (children : List Outline)

namespace Outline

def content : Outline → Node
  | .node n _ => n

def children : Outline → List Outline
  | .node _ cs => cs

def span (o : Outline) : Span := o.content.span

mutual

def ofExpr : Expr → Outline
  | x@(.ident _ _) => .node (.expr x) []
  | x@(.lit _ _ _) => .node (.expr x) []
  | x@(.funcLit _ sig body) => .node (.expr x) [ofSignature sig, ofBlock body]
  | x@(.composite _ type elems) => .node (.expr x) (ofTypeOption type ++ ofElements elems)
  | x@(.paren _ e) => .node (.expr x) [ofExpr e]
  | x@(.selector _ e _) => .node (.expr x) [ofExpr e]
  | x@(.index _ e i) => .node (.expr x) [ofExpr e, ofExpr i]
  | x@(.slice _ e lo hi max) => .node (.expr x)
      (ofExpr e :: (ofExprOption lo ++ ofExprOption hi ++ ofExprOption max))
  | x@(.assert _ e type) => .node (.expr x) (ofExpr e :: ofTypeOption type)
  | x@(.call _ callee args _) => .node (.expr x) (ofExpr callee :: ofExprs args)
  | x@(.unary _ _ e) => .node (.expr x) [ofExpr e]
  | x@(.binary _ l _ r) => .node (.expr x) [ofExpr l, ofExpr r]
  | x@(.type _ type) => .node (.expr x) [ofType type]

def ofExprOption : Option Expr → List Outline
  | none => []
  | some e => [ofExpr e]

def ofExprs : List Expr → List Outline
  | [] => []
  | e :: es => ofExpr e :: ofExprs es

def ofElement : Element → List Outline
  | ⟨key, value⟩ => ofExprOption key ++ [ofExpr value]

def ofElements : List Element → List Outline
  | [] => []
  | e :: es => ofElement e ++ ofElements es

def ofType : TypeExpr → Outline
  | x@(.named _ _ _) => .node (.type x) []
  | x@(.pointer _ e) => .node (.type x) [ofType e]
  | x@(.slice _ e) => .node (.type x) [ofType e]
  | x@(.array _ len e) => .node (.type x) (ofExprOption len ++ [ofType e])
  | x@(.map _ k v) => .node (.type x) [ofType k, ofType v]
  | x@(.chan _ _ e) => .node (.type x) [ofType e]
  | x@(.func _ sig) => .node (.type x) [ofSignature sig]
  | x@(.struct _ fields) => .node (.type x) (ofFields fields)
  | x@(.interface _ methods) => .node (.type x) (ofFields methods)

def ofTypeOption : Option TypeExpr → List Outline
  | none => []
  | some t => [ofType t]

def ofTypes : List TypeExpr → List Outline
  | [] => []
  | t :: ts => ofType t :: ofTypes ts

def ofField : Field → Outline
  | x@⟨_, _, type, _, _⟩ => .node (.field x) [ofType type]

def ofFields : List Field → List Outline
  | [] => []
  | f :: fs => ofField f :: ofFields fs

def ofSignature : Signature → Outline
  | x@⟨_, params, results⟩ => .node (.signature x) (ofFields params ++ ofFields results)

def ofBlock : Block → Outline
  | x@⟨_, stmts⟩ => .node (.block x) (ofStmts stmts)

def ofSimple : Simple → Outline
  | x@(.expr _ e) => .node (.simple x) [ofExpr e]
  | x@(.send _ c v) => .node (.simple x) [ofExpr c, ofExpr v]
  | x@(.step _ e _) => .node (.simple x) [ofExpr e]
  | x@(.assign _ l _ r) => .node (.simple x) (ofExprs l ++ ofExprs r)
  | x@(.define _ _ vs) => .node (.simple x) (ofExprs vs)

def ofSimpleOption : Option Simple → List Outline
  | none => []
  | some s => [ofSimple s]

def ofStmt : Stmt → Outline
  | x@(.simple _ s) => .node (.stmt x) [ofSimple s]
  | x@(.decl _ d) => .node (.stmt x) [ofDecl d]
  | x@(.labeled _ _ s) => .node (.stmt x) [ofStmt s]
  | x@(.go _ e) => .node (.stmt x) [ofExpr e]
  | x@(.defer _ e) => .node (.stmt x) [ofExpr e]
  | x@(.ret _ es) => .node (.stmt x) (ofExprs es)
  | x@(.branch _ _ _) => .node (.stmt x) []
  | x@(.block _ b) => .node (.stmt x) [ofBlock b]
  | x@(.ifElse _ init cond yes no) => .node (.stmt x)
      (ofSimpleOption init ++ ofExpr cond :: ofBlock yes :: ofStmtOption no)
  | x@(.loop _ head body) => .node (.stmt x) (ofLoopHead head ++ [ofBlock body])
  | x@(.switch _ init subject cs) => .node (.stmt x)
      (ofSimpleOption init ++ ofExprOption subject ++ ofClauses cs)
  | x@(.typeSwitch _ init _ guard cs) => .node (.stmt x)
      (ofSimpleOption init ++ ofExpr guard :: ofClauses cs)
  | x@(.select _ cs) => .node (.stmt x) (ofComms cs)

def ofStmtOption : Option Stmt → List Outline
  | none => []
  | some s => [ofStmt s]

def ofStmts : List Stmt → List Outline
  | [] => []
  | s :: ss => ofStmt s :: ofStmts ss

def ofLoopHead : LoopHead → List Outline
  | .forever => []
  | .cond e => [ofExpr e]
  | .clause init cond post => ofSimpleOption init ++ ofExprOption cond ++ ofSimpleOption post
  | .range key value _ e => ofExprOption key ++ ofExprOption value ++ [ofExpr e]

def ofCases : Cases → List Outline
  | .default => []
  | .exprs es => ofExprs es
  | .types ts => ofTypes ts

def ofClause : Clause → Outline
  | x@⟨_, cases, stmts⟩ => .node (.clause x) (ofCases cases ++ ofStmts stmts)

def ofClauses : List Clause → List Outline
  | [] => []
  | c :: cs => ofClause c :: ofClauses cs

def ofComm : Comm → Outline
  | x@⟨_, comm, stmts⟩ => .node (.comm x) (ofSimpleOption comm ++ ofStmts stmts)

def ofComms : List Comm → List Outline
  | [] => []
  | c :: cs => ofComm c :: ofComms cs

def ofDecl : Decl → Outline
  | x@⟨_, _, _, specs⟩ => .node (.decl x) (ofSpecs specs)

def ofSpec : Spec → Outline
  | x@(.imports _ _ _) => .node (.spec x) []
  | x@(.values _ _ type vs) => .node (.spec x) (ofTypeOption type ++ ofExprs vs)
  | x@(.type _ _ _ type) => .node (.spec x) [ofType type]

def ofSpecs : List Spec → List Outline
  | [] => []
  | s :: ss => ofSpec s :: ofSpecs ss

end

def ofFunc (f : FuncDecl) : Outline :=
  .node (.func f)
    ((f.recv.map ofField).toList ++ ofSignature f.sig :: (f.body.map ofBlock).toList)

def ofTopDecl : TopDecl → Outline
  | .decl d => ofDecl d
  | .func f => ofFunc f

def ofComment (c : Comment) : Outline := .node (.comment c) []

def ofCommentGroup (g : CommentGroup) : Outline :=
  .node (.commentGroup g) (g.comments.map ofComment)

/-- The top-level nodes of a file: its declarations, then its comment groups. -/
def ofFile (f : SourceFile) : List Outline := f.decls.map ofTopDecl ++ f.comments.map ofCommentGroup

end Outline

namespace Node

/-- The outline of a node. -/
def outline : Node → Outline
  | .decl d => .ofDecl d
  | .spec s => .ofSpec s
  | .func f => .ofFunc f
  | .signature s => .ofSignature s
  | .field f => .ofField f
  | .block b => .ofBlock b
  | .stmt s => .ofStmt s
  | .simple s => .ofSimple s
  | .expr e => .ofExpr e
  | .type t => .ofType t
  | .clause c => .ofClause c
  | .comm c => .ofComm c
  | .comment c => .ofComment c
  | .commentGroup g => .ofCommentGroup g

/-- The nodes right below a node. -/
def children (n : Node) : List Node := n.outline.children.map Outline.content

end Node

namespace Outline

mutual

/-- The node and all below it with their depths, parents before children. -/
def walk (depth : Nat) : Outline → List (Nat × Outline)
  | .node n cs => (depth, .node n cs) :: walkAll (depth + 1) cs

def walkAll (depth : Nat) : List Outline → List (Nat × Outline)
  | [] => []
  | o :: os => walk depth o ++ walkAll depth os

end

/-- All nodes of an outline, itself first. -/
def nodes (o : Outline) : List Node := (o.walk 0).map fun (_, n) => n.content

/-- How many nodes, itself included, have a form. -/
def count (f : Form) (o : Outline) : Nat := o.nodes.countP fun n => n.form == f

end Outline

/-- All nodes of a file in walk order. -/
def SourceFile.nodes (f : SourceFile) : List Node :=
  (Outline.walkAll 0 (Outline.ofFile f)).map fun (_, n) => n.content

end FuncLift
