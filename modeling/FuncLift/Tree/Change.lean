import FuncLift.Tree

/-!
# Changes of a tree

A change says what happens to the tags of a tree, which of its expressions are replaced, and what
becomes of its lists of statements. Carrying it out keeps everything else.
-/
namespace FuncLift

/-- A change. Lists of statements are found by the tag number of the node that holds them, and are
changed after their statements were. An expression is replaced as a whole. -/
structure Change where
  onTag : Tag → Tag
  onExpr : Expr → Option Expr
  onStmts : Nat → List Stmt → List Stmt

namespace Change

/-- Changes nothing but tags. -/
def tags (f : Tag → Tag) : Change := ⟨f, fun _ => none, fun _ ss => ss⟩

/-- Puts an expression in the place of the one with a tag number. -/
def replaceExpr (id : Nat) (new : Expr) : Change :=
  ⟨fun t => t, fun e => if e.tag.id = id then some new else none, fun _ ss => ss⟩

/-- Puts a statement in the place of so many, of which the first has a tag number. -/
def spliceRun (first count : Nat) (new : Stmt) : List Stmt → List Stmt
  | [] => []
  | s :: ss =>
    if s.tag.id = first then new :: (s :: ss).drop count else s :: spliceRun first count new ss

/-- Replaces statements in the list of one node only. -/
def replaceRun (owner first count : Nat) (new : Stmt) : Change :=
  ⟨fun t => t, fun _ => none, fun id ss => if id = owner then spliceRun first count new ss else ss⟩

variable (c : Change)

def name (n : Name) : Name := { n with tag := c.onTag n.tag }

def names (ns : List Name) : List Name := ns.map c.name

def nameOption (n : Option Name) : Option Name := n.map c.name

mutual

def expr (e : Expr) : Expr :=
  match c.onExpr e with
  | some new => new
  | none =>
    match e with
    | .ident t n => .ident (c.onTag t) n
    | .lit t k x => .lit (c.onTag t) k x
    | .funcLit t sig body => .funcLit (c.onTag t) (signature sig) (block body)
    | .composite t type elems => .composite (c.onTag t) (typeOption type) (elements elems)
    | .paren t x => .paren (c.onTag t) (expr x)
    | .selector t x sel => .selector (c.onTag t) (expr x) (c.name sel)
    | .index t x i => .index (c.onTag t) (expr x) (expr i)
    | .slice t x lo hi max =>
      .slice (c.onTag t) (expr x) (exprOption lo) (exprOption hi) (exprOption max)
    | .assert t x type => .assert (c.onTag t) (expr x) (typeOption type)
    | .call t callee args spread => .call (c.onTag t) (expr callee) (exprs args) spread
    | .unary t op x => .unary (c.onTag t) op (expr x)
    | .binary t l op r => .binary (c.onTag t) (expr l) op (expr r)
    | .type t type => .type (c.onTag t) (typeExpr type)

def exprOption : Option Expr → Option Expr
  | none => none
  | some e => some (expr e)

def exprs : List Expr → List Expr
  | [] => []
  | e :: es => expr e :: exprs es

def element : Element → Element
  | ⟨key, value⟩ => ⟨exprOption key, expr value⟩

def elements : List Element → List Element
  | [] => []
  | e :: es => element e :: elements es

def typeExpr : TypeExpr → TypeExpr
  | .named t pkg n => .named (c.onTag t) pkg n
  | .pointer t x => .pointer (c.onTag t) (typeExpr x)
  | .slice t x => .slice (c.onTag t) (typeExpr x)
  | .array t len x => .array (c.onTag t) (exprOption len) (typeExpr x)
  | .map t k v => .map (c.onTag t) (typeExpr k) (typeExpr v)
  | .chan t dir x => .chan (c.onTag t) dir (typeExpr x)
  | .func t sig => .func (c.onTag t) (signature sig)
  | .struct t fs => .struct (c.onTag t) (fields fs)
  | .interface t fs => .interface (c.onTag t) (fields fs)

def typeOption : Option TypeExpr → Option TypeExpr
  | none => none
  | some t => some (typeExpr t)

def types : List TypeExpr → List TypeExpr
  | [] => []
  | t :: ts => typeExpr t :: types ts

def field : Field → Field
  | ⟨t, ns, type, variadic, label⟩ => ⟨c.onTag t, c.names ns, typeExpr type, variadic, label⟩

def fields : List Field → List Field
  | [] => []
  | f :: fs => field f :: fields fs

def signature : Signature → Signature
  | ⟨t, params, results⟩ => ⟨c.onTag t, fields params, fields results⟩

def block : Block → Block
  | ⟨t, ss⟩ => ⟨c.onTag t, c.onStmts t.id (stmts ss)⟩

def simple : Simple → Simple
  | .expr t e => .expr (c.onTag t) (expr e)
  | .send t ch v => .send (c.onTag t) (expr ch) (expr v)
  | .step t e op => .step (c.onTag t) (expr e) op
  | .assign t l op r => .assign (c.onTag t) (exprs l) op (exprs r)
  | .define t ns vs => .define (c.onTag t) (c.names ns) (exprs vs)

def simpleOption : Option Simple → Option Simple
  | none => none
  | some s => some (simple s)

def stmt : Stmt → Stmt
  | .simple t s => .simple (c.onTag t) (simple s)
  | .decl t d => .decl (c.onTag t) (decl d)
  | .labeled t n s => .labeled (c.onTag t) (c.name n) (stmt s)
  | .go t e => .go (c.onTag t) (expr e)
  | .defer t e => .defer (c.onTag t) (expr e)
  | .ret t es => .ret (c.onTag t) (exprs es)
  | .branch t kind n => .branch (c.onTag t) kind (c.nameOption n)
  | .block t b => .block (c.onTag t) (block b)
  | .ifElse t init cond yes no =>
    .ifElse (c.onTag t) (simpleOption init) (expr cond) (block yes) (stmtOption no)
  | .loop t head body => .loop (c.onTag t) (loopHead head) (block body)
  | .switch t init subject cs =>
    .switch (c.onTag t) (simpleOption init) (exprOption subject) (clauses cs)
  | .typeSwitch t init bind guard cs =>
    .typeSwitch (c.onTag t) (simpleOption init) (c.nameOption bind) (expr guard) (clauses cs)
  | .select t cs => .select (c.onTag t) (comms cs)

def stmtOption : Option Stmt → Option Stmt
  | none => none
  | some s => some (stmt s)

def stmts : List Stmt → List Stmt
  | [] => []
  | s :: ss => stmt s :: stmts ss

def loopHead : LoopHead → LoopHead
  | .forever => .forever
  | .cond e => .cond (expr e)
  | .clause init cond post => .clause (simpleOption init) (exprOption cond) (simpleOption post)
  | .range key value define e => .range (exprOption key) (exprOption value) define (expr e)

def cases : Cases → Cases
  | .default => .default
  | .exprs es => .exprs (exprs es)
  | .types ts => .types (types ts)

def clause : Clause → Clause
  | ⟨t, cs, ss⟩ => ⟨c.onTag t, cases cs, c.onStmts t.id (stmts ss)⟩

def clauses : List Clause → List Clause
  | [] => []
  | x :: xs => clause x :: clauses xs

def comm : Comm → Comm
  | ⟨t, guard, ss⟩ => ⟨c.onTag t, simpleOption guard, c.onStmts t.id (stmts ss)⟩

def comms : List Comm → List Comm
  | [] => []
  | x :: xs => comm x :: comms xs

def decl : Decl → Decl
  | ⟨t, kind, grouped, ss⟩ => ⟨c.onTag t, kind, grouped, specs ss⟩

def spec : Spec → Spec
  | .imports t n path => .imports (c.onTag t) (c.nameOption n) path
  | .values t ns type vs => .values (c.onTag t) (c.names ns) (typeOption type) (exprs vs)
  | .type t n isAlias type => .type (c.onTag t) (c.name n) isAlias (typeExpr type)

def specs : List Spec → List Spec
  | [] => []
  | s :: ss => spec s :: specs ss

end

def func (f : FuncDecl) : FuncDecl :=
  ⟨c.onTag f.tag, f.recv.map c.field, c.name f.name, c.signature f.sig, f.body.map c.block⟩

def topDecl : TopDecl → TopDecl
  | .decl d => .decl (c.decl d)
  | .func f => .func (c.func f)

def comment (x : Comment) : Comment := { x with tag := c.onTag x.tag }

def commentGroup (g : CommentGroup) : CommentGroup := ⟨c.onTag g.tag, g.comments.map c.comment⟩

def sourceFile (f : SourceFile) : SourceFile :=
  ⟨c.onTag f.tag, c.name f.name, f.decls.map c.topDecl, f.comments.map c.commentGroup⟩

end Change

end FuncLift
