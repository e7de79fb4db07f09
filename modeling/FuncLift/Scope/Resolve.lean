import FuncLift.Document
import FuncLift.Scope

/-!
# Resolving names

One walk over a file with a stack of open scopes. Names of the package are visible everywhere; a
name of a function is visible from its declaration to the end of the scope it was declared in, and
an inner one hides an outer one. A definition with `:=` declares only those of its names that its
scope does not have yet.
-/
namespace FuncLift

/-- Open scopes, the innermost first, each with its newest name first. -/
abbrev Frames := List (List (String × Nat))

def Frames.lookup? (fs : Frames) (name : String) : Option Nat := fs.findSome? (List.lookup name)

structure Resolver where
  table : Scopes
  frames : Frames

abbrev Resolve := StateM Resolver

namespace Resolve

def openScope : Resolve Unit := modify fun r => { r with frames := [] :: r.frames }

def closeScope : Resolve Unit := modify fun r => { r with frames := r.frames.tail }

def inScope (inner : Resolve Unit) : Resolve Unit := do
  openScope
  inner
  closeScope

def declaredHere (name : String) : Resolve Bool :=
  return ((← get).frames.head?.getD []).any fun (n, _) => n == name

def addBinding (b : Binding) : Resolve Nat := modifyGet fun r =>
  (r.table.bindings.length,
    { r with table := { r.table with bindings := r.table.bindings ++ [b] } })

/-- Declares a name in the innermost scope. The blank name declares nothing. -/
def declare (b : Binding) : Resolve (Option Nat) := do
  if b.name = "_" then return none
  let n ← addBinding b
  modify fun r => match r.frames with
    | [] => { r with frames := [[(b.name, n)]] }
    | f :: fs => { r with frames := ((b.name, n) :: f) :: fs }
  return some n

def declarePackage (b : Binding) : Resolve Unit := do
  unless b.name = "_" do
    let n ← addBinding b
    modify fun r => { r with table := { r.table with package := (b.name, n) :: r.table.package } }

def use (id b : Nat) : Resolve Unit :=
  modify fun r => { r with table := { r.table with uses := (id, b) :: r.table.uses } }

def refer (id : Nat) (name : String) : Resolve Unit := do
  let r ← get
  match (r.frames.lookup? name).or (r.table.packageBinding? name) with
  | some b => use id b
  | none => pure ()

/-- Notes that a statement, if it is one of a list, adds a binding to the list's scope. -/
def noteDeclared (stmt : Option Nat) : Option Nat → Resolve Unit
  | none => pure ()
  | some b =>
    match stmt with
    | none => pure ()
    | some id =>
      modify fun r => { r with table := { r.table with declared := r.table.declared ++ [(id, b)] } }

def localVar (n : Name) (origin : Origin) (home : Nat) : Binding :=
  ⟨n.text, .localVar, origin, home, n.tag.span⟩

def paramNames (home : Nat) (type : TypeExpr) (variadic : Bool) (index : Nat) :
    List Name → Resolve Unit
  | [] => pure ()
  | n :: ns => do
    let _ ← declare (localVar n (.param type variadic index) home)
    paramNames home type variadic (index + 1) ns

def definedNames (stmt : Option Nat) (home names : Nat) (values : List Expr) (index : Nat) :
    List Name → Resolve Unit
  | [] => pure ()
  | n :: ns => do
    unless ← declaredHere n.text do
      noteDeclared stmt (← declare (localVar n (.define names values index) home))
    definedNames stmt home names values (index + 1) ns

def valueNames (stmt home names : Nat) (type : Option TypeExpr) (values : List Expr)
    (index : Nat) : List Name → Resolve Unit
  | [] => pure ()
  | n :: ns => do
    noteDeclared (some stmt) (← declare (localVar n (.value names type values index) home))
    valueNames stmt home names type values (index + 1) ns

/-- A variable of a range clause, if it is a plain identifier. -/
def rangeVar (home : Nat) (subject : Expr) (index : Nat) : Option Expr → Resolve Unit
  | some (.ident t n) => do
    match ← declare ⟨n, .localVar, .range subject index, home, t.span⟩ with
    | some b => use t.id b
    | none => pure ()
  | _ => pure ()

/-- Whether bare identifiers as keys of a literal name fields, and so refer to nothing. -/
def keysAreFields : Option TypeExpr → Bool
  | none | some (.named ..) | some (.struct ..) | some (.pointer ..) => true
  | _ => false

def isIdent : Option Expr → Bool
  | some (.ident ..) => true
  | _ => false

mutual

def expr : Expr → Resolve Unit
  | .ident t n => refer t.id n
  | .lit .. => pure ()
  | .funcLit _ sig ⟨_, body⟩ => inScope do
      signature sig
      stmts body
  | .composite _ type elems => do
    typeOption type
    elements (keysAreFields type) elems
  | .paren _ e | .selector _ e _ | .unary _ _ e => expr e
  | .index _ e i => do
    expr e
    expr i
  | .slice _ e lo hi max => do
    expr e
    exprOption lo
    exprOption hi
    exprOption max
  | .assert _ e type => do
    expr e
    typeOption type
  | .call _ callee args _ => do
    expr callee
    exprs args
  | .binary _ l _ r => do
    expr l
    expr r
  | .type _ t => typeExpr t

def exprOption : Option Expr → Resolve Unit
  | none => pure ()
  | some e => expr e

def exprs : List Expr → Resolve Unit
  | [] => pure ()
  | e :: es => do
    expr e
    exprs es

def elements (fields : Bool) : List Element → Resolve Unit
  | [] => pure ()
  | ⟨key, value⟩ :: es => do
    unless fields && isIdent key do exprOption key
    expr value
    elements fields es

/-- Types declare nothing; of values only array lengths refer to any. -/
def typeExpr : TypeExpr → Resolve Unit
  | .named .. => pure ()
  | .pointer _ t | .slice _ t | .chan _ _ t => typeExpr t
  | .array _ len t => do
    exprOption len
    typeExpr t
  | .map _ k v => do
    typeExpr k
    typeExpr v
  | .func _ ⟨_, params, results⟩ => do
    fieldTypes params
    fieldTypes results
  | .struct _ fields | .interface _ fields => fieldTypes fields

def typeOption : Option TypeExpr → Resolve Unit
  | none => pure ()
  | some t => typeExpr t

def typeExprs : List TypeExpr → Resolve Unit
  | [] => pure ()
  | t :: ts => do
    typeExpr t
    typeExprs ts

def fieldTypes : List Field → Resolve Unit
  | [] => pure ()
  | ⟨_, _, type, _, _⟩ :: fs => do
    typeExpr type
    fieldTypes fs

/-- Declares the names of parameters, results or a receiver. -/
def fields : List Field → Resolve Unit
  | [] => pure ()
  | ⟨t, ns, type, variadic, _⟩ :: fs => do
    typeExpr type
    paramNames t.id type variadic 0 ns
    fields fs

def signature : Signature → Resolve Unit
  | ⟨_, params, results⟩ => do
    fields params
    fields results

/-- What a simple statement declares belongs to the list of the given statement, if there is one. -/
def simple (stmt : Option Nat) : Simple → Resolve Unit
  | .expr _ e | .step _ e _ => expr e
  | .send _ c v => do
    expr c
    expr v
  | .assign _ l _ r => do
    exprs l
    exprs r
  | .define t ns values => do
    exprs values
    definedNames stmt t.id ns.length values 0 ns

def simpleOption : Option Simple → Resolve Unit
  | none => pure ()
  | some s => simple none s

def stmt : Stmt → Resolve Unit
  | .simple t s => simple (some t.id) s
  | .decl t ⟨_, _, _, ss⟩ => specs t.id ss
  | .labeled _ _ s => stmt s
  | .go _ e | .defer _ e => expr e
  | .ret _ es => exprs es
  | .branch .. => pure ()
  | .block _ ⟨_, body⟩ => inScope (stmts body)
  | .ifElse _ init cond ⟨_, yes⟩ no => inScope do
      simpleOption init
      expr cond
      inScope (stmts yes)
      stmtOption no
  | .loop t head ⟨_, body⟩ => inScope do
      loopHead t.id head
      inScope (stmts body)
  | .switch _ init subject cs => inScope do
      simpleOption init
      exprOption subject
      clauses cs
  | .typeSwitch t init bind guard cs => inScope do
      simpleOption init
      expr guard
      typeClauses t.id bind cs
  | .select _ cs => comms cs

def stmtOption : Option Stmt → Resolve Unit
  | none => pure ()
  | some s => stmt s

def stmts : List Stmt → Resolve Unit
  | [] => pure ()
  | s :: ss => do
    stmt s
    stmts ss

def loopHead (home : Nat) : LoopHead → Resolve Unit
  | .forever => pure ()
  | .cond e => expr e
  | .clause init cond post => do
    simpleOption init
    exprOption cond
    simpleOption post
  | .range key value true e => do
    expr e
    rangeVar home e 0 key
    rangeVar home e 1 value
  | .range key value false e => do
    expr e
    exprOption key
    exprOption value

def clauses : List Clause → Resolve Unit
  | [] => pure ()
  | ⟨_, .exprs es, body⟩ :: cs => do
    inScope do
      exprs es
      stmts body
    clauses cs
  | ⟨_, _, body⟩ :: cs => do
    inScope (stmts body)
    clauses cs

/-- Every clause of a type switch has a variable of its own. -/
def typeClauses (home : Nat) (bind : Option Name) : List Clause → Resolve Unit
  | [] => pure ()
  | ⟨_, .types ts, body⟩ :: cs => do
    inScope do
      typeExprs ts
      bindClause home bind
      stmts body
    typeClauses home bind cs
  | ⟨_, _, body⟩ :: cs => do
    inScope do
      bindClause home bind
      stmts body
    typeClauses home bind cs
where
  bindClause (home : Nat) : Option Name → Resolve Unit
    | none => pure ()
    | some n => do
      let _ ← declare (localVar n .typeSwitch home)

def comms : List Comm → Resolve Unit
  | [] => pure ()
  | ⟨_, guard, body⟩ :: cs => do
    inScope do
      simpleOption guard
      stmts body
    comms cs

/-- Declarations of a statement inside a function. -/
def specs (home : Nat) : List Spec → Resolve Unit
  | [] => pure ()
  | .values t ns type values :: ss => do
    typeOption type
    exprs values
    valueNames home t.id ns.length type values 0 ns
    specs home ss
  | .type t n _ type :: ss => do
    noteDeclared (some home) (← declare ⟨n.text, .typeName, .typeSpec, t.id, n.tag.span⟩)
    typeExpr type
    specs home ss
  | .imports .. :: ss => specs home ss

end

def func (f : FuncDecl) : Resolve Unit := inScope do
  fields f.recv.toList
  signature f.sig
  stmts ((f.body.map Block.stmts).getD [])

/-- The part of an import path behind its last slash, without the quotes. -/
def lastComponent (path : String) : String :=
  let isQuote := fun c => c == '"' || c == '\x60'
  let inner := ((path.toList.dropWhile isQuote).reverse.dropWhile isQuote).reverse
  String.ofList (inner.reverse.takeWhile (· != '/')).reverse

/-- The name under which an import is visible. An import without a name of its own has the last part
of its path; if that text occurs nowhere, nothing refers to it and there is no binding. -/
def importName? (vocabulary : Vocabulary) (span : Span) (name : Option Name) (path : String) :
    Option (String × Span) :=
  match name with
  | some n => if n.text = "." then none else some (n.text, n.tag.span)
  | none =>
    let last := lastComponent path
    if (vocabulary.get? last).isSome && last != "." then some (last, span) else none

def globalNames (home names : Nat) (type : Option TypeExpr) (values : List Expr) (index : Nat) :
    List Name → Resolve Unit
  | [] => pure ()
  | n :: ns => do
    declarePackage ⟨n.text, .globalVar, .value names type values index, home, n.tag.span⟩
    globalNames home names type values (index + 1) ns

def packageSpec (vocabulary : Vocabulary) : Spec → Resolve Unit
  | .imports t n path =>
    match importName? vocabulary t.span n path with
    | some (name, span) => declarePackage ⟨name, .package, .importSpec, t.id, span⟩
    | none => pure ()
  | .values t ns type values => globalNames t.id ns.length type values 0 ns
  | .type t n _ _ => declarePackage ⟨n.text, .typeName, .typeSpec, t.id, n.tag.span⟩

/-- Declares the package names of a declaration; methods have none. -/
def packageDecl (vocabulary : Vocabulary) : TopDecl → Resolve Unit
  | .decl d => d.specs.forM (packageSpec vocabulary)
  | .func f => do
    if f.recv.isNone then
      declarePackage ⟨f.name.text, .function, .func f.sig, f.tag.id, f.name.tag.span⟩

def packageValues : Spec → Resolve Unit
  | .imports .. => pure ()
  | .values _ _ type values => do
    typeOption type
    exprs values
  | .type _ _ _ type => typeExpr type

def topDecl : TopDecl → Resolve Unit
  | .decl d => d.specs.forM packageValues
  | .func f => func f

end Resolve

namespace Document

/-- The bindings of a document and what its identifiers refer to. -/
def scopes (d : Document) : Scopes :=
  let walk : Resolve Unit := do
    d.file.decls.forM (Resolve.packageDecl d.vocabulary)
    d.file.decls.forM Resolve.topDecl
  (walk.run ⟨.empty, []⟩).2.table

end Document

end FuncLift
