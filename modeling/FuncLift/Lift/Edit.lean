import FuncLift.Lift.Plan
import FuncLift.Tree.Change

/-!
# Edits

Carrying out a plan takes the region out of the tree, puts a call in its place and makes the region
the body of a new function. All that is new has no place in the text yet.
-/
namespace FuncLift

namespace Node

/-- The names that a node holds in a list. -/
def listedNames : Node → List Name
  | .spec (.values _ ns _ _) => ns
  | .simple (.define _ ns _) => ns
  | .field f => f.names
  | _ => []

/-- The names that a node holds outside of lists. -/
def inlineNames : Node → List Name
  | .spec (.imports _ n _) => n.toList
  | .spec (.type _ n _ _) => [n]
  | .func f => [f.name]
  | .stmt (.labeled _ n _) => [n]
  | .stmt (.branch _ _ n) => n.toList
  | .stmt (.typeSwitch _ _ n _ _) => n.toList
  | .expr (.selector _ _ n) => [n]
  | _ => []

def expr? : Node → Option Expr
  | .expr e => some e
  | _ => none

end Node

namespace Change

/-- Writes a node over one that differs from it in the expressions that it holds. -/
def write (old new : Node) : Change :=
  let held := old.children.zip new.children
  ⟨fun t => t, fun e => held.findSome? fun (a, b) =>
    if a.tag.id = e.tag.id ∧ b.tag.id ≠ a.tag.id then b.expr? else none, fun _ ss => ss⟩

end Change

/-- The numbers of nodes that move, and list by list those of the names that they hold in lists. -/
structure MovedSet where
  nodes : List Nat
  names : List (List Nat)

namespace MovedSet

def collect (ns : List Node) : MovedSet where
  nodes := ns.map fun n => n.tag.id
  names := (ns.map fun n => n.listedNames.map fun x => x.tag.id).filter fun ids => !ids.isEmpty

/-- Whether a name is in a list that moves. -/
def containsName (m : MovedSet) (id : Nat) : Bool := m.names.any fun ids => ids.contains id

end MovedSet

/-- What stands in the place of the region. -/
inductive Replacement where
  | expr (e : Expr)
  | stmt (s : Stmt)

def Replacement.node : Replacement → Node
  | .expr e => .expr e
  | .stmt s => .stmt s

/-- The file with the call in place, and apart from it the new function. -/
structure Edit where
  host : SourceFile
  function : FuncDecl
  replacement : Replacement
  /-- The span that the replacement takes over. -/
  old : Span
  /-- Numbers from here on belong to new nodes. -/
  watermark : Nat
  moved : MovedSet
  /-- The first node that moved. -/
  anchor : Option Node
  nextId : Nat
  /-- Texts that the new nodes hold. -/
  words : List String

/-- The file with the new function behind its other declarations. -/
def Edit.file (e : Edit) : SourceFile := { e.host with decls := e.host.decls ++ [.func e.function] }

def Region.anchor? (r : Region) : Option Node := r.roots.head?.map Outline.content

namespace Plan

variable (p : Plan)

/-- The call of the new function with the captured variables. -/
def call : Fresh Expr := do
  let callee ← Fresh.ident p.name
  let args ← Fresh.idents (p.params.map Capture.name)
  return .call (← Fresh.tag) callee args false

def outputNames : List String := p.outputs.map Capture.name

/-- The call as a statement, which defines the outputs if there are any. -/
def callStmt (call : Expr) : Fresh Stmt := do
  if p.outputs.isEmpty then
    return .simple (← Fresh.tag) (.expr (← Fresh.tag) call)
  let names ← Fresh.names p.outputNames
  return .simple (← Fresh.tag) (.define (← Fresh.tag) names [call])

/-- The body of the new function when it takes an expression. -/
def exprBody (e : Expr) : Fresh (List Stmt) := do
  if p.results.isEmpty then
    return [.simple (← Fresh.tag) (.expr (← Fresh.tag) e)]
  return [.ret (← Fresh.tag) [e]]

/-- The body of the new function when it takes statements. -/
def stmtsBody (stmts : List Stmt) : Fresh (List Stmt) := do
  if p.outputs.isEmpty then return stmts
  let values ← Fresh.idents p.outputNames
  return stmts ++ [.ret (← Fresh.tag) values]

/-- What replaces the region, how the tree changes, and the new body. -/
def surgery : Fresh (Replacement × Change × List Stmt) := do
  let call ← p.call
  match p.region with
  | .expression e parent slot =>
    let filled := slot.elim parent fun s => s.fill e.tag.id call parent
    return (.expr call, .write parent filled, ← p.exprBody e)
  | .statements stmts owner =>
    let s ← p.callStmt call
    let first := (stmts.head?.map fun s => s.tag.id).getD 0
    return (.stmt s, .replaceRun owner.node.tag.id first stmts.length s, ← p.stmtsBody stmts)

def paramFields : List Capture → Fresh (List Field)
  | [] => return []
  | c :: cs => do
    let f : Field := ⟨← Fresh.tag, [← Fresh.name c.name], ← c.type.node, false, none⟩
    return f :: (← paramFields cs)

/-- The new function with a body. -/
def function (body : List Stmt) : Fresh FuncDecl := do
  let params ← paramFields p.params
  let results ← Ty.fields false p.results
  let sig : Signature := ⟨← Fresh.tag, params, results⟩
  return ⟨← Fresh.tag, none, ← Fresh.name p.name, sig, some ⟨← Fresh.tag, body⟩⟩

def words : List String :=
  p.name :: p.params.map Capture.name ++ p.outputNames ++
    p.params.flatMap (fun c => c.type.words) ++ p.results.flatMap Ty.words

/-- Carries out a plan on the file it was made for. -/
def edit (d : Document) : Edit :=
  let build : Fresh Edit := do
    let (replacement, change, body) ← p.surgery
    let function ← p.function body
    return {
      host := change.sourceFile d.file
      function
      replacement
      old := p.region.span
      watermark := d.nextId
      moved := .collect p.region.nodes
      anchor := p.region.anchor?
      nextId := ← get
      words := p.words }
  (build.run d.nextId).1

end Plan

end FuncLift
