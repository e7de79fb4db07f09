import FuncLift.Proofs.Held
import FuncLift.Proofs.Named

/-!
# What is in sight

The scopes around a node are opened by nodes above it, and in each of them those names are in sight
that were declared before the node: by a definition, a declaration or a parameter in front of it, by
the range clause of the loop whose body it stands in, or by the type switch whose clause it stands
in. This is told from the tree alone, from the top down, by one rule: a child sees what its parent
sees, and what the parent and the children before it declare.
-/
namespace FuncLift

/-- What a node is to the node that it stands in. -/
inductive Role where
  /-- A declaration of the package or a part of it. -/
  | package
  /-- A function's signature or receiver, or a field of its signature: its names are parameters. -/
  | params
  /-- A block with a scope of its own; the body of a function shares the scope of its parameters. -/
  | scoped
  /-- A clause of a type switch. Every clause has the variable for itself. -/
  | typeClause (home : Nat) (bind : Option Name)
  | plain

/-- The role of a child of a node that has a role itself. -/
def Role.child : Role → Node → Node → Role
  | .package, .decl _, _ => .package
  | _, .func _, .field _ | _, .func _, .signature _ => .params
  | _, .expr (.funcLit ..), .signature _ => .params
  | .params, .signature _, _ => .params
  | _, .stmt (.typeSwitch t _ bind _ _), .clause _ => .typeClause t.id bind
  | _, .stmt _, .block _ => .scoped
  | _, _, _ => .plain

/-- A declared name: the node that declares it, for the variable of a type switch the clause, and the
binding that is made for it. -/
structure Intro where
  decl : Node
  binding : Binding

namespace Intro

def name (i : Intro) : String := i.binding.name

/-- Only a definition keeps to a name that its scope has. -/
def reuses (i : Intro) : Bool :=
  match i.binding.origin with
  | .define .. => true
  | _ => false

/-- The names of one declaration by their order. -/
def ofNames (decl : Node) (origin : Nat → Origin) (ns : List Name) : List Intro :=
  ns.zipIdx.map fun (n, k) => ⟨decl, Resolve.localVar n (origin k) decl.tag.id⟩

end Intro

def Simple.intros : Simple → List Intro
  | x@(.define _ ns values) => Intro.ofNames (.simple x) (.define ns.length values) ns
  | _ => []

def Spec.intros : Spec → List Intro
  | x@(.values _ ns ty vs) => Intro.ofNames (.spec x) (.value ns.length ty vs) ns
  | x@(.type t n _ _) => [⟨.spec x, ⟨n.text, .typeName, .typeSpec, t.id, n.tag.span⟩⟩]
  | .imports .. => []

def Field.intros : Field → List Intro
  | x@⟨_, ns, type, variadic, _⟩ => Intro.ofNames (.field x) (.param type variadic) ns

def Stmt.intros : Stmt → List Intro
  | .simple _ s => s.intros
  | .decl _ d => d.specs.flatMap Spec.intros
  | .labeled _ _ s => intros s
  | _ => []

/-- A variable of a range clause, if it is a plain name. -/
def Intro.ofRange (loop : Node) (subject : Expr) (k : Nat) : Option Expr → List Intro
  | some (.ident u n) => [⟨loop, ⟨n, .localVar, .range subject k, loop.tag.id, u.span⟩⟩]
  | _ => []

def Stmt.rangeIntros : Stmt → List Intro
  | x@(.loop _ (.range key value true subject) _) =>
    Intro.ofRange (.stmt x) subject 0 key ++ Intro.ofRange (.stmt x) subject 1 value
  | _ => []

namespace Node

def opens : Role → Node → Bool
  | _, .func _ | _, .expr (.funcLit ..) | .scoped, .block _ => true
  | _, .stmt (.ifElse ..) | _, .stmt (.loop ..) | _, .stmt (.switch ..)
  | _, .stmt (.typeSwitch ..) | _, .clause _ | _, .comm _ => true
  | _, _ => false

/-- The names that a node adds to the scope it stands in. -/
def intros : Role → Node → List Intro
  | .package, _ => []
  | _, .simple s => s.intros
  | _, .stmt s => s.intros
  | _, .decl d => d.specs.flatMap Spec.intros
  | _, .spec s => s.intros
  | .params, .signature s => (s.params ++ s.results).flatMap Field.intros
  | .params, .field f => f.intros
  | .plain, .block b => b.stmts.flatMap Stmt.intros
  | _, _ => []

/-- The names that a node declares itself in front of a child: a type in front of what it stands for,
the variables of a range clause in front of the body, the variable of a type switch in front of the
statements of each clause. -/
def shows : Role → Node → Node → List Intro
  | .package, _, _ => []
  | _, .spec s@(.type ..), _ => s.intros
  | _, .stmt s, .block _ => s.rangeIntros
  | .typeClause home (some n), c@(.clause _), .stmt _ => [⟨c, Resolve.localVar n .typeSwitch home⟩]
  | _, _, _ => []

/-- A child in which nothing is looked up: a bare key that names a field, a variable of a range clause
that defines, or the cases of a clause that belong to the other kind of switch. -/
def Skips : Role → Node → Node → Prop
  | _, .expr (.composite _ ty elems), .expr key =>
    Resolve.keysAreFields ty = true ∧ Resolve.isIdent (some key) = true ∧
      ∃ x ∈ elems, x.key = some key
  | _, .stmt (.loop _ (.range key value true _) _), .expr e => key = some e ∨ value = some e
  | .typeClause .., .clause _, .expr _ => True
  | .typeClause .., .clause _, .type _ => False
  | _, .clause _, .type _ => True
  | _, _, _ => False

end Node

/-- An open scope: the node that opens it, and the names that were declared in it so far. -/
structure Scope where
  node : Node
  names : List Intro

namespace Scope

/-- One more name, if it is not blank and not a name to keep to. -/
def keep (is : List Intro) (i : Intro) : List Intro :=
  if i.name = "_" ∨ (i.reuses = true ∧ ∃ j ∈ is, j.name = i.name) then is else is ++ [i]

/-- The names that got bindings, in the order of their declaration. -/
def bindings (s : Scope) : List Intro := s.names.foldl keep []

def last? (s : Scope) (name : String) : Option Intro := s.bindings.reverse.find? fun i => i.name == name

end Scope

/-- Scopes with further names in the innermost. -/
def declareAll (is : List Intro) : List Scope → List Scope
  | [] => []
  | s :: ss => ⟨s.node, s.names ++ is⟩ :: ss

/-- The scopes in a node, given those around it. -/
def enter (r : Role) (n : Node) (ss : List Scope) : List Scope :=
  if n.opens r then ⟨n, []⟩ :: ss else ss

/-- The scopes in sight at a node of a file, the innermost first. -/
inductive SourceFile.Sees (f : SourceFile) : Role → Node → List Scope → Prop
  | decl {d : Decl} (h : .decl d ∈ f.decls) : Sees f .package (.decl d) []
  | func {g : FuncDecl} (h : .func g ∈ f.decls) : Sees f .package (.func g) []
  | child {r : Role} {p c : Node} {ss : List Scope} {before behind : List Node} (h : Sees f r p ss)
      (hchild : p.children = before ++ c :: behind) (hlook : ¬p.Skips r c) :
      Sees f (r.child p c) c
        (declareAll (p.shows r c ++ before.flatMap fun x => x.intros (r.child p x)) (enter r p ss))

end FuncLift
