import FuncLift.Tree

/-!
# Bindings

A binding is a name that some declaration gives a meaning to. A table of scopes holds the bindings
of a file in the order of their declaration, and for every identifier the binding it refers to.
-/
namespace FuncLift

inductive BindingKind where
  | localVar | globalVar | typeName | function | package
deriving DecidableEq, Repr

/-- How a name was declared, with what its type depends on. The index counts the names of one
declaration. -/
inductive Origin where
  | define (names : Nat) (values : List Expr) (index : Nat)
  | value (names : Nat) (type : Option TypeExpr) (values : List Expr) (index : Nat)
  | param (type : TypeExpr) (variadic : Bool) (index : Nat)
  | range (subject : Expr) (index : Nat)
  | typeSwitch
  | func (sig : Signature)
  | typeSpec
  | importSpec

/-- A declared name. Its home is the number of the node that declares it, its span that of the name
there. -/
structure Binding where
  name : String
  kind : BindingKind
  origin : Origin
  home : Nat
  span : Span

/-- The bindings of a file by number; which of them the package scope holds, the last declaration of
a name first; the binding of every identifier by its tag number; and what each statement adds to the
scope it stands in. -/
structure Scopes where
  bindings : List Binding
  package : List (String × Nat)
  uses : List (Nat × Nat)
  declared : List (Nat × Nat)

namespace Scopes

def empty : Scopes := ⟨[], [], [], []⟩

def binding? (s : Scopes) (b : Nat) : Option Binding := s.bindings[b]?

/-- The binding that an identifier with this tag number refers to. -/
def bindingOf? (s : Scopes) (id : Nat) : Option Nat := s.uses.lookup id

def packageBinding? (s : Scopes) (name : String) : Option Nat := s.package.lookup name

/-- Bindings that the statement with this tag number makes visible to those after it. -/
def declaredBy (s : Scopes) (id : Nat) : List Nat :=
  s.declared.filterMap fun (stmt, b) => if stmt = id then some b else none

end Scopes

end FuncLift
