import FuncLift.Scope.Resolve
import FuncLift.Ty.Declared

/-!
# Deduced types

Types of expressions and variables, from declarations, literals and a few rules for built-in
functions; nothing is checked. The types of expressions are relative to those of the variables in
them. A variable whose type depends on itself is unresolved.
-/
namespace FuncLift

/-- What is known about the types of a document. -/
structure Typing where
  scopes : Scopes
  facts : TypeFacts

/-- What a call calls. -/
inductive Callee where
  | results (ts : List Ty)
  | builtin (name : String)
  | value (t : Ty)
  | unknown
  | other

def Expr.unresolved (e : Expr) : Ty := .unresolved (Ty.hint e.print)

/-- The default type of a literal. -/
def LitKind.type : LitKind → Ty
  | .int => .ofName "int"
  | .float => .ofName "float64"
  | .imag => .ofName "complex128"
  | .rune => .ofName "rune"
  | .string => .ofName "string"

def Expr.isLiteral : Expr → Bool
  | .lit .. => true
  | .paren _ e => e.isLiteral
  | _ => false

/-- Whether an expression can also yield a flag that tells if it succeeded. -/
def Expr.isCommaOk : Expr → Bool
  | .index .. | .assert .. | .unary _ .recv _ => true
  | .paren _ e => e.isCommaOk
  | _ => false

/-- A type that is the argument of a call. -/
def Expr.asType : Expr → Ty
  | .type _ t => t.denote
  | .ident _ n => .ofName n
  | .selector _ (.ident _ pkg) sel => .named (some pkg) sel.text
  | .paren _ e => e.asType
  | e => e.unresolved

namespace Typing

/-- The type of a name that nothing in the file declares. -/
def predeclaredType? (name : String) : Option Ty :=
  if name = "true" ∨ name = "false" then some (.ofName "bool")
  else if name = "iota" then some (.ofName "int")
  else if Ty.predeclared.contains name then some (.ofName name)
  else none

def isPackage (ty : Typing) : Expr → Bool
  | .ident t _ =>
    ((ty.scopes.bindingOf? t.id).bind ty.scopes.binding?).any fun b => b.kind == .package
  | _ => false

/-- The results of a built-in function, if there is one of this name for the arguments. The type of
the first argument is asked for only where it counts. -/
def builtinResults? (name : String) (args : List Expr) (first : Unit → Option Ty) :
    Option (List Ty) :=
  if ["len", "cap", "copy"].contains name then some [.ofName "int"]
  else if name = "new" then args.head?.map fun a => [.pointer a.asType]
  else if name = "make" then args.head?.map fun a => [a.asType]
  else if ["append", "min", "max"].contains name then (first ()).map fun t => [t]
  else if ["real", "imag"].contains name then some [.ofName "float64"]
  else if name = "complex" then some [.ofName "complex128"]
  else if name = "recover" then some [.literal "interface\x7b\x7d"]
  else if ["print", "println", "panic", "close", "delete", "clear"].contains name then some []
  else if Ty.predeclared.contains name then some [.ofName name]
  else none

/-- The results of a function value; what is no function has one result, and that is unresolved. -/
def valueResults (e : Expr) : Ty → List Ty
  | .func _ results _ => results
  | _ => [e.unresolved]

/-- The results of a call, of which the callee is known as far as its form tells. -/
def callResults (e : Expr) (callee : Callee) (self : Unit → Ty) (args : List Expr)
    (first : Unit → Option Ty) : List Ty :=
  match callee with
  | .results ts => ts
  | .builtin name => (builtinResults? name args first).getD [e.unresolved]
  | .value t => valueResults e t
  | .unknown => [e.unresolved]
  | .other => valueResults e (self ())

variable (ty : Typing) (varType : Nat → Ty)

/-- The callee with the name that a file may declare. -/
def namedCallee (id : Nat) (name : String) : Callee :=
  match ty.scopes.bindingOf? id with
  | none => .builtin name
  | some n =>
    match ty.scopes.binding? n with
    | none => .unknown
    | some b =>
      match b.kind, b.origin with
      | .function, .func sig => .results sig.resultTypes
      | .typeName, _ => .results [.ofName name]
      | .localVar, _ | .globalVar, _ => .value (varType n)
      | _, _ => .unknown

def identType (e : Expr) (id : Nat) (name : String) : Ty :=
  match ty.scopes.bindingOf? id with
  | none => (predeclaredType? name).getD e.unresolved
  | some n =>
    match ty.scopes.binding? n with
    | none => e.unresolved
    | some b =>
      match b.kind, b.origin with
      | .localVar, _ | .globalVar, _ => varType n
      | .typeName, _ => .ofName name
      | .function, .func sig => sig.denote
      | _, _ => e.unresolved

/-- A field comes before a method of its name. -/
def selectedType (e : Expr) (recv : Ty) (name : String) : Ty :=
  match ty.facts.field? recv name with
  | some t => t
  | none =>
    match ty.facts.method? recv name with
    | some sig => sig.denote
    | none => e.unresolved

/-- Where it is called, a method comes before a field of its name. -/
def selectedCallee (recv : Ty) (name : String) : Callee :=
  match ty.facts.method? recv name with
  | some sig => .results sig.resultTypes
  | none =>
    match ty.facts.field? recv name with
    | some t => .value t
    | none => .unknown

mutual

/-- The type of an expression where one value is wanted. -/
def typeOf : Expr → Ty
  | .lit _ kind _ => kind.type
  | x@(.ident t n) => ty.identType varType x t.id n
  | .funcLit _ sig _ => sig.denote
  | .composite _ (some t) elems =>
    match t.denote with
    | .array none e => .array (some (toString elems.length)) e
    | t => t
  | x@(.composite _ none _) => x.unresolved
  | .paren _ e => typeOf e
  | x@(.selector _ e sel) =>
    if ty.isPackage e then x.unresolved else ty.selectedType x (typeOf e) sel.text
  | x@(.index _ e _) => (ty.facts.elementType? (typeOf e)).getD x.unresolved
  | .slice _ e _ _ _ => ty.facts.slicedType (typeOf e)
  | .assert _ _ (some t) => t.denote
  | x@(.assert _ _ none) => x.unresolved
  | x@(.call _ callee args _) =>
    (callResults x (calleeOf callee) (fun _ => typeOf callee) args (fun _ => firstType args)).headD
      x.unresolved
  | x@(.unary _ op e) =>
    match op with
    | .addr => .pointer (typeOf e)
    | .deref =>
      match typeOf e with
      | .pointer t => t
      | _ => x.unresolved
    | .recv =>
      match ty.facts.underlying (typeOf e) with
      | .chan _ t => t
      | _ => x.unresolved
    | .not => .ofName "bool"
    | .add | .sub | .xor => typeOf e
  | .binary _ l op r =>
    if op.isComparison || op == .lAnd || op == .lOr then .ofName "bool"
    else if op == .shl || op == .shr then typeOf l
    else if l.isLiteral && !r.isLiteral then typeOf r
    else
      match typeOf l with
      | .unresolved hint =>
        match typeOf r with
        | .unresolved _ => .unresolved hint
        | t => t
      | t => t
  | .type _ t => t.denote

def firstType : List Expr → Option Ty
  | [] => none
  | e :: _ => some (typeOf e)

/-- What an expression means where it is called. -/
def calleeOf : Expr → Callee
  | .paren _ e => calleeOf e
  | .ident t n => ty.namedCallee varType t.id n
  | .selector _ e sel =>
    if ty.isPackage e then .unknown else ty.selectedCallee (typeOf e) sel.text
  | .type _ t => .results [t.denote]
  | .funcLit _ sig _ => .results sig.resultTypes
  | _ => .other

end

/-- The types of all values of an expression: a call may have any number of them. -/
def typesOf : Expr → List Ty
  | .paren _ e => typesOf e
  | x@(.call _ callee args _) =>
    callResults x (ty.calleeOf varType callee) (fun _ => ty.typeOf varType callee) args
      (fun _ => ty.firstType varType args)
  | e => [ty.typeOf varType e]

/-- The type of one of several names that are given values together. -/
def valueType? (names : Nat) (values : List Expr) (index : Nat) : Option Ty :=
  if values.length = names then (values[index]?).map (ty.typeOf varType)
  else
    match values with
    | [e] =>
      let tuple := ty.typesOf varType e
      if tuple.length = names then tuple[index]?
      else if names = 2 && e.isCommaOk then
        some (if index = 0 then ty.typeOf varType e else .ofName "bool")
      else none
    | _ => none

/-- The type that a declaration gives to a name of it. -/
def originType? (name : String) : Origin → Option Ty
  | .define names values index => ty.valueType? varType names values index
  | .value _ (some t) _ _ => some t.denote
  | .value names none values index => ty.valueType? varType names values index
  | .param t variadic _ => some (if variadic then .slice t.denote else t.denote)
  | .range subject index => (ty.facts.rangeTypes (ty.typeOf varType subject))[index]?
  | .func sig => some sig.denote
  | .typeSpec => some (.ofName name)
  | .typeSwitch | .importSpec => none

/-- An unresolved type is named after its variable. -/
def named (name : String) : Option Ty → Ty
  | some (.unresolved _) | none => .unresolved name
  | some t => t

/-- The type of a binding, while those of the `pending` ones are being asked for. With fuel for
every binding it never runs out, because none is entered twice. -/
def bindingTypeFrom : Nat → List Nat → Nat → Ty
  | 0, _, _ => .unresolved ""
  | fuel + 1, pending, n =>
    match ty.scopes.binding? n with
    | none => .unresolved ""
    | some b =>
      if pending.contains n then .unresolved b.name
      else named b.name (ty.originType? (bindingTypeFrom fuel (n :: pending)) b.name b.origin)

/-- The type of a binding. -/
def bindingType (n : Nat) : Ty := ty.bindingTypeFrom (ty.scopes.bindings.length + 1) [] n

/-- The type of an expression where one value is wanted, variables included. -/
def exprType (e : Expr) : Ty := ty.typeOf ty.bindingType e

/-- The types of all values of an expression, variables included. -/
def exprTypes (e : Expr) : List Ty := ty.typesOf ty.bindingType e

end Typing

namespace Document

def typing (d : Document) : Typing := ⟨d.scopes, .ofFile d.file⟩

end Document

end FuncLift
