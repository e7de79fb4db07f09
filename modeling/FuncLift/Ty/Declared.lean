import FuncLift.Render.Drawing
import FuncLift.Ty

/-!
# Declared types

The types that the declarations of a file write down: what a type expression denotes, what a named
type stands for, which fields a struct has and which methods a type.
-/
namespace FuncLift

/-- The type declarations and the methods of a file, the last of a name first. A method is found by
the name of its receiver's type and its own. -/
structure TypeFacts where
  types : List (String × TypeExpr)
  methods : List ((String × String) × Signature)

mutual

/-- The type that a type expression denotes. -/
def TypeExpr.denote : TypeExpr → Ty
  | .named _ pkg name => .named pkg name
  | .pointer _ t => .pointer t.denote
  | .slice _ t => .slice t.denote
  | .array _ len t => .array (len.map Expr.print) t.denote
  | .map _ k v => .map k.denote v.denote
  | .chan _ dir t => .chan dir t.denote
  | .func _ sig => sig.denote
  | x@(.struct _ _) => .literal x.print
  | x@(.interface _ _) => .literal x.print

def Signature.denote : Signature → Ty
  | ⟨_, params, results⟩ =>
    .func (fieldTypes params) (fieldTypes results) (lastVariadic params)

/-- One type for every declared name; a field without names has one type too. -/
def fieldTypes : List Field → List Ty
  | [] => []
  | ⟨_, names, type, _, _⟩ :: fs =>
    List.replicate (max names.length 1) type.denote ++ fieldTypes fs

def lastVariadic : List Field → Bool
  | [] => false
  | [⟨_, _, _, variadic, _⟩] => variadic
  | _ :: fs => lastVariadic fs

end

def Signature.resultTypes (s : Signature) : List Ty := fieldTypes s.results

/-- The name of the type that a receiver belongs to, directly or through a pointer. -/
def TypeExpr.receiverName? : TypeExpr → Option String
  | .named _ none name => some name
  | .pointer _ (.named _ none name) => some name
  | _ => none

def Spec.typeEntry? : Spec → Option (String × TypeExpr)
  | .type _ n _ t => some (n.text, t)
  | _ => none

def FuncDecl.methodEntry? (f : FuncDecl) : Option ((String × String) × Signature) := do
  let recv ← f.recv
  return ((← recv.type.receiverName?, f.name.text), f.sig)

namespace TypeFacts

def typeEntries : TopDecl → List (String × TypeExpr)
  | .decl d => d.specs.filterMap Spec.typeEntry?
  | .func _ => []

def methodEntries : TopDecl → List ((String × String) × Signature)
  | .decl _ => []
  | .func f => f.methodEntry?.toList

def ofFile (f : SourceFile) : TypeFacts :=
  ⟨(f.decls.flatMap typeEntries).reverse, (f.decls.flatMap methodEntries).reverse⟩

/-- Named types are followed to what they stand for, at most so many times. -/
def followFrom (facts : TypeFacts) : Nat → Ty → Ty
  | 0, t => t
  | n + 1, t =>
    match t with
    | .named none name =>
      match facts.types.lookup name with
      | some d => followFrom facts n d.denote
      | none => t
    | _ => t

/-- What a type stands for, through eight names at most. -/
def underlying (facts : TypeFacts) (t : Ty) : Ty := facts.followFrom 8 t

/-- The name of a type of this file, also behind a pointer. -/
def baseName? : Ty → Option String
  | .named none name => some name
  | .pointer (.named none name) => some name
  | _ => none

/-- Whether an embedded field of this type is called by a name. -/
def embeddedAs (name : String) : Ty → Bool
  | .named _ n => n == name
  | .pointer (.named _ n) => n == name
  | _ => false

/-- The first field of a name, or the embedded fields passed if there is none. -/
def directField (name : String) : List Field → Ty ⊕ List Ty
  | [] => .inr []
  | f :: fs =>
    if f.names.any (·.text == name) || (f.names.isEmpty && embeddedAs name f.type.denote) then
      .inl f.type.denote
    else
      match directField name fs with
      | .inl t => .inl t
      | .inr ts => .inr (if f.names.isEmpty then f.type.denote :: ts else ts)

/-- The type of a field, embedded structs included down to a depth. -/
def fieldWithin (facts : TypeFacts) (name : String) : Nat → Ty → Option Ty
  | 0, _ => none
  | depth + 1, t => do
    match facts.types.lookup (← baseName? t) with
    | some (.struct _ fields) =>
      match directField name fields with
      | .inl t => some t
      | .inr embedded => embedded.findSome? (fieldWithin facts name depth)
    | _ => none

def field? (facts : TypeFacts) (t : Ty) (name : String) : Option Ty := facts.fieldWithin name 5 t

def method? (facts : TypeFacts) (t : Ty) (name : String) : Option Signature := do
  facts.methods.lookup (← baseName? t, name)

/-- The types of the variables of a loop over a value. -/
def rangeTypes (facts : TypeFacts) (t : Ty) : List Ty :=
  match facts.underlying t with
  | .slice e | .array _ e | .pointer (.array _ e) => [.ofName "int", e]
  | .map k v => [k, v]
  | .chan _ e => [e]
  | u => if u.isNamed "string" then [.ofName "int", .ofName "rune"]
    else if u.isInteger then [u]
    else []

/-- The type of an element, if a value can be indexed. -/
def elementType? (facts : TypeFacts) (t : Ty) : Option Ty :=
  match facts.underlying t with
  | .slice e | .array _ e | .pointer (.array _ e) | .map _ e => some e
  | u => if u.isNamed "string" then some (.ofName "byte") else none

/-- The type of a part of a value; only arrays change theirs. -/
def slicedType (facts : TypeFacts) (t : Ty) : Ty :=
  match facts.underlying t with
  | .array _ e | .pointer (.array _ e) => .slice e
  | _ => t

end TypeFacts

end FuncLift
