import FuncLift.Lift.Capture
import FuncLift.Token
import FuncLift.Ty.Deduce

/-!
# Plans

A plan holds all that is decided about the new function before anything is changed: its name, the
region it takes, its parameters, what it returns, and what could not be told about their types.
-/
namespace FuncLift

/-- A parameter or an output of the new function. -/
structure Capture where
  name : String
  type : Ty

/-- What a type belongs to. -/
inductive Subject where
  | parameter (name : String)
  | result (name : String)
  | expression
deriving DecidableEq, Repr

def Subject.text : Subject → String
  | .parameter name => "parameter `" ++ name ++ "`"
  | .result name => "result `" ++ name ++ "`"
  | .expression => "extracted expression"

/-- A type could not be told, and a placeholder is written for it. -/
structure Warning where
  subject : Subject
  placeholder : String
deriving DecidableEq, Repr

def Warning.message (w : Warning) : String :=
  "could not deduce the type of " ++ w.subject.text ++ "; wrote `" ++ w.placeholder ++ "`"

/-- The warning that a type calls for. -/
def Ty.warning? (subject : Subject) (t : Ty) : Option Warning :=
  if t.isUnresolved then some ⟨subject, t.text⟩ else none

structure Plan where
  name : String
  region : Region
  params : List Capture
  outputs : List Capture
  results : List Ty
  warnings : List Warning

/-- A function's name starts with a letter or an underscore, goes on with letters, digits and
underscores, and is neither the blank name nor a keyword. -/
def validName (name : String) : Bool :=
  match name.toList with
  | [] => false
  | c :: cs =>
    (isAlphabetic c || c == '_') && cs.all (fun c => isAlphanumeric c || c == '_') &&
      name != "_" && (Keyword.ofSpelling? name).isNone

namespace Node

/-- Whether the value of an expression that stands in this node is used. -/
def usesValue : Node → Bool
  | .simple (.expr ..) | .stmt (.go ..) | .stmt (.defer ..) => false
  | _ => true

end Node

namespace Plan

def typed (ty : Typing) (m : NameMap) : List Capture :=
  m.map fun (name, b) => ⟨name, ty.bindingType b⟩

/-- The types of what the new function returns. -/
def resultTypes (ty : Typing) (outputs : List Capture) : Region → List Ty
  | .expression e parent _ => if parent.usesValue then ty.exprTypes e else []
  | .statements .. => outputs.map Capture.type

/-- Warnings about results; those of statements are outputs and were warned about as such. -/
def resultWarnings (results : List Ty) : Region → List Warning
  | .expression .. => results.filterMap (Ty.warning? .expression)
  | .statements .. => []

/-- The plan for a region, if the region can be replaced by a call. -/
def ofRegion (ty : Typing) (name : String) (r : Region) : Plan :=
  let captures := r.captures ty.scopes
  let params := typed ty captures.params
  let outputs := typed ty captures.outputs
  let results := resultTypes ty outputs r
  let warnings :=
    params.filterMap (fun c => c.type.warning? (.parameter c.name)) ++
      outputs.filterMap (fun c => c.type.warning? (.result c.name)) ++ resultWarnings results r
  ⟨name, r, params, outputs, results, warnings⟩

end Plan

/-- The form of the parent that has no slot for a call, if the region is an expression in one. -/
def Region.badContext? : Region → Option Form
  | .expression _ parent none => some parent.form
  | _ => none

namespace Document

/-- Plans to lift a region into a function. The name is looked at first. -/
def plan (d : Document) (r : Region) (name : String) : Except LiftFault Plan :=
  if !validName name then .error (.invalidName name)
  else
    let ty := d.typing
    if (ty.scopes.packageBinding? name).isSome then .error (.nameTaken name)
    else
      match r.badContext? with
      | some parent => .error (.context parent)
      | none => .ok (.ofRegion ty name r)

end Document

end FuncLift
