import FuncLift.Lift.Layout

/-!
# Lifting code into a function

The code under a selection becomes a new function at the end of the file, and a call takes its
place. A document that cannot be changed in this way stays as it is.
-/
namespace FuncLift

/-- What came of lifting: the plan that was carried out, the number of the new function's tag, and
how the lines changed. -/
structure Lifted where
  plan : Plan
  function : Nat
  edit : LineEdit

namespace Document

/-- Lifts the code under a selection into a function of the given name. -/
def lift (d : Document) (s : Selection) (name : String) : Except LiftFault (Document × Lifted) :=
  match d.resolve s with
  | .error fault => .error (.selection s fault)
  | .ok region =>
    match d.plan region name with
    | .error fault => .error fault
    | .ok plan =>
      let edit := plan.edit d
      match d.layout edit with
      | .error fault => .error fault
      | .ok (next, lines) => .ok (next, ⟨plan, edit.function.tag.id, lines⟩)

end Document

/-- Why a text could not be changed. -/
inductive TextFault where
  | source (e : SourceError)
  | lift (f : LiftFault)

def TextFault.message : TextFault → String
  | .source e => e.message
  | .lift f => f.message

/-- Reads a text, lifts the code under a selection and writes the result. -/
def liftText (source : String) (s : Selection) (name : String) :
    Except TextFault (String × Lifted) :=
  match Document.ofSource source with
  | .error e => .error (.source e)
  | .ok d =>
    match d.lift s name with
    | .error f => .error (.lift f)
    | .ok (next, done) => .ok (next.print, done)

end FuncLift
