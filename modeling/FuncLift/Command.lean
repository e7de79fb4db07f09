import FuncLift.Selection

/-!
# The command line

One source file, the selection and the name of the new function, and where to write the result.
Every option takes a value, which follows it or is joined to its long form by an equals sign.
-/
namespace FuncLift

/-- What the command is asked to do. Without an output the result is written to standard output. -/
structure Command where
  input : String
  selection : Selection
  function : String
  output : Option String

namespace Command

inductive Flag where
  | selection | function | output
deriving DecidableEq, Repr

namespace Flag

def long : Flag → String
  | .selection => "--selection"
  | .function => "--function"
  | .output => "--output"

def short : Flag → String
  | .selection => "-s"
  | .function => "-f"
  | .output => "-o"

def ofArg? (arg : String) : Option Flag :=
  [Flag.selection, .function, .output].find? fun f => f.long == arg || f.short == arg

end Flag

/-- What is wrong with the arguments. -/
inductive Misuse where
  | noInput
  | missing (f : Flag)
  | noValue (f : Flag)
  | repeated (f : Flag)
  | unexpected (arg : String)
  | selection (text : String)
deriving DecidableEq, Repr

def Misuse.message : Misuse → String
  | .noInput => "no source file given"
  | .missing f => "option " ++ f.long ++ " is required"
  | .noValue f => "option " ++ f.long ++ " needs a value"
  | .repeated f => "option " ++ f.long ++ " is given twice"
  | .unexpected arg => "unexpected argument `" ++ arg ++ "`"
  | .selection text => Selection.malformedMessage text

/-- The arguments read so far. -/
structure Given where
  input : Option String
  selection : Option String
  function : Option String
  output : Option String

namespace Given

def none : Given := ⟨.none, .none, .none, .none⟩

def value? (g : Given) : Flag → Option String
  | .selection => g.selection
  | .function => g.function
  | .output => g.output

def set (g : Given) (f : Flag) (v : String) : Except Misuse Given :=
  if (g.value? f).isSome then .error (.repeated f)
  else
    match f with
    | .selection => .ok { g with selection := some v }
    | .function => .ok { g with function := some v }
    | .output => .ok { g with output := some v }

/-- The one argument that belongs to no option is the source file. -/
def setInput (g : Given) (arg : String) : Except Misuse Given :=
  if g.input.isSome || arg.startsWith "-" then .error (.unexpected arg)
  else .ok { g with input := some arg }

def read (g : Given) : List String → Except Misuse Given
  | [] => .ok g
  | [a] =>
    match Flag.ofArg? a with
    | some f => .error (.noValue f)
    | .none => g.setInput a
  | a :: v :: rest =>
    match Flag.ofArg? a with
    | some f =>
      match g.set f v with
      | .ok g => read g rest
      | .error e => .error e
    | .none =>
      match g.setInput a with
      | .ok g => read g (v :: rest)
      | .error e => .error e

end Given

/-- Splits a long option from a value that is joined to it. -/
def unjoin (arg : String) : List String :=
  match Selection.splitAt? '=' arg.toList with
  | some (name, value) =>
    if arg.startsWith "--" then [String.ofList name, String.ofList value] else [arg]
  | none => [arg]

def parse (args : List String) : Except Misuse Command := do
  let g ← Given.none.read (args.flatMap unjoin)
  let some input := g.input | throw .noInput
  let some text := g.selection | throw (.missing .selection)
  let some function := g.function | throw (.missing .function)
  match Selection.parse? text with
  | some selection => return ⟨input, selection, function, g.output⟩
  | none => throw (.selection text)

end Command

end FuncLift
