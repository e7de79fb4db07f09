import FuncLift.Token.Scan

/-!
# What can be wrong with a source text

Reading stops at the first fault of the grammar; faults of single tokens are all collected, and come
before any question of grammar.
-/
namespace FuncLift

/-- What the grammar asks for at some point. -/
inductive Wanted where
  | token (t : Token)
  | identifier
  | lineEnd
  | declaration
  | importPath
  | type
  | index
  | expression
  | elseBranch
deriving DecidableEq, Repr

namespace Wanted

def keyword (k : Keyword) : Wanted := .token (.keyword k)

def punct (p : Punct) : Wanted := .token (.punct p)

def text : Wanted → String
  | .token (.keyword k) => "'" ++ k.spelling ++ "'"
  | .token (.punct p) => "'" ++ p.spelling ++ "'"
  | .token t => t.quoted
  | .identifier => "identifier"
  | .lineEnd => "';' or newline"
  | .declaration => "declaration"
  | .importPath => "import path"
  | .type => "type"
  | .index => "index"
  | .expression => "expression"
  | .elseBranch => "'if' or block after 'else'"

end Wanted

/-- What stands there instead. -/
inductive Found where
  | token (t : Token)
  | newline
  | endOfText
deriving DecidableEq, Repr

def Found.text : Found → String
  | .token t => t.quoted
  | .newline => "newline"
  | .endOfText => "EOF"

inductive ParseFault where
  | unexpected (wanted : Wanted) (found : Found)
  | receivers
  | definesNonName
  | notOneExpression (count : Nat)
  | notAnExpression
  | exhausted
deriving DecidableEq, Repr

def ParseFault.message : ParseFault → String
  | .unexpected wanted found => "expected " ++ wanted.text ++ ", found " ++ found.text
  | .receivers => "method has no receiver or multiple receivers"
  | .definesNonName => "non-name on left side of :="
  | .notOneExpression n => "expected 1 expression, found " ++ toString n
  | .notAnExpression => "expected expression, found simple statement"
  | .exhausted => "nesting exceeds the length of the text"

inductive SourceFault where
  | lex (f : LexFault)
  | parse (f : ParseFault)
deriving DecidableEq, Repr

namespace SourceFault

def phase : SourceFault → String
  | .lex _ => "lex"
  | .parse _ => "parse"

def message : SourceFault → String
  | .lex f => f.message
  | .parse f => f.message

end SourceFault

structure Diagnostic where
  fault : SourceFault
  span : Span
deriving DecidableEq, Repr

def Diagnostic.message (d : Diagnostic) : String :=
  d.fault.phase ++ " error at " ++ toString d.span.start ++ ".." ++ toString d.span.stop ++ ": " ++
    d.fault.message

/-- Why a text has no tree. -/
structure SourceError where
  diagnostics : List Diagnostic
deriving DecidableEq, Repr

def SourceError.message (e : SourceError) : String :=
  toString e.diagnostics.length ++ " syntax error(s); first: " ++
    (e.diagnostics.head?.map Diagnostic.message).getD ""

end FuncLift
