import FuncLift.Tree
import FuncLift.Tree.Fault

/-!
# Reading tokens

A cursor walks over the tokens, hands out tag numbers and remembers where the last token ended. The
semicolon of a line end has no extent: taking it does not move that end.
-/
namespace FuncLift

/-- State of reading: the tokens ahead, the size of the text, the end of the last token taken,
whether a literal may start with a bare type name here, and the next free tag number. -/
structure Cursor where
  ahead : List Placed
  size : Nat
  reached : Nat
  literals : Bool
  nextId : Nat

abbrev Read := StateT Cursor (Except Diagnostic)

namespace Read

def fail {α : Type} (f : ParseFault) (span : Span) : Read α := throw ⟨.parse f, span⟩

def peek : Read (Option Token) := return (← get).ahead.head?.map Placed.token

def peekSecond : Read (Option Token) := return (← get).ahead[1]?.map Placed.token

def at_ (t : Token) : Read Bool := return (← peek) == some t

def atPunct (p : Punct) : Read Bool := at_ (.punct p)

/-- Offset at which the next token starts. -/
def start : Read Nat := do
  let c ← get
  return (c.ahead.head?.map fun p => p.span.start).getD c.size

def isLineEnd (p : Placed) : Bool := p.token == .punct .semi && p.span.start == p.span.stop

/-- Takes the next token; at the end of the text an invalid one stands for it. -/
def take : Read Placed := modifyGet fun c =>
  match c.ahead with
  | [] => (⟨.invalid, ⟨c.size, c.size⟩⟩, { c with reached := c.size })
  | p :: rest =>
    (p, { c with ahead := rest, reached := if isLineEnd p then c.reached else p.span.stop })

def eat (t : Token) : Read Bool := do
  if ← at_ t then
    let _ ← take
    return true
  else
    return false

def eatPunct (p : Punct) : Read Bool := eat (.punct p)

def eatKeyword (k : Keyword) : Read Bool := eat (.keyword k)

def unexpected {α : Type} (wanted : Wanted) : Read α := do
  let c ← get
  match c.ahead with
  | [] => fail (.unexpected wanted .endOfText) ⟨c.size, c.size⟩
  | p :: _ => fail (.unexpected wanted (if isLineEnd p then .newline else .token p.token)) p.span

def expect (t : Token) : Read Unit := do
  unless ← eat t do unexpected (.token t)

def expectPunct (p : Punct) : Read Unit := expect (.punct p)

def expectKeyword (k : Keyword) : Read Unit := expect (.keyword k)

/-- A statement or specification ends at a semicolon, or before a closing parenthesis or brace. -/
def endStatement : Read Unit := do
  match ← peek with
  | some (.punct .semi) => let _ ← take
  | some (.punct .rParen) | some (.punct .rBrace) | none => return
  | some _ => unexpected .lineEnd

/-- From an offset to the end of the last token, or empty when none was taken since. -/
def spanFrom (start : Nat) : Read Span := return ⟨start, max (← get).reached start⟩

def tagAt (span : Span) : Read Tag := modifyGet fun c =>
  (⟨c.nextId, span⟩, { c with nextId := c.nextId + 1 })

def tagFrom (start : Nat) : Read Tag := do tagAt (← spanFrom start)

def name : Read Name := do
  match ← peek with
  | some (.ident s) =>
    let p ← take
    return ⟨← tagAt p.span, s⟩
  | _ => unexpected .identifier

/-- Reads with bare literals allowed or not, and restores the former rule. -/
def withLiterals {α : Type} (allowed : Bool) (r : Read α) : Read α := do
  let old := (← get).literals
  modify fun c => { c with literals := allowed }
  let a ← r
  modify fun c => { c with literals := old }
  return a

/-- Names separated by commas, and then the sign of a definition, stand ahead. -/
def definesAhead : List Placed → Bool
  | ⟨.ident _, _⟩ :: ⟨.punct .define, _⟩ :: _ => true
  | ⟨.ident _, _⟩ :: ⟨.punct .comma, _⟩ :: rest => definesAhead rest
  | _ => false

/-- Whether a range clause stands ahead outside of all brackets, and if so whether it defines its
variables. -/
def rangeAhead : Nat → List Placed → Option Bool
  | _, [] => none
  | depth, p :: rest =>
    match p.token with
    | .punct .lParen | .punct .lBrack => rangeAhead (depth + 1) rest
    | .punct .rParen | .punct .rBrack => rangeAhead (depth - 1) rest
    | .punct .lBrace | .punct .semi => if depth = 0 then none else rangeAhead depth rest
    | .punct .define | .punct .assign =>
      if depth = 0 then
        if rest.head?.map Placed.token = some (.keyword .rangeKw) then
          some (p.token == .punct .define)
        else none
      else rangeAhead depth rest
    | _ => rangeAhead depth rest

end Read

end FuncLift
