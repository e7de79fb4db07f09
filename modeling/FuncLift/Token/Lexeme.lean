import FuncLift.Text.Letter
import FuncLift.Text.Numeral
import FuncLift.Token
import FuncLift.Token.Number
import FuncLift.Token.Escape

/-!
# Lexemes

The text is cut from the front into lexemes, blanks and comments included, so that the lexemes
together are the text. A character that starts nothing is a lexeme of its own.
-/
namespace FuncLift

inductive LexemeKind where
  | blank
  | newline
  | lineComment
  | blockComment
  | openComment
  | byteOrderMark
  | word
  | number
  | rawString
  | string
  | rune
  | punct (p : Punct)
  | stray
deriving DecidableEq, Repr

structure Lexeme where
  kind : LexemeKind
  text : List Char
deriving DecidableEq, Repr

namespace Lexeme

def isSpace (c : Char) : Bool := c == ' ' || c == '\t' || c == '\x0c'

def isLineEnd (c : Char) : Bool := c == '\n' || c == '\r'

def startsWord (c : Char) : Bool := c == '_' || isLetter c

def continuesWord (c : Char) : Bool := startsWord c || isDecimalDigit c

/-- Characters up to and including the first `*/`. -/
def commentLength? : List Char → Option Nat
  | [] => none
  | '*' :: '/' :: _ => some 2
  | _ :: cs => (commentLength? cs).map (· + 1)

def rawLength? : List Char → Option Nat
  | [] => none
  | c :: cs => if c = '\x60' then some 1 else (rawLength? cs).map (· + 1)

/-- A number, with the `i` of an imaginary one. -/
def numberLength (cs : List Char) : Nat :=
  let n := Number.cutLength cs
  if (cs.drop n).head? = some 'i' then n + 1 else n

def startsNumber (c : Char) (cs : List Char) : Bool :=
  c.isDigit || (c == '.' && (cs.head?.map Char.isDigit).getD false)

/-- Kind of the lexeme at the front, and how many characters it takes after its first. -/
def atFront (c : Char) (cs : List Char) : LexemeKind × Nat :=
  if isSpace c then (.blank, (cs.takeWhile isSpace).length)
  else if c = '\n' then (.newline, 0)
  else if c = '\r' then (.newline, if cs.head? = some '\n' then 1 else 0)
  else if c = '\uFEFF' then (.byteOrderMark, 0)
  else if startsWord c then (.word, (cs.takeWhile continuesWord).length)
  else if startsNumber c cs then (.number, numberLength (c :: cs) - 1)
  else if c = '\x60' then
    match rawLength? cs with
    | some n => (.rawString, n)
    | none => (.stray, 0)
  else if c = '"' then
    match Escape.quotedLength? '"' cs with
    | some n => (.string, n)
    | none => (.stray, 0)
  else if c = '\'' then
    match Escape.quotedLength? '\'' cs with
    | some (n + 2) => (.rune, n + 2)
    | _ => (.stray, 0)
  else if c = '/' ∧ cs.head? = some '/' then
    (.lineComment, (cs.takeWhile fun d => !isLineEnd d).length)
  else if c = '/' ∧ cs.head? = some '*' then
    match commentLength? cs.tail with
    | some n => (.blockComment, n + 1)
    | none => (.openComment, cs.length)
  else
    match Punct.atFront? (c :: cs) with
    | some p => (.punct p, p.spelling.length - 1)
    | none => (.stray, 0)

/-- All lexemes of a text in order. -/
def all : List Char → List Lexeme
  | [] => []
  | c :: cs =>
    let (kind, n) := atFront c cs
    ⟨kind, c :: cs.take n⟩ :: all (cs.drop n)
termination_by cs => cs.length
decreasing_by simp only [List.length_drop, List.length_cons]; omega

end Lexeme

end FuncLift
