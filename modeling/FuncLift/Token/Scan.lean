import FuncLift.Text.Lines
import FuncLift.Token.Lexeme

/-!
# Scanning a text

Lexemes become tokens, comments and faults. A line end after a token that can end a statement
becomes a semicolon, at the line end itself or at the first one inside a block comment; so does the
end of the text.
-/
namespace FuncLift

inductive LexFault where
  | invalidToken
  | invalidNumber
  | invalidEscape
  | unterminatedComment
deriving DecidableEq, Repr

def LexFault.message : LexFault → String
  | .invalidToken => "invalid token"
  | .invalidNumber => "invalid numeric literal"
  | .invalidEscape => "invalid escape"
  | .unterminatedComment => "unterminated comment"

inductive CommentKind where
  | line
  | block
deriving DecidableEq, Repr

/-- A comment of the text. It has its line to itself when no token stands before it there. -/
structure LooseComment where
  kind : CommentKind
  text : String
  span : Span
  ownLine : Bool
deriving DecidableEq, Repr

structure Scan where
  tokens : List Placed
  faults : List (LexFault × Span)
  comments : List LooseComment
deriving DecidableEq, Repr

namespace Scan

def none : Scan := ⟨[], [], []⟩

def append (s t : Scan) : Scan :=
  ⟨s.tokens ++ t.tokens, s.faults ++ t.faults, s.comments ++ t.comments⟩

/-- What is known of the current line: whether its end would end a statement, and whether a token
stands on it. -/
structure Line where
  ends : Bool
  busy : Bool
deriving DecidableEq, Repr

def Line.start : Line := ⟨false, false⟩

def token (t : Token) (span : Span) : Scan := ⟨[⟨t, span⟩], [], []⟩

def fault (f : LexFault) (span : Span) : Scan := ⟨[⟨.invalid, span⟩], [(f, span)], []⟩

/-- The semicolon of a line end at an offset, if one is due. -/
def lineEnd (line : Line) (offset : Nat) : Scan :=
  if line.ends then token (.punct .semi) ⟨offset, offset⟩ else none

def comment (kind : CommentKind) (text : List Char) (span : Span) (line : Line) : LooseComment :=
  ⟨kind, String.ofList text, span, !line.busy⟩

/-- The characters between the first and the last. -/
def inner (text : List Char) : List Char := text.tail.dropLast

/-- The token of a word, number or literal, or what is wrong with it. -/
def read (kind : LexemeKind) (text : List Char) : Except LexFault Token :=
  let s := String.ofList text
  match kind with
  | .word => .ok (match Keyword.ofSpelling? s with
    | some k => .keyword k
    | .none => .ident s)
  | .number =>
    if text.getLast? = some 'i' then
      if Number.imaginaryWellFormed text.dropLast then .ok (.imag s) else .error .invalidNumber
    else
      match Number.classify text with
      | some .integer => .ok (.int s)
      | some .floating => .ok (.float s)
      | .none => .error .invalidNumber
  | .rawString => .ok (.rawString s)
  | .string => if Escape.wellFormed '"' (inner text) then .ok (.string s) else .error .invalidEscape
  | .rune =>
    match inner text with
    | '\\' :: cs =>
      match Escape.length? '\'' cs with
      | .none => .error .invalidEscape
      | some n => if n = cs.length then .ok (.rune s) else .error .invalidToken
    | [_] => .ok (.rune s)
    | _ => .error .invalidToken
  | .punct p => .ok (.punct p)
  | _ => .error .invalidToken

/-- What one lexeme at an offset contributes, and the line after it. -/
def ofLexeme (line : Line) (offset : Nat) (lexeme : Lexeme) : Scan × Line :=
  let text := lexeme.text
  let span : Span := ⟨offset, offset + byteSize text⟩
  match lexeme.kind with
  | .blank => (none, line)
  | .newline => (lineEnd line offset, .start)
  | .lineComment => (⟨[], [], [comment .line text span line]⟩, line)
  | .blockComment =>
    let seen : Scan := ⟨[], [], [comment .block text span line]⟩
    let front := text.takeWhile fun c => !Lexeme.isLineEnd c
    if front.length = text.length then (seen, ⟨line.ends, true⟩)
    else (seen.append (lineEnd line (offset + byteSize front)), .start)
  | .openComment =>
    ((⟨[], [], [comment .block text span line]⟩ : Scan).append (fault .unterminatedComment span),
      ⟨false, true⟩)
  | .byteOrderMark =>
    if offset = 0 then (none, line) else (fault .invalidToken span, ⟨false, true⟩)
  | kind =>
    match read kind text with
    | .ok t => (token t span, ⟨t.endsStatement, true⟩)
    | .error f => (fault f span, ⟨false, true⟩)

def ofLexemes (line : Line) (offset : Nat) : List Lexeme → Scan
  | [] => lineEnd line offset
  | lexeme :: rest =>
    let (front, next) := ofLexeme line offset lexeme
    front.append (ofLexemes next (offset + byteSize lexeme.text) rest)

end Scan

/-- Tokens, faults and comments of a text. -/
def scan (text : String) : Scan := Scan.ofLexemes .start 0 (Lexeme.all text.toList)

end FuncLift
