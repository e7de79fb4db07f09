import FuncLift.Text.Span

/-!
# Tokens of Go

Keywords and punctuation are closed enumerations with a spelling each; names and literals carry
their text. Every token has a name, under which messages speak of it.
-/
namespace FuncLift

inductive Keyword where
  | breakKw | caseKw | chanKw | constKw | continueKw | defaultKw | deferKw | elseKw
  | fallthroughKw | forKw | funcKw | goKw | gotoKw | ifKw | importKw | interfaceKw | mapKw
  | packageKw | rangeKw | returnKw | selectKw | structKw | switchKw | typeKw | varKw
deriving DecidableEq, Repr

namespace Keyword

def all : List Keyword :=
  [.breakKw, .caseKw, .chanKw, .constKw, .continueKw, .defaultKw, .deferKw, .elseKw,
   .fallthroughKw, .forKw, .funcKw, .goKw, .gotoKw, .ifKw, .importKw, .interfaceKw, .mapKw,
   .packageKw, .rangeKw, .returnKw, .selectKw, .structKw, .switchKw, .typeKw, .varKw]

def spelling : Keyword → String
  | .breakKw => "break" | .caseKw => "case" | .chanKw => "chan" | .constKw => "const"
  | .continueKw => "continue" | .defaultKw => "default" | .deferKw => "defer"
  | .elseKw => "else" | .fallthroughKw => "fallthrough" | .forKw => "for" | .funcKw => "func"
  | .goKw => "go" | .gotoKw => "goto" | .ifKw => "if" | .importKw => "import"
  | .interfaceKw => "interface" | .mapKw => "map" | .packageKw => "package"
  | .rangeKw => "range" | .returnKw => "return" | .selectKw => "select"
  | .structKw => "struct" | .switchKw => "switch" | .typeKw => "type" | .varKw => "var"

def ofSpelling? (s : String) : Option Keyword := all.find? fun k => k.spelling == s

def name (k : Keyword) : String := "Kw" ++ k.spelling.capitalize

end Keyword

/-- Operators and delimiters. -/
inductive Punct where
  | ellipsis | shlAssign | shrAssign | andNotAssign
  | addAssign | subAssign | mulAssign | divAssign | modAssign | andAssign | orAssign | xorAssign
  | shl | shr | andNot | lAnd | lOr | eqEq | notEq | le | ge | inc | dec | define | arrow
  | assign | plus | minus | star | slash | percent | amp | pipe | caret | tilde | bang | lt | gt
  | lParen | rParen | lBrack | rBrack | lBrace | rBrace | comma | semi | colon | dot
deriving DecidableEq, Repr

namespace Punct

/-- Longer spellings stand before their own beginnings. -/
def all : List Punct :=
  [.ellipsis, .shlAssign, .shrAssign, .andNotAssign,
   .addAssign, .subAssign, .mulAssign, .divAssign, .modAssign, .andAssign, .orAssign, .xorAssign,
   .shl, .shr, .andNot, .lAnd, .lOr, .eqEq, .notEq, .le, .ge, .inc, .dec, .define, .arrow,
   .assign, .plus, .minus, .star, .slash, .percent, .amp, .pipe, .caret, .tilde, .bang, .lt, .gt,
   .lParen, .rParen, .lBrack, .rBrack, .lBrace, .rBrace, .comma, .semi, .colon, .dot]

def spelling : Punct → String
  | .ellipsis => "..." | .shlAssign => "<<=" | .shrAssign => ">>=" | .andNotAssign => "&^="
  | .addAssign => "+=" | .subAssign => "-=" | .mulAssign => "*=" | .divAssign => "/="
  | .modAssign => "%=" | .andAssign => "&=" | .orAssign => "|=" | .xorAssign => "^="
  | .shl => "<<" | .shr => ">>" | .andNot => "&^" | .lAnd => "&&" | .lOr => "||"
  | .eqEq => "==" | .notEq => "!=" | .le => "<=" | .ge => ">=" | .inc => "++" | .dec => "--"
  | .define => ":=" | .arrow => "<-" | .assign => "=" | .plus => "+" | .minus => "-"
  | .star => "*" | .slash => "/" | .percent => "%" | .amp => "&" | .pipe => "|"
  | .caret => "^" | .tilde => "~" | .bang => "!" | .lt => "<" | .gt => ">"
  | .lParen => "(" | .rParen => ")" | .lBrack => "[" | .rBrack => "]"
  | .lBrace => "\x7b" | .rBrace => "\x7d" | .comma => "," | .semi => ";" | .colon => ":"
  | .dot => "."

def name : Punct → String
  | .ellipsis => "Ellipsis" | .shlAssign => "ShlAssign" | .shrAssign => "ShrAssign"
  | .andNotAssign => "AndNotAssign" | .addAssign => "AddAssign" | .subAssign => "SubAssign"
  | .mulAssign => "MulAssign" | .divAssign => "DivAssign" | .modAssign => "ModAssign"
  | .andAssign => "AndAssign" | .orAssign => "OrAssign" | .xorAssign => "XorAssign"
  | .shl => "Shl" | .shr => "Shr" | .andNot => "AndNot" | .lAnd => "LAnd" | .lOr => "LOr"
  | .eqEq => "EqEq" | .notEq => "NotEq" | .le => "Le" | .ge => "Ge" | .inc => "Inc"
  | .dec => "Dec" | .define => "Define" | .arrow => "Arrow" | .assign => "Assign"
  | .plus => "Plus" | .minus => "Minus" | .star => "Star" | .slash => "Slash"
  | .percent => "Percent" | .amp => "Amp" | .pipe => "Pipe" | .caret => "Caret"
  | .tilde => "Tilde" | .bang => "Bang" | .lt => "Lt" | .gt => "Gt"
  | .lParen => "LParen" | .rParen => "RParen" | .lBrack => "LBrack" | .rBrack => "RBrack"
  | .lBrace => "LBrace" | .rBrace => "RBrace" | .comma => "Comma" | .semi => "Semi"
  | .colon => "Colon" | .dot => "Dot"

/-- The longest punctuation at the front of the characters. -/
def atFront? (cs : List Char) : Option Punct :=
  all.find? fun p => p.spelling.toList.isPrefixOf cs

end Punct

inductive Token where
  | ident (text : String)
  | int (text : String)
  | float (text : String)
  | imag (text : String)
  | rune (text : String)
  | string (text : String)
  | rawString (text : String)
  | keyword (k : Keyword)
  | punct (p : Punct)
  | invalid
deriving DecidableEq, Repr

namespace Token

/-- The text of a token that has one of its own. -/
def text? : Token → Option String
  | .ident s | .int s | .float s | .imag s | .rune s | .string s | .rawString s => some s
  | .keyword _ | .punct _ | .invalid => none

def name : Token → String
  | .ident _ => "Ident"
  | .int _ => "IntLit"
  | .float _ => "FloatLit"
  | .imag _ => "ImagLit"
  | .rune _ => "RuneLit"
  | .string _ => "StringLit"
  | .rawString _ => "RawStringLit"
  | .keyword k => k.name
  | .punct p => p.name
  | .invalid => "Error"

/-- How a message quotes the token. -/
def quoted (t : Token) : String :=
  match t with
  | .punct .semi => "';'"
  | _ => t.text?.getD t.name

/-- A newline after one of these ends the statement. -/
def endsStatement : Token → Bool
  | .ident _ | .int _ | .float _ | .imag _ | .rune _ | .string _ | .rawString _ => true
  | .keyword k => k == .breakKw || k == .continueKw || k == .fallthroughKw || k == .returnKw
  | .punct p => p == .inc || p == .dec || p == .rParen || p == .rBrack || p == .rBrace
  | .invalid => false

end Token

/-- A token where it stands. A semicolon that only a line end stands for has an empty span. -/
structure Placed where
  token : Token
  span : Span
deriving DecidableEq, Repr

end FuncLift
