/-!
# Numeric literals

A literal is first cut off as long as it can be a number at all, with digits of the wrong base and
misplaced underscores still inside; then the whole is judged. Cutting knows four bases, a fraction
and an exponent, and leaves two dots in a row alone.
-/
namespace FuncLift

namespace Number

inductive Radix where
  | binary | octal | decimal | hex
deriving DecidableEq, Repr

namespace Radix

/-- The base that a letter after a leading zero announces. -/
def ofMark? (c : Char) : Option Radix :=
  match c.toLower with
  | 'x' => some .hex
  | 'o' => some .octal
  | 'b' => some .binary
  | _ => none

def isDigit (r : Radix) (c : Char) : Bool :=
  match r with
  | .binary => c == '0' || c == '1'
  | .octal => decide ('0' ≤ c) && decide (c ≤ '7')
  | .decimal => c.isDigit
  | .hex => c.isDigit || (decide ('a' ≤ c.toLower) && decide (c.toLower ≤ 'f'))

/-- What is cut off with the digits: in every base but sixteen, any decimal digit. -/
def runs (r : Radix) (c : Char) : Bool :=
  c == '_' || (if r = .hex then Radix.hex.isDigit c else c.isDigit)

def exponentMark (r : Radix) : Char := if r = .hex then 'p' else 'e'

end Radix

def runLength (r : Radix) (cs : List Char) : Nat := (cs.takeWhile r.runs).length

/-- Digits, and a fraction unless its dot is the first of two. -/
def mantissaLength (r : Radix) (cs : List Char) : Nat :=
  let n := runLength r cs
  match cs.drop n with
  | '.' :: '.' :: _ => n
  | '.' :: rest => n + 1 + runLength r rest
  | _ => n

def exponentLength (r : Radix) : List Char → Nat
  | [] => 0
  | c :: cs =>
    if c.toLower = r.exponentMark then
      match cs with
      | '+' :: rest | '-' :: rest => 2 + runLength .decimal rest
      | rest => 1 + runLength .decimal rest
    else 0

def lengthAfter (r : Radix) (mantissa : Nat) (cs : List Char) : Nat :=
  mantissa + exponentLength r (cs.drop mantissa)

/-- Number of characters at the front that are cut off as one number, a final `i` not counted. -/
def cutLength : List Char → Nat
  | '.' :: rest => lengthAfter .decimal (1 + runLength .decimal rest) ('.' :: rest)
  | '0' :: mark :: rest =>
    match Radix.ofMark? mark with
    | some r => 2 + lengthAfter r (mantissaLength r rest) rest
    | none =>
      let cs := '0' :: mark :: rest
      lengthAfter .decimal (mantissaLength .decimal cs) cs
  | cs => lengthAfter .decimal (mantissaLength .decimal cs) cs

/-- No underscore follows another. -/
def separated : List Char → Bool
  | '_' :: '_' :: _ => false
  | _ :: cs => separated cs
  | [] => true

/-- Digits of the base with single underscores, none of them at the end. -/
def wellFormed (r : Radix) (cs : List Char) : Bool :=
  !cs.isEmpty && cs.getLast? != some '_' && separated cs &&
    cs.all (fun c => c == '_' || r.isDigit c)

/-- The part before the first character of a kind, and the part after it if there is one. -/
def cut (p : Char → Bool) : List Char → List Char × Option (List Char)
  | [] => ([], none)
  | c :: cs =>
    if p c then ([], some cs)
    else
      let (front, back) := cut p cs
      (c :: front, back)

def exponentWellFormed : List Char → Bool
  | '+' :: cs | '-' :: cs => wellFormed .decimal cs
  | cs => wellFormed .decimal cs

inductive Class where
  | integer | floating
deriving DecidableEq, Repr

/-- Sixteen is the one base besides ten with fractions, and a fraction needs an exponent there. -/
def classifyHex (body : List Char) : Option Class :=
  let (mantissa, exponent) := cut (fun c => c.toLower == 'p') body
  let (whole, fraction) := cut (· == '.') mantissa
  let digits := (whole.isEmpty || wellFormed .hex whole) &&
    fraction.all (fun f => f.isEmpty || wellFormed .hex f) &&
    mantissa.any Radix.hex.isDigit
  match exponent with
  | none => if digits && fraction.isNone then some .integer else none
  | some e => if digits && exponentWellFormed e then some .floating else none

/-- A decimal integer that starts with a further digit after a zero is octal. -/
def classifyDecimal (cs : List Char) : Option Class :=
  let (mantissa, exponent) := cut (fun c => c.toLower == 'e') cs
  let (whole, fraction) := cut (· == '.') mantissa
  let part := fraction.getD []
  let digits := !(whole.isEmpty && part.isEmpty) &&
    (whole.isEmpty || wellFormed .decimal whole) &&
    (part.isEmpty || (part.head? != some '_' && wellFormed .decimal part)) &&
    exponent.all exponentWellFormed
  if !digits then none
  else if exponent.isSome || fraction.isSome then some .floating
  else match whole with
    | '0' :: _ :: _ =>
      if whole.all (fun c => c == '_' || Radix.octal.isDigit c) then some .integer else none
    | _ => some .integer

def classify : List Char → Option Class
  | '0' :: mark :: body =>
    match Radix.ofMark? mark with
    | some .hex => classifyHex body
    | some r => if wellFormed r body then some .integer else none
    | none => classifyDecimal ('0' :: mark :: body)
  | cs => classifyDecimal cs

/-- An imaginary literal may also have any decimal digits, leading zeros included. -/
def imaginaryWellFormed (cs : List Char) : Bool :=
  (classify cs).isSome || cs.all (fun c => c.isDigit || c == '_')

end Number

end FuncLift
