import FuncLift.Token.Number

/-!
# Escapes in strings and runes

A backslash starts an escape: one of eight letters or signs, the quote itself, three octal digits up
to 255, or a fixed number of hexadecimal digits. The long forms name a Unicode scalar value.
-/
namespace FuncLift

namespace Escape

def hexValue (cs : List Char) : Nat :=
  cs.foldl (fun n c =>
    let d := if c.isDigit then c.toNat - '0'.toNat else c.toLower.toNat - 'a'.toNat + 10
    n * 16 + d) 0

def octalValue (cs : List Char) : Nat := cs.foldl (fun n c => n * 8 + (c.toNat - '0'.toNat)) 0

/-- A code point that is no surrogate. -/
def isScalarValue (n : Nat) : Bool :=
  decide (n ≤ 0x10FFFF) && !(decide (0xD800 ≤ n) && decide (n ≤ 0xDFFF))

/-- The first `n` characters, if there are as many and all are digits of the base. -/
def digits? (r : Number.Radix) (n : Nat) (cs : List Char) : Option (List Char) :=
  let ds := cs.take n
  if ds.length = n ∧ ds.all r.isDigit then some ds else none

/-- Number of characters that the escape at the front takes after its backslash. -/
def length? (quote : Char) : List Char → Option Nat
  | [] => none
  | c :: cs =>
    if ['a', 'b', 'f', 'n', 'r', 't', 'v', '\\', quote].contains c then some 1
    else if Number.Radix.octal.isDigit c then
      (digits? .octal 3 (c :: cs)).bind fun ds => if octalValue ds ≤ 255 then some 3 else none
    else if c = 'x' then (digits? .hex 2 cs).map fun _ => 3
    else if c = 'u' then
      (digits? .hex 4 cs).bind fun ds => if isScalarValue (hexValue ds) then some 5 else none
    else if c = 'U' then
      (digits? .hex 8 cs).bind fun ds => if isScalarValue (hexValue ds) then some 9 else none
    else none

/-- Every backslash of the text between the quotes starts an escape. -/
def wellFormed (quote : Char) : List Char → Bool
  | [] => true
  | c :: cs =>
    if c = '\\' then
      match length? quote cs with
      | none => false
      | some n => wellFormed quote (cs.drop n)
    else wellFormed quote cs
termination_by cs => cs.length
decreasing_by
  · simp only [List.length_drop, List.length_cons]; omega
  · simp

/-- Characters up to and including the closing quote, when it stands on the same line. A backslash
takes the next character along, whatever it is, unless the line ends there. -/
def quotedLength? (quote : Char) : List Char → Option Nat
  | [] => none
  | '\\' :: [] => none
  | '\\' :: c :: cs => if c = '\n' then none else (quotedLength? quote cs).map (· + 2)
  | c :: cs =>
    if c = quote then some 1
    else if c = '\n' ∨ c = '\r' then none
    else (quotedLength? quote cs).map (· + 1)

end Escape

end FuncLift
