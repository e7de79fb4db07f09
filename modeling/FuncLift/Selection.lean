import FuncLift.Text.Blank
import FuncLift.Text.Lines

/-!
# Selections

A selection is a pair of cursors, written `line:column-line:column`. The second cursor stands behind
the last selected byte.
-/
namespace FuncLift

structure Selection where
  first : Position
  last : Position
deriving DecidableEq, Repr, Inhabited

namespace Selection

def text (s : Selection) : String := s.first.text ++ "-" ++ s.last.text

/-- The part before the first occurrence of a character and the part after it. -/
def splitAt? (sep : Char) : List Char → Option (List Char × List Char)
  | [] => none
  | c :: cs => if c = sep then some ([], cs) else (splitAt? sep cs).map fun (a, b) => (c :: a, b)

def digitsValue (cs : List Char) : Nat := cs.foldl (fun n c => n * 10 + (c.toNat - '0'.toNat)) 0

/-- A number of at most 32 bits in decimal digits; one plus sign may stand before them. -/
def number? (cs : List Char) : Option Nat :=
  let ds := match cs with
    | '+' :: ds => ds
    | ds => ds
  if !ds.isEmpty && ds.all Char.isDigit && decide (digitsValue ds < 4294967296) then
    some (digitsValue ds)
  else none

def position? (cs : List Char) : Option Position := do
  let (line, column) ← splitAt? ':' cs
  return ⟨← number? line, ← number? column⟩

/-- Reads a selection. Blanks may stand anywhere and do not count. -/
def parse? (s : String) : Option Selection := do
  let (first, last) ← splitAt? '-' (s.toList.filter fun c => !isBlank c)
  return ⟨← position? first, ← position? last⟩

/-- What is said about a text that is no selection. -/
def malformedMessage (s : String) : String :=
  "malformed selection `" ++ s ++ "`, expected `line:col-line:col`"

/-- For every byte of a text, whether it is a space, a tab or part of a line end. -/
def blankBytes : List Char → List Bool
  | [] => []
  | c :: cs =>
    (if c = ' ' ∨ c = '\t' ∨ c = '\n' ∨ c = '\r' then [true]
      else List.replicate c.utf8Size false) ++ blankBytes cs

/-- Moves the two ends of a byte range together over blank bytes. -/
def trim (blanks : List Bool) (first last : Nat) : Nat × Nat :=
  let first' := first + (((blanks.drop first).take (last - first)).takeWhile id).length
  let middle := (blanks.drop first').take (last - first')
  (first', last - (middle.reverse.takeWhile id).length)

/-- Drops surrounding blanks. Cursors beyond a line or the text are pulled to the nearest position
before. -/
def shrink (s : Selection) (source : String) : Selection :=
  let text := terminated source
  let table := LineTable.ofText text
  match table.offset? (table.clamp s.first), table.offset? (table.clamp s.last) with
  | some first, some last =>
    let (first, last) := trim (blankBytes text.toList) first last
    ⟨table.position first, table.position last⟩
  | _, _ => s

end Selection

end FuncLift
