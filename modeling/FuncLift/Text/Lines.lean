/-!
# Lines and positions

A document is a list of newline-terminated lines, and for every question about positions only their
byte lengths matter. Lines and columns count from one, columns count bytes, and the newline itself
is the last column of its line.
-/
namespace FuncLift

/-- One-based line and byte column. -/
structure Position where
  line : Nat
  column : Nat
deriving DecidableEq, Repr, Inhabited

namespace Position

/-- Document order. -/
def before (p q : Position) : Bool :=
  decide (p.line < q.line) || (p.line == q.line && decide (p.column < q.column))

def text (p : Position) : String := toString p.line ++ ":" ++ toString p.column

end Position

/-- A text with the newline that its last line may lack. -/
def terminated (text : String) : String := if text.endsWith "\n" then text else text ++ "\n"

/-- Number of bytes of the encoded characters. -/
def byteSize : List Char → Nat
  | [] => 0
  | c :: cs => c.utf8Size + byteSize cs

/-- Lengths of the newline-terminated lines, and of the unterminated rest after them. -/
def splitLengths : List Char → List Nat × Nat
  | [] => ([], 0)
  | c :: cs =>
    let (lines, tail) := splitLengths cs
    if c = '\n' then (0 :: lines, tail)
    else match lines with
      | [] => ([], c.utf8Size + tail)
      | n :: ns => ((c.utf8Size + n) :: ns, tail)

/-- Byte lengths of the lines of a document, newlines not counted. -/
structure LineTable where
  lengths : List Nat
deriving DecidableEq, Repr, Inhabited

namespace LineTable

/-- The lines of a newline-terminated text. -/
def ofText (text : String) : LineTable := ⟨(splitLengths text.toList).1⟩

/-- Lengths between consecutive starts; the document's size closes the last line. -/
def lengthsBetween (size : Nat) : List Nat → List Nat
  | [] => []
  | [s] => [size - s - 1]
  | s :: t :: rest => (t - s - 1) :: lengthsBetween size (t :: rest)

def ofStarts (starts : List Nat) (size : Nat) : LineTable := ⟨lengthsBetween size starts⟩

/-- Offsets of the line starts, the first line starting at `base`. -/
def startsFrom (base : Nat) : List Nat → List Nat
  | [] => []
  | n :: ns => base :: startsFrom (base + n + 1) ns

def starts (t : LineTable) : List Nat := startsFrom 0 t.lengths

/-- Every line counts one byte more, its newline. -/
def bytes : List Nat → Nat
  | [] => 0
  | n :: ns => n + 1 + bytes ns

def size (t : LineTable) : Nat := bytes t.lengths

def count (t : LineTable) : Nat := t.lengths.length

/-- Length of a line by its one-based number. -/
def length? (t : LineTable) : Nat → Option Nat
  | 0 => none
  | line + 1 => t.lengths[line]?

/-- Replaces the lines with indices from `first` up to `last` by other lines. -/
def splice (t : LineTable) (first last : Nat) (lines : List Nat) : LineTable :=
  ⟨t.lengths.take first ++ lines ++ t.lengths.drop last⟩

def append (t : LineTable) (lines : List Nat) : LineTable := ⟨t.lengths ++ lines⟩

/-- Index of the line that holds an offset and the distance from its start. Past the end of the
lines the index is their number. -/
def locate : List Nat → Nat → Nat × Nat
  | [], offset => (0, offset)
  | n :: ns, offset =>
    if offset ≤ n then (0, offset)
    else
      let (line, rest) := locate ns (offset - (n + 1))
      (line + 1, rest)

def lineOf (t : LineTable) (offset : Nat) : Nat := (locate t.lengths offset).1 + 1

def position (t : LineTable) (offset : Nat) : Position :=
  let (line, rest) := locate t.lengths offset
  ⟨line + 1, rest + 1⟩

/-- Offset of a position. The column may point at the line's newline, not behind it. -/
def offset? (t : LineTable) (p : Position) : Option Nat :=
  match p.line with
  | 0 => none
  | line + 1 =>
    match t.lengths[line]? with
    | none => none
    | some n =>
      if p.column = 0 ∨ p.column > n + 1 then none
      else some (bytes (t.lengths.take line) + (p.column - 1))

/-- The nearest position of the document. -/
def clamp (t : LineTable) (p : Position) : Position :=
  match t.lengths.getLast? with
  | none => ⟨1, 1⟩
  | some final =>
    if p.line > t.count then ⟨t.count, final + 1⟩
    else
      let line := max p.line 1
      ⟨line, min (max p.column 1) ((t.length? line).getD 0 + 1)⟩

end LineTable

end FuncLift
