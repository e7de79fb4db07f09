import FuncLift.Document
import FuncLift.Render.Draw

/-!
# Drawings

A drawing is what the pen leaves behind: the text, the marks, and the comments that found no place.
Its layout is read off it: where it ends, how long its lines are, and how long the rest after the
last of them.
-/
namespace FuncLift

structure Drawing where
  base : Nat
  text : String
  marks : List Mark
  unplaced : List CommentGroup

namespace Drawing

/-- Offset behind the last byte. -/
def stop (d : Drawing) : Nat := d.base + d.text.utf8ByteSize

/-- Lengths of the lines that are terminated. -/
def lines (d : Drawing) : List Nat := (splitLengths d.text.toList).1

/-- Length of the unterminated rest. -/
def tail (d : Drawing) : Nat := (splitLengths d.text.toList).2

/-- Draws from an offset on. The lines are those on which the spans of the tree lie. -/
def run (lines : LineTable) (comments : List CommentGroup) (base : Nat) (draw : Draw Unit) :
    Drawing :=
  let (_, pen) := draw.run
    { lines, pieces := [], marks := [], offset := base, comments, indent := 0,
      sunk := false, lastEnd := none, atStart := false, lastOp := none }
  ⟨base, String.join pen.pieces.reverse, pen.marks.reverse, pen.comments⟩

/-- A part of a tree by itself, without comments and as if it had stood on one line. -/
def fragment (draw : Draw Unit) : String := (run ⟨[]⟩ [] 0 draw).text

end Drawing

def Expr.print (e : Expr) : String := Drawing.fragment (Draw.expr none 1 e)

def TypeExpr.print (t : TypeExpr) : String := Drawing.fragment (Draw.typeExpr t)

def Stmt.print (s : Stmt) : String := Drawing.fragment (Draw.stmt s)

namespace Document

def drawing (d : Document) (base : Nat) : Drawing :=
  .run d.lines d.file.comments base (Draw.sourceFile d.file)

/-- The text of a document, comments included. -/
def print (d : Document) : String := (d.drawing 0).text

end Document

end FuncLift
