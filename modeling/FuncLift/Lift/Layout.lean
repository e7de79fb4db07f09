import FuncLift.Lift.Edit

/-!
# Layout after an edit

The place of the call and the new function at the end of the file are laid out first. One pass over
the rewritten file moves everything behind the call by the change of size there, but for what is new
and what went into the new function. Then the whole file is laid out once more, so that every span
and every line describes exactly the text that is written.
-/
namespace FuncLift

/-- Bytes removed from one line: columns from `first` up to `last`, counted from zero. -/
structure Removal where
  line : Nat
  first : Nat
  last : Nat
deriving DecidableEq, Repr

/-- How the text changed where the call was put, and the lines of the whole text afterwards. -/
structure LineEdit where
  removed : List Removal
  delta : Int
  lines : LineTable

namespace Span

def shiftOffset (start : Nat) (delta : Int) (offset : Nat) : Nat :=
  if start ≤ offset then (offset + delta).toNat else offset

/-- Moves the ends that lie at or behind an offset. -/
def shift (start : Nat) (delta : Int) (s : Span) : Span :=
  if s.isUnset then s else ⟨shiftOffset start delta s.start, shiftOffset start delta s.stop⟩

end Span

namespace Change

/-- Moves the ends of spans that lie at or behind an offset. -/
def shift (start : Nat) (delta : Int) : Change :=
  .tags fun t => { t with span := t.span.shift start delta }

/-- Puts everything where it was marked. -/
def ofMarks (marks : List Mark) : Change :=
  let places := marks.map fun m => (m.id, m.span)
  .tags fun t => { t with span := (places.lookup t.id).getD t.span }

end Change

namespace LineTable

/-- Columns of all bytes of the lines from one up to another. -/
def wholeLines (t : LineTable) : Nat → Nat → List Removal
  | _, 0 => []
  | line, n + 1 => ⟨line, 0, (t.length? line).getD 0⟩ :: wholeLines t (line + 1) n

/-- The text between two positions line by line, newlines left out. -/
def removal (t : LineTable) (first last : Position) : List Removal :=
  if first.line = last.line then [⟨first.line, first.column - 1, last.column - 1⟩]
  else
    ⟨first.line, first.column - 1, (t.length? first.line).getD 0⟩ ::
      wholeLines t (first.line + 1) (last.line - (first.line + 1)) ++
        [⟨last.line, 0, last.column - 1⟩]

/-- Drops empty lines at the end. -/
def dropBlankEnd (t : LineTable) : LineTable :=
  ⟨(t.lengths.reverse.dropWhile (· == 0)).reverse⟩

end LineTable

/-- The lines of a drawing that stands between the given numbers of bytes on its first and its last
line. -/
def Drawing.linesBetween (d : Drawing) (before after : Nat) : List Nat :=
  match d.lines with
  | [] => [before + d.tail + after]
  | n :: ns => (before + n) :: ns ++ [d.tail + after]

namespace Document

/-- Lays the whole file out and takes over spans and lines. -/
def settle (d : Document) : Document :=
  let drawing := d.drawing 0
  { d with
    file := (Change.ofMarks drawing.marks.reverse).sourceFile d.file
    lines := ⟨drawing.lines⟩ }

end Document

namespace Edit

variable (e : Edit) (d : Document)

def drawReplacement : Draw Unit :=
  match e.replacement with
  | .expr x => Draw.expr none 1 x
  | .stmt s => Draw.stmt s

/-- The replacement, drawn where the region stood. -/
def callDrawing : Drawing := .run d.lines [] e.old.start e.drawReplacement

/-- By how much the text grows where the region stood. -/
def delta : Int := ((e.callDrawing d).stop : Int) - e.old.stop

/-- The text of the region, line by line. -/
def removed : List Removal :=
  d.lines.removal (d.lines.position e.old.start) (d.lines.position e.old.stop)

/-- Whether a comment moves with the region. -/
def takes (g : CommentGroup) : Bool :=
  decide (e.old.start ≤ g.tag.span.start) && decide (g.tag.span.start ≤ e.old.stop)

def detached : List CommentGroup := e.host.comments.filter e.takes

def kept : List CommentGroup := e.host.comments.filter fun g => !e.takes g

/-- The numbers of all comments that move with the region. -/
def detachedIds : List Nat :=
  e.detached.flatMap fun g => g.tag.id :: g.comments.map fun c => c.tag.id

/-- Whether a node is neither new nor moves with the region. -/
def stays (id : Nat) : Bool :=
  decide (id < e.watermark) && !(e.moved.nodes.contains id || e.detachedIds.contains id)

/-- Whether a name in a list is neither new nor moves with the region. -/
def staysListed (id : Nat) : Bool := decide (id < e.watermark) && !e.moved.containsName id

/-- The numbers of what stays of a node. Names outside of lists stay with their node, and those in
lists by themselves. -/
def shiftedAt (n : Node) : List Nat :=
  (if e.stays n.tag.id then n.tag.id :: n.inlineNames.map fun x => x.tag.id else []) ++
    (n.listedNames.map fun x => x.tag.id).filter e.staysListed

/-- The numbers of all that stays in the rewritten file. -/
def shifted : List Nat :=
  e.file.nodes.flatMap e.shiftedAt ++ [e.file.tag.id, e.file.name.tag.id]

/-- Moves what stays as the text behind the region moves. -/
def shiftUnmoved : Change :=
  let ids := e.shifted
  .tags fun t =>
    if ids.contains t.id then { t with span := t.span.shift e.old.stop (e.delta d) } else t

/-- The lines after the region made place for the call. -/
def linesAround : LineTable :=
  let first := d.lines.position e.old.start
  let last := d.lines.position e.old.stop
  let after := (d.lines.length? last.line).elim 0 fun n => n - (last.column - 1)
  d.lines.splice (first.line - 1) last.line
    ((e.callDrawing d).linesBetween (first.column - 1) after)

/-- The size of the text with the call in it. -/
def sizeAround : Nat := ((d.size : Int) + e.delta d).toNat

/-- How far the moved code moved. -/
def distance (tail : Drawing) : Int :=
  match e.anchor.bind fun n => tail.marks.find? fun m => m.id == n.tag.id with
  | some m => (m.span.start : Int) - e.old.start
  | none => 0

/-- A comment that moved stands where it was drawn. One that found no place keeps its distance to
the moved code. -/
def placeComment (tail : Drawing) (g : CommentGroup) : CommentGroup :=
  if tail.unplaced.any fun u => u.tag.id == g.tag.id then
    (Change.shift 0 (e.distance tail)).commentGroup g
  else (Change.ofMarks tail.marks.reverse).commentGroup g

end Edit

/-- The file around the call, and apart from it the new function and the comments that move with the
region. -/
structure Parts where
  host : SourceFile
  function : FuncDecl
  detached : List CommentGroup

/-- The parts of a rewritten file once what stays has moved and the call has its place. -/
def Edit.parts (e : Edit) (d : Document) : Parts :=
  let shift := e.shiftUnmoved d
  let place := Change.ofMarks (e.callDrawing d).marks.reverse
  { host := place.sourceFile (shift.sourceFile { e.host with comments := e.kept })
    function := place.func (shift.func e.function)
    detached := e.detached.map fun g => place.commentGroup (shift.commentGroup g) }

namespace Parts

variable (p : Parts) (e : Edit) (d : Document)

/-- The new function stands behind a blank line. -/
def drawFunction : Draw Unit := do
  Draw.write "\n"
  Draw.topDecl (.func p.function)
  Draw.write "\n"

/-- The new function with the comments of the region, drawn behind the last line that is not
empty. -/
def drawing : Drawing :=
  .run d.lines p.detached (e.linesAround d).dropBlankEnd.size p.drawFunction

/-- The file with the new function and all comments, in the order of their starts. -/
def file (tail : Drawing) : SourceFile :=
  let comments := p.host.comments ++ p.detached.map (e.placeComment tail)
  { p.host with
    decls := p.host.decls ++ [.func ((Change.ofMarks tail.marks.reverse).func p.function)]
    comments := comments.mergeSort fun a b => decide (a.tag.span.start ≤ b.tag.span.start) }

end Parts

namespace Document

/-- Lays out an edit: the call, the new function, and then the whole file once more. -/
def layout (d : Document) (e : Edit) : Except LiftFault (Document × LineEdit) :=
  let around := e.linesAround d
  if around.size ≠ e.sizeAround d then .error (.layout (e.sizeAround d) around.size)
  else
    let parts := e.parts d
    let tail := parts.drawing e d
    let lines := around.dropBlankEnd.append tail.lines
    if lines.size ≠ tail.stop ∨ tail.tail ≠ 0 then .error (.layout tail.stop lines.size)
    else
      let next := ({
        file := parts.file e tail
        lines
        source := none
        vocabulary := d.vocabulary.addAll e.words
        nextId := e.nextId } : Document).settle
      .ok (next, ⟨e.removed d, e.delta d, next.lines⟩)

end Document

end FuncLift
