import FuncLift.Lift.Fault
import FuncLift.Lift.Slot
import FuncLift.Render.Drawing

/-!
# Regions

A region is what a selection stands for: one expression whose span is exactly the selection, or else
statements next to each other in one list, of which the first starts and the last ends with the
selection.
-/
namespace FuncLift

/-- A node that holds a list of statements. -/
inductive Owner where
  | block (b : Block)
  | clause (c : Clause)
  | comm (c : Comm)

namespace Owner

def stmts : Owner → List Stmt
  | .block b => b.stmts
  | .clause c => c.stmts
  | .comm c => c.stmts

def node : Owner → Node
  | .block b => .block b
  | .clause c => .clause c
  | .comm c => .comm c

def ofNode? : Node → Option Owner
  | .block b => some (.block b)
  | .clause c => some (.clause c)
  | .comm c => some (.comm c)
  | _ => none

end Owner

/-- An expression with the node it stands in and its slot there, or statements of one list. -/
inductive Region where
  | expression (e : Expr) (parent : Node) (slot : Option Slot)
  | statements (stmts : List Stmt) (owner : Owner)

namespace Region

def span : Region → Span
  | .expression e _ _ => e.span
  | .statements stmts _ =>
    match stmts.head?, stmts.getLast? with
    | some first, some last => first.span.hull last.span
    | _, _ => .unset

def roots : Region → List Outline
  | .expression e _ _ => [.ofExpr e]
  | .statements stmts _ => stmts.map .ofStmt

/-- All nodes of a region in walk order. -/
def nodes (r : Region) : List Node := r.roots.flatMap Outline.nodes

end Region

namespace Span

/-- Neither span lies wholly before the other. -/
def touches (s t : Span) : Bool := decide (s.start ≤ t.stop) && decide (t.start ≤ s.stop)

end Span

namespace Outline

mutual

/-- The first expression with exactly this span, with its parent. -/
def filling? (target : Span) (parent : Option Node) : Outline → Option (Expr × Option Node)
  | .node n cs =>
    if n.isComment || !n.span.touches target then none
    else
      match n with
      | .expr e =>
        if e.span.start = target.start ∧ e.span.stop = target.stop then some (e, parent)
        else fillingAmong? target n cs
      | _ => fillingAmong? target n cs

def fillingAmong? (target : Span) (parent : Node) : List Outline → Option (Expr × Option Node)
  | [] => none
  | o :: os =>
    match filling? target (some parent) o with
    | some found => some found
    | none => fillingAmong? target parent os

end

/-- The nodes of outlines, comments left out. -/
def siblings (os : List Outline) : List Node :=
  (os.map content).filter fun n => !n.isComment

mutual

/-- The first node that starts at an offset and its siblings behind it, with their parent. -/
def runBelow? (start : Nat) : Outline → Option (Option Node × List Node)
  | .node n cs => runAmong? start (some n) cs

def runAmong? (start : Nat) (parent : Option Node) : List Outline → Option (Option Node × List Node)
  | [] => none
  | o :: os =>
    if o.content.isComment then runAmong? start parent os
    else if o.span.start = start then some (parent, siblings (o :: os))
    else
      match runBelow? start o with
      | some found => some found
      | none => runAmong? start parent os

end

end Outline

/-- Nodes up to the first that ends at an offset, that one included. -/
def takeThrough? (stop : Nat) : List Node → Option (List Node)
  | [] => none
  | n :: ns => if n.span.stop = stop then some [n] else (takeThrough? stop ns).map (n :: ·)

def Node.stmt? : Node → Option Stmt
  | .stmt s => some s
  | _ => none

namespace SourceFile

/-- The statements that fill a span. -/
def statementsAt (f : SourceFile) (target : Span) : Except SelectionFault Region :=
  match Outline.runAmong? target.start none (Outline.ofFile f) with
  | none => .error .noNodeAtStart
  | some (parent, siblings) =>
    match takeThrough? target.stop siblings with
    | none => .error .noNodeAtEnd
    | some run =>
      match parent.bind Owner.ofNode? with
      | none => .error .notAStatementList
      | some owner =>
        match run.mapM Node.stmt? with
        | none => .error .notAStatement
        | some stmts => .ok (.statements stmts owner)

/-- What fills a span: an expression before statements. -/
def regionAt (f : SourceFile) (target : Span) : Except SelectionFault Region :=
  match (Outline.ofFile f).findSome? (Outline.filling? target none) with
  | some (e, some parent) => .ok (.expression e parent (Slot.locate e.tag.id parent))
  | _ => f.statementsAt target

end SourceFile

namespace Document

/-- The bytes that two cursors enclose. -/
def range? (d : Document) (s : Selection) : Option Span :=
  match d.lines.offset? s.first, d.lines.offset? s.last with
  | some first, some last => some ⟨first, last⟩
  | _, _ => none

/-- The region that a selection stands for. Blanks around it do not count. -/
def resolve (d : Document) (s : Selection) : Except SelectionFault Region :=
  match d.range? s with
  | none => .error .outOfBounds
  | some raw =>
    if raw.start > raw.stop then .error .reversed
    else
      match d.range? (s.shrink (d.source.getD d.print)) with
      | none => .error .outOfBounds
      | some target =>
        if target.start ≥ target.stop then .error .empty else d.file.regionAt target

end Document

end FuncLift
