import FuncLift.Tree.Outline

/-!
# The pen

Drawing a tree writes pieces of text and marks where every node and name came to stand. What is
written depends on the spans that the tree already has: they tell on which lines things stood, and
so where lines break, where blank lines stay and where comments belong. A node without a span gets
the least spacing.
-/
namespace FuncLift

/-- The places in which a name that is no expression can stand. -/
inductive NameRole where
  | list | packageName | importName | typeName | func | selector | label | typeSwitchBind
deriving DecidableEq, Repr

def NameRole.text : NameRole → String
  | .list => "List" | .packageName => "PackageName" | .importName => "Import"
  | .typeName => "TypeName" | .func => "Func" | .selector => "Selector" | .label => "Label"
  | .typeSwitchBind => "TypeSwitchBind"

inductive MarkKind where
  | node (form : Form)
  | name (role : NameRole)
  | packageClause
deriving DecidableEq, Repr

def MarkKind.label : MarkKind → String
  | .node f => f.family.name ++ " " ++ f.describe
  | .name r => "Ident " ++ r.text
  | .packageClause => "PackageClause"

/-- Where the thing with a tag number came to stand. -/
structure Mark where
  kind : MarkKind
  id : Nat
  span : Span
deriving DecidableEq, Repr

/-- State of drawing. Pieces and marks are kept newest first. -/
structure Pen where
  /-- The lines on which the spans of the tree lie. -/
  lines : LineTable
  pieces : List String
  marks : List Mark
  /-- Offset of the next byte written. -/
  offset : Nat
  /-- Comment groups not written yet, in the order of their starts. -/
  comments : List CommentGroup
  indent : Nat
  /-- The indentation was to be lowered where there was none. -/
  sunk : Bool
  /-- Former end of what was written last. -/
  lastEnd : Option Nat
  atStart : Bool
  /-- The operator just written, until something follows it. -/
  lastOp : Option String

/-- The offset, unless it says that the position is not known. -/
def known? (offset : Nat) : Option Nat := if offset = Span.unknown then none else some offset

namespace Pen

variable (p : Pen)

def lineAt? (offset : Nat) : Option Nat := (known? offset).map p.lines.lineOf

def sameLine (a b : Nat) : Bool :=
  match p.lineAt? a, p.lineAt? b with
  | some x, some y => x == y
  | _, _ => false

/-- Line breaks before something that stood at a span: as many as there were, but at least `least`
and at most two. -/
def gap (next : Span) (least : Nat) : Nat :=
  match p.lastEnd.bind p.lineAt?, p.lineAt? next.start with
  | some above, some line => min (max (line - above) least) 2
  | _, _ => least

def isTrailing (span : Span) : Bool :=
  match p.lastEnd with
  | some e => p.sameLine e span.start
  | none => false

/-- A comment that waits stands inside the span. -/
def hasCommentWithin (span : Span) : Bool :=
  !span.isUnset &&
    (p.comments.takeWhile fun g => decide (g.tag.span.start < span.stop)).any
      fun g => decide (span.start ≤ g.tag.span.start)

/-- The last comment group before the span ends on the line above it. -/
def hasDocComment (span : Span) : Bool :=
  match p.lineAt? span.start with
  | none => false
  | some line =>
    let before := p.comments.takeWhile fun g => decide (g.tag.span.start < span.start)
    match before.getLast?.bind fun g => p.lineAt? g.tag.span.stop with
    | some e => e + 1 == line
    | none => false

end Pen

abbrev Draw := StateM Pen

namespace Draw

def write (s : String) : Draw Unit :=
  modify fun p => { p with pieces := s :: p.pieces, offset := p.offset + s.utf8ByteSize }

def offset : Draw Nat := return (← get).offset

def setLastEnd (e : Option Nat) : Draw Unit := modify fun p => { p with lastEnd := e }

def setLastOp (o : Option String) : Draw Unit := modify fun p => { p with lastOp := o }

def setComments (gs : List CommentGroup) : Draw Unit := modify fun p => { p with comments := gs }

def indentMore : Draw Unit := modify fun p => { p with indent := p.indent + 1 }

/-- Where there is no indentation it stays at none, and that is on record. -/
def indentLess : Draw Unit :=
  modify fun p => { p with indent := p.indent - 1, sunk := p.sunk || p.indent == 0 }

def text (s : String) : Draw Unit := do
  write s
  setLastOp none

/-- Two signs that would read as one if nothing stood between them. -/
def combine (before next : String) : Bool :=
  match before, next.toList.head? with
  | "+", some '+' | "-", some '-' | "/", some '*' => true
  | "<", some '-' | "<", some '<' | "&", some '&' | "&", some '^' => true
  | _, _ => false

def spaceIfCombines (next : String) : Draw Unit := do
  match (← get).lastOp with
  | some before => if combine before next then text " "
  | none => pure ()

def operator (s : String) : Draw Unit := do
  spaceIfCombines s
  write s
  setLastOp (some s)

/-- Line breaks, and the indentation of the new line. -/
def newlines (n : Nat) : Draw Unit := do
  let tabs := (← get).indent
  write (String.ofList (List.replicate n '\n' ++ List.replicate tabs '\t'))
  setLastOp none

def mark (kind : MarkKind) (id start : Nat) : Draw Unit :=
  modify fun p => { p with marks := ⟨kind, id, ⟨start, p.offset⟩⟩ :: p.marks }

def markNode (form : Form) (tag : Tag) (start : Nat) : Draw Unit := mark (.node form) tag.id start

def name (role : NameRole) (n : Name) : Draw Unit := do
  let start ← offset
  text n.text
  mark (.name role) n.tag.id start

def names : List Name → Draw Unit
  | [] => pure ()
  | [n] => name .list n
  | n :: ns => do
    name .list n
    text ", "
    names ns

/-- Breaks the line before something that stood at a span; at the start of a file there is nothing
to break. -/
def separate (next : Span) (least : Nat) : Draw Unit := do
  let p ← get
  if p.atStart then set { p with atStart := false }
  else newlines (p.gap next least)

/-- The comments of a group after the first, each behind the former on its line or on a new one. -/
def moreComments (last : Nat) : List Comment → Draw Unit
  | [] => pure ()
  | c :: cs => do
    if (← get).sameLine last c.tag.span.start then text " " else newlines 1
    let start ← offset
    text c.text
    markNode .comment c.tag start
    moreComments c.tag.span.stop cs

/-- Writes a group behind the last thing on its line, or on a line of its own. -/
def commentGroup (g : CommentGroup) (least : Nat) : Draw Unit := do
  let span := g.tag.span
  if (← get).isTrailing span then text " " else separate span least
  let start ← offset
  match g.comments with
  | [] => pure ()
  | c :: cs =>
    text c.text
    markNode .comment c.tag start
    moreComments c.tag.span.stop cs
  markNode .commentGroup g.tag start
  setLastEnd (known? span.stop)

def flushFrom (limit least : Nat) : List CommentGroup → Draw Bool
  | [] => pure false
  | g :: gs =>
    if g.tag.span.start ≥ limit then pure false
    else do
      setComments gs
      commentGroup g least
      let _ ← flushFrom limit 1 gs
      return true

/-- Writes the waiting comments that start before the limit, and tells whether there were any. -/
def flush (limit least : Nat) : Draw Bool := do flushFrom limit least (← get).comments

def flushTrailingFrom : List CommentGroup → Draw Unit
  | [] => pure ()
  | g :: gs => do
    if (← get).isTrailing g.tag.span then
      setComments gs
      commentGroup g 1
      flushTrailingFrom gs

def flushTrailing : Draw Unit := do flushTrailingFrom (← get).comments

def inlineGroup : List Comment → Draw Unit
  | [] => pure ()
  | [c] => do
    let start ← offset
    text c.text
    markNode .comment c.tag start
  | c :: cs => do
    let start ← offset
    text c.text
    markNode .comment c.tag start
    text " "
    inlineGroup cs

def inlineFrom (span : Span) : List CommentGroup → Draw Unit
  | [] => pure ()
  | g :: gs => do
    if g.tag.span.start < span.start && (← get).sameLine g.tag.span.stop span.start then
      setComments gs
      let start ← offset
      inlineGroup g.comments
      markNode .commentGroup g.tag start
      text " "
      inlineFrom span gs

/-- Comments that stand in front of an operand on its line. -/
def inlineComments (span : Span) : Draw Unit := do
  unless span.isUnset do inlineFrom span (← get).comments

/-- Writes the comments due before an item, and returns the spacing left for the item. -/
def beforeItem (span : Span) (least : Nat) : Draw Nat := do
  if span.isUnset then
    flushTrailing
    return least
  else
    return if ← flush span.start least then 1 else least

def itemBreak (span : Span) (least : Nat) : Draw Unit := do
  separate span (← beforeItem span least)

/-- The span of the last byte, if the span starts somewhere. -/
def lastByte (span : Span) : Span := if span.isUnset then .unset else ⟨span.stop - 1, span.stop⟩

/-- The offset before another one. Offsets have 32 bits, so the one before the first is the last. -/
def offsetBefore (offset : Nat) : Nat := if offset = 0 then Span.unknown else offset - 1

/-- The span of the closing delimiter of a list, if the end of what holds the list is known. -/
def closingByte (span : Span) : Span :=
  match known? span.stop with
  | some e => ⟨offsetBefore e, e⟩
  | none => .unset

/-- Closing delimiter of a construct over several lines. -/
def close (span : Span) (delim : String) (indented : Bool) : Draw Unit := do
  let last := lastByte span
  let _ ← flush last.start 1
  if indented then indentLess
  separate last 1
  text delim

/-- Break before an item of a declaration group or of a struct. The first one always starts on the
next line. -/
def groupBreak (first : Bool) (span : Span) : Draw Unit := do
  if !first then itemBreak span 1
  else if !span.isUnset then
    if ← flush span.start 1 then separate span 1 else newlines 1
  else newlines 1

/-- Closing delimiter of a declaration group or struct, on its own line and one level out. -/
def closeGroup (span : Span) (delim : String) : Draw Unit := do
  let _ ← flush (closingByte span).start 1
  indentLess
  newlines 1
  text delim

/-- Something to draw that stood at a span. -/
structure Item where
  span : Span
  labeled : Bool
  draw : Draw Unit

/-- How far a list is drawn: the line of what came before, and whether it was indented. -/
structure ListState where
  line : Option Nat
  broken : Bool

def laterLine : Option Nat → Option Nat → Bool
  | some p, some l => decide (l > p)
  | _, _ => false

def breakOnce (s : ListState) : Draw ListState := do
  unless s.broken do indentMore
  return { s with broken := true }

def listItems (tail : String) (first : Bool) (s : ListState) : List Item → Draw ListState
  | [] => return s
  | x :: xs => do
    unless first do text ","
    let s ← if laterLine s.line ((← get).lineAt? x.span.start) then do
        let s ← breakOnce s
        itemBreak x.span 1
        pure s
      else do
        unless first do text " "
        pure s
    x.draw
    if xs.isEmpty then text tail
    let p ← get
    if (known? x.span.stop).isSome then setLastEnd (some x.span.stop)
    listItems tail false { s with line := p.lineAt? x.span.stop } xs

/-- Items separated by commas, on the lines on which they stood. If the closing delimiter stood on a
later line than the last item, a comma follows that item. -/
def list (opening : Nat) (items : List Item) (closing : Span) (tail : String) : Draw Unit := do
  let line := (← get).lineAt? opening
  if (known? opening).isSome then setLastEnd (some opening)
  let s ← listItems tail true ⟨line, false⟩ items
  let closes := !items.isEmpty && laterLine s.line ((← get).lineAt? closing.start)
  let s ← if closes then do
      text ","
      let s ← breakOnce s
      let _ ← flush closing.start 1
      pure s
    else pure s
  if s.broken then indentLess
  if closes then newlines 1

end Draw

end FuncLift
