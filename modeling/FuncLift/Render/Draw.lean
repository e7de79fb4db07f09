import FuncLift.Render.Blanks
import FuncLift.Render.Pen

/-!
# Drawing the tree

One function for every family of nodes. Lists of children become lists of items, each with the span
where it stood and the action that draws it; how the items are set out is the pen's business.
-/
namespace FuncLift

namespace Draw

/-- Function bodies over this size never go on one line. -/
def oneLineLimit : Nat := 100

/-- A struct with a single field stays on one line up to this size of the field. -/
def oneLineFieldLimit : Nat := 30

/-- Statements that a body on one line cannot hold. -/
def needsLines : Stmt → Bool
  | .block .. | .ifElse .. | .loop .. | .switch .. | .typeSwitch .. | .select .. | .labeled .. =>
    true
  | _ => false

def isLabeled : Stmt → Bool
  | .labeled .. => true
  | _ => false

/-- A short body that stood on one line stays there. -/
def fitsOneLine (p : Pen) (outer body : Span) (stmts : List Stmt) : Bool :=
  !outer.isUnset && !body.isUnset && p.sameLine body.start (body.stop - 1) &&
    decide (stmts.length ≤ 5) && decide (outer.length ≤ oneLineLimit) &&
    !p.hasCommentWithin body && stmts.all fun s => !needsLines s

def isSmall (f : Field) : Bool :=
  f.label.isNone && decide (f.tag.span.length ≤ oneLineFieldLimit)

def fieldsFitOneLine (p : Pen) (span : Span) (fields : List Field) : Bool :=
  !p.hasCommentWithin span &&
    match fields with
    | [] => true
    | [f] => (span.isUnset || p.sameLine span.start (span.stop - 1)) && isSmall f
    | _ => false

/-- Statements, each on its own line; a label stands one level further out. -/
def stmtLines : List Item → Draw Unit
  | [] => pure ()
  | x :: xs => do
    let least ← beforeItem x.span 1
    let indent := (← get).indent
    if x.labeled then indentLess
    separate x.span least
    modify fun p => { p with indent := indent }
    x.draw
    setLastEnd (known? x.span.stop)
    stmtLines xs

def joined (sep : String) : List Item → Draw Unit
  | [] => pure ()
  | [x] => x.draw
  | x :: xs => do
    x.draw
    text sep
    joined sep xs

def blockLines (t : Tag) (items : List Item) : Draw Unit := do
  let start ← offset
  text "\x7b"
  setLastEnd (known? t.span.start)
  indentMore
  stmtLines items
  close t.span "\x7d" true
  markNode .block t start

def blockOnOneLine (t : Tag) (items : List Item) : Draw Unit := do
  let start ← offset
  text "\x7b"
  unless items.isEmpty do
    text " "
    joined "; " items
    text " "
  text "\x7d"
  markNode .block t start
  setLastEnd (known? t.span.stop)

/-- Clauses of a switch or select, on the level of its keyword. -/
def clauseLines : List Item → Draw Unit
  | [] => pure ()
  | x :: xs => do
    itemBreak x.span 1
    x.draw
    setLastEnd (known? x.span.stop)
    clauseLines xs

def clauseBody (span : Span) (items : List Item) : Draw Unit := do
  text "\x7b"
  setLastEnd (known? span.start)
  clauseLines items
  close span "\x7d" false

/-- Items of a declaration group or struct, one level deeper than its keyword. -/
def groupLines (first : Bool) : List Item → Draw Unit
  | [] => pure ()
  | x :: xs => do
    groupBreak first x.span
    x.draw
    setLastEnd (known? x.span.stop)
    groupLines false xs

def params (opening : Nat) (items : List Item) (closing : Span) : Draw Unit := do
  text "("
  list opening items closing ""
  text ")"

/-- Header of an `if`, `for` or `switch`, from the keyword to the body. -/
def header (isFor : Bool) (init cond post : Option (Draw Unit)) : Draw Unit := do
  text " "
  if init.isNone && post.isNone then
    match cond with
    | some e =>
      e
      text " "
    | none => pure ()
  else
    init.getD (pure ())
    text "; "
    cond.getD (pure ())
    if isFor then
      text "; "
      match post with
      | some s =>
        s
        text " "
      | none => pure ()
    else if cond.isSome then text " "

def elementSpan (e : Element) : Span :=
  match e.key with
  | none => e.value.span
  | some k => if k.span.isUnset || e.value.span.isUnset then .unset else k.span.hull e.value.span

/-- An expression with its mark. Dropped parentheses around it are marked with it, from where the
comments in front of it start. -/
def marked (dropped : Option (List Tag)) (form : Form) (t : Tag) (sign : Option String)
    (content : Draw Unit) : Draw Unit := do
  let outer ← offset
  inlineComments t.span
  match sign with
  | some s => spaceIfCombines s
  | none => pure ()
  let start ← offset
  content
  markNode form t start
  (dropped.getD []).forM fun t => markNode .paren t outer

def sliceBounds (blanks : Bool) (before : Bool) : List (Option (Draw Unit)) → Draw Unit
  | [] => pure ()
  | x :: xs => do
    if before && blanks then text " "
    text ":"
    match x with
    | some e =>
      if blanks then text " "
      e
    | none => pure ()
    sliceBounds blanks x.isSome xs

/-- Bounds of a slice get blanks around their colons if there are several and one of them is an
operation. -/
def boundsNeedBlanks (depth : Nat) (bounds : List (Option Expr)) : Bool :=
  let given := bounds.filterMap id
  decide (depth ≤ 1) && decide (given.length > 1) && given.any Expr.isBinary

mutual

/-- Draws an expression. The depth drives the blanks around operators. Headers drop redundant
parentheses: there `dropped` holds those already left out, elsewhere it is `none`. -/
def expr (dropped : Option (List Tag)) (depth : Nat) : Expr → Draw Unit
  | .ident t n => marked dropped .ident t none (text n)
  | .lit t _ x => marked dropped .lit t none (text x)
  | .funcLit t sig b => marked dropped .funcLit t none do
      text "func"
      signature sig
      body t.span b
  | .composite t type elems => marked dropped .composite t none do
      let opening := match type with
        | some ty => ty.span.stop
        | none => t.span.start
      typeOption type
      text "\x7b"
      list opening (elementItems elems) (closingByte t.span) ""
      text "\x7d"
  | .paren t e =>
    match dropped with
    | some ts =>
      if e.hasBareLiteral then marked dropped .paren t none (parens e.isParen (expr none depth e)
        (expr none (max (depth - 1) 1) e))
      else expr (some (ts ++ [t])) depth e
    | none => marked none .paren t none (parens e.isParen (expr none depth e)
        (expr none (max (depth - 1) 1) e))
  | .selector t e sel => marked dropped .selector t none do
      expr none depth e
      text "."
      name .selector sel
  | .index t e i => marked dropped .index t none do
      expr none 1 e
      text "["
      expr none (depth + 1) i
      text "]"
  | .slice t e lo hi max => marked dropped .slice t none do
      expr none 1 e
      text "["
      let lo' := exprOption none (depth + 1) lo
      let hi' := exprOption none (depth + 1) hi
      let max' := exprOption none (depth + 1) max
      lo'.getD (pure ())
      sliceBounds (boundsNeedBlanks depth [lo, hi, max]) lo.isSome
        (if max.isSome then [hi', max'] else [hi'])
      text "]"
  | .assert t e type => marked dropped .assert t none do
      expr none 1 e
      text ".("
      if type.isSome then typeOption type else text "type"
      text ")"
  | .call t callee args spread => marked dropped .call t none do
      let depth := if args.length > 1 then depth + 1 else depth
      expr none depth callee
      text "("
      list callee.span.stop (exprItems depth args) (closingByte t.span) (if spread then "..." else "")
      text ")"
  | .unary t op e => marked dropped .unary t (some op.spelling) do
      operator op.spelling
      expr none (if op = .deref then 1 else depth) e
  | .binary t left op right =>
    let blanks := decide (op.precedence < (Expr.binary t left op right).cutoff depth)
    marked dropped .binary t none do
      expr none (depth + left.chainDepth op.precedence) left
      if blanks then text " "
      operator op.spelling
      let p ← get
      match p.lineAt? left.span.stop, p.lineAt? right.span.start with
      | some x, some y =>
        if y > x then
          indentMore
          newlines (min (y - x) 2)
          expr none (depth + 1) right
          indentLess
        else
          if blanks then text " "
          expr none (depth + 1) right
      | _, _ =>
        if blanks then text " "
        expr none (depth + 1) right
  | .type t type => marked dropped .typeOperand t none (typeExpr type)
where
  parens (nested : Bool) (bare inner : Draw Unit) : Draw Unit := do
    if nested then bare
    else
      text "("
      inner
      text ")"

def exprOption (dropped : Option (List Tag)) (depth : Nat) : Option Expr → Option (Draw Unit)
  | none => none
  | some e => some (expr dropped depth e)

def exprItems (depth : Nat) : List Expr → List Item
  | [] => []
  | e :: es => ⟨e.span, false, expr none depth e⟩ :: exprItems depth es

def elementItems : List Element → List Item
  | [] => []
  | e :: es => ⟨elementSpan e, false, element e⟩ :: elementItems es

def element : Element → Draw Unit
  | ⟨key, value⟩ => do
    match exprOption none 1 key with
    | some k =>
      k
      text ": "
    | none => pure ()
    expr none 1 value

def typeExpr : TypeExpr → Draw Unit
  | .named t pkg n => markedType t do
      match pkg with
      | some pkg =>
        text pkg
        text "."
      | none => pure ()
      text n
  | .pointer t e => markedType t do
      text "*"
      typeExpr e
  | .slice t e => markedType t do
      text "[]"
      typeExpr e
  | .array t len e => markedType t do
      text "["
      (exprOption none 1 len).getD (text "...")
      text "]"
      typeExpr e
  | .map t k v => markedType t do
      text "map["
      typeExpr k
      text "]"
      typeExpr v
  | .chan t dir e => markedType t do
      text (match dir with
        | .both => "chan "
        | .send => "chan<- "
        | .recv => "<-chan ")
      typeExpr e
  | .func t sig => markedType t do
      text "func"
      signature sig
  | .struct t fields => markedType t (fieldBlock "struct" t.span fields (fieldItems fields))
  | .interface t methods =>
    markedType t (fieldBlock "interface" t.span methods (methodItems methods))
where
  markedType (t : Tag) (content : Draw Unit) : Draw Unit := do
    let start ← offset
    content
    markNode .type t start
  fieldBlock (keyword : String) (span : Span) (fields : List Field) (items : List Item) :
      Draw Unit := do
    let oneLine := fieldsFitOneLine (← get) span fields
    text keyword
    if oneLine then
      match items with
      | [] => text "\x7b\x7d"
      | x :: _ =>
        text "\x7b "
        x.draw
        text " \x7d"
    else
      text " \x7b"
      setLastEnd (known? span.start)
      indentMore
      groupLines true items
      closeGroup span "\x7d"

def typeOption : Option TypeExpr → Draw Unit
  | none => pure ()
  | some t => typeExpr t

def typeItems : List TypeExpr → List Item
  | [] => []
  | t :: ts => ⟨t.span, false, typeExpr t⟩ :: typeItems ts

def field : Field → Draw Unit
  | ⟨t, ns, type, variadic, label⟩ => do
    let start ← offset
    names ns
    unless ns.isEmpty do text " "
    if variadic then text "..."
    typeExpr type
    match label with
    | some l =>
      text " "
      text l
    | none => pure ()
    markNode .field t start

def fieldItems : List Field → List Item
  | [] => []
  | f :: fs => ⟨f.tag.span, false, field f⟩ :: fieldItems fs

/-- A method of an interface: its name and signature, or the type that is embedded. -/
def method : Field → Draw Unit
  | ⟨t, [n], .func ft sig, _, _⟩ => do
    let start ← offset
    name .list n
    let typeStart ← offset
    signature sig
    markNode .type ft typeStart
    markNode .field t start
  | ⟨t, _, type, _, _⟩ => do
    let start ← offset
    typeExpr type
    markNode .field t start

def methodItems : List Field → List Item
  | [] => []
  | f :: fs => ⟨f.tag.span, false, method f⟩ :: methodItems fs

def signature : Signature → Draw Unit
  | ⟨t, ps, results⟩ => do
    let start ← offset
    let last := closingByte t.span
    let items := fieldItems results
    params t.span.start (fieldItems ps) ((items.head?.map Item.span).getD last)
    match results with
    | [] => pure ()
    | [⟨_, [], _, _, _⟩] =>
      text " "
      joined "" items
    | _ =>
      text " "
      params Span.unknown items last
    markNode .signature t start

def block : Block → Draw Unit
  | ⟨t, stmts⟩ => blockLines t (stmtItems stmts)

/-- The body of a function that stood at `outer`. -/
def body (outer : Span) : Block → Draw Unit
  | ⟨t, stmts⟩ => do
    let items := stmtItems stmts
    text " "
    if fitsOneLine (← get) outer t.span stmts then blockOnOneLine t items else blockLines t items

def simple : Simple → Draw Unit
  | .expr t e => do
    let start ← offset
    expr none 1 e
    markNode .exprSimple t start
  | .send t chan value => do
    let start ← offset
    expr none 1 chan
    text " <- "
    expr none 1 value
    markNode .sendSimple t start
  | .step t e op => do
    let start ← offset
    expr none 2 e
    text op.spelling
    markNode .stepSimple t start
  | .assign t lhs op rhs => do
    let start ← offset
    let depth := if lhs.length > 1 && rhs.length > 1 then 2 else 1
    list t.span.start (exprItems depth lhs) .unset ""
    text " "
    text op.spelling
    text " "
    list ((lhs.getLast?.map fun e => e.span.stop).getD Span.unknown) (exprItems depth rhs) .unset ""
    markNode .assignSimple t start
  | .define t ns values => do
    let start ← offset
    let depth := if ns.length > 1 && values.length > 1 then 2 else 1
    names ns
    text " := "
    list ((ns.getLast?.map fun n => n.tag.span.stop).getD Span.unknown) (exprItems depth values)
      .unset ""
    markNode .defineSimple t start

def simpleOption : Option Simple → Option (Draw Unit)
  | none => none
  | some s => some (simple s)

def stmt : Stmt → Draw Unit
  | .simple t s => markedStmt .simpleStmt t (simple s)
  | .decl t d => markedStmt .declStmt t (decl d)
  | .labeled t label s => markedStmt .labeledStmt t do
      name .label label
      text ":"
      setLastEnd (known? t.span.start)
      itemBreak s.span 1
      stmt s
  | .go t e => markedStmt .goStmt t do
      text "go "
      expr none 1 e
  | .defer t e => markedStmt .deferStmt t do
      text "defer "
      expr none 1 e
  | .ret t values => markedStmt .returnStmt t do
      text "return"
      unless values.isEmpty do
        text " "
        list t.span.start (exprItems 1 values) .unset ""
  | .branch t kind label => markedStmt .branchStmt t do
      text kind.spelling
      match label with
      | some l =>
        text " "
        name .label l
      | none => pure ()
  | .block t b => markedStmt .blockStmt t (block b)
  | .ifElse t init cond yes no => markedStmt .ifStmt t do
      text "if"
      header false (simpleOption init) (some (expr (some []) 1 cond)) none
      block yes
      match stmtOption no with
      | some s =>
        text " else "
        s
      | none => pure ()
  | .loop t head b => markedStmt .forStmt t do
      text "for"
      loopHead head
      block b
  | .switch t init subject cs => markedStmt .switchStmt t do
      text "switch"
      header false (simpleOption init) (exprOption (some []) 1 subject) none
      clauseBody t.span (clauseItems cs)
  | .typeSwitch t init bind guard cs => markedStmt .typeSwitchStmt t do
      text "switch "
      match simpleOption init with
      | some s =>
        s
        text "; "
      | none => pure ()
      match bind with
      | some n =>
        name .typeSwitchBind n
        text " := "
      | none => pure ()
      expr none 1 guard
      text " "
      clauseBody t.span (clauseItems cs)
  | .select t cs => markedStmt .selectStmt t do
      text "select "
      if cs.isEmpty && !(← get).hasCommentWithin t.span then text "\x7b\x7d"
      else clauseBody t.span (commItems cs)
where
  markedStmt (form : Form) (t : Tag) (content : Draw Unit) : Draw Unit := do
    let start ← offset
    content
    markNode form t start

def stmtOption : Option Stmt → Option (Draw Unit)
  | none => none
  | some s => some (stmt s)

def stmtItems : List Stmt → List Item
  | [] => []
  | s :: ss => ⟨s.span, isLabeled s, stmt s⟩ :: stmtItems ss

def loopHead : LoopHead → Draw Unit
  | .forever => header true none none none
  | .cond e => header true none (some (expr (some []) 1 e)) none
  | .clause init cond post =>
    header true (simpleOption init) (exprOption (some []) 1 cond) (simpleOption post)
  | .range key value define e => do
    text " "
    match exprOption none 1 key with
    | some k =>
      k
      match exprOption none 1 value with
      | some v =>
        text ", "
        v
      | none => pure ()
      text (if define then " := " else " = ")
    | none => pure ()
    text "range "
    expr (some []) 1 e
    text " "

def cases (start : Nat) : Cases → Draw Unit
  | .default => text "default"
  | .exprs es => do
    text "case "
    list start (exprItems 1 es) .unset ""
  | .types ts => do
    text "case "
    list start (typeItems ts) .unset ""

def clause : Clause → Draw Unit
  | ⟨t, cs, stmts⟩ => do
    let start ← offset
    setLastEnd (known? t.span.start)
    cases t.span.start cs
    text ":"
    indentMore
    stmtLines (stmtItems stmts)
    indentLess
    markNode .clause t start

def clauseItems : List Clause → List Item
  | [] => []
  | c :: cs => ⟨c.tag.span, false, clause c⟩ :: clauseItems cs

def comm : Comm → Draw Unit
  | ⟨t, guard, stmts⟩ => do
    let start ← offset
    setLastEnd (known? t.span.start)
    match simpleOption guard with
    | some s =>
      text "case "
      s
      setLastEnd ((guard.map Simple.span).bind fun g => known? g.stop)
    | none => text "default"
    text ":"
    indentMore
    stmtLines (stmtItems stmts)
    indentLess
    markNode .comm t start

def commItems : List Comm → List Item
  | [] => []
  | c :: cs => ⟨c.tag.span, false, comm c⟩ :: commItems cs

def decl : Decl → Draw Unit
  | ⟨t, kind, grouped, specs⟩ => do
    let start ← offset
    text kind.spelling
    text " "
    match grouped, specItems specs with
    | true, [] => text "()"
    | true, items =>
      text "("
      setLastEnd (known? t.span.start)
      indentMore
      groupLines true items
      closeGroup t.span ")"
    | false, [] => pure ()
    | false, x :: _ => x.draw
    markNode .decl t start

def spec : Spec → Draw Unit
  | .imports t n path => do
    let start ← offset
    match n with
    | some n =>
      name .importName n
      text " "
    | none => pure ()
    text path
    markNode .importSpec t start
  | .values t ns type values => do
    let start ← offset
    names ns
    if type.isSome then text " "
    typeOption type
    unless values.isEmpty do
      text " = "
      list t.span.start (exprItems 1 values) .unset ""
    markNode .valueSpec t start
  | .type t n isAlias type => do
    let start ← offset
    name .typeName n
    text (if isAlias then " = " else " ")
    typeExpr type
    markNode .typeSpec t start

def specItems : List Spec → List Item
  | [] => []
  | s :: ss => ⟨s.span, false, spec s⟩ :: specItems ss

end

def func (f : FuncDecl) : Draw Unit := do
  let start ← offset
  text "func "
  match f.recv with
  | some r =>
    text "("
    field r
    text ") "
  | none => pure ()
  name .func f.name
  signature f.sig
  match f.body with
  | some b => body f.tag.span b
  | none => pure ()
  markNode .func f.tag start

def topDecl : TopDecl → Draw Unit
  | .decl d => decl d
  | .func f => func f

/-- The kind of a declaration; functions are of no kind. -/
def declKind? : TopDecl → Option DeclKind
  | .decl d => some d.kind
  | .func _ => none

/-- Declarations of a file. A blank line stands before a documented one, before one of another kind
than the last, and before a function without a place of its own. -/
def topDecls (last : Option (Option DeclKind)) : List TopDecl → Draw Unit
  | [] => pure ()
  | d :: ds => do
    let kind := declKind? d
    let apart := last != some kind || d.span.isUnset || (← get).hasDocComment d.span
    itemBreak d.span (if apart then 2 else 1)
    topDecl d
    setLastEnd (known? d.span.stop)
    topDecls (some kind) ds

def sourceFile (f : SourceFile) : Draw Unit := do
  modify fun p => { p with atStart := true }
  let _ ← flush f.tag.span.start 1
  separate f.tag.span 1
  let start ← offset
  text "package "
  name .packageName f.name
  mark .packageClause f.tag.id start
  setLastEnd (known? f.tag.span.stop)
  topDecls none f.decls
  let _ ← flush Span.unknown 1
  text "\n"

end Draw

end FuncLift
