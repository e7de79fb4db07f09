import FuncLift.Proofs.Links

/-!
# Nodes by themselves

The head of a node is what is left of it without its span and without its children: its number, its
form, its names, signs and texts, and where it has a child, that there is one. Of a list of
statements not even the length is left. A change that keeps numbers keeps the heads of all nodes
that it does not replace.
-/
namespace FuncLift

def Tag.bare (t : Tag) : Tag := ⟨t.id, .unset⟩

def Name.bare (n : Name) : Name := ⟨n.tag.bare, n.text⟩

/-- What stands for a child. -/
def Expr.stub : Expr := .ident ⟨0, .unset⟩ ""

def TypeExpr.stub : TypeExpr := .named ⟨0, .unset⟩ none ""

def Field.stub : Field := ⟨⟨0, .unset⟩, [], .stub, false, none⟩

def Signature.stub : Signature := ⟨⟨0, .unset⟩, [], []⟩

def Block.stub : Block := ⟨⟨0, .unset⟩, []⟩

def Simple.stub : Simple := .expr ⟨0, .unset⟩ .stub

def Stmt.stub : Stmt := .simple ⟨0, .unset⟩ .stub

def Decl.stub : Decl := ⟨⟨0, .unset⟩, .vars, false, []⟩

def Spec.stub : Spec := .imports ⟨0, .unset⟩ none ""

def Clause.stub : Clause := ⟨⟨0, .unset⟩, .default, []⟩

def Comm.stub : Comm := ⟨⟨0, .unset⟩, none, []⟩

def Comment.stub : Comment := ⟨⟨0, .unset⟩, .line, ""⟩

def Element.head (e : Element) : Element := ⟨e.key.map fun _ => .stub, .stub⟩

def Expr.head : Expr → Expr
  | .ident t n => .ident t.bare n
  | .lit t k x => .lit t.bare k x
  | .funcLit t _ _ => .funcLit t.bare .stub .stub
  | .composite t ty es => .composite t.bare (ty.map fun _ => .stub) (es.map Element.head)
  | .paren t _ => .paren t.bare .stub
  | .selector t _ n => .selector t.bare .stub n.bare
  | .index t _ _ => .index t.bare .stub .stub
  | .slice t _ lo hi max =>
    .slice t.bare .stub (lo.map fun _ => .stub) (hi.map fun _ => .stub) (max.map fun _ => .stub)
  | .assert t _ ty => .assert t.bare .stub (ty.map fun _ => .stub)
  | .call t _ args spread => .call t.bare .stub (args.map fun _ => .stub) spread
  | .unary t op _ => .unary t.bare op .stub
  | .binary t _ op _ => .binary t.bare .stub op .stub
  | .type t _ => .type t.bare .stub

def TypeExpr.head : TypeExpr → TypeExpr
  | .named t pkg n => .named t.bare pkg n
  | .pointer t _ => .pointer t.bare .stub
  | .slice t _ => .slice t.bare .stub
  | .array t len _ => .array t.bare (len.map fun _ => .stub) .stub
  | .map t _ _ => .map t.bare .stub .stub
  | .chan t dir _ => .chan t.bare dir .stub
  | .func t _ => .func t.bare .stub
  | .struct t fs => .struct t.bare (fs.map fun _ => .stub)
  | .interface t ms => .interface t.bare (ms.map fun _ => .stub)

def Simple.head : Simple → Simple
  | .expr t _ => .expr t.bare .stub
  | .send t _ _ => .send t.bare .stub .stub
  | .step t _ op => .step t.bare .stub op
  | .assign t l op r => .assign t.bare (l.map fun _ => .stub) op (r.map fun _ => .stub)
  | .define t ns vs => .define t.bare (ns.map Name.bare) (vs.map fun _ => .stub)

def LoopHead.head : LoopHead → LoopHead
  | .forever => .forever
  | .cond _ => .cond .stub
  | .clause init c post =>
    .clause (init.map fun _ => .stub) (c.map fun _ => .stub) (post.map fun _ => .stub)
  | .range key value define _ =>
    .range (key.map fun _ => .stub) (value.map fun _ => .stub) define .stub

def Cases.head : Cases → Cases
  | .default => .default
  | .exprs es => .exprs (es.map fun _ => .stub)
  | .types ts => .types (ts.map fun _ => .stub)

def Stmt.head : Stmt → Stmt
  | .simple t _ => .simple t.bare .stub
  | .decl t _ => .decl t.bare .stub
  | .labeled t n _ => .labeled t.bare n.bare .stub
  | .go t _ => .go t.bare .stub
  | .defer t _ => .defer t.bare .stub
  | .ret t es => .ret t.bare (es.map fun _ => .stub)
  | .branch t kind n => .branch t.bare kind (n.map Name.bare)
  | .block t _ => .block t.bare .stub
  | .ifElse t init _ _ no =>
    .ifElse t.bare (init.map fun _ => .stub) .stub .stub (no.map fun _ => .stub)
  | .loop t h _ => .loop t.bare h.head .stub
  | .switch t init subject cs =>
    .switch t.bare (init.map fun _ => .stub) (subject.map fun _ => .stub) (cs.map fun _ => .stub)
  | .typeSwitch t init bind _ cs =>
    .typeSwitch t.bare (init.map fun _ => .stub) (bind.map Name.bare) .stub (cs.map fun _ => .stub)
  | .select t cs => .select t.bare (cs.map fun _ => .stub)

def Spec.head : Spec → Spec
  | .imports t n path => .imports t.bare (n.map Name.bare) path
  | .values t ns ty vs =>
    .values t.bare (ns.map Name.bare) (ty.map fun _ => .stub) (vs.map fun _ => .stub)
  | .type t n isAlias _ => .type t.bare n.bare isAlias .stub

def Node.head : Node → Node
  | .decl d => .decl ⟨d.tag.bare, d.kind, d.grouped, d.specs.map fun _ => .stub⟩
  | .spec s => .spec s.head
  | .func f => .func
    ⟨f.tag.bare, f.recv.map fun _ => .stub, f.name.bare, .stub, f.body.map fun _ => .stub⟩
  | .signature s => .signature
    ⟨s.tag.bare, s.params.map fun _ => .stub, s.results.map fun _ => .stub⟩
  | .field f => .field ⟨f.tag.bare, f.names.map Name.bare, .stub, f.variadic, f.label⟩
  | .block b => .block ⟨b.tag.bare, []⟩
  | .stmt s => .stmt s.head
  | .simple s => .simple s.head
  | .expr e => .expr e.head
  | .type t => .type t.head
  | .clause c => .clause ⟨c.tag.bare, c.cases.head, []⟩
  | .comm c => .comm ⟨c.tag.bare, c.comm.map fun _ => .stub, []⟩
  | .comment c => .comment ⟨c.tag.bare, c.kind, c.text⟩
  | .commentGroup g => .commentGroup ⟨g.tag.bare, g.comments.map fun _ => .stub⟩

def Entry.retag (f : Tag → Tag) (e : Entry) : Entry := { e with tag := f e.tag }

/-- A link without the span and the children of its node. -/
def Link.bare (l : Link) : Link := ⟨l.parent, l.node.head⟩

@[simp] theorem Node.id_head (n : Node) : n.head.tag.id = n.tag.id := by
  rcases n with d | s | f | s | f | b | s | s | e | t | c | c | c | g
  case spec => cases s <;> rfl
  case stmt => cases s <;> rfl
  case simple => cases s <;> rfl
  case expr => cases e <;> rfl
  case type => cases t <;> rfl
  all_goals rfl

@[simp] theorem Link.id_bare (l : Link) : l.bare.id = l.id := l.node.id_head

namespace Change

section Lists

variable (c : Change)

@[simp] theorem exprs_eq_map (es : List Expr) : c.exprs es = es.map c.expr := by
  induction es with
  | nil => rfl
  | cons e es ih => simp [exprs, ih]

@[simp] theorem exprOption_eq_map (e : Option Expr) : c.exprOption e = e.map c.expr := by cases e <;> rfl

@[simp] theorem elements_eq_map (es : List Element) : c.elements es = es.map c.element := by
  induction es with
  | nil => rfl
  | cons e es ih => simp [elements, ih]

@[simp] theorem typeOption_eq_map (t : Option TypeExpr) : c.typeOption t = t.map c.typeExpr := by
  cases t <;> rfl

@[simp] theorem types_eq_map (ts : List TypeExpr) : c.types ts = ts.map c.typeExpr := by
  induction ts with
  | nil => rfl
  | cons t ts ih => simp [types, ih]

@[simp] theorem fields_eq_map (fs : List Field) : c.fields fs = fs.map c.field := by
  induction fs with
  | nil => rfl
  | cons f fs ih => simp [fields, ih]

@[simp] theorem simpleOption_eq_map (s : Option Simple) : c.simpleOption s = s.map c.simple := by
  cases s <;> rfl

@[simp] theorem stmtOption_eq_map (s : Option Stmt) : c.stmtOption s = s.map c.stmt := by cases s <;> rfl

@[simp] theorem stmts_eq_map (ss : List Stmt) : c.stmts ss = ss.map c.stmt := by
  induction ss with
  | nil => rfl
  | cons s ss ih => simp [stmts, ih]

@[simp] theorem clauses_eq_map (cs : List Clause) : c.clauses cs = cs.map c.clause := by
  induction cs with
  | nil => rfl
  | cons x xs ih => simp [clauses, ih]

@[simp] theorem comms_eq_map (cs : List Comm) : c.comms cs = cs.map c.comm := by
  induction cs with
  | nil => rfl
  | cons x xs ih => simp [comms, ih]

@[simp] theorem specs_eq_map (ss : List Spec) : c.specs ss = ss.map c.spec := by
  induction ss with
  | nil => rfl
  | cons s ss ih => simp [specs, ih]

end Lists

/-- Numbers stay what they are. -/
def KeepsIds (c : Change) : Prop := ∀ t, (c.onTag t).id = t.id

section Heads

variable {c : Change} (hid : c.KeepsIds)

include hid

theorem bare_onTag (t : Tag) : (c.onTag t).bare = t.bare := by simp [Tag.bare, hid t]

theorem bare_name (n : Name) : (c.name n).bare = n.bare := by
  simp [Change.name, Name.bare, bare_onTag hid]

omit hid in
theorem head_element (e : Element) : (c.element e).head = e.head := by
  obtain ⟨key, value⟩ := e
  cases key <;> rfl

theorem head_expr {e : Expr} (hc : c.onExpr e = none) :
    (Node.expr (c.expr e)).head = (Node.expr e).head := by
  cases e <;> rw [Change.expr, hc] <;>
    simp [Node.head, Expr.head, bare_onTag hid, bare_name hid, head_element, Function.comp_def]

theorem head_type (t : TypeExpr) : (Node.type (c.typeExpr t)).head = (Node.type t).head := by
  cases t <;> simp [Node.head, TypeExpr.head, typeExpr, bare_onTag hid, Function.comp_def]

theorem head_field (f : Field) : (Node.field (c.field f)).head = (Node.field f).head := by
  obtain ⟨t, ns, type, variadic, label⟩ := f
  simp [Node.head, field, names, bare_onTag hid, bare_name hid]

theorem head_signature (s : Signature) :
    (Node.signature (c.signature s)).head = (Node.signature s).head := by
  obtain ⟨t, ps, rs⟩ := s
  simp [Node.head, signature, bare_onTag hid, Function.comp_def]

theorem head_block (b : Block) : (Node.block (c.block b)).head = (Node.block b).head := by
  obtain ⟨t, ss⟩ := b
  simp [Node.head, block, bare_onTag hid]

theorem head_simple (s : Simple) : (Node.simple (c.simple s)).head = (Node.simple s).head := by
  cases s <;> simp [Node.head, Simple.head, simple, names, bare_onTag hid, bare_name hid,
    Function.comp_def]

omit hid in
theorem head_loopHead (x : LoopHead) : (c.loopHead x).head = x.head := by
  cases x <;> simp [LoopHead.head, loopHead, Function.comp_def]

omit hid in
theorem head_cases (x : Cases) : (c.cases x).head = x.head := by
  cases x <;> simp [Cases.head, cases, Function.comp_def]

theorem head_stmt (s : Stmt) : (Node.stmt (c.stmt s)).head = (Node.stmt s).head := by
  cases s <;> simp [Node.head, Stmt.head, stmt, nameOption, head_loopHead, bare_onTag hid,
    bare_name hid, Function.comp_def]

theorem head_clause (x : Clause) : (Node.clause (c.clause x)).head = (Node.clause x).head := by
  obtain ⟨t, cs, ss⟩ := x
  simp [Node.head, clause, head_cases, bare_onTag hid]

theorem head_comm (x : Comm) : (Node.comm (c.comm x)).head = (Node.comm x).head := by
  obtain ⟨t, guard, ss⟩ := x
  simp [Node.head, comm, bare_onTag hid, Function.comp_def]

theorem head_decl (d : Decl) : (Node.decl (c.decl d)).head = (Node.decl d).head := by
  obtain ⟨t, kind, grouped, ss⟩ := d
  simp [Node.head, decl, bare_onTag hid, Function.comp_def]

theorem head_spec (s : Spec) : (Node.spec (c.spec s)).head = (Node.spec s).head := by
  cases s <;> simp [Node.head, Spec.head, spec, names, nameOption, bare_onTag hid, bare_name hid,
    Function.comp_def]

/-- The head of a node that is not replaced stays. -/
theorem head_node {n : Node} (hn : c.replacement? n = none) : (c.node n).head = n.head := by
  cases n with
  | decl d => exact head_decl hid d
  | spec s => exact head_spec hid s
  | func f => simp [Node.head, node, func, bare_onTag hid, bare_name hid, Function.comp_def]
  | signature s => exact head_signature hid s
  | field f => exact head_field hid f
  | block b => exact head_block hid b
  | stmt s => exact head_stmt hid s
  | simple s => exact head_simple hid s
  | expr e => exact head_expr hid hn
  | type t => exact head_type hid t
  | clause x => exact head_clause hid x
  | comm x => exact head_comm hid x
  | comment x => simp [Node.head, node, comment, bare_onTag hid]
  | commentGroup g =>
    simp [Node.head, node, commentGroup, bare_onTag hid, Function.comp_def]

end Heads

section Own

attribute [local simp] Node.own stmt

variable {c : Change}

theorem isMember_field (f : Field) : (c.field f).isMember = f.isMember := by
  obtain ⟨t, ns, type, variadic, label⟩ := f
  rcases ns with _ | ⟨n, _ | ⟨m, ns⟩⟩
  · rfl
  · cases type <;> rfl
  · rfl

theorem isWhole_loopHead (x : LoopHead) : (c.loopHead x).isWhole = x.isWhole := by
  rcases x with _ | e | ⟨init, cond, post⟩ | ⟨_ | key, _ | value, define, e⟩ <;> rfl

theorem nameEntries_names (ns : List Name) :
    nameEntries (c.names ns) = (nameEntries ns).map (Entry.retag c.onTag) := by
  simp [nameEntries, names, Name.entry, Change.name, Entry.retag, Function.comp_def]

theorem nameEntries_nameOption (n : Option Name) :
    nameEntries (c.nameOption n).toList = (nameEntries n.toList).map (Entry.retag c.onTag) := by
  cases n <;> rfl

theorem own_expr {e : Expr} (hc : c.onExpr e = none) :
    (Node.expr (c.expr e)).own = (Node.expr e).own.map (Entry.retag c.onTag) := by
  cases e <;> rw [Change.expr, hc] <;> rfl

theorem own_type (t : TypeExpr) :
    (Node.type (c.typeExpr t)).own = (Node.type t).own.map (Entry.retag c.onTag) := by
  cases t with
  | interface t ms => simp [Node.own, typeExpr, Entry.retag, isMember_field, Function.comp_def]
  | _ => rfl

theorem own_field (f : Field) :
    (Node.field (c.field f)).own = (Node.field f).own.map (Entry.retag c.onTag) := by
  obtain ⟨t, ns, type, variadic, label⟩ := f
  simp only [Node.own, field, nameEntries_names]
  rfl

theorem own_simple (s : Simple) :
    (Node.simple (c.simple s)).own = (Node.simple s).own.map (Entry.retag c.onTag) := by
  cases s with
  | define t ns vs =>
    simp only [Node.own, simple, nameEntries_names]
    rfl
  | _ => rfl

theorem own_stmt (s : Stmt) :
    (Node.stmt (c.stmt s)).own = (Node.stmt s).own.map (Entry.retag c.onTag) := by
  cases s with
  | branch t kind n =>
    simp only [Node.own, stmt, nameEntries_nameOption]
    rfl
  | typeSwitch t init bind guard cs =>
    simp only [Node.own, stmt, nameEntries_nameOption]
    rfl
  | loop t x b =>
    simp only [Node.own, stmt, isWhole_loopHead]
    rfl
  | _ => rfl

theorem own_decl (d : Decl) :
    (Node.decl (c.decl d)).own = (Node.decl d).own.map (Entry.retag c.onTag) := by
  obtain ⟨t, kind, grouped, ss⟩ := d
  simp [Node.own, decl, Entry.retag]

theorem own_spec (s : Spec) :
    (Node.spec (c.spec s)).own = (Node.spec s).own.map (Entry.retag c.onTag) := by
  cases s with
  | imports t n path =>
    simp only [Node.own, spec, nameEntries_nameOption]
    rfl
  | values t ns type vs =>
    simp only [Node.own, spec, nameEntries_names]
    rfl
  | type t n isAlias type => rfl

/-- The own entries of a node that is not replaced stay, with other tags. -/
theorem own_node {n : Node} (hn : c.replacement? n = none) :
    (c.node n).own = n.own.map (Entry.retag c.onTag) := by
  cases n with
  | decl d => exact own_decl d
  | spec s => exact own_spec s
  | func f => rfl
  | signature s => cases s; rfl
  | field f => exact own_field f
  | block b => cases b; rfl
  | stmt s => exact own_stmt s
  | simple s => exact own_simple s
  | expr e => exact own_expr hn
  | type t => exact own_type t
  | clause x => cases x; rfl
  | comm x => cases x; rfl
  | comment x => rfl
  | commentGroup g => rfl

end Own

end Change

end FuncLift
