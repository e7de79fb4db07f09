import FuncLift.Tree.Outline

/-!
# Entries

Everything in a tree that has a tag is an entry: the nodes, and the names that are no nodes. The
entries of a tree are collected along its outline, the own ones of a node before those of its
children. An entry that is written as a word of its own carries its text, and the entry of a node
says whether the node has a shape in which drawing it reaches all of its children.
-/
namespace FuncLift

structure Entry where
  tag : Tag
  text : Option String
  whole : Bool
deriving DecidableEq, Repr

namespace Entry

def id (e : Entry) : Nat := e.tag.id

def span (e : Entry) : Span := e.tag.span

end Entry

def Tag.entry (t : Tag) : Entry := ⟨t, none, true⟩

def Name.entry (n : Name) : Entry := ⟨n.tag, some n.text, true⟩

def nameEntries (ns : List Name) : List Entry := ns.map Name.entry

/-- A member of an interface is a named signature, or a type without a name. -/
def Field.isMember : Field → Bool
  | ⟨_, [], _, _, _⟩ => true
  | ⟨_, [_], .func .., _, _⟩ => true
  | _ => false

/-- A range clause has no second variable without a first. -/
def LoopHead.isWhole : LoopHead → Bool
  | .range none (some _) _ _ => false
  | _ => true

namespace Node

/-- The entries of a node without those of its children. -/
def own : Node → List Entry
  | .decl d => [⟨d.tag, none, d.grouped || decide (d.specs.length ≤ 1)⟩]
  | .spec (.imports t n _) => t.entry :: nameEntries n.toList
  | .spec (.values t ns _ _) => t.entry :: nameEntries ns
  | .spec (.type t n _ _) => [t.entry, n.entry]
  | .func f => [f.tag.entry, f.name.entry]
  | .signature s => [s.tag.entry]
  | .field f => f.tag.entry :: nameEntries f.names
  | .block b => [b.tag.entry]
  | .stmt (.labeled t n _) => [t.entry, n.entry]
  | .stmt (.branch t _ n) => t.entry :: nameEntries n.toList
  | .stmt (.loop t head _) => [⟨t, none, head.isWhole⟩]
  | .stmt (.typeSwitch t _ n _ _) => t.entry :: nameEntries n.toList
  | .stmt s => [s.tag.entry]
  | .simple (.define t ns _) => t.entry :: nameEntries ns
  | .simple s => [s.tag.entry]
  | .expr (.ident t n) => [⟨t, some n, true⟩]
  | .expr (.lit t _ x) => [⟨t, some x, true⟩]
  | .expr (.selector t _ n) => [t.entry, n.entry]
  | .expr e => [e.tag.entry]
  | .type (.interface t ms) => [⟨t, none, ms.all Field.isMember⟩]
  | .type t => [t.tag.entry]
  | .clause c => [c.tag.entry]
  | .comm c => [c.tag.entry]
  | .comment c => [⟨c.tag, some c.text, true⟩]
  | .commentGroup g => [g.tag.entry]

/-- The first own entry is the node itself. -/
theorem own_eq_cons (n : Node) : ∃ e es, n.own = e :: es ∧ e.tag = n.tag := by
  rcases n with d | s | f | s | f | b | s | s | e | t | c | c | c | g
  all_goals first
    | exact ⟨_, _, rfl, rfl⟩
    | (cases s <;> exact ⟨_, _, rfl, rfl⟩)
    | (cases e <;> exact ⟨_, _, rfl, rfl⟩)
    | (cases t <;> exact ⟨_, _, rfl, rfl⟩)

end Node

namespace Outline

mutual

def entries : Outline → List Entry
  | .node n cs => n.own ++ entriesAll cs

def entriesAll : List Outline → List Entry
  | [] => []
  | o :: os => entries o ++ entriesAll os

end

@[simp] theorem entriesAll_nil : entriesAll [] = [] := rfl

@[simp] theorem entriesAll_cons (o : Outline) (os : List Outline) :
    entriesAll (o :: os) = o.entries ++ entriesAll os := rfl

@[simp] theorem entriesAll_append (os ps : List Outline) :
    entriesAll (os ++ ps) = entriesAll os ++ entriesAll ps := by
  induction os with
  | nil => rfl
  | cons o os ih => simp [ih]

@[simp] theorem entries_node (n : Node) (cs : List Outline) :
    (node n cs).entries = n.own ++ entriesAll cs := rfl

end Outline

section Families

open Outline

def Expr.entries (e : Expr) : List Entry := (ofExpr e).entries

def TypeExpr.entries (t : TypeExpr) : List Entry := (ofType t).entries

def Element.entries (e : Element) : List Entry := entriesAll (ofElement e)

def Field.entries (f : Field) : List Entry := (ofField f).entries

def Signature.entries (s : Signature) : List Entry := (ofSignature s).entries

def Block.entries (b : Block) : List Entry := (ofBlock b).entries

def Simple.entries (s : Simple) : List Entry := (ofSimple s).entries

def Stmt.entries (s : Stmt) : List Entry := (ofStmt s).entries

def LoopHead.entries (h : LoopHead) : List Entry := entriesAll (ofLoopHead h)

def Cases.entries (c : Cases) : List Entry := entriesAll (ofCases c)

def Clause.entries (c : Clause) : List Entry := (ofClause c).entries

def Comm.entries (c : Comm) : List Entry := (ofComm c).entries

def Decl.entries (d : Decl) : List Entry := (ofDecl d).entries

def Spec.entries (s : Spec) : List Entry := (ofSpec s).entries

def FuncDecl.entries (f : FuncDecl) : List Entry := (ofFunc f).entries

def TopDecl.entries (d : TopDecl) : List Entry := (ofTopDecl d).entries

def CommentGroup.entries (g : CommentGroup) : List Entry := (ofCommentGroup g).entries

/-- The entries of a file: those of the package clause, of the declarations and of the comments. -/
def SourceFile.entries (f : SourceFile) : List Entry :=
  f.tag.entry :: f.name.entry :: entriesAll (ofFile f)

end Families

namespace Outline

/-- The place of an expression changes nothing in what it holds. -/
@[simp] theorem entries_ofExpr (e : Expr) : (ofExpr e).entries = e.entries := by
  cases e <;> rfl

@[simp] theorem entries_ofType (t : TypeExpr) : (ofType t).entries = t.entries := rfl

@[simp] theorem entriesAll_ofElement (e : Element) : entriesAll (ofElement e) = e.entries := rfl

@[simp] theorem entries_ofField (f : Field) : (ofField f).entries = f.entries := rfl

@[simp] theorem entries_ofSignature (s : Signature) : (ofSignature s).entries = s.entries := rfl

@[simp] theorem entries_ofBlock (b : Block) : (ofBlock b).entries = b.entries := rfl

@[simp] theorem entries_ofSimple (s : Simple) : (ofSimple s).entries = s.entries := rfl

@[simp] theorem entries_ofStmt (s : Stmt) : (ofStmt s).entries = s.entries := rfl

@[simp] theorem entriesAll_ofLoopHead (h : LoopHead) : entriesAll (ofLoopHead h) = h.entries := rfl

@[simp] theorem entriesAll_ofCases (c : Cases) : entriesAll (ofCases c) = c.entries := rfl

@[simp] theorem entries_ofClause (c : Clause) : (ofClause c).entries = c.entries := rfl

@[simp] theorem entries_ofComm (c : Comm) : (ofComm c).entries = c.entries := rfl

@[simp] theorem entries_ofDecl (d : Decl) : (ofDecl d).entries = d.entries := rfl

@[simp] theorem entries_ofSpec (s : Spec) : (ofSpec s).entries = s.entries := rfl

@[simp] theorem entries_ofTopDecl (d : TopDecl) : (ofTopDecl d).entries = d.entries := rfl

@[simp] theorem entries_ofCommentGroup (g : CommentGroup) :
    (ofCommentGroup g).entries = g.entries := rfl

/-- Entries of a list of outlines that are made one by one. -/
theorem entriesAll_map {α : Type} (f : α → Outline) (xs : List α) :
    entriesAll (xs.map f) = xs.flatMap fun x => (f x).entries := by
  induction xs with
  | nil => rfl
  | cons x xs ih => simp [ih]

@[simp] theorem entriesAll_ofExprs (es : List Expr) :
    entriesAll (ofExprs es) = es.flatMap Expr.entries := by
  induction es with
  | nil => rfl
  | cons e es ih => simp [ofExprs, ih]

@[simp] theorem entriesAll_ofExprOption (e : Option Expr) :
    entriesAll (ofExprOption e) = e.toList.flatMap Expr.entries := by
  cases e <;> simp [ofExprOption]

@[simp] theorem entriesAll_ofElements (es : List Element) :
    entriesAll (ofElements es) = es.flatMap Element.entries := by
  induction es with
  | nil => rfl
  | cons e es ih => simp [ofElements, ih]

@[simp] theorem entriesAll_ofTypes (ts : List TypeExpr) :
    entriesAll (ofTypes ts) = ts.flatMap TypeExpr.entries := by
  induction ts with
  | nil => rfl
  | cons t ts ih => simp [ofTypes, ih]

@[simp] theorem entriesAll_ofTypeOption (t : Option TypeExpr) :
    entriesAll (ofTypeOption t) = t.toList.flatMap TypeExpr.entries := by
  cases t <;> simp [ofTypeOption]

@[simp] theorem entriesAll_ofFields (fs : List Field) :
    entriesAll (ofFields fs) = fs.flatMap Field.entries := by
  induction fs with
  | nil => rfl
  | cons f fs ih => simp [ofFields, ih]

@[simp] theorem entriesAll_ofSimpleOption (s : Option Simple) :
    entriesAll (ofSimpleOption s) = s.toList.flatMap Simple.entries := by
  cases s <;> simp [ofSimpleOption]

@[simp] theorem entriesAll_ofStmts (ss : List Stmt) :
    entriesAll (ofStmts ss) = ss.flatMap Stmt.entries := by
  induction ss with
  | nil => rfl
  | cons s ss ih => simp [ofStmts, ih]

@[simp] theorem entriesAll_ofStmtOption (s : Option Stmt) :
    entriesAll (ofStmtOption s) = s.toList.flatMap Stmt.entries := by
  cases s <;> simp [ofStmtOption]

@[simp] theorem entriesAll_ofClauses (cs : List Clause) :
    entriesAll (ofClauses cs) = cs.flatMap Clause.entries := by
  induction cs with
  | nil => rfl
  | cons c cs ih => simp [ofClauses, ih]

@[simp] theorem entriesAll_ofComms (cs : List Comm) :
    entriesAll (ofComms cs) = cs.flatMap Comm.entries := by
  induction cs with
  | nil => rfl
  | cons c cs ih => simp [ofComms, ih]

@[simp] theorem entriesAll_ofSpecs (ss : List Spec) :
    entriesAll (ofSpecs ss) = ss.flatMap Spec.entries := by
  induction ss with
  | nil => rfl
  | cons s ss ih => simp [ofSpecs, ih]

end Outline

section Equations

open Outline

@[simp] theorem Expr.entries_ident (t : Tag) (n : String) :
    (Expr.ident t n).entries = [⟨t, some n, true⟩] := rfl

@[simp] theorem Expr.entries_lit (t : Tag) (k : LitKind) (x : String) :
    (Expr.lit t k x).entries = [⟨t, some x, true⟩] := rfl

@[simp] theorem Expr.entries_funcLit (t : Tag) (sig : Signature) (b : Block) :
    (Expr.funcLit t sig b).entries = t.entry :: (sig.entries ++ b.entries) := by
  change t.entry :: entriesAll [ofSignature sig, ofBlock b] = _
  simp

@[simp] theorem Expr.entries_composite (t : Tag) (type : Option TypeExpr) (es : List Element) :
    (Expr.composite t type es).entries =
      t.entry :: (type.toList.flatMap TypeExpr.entries ++ es.flatMap Element.entries) := by
  change t.entry :: entriesAll (ofTypeOption type ++ ofElements es) = _
  simp

@[simp] theorem Expr.entries_paren (t : Tag) (e : Expr) :
    (Expr.paren t e).entries = t.entry :: e.entries := by
  change t.entry :: entriesAll [ofExpr e] = _
  simp

@[simp] theorem Expr.entries_selector (t : Tag) (e : Expr) (n : Name) :
    (Expr.selector t e n).entries = t.entry :: n.entry :: e.entries := by
  change t.entry :: n.entry :: entriesAll [ofExpr e] = _
  simp

@[simp] theorem Expr.entries_index (t : Tag) (e i : Expr) :
    (Expr.index t e i).entries = t.entry :: (e.entries ++ i.entries) := by
  change t.entry :: entriesAll [ofExpr e, ofExpr i] = _
  simp

@[simp] theorem Expr.entries_slice (t : Tag) (e : Expr) (lo hi max : Option Expr) :
    (Expr.slice t e lo hi max).entries =
      t.entry :: (e.entries ++ (lo.toList.flatMap Expr.entries ++
        (hi.toList.flatMap Expr.entries ++ max.toList.flatMap Expr.entries))) := by
  change t.entry :: entriesAll (ofExpr e ::
    (ofExprOption lo ++ ofExprOption hi ++ ofExprOption max)) = _
  simp

@[simp] theorem Expr.entries_assert (t : Tag) (e : Expr) (type : Option TypeExpr) :
    (Expr.assert t e type).entries =
      t.entry :: (e.entries ++ type.toList.flatMap TypeExpr.entries) := by
  change t.entry :: entriesAll (ofExpr e :: ofTypeOption type) = _
  simp

@[simp] theorem Expr.entries_call (t : Tag) (f : Expr) (args : List Expr) (spread : Bool) :
    (Expr.call t f args spread).entries = t.entry :: (f.entries ++ args.flatMap Expr.entries) := by
  change t.entry :: entriesAll (ofExpr f :: ofExprs args) = _
  simp

@[simp] theorem Expr.entries_unary (t : Tag) (op : UnaryOp) (e : Expr) :
    (Expr.unary t op e).entries = t.entry :: e.entries := by
  change t.entry :: entriesAll [ofExpr e] = _
  simp

@[simp] theorem Expr.entries_binary (t : Tag) (l : Expr) (op : BinaryOp) (r : Expr) :
    (Expr.binary t l op r).entries = t.entry :: (l.entries ++ r.entries) := by
  change t.entry :: entriesAll [ofExpr l, ofExpr r] = _
  simp

@[simp] theorem Expr.entries_type (t : Tag) (type : TypeExpr) :
    (Expr.type t type).entries = t.entry :: type.entries := by
  change t.entry :: entriesAll [ofType type] = _
  simp

@[simp] theorem Element.entries_mk (key : Option Expr) (value : Expr) :
    (Element.mk key value).entries = key.toList.flatMap Expr.entries ++ value.entries := by
  change entriesAll (ofExprOption key ++ [ofExpr value]) = _
  simp

@[simp] theorem TypeExpr.entries_named (t : Tag) (pkg : Option String) (n : String) :
    (TypeExpr.named t pkg n).entries = [t.entry] := rfl

@[simp] theorem TypeExpr.entries_pointer (t : Tag) (e : TypeExpr) :
    (TypeExpr.pointer t e).entries = t.entry :: e.entries := by
  change t.entry :: entriesAll [ofType e] = _
  simp

@[simp] theorem TypeExpr.entries_slice (t : Tag) (e : TypeExpr) :
    (TypeExpr.slice t e).entries = t.entry :: e.entries := by
  change t.entry :: entriesAll [ofType e] = _
  simp

@[simp] theorem TypeExpr.entries_array (t : Tag) (len : Option Expr) (e : TypeExpr) :
    (TypeExpr.array t len e).entries =
      t.entry :: (len.toList.flatMap Expr.entries ++ e.entries) := by
  change t.entry :: entriesAll (ofExprOption len ++ [ofType e]) = _
  simp

@[simp] theorem TypeExpr.entries_map (t : Tag) (k v : TypeExpr) :
    (TypeExpr.map t k v).entries = t.entry :: (k.entries ++ v.entries) := by
  change t.entry :: entriesAll [ofType k, ofType v] = _
  simp

@[simp] theorem TypeExpr.entries_chan (t : Tag) (dir : ChanDir) (e : TypeExpr) :
    (TypeExpr.chan t dir e).entries = t.entry :: e.entries := by
  change t.entry :: entriesAll [ofType e] = _
  simp

@[simp] theorem TypeExpr.entries_func (t : Tag) (sig : Signature) :
    (TypeExpr.func t sig).entries = t.entry :: sig.entries := by
  change t.entry :: entriesAll [ofSignature sig] = _
  simp

@[simp] theorem TypeExpr.entries_struct (t : Tag) (fs : List Field) :
    (TypeExpr.struct t fs).entries = t.entry :: fs.flatMap Field.entries := by
  change t.entry :: entriesAll (ofFields fs) = _
  simp

@[simp] theorem TypeExpr.entries_interface (t : Tag) (ms : List Field) :
    (TypeExpr.interface t ms).entries =
      ⟨t, none, ms.all Field.isMember⟩ :: ms.flatMap Field.entries := by
  change ⟨t, none, ms.all Field.isMember⟩ :: entriesAll (ofFields ms) = _
  simp

@[simp] theorem Field.entries_mk (t : Tag) (ns : List Name) (type : TypeExpr) (variadic : Bool)
    (label : Option String) :
    (Field.mk t ns type variadic label).entries = t.entry :: (nameEntries ns ++ type.entries) := by
  change t.entry :: nameEntries ns ++ entriesAll [ofType type] = _
  simp

@[simp] theorem Signature.entries_mk (t : Tag) (ps rs : List Field) :
    (Signature.mk t ps rs).entries =
      t.entry :: (ps.flatMap Field.entries ++ rs.flatMap Field.entries) := by
  change t.entry :: entriesAll (ofFields ps ++ ofFields rs) = _
  simp

@[simp] theorem Block.entries_mk (t : Tag) (ss : List Stmt) :
    (Block.mk t ss).entries = t.entry :: ss.flatMap Stmt.entries := by
  change t.entry :: entriesAll (ofStmts ss) = _
  simp

@[simp] theorem Simple.entries_expr (t : Tag) (e : Expr) :
    (Simple.expr t e).entries = t.entry :: e.entries := by
  change t.entry :: entriesAll [ofExpr e] = _
  simp

@[simp] theorem Simple.entries_send (t : Tag) (c v : Expr) :
    (Simple.send t c v).entries = t.entry :: (c.entries ++ v.entries) := by
  change t.entry :: entriesAll [ofExpr c, ofExpr v] = _
  simp

@[simp] theorem Simple.entries_step (t : Tag) (e : Expr) (op : StepOp) :
    (Simple.step t e op).entries = t.entry :: e.entries := by
  change t.entry :: entriesAll [ofExpr e] = _
  simp

@[simp] theorem Simple.entries_assign (t : Tag) (l : List Expr) (op : AssignOp) (r : List Expr) :
    (Simple.assign t l op r).entries =
      t.entry :: (l.flatMap Expr.entries ++ r.flatMap Expr.entries) := by
  change t.entry :: entriesAll (ofExprs l ++ ofExprs r) = _
  simp

@[simp] theorem Simple.entries_define (t : Tag) (ns : List Name) (vs : List Expr) :
    (Simple.define t ns vs).entries = t.entry :: (nameEntries ns ++ vs.flatMap Expr.entries) := by
  change t.entry :: nameEntries ns ++ entriesAll (ofExprs vs) = _
  simp

@[simp] theorem Stmt.entries_simple (t : Tag) (s : Simple) :
    (Stmt.simple t s).entries = t.entry :: s.entries := by
  change t.entry :: entriesAll [ofSimple s] = _
  simp

@[simp] theorem Stmt.entries_decl (t : Tag) (d : Decl) :
    (Stmt.decl t d).entries = t.entry :: d.entries := by
  change t.entry :: entriesAll [ofDecl d] = _
  simp

@[simp] theorem Stmt.entries_labeled (t : Tag) (n : Name) (s : Stmt) :
    (Stmt.labeled t n s).entries = t.entry :: n.entry :: s.entries := by
  change t.entry :: n.entry :: entriesAll [ofStmt s] = _
  simp

@[simp] theorem Stmt.entries_go (t : Tag) (e : Expr) :
    (Stmt.go t e).entries = t.entry :: e.entries := by
  change t.entry :: entriesAll [ofExpr e] = _
  simp

@[simp] theorem Stmt.entries_defer (t : Tag) (e : Expr) :
    (Stmt.defer t e).entries = t.entry :: e.entries := by
  change t.entry :: entriesAll [ofExpr e] = _
  simp

@[simp] theorem Stmt.entries_ret (t : Tag) (es : List Expr) :
    (Stmt.ret t es).entries = t.entry :: es.flatMap Expr.entries := by
  change t.entry :: entriesAll (ofExprs es) = _
  simp

@[simp] theorem Stmt.entries_branch (t : Tag) (kind : BranchKind) (n : Option Name) :
    (Stmt.branch t kind n).entries = t.entry :: nameEntries n.toList := by
  change t.entry :: nameEntries n.toList ++ entriesAll [] = _
  simp

@[simp] theorem Stmt.entries_block (t : Tag) (b : Block) :
    (Stmt.block t b).entries = t.entry :: b.entries := by
  change t.entry :: entriesAll [ofBlock b] = _
  simp

@[simp] theorem Stmt.entries_ifElse (t : Tag) (init : Option Simple) (cond : Expr) (yes : Block)
    (no : Option Stmt) :
    (Stmt.ifElse t init cond yes no).entries =
      t.entry :: (init.toList.flatMap Simple.entries ++ (cond.entries ++ (yes.entries ++
        no.toList.flatMap Stmt.entries))) := by
  change t.entry :: entriesAll
    (ofSimpleOption init ++ ofExpr cond :: ofBlock yes :: ofStmtOption no) = _
  simp

@[simp] theorem Stmt.entries_loop (t : Tag) (head : LoopHead) (b : Block) :
    (Stmt.loop t head b).entries = ⟨t, none, head.isWhole⟩ :: (head.entries ++ b.entries) := by
  change ⟨t, none, head.isWhole⟩ :: entriesAll (ofLoopHead head ++ [ofBlock b]) = _
  simp

@[simp] theorem Stmt.entries_switch (t : Tag) (init : Option Simple) (subject : Option Expr)
    (cs : List Clause) :
    (Stmt.switch t init subject cs).entries =
      t.entry :: (init.toList.flatMap Simple.entries ++
        (subject.toList.flatMap Expr.entries ++ cs.flatMap Clause.entries)) := by
  change t.entry :: entriesAll
    (ofSimpleOption init ++ ofExprOption subject ++ ofClauses cs) = _
  simp

@[simp] theorem Stmt.entries_typeSwitch (t : Tag) (init : Option Simple) (bind : Option Name)
    (guard : Expr) (cs : List Clause) :
    (Stmt.typeSwitch t init bind guard cs).entries =
      t.entry :: (nameEntries bind.toList ++ (init.toList.flatMap Simple.entries ++
        (guard.entries ++ cs.flatMap Clause.entries))) := by
  change t.entry :: nameEntries bind.toList ++ entriesAll
    (ofSimpleOption init ++ ofExpr guard :: ofClauses cs) = _
  simp

@[simp] theorem Stmt.entries_select (t : Tag) (cs : List Comm) :
    (Stmt.select t cs).entries = t.entry :: cs.flatMap Comm.entries := by
  change t.entry :: entriesAll (ofComms cs) = _
  simp

@[simp] theorem LoopHead.entries_forever : LoopHead.forever.entries = [] := rfl

@[simp] theorem LoopHead.entries_cond (e : Expr) : (LoopHead.cond e).entries = e.entries := by
  change entriesAll [ofExpr e] = _
  simp

@[simp] theorem LoopHead.entries_clause (init : Option Simple) (cond : Option Expr) (post : Option Simple) :
    (LoopHead.clause init cond post).entries =
      init.toList.flatMap Simple.entries ++ (cond.toList.flatMap Expr.entries ++
        post.toList.flatMap Simple.entries) := by
  change entriesAll
    (ofSimpleOption init ++ ofExprOption cond ++ ofSimpleOption post) = _
  simp

@[simp] theorem LoopHead.entries_range (key value : Option Expr) (define : Bool) (e : Expr) :
    (LoopHead.range key value define e).entries =
      key.toList.flatMap Expr.entries ++ (value.toList.flatMap Expr.entries ++ e.entries) := by
  change entriesAll
    (ofExprOption key ++ ofExprOption value ++ [ofExpr e]) = _
  simp

@[simp] theorem Cases.entries_default : Cases.default.entries = [] := rfl

@[simp] theorem Cases.entries_exprs (es : List Expr) :
    (Cases.exprs es).entries = es.flatMap Expr.entries := by
  change entriesAll (ofExprs es) = _
  simp

@[simp] theorem Cases.entries_types (ts : List TypeExpr) :
    (Cases.types ts).entries = ts.flatMap TypeExpr.entries := by
  change entriesAll (ofTypes ts) = _
  simp

@[simp] theorem Clause.entries_mk (t : Tag) (cs : Cases) (ss : List Stmt) :
    (Clause.mk t cs ss).entries = t.entry :: (cs.entries ++ ss.flatMap Stmt.entries) := by
  change t.entry :: entriesAll (ofCases cs ++ ofStmts ss) = _
  simp

@[simp] theorem Comm.entries_mk (t : Tag) (comm : Option Simple) (ss : List Stmt) :
    (Comm.mk t comm ss).entries =
      t.entry :: (comm.toList.flatMap Simple.entries ++ ss.flatMap Stmt.entries) := by
  change t.entry :: entriesAll (ofSimpleOption comm ++ ofStmts ss) = _
  simp

@[simp] theorem Decl.entries_mk (t : Tag) (kind : DeclKind) (grouped : Bool) (ss : List Spec) :
    (Decl.mk t kind grouped ss).entries =
      ⟨t, none, grouped || decide (ss.length ≤ 1)⟩ :: ss.flatMap Spec.entries := by
  change ⟨t, none, grouped || decide (ss.length ≤ 1)⟩ :: entriesAll (ofSpecs ss) = _
  simp

@[simp] theorem Spec.entries_imports (t : Tag) (n : Option Name) (path : String) :
    (Spec.imports t n path).entries = t.entry :: nameEntries n.toList := by
  change t.entry :: nameEntries n.toList ++ entriesAll [] = _
  simp

@[simp] theorem Spec.entries_values (t : Tag) (ns : List Name) (type : Option TypeExpr)
    (vs : List Expr) :
    (Spec.values t ns type vs).entries =
      t.entry :: (nameEntries ns ++ (type.toList.flatMap TypeExpr.entries ++
        vs.flatMap Expr.entries)) := by
  change t.entry :: nameEntries ns ++ entriesAll (ofTypeOption type ++ ofExprs vs) = _
  simp

@[simp] theorem Spec.entries_type (t : Tag) (n : Name) (isAlias : Bool) (type : TypeExpr) :
    (Spec.type t n isAlias type).entries = t.entry :: n.entry :: type.entries := by
  change t.entry :: n.entry :: entriesAll [ofType type] = _
  simp

@[simp] theorem FuncDecl.entries_mk (t : Tag) (recv : Option Field) (n : Name) (sig : Signature)
    (body : Option Block) :
    (FuncDecl.mk t recv n sig body).entries =
      t.entry :: n.entry :: (recv.toList.flatMap Field.entries ++ (sig.entries ++
        body.toList.flatMap Block.entries)) := by
  change t.entry :: n.entry :: entriesAll
    ((recv.map ofField).toList ++ ofSignature sig :: (body.map ofBlock).toList) = _
  cases recv <;> cases body <;> simp

@[simp] theorem TopDecl.entries_decl (d : Decl) : (TopDecl.decl d).entries = d.entries := rfl

@[simp] theorem TopDecl.entries_func (f : FuncDecl) : (TopDecl.func f).entries = f.entries := rfl

def Comment.entry (c : Comment) : Entry := ⟨c.tag, some c.text, true⟩

@[simp] theorem CommentGroup.entries_mk (t : Tag) (cs : List Comment) :
    (CommentGroup.mk t cs).entries = t.entry :: cs.map Comment.entry := by
  change t.entry :: entriesAll (cs.map ofComment) = _
  rw [entriesAll_map]
  change t.entry :: cs.flatMap (fun c => [c.entry]) = _
  rw [← List.map_eq_flatMap]

theorem SourceFile.entries_eq (f : SourceFile) :
    f.entries = f.tag.entry :: f.name.entry ::
      (f.decls.flatMap TopDecl.entries ++ f.comments.flatMap CommentGroup.entries) := by
  simp [SourceFile.entries, ofFile, entriesAll_map]

end Equations

end FuncLift
