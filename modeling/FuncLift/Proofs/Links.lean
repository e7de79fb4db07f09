import FuncLift.Lift.Region
import FuncLift.Proofs.Handout
import FuncLift.Tree.Change

/-!
# Links

The links of a tree are its nodes in walk order, each with the number of the node it stands in.
They are all that can be told about who owns what. A change is carried out node by node, so a
relation of links that holds where nodes are changed, and is kept when links are put behind each
other, holds of a whole tree and the changed tree.
-/
namespace FuncLift

/-- A node and the number of its parent; nodes of the file itself have none. -/
structure Link where
  parent : Option Nat
  node : Node

def Link.id (l : Link) : Nat := l.node.tag.id

namespace Outline

mutual

def links (p : Option Nat) : Outline → List Link
  | .node n cs => ⟨p, n⟩ :: linksAll (some n.tag.id) cs

def linksAll (p : Option Nat) : List Outline → List Link
  | [] => []
  | o :: os => links p o ++ linksAll p os

end

@[simp] theorem linksAll_nil (p : Option Nat) : linksAll p [] = [] := rfl

@[simp] theorem linksAll_cons (p : Option Nat) (o : Outline) (os : List Outline) :
    linksAll p (o :: os) = o.links p ++ linksAll p os := rfl

@[simp] theorem linksAll_append (p : Option Nat) (os ps : List Outline) :
    linksAll p (os ++ ps) = linksAll p os ++ linksAll p ps := by
  induction os with
  | nil => rfl
  | cons o os ih => simp [ih]

@[simp] theorem links_node (p : Option Nat) (n : Node) (cs : List Outline) :
    (node n cs).links p = ⟨p, n⟩ :: linksAll (some n.tag.id) cs := rfl

mutual

/-- The walk and the links meet the same nodes in the same order. -/
theorem walk_eq_links (depth : Nat) (p : Option Nat) : ∀ o : Outline,
    (o.walk depth).map (fun x => x.2.content) = (o.links p).map Link.node
  | .node n cs => by
    have ih := walkAll_eq_linksAll (depth + 1) (some n.tag.id) cs
    simp only [walk, links_node, List.map_cons, ih]
    rfl

theorem walkAll_eq_linksAll (depth : Nat) (p : Option Nat) : ∀ os : List Outline,
    (walkAll depth os).map (fun x => x.2.content) = (linksAll p os).map Link.node
  | [] => rfl
  | o :: os => by
    simp only [walkAll, linksAll_cons, List.map_append, walk_eq_links depth p o,
      walkAll_eq_linksAll depth p os]

end

mutual

theorem entries_eq_links (p : Option Nat) : ∀ o : Outline,
    o.entries = (o.links p).flatMap fun l => l.node.own
  | .node n cs => by
    simp only [entries_node, links_node, List.flatMap_cons,
      entriesAll_eq_linksAll (some n.tag.id) cs]

theorem entriesAll_eq_linksAll (p : Option Nat) : ∀ os : List Outline,
    entriesAll os = (linksAll p os).flatMap fun l => l.node.own
  | [] => rfl
  | o :: os => by
    simp only [entriesAll_cons, linksAll_cons, List.flatMap_append, entries_eq_links p o,
      entriesAll_eq_linksAll p os]

end

end Outline

namespace Owner

def id (o : Owner) : Nat := o.node.tag.id

/-- The children that stand before the statements. -/
def front : Owner → List Outline
  | .block _ => []
  | .clause c => Outline.ofCases c.cases
  | .comm c => Outline.ofSimpleOption c.comm

def outline (o : Owner) : Outline := .node o.node (o.front ++ Outline.ofStmts o.stmts)

end Owner

namespace Change

open Outline

theorem expr_of_replaced {c : Change} {e new : Expr} (h : c.onExpr e = some new) :
    c.expr e = new := by
  rw [Change.expr.eq_def, h]

/-- What becomes of a node that is not replaced. -/
def node (c : Change) : Node → Node
  | .decl d => .decl (c.decl d)
  | .spec s => .spec (c.spec s)
  | .func f => .func (c.func f)
  | .signature s => .signature (c.signature s)
  | .field f => .field (c.field f)
  | .block b => .block (c.block b)
  | .stmt s => .stmt (c.stmt s)
  | .simple s => .simple (c.simple s)
  | .expr e => .expr (c.expr e)
  | .type t => .type (c.typeExpr t)
  | .clause x => .clause (c.clause x)
  | .comm x => .comm (c.comm x)
  | .comment x => .comment (c.comment x)
  | .commentGroup g => .commentGroup (c.commentGroup g)

/-- What is put in the place of a node, if it is replaced. -/
def replacement? (c : Change) : Node → Option Expr
  | .expr e => c.onExpr e
  | _ => none

def owner (c : Change) : Owner → Owner
  | .block b => .block (c.block b)
  | .clause x => .clause (c.clause x)
  | .comm x => .comm (c.comm x)

/-- A relation of links that a change keeps at every node and that is kept by putting links behind
each other. At a node with a list of statements it may rest on all below the node at once. -/
structure Congruent (c : Change) (R : List Link → List Link → Prop) : Prop where
  nil : R [] []
  append : ∀ {a a' b b'}, R a a' → R b b' → R (a ++ b) (a' ++ b')
  id : ∀ t, (c.onTag t).id = t.id
  replaced : ∀ p e new, c.onExpr e = some new →
    R ((ofExpr e).links p) ((ofExpr new).links p)
  kept : ∀ p n, c.replacement? n = none → Owner.ofNode? n = none → R [⟨p, n⟩] [⟨p, c.node n⟩]
  owner : ∀ p o, R (linksAll (some o.id) o.front) (linksAll (some o.id) (c.owner o).front) →
    R (linksAll (some o.id) (ofStmts o.stmts)) (linksAll (some o.id) (ofStmts (c.stmts o.stmts))) →
    R (o.outline.links p) ((c.owner o).outline.links p)

namespace Congruent

variable {c : Change} {R : List Link → List Link → Prop} (h : c.Congruent R)

include h

theorem node {p : Option Nat} {n n' : Node} {cs cs' : List Outline}
    (hn : R [⟨p, n⟩] [⟨p, n'⟩]) (hid : n'.tag.id = n.tag.id)
    (hcs : R (linksAll (some n.tag.id) cs) (linksAll (some n.tag.id) cs')) :
    R ((Outline.node n cs).links p) ((Outline.node n' cs').links p) := by
  rw [links_node, links_node, hid]
  exact h.append hn hcs

theorem one {p : Option Nat} {o o' : Outline} (ho : R (o.links p) (o'.links p)) :
    R (linksAll p [o]) (linksAll p [o']) := h.append ho h.nil

theorem cons {p : Option Nat} {o o' : Outline} {os os' : List Outline}
    (ho : R (o.links p) (o'.links p)) (hos : R (linksAll p os) (linksAll p os')) :
    R (linksAll p (o :: os)) (linksAll p (o' :: os')) := h.append ho hos

theorem both {p : Option Nat} {os os' ps ps' : List Outline}
    (hos : R (linksAll p os) (linksAll p os')) (hps : R (linksAll p ps) (linksAll p ps')) :
    R (linksAll p (os ++ ps)) (linksAll p (os' ++ ps')) := by
  rw [linksAll_append, linksAll_append]
  exact h.append hos hps

mutual

theorem ofExpr (p : Option Nat) (e : Expr) :
    R ((Outline.ofExpr e).links p) ((Outline.ofExpr (c.expr e)).links p) := by
  cases hc : c.onExpr e with
  | some new =>
    rw [Change.expr_of_replaced hc]
    exact h.replaced p e new hc
  | none =>
    have hn := h.kept p (.expr e) hc rfl
    match e with
    | .ident t n =>
      rw [Change.node, Change.expr, hc] at hn
      rw [Change.expr, hc]
      exact h.node hn (h.id t) h.nil
    | .lit t k x =>
      rw [Change.node, Change.expr, hc] at hn
      rw [Change.expr, hc]
      exact h.node hn (h.id t) h.nil
    | .funcLit t sig body =>
      rw [Change.node, Change.expr, hc] at hn
      rw [Change.expr, hc]
      exact h.node hn (h.id t) (h.cons (ofSignature _ sig) (h.one (ofBlock _ body)))
    | .composite t type elems =>
      rw [Change.node, Change.expr, hc] at hn
      rw [Change.expr, hc]
      exact h.node hn (h.id t) (h.both (ofTypeOption _ type) (ofElements _ elems))
    | .paren t x =>
      rw [Change.node, Change.expr, hc] at hn
      rw [Change.expr, hc]
      exact h.node hn (h.id t) (h.one (ofExpr _ x))
    | .selector t x sel =>
      rw [Change.node, Change.expr, hc] at hn
      rw [Change.expr, hc]
      exact h.node hn (h.id t) (h.one (ofExpr _ x))
    | .index t x i =>
      rw [Change.node, Change.expr, hc] at hn
      rw [Change.expr, hc]
      exact h.node hn (h.id t) (h.cons (ofExpr _ x) (h.one (ofExpr _ i)))
    | .slice t x lo hi max =>
      rw [Change.node, Change.expr, hc] at hn
      rw [Change.expr, hc]
      exact h.node hn (h.id t) (h.cons (ofExpr _ x) (h.both (h.both
        (ofExprOption _ lo) (ofExprOption _ hi)) (ofExprOption _ max)))
    | .assert t x type =>
      rw [Change.node, Change.expr, hc] at hn
      rw [Change.expr, hc]
      exact h.node hn (h.id t) (h.cons (ofExpr _ x) (ofTypeOption _ type))
    | .call t callee args spread =>
      rw [Change.node, Change.expr, hc] at hn
      rw [Change.expr, hc]
      exact h.node hn (h.id t) (h.cons (ofExpr _ callee) (ofExprs _ args))
    | .unary t op x =>
      rw [Change.node, Change.expr, hc] at hn
      rw [Change.expr, hc]
      exact h.node hn (h.id t) (h.one (ofExpr _ x))
    | .binary t l op r =>
      rw [Change.node, Change.expr, hc] at hn
      rw [Change.expr, hc]
      exact h.node hn (h.id t) (h.cons (ofExpr _ l) (h.one (ofExpr _ r)))
    | .type t type =>
      rw [Change.node, Change.expr, hc] at hn
      rw [Change.expr, hc]
      exact h.node hn (h.id t) (h.one (ofType _ type))

theorem ofExprOption (p : Option Nat) : ∀ e : Option Expr,
    R (linksAll p (Outline.ofExprOption e))
      (linksAll p (Outline.ofExprOption (c.exprOption e)))
  | none => h.nil
  | some e => h.one (ofExpr p e)

theorem ofExprs (p : Option Nat) : ∀ es : List Expr,
    R (linksAll p (Outline.ofExprs es)) (linksAll p (Outline.ofExprs (c.exprs es)))
  | [] => h.nil
  | e :: es => h.cons (ofExpr p e) (ofExprs p es)

theorem ofElement (p : Option Nat) : ∀ e : Element,
    R (linksAll p (Outline.ofElement e)) (linksAll p (Outline.ofElement (c.element e)))
  | ⟨key, value⟩ => h.both (ofExprOption p key) (h.one (ofExpr p value))

theorem ofElements (p : Option Nat) : ∀ es : List Element,
    R (linksAll p (Outline.ofElements es)) (linksAll p (Outline.ofElements (c.elements es)))
  | [] => h.nil
  | e :: es => h.both (ofElement p e) (ofElements p es)

theorem ofType (p : Option Nat) : ∀ t : TypeExpr,
    R ((Outline.ofType t).links p) ((Outline.ofType (c.typeExpr t)).links p)
  | .named t pkg n => h.node (h.kept p (.type (.named t pkg n)) rfl rfl) (h.id t) h.nil
  | .pointer t x => h.node (h.kept p (.type (.pointer t x)) rfl rfl) (h.id t) (h.one (ofType _ x))
  | .slice t x => h.node (h.kept p (.type (.slice t x)) rfl rfl) (h.id t) (h.one (ofType _ x))
  | .array t len x => h.node (h.kept p (.type (.array t len x)) rfl rfl) (h.id t)
      (h.both (ofExprOption _ len) (h.one (ofType _ x)))
  | .map t k v => h.node (h.kept p (.type (.map t k v)) rfl rfl) (h.id t)
      (h.cons (ofType _ k) (h.one (ofType _ v)))
  | .chan t dir x => h.node (h.kept p (.type (.chan t dir x)) rfl rfl) (h.id t) (h.one (ofType _ x))
  | .func t sig => h.node (h.kept p (.type (.func t sig)) rfl rfl) (h.id t) (h.one (ofSignature _ sig))
  | .struct t fs => h.node (h.kept p (.type (.struct t fs)) rfl rfl) (h.id t) (ofFields _ fs)
  | .interface t fs => h.node (h.kept p (.type (.interface t fs)) rfl rfl) (h.id t) (ofFields _ fs)

theorem ofTypeOption (p : Option Nat) : ∀ t : Option TypeExpr,
    R (linksAll p (Outline.ofTypeOption t)) (linksAll p (Outline.ofTypeOption (c.typeOption t)))
  | none => h.nil
  | some t => h.one (ofType p t)

theorem ofTypes (p : Option Nat) : ∀ ts : List TypeExpr,
    R (linksAll p (Outline.ofTypes ts)) (linksAll p (Outline.ofTypes (c.types ts)))
  | [] => h.nil
  | t :: ts => h.cons (ofType p t) (ofTypes p ts)

theorem ofField (p : Option Nat) : ∀ f : Field,
    R ((Outline.ofField f).links p) ((Outline.ofField (c.field f)).links p)
  | ⟨t, ns, type, variadic, label⟩ =>
      h.node (h.kept p (.field ⟨t, ns, type, variadic, label⟩) rfl rfl) (h.id t)
        (h.one (ofType _ type))

theorem ofFields (p : Option Nat) : ∀ fs : List Field,
    R (linksAll p (Outline.ofFields fs)) (linksAll p (Outline.ofFields (c.fields fs)))
  | [] => h.nil
  | f :: fs => h.cons (ofField p f) (ofFields p fs)

theorem ofSignature (p : Option Nat) : ∀ s : Signature,
    R ((Outline.ofSignature s).links p) ((Outline.ofSignature (c.signature s)).links p)
  | ⟨t, ps, rs⟩ => h.node (h.kept p (.signature ⟨t, ps, rs⟩) rfl rfl) (h.id t)
      (h.both (ofFields _ ps) (ofFields _ rs))

theorem ofBlock (p : Option Nat) : ∀ b : Block,
    R ((Outline.ofBlock b).links p) ((Outline.ofBlock (c.block b)).links p)
  | ⟨t, ss⟩ => h.owner p (.block ⟨t, ss⟩) h.nil (ofStmts _ ss)

theorem ofSimple (p : Option Nat) : ∀ s : Simple,
    R ((Outline.ofSimple s).links p) ((Outline.ofSimple (c.simple s)).links p)
  | .expr t e => h.node (h.kept p (.simple (.expr t e)) rfl rfl) (h.id t) (h.one (ofExpr _ e))
  | .send t ch v => h.node (h.kept p (.simple (.send t ch v)) rfl rfl) (h.id t)
      (h.cons (ofExpr _ ch) (h.one (ofExpr _ v)))
  | .step t e op => h.node (h.kept p (.simple (.step t e op)) rfl rfl) (h.id t)
      (h.one (ofExpr _ e))
  | .assign t l op r => h.node (h.kept p (.simple (.assign t l op r)) rfl rfl) (h.id t)
      (h.both (ofExprs _ l) (ofExprs _ r))
  | .define t ns vs => h.node (h.kept p (.simple (.define t ns vs)) rfl rfl) (h.id t)
      (ofExprs _ vs)

theorem ofSimpleOption (p : Option Nat) : ∀ s : Option Simple,
    R (linksAll p (Outline.ofSimpleOption s))
      (linksAll p (Outline.ofSimpleOption (c.simpleOption s)))
  | none => h.nil
  | some s => h.one (ofSimple p s)

theorem ofStmt (p : Option Nat) : ∀ s : Stmt,
    R ((Outline.ofStmt s).links p) ((Outline.ofStmt (c.stmt s)).links p)
  | .simple t s => h.node (h.kept p (.stmt (.simple t s)) rfl rfl) (h.id t) (h.one (ofSimple _ s))
  | .decl t d => h.node (h.kept p (.stmt (.decl t d)) rfl rfl) (h.id t) (h.one (ofDecl _ d))
  | .labeled t n s => h.node (h.kept p (.stmt (.labeled t n s)) rfl rfl) (h.id t) (h.one (ofStmt _ s))
  | .go t e => h.node (h.kept p (.stmt (.go t e)) rfl rfl) (h.id t) (h.one (ofExpr _ e))
  | .defer t e => h.node (h.kept p (.stmt (.defer t e)) rfl rfl) (h.id t) (h.one (ofExpr _ e))
  | .ret t es => h.node (h.kept p (.stmt (.ret t es)) rfl rfl) (h.id t) (ofExprs _ es)
  | .branch t kind n => h.node (h.kept p (.stmt (.branch t kind n)) rfl rfl) (h.id t) h.nil
  | .block t b => h.node (h.kept p (.stmt (.block t b)) rfl rfl) (h.id t) (h.one (ofBlock _ b))
  | .ifElse t init cond yes no =>
      h.node (h.kept p (.stmt (.ifElse t init cond yes no)) rfl rfl) (h.id t)
      (h.both (ofSimpleOption _ init) (h.cons (ofExpr _ cond)
        (h.cons (ofBlock _ yes) (ofStmtOption _ no))))
  | .loop t head body => h.node (h.kept p (.stmt (.loop t head body)) rfl rfl) (h.id t)
      (h.both (ofLoopHead _ head) (h.one (ofBlock _ body)))
  | .switch t init subject cs => h.node (h.kept p (.stmt (.switch t init subject cs)) rfl rfl) (h.id t)
      (h.both (h.both (ofSimpleOption _ init) (ofExprOption _ subject)) (ofClauses _ cs))
  | .typeSwitch t init bind guard cs =>
      h.node (h.kept p (.stmt (.typeSwitch t init bind guard cs)) rfl rfl) (h.id t)
      (h.both (ofSimpleOption _ init) (h.cons (ofExpr _ guard) (ofClauses _ cs)))
  | .select t cs => h.node (h.kept p (.stmt (.select t cs)) rfl rfl) (h.id t) (ofComms _ cs)

theorem ofStmtOption (p : Option Nat) : ∀ s : Option Stmt,
    R (linksAll p (Outline.ofStmtOption s)) (linksAll p (Outline.ofStmtOption (c.stmtOption s)))
  | none => h.nil
  | some s => h.one (ofStmt p s)

theorem ofStmts (p : Option Nat) : ∀ ss : List Stmt,
    R (linksAll p (Outline.ofStmts ss)) (linksAll p (Outline.ofStmts (c.stmts ss)))
  | [] => h.nil
  | s :: ss => h.cons (ofStmt p s) (ofStmts p ss)

theorem ofLoopHead (p : Option Nat) : ∀ x : LoopHead,
    R (linksAll p (Outline.ofLoopHead x)) (linksAll p (Outline.ofLoopHead (c.loopHead x)))
  | .forever => h.nil
  | .cond e => h.one (ofExpr p e)
  | .clause init cond post => h.both (h.both (ofSimpleOption p init) (ofExprOption p cond))
      (ofSimpleOption p post)
  | .range key value _ e => h.both (h.both (ofExprOption p key)
      (ofExprOption p value)) (h.one (ofExpr p e))

theorem ofCases (p : Option Nat) : ∀ x : Cases,
    R (linksAll p (Outline.ofCases x)) (linksAll p (Outline.ofCases (c.cases x)))
  | .default => h.nil
  | .exprs es => ofExprs p es
  | .types ts => ofTypes p ts

theorem ofClause (p : Option Nat) : ∀ x : Clause,
    R ((Outline.ofClause x).links p) ((Outline.ofClause (c.clause x)).links p)
  | ⟨t, cs, ss⟩ => h.owner p (.clause ⟨t, cs, ss⟩) (ofCases _ cs) (ofStmts _ ss)

theorem ofClauses (p : Option Nat) : ∀ xs : List Clause,
    R (linksAll p (Outline.ofClauses xs)) (linksAll p (Outline.ofClauses (c.clauses xs)))
  | [] => h.nil
  | x :: xs => h.cons (ofClause p x) (ofClauses p xs)

theorem ofComm (p : Option Nat) : ∀ x : Comm,
    R ((Outline.ofComm x).links p) ((Outline.ofComm (c.comm x)).links p)
  | ⟨t, s, ss⟩ => h.owner p (.comm ⟨t, s, ss⟩) (ofSimpleOption _ s) (ofStmts _ ss)

theorem ofComms (p : Option Nat) : ∀ xs : List Comm,
    R (linksAll p (Outline.ofComms xs)) (linksAll p (Outline.ofComms (c.comms xs)))
  | [] => h.nil
  | x :: xs => h.cons (ofComm p x) (ofComms p xs)

theorem ofDecl (p : Option Nat) : ∀ d : Decl,
    R ((Outline.ofDecl d).links p) ((Outline.ofDecl (c.decl d)).links p)
  | ⟨t, kind, grouped, ss⟩ =>
      h.node (h.kept p (.decl ⟨t, kind, grouped, ss⟩) rfl rfl) (h.id t) (ofSpecs _ ss)

theorem ofSpec (p : Option Nat) : ∀ s : Spec,
    R ((Outline.ofSpec s).links p) ((Outline.ofSpec (c.spec s)).links p)
  | .imports t n path => h.node (h.kept p (.spec (.imports t n path)) rfl rfl) (h.id t) h.nil
  | .values t ns type vs => h.node (h.kept p (.spec (.values t ns type vs)) rfl rfl) (h.id t)
      (h.both (ofTypeOption _ type) (ofExprs _ vs))
  | .type t n isAlias type => h.node (h.kept p (.spec (.type t n isAlias type)) rfl rfl) (h.id t)
      (h.one (ofType _ type))

theorem ofSpecs (p : Option Nat) : ∀ ss : List Spec,
    R (linksAll p (Outline.ofSpecs ss)) (linksAll p (Outline.ofSpecs (c.specs ss)))
  | [] => h.nil
  | s :: ss => h.cons (ofSpec p s) (ofSpecs p ss)

end

theorem ofOption {α : Type} {p : Option Nat} {f : α → Outline} {g : α → α}
    (hf : ∀ a, R ((f a).links p) ((f (g a)).links p)) (x : Option α) :
    R (linksAll p (x.map f).toList) (linksAll p ((x.map g).map f).toList) := by
  cases x with
  | none => exact h.nil
  | some a => exact h.one (hf a)

theorem ofList {α : Type} {p : Option Nat} {f : α → Outline} {g : α → α}
    (hf : ∀ a, R ((f a).links p) ((f (g a)).links p)) (xs : List α) :
    R (linksAll p (xs.map f)) (linksAll p ((xs.map g).map f)) := by
  induction xs with
  | nil => exact h.nil
  | cons x xs ih => exact h.cons (hf x) ih

theorem ofFunc (p : Option Nat) (f : FuncDecl) :
    R ((Outline.ofFunc f).links p) ((Outline.ofFunc (c.func f)).links p) :=
  h.node (h.kept p (.func f) rfl rfl) (h.id f.tag) (h.both (h.ofOption (h.ofField _) f.recv)
    (h.cons (h.ofSignature _ f.sig) (h.ofOption (h.ofBlock _) f.body)))

theorem ofTopDecl (p : Option Nat) (d : TopDecl) :
    R ((Outline.ofTopDecl d).links p) ((Outline.ofTopDecl (c.topDecl d)).links p) := by
  cases d with
  | decl d => exact h.ofDecl p d
  | func f => exact h.ofFunc p f

theorem ofComment (p : Option Nat) (x : Comment) :
    R ((Outline.ofComment x).links p) ((Outline.ofComment (c.comment x)).links p) :=
  h.node (h.kept p (.comment x) rfl rfl) (h.id x.tag) h.nil

theorem ofCommentGroup (p : Option Nat) (g : CommentGroup) :
    R ((Outline.ofCommentGroup g).links p) ((Outline.ofCommentGroup (c.commentGroup g)).links p) :=
  h.node (h.kept p (.commentGroup g) rfl rfl) (h.id g.tag) (h.ofList (h.ofComment _) g.comments)

end Congruent

end Change

end FuncLift
