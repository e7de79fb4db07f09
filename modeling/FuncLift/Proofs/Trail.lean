import FuncLift.Scope.Resolve
import FuncLift.Tree.Outline

/-!
# The trail of resolving

Resolving a tree is a row of events: nodes are passed, scopes are opened and closed, names are
declared and referred to. The trail of a tree is that row, and it depends on the tree only. What the
resolver passes without a look (a bare key of a literal, a variable of a range clause that is no
name) is on the trail too, but muted: its nodes are there and nothing else.
-/
namespace FuncLift

/-- A declared name, with the number of the statement that it is noted for. -/
structure Local where
  binding : Binding
  note : Option Nat

inductive Event where
  | pass (n : Node)
  | openScope
  | closeScope
  | refer (t : Tag) (name : String)
  | declare (l : Local)
  /-- Declares the name unless the scope has it. -/
  | define (l : Local)
  /-- Declares the name, and the identifier itself refers to it. -/
  | range (t : Tag) (b : Binding)

namespace Event

/-- The node that is met. -/
def node? : Event → Option Node
  | .pass n => some n
  | .refer t name => some (.expr (.ident t name))
  | .range t b => some (.expr (.ident t b.name))
  | _ => none

def play : Event → Resolve Unit
  | .pass _ => Pure.pure ()
  | .openScope => Resolve.openScope
  | .closeScope => Resolve.closeScope
  | .refer t name => Resolve.refer t.id name
  | .declare l => do Resolve.noteDeclared l.note (← Resolve.declare l.binding)
  | .define l => do
    unless ← Resolve.declaredHere l.binding.name do
      Resolve.noteDeclared l.note (← Resolve.declare l.binding)
  | .range t b => do
    match ← Resolve.declare b with
    | some n => Resolve.use t.id n
    | none => Pure.pure ()

end Event

/-- The nodes that are met on a trail. -/
def met (es : List Event) : List Node := es.filterMap Event.node?

@[simp] theorem met_nil : met [] = [] := rfl

@[simp] theorem met_append (es fs : List Event) : met (es ++ fs) = met es ++ met fs :=
  List.filterMap_append

@[simp] theorem met_pass (n : Node) (es : List Event) : met (.pass n :: es) = n :: met es := rfl

@[simp] theorem met_openScope (es : List Event) : met (.openScope :: es) = met es := rfl

@[simp] theorem met_closeScope (es : List Event) : met (.closeScope :: es) = met es := rfl

/-- Nodes are met and nothing happens. -/
def mute (es : List Event) : List Event := (met es).map .pass

@[simp] theorem met_mute (es : List Event) : met (mute es) = met es := by
  unfold mute
  induction met es with
  | nil => rfl
  | cons n ns ih => exact congrArg (n :: ·) ih

namespace Trail

def paramNames (home : Nat) (type : TypeExpr) (variadic : Bool) (index : Nat) :
    List Name → List Event
  | [] => []
  | n :: ns => .declare ⟨Resolve.localVar n (.param type variadic index) home, none⟩ ::
      paramNames home type variadic (index + 1) ns

def definedNames (note : Option Nat) (home names : Nat) (values : List Expr) (index : Nat) :
    List Name → List Event
  | [] => []
  | n :: ns => .define ⟨Resolve.localVar n (.define names values index) home, note⟩ ::
      definedNames note home names values (index + 1) ns

def valueNames (note home names : Nat) (type : Option TypeExpr) (values : List Expr)
    (index : Nat) : List Name → List Event
  | [] => []
  | n :: ns => .declare ⟨Resolve.localVar n (.value names type values index) home, some note⟩ ::
      valueNames note home names type values (index + 1) ns

def bound (home : Nat) : Option Name → List Event
  | none => []
  | some n => [.declare ⟨Resolve.localVar n .typeSwitch home, none⟩]

mutual

def expr : Expr → List Event
  | .ident t n => [.refer t n]
  | x@(.lit _ _ _) => [.pass (.expr x)]
  | x@(.funcLit _ sig b@⟨_, body⟩) => .pass (.expr x) :: .openScope ::
      (signature sig ++ .pass (.block b) :: (stmts body ++ [.closeScope]))
  | x@(.composite _ type elems) => .pass (.expr x) ::
      (typeOption type ++ elements (Resolve.keysAreFields type) elems)
  | x@(.paren _ e) => .pass (.expr x) :: expr e
  | x@(.selector _ e _) => .pass (.expr x) :: expr e
  | x@(.index _ e i) => .pass (.expr x) :: (expr e ++ expr i)
  | x@(.slice _ e lo hi max) => .pass (.expr x) ::
      (expr e ++ (exprOption lo ++ (exprOption hi ++ exprOption max)))
  | x@(.assert _ e type) => .pass (.expr x) :: (expr e ++ typeOption type)
  | x@(.call _ callee args _) => .pass (.expr x) :: (expr callee ++ exprs args)
  | x@(.unary _ _ e) => .pass (.expr x) :: expr e
  | x@(.binary _ l _ r) => .pass (.expr x) :: (expr l ++ expr r)
  | x@(.type _ t) => .pass (.expr x) :: typeExpr t

def exprOption : Option Expr → List Event
  | none => []
  | some e => expr e

def exprs : List Expr → List Event
  | [] => []
  | e :: es => expr e ++ exprs es

def elements (fields : Bool) : List Element → List Event
  | [] => []
  | ⟨key, value⟩ :: es =>
    (if fields && Resolve.isIdent key then mute (exprOption key) else exprOption key) ++
      (expr value ++ elements fields es)

def typeExpr : TypeExpr → List Event
  | x@(.named _ _ _) => [.pass (.type x)]
  | x@(.pointer _ t) => .pass (.type x) :: typeExpr t
  | x@(.slice _ t) => .pass (.type x) :: typeExpr t
  | x@(.chan _ _ t) => .pass (.type x) :: typeExpr t
  | x@(.array _ len t) => .pass (.type x) :: (exprOption len ++ typeExpr t)
  | x@(.map _ k v) => .pass (.type x) :: (typeExpr k ++ typeExpr v)
  | x@(.func _ s@⟨_, params, results⟩) => .pass (.type x) :: .pass (.signature s) ::
      (fieldTypes params ++ fieldTypes results)
  | x@(.struct _ fields) => .pass (.type x) :: fieldTypes fields
  | x@(.interface _ methods) => .pass (.type x) :: fieldTypes methods

def typeOption : Option TypeExpr → List Event
  | none => []
  | some t => typeExpr t

def typeExprs : List TypeExpr → List Event
  | [] => []
  | t :: ts => typeExpr t ++ typeExprs ts

def fieldTypes : List Field → List Event
  | [] => []
  | x@⟨_, _, type, _, _⟩ :: fs => .pass (.field x) :: (typeExpr type ++ fieldTypes fs)

def fields : List Field → List Event
  | [] => []
  | x@⟨t, ns, type, variadic, _⟩ :: fs =>
    (.pass (.field x) :: (typeExpr type ++ paramNames t.id type variadic 0 ns)) ++ fields fs

def signature : Signature → List Event
  | x@⟨_, params, results⟩ => .pass (.signature x) :: (fields params ++ fields results)

def simple (note : Option Nat) : Simple → List Event
  | x@(.expr _ e) => .pass (.simple x) :: expr e
  | x@(.step _ e _) => .pass (.simple x) :: expr e
  | x@(.send _ c v) => .pass (.simple x) :: (expr c ++ expr v)
  | x@(.assign _ l _ r) => .pass (.simple x) :: (exprs l ++ exprs r)
  | x@(.define t ns values) => .pass (.simple x) ::
      (exprs values ++ definedNames note t.id ns.length values 0 ns)

def simpleOption : Option Simple → List Event
  | none => []
  | some s => simple none s

def stmt : Stmt → List Event
  | x@(.simple t s) => .pass (.stmt x) :: simple (some t.id) s
  | x@(.decl t d@⟨_, _, _, ss⟩) => .pass (.stmt x) :: .pass (.decl d) :: specs t.id ss
  | x@(.labeled _ _ s) => .pass (.stmt x) :: stmt s
  | x@(.go _ e) => .pass (.stmt x) :: expr e
  | x@(.defer _ e) => .pass (.stmt x) :: expr e
  | x@(.ret _ es) => .pass (.stmt x) :: exprs es
  | x@(.branch _ _ _) => [.pass (.stmt x)]
  | x@(.block _ b@⟨_, body⟩) => .pass (.stmt x) :: .openScope ::
      ([] ++ .pass (.block b) :: (stmts body ++ [.closeScope]))
  | x@(.ifElse _ init cond b@⟨_, yes⟩ no) => .pass (.stmt x) :: .openScope ::
      ((simpleOption init ++ (expr cond ++
        ((.openScope :: ([] ++ .pass (.block b) :: (stmts yes ++ [.closeScope]))) ++
          stmtOption no))) ++ [.closeScope])
  | x@(.loop t head b@⟨_, body⟩) => .pass (.stmt x) :: .openScope ::
      ((loopHead t.id head ++
        (.openScope :: ([] ++ .pass (.block b) :: (stmts body ++ [.closeScope])))) ++ [.closeScope])
  | x@(.switch _ init subject cs) => .pass (.stmt x) :: .openScope ::
      ((simpleOption init ++ (exprOption subject ++ clauses cs)) ++ [.closeScope])
  | x@(.typeSwitch t init bind guard cs) => .pass (.stmt x) :: .openScope ::
      ((simpleOption init ++ (expr guard ++ typeClauses t.id bind cs)) ++ [.closeScope])
  | x@(.select _ cs) => .pass (.stmt x) :: comms cs

def stmtOption : Option Stmt → List Event
  | none => []
  | some s => stmt s

def stmts : List Stmt → List Event
  | [] => []
  | s :: ss => stmt s ++ stmts ss

def rangeVar (home : Nat) (subject : Expr) (index : Nat) : Option Expr → List Event
  | none => []
  | some (.ident t n) => [.range t ⟨n, .localVar, .range subject index, home, t.span⟩]
  | some e => mute (expr e)

def loopHead (home : Nat) : LoopHead → List Event
  | .forever => []
  | .cond e => expr e
  | .clause init cond post => simpleOption init ++ (exprOption cond ++ simpleOption post)
  | .range key value true e => expr e ++ (rangeVar home e 0 key ++ rangeVar home e 1 value)
  | .range key value false e => expr e ++ (exprOption key ++ exprOption value)

def clauses : List Clause → List Event
  | [] => []
  | x@⟨_, .exprs es, body⟩ :: cs =>
    (.openScope :: (exprs es ++ .pass (.clause x) :: (stmts body ++ [.closeScope]))) ++ clauses cs
  | x@⟨_, .types ts, body⟩ :: cs =>
    (.openScope :: (mute (typeExprs ts) ++ .pass (.clause x) ::
      (stmts body ++ [.closeScope]))) ++ clauses cs
  | x@⟨_, .default, body⟩ :: cs =>
    (.openScope :: ([] ++ .pass (.clause x) :: (stmts body ++ [.closeScope]))) ++ clauses cs

def typeClauses (home : Nat) (bind : Option Name) : List Clause → List Event
  | [] => []
  | x@⟨_, .types ts, body⟩ :: cs =>
    (.openScope :: ((typeExprs ts ++ bound home bind) ++ .pass (.clause x) ::
      (stmts body ++ [.closeScope]))) ++ typeClauses home bind cs
  | x@⟨_, .exprs es, body⟩ :: cs =>
    (.openScope :: ((mute (exprs es) ++ bound home bind) ++ .pass (.clause x) ::
      (stmts body ++ [.closeScope]))) ++ typeClauses home bind cs
  | x@⟨_, .default, body⟩ :: cs =>
    (.openScope :: (([] ++ bound home bind) ++ .pass (.clause x) ::
      (stmts body ++ [.closeScope]))) ++ typeClauses home bind cs

def comms : List Comm → List Event
  | [] => []
  | x@⟨_, guard, body⟩ :: cs =>
    (.openScope :: (simpleOption guard ++ .pass (.comm x) :: (stmts body ++ [.closeScope]))) ++
      comms cs

def specs (home : Nat) : List Spec → List Event
  | [] => []
  | x@(.values t ns type values) :: ss =>
    (.pass (.spec x) :: (typeOption type ++ (exprs values ++
      valueNames home t.id ns.length type values 0 ns))) ++ specs home ss
  | x@(.type t n _ type) :: ss =>
    (.pass (.spec x) :: .declare ⟨⟨n.text, .typeName, .typeSpec, t.id, n.tag.span⟩, some home⟩ ::
      typeExpr type) ++ specs home ss
  | x@(.imports _ _ _) :: ss => .pass (.spec x) :: specs home ss

end

def func (f : FuncDecl) : List Event :=
  .pass (.func f) :: .openScope :: match f.body with
    | none => (fields f.recv.toList ++ signature f.sig) ++ [.closeScope]
    | some b => (fields f.recv.toList ++ signature f.sig) ++ .pass (.block b) ::
        (stmts b.stmts ++ [.closeScope])

/-- Values of the package: its names are known before. -/
def packageSpec : Spec → List Event
  | x@(.imports _ _ _) => [.pass (.spec x)]
  | x@(.values _ _ type values) => .pass (.spec x) :: (typeOption type ++ exprs values)
  | x@(.type _ _ _ type) => .pass (.spec x) :: typeExpr type

def topDecl : TopDecl → List Event
  | .decl d => .pass (.decl d) :: d.specs.flatMap packageSpec
  | .func f => func f

end Trail

/-- The trail of a file. -/
def SourceFile.trail (f : SourceFile) : List Event := f.decls.flatMap Trail.topDecl

def playAll : List Event → Resolve Unit
  | [] => pure ()
  | e :: es => do
    e.play
    playAll es

@[simp] theorem playAll_nil : playAll [] = pure () := rfl

@[simp] theorem playAll_cons (e : Event) (es : List Event) :
    playAll (e :: es) = e.play >>= fun _ => playAll es := rfl

@[simp] theorem playAll_append (es fs : List Event) :
    playAll (es ++ fs) = playAll es >>= fun _ => playAll fs := by
  induction es with
  | nil => rfl
  | cons e es ih => simp [ih]

@[simp] theorem play_pass (n : Node) : (Event.pass n).play = pure () := rfl

@[simp] theorem play_openScope : Event.openScope.play = Resolve.openScope := rfl

@[simp] theorem play_closeScope : Event.closeScope.play = Resolve.closeScope := rfl

@[simp] theorem playAll_mute (es : List Event) : playAll (mute es) = pure () := by
  unfold mute
  induction met es with
  | nil => rfl
  | cons n ns ih => simp [ih]

theorem playAll_flatMap {α : Type} {m : α → Resolve Unit} {trail : α → List Event}
    (h : ∀ a, m a = playAll (trail a)) (xs : List α) : xs.forM m = playAll (xs.flatMap trail) := by
  induction xs with
  | nil => rfl
  | cons x xs ih =>
    rw [List.flatMap_cons, playAll_append, ← h, ← ih]
    rfl

@[simp] theorem noteDeclared_none (b : Option Nat) : Resolve.noteDeclared none b = pure () := by
  cases b <;> rfl

namespace Trail

open Resolve (inScope)

theorem play_paramNames (home : Nat) (type : TypeExpr) (variadic : Bool) (index : Nat)
    (ns : List Name) : Resolve.paramNames home type variadic index ns =
      playAll (paramNames home type variadic index ns) := by
  induction ns generalizing index with
  | nil => rfl
  | cons n ns ih => simp [Resolve.paramNames, paramNames, Event.play, ih]

theorem play_definedNames (note : Option Nat) (home names : Nat) (values : List Expr) (index : Nat)
    (ns : List Name) : Resolve.definedNames note home names values index ns =
      playAll (definedNames note home names values index ns) := by
  induction ns generalizing index with
  | nil => rfl
  | cons n ns ih =>
    simp only [Resolve.definedNames, definedNames, Event.play, ih, playAll_cons, bind_assoc]
    refine congrArg _ (funext fun here => ?_)
    cases here <;> simp

theorem play_valueNames (note home names : Nat) (type : Option TypeExpr) (values : List Expr)
    (index : Nat) (ns : List Name) : Resolve.valueNames note home names type values index ns =
      playAll (valueNames note home names type values index ns) := by
  induction ns generalizing index with
  | nil => rfl
  | cons n ns ih => simp [Resolve.valueNames, valueNames, Event.play, ih]

theorem play_bound (home : Nat) (n : Option Name) :
    Resolve.typeClauses.bindClause home n = playAll (bound home n) := by
  cases n <;> simp [Resolve.typeClauses.bindClause, bound, Event.play]

mutual

theorem play_expr : ∀ e : Expr, Resolve.expr e = playAll (expr e)
  | .ident _ _ => by simp [Resolve.expr, expr, Event.play]
  | .lit _ _ _ => by simp [Resolve.expr, expr]
  | .funcLit _ sig ⟨_, body⟩ => by
    simp [Resolve.expr, expr, inScope, play_signature sig, play_stmts body]
  | .composite _ type elems => by
    simp [Resolve.expr, expr, play_typeOption type, play_elements _ elems]
  | .paren _ e => by simp [Resolve.expr, expr, play_expr e]
  | .selector _ e _ => by simp [Resolve.expr, expr, play_expr e]
  | .index _ e i => by simp [Resolve.expr, expr, play_expr e, play_expr i]
  | .slice _ e lo hi max => by
    simp [Resolve.expr, expr, play_expr e, play_exprOption lo, play_exprOption hi,
      play_exprOption max]
  | .assert _ e type => by simp [Resolve.expr, expr, play_expr e, play_typeOption type]
  | .call _ callee args _ => by simp [Resolve.expr, expr, play_expr callee, play_exprs args]
  | .unary _ _ e => by simp [Resolve.expr, expr, play_expr e]
  | .binary _ l _ r => by simp [Resolve.expr, expr, play_expr l, play_expr r]
  | .type _ t => by simp [Resolve.expr, expr, play_typeExpr t]

theorem play_exprOption : ∀ e : Option Expr, Resolve.exprOption e = playAll (exprOption e)
  | none => by simp [Resolve.exprOption, exprOption]
  | some e => by simp [Resolve.exprOption, exprOption, play_expr e]

theorem play_exprs : ∀ es : List Expr, Resolve.exprs es = playAll (exprs es)
  | [] => by simp [Resolve.exprs, exprs]
  | e :: es => by simp [Resolve.exprs, exprs, play_expr e, play_exprs es]

theorem play_elements (fields : Bool) : ∀ es : List Element,
    Resolve.elements fields es = playAll (elements fields es)
  | [] => by simp [Resolve.elements, elements]
  | ⟨key, value⟩ :: es => by
    have hkey := play_exprOption key
    have hvalue := play_expr value
    have hes := play_elements fields es
    cases hskip : fields && Resolve.isIdent key with
    | true => simp [Resolve.elements, elements, hskip, hvalue, hes]
    | false => simp [Resolve.elements, elements, hskip, hkey, hvalue, hes]

theorem play_typeExpr : ∀ t : TypeExpr, Resolve.typeExpr t = playAll (typeExpr t)
  | .named _ _ _ => by simp [Resolve.typeExpr, typeExpr]
  | .pointer _ t => by simp [Resolve.typeExpr, typeExpr, play_typeExpr t]
  | .slice _ t => by simp [Resolve.typeExpr, typeExpr, play_typeExpr t]
  | .chan _ _ t => by simp [Resolve.typeExpr, typeExpr, play_typeExpr t]
  | .array _ len t => by
    simp [Resolve.typeExpr, typeExpr, play_exprOption len, play_typeExpr t]
  | .map _ k v => by simp [Resolve.typeExpr, typeExpr, play_typeExpr k, play_typeExpr v]
  | .func _ ⟨_, params, results⟩ => by
    simp [Resolve.typeExpr, typeExpr, play_fieldTypes params, play_fieldTypes results]
  | .struct _ fields => by simp [Resolve.typeExpr, typeExpr, play_fieldTypes fields]
  | .interface _ methods => by simp [Resolve.typeExpr, typeExpr, play_fieldTypes methods]

theorem play_typeOption : ∀ t : Option TypeExpr, Resolve.typeOption t = playAll (typeOption t)
  | none => by simp [Resolve.typeOption, typeOption]
  | some t => by simp [Resolve.typeOption, typeOption, play_typeExpr t]

theorem play_typeExprs : ∀ ts : List TypeExpr, Resolve.typeExprs ts = playAll (typeExprs ts)
  | [] => by simp [Resolve.typeExprs, typeExprs]
  | t :: ts => by simp [Resolve.typeExprs, typeExprs, play_typeExpr t, play_typeExprs ts]

theorem play_fieldTypes : ∀ fs : List Field, Resolve.fieldTypes fs = playAll (fieldTypes fs)
  | [] => by simp [Resolve.fieldTypes, fieldTypes]
  | ⟨_, _, type, _, _⟩ :: fs => by
    simp [Resolve.fieldTypes, fieldTypes, play_typeExpr type, play_fieldTypes fs]

theorem play_fields : ∀ fs : List Field, Resolve.fields fs = playAll (fields fs)
  | [] => by simp [Resolve.fields, fields]
  | ⟨t, ns, type, variadic, _⟩ :: fs => by
    simp [Resolve.fields, fields, play_typeExpr type, play_paramNames, play_fields fs]

theorem play_signature : ∀ s : Signature, Resolve.signature s = playAll (signature s)
  | ⟨_, params, results⟩ => by
    simp [Resolve.signature, signature, play_fields params, play_fields results]

theorem play_simple (note : Option Nat) : ∀ s : Simple,
    Resolve.simple note s = playAll (simple note s)
  | .expr _ e => by simp [Resolve.simple, simple, play_expr e]
  | .step _ e _ => by simp [Resolve.simple, simple, play_expr e]
  | .send _ c v => by simp [Resolve.simple, simple, play_expr c, play_expr v]
  | .assign _ l _ r => by simp [Resolve.simple, simple, play_exprs l, play_exprs r]
  | .define _ _ values => by
    simp [Resolve.simple, simple, play_exprs values, play_definedNames]

theorem play_simpleOption : ∀ s : Option Simple,
    Resolve.simpleOption s = playAll (simpleOption s)
  | none => by simp [Resolve.simpleOption, simpleOption]
  | some s => by simp [Resolve.simpleOption, simpleOption, play_simple none s]

theorem play_stmt : ∀ s : Stmt, Resolve.stmt s = playAll (stmt s)
  | .simple _ s => by simp [Resolve.stmt, stmt, play_simple _ s]
  | .decl _ ⟨_, _, _, ss⟩ => by simp [Resolve.stmt, stmt, play_specs _ ss]
  | .labeled _ _ s => by simp [Resolve.stmt, stmt, play_stmt s]
  | .go _ e => by simp [Resolve.stmt, stmt, play_expr e]
  | .defer _ e => by simp [Resolve.stmt, stmt, play_expr e]
  | .ret _ es => by simp [Resolve.stmt, stmt, play_exprs es]
  | .branch _ _ _ => by simp [Resolve.stmt, stmt]
  | .block _ ⟨_, body⟩ => by simp [Resolve.stmt, stmt, inScope, play_stmts body]
  | .ifElse _ init cond ⟨_, yes⟩ no => by
    simp [Resolve.stmt, stmt, inScope, play_simpleOption init, play_expr cond, play_stmts yes,
      play_stmtOption no]
  | .loop _ head ⟨_, body⟩ => by
    simp [Resolve.stmt, stmt, inScope, play_loopHead _ head, play_stmts body]
  | .switch _ init subject cs => by
    simp [Resolve.stmt, stmt, inScope, play_simpleOption init, play_exprOption subject,
      play_clauses cs]
  | .typeSwitch _ init _ guard cs => by
    simp [Resolve.stmt, stmt, inScope, play_simpleOption init, play_expr guard,
      play_typeClauses _ _ cs]
  | .select _ cs => by simp [Resolve.stmt, stmt, play_comms cs]

theorem play_stmtOption : ∀ s : Option Stmt, Resolve.stmtOption s = playAll (stmtOption s)
  | none => by simp [Resolve.stmtOption, stmtOption]
  | some s => by simp [Resolve.stmtOption, stmtOption, play_stmt s]

theorem play_stmts : ∀ ss : List Stmt, Resolve.stmts ss = playAll (stmts ss)
  | [] => by simp [Resolve.stmts, stmts]
  | s :: ss => by simp [Resolve.stmts, stmts, play_stmt s, play_stmts ss]

theorem play_rangeVar (home : Nat) (subject : Expr) (index : Nat) : ∀ e : Option Expr,
    Resolve.rangeVar home subject index e = playAll (rangeVar home subject index e) := by
  intro e
  rcases e with _ | e
  · simp [Resolve.rangeVar, rangeVar]
  · cases e with
    | ident t n => exact bind_pure_unit.symm
    | _ => simp [Resolve.rangeVar, rangeVar]

theorem play_loopHead (home : Nat) : ∀ x : LoopHead,
    Resolve.loopHead home x = playAll (loopHead home x)
  | .forever => by simp [Resolve.loopHead, loopHead]
  | .cond e => by simp [Resolve.loopHead, loopHead, play_expr e]
  | .clause init cond post => by
    simp [Resolve.loopHead, loopHead, play_simpleOption init, play_exprOption cond,
      play_simpleOption post]
  | .range key value true e => by
    simp [Resolve.loopHead, loopHead, play_expr e, play_rangeVar]
  | .range key value false e => by
    simp [Resolve.loopHead, loopHead, play_expr e, play_exprOption key, play_exprOption value]

theorem play_clauses : ∀ cs : List Clause, Resolve.clauses cs = playAll (clauses cs)
  | [] => by simp [Resolve.clauses, clauses]
  | ⟨_, .exprs es, body⟩ :: cs => by
    simp [Resolve.clauses, clauses, inScope, play_exprs es, play_stmts body, play_clauses cs]
  | ⟨_, .types _, body⟩ :: cs => by
    simp [Resolve.clauses, clauses, inScope, play_stmts body, play_clauses cs]
  | ⟨_, .default, body⟩ :: cs => by
    simp [Resolve.clauses, clauses, inScope, play_stmts body, play_clauses cs]

theorem play_typeClauses (home : Nat) (bind : Option Name) : ∀ cs : List Clause,
    Resolve.typeClauses home bind cs = playAll (typeClauses home bind cs)
  | [] => by simp [Resolve.typeClauses, typeClauses]
  | ⟨_, .types ts, body⟩ :: cs => by
    simp [Resolve.typeClauses, typeClauses, inScope, play_typeExprs ts, play_bound,
      play_stmts body, play_typeClauses home bind cs]
  | ⟨_, .exprs _, body⟩ :: cs => by
    simp [Resolve.typeClauses, typeClauses, inScope, play_bound, play_stmts body,
      play_typeClauses home bind cs]
  | ⟨_, .default, body⟩ :: cs => by
    simp [Resolve.typeClauses, typeClauses, inScope, play_bound, play_stmts body,
      play_typeClauses home bind cs]

theorem play_comms : ∀ cs : List Comm, Resolve.comms cs = playAll (comms cs)
  | [] => by simp [Resolve.comms, comms]
  | ⟨_, guard, body⟩ :: cs => by
    simp [Resolve.comms, comms, inScope, play_simpleOption guard, play_stmts body, play_comms cs]

theorem play_specs (home : Nat) : ∀ ss : List Spec,
    Resolve.specs home ss = playAll (specs home ss)
  | [] => by simp [Resolve.specs, specs]
  | .values _ _ type values :: ss => by
    simp [Resolve.specs, specs, play_typeOption type, play_exprs values, play_valueNames,
      play_specs home ss]
  | .type _ _ _ type :: ss => by
    simp [Resolve.specs, specs, Event.play, play_typeExpr type, play_specs home ss]
  | .imports _ _ _ :: ss => by simp [Resolve.specs, specs, play_specs home ss]

end

theorem play_func (f : FuncDecl) : Resolve.func f = playAll (func f) := by
  obtain ⟨t, recv, n, sig, body⟩ := f
  cases body with
  | none => simp [Resolve.func, func, inScope, play_fields, play_signature, Resolve.stmts]
  | some b => simp [Resolve.func, func, inScope, play_fields, play_signature, play_stmts]

theorem play_packageSpec (s : Spec) : Resolve.packageValues s = playAll (packageSpec s) := by
  cases s <;> simp [Resolve.packageValues, packageSpec, play_typeOption, play_exprs, play_typeExpr]

theorem play_topDecl (d : TopDecl) : Resolve.topDecl d = playAll (topDecl d) := by
  cases d with
  | decl d =>
    simp only [Resolve.topDecl, topDecl, playAll_cons, play_pass, pure_bind]
    exact playAll_flatMap play_packageSpec d.specs
  | func f => exact play_func f

end Trail

theorem SourceFile.play_trail (f : SourceFile) :
    f.decls.forM Resolve.topDecl = playAll f.trail := playAll_flatMap Trail.play_topDecl f.decls

end FuncLift
