import FuncLift.Proofs.Bound
import FuncLift.Proofs.Surgery

/-!
# The nodes of a trail

A trail meets the nodes of its tree, each as often as it is there, though not in the order of the
walk: the subject of a range clause comes before its variables.
-/
namespace FuncLift

open Outline

/-- How many nodes that are met satisfy a condition. -/
def metCount (q : Node → Bool) (es : List Event) : Nat := (met es).countP q

@[simp] theorem metCount_nil (q : Node → Bool) : metCount q [] = 0 := rfl

@[simp] theorem metCount_append (q : Node → Bool) (es fs : List Event) :
    metCount q (es ++ fs) = metCount q es + metCount q fs := by
  simp [metCount]

@[simp] theorem metCount_mute (q : Node → Bool) (es : List Event) :
    metCount q (mute es) = metCount q es := by
  simp [metCount]

@[simp] theorem metCount_pass (q : Node → Bool) (n : Node) (es : List Event) :
    metCount q (.pass n :: es) = metCount q es + if q n then 1 else 0 := by
  simp [metCount, met, Event.node?, List.countP_cons]

@[simp] theorem metCount_open (q : Node → Bool) (es : List Event) :
    metCount q (.openScope :: es) = metCount q es := rfl

@[simp] theorem metCount_close (q : Node → Bool) (es : List Event) :
    metCount q (.closeScope :: es) = metCount q es := rfl

@[simp] theorem metCount_declare (q : Node → Bool) (l : Local) (es : List Event) :
    metCount q (.declare l :: es) = metCount q es := rfl

@[simp] theorem metCount_define (q : Node → Bool) (l : Local) (es : List Event) :
    metCount q (.define l :: es) = metCount q es := rfl

@[simp] theorem metCount_refer (q : Node → Bool) (t : Tag) (name : String) :
    metCount q [.refer t name] = if q (.expr (.ident t name)) then 1 else 0 := by
  simp [metCount, met, Event.node?, List.countP_cons]

@[simp] theorem metCount_range (q : Node → Bool) (t : Tag) (b : Binding) :
    metCount q [.range t b] = if q (.expr (.ident t b.name)) then 1 else 0 := by
  simp [metCount, met, Event.node?, List.countP_cons]

mutual

/-- The same for an outline. -/
def Outline.tally (q : Node → Bool) : Outline → Nat
  | .node n cs => (if q n then 1 else 0) + tallyAll q cs

def Outline.tallyAll (q : Node → Bool) : List Outline → Nat
  | [] => 0
  | o :: os => tally q o + tallyAll q os

end

attribute [simp] Outline.tally Outline.tallyAll

@[simp] theorem tallyAll_append (q : Node → Bool) (os ps : List Outline) :
    tallyAll q (os ++ ps) = tallyAll q os + tallyAll q ps := by
  induction os with
  | nil => simp
  | cons o os ih => simp [ih, Nat.add_assoc]

mutual

theorem tally_eq_links (q : Node → Bool) (p : Option Nat) : ∀ o : Outline,
    o.tally q = (o.links p).countP fun l => q l.node
  | .node n cs => by
    rw [Outline.tally, links_node, List.countP_cons, ← tallyAll_eq_linksAll q (some n.tag.id) cs,
      Nat.add_comm]

theorem tallyAll_eq_linksAll (q : Node → Bool) (p : Option Nat) : ∀ os : List Outline,
    tallyAll q os = (linksAll p os).countP fun l => q l.node
  | [] => rfl
  | o :: os => by
    rw [tallyAll, linksAll_cons, List.countP_append, ← tally_eq_links q p o,
      ← tallyAll_eq_linksAll q p os]

end

namespace Trail

variable (q : Node → Bool)

@[simp] theorem count_paramNames (home : Nat) (type : TypeExpr) (variadic : Bool) (index : Nat)
    (ns : List Name) : metCount q (paramNames home type variadic index ns) = 0 := by
  induction ns generalizing index with
  | nil => rfl
  | cons n ns ih => exact ih _

@[simp] theorem count_definedNames (note : Option Nat) (home names : Nat) (values : List Expr)
    (index : Nat) (ns : List Name) :
    metCount q (definedNames note home names values index ns) = 0 := by
  induction ns generalizing index with
  | nil => rfl
  | cons n ns ih => exact ih _

@[simp] theorem count_valueNames (note home names : Nat) (type : Option TypeExpr)
    (values : List Expr) (index : Nat) (ns : List Name) :
    metCount q (valueNames note home names type values index ns) = 0 := by
  induction ns generalizing index with
  | nil => rfl
  | cons n ns ih => exact ih _

@[simp] theorem count_bound (home : Nat) (n : Option Name) : metCount q (bound home n) = 0 := by
  cases n <;> rfl

mutual

theorem count_expr : ∀ e : Expr, metCount q (expr e) = (ofExpr e).tally q
  | .ident _ _ => by simp [expr, ofExpr]
  | .lit _ _ _ => by simp [expr, ofExpr]
  | .funcLit t sig ⟨u, body⟩ => by
    have hsig := count_signature sig
    have hbody := count_stmts body
    simp [expr, ofExpr, ofBlock]
    omega
  | .composite t type elems => by
    have htype := count_typeOption type
    have helems := count_elements (Resolve.keysAreFields type) elems
    simp [expr, ofExpr]
    omega
  | .paren _ e => by
    have he := count_expr e
    simp [expr, ofExpr]
    omega
  | .selector _ e _ => by
    have he := count_expr e
    simp [expr, ofExpr]
    omega
  | .index _ e i => by
    have he := count_expr e
    have hi := count_expr i
    simp [expr, ofExpr]
    omega
  | .slice _ e lo hi max => by
    have he := count_expr e
    have hlo := count_exprOption lo
    have hhi := count_exprOption hi
    have hmax := count_exprOption max
    simp [expr, ofExpr]
    omega
  | .assert _ e type => by
    have he := count_expr e
    have htype := count_typeOption type
    simp [expr, ofExpr]
    omega
  | .call _ callee args _ => by
    have hcallee := count_expr callee
    have hargs := count_exprs args
    simp [expr, ofExpr]
    omega
  | .unary _ _ e => by
    have he := count_expr e
    simp [expr, ofExpr]
    omega
  | .binary _ l _ r => by
    have hl := count_expr l
    have hr := count_expr r
    simp [expr, ofExpr]
    omega
  | .type _ t => by
    have ht := count_typeExpr t
    simp [expr, ofExpr]
    omega

theorem count_exprOption : ∀ e : Option Expr,
    metCount q (exprOption e) = tallyAll q (ofExprOption e)
  | none => by simp [exprOption, ofExprOption]
  | some e => by
    have he := count_expr e
    simp [exprOption, ofExprOption, he]

theorem count_exprs : ∀ es : List Expr,
    metCount q (exprs es) = tallyAll q (ofExprs es)
  | [] => by simp [exprs, ofExprs]
  | e :: es => by
    have he := count_expr e
    have hes := count_exprs es
    simp [exprs, ofExprs, he, hes]

theorem count_elements (fields : Bool) : ∀ es : List Element,
    metCount q (elements fields es) = tallyAll q (ofElements es)
  | [] => by simp [elements, ofElements]
  | ⟨key, value⟩ :: es => by
    have hkey := count_exprOption key
    have hvalue := count_expr value
    have hes := count_elements fields es
    rw [elements]
    split <;> simp [ofElements, ofElement, hkey, hvalue, hes]

theorem count_typeExpr : ∀ t : TypeExpr, metCount q (typeExpr t) = (ofType t).tally q
  | .named _ _ _ => by simp [typeExpr, ofType]
  | .pointer _ t => by
    have ht := count_typeExpr t
    simp [typeExpr, ofType]
    omega
  | .slice _ t => by
    have ht := count_typeExpr t
    simp [typeExpr, ofType]
    omega
  | .chan _ _ t => by
    have ht := count_typeExpr t
    simp [typeExpr, ofType]
    omega
  | .array _ len t => by
    have hlen := count_exprOption len
    have ht := count_typeExpr t
    simp [typeExpr, ofType]
    omega
  | .map _ k v => by
    have hk := count_typeExpr k
    have hv := count_typeExpr v
    simp [typeExpr, ofType]
    omega
  | .func _ ⟨_, params, results⟩ => by
    have hparams := count_fieldTypes params
    have hresults := count_fieldTypes results
    simp [typeExpr, ofType, ofSignature]
    omega
  | .struct _ fields => by
    have hfields := count_fieldTypes fields
    simp [typeExpr, ofType]
    omega
  | .interface _ methods => by
    have hmethods := count_fieldTypes methods
    simp [typeExpr, ofType]
    omega

theorem count_typeOption : ∀ t : Option TypeExpr,
    metCount q (typeOption t) = tallyAll q (ofTypeOption t)
  | none => by simp [typeOption, ofTypeOption]
  | some t => by
    have ht := count_typeExpr t
    simp [typeOption, ofTypeOption, ht]

theorem count_typeExprs : ∀ ts : List TypeExpr,
    metCount q (typeExprs ts) = tallyAll q (ofTypes ts)
  | [] => by simp [typeExprs, ofTypes]
  | t :: ts => by
    have ht := count_typeExpr t
    have hts := count_typeExprs ts
    simp [typeExprs, ofTypes, ht, hts]

theorem count_fieldTypes : ∀ fs : List Field,
    metCount q (fieldTypes fs) = tallyAll q (ofFields fs)
  | [] => by simp [fieldTypes, ofFields]
  | ⟨_, _, type, _, _⟩ :: fs => by
    have htype := count_typeExpr type
    have hfs := count_fieldTypes fs
    simp [fieldTypes, ofFields, ofField]
    omega

theorem count_fields : ∀ fs : List Field, metCount q (fields fs) = tallyAll q (ofFields fs)
  | [] => by simp [fields, ofFields]
  | ⟨_, _, type, _, _⟩ :: fs => by
    have htype := count_typeExpr type
    have hfs := count_fields fs
    simp [fields, ofFields, ofField]
    omega

theorem count_signature : ∀ s : Signature, metCount q (signature s) = (ofSignature s).tally q
  | ⟨_, params, results⟩ => by
    have hparams := count_fields params
    have hresults := count_fields results
    simp [signature, ofSignature]
    omega

theorem count_simple (note : Option Nat) : ∀ s : Simple,
    metCount q (simple note s) = (ofSimple s).tally q
  | .expr _ e => by
    have he := count_expr e
    simp [simple, ofSimple]
    omega
  | .step _ e _ => by
    have he := count_expr e
    simp [simple, ofSimple]
    omega
  | .send _ c v => by
    have hc := count_expr c
    have hv := count_expr v
    simp [simple, ofSimple]
    omega
  | .assign _ l _ r => by
    have hl := count_exprs l
    have hr := count_exprs r
    simp [simple, ofSimple]
    omega
  | .define _ _ values => by
    have hvalues := count_exprs values
    simp [simple, ofSimple]
    omega

theorem count_simpleOption : ∀ s : Option Simple,
    metCount q (simpleOption s) = tallyAll q (ofSimpleOption s)
  | none => by simp [simpleOption, ofSimpleOption]
  | some s => by
    have hs := count_simple none s
    simp [simpleOption, ofSimpleOption, hs]

theorem count_stmt : ∀ s : Stmt, metCount q (stmt s) = (ofStmt s).tally q
  | .simple t s => by
    have hs := count_simple (some t.id) s
    simp [stmt, ofStmt]
    omega
  | .decl t ⟨_, _, _, ss⟩ => by
    have hss := count_specs t.id ss
    simp [stmt, ofStmt, ofDecl]
    omega
  | .labeled _ _ s => by
    have hs := count_stmt s
    simp [stmt, ofStmt]
    omega
  | .go _ e => by
    have he := count_expr e
    simp [stmt, ofStmt]
    omega
  | .defer _ e => by
    have he := count_expr e
    simp [stmt, ofStmt]
    omega
  | .ret _ es => by
    have hes := count_exprs es
    simp [stmt, ofStmt]
    omega
  | .branch _ _ _ => by simp [stmt, ofStmt]
  | .block _ ⟨_, body⟩ => by
    have hbody := count_stmts body
    simp [stmt, ofStmt, ofBlock]
    omega
  | .ifElse _ init cond ⟨_, yes⟩ no => by
    have hinit := count_simpleOption init
    have hcond := count_expr cond
    have hyes := count_stmts yes
    have hno := count_stmtOption no
    simp [stmt, ofStmt, ofBlock]
    omega
  | .loop t head ⟨_, body⟩ => by
    have hhead := count_loopHead t.id head
    have hbody := count_stmts body
    simp [stmt, ofStmt, ofBlock]
    omega
  | .switch _ init subject cs => by
    have hinit := count_simpleOption init
    have hsubject := count_exprOption subject
    have hcs := count_clauses cs
    simp [stmt, ofStmt]
    omega
  | .typeSwitch t init bind guard cs => by
    have hinit := count_simpleOption init
    have hguard := count_expr guard
    have hcs := count_typeClauses t.id bind cs
    simp [stmt, ofStmt]
    omega
  | .select _ cs => by
    have hcs := count_comms cs
    simp [stmt, ofStmt]
    omega

theorem count_stmtOption : ∀ s : Option Stmt,
    metCount q (stmtOption s) = tallyAll q (ofStmtOption s)
  | none => by simp [stmtOption, ofStmtOption]
  | some s => by
    have hs := count_stmt s
    simp [stmtOption, ofStmtOption, hs]

theorem count_stmts : ∀ ss : List Stmt, metCount q (stmts ss) = tallyAll q (ofStmts ss)
  | [] => by simp [stmts, ofStmts]
  | s :: ss => by
    have hs := count_stmt s
    have hss := count_stmts ss
    simp [stmts, ofStmts, hs, hss]

theorem count_rangeVar (home : Nat) (subject : Expr) (index : Nat) :
    ∀ e : Option Expr, metCount q (rangeVar home subject index e) =
      tallyAll q (ofExprOption e)
  | none => by simp [rangeVar, ofExprOption]
  | some e => by
    have he := count_expr e
    cases e <;> simp [rangeVar, ofExprOption, ← he, expr]

theorem count_loopHead (home : Nat) : ∀ x : LoopHead,
    metCount q (loopHead home x) = tallyAll q (ofLoopHead x)
  | .forever => by simp [loopHead, ofLoopHead]
  | .cond e => by
    have he := count_expr e
    simp [loopHead, ofLoopHead, he]
  | .clause init cond post => by
    have hinit := count_simpleOption init
    have hcond := count_exprOption cond
    have hpost := count_simpleOption post
    simp [loopHead, ofLoopHead]
    omega
  | .range key value true e => by
    have hkey := count_rangeVar home e 0 key
    have hvalue := count_rangeVar home e 1 value
    have he := count_expr e
    simp [loopHead, ofLoopHead]
    omega
  | .range key value false e => by
    have hkey := count_exprOption key
    have hvalue := count_exprOption value
    have he := count_expr e
    simp [loopHead, ofLoopHead]
    omega

theorem count_clauses : ∀ cs : List Clause, metCount q (clauses cs) = tallyAll q (ofClauses cs)
  | [] => by simp [clauses, ofClauses]
  | ⟨_, .exprs es, body⟩ :: cs => by
    have hes := count_exprs es
    have hbody := count_stmts body
    have hcs := count_clauses cs
    simp [clauses, ofClauses, ofClause, ofCases]
    omega
  | ⟨_, .types ts, body⟩ :: cs => by
    have hts := count_typeExprs ts
    have hbody := count_stmts body
    have hcs := count_clauses cs
    simp [clauses, ofClauses, ofClause, ofCases]
    omega
  | ⟨_, .default, body⟩ :: cs => by
    have hbody := count_stmts body
    have hcs := count_clauses cs
    simp [clauses, ofClauses, ofClause, ofCases]
    omega

theorem count_typeClauses (home : Nat) (bind : Option Name) : ∀ cs : List Clause,
    metCount q (typeClauses home bind cs) = tallyAll q (ofClauses cs)
  | [] => by simp [typeClauses, ofClauses]
  | ⟨_, .exprs es, body⟩ :: cs => by
    have hes := count_exprs es
    have hbody := count_stmts body
    have hcs := count_typeClauses home bind cs
    simp [typeClauses, ofClauses, ofClause, ofCases]
    omega
  | ⟨_, .types ts, body⟩ :: cs => by
    have hts := count_typeExprs ts
    have hbody := count_stmts body
    have hcs := count_typeClauses home bind cs
    simp [typeClauses, ofClauses, ofClause, ofCases]
    omega
  | ⟨_, .default, body⟩ :: cs => by
    have hbody := count_stmts body
    have hcs := count_typeClauses home bind cs
    simp [typeClauses, ofClauses, ofClause, ofCases]
    omega

theorem count_comms : ∀ cs : List Comm, metCount q (comms cs) = tallyAll q (ofComms cs)
  | [] => by simp [comms, ofComms]
  | ⟨_, guard, body⟩ :: cs => by
    have hguard := count_simpleOption guard
    have hbody := count_stmts body
    have hcs := count_comms cs
    simp [comms, ofComms, ofComm]
    omega

theorem count_specs (home : Nat) : ∀ ss : List Spec,
    metCount q (specs home ss) = tallyAll q (ofSpecs ss)
  | [] => by simp [specs, ofSpecs]
  | .values _ _ type values :: ss => by
    have htype := count_typeOption type
    have hvalues := count_exprs values
    have hss := count_specs home ss
    simp [specs, ofSpecs, ofSpec]
    omega
  | .type _ _ _ type :: ss => by
    have htype := count_typeExpr type
    have hss := count_specs home ss
    simp [specs, ofSpecs, ofSpec]
    omega
  | .imports _ _ _ :: ss => by
    have hss := count_specs home ss
    simp [specs, ofSpecs, ofSpec]
    omega

end

theorem count_func (f : FuncDecl) : metCount q (func f) = (ofFunc f).tally q := by
  obtain ⟨t, recv, n, sig, body⟩ := f
  have hrecv : metCount q (fields recv.toList) = tallyAll q (recv.map ofField).toList := by
    cases recv with
    | none => simp [fields]
    | some f => simpa [ofFields] using count_fields q [f]
  have hsig := count_signature q sig
  cases body with
  | none =>
    simp [func, ofFunc]
    omega
  | some b =>
    obtain ⟨u, ss⟩ := b
    have hss := count_stmts q ss
    simp [func, ofFunc, ofBlock]
    omega

theorem count_packageSpec (s : Spec) : metCount q (packageSpec s) = (ofSpec s).tally q := by
  cases s with
  | imports t n path => simp [packageSpec, ofSpec]
  | values t ns type vs =>
    have htype := count_typeOption q type
    have hvs := count_exprs q vs
    simp [packageSpec, ofSpec]
    omega
  | type t n isAlias type =>
    have htype := count_typeExpr q type
    simp [packageSpec, ofSpec]
    omega

theorem count_topDecl (d : TopDecl) : metCount q (topDecl d) = (ofTopDecl d).tally q := by
  cases d with
  | decl d =>
    obtain ⟨t, kind, grouped, ss⟩ := d
    have hss : metCount q (ss.flatMap packageSpec) = tallyAll q (ofSpecs ss) := by
      induction ss with
      | nil => rfl
      | cons s ss ih => simp [ofSpecs, count_packageSpec, ih]
    simp [topDecl, ofTopDecl, ofDecl]
    omega
  | func f => exact count_func q f

end Trail

theorem SourceFile.count_trail (q : Node → Bool) (f : SourceFile) :
    metCount q f.trail = tallyAll q (f.decls.map ofTopDecl) := by
  unfold trail
  induction f.decls with
  | nil => rfl
  | cons d ds ih => simp [Trail.count_topDecl, ih]

end FuncLift
