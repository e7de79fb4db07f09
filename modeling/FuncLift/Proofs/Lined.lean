import FuncLift.Proofs.Sighted

/-!
# Trails along children

The trail of a node goes along its children, one behind the other: each has its own trail, or it is
passed without a look. What a node declares in the scope it stands in comes into sight behind its
trail, and what its children declare behind theirs.
-/
namespace FuncLift

namespace Names

/-- The names of one declaration, one behind the other. -/
theorem row {decl : Node} {origin : Nat → Origin} {b : Nat} {f : Nat → List Name → List Event}
    (hnil : ∀ k, f k [] = [])
    (hcons : ∀ k n ns, ∃ e l, f k (n :: ns) = e :: f (k + 1) ns ∧ e.local? = some l ∧
      l.binding = Resolve.localVar n (origin k) decl.tag.id ∧
      e.spares = (Intro.mk decl (Resolve.localVar n (origin k) decl.tag.id)).reuses)
    (hclause : ∀ k n, (Intro.mk decl (Resolve.localVar n (origin k) decl.tag.id)).ofClause = false)
    (hoffset : ∀ k n, (Intro.mk decl (Resolve.localVar n (origin k) decl.tag.id)).offset = b + k)
    (ns : List Name) (k : Nat) : Names decl (b + k) (f k ns)
      ((ns.zipIdx k).map fun (n, k) => ⟨decl, Resolve.localVar n (origin k) decl.tag.id⟩) := by
  induction ns generalizing k with
  | nil =>
    rw [hnil]
    exact .nil
  | cons n ns ih =>
    obtain ⟨e, l, heq, hl, hbinding, hspares⟩ := hcons k n ns
    rw [heq, List.zipIdx_cons, List.map_cons]
    exact .told hl hbinding hspares rfl rfl (hclause k n) (hoffset k n) (ih (k + 1))

theorem define (note : Option Nat) (t : Tag) (ns : List Name) (vs : List Expr) :
    Names (.simple (.define t ns vs)) (Trail.exprs vs).length
      (Trail.definedNames note t.id ns.length vs 0 ns) (Simple.define t ns vs).intros :=
  row (b := (Trail.exprs vs).length) (f := Trail.definedNames note t.id ns.length vs)
    (fun _ => rfl) (fun _ _ _ => ⟨_, _, rfl, rfl, rfl, rfl⟩) (fun _ _ => rfl) (fun _ _ => rfl) ns 0

theorem value (note : Nat) (t : Tag) (ns : List Name) (ty : Option TypeExpr) (vs : List Expr) :
    Names (.spec (.values t ns ty vs)) ((Trail.typeOption ty).length + (Trail.exprs vs).length)
      (Trail.valueNames note t.id ns.length ty vs 0 ns) (Spec.values t ns ty vs).intros :=
  row (b := (Trail.typeOption ty).length + (Trail.exprs vs).length)
    (f := Trail.valueNames note t.id ns.length ty vs)
    (fun _ => rfl) (fun _ _ _ => ⟨_, _, rfl, rfl, rfl, rfl⟩) (fun _ _ => rfl) (fun _ _ => rfl) ns 0

theorem typeSpec (note : Nat) (t : Tag) (n : Name) (isAlias : Bool) (ty : TypeExpr) :
    Names (.spec (.type t n isAlias ty)) ([] : List Event).length
      [.declare ⟨⟨n.text, .typeName, .typeSpec, t.id, n.tag.span⟩, some note⟩]
      (Spec.type t n isAlias ty).intros :=
  .told rfl rfl rfl rfl rfl rfl rfl .nil

theorem mute {decl : Node} {n : Nat} {es : List Event} {is : List Intro} (x : List Event)
    (h : Names decl (n + (FuncLift.mute x).length) es is) :
    Names decl n (FuncLift.mute x ++ es) is := by
  unfold FuncLift.mute at *
  generalize met x = ms at *
  induction ms generalizing n with
  | nil => exact h
  | cons m ms ih =>
    refine .pass (ih ?_)
    rwa [List.map_cons, List.length_cons, ← Nat.add_assoc, Nat.add_right_comm] at h

theorem rangeVar {t : Tag} {key value : Option Expr} {define : Bool} {e : Expr} {b : Block}
    {k n : Nat} {x : Option Expr} {es : List Event} {is : List Intro}
    (hoffset : n = 1 + (Trail.expr e).length +
      if k = 0 then 0 else (Trail.rangeVar t.id e 0 key).length)
    (h : Names (.stmt (.loop t (.range key value define e) b))
      (n + (Trail.rangeVar t.id e k x).length) es is) :
    Names (.stmt (.loop t (.range key value define e) b)) n (Trail.rangeVar t.id e k x ++ es)
      (Intro.ofRange (.stmt (.loop t (.range key value define e) b)) e k x ++ is) := by
  cases x with
  | none => exact h
  | some x =>
    cases x with
    | ident u m => exact .told rfl rfl rfl rfl rfl rfl hoffset.symm h
    | _ => exact .mute _ h

theorem range (t : Tag) (key value : Option Expr) (e : Expr) (b : Block) :
    Names (.stmt (.loop t (.range key value true e) b)) (1 + (Trail.expr e).length)
      (Trail.rangeVar t.id e 0 key ++ Trail.rangeVar t.id e 1 value)
      (Stmt.loop t (.range key value true e) b).rangeIntros := by
  have hvalue : Names (.stmt (.loop t (.range key value true e) b))
      (1 + (Trail.expr e).length + (Trail.rangeVar t.id e 0 key).length)
      (Trail.rangeVar t.id e 1 value ++ [])
      (Intro.ofRange (.stmt (.loop t (.range key value true e) b)) e 1 value ++ []) :=
    rangeVar rfl .nil
  rw [List.append_nil, List.append_nil] at hvalue
  exact rangeVar rfl hvalue

theorem param (f : Field) : Names (.field f) (Trail.typeExpr f.type).length
      (Trail.paramNames f.tag.id f.type f.variadic 0 f.names) f.intros := by
  obtain ⟨t, ns, type, variadic, label⟩ := f
  exact row (b := (Trail.typeExpr type).length) (f := Trail.paramNames t.id type variadic)
    (fun _ => rfl) (fun _ _ _ => ⟨_, _, rfl, rfl, rfl, rfl⟩) (fun _ _ => rfl) (fun _ _ => rfl) ns 0

end Names

namespace Trail

theorem specs_cons (home : Nat) (s : Spec) (ss : List Spec) :
    specs home (s :: ss) = specs home [s] ++ specs home ss := by
  cases s <;> simp [specs]

theorem fields_cons (f : Field) (fs : List Field) : fields (f :: fs) = fields [f] ++ fields fs := by
  cases f
  simp [fields]

theorem fieldTypes_cons (f : Field) (fs : List Field) :
    fieldTypes (f :: fs) = fieldTypes [f] ++ fieldTypes fs := by
  cases f
  simp [fieldTypes]

theorem clauses_cons (c : Clause) (cs : List Clause) :
    clauses (c :: cs) = clauses [c] ++ clauses cs := by
  obtain ⟨t, cases, body⟩ := c
  cases cases <;> simp [clauses]

theorem typeClauses_cons (home : Nat) (bind : Option Name) (c : Clause) (cs : List Clause) :
    typeClauses home bind (c :: cs) = typeClauses home bind [c] ++ typeClauses home bind cs := by
  obtain ⟨t, cases, body⟩ := c
  cases cases <;> simp [typeClauses]

theorem comms_cons (c : Comm) (cs : List Comm) : comms (c :: cs) = comms [c] ++ comms cs := by
  cases c
  simp [comms]

end Trail

namespace Level

open Change

theorem expr (e : Expr) : Level false (Trail.expr e) := (Fair.retraces.expr (fun _ => True) e).1

theorem exprs (es : List Expr) : Level false (Trail.exprs es) :=
  (Fair.retraces.exprs (fun _ => True) es).1

theorem exprOption (e : Option Expr) : Level false (Trail.exprOption e) :=
  (Fair.retraces.exprOption (fun _ => True) e).1

theorem typeExpr (t : TypeExpr) : Level false (Trail.typeExpr t) :=
  (Fair.retraces.typeExpr (fun _ => True) t).1

theorem typeOption (t : Option TypeExpr) : Level false (Trail.typeOption t) :=
  (Fair.retraces.typeOption (fun _ => True) t).1

theorem fieldTypes (fs : List Field) : Level false (Trail.fieldTypes fs) :=
  (Fair.retraces.fieldTypes (fun _ => True) fs).1

theorem bound (home : Nat) (bind : Option Name) : Level true (Trail.bound home bind) := by
  cases bind <;> rfl

theorem typeClause (home : Nat) (bind : Option Name) (c : Clause) :
    Level false (Trail.typeClauses home bind [c]) := by
  have howner {a b : List Event} (ha : Level true a) (hb : Level true b) :
      Level false (.openScope :: (a ++ Event.pass (.clause c) :: (b ++ [Event.closeScope]))) := by
    simpa using (ha.append (hb.pass (n := .clause c))).scope
  have hbody (ss : List Stmt) : Level true (Trail.stmts ss) := (Fair.stmts (fun _ => True) ss).1
  obtain ⟨t, cases, body⟩ := c
  cases cases with
  | types ts =>
    have hts := (Fair.retraces.typeExprs (fun _ => True) ts).1
    simpa [Trail.typeClauses] using howner (hts.weaken.append (bound home bind)) (hbody body)
  | exprs es =>
    simpa [Trail.typeClauses] using
      howner ((mute (Trail.exprs es)).append (bound home bind)) (hbody body)
  | default => simpa [Trail.typeClauses] using howner (bound home bind) (hbody body)

theorem typeClauses (home : Nat) (bind : Option Name) (cs : List Clause) :
    Level false (Trail.typeClauses home bind cs) := by
  induction cs with
  | nil => rfl
  | cons c cs ih =>
    rw [Trail.typeClauses_cons]
    exact (typeClause home bind c).append ih

/-- A statement that declares nothing around it. -/
theorem stmt : ∀ s : Stmt, (∀ t x, s ≠ .simple t x) → (∀ t x, s ≠ .decl t x) →
    (∀ t n x, s ≠ .labeled t n x) → Level false (Trail.stmt s)
  | .simple t x, h, _, _ => absurd rfl (h t x)
  | .decl t x, _, h, _ => absurd rfl (h t x)
  | .labeled t n x, _, _, h => absurd rfl (h t n x)
  | .go _ e, _, _, _ | .defer _ e, _, _, _ => (expr e).pass
  | .ret _ es, _, _, _ => (exprs es).pass
  | .branch .., _, _, _ => rfl
  | .block _ ⟨_, body⟩, _, _, _ => ((Fair.stmts (fun _ => True) body).1.pass.scope).pass
  | .ifElse _ init cond ⟨u, yes⟩ no, _, _, _ =>
    have hinit := (Fair.retraces.simpleOption (fun _ => True) init).1
    have hyes := (Fair.stmts (fun _ => True) yes).1.pass (n := .block ⟨u, yes⟩)
    have hno := (Fair.retraces.stmtOption (fun _ => True) no).1
    (hinit.append ((expr cond).weaken.append (hyes.scope.weaken.append hno))).scope.pass
  | .loop t head ⟨u, body⟩, _, _, _ =>
    have hhead := (Fair.retraces.loopHead (fun _ => True) t.id
      ⟨.stmt (.loop t head ⟨u, body⟩), trivial, rfl⟩ head).1
    have hbody := (Fair.stmts (fun _ => True) body).1.pass (n := .block ⟨u, body⟩)
    (hhead.append hbody.scope.weaken).scope.pass
  | .switch _ init subject cs, _, _, _ =>
    have hinit := (Fair.retraces.simpleOption (fun _ => True) init).1
    have hsubject := (Fair.retraces.exprOption (fun _ => True) subject).1
    have hcs := (Fair.retraces.clauses (fun _ => True) cs).1
    (hinit.append (hsubject.append hcs).weaken).scope.pass
  | .typeSwitch t init bind guard cs, _, _, _ =>
    have hinit := (Fair.retraces.simpleOption (fun _ => True) init).1
    (hinit.append ((expr guard).append (typeClauses t.id bind cs)).weaken).scope.pass
  | .select _ cs, _, _, _ => (Fair.retraces.comms (fun _ => True) cs).1.pass

end Level

namespace Trail

theorem exprs_split {e : Expr} {es : List Expr} (h : e ∈ es) :
    ∃ w v, exprs es = w ++ (expr e ++ v) ∧ Level false w := by
  obtain ⟨front, rest, rfl⟩ := List.append_of_mem h
  exact ⟨exprs front, exprs rest, exprs_append front (e :: rest), .exprs front⟩

theorem typeExprs_split {t : TypeExpr} {ts : List TypeExpr} (h : t ∈ ts) :
    ∃ w v, typeExprs ts = w ++ (typeExpr t ++ v) ∧ Level false w := by
  induction ts with
  | nil => cases h
  | cons x ts ih =>
    rcases List.mem_cons.1 h with rfl | h
    · exact ⟨[], typeExprs ts, rfl, rfl⟩
    · obtain ⟨w, v, hsplit, hw⟩ := ih h
      exact ⟨typeExpr x ++ w, v, by simp [typeExprs, hsplit], (Level.typeExpr x).append hw⟩

end Trail

namespace Document.Owned

variable {d : Document} (hd : d.Owned)

include hd

theorem declares_simple (note : Option Nat) (s : Simple) : d.Declares (Trail.simple note s) s.intros := by
  cases s with
  | define t ns vs => exact hd.declares (.define note t ns vs) (.exprs vs)
  | expr t e | step t e op => exact .level (Level.expr e).pass
  | send t c v => exact .level ((Level.expr c).append (Level.expr v)).pass
  | assign t l op r => exact .level ((Level.exprs l).append (Level.exprs r)).pass

theorem declares_spec (home : Nat) (s : Spec) : d.Declares (Trail.specs home [s]) s.intros := by
  cases s with
  | imports t n path => exact .level rfl
  | values t ns ty vs =>
    have hlead := (Level.typeOption ty).append (Level.exprs vs)
    have hnames := Names.value home t ns ty vs
    rw [← List.length_append] at hnames
    simpa [Trail.specs] using hd.declares hnames hlead
  | type t n isAlias ty =>
    have hname := hd.declares (.typeSpec home t n isAlias ty) rfl
    simpa [Trail.specs] using hname.before (Level.typeExpr ty)

theorem declares_specs (home : Nat) (ss : List Spec) :
    d.Declares (Trail.specs home ss) (ss.flatMap Spec.intros) := by
  induction ss with
  | nil => exact .nil
  | cons s ss ih =>
    rw [Trail.specs_cons, List.flatMap_cons]
    exact (hd.declares_spec home s).append ih

theorem declares_field (f : Field) : d.Declares (Trail.fields [f]) f.intros := by
  have hdeclares := hd.declares (.param f) (.typeExpr f.type)
  obtain ⟨t, ns, type, variadic, label⟩ := f
  simpa [Trail.fields] using hdeclares

theorem declares_fields (fs : List Field) :
    d.Declares (Trail.fields fs) (fs.flatMap Field.intros) := by
  induction fs with
  | nil => exact .nil
  | cons f fs ih =>
    rw [Trail.fields_cons, List.flatMap_cons]
    exact (hd.declares_field f).append ih

theorem declares_stmt : ∀ s : Stmt, d.Declares (Trail.stmt s) s.intros
  | .simple t s => (hd.declares_simple (some t.id) s).pass
  | .decl t ⟨_, _, _, ss⟩ => (hd.declares_specs t.id ss).pass.pass
  | .labeled _ _ s => (declares_stmt s).pass
  | .go .. | .defer .. | .ret .. | .branch .. | .block .. | .ifElse .. | .loop .. | .switch ..
  | .typeSwitch .. | .select .. => .level (.stmt _ (by simp) (by simp) (by simp))

theorem declares_stmts (ss : List Stmt) :
    d.Declares (Trail.stmts ss) (ss.flatMap Stmt.intros) := by
  induction ss with
  | nil => exact .nil
  | cons s ss ih => exact (hd.declares_stmt s).append ih

end Document.Owned

/-- The trail of a node that has a role. -/
inductive Trails : Role → Node → List Event → Prop
  | expr {r : Role} {e : Expr} : Trails r (.expr e) (Trail.expr e)
  | type {r : Role} {t : TypeExpr} : Trails r (.type t) (Trail.typeExpr t)
  | simple {note : Option Nat} {s : Simple} : Trails .plain (.simple s) (Trail.simple note s)
  | stmt {s : Stmt} : Trails .plain (.stmt s) (Trail.stmt s)
  | decl {home : Nat} {d : Decl} : Trails .plain (.decl d) (.pass (.decl d) :: Trail.specs home d.specs)
  | spec {home : Nat} {s : Spec} : Trails .plain (.spec s) (Trail.specs home [s])
  | packageDecl {d : Decl} : Trails .package (.decl d) (Trail.topDecl (.decl d))
  | packageSpec {s : Spec} : Trails .package (.spec s) (Trail.packageSpec s)
  | func {f : FuncDecl} : Trails .package (.func f) (Trail.func f)
  | params {s : Signature} : Trails .params (.signature s) (Trail.signature s)
  | signature {s : Signature} : Trails .plain (.signature s)
      (.pass (.signature s) :: (Trail.fieldTypes s.params ++ Trail.fieldTypes s.results))
  | param {f : Field} : Trails .params (.field f) (Trail.fields [f])
  | field {f : Field} : Trails .plain (.field f) (Trail.fieldTypes [f])
  | body {b : Block} : Trails .plain (.block b) (.pass (.block b) :: Trail.stmts b.stmts)
  | block {b : Block} : Trails .scoped (.block b)
      (.openScope :: (.pass (.block b) :: (Trail.stmts b.stmts ++ [Event.closeScope])))
  | clause {c : Clause} : Trails .plain (.clause c) (Trail.clauses [c])
  | typeClause {home : Nat} {bind : Option Name} {c : Clause} :
      Trails (.typeClause home bind) (.clause c) (Trail.typeClauses home bind [c])
  | comm {c : Comm} : Trails .plain (.comm c) (Trail.comms [c])

/-- The trails of the children among the pieces stand one behind the other. -/
inductive Lined (r : Role) (p : Node) : List Piece → List Event → Prop
  | nil : Lined r p [] []
  | pass {m : Node} {ps : List Piece} {b : List Event} (h : Lined r p ps b) :
      Lined r p ps (.pass m :: b)
  | name {n : Name} {ps : List Piece} {b : List Event} (h : Lined r p ps b) :
      Lined r p (.name n :: ps) b
  | look {c : Node} {ps : List Piece} {x b : List Event} (hc : Trails (r.child p c) c x)
      (h : Lined r p ps b) : Lined r p (.child c :: ps) (x ++ b)
  | skip {c : Node} {ps : List Piece} {x b : List Event} (hc : p.Skips r c) (h : Lined r p ps b) :
      Lined r p (.child c :: ps) (mute x ++ b)

namespace Lined

variable {r : Role} {p : Node} {ps qs : List Piece} {a b : List Event}

theorem append (h : Lined r p ps a) (h' : Lined r p qs b) : Lined r p (ps ++ qs) (a ++ b) := by
  induction h with
  | nil => exact h'
  | pass _ ih => exact .pass ih
  | name _ ih => exact .name ih
  | look hc _ ih =>
    rw [List.append_assoc]
    exact .look hc ih
  | skip hc _ ih =>
    rw [List.append_assoc]
    exact .skip hc ih

/-- A child that is looked at has its trail behind those of the children before. -/
theorem split (h : Lined r p ps b) {c : Node} {before behind : List Node}
    (hps : Piece.nodes ps = before ++ c :: behind) (hlook : ¬p.Skips r c) : ∃ qs u x v,
      b = u ++ x ++ v ∧ Lined r p qs u ∧ Piece.nodes qs = before ∧ Trails (r.child p c) c x := by
  induction h generalizing before with
  | nil => simp at hps
  | pass _ ih =>
    obtain ⟨qs, u, x, v, rfl, hu, hbefore, hx⟩ := ih hps
    exact ⟨qs, _, x, v, rfl, .pass hu, hbefore, hx⟩
  | name _ ih => exact ih hps
  | @look c' ps x b hc _ ih =>
    rw [Piece.nodes_child, List.cons_eq_append_iff] at hps
    rcases hps with ⟨rfl, heq⟩ | ⟨before, rfl, hps⟩
    · cases heq
      exact ⟨[], [], x, b, rfl, .nil, rfl, hc⟩
    · obtain ⟨qs, u, y, v, rfl, hu, rfl, hy⟩ := ih hps
      exact ⟨_, x ++ u, y, v, by simp, .look hc hu, rfl, hy⟩
  | @skip c' ps x b hc _ ih =>
    rw [Piece.nodes_child, List.cons_eq_append_iff] at hps
    rcases hps with ⟨rfl, heq⟩ | ⟨before, rfl, hps⟩
    · cases heq
      exact absurd hc hlook
    · obtain ⟨qs, u, y, v, rfl, hu, rfl, hy⟩ := ih hps
      exact ⟨_, mute x ++ u, y, v, by simp, .skip hc hu, rfl, hy⟩

theorem one {c : Node} (hc : Trails (r.child p c) c a) : Lined r p [.child c] a := by
  simpa using look hc .nil

theorem exprs (es : List Expr) : Lined r p (es.map Expr.piece) (Trail.exprs es) := by
  induction es with
  | nil => exact .nil
  | cons e es ih => exact .look .expr ih

theorem exprOption (e : Option Expr) : Lined r p (e.toList.map Expr.piece) (Trail.exprOption e) := by
  cases e with
  | none => exact .nil
  | some e => exact one .expr

theorem typeOption (t : Option TypeExpr) :
    Lined r p (t.toList.map TypeExpr.piece) (Trail.typeOption t) := by
  cases t with
  | none => exact .nil
  | some t => exact one .type

theorem mutedTypes (h : ∀ t, p.Skips r (.type t)) (ts : List TypeExpr) :
    Lined r p (ts.map TypeExpr.piece) (mute (Trail.typeExprs ts)) := by
  induction ts with
  | nil => exact .nil
  | cons t ts ih =>
    rw [Trail.typeExprs, mute_append]
    exact .skip (h t) ih

theorem names (ns : List Name) (h : Lined r p ps b) : Lined r p (ns.map Name.piece ++ ps) b := by
  induction ns with
  | nil => exact h
  | cons n ns ih => exact .name ih

/-- Children of one kind, each with its trail. -/
theorem list {α : Type} {piece : α → Node} {f : α → List Event} {g : List α → List Event}
    (hnil : g [] = []) (hcons : ∀ a as, g (a :: as) = f a ++ g as)
    (hone : ∀ a, Trails (r.child p (piece a)) (piece a) (f a)) (as : List α) :
    Lined r p (as.map fun a => .child (piece a)) (g as) := by
  induction as with
  | nil =>
    rw [hnil]
    exact .nil
  | cons a as ih =>
    rw [hcons]
    exact .look (hone a) ih

theorem stmts (h : ∀ s, r.child p (.stmt s) = .plain) (ss : List Stmt) :
    Lined r p (ss.map Stmt.piece) (Trail.stmts ss) :=
  list rfl (fun _ _ => rfl) (fun s => by rw [h]; exact .stmt) ss

theorem specs (home : Nat) (h : ∀ s, r.child p (.spec s) = .plain) (ss : List Spec) :
    Lined r p (ss.map Spec.piece) (Trail.specs home ss) :=
  list rfl (Trail.specs_cons home) (fun s => by rw [h]; exact .spec) ss

theorem packageSpecs (h : ∀ s, r.child p (.spec s) = .package) (ss : List Spec) :
    Lined r p (ss.map Spec.piece) (ss.flatMap Trail.packageSpec) :=
  list rfl (fun _ _ => List.flatMap_cons) (fun s => by rw [h]; exact .packageSpec) ss

theorem fields (h : ∀ f, r.child p (.field f) = .params) (fs : List Field) :
    Lined r p (fs.map Field.piece) (Trail.fields fs) :=
  list rfl Trail.fields_cons (fun f => by rw [h]; exact .param) fs

theorem fieldTypes (h : ∀ f, r.child p (.field f) = .plain) (fs : List Field) :
    Lined r p (fs.map Field.piece) (Trail.fieldTypes fs) :=
  list rfl Trail.fieldTypes_cons (fun f => by rw [h]; exact .field) fs

theorem clauses (h : ∀ c, r.child p (.clause c) = .plain) (cs : List Clause) :
    Lined r p (cs.map Clause.piece) (Trail.clauses cs) :=
  list rfl Trail.clauses_cons (fun c => by rw [h]; exact .clause) cs

theorem typeClauses {home : Nat} {bind : Option Name}
    (h : ∀ c, r.child p (.clause c) = .typeClause home bind) (cs : List Clause) :
    Lined r p (cs.map Clause.piece) (Trail.typeClauses home bind cs) :=
  list rfl (Trail.typeClauses_cons home bind) (fun c => by rw [h]; exact .typeClause) cs

theorem comms (h : ∀ c, r.child p (.comm c) = .plain) (cs : List Comm) :
    Lined r p (cs.map Comm.piece) (Trail.comms cs) :=
  list rfl Trail.comms_cons (fun c => by rw [h]; exact .comm) cs

theorem simpleOption (h : ∀ s, r.child p (.simple s) = .plain) (s : Option Simple) :
    Lined r p (s.toList.map Simple.piece) (Trail.simpleOption s) := by
  cases s with
  | none => exact .nil
  | some s => exact one (by rw [h]; exact .simple)

theorem stmtOption (h : ∀ s, r.child p (.stmt s) = .plain) (s : Option Stmt) :
    Lined r p (s.toList.map Stmt.piece) (Trail.stmtOption s) := by
  cases s with
  | none => exact .nil
  | some s => exact one (by rw [h]; exact .stmt)

end Lined

theorem Trails.declares {d : Document} (hd : d.Owned) {r : Role} {n : Node} {x : List Event}
    (h : Trails r n x) : d.Declares x (n.intros r) := by
  cases h with
  | @expr _ e => cases r <;> exact .level (.expr e)
  | @type _ t => cases r <;> exact .level (.typeExpr t)
  | @simple note s => exact hd.declares_simple note s
  | @stmt s => exact hd.declares_stmt s
  | @decl home d => exact (hd.declares_specs home d.specs).pass
  | @spec home s => exact hd.declares_spec home s
  | @packageDecl d => exact .level (Fair.retraces.topDecl (fun _ => True) (.decl d)).1
  | @packageSpec s => exact .level (Fair.retraces.packageSpec (fun _ => True) s).1
  | @func f => exact .level (Fair.retraces.func (fun _ => True) f).1
  | @params s =>
    obtain ⟨t, params, results⟩ := s
    have hfields := ((hd.declares_fields params).append (hd.declares_fields results)).pass
      (n := .signature ⟨t, params, results⟩)
    rw [← List.flatMap_append] at hfields
    exact hfields
  | @signature s => exact .level ((Level.fieldTypes s.params).append (.fieldTypes s.results)).pass
  | @param f => exact hd.declares_field f
  | @field f => exact .level (.fieldTypes [f])
  | @body b => exact (hd.declares_stmts b.stmts).pass
  | @block b => exact .level ((Fair.stmts (fun _ => True) b.stmts).1.pass.scope)
  | @clause c => exact .level (Fair.retraces.clauses (fun _ => True) [c]).1
  | @typeClause home bind c => exact .level (.typeClause home bind c)
  | @comm c => exact .level (Fair.retraces.comms (fun _ => True) [c]).1

/-- What is passed without a look declares nothing. -/
theorem Node.Skips.intros {r r' : Role} {p c : Node} (h : p.Skips r c) : c.intros r' = [] := by
  have hkind : (∃ e, c = .expr e) ∨ ∃ t, c = .type t := by
    unfold Node.Skips at h
    split at h <;> simp at h ⊢
  rcases hkind with ⟨e, rfl⟩ | ⟨t, rfl⟩ <;> cases r' <;> rfl

theorem Lined.declares {d : Document} (hd : d.Owned) {r : Role} {p : Node} {ps : List Piece}
    {b : List Event} (h : Lined r p ps b) :
    d.Declares b ((Piece.nodes ps).flatMap fun c => c.intros (r.child p c)) := by
  induction h with
  | nil => exact .nil
  | pass _ ih => exact ih.pass
  | name _ ih => exact ih
  | look hc _ ih => exact (hc.declares hd).append ih
  | skip hc _ ih =>
    rw [Piece.nodes_child, List.flatMap_cons, hc.intros]
    exact .behind (.mute _) ih

end FuncLift
