import FuncLift.Proofs.Surgery

/-!
# Where a region stands

The outline of a node says what its children are. A region that was found along the outline of a file
therefore stands in the tree where its parent says: an expression is a node of the tree below its
parent, and statements are next to each other in the list of their owner.
-/
namespace FuncLift

theorem Span.eq_of_ends {s t : Span} (h : s.start = t.start) (h' : s.stop = t.stop) : s = t := by
  cases s
  cases t
  simp_all

namespace Outline

mutual

/-- A condition holds of an outline and of all below it. -/
inductive Every (P : Outline → Prop) : Outline → Prop where
  | node {n : Node} {cs : List Outline} (self : P (.node n cs))
      (below : EveryOf P cs) : Every P (.node n cs)

inductive EveryOf (P : Outline → Prop) : List Outline → Prop where
  | nil : EveryOf P []
  | cons {o : Outline} {os : List Outline} (head : Every P o) (tail : EveryOf P os) :
      EveryOf P (o :: os)

end

variable {P : Outline → Prop}

theorem EveryOf.append {os ps : List Outline} (ho : EveryOf P os) (hp : EveryOf P ps) :
    EveryOf P (os ++ ps) := by
  induction os with
  | nil => exact hp
  | cons o os ih =>
    cases ho with
    | cons head tail => exact .cons head (ih tail)

theorem EveryOf.one {o : Outline} (h : Every P o) : EveryOf P [o] := .cons h .nil

section Standard

set_option linter.unusedSectionVars false

variable (h : ∀ n : Node, P n.outline)

include h

mutual

theorem every_ofExpr : ∀ e : Expr, Every P (ofExpr e)
  | .ident t n => .node (h (.expr (.ident t n))) .nil
  | .lit t k x => .node (h (.expr (.lit t k x))) .nil
  | .funcLit t sig b => .node (h (.expr (.funcLit t sig b)))
      (.cons (every_ofSignature sig) (.one (every_ofBlock b)))
  | .composite t type es => .node (h (.expr (.composite t type es)))
      ((every_ofTypeOption type).append (every_ofElements es))
  | .paren t e => .node (h (.expr (.paren t e))) (.one (every_ofExpr e))
  | .selector t e n => .node (h (.expr (.selector t e n))) (.one (every_ofExpr e))
  | .index t e i => .node (h (.expr (.index t e i)))
      (.cons (every_ofExpr e) (.one (every_ofExpr i)))
  | .slice t e lo hi max => .node (h (.expr (.slice t e lo hi max)))
      (.cons (every_ofExpr e) (((every_ofExprOption lo).append
        (every_ofExprOption hi)).append (every_ofExprOption max)))
  | .assert t e type => .node (h (.expr (.assert t e type)))
      (.cons (every_ofExpr e) (every_ofTypeOption type))
  | .call t f args spread => .node (h (.expr (.call t f args spread)))
      (.cons (every_ofExpr f) (every_ofExprs args))
  | .unary t op e => .node (h (.expr (.unary t op e))) (.one (every_ofExpr e))
  | .binary t l op r => .node (h (.expr (.binary t l op r)))
      (.cons (every_ofExpr l) (.one (every_ofExpr r)))
  | .type t type => .node (h (.expr (.type t type))) (.one (every_ofType type))

theorem every_ofExprOption : ∀ e : Option Expr, EveryOf P (ofExprOption e)
  | none => .nil
  | some e => .one (every_ofExpr e)

theorem every_ofExprs : ∀ es : List Expr, EveryOf P (ofExprs es)
  | [] => .nil
  | e :: es => .cons (every_ofExpr e) (every_ofExprs es)

theorem every_ofElement : ∀ e : Element, EveryOf P (ofElement e)
  | ⟨key, value⟩ => (every_ofExprOption key).append (.one (every_ofExpr value))

theorem every_ofElements : ∀ es : List Element, EveryOf P (ofElements es)
  | [] => .nil
  | e :: es => (every_ofElement e).append (every_ofElements es)

theorem every_ofType : ∀ t : TypeExpr, Every P (ofType t)
  | .named t pkg n => .node (h (.type (.named t pkg n))) .nil
  | .pointer t e => .node (h (.type (.pointer t e))) (.one (every_ofType e))
  | .slice t e => .node (h (.type (.slice t e))) (.one (every_ofType e))
  | .array t len e => .node (h (.type (.array t len e)))
      ((every_ofExprOption len).append (.one (every_ofType e)))
  | .map t k v => .node (h (.type (.map t k v)))
      (.cons (every_ofType k) (.one (every_ofType v)))
  | .chan t dir e => .node (h (.type (.chan t dir e))) (.one (every_ofType e))
  | .func t sig => .node (h (.type (.func t sig))) (.one (every_ofSignature sig))
  | .struct t fs => .node (h (.type (.struct t fs))) (every_ofFields fs)
  | .interface t ms => .node (h (.type (.interface t ms))) (every_ofFields ms)

theorem every_ofTypeOption : ∀ t : Option TypeExpr, EveryOf P (ofTypeOption t)
  | none => .nil
  | some t => .one (every_ofType t)

theorem every_ofTypes : ∀ ts : List TypeExpr, EveryOf P (ofTypes ts)
  | [] => .nil
  | t :: ts => .cons (every_ofType t) (every_ofTypes ts)

theorem every_ofField : ∀ f : Field, Every P (ofField f)
  | ⟨t, ns, type, variadic, label⟩ => .node (h (.field ⟨t, ns, type, variadic, label⟩))
      (.one (every_ofType type))

theorem every_ofFields : ∀ fs : List Field, EveryOf P (ofFields fs)
  | [] => .nil
  | f :: fs => .cons (every_ofField f) (every_ofFields fs)

theorem every_ofSignature : ∀ s : Signature, Every P (ofSignature s)
  | ⟨t, ps, rs⟩ => .node (h (.signature ⟨t, ps, rs⟩))
      ((every_ofFields ps).append (every_ofFields rs))

theorem every_ofBlock : ∀ b : Block, Every P (ofBlock b)
  | ⟨t, ss⟩ => .node (h (.block ⟨t, ss⟩)) (every_ofStmts ss)

theorem every_ofSimple : ∀ s : Simple, Every P (ofSimple s)
  | .expr t e => .node (h (.simple (.expr t e))) (.one (every_ofExpr e))
  | .send t c v => .node (h (.simple (.send t c v)))
      (.cons (every_ofExpr c) (.one (every_ofExpr v)))
  | .step t e op => .node (h (.simple (.step t e op))) (.one (every_ofExpr e))
  | .assign t l op r => .node (h (.simple (.assign t l op r)))
      ((every_ofExprs l).append (every_ofExprs r))
  | .define t ns vs => .node (h (.simple (.define t ns vs))) (every_ofExprs vs)

theorem every_ofSimpleOption : ∀ s : Option Simple, EveryOf P (ofSimpleOption s)
  | none => .nil
  | some s => .one (every_ofSimple s)

theorem every_ofStmt : ∀ s : Stmt, Every P (ofStmt s)
  | .simple t s => .node (h (.stmt (.simple t s))) (.one (every_ofSimple s))
  | .decl t d => .node (h (.stmt (.decl t d))) (.one (every_ofDecl d))
  | .labeled t n s => .node (h (.stmt (.labeled t n s))) (.one (every_ofStmt s))
  | .go t e => .node (h (.stmt (.go t e))) (.one (every_ofExpr e))
  | .defer t e => .node (h (.stmt (.defer t e))) (.one (every_ofExpr e))
  | .ret t es => .node (h (.stmt (.ret t es))) (every_ofExprs es)
  | .branch t kind n => .node (h (.stmt (.branch t kind n))) .nil
  | .block t b => .node (h (.stmt (.block t b))) (.one (every_ofBlock b))
  | .ifElse t init cond yes no => .node (h (.stmt (.ifElse t init cond yes no)))
      ((every_ofSimpleOption init).append (.cons (every_ofExpr cond)
        (.cons (every_ofBlock yes) (every_ofStmtOption no))))
  | .loop t x b => .node (h (.stmt (.loop t x b)))
      ((every_ofLoopHead x).append (.one (every_ofBlock b)))
  | .switch t init subject cs => .node (h (.stmt (.switch t init subject cs)))
      (((every_ofSimpleOption init).append (every_ofExprOption subject)).append
        (every_ofClauses cs))
  | .typeSwitch t init bind guard cs => .node (h (.stmt (.typeSwitch t init bind guard cs)))
      ((every_ofSimpleOption init).append (.cons (every_ofExpr guard) (every_ofClauses cs)))
  | .select t cs => .node (h (.stmt (.select t cs))) (every_ofComms cs)

theorem every_ofStmtOption : ∀ s : Option Stmt, EveryOf P (ofStmtOption s)
  | none => .nil
  | some s => .one (every_ofStmt s)

theorem every_ofStmts : ∀ ss : List Stmt, EveryOf P (ofStmts ss)
  | [] => .nil
  | s :: ss => .cons (every_ofStmt s) (every_ofStmts ss)

theorem every_ofLoopHead : ∀ x : LoopHead, EveryOf P (ofLoopHead x)
  | .forever => .nil
  | .cond e => .one (every_ofExpr e)
  | .clause init cond post => ((every_ofSimpleOption init).append
      (every_ofExprOption cond)).append (every_ofSimpleOption post)
  | .range key value _ e => ((every_ofExprOption key).append
      (every_ofExprOption value)).append (.one (every_ofExpr e))

theorem every_ofCases : ∀ x : Cases, EveryOf P (ofCases x)
  | .default => .nil
  | .exprs es => every_ofExprs es
  | .types ts => every_ofTypes ts

theorem every_ofClause : ∀ x : Clause, Every P (ofClause x)
  | ⟨t, cs, ss⟩ => .node (h (.clause ⟨t, cs, ss⟩))
      ((every_ofCases cs).append (every_ofStmts ss))

theorem every_ofClauses : ∀ xs : List Clause, EveryOf P (ofClauses xs)
  | [] => .nil
  | x :: xs => .cons (every_ofClause x) (every_ofClauses xs)

theorem every_ofComm : ∀ x : Comm, Every P (ofComm x)
  | ⟨t, s, ss⟩ => .node (h (.comm ⟨t, s, ss⟩))
      ((every_ofSimpleOption s).append (every_ofStmts ss))

theorem every_ofComms : ∀ xs : List Comm, EveryOf P (ofComms xs)
  | [] => .nil
  | x :: xs => .cons (every_ofComm x) (every_ofComms xs)

theorem every_ofDecl : ∀ d : Decl, Every P (ofDecl d)
  | ⟨t, kind, grouped, ss⟩ => .node (h (.decl ⟨t, kind, grouped, ss⟩)) (every_ofSpecs ss)

theorem every_ofSpec : ∀ s : Spec, Every P (ofSpec s)
  | .imports t n path => .node (h (.spec (.imports t n path))) .nil
  | .values t ns type vs => .node (h (.spec (.values t ns type vs)))
      ((every_ofTypeOption type).append (every_ofExprs vs))
  | .type t n isAlias type => .node (h (.spec (.type t n isAlias type)))
      (.one (every_ofType type))

theorem every_ofSpecs : ∀ ss : List Spec, EveryOf P (ofSpecs ss)
  | [] => .nil
  | s :: ss => .cons (every_ofSpec s) (every_ofSpecs ss)

end

theorem every_ofOption {α : Type} {f : α → Outline} (hf : ∀ a, Every P (f a)) (x : Option α) :
    EveryOf P (x.map f).toList := by
  cases x with
  | none => exact .nil
  | some a => exact .one (hf a)

theorem every_ofList {α : Type} {f : α → Outline} (hf : ∀ a, Every P (f a)) (xs : List α) :
    EveryOf P (xs.map f) := by
  induction xs with
  | nil => exact .nil
  | cons x xs ih => exact .cons (hf x) ih

theorem every_ofFunc (f : FuncDecl) : Every P (ofFunc f) :=
  .node (h (.func f)) ((every_ofOption h (every_ofField h) f.recv).append
    (.cons (every_ofSignature h f.sig) (every_ofOption h (every_ofBlock h) f.body)))

theorem every_ofTopDecl : ∀ d : TopDecl, Every P (ofTopDecl d)
  | .decl d => every_ofDecl h d
  | .func f => every_ofFunc h f

theorem every_ofComment (c : Comment) : Every P (ofComment c) :=
  .node (h (.comment c)) .nil

theorem every_ofCommentGroup (g : CommentGroup) : Every P (ofCommentGroup g) :=
  .node (h (.commentGroup g)) (every_ofList h (every_ofComment h) g.comments)

/-- A condition that the outlines of all nodes meet holds everywhere in a file. -/
theorem every_ofFile (f : SourceFile) : EveryOf P (ofFile f) :=
  (every_ofList h (every_ofTopDecl h) f.decls).append
    (every_ofList h (every_ofCommentGroup h) f.comments)

end Standard

/-- The children of an owner are what stands before its statements, and they. -/
def OwnerComplete (o : Outline) : Prop :=
  ∀ w : Owner, o.content = w.node → o.children = w.front ++ ofStmts w.stmts

theorem content_outline (n : Node) : n.outline.content = n := by
  cases n with
  | func f => rfl
  | comment c => rfl
  | commentGroup g => rfl
  | decl d => cases d; rfl
  | signature s => cases s; rfl
  | field f => cases f; rfl
  | block b => cases b; rfl
  | clause c => cases c; rfl
  | comm c => cases c; rfl
  | spec s => cases s <;> rfl
  | stmt s => cases s <;> rfl
  | simple s => cases s <;> rfl
  | expr e => cases e <;> rfl
  | type t => cases t <;> rfl

theorem ownerComplete (n : Node) : OwnerComplete n.outline := by
  intro w hw
  rw [content_outline] at hw
  subst hw
  cases w with
  | block b => cases b; rfl
  | clause c => cases c; rfl
  | comm c => cases c; rfl

theorem mem_linksAll {p : Option Nat} {o : Outline} {os : List Outline} (ho : o ∈ os) {l : Link}
    (hl : l ∈ o.links p) : l ∈ linksAll p os := by
  induction os with
  | nil => cases ho
  | cons x xs ih =>
    rcases List.mem_cons.1 ho with rfl | ho
    · exact List.mem_append_left _ hl
    · exact List.mem_append_right _ (ih ho)

mutual

/-- The links of an outline hold those of every node of it in one piece. -/
theorem links_split {l : Link} : ∀ {p : Option Nat} {o : Outline}, Every P o → l ∈ o.links p →
    ∃ cs a b, P (.node l.node cs) ∧
      o.links p = a ++ (Outline.node l.node cs).links l.parent ++ b
  | p, .node n cs, .node self below, h => by
    rcases List.mem_cons.1 h with rfl | h
    · exact ⟨cs, [], [], self, by simp⟩
    · obtain ⟨cs', a, b, hP, hsplit⟩ := linksAll_split below h
      exact ⟨cs', ⟨p, n⟩ :: a, b, hP, by rw [links_node, hsplit]; simp⟩

theorem linksAll_split {l : Link} : ∀ {p : Option Nat} {os : List Outline}, EveryOf P os →
    l ∈ linksAll p os → ∃ cs a b, P (.node l.node cs) ∧
      linksAll p os = a ++ (Outline.node l.node cs).links l.parent ++ b
  | _, [], _, h => by cases h
  | p, o :: os, .cons head tail, h => by
    rcases List.mem_append.1 h with h | h
    · obtain ⟨cs, a, b, hP, hsplit⟩ := links_split head h
      exact ⟨cs, a, b ++ linksAll p os, hP, by rw [linksAll_cons, hsplit]; simp⟩
    · obtain ⟨cs, a, b, hP, hsplit⟩ := linksAll_split tail h
      exact ⟨cs, o.links p ++ a, b, hP, by rw [linksAll_cons, hsplit]; simp⟩

end

/-- The links of an owner stand in one piece. -/
theorem owner_split {os : List Outline} (hos : EveryOf OwnerComplete os) {p q : Option Nat}
    {w : Owner} (h : ⟨q, w.node⟩ ∈ linksAll p os) :
    ∃ a b, linksAll p os = a ++ w.outline.links q ++ b := by
  obtain ⟨cs, a, b, hP, hsplit⟩ := linksAll_split hos h
  have hcs : cs = w.front ++ ofStmts w.stmts := hP w rfl
  subst hcs
  exact ⟨a, b, hsplit⟩

section Filling

mutual

/-- What fills a span stands below its parent, and its parent in the tree. -/
theorem filling_mem {target : Span} {parent : Option Node} {e : Expr} {q : Option Node} :
    ∀ {o : Outline}, filling? target parent o = some (e, q) →
      ⟨q.map (·.tag.id), .expr e⟩ ∈ o.links (parent.map (·.tag.id)) ∧ e.span = target ∧
        (q = parent ∨ ∃ n p, q = some n ∧ ⟨p, n⟩ ∈ o.links (parent.map (·.tag.id)))
  | .node n cs, h => by
    have hbelow (h : fillingAmong? target n cs = some (e, q)) :
        ⟨q.map (·.tag.id), .expr e⟩ ∈ (Outline.node n cs).links (parent.map (·.tag.id)) ∧
          e.span = target ∧ (q = parent ∨
            ∃ m p, q = some m ∧ ⟨p, m⟩ ∈ (Outline.node n cs).links (parent.map (·.tag.id))) := by
      obtain ⟨hmem, hspan, hq⟩ := fillingAmong_mem h
      refine ⟨List.mem_cons_of_mem _ hmem, hspan, .inr ?_⟩
      rcases hq with hq | ⟨m, p, hq, hm⟩
      · exact ⟨n, _, hq, List.mem_cons_self⟩
      · exact ⟨m, p, hq, List.mem_cons_of_mem _ hm⟩
    unfold filling? at h
    split at h
    · cases h
    · split at h
      · split at h
        · rename_i hspan
          cases h
          exact ⟨List.mem_cons_self, Span.eq_of_ends hspan.1 hspan.2, .inl rfl⟩
        · exact hbelow h
      · exact hbelow h

theorem fillingAmong_mem {target : Span} {parent : Node} {e : Expr} {q : Option Node} :
    ∀ {os : List Outline}, fillingAmong? target parent os = some (e, q) →
      ⟨q.map (·.tag.id), .expr e⟩ ∈ linksAll (some parent.tag.id) os ∧ e.span = target ∧
        (q = some parent ∨ ∃ n p, q = some n ∧ ⟨p, n⟩ ∈ linksAll (some parent.tag.id) os)
  | [], h => by cases h
  | o :: os, h => by
    rw [fillingAmong?] at h
    split at h
    · rename_i found hfound
      cases h
      obtain ⟨hmem, hspan, hq⟩ := filling_mem hfound
      refine ⟨List.mem_append_left _ hmem, hspan, hq.imp_right ?_⟩
      rintro ⟨n, p, hn, hmem⟩
      exact ⟨n, p, hn, List.mem_append_left _ hmem⟩
    · obtain ⟨hmem, hspan, hq⟩ := fillingAmong_mem h
      refine ⟨List.mem_append_right _ hmem, hspan, hq.imp_right ?_⟩
      rintro ⟨n, p, hn, hmem⟩
      exact ⟨n, p, hn, List.mem_append_right _ hmem⟩

end

end Filling

section Runs

/-- Nodes from one that starts at an offset on, comments left out. -/
def RunFrom (start : Nat) (os : List Outline) (run : List Node) : Prop :=
  ∃ o rest, o :: rest <:+ os ∧ run = siblings (o :: rest) ∧ o.content.isComment = false ∧
    o.span.start = start

/-- The same among the children of a node. -/
def RunBelow (P : Outline → Prop) (start : Nat) (links : List Link) (q : Option Node)
    (run : List Node) : Prop :=
  ∃ n cs p, q = some n ∧ P (.node n cs) ∧ ⟨p, n⟩ ∈ links ∧ RunFrom start cs run

theorem RunBelow.mono {start : Nat} {ls ms : List Link} {q : Option Node} {run : List Node}
    (h : RunBelow P start ls q run) (hsub : ∀ l ∈ ls, l ∈ ms) : RunBelow P start ms q run := by
  obtain ⟨n, cs, p, hq, hP, hmem, hrun⟩ := h
  exact ⟨n, cs, p, hq, hP, hsub _ hmem, hrun⟩

mutual

theorem runBelow_spec {start : Nat} {q : Option Node} {run : List Node} (p : Option Nat) :
    ∀ {o : Outline}, Every P o → runBelow? start o = some (q, run) →
      RunBelow P start (o.links p) q run
  | .node n cs, .node self below, h => by
    rcases runAmong_spec (some n.tag.id) below h with ⟨rfl, hrun⟩ | hrun
    · exact ⟨n, cs, p, rfl, self, List.mem_cons_self, hrun⟩
    · exact hrun.mono fun l hl => List.mem_cons_of_mem _ hl

theorem runAmong_spec {start : Nat} {parent q : Option Node} {run : List Node} (p : Option Nat) :
    ∀ {os : List Outline}, EveryOf P os → runAmong? start parent os = some (q, run) →
      (q = parent ∧ RunFrom start os run) ∨ RunBelow P start (linksAll p os) q run
  | [], _, h => by cases h
  | o :: os, .cons head tail, h => by
    have hrest (h : runAmong? start parent os = some (q, run)) :
        (q = parent ∧ RunFrom start (o :: os) run) ∨
          RunBelow P start (linksAll p (o :: os)) q run := by
      rcases runAmong_spec p tail h with ⟨hq, x, rest, hsuffix, hrun⟩ | hrun
      · exact .inl ⟨hq, x, rest, hsuffix.trans (List.suffix_cons o os), hrun⟩
      · exact .inr (hrun.mono fun l hl => List.mem_append_right _ hl)
    rw [runAmong?] at h
    split at h
    · exact hrest h
    · rename_i hcomment
      split at h
      · rename_i hstart
        cases h
        exact .inl ⟨rfl, o, os, List.suffix_refl _, rfl, by simpa using hcomment, hstart⟩
      · split at h
        · rename_i found hfound
          cases h
          exact .inr ((runBelow_spec p head hfound).mono fun l hl => List.mem_append_left _ hl)
        · exact hrest h

end

end Runs

theorem ofStmts_eq_map (ss : List Stmt) : ofStmts ss = ss.map ofStmt := by
  induction ss with
  | nil => rfl
  | cons s ss ih => simp [ofStmts, ih]

theorem content_ofStmt (s : Stmt) : (ofStmt s).content = .stmt s := content_outline (.stmt s)

theorem siblings_ofStmt (ss : List Stmt) : siblings (ss.map ofStmt) = ss.map .stmt := by
  unfold siblings
  rw [List.map_map, List.filter_eq_self.2]
  · exact List.map_congr_left fun s _ => content_ofStmt s
  · intro n hn
    obtain ⟨s, _, rfl⟩ := List.mem_map.1 hn
    rw [Function.comp_apply, content_ofStmt]
    cases s <;> rfl

theorem front_no_stmt {w : Owner} {o : Outline} (h : o ∈ w.front) (s : Stmt) :
    o.content ≠ .stmt s := by
  have hexprs (es : List Expr) (h : o ∈ ofExprs es) : o.content ≠ .stmt s := by
    induction es with
    | nil => cases h
    | cons e es ih =>
      rcases List.mem_cons.1 h with rfl | h
      · rw [show (ofExpr e).content = .expr e from content_outline (.expr e)]
        exact Node.noConfusion
      · exact ih h
  have htypes (ts : List TypeExpr) (h : o ∈ ofTypes ts) : o.content ≠ .stmt s := by
    induction ts with
    | nil => cases h
    | cons t ts ih =>
      rcases List.mem_cons.1 h with rfl | h
      · rw [show (ofType t).content = .type t from content_outline (.type t)]
        exact Node.noConfusion
      · exact ih h
  cases w with
  | block b => cases h
  | clause c =>
    rcases hc : c.cases with _ | es | ts
    · simp [Owner.front, hc, ofCases] at h
    · exact hexprs es (by simpa [Owner.front, hc, ofCases] using h)
    · exact htypes ts (by simpa [Owner.front, hc, ofCases] using h)
  | comm c =>
    rcases hc : c.comm with _ | g
    · simp [Owner.front, hc, ofSimpleOption] at h
    · have ho : o = ofSimple g := by simpa [Owner.front, hc, ofSimpleOption] using h
      rw [ho, show (ofSimple g).content = .simple g from content_outline (.simple g)]
      exact Node.noConfusion

/-- Statements from a run of an owner's children are next to each other in its list. -/
theorem stmts_of_runFrom {start : Nat} {w : Owner} {run : List Node} {stmts : List Stmt}
    (hrun : RunFrom start (w.front ++ ofStmts w.stmts) run) {taken : List Node}
    (htaken : taken <+: run) (hstmts : taken = stmts.map .stmt) (hne : stmts ≠ []) :
    (∃ before after, w.stmts = before ++ stmts ++ after) ∧
      ∃ s, stmts.head? = some s ∧ s.span.start = start := by
  obtain ⟨o, rest, ⟨pre, hpre⟩, rfl, hcomment, hstart⟩ := hrun
  obtain ⟨s, ss, rfl⟩ := List.exists_cons_of_ne_nil hne
  obtain ⟨more, hmore⟩ := htaken
  subst hstmts
  have hsib : siblings (o :: rest) = o.content :: siblings rest := by
    simp [siblings, hcomment]
  have ho : o.content = .stmt s := by
    rw [hsib] at hmore
    exact (List.cons.inj hmore).1.symm
  have hsplit : ∃ c, ofStmts w.stmts = c ++ o :: rest := by
    rcases List.append_eq_append_iff.1 hpre with ⟨c, hc, hrest⟩ | ⟨c, hc, hrest⟩
    · cases c with
      | nil => exact ⟨[], by simpa using hrest.symm⟩
      | cons x xs =>
        have hx : o = x := (List.cons.inj hrest).1
        have hmem : o ∈ w.front := hc ▸ List.mem_append_right _ (hx ▸ List.mem_cons_self)
        exact absurd ho (front_no_stmt hmem s)
    · exact ⟨c, hrest⟩
  obtain ⟨c, hc⟩ := hsplit
  rw [ofStmts_eq_map] at hc
  obtain ⟨before, tail, hw, _, htail⟩ := List.map_eq_append_iff.1 hc
  rw [← htail, siblings_ofStmt] at hmore
  obtain ⟨front, after, ht, hfront, _⟩ := List.map_eq_append_iff.1 hmore.symm
  have hinj : front = s :: ss :=
    (List.map_inj_right fun _ _ h => Node.stmt.inj h).1 hfront
  refine ⟨⟨before, after, by rw [hw, ht, hinj, List.append_assoc]⟩, s, rfl, ?_⟩
  rw [← hstart, Outline.span, ho]
  rfl

end Outline

theorem takeThrough_spec {stop : Nat} {ns run : List Node} (h : takeThrough? stop ns = some run) :
    run <+: ns ∧ ∃ n, run.getLast? = some n ∧ n.span.stop = stop := by
  induction ns generalizing run with
  | nil => cases h
  | cons n ns ih =>
    rw [takeThrough?] at h
    split at h
    · rename_i hstop
      cases h
      exact ⟨⟨ns, rfl⟩, n, rfl, hstop⟩
    · obtain ⟨rest, hrest, rfl⟩ := Option.map_eq_some_iff.1 h
      obtain ⟨hfirst, m, hlast, hstop⟩ := ih hrest
      exact ⟨List.prefix_cons_inj n |>.2 hfirst, m, by simp [List.getLast?_cons, hlast], hstop⟩

theorem mapM_stmt {run : List Node} {stmts : List Stmt} (h : run.mapM Node.stmt? = some stmts) :
    run = stmts.map .stmt := by
  induction run generalizing stmts with
  | nil =>
    cases h
    rfl
  | cons n ns ih =>
    rw [List.mapM_cons] at h
    simp only [Option.bind_eq_bind, Option.bind_eq_some_iff] at h
    obtain ⟨s, hs, ss, hss, h⟩ := h
    cases h
    cases n <;> cases hs
    rw [ih hss]
    rfl

/-- A region of a file that fills a span: an expression below its parent, or statements next to
each other in the list of their owner. -/
def Region.Located (f : SourceFile) (target : Span) : Region → Prop
  | .expression e parent slot =>
    ⟨some parent.tag.id, .expr e⟩ ∈ Outline.linksAll none (Outline.ofFile f) ∧ e.span = target ∧
      (∃ p, ⟨p, parent⟩ ∈ Outline.linksAll none (Outline.ofFile f)) ∧
        slot = Slot.locate e.tag.id parent
  | .statements stmts owner =>
    (∃ p, ⟨p, owner.node⟩ ∈ Outline.linksAll none (Outline.ofFile f)) ∧
      (∃ before after, owner.stmts = before ++ stmts ++ after) ∧
      (∃ s, stmts.head? = some s ∧ s.span.start = target.start) ∧
      ∃ s, stmts.getLast? = some s ∧ s.span.stop = target.stop

namespace SourceFile

theorem statementsAt_located {f : SourceFile} {target : Span} {r : Region}
    (h : f.statementsAt target = .ok r) : r.Located f target := by
  unfold statementsAt at h
  split at h
  · cases h
  · rename_i parent run hrun
    split at h
    · cases h
    · rename_i taken htaken
      split at h
      · cases h
      · rename_i owner howner
        split at h
        · cases h
        · rename_i stmts hstmts
          cases h
          have htaken' := takeThrough_spec htaken
          have hmap := mapM_stmt hstmts
          obtain ⟨hfirst, n, hlast, hstop⟩ := htaken'
          have hne : stmts ≠ [] := by
            rintro rfl
            simp [hmap] at hlast
          have hparent : parent = some owner.node := by
            obtain ⟨n, hn, hw⟩ := Option.bind_eq_some_iff.1 howner
            cases n <;> cases hw <;> exact hn
          have hbelow := Outline.runAmong_spec (P := Outline.OwnerComplete) none
            (Outline.every_ofFile Outline.ownerComplete f) hrun
          rcases hbelow with ⟨hq, _⟩ | ⟨n', cs, p, hq, hP, hmem, hfrom⟩
          · rw [hparent] at hq
            cases hq
          · rw [hparent] at hq
            cases hq
            have hcs : cs = owner.front ++ Outline.ofStmts owner.stmts := hP owner rfl
            subst hcs
            obtain ⟨hsplit, hhead⟩ := Outline.stmts_of_runFrom hfrom hfirst hmap hne
            refine ⟨⟨p, hmem⟩, hsplit, hhead, ?_⟩
            rw [hmap, List.getLast?_map] at hlast
            obtain ⟨s, hs, rfl⟩ := Option.map_eq_some_iff.1 hlast
            exact ⟨s, hs, hstop⟩

theorem regionAt_located {f : SourceFile} {target : Span} {r : Region}
    (h : f.regionAt target = .ok r) : r.Located f target := by
  unfold regionAt at h
  split at h
  · rename_i e parent hfound
    cases h
    obtain ⟨o, ho, hfill⟩ := List.exists_of_findSome?_eq_some hfound
    obtain ⟨hmem, hspan, hparent⟩ := Outline.filling_mem hfill
    obtain ⟨n, p, hn, hlink⟩ := hparent.resolve_left fun h => by cases h
    cases hn
    exact ⟨Outline.mem_linksAll ho hmem, hspan, ⟨p, Outline.mem_linksAll ho hlink⟩, rfl⟩
  · exact statementsAt_located h

end SourceFile

end FuncLift
