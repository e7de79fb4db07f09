import FuncLift.Proofs.Heads

/-!
# Headers are read without bare literals

Every production keeps the rule for literals that it was read under, leaves brackets balanced, and
accounts for the braces it takes. Under the rule for headers it returns no expression in which a
literal with a name for its type is exposed. The proof is one induction on the budget over all
productions at once.
-/
namespace FuncLift

/-- All productions with the same budget. -/
structure ReadsHeaded (T : List Placed) (fuel : Nat) : Prop where
  typeExpr {lit pre} : Begins T lit .firm pre (Read.typeExpr fuel) (fun t => [t.piece]) fun _ => True
  structFields {lit pre} : Begins T lit .inner pre (Read.structFields fuel) (·.map Field.piece)
    fun _ => True
  interfaceMethods {lit pre} : Begins T lit .inner pre (Read.interfaceMethods fuel)
    (·.map Field.piece) fun _ => True
  signature {lit pre} : Begins T lit .firm pre (Read.signature fuel) (fun s => [s.piece]) fun _ => True
  parameters {lit pre} : Begins T lit .inner pre (Read.parameters fuel) (·.map Field.piece)
    fun _ => True
  params {lit pre} : Begins T lit .inner pre (Read.params fuel) (·.map Param.piece) fun _ => True
  param {lit pre} : Begins T lit .inner pre (Read.param fuel) (fun p => [p.piece]) fun _ => True
  block {lit pre} : Begins T lit .firm pre (Read.block fuel) (fun b => [b.piece]) fun _ => True
  stmts {lit pre} : Begins T lit .free pre (Read.stmts fuel) (·.map Stmt.piece) fun _ => True
  stmt {lit pre} : Begins T lit .free pre (Read.stmt fuel) (fun s => [s.piece]) fun _ => True
  simple {lit pre} : Begins T lit .free pre (Read.simple fuel) (fun s => [s.piece])
    fun s => (lit = false → s.Clear) ∧ Upright (.simple s)
  ifElse {lit pre} : Begins T lit .free pre (Read.ifElse fuel) (fun s => [s.piece]) fun _ => True
  loop {lit pre} : Begins T lit .free pre (Read.loop fuel) (fun s => [s.piece]) fun _ => True
  loopHead {c h c'} (hs : Walks T c) (hlit : c.literals = false)
    (hm : Read.loopHead fuel c = .ok (h, c')) (hbrace : Facing (some (.punct .lBrace)) c') :
    Since T false .free c 0 h.pieces c' ∧ ∀ e ∈ Piece.exprsAll h.pieces, e.Clear
  clauseHead {b} (init : Option Simple) (h : ∀ s ∈ init, s.Clear) :
    Spends T false .free .free b 0 Anywhere (init.toList.map Simple.piece)
      (Read.clauseHead fuel init) LoopHead.pieces
      fun h => ∀ e ∈ Piece.exprsAll h.pieces, e.Clear
  switch {lit pre} : Begins T lit .free pre (Read.switch fuel) (fun s => [s.piece]) fun _ => True
  switchHead {pre} : Begins T false .free pre (Read.switchHead fuel)
    (fun x => x.1.toList.map Simple.piece ++ x.2.toList.map Simple.piece)
    fun x => (∀ s ∈ x.1, s.Clear) ∧ ∀ s ∈ x.2, s.Clear ∧ Upright (.simple s)
  clauses {lit pre} (types) : Begins T lit .free pre (Read.clauses fuel types) (·.map Clause.piece)
    fun _ => True
  clause {lit pre} (types) : Begins T lit .free pre (Read.clause fuel types) (fun c => [c.piece])
    fun _ => True
  select {lit pre} : Begins T lit .free pre (Read.select fuel) (fun s => [s.piece]) fun _ => True
  comms {lit pre} : Begins T lit .free pre (Read.comms fuel) (·.map Comm.piece) fun _ => True
  comm {lit pre} : Begins T lit .free pre (Read.comm fuel) (fun c => [c.piece]) fun _ => True
  exprs {lit pre} : Begins T lit .firm pre (Read.exprs fuel) (·.map Expr.piece)
    fun es => lit = false → ∀ e ∈ es, e.Clear
  typeExprs {lit pre} : Begins T lit .firm pre (Read.typeExprs fuel) (·.map TypeExpr.piece)
    fun _ => True
  expr {lit pre} : Begins T lit .firm pre (Read.expr fuel) (fun e => [e.piece])
    fun e => lit = false → e.Clear
  binary {lit pre} (least) : Begins T lit .firm pre (Read.binary fuel least) (fun e => [e.piece])
    fun e => lit = false → e.Clear
  binaryRest {lit b} (least) {x} (hx : lit = false → x.Clear) :
    Spends T lit .firm .firm b 0 Anywhere [x.piece] (Read.binaryRest fuel least b.next x)
      (fun e => [e.piece]) fun e => lit = false → e.Clear
  unary {lit pre} : Begins T lit .firm pre (Read.unary fuel) (fun e => [e.piece])
    fun e => lit = false → e.Clear
  primary {lit pre} : Begins T lit .firm pre (Read.primary fuel) (fun e => [e.piece])
    fun e => lit = false → e.Clear
  primaryRest {lit b} {x} (hx : lit = false → x.Clear) :
    Spends T lit .firm .firm b 0 Anywhere [x.piece] (Read.primaryRest fuel b.next x)
      (fun e => [e.piece]) fun e => lit = false → e.Clear
  bracket {lit pre} (x) : Begins T lit .firm pre (Read.bracket fuel x)
    (fun build => (Node.expr (build default)).pieces.tail)
    fun build => (∃ i, build = fun t => .index t x i) ∨
      ∃ lo hi max, build = fun t => .slice t x lo hi max
  arguments {lit pre} : Begins T lit .firm pre (Read.arguments fuel) (fun p => p.1.map Expr.piece)
    fun _ => True
  composite {lit b} (type : Option TypeExpr)
    (h : lit = false → ∀ t pkg n, type ≠ some (.named t pkg n)) :
    Spends T lit .inner .firm b 0 Anywhere (type.toList.map TypeExpr.piece)
      (Read.composite fuel b.next type) (fun e => [e.piece]) fun e => lit = false → e.Clear
  elements {lit pre} : Begins T lit .firm pre (Read.elements fuel) (·.flatMap Element.pieces)
    fun _ => True
  element {lit pre} : Begins T lit .firm pre (Read.element fuel) (fun e => [e.piece]) fun _ => True
  operand {lit pre} : Begins T lit .firm pre (Read.operand fuel) (fun e => [e.piece])
    fun e => lit = false → e.Clear
  decl {lit} (t) (h : (DeclKind.ofToken? t).isSome = true) : Begins T lit .free (Facing (some t))
    (Read.decl fuel) (fun d => [d.piece]) fun _ => True
  specs {lit pre} (kind) : Begins T lit .free pre (Read.specs fuel kind) (·.map Spec.piece)
    fun _ => True
  spec {lit pre} (kind) : Begins T lit .free pre (Read.spec fuel kind) (fun s => [s.piece])
    fun _ => True

namespace ReadsHeaded

attribute [local simp] Node.pieces Expr.Clear Expr.exposed Expr.isNamedLiteral Simple.Clear Simple.exprs

variable {T : List Placed} {lit : Bool} {pre : Cursor → Prop} {b : Cursor} {fuel : Nat}
  (ih : ReadsHeaded T fuel)

include ih

theorem typeExpr_succ : Begins T lit .firm pre (Read.typeExpr (fuel + 1)) (fun t => [t.piece])
    fun _ => True := by
  rw [Read.typeExpr]
  refine .start .firm rfl fun b => .peek fun next => ?_
  split
  · refine .of_anywhere (.step .name rfl fun n _ => .eat rfl ?_ ?_)
    · refine .step .name rfl fun sel _ => ?_
      exact .made rfl (fun _ => rfl) (fun _ => trivial) fun _ _ => ⟨rfl, by simp, fun _ => trivial⟩
    · exact .made rfl (fun _ => rfl) (fun _ => trivial) fun _ _ => ⟨rfl, by simp, fun _ => trivial⟩
  · refine .takeFacing rfl fun _ => ?_
    refine .step ih.typeExpr rfl fun elem _ => ?_
    exact .made rfl (fun _ => rfl) (fun _ => trivial) fun _ _ => ⟨rfl, by simp, fun _ => trivial⟩
  · refine .takeFacing rfl fun _ => .eat rfl ?_ (.eat rfl ?_ ?_)
    · refine .step ih.typeExpr rfl fun elem _ => ?_
      exact .made rfl (fun _ => rfl) (fun _ => trivial) fun _ _ => ⟨rfl, by simp, fun _ => trivial⟩
    · refine .expect rfl ?_
      refine .step ih.typeExpr rfl fun elem _ => ?_
      exact .made rfl (fun _ => rfl) (fun _ => trivial) fun _ _ => ⟨rfl, by simp, fun _ => trivial⟩
    · refine .step (.withLiterals ih.expr) rfl fun len _ => .expect rfl ?_
      refine .step ih.typeExpr rfl fun elem _ => ?_
      exact .made rfl (fun _ => rfl) (fun _ => trivial) fun _ _ => ⟨rfl, by simp, fun _ => trivial⟩
  · refine .takeFacing rfl fun _ => .expect rfl ?_
    refine .step ih.typeExpr rfl fun key _ => .expect rfl ?_
    refine .step ih.typeExpr rfl fun value _ => ?_
    exact .made rfl (fun _ => rfl) (fun _ => trivial) fun _ _ => ⟨rfl, by simp, fun _ => trivial⟩
  · refine .takeFacing rfl fun _ => .eatAny rfl fun sends => ?_
    refine .step ih.typeExpr rfl fun elem _ => ?_
    exact .made rfl (fun _ => rfl) (fun _ => trivial) fun _ _ => ⟨rfl, by simp, fun _ => trivial⟩
  · refine .takeFacing rfl fun _ => .expect rfl ?_
    refine .step ih.typeExpr rfl fun elem _ => ?_
    exact .made rfl (fun _ => rfl) (fun _ => trivial) fun _ _ => ⟨rfl, by simp, fun _ => trivial⟩
  · refine .takeFacing rfl fun _ => ?_
    refine .step ih.signature rfl fun sig _ => ?_
    exact .made rfl (fun _ => rfl) (fun _ => trivial) fun _ _ => ⟨rfl, by simp, fun _ => trivial⟩
  -- the braces of a struct or an interface belong to the type, parentheses leave no node behind
  · refine .inner (.takeFacing rfl fun _ => .expect rfl ?_)
    refine .step ih.structFields rfl fun fs _ => ?_
    exact .made rfl (fun _ => rfl) (fun _ => trivial) fun _ _ => ⟨rfl, by simp, fun _ => trivial⟩
  · refine .inner (.takeFacing rfl fun _ => .expect rfl ?_)
    refine .step ih.interfaceMethods rfl fun ms _ => ?_
    exact .made rfl (fun _ => rfl) (fun _ => trivial) fun _ _ => ⟨rfl, by simp, fun _ => trivial⟩
  · refine .takeFacing rfl fun _ => ?_
    refine .step ih.typeExpr rfl fun inner _ => ?_
    exact .expect rfl (.pure rfl (by simp) trivial)
  · exact .unexpected

theorem structFields_succ : Begins T lit .inner pre (Read.structFields (fuel + 1))
    (·.map Field.piece) fun _ => True := by
  rw [Read.structFields]
  refine .of .inner rfl fun b => .peek fun next => ?_
  split
  · exact .expect rfl (.pure rfl (by simp) trivial)
  · refine .start fun s => .peekSecond fun second => ?_
    extract_lets embedded jp
    have hjp : ∀ ns pre, Spends T lit .inner .inner b 0 pre (ns.map Name.piece) (jp ns)
        (·.map Field.piece) fun _ => True := by
      intro ns pre
      refine .step ih.typeExpr rfl fun type _ => .peek fun after => ?_
      extract_lets label done
      have hdone : Spends T lit .inner .inner b 0 Anywhere (ns.map Name.piece ++ [type.piece])
          (done ()) (·.map Field.piece) fun _ => True := by
        refine .tagFrom fun t => ?_
        refine .grow (.field ⟨t, ns, type, false, label⟩) rfl (fun h => .field (h _ (by simp)))
          (.endStatement (.step ih.structFields rfl fun fs _ => ?_))
        exact .yield rfl rfl (fun h n hn => h n (by simp at hn ⊢; grind)) trivial
      split
      · rename_i hlabel
        obtain ⟨t, rfl, hpass⟩ := Mode.pass?_text hlabel
        exact .takeFacing hpass fun _ => hdone
      · exact hdone.of_anywhere
    split
    · exact .ret (hjp [] _)
    · exact .step (.names fuel) rfl fun ns _ => hjp ns _

theorem interfaceMethods_succ : Begins T lit .inner pre (Read.interfaceMethods (fuel + 1))
    (·.map Field.piece) fun _ => True := by
  rw [Read.interfaceMethods]
  refine .of .inner rfl fun b => .peek fun next => ?_
  split
  · exact .expect rfl (.pure rfl (by simp) trivial)
  · refine .start fun s => .peekSecond fun second => ?_
    extract_lets jp
    have hjp : ∀ ns type ps, .child (.type type) ∈ ps → Spends T lit .inner .inner b 0 Anywhere ps
        (jp (ns, type)) (·.map Field.piece) fun _ => True := by
      intro ns type ps htype
      refine .tagFrom fun t => ?_
      refine .grow (.field ⟨t, ns, type, false, none⟩) rfl (fun h => .field (h _ htype))
        (.endStatement (.step ih.interfaceMethods rfl fun fs _ => ?_))
      exact .yield rfl rfl (fun h n hn => h n (by simp at hn ⊢; grind)) trivial
    split
    · refine .step .name rfl fun n _ => .start fun s => ?_
      refine .step ih.signature rfl fun sig _ => .tagFrom fun t => ?_
      refine .grow (.type (.func t sig)) rfl (fun h => ?_) (.ret (hjp [n] _ _ (by simp)))
      exact .of trivial fun c hc => h c (by simp at hc ⊢; exact hc)
    · exact .step ih.typeExpr rfl fun type _ => .ret (hjp [] type _ (by simp))

theorem signature_succ : Begins T lit .firm pre (Read.signature (fuel + 1)) (fun s => [s.piece])
    fun _ => True := by
  rw [Read.signature]
  refine .start .inner rfl fun b => ?_
  refine .step ih.parameters rfl fun params _ => .peek fun next => ?_
  extract_lets jp
  have hjp : ∀ results ps pre, (∀ f ∈ params ++ results, f.piece ∈ ps) →
      Spends T lit .inner .firm b 0 pre ps (jp results) (fun s => [s.piece]) fun _ => True := by
    intro results ps pre hps
    refine .made rfl (fun _ => rfl) (fun _ => trivial) fun _ _ => ⟨rfl, fun c hc => ?_, fun _ => trivial⟩
    obtain ⟨f, hf, rfl⟩ : ∃ f ∈ params ++ results, c = .field f := by
      simp at hc
      grind
    exact hps f hf
  split
  · exact .step ih.parameters rfl fun results _ => hjp results _ _ (by simp)
  · split
    · refine .step ih.typeExpr rfl fun type _ => .tagAt fun t _ => ?_
      exact .grow (.field ⟨t, [], type, false, none⟩) rfl (fun h => .field (h _ (by simp)))
        (.ret (hjp _ _ _ (by simp)))
    · exact .ret (hjp [] _ _ (by simp))

theorem parameters_succ : Begins T lit .inner pre (Read.parameters (fuel + 1)) (·.map Field.piece)
    fun _ => True := by
  rw [Read.parameters]
  refine .of .inner rfl fun b => .expect rfl (.step ih.params rfl fun xs _ => .expect rfl (.known fun h => ?_))
  refine .last (.group xs [] none h) rfl fun fs _ => ?_
  exact .yield rfl rfl (fun h n hn => h n (List.mem_append_right _ hn)) trivial

theorem params_succ : Begins T lit .inner pre (Read.params (fuel + 1)) (·.map Param.piece)
    fun _ => True := by
  rw [Read.params]
  refine .of .inner rfl fun b => .at_ fun done => ?_
  split
  · exact .pure rfl (by simp) trivial
  · refine .step ih.param rfl fun p _ => .eat rfl ?_ ?_
    · exact .step ih.params rfl fun ps _ => .pure rfl (by simp) trivial
    · exact .pure rfl (by simp) trivial

theorem param_succ : Begins T lit .inner pre (Read.param (fuel + 1)) (fun p => [p.piece])
    fun _ => True := by
  rw [Read.param]
  have htyped : ∀ {b s n type variadic pre ps}, .child (.type type) ∈ ps →
      Spends T lit .inner .inner b 0 pre ps (do
        return Param.typed n type variadic (← Read.spanFrom s)) (fun p => [p.piece]) fun _ => True := by
    intro b s n type variadic pre ps htype
    refine .spanFrom fun span => .yield rfl rfl (fun h c hc => ?_) trivial
    cases List.mem_singleton.1 hc
    exact .field (h _ htype)
  refine .of .inner rfl fun b => .start fun s => .peek fun next => ?_
  split
  · refine .step .name rfl fun n _ => .peek fun after => ?_
    split
    iterate 2 exact .spanFrom fun span => .pure rfl (by simp [Param.piece]) trivial
    · refine .takeFacing rfl fun _ => .step .name rfl fun sel _ => .tagFrom fun t => ?_
      exact .grow (.type (.named t (some n.text) sel.text)) rfl (fun _ => .named) (htyped (by simp))
    · refine .takeFacing rfl fun _ => ?_
      refine .step ih.typeExpr rfl fun type _ => ?_
      exact htyped (by simp)
    · exact .step ih.typeExpr rfl fun type _ => htyped (by simp)
  · refine .takeFacing rfl fun _ => ?_
    refine .step ih.typeExpr rfl fun type _ => ?_
    exact htyped (by simp)
  · exact .step ih.typeExpr rfl fun type _ => htyped (by simp)

theorem block_succ : Begins T lit .firm pre (Read.block (fuel + 1)) (fun b => [b.piece])
    fun _ => True := by
  -- its brace stops a scan for a range clause, so the assignments behind it do no harm
  apply Begins.braced _ fun _ _ _ h => (Read.block_ok h).1
  rw [Read.block]
  refine .start .free rfl fun b => .inner (.expect rfl ?_)
  refine .step (.withLiterals ih.stmts) rfl fun body _ => .expect rfl ?_
  exact .made rfl (fun _ => rfl) (fun _ => trivial) fun _ _ => ⟨rfl, by simp, fun _ => trivial⟩

theorem stmts_succ : Begins T lit .free pre (Read.stmts (fuel + 1)) (·.map Stmt.piece)
    fun _ => True := by
  rw [Read.stmts]
  refine .of .free rfl fun b => .peek fun next => ?_
  split
  iterate 4 exact .pure rfl (by simp) trivial
  · refine .takeFacing rfl fun _ => ?_
    refine .last ih.stmts rfl fun rest _ => ?_
    exact .pure rfl (by simp) trivial
  · refine .step ih.stmt rfl fun first _ => .peek fun after => ?_
    extract_lets jp
    have hjp : Spends T lit .free .free b 0 Anywhere [first.piece] (jp ()) (·.map Stmt.piece)
        fun _ => True := .step ih.stmts rfl fun rest _ => .pure rfl (by simp) trivial
    split
    iterate 4 exact .of_anywhere (.ret hjp)
    exact .endStatement hjp

theorem stmt_succ : Begins T lit .free pre (Read.stmt (fuel + 1)) (fun s => [s.piece])
    fun _ => True := by
  rw [Read.stmt]
  refine .start .free rfl fun b => .peek fun next => ?_
  split
  iterate 3
    refine .step (ih.decl _ rfl) rfl fun d _ => ?_
    exact .made rfl (fun _ => rfl) (fun _ => trivial) fun _ _ => .stmt rfl rfl (by simp)
  iterate 2
    refine .takeFacing rfl fun _ => ?_
    refine .step ih.expr rfl fun e _ => ?_
    exact .made rfl (fun _ => rfl) (fun _ => trivial) fun _ _ => .stmt rfl rfl (by simp)
  · refine .takeFacing rfl fun _ => .peek fun after => ?_
    extract_lets jp
    have hjp : ∀ es pre, Spends T lit .free .free b 0 pre (es.map Expr.piece) (jp es)
        (fun s => [s.piece]) fun _ => True := fun es pre =>
          .made rfl (fun _ => rfl) (fun _ => trivial) fun _ _ => .stmt rfl rfl (by simp)
    split
    iterate 3 exact .ret (hjp [] _)
    exact .step ih.exprs rfl fun es _ => hjp es _
  · refine .step ih.block rfl fun b _ => ?_
    exact .made rfl (fun _ => rfl) (fun _ => trivial) fun _ _ => .stmt rfl rfl (by simp)
  · exact .last ih.ifElse rfl fun s _ => .pure rfl (by simp) trivial
  · exact .last ih.loop rfl fun s _ => .pure rfl (by simp) trivial
  · exact .last ih.switch rfl fun s _ => .pure rfl (by simp) trivial
  · exact .last ih.select rfl fun s _ => .pure rfl (by simp) trivial
  · split
    · rename_i kind hkind
      obtain ⟨t, rfl, hpass⟩ := Mode.pass?_branch hkind
      refine .takeFacing hpass fun _ => .peek fun after => ?_
      extract_lets jp
      have hjp : ∀ n pre, Spends T lit .free .free b 0 pre (n.toList.map Name.piece) (jp n)
          (fun s => [s.piece]) fun _ => True := fun n pre =>
            .made rfl (fun _ => rfl) (fun _ => trivial) fun _ _ => .stmt rfl rfl (by simp)
      split
      · split
        · exact .ret (hjp none _)
        · exact .step .name rfl fun n _ => .ret (hjp (some n) _)
      · exact .ret (hjp none _)
    · refine .peekSecond fun second => ?_
      split
      · refine .of_pre (.labelled fun label _ => .step ih.stmt rfl fun inner _ => ?_) fun c h => h.2
        exact .made rfl (fun _ => rfl) (fun _ => trivial) fun _ _ => .stmt rfl rfl (by simp)
      · refine .step ih.simple rfl fun inner _ => ?_
        exact .made rfl (fun _ => rfl) (fun _ => trivial) fun _ _ => .stmt rfl rfl (by simp)

theorem simple_succ : Begins T lit .free pre (Read.simple (fuel + 1)) (fun s => [s.piece])
    fun s => (lit = false → s.Clear) ∧ Upright (.simple s) := by
  have hupright (c : Cursor) (s : Simple) (c' : Cursor) (hc : c.Ordered)
      (hm : Read.simple (fuel + 1) c = .ok (s, c')) : Upright (.simple s) := by
    obtain ⟨htaken, _⟩ := (readsUpright (fuel + 1)).simple _ _ _ _ _ (.fresh hc) trivial hm
    cases htaken.strip (by simp) with
    | piece _ hsound _ => exact hsound
  refine .and ?_ hupright
  rw [Read.simple]
  refine .start .free rfl fun b => .get fun c _ => ?_
  split
  · refine .step (.names fuel) rfl fun ns _ => .expect rfl ?_
    refine .step ih.exprs rfl fun vs hvs => ?_
    exact .made rfl (fun _ => rfl) (fun _ => hvs) fun _ _ => .simple rfl rfl (by simp)
  · refine .step ih.exprs rfl fun lhs hlhs => .peek fun next => ?_
    split
    iterate 2
      refine .single fun e he => .takeFacing rfl fun _ => ?_
      refine .made rfl (fun _ => rfl) (fun _ => ?_) fun _ _ => .simple rfl rfl (by simp)
      exact fun hlit => by simpa [he] using hlhs hlit
    · refine .single fun e he => .takeFacing rfl fun _ => ?_
      refine .step ih.expr rfl fun value hvalue => ?_
      refine .made rfl (fun _ => rfl) (fun _ hlit => ?_) fun _ _ => .simple rfl rfl (by simp)
      have hchan : e.Clear := by simpa [he] using hlhs hlit
      exact List.forall_mem_cons.2 ⟨hchan, List.forall_mem_singleton.2 (hvalue hlit)⟩
    · exact .spanFrom fun _ => .fail
    · split
      · rename_i op hop
        obtain ⟨t, rfl, hpass⟩ := Mode.pass?_assign hop
        refine .takeFacing hpass fun _ => ?_
        refine .step ih.exprs rfl fun rhs hrhs => ?_
        refine .made rfl (fun _ => rfl) (fun _ hlit => ?_) fun _ _ => .simple rfl rfl (by simp)
        exact List.forall_mem_append.2 ⟨hlhs hlit, hrhs hlit⟩
      · refine .single fun e he => ?_
        refine .made rfl (fun _ => rfl) (fun _ => ?_) fun _ _ => .simple rfl rfl (by simp)
        exact fun hlit => by simpa [he] using hlhs hlit

theorem ifElse_succ : Begins T lit .free pre (Read.ifElse (fuel + 1)) (fun s => [s.piece])
    fun _ => True := by
  rw [Read.ifElse]
  refine .start .free rfl fun b => .expect rfl ?_
  refine .stepAs .free (fun x => x.1.toList.map Simple.piece ++ [x.2.piece]) (fun x =>
    (∀ s ∈ x.1, s.Clear) ∧ x.2.Clear) (.withLiterals ?_) rfl ?_
  · refine .of .free rfl fun b => .eat rfl ?_ ?_
    · exact .step ih.expr rfl fun cond hcond => .pure rfl (by simp) ⟨by simp, hcond rfl⟩
    · refine .step ih.simple rfl fun first hfirst => .eat rfl ?_ ?_
      · refine .step ih.expr rfl fun cond hcond => ?_
        exact .pure rfl (by simp) ⟨by simpa using hfirst.1 rfl, hcond rfl⟩
      · refine .exprOf [] hfirst.2 fun t e he => .pure rfl (by simp) ⟨by simp, ?_⟩
        exact hfirst.1 rfl e (by simp [he])
  · rintro ⟨init, cond⟩ ⟨hinit, hcond⟩
    refine .block rfl ih.block rfl fun yes p hp hyes => ?_
    have hclear (t : Tag) (no : Option Stmt) : ∀ e ∈ (Stmt.ifElse t init cond yes no).header, e.Clear := by
      simp only [Stmt.header, Stmt.fore, Piece.exprsAll_append, Piece.exprsAll_simples,
        Piece.exprsAll_expr]
      exact List.forall_mem_append.2 ⟨Simple.clear_toList hinit, List.forall_mem_singleton.2 hcond⟩
    have hdone : ∀ no ps pre, (∀ c, .child c ∈ (Node.stmt (.ifElse default init cond yes no)).pieces →
        .child c ∈ ps) → Spends T lit ⟨true, true, 0⟩ .free b 0 pre ps (do
          let t ← Read.tagFrom b.next
          pure (Stmt.ifElse t init cond yes no)) (fun s => [s.piece]) fun _ => True := by
      intro no ps pre hps
      refine .made rfl (fun _ => rfl) (fun _ => trivial) fun t ht => ⟨rfl, hps, fun _ _ => ?_⟩
      refine ⟨hclear t no, p, .ofBlock (y := yes) ?_ rfl hyes⟩
      rw [show (Stmt.ifElse t init cond yes no).span.start = b.next from ht]
      exact hp
    refine .inner (.eat rfl (.peek fun next => ?_) (.ret (hdone none _ _ (by simp))))
    split
    · exact .step ih.ifElse rfl fun no _ => .ret (hdone (some no) _ _ (by simp))
    · refine .start fun s => ?_
      refine .step ih.block rfl fun y _ => .tagFrom fun t => ?_
      refine .grow (.stmt (.block t y)) rfl (fun h => ?_) (.ret (hdone (some (.block t y)) _ _ (by simp; grind)))
      exact .of (fun h => by cases h) fun c hc => h c (by simp at hc ⊢; simp [hc])
    · exact .neverThen fun _ _ => Read.unexpected_not_ok

theorem loop_succ : Begins T lit .free pre (Read.loop (fuel + 1)) (fun s => [s.piece])
    fun _ => True := by
  rw [Read.loop]
  refine .start .free rfl fun b => .expect rfl ?_
  -- what is known of the head depends on the brace behind it, so these steps are followed one by one
  intro c s c' hs _ hm
  obtain ⟨head, c1, hhead, hbody⟩ := Read.bind_ok.1 hm
  obtain ⟨c2, hread, rfl⟩ := Read.withLiterals_run hhead
  obtain ⟨y, c3, hy, hdone⟩ := Read.bind_ok.1 hbody
  have hwalks : Walks T { c with literals := false } := hs.walks.same rfl rfl rfl
  obtain ⟨hsince, hclear⟩ := ih.loopHead hwalks rfl hread (Read.block_ok hy).1
  have hrest : Spends T lit .free .free b 0 Anywhere head.pieces (Read.block fuel >>= fun y => do
      let t ← Read.tagFrom b.next
      pure (Stmt.loop t head y)) (fun s => [s.piece]) fun _ => True := by
    refine .block rfl ih.block rfl fun y p hp hy => .made rfl (fun _ => rfl) (fun _ => trivial)
      fun t ht => ⟨rfl, by simp, fun _ _ => ⟨hclear, p, .ofBlock (y := y) ?_ rfl hy⟩⟩
    rw [show (Stmt.loop t head y).span.start = b.next from ht]
    exact hp
  have hhead : Since T lit .free c 0 head.pieces { c2 with literals := c.literals } :=
    hs.literals ▸ hsince.restored
  exact hrest _ s c' (hs.append hhead rfl) trivial hbody

theorem loopHead_succ {c c' : Cursor} {h : LoopHead} (hs : Walks T c) (hlit : c.literals = false)
    (hm : Read.loopHead (fuel + 1) c = .ok (h, c')) (hbrace : Facing (some (.punct .lBrace)) c') :
    Since T false .free c 0 h.pieces c' ∧ ∀ e ∈ Piece.exprsAll h.pieces, e.Clear := by
  have hfresh : Since T false .free c 0 [] c := .fresh hs hlit rfl
  rw [Read.loopHead] at hm
  obtain ⟨forever, c1, hat, hopen⟩ := Read.bind_ok.1 hm
  rw [(Lays.at_facing hat).1] at hopen
  split at hopen
  · obtain ⟨rfl, rfl⟩ := Read.pure_ok.1 hopen
    exact ⟨hfresh, by simp [LoopHead.pieces, Piece.exprsAll]⟩
  obtain ⟨bare, c2, heat, hhead⟩ := Read.bind_ok.1 hopen
  have hbare := hfresh.eat rfl heat
  cases bare with
  | true =>
    have hread : Spends T false .free .free c 0 Anywhere [] (do
        let e ← Read.expr fuel
        return .range none none false e) LoopHead.pieces fun h => ∀ e ∈ Piece.exprsAll h.pieces, e.Clear :=
      .step ih.expr rfl fun e he => .pure rfl (by simp [LoopHead.pieces])
        (List.forall_mem_singleton.2 (he rfl))
    exact hread c2 h c' hbare trivial hhead
  | false =>
    rw [show c2 = c from hbare] at hhead
    obtain ⟨_, _, hget, hscan⟩ := Read.bind_ok.1 hhead
    cases hget
    cases hdefine : Read.rangeAhead 0 c.ahead with
    | some define =>
      rw [hdefine] at hscan
      obtain ⟨key, c3, hkey, hvalue⟩ := Read.bind_ok.1 hscan
      have hexpr : Begins T false .firm Anywhere (Read.expr fuel) (fun e => [e.piece])
          fun e => false = false → e.Clear := ih.expr
      obtain ⟨hsince, hclear⟩ := hexpr c key c3 hs hlit trivial hkey
      have hfollow := Rests.expr fuel c key c3 trivial hkey
      obtain ⟨more, c4, hmore, hvalue⟩ := Read.bind_ok.1 hvalue
      have hcomma := hsince.eat rfl hmore
      cases more with
      | false =>
        rw [show c4 = c3 from hcomma] at hvalue
        obtain ⟨e, rfl, he, hread⟩ := hsince.ranged hfollow hdefine hexpr hvalue hbrace
        have hheader : ∀ x ∈ [key, e], x.Clear :=
          List.forall_mem_cons.2 ⟨hclear rfl, List.forall_mem_singleton.2 he⟩
        exact ⟨hread, hheader⟩
      | true =>
        obtain ⟨v, c5, hv, hvalue⟩ := Read.bind_ok.1 hvalue
        obtain ⟨hread, hvclear⟩ := hexpr c4 v c5 hcomma.walks hcomma.literals trivial hv
        have hfollow := Rests.expr fuel c4 v c5 trivial hv
        obtain ⟨e, rfl, he, hread⟩ := (hcomma.append hread rfl).ranged hfollow hdefine hexpr hvalue hbrace
        have hheader : ∀ x ∈ [key, v, e], x.Clear := List.forall_mem_cons.2 ⟨hclear rfl,
          List.forall_mem_cons.2 ⟨hvclear rfl, List.forall_mem_singleton.2 he⟩⟩
        exact ⟨hread, hheader⟩
    | none =>
      rw [hdefine] at hscan
      have hread : Spends T false .free .free c 0 Anywhere [] (do
          if ← Read.eatPunct .semi then
            Read.clauseHead fuel none
          else
            let init ← Read.simple fuel
            if ← Read.eatPunct .semi then
              Read.clauseHead fuel (some init)
            else
              return .cond (← Read.exprOf init)) LoopHead.pieces
          fun h => ∀ e ∈ Piece.exprsAll h.pieces, e.Clear := by
        refine .eat rfl (ih.clauseHead none (by simp)) (.step ih.simple rfl fun init hinit => .eat rfl ?_ ?_)
        · exact ih.clauseHead (some init) (by simpa using hinit.1 rfl)
        · refine .exprOf [] hinit.2 fun t e he => .pure rfl (by simp [LoopHead.pieces]) ?_
          exact List.forall_mem_singleton.2 (hinit.1 rfl e (by simp [he]))
      exact hread c h c' hfresh trivial hscan

theorem clauseHead_succ (init : Option Simple) (h : ∀ s ∈ init, s.Clear) :
    Spends T false .free .free b 0 Anywhere (init.toList.map Simple.piece)
      (Read.clauseHead (fuel + 1) init) LoopHead.pieces
      fun h => ∀ e ∈ Piece.exprsAll h.pieces, e.Clear := by
  rw [Read.clauseHead]
  refine .at_ fun bare => ?_
  extract_lets jp
  have hjp : ∀ cond : Option Expr, (∀ e ∈ cond, e.Clear) → Spends T false .free .free b 0 Anywhere
      (init.toList.map Simple.piece ++ cond.toList.map Expr.piece) (jp cond) LoopHead.pieces
      fun h => ∀ e ∈ Piece.exprsAll h.pieces, e.Clear := by
    intro cond hcond
    refine .expect rfl (.at_ fun done => ?_)
    extract_lets jp
    have hjp : ∀ post : Option Simple, (∀ s ∈ post, s.Clear) → Spends T false .free .free b 0 Anywhere
        (init.toList.map Simple.piece ++ cond.toList.map Expr.piece ++ post.toList.map Simple.piece)
        (jp post) LoopHead.pieces fun h => ∀ e ∈ Piece.exprsAll h.pieces, e.Clear := by
      intro post hpost
      refine .pure rfl (by simp [LoopHead.pieces]) ?_
      simp only [LoopHead.pieces, Piece.exprsAll_append, Piece.exprsAll_simples, Piece.exprsAll_exprs]
      exact List.forall_mem_append.2 ⟨Simple.clear_toList h, List.forall_mem_append.2
        ⟨by simpa using hcond, Simple.clear_toList hpost⟩⟩
    split
    · exact .ret ((hjp none (by simp)).imp rfl (by simp) (by simp))
    · exact .step ih.simple rfl fun p hp => .ret (hjp (some p) (by simpa using hp.1 rfl))
  split
  · exact .ret ((hjp none (by simp)).imp rfl (by simp) (by simp))
  · exact .step ih.expr rfl fun e he => .ret (hjp (some e) (by simpa using he rfl))

theorem switchHead_succ : Begins T false .free pre (Read.switchHead (fuel + 1))
    (fun x => x.1.toList.map Simple.piece ++ x.2.toList.map Simple.piece)
    fun x => (∀ s ∈ x.1, s.Clear) ∧ ∀ s ∈ x.2, s.Clear ∧ Upright (.simple s) := by
  rw [Read.switchHead]
  refine .of .free rfl fun b => .at_ fun bare => ?_
  split
  · exact .pure rfl (by simp) (by simp)
  · refine .at_ fun semi => ?_
    extract_lets jp
    have hjp : ∀ first : Option Simple, (∀ s ∈ first, s.Clear ∧ Upright (.simple s)) → ∀ pre,
        Spends T false .free .free b 0 pre (first.toList.map Simple.piece) (jp first)
          (fun x => x.1.toList.map Simple.piece ++ x.2.toList.map Simple.piece)
          fun x => (∀ s ∈ x.1, s.Clear) ∧ ∀ s ∈ x.2, s.Clear ∧ Upright (.simple s) := by
      intro first hfirst pre
      refine .eat rfl (.at_ fun done => ?_) ?_
      · split
        · exact .pure rfl (by simp) ⟨fun s hs => (hfirst s hs).1, by simp⟩
        · refine .step ih.simple rfl fun p hp => ?_
          refine .pure rfl (by simp) ⟨fun s hs => (hfirst s hs).1, ?_⟩
          simpa using ⟨hp.1 rfl, hp.2⟩
      · exact .pure rfl (by simp) ⟨by simp, hfirst⟩
    split
    · exact .ret (hjp none (by simp) _)
    · refine .step ih.simple rfl fun p hp => .ret (hjp (some p) ?_ _)
      simpa using ⟨hp.1 rfl, hp.2⟩

/-- The clauses behind the header of a switch, and the brace in front of them. -/
theorem clausesBehind {ps : List Piece} {types : Bool} (make : Tag → List Clause → Stmt)
    (htag : ∀ t cs, (make t cs).tag = t) (hfore : ∀ t cs, (make t cs).fore = ps)
    (hbody : ∀ t cs, (make t cs).body = cs.map Clause.piece)
    (hpieces : ∀ t cs, (Node.stmt (make t cs)).pieces = ps ++ cs.map Clause.piece)
    (hclear : ∀ e ∈ Piece.exprsAll ps, e.Clear) :
    Spends T lit .free .free b 0 Anywhere ps (do
      Read.expectPunct .lBrace
      let cs ← Read.clauses fuel types
      Read.expectPunct .rBrace
      return make (← Read.tagFrom b.next) cs) (fun s => [s.piece]) fun _ => True := by
  refine .brace rfl fun p hp => .stepFrom (ih.clauses types) rfl fun c cs c' hs _ _ hcs => ?_
  refine .expect rfl (.made rfl (fun _ => rfl) (fun _ => trivial) fun t ht =>
    ⟨congrArg Tag.span (htag t cs), fun n hn => ?_, fun _ _ => ⟨?_, p, .ofClauses ?_ (hbody t cs) ?_⟩⟩)
  · rwa [hpieces] at hn
  · rw [Stmt.header, hfore]
    exact hclear
  · rw [hfore, show (make t cs).span.start = b.next by rw [Stmt.span, htag, ht]]
    exact hp
  · exact fun x hx => Nat.le_trans hs.mark (hcs rfl x hx)

theorem switch_succ : Begins T lit .free pre (Read.switch (fuel + 1)) (fun s => [s.piece])
    fun _ => True := by
  rw [Read.switch]
  refine .start .free rfl fun b => .expect rfl (.step (.withLiterals ih.switchHead) rfl ?_)
  rintro ⟨init, subject⟩ ⟨hinit, hsubject⟩
  have hinitial : ∀ e ∈ Piece.exprsAll (init.toList.map Simple.piece), e.Clear := by
    rw [Piece.exprsAll_simples]
    exact Simple.clear_toList hinit
  cases subject with
  | none =>
    exact (ih.clausesBehind (.switch · init none ·) (by simp [Stmt.tag]) (by simp [Stmt.fore])
      (by simp [Stmt.body]) (by simp) hinitial).imp rfl (by simp) (by simp)
  | some simple =>
    obtain ⟨hsimple, hupright⟩ := hsubject simple rfl
    -- no matter what the statement turns out to be, its parts stand in front of the brace
    refine .spread hupright ?_
    cases hguard : Read.guard? simple with
    | some found =>
      obtain ⟨bind, e⟩ := found
      obtain ⟨hpieces, he⟩ := Read.guard?_ok hguard
      rw [hpieces]
      simp only [Option.bind_some, hguard]
      refine ih.clausesBehind (.typeSwitch · init bind e ·) (by simp [Stmt.tag]) (by simp [Stmt.fore])
        (by simp [Stmt.body]) (by simp) ?_
      simp only [Piece.exprsAll_append, Piece.exprsAll_names, Piece.exprsAll_expr, List.nil_append]
      exact List.forall_mem_append.2 ⟨hinitial, List.forall_mem_singleton.2 (hsimple e he)⟩
    | none =>
      simp only [Option.bind_some, hguard]
      cases simple with
      | expr t e =>
        refine ih.clausesBehind (.switch · init (some e) ·) (by simp [Stmt.tag]) (by simp [Stmt.fore])
          (by simp [Stmt.body]) (by simp) ?_
        rw [Piece.exprsAll_append]
        exact List.forall_mem_append.2 ⟨hinitial, hsimple⟩
      | _ => exact .inner (.expect rfl (.step (ih.clauses _) rfl fun cs _ => .expect rfl
          (.neverThen fun _ _ => Read.fail_not_ok)))

theorem clauses_succ (types : Bool) : Begins T lit .free pre (Read.clauses (fuel + 1) types)
    (·.map Clause.piece) fun _ => True := by
  rw [Read.clauses]
  refine .of .free rfl fun b => .peek fun next => ?_
  split
  · refine .step (ih.clause types) rfl fun c _ => ?_
    refine .step (ih.clauses types) rfl fun cs _ => ?_
    exact .pure rfl (by simp) trivial
  · exact .pure rfl (by simp) trivial

theorem clause_succ (types : Bool) : Begins T lit .free pre (Read.clause (fuel + 1) types)
    (fun c => [c.piece]) fun _ => True := by
  rw [Read.clause]
  refine .start .free rfl fun b => ?_
  extract_lets jp
  have hjp : ∀ cases : Cases, Spends T lit .free .free b 0 Anywhere cases.pieces (jp cases)
      (fun c => [c.piece]) fun _ => True :=
    fun cases => .expect rfl (.step ih.stmts rfl fun body _ => .made rfl (fun _ => rfl)
      (fun _ => trivial) fun _ _ => ⟨rfl, by simp, fun _ => trivial⟩)
  refine .eat rfl (.ret (hjp .default)) (.expect rfl ?_)
  cases types with
  | true => exact .step ih.typeExprs rfl fun ts _ => .ret (hjp (.types ts))
  | false => exact .step ih.exprs rfl fun es _ => .ret (hjp (.exprs es))

theorem select_succ : Begins T lit .free pre (Read.select (fuel + 1)) (fun s => [s.piece])
    fun _ => True := by
  rw [Read.select]
  refine .start .free rfl fun b => .inner (.expect rfl (.expect rfl ?_))
  refine .step ih.comms rfl fun cs _ => ?_
  exact .expect rfl (.made rfl (fun _ => rfl) (fun _ => trivial) fun _ _ => .stmt rfl rfl (by simp))

theorem comms_succ : Begins T lit .free pre (Read.comms (fuel + 1)) (·.map Comm.piece)
    fun _ => True := by
  rw [Read.comms]
  refine .of .free rfl fun b => .peek fun next => ?_
  split
  · refine .step ih.comm rfl fun c _ => ?_
    refine .step ih.comms rfl fun cs _ => ?_
    exact .pure rfl (by simp) trivial
  · exact .pure rfl (by simp) trivial

theorem comm_succ : Begins T lit .free pre (Read.comm (fuel + 1)) (fun c => [c.piece])
    fun _ => True := by
  rw [Read.comm]
  refine .start .free rfl fun b => ?_
  extract_lets jp
  have hjp : ∀ guard : Option Simple, Spends T lit .free .free b 0 Anywhere
      (guard.toList.map Simple.piece) (jp guard) (fun c => [c.piece]) fun _ => True :=
    fun guard => .expect rfl (.step ih.stmts rfl fun body _ => .made rfl (fun _ => rfl)
      (fun _ => trivial) fun _ _ => ⟨rfl, by simp, fun _ => trivial⟩)
  refine .eat rfl (.ret (hjp none)) (.expect rfl ?_)
  exact .step ih.simple rfl fun p _ => .ret (hjp (some p))

theorem exprs_succ : Begins T lit .firm pre (Read.exprs (fuel + 1)) (·.map Expr.piece)
    fun es => lit = false → ∀ e ∈ es, e.Clear := by
  rw [Read.exprs]
  refine .of .firm rfl fun b => .step ih.expr rfl fun e he => .eat rfl ?_ ?_
  · refine .step ih.exprs rfl fun es hes => ?_
    exact .pure rfl (by simp) fun hlit => List.forall_mem_cons.2 ⟨he hlit, hes hlit⟩
  · exact .pure rfl (by simp) fun hlit => List.forall_mem_singleton.2 (he hlit)

theorem typeExprs_succ : Begins T lit .firm pre (Read.typeExprs (fuel + 1)) (·.map TypeExpr.piece)
    fun _ => True := by
  rw [Read.typeExprs]
  refine .of .firm rfl fun b => .step ih.typeExpr rfl fun t _ => .eat rfl ?_ ?_
  · exact .step ih.typeExprs rfl fun ts _ => .pure rfl (by simp) trivial
  · exact .pure rfl (by simp) trivial

theorem expr_succ : Begins T lit .firm pre (Read.expr (fuel + 1)) (fun e => [e.piece])
    fun e => lit = false → e.Clear := by
  rw [Read.expr]
  exact ih.binary 1

theorem binary_succ (least : Nat) : Begins T lit .firm pre (Read.binary (fuel + 1) least)
    (fun e => [e.piece]) fun e => lit = false → e.Clear := by
  rw [Read.binary]
  exact .start .firm rfl fun b => .step ih.unary rfl fun x hx => ih.binaryRest least hx

theorem binaryRest_succ (least : Nat) {x : Expr} (hx : lit = false → x.Clear) :
    Spends T lit .firm .firm b 0 Anywhere [x.piece] (Read.binaryRest (fuel + 1) least b.next x)
      (fun e => [e.piece]) fun e => lit = false → e.Clear := by
  rw [Read.binaryRest]
  refine .peek fun next => ?_
  split
  · exact .pure rfl (by simp) hx
  · rename_i op hop
    obtain ⟨t, rfl, hpass⟩ := Mode.pass?_binary hop
    split
    · exact .pure rfl (by simp) hx
    · refine .takeFacing hpass fun _ => ?_
      refine .step (ih.binary _) rfl fun right hright => ?_
      refine .node (fun t => .expr (.binary t x op right)) (fun t _ => .expr rfl rfl (by simp))
        fun t => ?_
      refine ih.binaryRest least fun hlit => ?_
      rw [Expr.Clear, Expr.exposed]
      exact List.forall_mem_cons.2 ⟨rfl, List.forall_mem_append.2 ⟨hx hlit, hright hlit⟩⟩

theorem unary_succ : Begins T lit .firm pre (Read.unary (fuel + 1)) (fun e => [e.piece])
    fun e => lit = false → e.Clear := by
  rw [Read.unary]
  refine .start .firm rfl fun b => .peek fun next => ?_
  split
  · exact .last ih.primary rfl fun e he => .pure rfl (by simp) he
  · rename_i op hop
    obtain ⟨t, rfl, hpass⟩ := Mode.pass?_unary hop
    refine .takeFacing hpass fun _ => ?_
    refine .step ih.unary rfl fun e he => ?_
    refine .made rfl (fun _ => rfl) (fun _ hlit => ?_) fun _ _ => .expr rfl rfl (by simp)
    rw [Expr.Clear, Expr.exposed]
    exact List.forall_mem_cons.2 ⟨rfl, he hlit⟩

theorem primary_succ : Begins T lit .firm pre (Read.primary (fuel + 1)) (fun e => [e.piece])
    fun e => lit = false → e.Clear := by
  rw [Read.primary]
  exact .start .firm rfl fun b => .step ih.operand rfl fun x hx => ih.primaryRest hx

theorem primaryRest_succ {x : Expr} (hx : lit = false → x.Clear) :
    Spends T lit .firm .firm b 0 Anywhere [x.piece] (Read.primaryRest (fuel + 1) b.next x)
      (fun e => [e.piece]) fun e => lit = false → e.Clear := by
  have hcons {e : Expr} (he : e.exposed = e :: x.exposed) (hnamed : e.isNamedLiteral = false) :
      lit = false → e.Clear := by
    intro hlit
    rw [Expr.Clear, he]
    exact List.forall_mem_cons.2 ⟨hnamed, hx hlit⟩
  rw [Read.primaryRest]
  refine .peek fun next => ?_
  split
  · refine .takeFacing rfl fun _ => .eat rfl (.eat rfl ?_ ?_) ?_
    · exact .ret (.expect rfl (.node (fun t => .expr (.assert t x none))
        (fun _ _ => .expr rfl rfl (by simp)) fun t => ih.primaryRest (hcons (by simp) rfl)))
    · refine .step ih.typeExpr rfl fun type _ => ?_
      exact .ret (.expect rfl (.node (fun t => .expr (.assert t x (some type)))
        (fun _ _ => .expr rfl rfl (by simp)) fun t => ih.primaryRest (hcons (by simp) rfl)))
    · refine .step .name rfl fun sel _ => ?_
      exact .node (fun t => .expr (.selector t x sel)) (fun _ _ => .expr rfl rfl (by simp))
        fun t => ih.primaryRest (hcons (by simp) rfl)
  · refine .takeFacing rfl fun _ => ?_
    refine .step (.withLiterals (ih.bracket x)) rfl fun build hbuild => ?_
    refine .expect rfl ?_
    obtain ⟨i, rfl⟩ | ⟨lo, hi, max, rfl⟩ := hbuild
    · exact .node (fun t => .expr (.index t x i)) (fun _ _ => .expr rfl rfl (by simp))
        fun t => ih.primaryRest (hcons (by simp) rfl)
    · exact .node (fun t => .expr (.slice t x lo hi max)) (fun _ _ => .expr rfl rfl (by simp))
        fun t => ih.primaryRest (hcons (by simp) rfl)
  · refine .takeFacing rfl fun _ => .step (.withLiterals ih.arguments) rfl ?_
    rintro ⟨args, spread⟩ _
    refine .expect rfl ?_
    exact .node (fun t => .expr (.call t x args spread)) (fun _ _ => .expr rfl rfl (by simp))
      fun t => ih.primaryRest (hcons (by simp) rfl)
  · refine .get fun c hlit => ?_
    split
    · exact .pure rfl (by simp) hx
    · rename_i type htype
      -- the brace belongs to the literal, and its type is made of what stood in front of it
      refine .tagAt fun t _ => .inner ?_
      refine .grow (.type (type t)) rfl (fun h => .literalType htype (h _ List.mem_cons_self)) ?_
      have hnamed : lit = false → ∀ u pkg n, some (type t) ≠ some (.named u pkg n) := by
        rintro rfl u pkg n h
        exact Read.literalType?_ne_named (hlit ▸ htype) (Option.some.inj h)
      exact .bind ((ih.composite (some (type t)) hnamed).imp rfl (by simp) (fun h => by cases h))
        fun e he => ih.primaryRest he
  · exact .pure rfl (by simp) hx

theorem bracket_succ (x : Expr) : Begins T lit .firm pre (Read.bracket (fuel + 1) x)
    (fun build => (Node.expr (build default)).pieces.tail)
    fun build => (∃ i, build = fun t => .index t x i) ∨
      ∃ lo hi max, build = fun t => .slice t x lo hi max := by
  rw [Read.bracket]
  refine .of .firm rfl fun b => .at_ fun bare => ?_
  extract_lets jp
  have hjp : ∀ (lo : Option Expr) (pre), Spends T lit .firm .firm b 0 pre (lo.toList.map Expr.piece)
      (jp lo) (fun build => (Node.expr (build default)).pieces.tail)
      fun build => (∃ i, build = fun t => .index t x i) ∨
        ∃ lo hi max, build = fun t => .slice t x lo hi max := by
    intro lo pre
    refine .eat rfl (.peek fun next => ?_) ?_
    · extract_lets hiJp
      have hhi : ∀ (hi : Option Expr) (pre), Spends T lit .firm .firm b 0 pre
          (lo.toList.map Expr.piece ++ hi.toList.map Expr.piece) (hiJp hi)
          (fun build => (Node.expr (build default)).pieces.tail)
          fun build => (∃ i, build = fun t => .index t x i) ∨
            ∃ lo hi max, build = fun t => .slice t x lo hi max := by
        intro hi pre
        refine .eat rfl ?_ ?_
        · exact .step ih.expr rfl fun e _ => .ret (.pure rfl (by simp)
            (.inr ⟨lo, hi, some e, rfl⟩))
        · exact .ret (.pure rfl (by simp) (.inr ⟨lo, hi, none, rfl⟩))
      split
      · exact .ret ((hhi none _).imp rfl (by simp) (by simp))
      · exact .step ih.expr rfl fun e _ => .ret (hhi (some e) _)
    · cases lo with
      | some e => exact .pure rfl (by simp) (.inl ⟨e, rfl⟩)
      | none => exact .unexpected
  split
  · exact .ret (hjp none _)
  · exact .step ih.expr rfl fun e _ => .ret (hjp (some e) _)

theorem arguments_succ : Begins T lit .firm pre (Read.arguments (fuel + 1))
    (fun p => p.1.map Expr.piece) fun _ => True := by
  rw [Read.arguments]
  refine .of .firm rfl fun b => .at_ fun done => ?_
  split
  · exact .pure rfl (by simp) trivial
  · refine .step ih.expr rfl fun e _ => .eatAny rfl fun spread => .eat rfl ?_ ?_
    · refine .step ih.arguments rfl ?_
      rintro ⟨es, more⟩ _
      exact .pure rfl (by simp) trivial
    · exact .pure rfl (by simp) trivial

theorem composite_succ (type : Option TypeExpr)
    (h : lit = false → ∀ t pkg n, type ≠ some (.named t pkg n)) :
    Spends T lit .inner .firm b 0 Anywhere (type.toList.map TypeExpr.piece)
      (Read.composite (fuel + 1) b.next type) (fun e => [e.piece]) fun e => lit = false → e.Clear := by
  rw [Read.composite]
  refine .expect rfl ?_
  refine .step (.withLiterals ih.elements) rfl fun elems _ => .expect rfl ?_
  refine .made rfl (fun _ => rfl) (fun t hlit => ?_) fun _ _ => ⟨rfl, by simp, fun _ => .inl rfl⟩
  intro x hx
  obtain rfl : x = .composite t type elems := by simpa using hx
  rcases type with _ | ⟨u, pkg, n⟩ | _
  case some.named => exact absurd rfl (h hlit u pkg n)
  all_goals rfl

theorem elements_succ : Begins T lit .firm pre (Read.elements (fuel + 1))
    (·.flatMap Element.pieces) fun _ => True := by
  rw [Read.elements]
  refine .of .firm rfl fun b => .at_ fun done => ?_
  split
  · exact .pure rfl (by simp) trivial
  · have hrest (elem : Element) (pre) : Spends T lit .firm .firm b 0 pre elem.pieces (do
        if ← Read.eatPunct .comma then return elem :: (← Read.elements fuel) else return [elem])
        (·.flatMap Element.pieces) fun _ => True := by
      refine .eat rfl ?_ (.pure rfl (by simp) trivial)
      exact .step ih.elements rfl fun es _ => .pure rfl (by simp) trivial
    refine .step ih.element rfl fun first _ => .eat rfl ?_ (.ret (hrest ⟨none, first⟩ _))
    exact .step ih.element rfl fun value _ => .ret (hrest ⟨some first, value⟩ _)

theorem element_succ : Begins T lit .firm pre (Read.element (fuel + 1)) (fun e => [e.piece])
    fun _ => True := by
  -- the elements of a literal stand in braces, so no rule is kept for them
  rw [Read.element]
  refine .stay (fun _ _ _ h => by cases h; rfl) fun bare => ?_
  split
  · have hempty (b : Cursor) : Spends T lit .inner .firm b 0 Anywhere [] (Read.composite fuel b.next none)
        (fun e => [e.piece]) fun e => lit = false → e.Clear := ih.composite none (by simp)
    have hread : Begins T lit .firm pre (do Read.composite fuel (← Read.start) none)
        (fun e => [e.piece]) fun e => lit = false → e.Clear :=
      .start .inner rfl fun b => (hempty b).of_anywhere
    exact hread.of_post fun _ _ => trivial
  · exact .of_post ih.expr fun _ _ => trivial

omit ih in
theorem literal {t : Token} (kind : LitKind) (text : String) (hpass : Mode.firm.pass? 0 t = some 0) :
    Spends T lit .firm .firm b 0 (Facing (some t)) [] (Read.operand.literal b.next kind text)
      (fun e => [e.piece]) fun e => lit = false → e.Clear :=
  .takeFacing hpass fun _ => .made rfl (fun _ => rfl) (fun _ _ => by simp)
    fun _ _ => .expr rfl rfl (by simp)

theorem operand_succ : Begins T lit .firm pre (Read.operand (fuel + 1)) (fun e => [e.piece])
    fun e => lit = false → e.Clear := by
  rw [Read.operand]
  refine .start .firm rfl fun b => .peek fun next => ?_
  split
  · refine .takeFacing rfl fun _ => ?_
    exact .made rfl (fun _ => rfl) (fun _ _ => by simp) fun _ _ => .expr rfl rfl (by simp)
  iterate 6 exact literal _ _ rfl
  · refine .takeFacing rfl fun _ => ?_
    refine .step (.withLiterals ih.expr) rfl fun inner _ => .expect rfl ?_
    exact .made rfl (fun _ => rfl) (fun _ _ => by simp) fun _ _ => .expr rfl rfl (by simp)
  · refine .takeFacing rfl fun _ => ?_
    refine .step ih.signature rfl fun sig _ => .at_ fun bodied => ?_
    split
    · refine .step (.withLiterals ih.block) rfl fun body _ => ?_
      exact .made rfl (fun _ => rfl) (fun _ _ => by simp) fun _ _ => ⟨rfl, by simp,
        fun _ => .inl rfl⟩
    · exact .node (fun t => .type (.func t sig)) (fun _ _ => ⟨rfl, by simp, fun _ => trivial⟩)
        fun t => .made rfl (fun _ => rfl) (fun _ _ => by simp) fun _ _ => .expr rfl rfl (by simp)
  iterate 5
    refine .step ih.typeExpr rfl fun type _ => ?_
    exact .made rfl (fun _ => rfl) (fun _ _ => by simp) fun _ _ => .expr rfl rfl (by simp)
  · exact .unexpected

theorem decl_succ (t : Token) (ht : (DeclKind.ofToken? t).isSome = true) :
    Begins T lit .free (Facing (some t)) (Read.decl (fuel + 1)) (fun d => [d.piece]) fun _ => True := by
  rw [Read.decl]
  refine .start .free rfl fun b => .takeFacing (Mode.pass?_decl ht) fun p => .eat rfl ?_ ?_
  · refine .step (ih.specs _) rfl fun ss _ => .expect rfl ?_
    exact .made rfl (fun _ => rfl) (fun _ => trivial) fun _ _ => ⟨rfl, by simp, fun _ => trivial⟩
  · refine .step (ih.spec _) rfl fun one _ => ?_
    exact .made rfl (fun _ => rfl) (fun _ => trivial) fun _ _ => ⟨rfl, by simp, fun _ => trivial⟩

theorem specs_succ (kind : DeclKind) : Begins T lit .free pre (Read.specs (fuel + 1) kind)
    (·.map Spec.piece) fun _ => True := by
  rw [Read.specs]
  refine .of .free rfl fun b => .peek fun next => ?_
  split
  · exact .pure rfl (by simp) trivial
  · refine .step (ih.spec kind) rfl fun one _ => .endStatement ?_
    refine .step (ih.specs kind) rfl fun ss _ => ?_
    exact .pure rfl (by simp) trivial

theorem spec_succ (kind : DeclKind) : Begins T lit .free pre (Read.spec (fuel + 1) kind)
    (fun s => [s.piece]) fun _ => True := by
  rw [Read.spec]
  refine .start .free rfl fun b => ?_
  split
  · refine .peek fun next => ?_
    extract_lets jp
    have hjp : ∀ (n : Option Name) (pre ps), Spends T lit ⟨true, true, 0⟩ .free b 0 pre ps
        (jp n) (fun s => [s.piece]) fun _ => True := by
      intro n pre ps
      refine .peek fun after => ?_
      split
      · rename_i path hpath
        have htext : (Read.isText after).isSome = true := by rw [hpath]; rfl
        obtain ⟨t, rfl, hpass⟩ := Mode.pass?_text htext
        refine .takeFacing hpass fun _ => ?_
        exact .made rfl (fun _ => rfl) (fun _ => trivial) fun _ _ => ⟨rfl, by simp,
          fun _ => trivial⟩
      · exact .unexpected
    split
    · exact .inner (.step .name rfl fun n _ => .ret (hjp (some n) _ _))
    · refine .inner (.takeFacing rfl fun p => ?_)
      exact .tagAt fun t _ => .ret (hjp (some ⟨t, "."⟩) _ _)
    · exact .inner (.ret (hjp none _ _))
  · refine .step .name rfl fun n _ => .eatAny rfl fun isAlias => ?_
    refine .step ih.typeExpr rfl fun type _ => ?_
    exact .made rfl (fun _ => rfl) (fun _ => trivial) fun _ _ => ⟨rfl, by simp, fun _ => trivial⟩
  all_goals
    refine .step (.names fuel) rfl fun ns _ => .peek fun next => ?_
    extract_lets jp
    have hjp : ∀ (type : Option TypeExpr) (pre), Spends T lit .free .free b 0 pre
        (ns.map Name.piece ++ type.toList.map TypeExpr.piece) (jp type) (fun s => [s.piece])
        fun _ => True := by
      intro type pre
      refine .eat rfl ?_ ?_
      · refine .step ih.exprs rfl fun vs _ => ?_
        exact .made rfl (fun _ => rfl) (fun _ => trivial) fun _ _ => ⟨rfl, by simp,
          fun _ => trivial⟩
      · exact .ret (.made rfl (fun _ => rfl) (fun _ => trivial)
          fun _ _ => ⟨rfl, by simp, fun _ => trivial⟩)
    split
    iterate 4 exact .ret ((hjp none _).imp rfl (by simp) (by simp))
    exact .step ih.typeExpr rfl fun type _ => .ret (hjp (some type) _)

omit ih in
/-- Without a budget nothing is read. -/
theorem of_zero : ReadsHeaded T 0 := by
  constructor <;> intros <;> simp only [
    Read.typeExpr, Read.structFields, Read.interfaceMethods, Read.signature, Read.parameters,
    Read.params, Read.param, Read.block, Read.stmts, Read.stmt, Read.simple, Read.ifElse,
    Read.loop, Read.loopHead, Read.clauseHead, Read.switch, Read.switchHead, Read.clauses,
    Read.clause, Read.select, Read.comms, Read.comm, Read.exprs, Read.typeExprs, Read.expr,
    Read.binary, Read.binaryRest, Read.unary, Read.primary, Read.primaryRest, Read.bracket,
    Read.arguments, Read.composite, Read.elements, Read.element, Read.operand, Read.decl,
    Read.specs, Read.spec] at * <;>
    first
    | exact .exhausted
    | exact .never fun _ _ => Read.exhausted_not_ok
    | exact absurd ‹_› Read.exhausted_not_ok

end ReadsHeaded

theorem readsHeaded (T : List Placed) (fuel : Nat) : ReadsHeaded T fuel := by
  induction fuel with
  | zero => exact .of_zero
  | succ fuel ih =>
    exact {
      typeExpr := ih.typeExpr_succ
      structFields := ih.structFields_succ
      interfaceMethods := ih.interfaceMethods_succ
      signature := ih.signature_succ
      parameters := ih.parameters_succ
      params := ih.params_succ
      param := ih.param_succ
      block := ih.block_succ
      stmts := ih.stmts_succ
      stmt := ih.stmt_succ
      simple := ih.simple_succ
      ifElse := ih.ifElse_succ
      loop := ih.loop_succ
      loopHead := ih.loopHead_succ
      clauseHead := ih.clauseHead_succ
      switch := ih.switch_succ
      switchHead := ih.switchHead_succ
      clauses := ih.clauses_succ
      clause := ih.clause_succ
      select := ih.select_succ
      comms := ih.comms_succ
      comm := ih.comm_succ
      exprs := ih.exprs_succ
      typeExprs := ih.typeExprs_succ
      expr := ih.expr_succ
      binary := ih.binary_succ
      binaryRest := ih.binaryRest_succ
      unary := ih.unary_succ
      primary := ih.primary_succ
      primaryRest := ih.primaryRest_succ
      bracket := ih.bracket_succ
      arguments := ih.arguments_succ
      composite := ih.composite_succ
      elements := ih.elements_succ
      element := ih.element_succ
      operand := ih.operand_succ
      decl := ih.decl_succ
      specs := ih.specs_succ
      spec := ih.spec_succ
    }

namespace Begins

variable {T : List Placed} {lit : Bool} {pre : Cursor → Prop}

theorem funcDecl (fuel : Nat) : Begins T lit .free pre (Read.funcDecl fuel) (fun f => [f.piece])
    fun _ => True := by
  have ih := readsHeaded T fuel
  refine .start .free rfl fun b => .inner (.expect rfl (.at_ fun hasRecv => ?_))
  extract_lets jp
  have hjp : ∀ (recv : Option Field) (pre ps), (∀ f ∈ recv, f.piece ∈ ps) →
      Spends T lit ⟨true, true, 0⟩ .free b 0 pre ps (jp recv) (fun f => [f.piece]) fun _ => True := by
    intro recv pre ps hrecv
    refine .step .name rfl fun n _ => ?_
    refine .step ih.signature rfl fun sig _ => .at_ fun hasBody => ?_
    split
    · refine .step (.withLiterals ih.block) rfl fun y _ => ?_
      exact .ret (.made rfl (fun _ => rfl) (fun _ => trivial)
        fun _ _ => ⟨rfl, by simp [Node.pieces]; grind, fun _ => trivial⟩)
    · exact .ret (.made rfl (fun _ => rfl) (fun _ => trivial)
        fun _ _ => ⟨rfl, by simp [Node.pieces]; grind, fun _ => trivial⟩)
  split
  · refine .start fun s => .step ih.parameters rfl fun fields _ => ?_
    split
    · exact .ret (hjp _ _ _ (by simp))
    · exact .spanFrom fun _ => .neverThen fun _ _ => Read.fail_not_ok
  · exact .ret (hjp none _ _ (by simp))

theorem topDecls (fuel : Nat) : Begins T lit .free pre (Read.topDecls fuel) (·.map TopDecl.piece)
    fun _ => True := by
  induction fuel generalizing pre with
  | zero => exact exhausted
  | succ fuel ih =>
    rw [Read.topDecls]
    refine .of .free rfl fun b => .peek fun next => ?_
    split
    · exact .pure rfl (by simp) trivial
    · exact .takeFacing rfl fun _ => .last ih rfl fun ds _ => .pure rfl (by simp) trivial
    · extract_lets jp
      have hjp : ∀ d : TopDecl, Spends T lit .free .free b 0 Anywhere [d.piece] (jp d)
          (·.map TopDecl.piece) fun _ => True := by
        intro d
        refine .at_ fun paren => .at_ fun brace => ?_
        extract_lets done
        have hdone : Spends T lit .free .free b 0 Anywhere [d.piece] (done ()) (·.map TopDecl.piece)
            fun _ => True := .endStatement (.step ih rfl fun ds _ => .pure rfl (by simp) trivial)
        split
        · exact .neverThen fun _ _ => Read.unexpected_not_ok
        · exact hdone
      split
      · exact .step (funcDecl fuel) rfl fun f _ => .ret (hjp (.func f))
      · split
        · rename_i hkind
          exact .step ((readsHeaded T fuel).decl _ hkind) rfl fun d _ => .ret (hjp (.decl d))
        · exact .neverThen fun _ _ => Read.unexpected_not_ok

theorem sourceFile (fuel : Nat) : Begins T lit .free pre (Read.sourceFile fuel)
    (fun f => f.name.piece :: f.decls.map TopDecl.piece) fun _ => True :=
  .of .free rfl fun b => .start fun s => .expect rfl (.step .name rfl fun n _ => .tagFrom fun t =>
    .endStatement (.step (topDecls fuel) rfl fun ds _ => .pure rfl (by simp) trivial))

end Begins

/-! ## The headers of a text -/

theorem Runs.lt {lo hi : Nat} {ps : List Placed} (h : Runs lo ps hi) {q : Placed} (hq : q ∈ ps)
    (hend : Read.isLineEnd q = false) : q.span.start < q.span.stop := by
  induction ps generalizing lo with
  | nil => cases hq
  | cons p ps ih =>
    obtain ⟨_, _, hlt, hrest⟩ := h
    rcases List.mem_cons.1 hq with rfl | hq
    · exact hlt hend
    · exact ih hrest hq

/-- A reader starts with all tokens of a text ahead. -/
theorem Walks.ofText (text : String) :
    Walks (scan text).tokens ⟨(scan text).tokens, text.utf8ByteSize, 0, true, 0⟩ := by
  have hruns : Runs 0 (scan text).tokens text.utf8ByteSize := by
    have h := Runs.ofLexemes .start 0 text.toList
    rwa [Nat.zero_add, byteSize_toList] at h
  refine ⟨fun q hq hopens => hruns.lt hq ?_, hruns, [], rfl, by simp⟩
  rw [Read.isLineEnd, show q.token = .punct .lBrace from hopens]
  rfl

/-- No literal with a name for its type is exposed in the header of a control statement. All braces
between its keyword and the one that opens its body belong to literals and types in the header. -/
theorem Document.ofSource_headers {source : String} {d : Document} (h : ofSource source = .ok d)
    {s : Stmt} (hs : .stmt s ∈ d.file.nodes) (hcontrol : s.isControl = true) :
    (∀ e ∈ s.header, e.Clear) ∧ ∃ p, s.Opened (scan (terminated source)).tokens p ∧
      ∀ q ∈ (scan (terminated source)).tokens, q.Opens → s.span.start ≤ q.span.start →
        q.span.start < p.span.start →
          ∃ n m, .child n ∈ s.fore ∧ n.Holds m ∧ m.isBraced = true ∧ m.span.Holds q := by
  obtain ⟨file, c, c', hreads⟩ := ofSource_ok h
  have hread : Begins (scan (terminated source)).tokens true .free Anywhere (Read.sourceFile
      (budget (scan (terminated source)).tokens.length))
      (fun f => f.name.piece :: f.decls.map TopDecl.piece) fun _ => True := .sourceFile _
  have hwalks := Walks.ofText (terminated source)
  obtain ⟨hsince, _⟩ := hread _ file c hwalks rfl trivial hreads.sourceFile
  have hfile : d.file.decls = file.decls := by rw [hreads.file]
  have hcomment : (Node.stmt s).isComment = false := by cases s <;> rfl
  obtain ⟨x, hx, hholds⟩ := (SourceFile.mem_nodes_decls hcomment).1 hs
  have htop : Throughout (Node.Told (scan (terminated source)).tokens) (Outline.ofTopDecl x).content := by
    refine hsince.told _ (List.mem_cons_of_mem _ ?_)
    rw [← x.piece_eq]
    exact List.mem_map_of_mem (hfile ▸ hx)
  have hstmt : Throughout (Node.Told (scan (terminated source)).tokens) (.stmt s) := hholds.nested htop
  obtain ⟨hclear, p, hp⟩ := hstmt.local hcontrol
  refine ⟨hclear, p, hp, fun q hq hopens hstart hlt => ?_⟩
  obtain ⟨n, hn, hin⟩ := hp.accounts q hq hopens hstart hlt
  obtain ⟨hoperand, hpiece⟩ := Stmt.mem_fore hn
  obtain ⟨m, hm, hbraced, hmq⟩ := Throughout.braced hq hopens (hwalks.filled q hq hopens)
    (hstmt.child hpiece) hoperand hin
  exact ⟨n, m, hn, hm, hbraced, hmq⟩

/-- A loop at an offset, with a body at another. -/
def Node.isLoop (start body : Nat) : Node → Bool
  | .stmt (.loop t _ b) => t.span.start == start && b.tag.span.start == body
  | _ => false

/-- The third brace behind the keyword opens the body: the others belong to the literal in front of it,
and one of them to a literal in parentheses. -/
theorem Document.ofSource_headers_range :
    let source := "package p\n\nfunc f() \x7b\n\tfor _, x := range []T\x7b(T\x7b1\x7d)\x7d \x7b\n\t\tg(x)\n\t\x7d\n\x7d\n"
    ∃ d s, ofSource source = .ok d ∧ .stmt s ∈ d.file.nodes ∧ s.isControl = true ∧
      s.span.start = 23 ∧ (∀ e ∈ s.header, e.Clear) ∧
        ∃ p, s.Opened (scan (terminated source)).tokens p ∧ p.span.start = 53 := by
  intro source
  have hloop : (ofSource source).toOption.any (·.file.nodes.any (Node.isLoop 23 53)) = true := by
    decide +kernel
  cases hread : ofSource source with
  | error =>
    rw [hread] at hloop
    cases hloop
  | ok d =>
    rw [hread] at hloop
    obtain ⟨n, hmem, hn⟩ := List.any_eq_true.1 hloop
    unfold Node.isLoop at hn
    split at hn
    · rename_i t head b
      obtain ⟨hstart, hbody⟩ := Bool.and_eq_true_iff.1 hn
      obtain ⟨hclear, p, hp, _⟩ := ofSource_headers hread hmem rfl
      have hblock := hp.block b List.mem_cons_self
      exact ⟨d, _, rfl, hmem, rfl, eq_of_beq hstart, hclear, p, hp,
        hblock.symm.trans (eq_of_beq hbody)⟩
    · cases hn

end FuncLift
