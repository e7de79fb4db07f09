import FuncLift.Proofs.Held
import FuncLift.Proofs.Shaped

/-!
# Precedence everywhere

A binary operation groups its operands by precedence if no operation on its left binds looser than it
does, and every one on its right binds tighter. In all that the grammar reads, in function literals,
types and statements as well, every operation groups its operands so. The loop over binary operators
carries that an operator that stands ahead does not bind tighter than the operation read so far.
-/
namespace FuncLift

theorem BinaryOp.precedence_le (op : BinaryOp) : op.precedence ≤ 5 := by cases op <;> decide

/-- The operator of a binary operation. -/
def Expr.operator? : Expr → Option BinaryOp
  | .binary _ _ op _ => some op
  | _ => none

theorem Expr.level_of_operator {e : Expr} {op : BinaryOp} (h : e.operator? = some op) :
    e.level = op.precedence := by
  cases e <;> cases h
  rfl

/-- Binary operators group their operands by precedence, and no operand of a unary operator is a
binary operation. -/
def Node.Grouped : Node → Prop
  | .expr (.binary _ l op r) => (∀ op', l.operator? = some op' → op.precedence ≤ op'.precedence) ∧
      ∀ op', r.operator? = some op' → op.precedence < op'.precedence
  | .expr (.unary _ _ e) => e.operator? = none
  | _ => True

theorem Node.Grouped.binary {t : Tag} {l r : Expr} {op : BinaryOp} (hl : op.precedence ≤ l.level)
    (hr : op.precedence < r.level) : (Node.expr (.binary t l op r)).Grouped :=
  ⟨fun _ h => Expr.level_of_operator h ▸ hl, fun _ h => Expr.level_of_operator h ▸ hr⟩

theorem Node.Grouped.unary {t : Tag} {op : UnaryOp} {e : Expr} (he : 6 ≤ e.level) :
    (Node.expr (.unary t op e)).Grouped := by
  cases hop : e.operator? with
  | none => exact hop
  | some op' =>
    have := Expr.level_of_operator hop
    have := op'.precedence_le
    omega

/-- Every operation in a node groups its operands by precedence. -/
def Node.Regular (n : Node) : Prop := ∀ m, n.Holds m → m.Grouped

def Piece.Regular : Piece → Prop
  | .name _ => True
  | .child n => n.Regular

@[simp] theorem Piece.regular_name (n : Name) : (Piece.name n).Regular := trivial

@[simp] theorem Piece.regular_child (n : Node) : (Piece.child n).Regular ↔ n.Regular := .rfl

namespace Node

variable {n : Node}

theorem Regular.of_pieces (hn : n.Grouped) (h : ∀ p ∈ n.pieces, p.Regular) : n.Regular := by
  intro m hm
  cases hm with
  | self => exact hn
  | step hc hm => exact h _ (mem_children.1 hc) _ hm

/-- A node without pieces is regular if it is grouped, and one with a single piece if that is regular
as well. -/
theorem Regular.leaf (hn : n.Grouped) (hpieces : n.pieces = []) : n.Regular :=
  .of_pieces hn (by simp [hpieces])

theorem Regular.only {p : Piece} (hn : n.Grouped) (hpieces : n.pieces = [p]) (hp : p.Regular) :
    n.Regular := .of_pieces hn (by simpa [hpieces] using hp)

theorem Regular.grouped (h : n.Regular) : n.Grouped := h n (.self n)

theorem Regular.pieces (h : n.Regular) : ∀ p ∈ n.pieces, p.Regular := by
  rintro (x | c) hp
  · trivial
  · exact fun m hm => h m (.step (mem_children.2 hp) hm)

/-- A field is regular if its type is. -/
theorem Regular.field {t : Tag} {ns : List Name} {type : TypeExpr} {variadic : Bool}
    {label : Option String} (h : (Node.type type).Regular) :
    (Node.field ⟨t, ns, type, variadic, label⟩).Regular :=
  .of_pieces trivial (by simpa [Node.pieces, or_imp, forall_and] using h)

end Node

def Param.Regular : Param → Prop
  | .bare _ _ => True
  | .typed _ type _ _ => (Node.type type).Regular

/-- All that a reader returns is as described. -/
def Returns {α : Type} (r : Read α) (post : α → Prop) : Prop := ∀ c a c', r c = .ok (a, c') → post a

namespace Returns

variable {α β : Type} {r : Read α} {f : α → Read β} {post : α → Prop} {post' : β → Prop}

theorem bind (h : Returns r post) (k : ∀ a, post a → Returns (f a) post') :
    Returns (r >>= f) post' := by
  intro c b c'' hr
  obtain ⟨a, c', hr, hf⟩ := Read.bind_ok.1 hr
  exact k a (h c a c' hr) c' b c'' hf

/-- A step of which nothing need be known. -/
theorem skip (k : ∀ a, Returns (f a) post') : Returns (r >>= f) post' := by
  intro c b c'' hr
  obtain ⟨a, c', _, hf⟩ := Read.bind_ok.1 hr
  exact k a c' b c'' hf

theorem pure {a : α} (ha : post a) : Returns (Pure.pure a) post := by
  intro c b c' hr
  obtain ⟨rfl, _⟩ := Read.pure_ok.1 hr
  exact ha

theorem ret {a : α} (k : Returns (f a) post') : Returns (Pure.pure a >>= f) post' := k

theorem never (h : ∀ c x, r c ≠ .ok x) : Returns r post := fun c _ _ hr => absurd hr (h c _)

theorem neverThen (h : ∀ c x, r c ≠ .ok x) : Returns (r >>= f) post' := by
  intro c b c'' hr
  obtain ⟨a, c', hr, _⟩ := Read.bind_ok.1 hr
  exact absurd hr (h c _)

theorem unexpected {w : Wanted} : Returns (Read.unexpected w) post :=
  never fun _ _ => Read.unexpected_not_ok

theorem exhausted : Returns Read.exhausted post := never fun _ _ => Read.exhausted_not_ok

theorem imp {Q : α → Prop} (h : Returns r post) (hQ : ∀ a, post a → Q a) : Returns r Q :=
  fun c a c' hr => hQ a (h c a c' hr)

theorem withLiterals {allowed : Bool} (h : Returns r post) :
    Returns (Read.withLiterals allowed r) post := by
  intro c a c' hr
  obtain ⟨d, d', _, hr, _⟩ := Read.withLiterals_ok hr
  exact h d a d' hr

theorem single {s : Nat} {es : List Expr} (h : ∀ e ∈ es, (Node.expr e).Regular) :
    Returns (Read.single s es) fun e => (Node.expr e).Regular := by
  unfold Read.single
  split
  · exact .pure (h _ List.mem_cons_self)
  · exact .skip fun _ => .never fun _ _ => Read.fail_not_ok

theorem exprOf {s : Simple} (h : (Node.simple s).Regular) :
    Returns (Read.exprOf s) fun e => (Node.expr e).Regular := by
  unfold Read.exprOf
  split
  · exact .pure (h.pieces _ List.mem_cons_self)
  · exact .never fun _ _ => Read.fail_not_ok

theorem fieldsOfTypes (ns : List Name) :
    Returns (Read.fieldsOfTypes ns) fun fs => ∀ f ∈ fs, (Node.field f).Regular := by
  induction ns with
  | nil => exact .pure (by simp)
  | cons n ns ih =>
    refine .skip fun t => .skip fun u => .bind ih fun fs hfs => .pure ?_
    exact List.forall_mem_cons.2 ⟨.field (.leaf trivial rfl), hfs⟩

theorem group (pending : List Name) (first : Option Nat) (ps : List Param)
    (h : ∀ p ∈ ps, p.Regular) :
    Returns (Read.group pending first ps) fun fs => ∀ f ∈ fs, (Node.field f).Regular := by
  induction ps generalizing pending first with
  | nil => exact fieldsOfTypes pending
  | cons p ps ih =>
    obtain ⟨hp, hps⟩ := List.forall_mem_cons.1 h
    rcases p with ⟨n, span⟩ | ⟨_ | n, type, variadic, span⟩
    · exact ih _ _ hps
    · refine .bind (fieldsOfTypes pending) fun before hbefore => .skip fun t => ?_
      refine .bind (ih [] none hps) fun fs hfs => .pure (List.forall_mem_append.2 ⟨hbefore, ?_⟩)
      exact List.forall_mem_cons.2 ⟨.field hp, hfs⟩
    · exact .skip fun t => .bind (ih [] none hps) fun fs hfs =>
        .pure (List.forall_mem_cons.2 ⟨.field hp, hfs⟩)

end Returns

/-- The type that an operand stands for is part of it, or a name. -/
theorem Node.Regular.literalType {literals : Bool} {e : Expr} {f : Tag → TypeExpr}
    (h : Read.literalType? literals e = some f) (he : (Node.expr e).Regular) (t : Tag) :
    (Node.type (f t)).Regular := by
  have hnamed (pkg : Option String) (n : String) : (Node.type (.named t pkg n)).Regular :=
    .leaf trivial rfl
  have htype {ty : TypeExpr} {u : Tag} (he : (Node.expr (.type u ty)).Regular) :
      (Node.type ty).Regular := he.pieces _ List.mem_cons_self
  unfold Read.literalType? at h
  split at h
  · split at h <;> cases h
    exact hnamed _ _
  · split at h <;> cases h
    exact hnamed _ _
  iterate 4
    cases h
    exact htype he
  · cases h

theorem Node.Regular.guard {s : Simple} {bind : Option Name} {e : Expr}
    (h : Read.guard? s = some (bind, e)) (hs : (Node.simple s).Regular) : (Node.expr e).Regular := by
  unfold Read.guard? at h
  split at h
  · split at h <;> cases h
    exact hs.pieces _ List.mem_cons_self
  · split at h <;> cases h
    exact hs.pieces e.piece (by simp [Node.pieces])
  · cases h

/-- A turn of the loop over binary operators: it stops before an operator that binds looser than asked
for, or takes the one that stands ahead and its right operand. -/
theorem Read.binaryRest_ok {fuel least s : Nat} {x : Expr} {c c' : Cursor} {e : Expr}
    (h : Read.binaryRest (fuel + 1) least s x c = .ok (e, c')) :
    (e = x ∧ c' = c ∧ c.Looser least) ∨
      ∃ p op t right c1 c2 c3, c.ahead = p :: c1.ahead ∧ BinaryOp.ofToken? p.token = some op ∧
        least ≤ op.precedence ∧ Read.binary fuel (op.precedence + 1) c1 = .ok (right, c2) ∧
        c3.ahead = c2.ahead ∧ Read.binaryRest fuel least s (.binary t x op right) c3 = .ok (e, c') := by
  rw [Read.binaryRest] at h
  obtain ⟨next, c1, hnext, h⟩ := bind_ok.1 h
  obtain ⟨hfacing, rfl⟩ := peek_ok.1 hnext
  have hahead : ∀ p ∈ c.ahead.head?, next = some p.token := by
    intro p hp
    rw [← hfacing, hp]
    rfl
  cases hop : next.bind BinaryOp.ofToken? with
  | none =>
    simp only [hop] at h
    obtain ⟨rfl, rfl⟩ := pure_ok.1 h
    refine .inl ⟨rfl, rfl, fun p hp op hop' => ?_⟩
    rw [hahead p hp, Option.bind_some, hop'] at hop
    cases hop
  | some op =>
    simp only [hop] at h
    split at h
    · rename_i hlt
      obtain ⟨rfl, rfl⟩ := pure_ok.1 h
      refine .inl ⟨rfl, rfl, fun p hp op' hop' => ?_⟩
      rw [hahead p hp, Option.bind_some, hop'] at hop
      cases hop
      exact hlt
    · rename_i hle
      obtain ⟨p, c1, htake, h⟩ := bind_ok.1 h
      obtain ⟨right, c2, hright, h⟩ := bind_ok.1 h
      obtain ⟨t, c3, htag, h⟩ := bind_ok.1 h
      obtain ⟨token, rfl, htoken⟩ := Option.bind_eq_some_iff.1 hop
      obtain ⟨hp, rest, hrest, _⟩ := hfacing.of_take htake
      have hc1 : c.ahead = p :: c1.ahead := by
        obtain ⟨ahead, size, reached, literals, nextId⟩ := c
        dsimp only at hrest
        subst hrest
        cases htake
        rfl
      have hc3 : c3.ahead = c2.ahead := by
        cases htag
        rfl
      exact .inr ⟨p, op, t, right, c1, c2, c3, hc1, hp ▸ htoken, Nat.le_of_not_lt hle, hright, hc3, h⟩

/-- All productions with the same budget return trees in which operations group by precedence. -/
structure ReadsGrouped (fuel : Nat) : Prop where
  typeExpr : Returns (Read.typeExpr fuel) fun t => (Node.type t).Regular
  structFields : Returns (Read.structFields fuel) fun fs => ∀ f ∈ fs, (Node.field f).Regular
  interfaceMethods : Returns (Read.interfaceMethods fuel) fun fs => ∀ f ∈ fs, (Node.field f).Regular
  signature : Returns (Read.signature fuel) fun s => (Node.signature s).Regular
  parameters : Returns (Read.parameters fuel) fun fs => ∀ f ∈ fs, (Node.field f).Regular
  params : Returns (Read.params fuel) fun ps => ∀ p ∈ ps, p.Regular
  param : Returns (Read.param fuel) Param.Regular
  block : Returns (Read.block fuel) fun b => (Node.block b).Regular
  stmts : Returns (Read.stmts fuel) fun ss => ∀ s ∈ ss, (Node.stmt s).Regular
  stmt : Returns (Read.stmt fuel) fun s => (Node.stmt s).Regular
  simple : Returns (Read.simple fuel) fun s => (Node.simple s).Regular
  ifElse : Returns (Read.ifElse fuel) fun s => (Node.stmt s).Regular
  loop : Returns (Read.loop fuel) fun s => (Node.stmt s).Regular
  loopHead : Returns (Read.loopHead fuel) fun h => ∀ p ∈ h.pieces, p.Regular
  clauseHead : ∀ init : Option Simple, (∀ s ∈ init, (Node.simple s).Regular) →
    Returns (Read.clauseHead fuel init) fun h => ∀ p ∈ h.pieces, p.Regular
  switch : Returns (Read.switch fuel) fun s => (Node.stmt s).Regular
  switchHead : Returns (Read.switchHead fuel) fun p =>
    (∀ s ∈ p.1, (Node.simple s).Regular) ∧ ∀ s ∈ p.2, (Node.simple s).Regular
  clauses : ∀ types, Returns (Read.clauses fuel types) fun cs => ∀ c ∈ cs, (Node.clause c).Regular
  clause : ∀ types, Returns (Read.clause fuel types) fun c => (Node.clause c).Regular
  select : Returns (Read.select fuel) fun s => (Node.stmt s).Regular
  comms : Returns (Read.comms fuel) fun cs => ∀ c ∈ cs, (Node.comm c).Regular
  comm : Returns (Read.comm fuel) fun c => (Node.comm c).Regular
  exprs : Returns (Read.exprs fuel) fun es => ∀ e ∈ es, (Node.expr e).Regular
  typeExprs : Returns (Read.typeExprs fuel) fun ts => ∀ t ∈ ts, (Node.type t).Regular
  expr : Returns (Read.expr fuel) fun e => (Node.expr e).Regular
  binary : ∀ least c e c', least ≤ 6 → Read.binary fuel least c = .ok (e, c') →
    (Node.expr e).Regular ∧ least ≤ e.level ∧ c'.Looser least
  binaryRest : ∀ least s x c e c', (Node.expr x).Regular → least ≤ x.level →
    c.Looser (x.level + 1) → Read.binaryRest fuel least s x c = .ok (e, c') →
    (Node.expr e).Regular ∧ least ≤ e.level ∧ c'.Looser least
  unary : Returns (Read.unary fuel) fun e => (Node.expr e).Regular ∧ 6 ≤ e.level
  primary : Returns (Read.primary fuel) fun e => (Node.expr e).Regular ∧ e.level = 7
  primaryRest : ∀ s x, (Node.expr x).Regular → x.level = 7 →
    Returns (Read.primaryRest fuel s x) fun e => (Node.expr e).Regular ∧ e.level = 7
  bracket : ∀ x, (Node.expr x).Regular → Returns (Read.bracket fuel x)
    fun build => ∀ t, (Node.expr (build t)).Regular ∧ (build t).level = 7
  arguments : Returns (Read.arguments fuel) fun p => ∀ e ∈ p.1, (Node.expr e).Regular
  composite : ∀ s (type : Option TypeExpr), (∀ t ∈ type, (Node.type t).Regular) →
    Returns (Read.composite fuel s type) fun e => (Node.expr e).Regular ∧ e.level = 7
  elements : Returns (Read.elements fuel) fun es => ∀ e ∈ es, ∀ p ∈ e.pieces, p.Regular
  element : Returns (Read.element fuel) fun e => (Node.expr e).Regular
  operand : Returns (Read.operand fuel) fun e => (Node.expr e).Regular ∧ e.level = 7
  decl : Returns (Read.decl fuel) fun d => (Node.decl d).Regular
  specs : ∀ kind, Returns (Read.specs fuel kind) fun ss => ∀ s ∈ ss, (Node.spec s).Regular
  spec : ∀ kind, Returns (Read.spec fuel kind) fun s => (Node.spec s).Regular

namespace ReadsGrouped

variable {fuel : Nat} (ih : ReadsGrouped fuel)

include ih

theorem typeExpr_succ : Returns (Read.typeExpr (fuel + 1)) fun t => (Node.type t).Regular := by
  rw [Read.typeExpr]
  refine .skip fun s => .skip fun next => ?_
  split
  · refine .skip fun n => .skip fun dot => ?_
    split
    · exact .skip fun sel => .skip fun t => .pure (.leaf trivial rfl)
    · exact .skip fun t => .pure (.leaf trivial rfl)
  · refine .skip fun _ => ?_
    refine .bind ih.typeExpr fun elem h => ?_
    exact .skip fun t => .pure (.only trivial rfl h)
  · refine .skip fun _ => .skip fun slice => ?_
    split
    · refine .bind ih.typeExpr fun elem h => ?_
      exact .skip fun t => .pure (.only trivial rfl h)
    · refine .skip fun dots => ?_
      split
      · refine .skip fun _ => ?_
        refine .bind ih.typeExpr fun elem h => ?_
        exact .skip fun t => .pure (.only trivial rfl h)
      · refine .bind ih.expr.withLiterals fun len hlen => .skip fun _ => ?_
        refine .bind ih.typeExpr fun elem h => ?_
        exact .skip fun t => .pure (.of_pieces trivial (by simp [Node.pieces, hlen, h]))
  · refine .skip fun _ => .skip fun _ => ?_
    refine .bind ih.typeExpr fun key hk => .skip fun _ => ?_
    refine .bind ih.typeExpr fun value hv => ?_
    exact .skip fun t => .pure (.of_pieces trivial (by simp [Node.pieces, hk, hv]))
  iterate 2
    refine .skip fun _ => .skip fun _ => ?_
    refine .bind ih.typeExpr fun elem h => ?_
    exact .skip fun t => .pure (.only trivial rfl h)
  · refine .skip fun _ => ?_
    refine .bind ih.signature fun sig h => ?_
    exact .skip fun t => .pure (.only trivial rfl h)
  · refine .skip fun _ => .skip fun _ => ?_
    refine .bind ih.structFields fun fs h => ?_
    exact .skip fun t => .pure (.of_pieces trivial (by simpa [Node.pieces] using h))
  · refine .skip fun _ => .skip fun _ => ?_
    refine .bind ih.interfaceMethods fun fs h => ?_
    exact .skip fun t => .pure (.of_pieces trivial (by simpa [Node.pieces] using h))
  · refine .skip fun _ => ?_
    refine .bind ih.typeExpr fun inner h => ?_
    exact .skip fun _ => .pure h
  · exact .unexpected

theorem structFields_succ :
    Returns (Read.structFields (fuel + 1)) fun fs => ∀ f ∈ fs, (Node.field f).Regular := by
  rw [Read.structFields]
  refine .skip fun next => ?_
  split
  · exact .skip fun _ => .pure (by simp)
  · refine .skip fun s => .skip fun second => ?_
    extract_lets embedded jp
    have hjp : ∀ ns, Returns (jp ns) fun fs => ∀ f ∈ fs, (Node.field f).Regular := by
      refine fun ns => .bind ih.typeExpr fun type htype => .skip fun after => ?_
      extract_lets label done
      have hdone : Returns (done ()) fun fs => ∀ f ∈ fs, (Node.field f).Regular :=
        .skip fun t => .skip fun _ => .bind ih.structFields fun fs hfs =>
          .pure (List.forall_mem_cons.2 ⟨.field htype, hfs⟩)
      split
      · exact .skip fun _ => hdone
      · exact hdone
    split
    · exact .ret (hjp [])
    · exact .skip hjp

theorem interfaceMethods_succ :
    Returns (Read.interfaceMethods (fuel + 1)) fun fs => ∀ f ∈ fs, (Node.field f).Regular := by
  rw [Read.interfaceMethods]
  refine .skip fun next => ?_
  split
  · exact .skip fun _ => .pure (by simp)
  · refine .skip fun s => .skip fun second => ?_
    extract_lets jp
    have hjp : ∀ ns type, (Node.type type).Regular →
        Returns (jp (ns, type)) fun fs => ∀ f ∈ fs, (Node.field f).Regular :=
      fun ns type h => .skip fun t => .skip fun _ => .bind ih.interfaceMethods fun fs hfs =>
        .pure (List.forall_mem_cons.2 ⟨.field h, hfs⟩)
    split
    · refine .skip fun n => .skip fun _ => ?_
      refine .bind ih.signature fun sig h => ?_
      exact .skip fun t => .ret (hjp [n] _ (.of_pieces trivial (by simpa [Node.pieces] using h)))
    · exact .bind ih.typeExpr fun type h => .ret (hjp [] type h)

theorem signature_succ :
    Returns (Read.signature (fuel + 1)) fun s => (Node.signature s).Regular := by
  rw [Read.signature]
  refine .skip fun s => ?_
  refine .bind ih.parameters fun ps hps => .skip fun next => ?_
  extract_lets jp
  have hjp : ∀ rs : List Field, (∀ f ∈ rs, (Node.field f).Regular) →
      Returns (jp rs) fun s => (Node.signature s).Regular :=
    fun rs hrs => .skip fun t => .pure (.of_pieces trivial (by
      simpa [Node.pieces, or_imp, forall_and] using ⟨hps, hrs⟩))
  split
  · exact .bind ih.parameters hjp
  · split
    · refine .bind ih.typeExpr fun type h => ?_
      exact .skip fun t => .ret (hjp _ (by simpa using Node.Regular.field h))
    · exact .ret (hjp [] (by simp))

theorem parameters_succ :
    Returns (Read.parameters (fuel + 1)) fun fs => ∀ f ∈ fs, (Node.field f).Regular := by
  rw [Read.parameters]
  refine .skip fun _ => ?_
  refine .bind ih.params fun ps hps => ?_
  exact .skip fun _ => .group [] none ps hps

theorem params_succ : Returns (Read.params (fuel + 1)) fun ps => ∀ p ∈ ps, p.Regular := by
  rw [Read.params]
  refine .skip fun done => ?_
  split
  · exact .pure (by simp)
  · refine .bind ih.param fun p hp => .skip fun more => ?_
    split
    · exact .bind ih.params fun ps hps => .pure (List.forall_mem_cons.2 ⟨hp, hps⟩)
    · exact .pure (by simpa using hp)

theorem param_succ : Returns (Read.param (fuel + 1)) Param.Regular := by
  rw [Read.param]
  refine .skip fun s => .skip fun next => ?_
  split
  · refine .skip fun n => .skip fun after => ?_
    split
    iterate 2 exact .skip fun span => .pure trivial
    · refine .skip fun _ => .skip fun sel => .skip fun t => ?_
      exact .skip fun span => .pure (.leaf trivial rfl)
    · refine .skip fun _ => ?_
      refine .bind ih.typeExpr fun type h => ?_
      exact .skip fun span => .pure h
    · refine .bind ih.typeExpr fun type h => ?_
      exact .skip fun span => .pure h
  · refine .skip fun _ => ?_
    refine .bind ih.typeExpr fun type h => ?_
    exact .skip fun span => .pure h
  · refine .bind ih.typeExpr fun type h => ?_
    exact .skip fun span => .pure h

theorem block_succ : Returns (Read.block (fuel + 1)) fun b => (Node.block b).Regular := by
  rw [Read.block]
  refine .skip fun s => .skip fun _ => ?_
  refine .bind ih.stmts.withLiterals fun body h => .skip fun _ => ?_
  exact .skip fun t => .pure (.of_pieces trivial (by simpa [Node.pieces] using h))

theorem stmts_succ : Returns (Read.stmts (fuel + 1)) fun ss => ∀ s ∈ ss, (Node.stmt s).Regular := by
  rw [Read.stmts]
  refine .skip fun next => ?_
  split
  iterate 4 exact .pure (by simp)
  · exact .skip fun _ => ih.stmts
  · refine .bind ih.stmt fun first hfirst => .skip fun after => ?_
    extract_lets jp
    have hjp : Returns (jp ()) fun ss => ∀ s ∈ ss, (Node.stmt s).Regular :=
      .bind ih.stmts fun ss hss => .pure (List.forall_mem_cons.2 ⟨hfirst, hss⟩)
    split
    iterate 4 exact .ret hjp
    · exact .skip fun _ => hjp

theorem stmt_succ : Returns (Read.stmt (fuel + 1)) fun s => (Node.stmt s).Regular := by
  rw [Read.stmt]
  refine .skip fun s => .skip fun next => ?_
  split
  iterate 3 exact .bind ih.decl fun d h => .skip fun t => .pure (.only trivial rfl h)
  iterate 2 exact .skip fun _ => .bind ih.expr fun e h => .skip fun t => .pure (.only trivial rfl h)
  · refine .skip fun _ => .skip fun after => ?_
    extract_lets jp
    have hjp : ∀ es : List Expr, (∀ e ∈ es, (Node.expr e).Regular) →
        Returns (jp es) fun s => (Node.stmt s).Regular :=
      fun es h => .skip fun t => .pure (.of_pieces trivial (by simpa [Node.pieces] using h))
    split
    iterate 3 exact .ret (hjp [] (by simp))
    exact .bind ih.exprs hjp
  · refine .bind ih.block fun b h => ?_
    exact .skip fun t => .pure (.only trivial rfl h)
  · exact ih.ifElse
  · exact ih.loop
  · exact ih.switch
  · exact ih.select
  · split
    · refine .skip fun _ => .skip fun after => ?_
      extract_lets jp
      have hjp : ∀ label, Returns (jp label) fun s => (Node.stmt s).Regular :=
        fun label => .skip fun t => .pure (.of_pieces trivial (by simp [Node.pieces]))
      split
      · split
        · exact .ret (hjp none)
        · exact .skip fun n => .ret (hjp (some n))
      · exact .ret (hjp none)
    · refine .skip fun second => ?_
      split
      · refine .skip fun label => .skip fun _ => ?_
        refine .bind ih.stmt fun inner h => ?_
        exact .skip fun t => .pure (.of_pieces trivial (by simpa [Node.pieces] using h))
      · refine .bind ih.simple fun inner h => ?_
        exact .skip fun t => .pure (.only trivial rfl h)

theorem simple_succ : Returns (Read.simple (fuel + 1)) fun s => (Node.simple s).Regular := by
  rw [Read.simple]
  refine .skip fun s => .skip fun c => ?_
  split
  · refine .skip fun ns => .skip fun _ => ?_
    refine .bind ih.exprs fun vs h => .skip fun t => ?_
    exact .pure (.of_pieces trivial (by simpa [Node.pieces, or_imp, forall_and] using h))
  · refine .bind ih.exprs fun lhs hlhs => .skip fun next => ?_
    split
    iterate 2
      refine .bind (.single hlhs) fun e h => .skip fun _ => ?_
      exact .skip fun t => .pure (.only trivial rfl h)
    · refine .bind (.single hlhs) fun chan hc => .skip fun _ => ?_
      refine .bind ih.expr fun value hv => ?_
      exact .skip fun t => .pure (.of_pieces trivial (by simp [Node.pieces, hc, hv]))
    · exact .skip fun span => .never fun _ _ => Read.fail_not_ok
    · split
      · exact .skip fun _ => .bind ih.exprs fun rhs hrhs => .skip fun t =>
          .pure (.of_pieces trivial (by
            simpa [Node.pieces, or_imp, forall_and] using ⟨hlhs, hrhs⟩))
      · exact .bind (.single hlhs) fun e h => .skip fun t => .pure (.only trivial rfl h)

theorem ifElse_succ : Returns (Read.ifElse (fuel + 1)) fun s => (Node.stmt s).Regular := by
  rw [Read.ifElse]
  refine .skip fun s => .skip fun _ => ?_
  refine .bind (.withLiterals (.skip fun semi => (?_ : Returns _
    fun p : Option Simple × Expr => (∀ s ∈ p.1, (Node.simple s).Regular) ∧ (Node.expr
    p.2).Regular))) ?_
  · split
    · exact .bind ih.expr fun cond h => .pure ⟨by simp, h⟩
    · refine .bind ih.simple fun first hfirst => .skip fun more => ?_
      split
      · exact .bind ih.expr fun cond h => .pure ⟨by simpa using hfirst, h⟩
      · exact .bind (.exprOf hfirst) fun cond h => .pure ⟨by simp, h⟩
  · rintro ⟨init, cond⟩ ⟨hinit, hcond⟩
    refine .bind ih.block fun yes hyes => .skip fun else_ => ?_
    extract_lets jp
    have hjp : ∀ no : Option Stmt, (∀ s ∈ no, (Node.stmt s).Regular) →
        Returns (jp no) fun s => (Node.stmt s).Regular :=
      fun no hno => .skip fun t => .pure (.of_pieces trivial (by
        simpa [Node.pieces, or_imp, forall_and] using ⟨hinit, hcond, hyes, hno⟩))
    split
    · refine .skip fun next => ?_
      split
      · exact .bind ih.ifElse fun no h => .ret (hjp (some no) (by simpa using h))
      · exact .skip fun _ => .bind ih.block fun b h => .skip fun t => .ret (hjp _ (by
          simpa using Node.Regular.of_pieces (n := .stmt (.block t b)) trivial
            (by simpa [Node.pieces] using h)))
      · exact .neverThen fun _ _ => Read.unexpected_not_ok
    · exact .ret (hjp none (by simp))

theorem loop_succ : Returns (Read.loop (fuel + 1)) fun s => (Node.stmt s).Regular := by
  rw [Read.loop]
  refine .skip fun s => .skip fun _ => ?_
  refine .bind ih.loopHead.withLiterals fun head hhead => ?_
  refine .bind ih.block fun body hbody => .skip fun t => ?_
  exact .pure (.of_pieces trivial (List.forall_mem_append.2 ⟨hhead, by simpa using hbody⟩))

theorem loopHead_succ :
    Returns (Read.loopHead (fuel + 1)) fun h => ∀ p ∈ h.pieces, p.Regular := by
  rw [Read.loopHead]
  refine .skip fun forever => ?_
  split
  · exact .pure (by simp [LoopHead.pieces])
  · refine .skip fun bare => ?_
    split
    · exact .bind ih.expr fun e h => .pure (by simpa [LoopHead.pieces] using h)
    · refine .skip fun c => ?_
      split
      · refine .bind ih.expr fun key hkey => .skip fun more => ?_
        extract_lets jp
        have hjp : ∀ value : Option Expr, (∀ e ∈ value, (Node.expr e).Regular) →
            Returns (jp value) fun h => ∀ p ∈ h.pieces, p.Regular :=
          fun value hvalue => .skip fun _ => .skip fun _ => .bind ih.expr fun e h => .pure (by
            simpa [LoopHead.pieces, or_imp, forall_and] using ⟨hkey, hvalue, h⟩)
        split
        · exact .bind ih.expr fun v h => .ret (hjp (some v) (by simpa using h))
        · exact .ret (hjp none (by simp))
      · refine .skip fun semi => ?_
        split
        · exact ih.clauseHead none (by simp)
        · refine .bind ih.simple fun init hinit => .skip fun more => ?_
          split
          · exact ih.clauseHead (some init) (by simpa using hinit)
          · exact .bind (.exprOf hinit) fun e h => .pure (by simpa [LoopHead.pieces] using h)

theorem clauseHead_succ (init : Option Simple) (hinit : ∀ s ∈ init, (Node.simple s).Regular) :
    Returns (Read.clauseHead (fuel + 1) init) fun h => ∀ p ∈ h.pieces, p.Regular := by
  rw [Read.clauseHead]
  refine .skip fun bare => ?_
  extract_lets jp
  have hjp : ∀ cond : Option Expr, (∀ e ∈ cond, (Node.expr e).Regular) →
      Returns (jp cond) fun h => ∀ p ∈ h.pieces, p.Regular := by
    refine fun cond hcond => .skip fun _ => .skip fun done => ?_
    extract_lets last
    have hlast : ∀ post : Option Simple, (∀ s ∈ post, (Node.simple s).Regular) →
        Returns (last post) fun h => ∀ p ∈ h.pieces, p.Regular :=
      fun post hpost => .pure (by
        simpa [LoopHead.pieces, or_imp, forall_and] using ⟨hinit, hcond, hpost⟩)
    split
    · exact .ret (hlast none (by simp))
    · exact .bind ih.simple fun p h => .ret (hlast (some p) (by simpa using h))
  split
  · exact .ret (hjp none (by simp))
  · exact .bind ih.expr fun e h => .ret (hjp (some e) (by simpa using h))

theorem switch_succ : Returns (Read.switch (fuel + 1)) fun s => (Node.stmt s).Regular := by
  rw [Read.switch]
  refine .skip fun s => .skip fun _ => .bind ih.switchHead.withLiterals ?_
  rintro ⟨init, subject⟩ ⟨hinit, hsubject⟩
  refine .skip fun _ => ?_
  refine .bind (ih.clauses _) fun cs hcs => .skip fun _ => ?_
  dsimp only
  split
  · rename_i bind e hguard
    obtain ⟨simple, hsimple, hguard⟩ := Option.bind_eq_some_iff.1 hguard
    have he := Node.Regular.guard hguard (hsubject simple hsimple)
    exact .skip fun t => .pure (.of_pieces trivial (by
      simpa [Node.pieces, or_imp, forall_and] using ⟨hinit, he, hcs⟩))
  · have hstmt (t : Tag) (e : Option Expr) (he : ∀ x ∈ e, (Node.expr x).Regular) :
        (Node.stmt (.switch t init e cs)).Regular := .of_pieces trivial (by
      simpa [Node.pieces, or_imp, forall_and] using ⟨hinit, he, hcs⟩)
    cases subject with
    | none => exact .ret (.skip fun t => .pure (hstmt t none (by simp)))
    | some simple =>
      refine .bind (.exprOf (hsubject simple rfl)) fun e h => ?_
      exact .ret (.skip fun t => .pure (hstmt t (some e) (by simpa using h)))

theorem switchHead_succ : Returns (Read.switchHead (fuel + 1)) fun p =>
    (∀ s ∈ p.1, (Node.simple s).Regular) ∧ ∀ s ∈ p.2, (Node.simple s).Regular := by
  rw [Read.switchHead]
  refine .skip fun bare => ?_
  split
  · exact .pure ⟨by simp, by simp⟩
  · refine .skip fun semi => ?_
    extract_lets jp
    have hjp : ∀ first : Option Simple, (∀ s ∈ first, (Node.simple s).Regular) →
        Returns (jp first) fun p =>
          (∀ s ∈ p.1, (Node.simple s).Regular) ∧ ∀ s ∈ p.2, (Node.simple s).Regular := by
      refine fun first hfirst => .skip fun more => ?_
      split
      · refine .skip fun done => ?_
        split
        · exact .pure ⟨hfirst, by simp⟩
        · exact .bind ih.simple fun p h => .pure ⟨hfirst, by simpa using h⟩
      · exact .pure ⟨by simp, hfirst⟩
    split
    · exact .ret (hjp none (by simp))
    · exact .bind ih.simple fun p h => .ret (hjp (some p) (by simpa using h))

theorem clauses_succ (types : Bool) :
    Returns (Read.clauses (fuel + 1) types) fun cs => ∀ c ∈ cs, (Node.clause c).Regular := by
  rw [Read.clauses]
  refine .skip fun next => ?_
  split
  · refine .bind (ih.clause types) fun c hc => ?_
    refine .bind (ih.clauses types) fun cs hcs => ?_
    exact .pure (List.forall_mem_cons.2 ⟨hc, hcs⟩)
  · exact .pure (by simp)

theorem clause_succ (types : Bool) :
    Returns (Read.clause (fuel + 1) types) fun c => (Node.clause c).Regular := by
  rw [Read.clause]
  refine .skip fun s => .skip fun isDefault => ?_
  extract_lets jp
  have hjp : ∀ cases : Cases, (∀ p ∈ cases.pieces, p.Regular) →
      Returns (jp cases) fun c => (Node.clause c).Regular :=
    fun cases hcases => .skip fun _ => .bind ih.stmts fun body hbody => .skip fun t =>
      .pure (.of_pieces trivial (List.forall_mem_append.2 ⟨hcases, by simpa using hbody⟩))
  split
  · exact .ret (hjp .default (by simp [Cases.pieces]))
  · refine .skip fun _ => ?_
    split
    · exact .bind ih.typeExprs fun ts h =>
        .ret (hjp (.types ts) (by simpa [Cases.pieces] using h))
    · exact .bind ih.exprs fun es h => .ret (hjp (.exprs es) (by simpa [Cases.pieces] using h))

theorem select_succ : Returns (Read.select (fuel + 1)) fun s => (Node.stmt s).Regular := by
  rw [Read.select]
  refine .skip fun s => .skip fun _ => .skip fun _ => ?_
  refine .bind ih.comms fun cs h => .skip fun _ => ?_
  exact .skip fun t => .pure (.of_pieces trivial (by simpa [Node.pieces] using h))

theorem comms_succ :
    Returns (Read.comms (fuel + 1)) fun cs => ∀ c ∈ cs, (Node.comm c).Regular := by
  rw [Read.comms]
  refine .skip fun next => ?_
  split
  · refine .bind ih.comm fun c hc => ?_
    refine .bind ih.comms fun cs hcs => ?_
    exact .pure (List.forall_mem_cons.2 ⟨hc, hcs⟩)
  · exact .pure (by simp)

theorem comm_succ : Returns (Read.comm (fuel + 1)) fun c => (Node.comm c).Regular := by
  rw [Read.comm]
  refine .skip fun s => .skip fun isDefault => ?_
  extract_lets jp
  have hjp : ∀ guard : Option Simple, (∀ s ∈ guard, (Node.simple s).Regular) →
      Returns (jp guard) fun c => (Node.comm c).Regular :=
    fun guard hguard => .skip fun _ => .bind ih.stmts fun body hbody => .skip fun t =>
      .pure (.of_pieces trivial (by
        simpa [Node.pieces, or_imp, forall_and] using ⟨hguard, hbody⟩))
  split
  · exact .ret (hjp none (by simp))
  · refine .skip fun _ => ?_
    refine .bind ih.simple fun p h => ?_
    exact .ret (hjp (some p) (by simpa using h))

theorem exprs_succ : Returns (Read.exprs (fuel + 1)) fun es => ∀ e ∈ es, (Node.expr e).Regular := by
  rw [Read.exprs]
  refine .bind ih.expr fun e he => .skip fun more => ?_
  split
  · exact .bind ih.exprs fun es hes => .pure (List.forall_mem_cons.2 ⟨he, hes⟩)
  · exact .pure (by simpa using he)

theorem typeExprs_succ :
    Returns (Read.typeExprs (fuel + 1)) fun ts => ∀ t ∈ ts, (Node.type t).Regular := by
  rw [Read.typeExprs]
  refine .bind ih.typeExpr fun t ht => .skip fun more => ?_
  split
  · exact .bind ih.typeExprs fun ts hts => .pure (List.forall_mem_cons.2 ⟨ht, hts⟩)
  · exact .pure (by simpa using ht)

theorem expr_succ : Returns (Read.expr (fuel + 1)) fun e => (Node.expr e).Regular := by
  intro c e c' hr
  rw [Read.expr] at hr
  exact (ih.binary 1 c e c' (by omega) hr).1

theorem binary_succ {least : Nat} {c c' : Cursor} {e : Expr} (hleast : least ≤ 6)
    (hr : Read.binary (fuel + 1) least c = .ok (e, c')) :
    (Node.expr e).Regular ∧ least ≤ e.level ∧ c'.Looser least := by
  rw [Read.binary] at hr
  obtain ⟨s, c1, _, hr⟩ := Read.bind_ok.1 hr
  obtain ⟨x, c2, hx, hr⟩ := Read.bind_ok.1 hr
  obtain ⟨hregular, hlevel⟩ := ih.unary c1 x c2 hx
  refine ih.binaryRest least s x c2 e c' hregular (by omega) (fun p _ op _ => ?_) hr
  have := op.precedence_le
  omega

theorem binaryRest_succ {least s : Nat} {x : Expr} {c c' : Cursor} {e : Expr}
    (hx : (Node.expr x).Regular) (hlevel : least ≤ x.level) (hlooser : c.Looser (x.level + 1))
    (hr : Read.binaryRest (fuel + 1) least s x c = .ok (e, c')) :
    (Node.expr e).Regular ∧ least ≤ e.level ∧ c'.Looser least := by
  rcases Read.binaryRest_ok hr with ⟨rfl, rfl, hstop⟩ |
    ⟨p, op, t, right, c1, c2, c3, hahead, hop, hle, hright, hc3, hr⟩
  · exact ⟨hx, hlevel, hstop⟩
  · have hprecedence := op.precedence_le
    obtain ⟨hrregular, hrlevel, hbehind⟩ := ih.binary _ c1 right c2 (by omega) hright
    -- the operator that stood ahead does not bind tighter than what stands on its left
    have hleft : op.precedence ≤ x.level :=
      Nat.le_of_lt_succ (hlooser p (by rw [hahead]; rfl) op hop)
    have hnode : (Node.expr (.binary t x op right)).Regular :=
      .of_pieces (.binary hleft hrlevel) (by simp [Node.pieces, hx, hrregular])
    refine ih.binaryRest least s _ c3 e c' hnode hle ?_ hr
    rwa [Cursor.Looser, hc3]

theorem unary_succ :
    Returns (Read.unary (fuel + 1)) fun e => (Node.expr e).Regular ∧ 6 ≤ e.level := by
  rw [Read.unary]
  refine .skip fun s => .skip fun next => ?_
  split
  · exact ih.primary.imp fun e h => ⟨h.1, by omega⟩
  · refine .skip fun _ => ?_
    refine .bind ih.unary fun e h => .skip fun t => ?_
    exact .pure ⟨.of_pieces (.unary h.2) (by simpa [Node.pieces] using h.1), Nat.le_refl 6⟩

theorem primary_succ :
    Returns (Read.primary (fuel + 1)) fun e => (Node.expr e).Regular ∧ e.level = 7 := by
  rw [Read.primary]
  exact .skip fun s => .bind ih.operand fun x hx => ih.primaryRest s x hx.1 hx.2

theorem primaryRest_succ (s : Nat) (x : Expr) (hx : (Node.expr x).Regular) (hlevel : x.level = 7) :
    Returns (Read.primaryRest (fuel + 1) s x) fun e => (Node.expr e).Regular ∧ e.level = 7 := by
  rw [Read.primaryRest]
  refine .skip fun next => ?_
  split
  · refine .skip fun _ => .skip fun isAssert => ?_
    split
    · refine .skip fun isSwitch => ?_
      extract_lets jp
      have hjp : ∀ type : Option TypeExpr, (∀ t ∈ type, (Node.type t).Regular) →
          Returns (jp type) fun e => (Node.expr e).Regular ∧ e.level = 7 :=
        fun type htype => .skip fun _ => .skip fun t => ih.primaryRest s _
          (.of_pieces trivial (by simpa [Node.pieces, or_imp, forall_and] using ⟨hx, htype⟩)) rfl
      split
      · exact .ret (hjp none (by simp))
      · exact .bind ih.typeExpr fun t h => .ret (hjp (some t) (by simpa using h))
    · refine .skip fun sel => ?_
      exact .skip fun t => ih.primaryRest s _ (.of_pieces trivial
        (by simpa [Node.pieces] using hx)) rfl
  · refine .skip fun _ => ?_
    refine .bind (ih.bracket x hx).withLiterals fun build hbuild => ?_
    exact .skip fun _ => .skip fun t => ih.primaryRest s _ (hbuild t).1 (hbuild t).2
  · refine .skip fun _ => .bind ih.arguments.withLiterals ?_
    rintro ⟨args, spread⟩ hargs
    refine .skip fun _ => ?_
    exact .skip fun t => ih.primaryRest s _ (.of_pieces trivial
      (by simpa [Node.pieces] using ⟨hx, hargs⟩)) rfl
  · refine .skip fun c => ?_
    split
    · exact .pure ⟨hx, hlevel⟩
    · rename_i type htype
      exact .skip fun t => .bind (ih.composite s (some (type t)) (by
        simpa using hx.literalType htype t)) fun e he => ih.primaryRest s e he.1 he.2
  · exact .pure ⟨hx, hlevel⟩

theorem bracket_succ (x : Expr) (hx : (Node.expr x).Regular) : Returns (Read.bracket (fuel + 1) x)
    fun build => ∀ t, (Node.expr (build t)).Regular ∧ (build t).level = 7 := by
  have hperhaps (wanted : Bool) : Returns (Read.perhaps wanted (Read.expr fuel))
      fun e => ∀ y ∈ e, (Node.expr y).Regular := by
    cases wanted with
    | false => exact .pure (by simp)
    | true =>
      rw [← bind_pure (Read.perhaps true (Read.expr fuel)), Read.perhaps_bind]
      exact .bind ih.expr fun e he => .pure (by simpa using he)
  rw [Read.bracket_eq, Read.bracketBy]
  refine .skip fun open_ => .bind (hperhaps _) fun lo hlo => .skip fun slices => ?_
  split
  · exact .skip fun next => .bind (hperhaps _) fun hi hhi => .skip fun full =>
      .bind (hperhaps _) fun max hmax => .pure fun t => ⟨.of_pieces trivial (by
        simpa [Node.pieces, or_imp, forall_and] using ⟨hx, hlo, hhi, hmax⟩), rfl⟩
  · cases lo with
    | none => exact .unexpected
    | some i => exact .pure fun t => ⟨.of_pieces trivial (by
        simpa [Node.pieces] using ⟨hx, hlo i rfl⟩), rfl⟩

theorem arguments_succ :
    Returns (Read.arguments (fuel + 1)) fun p => ∀ e ∈ p.1, (Node.expr e).Regular := by
  rw [Read.arguments]
  refine .skip fun done => ?_
  split
  · exact .pure (by simp)
  · refine .bind ih.expr fun e he => .skip fun spread => .skip fun more => ?_
    split
    · refine .bind ih.arguments ?_
      rintro ⟨es, further⟩ hes
      exact .pure (List.forall_mem_cons.2 ⟨he, hes⟩)
    · exact .pure (by simpa using he)

theorem composite_succ (s : Nat) (type : Option TypeExpr)
    (htype : ∀ t ∈ type, (Node.type t).Regular) :
    Returns (Read.composite (fuel + 1) s type) fun e => (Node.expr e).Regular ∧ e.level = 7 := by
  rw [Read.composite]
  refine .skip fun _ => ?_
  refine .bind ih.elements.withLiterals fun elems helems => .skip fun _ => ?_
  refine .skip fun t => .pure ⟨.of_pieces trivial (List.forall_mem_append.2 ⟨?_, ?_⟩), rfl⟩
  · simpa using htype
  · exact fun p hp => by
      obtain ⟨e, he, hp⟩ := List.mem_flatMap.1 hp
      exact helems e he p hp

theorem elements_succ :
    Returns (Read.elements (fuel + 1)) fun es => ∀ e ∈ es, ∀ p ∈ e.pieces, p.Regular := by
  rw [Read.elements]
  refine .skip fun done => ?_
  split
  · exact .pure (by simp)
  · refine .bind ih.element fun first hfirst => .skip fun keyed => ?_
    extract_lets jp
    have hjp : ∀ elem : Element, (∀ p ∈ elem.pieces, p.Regular) →
        Returns (jp elem) fun es => ∀ e ∈ es, ∀ p ∈ e.pieces, p.Regular := by
      refine fun elem helem => .skip fun more => ?_
      split
      · exact .bind ih.elements fun es hes => .pure (List.forall_mem_cons.2 ⟨helem, hes⟩)
      · exact .pure (List.forall_mem_cons.2 ⟨helem, by simp⟩)
    split
    · refine .bind ih.element fun value hvalue => ?_
      exact .ret (hjp ⟨some first, value⟩ (by simpa [Element.pieces] using ⟨hfirst, hvalue⟩))
    · exact .ret (hjp ⟨none, first⟩ (by simpa [Element.pieces] using hfirst))

theorem element_succ : Returns (Read.element (fuel + 1)) fun e => (Node.expr e).Regular := by
  rw [Read.element]
  refine .skip fun bare => ?_
  split
  · exact .skip fun s => (ih.composite s none (by simp)).imp fun e h => h.1
  · exact ih.expr

theorem operand_succ :
    Returns (Read.operand (fuel + 1)) fun e => (Node.expr e).Regular ∧ e.level = 7 := by
  have hliteral (s : Nat) (kind : LitKind) (text : String) :
      Returns (Read.operand.literal s kind text) fun e => (Node.expr e).Regular ∧ e.level = 7 :=
    .skip fun _ => .skip fun t => .pure ⟨.leaf trivial rfl, rfl⟩
  rw [Read.operand]
  refine .skip fun s => .skip fun next => ?_
  split
  · exact .skip fun _ => .skip fun t => .pure ⟨.leaf trivial rfl, rfl⟩
  iterate 6 exact hliteral s _ _
  · refine .skip fun _ => ?_
    refine .bind ih.expr.withLiterals fun inner h => .skip fun _ => ?_
    exact .skip fun t => .pure ⟨.of_pieces trivial (by simpa [Node.pieces] using h), rfl⟩
  · refine .skip fun _ => ?_
    refine .bind ih.signature fun sig hsig => .skip fun bodied => ?_
    split
    · refine .bind ih.block.withLiterals fun body hbody => ?_
      exact .skip fun t => .pure ⟨.of_pieces trivial (by simp [Node.pieces, hsig, hbody]), rfl⟩
    · refine .skip fun t => .skip fun u => .pure ⟨.of_pieces trivial ?_, rfl⟩
      simpa [Node.pieces] using Node.Regular.of_pieces (n := .type (.func t sig)) trivial
        (by simpa [Node.pieces] using hsig)
  iterate 5
    refine .bind ih.typeExpr fun type h => ?_
    exact .skip fun t => .pure ⟨.of_pieces trivial (by simpa [Node.pieces] using h), rfl⟩
  · exact .unexpected

theorem decl_succ : Returns (Read.decl (fuel + 1)) fun d => (Node.decl d).Regular := by
  rw [Read.decl]
  refine .skip fun s => .skip fun p => .skip fun grouped => ?_
  split
  · refine .bind (ih.specs _) fun ss h => .skip fun _ => ?_
    exact .skip fun t => .pure (.of_pieces trivial (by simpa [Node.pieces] using h))
  · refine .bind (ih.spec _) fun one h => ?_
    exact .skip fun t => .pure (.of_pieces trivial (by simpa [Node.pieces] using h))

theorem specs_succ (kind : DeclKind) :
    Returns (Read.specs (fuel + 1) kind) fun ss => ∀ s ∈ ss, (Node.spec s).Regular := by
  rw [Read.specs]
  refine .skip fun next => ?_
  split
  · exact .pure (by simp)
  · refine .bind (ih.spec kind) fun one h => .skip fun _ => ?_
    refine .bind (ih.specs kind) fun ss hss => ?_
    exact .pure (List.forall_mem_cons.2 ⟨h, hss⟩)

theorem spec_succ (kind : DeclKind) :
    Returns (Read.spec (fuel + 1) kind) fun s => (Node.spec s).Regular := by
  rw [Read.spec]
  refine .skip fun s => ?_
  split
  · refine .skip fun next => ?_
    extract_lets jp
    have hjp : ∀ n : Option Name, Returns (jp n) fun s => (Node.spec s).Regular := by
      refine fun n => .skip fun after => ?_
      split
      · exact .skip fun _ => .skip fun t => .pure (.of_pieces trivial (by simp [Node.pieces]))
      · exact .unexpected
    split
    · exact .skip fun n => .ret (hjp (some n))
    · exact .skip fun p => .skip fun t => .ret (hjp _)
    · exact .ret (hjp none)
  · refine .skip fun n => .skip fun isAlias => ?_
    refine .bind ih.typeExpr fun type h => ?_
    exact .skip fun t => .pure (.of_pieces trivial (by simpa [Node.pieces] using h))
  all_goals
    refine .skip fun ns => .skip fun next => ?_
    extract_lets jp
    have hjp : ∀ type : Option TypeExpr, (∀ t ∈ type, (Node.type t).Regular) →
        Returns (jp type) fun s => (Node.spec s).Regular := by
      refine fun type htype => .skip fun more => ?_
      extract_lets last
      have hlast : ∀ vs : List Expr, (∀ e ∈ vs, (Node.expr e).Regular) →
          Returns (last vs) fun s => (Node.spec s).Regular :=
        fun vs hvs => .skip fun t => .pure (.of_pieces trivial (by
          simpa [Node.pieces, or_imp, forall_and] using ⟨htype, hvs⟩))
      split
      · exact .bind ih.exprs hlast
      · exact .ret (hlast [] (by simp))
    split
    iterate 4 exact .ret (hjp none (by simp))
    exact .bind ih.typeExpr fun type h => .ret (hjp (some type) (by simpa using h))

end ReadsGrouped

theorem readsGrouped (fuel : Nat) : ReadsGrouped fuel := by
  induction fuel with
  | zero =>
    constructor <;> intros <;> simp only [
      Read.typeExpr, Read.structFields, Read.interfaceMethods, Read.signature, Read.parameters,
      Read.params, Read.param, Read.block, Read.stmts, Read.stmt, Read.simple, Read.ifElse,
      Read.loop, Read.loopHead, Read.clauseHead, Read.switch, Read.switchHead, Read.clauses,
      Read.clause, Read.select, Read.comms, Read.comm, Read.exprs, Read.typeExprs, Read.expr,
      Read.binary, Read.binaryRest, Read.unary, Read.primary, Read.primaryRest, Read.bracket,
      Read.arguments, Read.composite, Read.elements, Read.element, Read.operand, Read.decl,
      Read.specs, Read.spec] at * <;>
      first
        | exact .exhausted
        | exact absurd ‹_› Read.exhausted_not_ok
  | succ fuel ih =>
    exact {
      typeExpr := ih.typeExpr_succ
      structFields := ih.structFields_succ
      interfaceMethods := ih.interfaceMethods_succ
      signature := ih.signature_succ
      parameters := ih.parameters_succ
      params := ih.params_succ
      param := ih.param_succ
      block := ih.block_succ
      stmts := ih.stmts_succ
      stmt := ih.stmt_succ
      simple := ih.simple_succ
      ifElse := ih.ifElse_succ
      loop := ih.loop_succ
      loopHead := ih.loopHead_succ
      clauseHead := ih.clauseHead_succ
      switch := ih.switch_succ
      switchHead := ih.switchHead_succ
      clauses := ih.clauses_succ
      clause := ih.clause_succ
      select := ih.select_succ
      comms := ih.comms_succ
      comm := ih.comm_succ
      exprs := ih.exprs_succ
      typeExprs := ih.typeExprs_succ
      expr := ih.expr_succ
      binary := fun _ _ _ _ => ih.binary_succ
      binaryRest := fun _ _ _ _ _ _ => ih.binaryRest_succ
      unary := ih.unary_succ
      primary := ih.primary_succ
      primaryRest := ih.primaryRest_succ
      bracket := ih.bracket_succ
      arguments := ih.arguments_succ
      composite := ih.composite_succ
      elements := ih.elements_succ
      element := ih.element_succ
      operand := ih.operand_succ
      decl := ih.decl_succ
      specs := ih.specs_succ
      spec := ih.spec_succ }

end FuncLift
