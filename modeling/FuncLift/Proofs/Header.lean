import FuncLift.Proofs.Enclosed

/-!
# Headers of control statements

The header of a control statement is what stands between its keyword and the brace that opens its
body. An operand of a header is exposed if it stands outside of all brackets. No composite literal
with a bare name for its type is exposed: its brace would open the body. So every brace in front of
the body belongs to a part of the header.
-/
namespace FuncLift

namespace Expr

/-- An expression and the operands in it that stand outside of all brackets. -/
def exposed : Expr → List Expr
  | .selector t e n => .selector t e n :: e.exposed
  | .index t e i => .index t e i :: e.exposed
  | .slice t e lo hi max => .slice t e lo hi max :: e.exposed
  | .assert t e ty => .assert t e ty :: e.exposed
  | .call t e args spread => .call t e args spread :: e.exposed
  | .unary t op e => .unary t op e :: e.exposed
  | .binary t l op r => .binary t l op r :: (l.exposed ++ r.exposed)
  | e => [e]

/-- A composite literal whose type is a name, perhaps one of a package. -/
def isNamedLiteral : Expr → Bool
  | .composite _ (some (.named _ _ _)) _ => true
  | _ => false

/-- No literal with a name for its type is exposed. -/
def Clear (e : Expr) : Prop := ∀ x ∈ e.exposed, x.isNamedLiteral = false

end Expr

def Simple.exprs : Simple → List Expr
  | .expr _ e | .step _ e _ => [e]
  | .send _ c v => [c, v]
  | .assign _ l _ r => l ++ r
  | .define _ _ vs => vs

def Simple.Clear (s : Simple) : Prop := ∀ e ∈ s.exprs, e.Clear

/-- The expressions that a piece is or has as a simple statement. -/
def Piece.exprs : Piece → List Expr
  | .child (.expr e) => [e]
  | .child (.simple s) => s.exprs
  | _ => []

namespace Piece

def exprsAll (ps : List Piece) : List Expr := ps.flatMap exprs

@[simp] theorem exprsAll_append (ps qs : List Piece) :
    exprsAll (ps ++ qs) = exprsAll ps ++ exprsAll qs := List.flatMap_append

@[simp] theorem exprsAll_simples (ss : List Simple) :
    exprsAll (ss.map Simple.piece) = ss.flatMap Simple.exprs := by
  rw [exprsAll, List.flatMap_map]
  rfl

@[simp] theorem exprsAll_exprs (es : List Expr) : exprsAll (es.map Expr.piece) = es := by
  rw [exprsAll, List.flatMap_map]
  exact List.flatMap_singleton' es

@[simp] theorem exprsAll_expr (e : Expr) : exprsAll [e.piece] = [e] := rfl

@[simp] theorem exprsAll_names (ns : List Name) : exprsAll (ns.map Name.piece) = [] := by
  rw [exprsAll, List.flatMap_map]
  exact List.flatMap_eq_nil_iff.2 fun _ _ => rfl

end Piece

theorem Simple.clear_toList {s : Option Simple} (h : ∀ x ∈ s, x.Clear) :
    ∀ e ∈ s.toList.flatMap Simple.exprs, e.Clear := by
  cases s with
  | none => simp
  | some x => simpa [Simple.Clear] using h x rfl

namespace Stmt

def isControl : Stmt → Bool
  | .ifElse .. | .loop .. | .switch .. | .typeSwitch .. => true
  | _ => false

/-- What stands in a control statement in front of its body. -/
def fore : Stmt → List Piece
  | .ifElse _ init cond _ _ => init.toList.map Simple.piece ++ [cond.piece]
  | .loop _ h _ => h.pieces
  | .switch _ init subject _ => init.toList.map Simple.piece ++ subject.toList.map Expr.piece
  | .typeSwitch _ init bind guard _ =>
    init.toList.map Simple.piece ++ (bind.toList.map Name.piece ++ [guard.piece])
  | _ => []

/-- The body of a control statement: a block, or the clauses of a switch. -/
def body : Stmt → List Piece
  | .ifElse _ _ _ yes _ => [yes.piece]
  | .loop _ _ b => [b.piece]
  | .switch _ _ _ cs | .typeSwitch _ _ _ _ cs => cs.map Clause.piece
  | _ => []

def header (s : Stmt) : List Expr := Piece.exprsAll s.fore

end Stmt

structure Span.Holds (s : Span) (q : Placed) : Prop where
  start : s.start ≤ q.span.start
  stop : q.span.stop ≤ s.stop

def Placed.Opens (q : Placed) : Prop := q.token = .punct .lBrace

/-- Composite literals, function literals and types, the only parts of an expression that braces
belong to. -/
def Node.isBraced : Node → Bool
  | .expr (.composite ..) | .expr (.funcLit ..) | .type _ => true
  | _ => false

section Told

variable (T : List Placed)

/-- Braces in a stretch of the text stand in children among pieces. -/
def Accounts (ps : List Piece) (start stop : Nat) : Prop :=
  ∀ q ∈ T, q.Opens → start ≤ q.span.start → q.span.start < stop →
    ∃ n, .child n ∈ ps ∧ n.span.Holds q

/-- A brace stands behind pieces, and the braces in front of it stand in children among them. -/
structure Fronts (lo : Nat) (ps : List Piece) (p : Placed) : Prop where
  mem : p ∈ T
  opens : p.Opens
  start : lo ≤ p.span.start
  fore : ∀ x ∈ ps, x.span.stop ≤ p.span.start
  accounts : Accounts T ps lo p.span.start

/-- A brace stands behind the header of a statement, at the front of the body, and in front of it are
only those that belong to the header. -/
structure Stmt.Opened (s : Stmt) (p : Placed) : Prop extends Fronts T s.span.start s.fore p where
  body : ∀ x ∈ s.body, p.span.start ≤ x.span.start
  block : ∀ b, .child (.block b) ∈ s.body → b.tag.span.start = p.span.start

/-- The condition that the tokens put on a node. -/
def Node.Told : Node → Prop
  | .expr e => (Node.expr e).isBraced = true ∨
      Accounts T (Node.expr e).pieces e.span.start e.span.stop
  | .simple s => Accounts T (Node.simple s).pieces s.span.start s.span.stop
  | .stmt s => s.isControl = true → (∀ e ∈ s.header, e.Clear) ∧ ∃ p, s.Opened T p
  | _ => True

end Told

/-- A condition holds of a node and of all nodes below. Where they stand does not matter. -/
abbrev Throughout (Q : Node → Prop) (n : Node) : Prop := Nested (fun _ => ⟨0, 0⟩) Q n

namespace Throughout

variable {Q : Node → Prop} {n : Node}

theorem of (hn : Q n) (h : ∀ c, .child c ∈ n.pieces → Throughout Q c) : Throughout Q n := by
  have hrow (ps : List Piece) (hps : ∀ c, .child c ∈ ps → Throughout Q c) :
      Row (fun _ => ⟨0, 0⟩) Q 0 ps 0 := by
    induction ps with
    | nil => exact .nil (Nat.le_refl _)
    | cons p ps ih =>
      have hrest := ih fun c hc => hps c (List.mem_cons_of_mem _ hc)
      cases p with
      | name m => exact .name (Nat.le_refl _) (Nat.le_refl _) hrest
      | child c => exact .child (Nat.le_refl _) (hps c List.mem_cons_self) hrest
  exact Nested.mk hn (hrow _ h)

theorem child (h : Throughout Q n) {c : Node} (hc : .child c ∈ n.pieces) : Throughout Q c :=
  (h.row.of_mem hc).2.2 c rfl

end Throughout

/-- An operand, a simple statement or a type: what the parts of a header are. -/
def Node.isOperand : Node → Bool
  | .expr _ | .simple _ | .type _ => true
  | _ => false

theorem Node.isOperand_child {n c : Node} (hn : n.isOperand = true) (hbraced : n.isBraced = false)
    (hc : .child c ∈ n.pieces) : c.isOperand = true := by
  rcases n with d | s | f | s | f | b | s | s | e | t | x | x | x | g
  case simple =>
    cases s <;> simp [pieces] at hc
    all_goals grind [isOperand]
  case expr =>
    cases e <;> simp [pieces, isBraced] at hc hbraced
    all_goals grind [isOperand]
  case type => cases hbraced
  all_goals cases hn

theorem Stmt.mem_fore {s : Stmt} {n : Node} (h : .child n ∈ s.fore) :
    n.isOperand = true ∧ .child n ∈ (Node.stmt s).pieces := by
  cases s with
  | ifElse t init cond yes no =>
    simp [fore, Node.pieces] at h ⊢
    grind [Node.isOperand]
  | loop t head b =>
    cases head <;> simp [fore, LoopHead.pieces, Node.pieces] at h ⊢ <;> grind [Node.isOperand]
  | switch t init subject cs =>
    simp [fore, Node.pieces] at h ⊢
    grind [Node.isOperand]
  | typeSwitch t init bind guard cs =>
    simp [fore, Node.pieces] at h ⊢
    grind [Node.isOperand]
  | _ => simp [fore] at h

section Braced

variable {T : List Placed} {q : Placed}

theorem Node.Told.accounts {n : Node} (h : n.Told T) (hn : n.isOperand = true)
    (hbraced : n.isBraced = false) : Accounts T n.pieces n.span.start n.span.stop := by
  rcases n with d | s | f | s | f | b | s | s | e | t | x | x | x | g
  case simple => exact h
  case expr => exact h.resolve_left (by simp [hbraced])
  case type => cases hbraced
  all_goals cases hn

mutual

theorem Throughout.braced (hq : q ∈ T) (hopens : q.Opens) (hne : q.span.start < q.span.stop) :
    ∀ {n : Node}, Throughout (Node.Told T) n → n.isOperand = true → n.span.Holds q →
      ∃ m, n.Holds m ∧ m.isBraced = true ∧ m.span.Holds q
  | n, .mk htold hrow, hn, hholds => by
    cases hbraced : n.isBraced with
    | true => exact ⟨n, .self n, hbraced, hholds⟩
    | false =>
      obtain ⟨c, hc, hin⟩ := htold.accounts hn hbraced q hq hopens hholds.start
        (Nat.lt_of_lt_of_le hne hholds.stop)
      obtain ⟨m, hm, hmbraced, hmholds⟩ := Row.braced hq hopens hne hrow c hc
        (Node.isOperand_child hn hbraced hc) hin
      exact ⟨m, .step (Node.mem_children.2 hc) hm, hmbraced, hmholds⟩

theorem Row.braced (hq : q ∈ T) (hopens : q.Opens) (hne : q.span.start < q.span.stop) :
    ∀ {lo hi : Nat} {ps : List Piece}, Row (fun _ => ⟨0, 0⟩) (Node.Told T) lo ps hi →
      ∀ c, .child c ∈ ps → c.isOperand = true → c.span.Holds q →
        ∃ m, c.Holds m ∧ m.isBraced = true ∧ m.span.Holds q
  | _, _, _, .nil _, c, hc, _, _ => by cases hc
  | _, _, _, .name _ _ hrest, c, hc, hn, hin => by
    rcases List.mem_cons.1 hc with hc | hc
    · cases hc
    · exact Row.braced hq hopens hne hrest c hc hn hin
  | _, _, _, .child _ hchild hrest, c, hc, hn, hin => by
    rcases List.mem_cons.1 hc with hc | hc
    · cases hc
      exact Throughout.braced hq hopens hne hchild hn hin
    · exact Row.braced hq hopens hne hrest c hc hn hin

end

end Braced

end FuncLift
