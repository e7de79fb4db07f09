import FuncLift.Tree

/-!
# Blanks around operators

Whether a binary operator stands between blanks depends on the operators around it: in a mixture the
tighter ones lose their blanks, and deep inside other expressions most do. Some pairs of a binary
and a unary operator must keep apart to be read back.
-/
namespace FuncLift

/-- What a chain of binary operators holds: one of precedence 4, one of precedence 5, and the
largest precedence at which blanks are needed for reading. -/
structure Mixture where
  four : Bool
  five : Bool
  needed : Nat
deriving DecidableEq, Repr

namespace Mixture

def join (a b : Mixture) : Mixture := ⟨a.four || b.four, a.five || b.five, max a.needed b.needed⟩

/-- The precedence up to which the operator must stand between blanks before a unary one. -/
def clash (op : BinaryOp) (u : UnaryOp) (needed : Nat) : Nat :=
  match op, u with
  | .div, .deref | .and, .addr | .and, .xor => 5
  | .add, .add | .sub, .sub => max needed 4
  | _, _ => needed

end Mixture

namespace Expr

/-- A binary expression belongs to the chain of its parent on the left if it binds at least as
tightly, on the right if it binds tighter. -/
def mixture : Expr → Mixture
  | .binary _ left op right =>
    let prec := op.precedence
    let own : Mixture := ⟨prec == 4, prec == 5, 0⟩
    let own := match left with
      | .binary _ _ l _ => if l.precedence ≥ prec then own.join (mixture left) else own
      | _ => own
    match right with
    | .binary _ _ r _ => if r.precedence > prec then own.join (mixture right) else own
    | .unary _ u _ => { own with needed := Mixture.clash op u own.needed }
    | _ => own
  | _ => ⟨false, false, 0⟩

/-- Operators that bind looser than the cutoff stand between blanks. -/
def cutoff (e : Expr) (depth : Nat) : Nat :=
  let m := e.mixture
  if m.needed > 0 then m.needed + 1
  else if depth = 1 then (if m.four && m.five then 5 else 6)
  else 4

/-- No step deeper for an operand that continues the chain of its operator. -/
def chainDepth (e : Expr) (prec : Nat) : Nat :=
  match e with
  | .binary _ _ op _ => if op.precedence = prec then 0 else 1
  | _ => 1

def isBinary : Expr → Bool
  | .binary .. => true
  | _ => false

def isParen : Expr → Bool
  | .paren .. => true
  | _ => false

mutual

/-- A literal of a named type stands outside of all parentheses. In a header its brace would be
taken for the body. -/
def hasBareLiteral : Expr → Bool
  | .composite _ (some (.named ..)) _ => true
  | .selector _ e _ | .assert _ e _ | .unary _ _ e => hasBareLiteral e
  | .index _ e i => hasBareLiteral e || hasBareLiteral i
  | .slice _ e lo hi max =>
    hasBareLiteral e || hasBareLiteralOption lo || hasBareLiteralOption hi ||
      hasBareLiteralOption max
  | .call _ callee args _ => hasBareLiteral callee || hasBareLiteralList args
  | .binary _ l _ r => hasBareLiteral l || hasBareLiteral r
  | _ => false

def hasBareLiteralOption : Option Expr → Bool
  | none => false
  | some e => hasBareLiteral e

def hasBareLiteralList : List Expr → Bool
  | [] => false
  | e :: es => hasBareLiteral e || hasBareLiteralList es

end

end Expr

end FuncLift
