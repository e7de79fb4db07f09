import FuncLift.Tree.Outline

/-!
# Slots

A slot is a place in a node where a call can stand instead of an expression: an index of a list, the
value of an element of a literal, or a place of its own. An expression is taken by its number, so it
is found in the node that holds it, and a slot is filled in that node.
-/
namespace FuncLift

/-- Where an expression stands in its parent. Of the lists of a parent it tells which. -/
inductive Slot where
  | list (which index : Nat)
  | element (index : Nat)
  | field
deriving DecidableEq, Repr

namespace Slot

section Locate

variable (target : Nat)

def inList (which : Nat) (es : List Expr) : Option Slot :=
  (es.findIdx? fun e => e.tag.id == target).map (.list which)

def inFields (es : List (Option Expr)) : Option Slot :=
  if es.any fun e => e.any fun x => x.tag.id == target then some .field else none

def inElements (es : List Element) : Option Slot :=
  (es.findIdx? fun e => e.value.tag.id == target).map .element

/-- The slot of a target in a node. A call cannot stand in every place of an expression. -/
def locate : Node → Option Slot
  | .simple (.assign _ l _ r) => (inList target 0 l).or (inList target 1 r)
  | .simple (.define _ _ vs) => inList target 0 vs
  | .simple (.expr _ e) => inFields target [some e]
  | .simple (.send _ ch v) => inFields target [some ch, some v]
  | .simple (.step _ e _) => inFields target [some e]
  | .stmt (.ret _ es) => inList target 0 es
  | .stmt (.go _ e) => inFields target [some e]
  | .stmt (.defer _ e) => inFields target [some e]
  | .stmt (.ifElse _ _ cond _ _) => inFields target [some cond]
  | .stmt (.switch _ _ subject _) => inFields target [subject]
  | .stmt (.loop _ (.cond e) _) => inFields target [some e]
  | .stmt (.loop _ (.clause _ cond _) _) => inFields target [cond]
  | .stmt (.loop _ (.range key value _ e) _) => inFields target [key, value, some e]
  | .clause ⟨_, .exprs es, _⟩ => inList target 0 es
  | .spec (.values _ _ _ vs) => inList target 0 vs
  | .expr (.call _ _ args _) => inList target 0 args
  | .expr (.binary _ l _ r) => inFields target [some l, some r]
  | .expr (.unary _ _ e) => inFields target [some e]
  | .expr (.paren _ e) => inFields target [some e]
  | .expr (.index _ _ i) => inFields target [some i]
  | .expr (.composite _ _ elems) => inElements target elems
  | _ => none

end Locate

section Fill

variable (target : Nat) (new : Expr)

/-- Changes a list of a node; a node without such a list stays. -/
def onList (f : List Expr → List Expr) : Nat → Node → Node
  | 0, .simple (.assign t l op r) => .simple (.assign t (f l) op r)
  | 1, .simple (.assign t l op r) => .simple (.assign t l op (f r))
  | 0, .simple (.define t ns vs) => .simple (.define t ns (f vs))
  | 0, .stmt (.ret t es) => .stmt (.ret t (f es))
  | 0, .clause ⟨t, .exprs es, ss⟩ => .clause ⟨t, .exprs (f es), ss⟩
  | 0, .spec (.values t ns type vs) => .spec (.values t ns type (f vs))
  | 0, .expr (.call t callee args spread) => .expr (.call t callee (f args) spread)
  | _, n => n

/-- Changes the elements of a literal; no other node has any. -/
def onElements (f : List Element → List Element) : Node → Node
  | .expr (.composite t type elems) => .expr (.composite t type (f elems))
  | n => n

/-- Puts something else in the place of the target. -/
def swap (e : Expr) : Expr := if e.tag.id = target then new else e

/-- Puts something else in the place of the target where a node holds it by itself; other nodes
stay. -/
def onFields : Node → Node
  | .simple (.expr t e) => .simple (.expr t (swap target new e))
  | .simple (.step t e op) => .simple (.step t (swap target new e) op)
  | .simple (.send t ch v) => .simple (.send t (swap target new ch) (swap target new v))
  | .stmt (.go t e) => .stmt (.go t (swap target new e))
  | .stmt (.defer t e) => .stmt (.defer t (swap target new e))
  | .stmt (.ifElse t init cond yes no) => .stmt (.ifElse t init (swap target new cond) yes no)
  | .stmt (.switch t init (some e) cs) => .stmt (.switch t init (some (swap target new e)) cs)
  | .stmt (.loop t (.cond e) body) => .stmt (.loop t (.cond (swap target new e)) body)
  | .stmt (.loop t (.clause init (some e) post) body) =>
    .stmt (.loop t (.clause init (some (swap target new e)) post) body)
  | .stmt (.loop t (.range key value define e) body) => .stmt (.loop t (.range
      (key.map (swap target new)) (value.map (swap target new)) define (swap target new e)) body)
  | .expr (.binary t l op r) => .expr (.binary t (swap target new l) op (swap target new r))
  | .expr (.unary t op e) => .expr (.unary t op (swap target new e))
  | .expr (.paren t e) => .expr (.paren t (swap target new e))
  | .expr (.index t e i) => .expr (.index t e (swap target new i))
  | n => n

/-- Puts something else in the slot of the target. -/
def fill : Slot → Node → Node
  | .list which i => onList (fun es => es.set i new) which
  | .element i => onElements fun es => es.modify i fun e => { e with value := new }
  | .field => onFields target new

end Fill

end Slot

end FuncLift
