import FuncLift.Lift.Edit
import FuncLift.Proofs.Located
import FuncLift.Proofs.Nested
import Mathlib.Data.List.Basic

/-!
# Slots and what stands in a node

The children of a node are among its pieces. Two tables know in which of them a call can stand: one
finds the slot of an expression, and the other fills it. They agree: where a slot was found, filling
it changes the one piece that is the expression, and nothing else of the node. So writing the filled
node over the old one replaces that expression and no other.
-/
namespace FuncLift

def Piece.child? : Piece → Option Node
  | .name _ => none
  | .child n => some n

namespace Piece

/-- The children among pieces. -/
def nodes (ps : List Piece) : List Node := ps.filterMap child?

@[simp] theorem nodes_nil : nodes [] = [] := rfl

@[simp] theorem nodes_child (n : Node) (ps : List Piece) :
    nodes (.child n :: ps) = n :: nodes ps := rfl

@[simp] theorem nodes_name (n : Name) (ps : List Piece) : nodes (.name n :: ps) = nodes ps := rfl

@[simp] theorem nodes_append (ps qs : List Piece) : nodes (ps ++ qs) = nodes ps ++ nodes qs :=
  List.filterMap_append

@[simp] theorem nodes_names (ns : List Name) : nodes (ns.map Name.piece) = [] := by
  induction ns with
  | nil => rfl
  | cons n ns ih => exact ih

theorem mem_nodes {n : Node} {ps : List Piece} : n ∈ nodes ps ↔ .child n ∈ ps := by
  induction ps with
  | nil => simp
  | cons p ps ih => cases p <;> simp [ih]

end Piece

namespace Outline

theorem content_list {α : Type} {f : α → Outline} {fs : List α → List Outline} {piece : α → Piece}
    (hnil : fs [] = []) (hcons : ∀ x xs, fs (x :: xs) = f x :: fs xs)
    (hpiece : ∀ x, piece x = .child (f x).content) (xs : List α) :
    (fs xs).map content = Piece.nodes (xs.map piece) := by
  induction xs with
  | nil => rw [hnil]; rfl
  | cons x xs ih =>
    rw [hcons, List.map_cons, ih, List.map_cons, hpiece]
    rfl

theorem content_option {α : Type} {f : α → Outline} {fs : Option α → List Outline}
    {piece : α → Piece} (hnone : fs none = []) (hsome : ∀ x, fs (some x) = [f x])
    (hpiece : ∀ x, piece x = .child (f x).content) (x : Option α) :
    (fs x).map content = Piece.nodes (x.toList.map piece) := by
  cases x with
  | none => rw [hnone]; rfl
  | some x =>
    rw [hsome]
    simp [hpiece]

@[simp] theorem content_ofExprs : ∀ es : List Expr,
    (ofExprs es).map content = Piece.nodes (es.map Expr.piece) :=
  content_list rfl (fun _ _ => rfl) fun e => congrArg _ (content_outline (.expr e)).symm

@[simp] theorem content_ofTypes : ∀ ts : List TypeExpr,
    (ofTypes ts).map content = Piece.nodes (ts.map TypeExpr.piece) :=
  content_list rfl (fun _ _ => rfl) fun t => congrArg _ (content_outline (.type t)).symm

@[simp] theorem content_ofFields : ∀ fs : List Field,
    (ofFields fs).map content = Piece.nodes (fs.map Field.piece) :=
  content_list rfl (fun _ _ => rfl) fun f => congrArg _ (content_outline (.field f)).symm

@[simp] theorem content_ofStmts : ∀ ss : List Stmt,
    (ofStmts ss).map content = Piece.nodes (ss.map Stmt.piece) :=
  content_list rfl (fun _ _ => rfl) fun s => congrArg _ (content_outline (.stmt s)).symm

@[simp] theorem content_ofClauses : ∀ cs : List Clause,
    (ofClauses cs).map content = Piece.nodes (cs.map Clause.piece) :=
  content_list rfl (fun _ _ => rfl) fun c => congrArg _ (content_outline (.clause c)).symm

@[simp] theorem content_ofComms : ∀ cs : List Comm,
    (ofComms cs).map content = Piece.nodes (cs.map Comm.piece) :=
  content_list rfl (fun _ _ => rfl) fun c => congrArg _ (content_outline (.comm c)).symm

@[simp] theorem content_ofSpecs : ∀ ss : List Spec,
    (ofSpecs ss).map content = Piece.nodes (ss.map Spec.piece) :=
  content_list rfl (fun _ _ => rfl) fun s => congrArg _ (content_outline (.spec s)).symm

@[simp] theorem content_ofExprOption : ∀ e : Option Expr,
    (ofExprOption e).map content = Piece.nodes (e.toList.map Expr.piece) :=
  content_option rfl (fun _ => rfl) fun e => congrArg _ (content_outline (.expr e)).symm

@[simp] theorem content_ofTypeOption : ∀ t : Option TypeExpr,
    (ofTypeOption t).map content = Piece.nodes (t.toList.map TypeExpr.piece) :=
  content_option rfl (fun _ => rfl) fun t => congrArg _ (content_outline (.type t)).symm

@[simp] theorem content_ofSimpleOption : ∀ s : Option Simple,
    (ofSimpleOption s).map content = Piece.nodes (s.toList.map Simple.piece) :=
  content_option rfl (fun _ => rfl) fun s => congrArg _ (content_outline (.simple s)).symm

@[simp] theorem content_ofStmtOption : ∀ s : Option Stmt,
    (ofStmtOption s).map content = Piece.nodes (s.toList.map Stmt.piece) :=
  content_option rfl (fun _ => rfl) fun s => congrArg _ (content_outline (.stmt s)).symm

@[simp] theorem content_ofElements (es : List Element) :
    (ofElements es).map content = Piece.nodes (es.flatMap Element.pieces) := by
  induction es with
  | nil => rfl
  | cons e es ih =>
    obtain ⟨key, value⟩ := e
    simp [ofElements, ofElement, Element.pieces, ih,
      show (ofExpr value).content = .expr value from content_outline (.expr value)]

end Outline

namespace Node

open Outline

theorem children_outline (n : Node) : n.outline.children.map content =
    Piece.nodes n.pieces := by
  have hexpr (e : Expr) : (ofExpr e).content = .expr e :=
    content_outline (.expr e)
  have htype (t : TypeExpr) : (ofType t).content = .type t := content_outline (.type t)
  have hsimple (s : Simple) : (ofSimple s).content = .simple s := content_outline (.simple s)
  have hstmt (s : Stmt) : (ofStmt s).content = .stmt s := content_outline (.stmt s)
  have hblock (b : Block) : (ofBlock b).content = .block b := content_outline (.block b)
  have hdecl (d : Decl) : (ofDecl d).content = .decl d := content_outline (.decl d)
  have hsig (s : Signature) : (ofSignature s).content = .signature s :=
    content_outline (.signature s)
  have hfield (f : Field) : (ofField f).content = .field f := content_outline (.field f)
  rcases n with d | s | f | s | f | b | s | s | e | t | c | c | c | g
  case decl => cases d; simp [outline, ofDecl, Outline.children, pieces]
  case spec => cases s <;> simp [outline, ofSpec, Outline.children, pieces, htype]
  case func =>
    obtain ⟨t, recv, n, sig, body⟩ := f
    cases recv <;> cases body <;>
      simp [outline, ofFunc, Outline.children, pieces, hsig, hfield, hblock]
  case signature => cases s; simp [outline, ofSignature, Outline.children, pieces]
  case field => cases f; simp [outline, ofField, Outline.children, pieces, htype]
  case block => cases b; simp [outline, ofBlock, Outline.children, pieces]
  case stmt =>
    cases s with
    | loop t head b => cases head <;>
        simp [outline, ofStmt, ofLoopHead, LoopHead.pieces, Outline.children, pieces, hexpr, hblock]
    | _ => simp [outline, ofStmt, Outline.children, pieces, hexpr, hsimple, hstmt, hblock, hdecl]
  case simple => cases s <;> simp [outline, ofSimple, Outline.children, pieces, hexpr]
  case expr =>
    cases e <;> simp [outline, ofExpr, Outline.children, pieces, hexpr, htype, hsig, hblock]
  case type =>
    cases t <;> simp [outline, ofType, Outline.children, pieces, htype, hsig]
  case clause =>
    obtain ⟨t, cases, ss⟩ := c
    cases cases <;> simp [outline, ofClause, ofCases, Cases.pieces, Outline.children, pieces]
  case comm => cases c; simp [outline, ofComm, Outline.children, pieces]
  case comment => rfl
  case commentGroup =>
    have hcomments (cs : List Comment) : (cs.map ofComment).map content =
        Piece.nodes (cs.map Comment.piece) :=
      @content_list Comment ofComment (List.map ofComment) Comment.piece rfl (fun _ _ => rfl)
        (fun _ => rfl) cs
    simp [outline, ofCommentGroup, Outline.children, pieces, hcomments]

theorem mem_children {n c : Node} : c ∈ n.children ↔ .child c ∈ n.pieces := by
  rw [children, children_outline, Piece.mem_nodes]

end Node

theorem Piece.nodes_stmts (ss : List Stmt) : nodes (ss.map Stmt.piece) = ss.map .stmt := by
  induction ss with
  | nil => rfl
  | cons s ss ih => rw [List.map_cons, nodes_child, ih, List.map_cons]

theorem Owner.children_eq (w : Owner) :
    ∃ others, w.node.children = others ++ w.stmts.map .stmt := by
  rw [Node.children, w.node.children_outline]
  cases w with
  | block b => exact ⟨[], Piece.nodes_stmts _⟩
  | clause c => exact ⟨_, by rw [← Piece.nodes_stmts]; exact Piece.nodes_append _ _⟩
  | comm c => exact ⟨_, by rw [← Piece.nodes_stmts]; exact Piece.nodes_append _ _⟩

namespace Outline

/-- The children of an outline are the children of its node. -/
def Truthful (o : Outline) : Prop := o.children.map content = o.content.children

theorem truthful (n : Node) : Truthful n.outline := by
  rw [Truthful, content_outline, Node.children]

theorem countP_content (i : Nat) (p : Option Nat) (os : List Outline) :
    (os.map content).countP (fun c => c.tag.id == i) ≤ linkCount i (linksAll p os) := by
  induction os with
  | nil => exact Nat.zero_le _
  | cons o os ih =>
    obtain ⟨n, cs⟩ := o
    rw [List.map_cons, List.countP_cons, linksAll_cons, linkCount_append, links_node, linkCount_cons]
    by_cases hn : n.tag.id = i <;> simp only [content, Link.id, hn, beq_iff_eq, if_true, if_false] <;>
      omega

/-- A number that nodes have at most once the children of each of them have at most once. -/
theorem countP_children {os : List Outline} {i : Nat} (hos : EveryOf Truthful os)
    (hcount : linkCount i (linksAll none os) ≤ 1) {l : Link} (hl : l ∈ linksAll none os) :
    l.node.children.countP (fun c => c.tag.id == i) ≤ 1 := by
  obtain ⟨cs, a, b, htruthful, hsplit⟩ := linksAll_split hos hl
  have hcs : cs.map content = l.node.children := htruthful
  rw [← hcs]
  refine Nat.le_trans (countP_content i (some l.node.tag.id) cs) (Nat.le_trans ?_ hcount)
  rw [hsplit, links_node]
  simp only [linkCount_append, linkCount_cons]
  omega

end Outline

namespace Slot

section Swaps

variable (target : Nat) (new : Expr)

/-- Whether a piece is a child with a number. -/
def marks : Piece → Bool
  | .child c => c.tag.id == target
  | .name _ => false

def swapChild : Node → Node
  | .expr e => .expr (swap target new e)
  | n => n

/-- Puts an expression in the place of the one with a number. -/
def swapPiece : Piece → Piece
  | .name n => .name n
  | .child c => .child (swapChild target new c)

/-- One of the pieces is the target, and if no other is, only that one changes. -/
structure Swaps (ps qs : List Piece) : Prop where
  found : ∃ e : Expr, e.piece ∈ ps ∧ e.tag.id = target
  swapped : ps.countP (marks target) ≤ 1 → qs = ps.map (swapPiece target new)

end Swaps

section Rules

variable {target : Nat} {new : Expr} {ps qs : List Piece}

theorem swap_eq {e : Expr} (h : e.tag.id = target) : swap target new e = new := if_pos h

theorem swap_ne {e : Expr} (h : e.tag.id ≠ target) : swap target new e = e := if_neg h

theorem swapPiece_of_not_marks {p : Piece} (h : marks target p = false) :
    swapPiece target new p = p := by
  cases p with
  | name n => rfl
  | child c =>
    cases c with
    | expr e => exact congrArg (fun x => Piece.child (.expr x)) (swap_ne (beq_eq_false_iff_ne.1 h))
    | _ => rfl

theorem map_swapPiece (h : ps.countP (marks target) = 0) : ps.map (swapPiece target new) = ps := by
  have hps : ∀ p ∈ ps, swapPiece target new p = p := fun p hp =>
    swapPiece_of_not_marks (by simpa using List.countP_eq_zero.1 h p hp)
  exact (List.map_congr_left hps).trans (List.map_id _)

namespace Swaps

theorem one {e : Expr} (h : e.tag.id = target) : Swaps target new [e.piece] [new.piece] :=
  ⟨⟨e, List.mem_cons_self, h⟩, fun _ => by rw [List.map_singleton, swapPiece, swapChild, swap_eq h]⟩

theorem around (h : Swaps target new ps qs) (as bs : List Piece) :
    Swaps target new (as ++ ps ++ bs) (as ++ qs ++ bs) := by
  obtain ⟨⟨e, he, hid⟩, hswap⟩ := h
  have hpos : 0 < ps.countP (marks target) := List.countP_pos_iff.2 ⟨_, he, by simp [marks, Node.tag, hid]⟩
  refine ⟨⟨e, by simp [he], hid⟩, fun honce => ?_⟩
  simp only [List.countP_append] at honce
  have has : as.map (swapPiece target new) = as := map_swapPiece (by omega)
  have hbs : bs.map (swapPiece target new) = bs := map_swapPiece (by omega)
  rw [List.map_append, List.map_append, has, hbs, hswap (by omega)]

theorem items {α : Type} {f : α → List Piece} {p : α → Bool} {put : α → α}
    (hput : ∀ x, p x = true → Swaps target new (f x) (f (put x))) {xs : List α} :
    ∀ {i : Nat}, xs.findIdx? p = some i →
      Swaps target new (xs.flatMap f) ((xs.modify i put).flatMap f) := by
  induction xs with
  | nil => exact fun h => by cases h
  | cons x xs ih =>
    intro i h
    rw [List.findIdx?_cons] at h
    split at h
    · rename_i hx
      cases h
      simpa using (hput x hx).around [] (xs.flatMap f)
    · obtain ⟨j, hj, rfl⟩ := Option.map_eq_some_iff.1 h
      simpa using (ih hj).around (f x) []

theorem exprs (new : Expr) {which : Nat} {es : List Expr} {s : Slot} (h : inList target which es = some s) :
    ∃ i, s = .list which i ∧ i < es.length ∧
      Swaps target new (es.map Expr.piece) ((es.set i new).map Expr.piece) := by
  obtain ⟨i, hi, rfl⟩ := Option.map_eq_some_iff.1 h
  have hput (e : Expr) (he : (e.tag.id == target) = true) :
      Swaps target new [e.piece] [new.piece] := one (by simpa using he)
  refine ⟨i, rfl, (List.findIdx?_eq_some_iff_getElem.1 hi).1, ?_⟩
  rw [List.map_eq_flatMap, List.map_eq_flatMap, List.set_eq_modify]
  exact items hput hi

theorem elements (new : Expr) {es : List Element} {s : Slot} (h : inElements target es = some s) :
    ∃ i, s = .element i ∧ i < es.length ∧ Swaps target new (es.flatMap Element.pieces)
      ((es.modify i fun e => { e with value := new }).flatMap Element.pieces) := by
  obtain ⟨i, hi, rfl⟩ := Option.map_eq_some_iff.1 h
  refine ⟨i, rfl, (List.findIdx?_eq_some_iff_getElem.1 hi).1, items (fun e he => ?_) hi⟩
  simpa [Element.pieces] using (one (by simpa using he)).around (e.key.toList.map Expr.piece) []

def ofFields (es : List (Option Expr)) : List Piece := es.flatMap fun e => e.toList.map Expr.piece

theorem fields (new : Expr) {es : List (Option Expr)} {s : Slot} (h : inFields target es = some s) :
    s = .field ∧ Swaps target new (ofFields es) (ofFields (es.map (Option.map (swap target new)))) := by
  unfold inFields at h
  split at h
  · rename_i hany
    cases h
    obtain ⟨e, he, hid⟩ := List.any_eq_true.1 hany
    obtain ⟨x, rfl, hx⟩ := (Option.any_eq_true _ _).1 hid
    refine ⟨rfl, ⟨x, ?_, by simpa using hx⟩, fun _ => ?_⟩
    · exact List.mem_flatMap.2 ⟨_, he, by simp⟩
    · rw [ofFields, ofFields, List.map_flatMap, List.flatMap_map]
      refine congrArg (fun f => es.flatMap f) (funext fun e => ?_)
      cases e <;> rfl
  · cases h

end Swaps

end Rules

section Agree

variable {target : Nat} (new : Expr) {s : Slot}

theorem swaps_simple {x : Simple} (h : locate target (.simple x) = some s) :
    Swaps target new (Node.simple x).pieces (fill target new s (.simple x)).pieces := by
  cases x with
  | expr t e =>
    obtain ⟨rfl, hswaps⟩ := Swaps.fields new h
    exact hswaps
  | send t ch v =>
    obtain ⟨rfl, hswaps⟩ := Swaps.fields new h
    exact hswaps
  | step t e op =>
    obtain ⟨rfl, hswaps⟩ := Swaps.fields new h
    exact hswaps
  | assign t l op r =>
    rcases Option.or_eq_some_iff.1 h with h | ⟨_, h⟩
    · obtain ⟨i, rfl, _, hswaps⟩ := Swaps.exprs new h
      exact hswaps.around [] (r.map Expr.piece)
    · obtain ⟨i, rfl, _, hswaps⟩ := Swaps.exprs new h
      simpa [Node.pieces, fill, onList] using hswaps.around (l.map Expr.piece) []
  | define t ns vs =>
    obtain ⟨i, rfl, _, hswaps⟩ := Swaps.exprs new h
    simpa [Node.pieces, fill, onList] using hswaps.around (ns.map Name.piece) []

theorem swaps_loop {t : Tag} {x : LoopHead} {b : Block}
    (h : locate target (.stmt (.loop t x b)) = some s) : Swaps target new
      (Node.stmt (.loop t x b)).pieces (fill target new s (.stmt (.loop t x b))).pieces := by
  cases x with
  | forever => cases h
  | cond e =>
    obtain ⟨rfl, hswaps⟩ := Swaps.fields new h
    exact hswaps.around [] [b.piece]
  | clause init cond post =>
    obtain ⟨rfl, hswaps⟩ := Swaps.fields new h
    have hswaps := hswaps.around (init.toList.map Simple.piece)
      (post.toList.map Simple.piece ++ [b.piece])
    cases cond with
    | none => cases h
    | some e => simpa [Node.pieces, LoopHead.pieces, fill, onFields, Swaps.ofFields] using hswaps
  | range key value define e =>
    obtain ⟨rfl, hswaps⟩ := Swaps.fields new h
    have hswaps := hswaps.around [] [b.piece]
    cases key <;> cases value <;>
      simpa [Node.pieces, LoopHead.pieces, fill, onFields, Swaps.ofFields] using hswaps

theorem swaps_stmt {x : Stmt} (h : locate target (.stmt x) = some s) :
    Swaps target new (Node.stmt x).pieces (fill target new s (.stmt x)).pieces := by
  cases x with
  | ret t es =>
    obtain ⟨i, rfl, _, hswaps⟩ := Swaps.exprs new h
    exact hswaps
  | go t e =>
    obtain ⟨rfl, hswaps⟩ := Swaps.fields new h
    exact hswaps
  | defer t e =>
    obtain ⟨rfl, hswaps⟩ := Swaps.fields new h
    exact hswaps
  | ifElse t init cond yes no =>
    obtain ⟨rfl, hswaps⟩ := Swaps.fields new h
    have hswaps := hswaps.around (init.toList.map Simple.piece)
      (yes.piece :: no.toList.map Stmt.piece)
    simpa [Node.pieces, fill, onFields, Swaps.ofFields] using hswaps
  | switch t init subject cs =>
    obtain ⟨rfl, hswaps⟩ := Swaps.fields new h
    have hswaps := hswaps.around (init.toList.map Simple.piece) (cs.map Clause.piece)
    cases subject with
    | none => cases h
    | some e => simpa [Node.pieces, fill, onFields, Swaps.ofFields] using hswaps
  | loop t x b => exact swaps_loop new h
  | _ => cases h

theorem swaps_expr {x : Expr} (h : locate target (.expr x) = some s) :
    Swaps target new (Node.expr x).pieces (fill target new s (.expr x)).pieces := by
  cases x with
  | call t f args spread =>
    obtain ⟨i, rfl, _, hswaps⟩ := Swaps.exprs new h
    simpa [Node.pieces, fill, onList] using hswaps.around [f.piece] []
  | binary t l op r =>
    obtain ⟨rfl, hswaps⟩ := Swaps.fields new h
    exact hswaps
  | unary t op e =>
    obtain ⟨rfl, hswaps⟩ := Swaps.fields new h
    exact hswaps
  | paren t e =>
    obtain ⟨rfl, hswaps⟩ := Swaps.fields new h
    exact hswaps
  | index t e i =>
    obtain ⟨rfl, hswaps⟩ := Swaps.fields new h
    exact hswaps.around [e.piece] []
  | composite t type es =>
    obtain ⟨i, rfl, _, hswaps⟩ := Swaps.elements new h
    simpa [Node.pieces, fill, onElements] using hswaps.around (type.toList.map TypeExpr.piece) []
  | _ => cases h

/-- Where a slot was found, filling it changes what was looked for and nothing else. -/
theorem swaps_fill {n : Node} (h : locate target n = some s) :
    Swaps target new n.pieces (fill target new s n).pieces := by
  cases n with
  | simple x => exact swaps_simple new h
  | stmt x => exact swaps_stmt new h
  | expr x => exact swaps_expr new h
  | clause x =>
    obtain ⟨t, cs, ss⟩ := x
    cases cs with
    | exprs es =>
      obtain ⟨i, rfl, _, hswaps⟩ := Swaps.exprs new h
      exact hswaps.around [] (ss.map Stmt.piece)
    | _ => cases h
  | spec x =>
    cases x with
    | values t ns type vs =>
      obtain ⟨i, rfl, _, hswaps⟩ := Swaps.exprs new h
      simpa [Node.pieces, fill, onList] using
        hswaps.around (ns.map Name.piece ++ type.toList.map TypeExpr.piece) []
    | _ => cases h
  | _ => cases h

theorem head_onList {f : List Expr → List Expr} (hf : ∀ es, (f es).length = es.length) (which : Nat)
    (n : Node) : (onList f which n).head = n.head := by
  have hstubs (es : List Expr) : (f es).map (fun _ => Expr.stub) = es.map fun _ => Expr.stub := by
    simp [List.map_const', hf]
  unfold onList
  split <;> simp [Node.head, Simple.head, Stmt.head, Cases.head, Spec.head, Expr.head, hstubs]

theorem head_onElements {f : List Element → List Element}
    (hf : ∀ es, (f es).map Element.head = es.map Element.head) (n : Node) :
    (onElements f n).head = n.head := by
  unfold onElements
  split
  · simp [Node.head, Expr.head, hf]
  · rfl

theorem head_modify (i : Nat) (es : List Element) :
    (es.modify i fun e => { e with value := new }).map Element.head = es.map Element.head := by
  induction es generalizing i with
  | nil => simp
  | cons e es ih => cases i <;> simp [Element.head, ih]

theorem head_onFields (n : Node) : (onFields target new n).head = n.head := by
  unfold onFields
  split <;> simp [Node.head, Simple.head, Stmt.head, LoopHead.head, Expr.head, Function.comp_def]

theorem head_fill (s : Slot) (n : Node) : (fill target new s n).head = n.head := by
  cases s with
  | list which i => exact head_onList (fun es => List.length_set) which n
  | element i => exact head_onElements (head_modify new i) n
  | field => exact head_onFields new n

theorem pieces_fill {n : Node} (h : locate target n = some s)
    (honce : n.pieces.countP (marks target) ≤ 1) : ∃ (as : List Piece) (e : Expr) (bs : List Piece),
      e.tag.id = target ∧ n.pieces = as ++ e.piece :: bs ∧
        (fill target new s n).pieces = as ++ new.piece :: bs := by
  obtain ⟨⟨e, he, hid⟩, hswap⟩ := swaps_fill new h
  obtain ⟨as, bs, hsplit⟩ := List.append_of_mem he
  have hself : marks target e.piece = true := beq_iff_eq.2 hid
  refine ⟨as, e, bs, hid, hsplit, ?_⟩
  rw [hswap honce, hsplit]
  rw [hsplit, List.countP_append, List.countP_cons_of_pos hself] at honce
  have has : as.map (swapPiece target new) = as := map_swapPiece (by omega)
  have hbs : bs.map (swapPiece target new) = bs := map_swapPiece (by omega)
  rw [List.map_append, List.map_cons, has, hbs, swapPiece, swapChild, swap_eq hid]

theorem isComment_of_locate {n : Node} (h : locate target n = some s) : n.isComment = false := by
  cases n with
  | spec x => cases x <;> rfl
  | stmt x => cases x <;> rfl
  | simple x => cases x <;> rfl
  | expr x => cases x <;> rfl
  | comment | commentGroup => cases h
  | _ => rfl

theorem countP_marks (ps : List Piece) :
    ps.countP (marks target) = (Piece.nodes ps).countP fun c => c.tag.id == target := by
  induction ps with
  | nil => rfl
  | cons p ps ih => cases p <;> simp [List.countP_cons, marks, ih]

end Agree

end Slot

namespace Change

theorem write_fill {target : Nat} {new : Expr} {n : Node} {s : Slot}
    (h : Slot.locate target n = some s)
    (honce : n.children.countP (fun c => c.tag.id == target) ≤ 1) (hnew : new.tag.id ≠ target) :
    write n (Slot.fill target new s n) = replaceExpr target new := by
  rw [Node.children, Node.children_outline, ← Slot.countP_marks] at honce
  obtain ⟨as, e, bs, hid, hold, hfilled⟩ := Slot.pieces_fill new h honce
  have hheld : n.children.zip (Slot.fill target new s n).children =
      (Piece.nodes as).map (fun c => (c, c)) ++ (.expr e, .expr new) ::
        (Piece.nodes bs).map fun c => (c, c) := by
    have hself (cs : List Node) : cs.zip cs = cs.map fun c => (c, c) := by
      simpa using (List.map_prod_left_eq_zip (l := cs) (f := fun c => c)).symm
    rw [Node.children, Node.children, Node.children_outline, Node.children_outline, hold, hfilled,
      Piece.nodes_append, Piece.nodes_append, List.zip_append rfl, hself, Piece.nodes_child,
      Piece.nodes_child, List.zip_cons_cons, hself]
  have hkept (id : Nat) (cs : List Node) : (cs.map fun c => (c, c)).findSome?
      (fun x : Node × Node => if x.1.tag.id = id ∧ x.2.tag.id ≠ x.1.tag.id then x.2.expr? else none) =
        none := by
    induction cs with
    | nil => rfl
    | cons c cs ih => simp [ih]
  have hexpr : (write n (Slot.fill target new s n)).onExpr = (replaceExpr target new).onExpr := by
    funext x
    change (n.children.zip (Slot.fill target new s n).children).findSome? _ = _
    rw [hheld, List.findSome?_append, hkept, Option.none_or, List.findSome?_cons, hkept]
    by_cases hx : x.tag.id = target
    · have hspot : (Node.expr e).tag.id = x.tag.id ∧
          (Node.expr new).tag.id ≠ (Node.expr e).tag.id := ⟨hid.trans hx.symm, hid.symm ▸ hnew⟩
      dsimp only
      rw [if_pos hspot]
      simp [replaceExpr, hx, Node.expr?]
    · have hspot : ¬((Node.expr e).tag.id = x.tag.id ∧
          (Node.expr new).tag.id ≠ (Node.expr e).tag.id) := fun h => hx (h.1.symm.trans hid)
      dsimp only
      rw [if_neg hspot]
      simp [replaceExpr, hx]
  rw [write, replaceExpr, Change.mk.injEq]
  exact ⟨rfl, hexpr, rfl⟩

end Change

end FuncLift
