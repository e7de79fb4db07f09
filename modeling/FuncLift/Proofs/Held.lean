import FuncLift.Proofs.Slots
import FuncLift.Proofs.Upright

/-!
# What an upright node holds

A node holds itself and what its children hold. In an upright tree all of it is upright and lies
inside of the node, children lie behind each other, and what fills the same span as a node above it is
of higher rank. So no two expressions have the same span, and no node has two parents.
-/
namespace FuncLift

namespace Node

theorem isComment_iff {n : Node} :
    n.isComment = true ↔ (∃ c, n = .comment c) ∨ ∃ g, n = .commentGroup g := by
  rcases n with d | s | f | s | f | b | s | s | e | t | c | c | c | g
  case spec => cases s <;> simp [isComment, family, form, Spec.form, Form.family]
  case stmt => cases s <;> simp [isComment, family, form, Stmt.form, Form.family]
  case simple => cases s <;> simp [isComment, family, form, Simple.form, Form.family]
  case expr => cases e <;> simp [isComment, family, form, Expr.form, Form.family]
  all_goals simp [isComment, family, form, Form.family]

end Node

/-- A node is the root of another one's tree or stands below. -/
inductive Node.Holds : Node → Node → Prop where
  | self (n : Node) : Holds n n
  | step {n c m : Node} : c ∈ n.children → Holds c m → Holds n m

namespace Node.Holds

variable {n m : Node}

theorem trans {k : Node} (h : n.Holds m) (hk : m.Holds k) : n.Holds k := by
  induction h with
  | self => exact hk
  | step hc _ ih => exact .step hc (ih hk)

theorem isComment (h : n.Holds m) (hn : n.isComment = true) : m.isComment = true := by
  induction h with
  | self => exact hn
  | @step n c m hc _ ih =>
    rw [mem_children] at hc
    rcases isComment_iff.1 hn with ⟨x, rfl⟩ | ⟨g, rfl⟩
    · cases hc
    · obtain ⟨x, _, hx⟩ := List.mem_map.1 hc
      cases hx
      exact ih rfl

/-- What stands below an upright node is upright and lies inside of it. -/
theorem upright (h : n.Holds m) (hn : Upright n) :
    Upright m ∧ n.span.start ≤ m.span.start ∧ m.span.stop ≤ n.span.stop := by
  induction h with
  | self => exact ⟨hn, Nat.le_refl _, Nat.le_refl _⟩
  | @step n c m hc _ ih =>
    obtain ⟨hstart, hstop, hupright⟩ := hn.row.of_mem (mem_children.1 hc)
    obtain ⟨hm, hstart', hstop'⟩ := ih (hupright c rfl)
    exact ⟨hm, Nat.le_trans hstart hstart', Nat.le_trans hstop' hstop⟩

theorem rank (h : n.Holds m) (hn : Upright n) (hstart : m.span.start ≤ n.span.start)
    (hstop : n.span.stop ≤ m.span.stop) : m = n ∨ n.rank < m.rank := by
  induction h with
  | self => exact .inl rfl
  | @step n c m hc hm ih =>
    obtain ⟨hleft, hright, hupright⟩ := hn.row.of_mem (mem_children.1 hc)
    obtain ⟨_, hleft', hright'⟩ := hm.upright (hupright c rfl)
    rw [show (Piece.child c).tag.span = c.span from rfl] at hleft hright
    rw [show n.tag.span = n.span from rfl] at hleft hright
    have hrank : n.rank < c.rank := by
      rcases hn.local.smaller c (mem_children.1 hc) with h | h | h <;> omega
    rcases ih (hupright c rfl) (by omega) (by omega) with rfl | h
    · exact .inr hrank
    · exact .inr (Nat.lt_trans hrank h)

end Node.Holds

theorem Row.apart {place : Tag → Span} {Q : Node → Prop} {lo hi : Nat} {ps : List Piece}
    (h : Row place Q lo ps hi) {p q : Piece} (hp : p ∈ ps) (hq : q ∈ ps) :
    p = q ∨ (place p.tag).stop ≤ (place q.tag).start ∨ (place q.tag).stop ≤ (place p.tag).start := by
  obtain ⟨before, after, rfl⟩ := List.append_of_mem hp
  obtain ⟨mid, hbefore, hrest⟩ := h.split
  obtain ⟨hstart, _, _, hafter⟩ := hrest.cons
  rcases List.mem_append.1 hq with hq | hq
  · exact .inr (.inr (Nat.le_trans (hbefore.of_mem hq).2.1 hstart))
  · rcases List.mem_cons.1 hq with rfl | hq
    · exact .inl rfl
    · exact .inr (.inl (hafter.of_mem hq).1)

theorem Row.same_child {lo hi : Nat} {ps : List Piece} (h : Row Tag.span Tight lo ps hi)
    {c c' m m' : Node} (hc : .child c ∈ ps) (hc' : .child c' ∈ ps) (hm : c.Holds m)
    (hm' : c'.Holds m') (hstart : m.span.start = m'.span.start) : c = c' := by
  obtain ⟨_, _, hup⟩ := h.of_mem hc
  obtain ⟨_, _, hup'⟩ := h.of_mem hc'
  obtain ⟨hmup, hleft, hright⟩ := hm.upright (hup c rfl)
  obtain ⟨hmup', hleft', hright'⟩ := hm'.upright (hup' c' rfl)
  have hne := hmup.tight
  have hne' := hmup'.tight
  rcases h.apart hc hc' with heq | hlt | hlt
  · cases heq
    rfl
  · have hlt : c.span.stop ≤ c'.span.start := hlt
    omega
  · have hlt : c'.span.stop ≤ c.span.start := hlt
    omega

theorem Node.Holds.unique {n : Node} {e e' : Expr} (h : n.Holds (.expr e))
    (h' : n.Holds (.expr e')) (hn : Upright n) (hspan : e.span = e'.span) : e = e' := by
  generalize hm : Node.expr e = m at h
  induction h with
  | self =>
    subst hm
    rcases h'.rank hn (Nat.le_of_eq (congrArg Span.start hspan.symm))
      (Nat.le_of_eq (congrArg Span.stop hspan)) with heq | hlt
    · exact (Node.expr.inj heq).symm
    · exact absurd hlt (Nat.lt_irrefl _)
  | @step n c m hc hcm ih =>
    subst hm
    cases h' with
    | self =>
      rcases (Node.Holds.step hc hcm).rank hn (Nat.le_of_eq (congrArg Span.start hspan))
        (Nat.le_of_eq (congrArg Span.stop hspan.symm)) with heq | hlt
      · exact Node.expr.inj heq
      · exact absurd hlt (Nat.lt_irrefl _)
    | @step _ c' _ hc' hcm' =>
      have hcc := hn.row.same_child (mem_children.1 hc) (mem_children.1 hc') hcm hcm'
        (congrArg Span.start hspan)
      subst hcc
      exact ih hcm' ((hn.row.of_mem (mem_children.1 hc)).2.2 c rfl) rfl

theorem Node.Holds.not_parent {n m : Node} (h : n.Holds m) (hn : Upright n) (hc : n ∈ m.children) :
    False := by
  obtain ⟨hm, hstart, hstop⟩ := h.upright hn
  obtain ⟨hstart', hstop', _⟩ := hm.row.of_mem (mem_children.1 hc)
  rw [show (Piece.child n).tag.span = n.span from rfl, show m.tag.span = m.span from rfl]
    at hstart' hstop'
  have hlt : m.rank < n.rank := by
    rcases hm.local.smaller n (mem_children.1 hc) with h | h | h <;> omega
  rcases h.rank hn hstart' hstop' with rfl | hlt'
  · exact Nat.lt_irrefl _ hlt
  · exact Nat.lt_asymm hlt hlt'

theorem Node.Holds.parent_unique {n p p' c : Node} (h : n.Holds p) (h' : n.Holds p')
    (hn : Upright n) (hc : c ∈ p.children) (hc' : c ∈ p'.children) : p = p' := by
  induction h with
  | self n =>
    cases h' with
    | self => rfl
    | @step _ x _ hx hp' =>
      have hxc := hn.row.same_child (mem_children.1 hx) (mem_children.1 hc)
        (hp'.trans (.step hc' (.self c))) (.self c) rfl
      subst hxc
      exact (hp'.not_parent ((hn.row.of_mem (mem_children.1 hx)).2.2 _ rfl) hc').elim
  | @step n x p hx hp ih =>
    cases h' with
    | self =>
      have hxc := hn.row.same_child (mem_children.1 hx) (mem_children.1 hc')
        (hp.trans (.step hc (.self c))) (.self c) rfl
      subst hxc
      exact (hp.not_parent ((hn.row.of_mem (mem_children.1 hx)).2.2 _ rfl) hc).elim
    | @step _ x' _ hx' hp' =>
      have hxx := hn.row.same_child (mem_children.1 hx) (mem_children.1 hx')
        (hp.trans (.step hc (.self c))) (hp'.trans (.step hc' (.self c))) rfl
      subst hxx
      exact ih hp' ((hn.row.of_mem (mem_children.1 hx)).2.2 _ rfl) hc

theorem Row.pairwise {Q : Node → Prop} {lo hi : Nat} {ps : List Piece}
    (h : Row Tag.span Q lo ps hi) : (Piece.nodes ps).Pairwise fun a b => a.span.stop ≤ b.span.start := by
  induction ps generalizing lo with
  | nil => exact .nil
  | cons p ps ih =>
    obtain ⟨_, _, _, hrest⟩ := h.cons
    cases p with
    | name n => exact ih hrest
    | child n => exact .cons (fun m hm => (hrest.of_mem (Piece.mem_nodes.1 hm)).1) (ih hrest)

namespace Nested

theorem pairwise {Q : Node → Prop} {n : Node} (h : Nested Tag.span Q n) :
    n.children.Pairwise fun a b => a.span.stop ≤ b.span.start := by
  rw [Node.children, n.children_outline]
  exact h.row.pairwise

theorem of_child {n c : Node} (h : Upright n) (hc : c ∈ n.children) : Upright c :=
  (h.row.of_mem (Node.mem_children.1 hc)).2.2 c rfl

theorem stmts_lt {w : Owner} (h : Upright w.node) {before front after : List Stmt} {s last : Stmt}
    (hsplit : w.stmts = before ++ (front ++ [last]) ++ after) (hs : s ∈ front) :
    s.span.stop < last.span.stop := by
  obtain ⟨others, hchildren⟩ := w.children_eq
  have hmem : .stmt last ∈ w.node.children := by
    rw [hchildren, hsplit]
    simp
  have hapart := h.pairwise
  rw [hchildren, hsplit, List.pairwise_append, List.pairwise_map, List.pairwise_append,
    List.pairwise_append, List.pairwise_append] at hapart
  have hle : s.span.stop ≤ last.span.start :=
    hapart.2.1.1.2.1.2.2 s hs last (List.mem_singleton_self _)
  have hlt : last.span.start < last.span.stop := (h.of_child hmem).tight
  omega

end Nested

end FuncLift
