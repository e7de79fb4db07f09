import FuncLift.Proofs.Held
import FuncLift.Proofs.Session
import FuncLift.Proofs.Trimmed

/-!
# What a selection stands for

In a tree that was read at most one expression fills a span, and statements that start and end at
given offsets are next to each other in one list at most. The searches along the outline skip what
cannot hold the span and stop at the first hit; they miss nothing. So a selection stands for the
expression that fills its range without blanks, else for the statements that do.
-/
namespace FuncLift

namespace Outline

mutual

theorem mem_links_iff (p : Option Nat) {m : Node} : ∀ {o : Outline}, Every Truthful o →
    (m ∈ (o.links p).map Link.node ↔ o.content.Holds m)
  | .node n cs, .node self below => by
    have hcs : cs.map content = n.children := self
    rw [links_node, List.map_cons, List.mem_cons, mem_linksAll_iff (some n.tag.id) below]
    constructor
    · rintro (rfl | ⟨o, ho, hm⟩)
      · exact .self m
      · exact .step (hcs ▸ List.mem_map_of_mem ho) hm
    · intro h
      cases h with
      | self => exact .inl rfl
      | step hc hm =>
        obtain ⟨o, ho, rfl⟩ := List.mem_map.1 (hcs.symm ▸ hc)
        exact .inr ⟨o, ho, hm⟩

theorem mem_linksAll_iff (p : Option Nat) {m : Node} : ∀ {os : List Outline}, EveryOf Truthful os →
    (m ∈ (linksAll p os).map Link.node ↔ ∃ o ∈ os, o.content.Holds m)
  | [], _ => by simp
  | o :: os, .cons head tail => by
    rw [linksAll_cons, List.map_append, List.mem_append, mem_links_iff p head,
      mem_linksAll_iff p tail]
    simp

end

section Filling

variable {target : Span}

mutual

theorem filling_found {parent q : Option Node} {e : Expr} : ∀ {o : Outline},
    Every Truthful o → filling? target parent o = some (e, q) → e.span = target ∧
      ((q = parent ∧ o.content = .expr e) ∨
        ∃ n, q = some n ∧ o.content.Holds n ∧ .expr e ∈ n.children)
  | .node n cs, .node self below, h => by
    have hcs : cs.map content = n.children := self
    have hbelow (h : fillingAmong? target n cs = some (e, q)) : e.span = target ∧
        ∃ m, q = some m ∧ n.Holds m ∧ .expr e ∈ m.children := by
      obtain ⟨hspan, o, ho, hfound⟩ := fillingAmong_found below h
      have hchild : o.content ∈ n.children := hcs ▸ List.mem_map_of_mem ho
      rcases hfound with ⟨hq, hcontent⟩ | ⟨m, hq, hm, he⟩
      · exact ⟨hspan, n, hq, .self n, hcontent ▸ hchild⟩
      · exact ⟨hspan, m, hq, .step hchild hm, he⟩
    unfold filling? at h
    split at h
    · cases h
    · split at h
      · split at h
        · rename_i hends
          cases h
          exact ⟨Span.eq_of_ends hends.1 hends.2, .inl ⟨rfl, rfl⟩⟩
        · exact ⟨(hbelow h).1, .inr (hbelow h).2⟩
      · exact ⟨(hbelow h).1, .inr (hbelow h).2⟩

theorem fillingAmong_found {parent : Node} {q : Option Node} {e : Expr} :
    ∀ {os : List Outline}, EveryOf Truthful os →
      fillingAmong? target parent os = some (e, q) → e.span = target ∧ ∃ o ∈ os,
        (q = some parent ∧ o.content = .expr e) ∨
          ∃ n, q = some n ∧ o.content.Holds n ∧ .expr e ∈ n.children
  | [], _, h => by cases h
  | o :: os, .cons head tail, h => by
    rw [fillingAmong?] at h
    split at h
    · rename_i found hfound
      cases h
      obtain ⟨hspan, h⟩ := filling_found head hfound
      exact ⟨hspan, o, List.mem_cons_self, h⟩
    · obtain ⟨hspan, o', ho', h⟩ := fillingAmong_found tail h
      exact ⟨hspan, o', List.mem_cons_of_mem _ ho', h⟩

end

mutual

/-- Nothing that fills the span is missed: what is skipped does not touch it. -/
theorem filling_none {parent : Option Node} {e : Expr} : ∀ {o : Outline}, Every Truthful o →
    Upright o.content → filling? target parent o = none → o.content.Holds (.expr e) →
      e.span ≠ target
  | .node n cs, .node self below, hn, h, he => by
    have hcs : cs.map content = n.children := self
    intro hspan
    obtain ⟨heup, hstart, hstop⟩ := he.upright hn
    have hne := heup.tight
    have hbelow (h : fillingAmong? target n cs = none) (hself : n ≠ .expr e) : False := by
      cases he with
      | self => exact hself rfl
      | step hc hm =>
        obtain ⟨o, ho, rfl⟩ := List.mem_map.1 (hcs.symm ▸ hc)
        exact fillingAmong_none below h ho ((hn.row.of_mem (Node.mem_children.1 hc)).2.2 _ rfl)
          hm hspan
    unfold filling? at h
    split at h
    · rename_i hskip
      rcases Bool.or_eq_true_iff.1 hskip with hcomment | htouch
      · have := he.isComment hcomment
        rcases Node.isComment_iff.1 this with ⟨_, h⟩ | ⟨_, h⟩ <;> cases h
      · have htouch : n.span.touches e.span = false := by simpa [hspan] using htouch
        rw [Span.touches, Bool.and_eq_false_iff] at htouch
        change e.span.start < e.span.stop at hne
        change n.span.start ≤ e.span.start at hstart
        change e.span.stop ≤ n.span.stop at hstop
        rcases htouch with h | h <;> simp only [decide_eq_false_iff_not] at h <;> omega
    · split at h
      · split at h
        · cases h
        · rename_i hends
          exact hbelow h fun heq => hends (by cases heq; exact hspan ▸ ⟨rfl, rfl⟩)
      · rename_i hexpr
        exact hbelow h fun heq => hexpr e heq

theorem fillingAmong_none {parent : Node} {e : Expr} : ∀ {os : List Outline},
    EveryOf Truthful os → fillingAmong? target parent os = none → ∀ {o : Outline}, o ∈ os →
      Upright o.content → o.content.Holds (.expr e) → e.span ≠ target
  | o :: os, .cons head tail, h, x, hx, hup, he => by
    rw [fillingAmong?] at h
    split at h
    · cases h
    · rename_i hnone
      rcases List.mem_cons.1 hx with heq | hx
      · rw [heq] at hup he
        exact filling_none head hup hnone he
      · exact fillingAmong_none tail h hx hup he

end

end Filling

theorem EveryOf.of_mem {P : Outline → Prop} {o : Outline} {os : List Outline} (h : EveryOf P os)
    (ho : o ∈ os) : Every P o := by
  induction os with
  | nil => cases ho
  | cons x xs ih =>
    cases h with
    | cons head tail =>
      rcases List.mem_cons.1 ho with rfl | ho
      · exact head
      · exact ih tail ho

theorem EveryOf.left {P : Outline → Prop} {os ps : List Outline} (h : EveryOf P (os ++ ps)) :
    EveryOf P os := by
  induction os with
  | nil => exact .nil
  | cons o os ih =>
    cases h with
    | cons head tail => exact .cons head (ih tail)

section Runs

variable {start : Nat}

mutual

theorem runBelow_none : ∀ {o : Outline}, Every Truthful o →
    (∀ m, o.content.Holds m → m.span.start ≠ start) → runBelow? start o = none
  | .node n cs, .node self below, h => by
    have hcs : cs.map content = n.children := self
    have hskip := runAmong_skip (some n) [] below fun o ho m hm =>
      h m (.step (hcs ▸ List.mem_map_of_mem ho) hm)
    rwa [List.append_nil] at hskip

theorem runAmong_skip (parent : Option Node) (rest : List Outline) : ∀ {os : List Outline},
    EveryOf Truthful os → (∀ o ∈ os, ∀ m, o.content.Holds m → m.span.start ≠ start) →
      runAmong? start parent (os ++ rest) = runAmong? start parent rest
  | [], _, _ => rfl
  | o :: os, .cons head tail, h => by
    have htail := runAmong_skip parent rest tail fun x hx => h x (List.mem_cons_of_mem _ hx)
    rw [List.cons_append, runAmong?, htail]
    split
    · rfl
    · have hstart : o.span.start ≠ start := h o List.mem_cons_self _ (.self _)
      rw [if_neg hstart, runBelow_none head (h o List.mem_cons_self)]

end

end Runs

section Found

variable {w : Owner} {before after : List Stmt} {s : Stmt}

theorem list_node (w : Owner) : w.node.list = w.stmts := by
  cases w <;> rfl

/-- What lies before a node does not start where something in it starts. -/
theorem not_starts {x n m k : Node} (hx : Upright x) (hlt : x.span.stop ≤ n.span.start)
    (hn : n.span.start ≤ k.span.start) (hm : x.Holds m) : m.span.start ≠ k.span.start := by
  obtain ⟨hup, _, hstop⟩ := hm.upright hx
  have := hup.tight
  omega

/-- The list of an owner is entered at its first statement that starts at the offset. -/
theorem runAmong_owner (hw : Upright w.node) (hsplit : w.stmts = before ++ s :: after)
    {cs : List Outline} (hcs : cs = w.front ++ ofStmts w.stmts) (hevery : EveryOf Truthful cs)
    (htruthful : cs.map content = w.node.children) :
    runAmong? s.span.start (some w.node) cs = some (some w.node, (s :: after).map .stmt) := by
  have hsplit' : cs = (w.front ++ before.map ofStmt) ++ (s :: after).map ofStmt := by
    rw [hcs, hsplit, ofStmts_eq_map, List.map_append, List.append_assoc]
  have hapart := hw.pairwise
  rw [← htruthful, hsplit', List.map_append, List.pairwise_append] at hapart
  have hcomment : (ofStmt s).content.isComment = false := by
    rw [content_ofStmt]
    cases s <;> rfl
  have hstart : (ofStmt s).span.start = s.span.start := by
    rw [Outline.span, content_ofStmt]
    rfl
  rw [hsplit'] at hevery htruthful ⊢
  rw [runAmong_skip _ _ hevery.left, List.map_cons, runAmong?, if_neg (by simp [hcomment]),
    if_pos hstart, ← List.map_cons, siblings_ofStmt]
  intro o ho m hm
  have hchild : o.content ∈ w.node.children :=
    htruthful ▸ List.mem_map_of_mem (List.mem_append_left _ ho)
  have hlt := hapart.2.2 _ (List.mem_map_of_mem ho) _ (List.mem_map_of_mem List.mem_cons_self)
  rw [content_ofStmt] at hlt
  exact not_starts (k := .stmt s) (hw.of_child hchild) hlt (Nat.le_refl _) hm

mutual

theorem runBelow_found (hsplit : w.stmts = before ++ s :: after) : ∀ {o : Outline},
    Every Truthful o → Every OwnerComplete o → Upright o.content → o.content.Holds w.node →
      runBelow? s.span.start o = some (some w.node, (s :: after).map .stmt)
  | .node n cs, .node self below, .node owner belowOwner, hn, hw => by
    have hcs : cs.map content = n.children := self
    rw [runBelow?]
    cases hw with
    | self => exact runAmong_owner hn hsplit (owner w rfl) below hcs
    | step hc hm =>
      obtain ⟨o, ho, rfl⟩ := List.mem_map.1 (hcs.symm ▸ hc)
      have hfound := runAmong_found hsplit (some n) [] below belowOwner
        (fun x hx => hn.of_child (hcs ▸ List.mem_map_of_mem hx)) (hcs ▸ hn.pairwise) o ho hm
      simpa using hfound

theorem runAmong_found (hsplit : w.stmts = before ++ s :: after) (parent : Option Node)
    (rest : List Outline) : ∀ {os : List Outline}, EveryOf Truthful os → EveryOf OwnerComplete os →
      (∀ o ∈ os, Upright o.content) →
      (os.map content).Pairwise (fun a b => a.span.stop ≤ b.span.start) → ∀ o ∈ os,
      o.content.Holds w.node → runAmong? s.span.start parent (os ++ rest) =
        some (some w.node, (s :: after).map .stmt)
  | x :: xs, .cons head tail, .cons headOwner tailOwner, hup, hapart, o, ho, hw => by
    rw [List.map_cons, List.pairwise_cons] at hapart
    have hopens : w.node.span.start < s.span.start := by
      obtain ⟨hwup, _, _⟩ := hw.upright (hup o ho)
      refine hwup.local.opens s ?_
      rw [list_node, hsplit]
      simp
    have hinside := (hw.upright (hup o ho)).2.1
    rw [List.cons_append, runAmong?]
    rcases List.mem_cons.1 ho with heq | ho
    · -- the owner stands below the first outline
      rw [heq] at hw hinside
      have hcomment : x.content.isComment = false := Bool.eq_false_iff.2 fun hx => by
        have hnone := hw.isComment hx
        cases w <;> cases hnone
      have hstart : x.span.start ≠ s.span.start :=
        Nat.ne_of_lt (Nat.lt_of_le_of_lt hinside hopens)
      rw [if_neg (by simp [hcomment]), if_neg hstart,
        runBelow_found hsplit head headOwner (hup x List.mem_cons_self) hw]
    · -- the first outline lies before the owner
      have hlt := hapart.1 _ (List.mem_map_of_mem ho)
      have hnone (m : Node) (hm : x.content.Holds m) : m.span.start ≠ s.span.start :=
        not_starts (k := .stmt s) (hup x List.mem_cons_self) hlt
          (Nat.le_trans hinside (Nat.le_of_lt hopens)) hm
      have hrest := runAmong_found hsplit parent rest tail tailOwner
        (fun y hy => hup y (List.mem_cons_of_mem _ hy)) hapart.2 o ho hw
      split
      · exact hrest
      · rw [if_neg (show x.span.start ≠ s.span.start from hnone _ (.self _)),
          runBelow_none head hnone, hrest]

end

end Found

end Outline

/-- Nodes up to the first that ends at an offset, where nodes lie behind each other. -/
theorem takeThrough_eq {front rest : List Node} {n : Node}
    (h : ∀ m ∈ front, m.span.stop ≠ n.span.stop) :
    takeThrough? n.span.stop (front ++ n :: rest) = some (front ++ [n]) := by
  induction front with
  | nil => simp [takeThrough?]
  | cons m front ih =>
    rw [List.cons_append, takeThrough?, if_neg (h m List.mem_cons_self),
      ih fun k hk => h k (List.mem_cons_of_mem _ hk)]
    rfl

theorem mapM_stmts (ss : List Stmt) : (ss.map Node.stmt).mapM Node.stmt? = some ss := by
  induction ss with
  | nil => rfl
  | cons s ss ih =>
    rw [List.map_cons, List.mapM_cons, ih]
    rfl

theorem TopDecl.piece_eq (d : TopDecl) : d.piece = .child (Outline.ofTopDecl d).content := by
  cases d with
  | decl d => exact congrArg _ (Outline.content_outline (.decl d)).symm
  | func f => rfl

namespace SourceFile

/-- An expression that fills a span, and the node right above it. -/
structure ExprAt (f : SourceFile) (t : Span) (e : Expr) (parent : Node) : Prop where
  reached : parent ∈ f.nodes
  child : .expr e ∈ parent.children
  fills : e.span = t

/-- Statements next to each other in a list, from where a span starts to where it ends. -/
structure RunAt (f : SourceFile) (t : Span) (stmts : List Stmt) (owner : Owner) : Prop where
  reached : owner.node ∈ f.nodes
  part : stmts <:+: owner.stmts
  first : stmts.head?.map (·.span.start) = some t.start
  last : stmts.getLast?.map (·.span.stop) = some t.stop

/-- The declarations of a file stand in a row of upright nodes. -/
def Upright (f : SourceFile) : Prop :=
  ∃ lo hi, Row Tag.span Tight lo (f.decls.map TopDecl.piece) hi

variable {f : SourceFile} {t : Span}

theorem mem_nodes {m : Node} : m ∈ f.nodes ↔ ∃ o ∈ Outline.ofFile f, o.content.Holds m := by
  have hnodes := Outline.walkAll_eq_linksAll 0 none (Outline.ofFile f)
  rw [nodes, hnodes, Outline.mem_linksAll_iff none (Outline.every_ofFile Outline.truthful f)]

theorem mem_nodes_decls {m : Node} (hm : m.isComment = false) :
    m ∈ f.nodes ↔ ∃ d ∈ f.decls, (Outline.ofTopDecl d).content.Holds m := by
  rw [mem_nodes, Outline.ofFile]
  constructor
  · rintro ⟨o, ho, h⟩
    rcases List.mem_append.1 ho with ho | ho
    · obtain ⟨d, hd, rfl⟩ := List.mem_map.1 ho
      exact ⟨d, hd, h⟩
    · obtain ⟨g, _, rfl⟩ := List.mem_map.1 ho
      rw [h.isComment rfl] at hm
      cases hm
  · rintro ⟨d, hd, h⟩
    exact ⟨_, List.mem_append_left _ (List.mem_map_of_mem hd), h⟩

theorem isComment_expr (e : Expr) : (Node.expr e).isComment = false := by
  cases e <;> rfl

theorem ExprAt.mem {e : Expr} {parent : Node} (h : f.ExprAt t e parent) : .expr e ∈ f.nodes := by
  obtain ⟨o, ho, hparent⟩ := mem_nodes.1 h.reached
  exact mem_nodes.2 ⟨o, ho, hparent.trans (.step h.child (.self _))⟩

namespace Upright

theorem of_decl (hf : f.Upright) {d : TopDecl} (hd : d ∈ f.decls) :
    FuncLift.Upright (Outline.ofTopDecl d).content := by
  obtain ⟨lo, hi, hrow⟩ := hf
  exact (hrow.of_mem (List.mem_map_of_mem hd)).2.2 _ d.piece_eq

theorem same_decl (hf : f.Upright) {d d' : TopDecl} (hd : d ∈ f.decls) (hd' : d' ∈ f.decls)
    {m m' : Node} (h : (Outline.ofTopDecl d).content.Holds m)
    (h' : (Outline.ofTopDecl d').content.Holds m') (hstart : m.span.start = m'.span.start) :
    (Outline.ofTopDecl d).content = (Outline.ofTopDecl d').content := by
  obtain ⟨lo, hi, hrow⟩ := hf
  exact hrow.same_child (d.piece_eq ▸ List.mem_map_of_mem hd)
    (d'.piece_eq ▸ List.mem_map_of_mem hd') h h' hstart

theorem expr_unique (hf : f.Upright) {e e' : Expr} (he : .expr e ∈ f.nodes)
    (he' : .expr e' ∈ f.nodes) (hspan : e.span = e'.span) : e = e' := by
  obtain ⟨d, hd, h⟩ := (mem_nodes_decls (isComment_expr e)).1 he
  obtain ⟨d', hd', h'⟩ := (mem_nodes_decls (isComment_expr e')).1 he'
  have hsame := hf.same_decl hd hd' h h' (congrArg Span.start hspan)
  exact h.unique (hsame ▸ h') (hf.of_decl hd) hspan

theorem parent_unique (hf : f.Upright) {e : Expr} {p p' : Node} (h : f.ExprAt t e p)
    (h' : f.ExprAt t e p') : p = p' := by
  have hcomment {q : Node} (hq : f.ExprAt t e q) : q.isComment = false :=
    Bool.eq_false_iff.2 fun hc => by
      have := (Node.Holds.step hq.child (.self _)).isComment hc
      rw [isComment_expr] at this
      cases this
  obtain ⟨d, hd, hp⟩ := (mem_nodes_decls (hcomment h)).1 h.reached
  obtain ⟨d', hd', hp'⟩ := (mem_nodes_decls (hcomment h')).1 h'.reached
  have hsame := hf.same_decl hd hd' (hp.trans (.step h.child (.self _)))
    (hp'.trans (.step h'.child (.self _))) rfl
  exact hp.parent_unique (hsame ▸ hp') (hf.of_decl hd) h.child h'.child

theorem pairwise (hf : f.Upright) : ((f.decls.map Outline.ofTopDecl).map Outline.content).Pairwise
    fun a b => a.span.stop ≤ b.span.start := by
  obtain ⟨lo, hi, hrow⟩ := hf
  have hnodes (ds : List TopDecl) : (ds.map Outline.ofTopDecl).map Outline.content =
      Piece.nodes (ds.map TopDecl.piece) :=
    @Outline.content_list TopDecl Outline.ofTopDecl (List.map Outline.ofTopDecl) TopDecl.piece rfl
      (fun _ _ => rfl) TopDecl.piece_eq ds
  rw [hnodes]
  exact hrow.pairwise

end Upright

theorem exprAt_of_found {e : Expr} {q : Option Node}
    (h : (Outline.ofFile f).findSome? (Outline.filling? t none) = some (e, q)) :
    ∃ parent, q = some parent ∧ f.ExprAt t e parent := by
  obtain ⟨o, ho, hfill⟩ := List.exists_of_findSome?_eq_some h
  have hevery := (Outline.every_ofFile Outline.truthful f).of_mem ho
  obtain ⟨hspan, ⟨_, hcontent⟩ | ⟨parent, hq, hparent, he⟩⟩ := Outline.filling_found hevery hfill
  · -- no expression stands at the top of a file
    rcases List.mem_append.1 ho with ho | ho
    · obtain ⟨d, _, rfl⟩ := List.mem_map.1 ho
      cases d with
      | decl d => cases (Outline.content_outline (.decl d)).symm.trans hcontent
      | func f => cases hcontent
    · obtain ⟨g, _, rfl⟩ := List.mem_map.1 ho
      cases hcontent
  · exact ⟨parent, hq, mem_nodes.2 ⟨o, ho, hparent⟩, he, hspan⟩

theorem Upright.not_found (hf : f.Upright)
    (h : (Outline.ofFile f).findSome? (Outline.filling? t none) = none) {e : Expr}
    (he : .expr e ∈ f.nodes) : e.span ≠ t := by
  obtain ⟨d, hd, hholds⟩ := (mem_nodes_decls (isComment_expr e)).1 he
  have hmem : Outline.ofTopDecl d ∈ Outline.ofFile f :=
    List.mem_append_left _ (List.mem_map_of_mem hd)
  exact Outline.filling_none ((Outline.every_ofFile Outline.truthful f).of_mem hmem)
    (hf.of_decl hd) (List.findSome?_eq_none_iff.1 h _ hmem) hholds

theorem Upright.statementsAt_of_runAt (hf : f.Upright) {stmts : List Stmt} {owner : Owner}
    (h : f.RunAt t stmts owner) : f.statementsAt t = .ok (.statements stmts owner) := by
  have hcomment : owner.node.isComment = false := by cases owner <;> rfl
  obtain ⟨d, hd, hholds⟩ := (mem_nodes_decls hcomment).1 h.reached
  have howner := (hholds.upright (hf.of_decl hd)).1
  obtain ⟨before, after, hpart⟩ := h.part
  -- the search starts at the first statement
  obtain ⟨first, hfirst, hstart⟩ := Option.map_eq_some_iff.1 h.first
  obtain ⟨rest, hrest⟩ := List.head?_eq_some_iff.1 hfirst
  have hsplit : owner.stmts = before ++ first :: (rest ++ after) := by
    rw [← hpart, hrest, List.append_assoc, List.cons_append]
  have hfound := Outline.runAmong_found hsplit none (f.comments.map Outline.ofCommentGroup)
    (Outline.every_ofFile Outline.truthful f).left (Outline.every_ofFile Outline.ownerComplete f).left
    (fun o ho => by
      obtain ⟨d, hd, rfl⟩ := List.mem_map.1 ho
      exact hf.of_decl hd) hf.pairwise _ (List.mem_map_of_mem hd) hholds
  -- and goes on to the last one
  obtain ⟨last, hlast, hstop⟩ := Option.map_eq_some_iff.1 h.last
  obtain ⟨front, hfront⟩ := List.getLast?_eq_some_iff.1 hlast
  have htake : takeThrough? t.stop ((first :: (rest ++ after)).map Node.stmt) =
      some (stmts.map Node.stmt) := by
    rw [← List.cons_append, ← hrest, hfront, ← hstop]
    simp only [List.map_append, List.map_cons, List.map_nil, List.append_assoc, List.cons_append,
      List.nil_append]
    refine takeThrough_eq (n := .stmt last) fun m hm => ?_
    obtain ⟨s, hs, rfl⟩ := List.mem_map.1 hm
    exact Nat.ne_of_lt (howner.stmts_lt (by rw [← hpart, hfront]) hs)
  have howner? : Owner.ofNode? owner.node = some owner := by cases owner <;> rfl
  unfold statementsAt
  rw [← hstart, Outline.ofFile, hfound]
  simp only [htake, Option.bind_some, howner?, mapM_stmts]

theorem runAt_of_statementsAt {r : Region} (h : f.statementsAt t = .ok r) :
    ∃ stmts owner, r = .statements stmts owner ∧ f.RunAt t stmts owner := by
  obtain ⟨stmts, owner, rfl⟩ : ∃ stmts owner, r = .statements stmts owner := by
    unfold statementsAt at h
    repeat' split at h
    all_goals cases h
    exact ⟨_, _, rfl⟩
  obtain ⟨⟨p, howner⟩, ⟨before, after, hpart⟩, ⟨first, hfirst, hstart⟩, ⟨last, hlast, hstop⟩⟩ :=
    statementsAt_located h
  have hnodes := Outline.walkAll_eq_linksAll 0 none (Outline.ofFile f)
  refine ⟨stmts, owner, rfl, ?_, ⟨before, after, hpart.symm⟩, ?_, ?_⟩
  · rw [nodes, hnodes]
    exact List.mem_map_of_mem (f := Link.node) howner
  · rw [hfirst, Option.map_some, hstart]
  · rw [hlast, Option.map_some, hstop]

section Region

theorem regionAt_expression (hf : f.Upright) (e : Expr) (parent : Node) :
    (∃ slot, f.regionAt t = .ok (.expression e parent slot)) ↔ f.ExprAt t e parent := by
  unfold regionAt
  constructor
  · rintro ⟨slot, h⟩
    split at h
    · rename_i e' parent' slot' hfound
      cases h
      obtain ⟨_, hq, hat⟩ := exprAt_of_found hfound
      cases hq
      exact hat
    · obtain ⟨_, _, h, _⟩ := runAt_of_statementsAt h
      cases h
  · intro h
    cases hfound : (Outline.ofFile f).findSome? (Outline.filling? t none) with
    | none => exact absurd h.fills (hf.not_found hfound h.mem)
    | some found =>
      obtain ⟨e', q⟩ := found
      obtain ⟨parent', rfl, hat⟩ := exprAt_of_found hfound
      have he := hf.expr_unique h.mem hat.mem (h.fills.trans hat.fills.symm)
      subst he
      rw [hf.parent_unique h hat]
      exact ⟨_, rfl⟩

theorem Upright.exists_parent (hf : f.Upright) {e : Expr} (he : .expr e ∈ f.nodes)
    (hspan : e.span = t) : ∃ parent, f.ExprAt t e parent := by
  cases hfound : (Outline.ofFile f).findSome? (Outline.filling? t none) with
  | none => exact absurd hspan (hf.not_found hfound he)
  | some found =>
    obtain ⟨e', q⟩ := found
    obtain ⟨parent, _, hat⟩ := exprAt_of_found hfound
    rw [hf.expr_unique he hat.mem (hspan.trans hat.fills.symm)]
    exact ⟨parent, hat⟩

theorem regionAt_statements (hno : ∀ e, .expr e ∈ f.nodes → e.span ≠ t) :
    f.regionAt t = f.statementsAt t := by
  unfold regionAt
  split
  · rename_i hfound
    obtain ⟨_, _, hat⟩ := exprAt_of_found hfound
    exact absurd hat.fills (hno _ hat.mem)
  · rfl

end Region

end SourceFile

/-- A region of a file that fills a span. -/
def Region.Fills (f : SourceFile) (t : Span) : Region → Prop
  | .expression e parent _ => f.ExprAt t e parent
  | .statements stmts owner => f.RunAt t stmts owner

theorem SourceFile.regionAt_fills {f : SourceFile} {t : Span} {r : Region}
    (h : f.regionAt t = .ok r) : r.Fills f t := by
  unfold regionAt at h
  split at h
  · rename_i hfound
    cases h
    obtain ⟨_, hq, hat⟩ := exprAt_of_found hfound
    cases hq
    exact hat
  · obtain ⟨_, _, rfl, hat⟩ := runAt_of_statementsAt h
    exact hat

namespace Document

/-- A selection stands for what fills a span: the one expression that does, else the statements, and
if there are none it is refused. -/
structure Resolves (d : Document) (s : Selection) (t : Span) : Prop where
  expression : ∀ e parent,
    (∃ slot, d.resolve s = .ok (.expression e parent slot)) ↔ d.file.ExprAt t e parent
  parent : ∀ e, .expr e ∈ d.file.nodes → e.span = t → ∃ parent, d.file.ExprAt t e parent
  expression_unique : ∀ e e', .expr e ∈ d.file.nodes → .expr e' ∈ d.file.nodes → e.span = t →
    e'.span = t → e = e'
  statements : (∀ e, .expr e ∈ d.file.nodes → e.span ≠ t) → ∀ stmts owner,
    d.resolve s = .ok (.statements stmts owner) ↔ d.file.RunAt t stmts owner
  statements_unique : ∀ stmts owner stmts' owner', d.file.RunAt t stmts owner →
    d.file.RunAt t stmts' owner' → stmts = stmts' ∧ owner = owner'
  otherwise : (∀ e, .expr e ∈ d.file.nodes → e.span ≠ t) →
    (∀ stmts owner, ¬d.file.RunAt t stmts owner) → ∃ fault, d.resolve s = .error fault

theorem ofSource_file_upright {source : String} {d : Document} (h : ofSource source = .ok d) :
    d.file.Upright := by
  obtain ⟨stop, _, hstrip⟩ := ofSource_upright h
  have hrow := hstrip.row
  rw [piecesOf_solid] at hrow
  exact ⟨_, _, hrow.cons.2.2.2⟩

theorem ofSource_text {source : String} {d : Document} (h : ofSource source = .ok d) :
    d.lines = .ofText (terminated source) ∧ d.source = some (terminated source) := by
  obtain ⟨_, _, _, hread⟩ := ofSource_ok h
  exact ⟨hread.lines, hread.source⟩

/-- What a selection comes down to once it is trimmed. -/
def Reads (d : Document) (s : Selection) (t : Span) : Prop :=
  d.resolve s = if t.start ≥ t.stop then .error .empty else d.file.regionAt t

theorem reads_of_range {d : Document} {s : Selection} {raw t : Span} (hraw : d.range? s = some raw)
    (hle : raw.start ≤ raw.stop) (ht : d.range? (s.shrink (d.source.getD d.print)) = some t) :
    d.Reads s t := by
  unfold Reads resolve
  simp only [hraw, ht, if_neg (Nat.not_lt.2 hle)]

/-- The range of a shrunk selection, where the lines are those of the text. -/
theorem range_shrink {d : Document} {s : Selection} {raw : Span} {text : String}
    (hlines : d.lines = .ofText (terminated text)) (hraw : d.range? s = some raw)
    (hle : raw.start ≤ raw.stop) :
    ∃ t, d.range? (s.shrink text) = some t ∧ t.Trims (terminated text) raw := by
  have hshrink : s.shrink text = s.shrink (terminated text) := by
    unfold Selection.shrink
    rw [terminated_terminated]
  unfold range? at hraw ⊢
  rw [hlines] at hraw ⊢
  split at hraw
  · rename_i first last hfirst hlast
    cases hraw
    obtain ⟨t, hstart, hstop, htrims⟩ :=
      Selection.trims_shrink (terminated_terminated text) hfirst hlast hle
    rw [hshrink, hstart, hstop]
    exact ⟨t, rfl, htrims⟩
  · cases hraw

section Upright

variable {d : Document} {s : Selection} {t : Span}

theorem expr_nonempty (hf : d.file.Upright) {e : Expr} (he : .expr e ∈ d.file.nodes) :
    e.span.start < e.span.stop := by
  obtain ⟨x, hx, h⟩ := (SourceFile.mem_nodes_decls (SourceFile.isComment_expr e)).1 he
  exact (h.upright (hf.of_decl hx)).1.tight

theorem run_nonempty (hf : d.file.Upright) {stmts : List Stmt} {owner : Owner}
    (h : d.file.RunAt t stmts owner) : t.start < t.stop := by
  have hcomment : owner.node.isComment = false := by cases owner <;> rfl
  obtain ⟨x, hx, hholds⟩ := (SourceFile.mem_nodes_decls hcomment).1 h.reached
  have howner := (hholds.upright (hf.of_decl hx)).1
  obtain ⟨before, after, hpart⟩ := h.part
  obtain ⟨first, hfirst, hstart⟩ := Option.map_eq_some_iff.1 h.first
  obtain ⟨last, hlast, hstop⟩ := Option.map_eq_some_iff.1 h.last
  obtain ⟨front, rfl⟩ := List.getLast?_eq_some_iff.1 hlast
  have hlt : first.span.start < first.span.stop := by
    have hmem : first ∈ owner.stmts := by
      rw [← hpart]
      exact List.mem_append_left _ (List.mem_append_right _ (List.mem_of_mem_head? hfirst))
    obtain ⟨others, hchildren⟩ := owner.children_eq
    have hchild : .stmt first ∈ owner.node.children := by
      rw [hchildren]
      exact List.mem_append_right _ (List.mem_map_of_mem hmem)
    exact (howner.of_child hchild).tight
  rw [← hstart, ← hstop]
  cases front with
  | nil =>
    cases hfirst
    exact hlt
  | cons x front =>
    cases hfirst
    exact Nat.lt_trans hlt (howner.stmts_lt hpart.symm List.mem_cons_self)

theorem Reads.resolves (h : d.Reads s t) (hf : d.file.Upright) : d.Resolves s t := by
  unfold Reads at h
  refine ⟨fun e parent => ?_, fun e he hspan => hf.exists_parent he hspan,
    fun e e' he he' hspan hspan' => hf.expr_unique he he' (hspan.trans hspan'.symm),
    fun hno stmts owner => ?_, fun stmts owner stmts' owner' hrun hrun' => ?_, fun hno hnone => ?_⟩
  · rw [← SourceFile.regionAt_expression hf, h]
    split
    · rename_i hempty
      rw [SourceFile.regionAt_expression hf]
      refine ⟨by rintro ⟨_, ⟨⟩⟩, fun hat => ?_⟩
      have hlt := expr_nonempty hf hat.mem
      rw [hat.fills] at hlt
      omega
    · rfl
  · rw [h]
    split
    · refine ⟨by rintro ⟨⟩, fun hrun => ?_⟩
      have hlt := run_nonempty hf hrun
      omega
    · rw [SourceFile.regionAt_statements hno]
      refine ⟨fun hok => ?_, hf.statementsAt_of_runAt⟩
      obtain ⟨_, _, heq, hrun⟩ := SourceFile.runAt_of_statementsAt hok
      cases heq
      exact hrun
  · have heq := (hf.statementsAt_of_runAt hrun).symm.trans (hf.statementsAt_of_runAt hrun')
    cases heq
    exact ⟨rfl, rfl⟩
  · rw [h]
    split
    · exact ⟨_, rfl⟩
    · rw [SourceFile.regionAt_statements hno]
      cases hat : d.file.statementsAt t with
      | error fault => exact ⟨fault, rfl⟩
      | ok r =>
        obtain ⟨stmts, owner, _, hrun⟩ := SourceFile.runAt_of_statementsAt hat
        exact absurd hrun (hnone stmts owner)

end Upright

/-- In a document that was read a selection stands for what fills its range without blanks. In any
document, and so in every one of a session, what is returned fills the range. -/
theorem resolve_exact {d : Document} {s : Selection} {raw : Span} (hraw : d.range? s = some raw)
    (hle : raw.start ≤ raw.stop) :
    (∀ source, ofSource source = .ok d → (∃ t : Span, t.Trims (terminated source) raw) ∧
      ∀ t : Span, t.Trims (terminated source) raw → d.Resolves s t) ∧
    ∀ r, d.resolve s = .ok r → ∃ t, d.range? (s.shrink (d.source.getD d.print)) = some t ∧
      (d.lines = .ofText (terminated (d.source.getD d.print)) →
        t.Trims (terminated (d.source.getD d.print)) raw) ∧ r.Fills d.file t := by
  constructor
  · intro source hsource
    obtain ⟨hlines, htext⟩ := ofSource_text hsource
    rw [← terminated_terminated] at hlines
    obtain ⟨t, ht, htrims⟩ := range_shrink hlines hraw hle
    rw [terminated_terminated] at htrims
    refine ⟨⟨t, htrims⟩, fun t' htrims' => ?_⟩
    have hreads : d.Reads s t := reads_of_range hraw hle (by rwa [htext])
    refine Reads.resolves ?_ (ofSource_file_upright hsource)
    rcases htrims'.unique htrims with rfl | ⟨hempty', hempty⟩
    · exact hreads
    · unfold Reads at hreads ⊢
      rw [hreads, if_pos (by omega), if_pos (by omega)]
  · intro r hr
    cases ht : d.range? (s.shrink (d.source.getD d.print)) with
    | none =>
      unfold resolve at hr
      simp [hraw, ht, if_neg (Nat.not_lt.2 hle)] at hr
    | some t =>
      have hreads := reads_of_range hraw hle ht
      refine ⟨t, rfl, fun hlines => ?_, ?_⟩
      · obtain ⟨t', ht', htrims⟩ := range_shrink hlines hraw hle
        rw [ht] at ht'
        cases ht'
        exact htrims
      · rw [hreads] at hr
        split at hr
        · cases hr
        · exact SourceFile.regionAt_fills hr

/-- A line, with the blank before it, of a text of six lines. -/
theorem resolve_exact_line :
    let source := "package p\n\nfunc f() \x7b\n\tx := 3\n\tprintln(x)\n\x7d\n"
    let s : Selection := ⟨⟨4, 1⟩, ⟨4, 8⟩⟩
    ∃ d, ofSource source = .ok d ∧ d.range? s = some ⟨22, 29⟩ ∧
      ((∃ t : Span, t.Trims (terminated source) ⟨22, 29⟩) ∧
        ∀ t : Span, t.Trims (terminated source) ⟨22, 29⟩ → d.Resolves s t) ∧
      ∃ r t, d.resolve s = .ok r ∧ r.Fills d.file t := by
  intro source s
  obtain ⟨d, hread, hcheck⟩ := exists_read source
    (fun d => decide (d.range? s = some ⟨22, 29⟩) && (d.resolve s).toBool) (by decide +kernel)
  obtain ⟨hrange, hok⟩ := Bool.and_eq_true_iff.1 hcheck
  have hrange := of_decide_eq_true hrange
  obtain ⟨hread', hfills⟩ := resolve_exact hrange (by decide)
  refine ⟨d, hread, hrange, hread' source hread, ?_⟩
  cases hr : d.resolve s with
  | error fault => simp [hr, Except.toBool] at hok
  | ok r =>
    obtain ⟨t, _, _, hr⟩ := hfills r hr
    exact ⟨r, t, rfl, hr⟩

/-- Behind a comment that gets a line of its own the spans of a document that was lifted are one byte
behind its text. The selected bytes without the blanks around them are then not the ones that the
expression fills. -/
theorem resolve_astray : ∃ (d next : Document) (done : Lifted) (r : Region),
    ofSource ("package p\n\nfunc f() \x7b\n\tx := 3\n\tprintln(x)\n\x7d\n\n" ++
      "var a = 1\n/*aaaa  bbbbbb*/ var b = 22 + 3\n") = .ok d ∧
    d.lift ⟨⟨4, 7⟩, ⟨4, 8⟩⟩ "Seven" = .ok (next, done) ∧
      next.range? ⟨⟨10, 7⟩, ⟨10, 15⟩⟩ = some ⟨84, 92⟩ ∧
      (⟨85, 91⟩ : Span).Trims (terminated next.print) ⟨84, 92⟩ ∧
      next.resolve ⟨⟨10, 7⟩, ⟨10, 15⟩⟩ = .ok r ∧ r.span = ⟨86, 92⟩ := by
  obtain ⟨d, next, done, hread, hlift, hcheck⟩ := exists_lift
    ("package p\n\nfunc f() \x7b\n\tx := 3\n\tprintln(x)\n\x7d\n\n" ++
      "var a = 1\n/*aaaa  bbbbbb*/ var b = 22 + 3\n") ⟨⟨4, 7⟩, ⟨4, 8⟩⟩ "Seven"
    (fun _ next _ => decide (next.range? ⟨⟨10, 7⟩, ⟨10, 15⟩⟩ = some ⟨84, 92⟩ ∧
      [84, 85, 90, 91].map (fun i => (Selection.blankBytes (terminated next.print).toList)[i]?) =
        [some true, some false, some false, some true] ∧
      (next.resolve ⟨⟨10, 7⟩, ⟨10, 15⟩⟩).toOption.map Region.span = some ⟨86, 92⟩))
    (by decide +kernel)
  obtain ⟨hrange, hbytes, hresolve⟩ := of_decide_eq_true hcheck
  simp only [List.map_cons, List.map_nil, List.cons.injEq, and_true] at hbytes
  obtain ⟨hfirst, hstart, hlast, hbehind⟩ := hbytes
  have hblank (i : Nat) : (Selection.blankBytes (terminated next.print).toList)[i]? = some true ↔
      BlankAt (terminated next.print) i := Selection.getElem_blankBytes _ i
  have hink {i : Nat} (hi : (Selection.blankBytes (terminated next.print).toList)[i]? = some false) :
      ¬BlankAt (terminated next.print) i := fun h => by
    rw [← hblank, hi] at h
    cases h
  cases hr : next.resolve ⟨⟨10, 7⟩, ⟨10, 15⟩⟩ with
  | error fault => simp [hr, Except.toOption] at hresolve
  | ok r =>
    refine ⟨d, next, done, r, hread, hlift, hrange, ⟨by decide, by decide, by decide, ?_, ?_, ?_⟩, hr,
      by simpa [hr, Except.toOption] using hresolve⟩
    · intro i hle hlt
      obtain rfl : i = 84 := by dsimp only at hle hlt; omega
      exact (hblank 84).1 hfirst
    · intro i hle hlt
      obtain rfl : i = 91 := by dsimp only at hle hlt; omega
      exact (hblank 91).1 hbehind
    · exact fun _ => ⟨hink hstart, hink hlast⟩

end Document

end FuncLift
