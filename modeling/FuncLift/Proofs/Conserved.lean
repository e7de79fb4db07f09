import FuncLift.Proofs.Children
import FuncLift.Proofs.Session

/-!
# What lifting keeps

A lift moves nodes; it loses none and doubles none. The call takes the one place that the region
had, the region goes into the body of the new function, and every other node keeps its parent and
everything it says except its span.
-/
namespace FuncLift

open Outline

namespace Outline

theorem linksAll_rehung {p : Option Nat} {os : List Outline} {l : Link} (h : l ∈ linksAll p os)
    (q : Option Nat) :
    (∃ o ∈ os, l = ⟨p, o.content⟩ ∧ ⟨q, o.content⟩ ∈ linksAll q os) ∨ l ∈ linksAll q os := by
  induction os with
  | nil => cases h
  | cons o os ih =>
    obtain ⟨n, cs⟩ := o
    rw [linksAll_cons, links_node, List.cons_append] at h ⊢
    rcases List.mem_cons.1 h with rfl | h
    · exact .inl ⟨_, List.mem_cons_self, rfl, List.mem_cons_self⟩
    · rcases List.mem_append.1 h with h | h
      · exact .inr (List.mem_cons_of_mem _ (List.mem_append_left _ h))
      · rcases ih h with ⟨o, ho, hl, hq⟩ | hq
        · exact .inl ⟨o, List.mem_cons_of_mem _ ho, hl,
            List.mem_cons_of_mem _ (List.mem_append_right _ hq)⟩
        · exact .inr (List.mem_cons_of_mem _ (List.mem_append_right _ hq))

mutual

theorem parent_links {i : Nat} {l : Link} : ∀ {o : Outline}, l ∈ o.links (some i) →
    l.parent ≠ none
  | .node n cs, h => by
    rcases List.mem_cons.1 h with rfl | h
    · exact fun h => by cases h
    · exact parent_linksAll h

theorem parent_linksAll {i : Nat} {l : Link} : ∀ {os : List Outline}, l ∈ linksAll (some i) os →
    l.parent ≠ none
  | o :: os, h => by
    rcases List.mem_append.1 h with h | h
    · exact parent_links h
    · exact parent_linksAll h

end

theorem filter_linksAll (os : List Outline) :
    (linksAll none os).filter (fun l => l.parent.isNone) = os.map fun o => ⟨none, o.content⟩ := by
  induction os with
  | nil => rfl
  | cons o os ih =>
    obtain ⟨n, cs⟩ := o
    have hcs : (linksAll (some n.tag.id) cs).filter (fun l => l.parent.isNone) = [] := by
      refine List.filter_eq_nil_iff.2 fun l hl hnone => parent_linksAll hl ?_
      exact Option.isNone_iff_eq_none.1 hnone
    rw [linksAll_cons, links_node, List.cons_append, List.filter_cons_of_pos rfl,
      List.filter_append, hcs, ih]
    rfl

end Outline

/-- The same nodes in the same places, whatever their spans. -/
def SameLinks (a b : List Link) : Prop := b.map Link.bare = a.map Link.bare

namespace Change

variable {c : Change}

theorem same_expr (hc : c.Retags) (e : Expr) (p : Option Nat) :
    SameLinks ((ofExpr e).links p) ((ofExpr (c.expr e)).links p) := by
  obtain ⟨hc, hid⟩ := hc
  rw [hc]
  exact ((congruent_tags hid).ofExpr p e).1

theorem same_stmts (hc : c.Retags) (ss : List Stmt) (p : Option Nat) :
    SameLinks (linksAll p (ofStmts ss)) (linksAll p (ofStmts (ss.map c.stmt))) := by
  obtain ⟨hc, hid⟩ := hc
  rw [← stmts_eq_map, hc]
  exact ((congruent_tags hid).ofStmts p ss).1

theorem same_commentGroup (hc : c.Retags) (g : CommentGroup) :
    SameLinks ((ofCommentGroup g).links none) ((ofCommentGroup (c.commentGroup g)).links none) := by
  obtain ⟨hc, hid⟩ := hc
  rw [hc]
  exact ((congruent_tags hid).ofCommentGroup none g).1

theorem expr_tags {f : Tag → Tag} : ∀ e : Expr, ((tags f).expr e).identName? = e.identName? := by
  intro e
  cases e <;> rfl

end Change

namespace Plan

variable (p : Plan)

def Calls : Replacement → Prop
  | .expr e => p.IsCall e
  | .stmt s => ∃ call, p.IsCall call ∧ p.IsCallStmt call s

/-- The region with all its nodes is in a body. -/
def Holds (body : List Stmt) : Prop :=
  match p.region with
  | .expression e _ _ => ∃ moved, IsExprBody moved body ∧
      ∀ q, SameLinks ((ofExpr e).links q) ((ofExpr moved).links q)
  | .statements stmts _ => ∃ moved, p.IsStmtsBody moved body ∧ moved.length = stmts.length ∧
      ∀ q, SameLinks (linksAll q (ofStmts stmts)) (linksAll q (ofStmts moved))

variable {p}

theorem IsExprBody.retag (c : Change) {e : Expr} {body : List Stmt} (h : IsExprBody e body) :
    IsExprBody (c.expr e) (body.map c.stmt) := by
  rcases h with ⟨t, u, rfl⟩ | ⟨t, rfl⟩
  · exact .inl ⟨_, _, rfl⟩
  · exact .inr ⟨_, rfl⟩

theorem IsStmtsBody.retag {c : Change} (hc : c.Retags) {stmts body : List Stmt}
    (h : p.IsStmtsBody stmts body) : p.IsStmtsBody (stmts.map c.stmt) (body.map c.stmt) := by
  obtain ⟨hc, _⟩ := hc
  rcases h with ⟨hout, rfl⟩ | ⟨hout, t, es, rfl, hes⟩
  · exact .inl ⟨hout, rfl⟩
  · refine .inr ⟨hout, c.onTag t, es.map c.expr, ?_, ?_⟩
    · simp [Change.stmt]
    · rw [hc, List.map_map, ← hes]
      exact List.map_congr_left fun e _ => Change.expr_tags e

theorem Holds.retag {c : Change} (hc : c.Retags) {body : List Stmt} (h : p.Holds body) :
    p.Holds (body.map c.stmt) := by
  unfold Holds at h ⊢
  split at h
  · obtain ⟨moved, hbody, hsame⟩ := h
    exact ⟨c.expr moved, hbody.retag c, fun q => (c.same_expr hc moved q).trans (hsame q)⟩
  · obtain ⟨moved, hbody, hlength, hsame⟩ := h
    exact ⟨moved.map c.stmt, hbody.retag hc, by simpa using hlength,
      fun q => (c.same_stmts hc moved q).trans (hsame q)⟩

end Plan

theorem Change.body_func {c : Change} (hc : c.Retags) {f : FuncDecl} {t : Tag} {body : List Stmt}
    (h : f.body = some ⟨t, body⟩) : (c.func f).body = some ⟨c.onTag t, body.map c.stmt⟩ := by
  have hstmts : c.onStmts t.id (c.stmts body) = c.stmts body := by
    rw [hc.1]
    rfl
  rw [Change.stmts_eq_map] at hstmts
  simp [Change.func, h, Change.block, hstmts]

namespace Region

def rootIds (r : Region) : List Nat := r.roots.map fun o => o.content.tag.id

end Region

theorem Plan.Holds.mem_func {p : Plan} {f : FuncDecl} {t : Tag} {body : List Stmt}
    (h : p.Holds body) (hf : f.body = some ⟨t, body⟩) : ∃ q, ∀ l ∈ linksAll q p.region.roots,
      l.bare ∈ ((ofFunc f).links none).map Link.bare := by
  have hbody : ∀ l ∈ linksAll (some t.id) (ofStmts body), l ∈ (ofFunc f).links none := by
    intro l hl
    rw [ofFunc, links_node, hf]
    refine List.mem_cons_of_mem _ (mem_linksAll (o := ofBlock ⟨t, body⟩) (by simp) ?_)
    exact List.mem_cons_of_mem _ hl
  have hsame {a b : List Link} (hab : SameLinks a b) (hb : ∀ l ∈ b, l ∈ (ofFunc f).links none) :
      ∀ l ∈ a, l.bare ∈ ((ofFunc f).links none).map Link.bare := by
    intro l hl
    have hl := List.mem_map_of_mem (f := Link.bare) hl
    rw [← hab] at hl
    obtain ⟨m, hm, hlm⟩ := List.mem_map.1 hl
    exact hlm ▸ List.mem_map_of_mem (hb m hm)
  unfold Plan.Holds at h
  split at h
  · rename_i e parent slot hr
    obtain ⟨moved, hmoved, hlinks⟩ := h
    have hin : ∃ q, ∀ l ∈ (ofExpr moved).links q, l ∈ (ofFunc f).links none := by
      rcases hmoved with ⟨u, v, rfl⟩ | ⟨u, rfl⟩
      · refine ⟨some v.id, fun l hl => hbody l ?_⟩
        simp [ofStmts, ofStmt, ofSimple, Node.tag, Simple.tag, hl]
      · refine ⟨some u.id, fun l hl => hbody l ?_⟩
        simp [ofStmts, ofStmt, ofExprs, Node.tag, Stmt.tag, hl]
    obtain ⟨q, hin⟩ := hin
    refine ⟨q, fun l hl => hsame (hlinks q) hin l ?_⟩
    rw [hr, Region.roots, linksAll_cons, linksAll_nil, List.append_nil] at hl
    exact hl
  · rename_i stmts owner hr
    obtain ⟨moved, hmoved, _, hlinks⟩ := h
    refine ⟨some t.id, fun l hl => hsame (hlinks (some t.id)) (fun m hm => hbody m ?_) l ?_⟩
    · rcases hmoved with ⟨_, rfl⟩ | ⟨_, _, _, rfl, _⟩
      · exact hm
      · rw [Change.ofStmts_append, linksAll_append]
        exact List.mem_append_left _ hm
    · rw [hr, Region.roots, ← ofStmts_eq_map] at hl
      exact hl

namespace SourceFile

def declHeads (f : SourceFile) : List Node := f.decls.map fun x => (ofTopDecl x).content.head

theorem declHeads_eq (f : SourceFile) : f.declHeads =
    ((f.declLinks.map Link.bare).filter fun l => l.parent.isNone).map Link.node := by
  have hbare (ls : List Link) : (ls.map Link.bare).filter (fun l => l.parent.isNone) =
      (ls.filter fun l => l.parent.isNone).map Link.bare := List.filter_map ..
  rw [hbare, declLinks, filter_linksAll]
  simp [declHeads, Link.bare]

/-- The children of a node that stands once in a file hang on it there. -/
theorem heads_children {f : SourceFile} {k : Link} (hk : k ∈ f.declLinks)
    (hone : linkCount k.id f.declLinks ≤ 1) :
    k.node.children.map Node.head = (hanging k.id (f.declLinks.map Link.bare)).map Link.node := by
  have htruthful : EveryOf Truthful (f.decls.map ofTopDecl) :=
    every_ofList truthful (every_ofTopDecl truthful) f.decls
  rw [hanging_bare, SourceFile.declLinks, hanging_linksAll rfl (by simp) htruthful hone hk,
    List.map_map, List.map_map]
  rfl

end SourceFile

/-- What a lift has done to a file: `f` is the new function, and `r` stands where the region
stood. -/
structure Conserved (d next : Document) (done : Lifted) (f : FuncDecl) (r : Replacement) :
    Prop where
  function : f.tag.id = done.function
  /-- The declarations are the old ones and the new function. -/
  decls : next.file.decls.getLast? = some (.func f) ∧
    next.file.declHeads = d.file.declHeads ++ [Node.head (.func f)]
  calls : done.plan.Calls r
  body : ∃ t stmts, f.body = some ⟨t, stmts⟩ ∧ done.plan.Holds stmts
  /-- An expression has its place in the parent as its slot, and the filled slot has the call in that
  place and all else of the parent. -/
  slot : ∀ e parent slot, done.plan.region = .expression e parent slot → ∃ sl call as bs,
    slot = some sl ∧ r = .expr call ∧ d.nextId ≤ call.tag.id ∧
      parent.pieces = as ++ e.piece :: bs ∧
      (sl.fill e.tag.id call parent).pieces = as ++ call.piece :: bs ∧
      (sl.fill e.tag.id call parent).head = parent.head
  /-- The call stands among the children of the same node as the region did, in its place. -/
  held : ∃ l ∈ d.file.links, ∃ m ∈ next.file.links, ∃ as bs : List Node,
    done.plan.region.holder = some l.id ∧ m.parent = l.parent ∧ m.node.head = l.node.head ∧
      l.node.children.map Node.head =
        as ++ done.plan.region.roots.map (fun o => o.content.head) ++ bs ∧
      m.node.children.map Node.head = as ++ r.node.head :: bs
  /-- The call takes the place of the region, and nothing else moves. -/
  swapped : ∃ pre post,
    d.file.declLinks.map Link.bare = pre ++ done.plan.region.links.map Link.bare ++ post ∧
    next.file.declLinks.map Link.bare =
      pre ++ (r.links done.plan.region.holder).map Link.bare ++ post ++
        ((ofFunc f).links none).map Link.bare
  /-- The comments are the old ones, perhaps in another order. -/
  comments : (next.file.comments.map fun g => ((ofCommentGroup g).links none).map Link.bare).Perm
    (d.file.comments.map fun g => ((ofCommentGroup g).links none).map Link.bare)
  clause : next.file.tag.id = d.file.tag.id ∧ next.file.name.bare = d.file.name.bare
  /-- Every node is still there, and only the outermost of the region have another parent. -/
  kept : ∀ l ∈ d.file.links, ∃ m ∈ next.file.links, m.node.head = l.node.head ∧
    (l.id ∉ done.plan.region.rootIds → m.parent = l.parent)

theorem bare_of_views {a b : List Link} {pre post : List (Link × List Entry)}
    (h : views a = pre ++ views b ++ post) : a.map Link.bare =
      pre.map Prod.fst ++ b.map Link.bare ++ post.map Prod.fst := by
  have hbare (ls : List Link) : ls.map Link.bare = (views ls).map Prod.fst := by
    simp [views, Function.comp_def]
  rw [hbare, h, hbare b, List.map_append, List.map_append]

theorem filter_bare {ls : List Link} (h : ∀ l ∈ ls, l.parent ≠ none) :
    (ls.map Link.bare).filter (fun l => l.parent.isNone) = [] := by
  refine List.filter_eq_nil_iff.2 fun l hl hnone => ?_
  obtain ⟨m, hm, rfl⟩ := List.mem_map.1 hl
  exact h m hm (Option.isNone_iff_eq_none.1 hnone)

theorem Region.parent_links {r : Region} : ∀ l ∈ r.links, l.parent ≠ none := by
  intro l hl
  rw [Region.links_eq] at hl
  cases r <;> exact parent_linksAll hl

theorem Replacement.parent_links {r : Replacement} {p : Region} :
    ∀ l ∈ r.links p.holder, l.parent ≠ none := by
  intro l hl
  cases p <;> cases r <;> first | exact Outline.parent_links hl | exact parent_linksAll hl

namespace Edit

variable (e : Edit) (d : Document)

/-- The new function where it stands in the end. -/
def settledFunction : FuncDecl :=
  (Change.ofMarks ((d.unsettled e).drawing 0).marks.reverse).func
    ((Change.ofMarks (e.functionDrawing d).marks.reverse).func e.function)

theorem id_settledFunction : (e.settledFunction d).tag.id = e.function.tag.id := rfl

theorem settled_ends : (d.unsettled e).settle.file.tag.id = e.host.tag.id ∧
    (d.unsettled e).settle.file.name.bare = e.host.name.bare ∧
    (d.unsettled e).settle.file.decls.getLast? = some (.func (e.settledFunction d)) := by
  have hdecls : (d.unsettled e).settle.file.decls = ((e.hostAround d).decls ++
      [TopDecl.func ((Change.ofMarks (e.functionDrawing d).marks.reverse).func e.function)]).map
      (Change.ofMarks ((d.unsettled e).drawing 0).marks.reverse).topDecl := rfl
  refine ⟨rfl, rfl, ?_⟩
  rw [hdecls, List.map_append]
  exact List.getLast?_concat ..

theorem links_settledFunction : SameLinks ((ofFunc e.function).links none)
    ((ofFunc (e.settledFunction d)).links none) := by
  have hretag {c : Change} (hc : c.Retags) (f : FuncDecl) :
      SameLinks ((ofFunc f).links none) ((ofFunc (c.func f)).links none) := by
    obtain ⟨hc, hid⟩ := hc
    rw [hc]
    exact ((Change.congruent_tags hid).ofFunc none f).1
  exact (hretag (Change.retags_ofMarks _) _).trans (hretag (Change.retags_ofMarks _) _)

end Edit

/-- The edit of a plan calls the new function and holds the region in its body. -/
theorem Plan.edit_calls (p : Plan) (d : Document) : p.Calls (p.edit d).replacement ∧
    ∃ t stmts, ((p.edit d).settledFunction d).body = some ⟨t, stmts⟩ ∧ p.Holds stmts := by
  obtain ⟨⟨c, body, hsurgery, _, hfunction⟩, _, _⟩ := (p.edit_spec d).1
  obtain ⟨t, hbody, _⟩ := hfunction.body
  have hholds : p.Calls (p.edit d).replacement ∧ p.Holds body := by
    unfold Plan.IsSurgery at hsurgery
    unfold Plan.Holds
    cases hr : p.region with
    | expression e parent slot =>
      rw [hr] at hsurgery
      obtain ⟨call, hcall, hrepl, _, hbody⟩ := hsurgery
      rw [hrepl]
      exact ⟨hcall, e, hbody, fun _ => rfl⟩
    | statements stmts owner =>
      rw [hr] at hsurgery
      obtain ⟨call, st, hcall, hstmt, hrepl, _, hbody⟩ := hsurgery
      rw [hrepl]
      exact ⟨⟨call, hcall, hstmt⟩, stmts, hbody, rfl, fun _ => rfl⟩
  exact ⟨hholds.1, _, _, Change.body_func (Change.retags_ofMarks _)
    (Change.body_func (Change.retags_ofMarks _) hbody),
    (hholds.2.retag (Change.retags_ofMarks _)).retag (Change.retags_ofMarks _)⟩

section Step

variable {d next : Document} {s : Selection} {name : String} {done : Lifted}

namespace Document.Lifts

theorem swapped (h : d.Lifts s name next done) (hd : d.Owned) : ∃ pre post,
    d.file.declLinks.map Link.bare = pre ++ done.plan.region.links.map Link.bare ++ post ∧
    next.file.declLinks.map Link.bare =
      pre ++ ((done.plan.edit d).replacement.links done.plan.region.holder).map Link.bare ++ post ++
        ((ofFunc ((done.plan.edit d).settledFunction d)).links none).map Link.bare := by
  obtain ⟨target, _, _, hloc⟩ := resolve_located h.region
  obtain ⟨hnext, _⟩ := h.layout
  obtain ⟨pre, post, hold, hnew⟩ := swapped_host hd hloc h.fits
  have hmoved := ((done.plan.edit d).moved_decls d).bare
  rw [← hnext, List.map_append, bare_of_views hnew,
    ← (done.plan.edit d).links_settledFunction d] at hmoved
  exact ⟨_, _, bare_of_views hold, hmoved⟩

theorem comments_perm (h : d.Lifts s name next done) :
    (next.file.comments.map fun g => ((ofCommentGroup g).links none).map Link.bare).Perm
      (d.file.comments.map fun g => ((ofCommentGroup g).links none).map Link.bare) := by
  obtain ⟨hnext, _⟩ := h.layout
  rw [hnext, ← (host_rest (p := done.plan) (d := d)).2.2]
  exact (done.plan.edit d).comments_perm d fun c hc g => Change.same_commentGroup hc g

theorem declHeads_append (h : d.Lifts s name next done) (hd : d.Owned) : next.file.declHeads =
    d.file.declHeads ++ [Node.head (.func ((done.plan.edit d).settledFunction d))] := by
  obtain ⟨pre, post, hold, hnew⟩ := h.swapped hd
  rw [SourceFile.declHeads_eq, SourceFile.declHeads_eq, hold, hnew]
  have hfunc : (((ofFunc ((done.plan.edit d).settledFunction d)).links none).map Link.bare).filter
      (fun l => l.parent.isNone) =
        [⟨none, Node.head (.func ((done.plan.edit d).settledFunction d))⟩] := by
    rw [ofFunc, links_node, List.map_cons, List.filter_cons_of_pos rfl,
      filter_bare fun l hl => parent_linksAll hl]
    rfl
  simp only [List.filter_append, filter_bare Region.parent_links,
    filter_bare Replacement.parent_links, hfunc]
  simp

/-- No node is lost, and none but the outermost of the region gets another parent. -/
theorem kept (h : d.Lifts s name next done) (hd : d.Owned) : ∀ l ∈ d.file.links,
    ∃ m ∈ next.file.links, m.node.head = l.node.head ∧
      (l.id ∉ done.plan.region.rootIds → m.parent = l.parent) := by
  intro l hl
  have hfound (ls : List Link) (hls : ∀ m ∈ ls, m ∈ next.file.links)
      (hbare : l.bare ∈ ls.map Link.bare) : ∃ m ∈ next.file.links, m.node.head = l.node.head ∧
        (l.id ∉ done.plan.region.rootIds → m.parent = l.parent) := by
    obtain ⟨m, hm, heq⟩ := List.mem_map.1 hbare
    have hparent : m.bare.parent = l.bare.parent := by rw [heq]
    exact ⟨m, hls m hm, congrArg Link.node heq, fun _ => hparent⟩
  have hdecls : ∀ m ∈ next.file.declLinks, m ∈ next.file.links := by
    intro m hm
    rw [SourceFile.links, SourceFile.links_ofFile]
    exact List.mem_append_left _ hm
  rw [SourceFile.links, SourceFile.links_ofFile] at hl
  rcases List.mem_append.1 hl with hl | hl
  · obtain ⟨pre, post, hold, hnew⟩ := h.swapped hd
    obtain ⟨_, t, stmts, hbody, hholds⟩ := done.plan.edit_calls d
    obtain ⟨q, hfunc⟩ := hholds.mem_func hbody
    have hl := List.mem_map_of_mem (f := Link.bare) hl
    rw [hold] at hl
    rcases List.mem_append.1 hl with hl | hl
    · rcases List.mem_append.1 hl with hl | hl
      · exact hfound _ hdecls (by rw [hnew]; simp [hl])
      · -- inside of the region: below the new function it hangs as before, at the top anew
        obtain ⟨k, hk, hkl⟩ := List.mem_map.1 hl
        rw [Region.links_eq] at hk
        rcases linksAll_rehung hk q with ⟨o, ho, rfl, hq⟩ | hq
        · have hin : (Link.mk q o.content).bare ∈ next.file.declLinks.map Link.bare := by
            rw [hnew]
            exact List.mem_append_right _ (hfunc _ hq)
          obtain ⟨m, hm, hmk⟩ := List.mem_map.1 hin
          have hid : l.id = o.content.tag.id := by
            rw [← Link.id_bare, ← hkl, Link.id_bare]
            rfl
          refine ⟨m, hdecls m hm, (congrArg Link.node hmk).trans (congrArg Link.node hkl),
            fun hroot => absurd ?_ hroot⟩
          rw [hid]
          exact List.mem_map_of_mem ho
        · refine hfound _ hdecls ?_
          rw [hnew, ← hkl]
          exact List.mem_append_right _ (hfunc k hq)
    · exact hfound _ hdecls (by rw [hnew]; simp [hl])
  · obtain ⟨o, ho, hl⟩ := exists_mem_linksAll hl
    obtain ⟨g, hg, rfl⟩ := List.mem_map.1 ho
    have hgroup := h.comments_perm.mem_iff.2 (List.mem_map_of_mem hg)
    obtain ⟨g', hg', heq⟩ := List.mem_map.1 hgroup
    refine hfound ((ofCommentGroup g').links none) (fun m hm => ?_) ?_
    · rw [SourceFile.links, SourceFile.links_ofFile]
      exact List.mem_append_right _ (mem_linksAll (List.mem_map_of_mem hg') hm)
    · exact heq ▸ List.mem_map_of_mem hl

/-- The call stands among the children of the same node as the region did, in its place. -/
theorem filled (h : d.Lifts s name next done) (hd : d.Owned) :
    ∃ l ∈ d.file.links, ∃ m ∈ next.file.links, ∃ as bs : List Node,
      done.plan.region.holder = some l.id ∧ m.parent = l.parent ∧ m.node.head = l.node.head ∧
      l.node.children.map Node.head =
        as ++ done.plan.region.roots.map (fun o => o.content.head) ++ bs ∧
      m.node.children.map Node.head = as ++ (done.plan.edit d).replacement.node.head :: bs := by
  obtain ⟨target, _, _, hloc⟩ := resolve_located h.region
  obtain ⟨l, hl, hholder, ns, hns, hchildren⟩ := hd.exists_holder hloc h.fits
  obtain ⟨pre, post, hold, hnew⟩ := h.swapped hd
  have hmem {f : SourceFile} : ∀ k ∈ f.declLinks, k ∈ f.links := by
    intro k hk
    rw [SourceFile.links, SourceFile.links_ofFile]
    exact List.mem_append_left _ hk
  have hroots : linkCount l.id (linksAll (some l.id) done.plan.region.roots) = 0 := by
    rw [hns]
    exact linkCount_children (every_ofList faithful (every_ofTopDecl faithful) d.file.decls)
      (hd.linkCount_le_one l.id) hl hchildren
  have hregion : hanging l.id (done.plan.region.links.map Link.bare) =
      (done.plan.region.roots.map content).map fun n => ⟨some l.id, n.head⟩ := by
    rw [hanging_bare, Region.links_eq, hholder, hanging_linksAll_self _ hroots, List.map_map]
    rfl
  -- the holder stands beside the region, so the lift keeps it
  have hbeside : l.bare ∈ pre ++ post := by
    have hin := List.mem_map_of_mem (f := Link.bare) hl
    rw [hold, List.mem_append, List.mem_append] at hin
    rcases hin with (hin | hin) | hin
    · exact List.mem_append_left _ hin
    · obtain ⟨k, hk, hkl⟩ := List.mem_map.1 hin
      rw [Region.links_eq, hholder] at hk
      refine absurd ?_ (linkCount_eq_zero.1 hroots k hk)
      rw [← Link.id_bare, hkl, Link.id_bare]
    · exact List.mem_append_right _ hin
  obtain ⟨m, hm, hml⟩ : ∃ m ∈ next.file.declLinks, m.bare = l.bare := by
    refine List.mem_map.1 ?_
    rw [hnew]
    rcases List.mem_append.1 hbeside with hin | hin <;> simp [hin]
  have hid : m.id = l.id := by rw [← Link.id_bare, hml, Link.id_bare]
  have hone := (h.owned hd).linkCount_le_one l.id
  have hpos : 0 < linkCount l.id (pre ++ post) := l.id_bare ▸ linkCount_pos hbeside
  rw [← linkCount_bare, hnew] at hone
  simp only [linkCount_append, linkCount_bare] at hone hpos
  have hcall : hanging l.id (((done.plan.edit d).replacement.links done.plan.region.holder).map
      Link.bare) = [⟨some l.id, (done.plan.edit d).replacement.node.head⟩] := by
    have hnone : linkCount l.id ((done.plan.edit d).replacement.links done.plan.region.holder) = 0 := by
      omega
    rw [hholder, Replacement.links_eq] at hnone ⊢
    rw [hanging_bare, hanging_linksAll_self _ hnone, List.map_singleton, content_outline]
    rfl
  have hfunction : hanging l.id (((ofFunc ((done.plan.edit d).settledFunction d)).links none).map
      Link.bare) = [] := by
    rw [hanging_bare, hanging_links_of_absent _ (by simp) (by omega)]
    rfl
  have holds := SourceFile.heads_children hl (hd.linkCount_le_one l.id)
  have hnews := SourceFile.heads_children hm ((h.owned hd).linkCount_le_one m.id)
  rw [hold, hanging_append, hanging_append, hregion] at holds
  rw [hid, hnew, hanging_append, hanging_append, hanging_append, hcall, hfunction] at hnews
  have hparent : m.bare.parent = l.bare.parent := by rw [hml]
  refine ⟨l, hmem l hl, m, hmem m hm, (hanging l.id pre).map Link.node,
    (hanging l.id post).map Link.node, hholder, hparent, congrArg Link.node hml, ?_, ?_⟩
  · rw [holds, List.map_append, List.map_append, List.map_map, List.map_map]
    rfl
  · rw [hnews]
    simp

/-- The slot of an expression is its place in the parent, and filling it puts the call there and
keeps all else of the parent. -/
theorem slotted (h : d.Lifts s name next done) (hd : d.Owned) {e : Expr} {parent : Node}
    {slot : Option Slot} (hr : done.plan.region = .expression e parent slot) :
    ∃ sl call as bs, slot = some sl ∧ (done.plan.edit d).replacement = .expr call ∧
      d.nextId ≤ call.tag.id ∧ parent.pieces = as ++ e.piece :: bs ∧
      (sl.fill e.tag.id call parent).pieces = as ++ call.piece :: bs ∧
      (sl.fill e.tag.id call parent).head = parent.head := by
  obtain ⟨target, _, _, hloc⟩ := resolve_located h.region
  have hfits := h.fits
  obtain ⟨_, _, hreplaces, _⟩ := done.plan.edit_replaces hd hloc hfits
  unfold Plan.Replaces at hreplaces
  rw [hr] at hloc hfits hreplaces
  obtain ⟨hlink, -, ⟨q, hparent⟩, hslot⟩ := hloc
  obtain ⟨call, _, hrepl, _⟩ := hreplaces
  cases slot with
  | none => cases hfits
  | some sl =>
    have honce : parent.pieces.countP (Slot.marks e.tag.id) ≤ 1 := by
      rw [Slot.countP_marks, ← Node.children_outline]
      exact countP_children (every_ofFile truthful d.file) (hd.linkCount_file _) hparent
    obtain ⟨as, x, bs, hid, hold, hnew⟩ := Slot.pieces_fill call hslot.symm honce
    have hchild : .expr x ∈ parent.children := Node.mem_children.2 (by simp [hold, Expr.piece])
    have hx : ⟨some parent.tag.id, .expr x⟩ ∈ d.file.links :=
      child_mem (every_ofFile truthful d.file) hparent hchild
    have hsame : x = e := by
      have hlinks := eq_of_linkCount (hd.linkCount_file e.tag.id) hx hlink hid rfl
      exact Node.expr.inj (congrArg Link.node hlinks)
    subst hsame
    exact ⟨sl, call, as, bs, rfl, hrepl, Plan.fresh_call hrepl, hold, hnew,
      Slot.head_fill call sl parent⟩

theorem keeps_settled (h : d.Lifts s name next done) (hd : d.Owned) :
    Conserved d next done ((done.plan.edit d).settledFunction d) (done.plan.edit d).replacement := by
  obtain ⟨hnext, _⟩ := h.layout
  obtain ⟨htag, hname, _⟩ := host_rest (p := done.plan) (d := d)
  obtain ⟨hcalls, hbody⟩ := done.plan.edit_calls d
  obtain ⟨hclause, hpackage, hlast⟩ := (done.plan.edit d).settled_ends d
  rw [← hnext] at hclause hpackage hlast
  exact {
    function := ((done.plan.edit d).id_settledFunction d).trans h.function.symm
    decls := ⟨hlast, h.declHeads_append hd⟩
    calls := hcalls
    body := hbody
    slot := fun _ _ _ hr => h.slotted hd hr
    held := h.filled hd
    swapped := h.swapped hd
    comments := h.comments_perm
    clause := ⟨hclause.trans (congrArg Tag.id htag), hpackage.trans (congrArg Name.bare hname)⟩
    kept := h.kept hd }

theorem keeps (h : d.Lifts s name next done) (hd : d.Owned) :
    ∃ f r, Conserved d next done f r := ⟨_, _, h.keeps_settled hd⟩

end Document.Lifts

end Step

/-- In every document of a session each number belongs to one entry and the nodes are a tree. Each
lift keeps every node in its place but for the region, which it moves into the new function. -/
theorem Document.Reached.conserved {d : Document} (hd : d.Reached) : d.Owned ∧ d.Rooted ∧
    ∀ s name next done, d.lift s name = .ok (next, done) → ∃ f r, Conserved d next done f r :=
  ⟨hd.owned, hd.owned.rooted, fun _ _ _ _ h => (lifts hd.owned h).keeps hd.owned⟩

theorem Document.Reached.conserved_literal : ∃ d next done, d.Reached ∧
    d.lift ⟨⟨4, 7⟩, ⟨4, 8⟩⟩ "Seven" = .ok (next, done) ∧ d.Owned ∧ d.Rooted ∧
      ∃ f r, Conserved d next done f r := by
  obtain ⟨d, next, done, hread, hlift, -⟩ := exists_lift_literal
  obtain ⟨howned, hrooted, hstep⟩ := conserved (.read hread)
  exact ⟨d, next, done, .read hread, hlift, howned, hrooted, hstep _ _ _ _ hlift⟩

end FuncLift
