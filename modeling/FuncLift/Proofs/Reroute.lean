import FuncLift.Proofs.Conserved
import FuncLift.Proofs.Site

/-!
# What a lift does to the trail

A lift takes the trail of the region out of the trail of the file, puts the trail of the call in its
place, and walks along the region once more at the end, in the new function.
-/
namespace FuncLift

open Outline

open Classical in
theorem mem_of_countP {α : Type} {xs ys : List α} (h : ∀ q, xs.countP q = ys.countP q) {a : α}
    (ha : a ∈ xs) : a ∈ ys := by
  have hpos : 0 < ys.countP fun b => decide (b = a) := by
    rw [← h]
    exact List.countP_pos_iff.2 ⟨a, ha, by simp⟩
  obtain ⟨b, hb, hba⟩ := List.countP_pos_iff.1 hpos
  exact of_decide_eq_true hba ▸ hb

theorem SourceFile.count_declLinks (q : Node → Bool) (f : SourceFile) :
    metCount q f.trail = (f.declLinks.map Link.node).countP q := by
  rw [SourceFile.count_trail, tallyAll_eq_linksAll q none, List.countP_map]
  rfl

namespace Region

def trail : Region → List Event
  | .expression e _ _ => Trail.expr e
  | .statements stmts _ => Trail.stmts stmts

def ids (r : Region) : List Nat := r.nodes.map fun n => n.tag.id

theorem count_trail (q : Node → Bool) (r : Region) : metCount q r.trail = r.nodes.countP q := by
  have hlinks (p : Option Nat) : r.nodes.countP q = tallyAll q r.roots := by
    rw [nodes, flatMap_nodes p, List.countP_map, tallyAll_eq_linksAll q p]
    rfl
  rw [hlinks none]
  cases r with
  | expression e parent slot =>
    rw [trail, roots, Trail.count_expr q, tallyAll, tallyAll, Nat.add_zero]
  | statements stmts owner => rw [trail, roots, Trail.count_stmts, ofStmts_eq_map]

theorem mem_ids_iff {r : Region} {i : Nat} :
    i ∈ r.ids ↔ 0 < metCount (fun n => n.tag.id == i) r.trail := by
  rw [count_trail, List.countP_pos_iff, ids, List.mem_map]
  simp

end Region

namespace Change

theorem same_trail {c : Change} (hc : c.Retags) (ds : List TopDecl) :
    ((ds.map c.topDecl).flatMap Trail.topDecl).map Event.bare =
      (ds.flatMap Trail.topDecl).map Event.bare := by
  obtain ⟨hc, hid⟩ := hc
  rw [hc]
  exact (retraces_tags hid).topDecls (fun _ => False) ds

end Change

theorem Edit.same_trail (e : Edit) (d : Document) :
    (d.unsettled e).settle.file.trail.map Event.bare =
      (e.host.trail ++ Trail.func e.function).map Event.bare := by
  have hdecls : (d.unsettled e).settle.file.decls = ((((e.host.decls.map (Change.shift e.old.stop
      (e.delta d)).topDecl).map (Change.ofMarks (e.callDrawing d).marks.reverse).topDecl) ++
      [TopDecl.func e.function].map
        (Change.ofMarks (e.functionDrawing d).marks.reverse).topDecl).map
      (Change.ofMarks ((d.unsettled e).drawing 0).marks.reverse).topDecl) := rfl
  have hfunc : Trail.func e.function = [TopDecl.func e.function].flatMap Trail.topDecl :=
    (List.append_nil _).symm
  rw [SourceFile.trail, hdecls, Change.same_trail (Change.retags_ofMarks _), List.flatMap_append,
    List.map_append, Change.same_trail (Change.retags_ofMarks _),
    Change.same_trail (Change.retags_shift _ _), Change.same_trail (Change.retags_ofMarks _),
    List.map_append, hfunc]
  rfl

/-- The spot that a plan changes: for an expression the call, for statements the statement around the
call. -/
def Plan.IsSpot (p : Plan) (r : Replacement) (s : Spot) : Prop :=
  match p.region with
  | .expression e _ _ => ∃ call, r = .expr call ∧ p.IsCall call ∧ s = .ofExpr e call
  | .statements stmts owner => ∃ call st before after, r = .stmt st ∧ p.IsCall call ∧
      p.IsCallStmt call st ∧ owner.stmts = before ++ stmts ++ after ∧ s = .ofRun owner stmts after st

structure Reroutes (d next : Document) (p : Plan) (s : Spot) (pre x y post : List Event) : Prop where
  spot : p.IsSpot (p.edit d).replacement s
  before : d.file.trail = pre ++ x ++ post
  after : next.file.trail.map Event.bare =
    (pre ++ y ++ post ++ Trail.func (p.edit d).function).map Event.bare
  turns : s.Turns x y post
  rooted : AllRooted (fun _ => False) (pre ++ post)

theorem Plan.IsSpot.old {p : Plan} {r : Replacement} {s : Spot} (h : p.IsSpot r s) :
    s.old = p.region.trail := by
  unfold Plan.IsSpot at h
  split at h
  · rename_i hr
    obtain ⟨call, _, _, rfl⟩ := h
    rw [hr]
    rfl
  · rename_i hr
    obtain ⟨call, st, before, after, _, _, _, _, rfl⟩ := h
    rw [hr]
    rfl

section Step

variable {d next : Document} {sel : Selection} {name : String} {done : Lifted}

theorem Document.Lifts.reroutes (h : d.Lifts sel name next done) (hd : d.Owned) :
    ∃ s pre x y post, Reroutes d next done.plan s pre x y post := by
  obtain ⟨target, _, _, hloc⟩ := resolve_located h.region
  obtain ⟨hnext, _⟩ := h.layout
  obtain ⟨c, body, hsurgery, hhost, _⟩ := done.plan.edit_replaces hd hloc h.fits
  have hafter : next.file.trail.map Event.bare =
      (c.sourceFile d.file).trail.map Event.bare ++
        (Trail.func (done.plan.edit d).function).map Event.bare := by
    rw [hnext, Edit.same_trail, hhost, List.map_append]
  have hfind {s : Spot} (hc : c.Retraces s.Turned) {p : Option Nat}
      (hmem : ⟨p, s.node⟩ ∈ linksAll none (ofFile d.file)) (hcomment : s.node.isComment = false)
      (hspot : done.plan.IsSpot (done.plan.edit d).replacement s) :
      ∃ s pre x y post, Reroutes d next done.plan s pre x y post := by
    have hlink := mem_declLinks hmem hcomment
    have hone := hd.linkCount_le_one s.node.tag.id
    have honce : s.Once d.file.trail := by
      refine ⟨fun n hn hid => ?_, hd.metCount_le_one _⟩
      obtain ⟨l, hl, rfl⟩ := List.mem_map.1
        (mem_of_countP (fun q => SourceFile.count_declLinks q d.file) hn)
      rw [eq_of_linkCount hone hl hlink hid rfl]
    have hhit : ¬ s.Misses d.file.trail := by
      rw [Spot.misses_iff, SourceFile.count_declLinks, List.countP_map]
      exact Nat.pos_iff_ne_zero.1 (linkCount_pos hlink)
    obtain ⟨pre, post, x, y, hturns, hbefore, hy, hrooted⟩ :=
      ((hc.topDecls (fun _ => False) d.file.decls).2 honce).split hhit
    refine ⟨s, pre, x, y, post, hspot, hbefore, ?_, hturns, hrooted⟩
    rw [hafter, List.map_append, ← hy]
    rfl
  unfold Plan.Replaces at hsurgery
  cases hr : done.plan.region with
  | expression e parent slot =>
    rw [hr] at hsurgery hloc
    obtain ⟨call, hcall, hrepl, rfl, _⟩ := hsurgery
    have hident : Resolve.isIdent (some call) = false := by
      obtain ⟨t, u, args, rfl, _⟩ := hcall
      rfl
    refine hfind (Spot.retraces_replaceExpr e hident) hloc.1 (by cases e <;> rfl) ?_
    rw [Plan.IsSpot, hr]
    exact ⟨call, hrepl, hcall, rfl⟩
  | statements stmts owner =>
    rw [hr] at hsurgery hloc
    obtain ⟨call, st, hcall, hstmt, hrepl, rfl, _⟩ := hsurgery
    obtain ⟨⟨q, howner⟩, ⟨before, after, hsplit⟩, ⟨t, ht, _⟩, _⟩ := hloc
    have hfirst : stmts.head?.map (·.tag.id) = some t.tag.id := by rw [ht]; rfl
    have hget : (stmts.head?.map fun s => s.tag.id).getD 0 = t.tag.id := by rw [hfirst]; rfl
    have hcomment : owner.node.isComment = false := by cases owner <;> rfl
    have hbefore := before_ne_first (every_ofList ownerComplete (every_ofTopDecl ownerComplete) _)
      hd.linkCount_le_one (mem_declLinks howner hcomment) hsplit hfirst
    rw [hget] at hfind
    refine hfind (Spot.retraces_replaceRun hsplit hbefore hfirst) howner hcomment ?_
    rw [Plan.IsSpot, hr]
    exact ⟨call, st, before, after, hrepl, hcall, hstmt, hsplit, rfl⟩

end Step

end FuncLift
