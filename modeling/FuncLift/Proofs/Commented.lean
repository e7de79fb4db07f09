import FuncLift.Proofs.Landed
import FuncLift.Proofs.Measured

/-!
# No comment is lost

A document has the comments of the text it was read from, in their order, and its text has every
comment of the document once, again in their order. A lift keeps all groups of comments. Those that
start in the region come to stand inside of the new function, all others before it.
-/
namespace FuncLift

theorem LineTable.size_dropBlankEnd_ofText {text : String} {w : List Char} {c : Char} (hc : c ≠ '\n')
    (h : text.toList = w ++ [c] ++ ['\n']) :
    (ofText text).dropBlankEnd.size = (ofText text).size := by
  have hlast : text.toList.getLast? = some '\n' := by simp [h]
  have hinked : inked text.toList = text.toList := by simp [inked, h, hc]
  have hlarge : 1 < byteSize (inked text.toList) := by
    have hone : byteSize ['\n'] = 1 := rfl
    have hpos : 0 < byteSize (w ++ [c]) := byteSize_pos (by simp)
    rw [hinked, h, byteSize_append _ ['\n'], hone]
    omega
  refine Nat.le_antisymm (size_dropBlankEnd_le _) ?_
  rw [size_ofText hlast, ← byteSize_toList]
  exact hinked ▸ inked_le_dropBlankEnd hlast hlarge

namespace Document

section Step

variable {d next : Document} {s : Selection} {name : String} {done : Lifted}

theorem Lifts.lands (h : d.Lifts s name next done) (hd : d.Reached) (hsnug : d.Snug)
    (hsize : d.size < 2 ^ 32) : ∃ opened broken stop, (done.plan.edit d).Lands d
      (((done.plan.edit d).linesAround d).dropBlankEnd.size + 1) opened broken stop := by
  obtain ⟨target, _, _, hlocated⟩ := resolve_located h.region
  obtain ⟨t, stmts, hunplaced⟩ := h.unplaced hd
  have hunknown : Span.unknown = 2 ^ 32 - 1 := rfl
  have hdetached : Known (done.plan.edit d).detached := by
    intro g hg
    have hmem := (List.mem_filter.1 hg).1
    rw [host_rest.2.2] at hmem
    have hstart := hsnug.comments g hmem
    have hle : d.lines.dropBlankEnd.size ≤ d.size := d.lines.size_dropBlankEnd_le
    omega
  exact Edit.lands hunplaced hdetached (hd.owned.function_once hlocated h.fits)

theorem Lifts.settles (h : d.Lifts s name next done) (hd : d.Reached) (hnext : next.Reached)
    (hsnug : d.Snug) (hsize : d.size < 2 ^ 32) (hfits : (done.plan.edit d).Fits d (2 ^ 32)) :
    ∃ p q, (done.plan.edit d).Settles d p q := by
  obtain ⟨opened, broken, stop, hlands⟩ := h.lands hd hsnug hsize
  have hunknown : Span.unknown = 2 ^ 32 - 1 := rfl
  have hstop : stop < Span.unknown := by
    have hinside := hlands.inside
    have hlimit := hfits.function
    omega
  have hbase : ((done.plan.edit d).linesAround d).dropBlankEnd.size < Span.unknown := by
    have hstarts := hlands.starts
    have hopens := hlands.opens
    have hbreaks := hlands.breaks
    omega
  obtain ⟨hlaid, _⟩ := h.layout
  subst hlaid
  obtain ⟨_, hw⟩ := sound_of_settle hnext.owned.once hnext.whole
  exact Edit.settles hw (h.above hd hsnug hsize hbase) hlands hstop

theorem Lifts.span_function (h : d.Lifts s name next done) (hnext : next.Reached) {p q : Pen}
    (hsettles : (done.plan.edit d).Settles d p q) :
    ((done.plan.edit d).settledFunction d).tag.span = ⟨p.offset, q.offset⟩ := by
  obtain ⟨hlaid, _⟩ := h.layout
  subst hlaid
  obtain ⟨honce, hw⟩ := sound_of_settle hnext.owned.once hnext.whole
  exact places_drawing hw honce ⟨.node .func, _, ⟨p.offset, q.offset⟩⟩
    (hsettles.marks ▸ hsettles.function) ((done.plan.edit d).placedFunction d).tag rfl

/-- After a lift the text ends with the brace of the new function, so no empty lines stand behind. -/
theorem Lifts.snug (h : d.Lifts s name next done) (hd : d.Reached) (hnext : next.Reached)
    (hsnug : d.Snug) (hsize : d.size < 2 ^ 32) (hfits : (done.plan.edit d).Fits d (2 ^ 32))
    (hcomments : ∀ g ∈ next.file.comments, g.tag.span.start < next.size) : next.Snug := by
  obtain ⟨p, q, hsettles⟩ := h.settles hd hnext hsnug hsize hfits
  obtain ⟨hlaid, _⟩ := h.layout
  subst hlaid
  obtain ⟨honce, hw⟩ := sound_of_settle hnext.owned.once hnext.whole
  obtain ⟨w, hbrace⟩ := hsettles.brace
  have hends : (d.unsettled (done.plan.edit d)).print.toList = w ++ ['\x7d'] ++ ['\n'] := by
    rw [hsettles.text, hbrace]
  obtain ⟨hlines, hbytes⟩ := size_settle (d.unsettled (done.plan.edit d))
  have hfull : (d.unsettled (done.plan.edit d)).settle.lines.dropBlankEnd.size =
      (d.unsettled (done.plan.edit d)).settle.size := by
    rw [size, hlines]
    exact LineTable.size_dropBlankEnd_ofText (by decide) hends
  obtain ⟨hclause, stop, hstop, hrow⟩ := settle_row hw honce
  refine ⟨hclause, ⟨_, stop, ?_, hrow⟩, fun g hg => ?_⟩
  · rw [hfull, hbytes, hstop]
    exact Nat.lt_succ_self stop
  · rw [hfull]
    exact hcomments g hg

end Step

theorem ReachedWithin.snug {d : Document} (hd : d.ReachedWithin (2 ^ 32)) : d.Snug := by
  induction hd with
  | read h => exact ofSource_snug h
  | lift hd h hfits hsize ih =>
    have hnext : ReachedWithin (2 ^ 32) _ := .lift hd h hfits hsize
    exact (lifts hd.reached.owned h).snug hd.reached hnext.reached ih hd.size_lt hfits hnext.comments

def allComments (d : Document) : List Comment := d.file.comments.flatMap CommentGroup.comments

/-- The text of a document has every comment of a list once, one behind the other, and no comment of
the document is left over. -/
structure Writes (d : Document) (cs : List Comment) : Prop where
  unplaced : (d.drawing 0).unplaced = []
  once : ∀ c ∈ cs, markCount c.tag.id (d.drawing 0).marks = 1
  under : ∀ c ∈ cs, ∀ m ∈ (d.drawing 0).marks, m.id = c.tag.id →
    Under 0 d.print.toList m.span c.text.toList
  order : cs.Pairwise fun a b => ∀ m ∈ (d.drawing 0).marks, ∀ n ∈ (d.drawing 0).marks,
    m.id = a.tag.id → n.id = b.tag.id → m.span.stop ≤ n.span.start

end Document

theorem Row.comments {place : Tag → Span} {Q : Node → Prop} {lo hi : Nat} {gs : List CommentGroup}
    (h : Row place Q lo (gs.map CommentGroup.piece) hi) :
    Row place Q lo ((gs.flatMap CommentGroup.comments).map Comment.piece) hi := by
  induction gs generalizing lo with
  | nil => exact h
  | cons g gs ih =>
    obtain ⟨hstart, _, hnested, hrest⟩ := h.cons
    rw [List.flatMap_cons, List.map_append]
    exact ((hnested _ rfl).row.widen hstart (Nat.le_refl _)).append (ih hrest)

theorem Piece.nodes_comments (cs : List Comment) : nodes (cs.map Comment.piece) = cs.map .comment := by
  induction cs with
  | nil => rfl
  | cons c cs ih => rw [List.map_cons, nodes_child, ih, List.map_cons]

theorem Comment.mem_groupEntries {c : Comment} {gs : List CommentGroup}
    (hc : c ∈ gs.flatMap CommentGroup.comments) : c.entry ∈ groupEntries gs := by
  obtain ⟨⟨t, cs⟩, hg, hc⟩ := List.mem_flatMap.1 hc
  refine List.mem_flatMap.2 ⟨⟨t, cs⟩, hg, ?_⟩
  rw [CommentGroup.entries_mk]
  exact List.mem_cons_of_mem _ (List.mem_map_of_mem hc)

namespace Document

variable {u : Document}

theorem settle_comments_row (hw : u.Whole) (honce : ∀ i, idCount i u.file.entries ≤ 1)
    (hknown : Known u.file.comments) :
    ∃ hi, Row Tag.span (fun _ => True) 0 (u.settle.file.comments.map CommentGroup.piece) hi := by
  have hfresh : (Pen.fresh u.lines u.file.comments 0).offset =
      0 + byteSize (Pen.fresh u.lines u.file.comments 0).text := rfl
  obtain ⟨_, hmarks, _⟩ := u.drawing_pen 0
  obtain ⟨gs, hgs, ms, hms, hrow⟩ := Draw.strews_fileBody u.file _ hfresh
  rw [Clears.fileBody u.file _ hfresh hknown, List.append_nil] at hgs
  have hall : gs = u.file.comments := hgs.symm
  have hplaces := places_drawing hw honce
  have hplaced := hrow _ fun m hm => hplaces m (by
    rw [hmarks, hms]
    exact List.mem_append_left _ hm)
  have hmoved := Change.row_pieces (Change.retags_ofMarks _) (fun _ => rfl) hplaced
  have hgroups : u.settle.file.comments.map CommentGroup.piece =
      (gs.map CommentGroup.piece).map (Change.ofMarks (u.drawing 0).marks.reverse).piece := by
    have hfile : u.settle.file.comments =
        u.file.comments.map (Change.ofMarks (u.drawing 0).marks.reverse).commentGroup := rfl
    rw [hfile, hall, List.map_map, List.map_map]
    rfl
  exact ⟨_, hgroups ▸ hmoved⟩

theorem writes (hw : u.Whole) (honce : ∀ i, idCount i u.file.entries ≤ 1)
    (hknown : Known u.file.comments) : u.Writes u.allComments := by
  obtain ⟨q, gs, _, hmarks, hgs, hcleared, hlead⟩ := drawing_leads u 0
  obtain ⟨_, _, hunplaced⟩ := u.drawing_pen 0
  rw [hcleared hknown, List.append_nil] at hgs
  have hentry {c : Comment} (hc : c ∈ u.allComments) : c.entry ∈ u.file.entries := by
    rw [SourceFile.entries_eq_fixed]
    exact List.mem_append_right _ (Comment.mem_groupEntries hc)
  have hcount (i : Nat) : markCount i (u.drawing 0).marks = markCount i (u.drawing 0).marks.reverse :=
    List.countP_reverse.symm
  refine ⟨?_, fun c hc => ?_, fun c hc m hm hid => ?_, ?_⟩
  · rw [hunplaced]
    exact Clears.fileBody u.file _ rfl hknown
  · obtain ⟨ms, hms, _, hcomplete⟩ := hlead.marks
    have hwhole : AllWhole (u.file.fixedEntries ++ groupEntries gs) :=
      AllWhole.mono hw fun e he => by rwa [SourceFile.entries_eq_fixed, hgs]
    obtain ⟨m, hm, hid⟩ := (hcomplete trivial hwhole).1 c.entry
      (List.mem_append_right _ (hgs ▸ Comment.mem_groupEntries hc))
    rw [hcount]
    refine Nat.le_antisymm (markCount_drawing hw honce _) (List.countP_pos_iff.2 ⟨m, ?_, ?_⟩)
    · rw [hmarks, hms]
      exact List.mem_append_left _ hm
    · exact beq_iff_eq.2 hid
  · obtain ⟨_, e, he, hmark⟩ := u.marks_drawing 0 hm
    have heq : e = c.entry :=
      apart_of_idCount honce e he c.entry (hentry hc) (hmark.id.symm.trans hid)
    exact hmark.under c.text (heq ▸ rfl)
  · obtain ⟨hi, hrow⟩ := settle_comments_row hw honce hknown
    have hpairs := hrow.comments.pairwise
    have hmoved : u.settle.file.comments.flatMap CommentGroup.comments =
        u.allComments.map (Change.ofMarks (u.drawing 0).marks.reverse).comment := by
      have hfile : u.settle.file.comments =
          u.file.comments.map (Change.ofMarks (u.drawing 0).marks.reverse).commentGroup := rfl
      rw [hfile, List.flatMap_map, allComments, List.map_flatMap]
      rfl
    rw [hmoved, Piece.nodes_comments, List.pairwise_map, List.pairwise_map] at hpairs
    have hplaces := places_drawing hw honce
    refine hpairs.imp fun {a b} hle m hm n hn hma hnb => ?_
    have ha := hplaces m (List.mem_reverse.2 hm) a.tag hma.symm
    have hb := hplaces n (List.mem_reverse.2 hn) b.tag hnb.symm
    rw [← ha, ← hb]
    exact hle

end Document

def CommentGroup.bare (g : CommentGroup) : CommentGroup :=
  ⟨g.tag.bare, g.comments.map fun c => ⟨c.tag.bare, c.kind, c.text⟩⟩

namespace Document

section Step

variable {d next : Document} {s : Selection} {name : String} {done : Lifted}

end Step

end Document

end FuncLift
