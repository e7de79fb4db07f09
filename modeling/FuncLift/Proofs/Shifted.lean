import FuncLift.Proofs.Commented
import FuncLift.Proofs.Framed
import FuncLift.Proofs.Shrunk
import FuncLift.Proofs.Starts

/-!
# What an edit leaves on its text

When the call takes the place of the region, what stands behind the region moves with the text. So
everything that was read and that neither moves with the region nor is a comment in it stays on its
text, or stands around the region and has the call in place of it. The region starts with a token, so
a comment that starts before the region ends before it.
-/
namespace FuncLift

def textBytes (s : String) : List UInt8 := s.toByteArray.data.toList

theorem length_textBytes (s : String) : (textBytes s).length = s.utf8ByteSize := rfl

namespace Span

section Splice

variable {α : Type}

def slice (s : Span) (text : List α) : List α := (text.take s.stop).drop s.start

/-- A text with something else in place of what stands under a span. -/
def splice (s : Span) (text new : List α) : List α := text.take s.start ++ new ++ text.drop s.stop

def growth (s : Span) (new : List α) : Int := (new.length : Int) - ((s.stop : Int) - s.start)

def Clears (s old : Span) : Prop := s.stop ≤ old.start ∨ old.stop ≤ s.start

def Spans (s old : Span) : Prop := s.start ≤ old.start ∧ old.stop ≤ s.stop

/-- What becomes of a span when something new is put under another one: beside it the span stays on
its text, and around it the span grows as the text does and has what is new in place of the old. -/
structure Follows (old : Span) (text new : List α) (s t : Span) : Prop where
  either : s.Clears old ∨ s.Spans old
  beside : s.Clears old → t.slice (old.splice text new) = s.slice text
  start : s.Spans old → t.start = s.start
  stop : s.Spans old → (t.stop : Int) = s.stop + old.growth new
  around : s.Spans old → t.slice (old.splice text new) =
    (⟨s.start, old.start⟩ : Span).slice text ++ new ++ (⟨old.stop, s.stop⟩ : Span).slice text

theorem slice_append (front text : List α) (a b : Nat) :
    (⟨front.length + a, front.length + b⟩ : Span).slice (front ++ text) = (⟨a, b⟩ : Span).slice text := by
  simp only [slice, List.take_length_add_append, List.drop_length_add_append]

theorem slice_drop (text : List α) {n a b : Nat} (hn : n ≤ text.length) :
    (⟨a, b⟩ : Span).slice (text.drop n) = (⟨n + a, n + b⟩ : Span).slice text := by
  have hfront : (text.take n).length = n := List.length_take_of_le hn
  have happend := slice_append (text.take n) (text.drop n) a b
  rw [hfront, List.take_append_drop] at happend
  exact happend.symm

section Shift

variable {old s : Span} {text new : List α}

theorem slice_splice_before (htext : old.start ≤ text.length) (h : s.stop ≤ old.start) :
    s.slice (old.splice text new) = s.slice text := by
  have hfront : s.stop ≤ (text.take old.start).length := by rwa [List.length_take_of_le htext]
  rw [slice, splice, List.append_assoc, List.take_append_of_le_length hfront, List.take_take,
    Nat.min_eq_left h]
  rfl

theorem slice_splice_behind (htext : old.stop ≤ text.length) (hle : old.start ≤ old.stop) (a b : Nat) :
    (⟨old.start + new.length + a, old.start + new.length + b⟩ : Span).slice (old.splice text new) =
      (⟨old.stop + a, old.stop + b⟩ : Span).slice text := by
  have hfront : (text.take old.start ++ new).length = old.start + new.length := by
    rw [List.length_append, List.length_take_of_le (Nat.le_trans hle htext)]
  rw [splice, ← hfront, slice_append, slice_drop text htext]

theorem follows_shift (hold : old.start < old.stop) (htext : old.stop ≤ text.length)
    (hset : s.isUnset = false) (hs : s.start ≤ s.stop) (h : s.Clears old ∨ s.Spans old) :
    old.Follows text new s (s.shift old.stop (old.growth new)) := by
  have hshift : s.shift old.stop (old.growth new) = ⟨shiftOffset old.stop (old.growth new) s.start,
      shiftOffset old.stop (old.growth new) s.stop⟩ := by
    rw [shift, hset]
    rfl
  have hkept {i : Nat} (hi : i < old.stop) : shiftOffset old.stop (old.growth new) i = i :=
    if_neg (Nat.not_le_of_lt hi)
  have hmoved (i : Nat) :
      shiftOffset old.stop (old.growth new) (old.stop + i) = old.start + new.length + i := by
    unfold shiftOffset growth
    rw [if_pos (Nat.le_add_right _ _)]
    omega
  have hstart : old.start ≤ text.length := Nat.le_trans (Nat.le_of_lt hold) htext
  rw [hshift]
  refine ⟨h, fun hclear => ?_, fun hspan => hkept (Nat.lt_of_le_of_lt hspan.1 hold), ?_, ?_⟩
  · rcases hclear with hbefore | hbehind
    · rw [hkept (by omega), hkept (by omega)]
      exact slice_splice_before hstart hbefore
    · obtain ⟨a, ha⟩ := Nat.exists_eq_add_of_le hbehind
      obtain ⟨b, hb⟩ := Nat.exists_eq_add_of_le (Nat.le_trans hbehind hs)
      rw [ha, hb, hmoved, hmoved, slice_splice_behind htext (Nat.le_of_lt hold), ← ha, ← hb]
  · rintro ⟨-, hhigh⟩
    obtain ⟨b, hb⟩ := Nat.exists_eq_add_of_le hhigh
    dsimp only
    rw [hb, hmoved, growth]
    omega
  · rintro ⟨hlow, hhigh⟩
    obtain ⟨b, hb⟩ := Nat.exists_eq_add_of_le hhigh
    have hfront : (text.take old.start ++ new).length = old.start + new.length := by
      rw [List.length_append, List.length_take_of_le hstart]
    have hlow' : s.start ≤ (text.take old.start).length := by rwa [List.length_take_of_le hstart]
    have htake : (old.splice text new).take (old.start + new.length + b) =
        text.take old.start ++ new ++ (text.drop old.stop).take b := by
      rw [splice, ← hfront, List.take_length_add_append]
    have hback : (text.take (old.stop + b)).drop old.stop = (text.drop old.stop).take b := by
      rw [List.drop_take, Nat.add_sub_cancel_left]
    rw [hkept (Nat.lt_of_le_of_lt hlow hold), hb, hmoved]
    simp only [slice]
    rw [htake, hback, List.append_assoc, List.drop_append_of_le_length hlow', List.append_assoc]

end Shift

end Splice

end Span

namespace Edit

variable (e : Edit) (d : Document)

/-- Where the pass and the place of the call put a tag. -/
def placed (t : Tag) : Tag :=
  (Change.ofMarks (e.callDrawing d).marks.reverse).onTag ((e.shiftUnmoved d).onTag t)

/-- The file around the call has what the file had with the call in place of the region and without
the comments in it, each where it was put. -/
theorem entries_parts : (e.parts d).host.entries =
    ({ e.host with comments := e.kept } : SourceFile).entries.map (Entry.retag (e.placed d)) := by
  have hretag {c : Change} (hc : c.Retags) (f : SourceFile) :
      (c.sourceFile f).entries = f.entries.map (Entry.retag c.onTag) := by
    have hdecls := Change.entries_topDecls hc f.decls
    have hcomments := Change.entries_commentGroups (c := c) f.comments
    rw [SourceFile.entries_eq, SourceFile.entries_eq, List.map_cons, List.map_cons, List.map_append,
      ← hdecls]
    exact congrArg (fun es => _ :: _ :: (_ ++ es)) hcomments
  have hpass : (e.shiftUnmoved d).Retags := by
    refine ⟨rfl, fun t => ?_⟩
    rw [onTag_shiftUnmoved]
    split <;> rfl
  have hhost : (e.parts d).host = (Change.ofMarks (e.callDrawing d).marks.reverse).sourceFile
      ((e.shiftUnmoved d).sourceFile { e.host with comments := e.kept }) := rfl
  rw [hhost, hretag (Change.retags_ofMarks _), hretag hpass, List.map_map]
  rfl

end Edit

namespace Document

section Read

variable {source : String} {d : Document} {s : Selection} {r : Region} {target : Span}

theorem ofSource_target (h : ofSource source = .ok d) (hr : d.resolve s = .ok r) :
    ∃ target : Span, target.start < target.stop ∧ target.stop < d.size ∧ r.Located d.file target ∧
      ¬BlankAt (terminated source) target.start := by
  obtain ⟨hlines, htext⟩ := ofSource_text h
  unfold resolve at hr
  split at hr
  · cases hr
  · rename_i raw hraw
    split at hr
    · cases hr
    · rename_i hle
      rw [← terminated_terminated] at hlines
      obtain ⟨t, ht, htrims⟩ := range_shrink hlines hraw (Nat.le_of_not_lt hle)
      simp only [htext, Option.getD_some, ht] at hr
      split at hr
      · cases hr
      · rename_i hne
        have hlt : t.start < t.stop := Nat.lt_of_not_le hne
        rw [terminated_terminated] at htrims
        exact ⟨t, hlt, range_lt ht, SourceFile.regionAt_located hr, (htrims.tight hlt).1⟩

theorem exists_entry_start {f : SourceFile} (h : r.Located f target) (hspan : r.span = target) :
    ∃ x ∈ f.decls.flatMap TopDecl.entries, x.span.start = r.span.start := by
  have hself {n m : Node} {q : Option Nat} (hn : ⟨q, n⟩ ∈ Outline.linksAll none (Outline.ofFile f))
      (hcomment : n.isComment = false) (hm : n.Holds m) :
      m.self ∈ f.decls.flatMap TopDecl.entries := by
    obtain ⟨x, hx, hholds⟩ := (SourceFile.mem_nodes_decls hcomment).1 (SourceFile.mem_nodes_of_link hn)
    have hmem := (hholds.trans hm).mem_entries ((m.mem_entries m.self).2 (.inl rfl))
    rw [x.entries_content] at hmem
    exact List.mem_flatMap.2 ⟨x, hx, hmem⟩
  rw [hspan]
  cases r with
  | expression e parent slot =>
    refine ⟨_, hself h.1 (SourceFile.isComment_expr e) (.self _), ?_⟩
    rw [Entry.span, (Node.expr e).tag_self, ← h.2.1]
    rfl
  | statements stmts owner =>
    obtain ⟨⟨q, howner⟩, ⟨before, after, hsplit⟩, ⟨first, hfirst, hstart⟩, _⟩ := h
    obtain ⟨others, hchildren⟩ := owner.children_eq
    have hchild : .stmt first ∈ owner.node.children := by
      rw [hchildren, hsplit]
      simp [List.mem_of_mem_head? hfirst]
    refine ⟨_, hself howner (by cases owner <;> rfl) (.step hchild (.self _)), ?_⟩
    rw [Entry.span, (Node.stmt first).tag_self, ← hstart]
    rfl

theorem ReadBy.group_inside {file : SourceFile} {c c' : Cursor} (h : d.ReadBy source file c c')
    {g : CommentGroup} (hg : g ∈ d.file.comments) : ∀ x ∈ g.entries,
      g.tag.span.start ≤ x.span.start ∧ x.span.start < x.span.stop ∧ x.span.stop ≤ g.tag.span.stop := by
  have hmem : g.plain ∈ d.file.comments.map CommentGroup.plain := List.mem_map_of_mem hg
  rw [h.groups] at hmem
  obtain ⟨cs, hcs, heq⟩ := List.mem_map.1 hmem
  obtain ⟨hcomments, hspan⟩ := Prod.mk.inj heq
  have hne := LooseComment.ne_nil_of_mem_groups hcs
  have hfollow := (scan_follow (terminated source)).of_mem_groups hcs
  rw [List.head?_eq_some_head hne, List.getLast?_eq_some_getLast hne] at hspan
  obtain ⟨t, comments⟩ := g
  intro x hx
  rw [CommentGroup.entries_mk] at hx
  rcases List.mem_cons.1 hx with rfl | hx
  · exact ⟨Nat.le_refl _, (h.covers hg).1, Nat.le_refl _⟩
  · obtain ⟨y, hy, rfl⟩ := List.mem_map.1 hx
    have hplain : y.plain ∈ comments.map Comment.plain := List.mem_map_of_mem hy
    rw [← hcomments] at hplain
    obtain ⟨z, hz, hzy⟩ := List.mem_map.1 hplain
    have hzspan : z.span = y.tag.span := congrArg (fun p => p.2.2) hzy
    change t.span.start ≤ y.tag.span.start ∧ y.tag.span.start < y.tag.span.stop ∧
      y.tag.span.stop ≤ t.span.stop
    rw [← hzspan, ← hspan]
    exact ⟨hfollow.head_le hne hz, (hfollow.filled z hz).2, hfollow.le_getLast hne hz⟩

theorem ofSource_comment_apart (h : ofSource source = .ok d) (hr : d.resolve s = .ok r)
    {g : CommentGroup} (hg : g ∈ d.file.comments) :
    r.span.start < g.tag.span.start ∨ g.tag.span.stop ≤ r.span.start := by
  obtain ⟨file, c, c', hread⟩ := ofSource_ok h
  obtain ⟨target, hlt, hstop, hlocated, hink⟩ := ofSource_target h hr
  obtain ⟨Q, stop, _, hrow⟩ := (ofSource_snug h).decls
  have hspan := (hlocated.beside hrow).1
  obtain ⟨x, hx, hstart⟩ := exists_entry_start hlocated hspan
  have hsize := hread.size
  obtain ⟨p, hp, hpstart⟩ : ∃ p ∈ (scan (terminated source)).tokens, p.span.start = r.span.start := by
    rw [← hstart]
    refine (hread.starts hx).resolve_right fun hend => ?_
    rw [hstart, hspan] at hend
    omega
  have hmem : g.plain ∈ d.file.comments.map CommentGroup.plain := List.mem_map_of_mem hg
  rw [hread.groups] at hmem
  obtain ⟨cs, hcs, heq⟩ := List.mem_map.1 hmem
  obtain ⟨_, hgroup⟩ := Prod.mk.inj heq
  have hne := LooseComment.ne_nil_of_mem_groups hcs
  have hfirst := List.head?_eq_some_head hne
  have hlast := List.getLast?_eq_some_getLast hne
  rw [hfirst, hlast] at hgroup
  rw [← hpstart, ← hgroup]
  refine scan_group_apart hread.faults hcs hp ?_ hfirst hlast
  -- the semicolon of a line end would stand at a blank
  cases hline : Read.isLineEnd p with
  | false => rfl
  | true =>
    rcases scan_startsIn (terminated source) p hp with ⟨a, c, b, hsplit, hat, hlead⟩ | hend
    · refine absurd ⟨a, c, b, hsplit, ?_, ?_⟩ hink
      · rw [← hspan, ← hpstart, hat, Nat.zero_add]
      · have hc := hlead.lineEnd hline
        simp only [Lexeme.isLineEnd, Bool.or_eq_true, beq_iff_eq] at hc
        exact .inr (.inr hc)
    · rw [hpstart, hspan] at hend
      omega

/-- What was read and is not of the region lies beside the region or around it, unless it is of a
comment that starts in the region. -/
theorem ofSource_either (h : ofSource source = .ok d) (hr : d.resolve s = .ok r) {x : Entry}
    (hx : x ∈ d.file.entries) (hregion : x ∉ r.entries) (hcomment : ∀ g ∈ d.file.comments,
      x ∈ g.entries → g.tag.span.start < r.span.start ∨ r.span.stop < g.tag.span.start) :
    x.span.start ≤ x.span.stop ∧ x.span.stop < d.size ∧
      (x.span.Clears r.span ∨ x.span.Spans r.span) := by
  obtain ⟨file, c, c', hread⟩ := ofSource_ok h
  obtain ⟨target, hlt, _, hlocated, _⟩ := ofSource_target h hr
  obtain ⟨stop, hstop, hstrip⟩ := ofSource_upright h
  have hend : d.lines.dropBlankEnd.size ≤ d.size := d.lines.size_dropBlankEnd_le
  have hrow := hstrip.row
  rw [piecesOf_solid] at hrow
  obtain ⟨hlow, hordered, _, hdecls⟩ := hrow.cons
  obtain ⟨_, ⟨hfirst, _, hlast⟩, hbeside⟩ := hlocated.beside hdecls
  have hname : d.file.tag.span.start ≤ d.file.name.tag.span.start ∧
      d.file.name.tag.span.start ≤ d.file.name.tag.span.stop ∧
      d.file.name.tag.span.stop ≤ r.span.start := ⟨hlow, hordered, hfirst⟩
  have hclause : d.file.tag.span.stop = max d.file.name.tag.span.stop d.file.tag.span.start := by
    rw [hread.file, Lays.span_sourceFile hread.sourceFile]
  rw [SourceFile.entries_eq] at hx
  rcases List.mem_cons.1 hx with rfl | hx
  · change d.file.tag.span.start ≤ d.file.tag.span.stop ∧ d.file.tag.span.stop < d.size ∧
      (d.file.tag.span.Clears r.span ∨ d.file.tag.span.Spans r.span)
    exact ⟨by omega, by omega, .inl (.inl (by omega))⟩
  rcases List.mem_cons.1 hx with rfl | hx
  · change d.file.name.tag.span.start ≤ d.file.name.tag.span.stop ∧
      d.file.name.tag.span.stop < d.size ∧
        (d.file.name.tag.span.Clears r.span ∨ d.file.name.tag.span.Spans r.span)
    exact ⟨by omega, by omega, .inl (.inl (by omega))⟩
  rcases List.mem_append.1 hx with hx | hx
  · have hin : _ ≤ x.span.start ∧ x.span.start ≤ x.span.stop ∧ x.span.stop ≤ stop :=
      hdecls.inside x (by rwa [Piece.entriesAll_topDecls])
    obtain ⟨hstart, hbehind⟩ := (hbeside x hx).resolve_left hregion
    refine ⟨hin.2.1, by omega, ?_⟩
    unfold Span.Clears Span.Spans
    omega
  · obtain ⟨g, hg, hxg⟩ := List.mem_flatMap.1 hx
    obtain ⟨hstart, hfilled, hinside⟩ := hread.group_inside hg x hxg
    have hcovers := (hread.covers hg).2.1
    refine ⟨Nat.le_of_lt hfilled, by omega, .inl ?_⟩
    rcases hcomment g hg hxg with hbefore | hbehind
    · have hapart := (ofSource_comment_apart h hr hg).resolve_left (by omega)
      exact .inl (Nat.le_trans hinside hapart)
    · exact .inr (by omega)

end Read

section Step

variable {source : String} {d next : Document} {s : Selection} {name : String} {done : Lifted}

section Stays

variable {p : Plan} {pre post : List (Link × List Entry)} {x : Entry}

/-- The file around the call has the call and all that stays, each where it was put. -/
theorem perm_parts (h : p.Cuts d pre post) : ((p.edit d).parts d).host.entries.Perm
    (((p.edit d).replacement.entries ++ d.staying (p.edit d) pre post).map
      (Entry.retag ((p.edit d).placed d))) := by
  obtain ⟨htag, hname, _⟩ := host_rest (p := p) (d := d)
  rw [Edit.entries_parts]
  refine .map _ ?_
  rw [SourceFile.entries_eq, h.decls_host, htag, hname]
  refine List.perm_iff_count.2 fun y => ?_
  simp only [groupEntries, List.count_append, List.count_cons, staying]
  omega

theorem outer_of_staying (hx : x ∈ d.staying (p.edit d) pre post) : x ∈ d.outerEntries pre post := by
  have hkept (hx : x ∈ groupEntries (p.edit d).kept) : x ∈ groupEntries d.file.comments := by
    have hmem := (p.edit d).groupEntries_perm.mem_iff.2 (List.mem_append_right _ hx)
    rwa [host_rest.2.2] at hmem
  simp only [staying, outerEntries, List.mem_cons, List.mem_append] at hx ⊢
  tauto

theorem not_takes (h : p.Cuts d pre post) (hx : x ∈ d.staying (p.edit d) pre post)
    {g : CommentGroup} (hg : g ∈ d.file.comments) (hxg : x ∈ g.entries) :
    (p.edit d).takes g = false := by
  by_contra htaken
  have hdetached : g ∈ (p.edit d).detached := by
    refine List.mem_filter.2 ⟨?_, by simpa using htaken⟩
    rwa [host_rest.2.2]
  exact h.not_detached hx (List.mem_flatMap.2 ⟨g, hdetached, hxg⟩) rfl

theorem follows_staying (hread : ofSource source = .ok d) (hsize : d.size < 2 ^ 32)
    (hr : d.resolve s = .ok p.region) (h : p.Cuts d pre post)
    (hx : x ∈ d.staying (p.edit d) pre post) : (p.edit d).old.Follows (textBytes (terminated source))
      (textBytes ((p.edit d).callDrawing d).text) x.span (x.retag ((p.edit d).placed d)).span := by
  obtain ⟨_, _, _, hreads⟩ := ofSource_ok hread
  obtain ⟨target, hlt, hstop, hlocated, _⟩ := ofSource_target hread hr
  obtain ⟨Q, _, _, hrow⟩ := (ofSource_snug hread).decls
  have hold : (p.edit d).old = target := by
    rw [(p.edit_spec d).1.old, (hlocated.beside hrow).1]
  obtain ⟨hregion, haround⟩ := h.owned.around_eq h.old (outer_of_staying hx)
  have hplaced : (p.edit d).placed d x.tag =
      (Change.shift (p.edit d).old.stop ((p.edit d).delta d)).onTag x.tag := by
    rw [Edit.placed, Edit.onTag_shiftUnmoved, if_pos (h.mem_shifted_iff.2 ⟨x, hx, rfl⟩)]
    exact haround
  have hxd : x ∈ d.file.entries := h.perm_old.mem_iff.2 (List.mem_append_right _ hx)
  have hcomment : ∀ g ∈ d.file.comments, x ∈ g.entries →
      g.tag.span.start < p.region.span.start ∨ p.region.span.stop < g.tag.span.start := by
    intro g hg hxg
    have htaken := not_takes h hx hg hxg
    rw [← (p.edit_spec d).1.old]
    simp only [Edit.takes, Bool.and_eq_false_iff, decide_eq_false_iff_not] at htaken
    omega
  obtain ⟨hordered, hinside, heither⟩ := ofSource_either hread hr hxd hregion hcomment
  rw [← (p.edit_spec d).1.old] at heither
  have hlength : (textBytes (terminated source)).length = d.size := by
    rw [length_textBytes, hreads.size, byteSize_toList]
  have hset : x.span.isUnset = false := by
    have hunknown : Span.unknown = 2 ^ 32 - 1 := rfl
    rw [Span.isUnset, beq_eq_false_iff_ne]
    omega
  have hdelta : (p.edit d).delta d =
      (p.edit d).old.growth (textBytes ((p.edit d).callDrawing d).text) := by
    rw [Edit.delta, Edit.stop_callDrawing, Span.growth, length_textBytes]
    omega
  change (p.edit d).old.Follows _ _ _ ((p.edit d).placed d x.tag).span
  rw [hplaced]
  change (p.edit d).old.Follows _ _ _ (x.span.shift (p.edit d).old.stop ((p.edit d).delta d))
  rw [hdelta]
  refine Span.follows_shift ?_ ?_ hset hordered heither
  · rw [hold]
    exact hlt
  · rw [hold, hlength]
    exact Nat.le_of_lt hstop

end Stays

/-- What was read is of the region, of a comment that starts in it, or it stays. The pass over the
rewritten file moves exactly what stays: it comes to stand on its text, or it stood around the region
and has the call in place of it. The new function, with the region in it, and the comments that it
takes along come out of the pass as they were. -/
theorem lift_shifts (hread : ofSource source = .ok d) (hsize : d.size < 2 ^ 32)
    (hlift : d.lift s name = .ok (next, done)) : let e := done.plan.edit d
    ∃ stays : List Entry,
      d.file.entries.Perm (done.plan.region.entries ++ groupEntries e.detached ++ stays) ∧
      (∀ i, i ∈ e.shifted ↔ ∃ x ∈ stays, x.tag.id = i) ∧
      (e.parts d).host.entries.Perm
        ((e.replacement.entries ++ stays).map (Entry.retag (e.placed d))) ∧
      (∀ x ∈ stays, e.old.Follows (textBytes (terminated source)) (textBytes (e.callDrawing d).text)
        x.span (x.retag (e.placed d)).span) ∧
      (∀ x ∈ done.plan.region.entries, x ∈ (e.parts d).function.entries) ∧
      (e.parts d).function = e.function ∧ (e.parts d).detached = e.detached := by
  obtain ⟨hd, _, _⟩ := ofSource_sound hread
  have h := lifts hd hlift
  obtain ⟨target, _, _, hlocated⟩ := resolve_located h.region
  obtain ⟨pre, post, hcuts⟩ := Plan.Cuts.of_located hd hlocated h.fits
  have hparts := hcuts.parts_eq
  refine ⟨d.staying (done.plan.edit d) pre post, hcuts.perm_old, fun i => hcuts.mem_shifted_iff,
    perm_parts hcuts, fun x hx => follows_staying hread hsize h.region hcuts hx, ?_, ?_, ?_⟩
  · rw [hparts]
    exact fun x hx => Plan.region_sublist.subset hx
  · rw [hparts]
    rfl
  · rw [hparts]
    rfl

/-- A call in place of a number between comments. -/
theorem lift_shifts_comments : ∃ (d next : Document) (done : Lifted),
    ofSource "package p\n\n// f\nfunc f() \x7b\n\tx := 3 // three\n\tprintln(x)\n\x7d\n" = .ok d ∧
    d.lift ⟨⟨5, 7⟩, ⟨5, 8⟩⟩ "Three" = .ok (next, done) ∧ (done.plan.edit d).old = ⟨33, 34⟩ ∧
    ∃ stays : List Entry,
      d.file.entries.Perm (done.plan.region.entries ++ groupEntries (done.plan.edit d).detached ++ stays) ∧
      (∀ i, i ∈ (done.plan.edit d).shifted ↔ ∃ x ∈ stays, x.tag.id = i) ∧
      ((done.plan.edit d).parts d).host.entries.Perm
        (((done.plan.edit d).replacement.entries ++ stays).map
          (Entry.retag ((done.plan.edit d).placed d))) ∧
      ∀ x ∈ stays, (⟨33, 34⟩ : Span).Follows (textBytes (terminated
        "package p\n\n// f\nfunc f() \x7b\n\tx := 3 // three\n\tprintln(x)\n\x7d\n"))
          (textBytes ((done.plan.edit d).callDrawing d).text) x.span
            (x.retag ((done.plan.edit d).placed d)).span := by
  obtain ⟨d, next, done, hread, hlift, hcheck⟩ := exists_lift
    "package p\n\n// f\nfunc f() \x7b\n\tx := 3 // three\n\tprintln(x)\n\x7d\n" ⟨⟨5, 7⟩, ⟨5, 8⟩⟩ "Three"
    (fun d _ done => decide (d.size < 2 ^ 32) && decide ((done.plan.edit d).old = ⟨33, 34⟩))
    (by decide +kernel)
  obtain ⟨hsize, hold⟩ := Bool.and_eq_true_iff.1 hcheck
  have hold := of_decide_eq_true hold
  obtain ⟨stays, hperm, hshifted, hparts, hfollows, _⟩ :=
    lift_shifts hread (of_decide_eq_true hsize) hlift
  exact ⟨d, next, done, hread, hlift, hold, stays, hperm, hshifted, hparts, hold ▸ hfollows⟩

end Step

end Document

end FuncLift
