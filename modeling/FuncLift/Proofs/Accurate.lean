import FuncLift.Proofs.Atomic
import FuncLift.Proofs.Closed

/-!
# How accurate a document is

After a lift the document describes, byte by byte, the text that was drawn to lay it out. It
describes what is printed from it exactly as far as that text agrees with the first: the printer
reads the new spans, and may set things out differently.
-/
namespace FuncLift

namespace Edit

variable {e : Edit} {d : Document}

/-- The new function has all comments of the region, and its marks lie before its end. -/
theorem marks_functionDrawing {t : Tag} {stmts : List Stmt} (h : e.function.Unplaced t stmts)
    (hknown : Known e.detached) :
    (e.functionDrawing d).unplaced = [] ∧
      (∀ m ∈ (e.functionDrawing d).marks.reverse, m.span.start < (e.functionDrawing d).stop) ∧
      ∀ g ∈ e.detached, ∃ m ∈ (e.functionDrawing d).marks.reverse, m.id = g.tag.id := by
  obtain ⟨htext, hmarks, hunplaced⟩ := e.functionDrawing_pen (d := d)
  have hpen := e.offset_functionPen (d := d)
  obtain ⟨opened, broken, hcloses⟩ := h.closes hpen rfl hknown
  obtain ⟨_, _, _, hlead⟩ := (@Draws.func _ True e.function).leads _ hpen
  obtain ⟨ms, hms, hsound, _⟩ := hlead.marks
  have hstop : (e.functionDrawing d).stop = (e.linesAround d).dropBlankEnd.size +
      byteSize (Draw.func e.function (e.functionPen d)).2.text + 1 := by
    rw [Drawing.stop, ← byteSize_toList, htext, byteSize_append]
    rfl
  refine ⟨hunplaced.trans hcloses.comments, fun m hm => ?_, fun g hg => ?_⟩
  · rw [hmarks, hms.trans (List.append_nil ms)] at hm
    obtain ⟨_, x, _, hmark⟩ := hsound m hm
    have hordered := hmark.ordered
    have hinside := hmark.inside
    omega
  · obtain ⟨m, hm, hid, _⟩ := hcloses.above _ (tag_mem_groupEntries hg)
    exact ⟨m, hmarks ▸ hm, hid⟩

/-- The texts that an edit is laid out to are smaller than a limit. -/
structure Fits (e : Edit) (d : Document) (limit : Nat) : Prop where
  around : (e.linesAround d).size < limit
  function : (e.functionDrawing d).stop < limit

instance (limit : Nat) : Decidable (e.Fits d limit) :=
  decidable_of_iff ((e.linesAround d).size < limit ∧ (e.functionDrawing d).stop < limit)
    ⟨fun h => ⟨h.1, h.2⟩, fun h => ⟨h.around, h.function⟩⟩

theorem known_unsettled (hd : ∀ g ∈ e.host.comments, g.tag.span.start < d.size)
    (hsize : d.size < 2 ^ 32) (hfits : e.Fits d (2 ^ 32)) (hold : e.old.stop < d.size)
    (haround : (e.linesAround d).size = e.sizeAround d) {t : Tag} {stmts : List Stmt}
    (hfunction : e.function.Unplaced t stmts) :
    Known (d.unsettled e).file.comments := by
  have hunknown : Span.unknown = 2 ^ 32 - 1 := rfl
  have hdetached : Known e.detached := by
    intro g hg
    have := hd g (List.mem_filter.1 hg).1
    omega
  obtain ⟨hunplaced, hbefore, hfound⟩ := marks_functionDrawing (d := d) hfunction hdetached
  have hbound : (e.callDrawing d).stop < Span.unknown := by
    have := hfits.around
    rw [haround] at this
    unfold sizeAround delta at this
    omega
  intro g hg
  have hg : g ∈ (e.hostAround d).comments ++ e.detached.map (e.placeComment (e.functionDrawing d)) :=
    (List.mergeSort_perm _ _).mem_iff.1 hg
  rcases List.mem_append.1 hg with hg | hg
  · have hcomments : (e.hostAround d).comments = (e.kept.map
        (Change.shift e.old.stop (e.delta d)).commentGroup).map
        (Change.ofMarks (e.callDrawing d).marks.reverse).commentGroup := rfl
    rw [hcomments] at hg
    obtain ⟨x, hx, rfl⟩ := List.mem_map.1 hg
    obtain ⟨k, hk, rfl⟩ := List.mem_map.1 hx
    have hk := hd k (List.mem_filter.1 hk).1
    have hshift : (k.tag.span.shift e.old.stop (e.delta d)).start < Span.unknown := by
      have hfit := hfits.around
      rw [haround] at hfit
      unfold Span.shift
      split
      · omega
      · unfold sizeAround at hfit
        simp only [Span.shiftOffset]
        split <;> omega
    by_cases hmarked : ∃ m ∈ (e.callDrawing d).marks.reverse, m.id = k.tag.id
    · obtain ⟨m, hm, _, hspan⟩ := Change.ofMarks_found
        (t := (Change.shift e.old.stop (e.delta d)).onTag k.tag) _ hmarked
      obtain ⟨_, hordered, hstop, _⟩ := marks_callDrawing.1 m hm
      change ((Change.ofMarks (e.callDrawing d).marks.reverse).onTag
        ((Change.shift e.old.stop (e.delta d)).onTag k.tag)).span.start < _
      rw [hspan]
      omega
    · have hkept := Change.ofMarks_kept
        (t := (Change.shift e.old.stop (e.delta d)).onTag k.tag) _ hmarked
      change ((Change.ofMarks (e.callDrawing d).marks.reverse).onTag
        ((Change.shift e.old.stop (e.delta d)).onTag k.tag)).span.start < _
      rw [hkept]
      exact hshift
  · obtain ⟨k, hk, rfl⟩ := List.mem_map.1 hg
    have hplace : e.placeComment (e.functionDrawing d) k =
        (Change.ofMarks (e.functionDrawing d).marks.reverse).commentGroup k := by
      rw [placeComment, hunplaced]
      rfl
    obtain ⟨m, hm, _, hspan⟩ := Change.ofMarks_found (t := k.tag) _ (hfound k hk)
    have hstart : (e.placeComment (e.functionDrawing d) k).tag.span = m.span := by
      rw [hplace]
      exact hspan
    have := hbefore m hm
    have := hfits.function
    rw [hstart]
    omega

end Edit

namespace Document

/-- The documents of a session in which no text reaches a limit. -/
inductive ReachedWithin (limit : Nat) : Document → Prop where
  | read {source : String} {d : Document} : ofSource source = .ok d → d.size < limit →
      ReachedWithin limit d
  | lift {d next : Document} {s : Selection} {name : String} {done : Lifted} :
      ReachedWithin limit d → d.lift s name = .ok (next, done) →
      (done.plan.edit d).Fits d limit → next.size < limit → ReachedWithin limit next

/-- A text has the size and the lines of a document, and every word stands where it says. -/
structure Accurate (d : Document) (text : String) : Prop where
  size : text.utf8ByteSize = d.size
  lines : LineTable.ofText text = d.lines
  under : ∀ e ∈ d.file.entries, ∀ s, e.text = some s → Under 0 text.toList e.span s.toList

/-- Two texts have the same size and the same lines, and differ under no word of a document. -/
structure Agree (d : Document) (a b : String) : Prop where
  size : a.utf8ByteSize = b.utf8ByteSize
  lines : LineTable.ofText a = LineTable.ofText b
  under : ∀ e ∈ d.file.entries, ∀ s, e.text = some s →
    (Under 0 a.toList e.span s.toList ↔ Under 0 b.toList e.span s.toList)

theorem Accurate.iff_agree {d : Document} {a b : String} (h : d.Accurate a) :
    d.Accurate b ↔ d.Agree a b := by
  constructor
  · intro hb
    exact ⟨h.size.trans hb.size.symm, h.lines.trans hb.lines.symm, fun e he s hs =>
      ⟨fun _ => hb.under e he s hs, fun _ => h.under e he s hs⟩⟩
  · intro hab
    exact ⟨hab.size.symm.trans h.size, hab.lines.symm.trans h.lines, fun e he s hs =>
      (hab.under e he s hs).1 (h.under e he s hs)⟩

namespace ReachedWithin

variable {d : Document}

theorem reached {limit : Nat} (h : d.ReachedWithin limit) : d.Reached := by
  induction h with
  | read h => exact .read h
  | lift _ h _ _ ih => exact .lift ih h

theorem size_lt {limit : Nat} (h : d.ReachedWithin limit) : d.size < limit := by
  cases h with
  | read _ h => exact h
  | lift _ _ _ h => exact h

end ReachedWithin

section Step

variable {d next : Document} {s : Selection} {name : String} {done : Lifted}

theorem Lifts.made_whole (h : d.Lifts s name next done) (hd : d.Reached) :
    AllWhole ((done.plan.edit d).replacement.entries ++ (done.plan.edit d).function.entries) := by
  obtain ⟨target, _, _, hlocated⟩ := resolve_located h.region
  obtain ⟨_, _, hmem, _⟩ := done.plan.edit_spec d
  obtain ⟨pre, post, hviews, _⟩ := swapped_host hd.owned hlocated h.fits
  intro e he
  rcases hmem e he with he | he
  · refine hd.whole e ?_
    rw [SourceFile.entries_eq_links, ownEntries_of_views hviews, Region.ownEntries_links]
    simp [he]
  · exact he.1

theorem Lifts.unplaced (h : d.Lifts s name next done) (hd : d.Reached) :
    ∃ t stmts, (done.plan.edit d).function.Unplaced t stmts := by
  obtain ⟨⟨⟨_, body, _, _, hfunction⟩, _, _⟩, _⟩ := done.plan.edit_spec d
  obtain ⟨t, hbody, ht⟩ := hfunction.body
  exact ⟨t, body, hfunction.recv, hfunction.unset, hbody, ht,
    ((allWhole_append _ _).1 (h.made_whole hd)).2⟩

theorem Lifts.known (h : d.Lifts s name next done) (hd : d.Reached)
    (hcomments : ∀ g ∈ d.file.comments, g.tag.span.start < d.size) (hsize : d.size < 2 ^ 32)
    (hfits : (done.plan.edit d).Fits d (2 ^ 32)) :
    Known (d.unsettled (done.plan.edit d)).file.comments := by
  obtain ⟨target, hordered, hinside, hlocated⟩ := resolve_located h.region
  have hspan := hd.seated.region_span hordered hinside hlocated
  obtain ⟨⟨_, hold, _⟩, _⟩ := done.plan.edit_spec d
  rw [← hold] at hspan
  obtain ⟨t, stmts, hunplaced⟩ := h.unplaced hd
  refine Edit.known_unsettled ?_ hsize hfits hspan.2 (Edit.size_linesAround hspan.1 hspan.2) hunplaced
  rw [host_rest.2.2]
  exact hcomments

theorem Lifts.accurate (h : d.Lifts s name next done) (hd : d.Reached)
    (hnext : next.Reached) (hcomments : ∀ g ∈ d.file.comments, g.tag.span.start < d.size)
    (hsize : d.size < 2 ^ 32) (hfits : (done.plan.edit d).Fits d (2 ^ 32)) :
    next.Accurate (d.unsettled (done.plan.edit d)).print ∧
      ∀ g ∈ next.file.comments, g.tag.span.start < next.size := by
  have hknown := h.known hd hcomments hsize hfits
  obtain ⟨hlaid, _⟩ := h.layout
  subst hlaid
  obtain ⟨honce, hw⟩ := sound_of_settle hnext.owned.once hnext.whole
  obtain ⟨hlines, hbytes⟩ := size_settle _
  have hsits := (settle_sits hw honce).2 hknown
  refine ⟨⟨hbytes.symm, hlines.symm, fun e he => (hsits e he).under⟩, fun g hg => ?_⟩
  have hentry : g.tag.entry ∈ (d.unsettled (done.plan.edit d)).settle.file.entries := by
    rw [SourceFile.entries_eq_fixed]
    exact List.mem_append_right _ (tag_mem_groupEntries hg)
  have hsit := hsits _ hentry
  rw [hbytes]
  exact Nat.lt_of_le_of_lt hsit.ordered hsit.inside

end Step

theorem ReachedWithin.comments {d : Document} (h : d.ReachedWithin (2 ^ 32)) :
    ∀ g ∈ d.file.comments, g.tag.span.start < d.size := by
  induction h with
  | read h => exact (ofSource_sound h).2.2
  | lift hd h hfits _ ih =>
    exact ((lifts hd.reached.owned h).accurate hd.reached (.lift hd.reached h) ih hd.size_lt hfits).2

/-- After every lift the document describes the text that was drawn to lay it out, and it describes
the text that is printed from it exactly if the two agree in size, in lines and under every word. -/
theorem ReachedWithin.accurate_iff {d next : Document} {s : Selection} {name : String}
    {done : Lifted} (hd : d.ReachedWithin (2 ^ 32)) (h : d.lift s name = .ok (next, done))
    (hfits : (done.plan.edit d).Fits d (2 ^ 32)) :
    done.edit.lines = next.lines ∧ next.Accurate (d.unsettled (done.plan.edit d)).print ∧
      (next.Accurate next.print ↔ next.Agree (d.unsettled (done.plan.edit d)).print next.print) := by
  have hlaid := ((lifts hd.reached.owned h).accurate hd.reached (.lift hd.reached h) hd.comments hd.size_lt hfits).1
  obtain ⟨_, hedit⟩ := (lifts hd.reached.owned h).layout
  refine ⟨?_, hlaid, hlaid.iff_agree⟩
  rw [hedit]

/-- The literal that a variable is defined with is lifted, and all sizes stay below the limit. -/
theorem exists_fitting_lift : ∃ d next done,
    ofSource "package p\n\nfunc f() \x7b\n\tx := 3\n\tprintln(x)\n\x7d\n" = .ok d ∧
      d.lift ⟨⟨4, 7⟩, ⟨4, 8⟩⟩ "Seven" = .ok (next, done) ∧ d.size < 2 ^ 32 ∧
      (done.plan.edit d).Fits d (2 ^ 32) ∧ next.size < 2 ^ 32 ∧
      done.edit.delta = 6 ∧ next.size = d.size + 6 + 1 + 31 := by
  obtain ⟨d, next, done, hread, hlift, hcheck⟩ := exists_lift
    "package p\n\nfunc f() \x7b\n\tx := 3\n\tprintln(x)\n\x7d\n" ⟨⟨4, 7⟩, ⟨4, 8⟩⟩ "Seven"
    (fun d next done => decide (d.size < 2 ^ 32 ∧ (done.plan.edit d).Fits d (2 ^ 32) ∧
      next.size < 2 ^ 32 ∧ done.edit.delta = 6 ∧ next.size = d.size + 6 + 1 + 31)) (by decide +kernel)
  exact ⟨d, next, done, hread, hlift, of_decide_eq_true hcheck⟩

theorem ReachedWithin.accurate_iff_literal : ∃ (d next : Document) (done : Lifted),
    d.ReachedWithin (2 ^ 32) ∧
    d.lift ⟨⟨4, 7⟩, ⟨4, 8⟩⟩ "Seven" = .ok (next, done) ∧ (done.plan.edit d).Fits d (2 ^ 32) ∧
      done.edit.lines = next.lines ∧ next.Accurate (d.unsettled (done.plan.edit d)).print ∧
        (next.Accurate next.print ↔
          next.Agree (d.unsettled (done.plan.edit d)).print next.print) := by
  obtain ⟨d, next, done, hread, hlift, hsize, hfits, -⟩ := exists_fitting_lift
  exact ⟨d, next, done, .read hread hsize, hlift, hfits,
    accurate_iff (.read hread hsize) hlift hfits⟩

/-- A comment that shares a line with the declaration after it is moved to a line of its own. The
document is laid out while the two still share one, so it misses the blank line before the comment. -/
theorem ReachedWithin.not_accurate : ∃ (d next : Document) (done : Lifted),
    d.ReachedWithin (2 ^ 32) ∧
    d.lift ⟨⟨4, 7⟩, ⟨4, 8⟩⟩ "Seven" = .ok (next, done) ∧ (done.plan.edit d).Fits d (2 ^ 32) ∧
      next.size = 111 ∧ next.print.utf8ByteSize = 112 ∧ ¬ next.Accurate next.print := by
  obtain ⟨d, next, done, hread, hlift, hcheck⟩ := exists_lift
    ("package p\n\nfunc f() \x7b\n\tx := 3\n\tprintln(x)\n\x7d\n\n" ++
      "var a = 1\n/* c */ var b = 2\n") ⟨⟨4, 7⟩, ⟨4, 8⟩⟩ "Seven"
    (fun d next done => decide ((d.size < 2 ^ 32 ∧ (done.plan.edit d).Fits d (2 ^ 32)) ∧
      next.size = 111 ∧ next.print.utf8ByteSize = 112)) (by decide +kernel)
  obtain ⟨⟨hsize, hfits⟩, hlaid, hprinted⟩ := of_decide_eq_true hcheck
  refine ⟨d, next, done, .read hread hsize, hlift, hfits, hlaid, hprinted, fun h => ?_⟩
  have hequal := h.size
  omega

end Document

end FuncLift
