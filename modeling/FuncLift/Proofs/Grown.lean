import FuncLift.Proofs.Commented

/-!
# How much a text grows

Where the call is put the text grows by the difference in size, and the new function is drawn behind
it and an empty line. But then the whole file is laid out once more, and what stands before the
function may be drawn with another size. So the text grows by what was drawn exactly if the function
stays where it was drawn first.
-/
namespace FuncLift

namespace Document

/-- How a document grows by a lift. The function is `first` where it is drawn first, and `last` where
it stands in the end. -/
structure Grows (d next : Document) (done : Lifted) (first last : FuncDecl) : Prop where
  function : next.file.decls.getLast? = some (.func last) ∧ last.tag.id = done.function ∧
    first.tag.id = done.function
  /-- Before the whole file is laid out once more, the text has grown by the difference in size where
  the call is put, by an empty line, and by the function. -/
  drawn : (first.tag.span.start : Int) = d.lines.dropBlankEnd.size + done.edit.delta + 1 ∧
    ((d.unsettled (done.plan.edit d)).size : Int) =
      d.lines.dropBlankEnd.size + done.edit.delta + 1 + (first.tag.span.length + 1)
  /-- In the end the function and a newline are the end of the text. -/
  text : ∃ front back, (d.unsettled (done.plan.edit d)).print.toList = front ++ back ++ ['\n'] ∧
    last.tag.span = ⟨byteSize front, byteSize (front ++ back)⟩
  size : next.size = last.tag.span.start + (last.tag.span.length + 1)
  conserved : (next.size : Int) =
      d.lines.dropBlankEnd.size + done.edit.delta + 1 + (last.tag.span.length + 1) ↔
    last.tag.span.start = first.tag.span.start

section Step

variable {d next : Document} {s : Selection} {name : String} {done : Lifted}

theorem Lifts.region_before (h : d.Lifts s name next done) (hsnug : d.Snug) :
    (done.plan.edit d).old.start ≤ (done.plan.edit d).old.stop ∧
      (done.plan.edit d).old.stop < d.lines.dropBlankEnd.size := by
  obtain ⟨target, _, _, hlocated⟩ := resolve_located h.region
  obtain ⟨Q, stop, hstop, hrow⟩ := hsnug.decls
  obtain ⟨_, ⟨_, hordered, hhigh⟩, _⟩ := hlocated.beside hrow
  rw [(done.plan.edit_spec d).1.old]
  exact ⟨hordered, Nat.lt_of_le_of_lt hhigh hstop⟩

theorem Lifts.grows (h : d.Lifts s name next done) (hd : d.ReachedWithin (2 ^ 32))
    (hnext : next.Reached) (hfits : (done.plan.edit d).Fits d (2 ^ 32)) :
    d.Grows next done ((done.plan.edit d).placedFunction d)
      ((done.plan.edit d).settledFunction d) := by
  obtain ⟨opened, broken, stop, hlands⟩ := h.lands hd.reached hd.snug hd.size_lt
  obtain ⟨p, q, hsettles⟩ := h.settles hd.reached hnext hd.snug hd.size_lt hfits
  have hplace := h.span_function hnext hsettles
  have hfunction := h.function
  obtain ⟨hordered, hbefore⟩ := h.region_before hd.snug
  have haround := Edit.dropBlankEnd_linesAround hordered hbefore (done.plan.tail_callDrawing d)
  obtain ⟨hlaid, hedit⟩ := h.layout
  have hdelta : done.edit.delta = (done.plan.edit d).delta d := by rw [hedit]
  obtain ⟨hstart, w, htext, hstop⟩ := hsettles.writes
  have hlow : p.offset ≤ q.offset := by
    rw [hstart, hstop, htext, byteSize_append]
    exact Nat.le_add_right _ _
  have hdrawn : ((done.plan.edit d).placedFunction d).tag.span =
      ⟨((done.plan.edit d).linesAround d).dropBlankEnd.size + 1, stop⟩ := hlands.span
  have hends := hlands.inside
  have hstarts := hlands.starts
  have hopens := hlands.opens
  have hbreaks := hlands.breaks
  have hsize : next.size = q.offset + 1 := by
    rw [hlaid, (size_settle _).2, ← byteSize_toList, hsettles.text, byteSize_append, hstop]
    rfl
  refine ⟨⟨?_, hfunction.symm, hfunction.symm⟩, ⟨?_, ?_⟩, ⟨p.text, w, ?_, ?_⟩, ?_, ?_⟩
  · rw [hlaid]
    exact ((done.plan.edit d).settled_ends d).2.2
  · rw [hdrawn, hdelta]
    dsimp only
    omega
  · rw [size_unsettled, hdrawn, hdelta, Span.length]
    dsimp only
    omega
  · rw [hsettles.text, htext]
  · rw [hplace, hstart, hstop, htext]
  · rw [hplace, hsize, Span.length]
    dsimp only
    omega
  · rw [hplace, hdrawn, hsize, hdelta, Span.length]
    dsimp only
    omega

end Step

theorem ofSource_size {source : String} {d : Document} (h : ofSource source = .ok d) {w : List Char}
    {c : Char} (hc : c ≠ '\n') (hends : source.toList = w ++ [c] ++ ['\n']) :
    d.lines.dropBlankEnd.size = source.utf8ByteSize := by
  obtain ⟨_, _, _, hread⟩ := ofSource_ok h
  have hterminated : terminated source = source := terminated_eq_self (by simp [hends])
  rw [hread.lines, hterminated, LineTable.size_dropBlankEnd_ofText hc hends]
  exact LineTable.size_ofText (by simp [hends])

/-- After a lift the new function is the end of the text. The text has grown by the difference in size
where the call is put, by an empty line and by the function exactly if the function stands in the end
where it was drawn first. What it has grown from is the text up to its empty lines, so the whole text
that was read if its last line is not empty. -/
theorem ReachedWithin.grows_iff {d next : Document} {s : Selection} {name : String} {done : Lifted}
    (hd : d.ReachedWithin (2 ^ 32)) (h : d.lift s name = .ok (next, done))
    (hfits : (done.plan.edit d).Fits d (2 ^ 32)) :
    (∃ first last, d.Grows next done first last) ∧ ∀ source w c, ofSource source = .ok d →
      c ≠ '\n' → source.toList = w ++ [c] ++ ['\n'] →
        d.lines.dropBlankEnd.size = source.utf8ByteSize :=
  ⟨⟨_, _, (lifts hd.reached.owned h).grows hd (.lift hd.reached h) hfits⟩, fun _ _ _ hread => ofSource_size hread⟩

theorem ReachedWithin.grows_iff_literal : ∃ (d next : Document) (done : Lifted),
    d.ReachedWithin (2 ^ 32) ∧
    d.lift ⟨⟨4, 7⟩, ⟨4, 8⟩⟩ "Seven" = .ok (next, done) ∧ (done.plan.edit d).Fits d (2 ^ 32) ∧
      done.edit.delta = 6 ∧ next.size = d.size + 6 + 1 + 31 ∧
        ∃ first last, d.Grows next done first last := by
  obtain ⟨d, next, done, hread, hlift, hsize, hfits, -, hdelta, hgrown⟩ := exists_fitting_lift
  exact ⟨d, next, done, .read hread hsize, hlift, hfits, hdelta, hgrown,
    (grows_iff (.read hread hsize) hlift hfits).1⟩

/-- Parentheses that only kept a composite literal apart from the block behind it are not drawn any more
once a call stands in its place. So a text that is printed as it was read grows by two bytes less. -/
theorem lift_shrinks : ∃ (d next : Document) (done : Lifted),
    ofSource "package p\n\nfunc f(x T) \x7b\n\tif (T\x7b\x7d == x) \x7b\n\t\x7d\n\x7d\n" = .ok d ∧
    d.print = "package p\n\nfunc f(x T) \x7b\n\tif (T\x7b\x7d == x) \x7b\n\t\x7d\n\x7d\n" ∧
    d.lift ⟨⟨4, 6⟩, ⟨4, 9⟩⟩ "Zero" = .ok (next, done) ∧
      next.print = "package p\n\nfunc f(x T) \x7b\n\tif Zero() == x \x7b\n\t\x7d\n\x7d\n\n" ++
        "func Zero() T \x7b\n\treturn T\x7b\x7d\n\x7d\n" ∧
      (next.size : Int) ≠ d.size + done.edit.delta + 1 +
        ("func Zero() T \x7b\n\treturn T\x7b\x7d\n\x7d\n").utf8ByteSize ∧
      (next.size : Int) + 2 = d.size + done.edit.delta + 1 +
        ("func Zero() T \x7b\n\treturn T\x7b\x7d\n\x7d\n").utf8ByteSize := by
  obtain ⟨d, next, done, hread, hlift, hcheck⟩ := exists_lift
    "package p\n\nfunc f(x T) \x7b\n\tif (T\x7b\x7d == x) \x7b\n\t\x7d\n\x7d\n" ⟨⟨4, 6⟩, ⟨4, 9⟩⟩ "Zero"
    (fun d next done => decide (
      d.print = "package p\n\nfunc f(x T) \x7b\n\tif (T\x7b\x7d == x) \x7b\n\t\x7d\n\x7d\n" ∧
      next.print = "package p\n\nfunc f(x T) \x7b\n\tif Zero() == x \x7b\n\t\x7d\n\x7d\n\n" ++
        "func Zero() T \x7b\n\treturn T\x7b\x7d\n\x7d\n" ∧
      (next.size : Int) + 2 = d.size + done.edit.delta + 1 +
        ("func Zero() T \x7b\n\treturn T\x7b\x7d\n\x7d\n").utf8ByteSize)) (by decide +kernel)
  obtain ⟨hprint, hnext, hsize⟩ := of_decide_eq_true hcheck
  exact ⟨d, next, done, hread, hprint, hlift, hnext, by omega, hsize⟩

end Document

end FuncLift
