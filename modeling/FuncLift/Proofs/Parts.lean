import FuncLift.Proofs.Unmoved

/-!
# The parts of a rewritten file

In the file around the call everything has moved as the text behind the region moves, and the call has
its place. The new function and the comments that it takes along are what they were before.
-/
namespace FuncLift

namespace Edit

variable (e : Edit) (d : Document)

/-- The file around the call. What stands behind the region has moved, and the call has its
place. -/
def hostAround : SourceFile :=
  (Change.ofMarks (e.callDrawing d).marks.reverse).sourceFile
    ((Change.shift e.old.stop (e.delta d)).sourceFile { e.host with comments := e.kept })

/-- The file around the call, and the new function and the comments that it takes along as they
were. -/
def plainParts : Parts := ⟨e.hostAround d, e.function, e.detached⟩

/-- The new function, drawn behind a blank line. -/
def drawFunction : Draw Unit := do
  Draw.write "\n"
  Draw.topDecl (.func e.function)
  Draw.write "\n"

/-- The new function with the comments of the region, drawn behind the last line that is not
empty. -/
def functionDrawing : Drawing :=
  .run d.lines e.detached (e.linesAround d).dropBlankEnd.size e.drawFunction

/-- The file with the new function and all comments, in the order of their starts. -/
def fileAfter (tail : Drawing) : SourceFile :=
  let host := e.hostAround d
  let comments := host.comments ++ e.detached.map (e.placeComment tail)
  { host with
    decls := host.decls ++ [.func ((Change.ofMarks tail.marks.reverse).func e.function)]
    comments := comments.mergeSort fun a b => decide (a.tag.span.start ≤ b.tag.span.start) }

/-- The marks of a call lie inside of its drawing. All of the call is marked, and nothing
else. -/
theorem marks_callDrawing {e : Edit} {d : Document} :
    (∀ m ∈ (e.callDrawing d).marks.reverse, e.old.start ≤ m.span.start ∧
      m.span.start ≤ m.span.stop ∧ m.span.stop ≤ (e.callDrawing d).stop ∧ ∃ x ∈ e.replacement.entries, m.id = x.tag.id) ∧
    (AllWhole e.replacement.entries → ∀ x ∈ e.replacement.entries,
      ∃ m ∈ (e.callDrawing d).marks.reverse, m.id = x.tag.id) := by
  have hdraws : ∃ ps, Piece.entriesAll ps = e.replacement.entries ∧
      Draws e.old.start true True e.drawReplacement ps := by
    unfold drawReplacement
    cases e.replacement with
    | expr x => exact ⟨_, List.append_nil _, .expr none 1 x⟩
    | stmt s => exact ⟨_, List.append_nil _, .stmt s⟩
  obtain ⟨ps, hentries, hdraws⟩ := hdraws
  obtain ⟨gs, hgs, _, hlead⟩ := hdraws.leads (.fresh d.lines [] e.old.start) rfl
  obtain ⟨rfl, _⟩ := List.append_eq_nil_iff.1 hgs.symm
  rw [hentries, groupEntries_nil, List.append_nil] at hlead
  obtain ⟨ms, hms, hsound, hcomplete⟩ := hlead.marks
  have hmarks : (e.callDrawing d).marks.reverse = ms :=
    Drawing.reverse_marks_run.trans (hms.trans (List.append_nil ms))
  rw [hmarks]
  refine ⟨fun m hm => ?_, fun hw => (hcomplete trivial hw).1⟩
  obtain ⟨hstart, x, hx, hmark⟩ := hsound m hm
  refine ⟨hstart, hmark.ordered, ?_, x, hx, hmark.id⟩
  rw [callDrawing, Drawing.stop_run]
  exact hmark.inside

theorem onTag_shiftUnmoved (t : Tag) : (e.shiftUnmoved d).onTag t =
    if t.id ∈ e.shifted then (Change.shift e.old.stop (e.delta d)).onTag t else t := by
  simp [shiftUnmoved, Change.shift, Change.tags]

end Edit

theorem Edit.shiftUnmoved_eq (e : Edit) (d : Document) :
    e.shiftUnmoved d = .tags (e.shiftUnmoved d).onTag := rfl

theorem Change.ofMarks_eq (ms : List Mark) : Change.ofMarks ms = .tags (Change.ofMarks ms).onTag := rfl

namespace Plan.Cuts

variable {p : Plan} {d : Document} {pre post : List (Link × List Entry)} {x : Entry}

/-- Neither the pass nor the place of the call changes the new function and the comments that it
takes along. -/
theorem untouched (h : p.Cuts d pre post)
    (hx : x ∈ (p.edit d).function.entries ++ groupEntries (p.edit d).detached) :
    ((p.edit d).shiftUnmoved d).onTag x.tag = x.tag ∧
      (Change.ofMarks ((p.edit d).callDrawing d).marks.reverse).onTag x.tag = x.tag := by
  have hone := h.idCount_le_one x.tag.id
  have hself := idCount_pos hx
  rw [idCount_append] at hself
  constructor
  · rw [Edit.onTag_shiftUnmoved, if_neg]
    intro hmem
    obtain ⟨y, hy, hid⟩ := h.mem_shifted_iff.1 hmem
    have hcopy := hid ▸ idCount_pos hy
    omega
  · refine Change.ofMarks_kept _ ?_
    rintro ⟨m, hm, hid⟩
    obtain ⟨_, _, _, y, hy, hmark⟩ := Edit.marks_callDrawing.1 m hm
    have hcopy := idCount_pos hy
    rw [← hmark, hid] at hcopy
    omega

theorem shifts_host (h : p.Cuts d pre post) :
    ((p.edit d).shiftUnmoved d).sourceFile { (p.edit d).host with comments := (p.edit d).kept } =
      (Change.shift (p.edit d).old.stop ((p.edit d).delta d)).sourceFile
        { (p.edit d).host with comments := (p.edit d).kept } := by
  obtain ⟨htag, hname, -⟩ := host_rest (p := p) (d := d)
  rw [Edit.shiftUnmoved_eq, Change.shift]
  refine Change.sourceFile_agree _ fun x hx => ?_
  rw [Edit.onTag_shiftUnmoved]
  rw [SourceFile.entries_eq, h.decls_host, htag, hname] at hx
  by_cases hmem : x ∈ d.staying (p.edit d) pre post
  · rw [if_pos (h.mem_shifted_iff.2 ⟨x, hmem, rfl⟩)]
    rfl
  · have hcall : x ∈ (p.edit d).replacement.entries := by
      simp only [Document.staying, groupEntries, List.mem_cons, List.mem_append] at hx hmem
      tauto
    obtain ⟨_, _, hmade, _⟩ := p.edit_spec d
    rcases hmade x (List.mem_append_left _ hcall) with hregion | ⟨_, hunset⟩
    · have hone := h.idCount_le_one x.tag.id
      have hcopy := idCount_pos (region_sublist (d := d).subset hregion)
      have hself := idCount_pos hcall
      omega
    · have hunset : x.tag.span = .unset := hunset
      have hstill : x.tag.span.shift (p.edit d).old.stop ((p.edit d).delta d) = x.tag.span := by
        rw [hunset]
        rfl
      split <;> simp [Change.shift, Change.tags, hstill]

/-- The parts of an edit: the pass moves all that is around the call, and nothing else. -/
theorem parts_eq (h : p.Cuts d pre post) : (p.edit d).parts d = (p.edit d).plainParts d := by
  have hfunction {c : Change} (hc : c = .tags c.onTag)
      (hkeep : ∀ x ∈ (p.edit d).function.entries, c.onTag x.tag = x.tag) :
      c.func (p.edit d).function = (p.edit d).function := by
    rw [hc]
    exact Change.func_same _ hkeep
  have hgroup {c : Change} (hc : c = .tags c.onTag)
      (hkeep : ∀ x ∈ groupEntries (p.edit d).detached, c.onTag x.tag = x.tag) {g : CommentGroup}
      (hg : g ∈ (p.edit d).detached) : c.commentGroup g = g := by
    rw [hc]
    exact Change.commentGroup_same g fun x hx => hkeep x (List.mem_flatMap.2 ⟨g, hg, hx⟩)
  have hdetached : ((p.edit d).detached.map fun g =>
      (Change.ofMarks ((p.edit d).callDrawing d).marks.reverse).commentGroup
        (((p.edit d).shiftUnmoved d).commentGroup g)) = (p.edit d).detached := by
    refine (List.map_congr_left fun g hg => ?_).trans (List.map_id _)
    rw [hgroup (Edit.shiftUnmoved_eq _ d) (fun x hx => (h.untouched (List.mem_append_right _ hx)).1) hg,
      hgroup (Change.ofMarks_eq _) (fun x hx => (h.untouched (List.mem_append_right _ hx)).2) hg]
    rfl
  rw [Edit.parts, h.shifts_host, hdetached,
    hfunction (Edit.shiftUnmoved_eq _ d) fun x hx => (h.untouched (List.mem_append_left _ hx)).1,
    hfunction (Change.ofMarks_eq _) fun x hx => (h.untouched (List.mem_append_left _ hx)).2]
  rfl

end Plan.Cuts

end FuncLift
