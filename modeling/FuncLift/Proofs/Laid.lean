import FuncLift.Proofs.Drawn
import FuncLift.Proofs.Session
import Mathlib.Data.List.TakeWhile

/-!
# Where things come to stand

Laying a file out puts every entry where its mark is. An entry with a word has the word under it in
the text that was written, and all entries end before the newline at the end.
-/
namespace FuncLift

open Outline

/-- No two of the entries have the same number. -/
def Apart (es : List Entry) : Prop := ∀ e ∈ es, ∀ f ∈ es, e.tag.id = f.tag.id → e = f

theorem apart_of_idCount {es : List Entry} (h : ∀ i, idCount i es ≤ 1) : Apart es :=
  fun e he _ hf hid => eq_of_countP (h e.tag.id) he hf (by simp) (by simpa using hid.symm)

namespace Change

theorem ofMarks_of_leads {base : Nat} {es : List Entry} {ps : List Piece} {p q : Pen}
    (h : Leads base True es ps p q) (hw : AllWhole es) (hp : p.marks = []) (hapart : Apart es)
    {e : Entry} (he : e ∈ es) :
    ∃ m, MarksAt base q.text m e ∧ ((ofMarks q.marks).onTag e.tag).span = m.span := by
  obtain ⟨ms, hms, hsound, hcomplete⟩ := h.marks
  rw [hp, List.append_nil] at hms
  rw [hms]
  obtain ⟨m, hm, hid, hspan⟩ := ofMarks_found ms ((hcomplete trivial hw).1 e he)
  obtain ⟨_, f, hf, hmark⟩ := hsound m hm
  have hfe : f = e := hapart f hf e he (hmark.id.symm.trans hid)
  subst hfe
  exact ⟨m, hmark, hspan⟩

end Change

/-- The comments have their places in the text. -/
def Known (gs : List CommentGroup) : Prop := ∀ g ∈ gs, g.tag.span.start < Span.unknown

theorem flushFrom_comments {base : Nat} (limit least : Nat) (gs : List CommentGroup) (p : Pen)
    (hp : p.offset = base + byteSize p.text) (hgs : p.comments = gs) :
    (Draw.flushFrom limit least gs p).2.comments =
      gs.dropWhile fun g => decide (g.tag.span.start < limit) := by
  induction gs generalizing least p with
  | nil => exact hgs
  | cons g gs ih =>
    rw [List.dropWhile_cons, Draw.flushFrom]
    by_cases hlimit : g.tag.span.start ≥ limit
    · rw [if_pos hlimit, if_neg (by simpa using hlimit)]
      exact hgs
    · rw [if_neg hlimit, if_pos (by simpa using hlimit)]
      have hgroup : Draws base false True (Draw.commentGroup g least) [g.piece] :=
        .commentGroup g least
      obtain ⟨hs, hhs, hnone, hlead⟩ := hgroup.leads { p with comments := gs } hp
      cases hnone rfl
      exact ih 1 _ hlead.offset hhs.symm

/-- Drawing that leaves no comment waiting. -/
def Clears {α : Type} (base : Nat) (m : Draw α) : Prop :=
  ∀ p : Pen, p.offset = base + byteSize p.text → Known p.comments → (m p).2.comments = []

namespace Clears

variable {α β : Type} {base : Nat} {m : Draw α} {f : α → Draw β} {ps qs : List Piece}

theorem flush (least : Nat) : Clears base (Draw.flush Span.unknown least) := by
  intro p hp hknown
  refine (flushFrom_comments Span.unknown least p.comments p hp rfl).trans ?_
  exact List.dropWhile_eq_nil_iff.2 fun g hg => by simpa using hknown g hg

theorem after (h : Draws base true True m ps) (k : ∀ a, Clears base (f a)) :
    Clears base (m >>= f) := by
  intro p hp hknown
  obtain ⟨gs, hgs, _, hlead⟩ := h.leads p hp
  refine k _ _ hlead.offset fun g hg => hknown g ?_
  rw [hgs]
  exact List.mem_append_right _ hg

theorem fileBody (f : SourceFile) : Clears base (Draw.fileBody f) := by
  have hrest : Clears base (do
      Draw.setLastEnd (known? f.tag.span.stop)
      Draw.topDecls none f.decls
      Draw.flush Span.unknown 1) :=
    after (.setLastEnd _) fun _ => after (.topDecls none f.decls) fun _ => flush 1
  intro p hp hknown
  obtain ⟨gs, hgs, hhead⟩ := (Draw.heads_fileHead f hp).leads True
  refine hrest _ hhead.offset fun g hg => hknown g ?_
  rw [hgs]
  exact List.mem_append_right _ hg

end Clears

namespace SourceFile

/-- What drawing a file always marks. -/
def fixedEntries (f : SourceFile) : List Entry :=
  f.tag.entry :: f.name.entry :: f.decls.flatMap TopDecl.entries

theorem entries_eq_fixed (f : SourceFile) :
    f.entries = f.fixedEntries ++ groupEntries f.comments := f.entries_eq

end SourceFile

namespace Change

variable {c : Change}

theorem entries_topDecls (hc : c.Retags) (ds : List TopDecl) :
    (ds.map c.topDecl).flatMap TopDecl.entries =
      (ds.flatMap TopDecl.entries).map (Entry.retag c.onTag) := by
  obtain ⟨hc, hid⟩ := hc
  rw [← ownEntries_topDecls, ← ownEntries_topDecls, hc]
  exact ((congruent_tags hid).ofList ((congruent_tags hid).ofTopDecl none) ds).2

theorem entries_commentGroups (gs : List CommentGroup) :
    groupEntries (gs.map c.commentGroup) = (groupEntries gs).map (Entry.retag c.onTag) := by
  induction gs with
  | nil => rfl
  | cons g gs ih =>
    obtain ⟨t, cs⟩ := g
    rw [List.map_cons, groupEntries_cons, groupEntries_cons, List.map_append, ih, commentGroup,
      CommentGroup.entries_mk, CommentGroup.entries_mk, List.map_cons, List.map_map, List.map_map]
    rfl

theorem fixedEntries_retag (hc : c.Retags) (f : SourceFile) :
    (c.sourceFile f).fixedEntries = f.fixedEntries.map (Entry.retag c.onTag) := by
  rw [SourceFile.fixedEntries, SourceFile.fixedEntries, List.map_cons, List.map_cons,
    ← entries_topDecls hc]
  rfl

end Change

/-- An entry that lies inside of a text before its end, with its word under it. -/
structure Entry.Sits (text : String) (e : Entry) : Prop where
  ordered : e.span.start ≤ e.span.stop
  inside : e.span.stop < text.utf8ByteSize
  under : ∀ s, e.text = some s → Under 0 text.toList e.span s.toList

namespace Document

theorem drawing_pen (u : Document) (base : Nat) :
    (u.drawing base).text.toList =
      (Draw.fileBody u.file (.fresh u.lines u.file.comments base)).2.text ++ ['\n'] ∧
    (u.drawing base).marks.reverse =
      (Draw.fileBody u.file (.fresh u.lines u.file.comments base)).2.marks ∧
    (u.drawing base).unplaced =
      (Draw.fileBody u.file (.fresh u.lines u.file.comments base)).2.comments := by
  refine ⟨?_, Drawing.reverse_marks_run, rfl⟩
  have hrun : (u.drawing base).text.toList =
      (Draw.sourceFile u.file (.fresh u.lines u.file.comments base)).2.text :=
    Drawing.toList_text_run
  rw [hrun, Draw.sourceFile_eq]
  change (List.reverse ("\n" :: _)).flatMap String.toList = _
  rw [List.reverse_cons, List.flatMap_append]
  rfl

/-- What is known of the drawing of a file: up to the last newline it marks the clause, the
declarations and the comments in front, and if all comments have a place, it marks all of them. -/
theorem drawing_leads (u : Document) (base : Nat) : ∃ (q : Pen) (gs : List CommentGroup),
    (u.drawing base).text.toList = q.text ++ ['\n'] ∧ (u.drawing base).marks.reverse = q.marks ∧
    u.file.comments = gs ++ q.comments ∧ (Known u.file.comments → q.comments = []) ∧
    Leads base True (u.file.fixedEntries ++ groupEntries gs)
      (u.file.name.piece :: u.file.decls.map TopDecl.piece)
      (.fresh u.lines u.file.comments base) q := by
  have hfresh : (Pen.fresh u.lines u.file.comments base).offset =
      base + byteSize (Pen.fresh u.lines u.file.comments base).text := rfl
  obtain ⟨gs, hgs, hlead⟩ := Draw.leads_fileBody True u.file _ hfresh
  obtain ⟨htext, hmarks, _⟩ := u.drawing_pen base
  exact ⟨_, gs, htext, hmarks, hgs, Clears.fileBody u.file _ hfresh, hlead⟩

theorem size_settle (u : Document) :
    u.settle.lines = .ofText u.print ∧ u.settle.size = u.print.utf8ByteSize := by
  obtain ⟨q, _, htext, _⟩ := drawing_leads u 0
  have hlines : u.settle.lines = .ofText u.print := rfl
  refine ⟨hlines, ?_⟩
  rw [size, hlines]
  refine LineTable.size_ofText ?_
  rw [print, htext, List.getLast?_concat]

variable {u : Document}

theorem sits_of_drawn (hw : u.Whole) (honce : ∀ i, idCount i u.file.entries ≤ 1)
    {q : Pen} {gs : List CommentGroup} {ps : List Piece}
    (htext : u.print.toList = q.text ++ ['\n'])
    (hmarks : (u.drawing 0).marks.reverse = q.marks) (hgs : u.file.comments = gs ++ q.comments)
    (hlead : Leads 0 True (u.file.fixedEntries ++ groupEntries gs) ps
      (.fresh u.lines u.file.comments 0) q) {e : Entry}
    (he : e ∈ u.file.fixedEntries ++ groupEntries gs) :
    (e.retag (Change.ofMarks (u.drawing 0).marks.reverse).onTag).Sits u.print := by
  have hmem : ∀ x ∈ u.file.fixedEntries ++ groupEntries gs, x ∈ u.file.entries := by
    intro x hx
    rw [SourceFile.entries_eq_fixed, hgs, groupEntries_append, ← List.append_assoc]
    exact List.mem_append_left _ hx
  have hapart : Apart (u.file.fixedEntries ++ groupEntries gs) := fun x hx y hy =>
    apart_of_idCount honce x (hmem x hx) y (hmem y hy)
  obtain ⟨m, hmark, hspan⟩ :=
    Change.ofMarks_of_leads hlead (AllWhole.mono hw hmem) rfl hapart he
  have hsize : u.print.utf8ByteSize = byteSize q.text + 1 := by
    rw [← byteSize_toList, htext, byteSize_append]
    rfl
  have hmoved : (e.retag (Change.ofMarks (u.drawing 0).marks.reverse).onTag).span = m.span := by
    rw [hmarks]
    exact hspan
  refine ⟨?_, ?_, fun s hs => ?_⟩
  · rw [hmoved]
    exact hmark.ordered
  · have := hmark.inside
    rw [hmoved, hsize]
    omega
  · obtain ⟨a, b, hab, hm⟩ := hmark.under s hs
    rw [hmoved]
    exact ⟨a, b ++ ['\n'], by rw [htext, hab, List.append_assoc], hm⟩

theorem settle_sits (hw : u.Whole) (honce : ∀ i, idCount i u.file.entries ≤ 1) :
    (∀ e ∈ u.settle.file.fixedEntries, e.Sits u.print) ∧
      (Known u.file.comments → ∀ e ∈ u.settle.file.entries, e.Sits u.print) := by
  obtain ⟨q, gs, htext, hmarks, hgs, hknown, hlead⟩ := drawing_leads u 0
  have hsits {e : Entry} := sits_of_drawn (e := e) hw honce htext hmarks hgs hlead
  have hfixed : ∀ e ∈ u.settle.file.fixedEntries, e.Sits u.print := by
    intro e he
    have hfile : u.settle.file =
        (Change.ofMarks (u.drawing 0).marks.reverse).sourceFile u.file := rfl
    rw [hfile, Change.fixedEntries_retag (Change.retags_ofMarks _)] at he
    obtain ⟨x, hx, rfl⟩ := List.mem_map.1 he
    exact hsits (List.mem_append_left _ hx)
  refine ⟨hfixed, fun hall e he => ?_⟩
  rw [SourceFile.entries_eq_fixed] at he
  rcases List.mem_append.1 he with he | he
  · exact hfixed e he
  · have hcomments : u.settle.file.comments = u.file.comments.map
        (Change.ofMarks (u.drawing 0).marks.reverse).commentGroup := rfl
    rw [hcomments, Change.entries_commentGroups] at he
    obtain ⟨x, hx, rfl⟩ := List.mem_map.1 he
    rw [hgs, hknown hall, List.append_nil] at hx
    exact hsits (List.mem_append_right _ hx)

theorem entries_settle (u : Document) : u.settle.file.entries = u.file.entries.map
    (Entry.retag (Change.ofMarks (u.drawing 0).marks.reverse).onTag) := by
  have hfile : u.settle.file = (Change.ofMarks (u.drawing 0).marks.reverse).sourceFile u.file := rfl
  have hcomments : u.settle.file.comments = u.file.comments.map
      (Change.ofMarks (u.drawing 0).marks.reverse).commentGroup := rfl
  rw [SourceFile.entries_eq_fixed, SourceFile.entries_eq_fixed, List.map_append, hcomments,
    Change.entries_commentGroups, hfile, Change.fixedEntries_retag (Change.retags_ofMarks _)]

theorem sound_of_settle (honce : ∀ i, idCount i u.settle.file.entries ≤ 1)
    (hw : u.settle.Whole) : (∀ i, idCount i u.file.entries ≤ 1) ∧ u.Whole := by
  rw [Whole, entries_settle] at hw
  refine ⟨fun i => ?_, fun e he => ?_⟩
  · have hi := honce i
    rwa [entries_settle, idCount_retag fun t => (Change.retags_ofMarks _).2 t] at hi
  · have hmem := List.mem_map_of_mem
      (f := Entry.retag (Change.ofMarks (u.drawing 0).marks.reverse).onTag) he
    have hwhole := hw _ hmem
    exact hwhole

/-- Declarations that start inside of the text end inside of it. -/
def Seated (d : Document) : Prop :=
  ∀ e ∈ d.file.fixedEntries, e.span.start < d.size → e.span.stop < d.size

theorem Reached.seated {d : Document} (h : d.Reached) : d.Seated := by
  intro e he
  cases h with
  | read h =>
    have hmem : e ∈ d.file.entries := by
      rw [SourceFile.entries_eq_fixed]
      exact List.mem_append_left _ he
    exact ((ofSource_sound h).2.1 e hmem).1
  | @lift d₀ _ _ _ done hd h =>
    have hreached : d.Reached := .lift hd h
    obtain ⟨rfl, _⟩ := (lifts hd.owned h).layout
    obtain ⟨honce, hw⟩ := sound_of_settle hreached.owned.once hreached.whole
    intro _
    rw [(size_settle _).2]
    exact ((settle_sits hw honce).1 e he).inside

end Document

end FuncLift
