import FuncLift.Proofs.Beside
import FuncLift.Proofs.Conserved
import Mathlib.Data.List.Flatten

/-!
# Where the new function lands

The new function is drawn behind the last line that is not empty, with its brace on a line of its
own and the comments of the region above that line. So when the whole file is drawn once more, it
ends with the function: the comments of the region are drawn with its body, and all others before it.
-/
namespace FuncLift

theorem Draw.topDecls_append (last : Option (Option DeclKind)) (xs ys : List TopDecl) :
    ∃ last', topDecls last (xs ++ ys) = (do topDecls last xs; topDecls last' ys) := by
  induction xs generalizing last with
  | nil => exact ⟨last, rfl⟩
  | cons x xs ih =>
    obtain ⟨last', hrest⟩ := ih (some (declKind? x))
    refine ⟨last', ?_⟩
    rw [List.cons_append, topDecls, topDecls, hrest]
    rfl

def Draw.fileAbove (f : SourceFile) (decls : List TopDecl) (span : Span) (least : Nat) : Draw Unit := do
  fileHead f
  setLastEnd (known? f.tag.span.stop)
  topDecls none decls
  itemBreak span least

theorem Draw.fileBody_last {f : SourceFile} {decls : List TopDecl} {g : FuncDecl}
    (h : f.decls = decls ++ [TopDecl.func g]) (p : Pen) : ∃ least, (fileBody f p).2 =
      ((do setLastEnd (known? g.tag.span.stop); flush Span.unknown 1 : Draw Bool)
        (func g (fileAbove f decls g.tag.span least p).2).2).2 := by
  obtain ⟨last, hlast⟩ := topDecls_append none decls [.func g]
  rw [← h] at hlast
  unfold fileBody
  rw [hlast]
  exact ⟨_, rfl⟩

theorem le_of_mem_dropWhile {limit : Nat} {gs : List CommentGroup}
    (hsorted : gs.Pairwise fun a b => a.tag.span.start ≤ b.tag.span.start) :
    ∀ g ∈ gs.dropWhile fun g => decide (g.tag.span.start < limit), limit ≤ g.tag.span.start := by
  induction hsorted with
  | nil => simp
  | @cons g gs hg _ ih =>
    rw [List.dropWhile_cons]
    split
    · exact ih
    · rename_i hlimit
      have hlimit : limit ≤ g.tag.span.start := by simpa using hlimit
      intro x hx
      rcases List.mem_cons.1 hx with rfl | hx
      · exact hlimit
      · exact Nat.le_trans hlimit (hg x hx)

theorem Draw.comments_fileAbove {base limit : Nat} (least : Nat) {f : SourceFile} {decls : List TopDecl}
    {span : Span} (hclause : f.tag.span.start ≤ limit)
    (hdecls : AllLow limit (decls.flatMap TopDecl.entries)) (hspan : span.start = limit)
    (hset : span.isUnset = false) {p : Pen} (hp : p.offset = base + byteSize p.text)
    (hsorted : p.comments.Pairwise fun a b => a.tag.span.start ≤ b.tag.span.start) :
    ∃ gs, p.comments = gs ++ (fileAbove f decls span least p).2.comments ∧
      (∀ g ∈ gs, g.tag.span.start < limit) ∧
      ∀ g ∈ (fileAbove f decls span least p).2.comments, limit ≤ g.tag.span.start := by
  let above : Draw Unit := do
    fileHead f
    setLastEnd (known? f.tag.span.stop)
    topDecls none decls
  have hstart : Spares limit (modify fun p : Pen => { p with atStart := true }) :=
    fun p => ⟨[], rfl, by simp⟩
  have hspares : Spares limit above :=
    (hstart.bind fun _ => ((Spares.flush hclause 1).bind fun _ => .calm).bind fun _ => .skip fun _ =>
      (Spares.skip fun _ => .calm).bind fun _ => .calm).bind fun _ => .skip fun _ =>
        .topDecls none hdecls
  obtain ⟨_, _, hhead⟩ := (heads_fileHead f hp).leads True
  have hrest : Draws base true True (do
      setLastEnd (known? f.tag.span.stop)
      topDecls none decls) (decls.map TopDecl.piece) :=
    (Draws.setLastEnd _).pass fun _ => .topDecls none decls
  obtain ⟨_, _, _, hlead⟩ := hrest.leads _ hhead.offset
  obtain ⟨gs, hgs, hlow⟩ := hspares p
  have hflush : (fileAbove f decls span least p).2.comments =
      (above p).2.comments.dropWhile fun g => decide (g.tag.span.start < limit) := by
    have hbreak : (itemBreak span least (above p).2).2.comments =
        (flush span.start least (above p).2).2.comments := by
      change (separate span _ (beforeItem span least (above p).2).2).2.comments = _
      rw [Calm.comments_eq, beforeItem, hset]
      rfl
    rw [← hspan]
    exact hbreak.trans (flushFrom_comments span.start least _ _ hlead.offset rfl)
  have hsplit : (above p).2.comments = ((above p).2.comments.takeWhile fun g =>
      decide (g.tag.span.start < limit)) ++ (fileAbove f decls span least p).2.comments := by
    rw [hflush, List.takeWhile_append_dropWhile]
  refine ⟨gs ++ (above p).2.comments.takeWhile fun g => decide (g.tag.span.start < limit), ?_,
    List.forall_mem_append.2 ⟨hlow, fun g hg => ?_⟩, ?_⟩
  · rw [List.append_assoc, ← hsplit]
    exact hgs
  · simpa using List.mem_takeWhile_imp hg
  · rw [hflush]
    refine le_of_mem_dropWhile ?_
    rw [hgs] at hsorted
    exact (List.pairwise_append.1 hsorted).2.1

theorem Draw.leads_fileAbove {base : Nat} (f : SourceFile) (decls : List TopDecl) (span : Span)
    (least : Nat) {p : Pen} (hp : p.offset = base + byteSize p.text) :
    (fileAbove f decls span least p).2.lines = p.lines ∧
    (fileAbove f decls span least p).2.atStart = false ∧
    ∃ gs, p.comments = gs ++ (fileAbove f decls span least p).2.comments ∧
      Leads base True (f.tag.entry :: f.name.entry :: decls.flatMap TopDecl.entries ++ groupEntries gs)
        (f.name.piece :: decls.map TopDecl.piece) p (fileAbove f decls span least p).2 := by
  have hhead := heads_fileHead f hp
  obtain ⟨gs, hgs, hlead⟩ := hhead.leads True
  have hrest : Draws base true True (do
      setLastEnd (known? f.tag.span.stop)
      topDecls none decls
      itemBreak span least) (decls.map TopDecl.piece) :=
    (Draws.setLastEnd _).pass fun _ => (Draws.topDecls none decls).followed fun _ => .itemBreak _ _
  obtain ⟨hs, hhs, _, klead⟩ := hrest.leads _ hlead.offset
  have hkeeps := hrest.keeps (fileHead f p).2
  refine ⟨hkeeps.lines.trans hhead.lines, hkeeps.started hhead.started, gs ++ hs, ?_,
    (hlead.trans klead).of_perm (List.perm_iff_count.2 fun e => ?_)⟩
  · rw [hgs, hhs, List.append_assoc]
    rfl
  · simp only [Piece.entriesAll_topDecls, groupEntries_append, List.cons_append, List.count_append,
      List.count_cons]
    omega

theorem AllLow.mono {limit limit' : Nat} {es : List Entry} (h : AllLow limit es)
    (hle : limit ≤ limit') (hlimit : limit' < Span.unknown) : AllLow limit' es := fun e he =>
  ⟨Nat.le_trans (h e he).start hle, Nat.le_trans (h e he).stop hle, hlimit, (h e he).ends⟩

theorem Draw.flush_nil {p : Pen} (h : p.comments = []) (limit least : Nat) :
    (flush limit least p).2 = p := by
  change (flushFrom limit least p.comments p).2 = p
  rw [h]
  rfl

/-- How a file is drawn whose last declaration is a function over several lines. One pen stands before
the function, the other behind its brace. The comments that start before the function are drawn
before it, all others with its body. -/
structure EndsWith (base limit : Nat) (f : SourceFile) (g : FuncDecl) (t : Tag) (p q r : Pen) :
    Prop where
  text : (Draw.fileBody f p).2.text = r.text
  marks : (Draw.fileBody f p).2.marks = r.marks
  writes : q.offset = base + byteSize q.text ∧
    ∃ w, r.text = q.text ++ w ∧ r.offset = base + byteSize r.text
  split : ∃ gs, p.comments = gs ++ q.comments ∧ (∀ g ∈ gs, g.tag.span.start < limit) ∧
    ∀ g ∈ gs, ∃ m ∈ r.marks, m.id = g.tag.id ∧ m.span.stop ≤ q.offset
  waiting : ∀ g ∈ q.comments, limit ≤ g.tag.span.start
  closes : ∃ opened broken, Closes base g t q r opened broken

theorem EndsWith.of_lines {base limit : Nat} {f : SourceFile} {decls : List TopDecl} {g : FuncDecl} {t : Tag}
    {stmts : List Stmt} {p : Pen} (hdecls : f.decls = decls ++ [TopDecl.func g])
    (hlimit : g.tag.span.start = limit) (hclause : f.tag.span.start ≤ limit)
    (hlow : AllLow limit (decls.flatMap TopDecl.entries))
    (hset : g.tag.span.isUnset = false) (hrecv : g.recv = none) (hbody : g.body = some ⟨t, stmts⟩)
    (hw : AllWhole (f.fixedEntries ++ groupEntries p.comments))
    (hp : p.offset = base + byteSize p.text)
    (hsorted : p.comments.Pairwise fun a b => a.tag.span.start ≤ b.tag.span.start)
    (hfits : ∀ q : Pen, q.lines = p.lines → Draw.fitsOneLine q g.tag.span t.span stmts = false)
    (hcomments : ∀ x ∈ p.comments, limit ≤ x.tag.span.start →
      x.tag.span.start < (Draw.lastByte t.span).start) :
    ∃ q r, EndsWith base limit f g t p q r := by
  obtain ⟨least, hlast⟩ := Draw.fileBody_last hdecls p
  obtain ⟨gs, hgs, hbefore, hbehind⟩ :=
    Draw.comments_fileAbove least hclause hlow hlimit hset hp hsorted
  obtain ⟨hlines, hstarted, hs, hhs, hlead⟩ := Draw.leads_fileAbove f decls g.tag.span least hp
  generalize (Draw.fileAbove f decls g.tag.span least p).2 = q at *
  cases List.append_cancel_right (hhs.symm.trans hgs)
  have hwhole : AllWhole (f.tag.entry :: f.name.entry :: decls.flatMap TopDecl.entries ++
      groupEntries gs) ∧ AllWhole g.entries := by
    have hfunc : TopDecl.entries (.func g) = g.entries := rfl
    rw [SourceFile.fixedEntries, hdecls, hgs, groupEntries_append] at hw
    simp only [List.flatMap_append, List.flatMap_singleton, hfunc, allWhole_append, allWhole_cons,
      List.cons_append] at hw ⊢
    obtain ⟨htag, hname, ⟨habove, hfunc⟩, hdrawn, _⟩ := hw
    exact ⟨⟨htag, hname, habove, hdrawn⟩, hfunc⟩
  obtain ⟨opened, broken, hcloses⟩ := Closes.of_lines hrecv hbody hwhole.2 hlead.offset hstarted
    (fun r hr => hfits r (hr.trans hlines)) fun x hx => hcomments x (by
      rw [hgs]
      exact List.mem_append_right _ hx) (hbehind x hx)
  obtain ⟨_, _, _, klead⟩ := (@Draws.func _ True g).leads q hlead.offset
  obtain ⟨w, hw'⟩ := klead.text
  obtain ⟨ms, hms, _⟩ := klead.marks
  obtain ⟨ns, hns, hsound, hcomplete⟩ := hlead.marks
  have hend : (Draw.fileBody f p).2 = (Draw.setLastEnd (known? g.tag.span.stop) (Draw.func g q).2).2 := by
    rw [hlast]
    have hnone : (Draw.setLastEnd (known? g.tag.span.stop) (Draw.func g q).2).2.comments = [] :=
      hcloses.comments
    exact Draw.flush_nil hnone _ _
  refine ⟨q, (Draw.func g q).2, by rw [hend]; rfl, by rw [hend]; rfl,
    ⟨hlead.offset, w, hw', klead.offset⟩, ⟨gs, hgs, hbefore, fun x hx => ?_⟩, hbehind, opened, broken, hcloses⟩
  obtain ⟨m, hm, hid⟩ := (hcomplete trivial hwhole.1).1 x.tag.entry
    (List.mem_append_right _ (tag_mem_groupEntries hx))
  obtain ⟨_, _, _, hmark⟩ := hsound m hm
  refine ⟨m, ?_, hid, hlead.offset ▸ hmark.inside⟩
  rw [hms, hns]
  exact List.mem_append_right _ (List.mem_append_left _ hm)

theorem Pen.sameLine_eq_false {p : Pen} {a b : Nat} (h : p.lines.lineOf a ≠ p.lines.lineOf b) :
    p.sameLine a b = false := by
  have hknown {x y : Nat} (hx : known? x = some y) : y = x := by
    unfold known? at hx
    split at hx <;> cases hx
    rfl
  unfold sameLine lineAt?
  cases ha : known? a <;> cases hb : known? b <;> try rfl
  rw [hknown ha, hknown hb]
  simpa using h

theorem Document.Owned.function_once {d : Document} (hd : d.Owned) {p : Plan} {target : Span}
    (hlocated : p.region.Located d.file target) (hfits : p.region.badContext? = none) (i : Nat) :
    idCount i ((p.edit d).function.entries ++ groupEntries (p.edit d).detached) ≤ 1 := by
  obtain ⟨pre, post, hcuts⟩ := Plan.Cuts.of_located hd hlocated hfits
  have hone := hcuts.idCount_le_one i
  rw [idCount_append]
  omega

namespace Edit

variable {e : Edit} {d : Document}

def placedFunction (e : Edit) (d : Document) : FuncDecl :=
  (Change.ofMarks (e.functionDrawing d).marks.reverse).func e.function

/-- Where the new function stands before the whole file is laid out once more. Its brace stands on a
line of its own, and the comments of the region stand above that line. -/
structure Lands (e : Edit) (d : Document) (base opened broken stop : Nat) : Prop where
  span : (e.placedFunction d).tag.span = ⟨base, stop⟩
  recv : (e.placedFunction d).recv = none
  body : ∃ t stmts, (e.placedFunction d).body = some ⟨t, stmts⟩ ∧ t.span = ⟨opened, stop⟩
  starts : base ≤ opened
  opens : opened < broken
  breaks : broken + 2 ≤ stop
  inside : stop + 1 = (e.functionDrawing d).stop
  lines : ∃ xs ys, (d.unsettled e).lines = ⟨xs ++ ys⟩ ∧ LineTable.bytes xs = broken + 1
  comments : ∀ g ∈ e.detached, base ≤ (e.placeComment (e.functionDrawing d) g).tag.span.start ∧
    (e.placeComment (e.functionDrawing d) g).tag.span.start ≤ broken

theorem lands {t : Tag} {stmts : List Stmt} (h : e.function.Unplaced t stmts)
    (hknown : Known e.detached)
    (honce : ∀ i, idCount i (e.function.entries ++ groupEntries e.detached) ≤ 1) :
    ∃ opened broken stop,
      e.Lands d ((e.linesAround d).dropBlankEnd.size + 1) opened broken stop := by
  obtain ⟨htext, hmarks, hunplaced⟩ := e.functionDrawing_pen (d := d)
  have hpen := e.offset_functionPen (d := d)
  obtain ⟨opened, broken, hcloses⟩ := h.closes hpen rfl hknown
  obtain ⟨gs, hgs, _, hlead⟩ := (@Draws.func _ True e.function).leads _ hpen
  rw [hcloses.comments, List.append_nil] at hgs
  have hgs : gs = e.detached := hgs.symm
  have hoffset := hlead.offset
  obtain ⟨ms, hms, _, hcomplete⟩ := hlead.marks
  rw [Piece.entriesAll_cons, Piece.entriesAll_nil, List.append_nil, hgs] at hcomplete
  obtain ⟨_, hcount, _⟩ := hcomplete trivial
    ((allWhole_append _ _).2 ⟨h.whole, allWhole_groupEntries _⟩)
  have hplaces : Places (fun t => ((Change.ofMarks (e.functionDrawing d).marks.reverse).onTag t).span)
      (e.functionDrawing d).marks.reverse := by
    refine Change.places_ofMarks fun i => ?_
    rw [hmarks, hms.trans (List.append_nil ms)]
    exact Nat.le_trans (hcount i) (honce i)
  obtain ⟨front, w, hfront, hbroken⟩ := hcloses.breaks
  have hsize : byteSize (Draw.func e.function (e.functionPen d)).2.text =
      byteSize front + 1 + byteSize w + 1 := by
    have hnewline : '\n'.utf8Size = 1 := rfl
    have hbrace : byteSize ['\x7d'] = 1 := rfl
    rw [hfront, byteSize_append, byteSize, byteSize_append, hnewline, hbrace]
    omega
  have hstop : (e.functionDrawing d).stop = (e.linesAround d).dropBlankEnd.size +
      byteSize (Draw.func e.function (e.functionPen d)).2.text + 1 := by
    rw [Drawing.stop, ← byteSize_toList, htext, byteSize_append]
    rfl
  have hplace {m : Mark} (hm : m ∈ (Draw.func e.function (e.functionPen d)).2.marks) (t : Tag)
      (ht : t.id = m.id) :
      ((Change.ofMarks (e.functionDrawing d).marks.reverse).onTag t).span = m.span :=
    hplaces m (hmarks ▸ hm) t ht
  refine ⟨opened, broken, (Draw.func e.function (e.functionPen d)).2.offset,
    hplace hcloses.func e.function.tag rfl, ?_,
    ⟨_, _, Change.body_func (Change.retags_ofMarks _) h.body, hplace hcloses.block t rfl⟩,
    hcloses.starts, hcloses.opens, by omega, by omega,
    ⟨(e.linesAround d).dropBlankEnd.lengths ++ (splitLengths (front ++ ['\n'])).1,
      (splitLengths (w ++ ['\x7d'] ++ ['\n'])).1, ?_, ?_⟩,
    fun g hg => ?_⟩
  · simp [placedFunction, Change.func, h.recv]
  · change LineTable.append _ (splitLengths _).1 = _
    rw [htext, hfront, List.append_assoc, List.cons_append, LineTable.splitLengths_newline,
      LineTable.append]
    simp only [List.append_assoc]
  · have hterminated : (front ++ ['\n']).getLast? = some '\n' := by simp
    have hbytes := LineTable.bytes_splitLengths (front ++ ['\n'])
    have hone : byteSize ['\n'] = 1 := rfl
    rw [(LineTable.splitLengths_terminated hterminated).1, byteSize_append, hone] at hbytes
    rw [LineTable.bytes_append, hbroken]
    exact (congrArg (_ + ·) hbytes)
  · obtain ⟨m, hm, hid, hlow, hordered, hhigh⟩ := hcloses.above _ (tag_mem_groupEntries hg)
    have hspan : (e.placeComment (e.functionDrawing d) g).tag.span = m.span := by
      have hkept : e.placeComment (e.functionDrawing d) g =
          (Change.ofMarks (e.functionDrawing d).marks.reverse).commentGroup g := by
        rw [placeComment, hunplaced, hcloses.comments]
        rfl
      rw [hkept]
      exact hplace hm g.tag hid.symm
    rw [hspan]
    exact ⟨hlow, Nat.le_trans hordered hhigh⟩

/-- How the whole file is drawn once the new function has its place. One pen stands before the
function, the other behind its brace. The comments of the region are drawn from the one to the other,
all others before them. -/
structure Settles (e : Edit) (d : Document) (p q : Pen) : Prop where
  text : (d.unsettled e).print.toList = q.text ++ ['\n']
  marks : ((d.unsettled e).drawing 0).marks.reverse = q.marks
  writes : p.offset = byteSize p.text ∧ ∃ w, q.text = p.text ++ w ∧ q.offset = byteSize q.text
  brace : ∃ w, q.text = w ++ ['\x7d']
  function : ⟨.node .func, e.function.tag.id, ⟨p.offset, q.offset⟩⟩ ∈ q.marks
  kept : ∀ g ∈ e.kept, ∃ m ∈ q.marks, m.id = g.tag.id ∧ m.span.stop ≤ p.offset
  detached : ∀ g ∈ e.detached, ∃ m ∈ q.marks, m.id = g.tag.id ∧ p.offset ≤ m.span.start ∧
    m.span.stop ≤ q.offset

theorem id_placeComment (g : CommentGroup) :
    (e.placeComment (e.functionDrawing d) g).tag.id = g.tag.id := by
  unfold placeComment
  split <;> rfl

theorem pairwise_unsettled : (d.unsettled e).file.comments.Pairwise
    fun a b => a.tag.span.start ≤ b.tag.span.start := by
  refine List.Pairwise.imp (fun h => by simpa using h) (List.pairwise_mergeSort ?_ ?_ _)
  · intro a b c hab hbc
    simp only [decide_eq_true_eq] at hab hbc ⊢
    exact Nat.le_trans hab hbc
  · intro a b
    simp only [Bool.or_eq_true, decide_eq_true_eq]
    exact Nat.le_total _ _

theorem mem_unsettled {g : CommentGroup} : g ∈ (d.unsettled e).file.comments ↔
    g ∈ (e.hostAround d).comments ∨ ∃ k ∈ e.detached, e.placeComment (e.functionDrawing d) k = g := by
  have hperm : g ∈ (d.unsettled e).file.comments ↔ g ∈ (e.hostAround d).comments ++
      e.detached.map (e.placeComment (e.functionDrawing d)) := (List.mergeSort_perm _ _).mem_iff
  rw [hperm, List.mem_append, List.mem_map]

theorem settles {base opened broken stop : Nat} (hw : (d.unsettled e).Whole) (habove : e.Above d base)
    (hlands : e.Lands d (base + 1) opened broken stop) (hstop : stop < Span.unknown) :
    ∃ p q, e.Settles d p q := by
  have hspan := hlands.span
  have hstarts := hlands.starts
  have hbreaks := hlands.breaks
  have hopens := hlands.opens
  have hset {x y : Nat} (hx : x < Span.unknown) : Span.isUnset ⟨x, y⟩ = false := by
    rw [Span.isUnset, beq_eq_false_iff_ne]
    exact Nat.ne_of_lt hx
  obtain ⟨t, stmts, hbody, ht⟩ := hlands.body
  have hlast : (Draw.lastByte t.span).start = stop - 1 := by
    rw [ht, Draw.lastByte, hset (by omega)]
    rfl
  have hbase : base + 1 < Span.unknown := by omega
  have hstart : (e.placedFunction d).tag.span.start = base + 1 := by rw [hspan]
  have hunset : (e.placedFunction d).tag.span.isUnset = false := by
    rw [hspan]
    exact hset hbase
  have hdecls : (d.unsettled e).file.decls =
      (e.hostAround d).decls ++ [TopDecl.func (e.placedFunction d)] := rfl
  have hfresh : (Pen.fresh (d.unsettled e).lines (d.unsettled e).file.comments 0).offset =
      0 + byteSize (Pen.fresh (d.unsettled e).lines (d.unsettled e).file.comments 0).text := rfl
  have hfits (r : Pen) (hr : r.lines = (d.unsettled e).lines) :
      Draw.fitsOneLine r (e.placedFunction d).tag.span t.span stmts = false := by
    obtain ⟨xs, ys, htable, hbytes⟩ := hlands.lines
    have hline : r.sameLine t.span.start (t.span.stop - 1) = false := by
      have hlow : opened < LineTable.bytes xs := by omega
      have hhigh : LineTable.bytes xs ≤ stop - 1 := by omega
      refine Pen.sameLine_eq_false ?_
      rw [hr, htable, ht]
      exact Nat.ne_of_lt (LineTable.lineOf_lt hlow hhigh)
    simp [Draw.fitsOneLine, hline]
  have hcomments : ∀ g ∈ (d.unsettled e).file.comments, base + 1 ≤ g.tag.span.start →
      g.tag.span.start < (Draw.lastByte t.span).start := by
    intro g hg hge
    rw [hlast]
    rcases mem_unsettled.1 hg with hg | ⟨k, hk, rfl⟩
    · have := habove.comments g hg
      omega
    · have := (hlands.comments k hk).2
      omega
  obtain ⟨p, q, hends⟩ := EndsWith.of_lines hdecls hstart
    (Nat.le_trans habove.clause (Nat.le_succ base)) (habove.decls.mono (Nat.le_succ base) hbase)
    hunset hlands.recv hbody (fun x hx => hw x (by rwa [SourceFile.entries_eq_fixed])) hfresh
    pairwise_unsettled hfits hcomments
  obtain ⟨opened', broken', hcloses⟩ := hends.closes
  obtain ⟨front, w, hfront, hbroken⟩ := hcloses.breaks
  obtain ⟨gs, hgs, hlow, hmarked⟩ := hends.split
  have hgs : (d.unsettled e).file.comments = gs ++ p.comments := hgs
  obtain ⟨htext, hmarks, _⟩ := (d.unsettled e).drawing_pen 0
  have hwrites := hends.writes
  simp only [Nat.zero_add] at hwrites
  refine ⟨p, q, htext.trans (by rw [hends.text]), hmarks.trans hends.marks, hwrites,
    ⟨front ++ '\n' :: w, by simp [hfront]⟩, hcloses.func, fun g hg => ?_, fun g hg => ?_⟩
  · have hmem : (Change.ofMarks (e.callDrawing d).marks.reverse).commentGroup
        ((Change.shift e.old.stop (e.delta d)).commentGroup g) ∈ (e.hostAround d).comments :=
      List.mem_map_of_mem (List.mem_map_of_mem hg)
    have hsplit := mem_unsettled.2 (.inl hmem)
    rw [hgs] at hsplit
    rcases List.mem_append.1 hsplit with hx | hx
    · obtain ⟨m, hm, hid, hstop⟩ := hmarked _ hx
      exact ⟨m, hm, hid, hstop⟩
    · have hwait := hends.waiting _ hx
      have := habove.comments _ hmem
      omega
  · have hplaced : e.placeComment (e.functionDrawing d) g ∈ (d.unsettled e).file.comments :=
      mem_unsettled.2 (.inr ⟨g, hg, rfl⟩)
    rw [hgs] at hplaced
    have hwait : e.placeComment (e.functionDrawing d) g ∈ p.comments := by
      refine (List.mem_append.1 hplaced).resolve_left fun hx => ?_
      have hbefore := hlow _ hx
      have := (hlands.comments g hg).1
      omega
    obtain ⟨m, hm, hid, hlow, _, hhigh⟩ := hcloses.above _ (tag_mem_groupEntries hwait)
    exact ⟨m, hm, hid.trans (id_placeComment g), hlow, Nat.le_trans hhigh hcloses.ends⟩

end Edit

end FuncLift
