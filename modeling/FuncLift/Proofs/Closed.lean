import FuncLift.Proofs.Laid

/-!
# Where a function ends

A function that is drawn over several lines has its closing brace on a line of its own, and the
comments that are left are drawn above the brace.
-/
namespace FuncLift

namespace Draw

def funcHead (n : Name) (sig : Signature) : Draw Unit := do
  text "func "
  name .func n
  signature sig
  text " "

/-- A body over several lines between its braces. -/
def bodyLines (t : Tag) (stmts : List Stmt) : Draw Unit := do
  setLastEnd (known? t.span.start)
  indentMore
  stmtLines (stmtItems stmts)
  let _ ← flush (lastByte t.span).start 1
  indentLess

def brace (t : Tag) : Draw Unit := do
  separate (lastByte t.span) 1
  text "\x7d"

theorem func_run {u t : Tag} {n : Name} {sig : Signature} {stmts : List Stmt} {p : Pen}
    (hfits : fitsOneLine (funcHead n sig p).2 u.span t.span stmts = false) :
    (func ⟨u, none, n, sig, some ⟨t, stmts⟩⟩ p).2 =
      let opened := (funcHead n sig p).2
      let closed := (brace t (bodyLines t stmts (text "\x7b" opened).2).2).2
      { closed with marks := ⟨.node .func, u.id, ⟨p.offset, closed.offset⟩⟩ ::
        ⟨.node .block, t.id, ⟨opened.offset, closed.offset⟩⟩ :: closed.marks } := by
  have hbody : (if fitsOneLine (funcHead n sig p).2 u.span t.span stmts = true
      then blockOnOneLine t (stmtItems stmts) else blockLines t (stmtItems stmts)) =
      blockLines t (stmtItems stmts) := by
    rw [hfits]
    rfl
  have hrun : (func ⟨u, none, n, sig, some ⟨t, stmts⟩⟩ p).2 =
      (markNode .func u p.offset ((if fitsOneLine (funcHead n sig p).2 u.span t.span stmts = true
        then blockOnOneLine t (stmtItems stmts) else blockLines t (stmtItems stmts))
        (funcHead n sig p).2).2).2 := rfl
  rw [hrun, hbody]
  rfl

variable {base : Nat}

theorem draws_funcHead (n : Name) (sig : Signature) :
    Draws base true True (funcHead n sig) [n.piece, sig.piece] :=
  (Draws.text _).pass fun _ => (Draws.name .func n).bind fun _ =>
    (Draws.signature sig).followed fun _ => .text _

theorem draws_bodyLines (t : Tag) (stmts : List Stmt) :
    Draws base true True (bodyLines t stmts) (stmts.map Stmt.piece) :=
  (Draws.setLastEnd _).pass fun _ => Draws.indentMore.pass fun _ =>
    (Draws.stmtItems stmts).stmtLines.followed fun _ => (Draws.flush _ 1).pass fun _ =>
      .indentLess

theorem comments_bodyLines (t : Tag) (stmts : List Stmt) {p : Pen}
    (hp : p.offset = base + byteSize p.text)
    (hcomments : ∀ g ∈ p.comments, g.tag.span.start < (lastByte t.span).start) :
    (bodyLines t stmts p).2.comments = [] := by
  have hfront : Draws base true True (do
      setLastEnd (known? t.span.start)
      indentMore
      stmtLines (stmtItems stmts)) (stmts.map Stmt.piece) :=
    (Draws.setLastEnd _).pass fun _ => Draws.indentMore.pass fun _ =>
      (Draws.stmtItems stmts).stmtLines
  obtain ⟨gs, hgs, _, hlead⟩ := hfront.leads p hp
  refine (flushFrom_comments (lastByte t.span).start 1 _ _ hlead.offset rfl).trans ?_
  refine List.dropWhile_eq_nil_iff.2 fun g hg => ?_
  have hmem : g ∈ p.comments := by
    rw [hgs]
    exact List.mem_append_right _ hg
  simpa using hcomments g hmem

theorem one_le_gap (p : Pen) (next : Span) : 1 ≤ p.gap next 1 := by
  unfold Pen.gap
  split <;> omega

theorem text_brace (t : Tag) {p : Pen} (hp : p.offset = base + byteSize p.text)
    (hstart : p.atStart = false) : ∃ w, (brace t p).2.text = p.text ++ '\n' :: (w ++ ['\x7d']) := by
  have hseparate : (separate (lastByte t.span) 1 p).2 =
      (newlines (p.gap (lastByte t.span) 1) p).2 := by
    change ((if p.atStart = true then _ else _ : Draw Unit) p).2 = _
    rw [hstart]
    rfl
  obtain ⟨k, hk⟩ := Nat.exists_eq_add_of_le' (one_le_gap p (lastByte t.span))
  have hlines : (newlines (p.gap (lastByte t.span) 1) p).2.text =
      p.text ++ '\n' :: (List.replicate k '\n' ++ List.replicate p.indent '\t') := by
    rw [hk]
    exact (Draws.text_write _ p hp).1.trans (by simp [List.replicate_succ])
  have hnewlines : Draws base true True (newlines (p.gap (lastByte t.span) 1)) [] := .newlines _
  obtain ⟨_, _, _, hlead⟩ := hnewlines.leads p hp
  have hrun : (brace t p).2.text =
      (newlines (p.gap (lastByte t.span) 1) p).2.text ++ ['\x7d'] := by
    change (text "\x7d" (separate (lastByte t.span) 1 p).2).2.text = _
    rw [hseparate]
    exact (Draws.text_write "\x7d" _ hlead.offset).1
  refine ⟨List.replicate k '\n' ++ List.replicate p.indent '\t', ?_⟩
  rw [hrun, hlines, List.append_assoc]
  rfl

end Draw

/-- From one pen to another a function was drawn whose body opens at an offset. The line above its
brace is broken at an offset, and by then all comments are drawn. -/
structure Closes (base : Nat) (f : FuncDecl) (t : Tag) (p q : Pen) (opened broken : Nat) :
    Prop where
  func : ⟨.node .func, f.tag.id, ⟨p.offset, q.offset⟩⟩ ∈ q.marks
  block : ⟨.node .block, t.id, ⟨opened, q.offset⟩⟩ ∈ q.marks
  starts : p.offset ≤ opened
  opens : opened < broken
  ends : broken ≤ q.offset
  breaks : ∃ front w, q.text = front ++ '\n' :: (w ++ ['\x7d']) ∧ broken = base + byteSize front
  comments : q.comments = []
  above : ∀ e ∈ groupEntries p.comments, ∃ m ∈ q.marks, m.id = e.tag.id ∧
    p.offset ≤ m.span.start ∧ m.span.start ≤ m.span.stop ∧ m.span.stop ≤ broken

theorem Closes.of_lines {base : Nat} {f : FuncDecl} {t : Tag} {stmts : List Stmt}
    (hrecv : f.recv = none) (hbody : f.body = some ⟨t, stmts⟩) (hw : AllWhole f.entries) {p : Pen}
    (hp : p.offset = base + byteSize p.text) (hstart : p.atStart = false)
    (hfits : ∀ q : Pen, q.lines = p.lines → Draw.fitsOneLine q f.tag.span t.span stmts = false)
    (hcomments : ∀ g ∈ p.comments, g.tag.span.start < (Draw.lastByte t.span).start) :
    ∃ opened broken, Closes base f t p (Draw.func f p).2 opened broken := by
  obtain ⟨u, recv, n, sig, body⟩ := f
  cases hrecv
  cases hbody
  have hhead : Draws base true True (Draw.funcHead n sig) [n.piece, sig.piece] :=
    Draw.draws_funcHead n sig
  have hopen : Draws base false True (Draw.text "\x7b") [] := .text _
  have hlines : Draws base true True (Draw.bodyLines t stmts) (stmts.map Stmt.piece) :=
    Draw.draws_bodyLines t stmts
  obtain ⟨gs, hgs, _, hlead⟩ := hhead.leads p hp
  obtain ⟨_, hcalm, hnone, hopened⟩ := hopen.leads _ hlead.offset
  cases hnone rfl
  rw [hcalm, List.nil_append] at hgs
  obtain ⟨hs, hhs, _, klead⟩ := hlines.leads _ hopened.offset
  have hcleared := Draw.comments_bodyLines t stmts hopened.offset fun g hg => hcomments g (by
    rw [hgs]
    exact List.mem_append_right _ hg)
  have hstarted := (hlines.keeps _).started ((hopen.keeps _).started ((hhead.keeps p).started hstart))
  obtain ⟨w, htext⟩ := Draw.text_brace t klead.offset hstarted
  have hbrace : Draws base true True (Draw.brace t) [] := (Draws.separate _ 1).pass fun _ => .text _
  obtain ⟨is, his, _, hend⟩ := hbrace.leads _ klead.offset
  obtain ⟨ms, hms, _, _⟩ := hend.marks
  rw [Draw.func_run (hfits _ (hhead.keeps p).lines)]
  refine ⟨_, _, List.mem_cons_self, List.mem_cons_of_mem _ List.mem_cons_self,
    hlead.le, Nat.lt_of_lt_of_le (Nat.lt_succ_self _) klead.le, hend.le, ⟨_, w, htext, klead.offset⟩, ?_,
    fun e he => ?_⟩
  · rw [hcleared] at his
    exact (List.append_eq_nil_iff.1 his.symm).2
  · obtain ⟨ns, hns, hsound, hcomplete⟩ := ((hlead.trans hopened).trans klead).marks
    rw [hgs, hhs, hcleared, List.append_nil, groupEntries_append] at he
    simp only [FuncDecl.entries_mk, allWhole_cons, allWhole_append] at hw
    obtain ⟨m, hm, hid⟩ := (hcomplete trivial (by
      have hgs := allWhole_groupEntries gs
      have hhs := allWhole_groupEntries hs
      simp_all [Piece.entries, Node.entries])).1 e (by
      rcases List.mem_append.1 he with he | he <;> simp [he])
    obtain ⟨hle, x, _, hmark⟩ := hsound m hm
    refine ⟨m, ?_, hid, hle, hmark.ordered, klead.offset ▸ hmark.inside⟩
    refine List.mem_cons_of_mem _ (List.mem_cons_of_mem _ ?_)
    rw [hms, hns]
    exact List.mem_append_right _ (List.mem_append_left _ hm)

structure FuncDecl.Unplaced (f : FuncDecl) (t : Tag) (stmts : List Stmt) : Prop where
  recv : f.recv = none
  unset : f.tag.span = .unset
  body : f.body = some ⟨t, stmts⟩
  bodyUnset : t.span = .unset
  whole : AllWhole f.entries

theorem FuncDecl.Unplaced.closes {base : Nat} {f : FuncDecl} {t : Tag} {stmts : List Stmt}
    (h : f.Unplaced t stmts) {p : Pen} (hp : p.offset = base + byteSize p.text)
    (hstart : p.atStart = false) (hknown : Known p.comments) :
    ∃ opened broken, Closes base f t p (Draw.func f p).2 opened broken := by
  refine Closes.of_lines h.recv h.body h.whole hp hstart (fun q _ => ?_) fun g hg => ?_
  · rw [h.unset]
    rfl
  · rw [h.bodyUnset]
    exact hknown g hg

namespace Edit

variable {e : Edit} {d : Document}

/-- The pen behind the blank line before the new function. -/
def functionPen (e : Edit) (d : Document) : Pen :=
  (Draw.write "\n" (.fresh d.lines e.detached (e.linesAround d).dropBlankEnd.size)).2

theorem offset_functionPen : (e.functionPen d).offset =
    (e.linesAround d).dropBlankEnd.size + byteSize (e.functionPen d).text := rfl

theorem functionDrawing_pen :
    (e.functionDrawing d).text.toList =
      (Draw.func e.function (e.functionPen d)).2.text ++ ['\n'] ∧
    (e.functionDrawing d).marks.reverse = (Draw.func e.function (e.functionPen d)).2.marks ∧
    (e.functionDrawing d).unplaced = (Draw.func e.function (e.functionPen d)).2.comments := by
  refine ⟨?_, Drawing.reverse_marks_run, rfl⟩
  refine Drawing.toList_text_run.trans ?_
  change (List.reverse ("\n" :: _)).flatMap String.toList = _
  rw [List.reverse_cons, List.flatMap_append]
  rfl

end Edit

end FuncLift
