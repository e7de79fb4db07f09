import FuncLift.Proofs.Accurate
import FuncLift.Proofs.Enclosed
import FuncLift.Proofs.Spares

/-!
# What stands around a region

What is declared belongs to a region or stands beside it: before it, behind it or around it. So when
the call takes the place of the region, all that stands around the region moves as a whole, and ends
before the new function begins.
-/
namespace FuncLift

def Idle {α : Type} (m : Draw α) : Prop := ∀ p, (m p).2.text = p.text

namespace Idle

variable {α β : Type} {m : Draw α} {f : α → Draw β}

theorem bind (h : Idle m) (k : ∀ a, Idle (f a)) : Idle (m >>= f) :=
  fun p => (k (m p).1 (m p).2).trans (h p)

theorem get {f : Pen → Draw β} (k : ∀ p, Idle (f p)) : Idle (MonadState.get >>= f) := fun p => k p p

theorem perhaps {b : Prop} [Decidable b] {m : Draw Unit} {k : Unit → Draw β} (h : Idle m)
    (hk : Idle (k ())) : Idle (if b then m >>= k else k ()) := by
  split
  · exact h.bind fun _ => hk
  · exact hk

theorem pure (a : α) : Idle (Pure.pure a : Draw α) := fun _ => rfl

end Idle

theorem Draw.text_write (s : String) (p : Pen) : (Draw.text s p).2.text = p.text ++ s.toList := by
  change (s :: p.pieces).reverse.flatMap String.toList = _
  simp [Pen.text]

/-- Whatever was written before, the text ends with a character. -/
def Ends {α : Type} (c : Char) (m : Draw α) : Prop := ∀ p, (m p).2.text.getLast? = some c

namespace Ends

variable {α β : Type} {c : Char} {m : Draw α} {f : α → Draw β}

theorem after (k : ∀ a, Ends c (f a)) : Ends c (m >>= f) := fun p => k (m p).1 (m p).2

theorem before (h : Ends c m) (k : ∀ a, Idle (f a)) : Ends c (m >>= f) :=
  fun p => (congrArg List.getLast? (k (m p).1 (m p).2)).trans (h p)

theorem get {f : Pen → Draw β} (k : ∀ p, Ends c (f p)) : Ends c (MonadState.get >>= f) :=
  fun p => k p p

theorem ite {b : Prop} [Decidable b] {m' : Draw α} (h : Ends c m) (h' : Ends c m') :
    Ends c (if b then m else m') := by
  split
  · exact h
  · exact h'

theorem text {s : String} (hs : s.toList.getLast? = some c) : Ends c (Draw.text s) := by
  intro p
  rw [Draw.text_write, List.getLast?_append, hs]
  rfl

theorem call (depth : Nat) (t : Tag) (callee : Expr) (args : List Expr) (spread : Bool) :
    Ends ')' (Draw.expr none depth (.call t callee args spread)) := by
  refine .after fun _ => .after fun _ => .after fun _ => .before ?_ fun _ _ => rfl
  exact .after fun _ => .after fun _ => .after fun _ => .text rfl

theorem list {x : Draw.Item} (h : Ends c x.draw) (opening : Nat) :
    Ends c (Draw.list opening [x] .unset "") := by
  have hitems (s : Draw.ListState) : Ends c (Draw.listItems "" true s [x]) := by
    rw [Draw.listItems]
    extract_lets item plain
    have hitem (s : Draw.ListState) : Ends c (item s) := by
      have hempty : Idle (Draw.text "") := fun p =>
        (Draw.text_write "" p).trans (List.append_nil _)
      exact h.before fun _ => .perhaps hempty (.get fun p => .perhaps (fun _ => rfl) (.pure _))
    have hbreak : Ends c (do
        let p ← MonadState.get
        if Draw.laterLine s.line (p.lineAt? x.span.start) = true then do
          let s ← Draw.breakOnce s
          Draw.itemBreak x.span 1
          let s ← pure s
          item s
        else plain ()) := by
      refine .get fun p => .ite (.after fun _ => .after fun _ => .after fun _ => hitem _) ?_
      exact .after fun _ => hitem _
    exact hbreak
  refine .get fun p => ?_
  extract_lets line rest
  have hrest : Ends c (rest ()) := by
    refine (hitems _).before fun s => .get fun p => ?_
    have hcloses : Draw.laterLine s.line (p.lineAt? Span.unset.start) = false := by
      cases s.line <;> rfl
    simp only [hcloses, Bool.and_false]
    exact .perhaps (fun _ => rfl) (.pure _)
  exact .ite (.after fun _ => hrest) hrest

theorem callStmt {p : Plan} {call : Expr} {s : Stmt} (hcall : p.IsCall call)
    (hs : p.IsCallStmt call s) : Ends ')' (Draw.stmt s) := by
  obtain ⟨t, u, args, rfl, _⟩ := hcall
  rcases hs with ⟨_, t, u, rfl⟩ | ⟨_, t, u, ns, rfl, _⟩
  · exact .after fun _ => .before (.after fun _ => .before (call 1 _ _ _ _) fun _ _ => rfl) fun _ _ => rfl
  · refine .after fun _ => .before (.after fun _ => ?_) fun _ _ => rfl
    refine .after fun _ => .after fun _ => .before (list ?_ _) fun _ _ => rfl
    exact call _ _ _ _ _

end Ends

theorem Plan.tail_callDrawing (p : Plan) (d : Document) : ((p.edit d).callDrawing d).tail ≠ 0 := by
  have hends : Ends ')' (p.edit d).drawReplacement := by
    obtain ⟨⟨c, body, hsurgery, _, _⟩, _, _⟩ := (p.edit_spec d).1
    unfold Plan.IsSurgery at hsurgery
    unfold Edit.drawReplacement
    split at hsurgery
    · obtain ⟨call, ⟨t, u, args, rfl, _⟩, hrepl, _⟩ := hsurgery
      rw [hrepl]
      exact .call 1 _ _ _ _
    · obtain ⟨call, s, hcall, hs, hrepl, _⟩ := hsurgery
      rw [hrepl]
      exact .callStmt hcall hs
  refine LineTable.splitLengths_unterminated (c := ')') ?_ (by decide)
  rw [Edit.callDrawing, Drawing.toList_text_run]
  exact hends _

structure Span.Beside (s t : Span) : Prop where
  start : s.start ≤ t.start ∨ t.stop ≤ s.start
  stop : s.stop ≤ t.start ∨ t.stop ≤ s.stop

section Beside

variable {Q : Node → Prop} {t : Span} {es : List Entry}

/-- What stands in a row with a piece stands beside all that is inside of the piece. -/
theorem Row.beside {lo hi : Nat} {ps : List Piece} (h : Row Tag.span Q lo ps hi) {p : Piece}
    (hp : p ∈ ps) (hstart : p.tag.span.start ≤ t.start) (hstop : t.stop ≤ p.tag.span.stop)
    (hpiece : ∀ x ∈ p.entries, x ∈ es ∨ x.span.Beside t) :
    ∀ x ∈ Piece.entriesAll ps, x ∈ es ∨ x.span.Beside t := by
  obtain ⟨before, after, rfl⟩ := List.append_of_mem hp
  obtain ⟨mid, hbefore, hrest⟩ := h.split
  obtain ⟨hmid, _, _, hafter⟩ := hrest.cons
  intro x hx
  rw [Piece.entriesAll_append, Piece.entriesAll_cons] at hx
  rcases List.mem_append.1 hx with hx | hx
  · obtain ⟨_, hordered, hle⟩ := hbefore.inside x hx
    have hle : x.span.stop ≤ t.start := Nat.le_trans hle (Nat.le_trans hmid hstart)
    exact .inr ⟨.inl (Nat.le_trans hordered hle), .inl hle⟩
  · rcases List.mem_append.1 hx with hx | hx
    · exact hpiece x hx
    · obtain ⟨hle, hordered, _⟩ := hafter.inside x hx
      have hle : t.stop ≤ x.span.start := Nat.le_trans hstop hle
      exact .inr ⟨.inr hle, .inr (Nat.le_trans hle hordered)⟩

theorem Row.beside_run {lo hi : Nat} {before run after : List Piece}
    (h : Row Tag.span Q lo (before ++ run ++ after) hi) {p q : Piece} (hp : run.head? = some p)
    (hq : run.getLast? = some q) (hstart : t.start = p.tag.span.start)
    (hstop : t.stop = q.tag.span.stop) : ∀ x ∈ Piece.entriesAll (before ++ run ++ after),
      x ∈ Piece.entriesAll run ∨ x.span.Beside t := by
  obtain ⟨mid, hfront, hafter⟩ := h.split
  obtain ⟨mid', hbefore, hrun⟩ := hfront.split
  have hlow := (hrun.of_mem (List.mem_of_mem_head? hp)).1
  have hhigh := (hrun.of_mem (List.mem_of_getLast? hq)).2.1
  intro x hx
  rw [Piece.entriesAll_append, Piece.entriesAll_append] at hx
  rcases List.mem_append.1 hx with hx | hx
  · rcases List.mem_append.1 hx with hx | hx
    · obtain ⟨_, hordered, hle⟩ := hbefore.inside x hx
      have hle : x.span.stop ≤ t.start := hstart ▸ Nat.le_trans hle hlow
      exact .inr ⟨.inl (Nat.le_trans hordered hle), .inl hle⟩
    · exact .inl hx
  · obtain ⟨hle, hordered, _⟩ := hafter.inside x hx
    have hle : t.stop ≤ x.span.start := hstop ▸ Nat.le_trans hhigh hle
    exact .inr ⟨.inr hle, .inr (Nat.le_trans hle hordered)⟩

/-- What stands below a node beside something inside of another stands beside it below the node. -/
theorem Node.Holds.beside {n m : Node} (h : n.Holds m) (hn : Nested Tag.span Q n)
    (hstart : m.span.start ≤ t.start) (hstop : t.stop ≤ m.span.stop)
    (hm : ∀ x ∈ m.entries, x ∈ es ∨ x.span.Beside t) :
    (n.span.start ≤ t.start ∧ t.stop ≤ n.span.stop) ∧
      ∀ x ∈ n.entries, x ∈ es ∨ x.span.Beside t := by
  induction h with
  | self => exact ⟨⟨hstart, hstop⟩, hm⟩
  | @step n c m hc _ ih =>
    obtain ⟨hlow, hhigh, hnested⟩ := hn.row.of_mem (mem_children.1 hc)
    obtain ⟨⟨hcstart, hcstop⟩, hentries⟩ := ih (hnested _ rfl) hstart hstop hm
    have hnstart : n.span.start ≤ t.start := Nat.le_trans hlow hcstart
    have hnstop : t.stop ≤ n.span.stop := Nat.le_trans hcstop hhigh
    refine ⟨⟨hnstart, hnstop⟩, fun x hx => ?_⟩
    rcases (n.mem_entries x).1 hx with rfl | hx
    · rw [Entry.span, n.tag_self]
      exact .inr ⟨.inl hnstart, .inr hnstop⟩
    · exact hn.row.beside (mem_children.1 hc) hcstart hcstop hentries x hx

end Beside

/-- A region fills the range that was asked for, and all that is declared belongs to it or stands
beside it. -/
theorem Region.Located.beside {f : SourceFile} {target : Span} {r : Region}
    (h : r.Located f target) {Q : Node → Prop} {lo hi : Nat}
    (hrow : Row Tag.span Q lo (f.decls.map TopDecl.piece) hi) :
    r.span = target ∧ (lo ≤ r.span.start ∧ r.span.start ≤ r.span.stop ∧ r.span.stop ≤ hi) ∧
      ∀ x ∈ f.decls.flatMap TopDecl.entries, x ∈ r.entries ∨ x.span.Beside r.span := by
  have hfile {m : Node} {q : Option Nat} (hm : ⟨q, m⟩ ∈ Outline.linksAll none (Outline.ofFile f))
      (hcomment : m.isComment = false)
      (hin : Nested Tag.span Q m → r.span = target ∧ (m.span.start ≤ r.span.start ∧
        r.span.start ≤ r.span.stop ∧ r.span.stop ≤ m.span.stop) ∧
          ∀ x ∈ m.entries, x ∈ r.entries ∨ x.span.Beside r.span) :
      r.span = target ∧ (lo ≤ r.span.start ∧ r.span.start ≤ r.span.stop ∧ r.span.stop ≤ hi) ∧
        ∀ x ∈ f.decls.flatMap TopDecl.entries, x ∈ r.entries ∨ x.span.Beside r.span := by
    obtain ⟨d, hd, hholds⟩ := (SourceFile.mem_nodes_decls hcomment).1 (SourceFile.mem_nodes_of_link hm)
    have hmem : Piece.child (Outline.ofTopDecl d).content ∈ f.decls.map TopDecl.piece :=
      d.piece_eq ▸ List.mem_map_of_mem hd
    obtain ⟨hlow, hhigh, hnested⟩ := hrow.of_mem hmem
    obtain ⟨hspan, ⟨hstart, hordered, hstop⟩, hentries⟩ := hin (hholds.nested (hnested _ rfl))
    obtain ⟨⟨hdstart, hdstop⟩, hbeside⟩ := hholds.beside (hnested _ rfl) hstart hstop hentries
    refine ⟨hspan, ⟨Nat.le_trans hlow hdstart, hordered, Nat.le_trans hdstop hhigh⟩, ?_⟩
    rw [← Piece.entriesAll_topDecls]
    exact hrow.beside hmem hdstart hdstop hbeside
  cases r with
  | expression e parent slot =>
    exact hfile h.1 (SourceFile.isComment_expr e) fun hn =>
      ⟨h.2.1, ⟨Nat.le_refl _, hn.row.le, Nat.le_refl _⟩, fun x hx => .inl hx⟩
  | statements stmts owner =>
    obtain ⟨⟨q, howner⟩, ⟨before, after, hsplit⟩, ⟨first, hfirst, hbegin⟩, last, hlast, hfinish⟩ := h
    refine hfile howner (by cases owner <;> rfl) fun hn => ?_
    obtain ⟨others, hpieces⟩ := owner.pieces_eq
    have hparts : owner.node.pieces = (others ++ before.map Stmt.piece) ++ stmts.map Stmt.piece ++
        after.map Stmt.piece := by
      rw [hpieces, hsplit, List.map_append, List.map_append]
      simp
    have hrow := hn.row
    rw [hparts] at hrow
    have hhead : (stmts.map Stmt.piece).head? = some first.piece := by simp [hfirst]
    have hend : (stmts.map Stmt.piece).getLast? = some last.piece := by simp [hlast]
    obtain ⟨mid, hfront, hafter⟩ := hrow.split
    obtain ⟨mid', hbefore, hrun⟩ := hfront.split
    have hnarrow := hrun.narrow hhead hend
    have hspan : Region.span (.statements stmts owner) = ⟨first.span.start, last.span.stop⟩ := by
      have hstart := (hnarrow.of_mem (List.mem_of_getLast? hend)).1
      have hstop := (hnarrow.of_mem (List.mem_of_mem_head? hhead)).2.1
      rw [Region.span, hfirst, hlast]
      exact Span.eq_of_ends (Nat.min_eq_left hstart) (Nat.max_eq_right hstop)
    have hstart : owner.node.span.start ≤ first.span.start :=
      (hrow.of_mem (p := first.piece) (by simp [List.mem_of_mem_head? hfirst])).1
    have hstop : last.span.stop ≤ owner.node.span.stop :=
      (hrow.of_mem (p := last.piece) (by simp [List.mem_of_getLast? hlast])).2.1
    rw [hspan]
    refine ⟨Span.eq_of_ends hbegin hfinish, ⟨hstart, hnarrow.le, hstop⟩, fun x hx => ?_⟩
    rcases (owner.node.mem_entries x).1 hx with rfl | hx
    · rw [Entry.span, owner.node.tag_self]
      exact .inr ⟨.inl hstart, .inr hstop⟩
    · rw [hparts] at hx
      rw [Region.entries, ← Piece.entriesAll_stmts]
      exact hrow.beside_run (t := ⟨first.span.start, last.span.stop⟩) hhead hend rfl rfl x hx

namespace Edit

variable {e : Edit} {d : Document}

/-- Where something around the region comes to stand. -/
def around (e : Edit) (d : Document) (t : Tag) : Tag :=
  (Change.ofMarks (e.callDrawing d).marks.reverse).onTag
    ((Change.shift e.old.stop (e.delta d)).onTag t)

/-- What stands around the region stands before the new function once the call has its place. -/
structure Above (e : Edit) (d : Document) (limit : Nat) : Prop where
  clause : (e.hostAround d).tag.span.start ≤ limit
  decls : AllLow limit ((e.hostAround d).decls.flatMap TopDecl.entries)
  comments : ∀ g ∈ (e.hostAround d).comments, g.tag.span.start ≤ limit

/-- What stands beside the region stands before the new function once it has moved. -/
theorem shiftOffset_le {x : Nat} (hordered : e.old.start ≤ e.old.stop)
    (hstop : e.old.stop < d.lines.dropBlankEnd.size) (htail : (e.callDrawing d).tail ≠ 0)
    (hx : x ≤ e.old.start ∨ e.old.stop ≤ x) (hlt : x < d.lines.dropBlankEnd.size) :
    Span.shiftOffset e.old.stop (e.delta d) x ≤ (e.linesAround d).dropBlankEnd.size := by
  have hbase := dropBlankEnd_linesAround hordered hstop htail
  unfold delta at hbase ⊢
  rw [stop_callDrawing] at hbase ⊢
  unfold Span.shiftOffset
  split <;> omega

theorem le_shiftOffset {lo x : Nat} (hold : lo ≤ e.old.start) (hx : lo ≤ x) :
    lo ≤ Span.shiftOffset e.old.stop (e.delta d) x := by
  unfold Span.shiftOffset delta
  rw [stop_callDrawing]
  split <;> omega

theorem stop_call_le (hordered : e.old.start ≤ e.old.stop)
    (hstop : e.old.stop < d.lines.dropBlankEnd.size) (htail : (e.callDrawing d).tail ≠ 0) :
    (e.callDrawing d).stop ≤ (e.linesAround d).dropBlankEnd.size := by
  have hcall := shiftOffset_le hordered hstop htail (.inr (Nat.le_refl _)) hstop
  have hdelta : Span.shiftOffset e.old.stop (e.delta d) e.old.stop = (e.callDrawing d).stop := by
    unfold Span.shiftOffset delta
    rw [if_pos (Nat.le_refl _)]
    omega
  rwa [hdelta] at hcall

/-- Where no mark reaches a node, it moves with what it stands behind. -/
theorem span_around {t : Tag}
    (hmoved : e.around d t = (Change.shift e.old.stop (e.delta d)).onTag t)
    (hset : t.span.start ≠ Span.unknown) : (e.around d t).span =
      ⟨Span.shiftOffset e.old.stop (e.delta d) t.span.start,
        Span.shiftOffset e.old.stop (e.delta d) t.span.stop⟩ := by
  have hknown : t.span.isUnset = false := beq_eq_false_iff_ne.2 hset
  rw [hmoved]
  change Span.shift _ _ t.span = _
  rw [Span.shift, hknown]
  rfl

/-- The nodes of the call are marked where it is drawn. -/
theorem span_around_call {x : Entry} (hwhole : AllWhole e.replacement.entries)
    (hx : x ∈ e.replacement.entries) : e.old.start ≤ (e.around d x.tag).span.start ∧
      (e.around d x.tag).span.start ≤ (e.around d x.tag).span.stop ∧
        (e.around d x.tag).span.stop ≤ (e.callDrawing d).stop := by
  obtain ⟨m, hm, _, hspan⟩ := Change.ofMarks_found
    (t := (Change.shift e.old.stop (e.delta d)).onTag x.tag) _ (marks_callDrawing.2 hwhole x hx)
  obtain ⟨hstart, hle, hstop, _⟩ := marks_callDrawing.1 m hm
  rw [around, hspan]
  exact ⟨hstart, hle, hstop⟩

end Edit

namespace Document

/-- The declarations of a document stand in a row behind its clause. They and the comments stand
before the empty lines at the end. -/
structure Snug (d : Document) : Prop where
  clause : d.file.tag.span.start < d.file.tag.span.stop
  decls : ∃ Q stop, stop < d.lines.dropBlankEnd.size ∧
    Row Tag.span Q d.file.tag.span.stop (d.file.decls.map TopDecl.piece) stop
  comments : ∀ g ∈ d.file.comments, g.tag.span.start < d.lines.dropBlankEnd.size

theorem ofSource_snug {source : String} {d : Document} (h : ofSource source = .ok d) : d.Snug := by
  obtain ⟨_, _, _, hread⟩ := ofSource_ok h
  obtain ⟨stop, hstop, hstrip⟩ := ofSource_upright h
  obtain ⟨hlow, hordered, _, hrow⟩ := (piecesOf_solid _ ▸ hstrip.row).cons
  have hname : d.file.name.piece.tag.span.start < d.file.name.piece.tag.span.stop := by
    cases hstrip with
    | piece _ hsound _ => exact hsound.lt
  have hspan : d.file.tag.span.stop = max d.file.name.tag.span.stop d.file.tag.span.start := by
    rw [hread.file, Lays.span_sourceFile hread.sourceFile]
  have hstop' : d.file.tag.span.stop = d.file.name.piece.tag.span.stop := by
    rw [hspan]
    exact Nat.max_eq_left (Nat.le_trans hlow hordered)
  refine ⟨hstop' ▸ Nat.lt_of_le_of_lt hlow hname, ⟨_, stop, hstop, hstop' ▸ hrow⟩, fun g hg => ?_⟩
  obtain ⟨hstart, hstop, _⟩ := hread.covers hg
  exact Nat.lt_trans hstart hstop

section Step

variable {d next : Document} {s : Selection} {name : String} {done : Lifted}

def outerEntries (d : Document) (pre post : List (Link × List Entry)) : List Entry :=
  d.file.tag.entry :: d.file.name.entry :: (pre.flatMap (fun x => x.2) ++
    (post.flatMap (fun x => x.2) ++ groupEntries d.file.comments))

/-- Only the call is marked, so all that is not of the region keeps the place that it moves to. -/
theorem Owned.around_eq (hd : d.Owned) {p : Plan} {pre post : List (Link × List Entry)}
    (hviews : views d.file.declLinks = pre ++ views p.region.links ++ post) {y : Entry}
    (hy : y ∈ d.outerEntries pre post) : y ∉ p.region.entries ∧
      (p.edit d).around d y.tag = (Change.shift (p.edit d).old.stop ((p.edit d).delta d)).onTag y.tag := by
  obtain ⟨_, _, _, hcount⟩ := p.edit_spec d
  have hentries := d.file.entries_eq_links
  rw [ownEntries_of_views hviews, Region.ownEntries_links, ownEntries_commentLinks] at hentries
  have hone := hd.once y.tag.id
  have hpos := idCount_pos hy
  have hfresh : y.tag.id < d.nextId := by
    refine hd.fresh y ?_
    rw [hentries]
    simp only [outerEntries, groupEntries, List.mem_cons, List.mem_append] at hy ⊢
    rcases hy with hy | hy | hy | hy | hy <;> simp [hy]
  rw [hentries] at hone
  simp only [outerEntries, idCount_cons, idCount_append, groupEntries] at hone hpos
  have hzero : idCount y.tag.id p.region.entries = 0 := by omega
  refine ⟨fun hregion => ?_, Change.ofMarks_kept _ ?_⟩
  · have := idCount_pos hregion
    omega
  · rintro ⟨m, hm, hid⟩
    obtain ⟨_, _, _, x, hx, hxid⟩ := Edit.marks_callDrawing.1 m hm
    have hid : y.tag.id = x.tag.id := hid.symm.trans hxid
    have hle := hcount y.tag.id
    have hcall := idCount_pos hx
    rw [idCount_append, hzero, between_of_lt hfresh, hid] at hle
    omega

theorem Lifts.above (h : d.Lifts s name next done) (hd : d.Reached) (hsnug : d.Snug)
    (hsize : d.size < 2 ^ 32)
    (hbase : ((done.plan.edit d).linesAround d).dropBlankEnd.size < Span.unknown) :
    (done.plan.edit d).Above d ((done.plan.edit d).linesAround d).dropBlankEnd.size := by
  obtain ⟨target, _, _, hlocated⟩ := resolve_located h.region
  obtain ⟨Q, stop, hstop, hrow⟩ := hsnug.decls
  obtain ⟨_, ⟨hlow, hordered, hhigh⟩, hbeside⟩ := hlocated.beside hrow
  obtain ⟨⟨_, hold, _⟩, _, hmem, _⟩ := done.plan.edit_spec d
  obtain ⟨pre, post, hviews, hviews'⟩ := swapped_host hd.owned hlocated h.fits
  obtain ⟨htag, _, hcomments⟩ := host_rest (p := done.plan) (d := d)
  have hwhole := ((allWhole_append _ _).1 (h.made_whole hd)).1
  have htail := done.plan.tail_callDrawing d
  have houter {y : Entry} := hd.owned.around_eq (y := y) hviews
  generalize done.plan.edit d = e at *
  have hunknown : Span.unknown = 2 ^ 32 - 1 := rfl
  have hend : d.lines.dropBlankEnd.size ≤ d.size := d.lines.size_dropBlankEnd_le
  rw [← hold] at hlow hordered hhigh hbeside
  have hregion : e.old.stop < d.lines.dropBlankEnd.size := Nat.lt_of_le_of_lt hhigh hstop
  have hclause := hsnug.clause
  have hshift {x : Nat} := Edit.shiftOffset_le (x := x) hordered hregion htail
  have hbehind {x : Nat} := @Edit.le_shiftOffset e d _ x hlow
  have hplace {y : Entry} (hy : y ∈ d.outerEntries pre post)
      (hlt : y.span.start < d.lines.dropBlankEnd.size) :=
    Edit.span_around (houter hy).2 (show y.span.start ≠ Span.unknown by omega)
  refine ⟨?_, ?_, fun g hg => ?_⟩
  · have hlt : d.file.tag.span.start < d.lines.dropBlankEnd.size := by omega
    have htagged : (e.hostAround d).tag = e.around d d.file.tag.entry.tag := by
      rw [← htag]
      rfl
    rw [htagged, hplace List.mem_cons_self hlt]
    exact hshift (.inl (Nat.le_trans (Nat.le_of_lt hclause) hlow)) hlt
  · have hdecls : (e.hostAround d).decls.flatMap TopDecl.entries =
        (e.host.decls.flatMap TopDecl.entries).map (Entry.retag (e.around d)) := by
      have hmoved : (e.hostAround d).decls =
          (e.host.decls.map (Change.shift e.old.stop (e.delta d)).topDecl).map
            (Change.ofMarks (e.callDrawing d).marks.reverse).topDecl := rfl
      rw [hmoved, Change.entries_topDecls (Change.retags_ofMarks _),
        Change.entries_topDecls (Change.retags_shift _ _), List.map_map]
      rfl
    rw [hdecls, ← ownEntries_declLinks, ownEntries_of_views hviews', Replacement.ownEntries_links]
    intro y hy
    obtain ⟨x, hx, rfl⟩ := List.mem_map.1 hy
    have hbeyond (hx : x ∈ pre.flatMap (fun x => x.2) ∨ x ∈ post.flatMap (fun x => x.2)) :
        (x.retag (e.around d)).span.Low (e.linesAround d).dropBlankEnd.size := by
      have hxd : x ∈ d.file.decls.flatMap TopDecl.entries := by
        rw [← ownEntries_declLinks, ownEntries_of_views hviews]
        rcases hx with hx | hx <;> simp [hx]
      have hxo : x ∈ d.outerEntries pre post := by
        rcases hx with hx | hx <;> simp [outerEntries, hx]
      obtain ⟨hstart, hstop'⟩ := (hbeside x hxd).resolve_left (houter hxo).1
      have hin := hrow.inside x (by rwa [Piece.entriesAll_topDecls])
      have hlt : x.span.start < d.lines.dropBlankEnd.size :=
        Nat.lt_of_le_of_lt (Nat.le_trans hin.2.1 hin.2.2) hstop
      change (e.around d x.tag).span.Low _
      rw [hplace hxo hlt]
      exact ⟨hshift hstart hlt, hshift hstop' (Nat.lt_of_le_of_lt hin.2.2 hstop), hbase,
        Nat.lt_of_lt_of_le (Nat.zero_lt_of_lt hclause) (hbehind (Nat.le_trans hin.1 hin.2.1))⟩
    rcases List.mem_append.1 hx with hx | hx
    · rcases List.mem_append.1 hx with hx | hx
      · exact hbeyond (.inl hx)
      · obtain ⟨hstart, hle, hstop'⟩ := Edit.span_around_call (d := d) hwhole hx
        have hcall := Edit.stop_call_le hordered hregion htail
        change (e.around d x.tag).span.Low _
        exact ⟨by omega, by omega, hbase, by omega⟩
    · exact hbeyond (.inr hx)
  · have hmoved : (e.hostAround d).comments =
        (e.kept.map (Change.shift e.old.stop (e.delta d)).commentGroup).map
          (Change.ofMarks (e.callDrawing d).marks.reverse).commentGroup := rfl
    rw [hmoved, List.map_map] at hg
    obtain ⟨k, hk, rfl⟩ := List.mem_map.1 hg
    obtain ⟨hk, htakes⟩ := List.mem_filter.1 hk
    rw [hcomments] at hk
    have hko : k.tag.entry ∈ d.outerEntries pre post := by
      simp [outerEntries, tag_mem_groupEntries hk]
    have hlt := hsnug.comments k hk
    change (e.around d k.tag.entry.tag).span.start ≤ _
    rw [hplace hko hlt]
    refine hshift ?_ hlt
    simp only [Edit.takes, Bool.not_eq_true', Bool.and_eq_false_iff, decide_eq_false_iff_not] at htakes
    change k.tag.span.start ≤ _ ∨ _ ≤ k.tag.span.start
    omega

end Step

end Document

end FuncLift
