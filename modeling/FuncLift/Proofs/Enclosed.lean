import FuncLift.Proofs.Atomic
import FuncLift.Proofs.Resolved

/-!
# What a region encloses

In every document of a session the declarations stand in rows, the read ones because the grammar
reads them so and the laid out ones because they are drawn so. Hence all that a region holds stands
inside of the span of the region.
-/
namespace FuncLift

namespace Change

def piece (c : Change) : Piece → Piece
  | .name n => .name (c.name n)
  | .child n => .child (c.node n)

variable {c : Change}

@[simp] theorem piece_name (n : Name) : c.piece (.name n) = .name (c.name n) := rfl

@[simp] theorem piece_child (n : Node) : c.piece (.child n) = .child (c.node n) := rfl

theorem pieces_loopHead (x : LoopHead) : (c.loopHead x).pieces = x.pieces.map c.piece := by
  cases x <;> simp [loopHead, LoopHead.pieces, node, Option.toList_map, Function.comp_def]

theorem pieces_cases (x : Cases) : (c.cases x).pieces = x.pieces.map c.piece := by
  cases x <;> simp [cases, Cases.pieces, node, Function.comp_def]

theorem pieces_elements (es : List Element) :
    (es.map c.element).flatMap Element.pieces = (es.flatMap Element.pieces).map c.piece := by
  induction es with
  | nil => rfl
  | cons e es ih =>
    obtain ⟨key, value⟩ := e
    simp only [List.map_cons, List.flatMap_cons, List.map_append, ih]
    simp [element, Element.pieces, node, Option.toList_map, Function.comp_def]

theorem pieces_expr {e : Expr} (hc : c.onExpr e = none) :
    (Node.expr (c.expr e)).pieces = (Node.expr e).pieces.map c.piece := by
  cases e <;> rw [Change.expr, hc] <;>
    simp [Node.pieces, node, pieces_elements, Option.toList_map, Function.comp_def]

theorem pieces_type (t : TypeExpr) :
    (Node.type (c.typeExpr t)).pieces = (Node.type t).pieces.map c.piece := by
  cases t <;> simp [typeExpr, Node.pieces, node, Option.toList_map, Function.comp_def]

theorem pieces_simple (s : Simple) :
    (Node.simple (c.simple s)).pieces = (Node.simple s).pieces.map c.piece := by
  cases s <;> simp [simple, names, Node.pieces, node, Function.comp_def]

theorem pieces_stmt (s : Stmt) :
    (Node.stmt (c.stmt s)).pieces = (Node.stmt s).pieces.map c.piece := by
  cases s <;> simp [stmt, nameOption, Node.pieces, node, pieces_loopHead, Option.toList_map, Function.comp_def]

theorem pieces_spec (s : Spec) :
    (Node.spec (c.spec s)).pieces = (Node.spec s).pieces.map c.piece := by
  cases s <;> simp [spec, names, nameOption, Node.pieces, node, Option.toList_map, Function.comp_def]

theorem pieces_node (hc : c.Retags) (n : Node) : (c.node n).pieces = n.pieces.map c.piece := by
  have hstmts (id : Nat) (ss : List Stmt) : c.onStmts id ss = ss := by
    rw [hc.1]
    rfl
  cases n with
  | decl d =>
    cases d
    simp [node, decl, Node.pieces, Function.comp_def]
  | spec s => exact pieces_spec s
  | func f =>
    cases f
    simp [node, func, Node.pieces, Option.toList_map, Function.comp_def]
  | signature s =>
    cases s
    simp [node, signature, Node.pieces, Function.comp_def]
  | field f =>
    cases f
    simp [node, field, names, Node.pieces, Function.comp_def]
  | block b =>
    cases b
    simp [node, block, hstmts, Node.pieces, Function.comp_def]
  | stmt s => exact pieces_stmt s
  | simple s => exact pieces_simple s
  | expr e =>
    refine pieces_expr ?_
    rw [hc.1]
    rfl
  | type t => exact pieces_type t
  | clause x =>
    cases x
    simp [node, clause, hstmts, Node.pieces, pieces_cases, Function.comp_def]
  | comm x =>
    cases x
    simp [node, comm, hstmts, Node.pieces, Option.toList_map, Function.comp_def]
  | comment x => rfl
  | commentGroup g => simp [node, commentGroup, Node.pieces, Function.comp_def]

theorem tag_node (hc : c.Retags) (n : Node) : (c.node n).tag = c.onTag n.tag := by
  have hnone : c.replacement? n = none := by
    rw [hc.1]
    cases n <;> rfl
  obtain ⟨e, es, hown, htag⟩ := n.own_eq_cons
  obtain ⟨e', es', hown', htag'⟩ := (c.node n).own_eq_cons
  rw [own_node hnone, hown, List.map_cons] at hown'
  rw [← htag', ← (List.cons.inj hown').1, ← htag]
  rfl

mutual

/-- What is placed in rows stands in rows when the places are its spans. -/
theorem nested_node (hc : c.Retags) {place : Tag → Span} (hplace : ∀ t, (c.onTag t).span = place t)
    {Q : Node → Prop} : ∀ {n : Node}, Nested place Q n → Nested Tag.span (fun _ => True) (c.node n)
  | n, .mk _ hrow => by
    refine .mk trivial ?_
    rw [tag_node hc, hplace, pieces_node hc]
    exact row_pieces hc hplace hrow

theorem row_pieces (hc : c.Retags) {place : Tag → Span} (hplace : ∀ t, (c.onTag t).span = place t)
    {Q : Node → Prop} : ∀ {lo hi : Nat} {ps : List Piece}, Row place Q lo ps hi →
      Row Tag.span (fun _ => True) lo (ps.map c.piece) hi
  | _, _, _, .nil h => .nil h
  | _, _, _, .name (n := n) h h' hrest => by
    have hspan : (c.name n).tag.span = place n.tag := hplace n.tag
    refine .name (hspan ▸ h) (hspan ▸ h') ?_
    rw [hspan]
    exact row_pieces hc hplace hrest
  | _, _, _, .child (n := n) h hn hrest => by
    have hspan : (c.node n).tag.span = place n.tag := by rw [tag_node hc, hplace]
    refine .child (hspan ▸ h) (nested_node hc hplace hn) ?_
    rw [hspan]
    exact row_pieces hc hplace hrest

end

end Change

theorem TopDecl.piece_change (c : Change) (d : TopDecl) : (c.topDecl d).piece = c.piece d.piece := by
  cases d <;> rfl

/-- The declarations of a file stand in a row, and so do their pieces. -/
def SourceFile.Ordered (f : SourceFile) : Prop :=
  ∃ Q lo hi, Row Tag.span Q lo (f.decls.map TopDecl.piece) hi

/-- If every number is marked once, everything marked gets the place of its mark. -/
theorem Change.places_ofMarks {ms : List Mark} (h : ∀ i, markCount i ms ≤ 1) :
    Places (fun t => ((Change.ofMarks ms).onTag t).span) ms := by
  intro m hm t ht
  obtain ⟨k, hk, hid, hspan⟩ := ofMarks_found ms ⟨m, hm, ht.symm⟩
  exact hspan.trans (congrArg Mark.span
    (eq_of_countP (h t.id) hk hm (by simpa using hid) (by simpa using ht.symm)))

namespace Document

variable {u : Document}

theorem markCount_drawing (hw : u.Whole) (honce : ∀ i, idCount i u.file.entries ≤ 1) (i : Nat) :
    markCount i (u.drawing 0).marks.reverse ≤ 1 := by
  obtain ⟨q, gs, _, hmarks, hgs, _, hlead⟩ := drawing_leads u 0
  obtain ⟨ms, hms, _, hcomplete⟩ := hlead.marks
  have hms : q.marks = ms := hms.trans (List.append_nil ms)
  have hentries : u.file.entries =
      (u.file.fixedEntries ++ groupEntries gs) ++ groupEntries q.comments := by
    rw [SourceFile.entries_eq_fixed, hgs, List.append_assoc, ← groupEntries_append, groupEntries]
  obtain ⟨_, hcount, _⟩ := hcomplete trivial
    (AllWhole.mono hw fun e he => by rw [hentries]; exact List.mem_append_left _ he)
  have hi := honce i
  rw [hentries, idCount_append] at hi
  rw [hmarks, hms]
  exact Nat.le_trans (hcount i) (by omega)

theorem places_drawing (hw : u.Whole) (honce : ∀ i, idCount i u.file.entries ≤ 1) :
    Places (fun t => ((Change.ofMarks (u.drawing 0).marks.reverse).onTag t).span)
      (u.drawing 0).marks.reverse := Change.places_ofMarks (markCount_drawing hw honce)

/-- After laying out, the declarations stand in a row between the clause and the last newline. -/
theorem settle_row (hw : u.Whole) (honce : ∀ i, idCount i u.file.entries ≤ 1) :
    u.settle.file.tag.span.start < u.settle.file.tag.span.stop ∧
    ∃ hi, u.print.utf8ByteSize = hi + 1 ∧ Row Tag.span (fun _ => True) u.settle.file.tag.span.stop
      (u.settle.file.decls.map TopDecl.piece) hi := by
  obtain ⟨htext, hmarks, _⟩ := u.drawing_pen 0
  have hfresh : (Pen.fresh u.lines u.file.comments 0).offset =
      0 + byteSize (Pen.fresh u.lines u.file.comments 0).text := rfl
  obtain ⟨_, _, hlead⟩ := Draw.leads_fileBody True u.file _ hfresh
  have hwhole : AllWhole (u.file.decls.flatMap TopDecl.entries ++ groupEntries u.file.comments) := by
    have hall : AllWhole u.file.entries := hw
    rw [SourceFile.entries_eq] at hall
    simp only [allWhole_cons] at hall
    exact hall.2.2
  have hplaces := places_drawing hw honce
  obtain ⟨hclause, hrow⟩ := Draw.row_fileBody hfresh hwhole fun m hm => hplaces m (hmarks ▸ hm)
  have hdecls : u.settle.file.decls.map TopDecl.piece = (u.file.decls.map TopDecl.piece).map
      (Change.ofMarks (u.drawing 0).marks.reverse).piece := by
    have hfile : u.settle.file.decls =
        u.file.decls.map (Change.ofMarks (u.drawing 0).marks.reverse).topDecl := rfl
    rw [hfile, List.map_map, List.map_map]
    exact List.map_congr_left fun d _ => TopDecl.piece_change _ d
  have hmoved := Change.row_pieces (Change.retags_ofMarks _) (fun _ => rfl) hrow
  refine ⟨hclause, _, ?_, hdecls ▸ hmoved⟩
  rw [hlead.offset, print, ← byteSize_toList, htext, byteSize_append, Nat.zero_add]
  rfl

theorem settle_ordered (hw : u.Whole) (honce : ∀ i, idCount i u.file.entries ≤ 1) :
    u.settle.file.Ordered := by
  obtain ⟨_, _, _, hrow⟩ := settle_row hw honce
  exact ⟨_, _, _, hrow⟩

theorem Reached.ordered {d : Document} (h : d.Reached) : d.file.Ordered := by
  cases h with
  | read h => exact ⟨_, ofSource_file_upright h⟩
  | lift hd h =>
    have hreached : Reached d := .lift hd h
    obtain ⟨rfl, _⟩ := (lifts hd.owned h).layout
    obtain ⟨honce, hw⟩ := sound_of_settle hreached.owned.once hreached.whole
    exact settle_ordered hw honce

end Document

theorem Node.Holds.nested {place : Tag → Span} {Q : Node → Prop} {n m : Node} (h : n.Holds m)
    (hn : Nested place Q n) : Nested place Q m := by
  induction h with
  | self => exact hn
  | step hc _ ih => exact ih ((hn.row.of_mem (mem_children.1 hc)).2.2 _ rfl)

theorem Owner.pieces_eq (w : Owner) : ∃ others, w.node.pieces = others ++ w.stmts.map Stmt.piece := by
  cases w with
  | block b => exact ⟨[], rfl⟩
  | clause c => exact ⟨_, rfl⟩
  | comm c => exact ⟨_, rfl⟩

theorem Row.narrow {place : Tag → Span} {Q : Node → Prop} {lo hi : Nat} {ps : List Piece}
    {p q : Piece} (h : Row place Q lo ps hi) (hp : ps.head? = some p) (hq : ps.getLast? = some q) :
    Row place Q (place p.tag).start ps (place q.tag).stop := by
  have hfirst : Row place Q (place p.tag).start ps hi := by
    cases h with
    | nil => cases hp
    | name h h' hrest =>
      cases hp
      exact .name (Nat.le_refl _) h' hrest
    | child h hn hrest =>
      cases hp
      exact .child (Nat.le_refl _) hn hrest
  obtain ⟨init, rfl⟩ := List.getLast?_eq_some_iff.1 hq
  obtain ⟨mid, hinit, hlast⟩ := hfirst.split
  refine hinit.append ?_
  cases hlast with
  | name hstart hordered _ => exact .name hstart hordered (.nil (Nat.le_refl _))
  | child hstart hn _ => exact .child hstart hn (.nil (Nat.le_refl _))

namespace SourceFile

variable {f : SourceFile}

theorem mem_nodes_of_link {l : Link} (h : l ∈ Outline.linksAll none (Outline.ofFile f)) :
    l.node ∈ f.nodes := by
  have hnodes := Outline.walkAll_eq_linksAll 0 none (Outline.ofFile f)
  rw [nodes, hnodes]
  exact List.mem_map_of_mem h

theorem Ordered.nested (hf : f.Ordered) {l : Link}
    (h : l ∈ Outline.linksAll none (Outline.ofFile f)) (hl : l.node.isComment = false) :
    ∃ Q, Nested Tag.span Q l.node := by
  obtain ⟨Q, lo, hi, hrow⟩ := hf
  obtain ⟨d, hd, hholds⟩ := (mem_nodes_decls hl).1 (mem_nodes_of_link h)
  exact ⟨Q, hholds.nested ((hrow.of_mem (List.mem_map_of_mem hd)).2.2 _ d.piece_eq)⟩

end SourceFile

theorem Region.Located.inside {f : SourceFile} {target : Span} {r : Region}
    (h : r.Located f target) (hf : f.Ordered) : ∀ x ∈ r.entries, r.span.start ≤ x.span.start ∧
      x.span.start ≤ x.span.stop ∧ x.span.stop ≤ r.span.stop := by
  cases r with
  | expression e parent slot =>
    obtain ⟨Q, hn⟩ := hf.nested h.1 (SourceFile.isComment_expr e)
    exact hn.inside
  | statements stmts owner =>
    obtain ⟨⟨q, howner⟩, ⟨before, after, hsplit⟩, ⟨first, hfirst, _⟩, last, hlast, _⟩ := h
    obtain ⟨Q, hn⟩ := hf.nested howner (by cases owner <;> rfl)
    obtain ⟨others, hpieces⟩ := owner.pieces_eq
    have hrow := hn.row
    rw [hpieces, hsplit, List.map_append, List.map_append] at hrow
    obtain ⟨_, _, hrow⟩ := hrow.split
    obtain ⟨_, hrow, _⟩ := hrow.split
    obtain ⟨_, _, hrow⟩ := hrow.split
    have hrun := hrow.narrow (p := first.piece) (q := last.piece) (by simp [hfirst])
      (by simp [hlast])
    intro x hx
    have hspan : Region.span (.statements stmts owner) = first.span.hull last.span := by
      rw [Region.span, hfirst, hlast]
    rw [Region.entries, ← Piece.entriesAll_stmts] at hx
    obtain ⟨hstart, hordered, hstop⟩ := hrun.inside x hx
    rw [hspan]
    exact ⟨Nat.le_trans (Nat.min_le_left _ _) hstart, hordered,
      Nat.le_trans hstop (Nat.le_max_right _ _)⟩

end FuncLift
