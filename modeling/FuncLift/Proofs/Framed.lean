import FuncLift.Proofs.Accurate
import FuncLift.Proofs.Enclosed

/-!
# Spans of reached documents

However a document was reached, its declarations and all nodes below them have spans inside of the
text: a child lies inside of its parent, and the children of a node lie one behind the other. After
reading these spans are those of the tokens, after a lift those of the marks that drawing leaves. In a
document that was just read nothing is empty, and every word stands under its span.
-/
namespace FuncLift

theorem Node.Holds.mem_entries {n m : Node} (h : n.Holds m) {e : Entry} (he : e ∈ m.entries) :
    e ∈ n.entries := by
  induction h with
  | self => exact he
  | @step n c m hc _ ih =>
    refine (n.mem_entries e).2 (.inr (List.mem_flatMap.2 ⟨.child c, mem_children.1 hc, ?_⟩))
    exact ih he

theorem Node.Holds.of_group {g : CommentGroup} {n : Node} (h : Node.Holds (.commentGroup g) n) :
    n = .commentGroup g ∨ ∃ c ∈ g.comments, n = .comment c := by
  cases h with
  | self => exact .inl rfl
  | step hc hn =>
    obtain ⟨c, hcg, hpiece⟩ := List.mem_map.1 (mem_children.1 hc)
    cases hpiece
    cases hn with
    | self => exact .inr ⟨c, hcg, rfl⟩
    | step hc' _ => cases mem_children.1 hc'

theorem TopDecl.entries_content (d : TopDecl) : (Outline.ofTopDecl d).content.entries = d.entries := by
  have hpiece : Piece.entriesAll [d.piece] = d.entries := by
    simpa using Piece.entriesAll_topDecls [d]
  rw [← hpiece, d.piece_eq]
  simp [Piece.entries]

theorem Piece.nodes_topDecls (ds : List TopDecl) :
    nodes (ds.map TopDecl.piece) = ds.map fun d => (Outline.ofTopDecl d).content := by
  induction ds with
  | nil => rfl
  | cons d ds ih => rw [List.map_cons, d.piece_eq, nodes_child, ih, List.map_cons]

namespace SourceFile

theorem mem_entries_of_node {f : SourceFile} {n : Node} (hn : n ∈ f.nodes) {e : Entry}
    (he : e ∈ n.entries) : e ∈ f.entries := by
  obtain ⟨o, ho, hholds⟩ := mem_nodes.1 hn
  have he := hholds.mem_entries he
  rw [entries_eq]
  refine List.mem_cons_of_mem _ (List.mem_cons_of_mem _ ?_)
  rcases List.mem_append.1 ho with ho | ho
  · obtain ⟨d, hd, rfl⟩ := List.mem_map.1 ho
    rw [d.entries_content] at he
    exact List.mem_append_left _ (List.mem_flatMap.2 ⟨d, hd, he⟩)
  · obtain ⟨g, hg, rfl⟩ := List.mem_map.1 ho
    exact List.mem_append_right _ (List.mem_flatMap.2 ⟨g, hg, he⟩)

end SourceFile

namespace Document

/-- The spans of nodes lie inside of the text, inside of each other and one behind the other. -/
structure Framed (d : Document) : Prop where
  set : d.size < 2 ^ 32 → ∀ n ∈ d.file.nodes, n.isComment = false → n.span.isUnset = false
  inside : ∀ n ∈ d.file.nodes, n.isComment = false →
    n.span.start ≤ n.span.stop ∧ n.span.stop ≤ d.size
  within : ∀ n ∈ d.file.nodes, n.isComment = false → ∀ c ∈ n.children,
    n.span.start ≤ c.span.start ∧ c.span.stop ≤ n.span.stop
  apart : ∀ n ∈ d.file.nodes, n.isComment = false →
    n.children.Pairwise fun a b => a.span.stop ≤ b.span.start
  decls : (d.file.decls.map fun x => (Outline.ofTopDecl x).content).Pairwise
    fun a b => a.span.stop ≤ b.span.start

/-- The words of a document stand in a text under their spans. -/
structure Legible (d : Document) (text : List Char) : Prop where
  idents : ∀ t s, .expr (.ident t s) ∈ d.file.nodes → Under 0 text t.span s.toList
  literals : ∀ t kind s, .expr (.lit t kind s) ∈ d.file.nodes → Under 0 text t.span s.toList
  comments : ∀ c, .comment c ∈ d.file.nodes → Under 0 text c.tag.span c.text.toList
  names : ∀ n ∈ d.file.nodes, ∀ m, .name m ∈ n.pieces → Under 0 text m.tag.span m.text.toList
  package : Under 0 text d.file.name.tag.span d.file.name.text.toList

variable {d : Document}

theorem Reached.decl_stop_lt (hd : d.Reached) {x : TopDecl} (hx : x ∈ d.file.decls) :
    (Outline.ofTopDecl x).content.span.stop < d.size := by
  cases hd with
  | read h =>
    obtain ⟨stop, hstop, hstrip⟩ := ofSource_upright h
    have hrow := hstrip.row
    rw [piecesOf_solid] at hrow
    have hmem := hrow.cons.2.2.2.of_mem (List.mem_map_of_mem hx)
    rw [x.piece_eq] at hmem
    exact Nat.lt_of_lt_of_le (Nat.lt_of_le_of_lt hmem.2.1 hstop) d.lines.size_dropBlankEnd_le
  | lift hd h =>
    have hreached : Reached d := .lift hd h
    obtain ⟨rfl, _⟩ := (lifts hd.owned h).layout
    obtain ⟨honce, hw⟩ := sound_of_settle hreached.owned.once hreached.whole
    have hself : (Outline.ofTopDecl x).content.self ∈ x.entries := by
      rw [← x.entries_content]
      exact (Node.mem_entries _ _).2 (.inl rfl)
    have hsits := (settle_sits hw honce).1 (Outline.ofTopDecl x).content.self
      (List.mem_cons_of_mem _ (List.mem_cons_of_mem _ (List.mem_flatMap.2 ⟨x, hx, hself⟩)))
    rw [(size_settle _).2, Node.span, ← Node.tag_self]
    exact hsits.inside

theorem Reached.framed (hd : d.Reached) : d.Framed := by
  obtain ⟨Q, lo, hi, hrow⟩ := hd.ordered
  have hnested {n : Node} (hn : n ∈ d.file.nodes) (hc : n.isComment = false) :
      Nested Tag.span Q n ∧ n.span.stop < d.size := by
    obtain ⟨x, hx, hholds⟩ := (SourceFile.mem_nodes_decls hc).1 hn
    have htop := (hrow.of_mem (List.mem_map_of_mem hx)).2.2 _ x.piece_eq
    have hinside := htop.inside n.self (hholds.mem_entries ((n.mem_entries _).2 (.inl rfl)))
    have hstop := hd.decl_stop_lt hx
    rw [n.tag_self] at hinside
    exact ⟨hholds.nested htop, Nat.lt_of_le_of_lt hinside.2.2 hstop⟩
  refine ⟨fun hsize n hn hc => ?_, fun n hn hc => ?_, fun n hn hc c hchild => ?_, fun n hn hc => ?_, ?_⟩
  · obtain ⟨hframe, hstop⟩ := hnested hn hc
    have hle : n.span.start ≤ n.span.stop := hframe.row.le
    have hne : n.span.start ≠ Span.unknown := by
      rw [Span.unknown]
      omega
    simpa [Span.isUnset] using hne
  · obtain ⟨hframe, hstop⟩ := hnested hn hc
    exact ⟨hframe.row.le, Nat.le_of_lt hstop⟩
  · have hmem := (hnested hn hc).1.row.of_mem (Node.mem_children.1 hchild)
    exact ⟨hmem.1, hmem.2.1⟩
  · exact (hnested hn hc).1.pairwise
  · rw [← Piece.nodes_topDecls]
    exact hrow.pairwise

theorem ofSource_legible {source : String} (h : ofSource source = .ok d) :
    d.Legible (terminated source).toList := by
  obtain ⟨file, c, c', hread⟩ := ofSource_ok h
  have hunder {e : Entry} (he : e ∈ d.file.entries) := (hread.yields.2.1 e he).under
  have hself {n : Node} (hn : n ∈ d.file.nodes) : n.self ∈ d.file.entries :=
    SourceFile.mem_entries_of_node hn ((n.mem_entries _).2 (.inl rfl))
  refine ⟨fun t s hn => hunder (hself hn) s rfl, fun t kind s hn => hunder (hself hn) s rfl,
    fun c hn => hunder (hself hn) c.text rfl, fun n hn m hm => ?_, ?_⟩
  · refine hunder (SourceFile.mem_entries_of_node hn ((n.mem_entries m.entry).2 (.inr ?_))) m.text rfl
    exact List.mem_flatMap.2 ⟨.name m, hm, List.mem_singleton_self _⟩
  · exact hunder (List.mem_cons_of_mem _ List.mem_cons_self) d.file.name.text rfl

theorem ofSource_nonempty {source : String} (h : ofSource source = .ok d) {n : Node}
    (hn : n ∈ d.file.nodes) : n.span.start < n.span.stop := by
  obtain ⟨o, ho, hholds⟩ := SourceFile.mem_nodes.1 hn
  rcases List.mem_append.1 ho with ho | ho
  · obtain ⟨x, hx, rfl⟩ := List.mem_map.1 ho
    exact (hholds.upright ((ofSource_file_upright h).of_decl hx)).1.tight
  · obtain ⟨g, hg, rfl⟩ := List.mem_map.1 ho
    obtain ⟨file, c, c', hread⟩ := ofSource_ok h
    obtain ⟨hgroup, _, hcomments⟩ := hread.covers hg
    rcases hholds.of_group with rfl | ⟨x, hx, rfl⟩
    · exact hgroup
    · exact hcomments x hx

/-- In every document that a session reaches, spans lie inside of the text, inside of their parents'
and one behind the other. In one that was just read they are not empty, and words stand under
theirs. -/
theorem Reached.well_spanned (hd : d.Reached) : d.Framed ∧
    ∀ source, ofSource source = .ok d →
      (∀ n ∈ d.file.nodes, n.span.start < n.span.stop) ∧ d.Legible (terminated source).toList :=
  ⟨hd.framed, fun _ h => ⟨fun _ hn => ofSource_nonempty h hn, ofSource_legible h⟩⟩

theorem Reached.well_spanned_literal : ∃ (d next : Document) (done : Lifted),
    ofSource "package p\n\nfunc f() \x7b\n\tx := 3\n\tprintln(x)\n\x7d\n" = .ok d ∧
      d.lift ⟨⟨4, 7⟩, ⟨4, 8⟩⟩ "Seven" = .ok (next, done) ∧ d.Framed ∧ next.Framed ∧
      (∀ n ∈ d.file.nodes, n.span.start < n.span.stop) ∧ d.Legible
        (terminated "package p\n\nfunc f() \x7b\n\tx := 3\n\tprintln(x)\n\x7d\n").toList := by
  obtain ⟨d, next, done, hread, hlift, -⟩ := exists_lift_literal
  obtain ⟨hframed, hfresh⟩ := well_spanned (.read hread)
  exact ⟨d, next, done, hread, hlift, hframed, (well_spanned (.lift (.read hread) hlift)).1,
    hfresh _ hread⟩

end Document

end FuncLift
