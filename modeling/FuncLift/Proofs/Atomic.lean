import FuncLift.Proofs.Laid

/-!
# Lifting fails as a whole

The tree of a document is rewritten before its layout is checked. The check never fails: the lines
around the call add up to the size that the text must have, and so do the lines of the new
function. So whenever lifting fails the document has not been touched.
-/
namespace FuncLift

namespace LineTable

theorem bytes_linesBetween (g : Drawing) (before after : Nat) :
    bytes (g.linesBetween before after) = before + g.text.utf8ByteSize + after + 1 := by
  have hsum : bytes g.lines + g.tail = g.text.utf8ByteSize := by
    rw [← byteSize_toList]
    exact bytes_splitLengths _
  unfold Drawing.linesBetween
  split
  · rename_i hlines
    rw [hlines, bytes_nil] at hsum
    rw [bytes_cons, bytes_nil]
    omega
  · rename_i n ns hlines
    rw [hlines, bytes_cons] at hsum
    rw [bytes_append, bytes_cons, bytes_cons, bytes_nil]
    omega

/-- If the empty lines at the end begin behind the start of a line, that line and all before it
stay. -/
theorem size_dropBlankEnd_append_cons (zs ns : List Nat) {n : Nat}
    (h : bytes zs < (dropBlankEnd ⟨zs ++ n :: ns⟩).size) :
    (dropBlankEnd ⟨zs ++ n :: ns⟩).size = bytes zs + (n + 1) + (dropBlankEnd ⟨ns⟩).size := by
  have hkept (ms xs : List Nat) {m : Nat} (hm : m ≠ 0) :
      (dropBlankEnd ⟨ms ++ m :: xs⟩).size = bytes ms + (m + 1) + (dropBlankEnd ⟨xs⟩).size := by
    rw [dropBlankEnd_append_cons hm, size, bytes_append, bytes_cons, ← Nat.add_assoc]
    rfl
  by_cases hblank : ∀ m ∈ n :: ns, m = 0
  · have hnone : dropBlankEnd ⟨n :: ns⟩ = ⟨[]⟩ := by
      have hdrop : (n :: ns).reverse.dropWhile (· == 0) = [] :=
        List.dropWhile_eq_nil_iff.2 fun m hm => beq_iff_eq.2 (hblank m (List.mem_reverse.1 hm))
      rw [dropBlankEnd, hdrop]
      rfl
    have hle := size_dropBlankEnd_append_le zs (n :: ns)
    rw [hnone] at hle
    exact absurd h (Nat.not_lt.2 hle)
  · by_cases hn : n = 0
    · simp only [List.mem_cons, forall_eq_or_imp, hn, true_and, not_forall] at hblank
      obtain ⟨m, hmem, hm⟩ := hblank
      obtain ⟨a, b, rfl⟩ := List.append_of_mem hmem
      have hwhole := hkept (zs ++ n :: a) b hm
      rw [List.append_assoc, List.cons_append] at hwhole
      rw [hwhole, hkept a b hm, bytes_append, bytes_cons]
      omega
    · exact hkept zs ns hn

end LineTable

namespace Edit

variable {e : Edit} {d : Document}

/-- The lines around the call: those before it, those of the call with what stands beside it, and
those behind. -/
theorem linesAround_eq (hstart : e.old.start < d.size) (hstop : e.old.stop < d.size) :
    ∃ before front back zs n behind,
      e.linesAround d = ⟨before ++ (e.callDrawing d).linesBetween front back ++ behind⟩ ∧
      LineTable.bytes before + front = e.old.start ∧ d.lines.lengths = zs ++ n :: behind ∧
      LineTable.bytes zs + n = e.old.stop + back ∧ back ≤ n := by
  obtain ⟨xs, m, ys, hsplit, hline, hcolumn, hoffset⟩ := LineTable.locate_eq hstart
  obtain ⟨zs, n, ws, hsplit', hline', hcolumn', hoffset'⟩ := LineTable.locate_eq hstop
  have hlast : d.lines.length? ((LineTable.locate d.lines.lengths e.old.stop).1 + 1) = some n := by
    rw [hline', LineTable.length?, hsplit', List.getElem?_append_right (Nat.le_refl _)]
    simp
  have hbefore : d.lines.lengths.take (LineTable.locate d.lines.lengths e.old.start).1 = xs := by
    rw [hline, hsplit, List.take_left]
  have hbehind : d.lines.lengths.drop ((LineTable.locate d.lines.lengths e.old.stop).1 + 1) = ws := by
    rw [hline', hsplit', List.drop_append, List.drop_eq_nil_of_le (by omega)]
    simp
  refine ⟨xs, (LineTable.locate d.lines.lengths e.old.start).2,
    n - (LineTable.locate d.lines.lengths e.old.stop).2, zs, n, ws, ?_, hoffset, hsplit', by omega,
    Nat.sub_le _ _⟩
  unfold linesAround LineTable.splice LineTable.position
  simp only [Nat.add_sub_cancel, hlast, hbefore, hbehind, Option.elim_some]

theorem stop_callDrawing :
    (e.callDrawing d).stop = e.old.start + (e.callDrawing d).text.utf8ByteSize := rfl

theorem size_linesAround (hstart : e.old.start < d.size) (hstop : e.old.stop < d.size) :
    (e.linesAround d).size = e.sizeAround d := by
  obtain ⟨before, front, back, zs, n, behind, haround, hfront, hlines, hback, _⟩ :=
    linesAround_eq hstart hstop
  have hsize : d.size = LineTable.bytes zs + (n + 1) + LineTable.bytes behind := by
    rw [Document.size, LineTable.size, hlines, LineTable.bytes_append, LineTable.bytes_cons]
    omega
  rw [haround, LineTable.size, LineTable.bytes_append, LineTable.bytes_append,
    LineTable.bytes_linesBetween]
  unfold sizeAround delta
  rw [stop_callDrawing]
  omega

/-- Where the region stood the text grows as a whole, and the empty lines at its end stay what they
are, if the call does not end with an empty line. -/
theorem dropBlankEnd_linesAround (hordered : e.old.start ≤ e.old.stop)
    (hstop : e.old.stop < d.lines.dropBlankEnd.size) (htail : (e.callDrawing d).tail ≠ 0) :
    ((e.linesAround d).dropBlankEnd.size : Int) = d.lines.dropBlankEnd.size + e.delta d := by
  have hsize : d.lines.dropBlankEnd.size ≤ d.size := d.lines.size_dropBlankEnd_le
  obtain ⟨before, front, back, zs, n, behind, haround, hfront, hlines, hback, hle⟩ :=
    linesAround_eq (e := e) (d := d) (by omega) (by omega)
  obtain ⟨init, l, hbetween, hl⟩ : ∃ init l,
      (e.callDrawing d).linesBetween front back = init ++ [l] ∧ l ≠ 0 := by
    unfold Drawing.linesBetween
    split
    · exact ⟨[], _, rfl, by omega⟩
    · exact ⟨_, _, rfl, by omega⟩
  have hbytes := LineTable.bytes_linesBetween (e.callDrawing d) front back
  have hbase : (e.linesAround d).dropBlankEnd.size =
      LineTable.bytes (before ++ (e.callDrawing d).linesBetween front back) +
        (LineTable.dropBlankEnd ⟨behind⟩).size := by
    rw [haround, hbetween, List.append_assoc, List.append_assoc, List.singleton_append,
      ← List.append_assoc, LineTable.dropBlankEnd_append_cons hl, LineTable.size,
      List.append_cons, LineTable.bytes_append, List.append_assoc]
    rfl
  have hsplit : d.lines = ⟨zs ++ n :: behind⟩ := by rw [← hlines]
  rw [hsplit] at hstop
  have hold := LineTable.size_dropBlankEnd_append_cons zs behind (n := n) (by omega)
  rw [← hsplit] at hold
  rw [LineTable.bytes_append, hbytes] at hbase
  unfold delta
  rw [stop_callDrawing]
  omega

end Edit

namespace Parts

variable {e : Edit} {d : Document} (x : Parts)

theorem tail_drawing : (x.drawing e d).tail = 0 ∧
    LineTable.bytes (x.drawing e d).lines = (x.drawing e d).text.utf8ByteSize := by
  have htext : (x.drawing e d).text.toList.getLast? = some '\n' := by
    have hrun : (x.drawing e d).text.toList = (x.drawFunction
        (.fresh d.lines x.detached (e.linesAround d).dropBlankEnd.size)).2.text :=
      Drawing.toList_text_run
    rw [hrun]
    change ((List.reverse ("\n" :: _)).flatMap String.toList).getLast? = _
    rw [List.reverse_cons, List.flatMap_append]
    exact List.getLast?_concat ..
  have hsum := LineTable.bytes_splitLengths (x.drawing e d).text.toList
  have hzero : (x.drawing e d).tail = 0 := (LineTable.splitLengths_terminated htext).1
  refine ⟨hzero, ?_⟩
  rw [← byteSize_toList, ← hsum]
  exact (Nat.add_zero _).symm.trans (congrArg _ hzero.symm)

theorem size_drawing : ((e.linesAround d).dropBlankEnd.append (x.drawing e d).lines).size =
    (x.drawing e d).stop := by
  obtain ⟨_, hlines⟩ := x.tail_drawing (e := e) (d := d)
  have happend : ((e.linesAround d).dropBlankEnd.append (x.drawing e d).lines).size =
      (e.linesAround d).dropBlankEnd.size + LineTable.bytes (x.drawing e d).lines :=
    LineTable.bytes_append _ _
  rw [happend, hlines]
  rfl

end Parts

namespace Document

theorem size_unsettled (d : Document) (e : Edit) :
    (d.unsettled e).size = (e.functionDrawing d).stop := (e.plainParts d).size_drawing

theorem layout_succeeds {d : Document} {e : Edit} (hstart : e.old.start < d.size)
    (hstop : e.old.stop < d.size) : ∃ next lines, d.layout e = .ok (next, lines) := by
  have haround := Edit.size_linesAround hstart hstop
  obtain ⟨htail, _⟩ := (e.parts d).tail_drawing (e := e) (d := d)
  have hsize := (e.parts d).size_drawing (e := e) (d := d)
  unfold layout
  dsimp only
  rw [if_neg (by simpa using haround), if_neg (by simp [hsize, htail])]
  exact ⟨_, _, rfl⟩

end Document

theorem Region.Located.mem_fixed {f : SourceFile} {target : Span} {stmts : List Stmt}
    {owner : Owner} (h : Region.Located f target (.statements stmts owner)) {s : Stmt}
    (hs : s ∈ stmts) : ∃ e ∈ f.fixedEntries, e.tag = s.tag := by
  obtain ⟨⟨q, howner⟩, ⟨before, after, hsplit⟩, _, _⟩ := h
  have hcomment : owner.node.isComment = false := by cases owner <;> rfl
  obtain ⟨a, b, hlinks⟩ := Outline.owner_split
    (Outline.every_ofList Outline.ownerComplete (Outline.every_ofTopDecl Outline.ownerComplete) _)
    (mem_declLinks howner hcomment)
  have hlink : ⟨some owner.id, .stmt s⟩ ∈ f.declLinks := by
    rw [SourceFile.declLinks, hlinks, Change.links_outline, hsplit]
    refine List.mem_append_left _ (List.mem_append_right _ ?_)
    refine List.mem_cons_of_mem _ (List.mem_append_right _ (Outline.mem_linksAll
      (o := Outline.ofStmt s) ?_ ?_))
    · rw [Outline.ofStmts_eq_map]
      exact List.mem_map_of_mem (by simp [hs])
    · cases s <;> exact List.mem_cons_self
  obtain ⟨e, es, hown, htag⟩ := Node.own_eq_cons (.stmt s)
  refine ⟨e, ?_, htag⟩
  have hmem : e ∈ ownEntries f.declLinks :=
    List.mem_flatMap.2 ⟨_, hlink, by rw [hown]; exact List.mem_cons_self⟩
  rw [ownEntries_declLinks] at hmem
  exact List.mem_cons_of_mem _ (List.mem_cons_of_mem _ hmem)

theorem Document.Seated.region_span {d : Document} (hd : d.Seated) {target : Span}
    (hordered : target.start < target.stop) (hinside : target.stop < d.size) {r : Region}
    (h : r.Located d.file target) : r.span.start < d.size ∧ r.span.stop < d.size := by
  cases r with
  | expression e parent slot =>
    have hspan : e.span = target := h.2.1
    rw [Region.span, hspan]
    omega
  | statements stmts owner =>
    have hlocated := h
    obtain ⟨_, _, ⟨first, hfirst, hstart⟩, ⟨last, hlast, hstop⟩⟩ := h
    obtain ⟨e, he, htag⟩ := hlocated.mem_fixed (List.mem_of_mem_head? hfirst)
    have hseat : first.span.start < d.size → first.span.stop < d.size := by
      have hspan : e.span = first.span := congrArg Tag.span htag
      rw [← hspan]
      exact hd e he
    rw [Region.span, hfirst, hlast]
    simp only [Span.hull]
    omega

namespace Document

/-- The document between the rewriting of the tree and its layout. -/
def rewritten (d : Document) (e : Edit) : Document :=
  { d with
    file := { e.host with decls := e.host.decls ++ [.func e.function] }
    vocabulary := d.vocabulary.addAll e.words
    nextId := e.nextId }

/-- Lifting as a change of one document: the tree is rewritten first, and a failure of its layout
would leave it rewritten. -/
def liftInPlace (s : Selection) (name : String) : EStateM LiftFault Document Lifted := fun d =>
  match d.resolve s with
  | .error fault => .error (.selection s fault) d
  | .ok region =>
    match d.plan region name with
    | .error fault => .error fault d
    | .ok plan =>
      match d.layout (plan.edit d) with
      | .error fault => .error fault (d.rewritten (plan.edit d))
      | .ok (next, lines) => .ok ⟨plan, (plan.edit d).function.tag.id, lines⟩ next

theorem plan_fault {d : Document} {r : Region} {name : String} {fault : LiftFault}
    (h : d.plan r name = .error fault) (expected actual : Nat) : fault ≠ .layout expected actual := by
  unfold plan at h
  split at h
  · cases h
    exact nofun
  · dsimp only at h
    split at h
    · cases h
      exact nofun
    · split at h
      · cases h
        exact nofun
      · cases h

/-- Lifting in place does what lifting does, never fails for the layout, and leaves the document as
it was whenever it fails. -/
theorem Reached.liftInPlace_atomic {d : Document} (hd : d.Reached) (s : Selection) (name : String) :
    (∃ done next, (liftInPlace s name).run d = .ok done next ∧
      d.lift s name = .ok (next, done)) ∨
    ∃ fault, (liftInPlace s name).run d = .error fault d ∧ d.lift s name = .error fault ∧
      ∀ expected actual, fault ≠ .layout expected actual := by
  unfold liftInPlace EStateM.run Document.lift
  cases hresolve : d.resolve s with
  | error fault =>
    simp only [hresolve]
    exact .inr ⟨_, rfl, rfl, nofun⟩
  | ok region =>
    cases hplan : d.plan region name with
    | error fault =>
      simp only [hresolve, hplan]
      exact .inr ⟨_, rfl, rfl, plan_fault hplan⟩
    | ok plan =>
      obtain ⟨target, hordered, hinside, hlocated⟩ := resolve_located hresolve
      have hspan := hd.seated.region_span hordered hinside hlocated
      have hold : (plan.edit d).old = region.span := by
        rw [(region_plan hplan).2]
        rfl
      rw [← hold] at hspan
      obtain ⟨next, lines, hlayout⟩ := layout_succeeds hspan.1 hspan.2
      simp only [hresolve, hplan, hlayout]
      exact .inl ⟨_, _, rfl, rfl⟩

theorem Reached.liftInPlace_atomic_empty : ∃ d, d.Reached ∧
    ((∃ done next, (liftInPlace ⟨⟨4, 7⟩, ⟨4, 7⟩⟩ "Seven").run d = .ok done next ∧
      d.lift ⟨⟨4, 7⟩, ⟨4, 7⟩⟩ "Seven" = .ok (next, done)) ∨
    ∃ fault, (liftInPlace ⟨⟨4, 7⟩, ⟨4, 7⟩⟩ "Seven").run d = .error fault d ∧
      d.lift ⟨⟨4, 7⟩, ⟨4, 7⟩⟩ "Seven" = .error fault ∧
        ∀ expected actual, fault ≠ .layout expected actual) := by
  obtain ⟨d, _, _, hread, _⟩ := exists_lift_literal
  exact ⟨d, .read hread, liftInPlace_atomic (.read hread) _ _⟩

end Document

end FuncLift
