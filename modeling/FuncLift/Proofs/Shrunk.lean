import FuncLift.Proofs.Positions
import FuncLift.Proofs.Resolved

/-!
# Shrinking a selection is exact

Whatever text and cursors are given, the cursors are clamped to offsets of the text, and a shrunk
selection is not shrunk any further. If the cursors are in order, all that is no blank stays in, so a
selection stands for the same code as any other with the same bytes that are no blanks.
-/
namespace FuncLift

def Span.Shows (text : String) (r : Span) (i : Nat) : Prop :=
  r.start ≤ i ∧ i < r.stop ∧ ¬BlankAt text i

namespace Span.Trims

variable {text : String} {whole whole' s t : Span}

theorem holds (h : t.Trims text whole) {i : Nat} (hi : whole.Shows text i) :
    t.start ≤ i ∧ i < t.stop := by
  obtain ⟨hstart, hstop, hink⟩ := hi
  constructor
  · apply Nat.le_of_not_lt
    intro hlt
    exact hink (h.before i hstart hlt)
  · apply Nat.lt_of_not_le
    intro hle
    exact hink (h.after i hle hstop)

theorem again (ht : t.Trims text whole) (hs : s.Trims text t) : s = t := by
  have hstart := hs.start_le
  have hordered := hs.ordered
  have hstop := hs.stop_le
  by_cases hne : t.start < t.stop
  · have hends := ht.tight hne
    have hfirst : t.Shows text t.start := ⟨Nat.le_refl _, hne, hends.1⟩
    have hlast : t.Shows text (t.stop - 1) := ⟨by omega, by omega, hends.2⟩
    have hfirst := hs.holds hfirst
    have hlast := hs.holds hlast
    rw [Span.mk.injEq]
    omega
  · rw [Span.mk.injEq]
    omega

theorem within (hs : s.Trims text whole) (ht : t.Trims text whole') (hne : s.start < s.stop)
    (h : ∀ i, whole.Shows text i → whole'.Shows text i) : t.start ≤ s.start ∧ s.stop ≤ t.stop := by
  have hstart := hs.start_le
  have hstop := hs.stop_le
  have hends := hs.tight hne
  have hfirst := ht.holds (h s.start ⟨hstart, by omega, hends.1⟩)
  have hlast := ht.holds (h (s.stop - 1) ⟨by omega, by omega, hends.2⟩)
  omega

theorem eq_of_shows (hs : s.Trims text whole) (ht : t.Trims text whole')
    (h : ∀ i, whole.Shows text i ↔ whole'.Shows text i) (hne : ∃ i, whole.Shows text i) : s = t := by
  obtain ⟨i, hi⟩ := hne
  have hsi := hs.holds hi
  have hti := ht.holds ((h i).1 hi)
  have hst := hs.within ht (by omega) fun i => (h i).1
  have hts := ht.within hs (by omega) fun i => (h i).2
  rw [Span.mk.injEq]
  omega

end Span.Trims

namespace Selection

theorem trim_of_le (blanks : List Bool) {first last : Nat} (h : last ≤ first) :
    trim blanks first last = (first, last) := by
  have hnone : last - first = 0 := by omega
  simp [trim, hnone]

/-- The range of a selection once its cursors are clamped. -/
structure Clamps (s : Selection) (text : String) (r : Span) : Prop where
  first : (LineTable.ofText text).offset? ((LineTable.ofText text).clamp s.first) = some r.start
  last : (LineTable.ofText text).offset? ((LineTable.ofText text).clamp s.last) = some r.stop

section Shrinking

variable {s : Selection} {source : String} {r : Span}

theorem exists_clamps (s : Selection) (source : String) : ∃ r, s.Clamps (terminated source) r := by
  have hne := (LineTable.splitLengths_terminated (getLast_terminated source)).2
  obtain ⟨first, hfirst⟩ := LineTable.exists_offset_clamp (t := .ofText (terminated source)) hne s.first
  obtain ⟨last, hlast⟩ := LineTable.exists_offset_clamp (t := .ofText (terminated source)) hne s.last
  exact ⟨⟨first, last⟩, hfirst, hlast⟩

def trimmed (text : String) (r : Span) : Span :=
  ⟨(trim (blankBytes text.toList) r.start r.stop).1, (trim (blankBytes text.toList) r.start r.stop).2⟩

theorem Clamps.shrink_eq (h : s.Clamps (terminated source) r) : s.shrink source =
    ⟨(LineTable.ofText (terminated source)).position (trimmed (terminated source) r).start,
      (LineTable.ofText (terminated source)).position (trimmed (terminated source) r).stop⟩ := by
  unfold shrink
  simp only [h.first, h.last]
  rfl

theorem Clamps.lt_size (h : s.Clamps (terminated source) r) :
    r.start < (LineTable.ofText (terminated source)).size ∧
      r.stop < (LineTable.ofText (terminated source)).size :=
  ⟨LineTable.offset_lt h.first, LineTable.offset_lt h.last⟩

theorem Clamps.trims (h : s.Clamps (terminated source) r) (hle : r.start ≤ r.stop) :
    (trimmed (terminated source) r).Trims (terminated source) r := by
  have hsize : (LineTable.ofText (terminated source)).size = byteSize (terminated source).toList := by
    rw [LineTable.size_ofText (getLast_terminated source), byteSize_toList]
  have hlt := h.lt_size.2
  exact trims_trim _ hle (by omega)

theorem Clamps.trimmed_lt_size (h : s.Clamps (terminated source) r) :
    (trimmed (terminated source) r).start < (LineTable.ofText (terminated source)).size ∧
      (trimmed (terminated source) r).stop < (LineTable.ofText (terminated source)).size := by
  have hlt := h.lt_size
  by_cases hle : r.start ≤ r.stop
  · have htrims := h.trims hle
    have hordered := htrims.ordered
    have hstop := htrims.stop_le
    omega
  · rw [trimmed, trim_of_le _ (Nat.le_of_not_le hle)]
    exact hlt

theorem Clamps.shrink (h : s.Clamps (terminated source) r) :
    (s.shrink source).Clamps (terminated source) (trimmed (terminated source) r) := by
  obtain ⟨hfirst, hlast⟩ := h.trimmed_lt_size
  have hfirst := LineTable.offset_position hfirst
  have hlast := LineTable.offset_position hlast
  rw [h.shrink_eq]
  constructor
  · rw [LineTable.clamp_eq hfirst, hfirst]
  · rw [LineTable.clamp_eq hlast, hlast]

theorem Clamps.trimmed_trimmed (h : s.Clamps (terminated source) r) :
    trimmed (terminated source) (trimmed (terminated source) r) = trimmed (terminated source) r := by
  by_cases hle : r.start ≤ r.stop
  · have htrims := h.trims hle
    exact htrims.again (h.shrink.trims htrims.ordered)
  · have htrim := trim_of_le (blankBytes (terminated source).toList) (Nat.le_of_not_le hle)
    simp only [trimmed, htrim]

theorem shrink_shrink (s : Selection) (source : String) :
    (s.shrink source).shrink source = s.shrink source := by
  obtain ⟨r, hr⟩ := exists_clamps s source
  rw [hr.shrink.shrink_eq, hr.trimmed_trimmed, ← hr.shrink_eq]

end Shrinking

end Selection

namespace Document

/-- Selections of a document that was read, which show the same, stand for the same. -/
theorem resolve_eq_of_shows {source : String} {d : Document} (h : ofSource source = .ok d)
    {s s' : Selection} {r r' : Span} (hr : d.range? s = some r) (hr' : d.range? s' = some r')
    (hle : r.start ≤ r.stop) (hle' : r'.start ≤ r'.stop)
    (hshows : ∀ i, r.Shows (terminated source) i ↔ r'.Shows (terminated source) i)
    (hne : ∃ i, r.Shows (terminated source) i) : d.resolve s = d.resolve s' := by
  obtain ⟨hlines, htext⟩ := ofSource_text h
  rw [← terminated_terminated] at hlines
  obtain ⟨t, ht, htrims⟩ := range_shrink hlines hr hle
  obtain ⟨t', ht', htrims'⟩ := range_shrink hlines hr' hle'
  rw [terminated_terminated] at htrims htrims'
  obtain rfl := htrims.eq_of_shows htrims' hshows hne
  have hreads : d.Reads s t := reads_of_range hr hle (by rw [htext]; exact ht)
  have hreads' : d.Reads s' t := reads_of_range hr' hle' (by rw [htext]; exact ht')
  unfold Reads at hreads hreads'
  rw [hreads, hreads']

end Document

/-- Shrinking twice is shrinking once. The range that is left lies in the clamped one, has all of it
that is no blank, and neither starts nor ends with a blank. So selections that show the same bytes
resolve alike. -/
theorem Selection.shrink_exact (source : String) :
    (∀ s : Selection, (s.shrink source).shrink source = s.shrink source) ∧
    (∀ s : Selection, ∃ r, s.Clamps (terminated source) r ∧ (r.start ≤ r.stop → ∃ t : Span,
      (LineTable.ofText (terminated source)).offset? (s.shrink source).first = some t.start ∧
      (LineTable.ofText (terminated source)).offset? (s.shrink source).last = some t.stop ∧
      r.start ≤ t.start ∧ t.start ≤ t.stop ∧ t.stop ≤ r.stop ∧
      (∀ i, r.Shows (terminated source) i → t.start ≤ i ∧ i < t.stop) ∧
      (t.start < t.stop → t.Shows (terminated source) t.start ∧
        t.Shows (terminated source) (t.stop - 1)))) ∧
    ∀ d s s' r r', Document.ofSource source = .ok d → d.range? s = some r → d.range? s' = some r' →
      r.start ≤ r.stop → r'.start ≤ r'.stop →
      (∀ i, r.Shows (terminated source) i ↔ r'.Shows (terminated source) i) →
      (∃ i, r.Shows (terminated source) i) → d.resolve s = d.resolve s' := by
  refine ⟨fun s => shrink_shrink s source, fun s => ?_, ?_⟩
  · obtain ⟨r, hr⟩ := exists_clamps s source
    refine ⟨r, hr, fun hle => ⟨trimmed (terminated source) r, ?_⟩⟩
    obtain ⟨hfirst, hlast⟩ := hr.trimmed_lt_size
    have htrims := hr.trims hle
    rw [hr.shrink_eq]
    refine ⟨LineTable.offset_position hfirst, LineTable.offset_position hlast, htrims.start_le,
      htrims.ordered, htrims.stop_le, fun i => htrims.holds, fun hne => ?_⟩
    obtain ⟨hfirst, hlast⟩ := htrims.tight hne
    exact ⟨⟨Nat.le_refl _, hne, hfirst⟩, by omega, by omega, hlast⟩
  · intro d s s' r r' hd hr hr' hle hle' hshows hne
    exact Document.resolve_eq_of_shows hd hr hr' hle hle' hshows hne

/-- A definition with the tab before it and without, in a text whose last newline is missing. -/
theorem Selection.shrink_exact_tab :
    let source := "package p\n\nfunc f() \x7b\n\tx := 3\n\tprintln(x)\n\x7d"
    let s : Selection := ⟨⟨4, 1⟩, ⟨4, 8⟩⟩
    let s' : Selection := ⟨⟨4, 2⟩, ⟨4, 8⟩⟩
    ∃ d, Document.ofSource source = .ok d ∧ d.range? s = some ⟨22, 29⟩ ∧
      d.range? s' = some ⟨23, 29⟩ ∧ s.shrink source = s' ∧ d.resolve s = d.resolve s' := by
  intro source s s'
  obtain ⟨d, hread, hcheck⟩ := Document.exists_read source
    (fun d => decide (d.range? s = some ⟨22, 29⟩) && decide (d.range? s' = some ⟨23, 29⟩))
    (by decide +kernel)
  obtain ⟨hrange, hrange'⟩ := Bool.and_eq_true_iff.1 hcheck
  have hrange := of_decide_eq_true hrange
  have hrange' := of_decide_eq_true hrange'
  have hblank := getElem_blankBytes (terminated source).toList
  have htab : BlankAt (terminated source) 22 := (hblank 22).1 (by decide +kernel)
  have hname : ¬BlankAt (terminated source) 23 := fun h =>
    absurd ((hblank 23).2 h) (by decide +kernel)
  refine ⟨d, hread, hrange, hrange', by decide +kernel, ?_⟩
  refine (shrink_exact source).2.2 d s s' _ _ hread hrange hrange' (by decide) (by decide) ?_ ?_
  · intro i
    unfold Span.Shows
    by_cases hi : i = 22
    · subst hi
      exact ⟨fun h => absurd htab h.2.2, fun h => absurd htab h.2.2⟩
    · dsimp only
      exact ⟨fun h => ⟨by omega, h.2⟩, fun h => ⟨by omega, h.2⟩⟩
  · exact ⟨23, by decide, by decide, hname⟩

end FuncLift
