import FuncLift.Proofs.Laid

/-!
# Measuring what is written

A gauge takes what is written one string after the other. It knows nothing of the text before, only
how long it was, the lengths of its lines, and the length of the line that is not yet terminated.
Measuring a file from any offset and writing it are the same: the same strings are written, and the
gauge ends where the text does.
-/
namespace FuncLift

/-- Where the text ends, how long its terminated lines are, and how long the rest is. -/
structure Gauge where
  offset : Nat
  lines : List Nat
  line : Nat
deriving DecidableEq

namespace Gauge

def start (base : Nat) : Gauge := ⟨base, [], 0⟩

def put (g : Gauge) (c : Char) : Gauge :=
  if c = '\n' then ⟨g.offset + 1, g.lines ++ [g.line], 0⟩
  else ⟨g.offset + c.utf8Size, g.lines, g.line + c.utf8Size⟩

def write (g : Gauge) (s : String) : Gauge := s.toList.foldl put g

/-- The line that a gauge has begun goes on with the first line of what is put. -/
def join (line : Nat) (r : List Nat × Nat) : List Nat × Nat :=
  match r.1 with
  | [] => ([], line + r.2)
  | n :: ns => ((line + n) :: ns, r.2)

theorem foldl_put (cs : List Char) (g : Gauge) : cs.foldl put g =
    ⟨g.offset + byteSize cs, g.lines ++ (join g.line (splitLengths cs)).1,
      (join g.line (splitLengths cs)).2⟩ := by
  induction cs generalizing g with
  | nil => simp [splitLengths, join, byteSize]
  | cons c cs ih =>
    rw [List.foldl_cons, ih, put, splitLengths_cons, byteSize]
    by_cases hc : c = '\n'
    · have hsize : '\n'.utf8Size = 1 := rfl
      rw [if_pos hc, if_pos hc, hc, hsize]
      cases hsplit : (splitLengths cs).1 <;> simp [join, hsplit, Nat.add_assoc]
    · rw [if_neg hc, if_neg hc]
      cases hsplit : (splitLengths cs).1 <;> simp [join, hsplit, Nat.add_assoc]

theorem foldl_write (base : Nat) (strings : List String) (cs : List Char)
    (h : strings.flatMap String.toList = cs) : strings.foldl write (start base) =
      ⟨base + byteSize cs, (splitLengths cs).1, (splitLengths cs).2⟩ := by
  have hchars (g : Gauge) : strings.foldl write g = (strings.flatMap String.toList).foldl put g := by
    rw [List.foldl_flatMap]
    rfl
  rw [hchars, h, foldl_put]
  cases hsplit : (splitLengths cs).1 <;> simp [start, join, hsplit]

end Gauge

namespace Document

/-- The pen that has drawn a file from an offset on. -/
def pen (d : Document) (base : Nat) : Pen :=
  (Draw.sourceFile d.file (.fresh d.lines d.file.comments base)).2

/-- Measuring from an offset agrees with a text: the same strings are written, the gauge ends where
the text ends and has its lines, what is marked lies inside of it, and a word stands under its mark.
A number stands for one word: entries that share it have the same. -/
structure Measures (d : Document) (base : Nat) (text : String) : Prop where
  writes : (d.pen base).pieces = (d.pen 0).pieces
  written : String.join (d.pen base).pieces.reverse = text
  offset : (d.pen base).offset = base + text.utf8ByteSize
  gauge : (d.pen base).pieces.reverse.foldl Gauge.write (.start base) =
    ⟨base + text.utf8ByteSize, (splitLengths text.toList).1, (splitLengths text.toList).2⟩
  layout : (⟨(d.drawing base).stop, (d.drawing base).lines, (d.drawing base).tail⟩ : Gauge) =
    (d.pen base).pieces.reverse.foldl Gauge.write (.start base)
  inside : ∀ m ∈ (d.drawing base).marks, base ≤ m.span.start ∧ m.span.start ≤ m.span.stop ∧
    m.span.stop ≤ base + text.utf8ByteSize
  marked : ∀ m ∈ (d.drawing base).marks, ∃ e ∈ d.file.entries, m.id = e.tag.id
  under : ∀ e ∈ d.file.entries, (∀ f ∈ d.file.entries, f.tag.id = e.tag.id → f.text = e.text) →
    ∀ m ∈ (d.drawing base).marks, m.id = e.tag.id →
      ∀ s, e.text = some s → Under base text.toList m.span s.toList

theorem text_pen (d : Document) (base : Nat) :
    (d.drawing base).text = String.join (d.pen base).pieces.reverse := rfl

theorem pieces_pen (d : Document) (base : Nat) : (d.pen base).pieces = (d.pen 0).pieces := by
  have hsteady : Steady (Draw.sourceFile d.file) := by
    have hend : Draws 0 true True (Draw.text "\n") [] := .text _
    rw [Draw.sourceFile_eq]
    exact (Draw.steady_fileBody d.file).bind fun _ => hend.steady
  obtain ⟨o, ms, hrun⟩ := hsteady (.fresh d.lines d.file.comments 0) base []
  have hpen : d.pen base = (d.pen 0).moved o ms := congrArg Prod.snd hrun
  rw [hpen]
  rfl

theorem text_drawing (d : Document) (base : Nat) : (d.drawing base).text = d.print := by
  rw [text_pen, pieces_pen]
  rfl

theorem marks_drawing (d : Document) (base : Nat) {m : Mark} (hm : m ∈ (d.drawing base).marks) :
    base ≤ m.span.start ∧ ∃ e ∈ d.file.entries, MarksAt base d.print.toList m e := by
  obtain ⟨q, gs, htext, hmarks, hgs, _, hlead⟩ := drawing_leads d base
  rw [text_drawing] at htext
  obtain ⟨ms, hms, hsound, _⟩ := hlead.marks
  have hmem : m ∈ ms := by
    rw [← List.mem_reverse, hmarks, hms] at hm
    exact (List.mem_append.1 hm).resolve_right List.not_mem_nil
  obtain ⟨hstart, e, he, hmark⟩ := hsound m hmem
  refine ⟨hstart, e, ?_, htext ▸ hmark.mono _⟩
  rw [SourceFile.entries_eq_fixed, hgs, groupEntries_append, ← List.append_assoc]
  exact List.mem_append_left _ he

theorem offset_pen (d : Document) (base : Nat) :
    (d.pen base).offset = base + d.print.utf8ByteSize := by
  have hend : Draws base true True (Draw.text "\n") [] := .text _
  obtain ⟨_, _, hbody⟩ := Draw.leads_fileBody True d.file (.fresh d.lines d.file.comments base) rfl
  obtain ⟨_, _, _, hlead⟩ := hend.leads _ hbody.offset
  have hoffset : (d.pen base).offset = base + byteSize (d.pen base).text := hlead.offset
  rw [hoffset, ← byteSize_toList, ← text_drawing d base, text_pen, String.toList_join]
  rfl

/-- Measuring a file from any offset agrees with the text that is printed. -/
theorem measures (d : Document) (base : Nat) : d.Measures base d.print := by
  have hchars : (d.pen base).pieces.reverse.flatMap String.toList = d.print.toList := by
    rw [← text_drawing d base, text_pen, String.toList_join]
  have hgauge := Gauge.foldl_write base _ _ hchars
  rw [byteSize_toList] at hgauge
  refine ⟨d.pieces_pen base, ?_, d.offset_pen base, hgauge, ?_, fun m hm => ?_, fun m hm => ?_,
    fun e he hsame m hm hid s hs => ?_⟩
  · rw [← text_pen, text_drawing]
  · rw [hgauge, Drawing.stop, Drawing.lines, Drawing.tail, text_drawing]
    rfl
  · obtain ⟨hstart, e, _, hmark⟩ := d.marks_drawing base hm
    exact ⟨hstart, hmark.ordered, byteSize_toList d.print ▸ hmark.inside⟩
  · obtain ⟨_, e, he, hmark⟩ := d.marks_drawing base hm
    exact ⟨e, he, hmark.id⟩
  · obtain ⟨_, f, hf, hmark⟩ := d.marks_drawing base hm
    exact hmark.under s ((hsame f hf (hmark.id.symm.trans hid)).trans hs)

end Document

end FuncLift
