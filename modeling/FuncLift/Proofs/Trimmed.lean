import FuncLift.Selection
import FuncLift.Proofs.Lines

/-!
# Selections without the blanks around them

The range that a selection is shrunk to is told by the text alone: it lies in the selected range,
only blanks of that range lie outside of it, and unless it is empty it neither starts nor ends with a
blank. No two ranges are like that, empty ones apart. Shrinking a selection of a text gives such a
range, because a position of the text and its offset determine each other.
-/
namespace FuncLift

/-- A space, a tab or part of a line end stands at an offset. -/
def BlankAt (text : String) (offset : Nat) : Prop :=
  ∃ before c after, text.toList = before ++ c :: after ∧ byteSize before = offset ∧
    (c = ' ' ∨ c = '\t' ∨ c = '\n' ∨ c = '\r')

/-- What is left of a range without the blanks around it. -/
structure Span.Trims (text : String) (t whole : Span) : Prop where
  start_le : whole.start ≤ t.start
  ordered : t.start ≤ t.stop
  stop_le : t.stop ≤ whole.stop
  before : ∀ i, whole.start ≤ i → i < t.start → BlankAt text i
  after : ∀ i, t.stop ≤ i → i < whole.stop → BlankAt text i
  tight : t.start < t.stop → ¬BlankAt text t.start ∧ ¬BlankAt text (t.stop - 1)

namespace Span.Trims

variable {text : String} {whole s t : Span}

theorem ends_le (hs : s.Trims text whole) (ht : t.Trims text whole) (hne : s.start < s.stop) :
    t.start ≤ s.start ∧ s.stop ≤ t.stop := by
  obtain ⟨hfirst, hlast⟩ := hs.tight hne
  have hinside := hs.start_le
  have hinside' := hs.stop_le
  exact ⟨Nat.le_of_not_lt fun hlt => hfirst (ht.before s.start hinside hlt),
    Nat.le_of_not_lt fun hlt => hlast (ht.after (s.stop - 1) (by omega) (by omega))⟩

theorem unique (hs : s.Trims text whole) (ht : t.Trims text whole) :
    s = t ∨ (s.start = s.stop ∧ t.start = t.stop) := by
  have hsle := hs.ordered
  have htle := ht.ordered
  by_cases hsne : s.start < s.stop
  · have hle := hs.ends_le ht hsne
    have hge := ht.ends_le hs (by omega)
    have hstart : s.start = t.start := by omega
    have hstop : s.stop = t.stop := by omega
    left
    cases s
    cases t
    simp_all
  · by_cases htne : t.start < t.stop
    · have hge := ht.ends_le hs htne
      omega
    · right
      omega

end Span.Trims

namespace Selection

theorem blankBytes_cons (c : Char) (cs : List Char) : ∃ bs : List Bool,
    blankBytes (c :: cs) = bs ++ blankBytes cs ∧ bs.length = c.utf8Size ∧
      ∀ i, bs[i]? = some true ↔ i = 0 ∧ (c = ' ' ∨ c = '\t' ∨ c = '\n' ∨ c = '\r') := by
  rw [blankBytes]
  split
  · rename_i hc
    refine ⟨[true], rfl, ?_, fun i => ?_⟩
    · rcases hc with rfl | rfl | rfl | rfl <;> rfl
    · cases i <;> simp [hc]
  · rename_i hc
    exact ⟨_, rfl, by simp, fun i => by simp [List.getElem?_replicate, hc]⟩

theorem length_blankBytes (cs : List Char) : (blankBytes cs).length = byteSize cs := by
  induction cs with
  | nil => rfl
  | cons c cs ih =>
    obtain ⟨bs, hbytes, hlength, _⟩ := blankBytes_cons c cs
    rw [hbytes, List.length_append, hlength, ih, byteSize]

theorem getElem_blankBytes (cs : List Char) (i : Nat) : (blankBytes cs)[i]? = some true ↔
    ∃ before c after, cs = before ++ c :: after ∧ byteSize before = i ∧
      (c = ' ' ∨ c = '\t' ∨ c = '\n' ∨ c = '\r') := by
  induction cs generalizing i with
  | nil => simp [blankBytes]
  | cons d ds ih =>
    obtain ⟨bs, hbytes, hlength, hbs⟩ := blankBytes_cons d ds
    have hsize := d.utf8Size_pos
    rw [hbytes]
    by_cases hi : i < d.utf8Size
    · rw [List.getElem?_append_left (by omega), hbs]
      constructor
      · rintro ⟨rfl, hd⟩
        exact ⟨[], d, ds, rfl, rfl, hd⟩
      · rintro ⟨before, c, after, hsplit, hoffset, hc⟩
        cases before with
        | nil =>
          cases hsplit
          exact ⟨hoffset.symm, hc⟩
        | cons e before =>
          cases hsplit
          rw [byteSize] at hoffset
          omega
    · rw [List.getElem?_append_right (by omega), ih]
      constructor
      · rintro ⟨before, c, after, rfl, hoffset, hc⟩
        exact ⟨d :: before, c, after, rfl, by rw [byteSize]; omega, hc⟩
      · rintro ⟨before, c, after, hsplit, hoffset, hc⟩
        cases before with
        | nil =>
          rw [byteSize] at hoffset
          omega
        | cons e before =>
          cases hsplit
          rw [byteSize] at hoffset
          exact ⟨before, c, after, rfl, by omega, hc⟩

theorem length_takeWhile (bs : List Bool) : (∀ i, i < (bs.takeWhile id).length → bs[i]? = some true) ∧
    bs[(bs.takeWhile id).length]? ≠ some true := by
  induction bs with
  | nil => simp
  | cons b bs ih =>
    cases b with
    | false => simp
    | true =>
      refine ⟨fun i hi => ?_, by simpa using ih.2⟩
      cases i with
      | zero => rfl
      | succ i => exact ih.1 i (by simpa using hi)

theorem getElem_part {bs : List Bool} {first last i : Nat} (hi : i < last - first) :
    ((bs.drop first).take (last - first))[i]? = bs[first + i]? := by
  rw [List.getElem?_take_of_lt hi, List.getElem?_drop]

theorem length_part {bs : List Bool} {first last : Nat} (hlast : last ≤ bs.length) :
    ((bs.drop first).take (last - first)).length = last - first := by
  rw [List.length_take, List.length_drop]
  omega

theorem front_blanks {bs : List Bool} {first last : Nat} (hle : first ≤ last)
    (hlast : last ≤ bs.length) :
    let k := (((bs.drop first).take (last - first)).takeWhile id).length
    first + k ≤ last ∧ (∀ i, first ≤ i → i < first + k → bs[i]? = some true) ∧
      (first + k < last → bs[first + k]? ≠ some true) := by
  intro k
  obtain ⟨hset, hend⟩ := length_takeWhile ((bs.drop first).take (last - first))
  have hk : k ≤ last - first := by
    rw [← length_part hlast]
    exact (List.takeWhile_prefix _).length_le
  refine ⟨by omega, fun i hi hlt => ?_, fun hlt => ?_⟩
  · have hi' := hset (i - first) (by omega)
    rwa [getElem_part (by omega), Nat.add_sub_cancel' hi] at hi'
  · rwa [getElem_part (by omega)] at hend

theorem back_blanks {bs : List Bool} {first last : Nat} (hle : first ≤ last)
    (hlast : last ≤ bs.length) :
    let m := (((bs.drop first).take (last - first)).reverse.takeWhile id).length
    first + m ≤ last ∧ (∀ i, last - m ≤ i → i < last → bs[i]? = some true) ∧
      (first < last - m → bs[last - m - 1]? ≠ some true) := by
  intro m
  have hreverse (j : Nat) (hj : j < last - first) :
      ((bs.drop first).take (last - first)).reverse[j]? = bs[last - 1 - j]? := by
    rw [List.getElem?_reverse (by rw [length_part hlast]; exact hj), length_part hlast,
      getElem_part (by omega)]
    congr 1
    omega
  obtain ⟨hset, hend⟩ := length_takeWhile ((bs.drop first).take (last - first)).reverse
  have hm : m ≤ last - first := by
    rw [← length_part hlast, ← List.length_reverse]
    exact (List.takeWhile_prefix _).length_le
  refine ⟨by omega, fun i hi hlt => ?_, fun hlt => ?_⟩
  · have hi' := hset (last - 1 - i) (by omega)
    rwa [hreverse _ (by omega), show last - 1 - (last - 1 - i) = i by omega] at hi'
  · rwa [hreverse _ (by omega), show last - 1 - _ = last - m - 1 by omega] at hend

theorem trims_trim (text : String) {first last : Nat} (hle : first ≤ last)
    (hlast : last ≤ byteSize text.toList) :
    Span.Trims text ⟨(trim (blankBytes text.toList) first last).1,
      (trim (blankBytes text.toList) first last).2⟩ ⟨first, last⟩ := by
  rw [← length_blankBytes] at hlast
  obtain ⟨hfirst, hfront, hfrontEnd⟩ := front_blanks hle hlast
  obtain ⟨hlast', hback, hbackEnd⟩ := back_blanks hfirst hlast
  have hblank := getElem_blankBytes text.toList
  refine ⟨Nat.le_add_right _ _, Nat.le_sub_of_add_le hlast', Nat.sub_le _ _,
    fun i hi hlt => (hblank i).1 (hfront i hi hlt), fun i hi hlt => (hblank i).1 (hback i hi hlt),
    fun hne => ⟨fun h => ?_, fun h => ?_⟩⟩
  · exact hfrontEnd (Nat.lt_of_lt_of_le hne (Nat.sub_le _ _)) ((hblank _).2 h)
  · exact hbackEnd hne ((hblank _).2 h)

end Selection

theorem terminated_terminated (s : String) : terminated (terminated s) = terminated s :=
  terminated_eq_self (getLast_terminated s)

theorem Selection.trims_shrink {text : String} {s : Selection} {first last : Nat}
    (hterminated : terminated text = text)
    (hfirst : (LineTable.ofText text).offset? s.first = some first)
    (hlast : (LineTable.ofText text).offset? s.last = some last) (hle : first ≤ last) :
    ∃ t : Span, (LineTable.ofText text).offset? (s.shrink text).first = some t.start ∧
      (LineTable.ofText text).offset? (s.shrink text).last = some t.stop ∧
      t.Trims text ⟨first, last⟩ := by
  have hsize : (LineTable.ofText text).size = byteSize text.toList := by
    rw [LineTable.size_ofText (hterminated ▸ getLast_terminated text), byteSize_toList]
  have hinside := LineTable.offset_lt hlast
  have htrims := trims_trim text hle (by omega)
  have hstop : (trim (blankBytes text.toList) first last).2 ≤ last := htrims.stop_le
  have hordered : (trim (blankBytes text.toList) first last).1 ≤
      (trim (blankBytes text.toList) first last).2 := htrims.ordered
  refine ⟨_, ?_, ?_, htrims⟩
  all_goals
    simp only [shrink, hterminated, LineTable.clamp_eq hfirst, LineTable.clamp_eq hlast, hfirst,
      hlast]
    exact LineTable.offset_position (by omega)

end FuncLift
