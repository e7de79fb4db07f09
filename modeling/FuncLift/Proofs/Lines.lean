import FuncLift.Lift.Layout
import FuncLift.Proofs.Placement

/-!
# The arithmetic of lines

The lines of a text and the rest after them add up to the text. An offset inside of it lies on one
of the lines, and putting other lines between two offsets changes the size by the difference.
-/
namespace FuncLift

theorem splitLengths_cons (c : Char) (cs : List Char) :
    splitLengths (c :: cs) =
      if c = '\n' then (0 :: (splitLengths cs).1, (splitLengths cs).2)
      else match (splitLengths cs).1 with
        | [] => ([], c.utf8Size + (splitLengths cs).2)
        | n :: ns => ((c.utf8Size + n) :: ns, (splitLengths cs).2) := rfl

namespace LineTable

@[simp] theorem bytes_nil : bytes [] = 0 := rfl

@[simp] theorem bytes_cons (n : Nat) (ns : List Nat) : bytes (n :: ns) = n + 1 + bytes ns := rfl

@[simp] theorem bytes_append (ms ns : List Nat) : bytes (ms ++ ns) = bytes ms + bytes ns := by
  induction ms with
  | nil => simp
  | cons m ms ih => simp [ih, Nat.add_assoc]

theorem bytes_splitLengths (cs : List Char) :
    bytes (splitLengths cs).1 + (splitLengths cs).2 = byteSize cs := by
  induction cs with
  | nil => rfl
  | cons c cs ih =>
    rw [splitLengths_cons, byteSize]
    split
    · rename_i hc
      have : '\n'.utf8Size = 1 := rfl
      simp only [bytes_cons, hc]
      omega
    · split
      · rename_i hnil
        simp only [hnil, bytes_nil] at ih ⊢
        omega
      · rename_i n ns hcons
        simp only [hcons, bytes_cons] at ih ⊢
        omega

theorem splitLengths_terminated {cs : List Char} (h : cs.getLast? = some '\n') :
    (splitLengths cs).2 = 0 ∧ (splitLengths cs).1 ≠ [] := by
  induction cs with
  | nil => simp at h
  | cons c cs ih =>
    rw [splitLengths_cons]
    cases cs with
    | nil =>
      have hc : c = '\n' := by simpa using h
      simp [hc, splitLengths]
    | cons d ds =>
      obtain ⟨h0, hne⟩ := ih (by simpa [List.getLast?_cons] using h)
      split
      · exact ⟨h0, by simp⟩
      · split
        · exact absurd ‹_› hne
        · exact ⟨h0, by simp⟩

theorem splitLengths_unterminated {cs : List Char} {c : Char}
    (h : cs.getLast? = some c) (hc : c ≠ '\n') : (splitLengths cs).2 ≠ 0 := by
  induction cs with
  | nil => cases h
  | cons x xs ih =>
    rw [splitLengths_cons]
    cases xs with
    | nil =>
      have hx : x = c := by simpa using h
      have hpos := x.utf8Size_pos
      rw [if_neg (hx ▸ hc)]
      exact Nat.ne_of_gt (Nat.lt_of_lt_of_le hpos (Nat.le_add_right _ _))
    | cons y ys =>
      have hrest := ih (by simpa [List.getLast?_cons] using h)
      split
      · exact hrest
      · split
        · dsimp only
          omega
        · exact hrest

theorem splitLengths_newline (a b : List Char) : (splitLengths (a ++ '\n' :: b)).1 =
    (splitLengths (a ++ ['\n'])).1 ++ (splitLengths b).1 := by
  induction a with
  | nil => rfl
  | cons c a ih =>
    have hne : (splitLengths (a ++ ['\n'])).1 ≠ [] := (splitLengths_terminated (by simp)).2
    obtain ⟨n, ns, hns⟩ := List.exists_cons_of_ne_nil hne
    rw [List.cons_append, List.cons_append, splitLengths_cons, splitLengths_cons, ih, hns]
    split <;> rfl

theorem size_ofText {text : String} (h : text.toList.getLast? = some '\n') :
    (ofText text).size = text.utf8ByteSize := by
  have hsum := bytes_splitLengths text.toList
  rw [(splitLengths_terminated h).1, byteSize_toList] at hsum
  exact hsum

/-- What an offset inside of the lines is made of: whole lines, and a part of the next line. -/
theorem locate_eq {ns : List Nat} {offset : Nat} (h : offset < bytes ns) :
    ∃ before n after, ns = before ++ n :: after ∧ (locate ns offset).1 = before.length ∧
      (locate ns offset).2 ≤ n ∧ bytes before + (locate ns offset).2 = offset := by
  induction ns generalizing offset with
  | nil => simp at h
  | cons n ns ih =>
    rw [bytes_cons] at h
    rw [locate]
    split
    · rename_i hle
      exact ⟨[], n, ns, rfl, rfl, hle, by simp⟩
    · obtain ⟨before, m, after, h1, h2, h3, h4⟩ := @ih (offset - (n + 1)) (by omega)
      refine ⟨n :: before, m, after, by simp [h1], by simp [h2], h3, ?_⟩
      simp only [bytes_cons]
      omega

theorem locate_lt {xs ys : List Nat} {offset : Nat} (h : offset < bytes xs) :
    (locate (xs ++ ys) offset).1 < xs.length := by
  induction xs generalizing offset with
  | nil => simp at h
  | cons n xs ih =>
    rw [bytes_cons] at h
    rw [List.cons_append, locate, List.length_cons]
    split
    · exact Nat.succ_pos _
    · exact Nat.succ_lt_succ (ih (by omega))

theorem le_locate {xs ys : List Nat} {offset : Nat} (h : bytes xs ≤ offset) :
    xs.length ≤ (locate (xs ++ ys) offset).1 := by
  induction xs generalizing offset with
  | nil => exact Nat.zero_le _
  | cons n xs ih =>
    rw [bytes_cons] at h
    rw [List.cons_append, locate, if_neg (by omega), List.length_cons]
    exact Nat.succ_le_succ (ih (by omega))

theorem lineOf_lt {xs ys : List Nat} {a b : Nat} (ha : a < bytes xs) (hb : bytes xs ≤ b) :
    lineOf ⟨xs ++ ys⟩ a < lineOf ⟨xs ++ ys⟩ b :=
  Nat.succ_lt_succ (Nat.lt_of_lt_of_le (locate_lt ha) (le_locate hb))

/-- What an offset of a position is made of: the lines before, and the columns before. -/
theorem offset_eq_some {t : LineTable} {p : Position} {offset : Nat} :
    t.offset? p = some offset ↔ ∃ before n after, t.lengths = before ++ n :: after ∧
      p.line = before.length + 1 ∧ 0 < p.column ∧ p.column ≤ n + 1 ∧
      offset = bytes before + (p.column - 1) := by
  unfold offset?
  constructor
  · intro h
    split at h
    · cases h
    · rename_i line hline
      split at h
      · cases h
      · rename_i n hn
        split at h
        · cases h
        · cases h
          obtain ⟨hlt, hget⟩ := List.getElem?_eq_some_iff.1 hn
          refine ⟨t.lengths.take line, n, t.lengths.drop (line + 1), ?_, ?_, by omega, by omega, rfl⟩
          · rw [← hget, List.getElem_cons_drop, List.take_append_drop]
          · rw [hline, List.length_take, Nat.min_eq_left (Nat.le_of_lt hlt)]
  · rintro ⟨before, n, after, hsplit, hline, hpos, hcolumn, rfl⟩
    rw [hline, hsplit]
    simp only [List.getElem?_append_right (Nat.le_refl _), Nat.sub_self, List.getElem?_cons_zero,
      List.take_left]
    rw [if_neg (by omega)]

theorem offset_lt {t : LineTable} {p : Position} {offset : Nat} (h : t.offset? p = some offset) :
    offset < t.size := by
  obtain ⟨before, n, after, hsplit, _, hpos, hcolumn, rfl⟩ := offset_eq_some.1 h
  rw [size, hsplit, bytes_append, bytes_cons]
  omega

theorem clamp_eq {t : LineTable} {p : Position} {offset : Nat} (h : t.offset? p = some offset) :
    t.clamp p = p := by
  obtain ⟨before, n, after, hsplit, hline, hpos, hcolumn, _⟩ := offset_eq_some.1 h
  obtain ⟨line, column⟩ := p
  dsimp only at hline hpos hcolumn
  subst hline
  have hlength : t.length? (before.length + 1) = some n := by
    simp [length?, hsplit]
  unfold clamp
  split
  · rename_i hnone
    simp [hsplit] at hnone
  · rw [if_neg (by simp [count, hsplit])]
    have hmax : max (before.length + 1) 1 = before.length + 1 := by omega
    simp only [hmax, hlength, Option.getD_some, Position.mk.injEq, true_and]
    omega

theorem offset_position {t : LineTable} {offset : Nat} (h : offset < t.size) :
    t.offset? (t.position offset) = some offset := by
  obtain ⟨before, n, after, hsplit, hline, hrest, hsum⟩ := locate_eq h
  refine offset_eq_some.2 ⟨before, n, after, hsplit, ?_, Nat.succ_pos _, Nat.succ_le_succ hrest, ?_⟩
  · exact congrArg (· + 1) hline
  · exact hsum.symm

theorem dropBlankEnd_append_cons {n : Nat} (hn : n ≠ 0) (ms ns : List Nat) :
    dropBlankEnd ⟨ms ++ n :: ns⟩ = ⟨ms ++ n :: (dropBlankEnd ⟨ns⟩).lengths⟩ := by
  simp [dropBlankEnd, dropWhile_append_cons (p := (· == 0)) (by simpa using hn)]

theorem size_dropBlankEnd_append_le (ms ns : List Nat) :
    (dropBlankEnd ⟨ms ++ ns⟩).size ≤ bytes ms + (dropBlankEnd ⟨ns⟩).size := by
  have hdropped : bytes (ms.reverse.dropWhile (· == 0)).reverse ≤ bytes ms := by
    have hsplit : (ms.reverse.dropWhile (· == 0)).reverse ++
        (ms.reverse.takeWhile (· == 0)).reverse = ms := by
      rw [← List.reverse_append, List.takeWhile_append_dropWhile, List.reverse_reverse]
    have hsum := congrArg bytes hsplit
    rw [bytes_append] at hsum
    omega
  unfold dropBlankEnd size
  rw [List.reverse_append, List.dropWhile_append]
  split
  · exact Nat.le_trans hdropped (Nat.le_add_right _ _)
  · apply Nat.le_of_eq
    rw [List.reverse_append, List.reverse_reverse, bytes_append]

theorem size_dropBlankEnd_le (t : LineTable) : t.dropBlankEnd.size ≤ t.size := by
  have h := size_dropBlankEnd_append_le t.lengths []
  rwa [List.append_nil] at h

/-- A character that is no newline stands on a line that is not empty. -/
theorem exists_line {a b : List Char} {c : Char} (hc : c ≠ '\n')
    (h : (a ++ c :: b).getLast? = some '\n') : ∃ xs n ys,
      (splitLengths (a ++ c :: b)).1 = xs ++ n :: ys ∧ n ≠ 0 ∧ byteSize (a ++ [c]) ≤ bytes xs + n := by
  induction a with
  | nil =>
    have hb : b.getLast? = some '\n' := by
      cases b with
      | nil => exact absurd (by simpa using h) hc
      | cons d ds => simpa [List.getLast?_cons] using h
    obtain ⟨n, ns, hns⟩ := List.exists_cons_of_ne_nil (splitLengths_terminated hb).2
    have hpos := c.utf8Size_pos
    refine ⟨[], c.utf8Size + n, ns, ?_, by omega, ?_⟩
    · rw [List.nil_append, splitLengths_cons, if_neg hc, hns]
      rfl
    · simp only [List.nil_append, byteSize, bytes_nil]
      omega
  | cons d a ih =>
    have htail : (a ++ c :: b).getLast? = some '\n' := by
      simpa [List.getLast?_cons] using h
    obtain ⟨xs, n, ys, hsplit, hn, hle⟩ := ih htail
    rw [List.cons_append, splitLengths_cons, hsplit, List.cons_append, byteSize]
    by_cases hd : d = '\n'
    · have hone : '\n'.utf8Size = 1 := rfl
      rw [if_pos hd, hd, hone]
      refine ⟨0 :: xs, n, ys, rfl, hn, ?_⟩
      rw [bytes_cons]
      omega
    · rw [if_neg hd]
      cases xs with
      | nil =>
        refine ⟨[], d.utf8Size + n, ys, rfl, by omega, ?_⟩
        rw [bytes_nil] at hle ⊢
        omega
      | cons x xs =>
        refine ⟨(d.utf8Size + x) :: xs, n, ys, rfl, hn, ?_⟩
        rw [bytes_cons] at hle ⊢
        omega

/-- The empty lines at the end of a text begin where its last character that is no newline ends. -/
theorem inked_le_dropBlankEnd {text : String} (hlast : text.toList.getLast? = some '\n')
    (hink : 1 < byteSize (inked text.toList)) :
    byteSize (inked text.toList) ≤ (ofText text).dropBlankEnd.size := by
  obtain ⟨rest, hrest⟩ := isPrefix_inked hlast
  rcases List.eq_nil_or_concat (text.toList.reverse.dropWhile (· == '\n')).reverse with hnil | ⟨a, c, hfront⟩
  · rw [inked, hnil] at hink
    exact absurd hink (by decide)
  · have hc : c ≠ '\n' := by
      have hhead : (text.toList.reverse.dropWhile (· == '\n')).head? = some c := by
        rw [← List.getLast?_reverse, hfront]
        simp
      have := List.head?_dropWhile_not (· == '\n') text.toList.reverse
      rw [hhead] at this
      simpa using this
    have hinked : inked text.toList = a ++ [c] ++ ['\n'] := by rw [inked, hfront]; simp
    have htext : text.toList = a ++ c :: ('\n' :: rest) := by rw [← hrest, hinked]; simp
    rw [htext] at hlast
    obtain ⟨xs, n, ys, hlines, hn, hle⟩ := exists_line hc hlast
    have hsize : (ofText text).dropBlankEnd.size =
        bytes xs + (n + 1 + bytes (dropBlankEnd ⟨ys⟩).lengths) := by
      rw [ofText, htext, hlines, dropBlankEnd_append_cons hn, size, bytes_append, bytes_cons]
    have hone : byteSize ['\n'] = 1 := rfl
    rw [hinked, byteSize_append _ ['\n'], hone, hsize]
    omega

end LineTable

end FuncLift
