import FuncLift.Proofs.Lines

/-!
# Offsets and positions

In a text that ends with a newline the offsets below its size and the positions on its lines tell
each other, in the same order, and the column behind the last character of a line is the place of
its newline. A position that lies nowhere is clamped to one that lies on a line.
-/
namespace FuncLift

namespace LineTable

variable {t : LineTable} {ms ns : List Nat} {n base a b offset : Nat} {p : Position}

/-! ## Starts of lines -/

theorem base_le_of_mem_startsFrom (h : offset ∈ startsFrom base ns) : base ≤ offset := by
  induction ns generalizing base with
  | nil => cases h
  | cons n ns ih =>
    rcases List.mem_cons.1 h with rfl | h
    · exact Nat.le_refl _
    · have hle := ih h
      omega

theorem pairwise_startsFrom (base : Nat) (ns : List Nat) : (startsFrom base ns).Pairwise (· < ·) := by
  induction ns generalizing base with
  | nil => exact .nil
  | cons n ns ih =>
    rw [startsFrom]
    refine List.pairwise_cons.2 ⟨fun offset h => ?_, ih _⟩
    have hle := base_le_of_mem_startsFrom h
    omega

/-- Every line but the first starts behind a newline that is not the last character. -/
theorem mem_tail_startsFrom {cs : List Char} (hlast : cs.getLast? = some '\n') :
    offset ∈ (startsFrom base (splitLengths cs).1).tail ↔
      ∃ a b, cs = a ++ '\n' :: b ∧ b ≠ [] ∧ offset = base + (byteSize a + 1) := by
  induction cs generalizing base with
  | nil => cases hlast
  | cons c cs ih =>
    rw [splitLengths_cons]
    by_cases hcs : cs = []
    · subst hcs
      obtain rfl : c = '\n' := by simpa using hlast
      constructor
      · intro h
        cases h
      · rintro ⟨a, b, hsplit, hb, -⟩
        have hlength := congrArg List.length hsplit
        have hpos := List.length_pos_iff.2 hb
        simp only [List.length_cons, List.length_nil, List.length_append] at hlength
        omega
    · have hrest : cs.getLast? = some '\n' := by
        obtain ⟨d, ds, rfl⟩ := List.exists_cons_of_ne_nil hcs
        simpa [List.getLast?_cons] using hlast
      obtain ⟨m, ms, hlines⟩ := List.exists_cons_of_ne_nil (splitLengths_terminated hrest).2
      by_cases hc : c = '\n'
      · subst hc
        have htail := @ih (base + 1) hrest
        rw [hlines, startsFrom, List.tail_cons] at htail
        rw [if_pos rfl, startsFrom, List.tail_cons, hlines, startsFrom, List.mem_cons, htail]
        constructor
        · rintro (rfl | ⟨a, b, rfl, hb, rfl⟩)
          · exact ⟨[], cs, rfl, hcs, rfl⟩
          · refine ⟨'\n' :: a, b, rfl, hb, ?_⟩
            have hone : '\n'.utf8Size = 1 := rfl
            rw [byteSize, hone]
            omega
        · rintro ⟨a, b, hsplit, hb, rfl⟩
          cases a with
          | nil => exact .inl rfl
          | cons d a =>
            obtain ⟨rfl, rfl⟩ := List.cons.inj hsplit
            have hone : '\n'.utf8Size = 1 := rfl
            refine .inr ⟨a, b, rfl, hb, ?_⟩
            rw [byteSize, hone]
            omega
      · have htail := @ih (base + c.utf8Size) hrest
        rw [hlines, startsFrom, List.tail_cons] at htail
        rw [if_neg hc, hlines, startsFrom, List.tail_cons, ← Nat.add_assoc, htail]
        constructor
        · rintro ⟨a, b, rfl, hb, rfl⟩
          refine ⟨c :: a, b, rfl, hb, ?_⟩
          rw [byteSize]
          omega
        · rintro ⟨a, b, hsplit, hb, rfl⟩
          cases a with
          | nil => exact absurd (List.cons.inj hsplit).1 hc
          | cons d a =>
            obtain ⟨rfl, rfl⟩ := List.cons.inj hsplit
            refine ⟨a, b, rfl, hb, ?_⟩
            rw [byteSize]
            omega

theorem mem_starts_ofText {text : String} (hlast : text.toList.getLast? = some '\n') :
    offset ∈ (ofText text).starts ↔ offset = 0 ∨
      ∃ a b, text.toList = a ++ '\n' :: b ∧ b ≠ [] ∧ offset = byteSize a + 1 := by
  obtain ⟨n, ns, hlines⟩ := List.exists_cons_of_ne_nil (splitLengths_terminated hlast).2
  have htail : offset ∈ (startsFrom 0 (splitLengths text.toList).1).tail ↔
      ∃ a b, text.toList = a ++ '\n' :: b ∧ b ≠ [] ∧ offset = 0 + (byteSize a + 1) :=
    mem_tail_startsFrom hlast
  simp only [Nat.zero_add] at htail
  rw [← htail, starts, ofText, hlines, startsFrom, List.mem_cons, List.tail_cons]

theorem lengthsBetween_startsFrom (base : Nat) (ns : List Nat) :
    lengthsBetween (base + bytes ns) (startsFrom base ns) = ns := by
  induction ns generalizing base with
  | nil => rfl
  | cons n ns ih =>
    rw [bytes_cons, startsFrom]
    cases ns with
    | nil =>
      rw [startsFrom, lengthsBetween, bytes_nil]
      congr 1
      omega
    | cons m ns =>
      have hrest := ih (base + n + 1)
      rw [startsFrom] at hrest ⊢
      rw [lengthsBetween, show base + (n + 1 + bytes (m :: ns)) = base + n + 1 + bytes (m :: ns) by omega,
        hrest]
      congr 1
      omega

theorem ofStarts_starts (t : LineTable) : ofStarts t.starts t.size = t := by
  have h := lengthsBetween_startsFrom 0 t.lengths
  rw [Nat.zero_add] at h
  rw [ofStarts, starts, size, h]

/-! ## Positions of offsets -/

theorem locate_append {k : Nat} (hk : k ≤ n) :
    locate (ms ++ n :: ns) (bytes ms + k) = (ms.length, k) := by
  induction ms with
  | nil => rw [List.nil_append, bytes_nil, Nat.zero_add, locate, if_pos hk, List.length_nil]
  | cons m ms ih =>
    rw [List.cons_append, locate, bytes_cons, if_neg (by omega),
      show m + 1 + bytes ms + k - (m + 1) = bytes ms + k by omega, ih, List.length_cons]

theorem offset_eq_some_iff : t.offset? p = some offset ↔ offset < t.size ∧ t.position offset = p := by
  constructor
  · intro h
    refine ⟨offset_lt h, ?_⟩
    obtain ⟨before, n, after, hsplit, hline, hpos, hcolumn, rfl⟩ := offset_eq_some.1 h
    obtain ⟨line, column⟩ := p
    dsimp only at hline hpos hcolumn ⊢
    have hlocate : locate (before ++ n :: after) (bytes before + (column - 1)) =
        (before.length, column - 1) := locate_append (by omega)
    rw [position, hsplit, hlocate, Position.mk.injEq]
    omega
  · rintro ⟨hlt, rfl⟩
    exact offset_position hlt

theorem locate_lt_locate (h : a < b) : (locate ns a).1 < (locate ns b).1 ∨
    (locate ns a).1 = (locate ns b).1 ∧ (locate ns a).2 < (locate ns b).2 := by
  induction ns generalizing a b with
  | nil => exact .inr ⟨rfl, h⟩
  | cons n ns ih =>
    rw [locate, locate]
    by_cases hb : b ≤ n
    · rw [if_pos (by omega), if_pos hb]
      exact .inr ⟨rfl, h⟩
    · rw [if_neg hb]
      by_cases ha : a ≤ n
      · rw [if_pos ha]
        exact .inl (Nat.succ_pos _)
      · rw [if_neg ha]
        have hrest := @ih (a - (n + 1)) (b - (n + 1)) (by omega)
        dsimp only
        omega

theorem position_before (h : a < b) : (t.position a).before (t.position b) = true := by
  have hlocate : (locate t.lengths a).1 < (locate t.lengths b).1 ∨
      (locate t.lengths a).1 = (locate t.lengths b).1 ∧
        (locate t.lengths a).2 < (locate t.lengths b).2 := locate_lt_locate h
  rw [Position.before, Bool.or_eq_true, Bool.and_eq_true, beq_iff_eq, decide_eq_true_iff,
    decide_eq_true_iff]
  dsimp only [position]
  omega

/-! ## Clamped positions -/

theorem exists_offset_clamp (hne : t.lengths ≠ []) (p : Position) :
    ∃ offset, t.offset? (t.clamp p) = some offset := by
  have hsome (before : List Nat) (n : Nat) (after : List Nat) (column : Nat)
      (hsplit : t.lengths = before ++ n :: after) (hpos : 0 < column) (hcolumn : column ≤ n + 1) :
      ∃ offset, t.offset? ⟨before.length + 1, column⟩ = some offset :=
    ⟨_, offset_eq_some.2 ⟨before, n, after, hsplit, rfl, hpos, hcolumn, rfl⟩⟩
  have hfinal : t.lengths.getLast? = some (t.lengths.getLast hne) := List.getLast?_eq_some_getLast hne
  have hcount : t.count = t.lengths.length := rfl
  have hpos := List.length_pos_iff.2 hne
  rw [clamp, hfinal]
  dsimp only
  by_cases hline : p.line > t.count
  · rw [if_pos hline]
    have hsplit : t.lengths = t.lengths.dropLast ++ t.lengths.getLast hne :: [] :=
      (List.dropLast_concat_getLast hne).symm
    have hlength : t.lengths.dropLast.length + 1 = t.count := by
      rw [List.length_dropLast, hcount]
      omega
    rw [← hlength]
    exact hsome _ _ _ _ hsplit (Nat.succ_pos _) (Nat.le_refl _)
  · rw [if_neg hline]
    -- the line is there, whether it was given as zero or not
    obtain ⟨k, hk⟩ : ∃ k, max p.line 1 = k + 1 := ⟨max p.line 1 - 1, by omega⟩
    have hlt : k < t.lengths.length := by omega
    have hsplit : t.lengths = t.lengths.take k ++ t.lengths[k] :: t.lengths.drop (k + 1) := by
      rw [List.getElem_cons_drop, List.take_append_drop]
    have hlength : t.length? (k + 1) = some t.lengths[k] := List.getElem?_eq_getElem hlt
    have htake : (t.lengths.take k).length = k := by
      rw [List.length_take]
      omega
    have h := hsome _ _ _ (min (max p.column 1) (t.lengths[k] + 1)) hsplit (by omega) (by omega)
    rw [htake] at h
    rw [hk, hlength]
    exact h

/-- What the lines of a text say about offsets and positions. -/
structure Indexes (t : LineTable) (text : String) : Prop where
  size : t.size = text.utf8ByteSize
  /-- The starts are the beginning of the text and what follows a newline, the last one apart. -/
  starts : ∀ offset, offset ∈ t.starts ↔ offset = 0 ∨
    ∃ a b, text.toList = a ++ '\n' :: b ∧ b ≠ [] ∧ offset = byteSize a + 1
  ascending : t.starts.Pairwise (· < ·)
  rebuilds : ofStarts t.starts t.size = t
  /-- Offsets and positions tell each other. -/
  inverse : ∀ offset p, t.offset? p = some offset ↔ offset < t.size ∧ t.position offset = p
  monotone : ∀ a b, a < b → b < t.size → (t.position a).before (t.position b) = true
  clamped : ∀ p, ∃ offset, t.offset? (t.clamp p) = some offset
  kept : ∀ p offset, t.offset? p = some offset → t.clamp p = p

end LineTable

/-- Offsets and positions of a text that ends with a newline are in bijection. -/
theorem LineTable.indexes_ofText {text : String} (h : text.endsWith "\n" = true) :
    (LineTable.ofText text).Indexes text := by
  have hlast : text.toList.getLast? = some '\n' := by
    have hterminated := getLast_terminated text
    rwa [terminated, if_pos h] at hterminated
  exact {
    size := size_ofText hlast
    starts := fun _ => mem_starts_ofText hlast
    ascending := pairwise_startsFrom _ _
    rebuilds := ofStarts_starts _
    inverse := fun _ _ => offset_eq_some_iff
    monotone := fun _ _ hlt _ => position_before hlt
    clamped := exists_offset_clamp (splitLengths_terminated hlast).2
    kept := fun _ _ => clamp_eq }

/-- An empty line, a character of two bytes, and a column behind the last newline. -/
theorem LineTable.indexes_ofText_lines : "a\n\né\n".endsWith "\n" = true ∧
    (LineTable.ofText "a\n\né\n").starts = [0, 2, 3] ∧
    (LineTable.ofText "a\n\né\n").offset? ⟨2, 1⟩ = some 2 ∧
    (LineTable.ofText "a\n\né\n").clamp ⟨9, 9⟩ = ⟨3, 3⟩ ∧
    (LineTable.ofText "a\n\né\n").Indexes "a\n\né\n" := by
  have hends : "a\n\né\n".endsWith "\n" = true := by decide +kernel
  exact ⟨hends, by decide, by decide, by decide, indexes_ofText hends⟩

end FuncLift
