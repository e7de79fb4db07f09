import FuncLift.Proofs.Literals
import FuncLift.Proofs.Placement

/-!
# How far a number is cut off

What is cut off as a number is never shorter than a literal at its place, unless the last dot of the
literal is the first of two. The character that ends an imaginary literal stands in none before.
-/
namespace FuncLift

namespace Number

variable {r : Radix} {lenient : Bool} {c d mark : Char} {cs m part scale t w : List Char}

theorem runLength_append (hw : ∀ c ∈ w, r.runs c = true) :
    runLength r (w ++ t) = w.length + runLength r t := by
  rw [runLength, List.takeWhile_append_of_pos hw, List.length_append]
  rfl

theorem runLength_stop (ht : ∀ c ∈ t.head?, r.runs c = false) : runLength r t = 0 := by
  cases t with
  | nil => rfl
  | cons c t => simp [runLength, ht c rfl]

theorem runs_of_mem (h : ∀ c ∈ w, c = '_' ∨ r.isDigit c = true) : ∀ c ∈ w, r.runs c = true := by
  intro c hc
  rcases h c hc with rfl | hdigit
  · rfl
  · exact runs_of_isDigit hdigit

theorem runs_dot (r : Radix) : r.runs '.' = false := by cases r <;> decide

theorem runLength_le_mantissaLength : runLength r cs ≤ mantissaLength r cs := by
  unfold mantissaLength
  dsimp only
  split
  · exact Nat.le_refl _
  · omega
  · exact Nat.le_refl _

theorem mantissaLength_point (hw : ∀ c ∈ w, r.runs c = true) (hpart : ∀ c ∈ part, r.runs c = true)
    (hdot : part = [] → t.head? ≠ some '.') :
    mantissaLength r (w ++ '.' :: part ++ t) = w.length + 1 + part.length + runLength r t := by
  have hrun : runLength r (w ++ '.' :: part ++ t) = w.length := by
    rw [List.append_assoc, runLength_append hw, runLength_stop, Nat.add_zero]
    rintro c ⟨⟩
    exact runs_dot r
  have hdrop : (w ++ '.' :: part ++ t).drop w.length = '.' :: (part ++ t) := by simp
  have hnext : (part ++ t).head? ≠ some '.' := by
    cases part with
    | nil => exact hdot rfl
    | cons c part =>
      rintro ⟨⟩
      simp [runs_dot] at hpart
  rw [mantissaLength, hrun, hdrop]
  split
  · rename_i rest hrest
    rw [(List.cons.inj hrest).2] at hnext
    exact absurd rfl hnext
  · rename_i rest _ hrest
    rw [← (List.cons.inj hrest).2, runLength_append hpart]
    omega
  · rename_i hrest
    exact absurd rfl (hrest _)

/-- What may be cut off in front of an exponent. -/
inductive Mantissa (r : Radix) : List Char → Prop where
  | whole {w : List Char} (hw : ∀ c ∈ w, r.runs c = true) : Mantissa r w
  | point {w part : List Char} (hw : ∀ c ∈ w, r.runs c = true) (hpart : ∀ c ∈ part, r.runs c = true) :
      Mantissa r (w ++ '.' :: part)

/-- A mantissa is cut off whole, unless its last dot is the first of two. -/
theorem Mantissa.length_le (h : Mantissa r m) (hdot : m.getLast? = some '.' → t.head? ≠ some '.') :
    m.length ≤ mantissaLength r (m ++ t) := by
  cases h with
  | whole hw =>
    have hrun := runLength_append (t := t) hw
    have hle : runLength r (m ++ t) ≤ mantissaLength r (m ++ t) := runLength_le_mantissaLength
    omega
  | point hw hpart =>
    rw [mantissaLength_point hw hpart fun hempty => hdot (by simp [hempty]), List.length_append,
      List.length_cons]
    omega

/-- Nothing else is cut off with it in front of the mark of an exponent. -/
theorem Mantissa.length_eq (h : Mantissa r m) (ht : ∀ c ∈ t.head?, r.runs c = false ∧ c ≠ '.') :
    mantissaLength r (m ++ t) = m.length := by
  have hstop : runLength r t = 0 := runLength_stop fun c hc => (ht c hc).1
  have hdot : t.head? ≠ some '.' := fun hdot => (ht '.' hdot).2 rfl
  cases h with
  | whole hw =>
    have hrun : runLength r (m ++ t) = m.length := by rw [runLength_append hw, hstop, Nat.add_zero]
    rw [mantissaLength, hrun, List.drop_left]
    split
    · exact absurd rfl hdot
    · exact absurd rfl hdot
    · rfl
  | point hw hpart =>
    rw [mantissaLength_point hw hpart fun _ => hdot, hstop, List.length_append, List.length_cons]
    omega

theorem Exponent.length_eq (h : Exponent lenient r scale) :
    exponentLength r (scale ++ t) = scale.length + runLength .decimal t := by
  obtain @⟨mark, _, hmark, hpower⟩ := h
  rw [List.cons_append]
  unfold exponentLength
  dsimp only
  rw [if_pos hmark]
  cases hpower with
  | @plain cs h =>
    have hruns := runs_of_mem h.mem
    obtain ⟨c, hc, -⟩ := h.any_isDigit
    obtain ⟨d, ds, rfl⟩ := List.exists_cons_of_ne_nil (List.ne_nil_of_mem hc)
    have hd := hruns d List.mem_cons_self
    split
    · rename_i hcs
      obtain ⟨rfl, -⟩ := List.cons.inj hcs
      cases hd
    · rename_i hcs
      obtain ⟨rfl, -⟩ := List.cons.inj hcs
      cases hd
    · rw [runLength_append hruns, List.length_cons (a := mark)]
      omega
  | signed hsign h =>
    have hlength := runLength_append (t := t) (runs_of_mem h.mem)
    rcases hsign with rfl | rfl
    · simp only [List.cons_append, List.length_cons, hlength]
      omega
    · simp only [List.cons_append, List.length_cons, hlength]
      omega

theorem Exponent.head (h : Exponent lenient r scale) :
    ∀ c ∈ (scale ++ t).head?, r.runs c = false ∧ c ≠ '.' := by
  obtain ⟨hmark, -⟩ := h
  rintro c ⟨⟩
  exact ⟨(mark_apart hmark).1, (mark_apart hmark).2.1⟩

theorem Mantissa.le_lengthAfter (h : Mantissa r m) (hscale : scale = [] ∨ Exponent lenient r scale)
    (hdot : (m ++ scale).getLast? = some '.' → t.head? ≠ some '.') :
    (m ++ scale).length ≤
      lengthAfter r (mantissaLength r (m ++ scale ++ t)) (m ++ scale ++ t) := by
  rcases hscale with rfl | hscale
  · rw [List.append_nil] at hdot ⊢
    exact Nat.le_trans (h.length_le hdot) (Nat.le_add_right _ _)
  · rw [List.append_assoc, h.length_eq hscale.head, lengthAfter, List.drop_left, hscale.length_eq,
      List.length_append]
    omega

theorem cutLength_pos (hc : Radix.decimal.isDigit c = true) : 1 ≤ cutLength (c :: cs) := by
  have hrun : 1 ≤ mantissaLength .decimal (c :: cs) := by
    have hone := runLength_append (r := .decimal) (w := [c]) (t := cs) (by simpa using runs_of_isDigit hc)
    have hle : runLength .decimal (c :: cs) ≤ mantissaLength .decimal (c :: cs) :=
      runLength_le_mantissaLength
    rw [List.singleton_append, List.length_singleton] at hone
    omega
  unfold cutLength
  split
  · simp [lengthAfter]
    omega
  · rename_i hcs
    rw [hcs] at hrun
    split
    · omega
    · dsimp only [lengthAfter]
      omega
  · dsimp only [lengthAfter]
    omega

theorem cutLength_decimal (hc : c ≠ '.') (hd : Radix.ofMark? d = none) :
    cutLength (c :: d :: cs) =
      lengthAfter .decimal (mantissaLength .decimal (c :: d :: cs)) (c :: d :: cs) := by
  unfold cutLength
  split
  · rename_i hcs
    exact absurd (List.cons.inj hcs).1 hc
  · rename_i hcs
    simp only [List.cons.injEq] at hcs
    obtain ⟨rfl, rfl, rfl⟩ := hcs
    rw [hd]
  · rfl

theorem Mantissa.le_cutLength (h : Mantissa .decimal m)
    (hscale : scale = [] ∨ Exponent lenient .decimal scale)
    (hhead : ∃ c ∈ m.head?, Radix.decimal.isDigit c = true)
    (hmarks : ∀ c ∈ m ++ scale, Radix.ofMark? c = none)
    (hdot : (m ++ scale).getLast? = some '.' → t.head? ≠ some '.') :
    (m ++ scale).length ≤ cutLength (m ++ scale ++ t) := by
  obtain ⟨c, hc, hdigit⟩ := hhead
  obtain ⟨ds, rfl⟩ := List.head?_eq_some_iff.1 hc
  have hlength := h.le_lengthAfter hscale hdot
  rw [List.cons_append] at hmarks hlength ⊢
  generalize ds ++ scale = w at hmarks hlength ⊢
  cases w with
  | nil => exact cutLength_pos hdigit
  | cons d w =>
    have hne : c ≠ '.' := by
      rintro rfl
      cases hdigit
    rw [List.cons_append, List.cons_append, cutLength_decimal hne (hmarks d (by simp))]
    exact hlength

theorem le_cutLength_fraction (hpart : ∀ c ∈ part, Radix.decimal.runs c = true)
    (hscale : scale = [] ∨ Exponent lenient .decimal scale) :
    ('.' :: part ++ scale).length ≤ cutLength ('.' :: part ++ scale ++ t) := by
  have hrun := runLength_append (t := scale ++ t) hpart
  rw [List.cons_append, List.cons_append, List.append_assoc, cutLength, hrun]
  rcases hscale with rfl | hscale
  · simp only [lengthAfter, List.append_nil, List.length_cons]
    omega
  · have hstop : runLength .decimal (scale ++ t) = 0 := runLength_stop fun c hc => (hscale.head c hc).1
    have hdrop : ('.' :: (part ++ (scale ++ t))).drop (1 + part.length) = scale ++ t := by
      rw [Nat.add_comm, List.drop_succ_cons, List.drop_left]
    rw [hstop, Nat.add_zero, lengthAfter, hdrop, hscale.length_eq, List.length_cons, List.length_append]
    omega

theorem le_cutLength_marked (hmark : Radix.ofMark? mark = some r) (h : Mantissa r m)
    (hscale : scale = [] ∨ Exponent lenient r scale)
    (hdot : (m ++ scale).getLast? = some '.' → t.head? ≠ some '.') :
    ('0' :: mark :: (m ++ scale)).length ≤ cutLength ('0' :: mark :: (m ++ scale ++ t)) := by
  have hlength := h.le_lengthAfter hscale hdot
  rw [cutLength, hmark]
  simp only [List.length_cons]
  omega

theorem HexMantissa.mantissa (h : HexMantissa lenient m) : Mantissa .hex m := by
  cases h with
  | whole h => exact .whole (runs_of_mem h.mem)
  | point h hpart =>
    refine .point (runs_of_mem h.mem) ?_
    rcases hpart with rfl | hpart
    · simp
    · exact runs_of_mem hpart.mem
  | fraction hpart => exact .point (w := []) (by simp) (runs_of_mem hpart.mem)

/-- What starts with a digit and goes on with decimal digits and underscores is cut off whole. -/
theorem le_cutLength_whole (hc : Radix.decimal.isDigit c = true)
    (hcs : ∀ d ∈ cs, d = '_' ∨ Radix.decimal.isDigit d = true) :
    (c :: cs).length ≤ cutLength (c :: cs ++ t) := by
  have hall : ∀ d ∈ c :: cs, d = '_' ∨ Radix.decimal.isDigit d = true :=
    List.forall_mem_cons.2 ⟨.inr hc, hcs⟩
  have hlast : (c :: cs ++ []).getLast? = some '.' → t.head? ≠ some '.' := by
    intro hlast
    rw [List.append_nil] at hlast
    rcases hall _ (List.mem_of_getLast? hlast) with h | h
    · cases h
    · cases h
  have hscale : ([] : List Char) = [] ∨ Exponent true .decimal [] := .inl rfl
  have h := (Mantissa.whole (runs_of_mem hall)).le_cutLength hscale ⟨c, rfl, hc⟩
    (unmarked_of_mem (by rwa [List.append_nil])) hlast
  rwa [List.append_nil] at h

theorem Integer.le_cutLength (h : Integer cs) : cs.length ≤ cutLength (cs ++ t) := by
  have hzero := isDigit_zero .decimal
  cases h with
  | zero => exact le_cutLength_whole hzero (by simp)
  | decimal hc _ h =>
    refine le_cutLength_whole hc ?_
    rcases h with rfl | h
    · simp
    · exact h.mem
  | octal h =>
    exact le_cutLength_whole hzero fun d hd => (h.mem d hd).imp_right (isDigit_decimal (by decide))
  | @marked r mark cs hmark h =>
    have hlast : (cs ++ []).getLast? = some '.' → t.head? ≠ some '.' := by
      intro hlast
      rw [List.append_nil] at hlast
      have hruns := runs_of_mem h.mem _ (List.mem_of_getLast? hlast)
      rw [runs_dot] at hruns
      cases hruns
    have hscale : ([] : List Char) = [] ∨ Exponent true r [] := .inl rfl
    have hlength := le_cutLength_marked hmark (.whole (runs_of_mem h.mem)) hscale hlast
    rwa [List.append_nil] at hlength

theorem Floating.le_cutLength (h : Floating lenient cs)
    (hdot : cs.getLast? = some '.' → t.head? ≠ some '.') : cs.length ≤ cutLength (cs ++ t) := by
  have hhead {w v : List Char} (hw : Digits .decimal w) :
      ∃ c ∈ (w ++ v).head?, Radix.decimal.isDigit c = true := by
    obtain ⟨c, ds, rfl, hc⟩ := hw.head
    exact ⟨c, rfl, hc⟩
  cases h with
  | decimal h =>
    have hmarks := h.unmarked
    cases h with
    | @point whole part scale hwhole hpart hscale =>
      refine (Mantissa.point (runs_of_mem hwhole.mem) ?_).le_cutLength hscale (hhead hwhole) hmarks hdot
      rcases hpart with rfl | hpart
      · simp
      · exact runs_of_mem hpart.mem
    | scaled hwhole hscale =>
      refine (Mantissa.whole (runs_of_mem hwhole.mem)).le_cutLength (.inr hscale) ?_ hmarks hdot
      simpa using hhead (v := []) hwhole
    | fraction hpart hscale => exact le_cutLength_fraction (runs_of_mem hpart.mem) hscale
  | @hex mark m scale hmark h hscale =>
    have hne : m ++ scale ≠ [] := by
      obtain ⟨_, _⟩ := hscale
      simp
    have hlast : (m ++ scale).getLast? = some '.' → t.head? ≠ some '.' := by
      intro hlast
      refine hdot ?_
      rwa [List.getLast?_cons_cons, List.getLast?_cons_of_ne_nil hne]
    exact le_cutLength_marked hmark h.mantissa (.inr hscale) hlast

/-- A literal, or what may stand before the `i` of one, is cut off whole unless its last dot is the
first of two. -/
theorem Imaginary.le_cutLength (h : Imaginary lenient cs)
    (hdot : cs.getLast? = some '.' → t.head? ≠ some '.') : cs.length ≤ cutLength (cs ++ t) := by
  cases h with
  | digits h =>
    have hmem := h.mem
    obtain ⟨c, ds, rfl, hc⟩ := h.head
    exact le_cutLength_whole hc (List.forall_mem_cons.1 hmem).2
  | integer h => exact h.le_cutLength
  | floating h => exact h.le_cutLength hdot
  | loose _ hc h => exact le_cutLength_whole hc h

theorem foreign_i : Lexeme.Foreign 'i' := by
  refine ⟨?_, ?_, ?_, ?_⟩
  · rintro ⟨⟩ <;> decide
  · rintro ⟨⟩ <;> decide
  · decide
  · decide

theorem Imaginary.not_mem (h : Imaginary lenient cs) : 'i' ∉ cs := by
  have hlength := h.le_cutLength (t := []) (by simp)
  have hlacks : Lexeme.Lacks 'i' (cutLength cs) cs := foreign_i.lacks_cut
  rwa [Lexeme.Lacks, List.take_of_length_le (by simpa using hlength)] at hlacks

/-- No literal is longer than what is cut off, unless its last dot is the first of two. -/
theorem Literal.le_numberLength (h : Literal lenient cs)
    (hdot : cs.getLast? = some '.' → t.head? ≠ some '.') :
    cs.length ≤ Lexeme.numberLength (cs ++ t) := by
  have hle {ds : List Char} : cutLength ds ≤ Lexeme.numberLength ds := by
    unfold Lexeme.numberLength
    dsimp only
    split
    · omega
    · exact Nat.le_refl _
  cases h with
  | integer h => exact Nat.le_trans h.le_cutLength hle
  | floating h => exact Nat.le_trans (h.le_cutLength hdot) hle
  | @imaginary q h =>
    rw [List.append_assoc, List.singleton_append]
    have hlength := h.le_cutLength (t := 'i' :: t) (by simp)
    have hlacks : Lexeme.Lacks 'i' (cutLength (q ++ 'i' :: t)) (q ++ 'i' :: t) := foreign_i.lacks_cut
    have hcut : cutLength (q ++ 'i' :: t) = q.length := by
      refine Nat.le_antisymm (Nat.le_of_not_lt fun hlt => hlacks ?_) hlength
      obtain ⟨n, hn⟩ := Nat.exists_eq_add_of_lt hlt
      rw [hn, List.take_append]
      simp [Nat.add_assoc]
    rw [Lexeme.numberLength, hcut]
    simp

end Number

end FuncLift
