import FuncLift.Token.Number

/-!
# Number literals

The grammar of number literals, and the judging of a text by it. The judging is lenient in three
places, and the grammar says which when it is asked to be: an underscore may lead the digits of an
exponent, and those behind the dot of a number of base sixteen, and in front of a final `i` underscores
may stand anywhere behind the first digit.
-/
namespace FuncLift

namespace Number

/-- Digits of a base with single underscores between them. -/
inductive Digits (r : Radix) : List Char → Prop where
  | one {c : Char} (hc : r.isDigit c = true) : Digits r [c]
  | next {c : Char} {cs : List Char} (hc : r.isDigit c = true) (h : Digits r cs) : Digits r (c :: cs)
  | apart {c : Char} {cs : List Char} (hc : r.isDigit c = true) (h : Digits r cs) :
      Digits r (c :: '_' :: cs)

/-- Digits that an underscore may lead, if `lead` says so. -/
inductive Run (lead : Bool) (r : Radix) : List Char → Prop where
  | digits {cs : List Char} (h : Digits r cs) : Run lead r cs
  | led {cs : List Char} (hlead : lead = true) (h : Digits r cs) : Run lead r ('_' :: cs)

/-- Integer literals. -/
inductive Integer : List Char → Prop where
  | zero : Integer ['0']
  | decimal {c : Char} {cs : List Char} (hc : Radix.decimal.isDigit c = true) (hzero : c ≠ '0')
      (h : cs = [] ∨ Run true .decimal cs) : Integer (c :: cs)
  | octal {cs : List Char} (h : Run true .octal cs) : Integer ('0' :: cs)
  | marked {r : Radix} {mark : Char} {cs : List Char} (hmark : Radix.ofMark? mark = some r)
      (h : Run true r cs) : Integer ('0' :: mark :: cs)

/-- The part of an exponent behind its mark. -/
inductive Power (lenient : Bool) : List Char → Prop where
  | plain {cs : List Char} (h : Run lenient .decimal cs) : Power lenient cs
  | signed {sign : Char} {cs : List Char} (hsign : sign = '+' ∨ sign = '-')
      (h : Run lenient .decimal cs) : Power lenient (sign :: cs)

/-- An exponent with the mark of its base. -/
inductive Exponent (lenient : Bool) (r : Radix) : List Char → Prop where
  | intro {mark : Char} {cs : List Char} (hmark : mark.toLower = r.exponentMark)
      (h : Power lenient cs) : Exponent lenient r (mark :: cs)

/-- Floating-point literals of base ten. -/
inductive DecimalFloat (lenient : Bool) : List Char → Prop where
  | point {whole part scale : List Char} (hwhole : Digits .decimal whole)
      (hpart : part = [] ∨ Digits .decimal part)
      (hscale : scale = [] ∨ Exponent lenient .decimal scale) :
      DecimalFloat lenient (whole ++ '.' :: part ++ scale)
  | scaled {whole scale : List Char} (hwhole : Digits .decimal whole)
      (hscale : Exponent lenient .decimal scale) : DecimalFloat lenient (whole ++ scale)
  | fraction {part scale : List Char} (hpart : Digits .decimal part)
      (hscale : scale = [] ∨ Exponent lenient .decimal scale) :
      DecimalFloat lenient ('.' :: part ++ scale)

/-- What stands before the exponent in base sixteen. -/
inductive HexMantissa (lenient : Bool) : List Char → Prop where
  | whole {whole : List Char} (h : Run true .hex whole) : HexMantissa lenient whole
  | point {whole part : List Char} (h : Run true .hex whole)
      (hpart : part = [] ∨ Run lenient .hex part) : HexMantissa lenient (whole ++ '.' :: part)
  | fraction {part : List Char} (hpart : Run lenient .hex part) : HexMantissa lenient ('.' :: part)

/-- Floating-point literals. -/
inductive Floating (lenient : Bool) : List Char → Prop where
  | decimal {cs : List Char} (h : DecimalFloat lenient cs) : Floating lenient cs
  | hex {mark : Char} {mantissa scale : List Char} (hmark : Radix.ofMark? mark = some .hex)
      (h : HexMantissa lenient mantissa) (hscale : Exponent lenient .hex scale) :
      Floating lenient ('0' :: mark :: (mantissa ++ scale))

/-- What may stand before the `i` of an imaginary literal. -/
inductive Imaginary (lenient : Bool) : List Char → Prop where
  | digits {cs : List Char} (h : Digits .decimal cs) : Imaginary lenient cs
  | integer {cs : List Char} (h : Integer cs) : Imaginary lenient cs
  | floating {cs : List Char} (h : Floating lenient cs) : Imaginary lenient cs
  | loose {c : Char} {cs : List Char} (hlenient : lenient = true)
      (hc : Radix.decimal.isDigit c = true)
      (h : ∀ d ∈ cs, d = '_' ∨ Radix.decimal.isDigit d = true) : Imaginary lenient (c :: cs)

/-- The literals of the language, and those that a lenient reader takes for some. -/
inductive Literal (lenient : Bool) : List Char → Prop where
  | integer {cs : List Char} (h : Integer cs) : Literal lenient cs
  | floating {cs : List Char} (h : Floating lenient cs) : Literal lenient cs
  | imaginary {cs : List Char} (h : Imaginary lenient cs) : Literal lenient (cs ++ ['i'])

/-! ## Characters -/

section Characters

variable {r : Radix} {c : Char}

theorem isDigit_underscore (r : Radix) : r.isDigit '_' = false := by cases r <;> decide

theorem ne_underscore (h : r.isDigit c = true) : c ≠ '_' := by
  rintro rfl
  simp [isDigit_underscore] at h

theorem toLower_of_isDigit (h : c.isDigit = true) : c.toLower = c := by
  simp only [Char.isDigit, Bool.and_eq_true, decide_eq_true_eq, ge_iff_le, UInt32.le_iff_toNat_le] at h
  unfold Char.toLower
  split
  · rename_i hupper
    simp only [ge_iff_le, UInt32.le_iff_toNat_le] at hupper
    have hA : ('A' : Char).val.toNat = 65 := rfl
    have h9 : ('9' : Char).val.toNat = 57 := rfl
    omega
  · rfl

theorem isDigit_of_toLower {m : Char} (h : c.toLower = m) (hm : m.isDigit = false) :
    c.isDigit = false := by
  cases hc : c.isDigit with
  | false => rfl
  | true =>
    rw [toLower_of_isDigit hc] at h
    rw [← h, hc] at hm
    exact hm

theorem isDigit_decimal (hr : r ≠ .hex) (h : r.isDigit c = true) : Radix.decimal.isDigit c = true := by
  cases r with
  | binary =>
    simp only [Radix.isDigit, Bool.or_eq_true, beq_iff_eq] at h
    rcases h with rfl | rfl <;> rfl
  | octal =>
    simp only [Radix.isDigit, Char.isDigit, Bool.and_eq_true, decide_eq_true_eq, Char.le_def,
      ge_iff_le, UInt32.le_iff_toNat_le] at h ⊢
    have h0 : ('0' : Char).val.toNat = 48 := rfl
    have h7 : ('7' : Char).val.toNat = 55 := rfl
    have h9 : ('9' : Char).val.toNat = 57 := rfl
    omega
  | decimal => exact h
  | hex => exact absurd rfl hr

theorem runs_of_isDigit (h : r.isDigit c = true) : r.runs c = true := by
  cases r with
  | hex => simp [Radix.runs, h]
  | binary => simp [Radix.runs, show c.isDigit = true from isDigit_decimal (by decide) h]
  | octal => simp [Radix.runs, show c.isDigit = true from isDigit_decimal (by decide) h]
  | decimal => simp [Radix.runs, show c.isDigit = true from h]

theorem ofMark?_of_isDigit (h : c.isDigit = true) : Radix.ofMark? c = none := by
  have hne {m : Char} (hm : m.isDigit = false) : c ≠ m := by
    rintro rfl
    simp [h] at hm
  unfold Radix.ofMark?
  rw [toLower_of_isDigit h]
  split
  · exact absurd rfl (hne (by decide))
  · exact absurd rfl (hne (by decide))
  · exact absurd rfl (hne (by decide))
  · rfl

/-- The mark of an exponent is neither a digit of its base nor anything else that may stand before. -/
theorem mark_apart (h : c.toLower = r.exponentMark) : r.runs c = false ∧ c ≠ '.' ∧ c ≠ '_' := by
  have hsign (d : Char) (hd : d.toLower ≠ r.exponentMark) : c ≠ d := by
    rintro rfl
    exact hd h
  have hdot : c ≠ '.' := hsign '.' (by cases r <;> decide)
  have hlow : c ≠ '_' := hsign '_' (by cases r <;> decide)
  have hdigit : c.isDigit = false := isDigit_of_toLower h (by cases r <;> decide)
  refine ⟨?_, hdot, hlow⟩
  cases r with
  | hex => simp [Radix.runs, Radix.isDigit, hlow, hdigit, h, Radix.exponentMark]
  | binary => simp [Radix.runs, hlow, hdigit]
  | octal => simp [Radix.runs, hlow, hdigit]
  | decimal => simp [Radix.runs, hlow, hdigit]

end Characters

/-! ## Digits -/

section Digits

variable {r : Radix} {lead : Bool} {c : Char} {cs : List Char}

theorem wellFormed_cons (h : r.isDigit c = true) :
    wellFormed r (c :: cs) = (cs.isEmpty || wellFormed r cs) := by
  have hc := ne_underscore h
  have hseparated : separated (c :: cs) = separated cs := by
    rw [separated]
    rintro _ hcs _
    exact hc hcs
  cases cs with
  | nil => simp [wellFormed, separated, h, hc]
  | cons d ds => simp [wellFormed, hseparated, h]

theorem wellFormed_led :
    wellFormed r ('_' :: cs) = (cs.head? != some '_' && wellFormed r cs) := by
  cases cs with
  | nil => simp [wellFormed]
  | cons d ds =>
    cases hd : d == '_' with
    | true =>
      rw [beq_iff_eq] at hd
      simp [wellFormed, separated, hd]
    | false =>
      have hne : d ≠ '_' := by simpa using hd
      have hseparated : separated ('_' :: d :: ds) = separated (d :: ds) := by
        rw [separated]
        rintro _ _ hcs
        exact hne (List.cons.inj hcs).1
      simp [wellFormed, hseparated, hne]

theorem Digits.cons_of_run (hc : r.isDigit c = true) (h : Run true r cs) : Digits r (c :: cs) := by
  cases h with
  | digits h => exact .next hc h
  | led _ h => exact .apart hc h

theorem Digits.head (h : Digits r cs) : ∃ c ds, cs = c :: ds ∧ r.isDigit c = true := by
  cases h with
  | one hc => exact ⟨_, _, rfl, hc⟩
  | next hc _ => exact ⟨_, _, rfl, hc⟩
  | apart hc _ => exact ⟨_, _, rfl, hc⟩

theorem Digits.ne_underscore (h : Digits r cs) : cs.head? ≠ some '_' := by
  obtain ⟨c, ds, rfl, hc⟩ := h.head
  simpa using Number.ne_underscore hc

theorem Digits.wellFormed (h : Digits r cs) : wellFormed r cs = true := by
  induction h with
  | one hc => simp [wellFormed_cons hc]
  | next hc _ ih => simp [wellFormed_cons hc, ih]
  | apart hc h ih =>
    rw [wellFormed_cons hc, wellFormed_led]
    simp [ih, h.ne_underscore]

theorem wellFormed_iff : wellFormed r cs = true ↔ Run true r cs := by
  constructor
  · intro h
    induction cs with
    | nil => simp [wellFormed] at h
    | cons c cs ih =>
      by_cases hlow : c = '_'
      · subst hlow
        rw [wellFormed_led, Bool.and_eq_true, bne_iff_ne] at h
        cases ih h.2 with
        | digits hdigits => exact .led rfl hdigits
        | led _ _ => exact absurd rfl h.1
      · have hc : r.isDigit c = true := by
          simp only [wellFormed, List.all_cons, Bool.and_eq_true, Bool.or_eq_true, beq_iff_eq] at h
          exact h.2.1.resolve_left hlow
        rw [wellFormed_cons hc, Bool.or_eq_true] at h
        rcases h with h | h
        · rw [List.isEmpty_iff.1 h]
          exact .digits (.one hc)
        · exact .digits (.cons_of_run hc (ih h))
  · intro h
    cases h with
    | digits h => exact h.wellFormed
    | led _ h =>
      rw [wellFormed_led]
      simp [h.wellFormed, h.ne_underscore]

theorem Run.bare (h : Run lead r cs) (hcs : cs.head? ≠ some '_') : Digits r cs := by
  cases h with
  | digits h => exact h
  | led _ _ => exact absurd rfl hcs

theorem digits_iff : Digits r cs ↔ wellFormed r cs = true ∧ cs.head? ≠ some '_' :=
  ⟨fun h => ⟨h.wellFormed, h.ne_underscore⟩, fun h => (wellFormed_iff.1 h.1).bare h.2⟩

theorem Digits.mem (h : Digits r cs) : ∀ c ∈ cs, c = '_' ∨ r.isDigit c = true := by
  induction h with
  | one hc => simpa using .inr hc
  | next hc _ ih => exact List.forall_mem_cons.2 ⟨.inr hc, ih⟩
  | apart hc _ ih => exact List.forall_mem_cons.2 ⟨.inr hc, List.forall_mem_cons.2 ⟨.inl rfl, ih⟩⟩

theorem Run.mem (h : Run lead r cs) : ∀ c ∈ cs, c = '_' ∨ r.isDigit c = true := by
  cases h with
  | digits h => exact h.mem
  | led _ h => exact List.forall_mem_cons.2 ⟨.inl rfl, h.mem⟩

theorem Run.any_isDigit (h : Run lead r cs) : ∃ c ∈ cs, r.isDigit c = true := by
  cases h with
  | digits h =>
    obtain ⟨c, ds, rfl, hc⟩ := h.head
    exact ⟨c, List.mem_cons_self, hc⟩
  | led _ h =>
    obtain ⟨c, ds, rfl, hc⟩ := h.head
    exact ⟨c, by simp, hc⟩

theorem Run.change {s : Radix} (h : Run true r cs) (hcs : ∀ c ∈ cs, c = '_' ∨ s.isDigit c = true) :
    Run true s cs := by
  rw [← wellFormed_iff] at h ⊢
  simp only [Number.wellFormed, Bool.and_eq_true, List.all_eq_true, Bool.or_eq_true, beq_iff_eq] at h ⊢
  exact ⟨h.1, hcs⟩

end Digits

/-! ## Judging -/

section Cuts

variable {r : Radix} {p : Char → Bool} {cs a b m scale : List Char} {c : Char}

theorem cut_of_forall (h : ∀ c ∈ cs, p c = false) : cut p cs = (cs, none) := by
  induction cs with
  | nil => rfl
  | cons c cs ih =>
    obtain ⟨hc, hcs⟩ := List.forall_mem_cons.1 h
    simp [cut, hc, ih hcs]

theorem cut_append (ha : ∀ d ∈ a, p d = false) (hc : p c = true) :
    cut p (a ++ c :: b) = (a, some b) := by
  induction a with
  | nil => simp [cut, hc]
  | cons d a ih =>
    obtain ⟨hd, ha⟩ := List.forall_mem_cons.1 ha
    simp [cut, hd, ih ha]

theorem cut_none (h : cut p cs = (a, none)) : cs = a := by
  induction cs generalizing a with
  | nil => exact (Prod.mk.inj h).1
  | cons c cs ih =>
    rw [cut] at h
    split at h
    · cases h
    · obtain ⟨front, back, hcut⟩ : ∃ front back, cut p cs = (front, back) := ⟨_, _, rfl⟩
      rw [hcut] at h
      obtain ⟨rfl, rfl⟩ := Prod.mk.inj h
      rw [ih hcut]

theorem cut_some (h : cut p cs = (a, some b)) : ∃ c, p c = true ∧ cs = a ++ c :: b := by
  induction cs generalizing a with
  | nil => cases h
  | cons c cs ih =>
    rw [cut] at h
    split at h
    · rename_i hc
      cases h
      exact ⟨c, hc, rfl⟩
    · obtain ⟨front, back, hcut⟩ : ∃ front back, cut p cs = (front, back) := ⟨_, _, rfl⟩
      rw [hcut] at h
      obtain ⟨rfl, rfl⟩ := Prod.mk.inj h
      obtain ⟨d, hd, rfl⟩ := ih hcut
      exact ⟨d, hd, rfl⟩

theorem exponentWellFormed_iff : exponentWellFormed cs = true ↔ Power true cs := by
  constructor
  · intro h
    unfold exponentWellFormed at h
    split at h
    · exact .signed (.inl rfl) (wellFormed_iff.1 h)
    · exact .signed (.inr rfl) (wellFormed_iff.1 h)
    · exact .plain (wellFormed_iff.1 h)
  · intro h
    cases h with
    | plain h =>
      have hsign : ∀ c ∈ cs.head?, c ≠ '+' ∧ c ≠ '-' := by
        intro c hc
        rcases h.mem c (List.mem_of_mem_head? hc) with rfl | hdigit
        · decide
        · refine ⟨?_, ?_⟩ <;> rintro rfl <;> revert hdigit <;> decide
      unfold exponentWellFormed
      split
      · exact absurd rfl (hsign '+' rfl).1
      · exact absurd rfl (hsign '-' rfl).2
      · exact wellFormed_iff.2 h
    | signed hsign h =>
      rcases hsign with rfl | rfl
      · exact wellFormed_iff.2 h
      · exact wellFormed_iff.2 h

/-- The text in front of the mark of an exponent, and the exponent if there is one. -/
theorem scale_of_cut {x : Option (List Char)}
    (h : cut (fun c => c.toLower == r.exponentMark) cs = (m, x))
    (hx : x.all exponentWellFormed = true) :
    ∃ scale, cs = m ++ scale ∧
      (x = none ∧ scale = [] ∨ x.isSome = true ∧ Exponent true r scale) := by
  cases x with
  | none => exact ⟨[], by rw [cut_none h, List.append_nil], .inl ⟨rfl, rfl⟩⟩
  | some e =>
    obtain ⟨c, hc, rfl⟩ := cut_some h
    exact ⟨c :: e, rfl, .inr ⟨rfl, .intro (beq_iff_eq.1 hc) (exponentWellFormed_iff.1 hx)⟩⟩

theorem cut_scale (hm : ∀ c ∈ m, c.toLower ≠ r.exponentMark)
    (hscale : scale = [] ∨ Exponent true r scale) :
    ∃ x, cut (fun c => c.toLower == r.exponentMark) (m ++ scale) = (m, x) ∧
      x.all exponentWellFormed = true ∧ (x = none ↔ scale = []) := by
  have hm : ∀ c ∈ m, (c.toLower == r.exponentMark) = false := fun c hc => by simpa using hm c hc
  rcases hscale with rfl | ⟨hmark, h⟩
  · exact ⟨none, by rw [List.append_nil, cut_of_forall hm], rfl, by simp⟩
  · exact ⟨some _, cut_append hm (by simpa using hmark), exponentWellFormed_iff.2 h, by simp⟩

theorem not_mark (h : c = '.' ∨ c = '_' ∨ r.isDigit c = true) : c.toLower ≠ r.exponentMark := by
  intro hmark
  obtain ⟨hruns, hdot, hlow⟩ := mark_apart hmark
  rcases h with h | h | h
  · exact hdot h
  · exact hlow h
  · rw [runs_of_isDigit h] at hruns
    cases hruns

theorem not_dot (h : c = '_' ∨ r.isDigit c = true) : (c == '.') = false := by
  rw [beq_eq_false_iff_ne]
  rintro rfl
  rcases h with h | h
  · cases h
  · cases r <;> revert h <;> decide

end Cuts

section Decimals

variable {cs m whole part scale : List Char} {f x : Option (List Char)}

/-- What the parts of a decimal literal have to be like: digits before its dot or behind it, none
without digits around its underscores. -/
def Sound (whole : List Char) (f x : Option (List Char)) : Prop :=
  (whole ≠ [] ∨ f.getD [] ≠ []) ∧ (whole = [] ∨ wellFormed .decimal whole = true) ∧
    (f.getD [] = [] ∨ Digits .decimal (f.getD [])) ∧ x.all exponentWellFormed = true

theorem classifyDecimal_parts
    (hx : cut (fun c => c.toLower == Radix.decimal.exponentMark) cs = (m, x))
    (hf : cut (· == '.') m = (whole, f)) :
    (classifyDecimal cs = some .floating ↔ Sound whole f x ∧ (x ≠ none ∨ f ≠ none)) ∧
    (classifyDecimal cs = some .integer ↔ Sound whole f x ∧ x = none ∧ f = none ∧
      ∀ ds, whole = '0' :: ds → ds ≠ [] → ∀ d ∈ whole, d = '_' ∨ Radix.octal.isDigit d = true) := by
  have hsound : (!(whole.isEmpty && (f.getD []).isEmpty) &&
      (whole.isEmpty || wellFormed .decimal whole) &&
      ((f.getD []).isEmpty || ((f.getD []).head? != some '_' && wellFormed .decimal (f.getD []))) &&
      x.all exponentWellFormed) = true ↔ Sound whole f x := by
    simp only [Sound, digits_iff, Bool.and_eq_true, Bool.or_eq_true, Bool.not_eq_true',
      Bool.and_eq_false_iff, List.isEmpty_iff, bne_iff_ne, ne_eq, List.isEmpty_eq_false_iff,
      and_assoc, and_comm (a := wellFormed .decimal (f.getD []) = true)]
  have hmark : Radix.decimal.exponentMark = 'e' := rfl
  rw [hmark] at hx
  rw [classifyDecimal]
  simp only [hx, hf]
  split
  · rename_i hbad
    have hbad : ¬ Sound whole f x := by
      rw [← hsound]
      simpa only [Bool.not_eq_true', Bool.not_eq_true] using hbad
    simp [hbad]
  · rename_i hgood
    have hgood : Sound whole f x := by
      rw [← hsound]
      simpa only [Bool.not_eq_true', Bool.not_eq_false] using hgood
    split
    · rename_i hfloat
      have hfloat : x ≠ none ∨ f ≠ none := by simpa [Option.isSome_iff_ne_none] using hfloat
      refine ⟨by simp [hgood, hfloat], by simp, fun ⟨_, hx, hf, _⟩ => ?_⟩
      exact absurd hfloat (by simp [hx, hf])
    · rename_i hwhole
      obtain ⟨rfl, rfl⟩ : x = none ∧ f = none := by simpa using hwhole
      split
      · rename_i d ds
        split
        · rename_i hoctal
          simp only [List.all_eq_true, Bool.or_eq_true, beq_iff_eq] at hoctal
          refine ⟨by simp, fun _ => ⟨hgood, rfl, rfl, fun _ _ _ => hoctal⟩, fun _ => rfl⟩
        · rename_i hoctal
          simp only [List.all_eq_true, Bool.or_eq_true, beq_iff_eq] at hoctal
          refine ⟨by simp, by simp, fun ⟨_, _, _, h⟩ => absurd (h _ rfl (by simp)) hoctal⟩
      · rename_i hzero
        refine ⟨by simp, fun _ => ⟨hgood, rfl, rfl, fun ds hds hne => ?_⟩, fun _ => rfl⟩
        obtain ⟨d, ds, rfl⟩ := List.exists_cons_of_ne_nil hne
        exact absurd hds (hzero d ds)

theorem Integer.of_whole (h : Digits .decimal cs)
    (hoctal : ∀ ds, cs = '0' :: ds → ds ≠ [] → ∀ d ∈ cs, d = '_' ∨ Radix.octal.isDigit d = true) :
    Integer cs := by
  obtain ⟨c, ds, rfl, hc⟩ := h.head
  have hrest : ds = [] ∨ Run true .decimal ds := by
    have hwell := h.wellFormed
    rw [wellFormed_cons hc, Bool.or_eq_true] at hwell
    exact hwell.imp List.isEmpty_iff.1 wellFormed_iff.1
  by_cases hzero : c = '0'
  · subst hzero
    rcases hrest with rfl | hrest
    · exact .zero
    · refine .octal (hrest.change fun d hd => ?_)
      exact hoctal ds rfl (List.ne_nil_of_mem hd) d (List.mem_cons_of_mem _ hd)
  · exact .decimal hc hzero hrest

/-- A text that starts like a number and is judged an integer in base ten. -/
theorem Integer.of_classifyDecimal (hcs : cs.head? ≠ some '_')
    (h : classifyDecimal cs = some .integer) : Integer cs := by
  obtain ⟨m, x, hx⟩ : ∃ m x, cut (fun c => c.toLower == Radix.decimal.exponentMark) cs = (m, x) :=
    ⟨_, _, rfl⟩
  obtain ⟨whole, f, hf⟩ : ∃ whole f, cut (· == '.') m = (whole, f) := ⟨_, _, rfl⟩
  obtain ⟨hsound, rfl, rfl, hoctal⟩ := (classifyDecimal_parts hx hf).2.1 h
  obtain rfl : cs = whole := (cut_none hx).trans (cut_none hf)
  obtain ⟨hne, hwell, -, -⟩ := hsound
  have hne : cs ≠ [] := hne.resolve_right fun h => h rfl
  exact .of_whole (digits_iff.2 ⟨hwell.resolve_left hne, hcs⟩) hoctal

theorem classifyDecimal_digits (h : Digits .decimal cs)
    (hoctal : ∀ ds, cs = '0' :: ds → ds ≠ [] → ∀ d ∈ cs, d = '_' ∨ Radix.octal.isDigit d = true) :
    classifyDecimal cs = some .integer := by
  have hx : cut (fun c => c.toLower == Radix.decimal.exponentMark) cs = (cs, none) :=
    cut_of_forall fun c hc => by simpa using not_mark (.inr (h.mem c hc))
  have hf : cut (· == '.') cs = (cs, none) := cut_of_forall fun c hc => not_dot (h.mem c hc)
  have hne : cs ≠ [] := by
    obtain ⟨c, ds, rfl, _⟩ := h.head
    simp
  exact (classifyDecimal_parts hx hf).2.2
    ⟨⟨.inl hne, .inr h.wellFormed, .inl rfl, rfl⟩, rfl, rfl, hoctal⟩

theorem DecimalFloat.of_classifyDecimal (hcs : cs.head? ≠ some '_')
    (h : classifyDecimal cs = some .floating) : DecimalFloat true cs := by
  obtain ⟨m, x, hx⟩ : ∃ m x, cut (fun c => c.toLower == Radix.decimal.exponentMark) cs = (m, x) :=
    ⟨_, _, rfl⟩
  obtain ⟨whole, f, hf⟩ : ∃ whole f, cut (· == '.') m = (whole, f) := ⟨_, _, rfl⟩
  obtain ⟨⟨hne, hwell, hpart, hpower⟩, hsome⟩ := (classifyDecimal_parts hx hf).1.1 h
  obtain ⟨scale, rfl, hscale⟩ := scale_of_cut hx hpower
  have hscale' : scale = [] ∨ Exponent true .decimal scale := hscale.imp And.right And.right
  have hwhole (hne : whole ≠ []) (hm : ∃ rest, m = whole ++ rest) : Digits .decimal whole := by
    obtain ⟨rest, rfl⟩ := hm
    refine digits_iff.2 ⟨hwell.resolve_left hne, fun hhead => hcs ?_⟩
    obtain ⟨c, ds, rfl⟩ := List.exists_cons_of_ne_nil hne
    exact hhead
  cases f with
  | none =>
    obtain rfl := cut_none hf
    have hne : m ≠ [] := hne.resolve_right fun h => h rfl
    have hexponent : Exponent true .decimal scale := by
      refine hscale.elim (fun h => ?_) And.right
      exact absurd hsome (by simp [h.1])
    exact .scaled (hwhole hne ⟨[], by simp⟩) hexponent
  | some part =>
    obtain ⟨c, hdot, rfl⟩ := cut_some hf
    obtain rfl : c = '.' := beq_iff_eq.1 hdot
    by_cases hempty : whole = []
    · subst hempty
      have hpart : Digits .decimal part := hpart.resolve_left (hne.resolve_left fun h => h rfl)
      exact .fraction hpart hscale'
    · exact .point (hwhole hempty ⟨_, rfl⟩) hpart hscale'

theorem DecimalFloat.classifyDecimal (h : DecimalFloat true cs) :
    classifyDecimal cs = some .floating := by
  have hdigit {w : List Char} (hw : w = [] ∨ Digits .decimal w) :
      ∀ c ∈ w, c = '_' ∨ Radix.decimal.isDigit c = true := by
    rcases hw with rfl | hw
    · simp
    · exact hw.mem
  have hdots {w : List Char} (hw : w = [] ∨ Digits .decimal w) : ∀ c ∈ w, (c == '.') = false :=
    fun c hc => not_dot (hdigit hw c hc)
  have hmarks {w : List Char} (hw : w = [] ∨ Digits .decimal w) :
      ∀ c ∈ w, c.toLower ≠ Radix.decimal.exponentMark :=
    fun c hc => not_mark (.inr (hdigit hw c hc))
  -- the dot and the digits around it are left of the exponent
  have hpoint {whole part scale : List Char} (hwhole : whole = [] ∨ Digits .decimal whole)
      (hpart : part = [] ∨ Digits .decimal part) (hne : whole ≠ [] ∨ part ≠ [])
      (hscale : scale = [] ∨ Exponent true .decimal scale) :
      Number.classifyDecimal (whole ++ '.' :: part ++ scale) = some .floating := by
    have hm : ∀ c ∈ whole ++ '.' :: part, c.toLower ≠ Radix.decimal.exponentMark := by
      refine List.forall_mem_append.2 ⟨hmarks hwhole, List.forall_mem_cons.2 ⟨?_, hmarks hpart⟩⟩
      exact not_mark (.inl rfl)
    obtain ⟨x, hx, hpower, -⟩ := cut_scale hm hscale
    have hf : cut (· == '.') (whole ++ '.' :: part) = (whole, some part) :=
      cut_append (hdots hwhole) rfl
    exact (classifyDecimal_parts hx hf).1.2
      ⟨⟨hne, hwhole.imp_right Digits.wellFormed, hpart, hpower⟩, .inr (by simp)⟩
  have hne {w : List Char} (hw : Digits .decimal w) : w ≠ [] := by
    obtain ⟨c, ds, rfl, _⟩ := hw.head
    simp
  cases h with
  | point hwhole hpart hscale => exact hpoint (.inr hwhole) hpart (.inl (hne hwhole)) hscale
  | @scaled whole scale hwhole hscale =>
    obtain ⟨x, hx, hpower, hnone⟩ := cut_scale (hmarks (.inr hwhole)) (.inr hscale)
    have hf : cut (· == '.') whole = (whole, none) := cut_of_forall (hdots (.inr hwhole))
    have hsome : x ≠ none := by
      rw [Ne, hnone]
      rintro rfl
      cases hscale
    exact (classifyDecimal_parts hx hf).1.2
      ⟨⟨.inl (hne hwhole), .inr hwhole.wellFormed, .inl rfl, hpower⟩, .inl hsome⟩
  | fraction hpart hscale => exact @hpoint [] _ _ (.inl rfl) (.inr hpart) (.inr (hne hpart)) hscale

end Decimals

section Hexadecimals

variable {cs m whole scale : List Char} {f x : Option (List Char)}

/-- What the parts of a hexadecimal literal have to be like: digits somewhere, none without digits
around its underscores but in front, and no fraction without an exponent. -/
def HexSound (m whole : List Char) (f x : Option (List Char)) : Prop :=
  (whole = [] ∨ Run true .hex whole) ∧ (∀ part ∈ f, part = [] ∨ Run true .hex part) ∧
    (∃ c ∈ m, Radix.hex.isDigit c = true) ∧ x.all exponentWellFormed = true ∧ (x = none → f = none)

theorem classifyHex_parts {k : Class}
    (hx : cut (fun c => c.toLower == Radix.hex.exponentMark) cs = (m, x))
    (hf : cut (· == '.') m = (whole, f)) : classifyHex cs = some k ↔
      HexSound m whole f x ∧ (k = .integer ∧ x = none ∨ k = .floating ∧ x ≠ none) := by
  have hmark : Radix.hex.exponentMark = 'p' := rfl
  rw [hmark] at hx
  rw [classifyHex]
  simp only [hx, hf]
  have hpart : f.all (fun f => f.isEmpty || wellFormed .hex f) = true ↔
      ∀ part ∈ f, part = [] ∨ Run true .hex part := by
    cases f with
    | none => simp
    | some part => simp [wellFormed_iff]
  cases x with
  | none =>
    simp only [HexSound, ← hpart, Bool.and_eq_true, Bool.or_eq_true, List.isEmpty_iff, wellFormed_iff,
      List.any_eq_true, Option.isNone_iff_eq_none, Option.ite_none_right_eq_some, Option.some.injEq]
    cases k <;> simp [and_assoc]
  | some e =>
    simp only [HexSound, ← hpart, Bool.and_eq_true, Bool.or_eq_true, List.isEmpty_iff, wellFormed_iff,
      List.any_eq_true, Option.ite_none_right_eq_some, Option.some.injEq]
    cases k <;> simp [and_assoc]

theorem classifyHex_digits (h : Run true .hex cs) : classifyHex cs = some .integer := by
  have hx : cut (fun c => c.toLower == Radix.hex.exponentMark) cs = (cs, none) :=
    cut_of_forall fun c hc => by simpa using not_mark (.inr (h.mem c hc))
  have hf : cut (· == '.') cs = (cs, none) := cut_of_forall fun c hc => not_dot (h.mem c hc)
  exact (classifyHex_parts hx hf).2
    ⟨⟨.inr h, by simp, h.any_isDigit, rfl, fun _ => rfl⟩, .inl ⟨rfl, rfl⟩⟩

theorem Run.of_classifyHex (h : classifyHex cs = some .integer) : Run true .hex cs := by
  obtain ⟨m, x, hx⟩ : ∃ m x, cut (fun c => c.toLower == Radix.hex.exponentMark) cs = (m, x) :=
    ⟨_, _, rfl⟩
  obtain ⟨whole, f, hf⟩ : ∃ whole f, cut (· == '.') m = (whole, f) := ⟨_, _, rfl⟩
  obtain ⟨⟨hwhole, -, ⟨c, hc, -⟩, -, hfraction⟩, ⟨-, rfl⟩ | ⟨h, -⟩⟩ := (classifyHex_parts hx hf).1 h
  · obtain rfl := hfraction rfl
    obtain rfl := cut_none hx
    obtain rfl := cut_none hf
    exact hwhole.resolve_left (List.ne_nil_of_mem hc)
  · cases h

theorem HexMantissa.of_classifyHex (h : classifyHex cs = some .floating) :
    ∃ m scale, cs = m ++ scale ∧ HexMantissa true m ∧ Exponent true .hex scale := by
  obtain ⟨m, x, hx⟩ : ∃ m x, cut (fun c => c.toLower == Radix.hex.exponentMark) cs = (m, x) :=
    ⟨_, _, rfl⟩
  obtain ⟨whole, f, hf⟩ : ∃ whole f, cut (· == '.') m = (whole, f) := ⟨_, _, rfl⟩
  obtain ⟨⟨hwhole, hpart, ⟨c, hc, hdigit⟩, hpower, -⟩, ⟨h, -⟩ | ⟨-, hsome⟩⟩ :=
    (classifyHex_parts hx hf).1 h
  · cases h
  · obtain ⟨scale, rfl, hscale⟩ := scale_of_cut hx hpower
    refine ⟨m, scale, rfl, ?_, (hscale.resolve_left fun h => hsome h.1).2⟩
    cases f with
    | none =>
      obtain rfl := cut_none hf
      exact .whole (hwhole.resolve_left (List.ne_nil_of_mem hc))
    | some part =>
      obtain ⟨d, hdot, rfl⟩ := cut_some hf
      obtain rfl : d = '.' := beq_iff_eq.1 hdot
      have hpart := hpart part rfl
      rcases hwhole with rfl | hwhole
      · refine .fraction (hpart.resolve_left ?_)
        rintro rfl
        obtain rfl := List.mem_singleton.1 hc
        revert hdigit
        decide
      · exact .point hwhole hpart

theorem HexMantissa.classifyHex (h : HexMantissa true m) (hscale : Exponent true .hex scale) :
    classifyHex (m ++ scale) = some .floating := by
  have hdigit {w : List Char} (hw : w = [] ∨ Run true .hex w) :
      ∀ c ∈ w, c = '_' ∨ Radix.hex.isDigit c = true := by
    rcases hw with rfl | hw
    · simp
    · exact hw.mem
  have hne {x : Option (List Char)} (hnone : x = none ↔ scale = []) : x ≠ none := by
    rw [Ne, hnone]
    rintro rfl
    cases hscale
  -- the dot and the digits around it are left of the exponent
  have hpoint {whole part : List Char} (hwhole : whole = [] ∨ Run true .hex whole)
      (hpart : part = [] ∨ Run true .hex part)
      (hany : ∃ c ∈ whole ++ '.' :: part, Radix.hex.isDigit c = true) :
      Number.classifyHex (whole ++ '.' :: part ++ scale) = some .floating := by
    have hm : ∀ c ∈ whole ++ '.' :: part, c.toLower ≠ Radix.hex.exponentMark := by
      refine List.forall_mem_append.2 ⟨fun c hc => not_mark (.inr (hdigit hwhole c hc)),
        List.forall_mem_cons.2 ⟨not_mark (.inl rfl), fun c hc => not_mark (.inr (hdigit hpart c hc))⟩⟩
    obtain ⟨x, hx, hpower, hnone⟩ := cut_scale hm (.inr hscale)
    have hf : cut (· == '.') (whole ++ '.' :: part) = (whole, some part) :=
      cut_append (fun c hc => not_dot (hdigit hwhole c hc)) rfl
    have hpart : ∀ w ∈ some part, w = [] ∨ Run true .hex w := by
      rintro w ⟨⟩
      exact hpart
    exact (classifyHex_parts hx hf).2
      ⟨⟨hwhole, hpart, hany, hpower, fun h => absurd h (hne hnone)⟩, .inr ⟨rfl, hne hnone⟩⟩
  cases h with
  | whole h =>
    obtain ⟨x, hx, hpower, hnone⟩ :=
      cut_scale (fun c hc => not_mark (.inr (h.mem c hc))) (.inr hscale)
    have hf : cut (· == '.') m = (m, none) := cut_of_forall fun c hc => not_dot (h.mem c hc)
    exact (classifyHex_parts hx hf).2
      ⟨⟨.inr h, by simp, h.any_isDigit, hpower, fun h => absurd h (hne hnone)⟩, .inr ⟨rfl, hne hnone⟩⟩
  | point h hpart =>
    obtain ⟨c, hc, hdigit⟩ := h.any_isDigit
    exact hpoint (.inr h) hpart ⟨c, List.mem_append_left _ hc, hdigit⟩
  | fraction hpart =>
    obtain ⟨c, hc, hdigit⟩ := hpart.any_isDigit
    exact hpoint (.inl rfl) (.inr hpart) ⟨c, List.mem_cons_of_mem _ hc, hdigit⟩

end Hexadecimals

section Classes

variable {cs : List Char}

theorem unmarked_of_mem (h : ∀ c ∈ cs, c = '_' ∨ Radix.decimal.isDigit c = true) :
    ∀ c ∈ cs, Radix.ofMark? c = none := by
  intro c hc
  rcases h c hc with rfl | hdigit
  · rfl
  · exact ofMark?_of_isDigit hdigit

theorem classify_decimal (h : ∀ c ∈ cs, Radix.ofMark? c = none) : classify cs = classifyDecimal cs := by
  unfold classify
  split
  · rw [h _ (by simp)]
  · rfl

theorem DecimalFloat.unmarked {lenient : Bool} (h : DecimalFloat lenient cs) :
    ∀ c ∈ cs, Radix.ofMark? c = none := by
  have hpart {w : List Char} (hw : w = [] ∨ Digits .decimal w) : ∀ c ∈ w, Radix.ofMark? c = none := by
    rcases hw with rfl | hw
    · simp
    · exact unmarked_of_mem hw.mem
  have hscale {w : List Char} (hw : w = [] ∨ Exponent lenient .decimal w) :
      ∀ c ∈ w, Radix.ofMark? c = none := by
    rcases hw with rfl | ⟨hmark, hpower⟩
    · simp
    · refine List.forall_mem_cons.2 ⟨?_, ?_⟩
      · rw [Radix.ofMark?, hmark]
        rfl
      · cases hpower with
        | plain h => exact unmarked_of_mem h.mem
        | signed hsign h =>
          refine List.forall_mem_cons.2 ⟨?_, unmarked_of_mem h.mem⟩
          rcases hsign with rfl | rfl <;> rfl
  cases h with
  | point hwhole hp hs =>
    exact List.forall_mem_append.2 ⟨List.forall_mem_append.2 ⟨unmarked_of_mem hwhole.mem,
      List.forall_mem_cons.2 ⟨rfl, hpart hp⟩⟩, hscale hs⟩
  | scaled hwhole hs =>
    exact List.forall_mem_append.2 ⟨unmarked_of_mem hwhole.mem, hscale (.inr hs)⟩
  | fraction hp hs =>
    exact List.forall_mem_append.2
      ⟨List.forall_mem_cons.2 ⟨rfl, unmarked_of_mem hp.mem⟩, hscale hs⟩

theorem classify_digits (h : Digits .decimal cs)
    (hoctal : ∀ ds, cs = '0' :: ds → ds ≠ [] → ∀ d ∈ cs, d = '_' ∨ Radix.octal.isDigit d = true) :
    classify cs = some .integer := by
  rw [classify_decimal (unmarked_of_mem h.mem), classifyDecimal_digits h hoctal]

theorem isDigit_zero (r : Radix) : r.isDigit '0' = true := by cases r <;> decide

theorem classify_integer (hcs : cs.head? ≠ some '_') : classify cs = some .integer ↔ Integer cs := by
  constructor
  · intro h
    unfold classify at h
    split at h
    · split at h
      · rename_i hmark
        exact .marked hmark (.of_classifyHex h)
      · rename_i r _ hmark
        split at h
        · rename_i hwell
          exact .marked hmark (wellFormed_iff.1 hwell)
        · cases h
      · exact .of_classifyDecimal hcs h
    · exact .of_classifyDecimal hcs h
  · intro h
    cases h with
    | zero => decide
    | decimal hc hzero h =>
      refine classify_digits ?_ fun ds hds => absurd (List.cons.inj hds).1 hzero
      rcases h with rfl | h
      · exact .one hc
      · exact .cons_of_run hc h
    | octal h =>
      have hdigits := Digits.cons_of_run (isDigit_zero .octal) h
      have hmem := hdigits.mem
      refine classify_digits ?_ fun _ _ _ => hmem
      refine .cons_of_run (isDigit_zero .decimal) (h.change fun c hc => (h.mem c hc).imp_right ?_)
      exact isDigit_decimal (by decide)
    | @marked r mark cs hmark h =>
      cases r with
      | hex =>
        rw [classify, hmark]
        exact classifyHex_digits h
      | binary =>
        rw [classify, hmark]
        exact if_pos (wellFormed_iff.2 h)
      | octal =>
        rw [classify, hmark]
        exact if_pos (wellFormed_iff.2 h)
      | decimal =>
        rw [classify, hmark]
        exact if_pos (wellFormed_iff.2 h)

/-- Floating-point numbers by the lenient grammar are the texts that are judged so. -/
theorem classify_floating (hcs : cs.head? ≠ some '_') :
    classify cs = some .floating ↔ Floating true cs := by
  constructor
  · intro h
    unfold classify at h
    split at h
    · split at h
      · rename_i hmark
        obtain ⟨m, scale, rfl, hm, hscale⟩ := HexMantissa.of_classifyHex h
        exact .hex hmark hm hscale
      · split at h
        · cases h
        · cases h
      · exact .decimal (.of_classifyDecimal hcs h)
    · exact .decimal (.of_classifyDecimal hcs h)
  · intro h
    cases h with
    | decimal h => rw [classify_decimal h.unmarked, h.classifyDecimal]
    | hex hmark h hscale =>
      rw [classify, hmark]
      exact h.classifyHex hscale

/-- In front of a final `i` the lenient grammar is what counts, in a text that starts with a digit or
a dot. -/
theorem imaginaryWellFormed_iff (hcs : ∀ c ∈ cs.head?, c = '.' ∨ Radix.decimal.isDigit c = true)
    (hne : cs ≠ []) : imaginaryWellFormed cs = true ↔ Imaginary true cs := by
  have hlow : cs.head? ≠ some '_' := by
    intro hhead
    rcases hcs '_' hhead with h | h
    · cases h
    · cases h
  have hall : cs.all (fun c => c.isDigit || c == '_') = true ↔
      ∀ c ∈ cs, c = '_' ∨ Radix.decimal.isDigit c = true := by
    simp [Radix.isDigit, or_comm]
  rw [imaginaryWellFormed, Bool.or_eq_true, hall]
  constructor
  · rintro (h | h)
    · obtain ⟨k, hk⟩ := Option.isSome_iff_exists.1 h
      cases k with
      | integer => exact .integer ((classify_integer hlow).1 hk)
      | floating => exact .floating ((classify_floating hlow).1 hk)
    · obtain ⟨c, ds, rfl⟩ := List.exists_cons_of_ne_nil hne
      obtain ⟨hc, hds⟩ := List.forall_mem_cons.1 h
      refine .loose rfl (hc.resolve_left ?_) hds
      rintro rfl
      exact hlow rfl
  · intro h
    cases h with
    | digits h => exact .inr h.mem
    | integer h => exact .inl (by rw [(classify_integer hlow).2 h]; rfl)
    | floating h => exact .inl (by rw [(classify_floating hlow).2 h]; rfl)
    | loose _ hc h => exact .inr (List.forall_mem_cons.2 ⟨.inr hc, h⟩)

end Classes

end Number

end FuncLift
