import FuncLift.Selection
import Mathlib.Algebra.Group.Nat.Defs

/-!
# How a selection is written

A selection is written `line:column-line:column`, and what is read is just that: four numerals with
these signs between them, blanks left out. The reader splits a text at the first sign of each kind. A
numeral holds no such sign, so there is one way to split at most, and a repeated sign is an error.
-/
namespace FuncLift

namespace Selection

/-- Decimal digits of a value below 2^32, perhaps behind a plus sign. -/
def Numeral (cs : List Char) (n : Nat) : Prop :=
  ∃ ds : List Char, (cs = ds ∨ cs = '+' :: ds) ∧ ds ≠ [] ∧ (∀ c ∈ ds, c.isDigit = true) ∧
    Nat.ofDigitChars 10 ds 0 = n ∧ n < 2 ^ 32

/-- A line and a column with a colon between them. -/
def Cursor (cs : List Char) (p : Position) : Prop :=
  ∃ line column, cs = line ++ ':' :: column ∧ Numeral line p.line ∧ Numeral column p.column

/-! ## Reading -/

theorem digitsValue_eq (cs : List Char) : digitsValue cs = Nat.ofDigitChars 10 cs 0 := by
  unfold digitsValue Nat.ofDigitChars
  congr 1
  funext n c
  rw [Nat.mul_comm]

theorem number?_eq_some {cs : List Char} {n : Nat} : number? cs = some n ↔ Numeral cs n := by
  have hdigits (ds : List Char) :
      (if !ds.isEmpty && ds.all Char.isDigit && decide (digitsValue ds < 4294967296) then
        some (digitsValue ds) else none) = some n ↔
      ds ≠ [] ∧ (∀ c ∈ ds, c.isDigit = true) ∧ Nat.ofDigitChars 10 ds 0 = n ∧ n < 2 ^ 32 := by
    rw [digitsValue_eq]
    by_cases hn : Nat.ofDigitChars 10 ds 0 = n
    · subst hn
      simp [and_assoc]
    · simp [hn]
  unfold number? Numeral
  split
  · rename_i ds
    rw [hdigits]
    constructor
    · intro h
      exact ⟨ds, .inr rfl, h⟩
    · rintro ⟨ds', rfl | heq, h⟩
      · exact absurd (h.2.1 '+' List.mem_cons_self) (by decide)
      · cases heq
        exact h
  · rename_i hplus
    rw [hdigits]
    constructor
    · intro h
      exact ⟨cs, .inl rfl, h⟩
    · rintro ⟨ds, rfl | rfl, h⟩
      · exact h
      · exact absurd rfl (hplus ds)

theorem splitAt?_eq_some {sep : Char} {cs a b : List Char} :
    splitAt? sep cs = some (a, b) ↔ cs = a ++ sep :: b ∧ sep ∉ a := by
  induction cs generalizing a with
  | nil => simp [splitAt?]
  | cons c cs ih =>
    rw [splitAt?]
    by_cases hc : c = sep
    · subst hc
      rw [if_pos rfl]
      cases a with
      | nil => simp [eq_comm]
      | cons d a =>
        simp only [Option.some.injEq, Prod.mk.injEq, List.nil_eq, reduceCtorEq, false_and, false_iff,
          List.cons_append, List.cons.injEq, List.mem_cons, not_or]
        rintro ⟨⟨rfl, -⟩, hne, -⟩
        exact hne rfl
    · rw [if_neg hc, Option.map_eq_some_iff]
      constructor
      · rintro ⟨⟨a', b'⟩, hsplit, heq⟩
        cases heq
        obtain ⟨rfl, hnot⟩ := ih.1 hsplit
        exact ⟨rfl, by simpa [Ne.symm hc] using hnot⟩
      · rintro ⟨heq, hnot⟩
        cases a with
        | nil =>
          cases heq
          exact absurd rfl hc
        | cons d a =>
          obtain ⟨rfl, rfl⟩ := List.cons.inj heq
          exact ⟨(a, b), ih.2 ⟨rfl, fun h => hnot (List.mem_cons_of_mem _ h)⟩, rfl⟩

theorem Numeral.not_mem {cs : List Char} {n : Nat} (h : Numeral cs n) {c : Char}
    (hdigit : c.isDigit = false) (hplus : c ≠ '+') : c ∉ cs := by
  obtain ⟨ds, hcs, -, hds, -⟩ := h
  have hmem : c ∉ ds := by
    intro hc
    rw [hds c hc] at hdigit
    cases hdigit
  rcases hcs with rfl | rfl
  · exact hmem
  · simpa [hplus] using hmem

theorem position?_eq_some {cs : List Char} {p : Position} : position? cs = some p ↔ Cursor cs p := by
  unfold position? Cursor
  simp only [Option.bind_eq_bind, Option.bind_eq_some_iff, Option.pure_def, Option.some.injEq,
    Prod.exists, splitAt?_eq_some, number?_eq_some]
  constructor
  · rintro ⟨line, column, ⟨hcs, -⟩, n, hn, m, hm, rfl⟩
    exact ⟨line, column, hcs, hn, hm⟩
  · rintro ⟨line, column, hcs, hn, hm⟩
    exact ⟨line, column, ⟨hcs, hn.not_mem (by decide) (by decide)⟩, p.line, hn, p.column, hm, rfl⟩

theorem Cursor.not_mem {cs : List Char} {p : Position} (h : Cursor cs p) : '-' ∉ cs := by
  obtain ⟨line, column, rfl, hline, hcolumn⟩ := h
  have hleft := hline.not_mem (c := '-') (by decide) (by decide)
  have hright := hcolumn.not_mem (c := '-') (by decide) (by decide)
  simp [hleft, hright]

theorem parse?_eq_some {text : String} {s : Selection} : parse? text = some s ↔
    ∃ first last, text.toList.filter (fun c => !isBlank c) = first ++ '-' :: last ∧
      Cursor first s.first ∧ Cursor last s.last := by
  unfold parse?
  simp only [Option.bind_eq_bind, Option.bind_eq_some_iff, Option.pure_def, Option.some.injEq,
    Prod.exists, splitAt?_eq_some, position?_eq_some]
  constructor
  · rintro ⟨first, last, ⟨htext, -⟩, p, hp, q, hq, rfl⟩
    exact ⟨first, last, htext, hp, hq⟩
  · rintro ⟨first, last, htext, hp, hq⟩
    exact ⟨first, last, ⟨htext, hp.not_mem⟩, s.first, hp, s.last, hq, rfl⟩

/-! ## Writing -/

theorem numeral_toString {n : Nat} (h : n < 2 ^ 32) : Numeral (toString n).toList n := by
  rw [Nat.toString_eq_repr, Nat.toList_repr]
  exact ⟨Nat.toDigits 10 n, .inl rfl, Nat.toDigits_ne_nil,
    fun c hc => Nat.isDigit_of_mem_toDigits (by decide) (by decide) hc,
    Nat.ofDigitChars_toDigits (by decide) (by decide), h⟩

theorem not_isBlank_of_isDigit {c : Char} (h : c.isDigit = true) : isBlank c = false := by
  rw [Char.isDigit, Bool.and_eq_true, decide_eq_true_eq, decide_eq_true_eq] at h
  have hlow : 48 ≤ c.toNat := h.1
  have hhigh : c.toNat ≤ 57 := h.2
  simp [isBlank, CharRanges.covers, blankRanges]
  omega

theorem Numeral.filter {cs : List Char} {n : Nat} (h : Numeral cs n) :
    cs.filter (fun c => !isBlank c) = cs := by
  obtain ⟨ds, hcs, -, hds, -⟩ := h
  have hkeep : ds.filter (fun c => !isBlank c) = ds := by
    rw [List.filter_eq_self]
    intro c hc
    rw [not_isBlank_of_isDigit (hds c hc)]
    rfl
  have hplus : isBlank '+' = false := by decide
  rcases hcs with rfl | rfl
  · exact hkeep
  · rw [List.filter_cons, hplus, hkeep]
    rfl

theorem Cursor.filter {cs : List Char} {p : Position} (h : Cursor cs p) :
    cs.filter (fun c => !isBlank c) = cs := by
  obtain ⟨line, column, rfl, hline, hcolumn⟩ := h
  have hcolon : isBlank ':' = false := by decide
  rw [List.filter_append, List.filter_cons, hcolon, hline.filter, hcolumn.filter]
  rfl

theorem cursor_text {p : Position} (hline : p.line < 2 ^ 32) (hcolumn : p.column < 2 ^ 32) :
    Cursor p.text.toList p := by
  refine ⟨(toString p.line).toList, (toString p.column).toList, ?_, numeral_toString hline,
    numeral_toString hcolumn⟩
  simp [Position.text]

theorem parse?_text {s : Selection} (hfirst : Cursor s.first.text.toList s.first)
    (hlast : Cursor s.last.text.toList s.last) : parse? s.text = some s := by
  rw [parse?_eq_some]
  refine ⟨s.first.text.toList, s.last.text.toList, ?_, hfirst, hlast⟩
  have hminus : isBlank '-' = false := by decide
  have htext : s.text.toList = s.first.text.toList ++ '-' :: s.last.text.toList := by
    simp [Selection.text]
  rw [htext, List.filter_append, List.filter_cons, hminus, hfirst.filter, hlast.filter]
  rfl

/-- A selection with coordinates of 32 bits is read back from its text. A text can be read exactly if
without its blanks it is four numerals with the signs of a selection between them, and these are what
is read. -/
theorem parse?_exact :
    (∀ a b c d : UInt32, parse? (text ⟨⟨a.toNat, b.toNat⟩, ⟨c.toNat, d.toNat⟩⟩) =
      some ⟨⟨a.toNat, b.toNat⟩, ⟨c.toNat, d.toNat⟩⟩) ∧
    ∀ (t : String) (s : Selection), parse? t = some s ↔ ∃ a b c d : List Char,
      t.toList.filter (fun x => !isBlank x) = (a ++ ':' :: b) ++ '-' :: (c ++ ':' :: d) ∧
        Numeral a s.first.line ∧ Numeral b s.first.column ∧
          Numeral c s.last.line ∧ Numeral d s.last.column := by
  constructor
  · intro a b c d
    exact parse?_text (cursor_text a.toNat_lt b.toNat_lt) (cursor_text c.toNat_lt d.toNat_lt)
  · intro t s
    rw [parse?_eq_some]
    constructor
    · rintro ⟨_, _, htext, ⟨a, b, rfl, ha, hb⟩, ⟨c, d, rfl, hc, hd⟩⟩
      exact ⟨a, b, c, d, htext, ha, hb, hc, hd⟩
    · rintro ⟨a, b, c, d, htext, ha, hb, hc, hd⟩
      exact ⟨_, _, htext, ⟨a, b, rfl, ha, hb⟩, ⟨c, d, rfl, hc, hd⟩⟩

end Selection

end FuncLift
