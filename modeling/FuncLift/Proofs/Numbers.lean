import FuncLift.Proofs.Munched
import FuncLift.Proofs.Tiled

/-!
# The tokens of numbers

A number among the lexemes of a text becomes the token of the literal that it is, or an invalid token
with a fault; and only numbers become such tokens.
-/
namespace FuncLift

namespace Number

inductive Reads (lenient : Bool) (w : List Char) : Token → Prop where
  | int (h : Integer w) : Reads lenient w (.int (String.ofList w))
  | float (h : Floating lenient w) : Reads lenient w (.float (String.ofList w))
  | imag {cs : List Char} (hw : w = cs ++ ['i']) (h : Imaginary lenient cs) :
      Reads lenient w (.imag (String.ofList w))
  | invalid (h : ¬ Literal lenient w) : Reads lenient w .invalid

section Reading

variable {lenient : Bool} {w cs : List Char}

theorem Literal.imaginary_iff : Literal lenient (cs ++ ['i']) ↔ Imaginary lenient cs := by
  constructor
  · intro h
    generalize hw : cs ++ ['i'] = w at h
    cases h with
    | integer h =>
      subst hw
      have himag : Imaginary lenient (cs ++ ['i']) := .integer h
      exact absurd (List.mem_append_right cs (List.mem_singleton.2 rfl)) himag.not_mem
    | floating h =>
      subst hw
      exact absurd (List.mem_append_right cs (List.mem_singleton.2 rfl)) (Imaginary.floating h).not_mem
    | imaginary h => rwa [List.append_cancel_right hw]
  · exact .imaginary

theorem Literal.real_iff (hw : w.getLast? ≠ some 'i') :
    Literal lenient w ↔ Integer w ∨ Floating lenient w := by
  constructor
  · intro h
    cases h with
    | integer h => exact .inl h
    | floating h => exact .inr h
    | imaginary h => exact absurd (by simp) hw
  · rintro (h | h)
    · exact .integer h
    · exact .floating h

theorem read_number (hhead : ∀ c ∈ w.head?, c = '.' ∨ Radix.decimal.isDigit c = true)
    (hne : w ≠ []) (hi : w ≠ ['i']) :
    (∃ t, Scan.read .number w = .ok t ∧ t ≠ .invalid ∧ Literal true w ∧
      ∀ u, Reads true w u ↔ u = t) ∨
    Scan.read .number w = .error .invalidNumber ∧ ¬ Literal true w ∧
      ∀ u, Reads true w u ↔ u = .invalid := by
  have hlow : w.head? ≠ some '_' := by
    intro h
    rcases hhead '_' h with h | h
    · cases h
    · cases h
  have hbad (h : ¬ Literal true w) : ∀ u, Reads true w u ↔ u = .invalid := by
    intro u
    constructor
    · rintro (hint | hfloat | ⟨rfl, himag⟩ | -)
      · exact absurd (.integer hint) h
      · exact absurd (.floating hfloat) h
      · exact absurd (.imaginary himag) h
      · rfl
    · rintro rfl
      exact .invalid h
  by_cases hlast : w.getLast? = some 'i'
  · obtain ⟨cs, rfl⟩ := List.getLast?_eq_some_iff.1 hlast
    have hcs : cs ≠ [] := by
      rintro rfl
      exact hi rfl
    have hhead : ∀ c ∈ cs.head?, c = '.' ∨ Radix.decimal.isDigit c = true := by
      obtain ⟨d, ds, rfl⟩ := List.exists_cons_of_ne_nil hcs
      exact hhead
    have hread := imaginaryWellFormed_iff hhead hcs
    rw [← Literal.imaginary_iff] at hread
    have hnot (h : 'i' ∉ cs ++ ['i']) : False := h (by simp)
    simp only [Scan.read, hlast, if_true, List.dropLast_concat]
    by_cases hliteral : Literal true (cs ++ ['i'])
    · rw [if_pos (hread.2 hliteral)]
      refine .inl ⟨_, rfl, by simp, hliteral, fun u => ⟨?_, ?_⟩⟩
      · rintro (hint | hfloat | - | h)
        · have himag : Imaginary true (cs ++ ['i']) := .integer hint
          exact (hnot himag.not_mem).elim
        · exact (hnot (Imaginary.floating hfloat).not_mem).elim
        · rfl
        · exact absurd hliteral h
      · rintro rfl
        exact .imag rfl (Literal.imaginary_iff.1 hliteral)
    · rw [if_neg fun h => hliteral (hread.1 h)]
      exact .inr ⟨rfl, hliteral, hbad hliteral⟩
  · have himag {u : List Char} (h : w = u ++ ['i']) : False := hlast (by simp [h])
    simp only [Scan.read, hlast, if_false]
    have hint := classify_integer hlow
    have hfloat := classify_floating hlow
    rw [Literal.real_iff hlast, ← hint, ← hfloat]
    rcases hclass : classify w with _ | _ | _
    · rw [hclass] at hint hfloat
      have hliteral : ¬ Literal true w := by
        rw [Literal.real_iff hlast, ← hint, ← hfloat]
        simp
      exact .inr ⟨rfl, by simp, hbad hliteral⟩
    · rw [hclass] at hint hfloat
      refine .inl ⟨_, rfl, by simp, by simp, fun u => ⟨?_, ?_⟩⟩
      · rintro (- | h | ⟨h, -⟩ | h)
        · rfl
        · cases hfloat.2 h
        · exact (himag h).elim
        · exact absurd (.integer (hint.1 rfl)) h
      · rintro rfl
        exact .int (hint.1 rfl)
    · rw [hclass] at hint hfloat
      refine .inl ⟨_, rfl, by simp, by simp, fun u => ⟨?_, ?_⟩⟩
      · rintro (h | - | ⟨h, -⟩ | h)
        · cases hint.2 h
        · rfl
        · exact (himag h).elim
        · exact absurd (.floating (hfloat.1 rfl)) h
      · rintro rfl
        exact .float (hfloat.1 rfl)

end Reading

end Number

namespace Lexeme

theorem flatMap_all (cs : List Char) : (all cs).flatMap Lexeme.text = cs := by
  fun_induction all cs with
  | case1 => rfl
  | case2 c cs kind n hfront ih => rw [List.flatMap_cons, ih, List.cons_append, List.take_append_drop]

/-- A number among the lexemes of a text, where it lies, and what follows it. -/
def NumberAt (text : List Char) (span : Span) (w after : List Char) : Prop :=
  ∃ front back, all text = front ++ ⟨.number, w⟩ :: back ∧ after = back.flatMap Lexeme.text ∧
    span = ⟨byteSize (front.flatMap Lexeme.text), byteSize (front.flatMap Lexeme.text) + byteSize w⟩

theorem front_of_all {cs : List Char} {front back : List Lexeme} {l : Lexeme}
    (h : all cs = front ++ l :: back) : ∃ c ds, l = ⟨(atFront c ds).1, c :: ds.take (atFront c ds).2⟩ ∧
      back = all (ds.drop (atFront c ds).2) := by
  induction front generalizing cs with
  | nil =>
    cases cs with
    | nil => simp [all] at h
    | cons c ds =>
      rw [all] at h
      obtain ⟨rfl, rfl⟩ := List.cons.inj h
      exact ⟨c, ds, rfl, rfl⟩
  | cons x front ih =>
    cases cs with
    | nil => simp [all] at h
    | cons c ds =>
      rw [all] at h
      exact ih (List.cons.inj h).2

/-- A number at the front of a text starts with a digit or a dot, and is cut off as one. -/
def CutsNumber (c : Char) (cs : List Char) (r : LexemeKind × Nat) : Prop :=
  r.1 = .number → startsNumber c cs = true ∧ r.2 = numberLength (c :: cs) - 1

theorem atFront_cutsNumber (c : Char) (cs : List Char) : CutsNumber c cs (atFront c cs) := by
  unfold atFront
  repeat' refine iteInduction (fun _ => ?_) fun _ => ?_
  all_goals try split
  all_goals first
    | exact fun _ => ⟨‹_›, rfl⟩
    | exact fun h => by cases h

theorem NumberAt.front {text : List Char} {span : Span} {w after : List Char}
    (h : NumberAt text span w after) : ∃ c cs, w = c :: cs ∧
      (c = '.' ∨ Number.Radix.decimal.isDigit c = true) ∧ w ≠ ['i'] ∧
      (numberLength (w ++ after) ≤ w.length ∨ after = []) := by
  obtain ⟨front, back, hall, rfl, -⟩ := h
  obtain ⟨c, ds, hl, rfl⟩ := front_of_all hall
  obtain ⟨hkind, rfl⟩ := Lexeme.mk.inj hl
  obtain ⟨hstart, hlength⟩ := atFront_cutsNumber c ds hkind.symm
  have hc : c = '.' ∨ Number.Radix.decimal.isDigit c = true := by
    simp only [startsNumber, Bool.or_eq_true, Bool.and_eq_true, beq_iff_eq] at hstart
    exact hstart.symm.imp And.left id
  refine ⟨c, _, rfl, hc, ?_, ?_⟩
  · intro hi
    obtain ⟨rfl, -⟩ := List.cons.inj hi
    rcases hc with hc | hc
    · cases hc
    · cases hc
  · rw [flatMap_all, List.cons_append, List.take_append_drop, hlength, List.length_cons,
      List.length_take, List.drop_eq_nil_iff]
    omega

end Lexeme

namespace Scan

theorem Covers.mem_tokens {lo : Nat} {cs : List Char} {s : Scan} (h : Covers lo cs s) {p : Placed}
    (hp : p ∈ s.tokens) (hreal : Read.isLineEnd p = false) :
    lo ≤ p.span.start ∧ p.span.start < p.span.stop ∧ p.span.stop ≤ lo + byteSize cs := by
  refine h.filled (.token p) (List.mem_append_right _ (List.mem_map_of_mem (List.mem_filter.2 ⟨hp, ?_⟩)))
  simp [hreal]

theorem Covers.mem_faults {lo : Nat} {cs : List Char} {s : Scan} (h : Covers lo cs s)
    {f : LexFault × Span} (hf : f ∈ s.faults) :
    lo ≤ f.2.start ∧ f.2.start < f.2.stop ∧ f.2.stop ≤ lo + byteSize cs := by
  have hspan := List.mem_map_of_mem (f := Prod.snd) hf
  rw [← h.faulty] at hspan
  obtain ⟨p, hp, hspan⟩ := List.mem_map.1 hspan
  obtain ⟨hp, hinvalid⟩ := List.mem_filter.1 hp
  rw [← hspan]
  refine h.mem_tokens hp ?_
  rw [Read.isLineEnd, beq_iff_eq.1 hinvalid]
  rfl

theorem ofLexemes_cons (line : Line) (offset : Nat) (l : Lexeme) (ls : List Lexeme) :
    ofLexemes line offset (l :: ls) = (ofLexeme line offset l).1.append
      (ofLexemes (ofLexeme line offset l).2 (offset + byteSize l.text) ls) := rfl

/-- A scan is what the lexemes before one of them contribute, what it contributes itself, and what
those behind it do. -/
theorem ofLexemes_split {cs : List Char} {front back : List Lexeme} {l : Lexeme} (line : Line)
    (offset : Nat) (h : Lexeme.all cs = front ++ l :: back) : ∃ s line' t,
      ofLexemes line offset (Lexeme.all cs) =
        s.append ((ofLexeme line' (offset + byteSize (front.flatMap Lexeme.text)) l).1.append t) ∧
      Covers offset (front.flatMap Lexeme.text) s ∧
      Covers (offset + byteSize (front.flatMap Lexeme.text) + byteSize l.text)
        (back.flatMap Lexeme.text) t := by
  rw [h]
  induction front generalizing cs line offset with
  | nil =>
    obtain ⟨c, ds, -, rfl⟩ := Lexeme.front_of_all h
    refine ⟨none, line, _, ofLexemes_cons line offset l _, covers_none (by simp), ?_⟩
    rw [Lexeme.flatMap_all]
    exact covers_ofLexemes _ _ _
  | cons x front ih =>
    rw [List.cons_append] at h ⊢
    obtain ⟨c, ds, rfl, hrest⟩ := Lexeme.front_of_all (h.trans (List.nil_append _).symm)
    obtain ⟨s, line', t, hscan, hs, ht⟩ := ih (ofLexeme line offset _).2 (offset + _) hrest.symm
    have hhere := covers_ofLexeme line offset
      ⟨(Lexeme.atFront c ds).1, c :: ds.take (Lexeme.atFront c ds).2⟩ (List.cons_ne_nil _ _)
      (Lexeme.atFront_gaps c ds)
    rw [List.flatMap_cons, byteSize_append, ← Nat.add_assoc, ofLexemes_cons, hscan]
    refine ⟨_, line', t, ?_, hhere.append hs, ht⟩
    simp only [append, List.append_assoc]

theorem ofLexeme_number (line : Line) (offset : Nat) (w : List Char) :
    (∀ t, read .number w = .ok t →
      (ofLexeme line offset ⟨.number, w⟩).1 = token t ⟨offset, offset + byteSize w⟩) ∧
    ∀ f, read .number w = .error f →
      (ofLexeme line offset ⟨.number, w⟩).1 = fault f ⟨offset, offset + byteSize w⟩ := by
  unfold ofLexeme
  dsimp only
  refine ⟨fun t h => ?_, fun f h => ?_⟩
  · rw [h]
  · rw [h]

theorem at_number {text : List Char} {span : Span} {w after : List Char}
    (h : Lexeme.NumberAt text span w after) (line : Line) : ∃ line',
      (∀ t, ⟨t, span⟩ ∈ (ofLexemes line 0 (Lexeme.all text)).tokens ↔
        ⟨t, span⟩ ∈ (ofLexeme line' span.start ⟨.number, w⟩).1.tokens) ∧
      ∀ f, (f, span) ∈ (ofLexemes line 0 (Lexeme.all text)).faults ↔
        (f, span) ∈ (ofLexeme line' span.start ⟨.number, w⟩).1.faults := by
  obtain ⟨c, cs, rfl, -, -⟩ := h.front
  have hpos := byteSize_pos (List.cons_ne_nil c cs)
  obtain ⟨front, back, hall, -, rfl⟩ := h
  obtain ⟨s, line', t, hscan, hs, ht⟩ := ofLexemes_split line 0 hall
  rw [Nat.zero_add] at hscan ht
  refine ⟨line', fun u => ?_, fun f => ?_⟩
  · have hreal : Read.isLineEnd ⟨u, byteSize (front.flatMap Lexeme.text),
        byteSize (front.flatMap Lexeme.text) + byteSize (c :: cs)⟩ = false := by
      simp [Read.isLineEnd]
      omega
    rw [hscan]
    simp only [append, List.mem_append]
    refine ⟨fun hu => ?_, fun hu => .inr (.inl hu)⟩
    rcases hu with hu | hu | hu
    · have := hs.mem_tokens hu hreal
      dsimp only at this
      omega
    · exact hu
    · have := ht.mem_tokens hu hreal
      dsimp only at this
      omega
  · rw [hscan]
    simp only [append, List.mem_append]
    refine ⟨fun hf => ?_, fun hf => .inr (.inl hf)⟩
    rcases hf with hf | hf | hf
    · have := hs.mem_faults hf
      dsimp only at this
      omega
    · exact hf
    · have := ht.mem_faults hf
      dsimp only at this
      omega

end Scan

namespace Token

def IsNumber (t : Token) : Prop := ∃ s, t = .int s ∨ t = .float s ∨ t = .imag s

end Token

namespace Scan

/-- A scan finds a number at a place, or something that ought to be one. -/
def Finds (s : Scan) (span : Span) : Prop :=
  (∃ t, t.IsNumber ∧ ⟨t, span⟩ ∈ s.tokens) ∨ (.invalidNumber, span) ∈ s.faults

theorem Finds.of_append {s t : Scan} {span : Span} (h : (s.append t).Finds span) :
    s.Finds span ∨ t.Finds span := by
  rcases h with ⟨u, hu, h⟩ | h
  · exact (List.mem_append.1 h).imp (fun h => .inl ⟨u, hu, h⟩) fun h => .inl ⟨u, hu, h⟩
  · exact (List.mem_append.1 h).imp .inr .inr

theorem not_finds_lineEnd {line : Line} {offset : Nat} {span : Span} :
    ¬ (lineEnd line offset).Finds span := by
  unfold lineEnd
  split
  · rintro (⟨t, ⟨s, ht⟩, h⟩ | h)
    · obtain ⟨rfl, -⟩ := Placed.mk.inj (List.mem_singleton.1 h)
      rcases ht with ht | ht | ht <;> cases ht
    · cases h
  · rintro (⟨_, _, h⟩ | h) <;> cases h

theorem kind_of_read {kind : LexemeKind} {text : List Char} :
    (∀ t, t.IsNumber → read kind text = .ok t → kind = .number) ∧
      (read kind text = .error .invalidNumber → kind = .number) := by
  have hno {t : Token} (ht : t.IsNumber) (h : ∀ s, t ≠ .int s ∧ t ≠ .float s ∧ t ≠ .imag s) :
      kind = .number := by
    obtain ⟨s, ht⟩ := ht
    rcases ht with rfl | rfl | rfl
    · exact absurd rfl (h s).1
    · exact absurd rfl (h s).2.1
    · exact absurd rfl (h s).2.2
  cases kind with
  | number => exact ⟨fun _ _ _ => rfl, fun _ => rfl⟩
  | word =>
    refine ⟨fun t ht h => ?_, fun h => ?_⟩
    · cases h
      refine hno ht fun s => ?_
      split <;> simp
    · cases h
  | rawString =>
    refine ⟨fun t ht h => ?_, fun h => ?_⟩
    · cases h
      exact hno ht fun s => by simp
    · cases h
  | string =>
    refine ⟨fun t ht h => ?_, fun h => ?_⟩
    · rw [read] at h
      split at h <;> cases h
      exact hno ht fun s => by simp
    · rw [read] at h
      split at h <;> cases h
  | rune =>
    refine ⟨fun t ht h => ?_, fun h => ?_⟩
    · simp only [read] at h
      repeat' split at h
      all_goals cases h
      all_goals exact hno ht fun s => by simp
    · simp only [read] at h
      repeat' split at h
      all_goals cases h
  | punct p =>
    refine ⟨fun t ht h => ?_, fun h => ?_⟩
    · cases h
      exact hno ht fun s => by simp
    · cases h
  | _ => exact ⟨fun _ _ h => (by cases h), fun h => by cases h⟩

theorem Finds.ofLexeme {line : Line} {offset : Nat} {l : Lexeme} {span : Span}
    (h : (ofLexeme line offset l).1.Finds span) :
    l.kind = .number ∧ span = ⟨offset, offset + byteSize l.text⟩ := by
  have hcomment {c : LooseComment} : ¬ (⟨[], [], [c]⟩ : Scan).Finds span := by
    rintro (⟨_, _, h⟩ | h) <;> cases h
  have hnone : ¬ none.Finds span := by
    rintro (⟨_, _, h⟩ | h) <;> cases h
  have hfault {f : LexFault} {place : Span} (h : (fault f place).Finds span) :
      f = .invalidNumber ∧ span = place := by
    rcases h with ⟨t, ⟨s, ht⟩, h⟩ | h
    · obtain ⟨rfl, -⟩ := Placed.mk.inj (List.mem_singleton.1 h)
      rcases ht with ht | ht | ht <;> cases ht
    · obtain ⟨rfl, rfl⟩ := Prod.mk.inj (List.mem_singleton.1 h)
      exact ⟨rfl, rfl⟩
  unfold Scan.ofLexeme at h
  dsimp only at h
  split at h
  · exact absurd h hnone
  · exact absurd h not_finds_lineEnd
  · exact absurd h hcomment
  · split at h
    · exact absurd h hcomment
    · exact absurd (h.of_append.resolve_left hcomment) not_finds_lineEnd
  · cases (hfault (h.of_append.resolve_left hcomment)).1
  · split at h
    · exact absurd h hnone
    · cases (hfault h).1
  · split at h
    · rename_i t hread
      rcases h with ⟨u, hu, h⟩ | h
      · obtain ⟨rfl, rfl⟩ := Placed.mk.inj (List.mem_singleton.1 h)
        exact ⟨kind_of_read.1 u hu hread, rfl⟩
      · cases h
    · rename_i f hread
      obtain ⟨rfl, rfl⟩ := hfault h
      exact ⟨kind_of_read.2 hread, rfl⟩

theorem Finds.ofLexemes {line : Line} {offset : Nat} {ls : List Lexeme} {span : Span}
    (h : (ofLexemes line offset ls).Finds span) : ∃ (front : List Lexeme) (w : List Char)
      (back : List Lexeme),
      ls = front ++ ⟨.number, w⟩ :: back ∧
      span = ⟨offset + byteSize (front.flatMap Lexeme.text),
        offset + byteSize (front.flatMap Lexeme.text) + byteSize w⟩ := by
  induction ls generalizing line offset with
  | nil => exact absurd h not_finds_lineEnd
  | cons l ls ih =>
    rw [ofLexemes_cons] at h
    rcases h.of_append with h | h
    · obtain ⟨hkind, rfl⟩ := h.ofLexeme
      obtain ⟨kind, w⟩ := l
      obtain rfl : kind = .number := hkind
      exact ⟨[], w, ls, rfl, rfl⟩
    · obtain ⟨front, w, back, rfl, rfl⟩ := ih h
      refine ⟨l :: front, w, back, rfl, ?_⟩
      rw [List.flatMap_cons, byteSize_append, ← Nat.add_assoc]

/-- What a scan makes of the numbers of a text, for a lenient reader or for a strict one. -/
structure Numbered (lenient : Bool) (text : List Char) (s : Scan) : Prop where
  /-- No literal at the place of a number is longer, unless its last dot is the first of two. -/
  munched : ∀ span w after, Lexeme.NumberAt text span w after → ∀ v, Number.Literal lenient v →
    v <+: w ++ after → v.length ≤ w.length ∨ ∃ u, v = u ++ ['.'] ∧ u ++ ['.', '.'] <+: w ++ after
  /-- At the place of a number is one token, and the grammar says which. -/
  tokens : ∀ span w after, Lexeme.NumberAt text span w after →
    ∀ t, ⟨t, span⟩ ∈ s.tokens ↔ Number.Reads lenient w t
  faults : ∀ span w after, Lexeme.NumberAt text span w after →
    ∀ f, (f, span) ∈ s.faults ↔ f = .invalidNumber ∧ ¬ Number.Literal lenient w
  /-- Nothing else is taken for a number. -/
  sources : ∀ span, s.Finds span → ∃ w after, Lexeme.NumberAt text span w after

end Scan

/-- Every number of a text is cut off as far as a literal reaches. It becomes the token of the literal
that it is by the lenient grammar, or an invalid one with a fault if it is none. -/
theorem numbers_scan (text : String) : (scan text).Numbered true text.toList := by
  have hread {span : Span} {w after : List Char} (h : Lexeme.NumberAt text.toList span w after) :
      (∀ t, ⟨t, span⟩ ∈ (scan text).tokens ↔ Number.Reads true w t) ∧
      ∀ f, (f, span) ∈ (scan text).faults ↔ f = .invalidNumber ∧ ¬ Number.Literal true w := by
    obtain ⟨line', htokens, hfaults⟩ := Scan.at_number h .start
    obtain ⟨c, cs, hw, hc, hi, -⟩ := h.front
    have hspan : (⟨span.start, span.start + byteSize w⟩ : Span) = span := by
      obtain ⟨_, _, _, _, rfl⟩ := h
      rfl
    have hhead : ∀ d ∈ w.head?, d = '.' ∨ Number.Radix.decimal.isDigit d = true := by
      subst hw
      rintro d ⟨⟩
      exact hc
    have hne : w ≠ [] := by simp [hw]
    obtain ⟨hok, herror⟩ := Scan.ofLexeme_number line' span.start w
    rcases Number.read_number hhead hne hi with ⟨t, ht, -, hliteral, hreads⟩ | ⟨hf, hbad, hreads⟩
    · refine ⟨fun u => ?_, fun f => ?_⟩
      · rw [scan, htokens, hreads, hok t ht, hspan]
        simp [Scan.token]
      · rw [scan, hfaults, hok t ht]
        simp [Scan.token, hliteral]
    · refine ⟨fun u => ?_, fun f => ?_⟩
      · rw [scan, htokens, hreads, herror _ hf, hspan]
        simp [Scan.fault]
      · rw [scan, hfaults, herror _ hf, hspan]
        simp [Scan.fault, hbad]
  refine ⟨fun span w after h v hv hprefix => ?_, fun _ _ _ h => (hread h).1,
    fun _ _ _ h => (hread h).2, fun span h => ?_⟩
  · obtain ⟨-, -, -, -, -, hlength⟩ := h.front
    obtain ⟨t, ht⟩ := hprefix
    by_cases hdot : v.getLast? = some '.' → t.head? ≠ some '.'
    · have hle := hv.le_numberLength hdot
      rw [ht] at hle
      refine .inl ?_
      rcases hlength with hlength | rfl
      · exact Nat.le_trans hle hlength
      · rw [List.append_nil] at ht
        exact (show v <+: w from ⟨t, ht⟩).length_le
    · rw [Classical.not_imp, Classical.not_not] at hdot
      obtain ⟨u, rfl⟩ := List.getLast?_eq_some_iff.1 hdot.1
      obtain ⟨ds, rfl⟩ := List.head?_eq_some_iff.1 hdot.2
      exact .inr ⟨u, rfl, ds, by simpa using ht⟩
  · obtain ⟨front, w, back, hall, rfl⟩ := Scan.Finds.ofLexemes h
    exact ⟨w, _, front, back, hall, rfl, by rw [Nat.zero_add]⟩

/-- A strict reader would not take an underscore that leads the digits of an exponent. -/
theorem exponent_led : Lexeme.NumberAt "1e_5".toList ⟨0, 4⟩ "1e_5".toList [] ∧
    ⟨.float "1e_5", 0, 4⟩ ∈ (scan "1e_5").tokens ∧ (scan "1e_5").faults = [] ∧
    ¬ (scan "1e_5").Numbered false "1e_5".toList := by
  have hat : Lexeme.NumberAt "1e_5".toList ⟨0, 4⟩ "1e_5".toList [] :=
    ⟨[], [], by decide +kernel, rfl, rfl⟩
  have htoken : ⟨.float "1e_5", 0, 4⟩ ∈ (scan "1e_5").tokens := by decide +kernel
  refine ⟨hat, htoken, by decide +kernel, fun h => ?_⟩
  have hchars : "1e_5".toList = ['1', 'e', '_', '5'] := by decide
  have hreads := (h.tokens _ _ _ hat _).1 htoken
  rw [hchars] at hreads
  generalize hcs : ['1', 'e', '_', '5'] = cs at hreads
  generalize ht : Token.float "1e_5" = t at hreads
  cases hreads with
  | int => cases ht
  | imag => cases ht
  | invalid => cases ht
  | float hfloat =>
    cases hfloat with
    | hex => cases hcs
    | decimal hfloat =>
      cases hfloat with
      | @point whole part scale =>
        have hdot : '.' ∈ ['1', 'e', '_', '5'] := by
          rw [hcs]
          simp
        revert hdot
        decide
      | fraction => cases hcs
      | @scaled whole scale hwhole hscale =>
        have hmem := hwhole.mem
        obtain ⟨c, ds, rfl, -⟩ := hwhole.head
        cases ds with
        | cons d ds =>
          simp only [List.cons_append, List.cons.injEq] at hcs
          obtain ⟨-, rfl, -⟩ := hcs
          rcases hmem 'e' (by simp) with h | h <;> cases h
        | nil =>
          obtain ⟨rfl, rfl⟩ := List.cons.inj hcs
          obtain ⟨-, hpower⟩ := hscale
          cases hpower with
          | signed hsign => rcases hsign with h | h <;> cases h
          | plain hrun =>
            cases hrun with
            | led hlead => cases hlead
            | digits h => exact h.ne_underscore rfl

end FuncLift
