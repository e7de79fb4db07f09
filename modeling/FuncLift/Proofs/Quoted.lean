import FuncLift.Proofs.Relexed
import Mathlib.Algebra.Group.Nat.Defs

/-!
# String and rune literals

A string literal is a row of characters and escapes between double quotes, a rune literal is one of
them between single quotes. A scan first looks for the closing quote, jumping over what follows a
backslash, and then reads the escapes in between. Both agree on where the literal ends: no escape but
that of the quote itself has a quote in it.
-/
namespace FuncLift

namespace Escape

/-! ## The grammar -/

theorem forall_of_all {p : Char → Prop} [DecidablePred p] {cs : List Char}
    (h : cs.all (fun c => decide (p c)) = true) : ∀ c ∈ cs, p c :=
  fun c hc => of_decide_eq_true (List.all_eq_true.1 h c hc)

/-- Value of a digit in base sixteen, in either case. What is no digit has a value out of range. -/
def digitValue (c : Char) : Nat := "0123456789abcdef".toList.idxOf c.toLower

/-- So many digits of a base. -/
structure Row (base n : Nat) (ds : List Char) : Prop where
  length : ds.length = n
  digits : ∀ d ∈ ds, digitValue d < base

/-- The number that a row of digits stands for, the last of them counting ones. -/
def value (base : Nat) : List Char → Nat
  | [] => 0
  | d :: ds => digitValue d * base ^ ds.length + value base ds

/-- What may follow a backslash. -/
inductive Escaped (quote : Char) : List Char → Prop where
  | sign {c : Char} (h : c ∈ ['a', 'b', 'f', 'n', 'r', 't', 'v', '\\', quote]) : Escaped quote [c]
  | octal {ds : List Char} (hds : Row 8 3 ds) (h : value 8 ds ≤ 255) : Escaped quote ds
  | byte {ds : List Char} (hds : Row 16 2 ds) : Escaped quote ('x' :: ds)
  | short {ds : List Char} (hds : Row 16 4 ds) (h : (value 16 ds).isValidChar) :
      Escaped quote ('u' :: ds)
  | long {ds : List Char} (hds : Row 16 8 ds) (h : (value 16 ds).isValidChar) :
      Escaped quote ('U' :: ds)

/-- A character that stands for itself, or an escape. -/
inductive Piece (quote : Char) : List Char → Prop where
  | char {c : Char} (h : c ∉ [quote, '\\', '\n', '\r']) : Piece quote [c]
  | escape {e : List Char} (h : Escaped quote e) : Piece quote ('\\' :: e)

inductive Pieces (quote : Char) : List Char → Prop where
  | nil : Pieces quote []
  | cons {p cs : List Char} (hp : Piece quote p) (h : Pieces quote cs) : Pieces quote (p ++ cs)

def StringLiteral (w : List Char) : Prop := ∃ cs, w = '"' :: (cs ++ ['"']) ∧ Pieces '"' cs

def RuneLiteral (w : List Char) : Prop := ∃ cs, w = '\'' :: (cs ++ ['\'']) ∧ Piece '\'' cs

/-! ## Digits and their values -/

theorem digitValue_ascii : ∀ n < 128,
    (Number.Radix.hex.isDigit (Char.ofNat n) = true ↔ digitValue (Char.ofNat n) < 16) ∧
    (Number.Radix.octal.isDigit (Char.ofNat n) = true ↔ digitValue (Char.ofNat n) < 8) ∧
    (digitValue (Char.ofNat n) < 16 → digitValue (Char.ofNat n) =
      if (Char.ofNat n).isDigit then (Char.ofNat n).toNat - '0'.toNat
      else (Char.ofNat n).toLower.toNat - 'a'.toNat + 10) := by
  decide +kernel

section Digits

variable {c : Char} {ds : List Char}

theorem not_digit (h : 128 ≤ c.toNat) : Number.Radix.hex.isDigit c = false ∧
    Number.Radix.octal.isDigit c = false ∧ digitValue c = 16 := by
  have hlower : c.toLower = c := by
    unfold Char.toLower
    rw [dif_neg]
    rintro ⟨-, hle⟩
    have : c.toNat ≤ 90 := hle
    omega
  have hne : ∀ d : Char, d.toNat < 128 → c ≠ d := by
    rintro d hd rfl
    omega
  have hdigit : c.isDigit = false := by
    simp only [Char.isDigit, Bool.and_eq_false_iff, decide_eq_false_iff_not, ge_iff_le]
    refine .inr fun hle => ?_
    have : c.toNat ≤ 57 := hle
    omega
  refine ⟨?_, ?_, ?_⟩
  · simp only [Number.Radix.isDigit, hdigit, hlower, Bool.false_or, Bool.and_eq_false_iff,
      decide_eq_false_iff_not]
    refine .inr fun hle => ?_
    have : c.toNat ≤ 102 := hle
    omega
  · simp only [Number.Radix.isDigit, Bool.and_eq_false_iff, decide_eq_false_iff_not]
    refine .inr fun hle => ?_
    have : c.toNat ≤ 55 := hle
    omega
  · have hmem : c ∉ "0123456789abcdef".toList := by
      have hsmall : ∀ d ∈ "0123456789abcdef".toList, d.toNat < 128 := forall_of_all (by decide)
      exact fun hmem => hne c (hsmall c hmem) rfl
    rw [digitValue, hlower, List.idxOf_eq_length hmem]
    decide

theorem isDigit_hex_iff : Number.Radix.hex.isDigit c = true ↔ digitValue c < 16 := by
  by_cases h : c.toNat < 128
  · have hascii := (digitValue_ascii _ h).1
    rwa [Char.ofNat_toNat] at hascii
  · obtain ⟨hhex, -, hvalue⟩ := not_digit (Nat.le_of_not_lt h)
    simp [hhex, hvalue]

theorem isDigit_octal_iff : Number.Radix.octal.isDigit c = true ↔ digitValue c < 8 := by
  by_cases h : c.toNat < 128
  · have hascii := (digitValue_ascii _ h).2.1
    rwa [Char.ofNat_toNat] at hascii
  · obtain ⟨-, hoctal, hvalue⟩ := not_digit (Nat.le_of_not_lt h)
    simp [hoctal, hvalue]

theorem digitValue_eq (h : digitValue c < 16) : digitValue c =
    if c.isDigit then c.toNat - '0'.toNat else c.toLower.toNat - 'a'.toNat + 10 := by
  by_cases hc : c.toNat < 128
  · have hascii := (digitValue_ascii _ hc).2.2
    rw [Char.ofNat_toNat] at hascii
    exact hascii h
  · obtain ⟨-, -, hvalue⟩ := not_digit (Nat.le_of_not_lt hc)
    omega

/-- Reading digits from the front, with what was read so far moved up by one place each time. -/
theorem foldl_value {base : Nat} {f : Char → Nat} (hf : ∀ d ∈ ds, f d = digitValue d) (n : Nat) :
    ds.foldl (fun n d => n * base + f d) n = n * base ^ ds.length + value base ds := by
  induction ds generalizing n with
  | nil => simp [value]
  | cons d ds ih =>
    have hds : ∀ x ∈ ds, f x = digitValue x := fun x hx => hf x (List.mem_cons_of_mem _ hx)
    calc
      (d :: ds).foldl (fun n d => n * base + f d) n
          = (n * base + digitValue d) * base ^ ds.length + value base ds := by
        rw [List.foldl_cons, ih hds, hf d List.mem_cons_self]
      _ = n * base ^ (ds.length + 1) + (digitValue d * base ^ ds.length + value base ds) := by
        rw [Nat.add_mul, Nat.mul_assoc, ← Nat.pow_succ', Nat.add_assoc]

theorem hexValue_eq (h : ∀ d ∈ ds, digitValue d < 16) : hexValue ds = value 16 ds :=
  (foldl_value (fun d hd => (digitValue_eq (h d hd)).symm) 0).trans (by simp)

theorem octalValue_eq (h : ∀ d ∈ ds, digitValue d < 8) : octalValue ds = value 8 ds := by
  have hf : ∀ d ∈ ds, d.toNat - '0'.toNat = digitValue d := by
    intro d hd
    have hlt := h d hd
    have hdigit : d.isDigit = true := by
      have hoctal := isDigit_octal_iff.2 hlt
      simp only [Number.Radix.isDigit, Bool.and_eq_true, decide_eq_true_eq] at hoctal
      simp only [Char.isDigit, Bool.and_eq_true, decide_eq_true_eq, ge_iff_le]
      exact ⟨hoctal.1, Nat.le_trans (m := '7'.toNat) hoctal.2 (by decide)⟩
    rw [digitValue_eq (by omega), if_pos hdigit]
  exact (foldl_value hf 0).trans (by simp)

theorem isScalarValue_iff {n : Nat} : isScalarValue n = true ↔ n.isValidChar := by
  simp only [isScalarValue, Bool.and_eq_true, decide_eq_true_eq, Bool.not_eq_true',
    Bool.and_eq_false_iff, decide_eq_false_iff_not, Nat.isValidChar]
  omega

end Digits

/-! ## Escapes -/

section Lengths

variable {quote : Char} {r : Number.Radix} {n : Nat} {cs ds e : List Char}

theorem digits_eq_some : digits? r n cs = some ds ↔
    ds.length = n ∧ (∀ d ∈ ds, r.isDigit d = true) ∧ ds <+: cs := by
  unfold digits?
  dsimp only
  constructor
  · intro h
    split at h
    · obtain rfl := Option.some.inj h
      rename_i hall
      exact ⟨hall.1, List.all_eq_true.1 hall.2, List.take_prefix n cs⟩
    · cases h
  · rintro ⟨rfl, hall, hprefix⟩
    rw [← List.prefix_iff_eq_take.1 hprefix, if_pos ⟨rfl, List.all_eq_true.2 hall⟩]

theorem row_hex_iff : (digits? .hex n cs = some ds) ↔ Row 16 n ds ∧ ds <+: cs := by
  simp only [digits_eq_some, isDigit_hex_iff]
  exact ⟨fun h => ⟨⟨h.1, h.2.1⟩, h.2.2⟩, fun h => ⟨h.1.length, h.1.digits, h.2⟩⟩

theorem row_octal_iff : (digits? .octal n cs = some ds) ↔ Row 8 n ds ∧ ds <+: cs := by
  simp only [digits_eq_some, isDigit_octal_iff]
  exact ⟨fun h => ⟨⟨h.1, h.2.1⟩, h.2.2⟩, fun h => ⟨h.1.length, h.1.digits, h.2⟩⟩

theorem sign_ne_octal (hq : quote = '"' ∨ quote = '\'') {c : Char} (hc : digitValue c < 8) :
    c ∉ ['a', 'b', 'f', 'n', 'r', 't', 'v', '\\', quote] := by
  have hsigns : ∀ d ∈ ['a', 'b', 'f', 'n', 'r', 't', 'v', '\\', quote], ¬ digitValue d < 8 := by
    rcases hq with rfl | rfl <;> exact forall_of_all (by decide)
  exact fun hmem => hsigns c hmem hc

theorem Escaped.length_append (hq : quote = '"' ∨ quote = '\'') (h : Escaped quote e)
    (cs : List Char) : length? quote (e ++ cs) = some e.length := by
  have hletter : ∀ c ∈ ['x', 'u', 'U'], c ∉ ['a', 'b', 'f', 'n', 'r', 't', 'v', '\\', quote] ∧
      Number.Radix.octal.isDigit c = false := by
    rcases hq with rfl | rfl <;> exact forall_of_all (by decide)
  cases h with
  | sign h => simp only [List.singleton_append, length?, List.contains_iff_mem.2 h, if_true,
      List.length_singleton]
  | octal hds hvalue =>
    have hread := row_octal_iff.2 ⟨hds, List.prefix_append e cs⟩
    obtain ⟨c, ds, rfl⟩ := List.exists_cons_of_length_eq_add_one hds.length
    have hc := hds.digits c List.mem_cons_self
    rw [List.cons_append] at hread ⊢
    rw [length?, if_neg (by simpa using sign_ne_octal hq hc), if_pos (isDigit_octal_iff.2 hc), hread,
      Option.bind_some, octalValue_eq hds.digits, if_pos hvalue, hds.length]
  | @byte ds hds =>
    obtain ⟨hsign, hoctal⟩ := hletter 'x' (by simp)
    have hread := row_hex_iff.2 ⟨hds, List.prefix_append ds cs⟩
    simp only [List.cons_append, length?, List.contains_eq_mem, hsign, hoctal, hread, decide_false,
      Bool.false_eq_true, if_false, if_true, Option.map_some, List.length_cons, hds.length]
  | @short ds hds hvalue =>
    obtain ⟨hsign, hoctal⟩ := hletter 'u' (by simp)
    have hread := row_hex_iff.2 ⟨hds, List.prefix_append ds cs⟩
    have hscalar := isScalarValue_iff.2 hvalue
    rw [← hexValue_eq hds.digits] at hscalar
    simp only [List.cons_append, length?, List.contains_eq_mem, hsign, hoctal, hread, decide_false,
      Bool.false_eq_true, if_false, if_true, Option.bind_some, hscalar, List.length_cons, hds.length]
    rw [if_neg (by decide)]
  | @long ds hds hvalue =>
    obtain ⟨hsign, hoctal⟩ := hletter 'U' (by simp)
    have hread := row_hex_iff.2 ⟨hds, List.prefix_append ds cs⟩
    have hscalar := isScalarValue_iff.2 hvalue
    rw [← hexValue_eq hds.digits] at hscalar
    simp only [List.cons_append, length?, List.contains_eq_mem, hsign, hoctal, hread, decide_false,
      Bool.false_eq_true, if_false, if_true, Option.bind_some, hscalar, List.length_cons, hds.length]
    rw [if_neg (by decide), if_neg (by decide)]

theorem escaped_of_length (h : length? quote cs = some n) :
    ∃ e rest, cs = e ++ rest ∧ Escaped quote e ∧ n = e.length := by
  cases cs with
  | nil => cases h
  | cons c cs =>
    rw [length?] at h
    by_cases hsign : ['a', 'b', 'f', 'n', 'r', 't', 'v', '\\', quote].contains c = true
    · rw [if_pos hsign] at h
      obtain rfl := Option.some.inj h
      exact ⟨[c], cs, rfl, .sign (List.contains_iff_mem.1 hsign), rfl⟩
    rw [if_neg hsign] at h
    by_cases hoctal : Number.Radix.octal.isDigit c = true
    · rw [if_pos hoctal] at h
      obtain ⟨ds, hread, hvalue⟩ := Option.bind_eq_some_iff.1 h
      obtain ⟨hds, rest, hrest⟩ := row_octal_iff.1 hread
      rw [octalValue_eq hds.digits] at hvalue
      by_cases hle : value 8 ds ≤ 255
      · rw [if_pos hle] at hvalue
        obtain rfl := Option.some.inj hvalue
        exact ⟨ds, rest, hrest.symm, .octal hds hle, hds.length.symm⟩
      · rw [if_neg hle] at hvalue
        cases hvalue
    rw [if_neg hoctal] at h
    by_cases hx : c = 'x'
    · subst hx
      rw [if_pos rfl] at h
      obtain ⟨ds, hread, hn⟩ := Option.map_eq_some_iff.1 h
      obtain ⟨hds, rest, rfl⟩ := row_hex_iff.1 hread
      subst hn
      exact ⟨'x' :: ds, rest, rfl, .byte hds, by simp [hds.length]⟩
    rw [if_neg hx] at h
    have hscalar {ds : List Char} {k m : Nat} (hds : Row 16 k ds)
        (hm : (if isScalarValue (hexValue ds) then some m else none) = some n) :
        (value 16 ds).isValidChar ∧ n = m := by
      by_cases hvalue : isScalarValue (hexValue ds) = true
      · rw [if_pos hvalue] at hm
        rw [hexValue_eq hds.digits] at hvalue
        exact ⟨isScalarValue_iff.1 hvalue, (Option.some.inj hm).symm⟩
      · rw [if_neg hvalue] at hm
        cases hm
    by_cases hu : c = 'u'
    · subst hu
      rw [if_pos rfl] at h
      obtain ⟨ds, hread, hn⟩ := Option.bind_eq_some_iff.1 h
      obtain ⟨hds, rest, rfl⟩ := row_hex_iff.1 hread
      obtain ⟨hvalue, rfl⟩ := hscalar hds hn
      exact ⟨'u' :: ds, rest, rfl, .short hds hvalue, by simp [hds.length]⟩
    rw [if_neg hu] at h
    by_cases hU : c = 'U'
    · subst hU
      rw [if_pos rfl] at h
      obtain ⟨ds, hread, hn⟩ := Option.bind_eq_some_iff.1 h
      obtain ⟨hds, rest, rfl⟩ := row_hex_iff.1 hread
      obtain ⟨hvalue, rfl⟩ := hscalar hds hn
      exact ⟨'U' :: ds, rest, rfl, .long hds hvalue, by simp [hds.length]⟩
    · rw [if_neg hU] at h
      cases h

end Lengths

/-! ## What stands between the quotes -/

section Bodies

variable {quote : Char} {cs p e rest : List Char}

theorem quotedLength_cons {c : Char} (hc : c ≠ '\\') : quotedLength? quote (c :: cs) =
    if c = quote then some 1
    else if c = '\n' ∨ c = '\r' then none
    else (quotedLength? quote cs).map (· + 1) := by
  rw [quotedLength?]
  · exact fun h _ => hc h
  · exact fun _ _ h _ => hc h

/-- Characters that are nothing special are passed over on the way to the closing quote. -/
theorem quotedLength_append (h : ∀ c ∈ p, c ∉ [quote, '\\', '\n', '\r']) :
    quotedLength? quote (p ++ cs) = (quotedLength? quote cs).map (· + p.length) := by
  induction p with
  | nil => simp
  | cons c p ih =>
    have hc := h c List.mem_cons_self
    simp only [List.mem_cons, List.not_mem_nil, or_false, not_or] at hc
    rw [List.cons_append, quotedLength_cons hc.2.1, if_neg hc.1, if_neg (not_or.2 hc.2.2),
      ih fun d hd => h d (List.mem_cons_of_mem _ hd), Option.map_map]
    rfl

/-- Only the first character of an escape can be taken for a quote or a backslash. -/
theorem Escaped.head (hq : quote = '"' ∨ quote = '\'') (h : Escaped quote e) :
    ∃ c p, e = c :: p ∧ c ≠ '\n' ∧ ∀ d ∈ p, d ∉ [quote, '\\', '\n', '\r'] := by
  have hdigit {d : Char} (hd : digitValue d < 16) : d ∉ [quote, '\\', '\n', '\r'] := by
    have hspecial : ∀ d ∈ [quote, '\\', '\n', '\r'], ¬ digitValue d < 16 := by
      rcases hq with rfl | rfl <;> exact forall_of_all (by decide)
    exact fun hmem => hspecial d hmem hd
  cases h with
  | @sign c h =>
    have hline : '\n' ∉ ['a', 'b', 'f', 'n', 'r', 't', 'v', '\\', quote] := by
      rcases hq with rfl | rfl <;> decide
    refine ⟨c, [], rfl, ?_, by simp⟩
    rintro rfl
    exact hline h
  | octal hds =>
    obtain ⟨c, ds, rfl⟩ := List.exists_cons_of_length_eq_add_one hds.length
    have hsmall : ∀ d ∈ c :: ds, digitValue d < 16 := fun d hd =>
      Nat.lt_trans (hds.digits d hd) (by decide)
    refine ⟨c, ds, rfl, ?_, fun d hd => hdigit (hsmall d (List.mem_cons_of_mem _ hd))⟩
    rintro rfl
    exact hdigit (hsmall _ List.mem_cons_self) (by simp)
  | @byte ds hds => exact ⟨'x', ds, rfl, by decide, fun d hd => hdigit (hds.digits d hd)⟩
  | @short ds hds => exact ⟨'u', ds, rfl, by decide, fun d hd => hdigit (hds.digits d hd)⟩
  | @long ds hds => exact ⟨'U', ds, rfl, by decide, fun d hd => hdigit (hds.digits d hd)⟩

theorem Escaped.quotedLength (hq : quote = '"' ∨ quote = '\'') (h : Escaped quote e)
    (cs : List Char) : quotedLength? quote ('\\' :: (e ++ cs)) =
      (quotedLength? quote cs).map (· + (e.length + 1)) := by
  obtain ⟨c, p, rfl, hc, hp⟩ := h.head hq
  rw [List.cons_append, quotedLength?, if_neg hc, quotedLength_append hp, Option.map_map]
  rfl

theorem Piece.quotedLength (hq : quote = '"' ∨ quote = '\'') (h : Piece quote p) (cs : List Char) :
    quotedLength? quote (p ++ cs) = (quotedLength? quote cs).map (· + p.length) := by
  cases h with
  | char hc => exact quotedLength_append fun d hd => by rwa [List.mem_singleton.1 hd]
  | escape he => exact he.quotedLength hq cs

theorem Piece.wellFormed (hq : quote = '"' ∨ quote = '\'') (h : Piece quote p) (cs : List Char) :
    wellFormed quote (p ++ cs) = Escape.wellFormed quote cs := by
  cases h with
  | @char c hc =>
    simp only [List.mem_cons, not_or] at hc
    rw [List.singleton_append, Escape.wellFormed, if_neg hc.2.1]
  | @escape e he =>
    rw [List.cons_append, Escape.wellFormed, if_pos rfl, he.length_append hq]
    simp

theorem Pieces.quotedLength (hq : quote = '"' ∨ quote = '\'') (h : Pieces quote cs)
    (rest : List Char) : quotedLength? quote (cs ++ quote :: rest) = some (cs.length + 1) := by
  induction h with
  | nil =>
    have hquote : quote ≠ '\\' := by rcases hq with rfl | rfl <;> decide
    rw [List.nil_append, quotedLength_cons hquote, if_pos rfl]
    rfl
  | @cons p cs hp _ ih =>
    rw [List.append_assoc, hp.quotedLength hq, ih, Option.map_some, List.length_append]
    exact congrArg some (by omega)

theorem Pieces.wellFormed (hq : quote = '"' ∨ quote = '\'') (h : Pieces quote cs) :
    Escape.wellFormed quote cs = true := by
  induction h with
  | nil => rw [Escape.wellFormed]
  | cons hp _ ih => rw [hp.wellFormed hq, ih]

theorem split_of_quotedLength {n : Nat} (h : quotedLength? quote cs = some n) :
    ∃ body rest, cs = body ++ quote :: rest ∧ n = body.length + 1 := by
  fun_induction quotedLength? quote cs generalizing n with
  | case1 => cases h
  | case2 => cases h
  | case3 => cases h
  | case4 c cs _ ih =>
    obtain ⟨m, hm, rfl⟩ := Option.map_eq_some_iff.1 h
    obtain ⟨body, rest, rfl, rfl⟩ := ih hm
    exact ⟨'\\' :: c :: body, rest, rfl, rfl⟩
  | case5 =>
    obtain rfl := Option.some.inj h
    exact ⟨[], _, rfl, rfl⟩
  | case6 => cases h
  | case7 c cs _ _ _ _ ih =>
    obtain ⟨m, hm, rfl⟩ := Option.map_eq_some_iff.1 h
    obtain ⟨body, rest, rfl, rfl⟩ := ih hm
    exact ⟨c :: body, rest, rfl, rfl⟩

/-- A body that ends where the search ended, and whose escapes are escapes, is made of pieces. -/
theorem pieces_of_wellFormed (hq : quote = '"' ∨ quote = '\'')
    (hlength : quotedLength? quote (cs ++ quote :: rest) = some (cs.length + 1))
    (hwell : wellFormed quote cs = true) : Pieces quote cs := by
  fun_induction wellFormed quote cs with
  | case1 => exact .nil
  | case2 => cases hwell
  | case3 cs n hn ih =>
    obtain ⟨e, back, rfl, he, rfl⟩ := escaped_of_length hn
    rw [List.drop_left] at ih hwell
    rw [List.cons_append, List.append_assoc, he.quotedLength hq] at hlength
    obtain ⟨m, hm, hlen⟩ := Option.map_eq_some_iff.1 hlength
    have hback : m = back.length + 1 := by
      simp only [List.length_cons, List.length_append] at hlen
      omega
    exact .cons (.escape he) (ih (by rw [hm, hback]) hwell)
  | case4 c cs hc ih =>
    rw [List.cons_append, quotedLength_cons hc] at hlength
    by_cases hquote : c = quote
    · rw [if_pos hquote] at hlength
      simp at hlength
    rw [if_neg hquote] at hlength
    by_cases hline : c = '\n' ∨ c = '\r'
    · rw [if_pos hline] at hlength
      cases hlength
    rw [if_neg hline] at hlength
    obtain ⟨m, hm, hlen⟩ := Option.map_eq_some_iff.1 hlength
    have hplain : c ∉ [quote, '\\', '\n', '\r'] := by
      simp only [List.mem_cons, List.not_mem_nil, or_false, not_or]
      exact ⟨hquote, hc, not_or.1 hline⟩
    have hback : m = cs.length + 1 := by
      simp only [List.length_cons] at hlen
      omega
    exact .cons (.char hplain) (ih (by rw [hm, hback]) hwell)

end Bodies

end Escape

/-! ## The tokens -/

namespace Lexeme

/-- A string or a rune at the front of a text starts with its quote, and ends with the next one that
the search comes to. -/
def CutsQuoted (c : Char) (cs : List Char) (r : LexemeKind × Nat) : Prop :=
  (r.1 = .string → c = '"' ∧ Escape.quotedLength? '"' cs = some r.2) ∧
    (r.1 = .rune → c = '\'' ∧ Escape.quotedLength? '\'' cs = some r.2)

theorem atFront_cutsQuoted (c : Char) (cs : List Char) : CutsQuoted c cs (atFront c cs) := by
  unfold atFront
  repeat' refine iteInduction (fun _ => ?_) fun _ => ?_
  all_goals try split
  all_goals first
    | exact ⟨fun _ => ⟨‹_›, ‹_›⟩, nofun⟩
    | exact ⟨nofun, fun _ => ⟨‹_›, ‹_›⟩⟩
    | exact ⟨nofun, nofun⟩

theorem atFront_string {cs : List Char} {n : Nat} (h : Escape.quotedLength? '"' cs = some n) :
    atFront '"' cs = (.string, n) := by
  have hstart : startsWord '"' = false := by decide +kernel
  simp [atFront, isSpace, hstart, startsNumber, h]

theorem atFront_rune {cs : List Char} {n : Nat} (h : Escape.quotedLength? '\'' cs = some (n + 2)) :
    atFront '\'' cs = (.rune, n + 2) := by
  have hstart : startsWord '\'' = false := by decide +kernel
  simp [atFront, isSpace, hstart, startsNumber, h]

end Lexeme

namespace Scan

open Escape

variable {w : List Char}

theorem inner_quoted (q : Char) (cs : List Char) : inner (q :: (cs ++ [q])) = cs := by
  rw [inner, List.tail_cons, List.dropLast_concat]

theorem read_string_iff {kind : LexemeKind} {s : String} : read kind w = .ok (.string s) ↔
    kind = .string ∧ s = String.ofList w ∧ wellFormed '"' (inner w) = true := by
  constructor
  · intro h
    unfold read at h
    dsimp only at h
    repeat' split at h
    all_goals cases h
    exact ⟨rfl, rfl, ‹_›⟩
  · rintro ⟨rfl, rfl, h⟩
    rw [read, if_pos h]

/-- What a rune has between its quotes: an escape, or a character that starts none. -/
def RuneBody (cs : List Char) : Prop :=
  (∃ e, cs = '\\' :: e ∧ length? '\'' e = some e.length) ∨ ∃ c, cs = [c] ∧ c ≠ '\\'

theorem read_rune_iff {kind : LexemeKind} {s : String} : read kind w = .ok (.rune s) ↔
    kind = .rune ∧ s = String.ofList w ∧ RuneBody (inner w) := by
  constructor
  · intro h
    unfold read at h
    dsimp only at h
    repeat' split at h
    all_goals cases h
    · subst_vars
      exact ⟨rfl, rfl, .inl ⟨_, ‹_›, ‹_›⟩⟩
    · rename_i hchar hinner
      exact ⟨rfl, rfl, .inr ⟨_, hinner, hchar⟩⟩
  · rintro ⟨rfl, rfl, hbody⟩
    rcases hbody with ⟨e, he, hlength⟩ | ⟨c, hcs, hc⟩
    · simp only [read, he, hlength, if_true]
    · simp only [read, hcs]

theorem literal_of_read {c : Char} {cs : List Char} {kind : LexemeKind} {n : Nat} {s : String}
    (hcut : Lexeme.CutsQuoted c cs (kind, n)) :
    (read kind (c :: cs.take n) = .ok (.string s) → StringLiteral s.toList) ∧
      (read kind (c :: cs.take n) = .ok (.rune s) → RuneLiteral s.toList) := by
  have hsplit {q : Char} (h : quotedLength? q cs = some n) : ∃ body rest,
      cs.take n = body ++ [q] ∧ quotedLength? q (body ++ q :: rest) = some (body.length + 1) := by
    obtain ⟨body, rest, rfl, rfl⟩ := split_of_quotedLength h
    refine ⟨body, rest, ?_, h⟩
    rw [List.append_cons, List.take_left' (by simp)]
  constructor
  · intro h
    obtain ⟨rfl, rfl, hwell⟩ := read_string_iff.1 h
    obtain ⟨rfl, hlength⟩ := hcut.1 rfl
    obtain ⟨body, rest, htake, hlength⟩ := hsplit hlength
    rw [htake, inner_quoted] at hwell
    rw [String.toList_ofList, htake]
    exact ⟨body, rfl, pieces_of_wellFormed (.inl rfl) hlength hwell⟩
  · intro h
    obtain ⟨rfl, rfl, hbody⟩ := read_rune_iff.1 h
    obtain ⟨rfl, hlength⟩ := hcut.2 rfl
    obtain ⟨body, rest, htake, hlength⟩ := hsplit hlength
    rw [htake, inner_quoted] at hbody
    rw [String.toList_ofList, htake]
    refine ⟨body, rfl, ?_⟩
    rcases hbody with ⟨e, rfl, he⟩ | ⟨d, rfl, hd⟩
    · obtain ⟨e', back, rfl, hescaped, hn⟩ := escaped_of_length he
      have hback : back = [] := by
        rw [List.length_append] at hn
        exact List.eq_nil_of_length_eq_zero (by omega)
      rw [hback, List.append_nil]
      exact .escape hescaped
    · -- one character is no quote and no line end, or the search would have stopped at it
      apply Piece.char
      rw [List.singleton_append, quotedLength_cons hd] at hlength
      by_cases hquote : d = '\''
      · rw [if_pos hquote] at hlength
        cases hlength
      rw [if_neg hquote] at hlength
      by_cases hline : d = '\n' ∨ d = '\r'
      · rw [if_pos hline] at hlength
        cases hlength
      · simp only [List.mem_cons, List.not_mem_nil, or_false, not_or]
        exact ⟨hquote, hd, not_or.1 hline⟩

theorem literal_ofLexemes (line : Line) (offset : Nat) (cs : List Char) {p : Placed} {s : String}
    (hp : p ∈ (ofLexemes line offset (Lexeme.all cs)).tokens) :
    (p.token = .string s → StringLiteral s.toList) ∧ (p.token = .rune s → RuneLiteral s.toList) := by
  fun_induction Lexeme.all cs generalizing line offset with
  | case1 =>
    have hword := word_lineEnd hp
    constructor
    · intro hs
      rw [hs] at hword
      cases hword
    · intro hs
      rw [hs] at hword
      cases hword
  | case2 c cs kind n hfront ih =>
    have hcut := Lexeme.atFront_cutsQuoted c cs
    rw [hfront] at hcut
    rw [ofLexemes] at hp
    rcases List.mem_append.1 hp with hp | hp
    · have hread (hs : p.token = .string s ∨ p.token = .rune s) :
          read kind (c :: cs.take n) = .ok p.token := by
        refine (read_of_word hp ?_).1
        rcases hs with hs | hs <;> simp [hs, Token.word?, Token.text?]
      constructor
      · intro hs
        exact (literal_of_read hcut).1 (hs ▸ hread (.inl hs))
      · intro hs
        exact (literal_of_read hcut).2 (hs ▸ hread (.inr hs))
    · exact ih _ _ hp

theorem head_of_read {c : Char} {w cs : List Char} {kind : LexemeKind} {t : Token}
    (hkind : kind = .string ∨ kind = .rune) (hfront : Lexeme.atFront c (w ++ cs) = (kind, w.length))
    (hread : read kind (c :: w) = .ok t) (line : Line) (offset : Nat) :
    (ofLexemes line offset (Lexeme.all (c :: (w ++ cs)))).tokens.head? =
      some ⟨t, offset, offset + byteSize (c :: w)⟩ := by
  rw [Lexeme.all_cons hfront, ofLexemes]
  rcases hkind with rfl | rfl
  · simp [ofLexeme, hread, append, token]
  · simp [ofLexeme, hread, append, token]

theorem head_string {s : String} (h : StringLiteral s.toList) (cs : List Char) (line : Line)
    (offset : Nat) : (ofLexemes line offset (Lexeme.all (s.toList ++ cs))).tokens.head? =
      some ⟨.string s, offset, offset + s.utf8ByteSize⟩ := by
  obtain ⟨body, hs, hpieces⟩ := h
  have hq : '"' = '"' ∨ '"' = '\'' := .inl rfl
  have hlength := hpieces.quotedLength hq cs
  rw [List.append_cons] at hlength
  have hfront : Lexeme.atFront '"' (body ++ ['"'] ++ cs) = (.string, (body ++ ['"']).length) := by
    rw [Lexeme.atFront_string hlength, List.length_append, List.length_singleton]
  have hread : read .string ('"' :: (body ++ ['"'])) = .ok (.string s) := by
    rw [read_string_iff, inner_quoted, ← hs, String.ofList_toList]
    exact ⟨rfl, rfl, hpieces.wellFormed hq⟩
  have hhead := head_of_read (.inl rfl) hfront hread line offset
  rwa [← hs, byteSize_toList, ← List.cons_append, ← hs] at hhead

theorem head_rune {s : String} (h : RuneLiteral s.toList) (cs : List Char) (line : Line)
    (offset : Nat) : (ofLexemes line offset (Lexeme.all (s.toList ++ cs))).tokens.head? =
      some ⟨.rune s, offset, offset + s.utf8ByteSize⟩ := by
  obtain ⟨body, hs, hpiece⟩ := h
  have hq : '\'' = '"' ∨ '\'' = '\'' := .inr rfl
  have hpieces : Pieces '\'' body := by
    rw [← List.append_nil body]
    exact .cons hpiece .nil
  have hlength := hpieces.quotedLength hq cs
  rw [List.append_cons] at hlength
  have hpos : 0 < body.length := by cases hpiece <;> exact Nat.succ_pos _
  have hfront : Lexeme.atFront '\'' (body ++ ['\''] ++ cs) = (.rune, (body ++ ['\'']).length) := by
    obtain ⟨n, hn⟩ : ∃ n, body.length = n + 1 := ⟨body.length - 1, by omega⟩
    rw [hn] at hlength
    rw [Lexeme.atFront_rune hlength, List.length_append, List.length_singleton, hn]
  have hread : read .rune ('\'' :: (body ++ ['\''])) = .ok (.rune s) := by
    rw [read_rune_iff, inner_quoted, ← hs, String.ofList_toList]
    refine ⟨rfl, rfl, ?_⟩
    cases hpiece with
    | @char c hc =>
      simp only [List.mem_cons, not_or] at hc
      exact .inr ⟨c, rfl, hc.2.1⟩
    | @escape e he =>
      have hescape := he.length_append hq []
      rw [List.append_nil] at hescape
      exact .inl ⟨e, rfl, hescape⟩
  have hhead := head_of_read (.inr rfl) hfront hread line offset
  rwa [← hs, byteSize_toList, ← List.cons_append, ← hs] at hhead

end Scan

/-- A text is read as a string or a rune in front of any other text exactly if it is a literal by the
grammar; and wherever a scan finds a string or a rune, it is a literal. -/
theorem quoted_scan :
    (∀ w rest : String, (scan (w ++ rest)).tokens.head? = some ⟨.string w, 0, w.utf8ByteSize⟩ ↔
      Escape.StringLiteral w.toList) ∧
    (∀ w rest : String, (scan (w ++ rest)).tokens.head? = some ⟨.rune w, 0, w.utf8ByteSize⟩ ↔
      Escape.RuneLiteral w.toList) ∧
    ∀ (text : String), ∀ p ∈ (scan text).tokens, ∀ s,
      (p.token = .string s → Escape.StringLiteral s.toList) ∧
        (p.token = .rune s → Escape.RuneLiteral s.toList) := by
  have hall (text : String) (p : Placed) (hp : p ∈ (scan text).tokens) (s : String) :=
    Scan.literal_ofLexemes .start 0 text.toList (s := s) hp
  refine ⟨fun w rest => ⟨fun h => ?_, fun h => ?_⟩, fun w rest => ⟨fun h => ?_, fun h => ?_⟩, hall⟩
  · exact (hall _ _ (List.mem_of_mem_head? h) w).1 rfl
  · have hhead := Scan.head_string h rest.toList .start 0
    rwa [← String.toList_append, Nat.zero_add] at hhead
  · exact (hall _ _ (List.mem_of_mem_head? h) w).2 rfl
  · have hhead := Scan.head_rune h rest.toList .start 0
    rwa [← String.toList_append, Nat.zero_add] at hhead

end FuncLift
