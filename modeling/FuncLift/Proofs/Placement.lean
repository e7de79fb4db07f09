import FuncLift.Token.Scan

/-!
# Where tokens and comments end

In a text that ends with a newline, only that newline itself reaches the end of the text: every
other lexeme ends with a character that is no newline. So all tokens and comments end strictly
inside the text.
-/
namespace FuncLift

namespace Lexeme

section Lacks

variable {x : Char} {cs : List Char} {m n : Nat}

/-- None of a character among so many at the front. -/
def Lacks (x : Char) (n : Nat) (cs : List Char) : Prop := x ∉ cs.take n

/-- No newline among so many characters at the front. -/
abbrev Plain (n : Nat) (cs : List Char) : Prop := Lacks '\n' n cs

theorem Lacks.zero : Lacks x 0 cs := by simp [Lacks]

theorem Lacks.add (hm : Lacks x m cs) (hn : Lacks x n (cs.drop m)) : Lacks x (m + n) cs := by
  unfold Lacks
  rw [List.take_add, List.mem_append]
  exact not_or.2 ⟨hm, hn⟩

theorem Lacks.cons {c : Char} (hc : c ≠ x) (h : Lacks x n cs) : Lacks x (1 + n) (c :: cs) := by
  have h1 : Lacks x 1 (c :: cs) := by simpa [Lacks] using hc.symm
  exact h1.add h

theorem Lacks.cons_cons {c d : Char} (hc : c ≠ x) (hd : d ≠ x) (h : Lacks x n cs) :
    Lacks x (2 + n) (c :: d :: cs) := by
  have h2 : Lacks x 2 (c :: d :: cs) := by simpa [Lacks] using ⟨hc.symm, hd.symm⟩
  exact h2.add h

theorem Lacks.takeWhile {p : Char → Bool} (hp : p x = false) :
    Lacks x (cs.takeWhile p).length cs := by
  unfold Lacks
  rw [← List.prefix_iff_eq_take.1 (List.takeWhile_prefix p)]
  intro h
  have := List.all_eq_true.1 List.all_takeWhile _ h
  simp [hp] at this

/-- A character that is no part of a number, unless it is the last one. -/
structure Foreign (x : Char) : Prop where
  runs : ∀ r : Number.Radix, r.runs x = false
  exponent : ∀ r : Number.Radix, x.toLower ≠ r.exponentMark
  mark : Number.Radix.ofMark? x = none
  signs : '.' ≠ x ∧ '+' ≠ x ∧ '-' ≠ x ∧ '0' ≠ x

theorem foreign_newline : Foreign '\n' := by
  refine ⟨?_, ?_, ?_, ?_⟩
  · rintro ⟨⟩ <;> decide
  · rintro ⟨⟩ <;> decide
  · decide
  · decide

namespace Foreign

theorem lacks_run (hx : Foreign x) (r : Number.Radix) : Lacks x (Number.runLength r cs) cs :=
  .takeWhile (hx.runs r)

theorem lacks_mantissa (hx : Foreign x) (r : Number.Radix) :
    Lacks x (Number.mantissaLength r cs) cs := by
  unfold Number.mantissaLength
  dsimp only
  split
  · exact hx.lacks_run r
  · rename_i rest _ hdrop
    rw [Nat.add_assoc]
    exact (hx.lacks_run r).add (by rw [hdrop]; exact .cons hx.signs.1 (hx.lacks_run r))
  · exact hx.lacks_run r

theorem lacks_exponent (hx : Foreign x) (r : Number.Radix) :
    Lacks x (Number.exponentLength r cs) cs := by
  unfold Number.exponentLength
  split
  · exact .zero
  · rename_i c cs
    split
    · rename_i hc
      have hc : c ≠ x := by
        rintro rfl
        exact hx.exponent r hc
      split
      · exact .cons_cons hc hx.signs.2.1 (hx.lacks_run _)
      · exact .cons_cons hc hx.signs.2.2.1 (hx.lacks_run _)
      · exact .cons hc (hx.lacks_run _)
    · exact .zero

theorem lacks_after (hx : Foreign x) {r : Number.Radix} (h : Lacks x m cs) :
    Lacks x (Number.lengthAfter r m cs) cs := h.add (hx.lacks_exponent r)

theorem lacks_cut (hx : Foreign x) : Lacks x (Number.cutLength cs) cs := by
  unfold Number.cutLength
  split
  · exact hx.lacks_after (.cons hx.signs.1 (hx.lacks_run _))
  · split
    · rename_i mark _ _ r hr
      have hmark : mark ≠ x := by
        rintro rfl
        simp [hx.mark] at hr
      exact .cons_cons hx.signs.2.2.2 hmark (hx.lacks_after (hx.lacks_mantissa r))
    · exact hx.lacks_after (hx.lacks_mantissa _)
  · exact hx.lacks_after (hx.lacks_mantissa _)

end Foreign

theorem numberLength_plain : Plain (numberLength cs) cs := by
  unfold numberLength
  dsimp only
  split
  · rename_i hi
    refine foreign_newline.lacks_cut.add ?_
    obtain ⟨rest, hrest⟩ := List.head?_eq_some_iff.1 hi
    rw [hrest]
    exact .cons (n := 0) (by decide) .zero
  · exact foreign_newline.lacks_cut

end Lacks

/-- The last of so many characters at the front. -/
def lastOf (n : Nat) (cs : List Char) : Option Char := (cs.take n).getLast?

theorem lastOf_succ {c d : Char} {cs : List Char} {n : Nat} (h : lastOf n cs = some d) :
    lastOf (n + 1) (c :: cs) = some d := by
  simp only [lastOf] at h
  simp [lastOf, List.getLast?_cons, h]

theorem lastOf_rawLength {cs : List Char} {n : Nat} (h : rawLength? cs = some n) :
    lastOf n cs = some '\x60' := by
  induction cs generalizing n with
  | nil => simp [rawLength?] at h
  | cons c cs ih =>
    rw [rawLength?] at h
    split at h
    · rename_i hc
      cases h
      simp [lastOf, hc]
    · obtain ⟨m, hm, rfl⟩ := Option.map_eq_some_iff.1 h
      exact lastOf_succ (ih hm)

theorem lastOf_commentLength {cs : List Char} {n : Nat} (h : commentLength? cs = some n) :
    lastOf n cs = some '/' := by
  fun_induction commentLength? cs generalizing n with
  | case1 => simp at h
  | case2 cs =>
    cases h
    simp [lastOf]
  | case3 c cs _ ih =>
    obtain ⟨m, hm, rfl⟩ := Option.map_eq_some_iff.1 h
    exact lastOf_succ (ih hm)

theorem lastOf_quotedLength {quote : Char} {cs : List Char} {n : Nat}
    (h : Escape.quotedLength? quote cs = some n) : lastOf n cs = some quote := by
  fun_induction Escape.quotedLength? quote cs generalizing n with
  | case1 => simp at h
  | case2 => simp at h
  | case3 => simp at h
  | case4 c cs _ ih =>
    obtain ⟨m, hm, rfl⟩ := Option.map_eq_some_iff.1 h
    exact lastOf_succ (lastOf_succ (ih hm))
  | case5 =>
    cases h
    simp [lastOf]
  | case6 => simp at h
  | case7 c cs _ _ _ _ ih =>
    obtain ⟨m, hm, rfl⟩ := Option.map_eq_some_iff.1 h
    exact lastOf_succ (ih hm)

/-- The characters of a lexeme do not end with a newline. -/
def Unbroken (c : Char) (cs : List Char) (n : Nat) : Prop := (c :: cs.take n).getLast? ≠ some '\n'

theorem Unbroken.of_plain {c : Char} {cs : List Char} {n : Nat} (hc : c ≠ '\n')
    (h : Plain n cs) : Unbroken c cs n := by
  intro hlast
  rcases List.mem_cons.1 (List.mem_of_getLast? hlast) with hm | hm
  · exact hc hm.symm
  · exact h hm

theorem Unbroken.of_lastOf {c d : Char} {cs : List Char} {n : Nat} (h : lastOf n cs = some d)
    (hd : d ≠ '\n') : Unbroken c cs n := by
  unfold Unbroken
  rw [List.getLast?_cons]
  simp only [lastOf] at h
  simpa [h] using hd

theorem take_of_punct {c : Char} {cs : List Char} {p : Punct}
    (h : Punct.atFront? (c :: cs) = some p) :
    c :: cs.take (p.spelling.length - 1) = p.spelling.toList := by
  have hp : p.spelling.toList <+: c :: cs := by simpa using List.find?_some h
  have htake : (c :: cs).take p.spelling.length = p.spelling.toList := by
    rw [← String.length_toList]
    exact (List.prefix_iff_eq_take.1 hp).symm
  have hpos : p.spelling.length = p.spelling.length - 1 + 1 := by cases p <;> decide
  rwa [hpos, List.take_succ_cons] at htake

theorem plain_of_punct {c : Char} {cs : List Char} {p : Punct}
    (h : Punct.atFront? (c :: cs) = some p) : Plain (p.spelling.length - 1) cs := by
  have hspell : '\n' ∉ p.spelling.toList := by cases p <;> decide
  intro hm
  exact hspell (take_of_punct h ▸ List.mem_cons_of_mem _ hm)

/-- Only a newline, or a comment that never ends, reaches over a newline at the end. -/
def Halts (c : Char) (cs : List Char) (r : LexemeKind × Nat) : Prop :=
  r.1 ≠ .newline → r.1 ≠ .openComment → Unbroken c cs r.2

theorem Halts.ite {c : Char} {cs : List Char} {p : Prop} [Decidable p] {r s : LexemeKind × Nat}
    (hr : p → Halts c cs r) (hs : ¬p → Halts c cs s) : Halts c cs (if p then r else s) := by
  by_cases h : p
  · rw [if_pos h]
    exact hr h
  · rw [if_neg h]
    exact hs h

theorem atFront_halts (c : Char) (cs : List Char) : Halts c cs (atFront c cs) := by
  by_cases hc : c = '\n'
  · subst hc
    exact fun hn => absurd rfl hn
  have plain {kind : LexemeKind} {n : Nat} (h : Plain n cs) : Halts c cs (kind, n) :=
    fun _ _ => .of_plain hc h
  have last {kind : LexemeKind} {n : Nat} {d : Char} (h : lastOf n cs = some d) (hd : d ≠ '\n') :
      Halts c cs (kind, n) := fun _ _ => .of_lastOf h hd
  have newline {n : Nat} : Halts c cs (.newline, n) := fun hn => absurd rfl hn
  unfold atFront
  refine .ite (fun _ => plain (.takeWhile (by decide))) fun _ => ?_
  refine .ite (fun _ => newline) fun _ => .ite (fun _ => newline) fun _ => ?_
  refine .ite (fun _ => plain .zero) fun _ => ?_
  refine .ite (fun _ => plain (.takeWhile (by decide))) fun _ => ?_
  refine .ite (fun _ => ?_) fun _ => ?_
  · refine plain fun hm => (@numberLength_plain (c :: cs)) ?_
    cases hlen : numberLength (c :: cs) with
    | zero => simp [hlen] at hm
    | succ n => simpa [hlen] using Or.inr hm
  refine .ite (fun _ => ?_) fun _ => ?_
  · split
    · rename_i h
      exact last (lastOf_rawLength h) (by decide)
    · exact plain .zero
  refine .ite (fun _ => ?_) fun _ => ?_
  · split
    · rename_i h
      exact last (lastOf_quotedLength h) (by decide)
    · exact plain .zero
  refine .ite (fun _ => ?_) fun _ => ?_
  · split
    · rename_i h
      exact last (lastOf_quotedLength h) (by decide)
    · exact plain .zero
  refine .ite (fun _ => plain (.takeWhile (by decide))) fun _ => .ite (fun hstar => ?_) fun _ => ?_
  · split
    · rename_i h
      obtain ⟨rest, rfl⟩ := List.head?_eq_some_iff.1 hstar.2
      exact last (lastOf_succ (lastOf_commentLength h)) (by decide)
    · exact fun _ ho => absurd rfl ho
  · split
    · rename_i h
      exact plain (plain_of_punct h)
    · exact plain .zero

end Lexeme

@[simp] theorem byteSize_append (cs ds : List Char) :
    byteSize (cs ++ ds) = byteSize cs + byteSize ds := by
  induction cs with
  | nil => simp [byteSize]
  | cons c cs ih => simp [byteSize, ih, Nat.add_assoc]

theorem byteSize_pos {cs : List Char} (h : cs ≠ []) : 0 < byteSize cs := by
  cases cs with
  | nil => exact absurd rfl h
  | cons c cs =>
    have := c.utf8Size_pos
    simp only [byteSize]
    omega

namespace Scan

/-- All tokens and comments lie before an offset. -/
structure Inside (stop : Nat) (s : Scan) : Prop where
  tokens : ∀ p ∈ s.tokens, p.span.start ≤ p.span.stop ∧ p.span.stop < stop
  comments : ∀ c ∈ s.comments, c.span.start ≤ c.span.stop ∧ c.span.stop < stop

theorem Inside.none {stop : Nat} : Inside stop none := ⟨by simp [Scan.none], by simp [Scan.none]⟩

theorem Inside.append {stop : Nat} {s t : Scan} (hs : Inside stop s) (ht : Inside stop t) :
    Inside stop (s.append t) := by
  constructor
  · intro p hp
    rcases List.mem_append.1 hp with hp | hp
    · exact hs.tokens p hp
    · exact ht.tokens p hp
  · intro c hc
    rcases List.mem_append.1 hc with hc | hc
    · exact hs.comments c hc
    · exact ht.comments c hc

theorem Inside.mono {m n : Nat} {s : Scan} (hs : Inside m s) (h : m ≤ n) : Inside n s :=
  ⟨fun p hp => ⟨(hs.tokens p hp).1, Nat.lt_of_lt_of_le (hs.tokens p hp).2 h⟩,
    fun c hc => ⟨(hs.comments c hc).1, Nat.lt_of_lt_of_le (hs.comments c hc).2 h⟩⟩

theorem inside_token {stop : Nat} {t : Token} {span : Span}
    (h : span.start ≤ span.stop ∧ span.stop < stop) : Inside stop (token t span) :=
  ⟨by simpa [token] using h, by simp [token]⟩

theorem inside_lineEnd {stop offset : Nat} {line : Line} (h : offset < stop) :
    Inside stop (lineEnd line offset) := by
  unfold lineEnd
  split
  · exact inside_token ⟨Nat.le_refl _, h⟩
  · exact .none

theorem inside_comment {stop : Nat} {kind : CommentKind} {text : List Char} {span : Span}
    {line : Line} (h : span.start ≤ span.stop ∧ span.stop < stop) :
    Inside stop ⟨[], [], [comment kind text span line]⟩ := ⟨by simp, by simpa [comment] using h⟩

theorem inside_ofLexeme (line : Line) (offset : Nat) (lexeme : Lexeme) :
    Inside (offset + byteSize lexeme.text + 1) (ofLexeme line offset lexeme).1 := by
  have hspan : offset ≤ offset + byteSize lexeme.text ∧
      offset + byteSize lexeme.text < offset + byteSize lexeme.text + 1 := by omega
  have hfault (f : LexFault) : Inside (offset + byteSize lexeme.text + 1)
      (fault f ⟨offset, offset + byteSize lexeme.text⟩) := ⟨by simp [fault], by simp [fault]⟩
  unfold ofLexeme
  dsimp only
  split
  · exact .none
  · exact inside_lineEnd (by omega)
  · exact inside_comment hspan
  · split
    · exact inside_comment hspan
    · refine (inside_comment hspan).append (inside_lineEnd ?_)
      have hfront : lexeme.text.takeWhile (fun c => !Lexeme.isLineEnd c) <+: lexeme.text :=
        List.takeWhile_prefix _
      obtain ⟨rest, hrest⟩ := hfront
      have := congrArg byteSize hrest
      simp only [byteSize_append] at this
      omega
  · exact (inside_comment hspan).append (hfault _)
  · split
    · exact .none
    · exact hfault _
  · split
    · exact inside_token hspan
    · exact hfault _

/-- Without faults nothing lies behind the last character that is no newline: a lexeme ends with one,
and a newline that ends a statement follows one. -/
theorem inside_ofLexemes {last : Nat} (line : Line) (offset : Nat) (cs : List Char)
    (hink : ∀ a c b, cs = a ++ c :: b → c ≠ '\n' → offset + byteSize (a ++ [c]) ≤ last)
    (hends : line.ends = true → offset ≤ last)
    (hf : (ofLexemes line offset (Lexeme.all cs)).faults = []) :
    Inside (last + 1) (ofLexemes line offset (Lexeme.all cs)) := by
  have hline {line : Line} {offset : Nat} (hends : line.ends = true → offset ≤ last) :
      Inside (last + 1) (lineEnd line offset) := by
    cases hline : line.ends with
    | false => simp [lineEnd, hline, Inside.none]
    | true => exact inside_lineEnd (Nat.lt_succ_of_le (hends hline))
  fun_induction Lexeme.all cs generalizing line offset with
  | case1 => exact hline hends
  | case2 c cs kind n hfront ih =>
    rw [ofLexemes] at hf ⊢
    dsimp only at hf ⊢
    obtain ⟨hf1, hf2⟩ := List.append_eq_nil_iff.1 hf
    have hsplit : c :: cs = (c :: cs.take n) ++ cs.drop n := by simp
    have hrest (hends : (ofLexeme line offset ⟨kind, c :: cs.take n⟩).2.ends = true →
        offset + byteSize (c :: cs.take n) ≤ last) :
        Inside (last + 1) (ofLexemes (ofLexeme line offset ⟨kind, c :: cs.take n⟩).2
          (offset + byteSize (c :: cs.take n)) (Lexeme.all (cs.drop n))) := by
      refine ih _ _ (fun a d b hdrop hd => ?_) hends hf2
      have hle := hink ((c :: cs.take n) ++ a) d b (by rw [hsplit, hdrop]; simp) hd
      rwa [List.append_assoc, byteSize_append, ← Nat.add_assoc] at hle
    have hhalts := Lexeme.atFront_halts c cs
    rw [hfront] at hhalts
    by_cases hn : kind = .newline
    · subst hn
      exact (hline hends).append (hrest nofun)
    by_cases ho : kind = .openComment
    · subst ho
      simp [ofLexeme, append, fault] at hf1
    have hunbroken : (c :: cs.take n).getLast? ≠ some '\n' := hhalts hn ho
    have hle : offset + byteSize (c :: cs.take n) ≤ last := by
      have hne : c :: cs.take n ≠ [] := List.cons_ne_nil _ _
      have hlast := List.dropLast_concat_getLast hne
      refine hlast ▸ hink _ _ (cs.drop n) ?_ fun hd => hunbroken ?_
      · rw [List.append_cons, hlast, ← hsplit]
      · rw [List.getLast?_eq_some_getLast hne, hd]
    exact ((inside_ofLexeme line offset _).mono (Nat.succ_le_succ hle)).append (hrest fun _ => hle)

end Scan

theorem byteSize_toList (s : String) : byteSize s.toList = s.utf8ByteSize := by
  have h (cs : List Char) : byteSize cs = (String.ofList cs).utf8ByteSize := by
    induction cs with
    | nil => simp [byteSize]
    | cons c cs ih =>
      rw [byteSize, ih, String.ofList_cons]
      simp
  simpa using h s.toList

theorem getLast_terminated (s : String) : (terminated s).toList.getLast? = some '\n' := by
  unfold terminated
  split
  · rename_i h
    rw [← String.endsWith_toSlice] at h
    have hs : ['\n'] <:+ s.toList := by simpa using String.Slice.endsWith_string_iff.1 h
    obtain ⟨front, hfront⟩ := hs
    simp [← hfront]
  · simp

theorem terminated_eq_self {s : String} (h : s.toList.getLast? = some '\n') : terminated s = s := by
  have hsuffix : ['\n'] <:+ s.toList := by
    obtain ⟨front, hfront⟩ := List.getLast?_eq_some_iff.1 h
    exact ⟨front, hfront.symm⟩
  rw [terminated, if_pos]
  rw [← String.endsWith_toSlice]
  exact String.Slice.endsWith_string_iff.2 (by simpa using hsuffix)

/-- The text up to the end of its last line that is not empty. -/
def inked (text : List Char) : List Char := (text.reverse.dropWhile (· == '\n')).reverse ++ ['\n']

theorem isPrefix_inked {text : List Char} (hlast : text.getLast? = some '\n') : inked text <+: text := by
  have hsplit : text.reverse = text.reverse.takeWhile (· == '\n') ++
      text.reverse.dropWhile (· == '\n') := List.takeWhile_append_dropWhile.symm
  obtain ⟨front, hfront⟩ := List.getLast?_eq_some_iff.1 hlast
  have hnewlines : ∀ c ∈ text.reverse.takeWhile (· == '\n'), c = '\n' := fun c hc => by
    simpa using List.all_eq_true.1 List.all_takeWhile c hc
  have hfirst : text.reverse.takeWhile (· == '\n') ≠ [] := by
    rw [hfront, List.reverse_append, List.reverse_singleton, List.singleton_append,
      List.takeWhile_cons_of_pos (by simp)]
    exact List.cons_ne_nil _ _
  have htext : text = (text.reverse.dropWhile (· == '\n')).reverse ++
      (text.reverse.takeWhile (· == '\n')).reverse := by
    rw [← List.reverse_append, ← hsplit, List.reverse_reverse]
  obtain ⟨c, rest, hrest⟩ : ∃ c rest, (text.reverse.takeWhile (· == '\n')).reverse = c :: rest :=
    List.exists_cons_of_ne_nil (by simpa using hfirst)
  have hc : c = '\n' := hnewlines c (List.mem_reverse.1 (hrest ▸ List.mem_cons_self))
  rw [hc] at hrest
  refine ⟨rest, ?_⟩
  rw [inked, List.append_assoc, List.singleton_append, ← hrest, ← htext]

theorem dropWhile_append_cons {α : Type} {p : α → Bool} {x : α} (hx : p x = false) (xs ys : List α) :
    (xs ++ x :: ys).dropWhile p = xs.dropWhile p ++ x :: ys := by
  rw [List.dropWhile_append]
  split
  · rename_i h
    rw [List.isEmpty_iff.1 h, List.nil_append, List.dropWhile_cons_of_neg (by simpa using hx)]
  · rfl

/-- Every character that is no newline stands before the last newline of the inked text. -/
theorem ink_lt {text a b : List Char} {c : Char} (h : text = a ++ c :: b) (hc : c ≠ '\n') :
    byteSize (a ++ [c]) < byteSize (inked text) := by
  have hinked : inked text = (a ++ [c]) ++ ((b.reverse.dropWhile (· == '\n')).reverse ++ ['\n']) := by
    have hreverse : text.reverse = b.reverse ++ c :: a.reverse := by simp [h]
    rw [inked, hreverse, dropWhile_append_cons (by simpa using hc)]
    simp
  have hone : byteSize ['\n'] = 1 := rfl
  rw [hinked, byteSize_append (a ++ [c]), byteSize_append _ ['\n'], hone]
  omega

theorem scan_inside {text : String} (hf : (scan text).faults = []) :
    (scan text).Inside (byteSize (inked text.toList)) := by
  have hpos : 0 < byteSize (inked text.toList) := byteSize_pos (by simp [inked])
  obtain ⟨last, hlast⟩ := Nat.exists_eq_succ_of_ne_zero (Nat.ne_of_gt hpos)
  rw [hlast]
  refine Scan.inside_ofLexemes .start 0 text.toList (fun a c b hsplit hc => ?_) nofun hf
  have hlt := ink_lt hsplit hc
  omega

end FuncLift
