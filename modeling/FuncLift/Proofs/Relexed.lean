import FuncLift.Proofs.Spelled

/-!
# Reading laid out tokens

A text that was laid out as words, strings and punctuation, with blanks and line breaks between some
of them, is cut into the same tokens again if no token is followed directly by a character that it
would absorb: a word takes every letter and digit behind it, and punctuation grows into the longest
that stands there. A line break stands for a semicolon behind a token that can end a statement.
-/
namespace FuncLift

namespace Punct

theorem mem_all (p : Punct) : p ∈ all := by cases p <;> decide

/-- The character behind the punctuation would be read together with it. -/
def absorbs (p : Punct) (c : Char) : Bool :=
  all.any (fun q => (p.spelling.toList ++ [c]).isPrefixOf q.spelling.toList) ||
    (p == .slash && (c == '/' || c == '*')) || (p == .dot && c.isDigit)

theorem absorbs_iff {p : Punct} {c : Char} : p.absorbs c = true ↔
    (∃ q ∈ all, p.spelling.toList ++ [c] <+: q.spelling.toList) ∨
      (p = .slash ∧ (c = '/' ∨ c = '*')) ∨ (p = .dot ∧ c.isDigit = true) := by
  simp [absorbs, or_assoc]

theorem not_prefix_of_before : ∀ p ∈ all, ∀ q ∈ all.takeWhile (· != p),
    ¬q.spelling.toList <+: p.spelling.toList := by decide +kernel

theorem split_all : ∀ p ∈ all,
    all = all.takeWhile (· != p) ++ p :: (all.dropWhile (· != p)).tail := by decide +kernel

theorem atFront_spelling {p : Punct} {cs : List Char} (h : ∀ c ∈ cs.head?, p.absorbs c = false) :
    atFront? (p.spelling.toList ++ cs) = some p := by
  refine List.find?_eq_some_iff_append.2 ⟨by simp, _, _, split_all p p.mem_all, fun q hq => ?_⟩
  have hbefore := not_prefix_of_before p p.mem_all q hq
  rw [Bool.not_eq_true', Bool.eq_false_iff]
  intro hprefix
  have hq' := List.isPrefixOf_iff_prefix.1 hprefix
  rcases List.prefix_or_prefix_of_prefix hq' (List.prefix_append _ cs) with hle | ⟨ds, hds⟩
  · exact hbefore hle
  · -- the longer one goes on with the character behind the shorter
    cases ds with
    | nil => exact hbefore ⟨[], by simpa using hds.symm⟩
    | cons d ds =>
      rw [← hds, List.prefix_append_right_inj] at hq'
      obtain ⟨rest, rfl⟩ := hq'
      have habsorbs : p.absorbs d = true :=
        absorbs_iff.2 (.inl ⟨q, q.mem_all, ds, by simpa using hds⟩)
      rw [h d (by simp)] at habsorbs
      cases habsorbs

/-- Characters that decide what a lexeme is before punctuation comes into question. -/
def isSign (c : Char) : Bool :=
  !Lexeme.isSpace c && c != '\n' && c != '\r' && c != '\uFEFF' && !Lexeme.startsWord c &&
    !c.isDigit && c != '\x60' && c != '"' && c != '\''

/-- A dot is the only punctuation that can start a number, and a slash the only one that can start a
comment: the others that begin like them go on with a sign. -/
theorem second_sign : ∀ p ∈ all, ∀ c ∈ p.spelling.toList.head?, c = '.' ∨ c = '/' →
    p.spelling.toList = [c] ∧ (c = '.' ∧ p = .dot ∨ c = '/' ∧ p = .slash) ∨
      ∃ d ∈ p.spelling.toList.tail.head?, d.isDigit = false ∧ d ≠ '/' ∧ d ≠ '*' := by
  have hall : ∀ p ∈ all, (p.spelling.toList.head? = some '.' → p.spelling.toList = ['.'] ∧ p = .dot ∨
      p.spelling.toList.tail.head?.any (fun d => !d.isDigit && d != '/' && d != '*') = true) ∧
      (p.spelling.toList.head? = some '/' → p.spelling.toList = ['/'] ∧ p = .slash ∨
        p.spelling.toList.tail.head?.any (fun d => !d.isDigit && d != '/' && d != '*') = true) := by
    decide +kernel
  intro p hp c hc hkind
  obtain ⟨hdot, hslash⟩ := hall p hp
  have hnext (h : p.spelling.toList.tail.head?.any
      (fun d => !d.isDigit && d != '/' && d != '*') = true) :
      ∃ d ∈ p.spelling.toList.tail.head?, d.isDigit = false ∧ d ≠ '/' ∧ d ≠ '*' := by
    obtain ⟨d, hd, hsign⟩ := (Option.any_eq_true _ _).1 h
    exact ⟨d, hd, by simpa [and_assoc] using hsign⟩
  rcases hkind with rfl | rfl
  · exact (hdot hc).imp (fun ⟨h, hp⟩ => ⟨h, .inl ⟨rfl, hp⟩⟩) hnext
  · exact (hslash hc).imp (fun ⟨h, hp⟩ => ⟨h, .inr ⟨rfl, hp⟩⟩) hnext

theorem isSign_of_mem : ∀ p ∈ all, ∀ c ∈ p.spelling.toList, isSign c = true := by
  have hall : ∀ p ∈ all, p.spelling.toList.all isSign = true := by decide +kernel
  exact fun p hp => List.all_eq_true.1 (hall p hp)

end Punct

namespace Lexeme

variable {cs : List Char}

theorem startsWord_of_isDigit {c : Char} (h : c.isDigit = true) : startsWord c = false := by
  have hall : ∀ n < 58, 48 ≤ n → startsWord (Char.ofNat n) = false := by decide
  have hrange : 48 ≤ c.toNat ∧ c.toNat < 58 := by
    simp only [Char.isDigit, Bool.and_eq_true, decide_eq_true_eq] at h
    have h1 := UInt32.le_iff_toNat_le.1 h.1
    have h2 := UInt32.le_iff_toNat_le.1 h.2
    exact ⟨h1, Nat.lt_succ_of_le h2⟩
  simpa [Char.ofNat_toNat] using hall c.toNat hrange.2 hrange.1

theorem atFront_punct {p : Punct} {c : Char} {w : List Char} (hp : p.spelling.toList = c :: w)
    (h : ∀ d ∈ cs.head?, p.absorbs d = false) : atFront c (w ++ cs) = (.punct p, w.length) := by
  have hsign := Punct.isSign_of_mem p p.mem_all c (by simp [hp])
  simp only [Punct.isSign, Bool.and_eq_true, Bool.not_eq_true', bne_iff_ne] at hsign
  have hfront := Punct.atFront_spelling h
  have hlength : p.spelling.length - 1 = w.length := by
    rw [← String.length_toList, hp]
    rfl
  have hnext : c = '.' ∨ c = '/' → ∀ d ∈ (w ++ cs).head?,
      (c = '.' → d.isDigit = false) ∧ (c = '/' → d ≠ '/' ∧ d ≠ '*') := by
    intro hc d hd
    have hsecond := Punct.second_sign p p.mem_all c (by simp [hp]) hc
    rw [hp] at hsecond
    rcases hsecond with ⟨hone, hkind⟩ | ⟨e, he, hdigit, hslash, hstar⟩
    · cases hone
      have habsorbs := Bool.eq_false_iff.1 (h d hd)
      rw [Ne, Punct.absorbs_iff] at habsorbs
      rcases hkind with ⟨rfl, rfl⟩ | ⟨rfl, rfl⟩
      · refine ⟨fun _ => Bool.eq_false_iff.2 fun hd => habsorbs ?_, fun h => absurd h (by decide)⟩
        exact .inr (.inr ⟨rfl, hd⟩)
      · exact ⟨fun h => absurd h (by decide), fun _ => ⟨fun hd => habsorbs (.inr (.inl ⟨rfl, .inl hd⟩)),
          fun hd => habsorbs (.inr (.inl ⟨rfl, .inr hd⟩))⟩⟩
    · obtain ⟨u, rfl⟩ := List.head?_eq_some_iff.1 he
      cases hd
      exact ⟨fun _ => hdigit, fun _ => ⟨hslash, hstar⟩⟩
  have hnumber : startsNumber c (w ++ cs) = false := by
    simp only [startsNumber, hsign, Bool.false_or, Bool.and_eq_false_iff, beq_eq_false_iff_ne]
    by_cases hc : c = '.'
    · cases hhead : (w ++ cs).head? with
      | none => exact .inr rfl
      | some d => exact .inr ((hnext (.inl hc) d hhead).1 hc)
    · exact .inl hc
  have hcomment : ∀ d, d = '/' ∨ d = '*' → ¬(c = '/' ∧ (w ++ cs).head? = some d) := by
    rintro d hd ⟨hc, hhead⟩
    have hne := (hnext (.inr hc) d hhead).2 hc
    exact hd.elim hne.1 hne.2
  rw [hp, List.cons_append] at hfront
  have hline := hcomment '/' (.inl rfl)
  have hblock := hcomment '*' (.inr rfl)
  simp only [atFront, hsign, hnumber, hline, hblock, hfront, hlength]
  simp

theorem takeWhile_append {p : Char → Bool} {w : List Char} (hw : ∀ c ∈ w, p c = true)
    (hcs : ∀ c ∈ cs.head?, p c = false) : (w ++ cs).takeWhile p = w := by
  rw [List.takeWhile_append_of_pos hw]
  cases cs with
  | nil => simp
  | cons c cs => simp [hcs c rfl]

theorem atFront_word {c : Char} {w : List Char} (hc : startsWord c = true)
    (hw : ∀ d ∈ w, continuesWord d = true) (h : ∀ d ∈ cs.head?, continuesWord d = false) :
    atFront c (w ++ cs) = (.word, w.length) := by
  have hne : ∀ d, startsWord d = false → c ≠ d := by
    rintro d hd rfl
    rw [hc] at hd
    cases hd
  have hspace : isSpace c = false := by
    simp [isSpace, hne ' ' (by decide), hne '\t' (by decide), hne '\x0c' (by decide)]
  have hmark : c ≠ '\uFEFF' := hne _ (by decide +kernel)
  simp [atFront, hspace, hne '\n' (by decide), hne '\r' (by decide), hmark, hc,
    takeWhile_append hw h]

theorem atFront_blanks {c : Char} {ws : List Char} (hc : isSpace c = true)
    (hws : ∀ d ∈ ws, isSpace d = true) (h : ∀ d ∈ cs.head?, isSpace d = false) :
    atFront c (ws ++ cs) = (.blank, ws.length) := by
  simp [atFront, hc, takeWhile_append hws h]

theorem all_cons {c : Char} {w : List Char} {kind : LexemeKind}
    (h : atFront c (w ++ cs) = (kind, w.length)) :
    all (c :: (w ++ cs)) = ⟨kind, c :: w⟩ :: all cs := by
  rw [all, h]
  simp

end Lexeme

namespace Token

/-- The text of a word, of a string or of punctuation. -/
def spelling : Token → List Char
  | .ident s | .string s | .rawString s => s.toList
  | .keyword k => k.spelling.toList
  | .punct p => p.spelling.toList
  | _ => []

/-- A name that is read as one: it starts with a letter, goes on with letters and digits and is no
keyword. -/
def IsName (s : String) : Prop :=
  (∃ c w, s.toList = c :: w ∧ Lexeme.startsWord c = true ∧
    ∀ d ∈ w, Lexeme.continuesWord d = true) ∧ Keyword.ofSpelling? s = none

/-- Whatever follows, the text of the token is cut off as one lexeme and read as the token. -/
def IsClosed (t : Token) (kind : LexemeKind) : Prop :=
  ∃ c w, t.spelling = c :: w ∧ (∀ rest, Lexeme.atFront c (w ++ rest) = (kind, w.length)) ∧
    Scan.read kind (c :: w) = .ok t

/-- Words, strings and punctuation, that is, the tokens that are laid out below. -/
def Legible : Token → Prop
  | .ident s => IsName s
  | .string s => IsClosed (.string s) .string
  | .rawString s => IsClosed (.rawString s) .rawString
  | .keyword _ | .punct _ => True
  | _ => False

/-- The character behind the token would be read together with it. -/
def absorbs : Token → Char → Bool
  | .ident _, c | .keyword _, c => Lexeme.continuesWord c
  | .punct p, c => p.absorbs c
  | _, _ => false

/-- Nothing of what follows would be read together with the token. -/
def Parts (t : Token) (cs : List Char) : Prop := ∀ c ∈ cs.head?, t.absorbs c = false

end Token

theorem Keyword.isWord : ∀ k ∈ all, ofSpelling? k.spelling = some k ∧
    ∃ c ∈ k.spelling.toList.head?, Lexeme.startsWord c = true ∧
      ∀ d ∈ k.spelling.toList.tail, Lexeme.continuesWord d = true := by
  have hall : ∀ k ∈ all, ofSpelling? k.spelling = some k ∧
      k.spelling.toList.head?.any Lexeme.startsWord = true ∧
      k.spelling.toList.tail.all Lexeme.continuesWord = true := by decide +kernel
  intro k hk
  obtain ⟨hread, hfirst, hrest⟩ := hall k hk
  obtain ⟨c, hc, hstarts⟩ := (Option.any_eq_true _ _).1 hfirst
  exact ⟨hread, c, hc, hstarts, List.all_eq_true.1 hrest⟩

theorem Keyword.mem_all (k : Keyword) : k ∈ all := by cases k <;> decide

namespace Scan

theorem ofLexeme_closed {t : Token} {kind : LexemeKind} (ht : t.IsClosed kind)
    (hkind : kind = .string ∨ kind = .rawString) (cs : List Char) :
    ∃ c w, t.spelling = c :: w ∧ Lexeme.isSpace c = false ∧
      Lexeme.atFront c (w ++ cs) = (kind, w.length) ∧ ∀ line offset,
        ofLexeme line offset ⟨kind, c :: w⟩ =
          (token t ⟨offset, offset + byteSize t.spelling⟩, ⟨t.endsStatement, true⟩) := by
  obtain ⟨c, w, hs, hfront, hread⟩ := ht
  refine ⟨c, w, hs, ?_, hfront cs, fun line offset => ?_⟩
  · by_cases hspace : Lexeme.isSpace c = true
    · have hblank := hfront []
      rw [Lexeme.atFront, if_pos hspace] at hblank
      rcases hkind with rfl | rfl <;> cases hblank
    · exact Bool.eq_false_iff.2 hspace
  · rw [hs]
    rcases hkind with rfl | rfl <;> simp [ofLexeme, hread]

theorem ofLexeme_front {t : Token} {cs : List Char} (ht : t.Legible) (hcs : t.Parts cs) :
    ∃ c w kind, t.spelling = c :: w ∧ Lexeme.isSpace c = false ∧
      Lexeme.atFront c (w ++ cs) = (kind, w.length) ∧ ∀ line offset,
        ofLexeme line offset ⟨kind, c :: w⟩ =
          (token t ⟨offset, offset + byteSize t.spelling⟩, ⟨t.endsStatement, true⟩) := by
  have hspace : ∀ c, Lexeme.startsWord c = true → Lexeme.isSpace c = false := by
    intro c hc
    by_cases hs : Lexeme.isSpace c = true
    · simp only [Lexeme.isSpace, Bool.or_eq_true, beq_iff_eq] at hs
      rcases hs with (rfl | rfl) | rfl <;> revert hc <;> decide
    · exact Bool.eq_false_iff.2 hs
  cases t with
  | ident s =>
    obtain ⟨⟨c, w, hs, hc, hw⟩, hkeyword⟩ := ht
    refine ⟨c, w, .word, hs, hspace c hc, Lexeme.atFront_word hc hw hcs, fun line offset => ?_⟩
    have hofList : String.ofList (c :: w) = s := by rw [← hs, String.ofList_toList]
    simp [ofLexeme, read, Token.spelling, hs, hofList, hkeyword]
  | keyword k =>
    obtain ⟨hk, c, hhead, hc, hw⟩ := Keyword.isWord k k.mem_all
    obtain ⟨w, hs⟩ := List.head?_eq_some_iff.1 hhead
    rw [hs] at hw
    refine ⟨c, w, .word, hs, hspace c hc, Lexeme.atFront_word hc hw hcs, fun line offset => ?_⟩
    have hofList : String.ofList (c :: w) = k.spelling := by rw [← hs, String.ofList_toList]
    simp [ofLexeme, read, Token.spelling, hs, hofList, hk]
  | punct p =>
    cases hs : p.spelling.toList with
    | nil => exact absurd hs (by cases p <;> decide)
    | cons c w =>
      have hsign := Punct.isSign_of_mem p p.mem_all c (by simp [hs])
      simp only [Punct.isSign, Bool.and_eq_true, Bool.not_eq_true'] at hsign
      refine ⟨c, w, .punct p, hs, by simp [hsign], Lexeme.atFront_punct hs hcs, fun line offset => ?_⟩
      simp [ofLexeme, read, Token.spelling, hs]
  | string s =>
    obtain ⟨c, w, h⟩ := ofLexeme_closed (t := .string s) ht (.inl rfl) cs
    exact ⟨c, w, .string, h⟩
  | rawString s =>
    obtain ⟨c, w, h⟩ := ofLexeme_closed (t := .rawString s) ht (.inr rfl) cs
    exact ⟨c, w, .rawString, h⟩
  | _ => cases ht

end Scan

namespace Token

theorem absorbs_newline (t : Token) : t.absorbs '\n' = false := by
  have hall : ∀ p ∈ Punct.all, p.absorbs '\n' = false := by decide +kernel
  cases t with
  | punct p => exact hall p p.mem_all
  | ident s => exact (by decide : Lexeme.continuesWord '\n' = false)
  | keyword k => exact (by decide : Lexeme.continuesWord '\n' = false)
  | _ => rfl

/-- A token that parts from the rest of its line parts from it with what stands behind the line. -/
theorem Parts.line {t : Token} {cs : List Char} (h : t.Parts cs) {rest : List Char}
    (hrest : ∀ c ∈ rest.head?, c = '\n') : t.Parts (cs ++ rest) := by
  intro c hc
  cases cs with
  | nil =>
    rw [hrest c hc]
    exact t.absorbs_newline
  | cons d ds => exact h c hc

end Token

/-- The semicolon that the end of a line stands for behind a token that ends a statement. -/
def lineEndTokens (ends : Bool) : List Token := if ends then [.punct .semi] else []

/-- A text that is laid out as tokens, each of which parts from what follows. It stands behind a token
that ends a statement or behind another. -/
inductive Laid : Bool → List Char → List Token → Prop
  | nil {ends : Bool} : Laid ends [] []
  | blank {ends : Bool} {c : Char} {cs : List Char} {ts : List Token}
      (hc : Lexeme.isSpace c = true) (h : Laid ends cs ts) : Laid ends (c :: cs) ts
  | token {ends : Bool} {t : Token} {cs : List Char} {ts : List Token} (ht : t.Legible)
      (hcs : t.Parts cs) (h : Laid t.endsStatement cs ts) : Laid ends (t.spelling ++ cs) (t :: ts)
  | line {ends : Bool} {cs : List Char} {ts : List Token} (h : Laid false cs ts) :
      Laid ends ('\n' :: cs) (lineEndTokens ends ++ ts)

namespace Scan

/-- Whether a line end is due behind the tokens. -/
def endsAfter (ends : Bool) (ts : List Token) : Bool := (ts.getLast?.map Token.endsStatement).getD ends

theorem endsAfter_cons (ends : Bool) (t : Token) (ts : List Token) :
    endsAfter ends (t :: ts) = endsAfter t.endsStatement ts := by
  rw [endsAfter, endsAfter, List.getLast?_cons]
  cases ts.getLast? <;> rfl

theorem endsAfter_lineEnd (ends : Bool) (ts : List Token) :
    endsAfter ends (lineEndTokens ends ++ ts) = endsAfter false ts := by
  cases ends with
  | false => rfl
  | true => exact endsAfter_cons true (.punct .semi) ts

theorem append_none (s : Scan) : none.append s = s := rfl

/-- Blanks in front only move what follows. -/
theorem ofLexemes_blanks {ws cs : List Char} (hws : ∀ d ∈ ws, Lexeme.isSpace d = true)
    (h : ∀ d ∈ cs.head?, Lexeme.isSpace d = false) (line : Line) (offset : Nat) :
    ofLexemes line offset (Lexeme.all (ws ++ cs)) =
      ofLexemes line (offset + byteSize ws) (Lexeme.all cs) := by
  cases ws with
  | nil => rfl
  | cons w ws =>
    obtain ⟨hw, hws⟩ := List.forall_mem_cons.1 hws
    rw [List.cons_append, Lexeme.all_cons (Lexeme.atFront_blanks hw hws h), ofLexemes]
    simp [ofLexeme, append_none]

theorem ofLexemes_newline (line : Line) (offset : Nat) (cs : List Char) :
    ofLexemes line offset (Lexeme.all ('\n' :: cs)) =
      (lineEnd line offset).append (ofLexemes .start (offset + 1) (Lexeme.all cs)) := by
  have hall : Lexeme.all ('\n' :: cs) = ⟨.newline, ['\n']⟩ :: Lexeme.all cs :=
    Lexeme.all_cons (w := []) rfl
  rw [hall, ofLexemes]
  rfl

/-- Scanning a laid out text gives its tokens, and goes on behind them at the end of the line. -/
theorem ofLexemes_laid {ends : Bool} {cs : List Char} {ts : List Token}
    (h : Laid ends cs ts) (rest : List Char) (hrest : ∀ c ∈ rest.head?, c = '\n')
    (ws : List Char) (hws : ∀ c ∈ ws, Lexeme.isSpace c = true) (line : Line)
    (hline : line.ends = ends) (offset : Nat) :
    ∃ ps last, ps.map Placed.token = ts ∧ last.ends = endsAfter ends ts ∧
      (∀ p ∈ ps, offset ≤ p.span.start) ∧
      ofLexemes line offset (Lexeme.all (ws ++ (cs ++ rest))) =
        append ⟨ps, [], []⟩ (ofLexemes last (offset + byteSize ws + byteSize cs) (Lexeme.all rest)) := by
  induction h generalizing ws line offset with
  | nil =>
    refine ⟨[], line, rfl, hline, by simp, ofLexemes_blanks hws (fun d hd => ?_) line offset⟩
    rw [hrest d hd]
    rfl
  | @blank ends c cs ts hc _ ih =>
    have hws' : ∀ d ∈ ws ++ [c], Lexeme.isSpace d = true := by
      intro d hd
      rcases List.mem_append.1 hd with hd | hd
      · exact hws d hd
      · rwa [List.mem_singleton.1 hd]
    obtain ⟨ps, last, hps, hends, hstarts, heq⟩ := ih (ws ++ [c]) hws' line hline offset
    refine ⟨ps, last, hps, hends, hstarts, ?_⟩
    rw [List.append_assoc, List.singleton_append, byteSize_append] at heq
    rw [List.cons_append, heq]
    simp only [byteSize, Nat.add_zero, Nat.add_assoc]
  | @token ends t cs ts ht hcs _ ih =>
    obtain ⟨c, w, kind, hspelling, hspace, hfront, hread⟩ := ofLexeme_front ht (hcs.line hrest)
    obtain ⟨ps, last, hps, hends, hstarts, heq⟩ := ih [] (by simp)
      ⟨t.endsStatement, true⟩ rfl (offset + byteSize ws + byteSize t.spelling)
    refine ⟨⟨t, offset + byteSize ws, offset + byteSize ws + byteSize t.spelling⟩ :: ps, last,
      by simp [hps], ?_, ?_, ?_⟩
    · rw [hends, endsAfter_cons]
    · refine List.forall_mem_cons.2 ⟨Nat.le_add_right _ _, fun p hp => ?_⟩
      have := hstarts p hp
      omega
    · rw [List.append_assoc, ofLexemes_blanks hws (by simp [hspelling, hspace]), hspelling,
        List.cons_append, Lexeme.all_cons hfront, ofLexemes, hread, ← hspelling, byteSize_append,
        ← Nat.add_assoc]
      exact congrArg (append (token t _)) heq
  | @line ends cs ts _ ih =>
    obtain ⟨ps, last, hps, hends, hstarts, heq⟩ := ih [] (by simp) .start rfl
      (offset + byteSize ws + 1)
    have hsize : byteSize ('\n' :: cs) = 1 + byteSize cs := rfl
    have hbreak : ofLexemes line offset (Lexeme.all (ws ++ ('\n' :: cs ++ rest))) =
        (lineEnd line (offset + byteSize ws)).append (append ⟨ps, [], []⟩
          (ofLexemes last (offset + byteSize ws + byteSize ('\n' :: cs)) (Lexeme.all rest))) := by
      rw [ofLexemes_blanks hws (by simp [Lexeme.isSpace]), List.cons_append, ofLexemes_newline, hsize,
        ← Nat.add_assoc]
      exact congrArg _ heq
    rw [endsAfter_lineEnd, hbreak, lineEnd, hline]
    cases ends with
    | false =>
      refine ⟨ps, last, hps, hends, fun p hp => ?_, rfl⟩
      have := hstarts p hp
      omega
    | true =>
      refine ⟨⟨.punct .semi, offset + byteSize ws, offset + byteSize ws⟩ :: ps, last,
        by simp [lineEndTokens, hps], hends, ?_, rfl⟩
      refine List.forall_mem_cons.2 ⟨Nat.le_add_right _ _, fun p hp => ?_⟩
      have := hstarts p hp
      omega

end Scan

theorem scan_laid {text : String} {ts : List Token} (h : Laid false text.toList ts)
    (hends : ts.getLast?.map Token.endsStatement = some true) :
    ∃ ps : List Placed, ps.map Placed.token = ts ∧ scan text =
      ⟨ps ++ [⟨.punct .semi, text.utf8ByteSize, text.utf8ByteSize⟩], [], []⟩ := by
  obtain ⟨ps, last, hps, hlast, -, heq⟩ := Scan.ofLexemes_laid h [] nofun [] nofun .start rfl 0
  have hends : last.ends = true := by rw [hlast, Scan.endsAfter, hends, Option.getD_some]
  refine ⟨ps, hps, ?_⟩
  rw [Lexeme.all, Scan.ofLexemes] at heq
  simpa [Scan.lineEnd, hends, Scan.token, Scan.append, scan, byteSize, byteSize_toList] using heq

/-- A lexeme that is a word has the characters of one. -/
def Lexeme.FormsWord (c : Char) (cs : List Char) (r : LexemeKind × Nat) : Prop :=
  r.1 = .word → startsWord c = true ∧ ∀ d ∈ cs.take r.2, continuesWord d = true

theorem Lexeme.atFront_formsWord (c : Char) (cs : List Char) : FormsWord c cs (atFront c cs) := by
  have hword (hc : startsWord c = true) : FormsWord c cs (.word, (cs.takeWhile continuesWord).length) :=
    fun _ => ⟨hc, fun d hd => List.all_eq_true.1 List.all_takeWhile d
      (by rwa [← List.prefix_iff_eq_take.1 (List.takeWhile_prefix _)] at hd)⟩
  unfold atFront
  repeat' refine iteInduction (fun _ => ?_) fun _ => ?_
  all_goals try split
  all_goals first
    | exact hword ‹_›
    | exact fun h => by cases h

namespace Scan

theorem ident_of_read {kind : LexemeKind} {text : List Char} {s : String}
    (h : read kind text = .ok (.ident s)) :
    kind = .word ∧ s = String.ofList text ∧ Keyword.ofSpelling? s = Option.none := by
  unfold read at h
  dsimp only at h
  repeat' split at h
  all_goals cases h
  exact ⟨rfl, rfl, ‹_›⟩

theorem isName_ofLexeme {line : Line} {offset : Nat} {c : Char} {w : List Char} {kind : LexemeKind}
    (hword : kind = .word → Lexeme.startsWord c = true ∧ ∀ d ∈ w, Lexeme.continuesWord d = true)
    {p : Placed} {s : String} (hp : p ∈ (ofLexeme line offset ⟨kind, c :: w⟩).1.tokens)
    (hs : p.token = .ident s) : Token.IsName s := by
  obtain ⟨hread, _⟩ := read_of_word hp (by simp [hs, Token.word?, Token.text?])
  rw [hs] at hread
  obtain ⟨rfl, rfl, hkeyword⟩ := ident_of_read hread
  exact ⟨⟨c, w, String.toList_ofList, hword rfl⟩, hkeyword⟩

theorem isName_ofLexemes (line : Line) (offset : Nat) (cs : List Char) {p : Placed} {s : String}
    (hp : p ∈ (ofLexemes line offset (Lexeme.all cs)).tokens) (hs : p.token = .ident s) :
    Token.IsName s := by
  fun_induction Lexeme.all cs generalizing line offset with
  | case1 =>
    have := word_lineEnd hp
    rw [hs] at this
    cases this
  | case2 c cs kind n hfront ih =>
    have hword := Lexeme.atFront_formsWord c cs
    rw [hfront] at hword
    rw [ofLexemes] at hp
    rcases List.mem_append.1 hp with hp | hp
    · exact isName_ofLexeme hword hp hs
    · exact ih _ _ hp

end Scan

end FuncLift
