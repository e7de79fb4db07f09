import FuncLift.Proofs.Spelled

/-!
# Where semicolons are put in

The scanner keeps a note of the last token and turns the next line end into a semicolon. Told by the
text alone: between two tokens stands a gap of blanks and comments, and behind a token that can end a
statement the first line end of the gap stands for a semicolon. Behind the last token the end of the
text does if no line end comes before it.
-/
namespace FuncLift

/-- A name, a literal that is read as one, or a word or sign that ends a statement. -/
def Token.closes (t : Token) : Bool :=
  t.text?.isSome || [.keyword .breakKw, .keyword .continueKw, .keyword .fallthroughKw,
    .keyword .returnKw, .punct .inc, .punct .dec, .punct .rParen, .punct .rBrack,
    .punct .rBrace].contains t

theorem Token.endsStatement_eq (t : Token) : t.endsStatement = t.closes := by
  cases t with
  | keyword k => cases k <;> rfl
  | punct p => cases p <;> rfl
  | _ => rfl

namespace Lexeme

/-- The token of a lexeme at an offset. Blanks, line ends, comments and a byte order mark in front of
the text have none; what cannot be read is an invalid one, as is a comment that does not end. -/
def token? (offset : Nat) (l : Lexeme) : Option Token :=
  match l.kind with
  | .blank | .newline | .lineComment | .blockComment => none
  | .openComment => some .invalid
  | .byteOrderMark => if offset = 0 then none else some .invalid
  | kind => some (match Scan.read kind l.text with
    | .ok t => t
    | .error _ => .invalid)

def placed? (offset : Nat) (l : Lexeme) : Option Placed :=
  (l.token? offset).map fun t => ⟨t, offset, offset + byteSize l.text⟩

/-- The tokens of lexemes that stand from an offset on. -/
def tokensFrom (offset : Nat) : List Lexeme → List Placed
  | [] => []
  | l :: ls => (l.placed? offset).toList ++ tokensFrom (offset + byteSize l.text) ls

end Lexeme

namespace Semicolon

/-- The characters from an offset to the next token, or to the end of the text. -/
def gap (text : List Char) (offset : Nat) (next : Option Placed) : List Char :=
  sliceBytes text offset ((next.map fun p => p.span.start).getD (byteSize text))

/-- How many bytes stand before the first line end. -/
def lineEnd? (cs : List Char) : Option Nat :=
  if cs.any Lexeme.isLineEnd then some (byteSize (cs.takeWhile fun c => !Lexeme.isLineEnd c))
  else none

/-- The offset at which the gap from an offset on ends a statement. -/
def due? (text : List Char) (offset : Nat) (next : Option Placed) : Option Nat :=
  match lineEnd? (gap text offset next) with
  | some n => some (offset + n)
  | none => if next.isNone then some (byteSize text) else none

def at_ (offset : Nat) : Placed := ⟨.punct .semi, offset, offset⟩

/-- The semicolon that belongs between a token and the next one. -/
def after? (text : List Char) (p : Placed) (next : Option Placed) : Option Placed :=
  if p.token.closes then (due? text p.span.stop next).map at_ else none

/-- The tokens with the semicolons that belong behind them. -/
def insert (text : List Char) : List Placed → List Placed
  | [] => []
  | p :: ps => p :: (after? text p ps.head?).toList ++ insert text ps

end Semicolon

theorem dropBytes_append (front cs : List Char) : dropBytes (byteSize front) (front ++ cs) = cs := by
  induction front with
  | nil => cases cs <;> simp [byteSize, dropBytes]
  | cons c front ih =>
    have hpos := c.utf8Size_pos
    rw [List.cons_append, dropBytes, if_neg (by simp only [byteSize]; omega), byteSize,
      Nat.add_sub_cancel_left, ih]

theorem takeBytes_append (w cs : List Char) (n : Nat) :
    takeBytes (byteSize w + n) (w ++ cs) = w ++ takeBytes n cs := by
  induction w with
  | nil => simp [byteSize]
  | cons c w ih =>
    have hpos := c.utf8Size_pos
    rw [List.cons_append, takeBytes, if_neg (by simp only [byteSize]; omega), byteSize,
      Nat.add_assoc, Nat.add_sub_cancel_left, ih, List.cons_append]

theorem takeWhile_eq_self {p : Char → Bool} {cs : List Char} (h : ∀ c ∈ cs, p c = true) :
    cs.takeWhile p = cs := by
  have happend : (cs ++ []).takeWhile p = cs ++ [].takeWhile p := List.takeWhile_append_of_pos h
  simpa using happend

theorem takeBytes_zero (cs : List Char) : takeBytes 0 cs = [] := by
  cases cs <;> simp [takeBytes]

namespace Lexeme

theorem le_start_tokensFrom {offset : Nat} {ls : List Lexeme} {p : Placed}
    (h : p ∈ tokensFrom offset ls) : offset ≤ p.span.start := by
  induction ls generalizing offset with
  | nil => cases h
  | cons l ls ih =>
    rcases List.mem_append.1 h with h | h
    · obtain ⟨t, _, rfl⟩ := Option.map_eq_some_iff.1 (Option.mem_toList.1 h)
      exact Nat.le_refl _
    · exact Nat.le_trans (Nat.le_add_right _ _) (ih h)

/-- Which characters the lexemes between tokens are made of. -/
structure Gaps (kind : LexemeKind) (text : List Char) : Prop where
  blank : kind = .blank → ∀ c ∈ text, isSpace c = true
  newline : kind = .newline → ∀ c ∈ text, isLineEnd c = true
  lineComment : kind = .lineComment → ∀ c ∈ text, isLineEnd c = false
  byteOrderMark : kind = .byteOrderMark → text = ['\uFEFF']

theorem Gaps.other {kind : LexemeKind} {text : List Char}
    (h : kind ≠ .blank ∧ kind ≠ .newline ∧ kind ≠ .lineComment ∧ kind ≠ .byteOrderMark) :
    Gaps kind text :=
  ⟨fun hk => absurd hk h.1, fun hk => absurd hk h.2.1, fun hk => absurd hk h.2.2.1,
    fun hk => absurd hk h.2.2.2⟩

theorem of_mem_take_takeWhile {p : Char → Bool} {cs : List Char} {c : Char}
    (h : c ∈ cs.take (cs.takeWhile p).length) : p c = true := by
  rw [← List.prefix_iff_eq_take.1 (List.takeWhile_prefix p)] at h
  exact List.all_eq_true.1 List.all_takeWhile c h

def GapsAt (c : Char) (cs : List Char) (r : LexemeKind × Nat) : Prop := Gaps r.1 (c :: cs.take r.2)

theorem atFront_gaps (c : Char) (cs : List Char) : GapsAt c cs (atFront c cs) := by
  have hother {kind : LexemeKind} {n : Nat} (h : kind ≠ .blank ∧ kind ≠ .newline ∧
      kind ≠ .lineComment ∧ kind ≠ .byteOrderMark) : GapsAt c cs (kind, n) := .other h
  unfold atFront
  refine iteInduction (fun hspace => ?_) fun _ => ?_
  · refine ⟨fun _ => ?_, by simp, by simp, by simp⟩
    exact List.forall_mem_cons.2 ⟨hspace, fun d hd => of_mem_take_takeWhile hd⟩
  refine iteInduction (fun hfeed => ?_) fun _ => ?_
  · subst hfeed
    exact ⟨by simp, by simp [isLineEnd], by simp, by simp⟩
  refine iteInduction (fun hreturn => ?_) fun _ => ?_
  · subst hreturn
    refine ⟨by simp, fun _ => List.forall_mem_cons.2 ⟨rfl, fun d hd => ?_⟩, by simp, by simp⟩
    dsimp only at hd
    split at hd
    · obtain ⟨rest, rfl⟩ := List.head?_eq_some_iff.1 ‹_›
      cases List.mem_singleton.1 hd
      rfl
    · cases hd
  refine iteInduction (fun hmark => ?_) fun _ => ?_
  · subst hmark
    exact ⟨by simp, by simp, by simp, fun _ => rfl⟩
  refine iteInduction (fun _ => hother (by simp)) fun _ => ?_
  refine iteInduction (fun _ => hother (by simp)) fun _ => ?_
  iterate 3
    refine iteInduction (fun _ => ?_) fun _ => ?_
    · split <;> exact hother (by simp)
  refine iteInduction (fun hslash => ⟨by simp, by simp, fun _ => ?_, by simp⟩) fun _ => ?_
  · rw [hslash.1]
    refine List.forall_mem_cons.2 ⟨rfl, fun d hd => ?_⟩
    simpa using of_mem_take_takeWhile hd
  refine iteInduction (fun _ => ?_) fun _ => ?_
  · split <;> exact hother (by simp)
  · split <;> exact hother (by simp)

end Lexeme

namespace Semicolon

variable {front w cs : List Char} {next : Option Placed}

theorem gap_append (hnext : ∀ p ∈ next, byteSize (front ++ w) ≤ p.span.start) :
    gap (front ++ w ++ cs) (byteSize front) next =
      w ++ gap (front ++ w ++ cs) (byteSize (front ++ w)) next := by
  have hlast : byteSize (front ++ w) ≤
      (next.map fun p => p.span.start).getD (byteSize (front ++ w ++ cs)) := by
    cases next with
    | none => simp
    | some p => exact hnext p rfl
  have hfront : dropBytes (byteSize front) (front ++ w ++ cs) = w ++ cs := by
    rw [List.append_assoc, dropBytes_append]
  unfold gap sliceBytes
  rw [dropBytes_append, hfront, ← takeBytes_append]
  have hsize := byteSize_append front w
  congr 1
  omega

theorem gap_token (t : Token) (text : List Char) (offset stop : Nat) :
    gap text offset (some ⟨t, offset, stop⟩) = [] := by
  simp [gap, sliceBytes, takeBytes_zero]

theorem lineEnd?_append_of_forall {g : List Char} (h : ∀ c ∈ w, Lexeme.isLineEnd c = false) :
    lineEnd? (w ++ g) = (lineEnd? g).map (byteSize w + ·) := by
  have hany : w.any Lexeme.isLineEnd = false := by simpa using h
  have hfront : (w ++ g).takeWhile (fun c => !Lexeme.isLineEnd c) =
      w ++ g.takeWhile fun c => !Lexeme.isLineEnd c :=
    List.takeWhile_append_of_pos (by simpa using h)
  simp only [lineEnd?, List.any_append, hany, Bool.false_or, hfront, byteSize_append]
  split <;> rfl

theorem lineEnd?_append_of_exists {g : List Char} (h : ∃ c ∈ w, Lexeme.isLineEnd c = true) :
    lineEnd? (w ++ g) = some (byteSize (w.takeWhile fun c => !Lexeme.isLineEnd c)) := by
  have hany : w.any Lexeme.isLineEnd = true := List.any_eq_true.2 h
  have hfront : (w ++ g).takeWhile (fun c => !Lexeme.isLineEnd c) =
      w.takeWhile fun c => !Lexeme.isLineEnd c := by
    rw [List.takeWhile_append, if_neg]
    intro hlength
    obtain ⟨c, hc, hline⟩ := h
    have hall := List.takeWhile_prefix (fun c => !Lexeme.isLineEnd c) (l := w)
    rw [← hall.eq_of_length hlength] at hc
    simpa [hline] using List.all_eq_true.1 List.all_takeWhile c hc
  rw [lineEnd?, List.any_append, hany, Bool.true_or, if_pos rfl, hfront]

theorem due?_skip (hnext : ∀ p ∈ next, byteSize (front ++ w) ≤ p.span.start)
    (h : ∀ c ∈ w, Lexeme.isLineEnd c = false) :
    due? (front ++ w ++ cs) (byteSize front) next =
      due? (front ++ w ++ cs) (byteSize (front ++ w)) next := by
  rw [due?, due?, gap_append hnext, lineEnd?_append_of_forall h]
  cases lineEnd? (gap (front ++ w ++ cs) (byteSize (front ++ w)) next) with
  | none => rfl
  | some n => simp [Nat.add_assoc]

theorem due?_stop (hnext : ∀ p ∈ next, byteSize (front ++ w) ≤ p.span.start)
    (h : ∃ c ∈ w, Lexeme.isLineEnd c = true) :
    due? (front ++ w ++ cs) (byteSize front) next =
      some (byteSize front + byteSize (w.takeWhile fun c => !Lexeme.isLineEnd c)) := by
  rw [due?, gap_append hnext, lineEnd?_append_of_exists h]

theorem due?_token (t : Token) (text : List Char) (offset stop : Nat) :
    due? text offset (some ⟨t, offset, stop⟩) = none := by
  rw [due?, gap_token]
  rfl

theorem due?_end (text : List Char) : due? text (byteSize text) none = some (byteSize text) := by
  have hgap : gap text (byteSize text) none = [] := by
    simp [gap, sliceBytes, takeBytes_zero]
  rw [due?, hgap]
  rfl

/-- The semicolon that is due from an offset on, behind a token that may or may not end a
statement. -/
def pending (text : List Char) (ends : Bool) (offset : Nat) (next : Option Placed) : List Placed :=
  if ends then ((due? text offset next).map at_).toList else []

theorem insert_cons (text : List Char) (p : Placed) (ps : List Placed) : insert text (p :: ps) =
    p :: (pending text p.token.closes p.span.stop ps.head? ++ insert text ps) := by
  rw [insert, after?, pending]
  split <;> simp

theorem pending_token (t : Token) (text : List Char) (ends : Bool) (offset stop : Nat) :
    pending text ends offset (some ⟨t, offset, stop⟩) = [] := by
  rw [pending, due?_token]
  split <;> rfl

theorem pending_skip (cs : List Char) (ends : Bool)
    (hnext : ∀ p ∈ next, byteSize (front ++ w) ≤ p.span.start)
    (h : ∀ c ∈ w, Lexeme.isLineEnd c = false) :
    pending (front ++ w ++ cs) ends (byteSize front) next =
      pending (front ++ w ++ cs) ends (byteSize (front ++ w)) next := by
  rw [pending, pending, due?_skip hnext h]

theorem pending_stop (line : Scan.Line) (cs : List Char)
    (hnext : ∀ p ∈ next, byteSize (front ++ w) ≤ p.span.start)
    (h : ∃ c ∈ w, Lexeme.isLineEnd c = true) :
    pending (front ++ w ++ cs) line.ends (byteSize front) next = (Scan.lineEnd line
      (byteSize front + byteSize (w.takeWhile fun c => !Lexeme.isLineEnd c))).tokens := by
  rw [pending, due?_stop hnext h, Scan.lineEnd]
  split <;> rfl

end Semicolon

namespace Scan

open Semicolon

/-- What characters contribute behind a front, with the token that they are: what was due before them
is contributed or still due behind them. -/
def Feeds (front w cs : List Char) (ps : List Placed) (line : Line) (r : Scan × Line)
    (here : Option Placed) : Prop :=
  r.1.tokens ++ (pending (front ++ w ++ cs) r.2.ends (byteSize (front ++ w)) ps.head? ++
      insert (front ++ w ++ cs) ps) =
    pending (front ++ w ++ cs) line.ends (byteSize front) (here.toList ++ ps).head? ++
      insert (front ++ w ++ cs) (here.toList ++ ps)

namespace Feeds

variable {front w cs : List Char} {ps : List Placed} {line : Line} {r : Scan × Line}

theorem skip (hps : ∀ p ∈ ps.head?, byteSize (front ++ w) ≤ p.span.start)
    (h : ∀ c ∈ w, Lexeme.isLineEnd c = false) (htokens : r.1.tokens = [])
    (hends : r.2.ends = line.ends) : Feeds front w cs ps line r Option.none := by
  unfold Feeds
  rw [htokens, hends, ← pending_skip cs line.ends hps h]
  rfl

theorem stop (hps : ∀ p ∈ ps.head?, byteSize (front ++ w) ≤ p.span.start)
    (h : ∃ c ∈ w, Lexeme.isLineEnd c = true) (htokens : r.1.tokens = (lineEnd line
      (byteSize front + byteSize (w.takeWhile fun c => !Lexeme.isLineEnd c))).tokens)
    (hends : r.2.ends = false) : Feeds front w cs ps line r Option.none := by
  unfold Feeds
  rw [htokens, hends, ← pending_stop line cs hps h]
  rfl

theorem token (t : Token)
    (htokens : r.1.tokens = [⟨t, byteSize front, byteSize front + byteSize w⟩])
    (hends : r.2.ends = t.closes) :
    Feeds front w cs ps line r (some ⟨t, byteSize front, byteSize front + byteSize w⟩) := by
  unfold Feeds
  rw [htokens, hends, byteSize_append, Option.toList_some, List.singleton_append,
    List.singleton_append, List.head?_cons, pending_token, List.nil_append, insert_cons]

end Feeds

theorem feeds_blockComment (line : Line) (front w cs : List Char) (ps : List Placed)
    (hps : ∀ p ∈ ps.head?, byteSize (front ++ w) ≤ p.span.start) : Feeds front w cs ps line
      (ofLexeme line (byteSize front) ⟨.blockComment, w⟩) Option.none := by
  by_cases hwhole : (w.takeWhile fun c => !Lexeme.isLineEnd c).length = w.length
  · have hplain : ∀ c ∈ w, Lexeme.isLineEnd c = false := by
      have hall := (List.takeWhile_prefix fun c => !Lexeme.isLineEnd c).eq_of_length hwhole
      intro c hc
      rw [← hall] at hc
      simpa using List.all_eq_true.1 List.all_takeWhile c hc
    refine .skip hps hplain ?_ ?_ <;> simp [ofLexeme, hwhole]
  · have hline : ∃ c ∈ w, Lexeme.isLineEnd c = true := by
      refine Classical.byContradiction fun hnone => hwhole ?_
      refine congrArg List.length (takeWhile_eq_self fun c hc => ?_)
      simpa using fun h => hnone ⟨c, hc, h⟩
    refine .stop hps hline ?_ ?_ <;> simp [ofLexeme, hwhole, append, Line.start]

theorem feeds_byteOrderMark (line : Line) (front cs : List Char) (ps : List Placed)
    (hps : ∀ p ∈ ps.head?, byteSize (front ++ ['\uFEFF']) ≤ p.span.start) :
    Feeds front ['\uFEFF'] cs ps line (ofLexeme line (byteSize front) ⟨.byteOrderMark, ['\uFEFF']⟩)
      (Lexeme.placed? (byteSize front) ⟨.byteOrderMark, ['\uFEFF']⟩) := by
  by_cases hzero : byteSize front = 0
  · have hnone : Lexeme.placed? (byteSize front) ⟨.byteOrderMark, ['\uFEFF']⟩ = Option.none := by
      simp [Lexeme.placed?, Lexeme.token?, hzero]
    rw [hnone]
    refine .skip hps (List.forall_mem_singleton.2 rfl) ?_ ?_ <;> simp [ofLexeme, hzero, none]
  · have hinvalid : Lexeme.placed? (byteSize front) ⟨.byteOrderMark, ['\uFEFF']⟩ =
        some ⟨.invalid, byteSize front, byteSize front + byteSize ['\uFEFF']⟩ := by
      simp [Lexeme.placed?, Lexeme.token?, hzero]
    rw [hinvalid]
    refine .token .invalid ?_ ?_ <;> simp [ofLexeme, hzero, fault, Token.closes, Token.text?]

theorem feeds_ofLexeme (line : Line) (front cs : List Char) (lexeme : Lexeme)
    (hgaps : Lexeme.Gaps lexeme.kind lexeme.text) (hne : lexeme.text ≠ []) (ps : List Placed)
    (hps : ∀ p ∈ ps.head?, byteSize (front ++ lexeme.text) ≤ p.span.start) :
    Feeds front lexeme.text cs ps line (ofLexeme line (byteSize front) lexeme)
      (lexeme.placed? (byteSize front)) := by
  obtain ⟨kind, w⟩ := lexeme
  cases kind with
  | blank =>
    refine .skip hps (fun c hc => ?_) rfl rfl
    have hspace := hgaps.blank rfl c hc
    simp only [Lexeme.isSpace, Bool.or_eq_true, beq_iff_eq] at hspace
    rcases hspace with (rfl | rfl) | rfl <;> rfl
  | newline =>
    obtain ⟨c, w, rfl⟩ := List.exists_cons_of_ne_nil hne
    have hline := hgaps.newline rfl c List.mem_cons_self
    refine .stop hps ⟨c, List.mem_cons_self, hline⟩ ?_ rfl
    simp [ofLexeme, hline, byteSize]
  | lineComment => exact .skip hps (hgaps.lineComment rfl) rfl rfl
  | blockComment => exact feeds_blockComment line front w cs ps hps
  | openComment => exact .token .invalid rfl rfl
  | byteOrderMark =>
    obtain rfl : w = ['\uFEFF'] := hgaps.byteOrderMark rfl
    exact feeds_byteOrderMark line front cs ps hps
  | _ =>
    unfold ofLexeme Lexeme.placed? Lexeme.token?
    dsimp only
    cases read _ w with
    | ok t => exact .token t rfl t.endsStatement_eq
    | error f => exact .token .invalid rfl rfl

theorem tokens_ofLexemes (line : Line) (front cs : List Char) :
    (ofLexemes line (byteSize front) (Lexeme.all cs)).tokens =
      pending (front ++ cs) line.ends (byteSize front)
          (Lexeme.tokensFrom (byteSize front) (Lexeme.all cs)).head? ++
        insert (front ++ cs) (Lexeme.tokensFrom (byteSize front) (Lexeme.all cs)) := by
  fun_induction Lexeme.all cs generalizing line front with
  | case1 =>
    rw [List.append_nil, ofLexemes, lineEnd, Lexeme.tokensFrom, List.head?_nil, pending, due?_end]
    split <;> rfl
  | case2 c cs kind n hfront ih =>
    have hgaps := Lexeme.atFront_gaps c cs
    rw [hfront] at hgaps
    have hsplit : front ++ (c :: cs) = front ++ (c :: cs.take n) ++ cs.drop n := by simp
    have hnext := ih (ofLexeme line (byteSize front) ⟨kind, c :: cs.take n⟩).2
      (front ++ (c :: cs.take n))
    have hstep := feeds_ofLexeme line front (cs.drop n) ⟨kind, c :: cs.take n⟩ hgaps
      (List.cons_ne_nil _ _)
      (Lexeme.tokensFrom (byteSize (front ++ (c :: cs.take n))) (Lexeme.all (cs.drop n)))
      fun p hp => Lexeme.le_start_tokensFrom (List.mem_of_mem_head? hp)
    unfold Feeds at hstep
    rw [← hnext, byteSize_append] at hstep
    rw [ofLexemes, hsplit]
    exact hstep

end Scan

/-- The tokens of a text are the tokens of its lexemes, and behind each of them that can end a
statement a semicolon if a line end follows before the next token, or if no token follows. -/
theorem tokens_scan (text : String) : (scan text).tokens =
    Semicolon.insert text.toList (Lexeme.tokensFrom 0 (Lexeme.all text.toList)) := by
  have h := Scan.tokens_ofLexemes .start [] text.toList
  exact h

end FuncLift
