import FuncLift.Proofs.Shaped
import FuncLift.Proofs.Traces

/-!
# Drawing a tree writes its tokens

A plain tree that is drawn by itself is laid out as its tokens: whatever blanks are left out, no
token is followed directly by a character that it would absorb. What was written last, and with no
blank behind it, is the edge of the text; the pen remembers it only when it is an operator.
-/
namespace FuncLift

/-- A pen for a part of a tree that lay on these lines, when no comment waits. -/
structure Pen.Quiet (p : Pen) (lines : LineTable) : Prop where
  lines : p.lines = lines
  comments : p.comments = []
  started : p.atStart = false

/-- The offset stands on the line, if it is known. -/
def LineTable.holds (t : LineTable) (line offset : Nat) : Bool :=
  offset == Span.unknown || t.lineOf offset == line

theorem LineTable.lineAt_of_holds {p : Pen} {line offset : Nat} (h : p.lines.holds line offset = true) :
    ∀ l ∈ p.lineAt? offset, l = line := by
  intro l hl
  unfold Pen.lineAt? known? at hl
  split at hl
  · cases hl
  · rename_i hknown
    cases hl
    simpa [holds, hknown] using h

theorem LineTable.holds_empty (offset : Nat) : LineTable.holds ⟨[]⟩ 1 offset = true := by
  simp [holds, lineOf, locate]

theorem Pen.Quiet.lineAt {p : Pen} {lines : LineTable} {line offset : Nat} (h : p.Quiet lines)
    (hholds : lines.holds line offset = true) : ∀ l ∈ p.lineAt? offset, l = line :=
  LineTable.lineAt_of_holds (by rwa [h.lines])

namespace Punct

/-- The operators, of which the pen remembers the last one. -/
def isOperator (p : Punct) : Bool :=
  p ∈ [.plus, .minus, .bang, .caret, .star, .amp, .arrow, .slash, .percent, .pipe, .shl, .shr,
    .andNot, .lAnd, .lOr, .eqEq, .notEq, .lt, .le, .gt, .ge]

theorem isOperator_unary (op : UnaryOp) : op.punct.isOperator = true := by cases op <;> decide

theorem isOperator_binary (op : BinaryOp) : op.punct.isOperator = true := by cases op <;> decide

theorem spelling_unary (op : UnaryOp) : op.punct.spelling = op.spelling := by cases op <;> rfl

theorem spelling_binary (op : BinaryOp) : op.punct.spelling = op.spelling := by cases op <;> rfl

theorem absorbs_word {c : Char} (hc : Lexeme.startsWord c = true) (p : Punct) :
    p.absorbs c = false := by
  have hspell : ∀ q ∈ all, q.spelling.toList.all (fun d => !Lexeme.startsWord d) = true := by
    decide +kernel
  have hne : ∀ d, Lexeme.startsWord d = false → c ≠ d := by
    rintro d hd rfl
    rw [hd] at hc
    cases hc
  rw [Bool.eq_false_iff, Ne, absorbs_iff]
  rintro (⟨q, hq, hprefix⟩ | ⟨_, hcomment⟩ | ⟨_, hdigit⟩)
  · have hmem : c ∈ q.spelling.toList := hprefix.subset (by simp)
    exact hne c (by simpa using List.all_eq_true.1 (hspell q hq) c hmem) rfl
  · exact hcomment.elim (hne '/' (by decide)) (hne '*' (by decide))
  · exact hne c (Lexeme.startsWord_of_isDigit hdigit) rfl

theorem absorbs_closed {p : Punct}
    (hp : p ∈ [.lParen, .rParen, .lBrack, .rBrack, .lBrace, .rBrace, .comma, .ellipsis]) (c : Char) :
    p.absorbs c = false := by
  have hclosed : ∀ p ∈ [lParen, rParen, lBrack, rBrack, lBrace, rBrace, comma, ellipsis], p ≠ .slash ∧ p ≠ .dot ∧
      ∀ q ∈ all, q.spelling.length ≤ p.spelling.length ∨ ¬p.spelling.toList <+: q.spelling.toList := by
    decide +kernel
  obtain ⟨hslash, hdot, hlonger⟩ := hclosed p hp
  rw [Bool.eq_false_iff, Ne, absorbs_iff]
  rintro (⟨q, hq, hprefix⟩ | ⟨h, _⟩ | ⟨h, _⟩)
  · rcases hlonger q hq with hle | hnot
    · have := hprefix.length_le
      simp only [List.length_append, List.length_singleton, String.length_toList] at this
      omega
    · exact hnot ((List.prefix_append _ _).trans hprefix)
  · exact hslash h
  · exact hdot h

end Punct

namespace Token

/-- What the pen remembers of a token. -/
def sign? : Token → Option String
  | .punct p => if p.isOperator then some p.spelling else none
  | _ => none

theorem absorbs_blank (t : Token) : t.absorbs ' ' = false := by
  have hall : ∀ p ∈ Punct.all, p.absorbs ' ' = false := by decide +kernel
  cases t with
  | punct p => exact hall p p.mem_all
  | ident s => exact (by decide : Lexeme.continuesWord ' ' = false)
  | keyword k => exact (by decide : Lexeme.continuesWord ' ' = false)
  | _ => rfl

/-- A token with which an operand or a type can end. -/
def Closes (t : Token) : Prop :=
  (∃ n, t = .ident n) ∨ t = .punct .rParen ∨ t = .punct .rBrack ∨ t = .punct .rBrace

theorem Closes.sign {t : Token} (h : t.Closes) : t.sign? = none := by
  rcases h with ⟨n, rfl⟩ | rfl | rfl | rfl <;> rfl

theorem Closes.absorbs {t : Token} (h : t.Closes) {c : Char} (hc : Lexeme.continuesWord c = false) :
    t.absorbs c = false := by
  rcases h with ⟨n, rfl⟩ | rfl | rfl | rfl
  · exact hc
  · exact Punct.absorbs_closed (by decide) c
  · exact Punct.absorbs_closed (by decide) c
  · exact Punct.absorbs_closed (by decide) c

end Token

/-- The text reads as the tokens, behind what stands at the edge. -/
structure Fits (edge : Option Token) (cs : List Char) (ts : List Token) : Prop where
  laid : ∀ ends, (∀ t ∈ edge, ends = t.endsStatement) → Laid ends cs ts
  parts : ∀ t ∈ edge, t.Parts cs

section

variable {edge : Option Token} {rest : List Char} {us : List Token}

theorem Fits.nil : Fits edge [] [] := ⟨fun _ _ => .nil, by rintro _ _ _ ⟨⟩⟩

/-- A token in front of what fits behind it. -/
theorem Fits.cons {t : Token} {c : Char} (ht : t.Legible) (hc : t.spelling.head? = some c)
    (hedge : ∀ u ∈ edge, u.absorbs c = false) (h : Fits (some t) rest us) :
    Fits edge (t.spelling ++ rest) (t :: us) := by
  refine ⟨fun _ _ => .token ht (h.parts t rfl) (h.laid _ ?_), fun u hu d hd => ?_⟩
  · rintro _ ⟨⟩
    rfl
  · rw [List.head?_append, hc] at hd
    cases hd
    exact hedge u hu

/-- A blank parts every token from what follows. -/
theorem Fits.blank (h : Fits none rest us) : Fits edge (' ' :: rest) us := by
  refine ⟨fun ends _ => .blank (by decide) (h.laid ends (by rintro _ ⟨⟩)), fun t _ c hc => ?_⟩
  cases hc
  exact t.absorbs_blank

end

/-- The edge after a blank that keeps two signs apart. -/
def apart (edge : Option Token) (next : String) : Option Token :=
  match edge.bind Token.sign? with
  | some before => if Draw.combine before next then none else edge
  | none => edge

/-- Behind an edge the tokens are written, and others from then on stand behind another edge. -/
def Inks {α : Type} (lines : LineTable) (edge : Option Token) (m : Draw α) (ts : List Token)
    (edge' : Option Token) (post : α → Prop) : Prop :=
  ∀ p : Pen, p.Quiet lines → p.lastOp = edge.bind Token.sign? → ∃ a q cs, m p = (a, q) ∧ q.Quiet lines ∧
    q.lastOp = edge'.bind Token.sign? ∧ q.text = p.text ++ cs ∧ post a ∧
      ∀ rest us, Fits edge' rest us → Fits edge (cs ++ rest) (ts ++ us)

namespace Inks

variable {α β : Type} {lines : LineTable} {e e' e'' : Option Token} {ts us : List Token} {m : Draw α}
  {f : α → Draw β} {Q : α → Prop} {post : β → Prop}

theorem bind (h : Inks lines e m ts e' Q) (k : ∀ a, Q a → Inks lines e' (f a) us e'' post) :
    Inks lines e (m >>= f) (ts ++ us) e'' post := by
  intro p hp hop
  obtain ⟨a, q, cs, hm, hq, hqop, hqtext, ha, hfits⟩ := h p hp hop
  obtain ⟨b, r, ds, hf, hr, hrop, hrtext, hb, hfits'⟩ := k a ha q hq hqop
  refine ⟨b, r, cs ++ ds, ?_, hr, hrop, ?_, hb, fun rest vs h => ?_⟩
  · change f (m p).1 (m p).2 = (b, r)
    rw [hm, hf]
  · rw [hrtext, hqtext, List.append_assoc]
  · rw [List.append_assoc, List.append_assoc]
    exact hfits _ _ (hfits' rest vs h)

theorem step (h : Inks lines e m [] e' Q) (k : ∀ a, Q a → Inks lines e' (f a) ts e'' post) :
    Inks lines e (m >>= f) ts e'' post := h.bind k

theorem then_ (h : Inks lines e m ts e' Q) (k : ∀ a, Q a → Inks lines e' (f a) [] e'' post) :
    Inks lines e (m >>= f) ts e'' post := by
  have := h.bind k
  rwa [List.append_nil] at this

theorem perhaps {c : Prop} [Decidable c] {m : Draw Unit} {k : Unit → Draw β}
    (h : Inks lines e (if c then m else Pure.pure ()) ts e' fun _ => True) (hk : Inks lines e' (k ()) us e'' post) :
    Inks lines e (if c then m >>= k else k ()) (ts ++ us) e'' post := by
  have hbind := h.bind fun _ _ => hk
  by_cases hc : c
  · simpa only [if_pos hc] using hbind
  · simpa only [if_neg hc, pure_bind] using hbind

theorem pure {b : β} (hb : post b) : Inks lines e (Pure.pure b) [] e post :=
  fun p hp hop => ⟨b, p, [], rfl, hp, hop, by simp, hb, fun _ _ h => h⟩

theorem quiet {g : Pen → Pen} (hg : ∀ p, (g p).lines = p.lines ∧ (g p).comments = p.comments ∧
    (g p).atStart = p.atStart ∧ (g p).lastOp = p.lastOp ∧ (g p).pieces = p.pieces) :
    Inks lines e (modify g : Draw Unit) [] e fun _ => True := by
  intro p hp hop
  obtain ⟨hlines, hcomments, hstarted, hlast, hpieces⟩ := hg p
  have hquiet : (g p).Quiet lines :=
    ⟨hlines.trans hp.lines, hcomments.trans hp.comments, hstarted.trans hp.started⟩
  refine ⟨(), g p, [], rfl, hquiet, hlast.trans hop, ?_, trivial, fun _ _ h => h⟩
  rw [Pen.text, hpieces, Pen.text, List.append_nil]

theorem get {f : Pen → Draw β} (k : ∀ p, p.Quiet lines → p.lastOp = e.bind Token.sign? →
    Inks lines e (f p) ts e' post) : Inks lines e (get >>= f) ts e' post :=
  fun p hp hop => k p hp hop p hp hop

theorem offset {f : Nat → Draw β} (k : ∀ s, Inks lines e (f s) ts e' post) :
    Inks lines e (Draw.offset >>= f) ts e' post := fun p hp hop => k p.offset p hp hop

theorem markNode (form : Form) (t : Tag) (s : Nat) :
    Inks lines e (Draw.markNode form t s) [] e fun _ => True := quiet fun _ => ⟨rfl, rfl, rfl, rfl, rfl⟩

theorem setLastEnd (o : Option Nat) : Inks lines e (Draw.setLastEnd o) [] e fun _ => True :=
  quiet fun _ => ⟨rfl, rfl, rfl, rfl, rfl⟩

theorem written {s : String} (he' : e'.bind Token.sign? = none)
    (h : ∀ rest us, Fits e' rest us → Fits e (s.toList ++ rest) (ts ++ us)) :
    Inks lines e (Draw.text s) ts e' fun _ => True := by
  intro p hp _
  refine ⟨(), (Draw.text s p).2, s.toList, rfl, ⟨hp.lines, hp.comments, hp.started⟩, he'.symm, ?_, trivial, h⟩
  change (s :: p.pieces).reverse.flatMap String.toList = _
  simp [Pen.text]

theorem blank : Inks lines e (Draw.text " ") [] none fun _ => True := written rfl fun _ _ => .blank

theorem empty (he : e.bind Token.sign? = none) : Inks lines e (Draw.text "") [] e fun _ => True :=
  written he fun _ _ h => h

theorem token {s : String} {t : Token} {c : Char} (hs : s.toList = t.spelling) (ht : t.Legible)
    (hsign : t.sign? = none) (hc : t.spelling.head? = some c) (hedge : ∀ u ∈ e, u.absorbs c = false) :
    Inks lines e (Draw.text s) [t] (some t) fun _ => True :=
  written hsign fun _ _ h => hs ▸ Fits.cons ht hc hedge h

theorem spaceIfCombines (next : String) :
    Inks lines e (Draw.spaceIfCombines next) [] (apart e next) fun _ => True := by
  refine .get fun p _ hop => ?_
  rw [hop, apart]
  cases e.bind Token.sign? with
  | none => exact .pure trivial
  | some before =>
    dsimp only
    split
    · exact blank
    · exact .pure trivial

theorem operator {s : String} {p : Punct} {c : Char} (hs : p.spelling = s) (hp : p.isOperator = true)
    (hc : p.spelling.toList.head? = some c) (hedge : ∀ u ∈ apart e s, u.absorbs c = false) :
    Inks lines e (Draw.operator s) [.punct p] (some (.punct p)) fun _ => True := by
  refine (spaceIfCombines s).step fun _ _ => ?_
  intro q hq _
  refine ⟨(), _, s.toList, rfl, ⟨hq.lines, hq.comments, hq.started⟩, by simp [Token.sign?, hp, hs], ?_, trivial,
    fun rest us h => ?_⟩
  · change (s :: q.pieces).reverse.flatMap String.toList = _
    simp [Pen.text]
  · subst hs
    exact Fits.cons (t := .punct p) trivial hc hedge h

theorem operator_after {s : String} {p : Punct} (hs : p.spelling = s) (hp : p.isOperator = true)
    (he : ∀ t ∈ e, t.Closes) :
    Inks lines e (Draw.operator s) [.punct p] (some (.punct p)) fun _ => True := by
  have hall : ∀ p ∈ Punct.all,
      p.spelling.toList.head?.any (fun c => !Lexeme.continuesWord c) = true := by decide +kernel
  obtain ⟨c, hc, hword⟩ := (Option.any_eq_true _ _).1 (hall p p.mem_all)
  rw [Bool.not_eq_true'] at hword
  refine operator hs hp hc fun t ht => ?_
  have hsign : e.bind Token.sign? = none := by
    cases e with
    | none => rfl
    | some u => exact (he u rfl).sign
  rw [apart, hsign] at ht
  exact (he t ht).absorbs hword

theorem apart_apart (e : Option Token) (next : String) : apart (apart e next) next = apart e next := by
  unfold apart
  cases h : e.bind Token.sign? with
  | none => simp [h]
  | some before =>
    by_cases hc : Draw.combine before next = true
    · simp [hc]
    · simp [hc, h]

theorem inlineComments (span : Span) : Inks lines e (Draw.inlineComments span) [] e fun _ => True := by
  rw [Draw.inlineComments]
  split
  · exact .pure trivial
  · refine .get fun p hp _ => ?_
    rw [hp.comments]
    exact .pure trivial

/-- An expression with its mark is written as its content, behind a sign that it starts with. -/
theorem marked {form : Form} {t : Tag} {sign : Option String} {content : Draw Unit} {d : Option Token}
    (hd : d = match sign with
      | some s => apart e s
      | none => e)
    (h : Inks lines d content ts e' fun _ => True) :
    Inks lines e (Draw.marked none form t sign content) ts e' fun _ => True := by
  have htail (start : Nat) : Inks lines d (do
      content
      Draw.markNode form t start
      ((none : Option (List Tag)).getD []).forM fun t => Draw.markNode .paren t 0) ts e'
      fun _ => True :=
    h.then_ fun _ _ => (markNode form t start).step fun _ _ => .pure trivial
  refine .offset fun outer => (inlineComments t.span).step fun _ _ => ?_
  cases sign with
  | none =>
    subst hd
    exact .offset fun start => htail start
  | some s =>
    subst hd
    exact (spaceIfCombines s).step fun _ _ => .offset fun start => htail start

end Inks

/-- What can stand in front of an expression without a blank. -/
def Ready (edge : Option Token) : Prop := ∀ t ∈ edge, ∃ p : Punct, t = .punct p ∧
  (p ∈ [.lParen, .lBrack, .comma, .colon] ∨ p.isOperator = true)

theorem Ready.blank : Ready none := nofun

theorem Ready.punct {p : Punct} (hp : p ∈ [.lParen, .lBrack, .comma, .colon] ∨ p.isOperator = true) :
    Ready (some (.punct p)) := by
  rintro t ⟨⟩
  exact ⟨p, rfl, hp⟩

theorem Ready.word {edge : Option Token} (h : Ready edge) {c : Char} (hc : Lexeme.startsWord c = true) :
    ∀ t ∈ edge, t.absorbs c = false := by
  intro t ht
  obtain ⟨p, rfl, _⟩ := h t ht
  exact Punct.absorbs_word hc p

theorem Ready.paren {edge : Option Token} (h : Ready edge) : ∀ t ∈ edge, t.absorbs '(' = false := by
  have hall : ∀ p ∈ Punct.all, p.absorbs '(' = false := by decide +kernel
  intro t ht
  obtain ⟨p, rfl, _⟩ := h t ht
  exact hall p p.mem_all

/-- The pen keeps a unary operator apart from the signs with which it would combine. -/
theorem Ready.unary {edge : Option Token} (h : Ready edge) (op : UnaryOp) :
    ∃ c, op.punct.spelling.toList.head? = some c ∧
      ∀ t ∈ apart edge op.spelling, t.absorbs c = false := by
  have hall : ∀ op ∈ [UnaryOp.add, .sub, .not, .xor, .deref, .addr, .recv], ∀ p ∈ Punct.all,
      p ∈ [.lParen, .lBrack, .comma, .colon] ∨ p.isOperator = true →
        op.punct.spelling.toList.head?.all (fun c =>
          (apart (some (.punct p)) op.spelling).all fun t => !t.absorbs c) = true := by
    decide +kernel
  obtain ⟨c, hc⟩ : ∃ c, op.punct.spelling.toList.head? = some c := by cases op <;> exact ⟨_, rfl⟩
  refine ⟨c, hc, fun t ht => ?_⟩
  cases edge with
  | none => cases ht
  | some u =>
    obtain ⟨p, rfl, hp⟩ := h u rfl
    have hfirst := hall op (by cases op <;> decide) p p.mem_all hp
    rw [hc, Option.all_some, Option.all_eq_true] at hfirst
    simpa using hfirst t ht

namespace Inks

variable {α β : Type} {lines : LineTable} {e e' : Option Token} {t : Token}

theorem punct (p : Punct) (c : Char) (hc : p.spelling.toList.head? = some c)
    (hp : p.isOperator = false) (hedge : ∀ u ∈ e, u.absorbs c = false) :
    Inks lines e (Draw.text p.spelling) [.punct p] (some (.punct p)) fun _ => True :=
  token (t := .punct p) rfl trivial (by simp [Token.sign?, hp]) hc hedge

theorem punctAfter (p : Punct) (c : Char) (hc : p.spelling.toList.head? = some c)
    (hp : p.isOperator = false) (hword : Lexeme.continuesWord c = false) (ht : t.Closes) :
    Inks lines (some t) (Draw.text p.spelling) [.punct p] (some (.punct p)) fun _ => True := by
  refine punct p c hc hp ?_
  rintro u ⟨⟩
  exact ht.absorbs hword

theorem word {n : String} (hn : Token.IsName n)
    (hedge : ∀ c, Lexeme.startsWord c = true → ∀ u ∈ e, u.absorbs c = false) :
    Inks lines e (Draw.text n) [.ident n] (some (.ident n)) fun _ => True := by
  obtain ⟨c, w, hs, hc, _⟩ := hn.1
  exact token (t := .ident n) rfl hn rfl (by simp [Token.spelling, hs]) (hedge c hc)

end Inks

namespace Expr

attribute [local simp] Draw.expr tokens

variable {lines : LineTable} {line : Nat}

mutual

/-- What the pen looks at in a plain tree stands on the line. -/
def isFlat (lines : LineTable) (line : Nat) : Expr → Bool
  | .paren _ e | .selector _ e _ | .unary _ _ e => isFlat lines line e
  | .index _ e i => isFlat lines line e && isFlat lines line i
  | .slice _ e lo hi max => isFlat lines line e && isFlatOption lines line lo &&
      isFlatOption lines line hi && isFlatOption lines line max
  | .call t callee args _ => lines.holds line callee.span.stop &&
      lines.holds line (Draw.closingByte t.span).start && isFlat lines line callee &&
      areFlat lines line args
  | .binary _ l _ r => lines.holds line l.span.stop && lines.holds line r.span.start &&
      isFlat lines line l && isFlat lines line r
  | _ => true

def isFlatOption (lines : LineTable) (line : Nat) : Option Expr → Bool
  | none => true
  | some e => isFlat lines line e

def areFlat (lines : LineTable) (line : Nat) : List Expr → Bool
  | [] => true
  | e :: es => lines.holds line e.span.start && lines.holds line e.span.stop &&
      isFlat lines line e && areFlat lines line es

end

mutual

theorem isFlat_empty : ∀ e : Expr, e.isFlat ⟨[]⟩ 1 = true
  | .paren _ e | .selector _ e _ | .unary _ _ e => isFlat_empty e
  | .index _ e i => by simp [isFlat, isFlat_empty e, isFlat_empty i]
  | .slice _ e lo hi max => by
    simp [isFlat, isFlat_empty e, isFlatOption_empty lo, isFlatOption_empty hi, isFlatOption_empty max]
  | .call t callee args _ => by
    simp [isFlat, LineTable.holds_empty, isFlat_empty callee, areFlat_empty args]
  | .binary _ l _ r => by simp [isFlat, LineTable.holds_empty, isFlat_empty l, isFlat_empty r]
  | .ident .. | .lit .. | .funcLit .. | .composite .. | .assert .. | .type .. => rfl

theorem isFlatOption_empty : ∀ o : Option Expr, isFlatOption ⟨[]⟩ 1 o = true
  | none => rfl
  | some e => isFlat_empty e

theorem areFlat_empty : ∀ es : List Expr, areFlat ⟨[]⟩ 1 es = true
  | [] => rfl
  | e :: es => by simp [areFlat, LineTable.holds_empty, isFlat_empty e, areFlat_empty es]

end

theorem isFlat_of_option {lines : LineTable} {line : Nat} {o : Option Expr}
    (h : isFlatOption lines line o = true) {e : Expr} (he : e ∈ o) : e.isFlat lines line = true := by
  cases he
  exact h

theorem areFlat_iff {lines : LineTable} {line : Nat} {es : List Expr} : areFlat lines line es = true ↔
    ∀ e ∈ es, (lines.holds line e.span.start = true ∧ lines.holds line e.span.stop = true) ∧
      e.isFlat lines line = true := by
  induction es with
  | nil => simp [areFlat]
  | cons e es ih => simp [areFlat, ih]

/-- Drawing the tree writes its tokens, the last of which ends an operand. -/
structure Inked (lines : LineTable) (e : Expr) (t : Token) : Prop where
  closes : t.Closes
  last : e.tokens.getLast? = some t
  inks : ∀ depth edge, Ready edge →
    Inks lines edge (Draw.expr none depth e) e.tokens (some t) fun _ => True

theorem Inked.ident {t : Tag} {n : String} (hn : Token.IsName n) :
    Inked lines (.ident t n) (.ident n) := by
  refine ⟨.inl ⟨n, rfl⟩, by rw [tokens]; rfl, fun depth edge hedge => ?_⟩
  rw [Draw.expr, tokens]
  exact .marked rfl (.word hn fun c hc => hedge.word hc)

theorem Inked.paren {t : Tag} {e : Expr} {u : Token} (h : Inked lines e u) :
    ∃ v, Inked lines (.paren t e) v := by
  by_cases hparen : e.isParen = true
  · refine ⟨u, h.closes, by rw [tokens, if_pos hparen, h.last], fun depth edge hedge => ?_⟩
    rw [Draw.expr, tokens, if_pos hparen, Draw.expr.parens, if_pos hparen]
    exact .marked rfl (h.inks depth edge hedge)
  · refine ⟨.punct .rParen, .inr (.inl rfl), by rw [tokens, if_neg hparen]; simp [List.getLast?_cons],
      fun depth edge hedge => ?_⟩
    rw [Draw.expr, tokens, if_neg hparen, Draw.expr.parens, if_neg hparen]
    refine .marked rfl ((Inks.punct .lParen '(' rfl rfl hedge.paren).bind fun _ _ => ?_)
    refine (h.inks _ _ (.punct (.inl (by decide)))).bind fun _ _ => ?_
    exact .punctAfter .rParen ')' rfl rfl (by decide) h.closes

theorem Inked.selector {t : Tag} {e : Expr} {sel : Name} {u : Token} (h : Inked lines e u)
    (hsel : Token.IsName sel.text) : Inked lines (.selector t e sel) (.ident sel.text) := by
  refine ⟨.inl ⟨_, rfl⟩, by rw [tokens]; simp, fun depth edge hedge => ?_⟩
  rw [Draw.expr, tokens]
  refine .marked rfl ((h.inks depth edge hedge).bind fun _ _ => ?_)
  refine (Inks.punctAfter .dot '.' rfl rfl (by decide) h.closes).bind fun _ _ => .offset fun s => ?_
  refine (Inks.word hsel ?_).then_ fun _ _ => .quiet fun _ => ⟨rfl, rfl, rfl, rfl, rfl⟩
  rintro c hc _ ⟨⟩
  exact Punct.absorbs_word hc .dot

theorem Inked.index {t : Tag} {e i : Expr} {u v : Token} (h : Inked lines e u) (hi : Inked lines i v) :
    Inked lines (.index t e i) (.punct .rBrack) := by
  refine ⟨.inr (.inr (.inl rfl)), by simp [tokens, List.getLast?_cons], fun depth edge hedge => ?_⟩
  rw [Draw.expr, tokens]
  refine .marked rfl ((h.inks 1 edge hedge).bind fun _ _ => ?_)
  refine (Inks.punctAfter .lBrack '[' rfl rfl (by decide) h.closes).bind fun _ _ => ?_
  refine (hi.inks _ _ (.punct (.inl (by decide)))).bind fun _ _ => ?_
  exact .punctAfter .rBrack ']' rfl rfl (by decide) hi.closes

theorem Inked.unary {t : Tag} {op : UnaryOp} {e : Expr} {u : Token} (h : Inked lines e u) :
    Inked lines (.unary t op e) u := by
  refine ⟨h.closes, ?_, fun depth edge hedge => ?_⟩
  · rw [tokens, List.getLast?_cons, h.last]
    rfl
  · obtain ⟨c, hc, hapart⟩ := hedge.unary op
    rw [Draw.expr, tokens]
    refine .marked rfl ((Inks.operator (Punct.spelling_unary op) (Punct.isOperator_unary op) hc ?_).bind
      fun _ _ => h.inks _ _ (.punct (.inr (Punct.isOperator_unary op))))
    rwa [Inks.apart_apart]

theorem Inked.binary {t : Tag} {l r : Expr} {op : BinaryOp} {u v : Token} (hl : Inked lines l u)
    (hr : Inked lines r v) (hstop : lines.holds line l.span.stop = true)
    (hstart : lines.holds line r.span.start = true) : Inked lines (.binary t l op r) v := by
  refine ⟨hr.closes, ?_, fun depth edge hedge => ?_⟩
  · rw [tokens, List.getLast?_append, List.getLast?_cons, hr.last]
    rfl
  · rw [Draw.expr, tokens]
    refine .marked rfl ((hl.inks _ edge hedge).bind fun _ _ => ?_)
    extract_lets right right' after
    have hright (b : Bool) : Inks lines (some (.punct op.punct))
        (if b = true then Draw.text " " >>= right else right ()) r.tokens (some v) fun _ => True := by
      cases b with
      | true => exact Inks.blank.step fun _ _ => hr.inks _ _ .blank
      | false => exact hr.inks _ _ (.punct (.inr (Punct.isOperator_binary op)))
    have hafter {mid : Option Token} (hmid : ∀ w ∈ mid, w = u) :
        Inks lines mid (after ()) (.punct op.punct :: r.tokens) (some v) fun _ => True := by
      refine (Inks.operator_after (Punct.spelling_binary op) (Punct.isOperator_binary op)
        fun w hw => hmid w hw ▸ hl.closes).bind fun _ _ => .get fun p hp _ => ?_
      -- the right operand stood on the line of the left one
      split
      · rename_i x y hx hy
        rw [hp.lineAt hstop x hx, hp.lineAt hstart y hy, if_neg (Nat.lt_irrefl line)]
        exact hright _
      · exact hright _
    split
    · exact Inks.blank.step fun _ _ => hafter (by rintro _ ⟨⟩)
    · exact hafter fun w hw => by cases hw; rfl

/-- What can stand in front of a colon or of the closing bracket. -/
def Bounds (t : Token) : Prop := t.Closes ∨ t = .punct .lBrack ∨ t = .punct .colon

theorem Bounds.absorbs {t : Token} (h : Bounds t) {c : Char} (hc : c = ':' ∨ c = ']') :
    t.absorbs c = false := by
  rcases h with h | rfl | rfl
  · refine h.absorbs ?_
    rcases hc with rfl | rfl <;> decide
  · exact Punct.absorbs_closed (by decide) c
  · rcases hc with rfl | rfl <;> decide

/-- What stands at the edge when tokens were written behind another edge. -/
def edgeAfter (edge : Option Token) (ts : List Token) : Option Token := ts.getLast?.or edge

theorem edgeAfter_append (edge : Option Token) (ts us : List Token) :
    edgeAfter edge (ts ++ us) = edgeAfter (edgeAfter edge ts) us := by
  simp [edgeAfter, List.getLast?_append, Option.or_assoc]

theorem edgeAfter_cons (edge : Option Token) (t : Token) (ts : List Token) :
    edgeAfter edge (t :: ts) = edgeAfter (some t) ts := edgeAfter_append edge [t] ts

theorem Inked.edgeAfter {e : Expr} {t : Token} (h : Inked lines e t) (edge : Option Token) :
    edgeAfter edge e.tokens = some t := by
  simp [Expr.edgeAfter, h.last]

theorem inks_option {o : Option Expr} (ho : ∀ x ∈ o, ∃ t, Inked lines x t) {edge : Option Token}
    (hready : Ready edge) (hedge : ∀ t ∈ edge, Bounds t) (depth : Nat) :
    (∀ t ∈ edgeAfter edge (tokensOption o), Bounds t) ∧
      Inks lines edge ((Draw.exprOption none depth o).getD (pure ())) (tokensOption o)
        (edgeAfter edge (tokensOption o)) fun _ => True := by
  cases o with
  | none => exact ⟨hedge, .pure trivial⟩
  | some x =>
    obtain ⟨t, hx⟩ := ho x rfl
    rw [tokensOption, hx.edgeAfter, Draw.exprOption]
    refine ⟨?_, hx.inks depth edge hready⟩
    rintro u ⟨⟩
    exact .inl hx.closes

theorem inks_bounds {os : List (Option Expr)} (hos : ∀ o ∈ os, ∀ x ∈ o, ∃ t, Inked lines x t)
    {edge : Option Token} (hedge : ∀ t ∈ edge, Bounds t) (depth : Nat) (blanks before : Bool) :
    (∀ t ∈ edgeAfter edge (os.flatMap fun o => .punct .colon :: tokensOption o), Bounds t) ∧
      Inks lines edge (Draw.sliceBounds blanks before (os.map (Draw.exprOption none depth)))
        (os.flatMap fun o => .punct .colon :: tokensOption o)
        (edgeAfter edge (os.flatMap fun o => .punct .colon :: tokensOption o)) fun _ => True := by
  induction os generalizing edge before with
  | nil => exact ⟨hedge, .pure trivial⟩
  | cons o os ih =>
    obtain ⟨ho, hos⟩ := List.forall_mem_cons.1 hos
    rw [List.map_cons, List.flatMap_cons, Draw.sliceBounds]
    extract_lets tail
    have hready : Ready (some (.punct .colon)) := .punct (.inl (by decide))
    have hcolon : ∀ t ∈ some (Token.punct .colon), Bounds t := by
      rintro t ⟨⟩
      exact .inr (.inr rfl)
    obtain ⟨hafter, _⟩ := inks_option ho hready hcolon depth
    obtain ⟨hends, htail⟩ := ih hos hafter (Draw.exprOption none depth o).isSome
    rw [List.cons_append, edgeAfter_cons, edgeAfter_append]
    refine ⟨hends, ?_⟩
    -- behind the colon the bound, if there is one, and the bounds after it
    have hbound {u : Draw Unit} (hnone : o = none → u = tail ())
        (hsome : ∀ x, o = some x → u = if blanks = true then
          Draw.text " " >>= fun _ => Draw.expr none depth x >>= tail
          else Draw.expr none depth x >>= tail) :
        Inks lines (some (.punct .colon)) u
          (tokensOption o ++ os.flatMap fun o => .punct .colon :: tokensOption o)
          (edgeAfter (edgeAfter (some (.punct .colon)) (tokensOption o))
            (os.flatMap fun o => .punct .colon :: tokensOption o)) fun _ => True := by
      cases o with
      | none =>
        rw [hnone rfl]
        exact htail
      | some x =>
        obtain ⟨t, hx⟩ := ho x rfl
        rw [hsome x rfl]
        rw [tokensOption, hx.edgeAfter] at htail ⊢
        cases blanks with
        | true => exact Inks.blank.step fun _ _ => (hx.inks depth _ .blank).bind fun _ _ => htail
        | false => exact (hx.inks depth _ hready).bind fun _ _ => htail
    have hsign {w : Option Token} (hw : ∀ t ∈ w, Bounds t) :
        Inks lines w (Draw.text ":") [.punct .colon] (some (.punct .colon)) fun _ => True :=
      .punct .colon ':' rfl rfl fun t ht => (hw t ht).absorbs (.inl rfl)
    split
    · refine Inks.blank.step fun _ _ => (hsign (w := none) (by rintro _ ⟨⟩)).bind fun _ _ => hbound ?_ ?_
      · rintro rfl
        rfl
      · rintro x rfl
        rfl
    · refine (hsign hedge).bind fun _ _ => hbound ?_ ?_
      · rintro rfl
        rfl
      · rintro x rfl
        rfl

end Expr

/-- How far a list on one line is drawn. -/
def OnLine (line : Nat) (s : Draw.ListState) : Prop := (∀ l ∈ s.line, l = line) ∧ s.broken = false

theorem laterLine_eq_false {line : Nat} {a b : Option Nat} (ha : ∀ l ∈ a, l = line)
    (hb : ∀ l ∈ b, l = line) : Draw.laterLine a b = false := by
  cases a with
  | none => rfl
  | some x =>
    cases b with
    | none => rfl
    | some y =>
      rw [ha x rfl, hb y rfl]
      exact decide_eq_false (Nat.lt_irrefl line)

/-- What stood on the line. -/
structure Draw.Item.LiesOn (lines : LineTable) (line : Nat) (x : Draw.Item) : Prop where
  start : lines.holds line x.span.start = true
  stop : lines.holds line x.span.stop = true

theorem Draw.Item.liesOn_empty (x : Draw.Item) : x.LiesOn ⟨[]⟩ 1 :=
  ⟨LineTable.holds_empty _, LineTable.holds_empty _⟩

namespace Inks

section Items

variable {lines : LineTable} {line : Nat} {tail : String} {x : Draw.Item} {xs : List Draw.Item}
  {s : Draw.ListState} {v w w' w'' : Option Token} {ts us vs : List Token}

theorem itemRest (hs : OnLine line s) (hstop : lines.holds line x.span.stop = true)
    (hx : Inks lines v x.draw ts w fun _ => True)
    (htail : Inks lines w (if xs.isEmpty then Draw.text tail else Pure.pure ()) us w' fun _ => True)
    (hrest : ∀ s, OnLine line s → Inks lines w' (Draw.listItems tail false s xs) vs w'' (OnLine line)) :
    Inks lines v (do
      x.draw
      if xs.isEmpty then Draw.text tail
      let p ← MonadState.get
      if (known? x.span.stop).isSome then Draw.setLastEnd (some x.span.stop)
      Draw.listItems tail false { s with line := p.lineAt? x.span.stop } xs)
      (ts ++ (us ++ vs)) w'' (OnLine line) := by
  refine hx.bind fun _ _ => .perhaps htail (.get fun p hp _ => ?_)
  have hlist := hrest { s with line := p.lineAt? x.span.stop } ⟨hp.lineAt hstop, hs.2⟩
  split
  · exact (setLastEnd _).step fun _ _ => hlist
  · exact hlist

theorem firstItem (hs : OnLine line s) (hx : x.LiesOn lines line)
    (hdraw : Inks lines v x.draw ts w fun _ => True)
    (htail : Inks lines w (if xs.isEmpty then Draw.text tail else Pure.pure ()) us w' fun _ => True)
    (hrest : ∀ s, OnLine line s → Inks lines w' (Draw.listItems tail false s xs) vs w'' (OnLine line)) :
    Inks lines v (Draw.listItems tail true s (x :: xs)) (ts ++ (us ++ vs)) w'' (OnLine line) := by
  rw [Draw.listItems]
  refine .get fun p hp _ => ?_
  rw [laterLine_eq_false hs.1 (hp.lineAt hx.start)]
  exact itemRest hs hx.stop hdraw htail hrest

theorem laterItem {t : Token} (ht : t.Closes) (hs : OnLine line s) (hx : x.LiesOn lines line)
    (hdraw : Inks lines none x.draw ts w fun _ => True)
    (htail : Inks lines w (if xs.isEmpty then Draw.text tail else Pure.pure ()) us w' fun _ => True)
    (hrest : ∀ s, OnLine line s → Inks lines w' (Draw.listItems tail false s xs) vs w'' (OnLine line)) :
    Inks lines (some t) (Draw.listItems tail false s (x :: xs)) (.punct .comma :: (ts ++ (us ++ vs))) w''
      (OnLine line) := by
  rw [Draw.listItems]
  refine (punctAfter .comma ',' rfl rfl (by decide) ht).bind fun _ _ => .get fun p hp _ => ?_
  rw [laterLine_eq_false hs.1 (hp.lineAt hx.start)]
  exact blank.step fun _ _ => itemRest hs hx.stop hdraw htail hrest

theorem list {opening : Nat} {items : List Draw.Item} {closing : Span}
    (hopen : lines.holds line opening = true) (hclose : lines.holds line closing.start = true)
    (h : ∀ s, OnLine line s → Inks lines v (Draw.listItems tail true s items) ts w (OnLine line)) :
    Inks lines v (Draw.list opening items closing tail) ts w fun _ => True := by
  refine .get fun p hp _ => ?_
  extract_lets above after
  have hitems : Inks lines v (after ()) ts w fun _ => True := by
    refine (h ⟨above, false⟩ ⟨hp.lineAt hopen, rfl⟩).then_ fun s hs => .get fun q hq _ => ?_
    extract_lets closes
    have hcloses : closes = false := by
      simp [closes, laterLine_eq_false hs.1 (hq.lineAt hclose)]
    rw [hcloses, if_neg Bool.false_ne_true]
    change Inks lines w (if s.broken = true then _ else _) [] w _
    rw [hs.2, if_neg Bool.false_ne_true, hcloses, if_neg Bool.false_ne_true]
    exact .pure trivial
  split
  · exact (setLastEnd _).step fun _ _ => hitems
  · exact hitems

end Items

end Inks

namespace Expr

/-- An expression that stood on the line. -/
structure InkedOn (lines : LineTable) (line : Nat) (e : Expr) (t : Token) : Prop extends
    Inked lines e t where
  start : lines.holds line e.span.start = true
  stop : lines.holds line e.span.stop = true

theorem InkedOn.item {e : Expr} {t : Token} (h : InkedOn lines line e t) (depth : Nat) :
    Draw.Item.LiesOn lines line ⟨e.span, false, Draw.expr none depth e⟩ := ⟨h.start, h.stop⟩

/-- The expressions behind one, with the dots if the last one is spread, and the token with which they
end. -/
theorem inks_arguments {spread : Bool} {depth : Nat} {es : List Expr}
    (hes : ∀ x ∈ es, ∃ t, InkedOn lines line x t) {t : Token} (ht : t.Closes) : ∃ us vs w u,
      us ++ vs = (if es.isEmpty then [] else .punct .comma :: tokensList es) ++
        (if spread then [Token.punct .ellipsis] else []) ∧
      Inks lines (some t) (if (Draw.exprItems depth es).isEmpty then
        Draw.text (if spread then "..." else "") else pure ()) us w (fun _ => True) ∧
      (∀ s, OnLine line s → Inks lines w (Draw.listItems (if spread then "..." else "") false s
        (Draw.exprItems depth es)) vs (some u) (OnLine line)) ∧
      (u.Closes ∨ spread = true ∧ u = .punct .ellipsis) := by
  induction es generalizing t with
  | nil =>
    cases spread with
    | true =>
      exact ⟨[.punct .ellipsis], [], some (.punct .ellipsis), .punct .ellipsis, rfl,
        .punctAfter .ellipsis '.' rfl rfl (by decide) ht, fun s hs => .pure hs, .inr ⟨rfl, rfl⟩⟩
    | false => exact ⟨[], [], some t, t, rfl, .empty ht.sign, fun s hs => .pure hs, .inl ht⟩
  | cons e es ih =>
    obtain ⟨⟨t', he⟩, hes⟩ := List.forall_mem_cons.1 hes
    obtain ⟨us, vs, w, u, htokens, htail, hrest, hends⟩ := ih hes he.closes
    refine ⟨[], .punct .comma :: (e.tokens ++ (us ++ vs)), some t, u, ?_, .pure trivial,
      fun s hs => .laterItem ht hs (he.item depth) (he.inks depth none .blank) htail hrest, hends⟩
    rw [htokens]
    simp [tokensList]

/-- A list of expressions on one line. -/
theorem inks_list {spread : Bool} {depth : Nat} {es : List Expr} (hne : es ≠ [])
    (hes : ∀ x ∈ es, ∃ t, InkedOn lines line x t) {opening : Nat} {closing : Span}
    (hopen : lines.holds line opening = true) (hclose : lines.holds line closing.start = true)
    {edge : Option Token} (hedge : Ready edge) :
    ∃ u, (u.Closes ∨ spread = true ∧ u = .punct .ellipsis) ∧
      Inks lines edge (Draw.list opening (Draw.exprItems depth es) closing (if spread then "..." else ""))
        (tokensList es ++ if spread then [Token.punct .ellipsis] else []) (some u) fun _ => True := by
  cases es with
  | nil => exact absurd rfl hne
  | cons x xs =>
    obtain ⟨⟨t, hx⟩, hxs⟩ := List.forall_mem_cons.1 hes
    obtain ⟨us, vs, w, u, hmore, htail, hrest, hends⟩ :=
      @inks_arguments _ _ spread depth xs hxs _ hx.closes
    rw [tokensList, List.append_assoc x.tokens, ← hmore]
    refine ⟨u, hends, .list hopen hclose fun s hs => ?_⟩
    exact .firstItem hs (hx.item depth) (hx.inks depth _ hedge) htail hrest

theorem Inked.call {t : Tag} {e : Expr} {args : List Expr} {spread : Bool} {u : Token}
    (h : Inked lines e u) (hargs : ∀ x ∈ args, ∃ t, InkedOn lines line x t)
    (hspread : spread = true → args ≠ []) (hopen : lines.holds line e.span.stop = true)
    (hclose : lines.holds line (Draw.closingByte t.span).start = true) :
    Inked lines (.call t e args spread) (.punct .rParen) := by
  refine ⟨.inr (.inl rfl), by simp [tokens, List.getLast?_cons], fun depth edge hedge => ?_⟩
  have htokens : (Expr.call t e args spread).tokens = e.tokens ++ ([Token.punct .lParen] ++
      ((tokensList args ++ if spread then [Token.punct .ellipsis] else []) ++
        [Token.punct .rParen])) := by
    simp [tokens]
  rw [Draw.expr, htokens]
  extract_lets depth
  refine .marked rfl ((h.inks _ edge hedge).bind fun _ _ => ?_)
  refine (Inks.punctAfter .lParen '(' rfl rfl (by decide) h.closes).bind fun _ _ => ?_
  have hend {w : Option Token} (hw : ∀ t ∈ w, t.absorbs ')' = false) :
      Inks lines w (Draw.text ")") [.punct .rParen] (some (.punct .rParen)) fun _ => True :=
    .punct .rParen ')' rfl rfl hw
  by_cases hargs' : args = []
  · subst hargs'
    have hspread : spread = false := by simpa using hspread
    subst hspread
    refine (Inks.list hopen hclose fun s hs => .pure hs).bind fun _ _ => hend ?_
    rintro t ⟨⟩
    exact Punct.absorbs_closed (by decide) ')'
  · have hready : Ready (some (.punct .lParen)) := .punct (.inl (by decide))
    obtain ⟨u, hends, hlist⟩ := @inks_list _ _ spread depth args hargs' hargs _ _ hopen hclose _ hready
    refine hlist.bind fun _ _ => hend ?_
    rintro t ⟨⟩
    rcases hends with hends | ⟨-, rfl⟩
    · exact hends.absorbs (by decide)
    · exact Punct.absorbs_closed (by decide) ')'

theorem Inked.slice {t : Tag} {e : Expr} {lo hi max : Option Expr} {u : Token} (h : Inked lines e u)
    (hlo : ∀ x ∈ lo, ∃ t, Inked lines x t) (hhi : ∀ x ∈ hi, ∃ t, Inked lines x t)
    (hmax : ∀ x ∈ max, ∃ t, Inked lines x t) : Inked lines (.slice t e lo hi max) (.punct .rBrack) := by
  refine ⟨.inr (.inr (.inl rfl)), by simp [tokens, List.getLast?_cons], fun depth edge hedge => ?_⟩
  have hready : Ready (some (.punct .lBrack)) := .punct (.inl (by decide))
  have hopen : ∀ t ∈ some (Token.punct .lBrack), Bounds t := by
    rintro t ⟨⟩
    exact .inr (.inl rfl)
  obtain ⟨hafter, hinks⟩ := inks_option hlo hready hopen (depth + 1)
  let os : List (Option Expr) := if max.isSome then [hi, max] else [hi]
  have hos : ∀ o ∈ os, ∀ x ∈ o, ∃ t, Inked lines x t := by
    cases max with
    | none => exact List.forall_mem_singleton.2 hhi
    | some m => exact List.forall_mem_cons.2 ⟨hhi, List.forall_mem_singleton.2 hmax⟩
  have htokens : (Expr.slice t e lo hi max).tokens = e.tokens ++ ([Token.punct .lBrack] ++
      (tokensOption lo ++ (os.flatMap (fun o => .punct .colon :: tokensOption o) ++
        [Token.punct .rBrack]))) := by
    cases max <;> simp [tokens, os]
  have hdraw : (if max.isSome then [Draw.exprOption none (depth + 1) hi,
      Draw.exprOption none (depth + 1) max] else [Draw.exprOption none (depth + 1) hi]) =
      os.map (Draw.exprOption none (depth + 1)) := by
    cases max <;> simp [os]
  obtain ⟨hends, hbounds⟩ := inks_bounds hos hafter (depth + 1)
    (Draw.boundsNeedBlanks depth [lo, hi, max]) lo.isSome
  rw [Draw.expr, htokens]
  refine .marked rfl ((h.inks _ edge hedge).bind fun _ _ => ?_)
  refine (Inks.punctAfter .lBrack '[' rfl rfl (by decide) h.closes).bind fun _ _ => ?_
  refine hinks.bind fun _ _ => ?_
  rw [hdraw]
  exact hbounds.bind fun _ _ => .punct .rBrack ']' rfl rfl fun t ht => (hends t ht).absorbs (.inr rfl)

theorem Shaped.inked {e : Expr} (h : e.Shaped) (hflat : e.isFlat lines line = true) :
    ∃ t, Inked lines e t := by
  induction h with
  | ident hn => exact ⟨_, .ident hn⟩
  | paren _ ih =>
    obtain ⟨_, ih⟩ := ih hflat
    exact ih.paren
  | selector _ _ hsel ih =>
    obtain ⟨_, ih⟩ := ih hflat
    exact ⟨_, ih.selector hsel⟩
  | index _ _ _ ihe ihi =>
    obtain ⟨he, hi⟩ := Bool.and_eq_true_iff.1 hflat
    obtain ⟨_, ihe⟩ := ihe he
    obtain ⟨_, ihi⟩ := ihi hi
    exact ⟨_, ihe.index ihi⟩
  | slice _ _ _ _ _ ihe ihlo ihhi ihmax =>
    simp only [isFlat, Bool.and_eq_true] at hflat
    obtain ⟨⟨⟨he, hlo⟩, hhi⟩, hmax⟩ := hflat
    obtain ⟨_, ihe⟩ := ihe he
    exact ⟨_, ihe.slice (fun x hx => ihlo x hx (isFlat_of_option hlo hx))
      (fun x hx => ihhi x hx (isFlat_of_option hhi hx)) fun x hx => ihmax x hx (isFlat_of_option hmax hx)⟩
  | call _ _ _ hspread ihe ihargs =>
    simp only [isFlat, Bool.and_eq_true] at hflat
    obtain ⟨⟨⟨hopen, hclose⟩, he⟩, hargs⟩ := hflat
    obtain ⟨_, ihe⟩ := ihe he
    refine ⟨_, ihe.call (fun x hx => ?_) hspread hopen hclose⟩
    obtain ⟨⟨hstart, hstop⟩, hx'⟩ := areFlat_iff.1 hargs x hx
    obtain ⟨u, hu⟩ := ihargs x hx hx'
    exact ⟨u, hu, hstart, hstop⟩
  | unary _ _ ih =>
    obtain ⟨_, ih⟩ := ih hflat
    exact ⟨_, ih.unary⟩
  | binary _ _ _ _ ihl ihr =>
    simp only [isFlat, Bool.and_eq_true] at hflat
    obtain ⟨⟨⟨hstop, hstart⟩, hl⟩, hr⟩ := hflat
    obtain ⟨_, ihl⟩ := ihl hl
    obtain ⟨_, ihr⟩ := ihr hr
    exact ⟨_, ihl.binary ihr hstop hstart⟩

end Expr

end FuncLift
