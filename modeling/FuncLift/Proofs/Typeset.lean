import FuncLift.Proofs.Retold

/-!
# Drawing types and their fields

A type that is drawn by itself is laid out as its tokens, and so are its fields: the names, the dots and
the label of each, the parameters between parentheses, and the fields of a struct either on one line or
each on its own. A line break stands for the semicolon behind a field.
-/
namespace FuncLift

/-- Behind an edge the characters read as the tokens, and others from then on stand behind another
edge. -/
def Carries (edge : Option Token) (cs : List Char) (ts : List Token) (edge' : Option Token) : Prop :=
  ∀ rest us, Fits edge' rest us → Fits edge (cs ++ rest) (ts ++ us)

theorem Laid.emptyLines {cs : List Char} {ts : List Token} (h : Laid false cs ts) (n : Nat) :
    Laid false (List.replicate n '\n' ++ cs) ts := by
  induction n with
  | zero => exact h
  | succ n ih =>
    have hline : Laid false ('\n' :: (List.replicate n '\n' ++ cs)) (lineEndTokens false ++ ts) := .line ih
    exact hline

namespace Carries

variable {e e' e'' : Option Token} {cs ds : List Char} {ts us : List Token}

theorem append (h : Carries e cs ts e') (h' : Carries e' ds us e'') :
    Carries e (cs ++ ds) (ts ++ us) e'' := by
  intro rest vs hfits
  rw [List.append_assoc, List.append_assoc]
  exact h _ _ (h' _ _ hfits)

theorem punct (p : Punct) (c : Char) (hc : p.spelling.toList.head? = some c)
    (hedge : ∀ t ∈ e, t.absorbs c = false) :
    Carries e p.spelling.toList [.punct p] (some (.punct p)) :=
  fun _ _ h => Fits.cons (t := .punct p) trivial hc hedge h

theorem keyword (k : Keyword)
    (hedge : ∀ c, Lexeme.startsWord c = true → ∀ t ∈ e, t.absorbs c = false) :
    Carries e k.spelling.toList [.keyword k] (some (.keyword k)) := by
  obtain ⟨_, c, hhead, hc, _⟩ := Keyword.isWord k k.mem_all
  exact fun _ _ h => Fits.cons (t := .keyword k) trivial hhead (hedge c hc) h

theorem word {n : String} (hn : Token.IsName n)
    (hedge : ∀ c, Lexeme.startsWord c = true → ∀ t ∈ e, t.absorbs c = false) :
    Carries e n.toList [.ident n] (some (.ident n)) := by
  obtain ⟨c, w, hs, hc, _⟩ := hn.1
  exact fun _ _ h => Fits.cons (t := .ident n) hn (by simp [Token.spelling, hs]) (hedge c hc) h

theorem blank : Carries e [' '] [] none := fun _ _ h => h.blank

theorem tabs (k : Nat) : Carries none (List.replicate k '\t') [] none := by
  induction k with
  | zero => exact fun _ _ h => h
  | succ k ih =>
    intro rest us h
    have hlaid := (ih rest us h).laid
    refine ⟨fun ends hends => .blank (by decide) (hlaid ends hends), ?_⟩
    rintro _ ⟨⟩

/-- Of the line breaks behind a token the first one ends its line. -/
theorem breaks (t : Token) {n : Nat} (hn : 1 ≤ n) (k : Nat) :
    Carries (some t) (List.replicate n '\n' ++ List.replicate k '\t')
      (lineEndTokens t.endsStatement) none := by
  obtain ⟨n, rfl⟩ := Nat.exists_eq_add_of_le' hn
  intro rest us h
  have hlaid := (tabs k rest us h).laid false (by rintro _ ⟨⟩)
  rw [List.replicate_succ, List.cons_append, List.cons_append, List.append_assoc]
  constructor
  · intro ends hends
    rw [← hends t rfl]
    exact .line (hlaid.emptyLines n)
  · rintro _ ⟨⟩ c ⟨⟩
    exact t.absorbs_newline

end Carries

/-- Drawing writes the tokens behind an edge, whatever the pen remembers, and the pen remembers
nothing in the end. The star of a pointer is no operator to the pen. -/
def Writes (lines : LineTable) (edge : Option Token) (m : Draw Unit) (ts : List Token)
    (edge' : Option Token) : Prop :=
  ∀ p : Pen, p.Quiet lines → ∃ q cs, m p = ((), q) ∧ q.Quiet lines ∧ q.lastOp = none ∧
    q.text = p.text ++ cs ∧ Carries edge cs ts edge'

namespace Writes

variable {lines : LineTable} {e e' e'' : Option Token} {ts us : List Token} {m : Draw Unit}
  {f : Unit → Draw Unit}

theorem bind (h : Writes lines e m ts e') (k : Writes lines e' (f ()) us e'') :
    Writes lines e (m >>= f) (ts ++ us) e'' := by
  intro p hp
  obtain ⟨q, cs, hm, hq, _, hqtext, hcs⟩ := h p hp
  obtain ⟨r, ds, hf, hr, hrop, hrtext, hds⟩ := k q hq
  refine ⟨r, cs ++ ds, ?_, hr, hrop, ?_, hcs.append hds⟩
  · change f (m p).1 (m p).2 = ((), r)
    rw [hm, hf]
  · rw [hrtext, hqtext, List.append_assoc]

theorem inks (h : Writes lines e m ts e') (he' : e'.bind Token.sign? = none)
    (k : Inks lines e' (f ()) us e'' fun _ => True) (he'' : e''.bind Token.sign? = none) :
    Writes lines e (m >>= f) (ts ++ us) e'' := by
  intro p hp
  obtain ⟨q, cs, hm, hq, hqop, hqtext, hcs⟩ := h p hp
  obtain ⟨_, r, ds, hf, hr, hrop, hrtext, _, hds⟩ := k q hq (hqop.trans he'.symm)
  refine ⟨r, cs ++ ds, ?_, hr, hrop.trans he'', ?_, hcs.append hds⟩
  · change f (m p).1 (m p).2 = ((), r)
    rw [hm, hf]
  · rw [hrtext, hqtext, List.append_assoc]

theorem drawn (h : Writes lines e m ts e') (he' : e'.bind Token.sign? = none) :
    Inks lines e m ts e' fun _ => True := by
  intro p hp _
  obtain ⟨q, cs, hm, hq, hqop, hqtext, hcs⟩ := h p hp
  exact ⟨(), q, cs, hm, hq, hqop.trans he'.symm, hqtext, trivial, hcs⟩

theorem get {f : Pen → Draw Unit} (k : ∀ p, p.Quiet lines → Writes lines e (f p) ts e') :
    Writes lines e (MonadState.get >>= f) ts e' := fun p hp => k p hp p hp

theorem text {s : String} {cs : List Char} (h : Carries e cs ts e') (hs : s.toList = cs) :
    Writes lines e (Draw.text s) ts e' := by
  intro p hp
  refine ⟨(Draw.text s p).2, cs, rfl, ⟨hp.lines, hp.comments, hp.started⟩, rfl, ?_, h⟩
  change (s :: p.pieces).reverse.flatMap String.toList = _
  simp [Pen.text, hs]

theorem punct {p : Punct} (c : Char) (hc : p.spelling.toList.head? = some c)
    (hedge : ∀ t ∈ e, t.absorbs c = false) :
    Writes lines e (Draw.text p.spelling) [.punct p] (some (.punct p)) :=
  text (Carries.punct p c hc hedge) rfl

theorem newlines (t : Token) {n : Nat} (hn : 1 ≤ n) :
    Writes lines (some t) (Draw.newlines n) (lineEndTokens t.endsStatement) none := by
  intro p hp
  have hquiet : (Draw.newlines n p).2.Quiet lines := ⟨hp.lines, hp.comments, hp.started⟩
  refine ⟨(Draw.newlines n p).2, List.replicate n '\n' ++ List.replicate p.indent '\t', rfl, hquiet, rfl,
    ?_, .breaks t hn _⟩
  change (String.ofList _ :: p.pieces).reverse.flatMap String.toList = _
  simp [Pen.text]

theorem markedType {t : Tag} (h : Writes lines e m ts e') :
    Writes lines e (Draw.typeExpr.markedType t m) ts e' := by
  intro p hp
  obtain ⟨q, cs, hm, hq, hqop, hqtext, hcs⟩ := h p hp
  have hquiet : (Draw.markNode .type t p.offset q).2.Quiet lines := ⟨hq.lines, hq.comments, hq.started⟩
  refine ⟨(Draw.markNode .type t p.offset q).2, cs, ?_, hquiet, hqop, hqtext, hcs⟩
  change Draw.markNode .type t p.offset (m p).2 = _
  rw [hm]
  rfl

end Writes

namespace TypeExpr

/-- What can stand in front of a type without a blank. -/
def Before (edge : Option Token) : Prop :=
  ∀ t ∈ edge, ∃ p, t = .punct p ∧ p ∈ [.star, .lBrack, .rBrack, .lParen, .ellipsis]

theorem Before.punct {p : Punct} (hp : p ∈ [.star, .lBrack, .rBrack, .lParen, .ellipsis]) :
    Before (some (.punct p)) := by
  rintro t ⟨⟩
  exact ⟨p, rfl, hp⟩

theorem Before.word {edge : Option Token} (h : Before edge) {c : Char}
    (hc : Lexeme.startsWord c = true) : ∀ t ∈ edge, t.absorbs c = false := by
  intro t ht
  obtain ⟨p, rfl, -⟩ := h t ht
  exact Punct.absorbs_word hc p

theorem Before.sign {edge : Option Token} (h : Before edge) {c : Char} (hc : c ∈ ['*', '[', '<', '.']) :
    ∀ t ∈ edge, t.absorbs c = false := by
  have hstar : Punct.star.absorbs c = false := by
    simp only [List.mem_cons, List.not_mem_nil, or_false] at hc
    rcases hc with rfl | rfl | rfl | rfl <;> decide
  have hclosed : ∀ p ∈ [Punct.lBrack, .rBrack, .lParen, .ellipsis],
      p ∈ [Punct.lParen, .rParen, .lBrack, .rBrack, .lBrace, .rBrace, .comma, .ellipsis] := by decide
  intro t ht
  obtain ⟨p, rfl, hp⟩ := h t ht
  rcases List.mem_cons.1 hp with rfl | hp
  · exact hstar
  · exact Punct.absorbs_closed (hclosed p hp) c

/-- Drawing the type writes its tokens, the last of which ends a type. -/
structure Inked (t : TypeExpr) (u : Token) : Prop where
  closes : u.Closes
  last : t.tokens.getLast? = some u
  writes : ∀ edge, Before edge → Writes ⟨[]⟩ edge (Draw.typeExpr t) t.tokens (some u)

end TypeExpr

/-! ## Fields -/

/-- What stands in front of a field: a blank or the parenthesis that opens the list. -/
def Opened (edge : Option Token) : Prop := ∀ t ∈ edge, t = .punct .lParen

namespace Opened

variable {edge : Option Token}

theorem blank : Opened none := by rintro _ ⟨⟩

theorem paren : Opened (some (.punct .lParen)) := by
  rintro _ ⟨⟩
  rfl

theorem before (h : Opened edge) : TypeExpr.Before edge := by
  intro t ht
  exact ⟨.lParen, h t ht, by decide⟩

theorem word (h : Opened edge) (c : Char) (hc : Lexeme.startsWord c = true) :
    ∀ t ∈ edge, t.absorbs c = false := h.before.word hc

end Opened

namespace Inks

variable {lines : LineTable} {e : Option Token}

theorem name {role : NameRole} {n : Name} (hn : Token.IsName n.text)
    (hedge : ∀ c, Lexeme.startsWord c = true → ∀ u ∈ e, u.absorbs c = false) :
    Inks lines e (Draw.name role n) [.ident n.text] (some (.ident n.text)) fun _ => True := by
  apply Inks.offset
  intro s
  exact (word hn hedge).then_ fun _ _ => .quiet fun _ => ⟨rfl, rfl, rfl, rfl, rfl⟩

theorem names {ns : List Name} (hne : ns ≠ []) (hns : ∀ n ∈ ns.map Name.text, Token.IsName n)
    (hedge : ∀ c, Lexeme.startsWord c = true → ∀ u ∈ e, u.absorbs c = false) :
    ∃ n, Inks lines e (Draw.names ns) (nameTokens (ns.map Name.text)) (some (.ident n)) fun _ => True := by
  induction ns generalizing e with
  | nil => exact absurd rfl hne
  | cons n ns ih =>
    obtain ⟨hn, hns⟩ := List.forall_mem_cons.1 hns
    cases ns with
    | nil => exact ⟨n.text, name hn hedge⟩
    | cons m ms =>
      have hcomma : Writes lines (some (.ident n.text)) (Draw.text ", ") [.punct .comma] none := by
        refine .text ((Carries.punct .comma ',' rfl ?_).append .blank) (by decide)
        rintro t ⟨⟩
        exact (by decide : Lexeme.continuesWord ',' = false)
      obtain ⟨k, hrest⟩ := ih (e := none) (List.cons_ne_nil m ms) hns fun _ _ => by rintro _ ⟨⟩
      refine ⟨k, ?_⟩
      rw [Draw.names]
      · exact (name hn hedge).bind fun _ _ => (hcomma.drawn rfl).bind fun _ _ => hrest
      · rintro ⟨⟩

theorem emptyTail {c : Prop} [Decidable c] (he : e.bind Token.sign? = none) :
    Inks lines e (if c then Draw.text "" else Pure.pure ()) [] e fun _ => True := by
  split
  · exact empty he
  · exact pure trivial

theorem label {l : String} (hl : (Token.ofLabel l).Legible) :
    Inks lines none (Draw.text l) [.ofLabel l] (some (.ofLabel l)) fun _ => True := by
  have hsign : (Token.ofLabel l).sign? = none := by
    unfold Token.ofLabel
    split <;> rfl
  have hhead : ∃ c, (Token.ofLabel l).spelling.head? = some c := by
    unfold Token.ofLabel at hl ⊢
    split at hl
    · obtain ⟨c, w, hs, -⟩ := hl
      rw [if_pos ‹_›, hs]
      exact ⟨c, rfl⟩
    · obtain ⟨c, w, hs, -⟩ := hl
      rw [if_neg ‹_›, hs]
      exact ⟨c, rfl⟩
  obtain ⟨c, hc⟩ := hhead
  exact token (Token.spelling_ofLabel l).symm hl hsign hc (by rintro _ ⟨⟩)

end Inks

namespace Field

/-- Drawing the field writes its tokens, the last of which ends a line. -/
structure Inked (f : Field) (u : Token) : Prop where
  ends : u.endsStatement = true
  closes : f.label = none → u.Closes
  last : f.row.getLast? = some u
  inks : ∀ edge, Opened edge → Inks ⟨[]⟩ edge (Draw.field f) f.row (some u) fun _ => True

end Field

theorem Token.Closes.endsStatement {t : Token} (h : t.Closes) : t.endsStatement = true := by
  rcases h with ⟨n, rfl⟩ | rfl | rfl | rfl <;> rfl

theorem Token.endsStatement_ofLabel (l : String) : (Token.ofLabel l).endsStatement = true := by
  unfold Token.ofLabel
  split <;> rfl

namespace TypeExpr

theorem inks_lead {ns : List Name} {variadic : Bool} {k : Draw Unit} {us : List Token}
    {edge edge' : Option Token} (hns : ∀ n ∈ ns.map Name.text, Token.IsName n) (hedge : Opened edge)
    (hk : ∀ e, Before e → Inks ⟨[]⟩ e k us edge' fun _ => True) :
    Inks ⟨[]⟩ edge (do
      Draw.names ns
      unless ns.isEmpty do Draw.text " "
      if variadic then Draw.text "..."
      k) (nameTokens (ns.map Name.text) ++ ((if variadic then [.punct .ellipsis] else []) ++ us)) edge'
      fun _ => True := by
  have hdots {e : Option Token} (he : Before e) :
      Inks ⟨[]⟩ e (do
        if variadic then Draw.text "..."
        k) ((if variadic then [.punct .ellipsis] else []) ++ us) edge' fun _ => True := by
    cases variadic with
    | false => exact hk e he
    | true =>
      have hopen : Inks ⟨[]⟩ e (Draw.text "...") [.punct .ellipsis] (some (.punct .ellipsis)) fun _ => True :=
        .punct .ellipsis '.' rfl rfl (he.sign (by decide))
      exact hopen.bind fun _ _ => hk _ (.punct (by decide))
  cases ns with
  | nil => exact hdots hedge.before
  | cons n ns =>
    obtain ⟨m, hnames⟩ := Inks.names (List.cons_ne_nil n ns) hns hedge.word
    exact hnames.bind fun _ _ => Inks.blank.step fun _ _ => hdots (by rintro _ ⟨⟩)

theorem Inked.field {f : Field} {u : Token} (h : Inked f.type u)
    (hnames : ∀ n ∈ f.names.map Name.text, Token.IsName n)
    (hlabel : ∀ l ∈ f.label, (Token.ofLabel l).Legible) : ∃ v, f.Inked v := by
  obtain ⟨t, ns, type, variadic, label⟩ := f
  have htype (e : Option Token) (he : Before e) := (h.writes e he).drawn h.closes.sign
  cases label with
  | none =>
    refine ⟨u, h.closes.endsStatement, fun _ => h.closes, ?_, fun edge hedge => ?_⟩
    · simp [Field.row, List.getLast?_append, h.last]
    · rw [Draw.field, Field.row]
      refine .offset fun start => inks_lead hnames hedge fun e he => ?_
      exact (htype e he).bind fun _ _ => .markNode .field t start
  | some l =>
    refine ⟨.ofLabel l, Token.endsStatement_ofLabel l, by simp, ?_, fun edge hedge => ?_⟩
    · simp [Field.row, List.getLast?_append]
    · rw [Draw.field, Field.row]
      refine .offset fun start => inks_lead hnames hedge fun e he => (htype e he).bind fun _ _ => ?_
      refine Inks.blank.step fun _ _ => (Inks.label (hlabel l rfl)).then_ fun _ _ => ?_
      exact .markNode .field t start

end TypeExpr

/-! ## Lists of parameters -/

section

variable {fs ps rs : List Field} {e : Option Token}

/-- The parameters behind one on the same line. -/
theorem inks_others (hfs : ∀ f ∈ fs, ∃ u, f.Inked u ∧ u.Closes) {t : Token} (ht : t.Closes) :
    ∃ u, u.Closes ∧ ∀ s, OnLine 1 s → Inks ⟨[]⟩ (some t) (Draw.listItems "" false s (Draw.fieldItems fs))
      (Field.others (fs.map Field.row)) (some u) (OnLine 1) := by
  induction fs generalizing t with
  | nil => exact ⟨t, ht, fun s hs => .pure hs⟩
  | cons f fs ih =>
    obtain ⟨⟨u, hf, hu⟩, hfs⟩ := List.forall_mem_cons.1 hfs
    obtain ⟨v, hv, hrest⟩ := ih hfs hu
    refine ⟨v, hv, fun s hs => ?_⟩
    have hlist := Inks.laterItem ht hs (Draw.Item.liesOn_empty ⟨f.tag.span, false, Draw.field f⟩)
      (hf.inks none .blank) (.emptyTail hu.sign) hrest
    rw [List.map_cons, Field.others, Field.listed_cons]
    · exact hlist
    · rintro ⟨⟩

theorem inks_params (hfs : ∀ f ∈ fs, ∃ u, f.Inked u ∧ u.Closes) (opening : Nat) (closing : Span)
    (hedge : ∀ t ∈ e, t.absorbs '(' = false) :
    Inks ⟨[]⟩ e (Draw.params opening (Draw.fieldItems fs) closing)
      (Token.parens (Token.listed (fs.map Field.row))) (some (.punct .rParen)) fun _ => True := by
  have hlist : ∃ u, u.absorbs ')' = false ∧ Inks ⟨[]⟩ (some (.punct .lParen))
      (Draw.list opening (Draw.fieldItems fs) closing "") (Token.listed (fs.map Field.row)) (some u)
      fun _ => True := by
    cases fs with
    | nil => exact ⟨.punct .lParen, Punct.absorbs_closed (by decide) ')',
        .list (LineTable.holds_empty _) (LineTable.holds_empty _) fun s hs => .pure hs⟩
    | cons f fs =>
      obtain ⟨⟨u, hf, hu⟩, hfs⟩ := List.forall_mem_cons.1 hfs
      obtain ⟨v, hv, hrest⟩ := inks_others hfs hu
      rw [List.map_cons, Field.listed_cons]
      refine ⟨v, hv.absorbs (by decide),
        .list (LineTable.holds_empty _) (LineTable.holds_empty _) fun s hs => ?_⟩
      exact .firstItem hs (Draw.Item.liesOn_empty ⟨f.tag.span, false, Draw.field f⟩) (hf.inks _ .paren)
        (.emptyTail hu.sign) hrest
  obtain ⟨u, hu, hlist⟩ := hlist
  refine (Inks.punct .lParen '(' rfl rfl hedge).bind fun _ _ => hlist.bind fun _ _ => ?_
  refine .punct .rParen ')' rfl rfl ?_
  rintro t ⟨⟩
  exact hu

end

namespace TypeExpr

/-- Drawing the parameters and results writes their tokens, the last of which ends a type. -/
structure InkedSignature (sig : Signature) (u : Token) : Prop where
  closes : u.Closes
  last : (tokens (.func default sig)).tail.getLast? = some u
  inks : ∀ edge, (∀ t ∈ edge, t.absorbs '(' = false) →
    Inks ⟨[]⟩ edge (Draw.signature sig) (tokens (.func default sig)).tail (some u) fun _ => True

theorem inked_signature {t : Tag} {ps rs : List Field} (hps : ∀ f ∈ ps, ∃ u, f.Inked u ∧ u.Closes)
    (hrs : ∀ f ∈ rs, ∃ u, f.Inked u ∧ u.Closes) : ∃ u, InkedSignature ⟨t, ps, rs⟩ u := by
  have htokens : (tokens (.func default ⟨t, ps, rs⟩)).tail =
      Token.parens (Token.listed (ps.map Field.row)) ++ if Field.isLone rs then
        Token.listed (rs.map Field.row) else if rs.isEmpty then [] else
          Token.parens (Token.listed (rs.map Field.row)) := by
    rw [tokens, List.tail_cons, Token.signature, fieldRows_eq, fieldRows_eq, List.isEmpty_map]
  have hparams (edge : Option Token) (hedge : ∀ t ∈ edge, t.absorbs '(' = false) (closing : Span) :=
    inks_params hps t.span.start closing hedge
  have hclose : (Token.punct .rParen).Closes := .inr (.inl rfl)
  have hlast (ts : List Token) : (ts ++ Token.parens (Token.listed (rs.map Field.row))).getLast? =
      some (.punct .rParen) := by
    simp [Token.parens, List.getLast?_append, List.getLast?_cons]
  by_cases hlone : Field.isLone rs = true
  · obtain ⟨f, rfl, hnames⟩ := Field.isLone_eq_true hlone
    obtain ⟨u, hf, hu⟩ := hrs f List.mem_cons_self
    rw [if_pos hlone, List.map_singleton, Token.listed] at htokens
    refine ⟨u, hu, ?_, fun edge hedge => ?_⟩
    · rw [htokens, List.getLast?_append, hf.last]
      rfl
    · obtain ⟨v, ns, type, variadic, label⟩ := f
      cases hnames
      rw [htokens, Draw.signature]
      refine .offset fun start => (hparams edge hedge _).bind fun _ _ => Inks.blank.step fun _ _ => ?_
      exact (hf.inks none .blank).then_ fun _ _ => .markNode .signature t start
  · rw [if_neg hlone] at htokens
    cases rs with
    | nil =>
      refine ⟨.punct .rParen, hclose, ?_, fun edge hedge => ?_⟩
      · rw [htokens]
        simp [Token.parens, List.getLast?_cons]
      · rw [htokens, Draw.signature]
        refine .offset fun start => (hparams edge hedge _).bind fun _ _ => ?_
        exact .markNode .signature t start
    | cons f fs =>
      refine ⟨.punct .rParen, hclose, ?_, fun edge hedge => ?_⟩
      · rw [htokens]
        exact hlast _
      · rw [htokens, Draw.signature]
        refine .offset fun start => (hparams edge hedge _).bind fun _ _ => ?_
        -- the arms are those for no result, for a lone one and for a list, and only the last is left
        split
        · contradiction
        · rename_i heq
          rw [heq] at hlone
          exact absurd rfl hlone
        · refine Inks.blank.step fun _ _ => (inks_params hrs _ _ (by rintro _ ⟨⟩)).then_ fun _ _ => ?_
          exact .markNode .signature t start

theorem InkedSignature.writes {sig : Signature} {u : Token} (h : InkedSignature sig u) {edge : Option Token}
    (hedge : Before edge) : Writes ⟨[]⟩ edge (do
      Draw.text "func"
      Draw.signature sig) (tokens (.func default sig)) (some u) := by
  have htokens : tokens (.func default sig) = [.keyword .funcKw] ++ (tokens (.func default sig)).tail := by
    cases sig
    rw [tokens]
    rfl
  have hkeyword : Writes ⟨[]⟩ edge (Draw.text "func") [.keyword .funcKw] (some (.keyword .funcKw)) :=
    .text (.keyword .funcKw fun c hc => hedge.word hc) rfl
  rw [htokens]
  refine hkeyword.inks rfl (h.inks _ ?_) h.closes.sign
  rintro t ⟨⟩
  exact (by decide : Lexeme.continuesWord '(' = false)

/-- The name and the signature of a method, or an embedded type. -/
theorem Inked.method {f : Field} {u : Token} (h : Inked f.type u) (hf : f.IsMethod)
    (hsig : ∀ t sig, f.type = .func t sig → InkedSignature sig u) :
    Inks ⟨[]⟩ none (Draw.method f) f.methodRow (some u) fun _ => True := by
  obtain ⟨t, ns, type, variadic, label⟩ := f
  rcases hf.method with hnames | ⟨n, v, sig, hnames, hn, htype⟩
  · cases hnames
    rw [Draw.method, Field.methodRow]
    · refine .offset fun start => ((h.writes none (by rintro _ ⟨⟩)).drawn h.closes.sign).then_ fun _ _ => ?_
      exact .markNode .field t start
    · rintro _ _ _ ⟨⟩
  · cases hnames
    cases htype
    have hname : Inks ⟨[]⟩ none (Draw.name .list n) [.ident n.text] (some (.ident n.text)) fun _ => True :=
      .name hn fun _ _ => by rintro _ ⟨⟩
    have hparams := (hsig v sig rfl).inks (some (.ident n.text)) (by
      rintro t ⟨⟩
      exact (by decide : Lexeme.continuesWord '(' = false))
    have htokens : Field.methodRow ⟨t, [n], .func v sig, variadic, label⟩ =
        [.ident n.text] ++ (tokens (.func default sig)).tail := by
      cases sig
      rw [Field.methodRow, tokens, tokens]
      rfl
    rw [Draw.method, htokens]
    refine .offset fun start => hname.bind fun _ _ => .offset fun typeStart => hparams.then_ fun _ _ => ?_
    exact (Inks.markNode .type v typeStart).step fun _ _ => .markNode .field t start

end TypeExpr

/-! ## Fields of structs and methods of interfaces -/

namespace Draw

variable {p : Pen}

theorem flush_eq (h : p.comments = []) (limit least : Nat) : flush limit least p = (false, p) := by
  change flushFrom limit least p.comments p = _
  rw [h]
  rfl

theorem beforeItem_eq (h : p.comments = []) (span : Span) (least : Nat) :
    beforeItem span least p = (least, p) := by
  have htrailing : flushTrailing p = ((), p) := by
    change flushTrailingFrom p.comments p = _
    rw [h]
    rfl
  rw [beforeItem]
  split
  · change (least, (flushTrailing p).2) = _
    rw [htrailing]
  · change (if (flush span.start least p).1 then 1 else least, (flush span.start least p).2) = _
    rw [flush_eq h]
    rfl

theorem itemBreak_eq (h : p.comments = []) (hstarted : p.atStart = false) (span : Span) (least : Nat) :
    itemBreak span least p = newlines (p.gap span least) p := by
  change separate span (beforeItem span least p).1 (beforeItem span least p).2 = _
  rw [beforeItem_eq h]
  change (if p.atStart then _ else _ : Draw Unit) p = _
  rw [hstarted]
  rfl

end Draw

namespace Pen.Quiet

variable {p : Pen}

theorem gap (h : p.Quiet ⟨[]⟩) (span : Span) : p.gap span 1 = 1 := by
  unfold Pen.gap
  split
  · rename_i above line habove hline
    obtain ⟨e, -, he⟩ := Option.bind_eq_some_iff.1 habove
    rw [h.lineAt (LineTable.holds_empty e) above he,
      h.lineAt (LineTable.holds_empty span.start) line hline]
    rfl
  · rfl

theorem groupBreak (h : p.Quiet ⟨[]⟩) (first : Bool) (span : Span) :
    Draw.groupBreak first span p = Draw.newlines 1 p := by
  cases first with
  | false =>
    change Draw.itemBreak span 1 p = _
    rw [Draw.itemBreak_eq h.comments h.started, h.gap]
  | true =>
    cases hunset : span.isUnset with
    | true =>
      unfold Draw.groupBreak
      simp only [hunset, Bool.not_true, Bool.false_eq_true, ↓reduceIte]
    | false =>
      have hflush := Draw.flush_eq h.comments span.start 1
      unfold Draw.groupBreak
      simp only [hunset, Bool.not_true, Bool.not_false, Bool.false_eq_true, ↓reduceIte]
      change (if (Draw.flush span.start 1 p).1 then _ else Draw.newlines 1 : Draw Unit)
        (Draw.flush span.start 1 p).2 = _
      rw [hflush]
      rfl

theorem fieldsFitOneLine (h : p.Quiet ⟨[]⟩) (span : Span) (fields : List Field) :
    Draw.fieldsFitOneLine p span fields = Field.onOneLine span fields := by
  have hlines (offset : Nat) : p.lineAt? offset = (Pen.fresh ⟨[]⟩ [] 0).lineAt? offset := by
    rw [Pen.lineAt?, h.lines]
    rfl
  have hsame (a b : Nat) : p.sameLine a b = (Pen.fresh ⟨[]⟩ [] 0).sameLine a b := by
    rw [Pen.sameLine, hlines, hlines]
    rfl
  have hwithin : p.hasCommentWithin span = (Pen.fresh ⟨[]⟩ [] 0).hasCommentWithin span := by
    rw [Pen.hasCommentWithin, h.comments]
    rfl
  simp only [Field.onOneLine, Draw.fieldsFitOneLine, hwithin, hsame]

end Pen.Quiet

/-- What is drawn for a field of a block, and the tokens of this field. -/
def InkedItem (lines : LineTable) (x : Draw.Item) (ts : List Token) : Prop :=
  ∃ u, u.endsStatement = true ∧ Inks lines none x.draw ts (some u) fun _ => True

theorem Writes.groupBreak (t : Token) (first : Bool) (span : Span) :
    Writes ⟨[]⟩ (some t) (Draw.groupBreak first span) (lineEndTokens t.endsStatement) none := by
  intro p hp
  rw [hp.groupBreak]
  exact newlines t (Nat.le_refl 1) p hp

namespace Inks

variable {lines : LineTable} {e : Option Token}

theorem flush (limit least : Nat) : Inks lines e (Draw.flush limit least) [] e fun _ => True := by
  intro p hp hop
  exact ⟨false, p, [], Draw.flush_eq hp.comments limit least, hp, hop, by simp, trivial, fun _ _ h => h⟩

theorem indentMore : Inks lines e Draw.indentMore [] e fun _ => True := quiet fun _ => ⟨rfl, rfl, rfl, rfl, rfl⟩

theorem indentLess : Inks lines e Draw.indentLess [] e fun _ => True := quiet fun _ => ⟨rfl, rfl, rfl, rfl, rfl⟩

end Inks

section

variable {items : List Draw.Item} {rows : List (List Token)} {edge : Option Token}

/-- Each field is drawn on a line of its own, and the brace behind the last one too. -/
theorem inks_groupLines (h : List.Forall₂ (InkedItem ⟨[]⟩) items rows) (first : Bool) (span : Span) (t : Token) :
    Inks ⟨[]⟩ (some t) (do
      Draw.groupLines first items
      Draw.closeGroup span "\x7d") (lineEndTokens t.endsStatement ++ (Token.body false rows ++
        [.punct .rBrace])) (some (.punct .rBrace)) fun _ => True := by
  induction h generalizing first t with
  | nil =>
    have hclose : Inks ⟨[]⟩ none (Draw.text "\x7d") [.punct .rBrace] (some (.punct .rBrace)) fun _ => True :=
      .punct .rBrace '\x7d' rfl rfl (by rintro _ ⟨⟩)
    rw [Draw.groupLines, pure_bind, Draw.closeGroup]
    refine (Inks.flush _ 1).step fun _ _ => Inks.indentLess.step fun _ _ => ?_
    exact ((Writes.newlines t (Nat.le_refl 1)).drawn rfl).bind fun _ _ => hclose
  | @cons x ts items rows hx _ ih =>
    -- the newline behind the field is read as the semicolon that the rows have there
    obtain ⟨u, hends, hdraw⟩ := hx
    have hrest := ih false u
    rw [hends] at hrest
    have htokens : Token.body false (ts :: rows) ++ [.punct .rBrace] =
        ts ++ (lineEndTokens true ++ (Token.body false rows ++ [.punct .rBrace])) := by
      rw [Token.body_line, List.append_assoc]
      rfl
    rw [htokens, Draw.groupLines]
    simp only [bind_assoc]
    refine ((Writes.groupBreak t first x.span).drawn rfl).bind fun _ _ => hdraw.bind fun _ _ => ?_
    exact (Inks.setLastEnd _).step fun _ _ => hrest

theorem writes_fieldBlock {keyword : String} {k : Keyword} {span : Span} {fields : List Field}
    (hkeyword : k.spelling = keyword) (h : List.Forall₂ (InkedItem ⟨[]⟩) items rows)
    (hlength : fields.length = items.length) (hedge : TypeExpr.Before edge) :
    Writes ⟨[]⟩ edge (Draw.typeExpr.fieldBlock keyword span fields items)
      (.keyword k :: Token.block (Field.onOneLine span fields) rows) (some (.punct .rBrace)) := by
  have hstart : Writes ⟨[]⟩ edge (Draw.text keyword) [.keyword k] (some (.keyword k)) :=
    .text (.keyword k fun c hc => hedge.word hc) (by rw [hkeyword])
  apply Writes.get
  intro p hp
  rw [hp.fieldsFitOneLine]
  refine hstart.inks rfl ?_ rfl
  have hword {c : Char} (hc : Lexeme.continuesWord c = false) :
      ∀ t ∈ some (Token.keyword k), t.absorbs c = false := by
    rintro t ⟨⟩
    exact hc
  have hbrace {e : Option Token} (he : ∀ t ∈ e, t.absorbs '\x7d' = false) :
      Carries e ['\x7d'] [.punct .rBrace] (some (.punct .rBrace)) := .punct .rBrace '\x7d' rfl he
  by_cases hone : Field.onOneLine span fields = true
  · -- then there is one field at most, and no semicolon is written between the braces
    have hle := TypeExpr.length_le_one hone
    rw [if_pos hone, hone]
    cases h with
    | nil =>
      have hboth : Carries (some (.keyword k)) (['\x7b'] ++ ['\x7d']) [.punct .lBrace, .punct .rBrace]
          (some (.punct .rBrace)) := by
        refine (Carries.punct .lBrace '\x7b' rfl (hword (by decide))).append (hbrace ?_)
        rintro t ⟨⟩
        exact Punct.absorbs_closed (by decide) '\x7d'
      exact (Writes.text hboth rfl).drawn rfl
    | @cons x ts items rows hx hrest =>
      obtain ⟨u, hends, hdraw⟩ := hx
      obtain rfl : items = [] := by
        rw [List.length_cons] at hlength
        exact List.eq_nil_of_length_eq_zero (by omega)
      cases hrest
      have hopen : Writes ⟨[]⟩ (some (.keyword k)) (Draw.text "\x7b ") [.punct .lBrace] none :=
        .text ((Carries.punct .lBrace '\x7b' rfl (hword (by decide))).append .blank) rfl
      have hclose : Writes ⟨[]⟩ (some u) (Draw.text " \x7d") [.punct .rBrace] (some (.punct .rBrace)) :=
        .text (Carries.blank.append (hbrace (by rintro _ ⟨⟩))) rfl
      have hbody : Token.body true [ts] = ts := by simp [Token.body]
      rw [hbody]
      exact (hopen.drawn rfl).bind fun _ _ => hdraw.bind fun _ _ => hclose.drawn rfl
  · rw [if_neg hone, Bool.eq_false_iff.2 hone]
    have hopen : Writes ⟨[]⟩ (some (.keyword k)) (Draw.text " \x7b") [.punct .lBrace] (some (.punct .lBrace)) :=
      .text (Carries.blank.append (.punct .lBrace '\x7b' rfl (by rintro _ ⟨⟩))) rfl
    refine (hopen.drawn rfl).bind fun _ _ => (Inks.setLastEnd _).step fun _ _ => Inks.indentMore.step fun _ _ => ?_
    exact inks_groupLines h true span _

end

end FuncLift
