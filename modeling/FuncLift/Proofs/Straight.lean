import FuncLift.Proofs.Channels
import FuncLift.Proofs.Echoed

/-!
# Drawing straight functions

A function is straight if its body goes over several lines and each statement in it is plain and stood
on one line. It is drawn as its tokens, and so is a file of straight functions and bare declarations:
the line breaks stand for the semicolons behind the statements and the declarations.
-/
namespace FuncLift

theorem LineTable.holds_unknown (t : LineTable) (line : Nat) : t.holds line Span.unknown = true := by
  simp [holds]

/-- A plain statement on one line, and its tokens. -/
inductive Stmt.Formed (lines : LineTable) : Stmt → List Token → Prop
  | expr {t u : Tag} {e : Expr} {line : Nat} (he : e.Shaped) (hflat : e.isFlat lines line = true) :
      Formed lines (.simple t (.expr u e)) e.tokens
  | define {t u : Tag} {ns : List Name} {vs : List Expr} {line : Nat} (hns : ns ≠ [])
      (hnames : ∀ n ∈ ns.map Name.text, Token.IsName n) (hvs : vs ≠ []) (hshaped : ∀ v ∈ vs, v.Shaped)
      (hflat : Expr.areFlat lines line vs = true)
      (hopen : lines.holds line ((ns.getLast?.map fun n => n.tag.span.stop).getD Span.unknown) = true) :
      Formed lines (.simple t (.define u ns vs))
        (nameTokens (ns.map Name.text) ++ .punct .define :: Expr.tokensList vs)
  | ret {t : Tag} {es : List Expr} {line : Nat} (hshaped : ∀ e ∈ es, e.Shaped)
      (hflat : Expr.areFlat lines line es = true) (hopen : lines.holds line t.span.start = true) :
      Formed lines (.ret t es) (.keyword .returnKw :: Expr.tokensList es)

/-- A function without a receiver whose body has such statements on lines of their own, and its
tokens. -/
inductive FuncDecl.Formed (lines : LineTable) : FuncDecl → List Token → Prop
  | mk {t u : Tag} {n : Name} {sig : Signature} {ss : List Stmt} {rows : List (List Token)}
      (hn : Token.IsName n.text) (hsig : (TypeExpr.func default sig).Shaped)
      (hbare : (TypeExpr.func default sig).isBare = true)
      (hflat : (TypeExpr.func default sig).isFlat lines = true)
      (hbody : Draw.fitsOneLine (.fresh lines [] 0) t.span u.span ss = false)
      (hss : List.Forall₂ (Stmt.Formed lines) ss rows) :
      Formed lines ⟨t, none, n, sig, some ⟨u, ss⟩⟩ (.keyword .funcKw :: .ident n.text ::
        ((TypeExpr.func default sig).tokens.tail ++ Token.block false rows))

/-- A bare declaration or such a function, and its tokens. -/
inductive TopDecl.Straight (lines : LineTable) : TopDecl → List Token → Prop
  | bare {d : TopDecl} {ts : List Token} (hd : d.IsBare lines) (h : d.Formed ts) : Straight lines d ts
  | func {f : FuncDecl} {ts : List Token} (h : f.Formed lines ts) : Straight lines (.func f) ts

section

variable {lines : LineTable} {line : Nat}

namespace Expr

/-- Values on one line. -/
theorem inks_values {es : List Expr} (hne : es ≠ []) (hes : ∀ x ∈ es, x.Shaped)
    (hflat : areFlat lines line es = true) {opening : Nat} (hopen : lines.holds line opening = true)
    (depth : Nat) : ∃ u, u.Closes ∧ Inks lines none
      (Draw.list opening (Draw.exprItems depth es) .unset "") (tokensList es) (some u) fun _ => True := by
  have hinked : ∀ x ∈ es, ∃ t, InkedOn lines line x t := by
    intro x hx
    obtain ⟨⟨hstart, hstop⟩, hx'⟩ := areFlat_iff.1 hflat x hx
    obtain ⟨t, ht⟩ := (hes x hx).inked hx'
    exact ⟨t, ht, hstart, hstop⟩
  have hclose : lines.holds line Span.unset.start = true := lines.holds_unknown line
  obtain ⟨u, hu, hlist⟩ := @inks_list _ _ false depth es hne hinked _ _ hopen hclose _ .blank
  have hcloses : u.Closes := by simpa using hu
  rw [if_neg Bool.false_ne_true, if_neg Bool.false_ne_true, List.append_nil] at hlist
  exact ⟨u, hcloses, hlist⟩

end Expr

theorem Writes.itemBreak (t : Token) (span : Span) {least : Nat} (hpos : 1 ≤ least) (hle : least ≤ 2) :
    Writes lines (some t) (Draw.itemBreak span least) (lineEndTokens t.endsStatement) none := by
  intro p hp
  have hgap := (p.gap_le span hle).1
  rw [Draw.itemBreak_eq hp.comments hp.started]
  exact newlines t (Nat.le_trans hpos hgap) p hp

namespace Inks

variable {e e' : Option Token} {ts : List Token} {m : Draw Unit}

theorem markedStmt {form : Form} {t : Tag} (h : Inks lines e m ts e' fun _ => True) :
    Inks lines e (Draw.stmt.markedStmt form t m) ts e' fun _ => True := by
  apply Inks.offset
  intro start
  exact h.then_ fun _ _ => markNode form t start

/-- What is drawn as characters that do not depend on the lines. -/
theorem of_inscribes {cs : List Char} (h : Inscribes lines m cs fun _ => True) (hcs : Carries e cs ts e')
    (he : e.bind Token.sign? = none) (he' : e'.bind Token.sign? = none) :
    Inks lines e m ts e' fun _ => True := by
  intro p hp hop
  obtain ⟨hwrote, -⟩ := h p hp.comments hp.lines
  refine ⟨(), (m p).2, cs, rfl, ⟨hwrote.lines.trans hp.lines, hwrote.comments.trans hp.comments,
    hwrote.atStart.trans hp.started⟩, ?_, hwrote.text, trivial, hcs⟩
  rw [he', hwrote.lastOp (hop.trans he)]

theorem separate (t : Token) (span : Span) : Inks lines (some t) (Draw.separate span 1)
    (lineEndTokens t.endsStatement) none fun _ => True := by
  apply Inks.get
  intro p hp hop
  rw [hp.started, if_neg Bool.false_ne_true]
  have hgap := (p.gap_le span (Nat.le_succ 1)).1
  exact (Writes.newlines t hgap).drawn rfl

theorem beforeItem (span : Span) (least : Nat) :
    Inks lines e (Draw.beforeItem span least) [] e (· = least) := by
  intro p hp hop
  exact ⟨least, p, [], Draw.beforeItem_eq hp.comments span least, hp, hop, by simp, rfl, fun _ _ h => h⟩

end Inks

/-! ## Statements and bodies -/

theorem Stmt.Formed.inks {s : Stmt} {ts : List Token} (h : Formed lines s ts) :
    InkedItem lines ⟨s.span, false, Draw.stmt s⟩ ts := by
  have hready : ∀ c, Lexeme.startsWord c = true → ∀ t ∈ (none : Option Token), t.absorbs c = false := by
    rintro c - _ ⟨⟩
  cases h with
  | @expr t u e line he hflat =>
    obtain ⟨v, hv⟩ := he.inked hflat
    refine ⟨v, hv.closes.endsStatement, ?_⟩
    rw [Draw.stmt, Draw.simple]
    apply Inks.markedStmt
    apply Inks.offset
    intro start
    exact (hv.inks 1 none .blank).then_ fun _ _ => .markNode .exprSimple u start
  | @define t u ns vs line hns hnames hvs hshaped hflat hopen =>
    obtain ⟨n, hlead⟩ := @Inks.names lines _ _ hns hnames hready
    have hsign : Inks lines (some (.ident n)) (Draw.text " := ") [.punct .define] none fun _ => True := by
      have hdefine : Carries none [':', '='] [.punct .define] (some (.punct .define)) :=
        .punct .define ':' rfl (Carries.absorbs_none ':')
      exact (Writes.text (Carries.blank.append (hdefine.append .blank)) rfl).drawn rfl
    obtain ⟨v, hv, hvalues⟩ := Expr.inks_values hvs hshaped hflat hopen
      (if ns.length > 1 && vs.length > 1 then 2 else 1)
    refine ⟨v, hv.endsStatement, ?_⟩
    rw [Draw.stmt, Draw.simple]
    apply Inks.markedStmt
    apply Inks.offset
    intro start
    apply hlead.bind
    intro _ _
    have hvalues := hvalues.then_ fun _ _ => Inks.markNode .defineSimple u start
    exact hsign.bind fun _ _ => hvalues
  | @ret t es line hshaped hflat hopen =>
    have hkeyword : Inks lines none (Draw.text "return") [.keyword .returnKw] (some (.keyword .returnKw))
        fun _ => True := (Writes.text (.keyword .returnKw hready) rfl).drawn rfl
    by_cases hes : es = []
    · subst hes
      refine ⟨.keyword .returnKw, rfl, ?_⟩
      rw [Draw.stmt]
      apply Inks.markedStmt
      exact hkeyword.then_ fun _ _ => .pure trivial
    · obtain ⟨v, hv, hvalues⟩ := Expr.inks_values hes hshaped hflat hopen 1
      have hempty : es.isEmpty = false := by simpa using hes
      refine ⟨v, hv.endsStatement, ?_⟩
      rw [Draw.stmt]
      apply Inks.markedStmt
      rw [hempty, if_neg Bool.false_ne_true]
      have hrest := (@Inks.blank lines (some (.keyword .returnKw))).step fun _ _ => hvalues
      exact hkeyword.bind fun _ _ => hrest

/-- Each statement is drawn on a line of its own, and the brace behind the last one too. -/
theorem inks_stmtLines {ss : List Stmt} {rows : List (List Token)}
    (h : List.Forall₂ (Stmt.Formed lines) ss rows) (span : Span) (t : Token) :
    Inks lines (some t) (do
      Draw.stmtLines (Draw.stmtItems ss)
      Draw.close span "\x7d" true) (lineEndTokens t.endsStatement ++ (Token.body false rows ++
        [.punct .rBrace])) (some (.punct .rBrace)) fun _ => True := by
  induction h generalizing t with
  | nil =>
    have hclose : Inks lines none (Draw.text "\x7d") [.punct .rBrace] (some (.punct .rBrace))
        fun _ => True := .punct .rBrace '\x7d' rfl rfl (by rintro _ ⟨⟩)
    rw [Draw.stmtItems, Draw.stmtLines, pure_bind, Draw.close]
    apply (Inks.flush _ 1).step
    intro _ _
    rw [if_pos rfl]
    apply Inks.indentLess.step
    intro _ _
    exact (Inks.separate t _).bind fun _ _ => hclose
  | @cons s ts ss rows hs _ ih =>
    obtain ⟨u, hends, hdraw⟩ := hs.inks
    have hrest := ih u
    rw [hends] at hrest
    have htokens : Token.body false (ts :: rows) ++ [.punct .rBrace] =
        ts ++ (lineEndTokens true ++ (Token.body false rows ++ [.punct .rBrace])) := by
      rw [Token.body_line, List.append_assoc]
      rfl
    have hlabel : Draw.isLabeled s = false := by cases hs <;> rfl
    have hindent (k : Nat) : Inks lines none (modify fun p : Pen => { p with indent := k }) [] none
        fun _ => True := .quiet fun _ => ⟨rfl, rfl, rfl, rfl, rfl⟩
    rw [htokens, Draw.stmtItems, Draw.stmtLines, hlabel]
    simp only [Bool.false_eq_true, if_false, bind_assoc]
    apply (Inks.beforeItem s.span 1).step
    rintro _ rfl
    apply Inks.get
    intro p _ _
    apply (Inks.separate t s.span).bind
    intro _ _
    apply (hindent p.indent).step
    intro _ _
    apply hdraw.bind
    intro _ _
    exact (Inks.setLastEnd _).step fun _ _ => hrest

theorem Pen.Quiet.fitsOneLine {p : Pen} (h : p.Quiet lines) (outer body : Span) (ss : List Stmt) :
    Draw.fitsOneLine p outer body ss = Draw.fitsOneLine (.fresh lines [] 0) outer body ss := by
  have hsame (a b : Nat) : p.sameLine a b = (Pen.fresh lines [] 0).sameLine a b := by
    rw [Pen.sameLine, Pen.lineAt?, Pen.lineAt?, h.lines]
    rfl
  have hwithin : p.hasCommentWithin body = (Pen.fresh lines [] 0).hasCommentWithin body := by
    rw [Pen.hasCommentWithin, h.comments]
    rfl
  rw [Draw.fitsOneLine, Draw.fitsOneLine, hsame, hwithin]

/-- A body on several lines, behind what ends a signature. -/
theorem inks_body {ss : List Stmt} {rows : List (List Token)}
    (h : List.Forall₂ (Stmt.Formed lines) ss rows) {outer : Span} {t : Tag}
    (hbody : Draw.fitsOneLine (.fresh lines [] 0) outer t.span ss = false) (e : Option Token) :
    Inks lines e (Draw.body outer ⟨t, ss⟩) (Token.block false rows) (some (.punct .rBrace))
      fun _ => True := by
  have hopen : Inks lines none (Draw.text "\x7b") [.punct .lBrace] (some (.punct .lBrace)) fun _ => True :=
    .punct .lBrace '\x7b' rfl rfl (by rintro _ ⟨⟩)
  have hlines : Inks lines none (Draw.blockLines t (Draw.stmtItems ss)) (Token.block false rows)
      (some (.punct .rBrace)) fun _ => True := by
    have hrest := inks_stmtLines h t.span (.punct .lBrace)
    have htokens : Token.block false rows =
        [.punct .lBrace] ++ (Token.body false rows ++ [.punct .rBrace]) := rfl
    rw [htokens]
    apply Inks.offset
    intro start
    apply hopen.bind
    intro _ _
    apply (Inks.setLastEnd _).step
    intro _ _
    apply Inks.indentMore.step
    intro _ _
    have hall := hrest.then_ fun _ _ => Inks.markNode .block t start
    simp only [bind_assoc] at hall
    exact hall
  rw [Draw.body]
  apply Inks.blank.step
  intro _ _
  apply Inks.get
  intro p hp _
  rw [hp.fitsOneLine, hbody, if_neg Bool.false_ne_true]
  exact hlines

/-! ## Declarations -/

/-- The characters of the parameters and results of a function. -/
theorem TypeExpr.Shaped.signature {sig : Signature} (h : (TypeExpr.func default sig).Shaped)
    (hbare : (TypeExpr.func default sig).isBare = true)
    (hflat : (TypeExpr.func default sig).isFlat lines = true) (n : String) :
    ∃ u, u.Closes ∧ Inks lines (some (.ident n)) (Draw.signature sig)
      (TypeExpr.func default sig).tokens.tail (some u) fun _ => True := by
  obtain ⟨u, hwritten⟩ := h.written
  have hsig := hwritten.signature default sig rfl
  obtain ⟨_, q, cs, hdraw, _, _, htext, _, hcarries⟩ := hsig.inks (some (.ident n)) (by
    rintro t ⟨⟩
    exact (by decide : Lexeme.continuesWord '(' = false)) _ .fresh rfl
  obtain ⟨v, ps, rs⟩ := sig
  obtain ⟨hclose, hparams, hresults⟩ : lines.holds (lines.lineOf v.span.start)
      (Draw.closingByte v.span).start = true ∧ areFlat lines (lines.lineOf v.span.start) ps = true ∧
        areFlat lines (lines.lineOf v.span.start) rs = true := by
    simpa [isFlat, and_assoc] using hflat
  obtain ⟨-, hps, hrs⟩ : Field.isOpen rs = false ∧ areBare ps = true ∧ areBare rs = true := by
    simpa [isBare, and_assoc] using hbare
  -- the characters are those that are drawn without lines
  have hlines : Inscribes lines (Draw.signature ⟨v, ps, rs⟩)
      (signatureChars (fieldLetters ps) (fieldLetters rs) (Field.isLone rs)) fun _ => True :=
    .signature (row_letters ps _ hps hparams) (row_letters rs _ hrs hresults) (by simp [LineTable.holds])
      hclose
  have halone : Inscribes ⟨[]⟩ (Draw.signature ⟨v, ps, rs⟩)
      (signatureChars (fieldLetters ps) (fieldLetters rs) (Field.isLone rs)) fun _ => True :=
    .signature (row_letters ps 1 hps (areFlat_empty ps)) (row_letters rs 1 hrs (areFlat_empty rs))
      (LineTable.holds_empty _) (LineTable.holds_empty _)
  have hchars : signatureChars (fieldLetters ps) (fieldLetters rs) (Field.isLone rs) = cs := by
    have hwrote := (halone (.fresh ⟨[]⟩ [] 0) rfl rfl).1.text
    rw [hdraw, htext] at hwrote
    exact (List.append_cancel_left hwrote).symm
  rw [hchars] at hlines
  exact ⟨u, hsig.closes, .of_inscribes hlines hcarries rfl hsig.closes.sign⟩

theorem FuncDecl.Formed.inks {f : FuncDecl} {ts : List Token} (h : f.Formed lines ts) :
    Inks lines none (Draw.func f) ts (some (.punct .rBrace)) fun _ => True := by
  cases h with
  | @mk t u n sig ss rows hn hsig hbare hflat hbody hss =>
    obtain ⟨v, hv, hsignature⟩ := hsig.signature hbare hflat n.text
    have hkeyword : Inks lines none (Draw.text "func ") [.keyword .funcKw] none fun _ => True := by
      have hcarries : Carries none "func".toList [.keyword .funcKw] (some (.keyword .funcKw)) :=
        .keyword .funcKw fun c _ => Carries.absorbs_none c
      exact (Writes.text (hcarries.append .blank) rfl).drawn rfl
    have hname : Inks lines none (Draw.name .func n) [.ident n.text] (some (.ident n.text))
        fun _ => True := .name hn fun c _ => Carries.absorbs_none c
    rw [Draw.func]
    apply Inks.offset
    intro start
    apply hkeyword.bind
    intro _ _
    apply hname.bind
    intro _ _
    apply hsignature.bind
    intro _ _
    exact (inks_body hss hbody _).then_ fun _ _ => .markNode .func t start

theorem TopDecl.Straight.inks {d : TopDecl} {ts : List Token} (h : d.Straight lines ts) :
    InkedItem lines ⟨d.span, false, Draw.topDecl d⟩ ts := by
  cases h with
  | bare hd h =>
    obtain ⟨u, hu, hcarries⟩ := h.carries
    exact ⟨u, hu.endsStatement, .of_inscribes hd.inscribes hcarries rfl hu.sign⟩
  | func h => exact ⟨.punct .rBrace, rfl, h.inks⟩

/-- Behind a token that ends its line declarations are drawn on lines of their own. -/
theorem inks_topDecls {ds : List TopDecl} {rows : List (List Token)}
    (h : List.Forall₂ (TopDecl.Straight lines) ds rows) (last : Option (Option DeclKind)) {t : Token}
    (ht : t.endsStatement = true) : ∃ us u, u.endsStatement = true ∧
      us ++ [.punct .semi] = .punct .semi :: Token.body false rows ∧
      Inks lines (some t) (Draw.topDecls last ds) us (some u) fun _ => True := by
  induction h generalizing last t with
  | nil => exact ⟨[], t, ht, rfl, .pure trivial⟩
  | @cons d ts ds rows hd _ ih =>
    obtain ⟨v, hv, hdraw⟩ := hd.inks
    obtain ⟨us, u, hu, htokens, hrest⟩ := ih (some (Draw.declKind? d)) hv
    refine ⟨.punct .semi :: (ts ++ us), u, hu, ?_, ?_⟩
    · rw [List.cons_append, List.append_assoc, htokens, Token.body_line]
    · rw [Draw.topDecls]
      apply Inks.get
      intro p hp hop
      have hbreak (c : Bool) : Inks lines (some t) (Draw.itemBreak d.span (if c then 2 else 1))
          (lineEndTokens t.endsStatement) none fun _ => True := by
        refine (Writes.itemBreak t d.span ?_ ?_).drawn rfl
        · cases c <;> decide
        · cases c <;> decide
      rw [ht] at hbreak
      apply (hbreak _).bind
      intro _ _
      apply hdraw.bind
      intro _ _
      exact (Inks.setLastEnd _).step fun _ _ => hrest

end

/-- A file of straight functions and bare declarations is laid out as its tokens. -/
theorem Document.laid_print {d : Document} (hcomments : d.file.comments = [])
    (hname : Token.IsName d.file.name.text) {rows : List (List Token)}
    (h : List.Forall₂ (TopDecl.Straight d.lines) d.file.decls rows) : Laid false d.print.toList
      (.keyword .packageKw :: .ident d.file.name.text :: .punct .semi :: Token.body false rows) := by
  obtain ⟨q, hq, hqlines, hqop, hclause, htext⟩ := Draw.sourceFile_level d.lines d.file
  obtain ⟨us, u, hu, htokens, hdecls⟩ := inks_topDecls h none (t := .ident d.file.name.text) rfl
  obtain ⟨_, r, cs, hdraw, hr, _, hrtext, _, hcarries⟩ := hdecls q ⟨hqlines, hq.comments, hq.atStart⟩ hqop
  rw [hdraw] at htext
  have hprint : d.print.toList = d.file.clause ++ (cs ++ ['\n']) := by
    rw [print, drawing, Drawing.toList_text_run, hcomments, htext hr.comments, hrtext, hclause,
      List.append_assoc]
  have hend : Carries (some u) ['\n'] (lineEndTokens u.endsStatement) none :=
    .breaks u (Nat.le_refl 1) 0
  rw [hu] at hend
  have hall := (SourceFile.carries_clause hname).append (Carries.append hcarries hend)
  have hlaid := hall.laid
  rw [← hprint] at hlaid
  change Laid false _ ([.keyword .packageKw, .ident d.file.name.text] ++ (us ++ [.punct .semi])) at hlaid
  rwa [htokens] at hlaid

end FuncLift
