import FuncLift.Proofs.Traces

/-!
# What drawing a tree marks

Drawing a tree marks nothing but entries of it, in the order of the text. It marks every entry of the
trees in which drawing reaches everything: a declaration without parentheses has one line, a member
of an interface is a method or a type, and a range has no second variable without a first.
-/
namespace FuncLift

namespace DrawsItems

variable {base : Nat} {ok : Prop} {items : List Draw.Item} {ps : List Piece}

theorem stmtLines (h : DrawsItems base ok items ps) :
    Draws base true ok (Draw.stmtLines items) ps := by
  induction h with
  | nil => exact .pure ()
  | @cons x xs ps qs hx _ ih =>
    have hindent (n : Nat) :
        Draws base true ok (modify fun p : Pen => { p with indent := n }) [] :=
      .quiet (fun _ => ⟨rfl, id⟩) (fun _ => ⟨rfl, rfl, rfl, rfl⟩) fun _ _ _ => rfl
    refine (Draws.beforeItem _ 1).pass fun least => .get (fun _ _ _ => rfl) fun p => ?_
    refine .perhaps .indentLess ((Draws.separate _ _).pass fun _ => ?_)
    exact (hindent p.indent).pass fun _ => hx.bind fun _ => (Draws.setLastEnd _).pass fun _ => ih

theorem joined (h : DrawsItems base ok items ps) (sep : String) :
    Draws base true ok (Draw.joined sep items) ps := by
  induction h with
  | nil => exact .pure ()
  | @cons x xs ps qs hx hxs ih =>
    cases hxs with
    | nil =>
      rw [List.append_nil]
      exact hx
    | cons hy hys => exact hx.bind fun _ => (Draws.text sep).pass fun _ => ih

theorem clauseLines (h : DrawsItems base ok items ps) :
    Draws base true ok (Draw.clauseLines items) ps := by
  induction h with
  | nil => exact .pure ()
  | cons hx _ ih =>
    exact (Draws.itemBreak _ 1).pass fun _ => hx.bind fun _ => (Draws.setLastEnd _).pass fun _ => ih

theorem groupLines (h : DrawsItems base ok items ps) (first : Bool) :
    Draws base true ok (Draw.groupLines first items) ps := by
  induction h generalizing first with
  | nil => exact .pure ()
  | cons hx _ ih =>
    exact (Draws.groupBreak _ _).pass fun _ => hx.bind fun _ => (Draws.setLastEnd _).pass
      fun _ => ih false

theorem clauseBody (h : DrawsItems base ok items ps) (span : Span) :
    Draws base true ok (Draw.clauseBody span items) ps :=
  (Draws.text _).pass fun _ => (Draws.setLastEnd _).pass fun _ => h.clauseLines.followed
    fun _ => .close _ _ _

theorem params (h : DrawsItems base ok items ps) (opening : Nat) (closing : Span) :
    Draws base true ok (Draw.params opening items closing) ps :=
  (Draws.text _).pass fun _ => (h.list _ _ _).followed fun _ => .text _

theorem imp {ok' : Prop} (h : DrawsItems base ok items ps) (hok : ok' → ok) :
    DrawsItems base ok' items ps := by
  induction h with
  | nil => exact .nil
  | cons hx _ ih => exact .cons (hx.imp hok) ih

end DrawsItems

namespace Draws

variable {base : Nat} {ok : Prop} {ps qs rs : List Piece}

/-- Whatever a node is made of, its content is drawn and then marked. -/
theorem blockLines {items : List Draw.Item} {b : Block}
    (h : DrawsItems base True items (b.stmts.map Stmt.piece)) :
    Draws base true ok (Draw.blockLines b.tag items) [b.piece] := by
  have hcontent : Draws base true True (do
      Draw.text "\x7b"
      Draw.setLastEnd (known? b.tag.span.start)
      Draw.indentMore
      Draw.stmtLines items
      Draw.close b.tag.span "\x7d" true) (b.stmts.map Stmt.piece) :=
    (text _).pass fun _ => (setLastEnd _).pass fun _ => indentMore.pass fun _ =>
      h.stmtLines.followed fun _ => close _ _ _
  exact marking (n := .block b) rfl (hcontent.imp fun _ => trivial)

theorem blockOnOneLine {items : List Draw.Item} {b : Block}
    (h : DrawsItems base True items (b.stmts.map Stmt.piece)) :
    Draws base true ok (Draw.blockOnOneLine b.tag items) [b.piece] := by
  have hcontent : Draws base true True (do
      Draw.text "\x7b"
      (if items.isEmpty then Pure.pure () else do
        Draw.text " "
        Draw.joined "; " items
        Draw.text " ")
      Draw.text "\x7d") (b.stmts.map Stmt.piece) := by
    refine (text _).pass fun _ => Draws.followed (ite (fun hempty => ?_) fun _ => ?_) fun _ => text _
    · cases items with
      | nil => exact h.joined ""
      | cons x xs => cases hempty
    · exact (text " ").pass fun _ => (h.joined _).followed fun _ => text " "
  have hmarked : Draws base true ok (do
      let start ← Draw.offset
      (do
        Draw.text "\x7b"
        (if items.isEmpty then Pure.pure () else do
          Draw.text " "
          Draw.joined "; " items
          Draw.text " ")
        Draw.text "\x7d")
      Draw.markNode .block b.tag start) [b.piece] :=
    marking (n := .block b) rfl (hcontent.imp fun _ => trivial)
  have hrun : Draw.blockOnOneLine b.tag items = (do
      (do
        let start ← Draw.offset
        (do
          Draw.text "\x7b"
          (if items.isEmpty then Pure.pure () else do
            Draw.text " "
            Draw.joined "; " items
            Draw.text " ")
          Draw.text "\x7d")
        Draw.markNode .block b.tag start)
      Draw.setLastEnd (known? b.tag.span.stop)) := by
    unfold Draw.blockOnOneLine
    cases items.isEmpty <;> rfl
  rw [hrun]
  exact hmarked.followed fun _ => setLastEnd _

/-- Parentheses around an expression. -/
def wrap (ts : List Tag) (e : Expr) : Expr := ts.foldr .paren e

theorem perm_wrap (ts : List Tag) (e : Expr) :
    (wrap ts e).entries.Perm (ts.map Tag.entry ++ e.entries) := by
  induction ts with
  | nil => exact .refl _
  | cons t ts ih =>
    have hwrap : wrap (t :: ts) e = .paren t (wrap ts e) := rfl
    rw [hwrap, Expr.entries_paren]
    exact ih.cons t.entry

theorem row_wrap {place : Tag → Span} {e : Expr} {lo hi : Nat} (ts : List Tag)
    (hts : ∀ t ∈ ts, place t = ⟨lo, hi⟩) (h : Row place (fun _ => True) lo [e.piece] hi) :
    Row place (fun _ => True) lo [(wrap ts e).piece] hi := by
  induction ts with
  | nil => exact h
  | cons t ts ih =>
    exact row_node (n := .expr (.paren t (wrap ts e))) (hts t List.mem_cons_self)
      (ih fun x hx => hts x (List.mem_cons_of_mem _ hx))

/-- Dropped parentheses stand where the expression stands, with the comments in front of it. -/
theorem wrapped {before content : Draw Unit} {e : Expr} (hbefore : Draws base true ok before [])
    (h : Draws base true ok content [e.piece]) (ts : List Tag) : Draws base true ok (do
      let outer ← Draw.offset
      before
      content
      ts.forM fun t => Draw.markNode .paren t outer) [(wrap ts e).piece] := by
  have hforM (outer : Nat) (q : Pen) (xs : List Tag) :
      (xs.forM fun t => Draw.markNode .paren t outer : Draw Unit) q = ((), { q with
        marks := (xs.map fun t => ⟨.node .paren, t.id, ⟨outer, q.offset⟩⟩).reverse ++ q.marks }) := by
    induction xs generalizing q with
    | nil => rfl
    | cons t xs ih =>
      refine (ih (Draw.markNode .paren t outer q).2).trans ?_
      change ((), ({ q with marks := (xs.map fun t => ⟨.node .paren, t.id, ⟨outer, q.offset⟩⟩).reverse ++
        ⟨.node .paren, t.id, ⟨outer, q.offset⟩⟩ :: q.marks } : Pen)) = _
      simp
  have hboth : Draws base true ok (before >>= fun _ => content) [e.piece] := hbefore.pass fun _ => h
  refine ⟨fun p hp => ?_, SteadyFrom.offset (.bind hbefore.steady fun _ => .bind h.steady fun _ => ?_),
    fun p hp => ?_, fun p => ?_⟩
  · obtain ⟨gs, hgs, hfree, hlead⟩ := hboth.leads p hp
    have hrow (place : Tag → Span) (hplace : ∀ x ∈ ts.map Tag.entry, place x.tag =
        ⟨p.offset, ((before >>= fun _ => content) p).2.offset⟩) :=
      row_wrap (e := e) ts fun t ht => hplace t.entry (List.mem_map_of_mem ht)
    have hmarks := leads_marks hlead (ts.map fun t => ⟨.node .paren, t.id,
        ⟨p.offset, ((before >>= fun _ => content) p).2.offset⟩⟩).reverse (ts.map Tag.entry)
      (fun m hm => ?_) (fun x hx => ?_) (fun i => ?_) (fun x hx => ?_) (fun (hok : ok) _ => hok) hrow
    · refine ⟨gs, ?_, hfree, ?_⟩
      · rw [hgs]
        change _ = gs ++ ((ts.forM fun t => Draw.markNode .paren t p.offset : Draw Unit)
          ((before >>= fun _ => content) p).2).2.comments
        rw [hforM]
      · change Leads base ok _ _ p ((ts.forM fun t => Draw.markNode .paren t p.offset : Draw Unit)
          ((before >>= fun _ => content) p).2).2
        rw [hforM]
        refine hmarks.of_perm ?_
        have hwrap := (perm_wrap ts e).append_right (groupEntries gs)
        simpa [Piece.entries, Node.entries] using hwrap
    · obtain ⟨t, ht, rfl⟩ := List.mem_map.1 (List.mem_reverse.1 hm)
      exact ⟨rfl, t.entry, List.mem_map_of_mem ht, rfl⟩
    · obtain ⟨t, ht, rfl⟩ := List.mem_map.1 hx
      exact ⟨_, List.mem_reverse.2 (List.mem_map_of_mem ht), rfl⟩
    · simp [markCount, idCount, List.countP_map, Function.comp_def]
    · obtain ⟨t, _, rfl⟩ := List.mem_map.1 hx
      intro w hw
      cases hw
  · intro q o ms s s'
    refine ⟨o, (ts.map fun t => ⟨.node .paren, t.id, ⟨s', o⟩⟩).reverse ++ ms, ?_⟩
    change (ts.forM fun t => Draw.markNode .paren t s' : Draw Unit) (q.moved o ms) = (_,
      ((ts.forM fun t => Draw.markNode .paren t s : Draw Unit) q).2.moved _ _)
    rw [hforM, hforM]
    rfl
  · obtain ⟨gs, hgs, hstrews⟩ := hboth.strews p hp
    change ∃ hs, p.comments = hs ++ ((ts.forM fun t => Draw.markNode .paren t p.offset : Draw Unit)
      ((before >>= fun _ => content) p).2).2.comments ∧ Strews hs p
        ((ts.forM fun t => Draw.markNode .paren t p.offset : Draw Unit)
          ((before >>= fun _ => content) p).2).2
    rw [hforM]
    exact ⟨gs, hgs, hstrews.mark _⟩
  · change Keeps p ((ts.forM fun t => Draw.markNode .paren t p.offset : Draw Unit)
      ((before >>= fun _ => content) p).2).2
    rw [hforM]
    exact ⟨(hboth.keeps p).lines, (hboth.keeps p).started⟩

/-- An expression with its mark. -/
theorem marked (dropped : Option (List Tag)) (form : Form) (e : Expr) (sign : Option String)
    {content : Draw Unit} (htext : (Node.expr e).self.text = none)
    (h : Draws base true True content (Node.expr e).pieces) :
    Draws base true ok (Draw.marked dropped form e.tag sign content)
      [(wrap (dropped.getD []) e).piece] := by
  have hmarked : Draws base true ok (do
      let start ← Draw.offset
      content
      Draw.markNode form e.tag start) [e.piece] :=
    marking (n := .expr e) htext (h.imp fun _ => trivial)
  cases sign with
  | none => exact wrapped (inlineComments _) hmarked _
  | some s => exact wrapped ((inlineComments _).pass fun _ => spaceIfCombines s) hmarked _

/-- A word that is an expression. -/
theorem markedWord (dropped : Option (List Tag)) (form : Form) (e : Expr) {s : String}
    (hpieces : (Node.expr e).pieces = []) (hentries : e.entries = [⟨e.tag, some s, true⟩]) :
    Draws base true ok (Draw.marked dropped form e.tag none (Draw.text s))
      [(wrap (dropped.getD []) e).piece] := by
  have hword : Draws base true ok (do
      let start ← Draw.offset
      Draw.text s
      Draw.markNode form e.tag start) [e.piece] :=
    word (e := ⟨e.tag, some s, true⟩) hentries rfl fun place lo hi he hle =>
      row_node (n := .expr e) he (hpieces ▸ .nil hle)
  exact wrapped (inlineComments _) hword _

/-- Something that may be left out, and what follows it. -/
theorem given {x : Option (Draw Unit)} {k : Unit → Draw Unit}
    (h : Draws base true ok (x.getD (Pure.pure ())) ps)
    (hk : Draws base true ok (k ()) []) :
    Draws base true ok (match x with
      | some m => m >>= k
      | none => Pure.pure ()) ps := by
  cases x with
  | none => exact h
  | some m => exact h.followed fun _ => hk

theorem header {isFor : Bool} {init cond post : Option (Draw Unit)}
    (hinit : Draws base true ok (init.getD (Pure.pure ())) ps)
    (hcond : Draws base true ok (cond.getD (Pure.pure ())) qs)
    (hpost : Draws base true ok (post.getD (Pure.pure ())) rs)
    (hfor : isFor = false → post = none) :
    Draws base true ok (Draw.header isFor init cond post) (ps ++ (qs ++ rs)) := by
  refine (text " ").pass fun _ => ite (fun hnone => ?_) fun _ => ?_
  · rw [Bool.and_eq_true, Option.isNone_iff_eq_none, Option.isNone_iff_eq_none] at hnone
    obtain ⟨rfl, rfl⟩ := hnone
    exact hinit.bind fun _ => (given hcond (text " ")).bind fun _ => hpost
  · refine hinit.bind fun _ => (text "; ").pass fun _ => hcond.bind fun _ => ?_
    refine ite (fun _ => (text "; ").pass fun _ => given hpost (text " ")) fun hfalse => ?_
    have hnone : post = none := hfor (by simpa using hfalse)
    subst hnone
    exact hpost.followed fun _ => optional (text " ")

theorem sliceBounds {xs : List (Option (Draw Unit))}
    (h : DrawsItems base ok (xs.map fun x => ⟨.unset, false, x.getD (Pure.pure ())⟩) ps)
    (blanks before : Bool) : Draws base true ok (Draw.sliceBounds blanks before xs) ps := by
  induction xs generalizing before ps with
  | nil =>
    cases h
    exact pure ()
  | cons x xs ih =>
    cases h with
    | @cons _ _ ps qs hx hxs =>
      have hrest := ih hxs x.isSome
      have hcolon {bound : Draw Unit} (hbound : Draws base true ok bound ps) : Draws base true ok
          (do Draw.text ":"; bound; Draw.sliceBounds blanks x.isSome xs) (ps ++ qs) :=
        (text ":").pass fun _ => hbound.bind fun _ => hrest
      cases x with
      | none => exact perhaps (k := fun _ => do Draw.text ":"; _) (text " ") (hcolon hx)
      | some m =>
        have hm : Draws base true ok (if blanks = true then Draw.text " " >>= fun _ => m else m) ps :=
          perhaps (k := fun _ => m) (text " ") hx
        have hall := hcolon hm
        cases blanks <;> exact perhaps (k := fun _ => do Draw.text ":"; _) (text " ") hall

theorem fieldBlock {keyword : String} {span : Span} {fields : List Field} {items : List Draw.Item}
    (hlength : items.length = fields.length) (h : DrawsItems base ok items ps) :
    Draws base true ok (Draw.typeExpr.fieldBlock keyword span fields items) ps := by
  refine get (fun _ _ _ => rfl) fun p => (text keyword).pass fun _ => ite (fun hfits => ?_) fun _ => ?_
  · cases h with
    | nil => exact text _
    | @cons x xs ps qs hx hxs =>
      cases hxs with
      | nil =>
        rw [List.append_nil]
        exact (text _).pass fun _ => hx.followed fun _ => text _
      | cons hy hys =>
        -- two fields never stand on one line
        match fields, hlength with
        | _ :: _ :: _, _ => simp [Draw.fieldsFitOneLine] at hfits
  · exact (text _).pass fun _ => (setLastEnd _).pass fun _ => indentMore.pass fun _ =>
      (h.groupLines true).followed fun _ => closeGroup _ _

theorem parensOf {nested : Bool} {bare inner : Draw Unit} (hbare : Draws base true ok bare ps)
    (hinner : Draws base true ok inner ps) :
    Draws base true ok (Draw.expr.parens nested bare inner) ps :=
  ite (fun _ => hbare) fun _ => (text _).pass fun _ => hinner.followed fun _ => text _

theorem length_fieldItems (fs : List Field) : (Draw.fieldItems fs).length = fs.length := by
  induction fs with
  | nil => rfl
  | cons f fs ih => simp [Draw.fieldItems, ih]

theorem length_methodItems (fs : List Field) : (Draw.methodItems fs).length = fs.length := by
  induction fs with
  | nil => rfl
  | cons f fs ih => simp [Draw.methodItems, ih]

/-- Without its names a field has fewer entries. -/
theorem mem_unnamed {t : Tag} {ns : List Name} {type : TypeExpr} {variadic : Bool}
    {label : Option String} {e : Entry}
    (he : e ∈ Piece.entriesAll [(Field.mk t [] type variadic label).piece]) :
    e ∈ Piece.entriesAll [(Field.mk t ns type variadic label).piece] := by
  simp only [Piece.entriesAll_cons, Piece.entriesAll_nil, Piece.entries, Node.entries,
    Field.entries_mk, List.append_nil, List.mem_append, List.mem_cons] at he ⊢
  exact he.imp_right fun he => .inr (he.resolve_left (List.not_mem_nil (a := e)))

/-- One lemma for each node whose drawing has cases: its children are drawn, so it is. -/
theorem ofSignature {t : Tag} {fs rs : List Field}
    (hparams : DrawsItems base True (Draw.fieldItems fs) (fs.map Field.piece))
    (hresults : DrawsItems base True (Draw.fieldItems rs) (rs.map Field.piece)) :
    Draws base true ok (Draw.signature ⟨t, fs, rs⟩) [(Signature.mk t fs rs).piece] := by
  have hall (closing : Span) (results : Draw Unit)
      (h : Draws base true True results (rs.map Field.piece)) : Draws base true ok (do
        let start ← Draw.offset
        (do
          Draw.params t.span.start (Draw.fieldItems fs) closing
          results)
        Draw.markNode .signature t start) [(Signature.mk t fs rs).piece] :=
    marking (n := .signature ⟨t, fs, rs⟩) rfl
      (((hparams.params _ _).bind fun _ => h).imp fun _ => trivial)
  rw [Draw.signature]
  split
  · exact hall _ (Pure.pure ()) (pure ())
  · exact hall _ _ ((text " ").pass fun _ => hresults.joined "")
  · exact hall _ _ ((text " ").pass fun _ => hresults.params Span.unknown (Draw.closingByte t.span))

theorem ofField {t : Tag} {ns : List Name} {type : TypeExpr} {variadic : Bool}
    {label : Option String} (htype : Draws base true True (Draw.typeExpr type) [type.piece]) :
    Draws base true ok (Draw.field ⟨t, ns, type, variadic, label⟩)
      [(Field.mk t ns type variadic label).piece] := by
  have hcontent : Draws base true True (do
      Draw.names ns
      (if ns.isEmpty then Pure.pure () else Draw.text " ")
      (if variadic then Draw.text "..." else Pure.pure ())
      Draw.typeExpr type
      (label.elim (Pure.pure ()) fun l => do
        Draw.text " "
        Draw.text l)) (ns.map Name.piece ++ [type.piece]) := by
    refine (names ns).bind fun _ => Draws.pass (ite (fun _ => pure ()) fun _ => text " ") fun _ =>
      (optional (text "...")).pass fun _ => htype.followed fun _ => ?_
    cases label with
    | none => exact pure ()
    | some l => exact (text " ").pass fun _ => text l
  have hwhole := @marking base true ok .field (.field ⟨t, ns, type, variadic, label⟩) _ rfl
    (hcontent.imp fun _ => trivial)
  cases ns <;> cases variadic <;> cases label <;> exact hwhole

theorem ofIfElse {t : Tag} {init : Option Simple} {cond : Expr} {yes : Block} {no : Option Stmt}
    (hinit : Draws base true True ((Draw.simpleOption init).getD (Pure.pure ()))
      (init.toList.map Simple.piece))
    (hcond : Draws base true True (Draw.expr (some []) 1 cond) [cond.piece])
    (hyes : Draws base true True (Draw.block yes) [yes.piece])
    (hno : Draws base true True ((Draw.stmtOption no).getD (Pure.pure ()))
      (no.toList.map Stmt.piece)) :
    Draws base true ok (Draw.stmt (.ifElse t init cond yes no))
      [(Stmt.ifElse t init cond yes no).piece] := by
  have hsome : Draws base true True ((some (Draw.expr (some []) 1 cond)).getD (Pure.pure ()))
      [cond.piece] := hcond
  have hhead : Draws base true True (Draw.header false (Draw.simpleOption init)
      (some (Draw.expr (some []) 1 cond)) none) (init.toList.map Simple.piece ++ [cond.piece]) :=
    header hinit hsome (pure ()) fun _ => rfl
  have hall (rest : Draw Unit) (hrest : Draws base true True rest (no.toList.map Stmt.piece)) :
      Draws base true ok (do
        let start ← Draw.offset
        (do
          Draw.text "if"
          Draw.header false (Draw.simpleOption init) (some (Draw.expr (some []) 1 cond)) none
          Draw.block yes
          rest)
        Draw.markNode .ifStmt t start) [(Stmt.ifElse t init cond yes no).piece] := by
    have hcontent := (text "if").pass fun _ => hhead.bind fun _ => hyes.bind fun _ => hrest
    rw [List.append_assoc] at hcontent
    exact marking (n := .stmt (.ifElse t init cond yes no)) rfl (hcontent.imp fun _ => trivial)
  cases no with
  | none => exact hall _ (pure ())
  | some s => exact hall _ ((text " else ").pass fun _ => hno)

theorem ofSwitch {t : Tag} {init : Option Simple} {subject : Option Expr} {cs : List Clause}
    (hinit : Draws base true True ((Draw.simpleOption init).getD (Pure.pure ()))
      (init.toList.map Simple.piece))
    (hsubject : Draws base true True ((Draw.exprOption (some []) 1 subject).getD (Pure.pure ()))
      (subject.toList.map Expr.piece))
    (hclauses : DrawsItems base True (Draw.clauseItems cs) (cs.map Clause.piece)) :
    Draws base true ok (Draw.stmt (.switch t init subject cs))
      [(Stmt.switch t init subject cs).piece] := by
  have hhead : Draws base true True (Draw.header false (Draw.simpleOption init)
      (Draw.exprOption (some []) 1 subject) none) (init.toList.map Simple.piece ++
        (subject.toList.map Expr.piece ++ [])) :=
    header hinit hsubject (pure ()) fun _ => rfl
  have hcontent := (text "switch").pass fun _ => hhead.bind fun _ => hclauses.clauseBody t.span
  rw [List.append_nil, List.append_assoc] at hcontent
  exact marking (n := .stmt (.switch t init subject cs)) rfl (hcontent.imp fun _ => trivial)

theorem ofTypeSwitch {t : Tag} {init : Option Simple} {bind : Option Name} {guard : Expr}
    {cs : List Clause}
    (hinit : Draws base true True ((Draw.simpleOption init).getD (Pure.pure ()))
      (init.toList.map Simple.piece))
    (hguard : Draws base true True (Draw.expr none 1 guard) [guard.piece])
    (hclauses : DrawsItems base True (Draw.clauseItems cs) (cs.map Clause.piece)) :
    Draws base true ok (Draw.stmt (.typeSwitch t init bind guard cs))
      [(Stmt.typeSwitch t init bind guard cs).piece] := by
  have hbody : Draws base true True (do
      Draw.expr none 1 guard
      Draw.text " "
      Draw.clauseBody t.span (Draw.clauseItems cs)) (guard.piece :: cs.map Clause.piece) :=
    hguard.bind fun _ => (text " ").pass fun _ => hclauses.clauseBody _
  have hnamed (n : Name) : Draws base true True (do
      Draw.name .typeSwitchBind n
      Draw.text " := "
      Draw.expr none 1 guard
      Draw.text " "
      Draw.clauseBody t.span (Draw.clauseItems cs)) (n.piece :: guard.piece :: cs.map Clause.piece) :=
    (name .typeSwitchBind n).bind fun _ => (text " := ").pass fun _ => hbody
  refine marking (n := .stmt (.typeSwitch t init bind guard cs)) rfl (Draws.imp ?_ fun _ => trivial)
  cases init with
  | none =>
    cases bind with
    | none => exact (text "switch ").pass fun _ => hbody
    | some n => exact (text "switch ").pass fun _ => hnamed n
  | some s =>
    cases bind with
    | none => exact (text "switch ").pass fun _ => hinit.bind fun _ => (text "; ").pass fun _ => hbody
    | some n =>
      exact (text "switch ").pass fun _ => hinit.bind fun _ => (text "; ").pass fun _ => hnamed n

theorem ofComm {t : Tag} {guard : Option Simple} {ss : List Stmt}
    (hguard : Draws base true True ((Draw.simpleOption guard).getD (Pure.pure ()))
      (guard.toList.map Simple.piece))
    (hstmts : DrawsItems base True (Draw.stmtItems ss) (ss.map Stmt.piece)) :
    Draws base true ok (Draw.comm ⟨t, guard, ss⟩) [(Comm.mk t guard ss).piece] := by
  have hrest : Draws base true True (do
      Draw.text ":"
      Draw.indentMore
      Draw.stmtLines (Draw.stmtItems ss)
      Draw.indentLess) (ss.map Stmt.piece) :=
    (text ":").pass fun _ => indentMore.pass fun _ => hstmts.stmtLines.followed fun _ => indentLess
  cases guard with
  | none =>
    exact marking (n := .comm ⟨t, none, ss⟩) rfl (((setLastEnd _).pass fun _ =>
      (text "default").pass fun _ => hrest).imp fun _ => trivial)
  | some s =>
    exact marking (n := .comm ⟨t, some s, ss⟩) rfl (((setLastEnd _).pass fun _ =>
      (text "case ").pass fun _ => hguard.bind fun _ => (setLastEnd _).pass
        fun _ => hrest).imp fun _ => trivial)

theorem ofValues {t : Tag} {ns : List Name} {type : Option TypeExpr} {vs : List Expr}
    (htype : Draws base true True (Draw.typeOption type) (type.toList.map TypeExpr.piece))
    (hvalues : DrawsItems base True (Draw.exprItems 1 vs) (vs.map Expr.piece)) :
    Draws base true ok (Draw.spec (.values t ns type vs)) [(Spec.values t ns type vs).piece] := by
  have hall (blank values : Draw Unit) (hblank : Draws base true True blank [])
      (h : Draws base true True values (vs.map Expr.piece)) : Draws base true ok (do
        let start ← Draw.offset
        (do
          Draw.names ns
          blank
          Draw.typeOption type
          values)
        Draw.markNode .valueSpec t start) [(Spec.values t ns type vs).piece] :=
    marking (n := .spec (.values t ns type vs)) rfl (((names ns).bind fun _ => hblank.pass fun _ =>
      htype.bind fun _ => h).imp fun _ => trivial)
  cases type with
  | none =>
    cases vs with
    | nil => exact hall _ _ (pure ()) (pure ())
    | cons v vs => exact hall _ _ (pure ()) ((text " = ").pass fun _ => hvalues.list _ _ _)
  | some type =>
    cases vs with
    | nil => exact hall _ _ (text " ") (pure ())
    | cons v vs => exact hall _ _ (text " ") ((text " = ").pass fun _ => hvalues.list _ _ _)

/-- Of a field that is no method only the type is drawn. -/
theorem ofMethod {t : Tag} {ns : List Name} {type : TypeExpr} {variadic : Bool}
    {label : Option String} (htype : Draws base true True (Draw.typeExpr type) [type.piece])
    (hsig : ∀ ft sig, type = .func ft sig →
      Draws base true True (Draw.signature sig) [sig.piece]) :
    Draws base true ((Field.mk t ns type variadic label).isMember = true)
      (Draw.method ⟨t, ns, type, variadic, label⟩) [(Field.mk t ns type variadic label).piece] := by
  have hbare : Draws base true True (do
      let start ← Draw.offset
      Draw.typeExpr type
      Draw.markNode .field t start) [(Field.mk t [] type variadic label).piece] :=
    marking (n := .field ⟨t, [], type, variadic, label⟩) rfl (htype.imp fun _ => trivial)
  match ns, type with
  | [], _ => exact hbare.imp fun _ => trivial
  | [n], .func ft sig =>
    have htype : Draws base true True (do
        let typeStart ← Draw.offset
        Draw.signature sig
        Draw.markNode .type ft typeStart) [(TypeExpr.func ft sig).piece] :=
      marking (n := .type (.func ft sig)) rfl ((hsig ft sig rfl).imp fun _ => trivial)
    exact marking (n := .field ⟨t, [n], .func ft sig, variadic, label⟩) rfl
      (((name .list n).bind fun _ => htype).imp fun _ => trivial)
  | _ :: _ :: _, _ | [_], .named .. | [_], .pointer .. | [_], .slice .. | [_], .array ..
  | [_], .map .. | [_], .chan .. | [_], .struct .. | [_], .interface .. =>
    exact hbare.part (fun e he => mem_unnamed he) (by simp [Field.isMember])

mutual

theorem expr {ok : Prop} (dropped : Option (List Tag)) (depth : Nat) : ∀ e : Expr,
    Draws base true ok (Draw.expr dropped depth e) [(wrap (dropped.getD []) e).piece]
  | .ident t n => markedWord dropped .ident (.ident t n) rfl rfl
  | .lit t k x => markedWord dropped .lit (.lit t k x) rfl rfl
  | .funcLit t sig b => marked dropped .funcLit (.funcLit t sig b) none rfl
      ((text "func").pass fun _ => (signature sig).bind fun _ => body t.span b)
  | .composite t type elems => marked dropped .composite (.composite t type elems) none rfl
      ((typeOption type).bind fun _ => (text _).pass fun _ =>
        ((elementItems elems).list _ _ _).followed fun _ => text _)
  | .paren t e => by
    have hin (depth : Nat) : Draws base true True (Draw.expr none depth e) [e.piece] :=
      expr none depth e
    cases dropped with
    | none => exact marked none .paren (.paren t e) none rfl (parensOf (hin _) (hin _))
    | some ts =>
      refine ite (fun _ => ?_) fun _ => ?_
      · exact marked (some ts) .paren (.paren t e) none rfl (parensOf (hin _) (hin _))
      · have hwrap : wrap (ts ++ [t]) e = wrap ts (.paren t e) := by simp [wrap]
        have he : Draws base true ok (Draw.expr (some (ts ++ [t])) depth e)
            [(wrap (ts ++ [t]) e).piece] := expr (some (ts ++ [t])) depth e
        rwa [hwrap] at he
  | .selector t e sel => marked dropped .selector (.selector t e sel) none rfl
      ((expr none depth e).bind fun _ => (text ".").pass fun _ => name .selector sel)
  | .index t e i => marked dropped .index (.index t e i) none rfl
      ((expr none 1 e).bind fun _ => (text "[").pass fun _ =>
        (expr none (depth + 1) i).followed fun _ => text "]")
  | .slice t e lo hi max => by
    refine marked dropped .slice (.slice t e lo hi max) none rfl ((expr none 1 e).bind fun _ =>
      (text "[").pass fun _ => (exprOption rfl (depth + 1) lo).bind fun _ => ?_)
    refine (sliceBounds ?_ _ _).followed fun _ => text "]"
    have hhi : Draws base true True ((Draw.exprOption none (depth + 1) hi).getD (Pure.pure ()))
        (hi.toList.map Expr.piece) := exprOption rfl (depth + 1) hi
    cases max with
    | none => exact .cons hhi .nil
    | some max =>
      have hmax : Draws base true True (Draw.expr none (depth + 1) max) [max.piece] :=
        expr none (depth + 1) max
      have hitems := DrawsItems.cons (x := ⟨.unset, false, _⟩) hmax .nil
      exact .cons hhi hitems
  | .assert t e type => by
    refine marked dropped .assert (.assert t e type) none rfl ((expr none 1 e).bind fun _ =>
      (text ".(").pass fun _ => ?_)
    cases type with
    | none => exact (text "type").followed fun _ => text ")"
    | some type => exact (typeOption (some type)).followed fun _ => text ")"
  | .call t callee args spread => marked dropped .call (.call t callee args spread) none rfl
      ((expr none _ callee).bind fun _ => (text "(").pass fun _ =>
        ((exprItems _ args).list _ _ _).followed fun _ => text ")")
  | .unary t op e => marked dropped .unary (.unary t op e) _ rfl
      ((operator _).pass fun _ => expr none _ e)
  | .binary t l op r => by
    have hright : Draws base true True (Draw.expr none (depth + 1) r) [r.piece] := expr none _ r
    refine marked dropped .binary (.binary t l op r) none rfl ((expr none _ l).bind fun _ => ?_)
    refine perhaps (text " ") ((operator _).pass fun _ => get (fun _ _ _ => rfl) fun p => ?_)
    split
    · refine ite (fun _ => ?_) fun _ => perhaps (text " ") hright
      exact indentMore.pass fun _ => (newlines _).pass fun _ => hright.followed fun _ => indentLess
    · exact perhaps (text " ") hright
  | .type t type => marked dropped .typeOperand (.type t type) none rfl (typeExpr type)

theorem exprOption {ok : Prop} {dropped : Option (List Tag)} (hnone : dropped.getD [] = [])
    (depth : Nat) : ∀ e : Option Expr,
      Draws base true ok ((Draw.exprOption dropped depth e).getD (Pure.pure ()))
        (e.toList.map Expr.piece)
  | none => pure ()
  | some e => by
    have he : Draws base true ok (Draw.expr dropped depth e) [(wrap (dropped.getD []) e).piece] :=
      expr dropped depth e
    rwa [hnone] at he

theorem exprItems {ok : Prop} (depth : Nat) : ∀ es : List Expr,
    DrawsItems base ok (Draw.exprItems depth es) (es.map Expr.piece)
  | [] => .nil
  | e :: es => .one (expr none depth e) (exprItems depth es)

theorem element {ok : Prop} : ∀ e : Element, Draws base true ok (Draw.element e) e.pieces
  | ⟨none, value⟩ => expr none 1 value
  | ⟨some key, value⟩ => (expr none 1 key).bind fun _ => (text ": ").pass fun _ =>
      expr none 1 value

theorem elementItems {ok : Prop} : ∀ es : List Element,
    DrawsItems base ok (Draw.elementItems es) (es.flatMap Element.pieces)
  | [] => .nil
  | e :: es => .cons (element e) (elementItems es)

theorem typeExpr {ok : Prop} : ∀ t : TypeExpr, Draws base true ok (Draw.typeExpr t) [t.piece]
  | .named t pkg n => by
    refine marking (n := .type (.named t pkg n)) rfl ?_
    cases pkg with
    | none => exact text n
    | some pkg => exact (text pkg).pass fun _ => (text ".").pass fun _ => text n
  | .pointer t e => marking (n := .type (.pointer t e)) rfl
      ((text "*").pass fun _ => typeExpr e)
  | .slice t e => marking (n := .type (.slice t e)) rfl ((text "[]").pass fun _ => typeExpr e)
  | .array t len e => by
    refine marking (n := .type (.array t len e)) rfl ((text "[").pass fun _ => ?_)
    cases len with
    | none => exact (text "...").pass fun _ => (text "]").pass fun _ => typeExpr e
    | some len =>
      exact (exprOption rfl 1 (some len)).bind fun _ => (text "]").pass fun _ => typeExpr e
  | .map t k v => marking (n := .type (.map t k v)) rfl
      ((text "map[").pass fun _ => (typeExpr k).bind fun _ => (text "]").pass fun _ => typeExpr v)
  | .chan t dir e => marking (n := .type (.chan t dir e)) rfl
      ((text _).pass fun _ => typeExpr e)
  | .func t sig => marking (n := .type (.func t sig)) rfl
      ((text "func").pass fun _ => signature sig)
  | .struct t fs => marking (n := .type (.struct t fs)) rfl
      (fieldBlock (length_fieldItems fs) (fieldItems fs))
  | .interface t ms => marking (n := .type (.interface t ms)) rfl
      (fieldBlock (length_methodItems ms) (methodItems ms))

theorem typeOption {ok : Prop} : ∀ t : Option TypeExpr,
    Draws base true ok (Draw.typeOption t) (t.toList.map TypeExpr.piece)
  | none => pure ()
  | some t => typeExpr t

theorem typeItems {ok : Prop} : ∀ ts : List TypeExpr,
    DrawsItems base ok (Draw.typeItems ts) (ts.map TypeExpr.piece)
  | [] => .nil
  | t :: ts => .one (typeExpr t) (typeItems ts)

theorem field {ok : Prop} : ∀ f : Field, Draws base true ok (Draw.field f) [f.piece]
  | ⟨_, _, type, _, _⟩ => ofField (typeExpr type)

theorem fieldItems {ok : Prop} : ∀ fs : List Field,
    DrawsItems base ok (Draw.fieldItems fs) (fs.map Field.piece)
  | [] => .nil
  | f :: fs => .one (field f) (fieldItems fs)

theorem method : ∀ f : Field, Draws base true (f.isMember = true) (Draw.method f) [f.piece]
  | ⟨_, _, type, _, _⟩ => by
    have htype : Draws base true True (Draw.typeExpr type) [type.piece] := typeExpr type
    cases type with
    | func ft sig => exact ofMethod htype (by rintro _ _ ⟨⟩; exact signature sig)
    | _ => exact ofMethod htype nofun

theorem methodItems : ∀ fs : List Field,
    DrawsItems base (fs.all Field.isMember = true) (Draw.methodItems fs) (fs.map Field.piece)
  | [] => .nil
  | f :: fs => by
    refine .one ((method f).imp fun h => ?_) ((methodItems fs).imp fun h => ?_)
    · simp only [List.all_cons, Bool.and_eq_true] at h
      exact h.1
    · simp only [List.all_cons, Bool.and_eq_true] at h
      exact h.2

theorem signature {ok : Prop} : ∀ s : Signature,
    Draws base true ok (Draw.signature s) [s.piece]
  | ⟨_, ps, rs⟩ => ofSignature (fieldItems ps) (fieldItems rs)

theorem body {ok : Prop} (outer : Span) : ∀ b : Block,
    Draws base true ok (Draw.body outer b) [b.piece]
  | ⟨t, ss⟩ => by
    have hitems : DrawsItems base True (Draw.stmtItems ss) (ss.map Stmt.piece) := stmtItems ss
    exact (text " ").pass fun _ => get (fun _ _ _ => rfl) fun p =>
      ite (fun _ => blockOnOneLine (b := ⟨t, ss⟩) hitems) fun _ =>
        blockLines (b := ⟨t, ss⟩) hitems

theorem block {ok : Prop} : ∀ b : Block, Draws base true ok (Draw.block b) [b.piece]
  | ⟨t, ss⟩ => blockLines (b := ⟨t, ss⟩) (stmtItems ss)

theorem simple {ok : Prop} : ∀ s : Simple, Draws base true ok (Draw.simple s) [s.piece]
  | .expr t e => marking (n := .simple (.expr t e)) rfl (expr none 1 e)
  | .send t c v => marking (n := .simple (.send t c v)) rfl
      ((expr none 1 c).bind fun _ => (text " <- ").pass fun _ => expr none 1 v)
  | .step t e op => marking (n := .simple (.step t e op)) rfl
      ((expr none 2 e).followed fun _ => text _)
  | .assign t l op r => marking (n := .simple (.assign t l op r)) rfl
      (((exprItems _ l).list _ _ _).bind fun _ => (text " ").pass fun _ => (text _).pass fun _ =>
        (text " ").pass fun _ => (exprItems _ r).list _ _ _)
  | .define t ns vs => marking (n := .simple (.define t ns vs)) rfl
      ((names ns).bind fun _ => (text " := ").pass fun _ => (exprItems _ vs).list _ _ _)

theorem simpleOption {ok : Prop} : ∀ s : Option Simple,
    Draws base true ok ((Draw.simpleOption s).getD (Pure.pure ())) (s.toList.map Simple.piece)
  | none => pure ()
  | some s => simple s

theorem stmt {ok : Prop} : ∀ s : Stmt, Draws base true ok (Draw.stmt s) [s.piece]
  | .simple t s => marking (n := .stmt (.simple t s)) rfl (simple s)
  | .decl t d => marking (n := .stmt (.decl t d)) rfl (decl d)
  | .labeled t n s => marking (n := .stmt (.labeled t n s)) rfl
      ((name .label n).bind fun _ => (text ":").pass fun _ => (setLastEnd _).pass fun _ =>
        (itemBreak _ 1).pass fun _ => stmt s)
  | .go t e => marking (n := .stmt (.go t e)) rfl ((text "go ").pass fun _ => expr none 1 e)
  | .defer t e => marking (n := .stmt (.defer t e)) rfl
      ((text "defer ").pass fun _ => expr none 1 e)
  | .ret t es => by
    refine marking (n := .stmt (.ret t es)) rfl ((text "return").pass fun _ => ?_)
    cases es with
    | nil => exact pure ()
    | cons e es => exact (text " ").pass fun _ => (exprItems 1 (e :: es)).list _ _ _
  | .branch t kind n => by
    refine marking (n := .stmt (.branch t kind n)) rfl ((text _).pass fun _ => ?_)
    cases n with
    | none => exact pure ()
    | some n => exact (text " ").pass fun _ => name .label n
  | .block t b => marking (n := .stmt (.block t b)) rfl (block b)
  | .ifElse _ init cond yes no => ofIfElse (simpleOption init) (expr (some []) 1 cond) (block yes)
      (stmtOption no)
  | .loop t head b => marking (n := .stmt (.loop t head b)) rfl
      ((text "for").pass fun _ => (loopHead head).bind fun _ => block b)
  | .switch _ init subject cs => ofSwitch (simpleOption init) (exprOption rfl 1 subject)
      (clauseItems cs)
  | .typeSwitch _ init _ guard cs => ofTypeSwitch (simpleOption init) (expr none 1 guard)
      (clauseItems cs)
  | .select t cs => by
    refine marking (n := .stmt (.select t cs)) rfl ((text "select ").pass fun _ =>
      get (fun _ _ _ => rfl) fun p => ite (fun hempty => ?_) fun _ => (commItems cs).clauseBody _)
    cases cs with
    | nil => exact text _
    | cons c cs => simp at hempty

theorem stmtOption {ok : Prop} : ∀ s : Option Stmt,
    Draws base true ok ((Draw.stmtOption s).getD (Pure.pure ())) (s.toList.map Stmt.piece)
  | none => pure ()
  | some s => stmt s

theorem stmtItems {ok : Prop} : ∀ ss : List Stmt,
    DrawsItems base ok (Draw.stmtItems ss) (ss.map Stmt.piece)
  | [] => .nil
  | s :: ss => .one (stmt s) (stmtItems ss)

theorem loopHead : ∀ x : LoopHead,
    Draws base true (x.isWhole = true) (Draw.loopHead x) x.pieces
  | .forever => by
    have hhead : Draws base true True (Draw.header true none none none) ([] ++ ([] ++ [])) :=
      header (pure ()) (pure ()) (pure ()) nofun
    exact hhead.imp fun _ => trivial
  | .cond e => by
    have hcond : Draws base true True ((some (Draw.expr (some []) 1 e)).getD (Pure.pure ()))
        [e.piece] := expr (some []) 1 e
    have hhead : Draws base true True (Draw.header true none (some (Draw.expr (some []) 1 e)) none)
        ([] ++ ([e.piece] ++ [])) := header (pure ()) hcond (pure ()) nofun
    exact hhead.imp fun _ => trivial
  | .clause init cond post =>
    header (simpleOption init) (exprOption rfl 1 cond) (simpleOption post) nofun
  | .range none none define e => (text " ").pass fun _ => (text "range ").pass fun _ =>
      Draws.followed (expr (some []) 1 e) fun _ => text " "
  | .range none (some v) define e => by
    have hrange : Draws base true True (Draw.loopHead (.range none (some v) define e)) [e.piece] :=
      (text " ").pass fun _ => (text "range ").pass fun _ =>
        Draws.followed (expr (some []) 1 e) fun _ => text " "
    refine hrange.part (fun x hx => ?_) (by simp [LoopHead.isWhole])
    simp [LoopHead.pieces, Piece.entries, Node.entries] at hx ⊢
    exact .inr hx
  | .range (some key) value define e => by
    have hrange : Draws base true True (do
        Draw.text (if define = true then " := " else " = ")
        Draw.text "range "
        Draw.expr (some []) 1 e
        Draw.text " ") [e.piece] :=
      (text _).pass fun _ => (text "range ").pass fun _ =>
        Draws.followed (expr (some []) 1 e) fun _ => text " "
    refine (text " ").pass fun _ => Draws.bind (expr none 1 key) fun _ => ?_
    cases value with
    | none => exact hrange.imp fun _ => trivial
    | some v =>
      exact (text ", ").pass fun _ => Draws.bind (expr none 1 v) fun _ =>
        hrange.imp fun _ => trivial

theorem cases {ok : Prop} (start : Nat) : ∀ x : Cases,
    Draws base true ok (Draw.cases start x) x.pieces
  | .default => text "default"
  | .exprs es => (text "case ").pass fun _ => (exprItems 1 es).list _ _ _
  | .types ts => (text "case ").pass fun _ => (typeItems ts).list _ _ _

theorem clause {ok : Prop} : ∀ c : Clause, Draws base true ok (Draw.clause c) [c.piece]
  | ⟨t, cs, ss⟩ => marking (n := .clause ⟨t, cs, ss⟩) rfl
      ((setLastEnd _).pass fun _ => (cases _ cs).bind fun _ => (text ":").pass fun _ =>
        indentMore.pass fun _ => (stmtItems ss).stmtLines.followed fun _ => indentLess)

theorem clauseItems {ok : Prop} : ∀ cs : List Clause,
    DrawsItems base ok (Draw.clauseItems cs) (cs.map Clause.piece)
  | [] => .nil
  | c :: cs => .one (clause c) (clauseItems cs)

theorem comm {ok : Prop} : ∀ c : Comm, Draws base true ok (Draw.comm c) [c.piece]
  | ⟨_, guard, ss⟩ => ofComm (simpleOption guard) (stmtItems ss)

theorem commItems {ok : Prop} : ∀ cs : List Comm,
    DrawsItems base ok (Draw.commItems cs) (cs.map Comm.piece)
  | [] => .nil
  | c :: cs => .one (comm c) (commItems cs)

/-- Without parentheses only the first line of a declaration is drawn. -/
theorem decl {ok : Prop} : ∀ d : Decl, Draws base true ok (Draw.decl d) [d.piece]
  | ⟨t, kind, true, []⟩ => marking (n := .decl ⟨t, kind, true, []⟩) rfl
      ((text _).pass fun _ => (text " ").pass fun _ => text "()")
  | ⟨t, kind, true, s :: ss⟩ => marking (n := .decl ⟨t, kind, true, s :: ss⟩) rfl
      ((text _).pass fun _ => (text " ").pass fun _ => (text "(").pass fun _ =>
        (setLastEnd _).pass fun _ => indentMore.pass fun _ =>
          ((specItems (s :: ss)).groupLines true).followed fun _ => closeGroup _ _)
  | ⟨t, kind, false, []⟩ => marking (n := .decl ⟨t, kind, false, []⟩) rfl
      ((text _).pass fun _ => (text " ").pass fun _ => pure ())
  | ⟨t, kind, false, s :: ss⟩ => by
    have hone : Draws base true True (do
        Draw.text kind.spelling
        Draw.text " "
        Draw.spec s) [s.piece] := (text _).pass fun _ => (text " ").pass fun _ => spec s
    cases ss with
    | nil => exact marking (n := .decl ⟨t, kind, false, [s]⟩) rfl (hone.imp fun _ => trivial)
    | cons s' ss =>
      refine marking (n := .decl ⟨t, kind, false, s :: s' :: ss⟩) rfl (hone.part (fun x hx => ?_) ?_)
      · simp [Node.pieces, Piece.entries, Node.entries] at hx ⊢
        exact .inl hx
      · simp [Node.self]

theorem spec {ok : Prop} : ∀ s : Spec, Draws base true ok (Draw.spec s) [s.piece]
  | .imports t none path => marking (n := .spec (.imports t none path)) rfl (text path)
  | .imports t (some n) path => marking (n := .spec (.imports t (some n) path)) rfl
      ((name .importName n).bind fun _ => (text " ").pass fun _ => text path)
  | .values _ _ type vs => ofValues (typeOption type) (exprItems 1 vs)
  | .type t n isAlias type => marking (n := .spec (.type t n isAlias type)) rfl
      ((name .typeName n).bind fun _ => (text _).pass fun _ => typeExpr type)

theorem specItems {ok : Prop} : ∀ ss : List Spec,
    DrawsItems base ok (Draw.specItems ss) (ss.map Spec.piece)
  | [] => .nil
  | s :: ss => .one (spec s) (specItems ss)

end

theorem func (f : FuncDecl) : Draws base true ok (Draw.func f) [f.piece] := by
  obtain ⟨t, recv, n, sig, b⟩ := f
  have hrest : Draws base true True (do
      Draw.name .func n
      Draw.signature sig
      (b.elim (Pure.pure ()) (Draw.body t.span))) (n.piece :: sig.piece :: b.toList.map Block.piece) := by
    refine (name .func n).bind fun _ => (signature sig).bind fun _ => ?_
    cases b with
    | none => exact pure ()
    | some b => exact body t.span b
  have hcontent := (text "func ").pass fun _ => hrest
  cases recv with
  | none =>
    cases b <;> exact marking (n := .func ⟨t, none, n, sig, _⟩) rfl (hcontent.imp fun _ => trivial)
  | some r =>
    have hrecv := (text "func ").pass fun _ => (text "(").pass fun _ => (field r).bind fun _ =>
      (text ") ").pass fun _ => hrest
    cases b <;> exact marking (n := .func ⟨t, some r, n, sig, _⟩) rfl (hrecv.imp fun _ => trivial)

theorem topDecl : ∀ d : TopDecl, Draws base true ok (Draw.topDecl d) [d.piece]
  | .decl d => decl d
  | .func f => func f

theorem topDecls (last : Option (Option DeclKind)) : ∀ ds : List TopDecl,
    Draws base true ok (Draw.topDecls last ds) (ds.map TopDecl.piece)
  | [] => pure ()
  | d :: ds => get (fun _ _ _ => rfl) fun _ => (itemBreak _ _).pass fun _ =>
    (topDecl d).bind fun _ => (setLastEnd _).pass fun _ => topDecls _ ds

end Draws

namespace Draw

theorem started_separate (next : Span) (least : Nat) (p : Pen) :
    (separate next least p).2.atStart = false := by
  change ((if p.atStart = true then _ else _ : Draw Unit) p).2.atStart = false
  split
  · rfl
  · rename_i hstart
    exact (Bool.not_eq_true _).mp hstart

/-- The comments above the clause of a file. -/
def fileFront (f : SourceFile) : Draw Unit := do
  let _ ← flush f.tag.span.start 1
  separate f.tag.span 1

/-- The clause of a file without its mark. -/
def packageClause (f : SourceFile) : Draw Unit := do
  text "package "
  name .packageName f.name

/-- A file down to its clause. -/
def fileHead (f : SourceFile) : Draw Unit := do
  modify fun p => { p with atStart := true }
  fileFront f
  let start ← offset
  packageClause f
  mark .packageClause f.tag.id start

/-- Drawing a file without the newline at its end. -/
def fileBody (f : SourceFile) : Draw Bool := do
  fileHead f
  setLastEnd (known? f.tag.span.stop)
  topDecls none f.decls
  flush Span.unknown 1

theorem sourceFile_eq (f : SourceFile) :
    sourceFile f = (do let _ ← fileBody f; text "\n") := rfl

variable {base : Nat}

theorem draws_fileFront (ok : Prop) (f : SourceFile) : Draws base true ok (fileFront f) [] :=
  (Draws.flush _ 1).pass fun _ => .separate _ 1

theorem draws_packageClause (f : SourceFile) : Draws base false True (packageClause f) [f.name.piece] :=
  (Draws.text _).pass fun _ => .name _ _

/-- A clause is not empty. -/
theorem offset_packageClause (f : SourceFile) {p : Pen} (hp : p.offset = base + byteSize p.text) :
    p.offset < (packageClause f p).2.offset := by
  have hword : Draws base false True (text "package ") [] := .text _
  have hname : Draws base false True (name .packageName f.name) [f.name.piece] := .name _ _
  obtain ⟨_, _, _, hfront⟩ := hword.leads p hp
  obtain ⟨_, _, _, hback⟩ := hname.leads _ hfront.offset
  have hlt : p.offset < (text "package " p).2.offset := Nat.lt_add_of_pos_right (by decide)
  exact Nat.lt_of_lt_of_le hlt hback.le

/-- What drawing a file down to its clause does. The clause is no node, but has a mark. -/
structure Heads (base : Nat) (f : SourceFile) (p q : Pen) : Prop where
  leads : ∀ ok, ∃ gs, p.comments = gs ++ q.comments ∧
    Leads base ok (f.tag.entry :: f.name.entry :: groupEntries gs) [f.name.piece] p q
  strews : ∃ gs, p.comments = gs ++ q.comments ∧ Strews gs p q
  clause : ∃ start, start < q.offset ∧ ⟨.packageClause, f.tag.id, ⟨start, q.offset⟩⟩ ∈ q.marks
  lines : q.lines = p.lines
  started : q.atStart = false

theorem heads_fileHead (f : SourceFile) {p : Pen} (hp : p.offset = base + byteSize p.text) :
    Heads base f p (fileHead f p).2 := by
  let started : Pen := { p with atStart := true }
  have hstarted : started.offset = base + byteSize started.text := hp
  have hclause : Draws base false True (packageClause f) [f.name.piece] := draws_packageClause f
  refine ⟨fun ok => ?_, ?_, ?_, ?_, ?_⟩
  · obtain ⟨gs, hgs, _, hlead⟩ := (draws_fileFront ok f).leads started hstarted
    obtain ⟨_, _, hnone, hname⟩ := hclause.leads _ hlead.offset
    cases hnone rfl
    have hmark : Leads base ok _ [f.name.piece] _ _ := Draws.leads_mark hname .packageClause
      (x := f.tag.entry) nofun (fun _ => trivial) fun _ _ hrow => hrow
    have hall : Leads base ok _ [f.name.piece] started (fileHead f p).2 := hlead.trans hmark
    have hperm : Leads base ok (f.tag.entry :: f.name.entry :: groupEntries gs) _ _ _ :=
      hall.of_perm (List.perm_iff_count.2 fun e => by
        simp [Piece.entries, List.count_cons]
        omega)
    exact ⟨gs, hgs, hperm.text, hperm.offset, hperm.le, hperm.marks⟩
  · obtain ⟨_, _, _, hlead⟩ := (draws_fileFront True f).leads started hstarted
    obtain ⟨gs, hgs, hstrews⟩ := (draws_fileFront True f).strews started hstarted
    obtain ⟨_, _, _, hname⟩ := hclause.leads _ hlead.offset
    have hall : Strews (gs ++ []) started (fileHead f p).2 :=
      hstrews.trans ((Strews.none hname).mark [_])
    rw [List.append_nil] at hall
    exact ⟨gs, hgs, hall⟩
  · obtain ⟨_, _, _, hlead⟩ := (draws_fileFront True f).leads started hstarted
    exact ⟨_, offset_packageClause f hlead.offset, List.mem_cons_self⟩
  · exact (hclause.keeps _).lines.trans ((@draws_fileFront base True f).keeps started).lines
  · exact (hclause.keeps _).started (started_separate _ _ _)

end Draw

theorem Draws.fileRest (base : Nat) (ok : Prop) (f : SourceFile) : Draws base true ok (do
    Draw.setLastEnd (known? f.tag.span.stop)
    Draw.topDecls none f.decls
    Draw.flush Span.unknown 1) (f.decls.map TopDecl.piece) :=
  (Draws.setLastEnd _).pass fun _ => (Draws.topDecls none f.decls).followed fun _ => .flush _ 1

/-- Drawing a file marks the package clause, the declarations, and some of the comments. -/
theorem Draw.leads_fileBody {base : Nat} (ok : Prop) (f : SourceFile) (p : Pen)
    (hp : p.offset = base + byteSize p.text) :
    ∃ gs, p.comments = gs ++ (Draw.fileBody f p).2.comments ∧
      Leads base ok (f.tag.entry :: f.name.entry :: f.decls.flatMap TopDecl.entries ++ groupEntries gs)
        (f.name.piece :: f.decls.map TopDecl.piece) p (Draw.fileBody f p).2 := by
  obtain ⟨gs, hgs, hhead⟩ := (Draw.heads_fileHead f hp).leads ok
  obtain ⟨hs, hhs, _, hrest⟩ := (Draws.fileRest base ok f).leads _ hhead.offset
  refine ⟨gs ++ hs, ?_, (hhead.trans hrest).of_perm (List.perm_iff_count.2 fun e => ?_)⟩
  · rw [hgs, hhs, List.append_assoc]
    rfl
  · simp only [Piece.entriesAll_topDecls, groupEntries_append, List.cons_append, List.count_append,
      List.count_cons]
    omega

/-- The declarations of a file are drawn in a row behind its clause, which is not empty. -/
theorem Draw.row_fileBody {base : Nat} {f : SourceFile} {p : Pen}
    (hp : p.offset = base + byteSize p.text)
    (hw : AllWhole (f.decls.flatMap TopDecl.entries ++ groupEntries p.comments))
    {place : Tag → Span} (hplace : Places place (Draw.fileBody f p).2.marks) :
    (place f.tag).start < (place f.tag).stop ∧ Row place (fun _ => True) (place f.tag).stop
      (f.decls.map TopDecl.piece) (Draw.fileBody f p).2.offset := by
  have hhead := Draw.heads_fileHead f hp
  obtain ⟨gs, hgs, hlead⟩ := hhead.leads True
  obtain ⟨start, hstart, hclause⟩ := hhead.clause
  obtain ⟨hs, hhs, _, hrest⟩ := (Draws.fileRest base True f).leads _ hlead.offset
  obtain ⟨ms, hms, _, hcomplete⟩ := hrest.marks
  have hmarks : (Draw.fileBody f p).2.marks = ms ++ (Draw.fileHead f p).2.marks := hms
  have hwhole : AllWhole (Piece.entriesAll (f.decls.map TopDecl.piece) ++ groupEntries hs) := by
    rw [hgs, hhs, groupEntries_append, groupEntries_append] at hw
    simp only [allWhole_append, Piece.entriesAll_topDecls] at hw ⊢
    exact ⟨hw.1, hw.2.2.1⟩
  have hrow := (hcomplete trivial hwhole).2.2 place fun m hm => hplace m (by
    rw [hmarks]
    exact List.mem_append_left _ hm)
  have htag : place f.tag = ⟨start, (Draw.fileHead f p).2.offset⟩ := hplace _ (by
    rw [hmarks]
    exact List.mem_append_right _ hclause) f.tag rfl
  rw [htag]
  exact ⟨hstart, hrow⟩

/-- The comments of a file are drawn one behind the other. -/
theorem Draw.strews_fileBody {base : Nat} (f : SourceFile) (p : Pen)
    (hp : p.offset = base + byteSize p.text) :
    ∃ gs, p.comments = gs ++ (Draw.fileBody f p).2.comments ∧ Strews gs p (Draw.fileBody f p).2 := by
  have hhead := Draw.heads_fileHead f hp
  obtain ⟨gs, hgs, hstrews⟩ := hhead.strews
  obtain ⟨_, _, hlead⟩ := hhead.leads True
  obtain ⟨hs, hhs, krest⟩ := (Draws.fileRest base True f).strews _ hlead.offset
  refine ⟨gs ++ hs, ?_, hstrews.trans krest⟩
  rw [hgs, hhs, List.append_assoc]
  rfl

theorem Draw.steady_fileBody (f : SourceFile) : Steady (Draw.fileBody f) := by
  have hstart : Steady (modify fun p : Pen => { p with atStart := true }) :=
    fun p o ms => ⟨o, ms, rfl⟩
  have hclause : Steady (do
      let start ← Draw.offset
      Draw.packageClause f
      Draw.mark .packageClause f.tag.id start) :=
    SteadyFrom.offset (.bind (@Draw.draws_packageClause 0 f).steady fun _ => .mark _ _)
  exact hstart.bind fun _ => (@Draw.draws_fileFront 0 True f).steady.bind fun _ =>
    hclause.bind fun _ => (Draws.fileRest 0 True f).steady

/-- The pen before anything is drawn. -/
def Pen.fresh (lines : LineTable) (comments : List CommentGroup) (base : Nat) : Pen where
  lines := lines
  pieces := []
  marks := []
  offset := base
  comments := comments
  indent := 0
  sunk := false
  lastEnd := none
  atStart := false
  lastOp := none

namespace Drawing

variable {lines : LineTable} {comments : List CommentGroup} {base : Nat} {draw : Draw Unit}

theorem run_eq : run lines comments base draw =
    let pen := (draw (.fresh lines comments base)).2
    ⟨base, String.join pen.pieces.reverse, pen.marks.reverse, pen.comments⟩ := rfl

theorem toList_text_run :
    (run lines comments base draw).text.toList = (draw (.fresh lines comments base)).2.text := by
  rw [run_eq, String.toList_join]
  rfl

theorem reverse_marks_run :
    (run lines comments base draw).marks.reverse = (draw (.fresh lines comments base)).2.marks := by
  rw [run_eq, List.reverse_reverse]

theorem stop_run {k : Draw Unit} : (run lines comments base k).stop =
    base + byteSize (k (.fresh lines comments base)).2.text := by
  rw [stop, ← byteSize_toList, toList_text_run]
  rfl

end Drawing

end FuncLift
