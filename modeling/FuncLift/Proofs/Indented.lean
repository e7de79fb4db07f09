import FuncLift.Lift.Layout

/-!
# Indentation

Drawing goes deeper in one place and comes back in another: a closing delimiter lowers what its opening
one raised, a list goes deeper when it breaks a line for the first time, and a label steps back for its
own line. What a node does to the indentation it undoes, and it is never lowered where there is none.
-/
namespace FuncLift

/-- Drawing that begins at an indentation of `i` ends at one of `j`, which may hang on what is
returned, and does not lower the indentation where there is none. -/
def Draw.Indents {α : Type} (i : Nat) (m : Draw α) (j : α → Nat) : Prop :=
  ∀ p : Pen, p.indent = i → (m p).2.indent = j (m p).1 ∧ (m p).2.sunk = p.sunk

/-- Drawing that keeps the indentation, whatever it is, and does not lower it where there is none. -/
class Draw.Upholds {α : Type} (m : Draw α) : Prop where
  indents : ∀ i, Draw.Indents i m fun _ => i

open Draw (Indents Upholds)

namespace Draw.Indents

variable {α β : Type} {i n : Nat} {m : Draw α} {f : α → Draw β} {j : α → Nat} {l : β → Nat}

theorem bind (h : Indents i m j) (k : ∀ a, Indents (j a) (f a) l) : Indents i (m >>= f) l := by
  intro p hp
  obtain ⟨hindent, hsunk⟩ := h p hp
  obtain ⟨kindent, ksunk⟩ := k (m p).1 (m p).2 hindent
  exact ⟨kindent, ksunk.trans hsunk⟩

/-- A step that keeps the indentation. -/
theorem skip [h : Upholds m] (k : ∀ a, Indents i (f a) l) : Indents i (m >>= f) l :=
  (h.indents i).bind k

/-- A value that was already there. -/
theorem ret {a : α} (k : Indents i (f a) l) : Indents i (pure a >>= f) l := k

theorem get {f : Pen → Draw β} (k : ∀ p : Pen, p.indent = i → Indents i (f p) l) :
    Indents i (MonadState.get >>= f) l := fun p hp => k p hp p hp

theorem ite {c : Prop} [Decidable c] {m' : Draw α} (h : c → Indents i m j) (h' : ¬c → Indents i m' j) :
    Indents i (if c then m else m') j := by
  by_cases hc : c
  · rw [if_pos hc]
    exact h hc
  · rw [if_neg hc]
    exact h' hc

theorem more : Indents i Draw.indentMore fun _ => i + 1 := by
  intro p hp
  exact ⟨congrArg (· + 1) hp, rfl⟩

/-- One step back from a depth that there is. -/
theorem less : Indents (i + 1) Draw.indentLess fun _ => i := by
  intro p hp
  refine ⟨?_, ?_⟩
  · change p.indent - 1 = i
    omega
  · change (p.sunk || p.indent == 0) = p.sunk
    simp [hp]

theorem set : Indents i (modify fun p : Pen => { p with indent := n }) fun _ => n :=
  fun _ _ => ⟨rfl, rfl⟩

end Draw.Indents

namespace Draw.Upholds

variable {α β : Type} {m : Draw α} {f : α → Draw β}

/-- Drawing that does not look at the indentation. -/
theorem of_same (h : ∀ p, (m p).2.indent = p.indent) (h' : ∀ p, (m p).2.sunk = p.sunk) : Upholds m :=
  ⟨fun _ p hp => ⟨(h p).trans hp, h' p⟩⟩

theorem bind (h : Upholds m) (k : ∀ a, Upholds (f a)) : Upholds (m >>= f) :=
  ⟨fun i => (h.indents i).bind fun a => (k a).indents i⟩

theorem skip [h : Upholds m] (k : ∀ a, Upholds (f a)) : Upholds (m >>= f) := h.bind k

theorem get {f : Pen → Draw β} (k : ∀ p, Upholds (f p)) : Upholds (MonadState.get >>= f) :=
  ⟨fun i => .get fun p _ => (k p).indents i⟩

theorem ite {c : Prop} [Decidable c] {m' : Draw α} (h : Upholds m) (h' : Upholds m') :
    Upholds (if c then m else m') := ⟨fun i => .ite (fun _ => h.indents i) fun _ => h'.indents i⟩

/-- An action that need not be taken, and what comes after it. -/
theorem perhaps {c : Prop} [Decidable c] {m : Draw Unit} {k : Unit → Draw β} (h : Upholds m)
    (hk : Upholds (k ())) : Upholds (if c then m >>= k else k ()) := ite (h.bind fun _ => hk) hk

/-- Something drawn one step deeper. -/
theorem deeper {k : Draw β} (h : ∀ i, Indents (i + 1) m fun _ => i + 1) (hk : Upholds k) : Upholds (do
    Draw.indentMore
    let _ ← m
    Draw.indentLess
    k) :=
  ⟨fun i => Indents.more.bind fun _ => (h i).bind fun _ => Indents.less.bind fun _ => hk.indents i⟩

instance (a : α) : Upholds (pure a : Draw α) := of_same (fun _ => rfl) fun _ => rfl

instance : Upholds Draw.offset := of_same (fun _ => rfl) fun _ => rfl

instance (s : String) : Upholds (Draw.write s) := of_same (fun _ => rfl) fun _ => rfl

instance (s : String) : Upholds (Draw.text s) := of_same (fun _ => rfl) fun _ => rfl

instance (n : Nat) : Upholds (Draw.newlines n) := of_same (fun _ => rfl) fun _ => rfl

instance (e : Option Nat) : Upholds (Draw.setLastEnd e) := of_same (fun _ => rfl) fun _ => rfl

instance (o : Option String) : Upholds (Draw.setLastOp o) := of_same (fun _ => rfl) fun _ => rfl

instance (gs : List CommentGroup) : Upholds (Draw.setComments gs) :=
  of_same (fun _ => rfl) fun _ => rfl

instance (kind : MarkKind) (id start : Nat) : Upholds (Draw.mark kind id start) :=
  of_same (fun _ => rfl) fun _ => rfl

instance (form : Form) (t : Tag) (start : Nat) : Upholds (Draw.markNode form t start) :=
  of_same (fun _ => rfl) fun _ => rfl

instance (role : NameRole) (n : Name) : Upholds (Draw.name role n) :=
  of_same (fun _ => rfl) fun _ => rfl

instance (b : Bool) : Upholds (modify fun p : Pen => { p with atStart := b }) :=
  of_same (fun _ => rfl) fun _ => rfl

instance (next : Span) (least : Nat) : Upholds (Draw.separate next least) := by
  have hone (p : Pen) : (Draw.separate next least p).2.indent = p.indent ∧
      (Draw.separate next least p).2.sunk = p.sunk := by
    change ((if p.atStart = true then _ else _ : Draw Unit) p).2.indent = _ ∧
      ((if p.atStart = true then _ else _ : Draw Unit) p).2.sunk = _
    by_cases hstart : p.atStart = true
    · rw [if_pos hstart]
      exact ⟨rfl, rfl⟩
    · rw [if_neg hstart]
      exact ⟨rfl, rfl⟩
  exact of_same (fun p => (hone p).1) fun p => (hone p).2

instance names (ns : List Name) : Upholds (Draw.names ns) := by
  fun_induction Draw.names ns with
  | case1 => infer_instance
  | case2 n => infer_instance
  | case3 n ns _ ih => exact skip fun _ => skip fun _ => ih

instance (next : String) : Upholds (Draw.spaceIfCombines next) := by
  refine get fun p => ?_
  cases p.lastOp with
  | none => exact inferInstanceAs (Upholds (pure ()))
  | some before => exact ite inferInstance inferInstance

instance (s : String) : Upholds (Draw.operator s) := skip fun _ => skip fun _ => inferInstance

instance moreComments (last : Nat) (cs : List Comment) : Upholds (Draw.moreComments last cs) := by
  induction cs generalizing last with
  | nil => exact inferInstanceAs (Upholds (pure ()))
  | cons c cs ih =>
    refine get fun p => ?_
    extract_lets rest
    have hrest : Upholds (rest ()) := skip fun _ => skip fun _ => skip fun _ => ih _
    exact ite (skip fun _ => hrest) (skip fun _ => hrest)

instance (g : CommentGroup) (least : Nat) : Upholds (Draw.commentGroup g least) := by
  refine get fun p => ?_
  extract_lets rest
  have hrest : Upholds (rest ()) := by
    obtain ⟨t, cs⟩ := g
    cases cs with
    | nil => exact skip fun _ => skip fun _ => inferInstance
    | cons c cs =>
      exact skip fun _ => skip fun _ => skip fun _ => skip fun _ => skip fun _ => inferInstance
  exact ite (skip fun _ => hrest) (skip fun _ => hrest)

theorem flushFrom (limit least : Nat) (gs : List CommentGroup) :
    Upholds (Draw.flushFrom limit least gs) := by
  induction gs generalizing least with
  | nil => exact inferInstanceAs (Upholds (pure false))
  | cons g gs ih =>
    exact ite inferInstance (skip fun _ => skip fun _ => (ih 1).bind fun _ => inferInstance)

instance (limit least : Nat) : Upholds (Draw.flush limit least) := get fun _ => flushFrom limit least _

theorem flushTrailingFrom (gs : List CommentGroup) : Upholds (Draw.flushTrailingFrom gs) := by
  induction gs with
  | nil => exact inferInstanceAs (Upholds (pure ()))
  | cons g gs ih => exact get fun p => ite (skip fun _ => skip fun _ => ih) inferInstance

instance : Upholds Draw.flushTrailing := get fun _ => flushTrailingFrom _

instance inlineGroup (cs : List Comment) : Upholds (Draw.inlineGroup cs) := by
  induction cs with
  | nil => exact inferInstanceAs (Upholds (pure ()))
  | cons c cs ih =>
    cases cs with
    | nil => exact skip fun _ => skip fun _ => inferInstance
    | cons d cs => exact skip fun _ => skip fun _ => skip fun _ => skip fun _ => ih

theorem inlineFrom (span : Span) (gs : List CommentGroup) : Upholds (Draw.inlineFrom span gs) := by
  induction gs with
  | nil => exact inferInstanceAs (Upholds (pure ()))
  | cons g gs ih =>
    exact get fun p => ite (skip fun _ => skip fun _ => skip fun _ => skip fun _ => skip fun _ => ih)
      inferInstance

instance (span : Span) : Upholds (Draw.inlineComments span) :=
  ite inferInstance (get fun _ => inlineFrom span _)

instance (span : Span) (least : Nat) : Upholds (Draw.beforeItem span least) :=
  ite (skip fun _ => inferInstance) (skip fun _ => inferInstance)

instance (span : Span) (least : Nat) : Upholds (Draw.itemBreak span least) :=
  skip fun _ => inferInstance

instance (first : Bool) (span : Span) : Upholds (Draw.groupBreak first span) :=
  ite inferInstance (ite (skip fun _ => ite inferInstance inferInstance) inferInstance)

end Draw.Upholds

namespace Draw.Indents

/-- A closing delimiter steps back to where its opening one stood. -/
theorem close (i : Nat) (span : Span) (delim : String) :
    Indents (i + 1) (Draw.close span delim true) fun _ => i :=
  skip fun _ => less.bind fun _ => skip fun _ => Upholds.indents i

theorem closeGroup (i : Nat) (span : Span) (delim : String) :
    Indents (i + 1) (Draw.closeGroup span delim) fun _ => i :=
  skip fun _ => less.bind fun _ => skip fun _ => Upholds.indents i

/-- The depth of a list, whose lines go one step deeper once one of them was broken. -/
def ofList (i : Nat) (s : Draw.ListState) : Nat := if s.broken then i + 1 else i

theorem breakOnce (i : Nat) (s : Draw.ListState) :
    Indents (ofList i s) (Draw.breakOnce s) (ofList i) := by
  obtain ⟨line, broken⟩ := s
  cases broken with
  | false => exact more.bind fun _ => Upholds.indents (m := pure _) (i + 1)
  | true => exact Upholds.indents (m := pure _) (i + 1)

end Draw.Indents

/-- Items that keep the indentation. -/
def Draw.UpholdsItems (items : List Draw.Item) : Prop := ∀ x ∈ items, Upholds x.draw

open Draw (UpholdsItems)

namespace Draw.UpholdsItems

variable {items : List Draw.Item}

theorem nil : UpholdsItems [] := by simp [UpholdsItems]

theorem cons {x : Draw.Item} (hx : Upholds x.draw) (h : UpholdsItems items) :
    UpholdsItems (x :: items) := List.forall_mem_cons.2 ⟨hx, h⟩

/-- Statements stand one step deeper than something, so a label can step back. -/
theorem stmtLines (h : UpholdsItems items) (i : Nat) :
    Indents (i + 1) (Draw.stmtLines items) fun _ => i + 1 := by
  induction items with
  | nil => exact Upholds.indents (m := pure ()) (i + 1)
  | cons x xs ih =>
    obtain ⟨hx, hxs⟩ := List.forall_mem_cons.1 h
    refine .skip fun least => .get fun p hp => ?_
    have hrest (n : Nat) : Indents n (do
        Draw.separate x.span least
        modify fun q : Pen => { q with indent := p.indent }
        x.draw
        Draw.setLastEnd (known? x.span.stop)
        Draw.stmtLines xs) fun _ => i + 1 := by
      rw [hp]
      exact .skip fun _ => Indents.set.bind fun _ => (hx.indents (i + 1)).bind fun _ =>
        .skip fun _ => ih hxs
    exact .ite (fun _ => Indents.less.bind fun _ => hrest i) fun _ => hrest (i + 1)

theorem joined (h : UpholdsItems items) (sep : String) : Upholds (Draw.joined sep items) := by
  induction items with
  | nil => exact inferInstanceAs (Upholds (pure ()))
  | cons x xs ih =>
    obtain ⟨hx, hxs⟩ := List.forall_mem_cons.1 h
    cases xs with
    | nil => exact hx
    | cons y ys => exact hx.bind fun _ => .skip fun _ => ih hxs

theorem clauseLines (h : UpholdsItems items) : Upholds (Draw.clauseLines items) := by
  induction items with
  | nil => exact inferInstanceAs (Upholds (pure ()))
  | cons x xs ih =>
    obtain ⟨hx, hxs⟩ := List.forall_mem_cons.1 h
    exact .skip fun _ => hx.bind fun _ => .skip fun _ => ih hxs

theorem groupLines (h : UpholdsItems items) (first : Bool) : Upholds (Draw.groupLines first items) := by
  induction items generalizing first with
  | nil => exact inferInstanceAs (Upholds (pure ()))
  | cons x xs ih =>
    obtain ⟨hx, hxs⟩ := List.forall_mem_cons.1 h
    exact .skip fun _ => hx.bind fun _ => .skip fun _ => ih hxs false

theorem clauseBody (h : UpholdsItems items) (span : Span) : Upholds (Draw.clauseBody span items) :=
  .skip fun _ => .skip fun _ => h.clauseLines.bind fun _ => .skip fun _ =>
    .skip fun _ => inferInstance

/-- A group whose items stand one step deeper than its delimiters. -/
theorem group (h : UpholdsItems items) (span : Span) (delim : String) : Upholds (do
    Draw.indentMore
    Draw.groupLines true items
    Draw.closeGroup span delim) :=
  ⟨fun i => Indents.more.bind fun _ => ((h.groupLines true).indents (i + 1)).bind fun _ =>
    Indents.closeGroup i span delim⟩

theorem listItems (h : UpholdsItems items) (tail : String) (first : Bool) (i : Nat)
    (s : Draw.ListState) : Indents (Indents.ofList i s) (Draw.listItems tail first s items)
      (Indents.ofList i) := by
  induction items generalizing first s with
  | nil => exact Upholds.indents (m := pure s) (Indents.ofList i s)
  | cons x xs ih =>
    obtain ⟨hx, hxs⟩ := List.forall_mem_cons.1 h
    rw [Draw.listItems]
    extract_lets item plain
    have hitem (s : Draw.ListState) : Indents (Indents.ofList i s) (item s) (Indents.ofList i) := by
      have hlast : Indents (Indents.ofList i s) (do
          let p ← get
          if (known? x.span.stop).isSome = true then Draw.setLastEnd (some x.span.stop)
          Draw.listItems tail false { s with line := p.lineAt? x.span.stop } xs)
          (Indents.ofList i) := by
        refine .get fun p _ => .ite (fun _ => .skip fun _ => ?_) fun _ => ?_
        · exact ih hxs false { s with line := p.lineAt? x.span.stop }
        · exact ih hxs false { s with line := p.lineAt? x.span.stop }
      exact (hx.indents _).bind fun _ => .ite (fun _ => .skip fun _ => hlast) fun _ => hlast
    have hspace : Indents (Indents.ofList i s) (plain ()) (Indents.ofList i) := .ret (hitem s)
    have hbreak : Indents (Indents.ofList i s) (do
        let p ← get
        if Draw.laterLine s.line (p.lineAt? x.span.start) = true then do
          let s ← Draw.breakOnce s
          Draw.itemBreak x.span 1
          let s ← pure s
          item s
        else if first = true then plain ()
        else do
          let r ← Draw.text " "
          plain r) (Indents.ofList i) := by
      refine .get fun p _ => .ite (fun _ => ?_) fun _ => .ite (fun _ => hspace) fun _ =>
        .skip fun _ => hspace
      exact (Indents.breakOnce i s).bind fun s => .skip fun _ => .ret (hitem s)
    exact .ite (fun _ => hbreak) fun _ => .skip fun _ => hbreak

theorem list (h : UpholdsItems items) (opening : Nat) (closing : Span) (tail : String) :
    Upholds (Draw.list opening items closing tail) := by
  refine .get fun p => ?_
  extract_lets line rest
  have hend (closes : Bool) (i : Nat) (s : Draw.ListState) : Indents (Indents.ofList i s) (do
      if s.broken then Draw.indentLess
      if closes then Draw.newlines 1) fun _ => i := by
    have hbehind : Indents i (if closes then Draw.newlines 1 else pure ()) fun _ => i :=
      .ite (fun _ => Upholds.indents i) fun _ => Upholds.indents i
    obtain ⟨line, broken⟩ := s
    cases broken with
    | false => exact hbehind
    | true => exact Indents.less.bind fun _ => hbehind
  have hlist (i : Nat) : Indents i (rest ()) fun _ => i := by
    refine (h.listItems tail true i ⟨line, false⟩).bind fun s => .get fun q _ => ?_
    refine .ite (fun _ => .skip fun _ => ?_) fun _ => .ret (hend _ i s)
    exact (Indents.breakOnce i s).bind fun s => .skip fun _ => .ret (hend _ i s)
  exact .ite (.skip fun _ => ⟨hlist⟩) ⟨hlist⟩

theorem params (h : UpholdsItems items) (opening : Nat) (closing : Span) :
    Upholds (Draw.params opening items closing) :=
  .skip fun _ => (h.list _ _ _).bind fun _ => inferInstance

end Draw.UpholdsItems

namespace Draw.Upholds

/-- What is drawn and then marked. -/
theorem marking {content : Draw Unit} (h : Upholds content) (form : Form) (t : Tag) : Upholds (do
    let start ← Draw.offset
    content
    Draw.markNode form t start) := skip fun _ => h.bind fun _ => inferInstance

instance : Upholds ((none : Option (Draw Unit)).getD (pure ())) := inferInstanceAs (Upholds (pure ()))

theorem blockLines {items : List Draw.Item} (h : UpholdsItems items) (t : Tag) :
    Upholds (Draw.blockLines t items) :=
  skip fun _ => skip fun _ => skip fun _ => ⟨fun i => Indents.more.bind fun _ =>
    (h.stmtLines i).bind fun _ => (Indents.close i t.span _).bind fun _ => Upholds.indents i⟩

theorem blockOnOneLine {items : List Draw.Item} (h : UpholdsItems items) (t : Tag) :
    Upholds (Draw.blockOnOneLine t items) := by
  refine skip fun _ => skip fun _ => ?_
  extract_lets rest
  have hrest : Upholds (rest ()) := skip fun _ => skip fun _ => inferInstance
  exact ite hrest (skip fun _ => (h.joined _).bind fun _ => skip fun _ => hrest)

theorem marked {content : Draw Unit} (h : Upholds content) (dropped : Option (List Tag)) (form : Form)
    (t : Tag) (sign : Option String) : Upholds (Draw.marked dropped form t sign content) := by
  have hmarks (outer : Nat) (ts : List Tag) :
      Upholds (ts.forM fun t => Draw.markNode .paren t outer : Draw Unit) := by
    induction ts with
    | nil => exact inferInstanceAs (Upholds (pure ()))
    | cons t ts ih => exact skip fun _ => ih
  refine skip fun outer => skip fun _ => ?_
  have hrest : Upholds (do
      let start ← Draw.offset
      content
      Draw.markNode form t start
      (dropped.getD []).forM fun t => Draw.markNode .paren t outer) :=
    skip fun _ => h.bind fun _ => skip fun _ => hmarks _ _
  cases sign with
  | none => exact hrest
  | some s => exact skip fun _ => hrest

/-- Something that may be left out, and what follows it. -/
theorem given {x : Option (Draw Unit)} {k : Unit → Draw Unit} (h : Upholds (x.getD (pure ())))
    (hk : Upholds (k ())) : Upholds (match x with
      | some m => m >>= k
      | none => pure ()) := by
  cases x with
  | none => exact h
  | some m => exact h.bind fun _ => hk

theorem header {isFor : Bool} {init cond post : Option (Draw Unit)}
    (hinit : Upholds (init.getD (pure ()))) (hcond : Upholds (cond.getD (pure ())))
    (hpost : Upholds (post.getD (pure ()))) :
    Upholds (Draw.header isFor init cond post) := by
  refine skip fun _ => ite (given hcond inferInstance) ?_
  refine hinit.bind fun _ => skip fun _ => hcond.bind fun _ => ite ?_ ?_
  · exact skip fun _ => given hpost inferInstance
  · exact ite inferInstance inferInstance

theorem sliceBounds {xs : List (Option (Draw Unit))} (h : ∀ x ∈ xs, Upholds (x.getD (pure ())))
    (blanks before : Bool) : Upholds (Draw.sliceBounds blanks before xs) := by
  induction xs generalizing before with
  | nil => exact inferInstanceAs (Upholds (pure ()))
  | cons x xs ih =>
    obtain ⟨hx, hxs⟩ := List.forall_mem_cons.1 h
    have hcolon {bound : Draw Unit} (hbound : Upholds bound) :
        Upholds (do Draw.text ":"; bound; Draw.sliceBounds blanks x.isSome xs) :=
      skip fun _ => hbound.bind fun _ => ih hxs _
    cases x with
    | none => exact perhaps (k := fun _ => do Draw.text ":"; _) inferInstance (hcolon hx)
    | some m =>
      have hm : Upholds (if blanks = true then Draw.text " " >>= fun _ => m else m) :=
        perhaps (k := fun _ => m) inferInstance hx
      have hall := hcolon hm
      cases blanks <;> exact perhaps (k := fun _ => do Draw.text ":"; _) inferInstance hall

theorem fieldBlock {items : List Draw.Item} (h : UpholdsItems items) (keyword : String) (span : Span)
    (fields : List Field) : Upholds (Draw.typeExpr.fieldBlock keyword span fields items) := by
  refine get fun p => skip fun _ => ite ?_ ?_
  · cases items with
    | nil => exact inferInstance
    | cons x xs => exact skip fun _ => (h x List.mem_cons_self).bind fun _ => inferInstance
  · exact skip fun _ => skip fun _ => h.group _ _

theorem parensOf {nested : Bool} {bare inner : Draw Unit} (hbare : Upholds bare)
    (hinner : Upholds inner) : Upholds (Draw.expr.parens nested bare inner) :=
  ite hbare (skip fun _ => hinner.bind fun _ => inferInstance)

theorem ofSignature {t : Tag} {fs rs : List Field} (hparams : UpholdsItems (Draw.fieldItems fs))
    (hresults : UpholdsItems (Draw.fieldItems rs)) : Upholds (Draw.signature ⟨t, fs, rs⟩) := by
  rw [Draw.signature]
  refine skip fun start => (hparams.params _ _).bind fun _ => ?_
  split
  · exact inferInstanceAs (Upholds (Draw.markNode .signature t start))
  · exact skip fun _ => (hresults.joined "").bind fun _ => inferInstance
  · exact skip fun _ => (hresults.params _ _).bind fun _ => inferInstance

theorem ofMethod {t : Tag} {ns : List Name} {type : TypeExpr} {variadic : Bool} {label : Option String}
    (htype : Upholds (Draw.typeExpr type))
    (hsig : ∀ ft sig, type = .func ft sig → Upholds (Draw.signature sig)) :
    Upholds (Draw.method ⟨t, ns, type, variadic, label⟩) := by
  have hbare := marking htype .field t
  match ns, type with
  | [n], .func ft sig =>
    have hmethod : Upholds (do
        let start ← Draw.offset
        Draw.name .list n
        let typeStart ← Draw.offset
        Draw.signature sig
        Draw.markNode .type ft typeStart
        Draw.markNode .field t start) :=
      skip fun _ => skip fun _ => skip fun _ =>
        (hsig ft sig rfl).bind fun _ => skip fun _ => inferInstance
    exact hmethod
  | [], _ | _ :: _ :: _, _ | [_], .named .. | [_], .pointer .. | [_], .slice .. | [_], .array ..
  | [_], .map .. | [_], .chan .. | [_], .struct .. | [_], .interface .. => exact hbare

mutual

theorem expr (dropped : Option (List Tag)) (depth : Nat) :
    ∀ e : Expr, Upholds (Draw.expr dropped depth e)
  | .ident t n => marked inferInstance dropped .ident t none
  | .lit t k x => marked inferInstance dropped .lit t none
  | .funcLit t sig b =>
    marked (skip fun _ => (signature sig).bind fun _ => body t.span b) dropped .funcLit t none
  | .composite t type elems => marked ((typeOption type).bind fun _ => skip fun _ =>
      ((elementItems elems).list _ _ _).bind fun _ => inferInstance) dropped .composite t none
  | .paren t e => by
    have hin (depth : Nat) : Upholds (Draw.expr none depth e) := expr none depth e
    cases dropped with
    | none => exact marked (parensOf (hin _) (hin _)) none .paren t none
    | some ts => exact ite (marked (parensOf (hin _) (hin _)) (some ts) .paren t none) (expr _ depth e)
  | .selector t e sel =>
    marked ((expr none depth e).bind fun _ => skip fun _ => inferInstance) dropped .selector t none
  | .index t e i => marked ((expr none 1 e).bind fun _ => skip fun _ =>
      (expr none (depth + 1) i).bind fun _ => inferInstance) dropped .index t none
  | .slice t e lo hi max => by
    refine marked ((expr none 1 e).bind fun _ => skip fun _ => (exprOption none (depth + 1) lo).bind
      fun _ => (sliceBounds ?_ _ _).bind fun _ => inferInstance) dropped .slice t none
    have hupper := exprOption none (depth + 1) hi
    have hmost := exprOption none (depth + 1) max
    cases max with
    | none => exact List.forall_mem_singleton.2 hupper
    | some max => exact List.forall_mem_cons.2 ⟨hupper, List.forall_mem_singleton.2 hmost⟩
  | .assert t e type => by
    refine marked ((expr none 1 e).bind fun _ => skip fun _ => ?_) dropped .assert t none
    have htype := typeOption type
    cases type with
    | none => exact skip fun _ => inferInstance
    | some type => exact htype.bind fun _ => inferInstance
  | .call t callee args spread => marked ((expr none _ callee).bind fun _ => skip fun _ =>
      ((exprItems _ args).list _ _ _).bind fun _ => inferInstance) dropped .call t none
  | .unary t op e => marked (skip fun _ => expr none _ e) dropped .unary t _
  | .binary t l op r => by
    have hright : Upholds (Draw.expr none (depth + 1) r) := expr none _ r
    refine marked ((expr none _ l).bind fun _ => perhaps inferInstance ?_) dropped .binary t none
    refine skip fun _ => get fun p => ?_
    split
    · refine ite ?_ (perhaps inferInstance hright)
      exact ⟨fun i => Indents.more.bind fun _ => .skip fun _ => (hright.indents (i + 1)).bind fun _ =>
        Indents.less⟩
    · exact perhaps inferInstance hright
  | .type t type => marked (typeExpr type) dropped .typeOperand t none

theorem exprOption (dropped : Option (List Tag)) (depth : Nat) :
    ∀ e : Option Expr, Upholds ((Draw.exprOption dropped depth e).getD (pure ()))
  | none => inferInstanceAs (Upholds (pure ()))
  | some e => expr dropped depth e

theorem exprItems (depth : Nat) : ∀ es : List Expr, UpholdsItems (Draw.exprItems depth es)
  | [] => .nil
  | e :: es => .cons (expr none depth e) (exprItems depth es)

theorem element : ∀ e : Element, Upholds (Draw.element e)
  | ⟨key, value⟩ => by
    have hkey := exprOption none 1 key
    cases key with
    | none => exact expr none 1 value
    | some key => exact hkey.bind fun _ => skip fun _ => expr none 1 value

theorem elementItems : ∀ es : List Element, UpholdsItems (Draw.elementItems es)
  | [] => .nil
  | e :: es => .cons (element e) (elementItems es)

theorem typeExpr : ∀ t : TypeExpr, Upholds (Draw.typeExpr t)
  | .named t pkg n => by
    refine marking ?_ .type t
    cases pkg with
    | none => exact inferInstanceAs (Upholds (Draw.text n))
    | some pkg => exact skip fun _ => skip fun _ => inferInstance
  | .pointer t e => marking (skip fun _ => typeExpr e) .type t
  | .slice t e => marking (skip fun _ => typeExpr e) .type t
  | .array t len e => by
    have hlen := exprOption none 1 len
    refine marking (skip fun _ => ?_) .type t
    cases len with
    | none => exact skip (m := Draw.text "...") fun _ => skip fun _ => typeExpr e
    | some len => exact hlen.bind fun _ => skip fun _ => typeExpr e
  | .map t k v => marking (skip fun _ => (typeExpr k).bind fun _ => skip fun _ => typeExpr v) .type t
  | .chan t dir e => marking (skip fun _ => typeExpr e) .type t
  | .func t sig => marking (skip fun _ => signature sig) .type t
  | .struct t fs => marking (fieldBlock (fieldItems fs) _ _ _) .type t
  | .interface t ms => marking (fieldBlock (methodItems ms) _ _ _) .type t

theorem typeOption : ∀ t : Option TypeExpr, Upholds (Draw.typeOption t)
  | none => of_same (fun _ => rfl) fun _ => rfl
  | some t => typeExpr t

theorem typeItems : ∀ ts : List TypeExpr, UpholdsItems (Draw.typeItems ts)
  | [] => .nil
  | t :: ts => .cons (typeExpr t) (typeItems ts)

theorem field : ∀ f : Field, Upholds (Draw.field f)
  | ⟨t, ns, type, variadic, label⟩ => by
    refine skip fun start => skip fun _ => ?_
    have hlabel : Upholds (do
        Draw.typeExpr type
        match label with
        | some l => do
          Draw.text " "
          Draw.text l
          Draw.markNode .field t start
        | none => Draw.markNode .field t start) := by
      refine (typeExpr type).bind fun _ => ?_
      cases label with
      | none => exact inferInstanceAs (Upholds (Draw.markNode .field t start))
      | some l => exact skip fun _ => skip fun _ => inferInstance
    cases ns <;> cases variadic
    · exact hlabel
    · exact skip fun _ => hlabel
    · exact skip fun _ => hlabel
    · exact skip fun _ => skip fun _ => hlabel

theorem fieldItems : ∀ fs : List Field, UpholdsItems (Draw.fieldItems fs)
  | [] => .nil
  | f :: fs => .cons (field f) (fieldItems fs)

theorem method : ∀ f : Field, Upholds (Draw.method f)
  | ⟨t, ns, type, variadic, label⟩ => by
    have htype : Upholds (Draw.typeExpr type) := typeExpr type
    cases type with
    | func ft sig =>
      refine ofMethod htype ?_
      rintro _ _ ⟨⟩
      exact signature sig
    | _ => exact ofMethod htype nofun

theorem methodItems : ∀ fs : List Field, UpholdsItems (Draw.methodItems fs)
  | [] => .nil
  | f :: fs => .cons (method f) (methodItems fs)

theorem signature : ∀ s : Signature, Upholds (Draw.signature s)
  | ⟨_, ps, rs⟩ => ofSignature (fieldItems ps) (fieldItems rs)

theorem body (outer : Span) : ∀ b : Block, Upholds (Draw.body outer b)
  | ⟨t, ss⟩ => skip fun _ => get fun _ => ite (blockOnOneLine (stmtItems ss) t)
      (blockLines (stmtItems ss) t)

theorem block : ∀ b : Block, Upholds (Draw.block b)
  | ⟨t, ss⟩ => blockLines (stmtItems ss) t

theorem simple : ∀ s : Simple, Upholds (Draw.simple s)
  | .expr t e => marking (expr none 1 e) .exprSimple t
  | .send _ c v => skip fun _ => (expr none 1 c).bind fun _ => skip fun _ =>
      (expr none 1 v).bind fun _ => inferInstance
  | .step _ e _ => skip fun _ => (expr none 2 e).bind fun _ => skip fun _ => inferInstance
  | .assign _ l _ r => skip fun _ => ((exprItems _ l).list _ _ _).bind fun _ => skip fun _ =>
      skip fun _ => skip fun _ => ((exprItems _ r).list _ _ _).bind fun _ => inferInstance
  | .define _ _ vs => skip fun _ => skip fun _ => skip fun _ =>
      ((exprItems _ vs).list _ _ _).bind fun _ => inferInstance

theorem simpleOption : ∀ s : Option Simple, Upholds ((Draw.simpleOption s).getD (pure ()))
  | none => inferInstanceAs (Upholds (pure ()))
  | some s => simple s

theorem stmt : ∀ s : Stmt, Upholds (Draw.stmt s)
  | .simple t s => marking (simple s) .simpleStmt t
  | .decl t d => marking (decl d) .declStmt t
  | .labeled t n s => marking (skip fun _ => skip fun _ => skip fun _ => skip fun _ => stmt s)
      .labeledStmt t
  | .go t e => marking (skip fun _ => expr none 1 e) .goStmt t
  | .defer t e => marking (skip fun _ => expr none 1 e) .deferStmt t
  | .ret t es => by
    have hvalues := exprItems 1 es
    refine marking (skip fun _ => ?_) .returnStmt t
    cases es with
    | nil => exact inferInstanceAs (Upholds (pure ()))
    | cons e es => exact skip fun _ => hvalues.list _ _ _
  | .branch t kind n => by
    refine marking (skip fun _ => ?_) .branchStmt t
    cases n with
    | none => exact inferInstanceAs (Upholds (pure ()))
    | some n => exact skip fun _ => inferInstanceAs (Upholds (Draw.name .label n))
  | .block t b => marking (block b) .blockStmt t
  | .ifElse t init cond yes no => by
    have hhead : Upholds (Draw.header false (Draw.simpleOption init)
        (Draw.exprOption (some []) 1 (some cond)) none) :=
      header (simpleOption init) (expr (some []) 1 cond) inferInstance
    have helse := stmtOption no
    refine marking (skip fun _ => hhead.bind fun _ => (block yes).bind fun _ => ?_) .ifStmt t
    cases no with
    | none => exact inferInstanceAs (Upholds (pure ()))
    | some s => exact skip fun _ => helse
  | .loop t head b => marking (skip fun _ => (loopHead head).bind fun _ => block b) .forStmt t
  | .switch t init subject cs => by
    have hhead : Upholds (Draw.header false (Draw.simpleOption init)
        (Draw.exprOption (some []) 1 subject) none) :=
      header (simpleOption init) (exprOption (some []) 1 subject) inferInstance
    exact marking (skip fun _ => hhead.bind fun _ => (clauseItems cs).clauseBody _) .switchStmt t
  | .typeSwitch t init bind guard cs => by
    have hfirst := simpleOption init
    have hrest : Upholds (do
        Draw.expr none 1 guard
        Draw.text " "
        Draw.clauseBody t.span (Draw.clauseItems cs)) :=
      (expr none 1 guard).bind fun _ => skip fun _ => (clauseItems cs).clauseBody _
    refine marking (skip fun _ => ?_) .typeSwitchStmt t
    cases init with
    | none =>
      cases bind with
      | none => exact hrest
      | some n => exact skip fun _ => skip fun _ => hrest
    | some s =>
      cases bind with
      | none => exact hfirst.bind fun _ => skip fun _ => hrest
      | some n => exact hfirst.bind fun _ => skip fun _ => skip fun _ => skip fun _ => hrest
  | .select t cs => marking (skip fun _ => get fun _ => ite inferInstance
      ((commItems cs).clauseBody _)) .selectStmt t

theorem stmtOption : ∀ s : Option Stmt, Upholds ((Draw.stmtOption s).getD (pure ()))
  | none => inferInstanceAs (Upholds (pure ()))
  | some s => stmt s

theorem stmtItems : ∀ ss : List Stmt, UpholdsItems (Draw.stmtItems ss)
  | [] => .nil
  | s :: ss => .cons (stmt s) (stmtItems ss)

theorem loopHead : ∀ x : LoopHead, Upholds (Draw.loopHead x)
  | .forever => @header true none none none inferInstance inferInstance inferInstance
  | .cond e => @header true none (Draw.exprOption (some []) 1 (some e)) none inferInstance
      (expr (some []) 1 e) inferInstance
  | .clause init cond post =>
    header (simpleOption init) (exprOption (some []) 1 cond) (simpleOption post)
  | .range key value define e => by
    have hkey := exprOption none 1 key
    have hvalue := exprOption none 1 value
    have hrange : Upholds (do
        Draw.text "range "
        Draw.expr (some []) 1 e
        Draw.text " ") := skip fun _ => (expr (some []) 1 e).bind fun _ => inferInstance
    refine skip fun _ => ?_
    cases key with
    | none => exact hrange
    | some key =>
      cases value with
      | none => exact hkey.bind fun _ => skip fun _ => hrange
      | some value => exact hkey.bind fun _ => skip fun _ => hvalue.bind fun _ => skip fun _ => hrange

theorem cases (start : Nat) : ∀ x : Cases, Upholds (Draw.cases start x)
  | .default => inferInstanceAs (Upholds (Draw.text "default"))
  | .exprs es => skip fun _ => (exprItems 1 es).list _ _ _
  | .types ts => skip fun _ => (typeItems ts).list _ _ _

theorem clause : ∀ c : Clause, Upholds (Draw.clause c)
  | ⟨_, cs, ss⟩ => skip fun _ => skip fun _ => (cases _ cs).bind fun _ => skip fun _ =>
      deeper (stmtItems ss).stmtLines inferInstance

theorem clauseItems : ∀ cs : List Clause, UpholdsItems (Draw.clauseItems cs)
  | [] => .nil
  | c :: cs => .cons (clause c) (clauseItems cs)

theorem comm : ∀ c : Comm, Upholds (Draw.comm c)
  | ⟨t, guard, ss⟩ => by
    have hguard := simpleOption guard
    have hrest (start : Nat) : Upholds (do
        Draw.text ":"
        Draw.indentMore
        Draw.stmtLines (Draw.stmtItems ss)
        Draw.indentLess
        Draw.markNode .comm t start) := skip fun _ => deeper (stmtItems ss).stmtLines inferInstance
    refine skip fun _ => skip fun _ => ?_
    cases guard with
    | none => exact skip fun _ => hrest _
    | some s => exact skip fun _ => hguard.bind fun _ => skip fun _ => hrest _

theorem commItems : ∀ cs : List Comm, UpholdsItems (Draw.commItems cs)
  | [] => .nil
  | c :: cs => .cons (comm c) (commItems cs)

theorem decl : ∀ d : Decl, Upholds (Draw.decl d)
  | ⟨t, kind, grouped, ss⟩ => by
    have hitems := specItems ss
    refine skip fun start => skip fun _ => skip fun _ => ?_
    cases grouped <;> cases ss
    · exact inferInstanceAs (Upholds (Draw.markNode .decl t start))
    · exact (hitems _ List.mem_cons_self).bind fun _ => inferInstance
    · exact skip fun _ => inferInstance
    · refine skip fun _ => skip fun _ => ?_
      exact ⟨fun i => Indents.more.bind fun _ =>
        ((hitems.groupLines true).indents (i + 1)).bind fun _ =>
          (Indents.closeGroup i t.span _).bind fun _ => Upholds.indents i⟩

theorem spec : ∀ s : Spec, Upholds (Draw.spec s)
  | .imports t none path => marking inferInstance .importSpec t
  | .imports t (some n) path => skip fun _ => skip fun _ => skip fun _ => skip fun _ => inferInstance
  | .values t ns type vs => by
    have hvalues := exprItems 1 vs
    refine skip fun start => skip fun _ => perhaps inferInstance ((typeOption type).bind fun _ => ?_)
    cases vs with
    | nil => exact inferInstanceAs (Upholds (Draw.markNode .valueSpec t start))
    | cons v vs => exact skip fun _ => (hvalues.list _ _ _).bind fun _ => inferInstance
  | .type t n isAlias type => skip fun _ => skip fun _ => skip fun _ =>
      (typeExpr type).bind fun _ => inferInstance

theorem specItems : ∀ ss : List Spec, UpholdsItems (Draw.specItems ss)
  | [] => .nil
  | s :: ss => .cons (spec s) (specItems ss)

end

theorem func (f : FuncDecl) : Upholds (Draw.func f) := by
  obtain ⟨t, recv, n, sig, b⟩ := f
  refine skip fun start => skip fun _ => ?_
  have hrest : Upholds (do
      Draw.name .func n
      Draw.signature sig
      b.elim (Draw.markNode .func t start) fun b => do
        Draw.body t.span b
        Draw.markNode .func t start) := by
    refine skip fun _ => (signature sig).bind fun _ => ?_
    cases b with
    | none => exact inferInstanceAs (Upholds (Draw.markNode .func t start))
    | some b => exact (body t.span b).bind fun _ => inferInstance
  cases recv with
  | none => cases b <;> exact hrest
  | some r => cases b <;> exact skip fun _ => (field r).bind fun _ => skip fun _ => hrest

theorem topDecl : ∀ d : TopDecl, Upholds (Draw.topDecl d)
  | .decl d => decl d
  | .func f => func f

theorem topDecls (last : Option (Option DeclKind)) (ds : List TopDecl) :
    Upholds (Draw.topDecls last ds) := by
  induction ds generalizing last with
  | nil => exact inferInstanceAs (Upholds (pure ()))
  | cons d ds ih => exact get fun _ => skip fun _ => (topDecl d).bind fun _ => skip fun _ => ih _

theorem sourceFile (f : SourceFile) : Upholds (Draw.sourceFile f) :=
  skip fun _ => skip fun _ => skip fun _ => skip fun _ => skip fun _ => skip fun _ => skip fun _ =>
    skip fun _ => (topDecls none f.decls).bind fun _ => skip fun _ => inferInstance

end Draw.Upholds

/-- What the surroundings of a node have to do with how it is drawn. -/
structure Manner where
  /-- The parentheses left out around an expression of a header. -/
  dropped : Option (List Tag)
  depth : Nat
  /-- The function whose body a block is. -/
  outer : Option Span
  /-- A field that is a member of an interface. -/
  member : Bool
  /-- Comments in front of an operand on its line. -/
  inline : Bool
  least : Nat

/-- Draws a node by itself, in the manner of its surroundings. -/
def Node.draw (w : Manner) : Node → Draw Unit
  | .decl d => Draw.decl d
  | .spec s => Draw.spec s
  | .func f => Draw.func f
  | .signature s => Draw.signature s
  | .field f => if w.member then Draw.method f else Draw.field f
  | .block b => match w.outer with
    | none => Draw.block b
    | some outer => Draw.body outer b
  | .stmt s => Draw.stmt s
  | .simple s => Draw.simple s
  | .expr e => Draw.expr w.dropped w.depth e
  | .type t => Draw.typeExpr t
  | .clause c => Draw.clause c
  | .comm c => Draw.comm c
  | .comment c => Draw.inlineGroup [c]
  | .commentGroup g => if w.inline then Draw.inlineGroup g.comments else Draw.commentGroup g w.least

theorem Draw.Upholds.node (w : Manner) : ∀ n : Node, Upholds (n.draw w)
  | .decl d => decl d
  | .spec s => spec s
  | .func f => func f
  | .signature s => signature s
  | .field f => ite (method f) (field f)
  | .block b => by
    rw [Node.draw]
    cases w.outer with
    | none => exact block b
    | some outer => exact body outer b
  | .stmt s => stmt s
  | .simple s => simple s
  | .expr e => expr w.dropped w.depth e
  | .type t => typeExpr t
  | .clause c => clause c
  | .comm c => comm c
  | .comment c => inlineGroup [c]
  | .commentGroup g => ite (inlineGroup g.comments) inferInstance

theorem Draw.Upholds.drawFunction (x : Parts) : Upholds x.drawFunction :=
  skip fun _ => (topDecl (.func x.function)).bind fun _ => inferInstance

/-- Whatever the pen is at, drawing a node leaves the indentation as it was, and so does drawing a file
or the new function of an edit by itself. On the way it is never lowered where there is none. -/
theorem Pen.indent_balanced (p : Pen) :
    (∀ (n : Node) (w : Manner), (n.draw w p).2.indent = p.indent ∧ (n.draw w p).2.sunk = p.sunk) ∧
      (∀ f : SourceFile, (Draw.sourceFile f p).2.indent = p.indent ∧
        (Draw.sourceFile f p).2.sunk = p.sunk) ∧
      ∀ x : Parts, (x.drawFunction p).2.indent = p.indent ∧ (x.drawFunction p).2.sunk = p.sunk :=
  ⟨fun n w => (Draw.Upholds.node w n).indents p.indent p rfl,
    fun f => (Draw.Upholds.sourceFile f).indents p.indent p rfl,
    fun x => (Draw.Upholds.drawFunction x).indents p.indent p rfl⟩

end FuncLift
