import FuncLift.Proofs.Drawn

/-!
# The comments that drawing leaves alone

Comments that wait are drawn in front of what they stood in front of. So drawing a tree whose spans
all end by an offset draws only comments that start before that offset, whatever else waits.
-/
namespace FuncLift

/-- A span that has a place and ends by an offset, though not at the start of the text. -/
structure Span.Low (limit : Nat) (s : Span) : Prop where
  start : s.start ≤ limit
  stop : s.stop ≤ limit
  known : limit < Span.unknown
  ends : 0 < s.stop

namespace Span.Low

variable {limit : Nat} {s : Span}

theorem isUnset (h : s.Low limit) : s.isUnset = false := by
  have hne : s.start ≠ Span.unknown := Nat.ne_of_lt (Nat.lt_of_le_of_lt h.start h.known)
  simpa [Span.isUnset] using hne

theorem lastByte (h : s.Low limit) : (Draw.lastByte s).start ≤ limit := by
  rw [Draw.lastByte, h.isUnset]
  exact Nat.le_trans (Nat.sub_le _ _) h.stop

theorem closingByte (h : s.Low limit) : (Draw.closingByte s).start ≤ limit := by
  have hknown : known? s.stop = some s.stop :=
    if_neg (Nat.ne_of_lt (Nat.lt_of_le_of_lt h.stop h.known))
  have hbefore : Draw.offsetBefore s.stop = s.stop - 1 := if_neg (Nat.ne_of_gt h.ends)
  rw [Draw.closingByte, hknown]
  change Draw.offsetBefore s.stop ≤ limit
  rw [hbefore]
  exact Nat.le_trans (Nat.sub_le _ _) h.stop

theorem hull {t : Span} (h : s.Low limit) (k : t.Low limit) : (s.hull t).Low limit where
  start := Nat.le_trans (Nat.min_le_left _ _) h.start
  stop := Nat.max_le.2 ⟨h.stop, k.stop⟩
  known := h.known
  ends := Nat.lt_of_lt_of_le h.ends (Nat.le_max_left _ _)

end Span.Low

/-- Everything has a place and ends by an offset. -/
def AllLow (limit : Nat) (es : List Entry) : Prop := ∀ e ∈ es, e.span.Low limit

section AllLow

variable {limit : Nat}

@[simp] theorem allLow_nil : AllLow limit [] := fun _ h => by cases h

@[simp] theorem allLow_cons (e : Entry) (es : List Entry) :
    AllLow limit (e :: es) ↔ e.span.Low limit ∧ AllLow limit es := List.forall_mem_cons

@[simp] theorem allLow_append (es fs : List Entry) :
    AllLow limit (es ++ fs) ↔ AllLow limit es ∧ AllLow limit fs := List.forall_mem_append

@[simp] theorem span_entry (t : Tag) : t.entry.span = t.span := rfl

theorem AllLow.node {n : Node} (h : AllLow limit n.entries) : n.tag.span.Low limit := by
  have hself := h n.self ((n.mem_entries _).2 (.inl rfl))
  rwa [Entry.span, n.tag_self] at hself

end AllLow

/-- Drawing that leaves all comments waiting. -/
class Calm {α : Type} (m : Draw α) : Prop where
  comments_eq : ∀ p, (m p).2.comments = p.comments

namespace Calm

variable {α : Type}

instance (a : α) : Calm (pure a : Draw α) := ⟨fun _ => rfl⟩

instance : Calm Draw.offset := ⟨fun _ => rfl⟩

instance (s : String) : Calm (Draw.write s) := ⟨fun _ => rfl⟩

instance (s : String) : Calm (Draw.text s) := ⟨fun _ => rfl⟩

instance (n : Nat) : Calm (Draw.newlines n) := ⟨fun _ => rfl⟩

instance (e : Option Nat) : Calm (Draw.setLastEnd e) := ⟨fun _ => rfl⟩

instance (o : Option String) : Calm (Draw.setLastOp o) := ⟨fun _ => rfl⟩

instance : Calm Draw.indentMore := ⟨fun _ => rfl⟩

instance : Calm Draw.indentLess := ⟨fun _ => rfl⟩

instance (n : Nat) : Calm (modify fun p : Pen => { p with indent := n }) := ⟨fun _ => rfl⟩

instance (kind : MarkKind) (id start : Nat) : Calm (Draw.mark kind id start) := ⟨fun _ => rfl⟩

instance (form : Form) (t : Tag) (start : Nat) : Calm (Draw.markNode form t start) := ⟨fun _ => rfl⟩

instance (role : NameRole) (n : Name) : Calm (Draw.name role n) := ⟨fun _ => rfl⟩

instance (next : Span) (least : Nat) : Calm (Draw.separate next least) := by
  refine ⟨fun p => ?_⟩
  change ((if p.atStart = true then _ else _ : Draw Unit) p).2.comments = _
  split <;> rfl

end Calm

/-- Drawing that draws only comments that start before an offset, from the first on. -/
def Spares {α : Type} (limit : Nat) (m : Draw α) : Prop :=
  ∀ p : Pen, ∃ gs, p.comments = gs ++ (m p).2.comments ∧ ∀ g ∈ gs, g.tag.span.start < limit

namespace Spares

variable {α β : Type} {limit : Nat} {m : Draw α} {f : α → Draw β}

theorem calm [h : Calm m] : Spares limit m := fun p => ⟨[], (h.comments_eq p).symm, by simp⟩

theorem bind (h : Spares limit m) (k : ∀ a, Spares limit (f a)) : Spares limit (m >>= f) := by
  intro p
  obtain ⟨gs, hgs, hlow⟩ := h p
  obtain ⟨hs, hhs, klow⟩ := k (m p).1 (m p).2
  refine ⟨gs ++ hs, ?_, List.forall_mem_append.2 ⟨hlow, klow⟩⟩
  rw [hgs, hhs, List.append_assoc]
  rfl

/-- A step that leaves all comments alone. -/
theorem skip [Calm m] (k : ∀ a, Spares limit (f a)) : Spares limit (m >>= f) := calm.bind k

theorem get {f : Pen → Draw β} (k : ∀ p, Spares limit (f p)) :
    Spares limit (MonadState.get >>= f) := fun p => k p p

theorem ite {c : Prop} [Decidable c] {m' : Draw α} (h : c → Spares limit m)
    (h' : ¬c → Spares limit m') : Spares limit (if c then m else m') := by
  split
  · exact h ‹_›
  · exact h' ‹_›

/-- An action that need not be taken, and what comes after it. -/
theorem perhaps {c : Prop} [Decidable c] {m : Draw Unit} {k : Unit → Draw β} (h : Spares limit m)
    (hk : Spares limit (k ())) : Spares limit (if c then m >>= k else k ()) :=
  ite (fun _ => h.bind fun _ => hk) fun _ => hk

theorem pure (a : α) : Spares limit (Pure.pure a : Draw α) := calm

theorem names : ∀ ns : List Name, Spares limit (Draw.names ns)
  | [] => pure ()
  | [n] => @calm _ _ (Draw.name .list n) _
  | _ :: m :: ns => skip fun _ => skip fun _ => names (m :: ns)

theorem spaceIfCombines (next : String) : Spares limit (Draw.spaceIfCombines next) := by
  refine get fun p => ?_
  split
  · exact ite (fun _ => calm) fun _ => calm
  · exact calm

theorem operator (s : String) : Spares limit (Draw.operator s) :=
  (spaceIfCombines s).bind fun _ => skip fun _ => calm

theorem moreComments (last : Nat) (cs : List Comment) :
    Spares limit (Draw.moreComments last cs) := by
  induction cs generalizing last with
  | nil => exact pure ()
  | cons c cs ih =>
    refine get fun p => ?_
    extract_lets jp
    have hjp : Spares limit (jp ()) := skip fun _ => skip fun _ => skip fun _ => ih _
    split
    · exact skip fun _ => hjp
    · exact skip fun _ => hjp

theorem commentGroup (g : CommentGroup) (least : Nat) : Spares limit (Draw.commentGroup g least) := by
  refine get fun p => ?_
  extract_lets rest
  have hrest : Spares limit (rest ()) := by
    obtain ⟨t, cs⟩ := g
    cases cs with
    | nil => exact skip fun _ => skip fun _ => calm
    | cons c cs =>
      exact skip fun _ => skip fun _ => skip fun _ => (moreComments _ cs).bind fun _ =>
        skip fun _ => calm
  split
  · exact skip fun _ => hrest
  · exact skip fun _ => hrest

theorem inlineGroup (cs : List Comment) : Spares limit (Draw.inlineGroup cs) := by
  induction cs with
  | nil => exact pure ()
  | cons c cs ih =>
    cases cs with
    | nil => exact skip fun _ => skip fun _ => calm
    | cons d cs => exact skip fun _ => skip fun _ => skip fun _ => skip fun _ => ih

/-- What spares all comments leaves them alone. -/
theorem comments_eq (h : Spares 0 m) (p : Pen) : (m p).2.comments = p.comments := by
  obtain ⟨gs, hgs, hlow⟩ := h p
  cases gs with
  | nil => exact hgs.symm
  | cons g gs => exact absurd (hlow g List.mem_cons_self) (Nat.not_lt_zero _)

/-- What is done with comments of which the first starts before the limit: it is drawn, and then the
others are looked at. -/
theorem taking {g : CommentGroup} {gs : List CommentGroup} {p : Pen}
    (hg : g.tag.span.start < limit) (h : Spares 0 m)
    (k : ∀ a (q : Pen), q.comments = gs → ∃ hs, gs = hs ++ (f a q).2.comments ∧
      ∀ g ∈ hs, g.tag.span.start < limit) :
    ∃ hs, g :: gs = hs ++ ((do Draw.setComments gs; let a ← m; f a : Draw β) p).2.comments ∧
      ∀ g ∈ hs, g.tag.span.start < limit := by
  obtain ⟨hs, hhs, hlow⟩ := k _ (m { p with comments := gs }).2 (h.comments_eq _)
  exact ⟨g :: hs, congrArg (g :: ·) hhs, List.forall_mem_cons.2 ⟨hg, hlow⟩⟩

theorem flush {bound : Nat} (hbound : bound ≤ limit) (least : Nat) :
    Spares limit (Draw.flush bound least) := by
  have hfrom (gs : List CommentGroup) : ∀ (least : Nat) (p : Pen), p.comments = gs →
      ∃ hs, gs = hs ++ (Draw.flushFrom bound least gs p).2.comments ∧
        ∀ g ∈ hs, g.tag.span.start < limit := by
    induction gs with
    | nil => exact fun _ p hp => ⟨[], hp.symm, by simp⟩
    | cons g gs ih =>
      intro least p hp
      rw [Draw.flushFrom]
      split
      · exact ⟨[], hp.symm, by simp⟩
      · exact taking (by omega) (commentGroup g least) fun _ q hq => ih 1 q hq
  exact fun p => hfrom p.comments least p rfl

theorem inlineComments {span : Span} (h : span.start ≤ limit) :
    Spares limit (Draw.inlineComments span) := by
  have hfrom (gs : List CommentGroup) : ∀ p : Pen, p.comments = gs →
      ∃ hs, gs = hs ++ (Draw.inlineFrom span gs p).2.comments ∧
        ∀ g ∈ hs, g.tag.span.start < limit := by
    induction gs with
    | nil => exact fun p hp => ⟨[], hp.symm, by simp⟩
    | cons g gs ih =>
      intro p hp
      change ∃ hs, _ = hs ++ ((if (decide (g.tag.span.start < span.start) &&
        p.sameLine g.tag.span.stop span.start) = true then _ else _ : Draw Unit) p).2.comments ∧ _
      split
      · rename_i hstart
        have hgroup : Spares 0 (do
            let start ← Draw.offset
            Draw.inlineGroup g.comments
            Draw.markNode .commentGroup g.tag start
            Draw.text " ") :=
          skip fun _ => (inlineGroup g.comments).bind fun _ => skip fun _ => calm
        have hlt : g.tag.span.start < span.start := by
          simp only [Bool.and_eq_true, decide_eq_true_eq] at hstart
          exact hstart.1
        have htaken := @taking _ _ limit _ (fun _ => Draw.inlineFrom span gs) g gs p (by omega) hgroup
          fun _ q hq => ih q hq
        exact htaken
      · exact ⟨[], hp.symm, by simp⟩
  exact ite (fun _ => calm) fun _ p => hfrom p.comments p rfl

theorem breakOnce (s : Draw.ListState) : Spares limit (Draw.breakOnce s) :=
  ite (fun _ => pure _) fun _ => skip fun _ => pure _

section Low

variable {span : Span}

theorem beforeItem (h : span.Low limit) (least : Nat) :
    Spares limit (Draw.beforeItem span least) :=
  ite (fun hunset => by simp [h.isUnset] at hunset) fun _ => (flush h.1 least).bind fun _ => calm

theorem itemBreak (h : span.Low limit) (least : Nat) : Spares limit (Draw.itemBreak span least) :=
  (beforeItem h least).bind fun _ => calm

theorem close (h : span.Low limit) (delim : String) (indented : Bool) :
    Spares limit (Draw.close span delim indented) := by
  refine (flush h.lastByte 1).bind fun _ => perhaps calm ?_
  exact skip fun _ => calm

theorem groupBreak (first : Bool) (h : span.Low limit) :
    Spares limit (Draw.groupBreak first span) := by
  refine ite (fun _ => itemBreak h 1) fun _ => ite (fun _ => ?_) fun _ => calm
  exact (flush h.1 1).bind fun _ => ite (fun _ => calm) fun _ => calm

theorem closeGroup (h : span.Low limit) (delim : String) :
    Spares limit (Draw.closeGroup span delim) :=
  (flush h.closingByte 1).bind fun _ => skip fun _ => skip fun _ => calm

end Low

end Spares

/-- The items have places that end by an offset, and drawing them spares the comments behind it. -/
def SparesItems (limit : Nat) (items : List Draw.Item) : Prop :=
  ∀ x ∈ items, x.span.Low limit ∧ Spares limit x.draw

namespace SparesItems

variable {limit : Nat} {items : List Draw.Item}

theorem nil : SparesItems limit [] := by simp [SparesItems]

theorem cons {x : Draw.Item} (hspan : x.span.Low limit) (hx : Spares limit x.draw)
    (h : SparesItems limit items) : SparesItems limit (x :: items) :=
  List.forall_mem_cons.2 ⟨⟨hspan, hx⟩, h⟩

theorem stmtLines (h : SparesItems limit items) : Spares limit (Draw.stmtLines items) := by
  induction items with
  | nil => exact .pure ()
  | cons x xs ih =>
    obtain ⟨⟨hspan, hx⟩, hxs⟩ := List.forall_mem_cons.1 h
    refine (Spares.beforeItem hspan 1).bind fun least => .get fun p => .perhaps .calm ?_
    refine .skip fun _ => .skip fun _ => hx.bind fun _ => .skip fun _ => ih hxs

theorem joined (h : SparesItems limit items) (sep : String) :
    Spares limit (Draw.joined sep items) := by
  induction items with
  | nil => exact .pure ()
  | cons x xs ih =>
    obtain ⟨⟨_, hx⟩, hxs⟩ := List.forall_mem_cons.1 h
    cases xs with
    | nil => exact hx
    | cons y ys => exact hx.bind fun _ => .skip fun _ => ih hxs

theorem clauseLines (h : SparesItems limit items) : Spares limit (Draw.clauseLines items) := by
  induction items with
  | nil => exact .pure ()
  | cons x xs ih =>
    obtain ⟨⟨hspan, hx⟩, hxs⟩ := List.forall_mem_cons.1 h
    exact (Spares.itemBreak hspan 1).bind fun _ => hx.bind fun _ => .skip fun _ => ih hxs

theorem groupLines (h : SparesItems limit items) (first : Bool) :
    Spares limit (Draw.groupLines first items) := by
  induction items generalizing first with
  | nil => exact .pure ()
  | cons x xs ih =>
    obtain ⟨⟨hspan, hx⟩, hxs⟩ := List.forall_mem_cons.1 h
    exact (Spares.groupBreak first hspan).bind fun _ => hx.bind fun _ => .skip fun _ => ih hxs false

theorem clauseBody (h : SparesItems limit items) {span : Span} (hspan : span.Low limit) :
    Spares limit (Draw.clauseBody span items) :=
  .skip fun _ => .skip fun _ => h.clauseLines.bind fun _ => .close hspan _ _

theorem listItems (h : SparesItems limit items) (tail : String) (first : Bool)
    (s : Draw.ListState) : Spares limit (Draw.listItems tail first s items) := by
  induction items generalizing first s with
  | nil => exact .pure s
  | cons x xs ih =>
    obtain ⟨⟨hspan, hx⟩, hxs⟩ := List.forall_mem_cons.1 h
    rw [Draw.listItems]
    extract_lets item plain
    have hitem (s : Draw.ListState) : Spares limit (item s) := by
      refine hx.bind fun _ => .perhaps .calm (.get fun p => ?_)
      exact .perhaps .calm (ih hxs false _)
    have hspace : Spares limit (plain ()) := .skip fun _ => hitem _
    have hbreak : Spares limit (do
        let p ← get
        if Draw.laterLine s.line (p.lineAt? x.span.start) = true then do
          let s ← Draw.breakOnce s
          Draw.itemBreak x.span 1
          let s ← pure s
          item s
        else if first = true then plain ()
        else do
          let r ← Draw.text " "
          plain r) := by
      refine .get fun p => .ite (fun _ => ?_) fun _ => .ite (fun _ => hspace) fun _ =>
        .skip fun _ => hspace
      exact (Spares.breakOnce s).bind fun _ => (Spares.itemBreak hspan 1).bind fun _ => .skip fun _ => hitem _
    exact .ite (fun _ => hbreak) fun _ => .skip fun _ => hbreak

/-- The comments before the closing delimiter are drawn only if it has a place. -/
theorem list (h : SparesItems limit items) (opening : Nat) {closing : Span}
    (hclosing : closing.start ≤ limit ∨ closing.start = Span.unknown) (tail : String) :
    Spares limit (Draw.list opening items closing tail) := by
  refine .get fun p => ?_
  extract_lets line rest
  have hend (closes : Bool) (s : Draw.ListState) : Spares limit (do
      if s.broken then Draw.indentLess
      if closes then Draw.newlines 1) :=
    .perhaps .calm (.ite (fun _ => .calm) fun _ => .calm)
  refine .perhaps .calm ((h.listItems tail true _).bind fun s => .get fun q => ?_)
  refine .ite (fun hcloses => ?_) fun _ => .skip fun _ => hend _ _
  have hflush : Spares limit (Draw.flush closing.start 1) := by
    refine .flush (hclosing.resolve_right fun hunknown => ?_) 1
    have hnone : q.lineAt? closing.start = none := by
      rw [Pen.lineAt?, hunknown]
      rfl
    rw [hnone] at hcloses
    cases hline : s.line <;> simp [hline, Draw.laterLine] at hcloses
  exact .skip fun _ => (Spares.breakOnce s).bind fun _ => hflush.bind fun _ => .skip fun _ => hend _ _

theorem params (h : SparesItems limit items) (opening : Nat) {closing : Span}
    (hclosing : closing.start ≤ limit ∨ closing.start = Span.unknown) :
    Spares limit (Draw.params opening items closing) :=
  .skip fun _ => (h.list _ hclosing _).bind fun _ => .calm

end SparesItems

namespace Spares

variable {limit : Nat}

/-- What is drawn and then marked. -/
theorem marking {content : Draw Unit} (h : Spares limit content) (form : Form) (t : Tag) :
    Spares limit (do
      let start ← Draw.offset
      content
      Draw.markNode form t start) := skip fun _ => h.bind fun _ => calm

theorem blockLines {t : Tag} {items : List Draw.Item} (ht : t.span.Low limit)
    (h : SparesItems limit items) : Spares limit (Draw.blockLines t items) :=
  skip fun _ => skip fun _ => skip fun _ => skip fun _ => h.stmtLines.bind fun _ =>
    (close ht _ _).bind fun _ => calm

theorem blockOnOneLine {t : Tag} {items : List Draw.Item} (h : SparesItems limit items) :
    Spares limit (Draw.blockOnOneLine t items) := by
  refine skip fun _ => skip fun _ => ?_
  extract_lets rest
  have hrest : Spares limit (rest ()) := skip fun _ => skip fun _ => calm
  refine ite (fun _ => hrest) fun _ => ?_
  exact skip fun _ => (h.joined _).bind fun _ => skip fun _ => hrest

theorem marked {dropped : Option (List Tag)} {form : Form} {t : Tag} {sign : Option String}
    {content : Draw Unit} (ht : t.span.Low limit) (h : Spares limit content) :
    Spares limit (Draw.marked dropped form t sign content) := by
  have hmarks (outer : Nat) (ts : List Tag) :
      Spares limit (ts.forM fun t => Draw.markNode .paren t outer : Draw Unit) := by
    refine @calm _ limit _ ⟨fun p => ?_⟩
    induction ts generalizing p with
    | nil => rfl
    | cons t ts ih => exact ih (Draw.markNode .paren t outer p).2
  refine skip fun outer => (inlineComments ht.1).bind fun _ => ?_
  have hrest : Spares limit (do
      let start ← Draw.offset
      content
      Draw.markNode form t start
      (dropped.getD []).forM fun t => Draw.markNode .paren t outer) :=
    skip fun _ => h.bind fun _ => skip fun _ => hmarks _ _
  cases sign with
  | none => exact hrest
  | some s => exact (spaceIfCombines s).bind fun _ => hrest

/-- Something that may be left out, and what follows it. -/
theorem given {x : Option (Draw Unit)} {k : Unit → Draw Unit}
    (h : Spares limit (x.getD (Pure.pure ()))) (hk : Spares limit (k ())) :
    Spares limit (match x with
      | some m => m >>= k
      | none => Pure.pure ()) := by
  cases x with
  | none => exact h
  | some m => exact h.bind fun _ => hk

theorem header {isFor : Bool} {init cond post : Option (Draw Unit)}
    (hinit : Spares limit (init.getD (Pure.pure ()))) (hcond : Spares limit (cond.getD (Pure.pure ())))
    (hpost : Spares limit (post.getD (Pure.pure ()))) :
    Spares limit (Draw.header isFor init cond post) := by
  refine skip fun _ => ite (fun _ => given hcond calm) fun _ => ?_
  refine hinit.bind fun _ => skip fun _ => hcond.bind fun _ => ite (fun _ => ?_) fun _ => ?_
  · exact skip fun _ => given hpost calm
  · exact ite (fun _ => calm) fun _ => calm

theorem sliceBounds {xs : List (Option (Draw Unit))}
    (h : ∀ x ∈ xs, Spares limit (x.getD (Pure.pure ()))) (blanks before : Bool) :
    Spares limit (Draw.sliceBounds blanks before xs) := by
  induction xs generalizing before with
  | nil => exact pure ()
  | cons x xs ih =>
    obtain ⟨hx, hxs⟩ := List.forall_mem_cons.1 h
    have hcolon {bound : Draw Unit} (hbound : Spares limit bound) : Spares limit
        (do Draw.text ":"; bound; Draw.sliceBounds blanks x.isSome xs) :=
      skip fun _ => hbound.bind fun _ => ih hxs _
    cases x with
    | none => exact perhaps (k := fun _ => do Draw.text ":"; _) calm (hcolon hx)
    | some m =>
      have hm : Spares limit (if blanks = true then Draw.text " " >>= fun _ => m else m) :=
        perhaps (k := fun _ => m) calm hx
      have hall := hcolon hm
      cases blanks <;> exact perhaps (k := fun _ => do Draw.text ":"; _) calm hall

theorem fieldBlock {keyword : String} {span : Span} {fields : List Field} {items : List Draw.Item}
    (hspan : span.Low limit) (h : SparesItems limit items) :
    Spares limit (Draw.typeExpr.fieldBlock keyword span fields items) := by
  refine get fun p => skip fun _ => ite (fun _ => ?_) fun _ => ?_
  · cases items with
    | nil => exact calm
    | cons x xs => exact skip fun _ => (h x List.mem_cons_self).2.bind fun _ => calm
  · exact skip fun _ => skip fun _ => skip fun _ => (h.groupLines true).bind fun _ =>
      closeGroup hspan _

theorem parensOf {nested : Bool} {bare inner : Draw Unit} (hbare : Spares limit bare)
    (hinner : Spares limit inner) : Spares limit (Draw.expr.parens nested bare inner) :=
  ite (fun _ => hbare) fun _ => skip fun _ => hinner.bind fun _ => calm

theorem low_elementSpan {e : Element} (h : AllLow limit e.entries) :
    (Draw.elementSpan e).Low limit := by
  obtain ⟨key, value⟩ := e
  cases key with
  | none =>
    simp only [Element.entries_mk, Option.toList_none, List.flatMap_nil, List.nil_append] at h
    exact h.node (n := .expr value)
  | some key =>
    simp only [Element.entries_mk, Option.toList_some, List.flatMap_singleton, allLow_append] at h
    have hkey : key.span.Low limit := h.1.node (n := .expr key)
    have hvalue : value.span.Low limit := h.2.node (n := .expr value)
    simp only [Draw.elementSpan, hkey.isUnset, hvalue.isUnset, Bool.or_self, Bool.false_eq_true,
      if_false]
    exact hkey.hull hvalue

theorem ofSignature {t : Tag} {fs rs : List Field} (ht : t.span.Low limit)
    (hparams : SparesItems limit (Draw.fieldItems fs))
    (hresults : SparesItems limit (Draw.fieldItems rs)) :
    Spares limit (Draw.signature ⟨t, fs, rs⟩) := by
  have hlast : (Draw.closingByte t.span).start ≤ limit ∨
      (Draw.closingByte t.span).start = Span.unknown := .inl ht.closingByte
  have hclosing : (((Draw.fieldItems rs).head?.map Draw.Item.span).getD
      (Draw.closingByte t.span)).start ≤ limit := by
    cases hitems : Draw.fieldItems rs with
    | nil => exact ht.closingByte
    | cons x xs => exact (hresults x (by rw [hitems]; exact List.mem_cons_self)).1.1
  rw [Draw.signature]
  refine skip fun _ => (hparams.params _ (.inl hclosing)).bind fun _ => ?_
  split
  · exact @calm _ _ (Draw.markNode .signature t _) _
  · exact skip fun _ => (hresults.joined "").bind fun _ => calm
  · exact skip fun _ => (hresults.params _ hlast).bind fun _ => calm

theorem ofMethod {t : Tag} {ns : List Name} {type : TypeExpr} {variadic : Bool}
    {label : Option String} (htype : Spares limit (Draw.typeExpr type))
    (hsig : ∀ ft sig, type = .func ft sig → Spares limit (Draw.signature sig)) :
    Spares limit (Draw.method ⟨t, ns, type, variadic, label⟩) := by
  have hbare := marking htype .field t
  match ns, type with
  | [n], .func ft sig =>
    have hmethod : Spares limit (do
        let start ← Draw.offset
        Draw.name .list n
        let typeStart ← Draw.offset
        Draw.signature sig
        Draw.markNode .type ft typeStart
        Draw.markNode .field t start) :=
      skip fun _ => skip fun _ => skip fun _ => (hsig ft sig rfl).bind fun _ => skip fun _ => calm
    exact hmethod
  | [], _ | _ :: _ :: _, _ | [_], .named .. | [_], .pointer .. | [_], .slice .. | [_], .array ..
  | [_], .map .. | [_], .chan .. | [_], .struct .. | [_], .interface .. => exact hbare

mutual

theorem expr (dropped : Option (List Tag)) (depth : Nat) : ∀ e : Expr, AllLow limit e.entries →
    Spares limit (Draw.expr dropped depth e)
  | .ident t n, h => marked (h.node (n := .expr (.ident t n))) calm
  | .lit t k x, h => marked (h.node (n := .expr (.lit t k x))) calm
  | .funcLit t sig b, h => by
    rw [Expr.entries_funcLit, allLow_cons, allLow_append] at h
    exact marked h.1 (skip fun _ => (signature sig h.2.1).bind fun _ => body t.span b h.2.2)
  | .composite t type elems, h => by
    rw [Expr.entries_composite, allLow_cons, allLow_append] at h
    exact marked h.1 ((typeOption type h.2.1).bind fun _ => skip fun _ =>
      ((elementItems elems h.2.2).list _ (.inl h.1.closingByte) _).bind fun _ => calm)
  | .paren t e, h => by
    rw [Expr.entries_paren, allLow_cons] at h
    have hin (depth : Nat) : Spares limit (Draw.expr none depth e) := expr none depth e h.2
    cases dropped with
    | none => exact marked h.1 (parensOf (hin _) (hin _))
    | some ts => exact ite (fun _ => marked h.1 (parensOf (hin _) (hin _))) fun _ => expr _ depth e h.2
  | .selector t e sel, h => by
    rw [Expr.entries_selector, allLow_cons, allLow_cons] at h
    exact marked h.1 ((expr none depth e h.2.2).bind fun _ => skip fun _ => calm)
  | .index t e i, h => by
    rw [Expr.entries_index, allLow_cons, allLow_append] at h
    exact marked h.1 ((expr none 1 e h.2.1).bind fun _ => skip fun _ =>
      (expr none (depth + 1) i h.2.2).bind fun _ => calm)
  | .slice t e lo hi max, h => by
    rw [Expr.entries_slice, allLow_cons, allLow_append, allLow_append, allLow_append] at h
    obtain ⟨ht, he, hlo, hhi, hmax⟩ := h
    refine marked ht ((expr none 1 e he).bind fun _ => skip fun _ =>
      (exprOption none (depth + 1) lo hlo).bind fun _ => (sliceBounds ?_ _ _).bind fun _ => calm)
    have hupper := exprOption none (depth + 1) hi hhi
    have hmost := exprOption none (depth + 1) max hmax
    cases max with
    | none => exact List.forall_mem_singleton.2 hupper
    | some max => exact List.forall_mem_cons.2 ⟨hupper, List.forall_mem_singleton.2 hmost⟩
  | .assert t e type, h => by
    rw [Expr.entries_assert, allLow_cons, allLow_append] at h
    refine marked h.1 ((expr none 1 e h.2.1).bind fun _ => skip fun _ => ?_)
    have htype := typeOption type h.2.2
    cases type with
    | none => exact skip fun _ => calm
    | some type => exact htype.bind fun _ => calm
  | .call t callee args spread, h => by
    rw [Expr.entries_call, allLow_cons, allLow_append] at h
    exact marked h.1 ((expr none _ callee h.2.1).bind fun _ => skip fun _ =>
      ((exprItems _ args h.2.2).list _ (.inl h.1.closingByte) _).bind fun _ => calm)
  | .unary t op e, h => by
    rw [Expr.entries_unary, allLow_cons] at h
    exact marked h.1 ((operator _).bind fun _ => expr none _ e h.2)
  | .binary t l op r, h => by
    rw [Expr.entries_binary, allLow_cons, allLow_append] at h
    have hright : Spares limit (Draw.expr none (depth + 1) r) := expr none _ r h.2.2
    refine marked h.1 ((expr none _ l h.2.1).bind fun _ => perhaps calm ?_)
    refine (operator _).bind fun _ => get fun p => ?_
    split
    · refine ite (fun _ => ?_) fun _ => perhaps calm hright
      exact skip fun _ => skip fun _ => hright.bind fun _ => calm
    · exact perhaps calm hright
  | .type t type, h => by
    rw [Expr.entries_type, allLow_cons] at h
    exact marked h.1 (typeExpr type h.2)

theorem exprOption (dropped : Option (List Tag)) (depth : Nat) : ∀ e : Option Expr,
    AllLow limit (e.toList.flatMap Expr.entries) →
      Spares limit ((Draw.exprOption dropped depth e).getD (Pure.pure ()))
  | none, _ => pure ()
  | some e, h => expr dropped depth e (by simpa using h)

theorem exprItems (depth : Nat) : ∀ es : List Expr, AllLow limit (es.flatMap Expr.entries) →
    SparesItems limit (Draw.exprItems depth es)
  | [], _ => .nil
  | e :: es, h => by
    rw [List.flatMap_cons, allLow_append] at h
    exact .cons (h.1.node (n := .expr e)) (expr none depth e h.1) (exprItems depth es h.2)

theorem element : ∀ e : Element, AllLow limit e.entries → Spares limit (Draw.element e)
  | ⟨key, value⟩, h => by
    rw [Element.entries_mk, allLow_append] at h
    have hkey := exprOption none 1 key h.1
    cases key with
    | none => exact expr none 1 value h.2
    | some key => exact hkey.bind fun _ => skip fun _ => expr none 1 value h.2

theorem elementItems : ∀ es : List Element, AllLow limit (es.flatMap Element.entries) →
    SparesItems limit (Draw.elementItems es)
  | [], _ => .nil
  | e :: es, h => by
    rw [List.flatMap_cons, allLow_append] at h
    exact .cons (low_elementSpan h.1) (element e h.1) (elementItems es h.2)

theorem typeExpr : ∀ t : TypeExpr, AllLow limit t.entries → Spares limit (Draw.typeExpr t)
  | .named t pkg n, _ => by
    refine marking ?_ .type t
    cases pkg with
    | none => exact calm
    | some pkg => exact skip fun _ => skip fun _ => calm
  | .pointer t e, h => by
    rw [TypeExpr.entries_pointer, allLow_cons] at h
    exact marking (skip fun _ => typeExpr e h.2) .type t
  | .slice t e, h => by
    rw [TypeExpr.entries_slice, allLow_cons] at h
    exact marking (skip fun _ => typeExpr e h.2) .type t
  | .array t len e, h => by
    rw [TypeExpr.entries_array, allLow_cons, allLow_append] at h
    have hlen := exprOption none 1 len h.2.1
    refine marking (skip fun _ => ?_) .type t
    cases len with
    | none =>
      exact (@calm _ _ (Draw.text "...") _).bind fun _ => skip fun _ => typeExpr e h.2.2
    | some len => exact hlen.bind fun _ => skip fun _ => typeExpr e h.2.2
  | .map t k v, h => by
    rw [TypeExpr.entries_map, allLow_cons, allLow_append] at h
    exact marking (skip fun _ => (typeExpr k h.2.1).bind fun _ => skip fun _ => typeExpr v h.2.2)
      .type t
  | .chan t dir e, h => by
    rw [TypeExpr.entries_chan, allLow_cons] at h
    exact marking (skip fun _ => typeExpr e h.2) .type t
  | .func t sig, h => by
    rw [TypeExpr.entries_func, allLow_cons] at h
    exact marking (skip fun _ => signature sig h.2) .type t
  | .struct t fs, h => by
    rw [TypeExpr.entries_struct, allLow_cons] at h
    exact marking (fieldBlock h.1 (fieldItems fs h.2)) .type t
  | .interface t ms, h => by
    rw [TypeExpr.entries_interface, allLow_cons] at h
    exact marking (fieldBlock h.1 (methodItems ms h.2)) .type t

theorem typeOption : ∀ t : Option TypeExpr, AllLow limit (t.toList.flatMap TypeExpr.entries) →
    Spares limit (Draw.typeOption t)
  | none, _ => pure ()
  | some t, h => typeExpr t (by simpa using h)

theorem typeItems : ∀ ts : List TypeExpr, AllLow limit (ts.flatMap TypeExpr.entries) →
    SparesItems limit (Draw.typeItems ts)
  | [], _ => .nil
  | t :: ts, h => by
    rw [List.flatMap_cons, allLow_append] at h
    exact .cons (h.1.node (n := .type t)) (typeExpr t h.1) (typeItems ts h.2)

theorem field : ∀ f : Field, AllLow limit f.entries → Spares limit (Draw.field f)
  | ⟨t, ns, type, variadic, label⟩, h => by
    rw [Field.entries_mk, allLow_cons, allLow_append] at h
    have htype := typeExpr type h.2.2
    refine skip fun start => (names ns).bind fun _ => ?_
    have hlabel : Spares limit (do
        Draw.typeExpr type
        match label with
        | some l => do
          Draw.text " "
          Draw.text l
          Draw.markNode .field t start
        | none => Draw.markNode .field t start) := by
      refine htype.bind fun _ => ?_
      cases label with
      | none => exact calm
      | some l => exact skip fun _ => skip fun _ => calm
    cases ns <;> cases variadic
    · exact hlabel
    · exact skip fun _ => hlabel
    · exact skip fun _ => hlabel
    · exact skip fun _ => skip fun _ => hlabel

theorem fieldItems : ∀ fs : List Field, AllLow limit (fs.flatMap Field.entries) →
    SparesItems limit (Draw.fieldItems fs)
  | [], _ => .nil
  | f :: fs, h => by
    rw [List.flatMap_cons, allLow_append] at h
    exact .cons (h.1.node (n := .field f)) (field f h.1) (fieldItems fs h.2)

theorem method : ∀ f : Field, AllLow limit f.entries → Spares limit (Draw.method f)
  | ⟨t, ns, type, variadic, label⟩, h => by
    rw [Field.entries_mk, allLow_cons, allLow_append] at h
    have htype : Spares limit (Draw.typeExpr type) := typeExpr type h.2.2
    cases type with
    | func ft sig =>
      refine ofMethod htype ?_
      rintro _ _ ⟨⟩
      rw [TypeExpr.entries_func, allLow_cons] at h
      exact signature sig h.2.2.2
    | _ => exact ofMethod htype nofun

theorem methodItems : ∀ fs : List Field, AllLow limit (fs.flatMap Field.entries) →
    SparesItems limit (Draw.methodItems fs)
  | [], _ => .nil
  | f :: fs, h => by
    rw [List.flatMap_cons, allLow_append] at h
    exact .cons (h.1.node (n := .field f)) (method f h.1) (methodItems fs h.2)

theorem signature : ∀ s : Signature, AllLow limit s.entries → Spares limit (Draw.signature s)
  | ⟨_, ps, rs⟩, h => by
    rw [Signature.entries_mk, allLow_cons, allLow_append] at h
    exact ofSignature h.1 (fieldItems ps h.2.1) (fieldItems rs h.2.2)

theorem body (outer : Span) : ∀ b : Block, AllLow limit b.entries →
    Spares limit (Draw.body outer b)
  | ⟨t, ss⟩, h => by
    rw [Block.entries_mk, allLow_cons] at h
    exact skip fun _ => get fun p => ite (fun _ => blockOnOneLine (stmtItems ss h.2)) fun _ =>
      blockLines h.1 (stmtItems ss h.2)

theorem block : ∀ b : Block, AllLow limit b.entries → Spares limit (Draw.block b)
  | ⟨t, ss⟩, h => by
    rw [Block.entries_mk, allLow_cons] at h
    exact blockLines h.1 (stmtItems ss h.2)

theorem simple : ∀ s : Simple, AllLow limit s.entries → Spares limit (Draw.simple s)
  | .expr t e, h => by
    rw [Simple.entries_expr, allLow_cons] at h
    exact marking (expr none 1 e h.2) .exprSimple t
  | .send t c v, h => by
    rw [Simple.entries_send, allLow_cons, allLow_append] at h
    exact skip fun _ => (expr none 1 c h.2.1).bind fun _ => skip fun _ =>
      (expr none 1 v h.2.2).bind fun _ => calm
  | .step t e op, h => by
    rw [Simple.entries_step, allLow_cons] at h
    exact skip fun _ => (expr none 2 e h.2).bind fun _ => skip fun _ => calm
  | .assign t l op r, h => by
    rw [Simple.entries_assign, allLow_cons, allLow_append] at h
    exact skip fun _ => ((exprItems _ l h.2.1).list _ (.inr rfl) _).bind fun _ => skip fun _ =>
      skip fun _ => skip fun _ => ((exprItems _ r h.2.2).list _ (.inr rfl) _).bind fun _ => calm
  | .define t ns vs, h => by
    rw [Simple.entries_define, allLow_cons, allLow_append] at h
    exact skip fun _ => (names ns).bind fun _ => skip fun _ =>
      ((exprItems _ vs h.2.2).list _ (.inr rfl) _).bind fun _ => calm

theorem simpleOption : ∀ s : Option Simple, AllLow limit (s.toList.flatMap Simple.entries) →
    Spares limit ((Draw.simpleOption s).getD (Pure.pure ()))
  | none, _ => pure ()
  | some s, h => simple s (by simpa using h)

theorem stmt : ∀ s : Stmt, AllLow limit s.entries → Spares limit (Draw.stmt s)
  | .simple t s, h => by
    rw [Stmt.entries_simple, allLow_cons] at h
    exact marking (simple s h.2) .simpleStmt t
  | .decl t d, h => by
    rw [Stmt.entries_decl, allLow_cons] at h
    exact marking (decl d h.2) .declStmt t
  | .labeled t n s, h => by
    rw [Stmt.entries_labeled, allLow_cons, allLow_cons] at h
    exact marking (skip fun _ => skip fun _ => skip fun _ =>
      (itemBreak (h.2.2.node (n := .stmt s)) 1).bind fun _ => stmt s h.2.2) .labeledStmt t
  | .go t e, h => by
    rw [Stmt.entries_go, allLow_cons] at h
    exact marking (skip fun _ => expr none 1 e h.2) .goStmt t
  | .defer t e, h => by
    rw [Stmt.entries_defer, allLow_cons] at h
    exact marking (skip fun _ => expr none 1 e h.2) .deferStmt t
  | .ret t es, h => by
    rw [Stmt.entries_ret, allLow_cons] at h
    have hvalues := exprItems 1 es h.2
    refine marking (skip fun _ => ?_) .returnStmt t
    cases es with
    | nil => exact pure ()
    | cons e es => exact skip fun _ => hvalues.list _ (.inr rfl) _
  | .branch t kind n, _ => by
    refine marking (skip fun _ => ?_) .branchStmt t
    cases n with
    | none => exact pure ()
    | some n => exact skip fun _ => calm
  | .block t b, h => by
    rw [Stmt.entries_block, allLow_cons] at h
    exact marking (block b h.2) .blockStmt t
  | .ifElse t init cond yes no, h => by
    rw [Stmt.entries_ifElse, allLow_cons, allLow_append, allLow_append, allLow_append] at h
    obtain ⟨_, hinit, hcond, hyes, hno⟩ := h
    have hhead : Spares limit (Draw.header false (Draw.simpleOption init)
        (Draw.exprOption (some []) 1 (some cond)) none) :=
      header (simpleOption init hinit) (expr (some []) 1 cond hcond) (pure ())
    have helse := stmtOption no hno
    refine marking (skip fun _ => hhead.bind fun _ => (block yes hyes).bind fun _ => ?_) .ifStmt t
    cases no with
    | none => exact pure ()
    | some s => exact skip fun _ => helse
  | .loop t head b, h => by
    rw [Stmt.entries_loop, allLow_cons, allLow_append] at h
    exact marking (skip fun _ => (loopHead head h.2.1).bind fun _ => block b h.2.2) .forStmt t
  | .switch t init subject cs, h => by
    rw [Stmt.entries_switch, allLow_cons, allLow_append, allLow_append] at h
    obtain ⟨ht, hinit, hsubject, hclauses⟩ := h
    have hhead : Spares limit (Draw.header false (Draw.simpleOption init)
        (Draw.exprOption (some []) 1 subject) none) :=
      header (simpleOption init hinit) (exprOption (some []) 1 subject hsubject) (pure ())
    exact marking (skip fun _ => hhead.bind fun _ => (clauseItems cs hclauses).clauseBody ht)
      .switchStmt t
  | .typeSwitch t init bind guard cs, h => by
    rw [Stmt.entries_typeSwitch, allLow_cons, allLow_append, allLow_append, allLow_append] at h
    obtain ⟨ht, _, hinit, hguard, hclauses⟩ := h
    have hfirst := simpleOption init hinit
    have hrest : Spares limit (do
        Draw.expr none 1 guard
        Draw.text " "
        Draw.clauseBody t.span (Draw.clauseItems cs)) :=
      (expr none 1 guard hguard).bind fun _ => skip fun _ => (clauseItems cs hclauses).clauseBody ht
    refine marking (skip fun _ => ?_) .typeSwitchStmt t
    cases init with
    | none =>
      cases bind with
      | none => exact hrest
      | some n => exact skip fun _ => skip fun _ => hrest
    | some s =>
      cases bind with
      | none => exact hfirst.bind fun _ => skip fun _ => hrest
      | some n => exact hfirst.bind fun _ => skip fun _ => skip fun _ => skip fun _ => hrest
  | .select t cs, h => by
    rw [Stmt.entries_select, allLow_cons] at h
    exact marking (skip fun _ => get fun p => ite (fun _ => calm) fun _ =>
      (commItems cs h.2).clauseBody h.1) .selectStmt t

theorem stmtOption : ∀ s : Option Stmt, AllLow limit (s.toList.flatMap Stmt.entries) →
    Spares limit ((Draw.stmtOption s).getD (Pure.pure ()))
  | none, _ => pure ()
  | some s, h => stmt s (by simpa using h)

theorem stmtItems : ∀ ss : List Stmt, AllLow limit (ss.flatMap Stmt.entries) →
    SparesItems limit (Draw.stmtItems ss)
  | [], _ => .nil
  | s :: ss, h => by
    rw [List.flatMap_cons, allLow_append] at h
    exact .cons (h.1.node (n := .stmt s)) (stmt s h.1) (stmtItems ss h.2)

theorem loopHead : ∀ x : LoopHead, AllLow limit x.entries → Spares limit (Draw.loopHead x)
  | .forever, _ => @header _ true none none none (pure ()) (pure ()) (pure ())
  | .cond e, h => by
    rw [LoopHead.entries_cond] at h
    exact @header _ true none (Draw.exprOption (some []) 1 (some e)) none (pure ())
      (expr (some []) 1 e h) (pure ())
  | .clause init cond post, h => by
    rw [LoopHead.entries_clause, allLow_append, allLow_append] at h
    exact header (simpleOption init h.1) (exprOption (some []) 1 cond h.2.1)
      (simpleOption post h.2.2)
  | .range key value define e, h => by
    rw [LoopHead.entries_range, allLow_append, allLow_append] at h
    have hkey := exprOption none 1 key h.1
    have hvalue := exprOption none 1 value h.2.1
    have hrange : Spares limit (do
        Draw.text "range "
        Draw.expr (some []) 1 e
        Draw.text " ") := skip fun _ => (expr (some []) 1 e h.2.2).bind fun _ => calm
    refine skip fun _ => ?_
    cases key with
    | none => exact hrange
    | some key =>
      cases value with
      | none => exact hkey.bind fun _ => skip fun _ => hrange
      | some value => exact hkey.bind fun _ => skip fun _ => hvalue.bind fun _ => skip fun _ => hrange

theorem cases (start : Nat) : ∀ x : Cases, AllLow limit x.entries → Spares limit (Draw.cases start x)
  | .default, _ => @calm _ _ (Draw.text "default") _
  | .exprs es, h => by
    rw [Cases.entries_exprs] at h
    exact skip fun _ => (exprItems 1 es h).list _ (.inr rfl) _
  | .types ts, h => by
    rw [Cases.entries_types] at h
    exact skip fun _ => (typeItems ts h).list _ (.inr rfl) _

theorem clause : ∀ c : Clause, AllLow limit c.entries → Spares limit (Draw.clause c)
  | ⟨t, cs, ss⟩, h => by
    rw [Clause.entries_mk, allLow_cons, allLow_append] at h
    exact skip fun _ => skip fun _ => (cases _ cs h.2.1).bind fun _ => skip fun _ => skip fun _ =>
      (stmtItems ss h.2.2).stmtLines.bind fun _ => skip fun _ => calm

theorem clauseItems : ∀ cs : List Clause, AllLow limit (cs.flatMap Clause.entries) →
    SparesItems limit (Draw.clauseItems cs)
  | [], _ => .nil
  | c :: cs, h => by
    rw [List.flatMap_cons, allLow_append] at h
    exact .cons (h.1.node (n := .clause c)) (clause c h.1) (clauseItems cs h.2)

theorem comm : ∀ c : Comm, AllLow limit c.entries → Spares limit (Draw.comm c)
  | ⟨t, guard, ss⟩, h => by
    rw [Comm.entries_mk, allLow_cons, allLow_append] at h
    have hguard := simpleOption guard h.2.1
    have hrest (start : Nat) : Spares limit (do
        Draw.text ":"
        Draw.indentMore
        Draw.stmtLines (Draw.stmtItems ss)
        Draw.indentLess
        Draw.markNode .comm t start) :=
      skip fun _ => skip fun _ => (stmtItems ss h.2.2).stmtLines.bind fun _ => skip fun _ => calm
    refine skip fun _ => skip fun _ => ?_
    cases guard with
    | none => exact skip fun _ => hrest _
    | some s => exact skip fun _ => hguard.bind fun _ => skip fun _ => hrest _

theorem commItems : ∀ cs : List Comm, AllLow limit (cs.flatMap Comm.entries) →
    SparesItems limit (Draw.commItems cs)
  | [], _ => .nil
  | c :: cs, h => by
    rw [List.flatMap_cons, allLow_append] at h
    exact .cons (h.1.node (n := .comm c)) (comm c h.1) (commItems cs h.2)

theorem decl : ∀ d : Decl, AllLow limit d.entries → Spares limit (Draw.decl d)
  | ⟨t, kind, grouped, ss⟩, h => by
    rw [Decl.entries_mk, allLow_cons] at h
    have hitems := specItems ss h.2
    refine skip fun _ => skip fun _ => skip fun _ => ?_
    cases grouped <;> cases ss
    · exact @calm _ _ (Draw.markNode .decl t _) _
    · exact (hitems _ List.mem_cons_self).2.bind fun _ => calm
    · exact skip fun _ => calm
    · exact skip fun _ => skip fun _ => skip fun _ => (hitems.groupLines true).bind fun _ =>
        (closeGroup h.1 _).bind fun _ => calm

theorem spec : ∀ s : Spec, AllLow limit s.entries → Spares limit (Draw.spec s)
  | .imports t none path, _ => marking calm .importSpec t
  | .imports t (some n) path, _ => skip fun _ => skip fun _ => skip fun _ => skip fun _ => calm
  | .values t ns type vs, h => by
    rw [Spec.entries_values, allLow_cons, allLow_append, allLow_append] at h
    have htype := typeOption type h.2.2.1
    have hvalues := exprItems 1 vs h.2.2.2
    refine skip fun _ => (names ns).bind fun _ => perhaps calm (htype.bind fun _ => ?_)
    cases vs with
    | nil => exact @calm _ _ (Draw.markNode .valueSpec t _) _
    | cons v vs => exact skip fun _ => (hvalues.list _ (.inr rfl) _).bind fun _ => calm
  | .type t n isAlias type, h => by
    rw [Spec.entries_type, allLow_cons, allLow_cons] at h
    exact skip fun _ => skip fun _ => skip fun _ => (typeExpr type h.2.2).bind fun _ => calm

theorem specItems : ∀ ss : List Spec, AllLow limit (ss.flatMap Spec.entries) →
    SparesItems limit (Draw.specItems ss)
  | [], _ => .nil
  | s :: ss, h => by
    rw [List.flatMap_cons, allLow_append] at h
    exact .cons (h.1.node (n := .spec s)) (spec s h.1) (specItems ss h.2)

end

theorem func {f : FuncDecl} (h : AllLow limit f.entries) : Spares limit (Draw.func f) := by
  obtain ⟨t, recv, n, sig, b⟩ := f
  rw [FuncDecl.entries_mk, allLow_cons, allLow_cons, allLow_append, allLow_append] at h
  obtain ⟨_, _, hrecv, hsig, hbody⟩ := h
  refine skip fun start => skip fun _ => ?_
  have hrest : Spares limit (do
      Draw.name .func n
      Draw.signature sig
      b.elim (Draw.markNode .func t start) fun b => do
        Draw.body t.span b
        Draw.markNode .func t start) := by
    refine skip fun _ => (signature sig hsig).bind fun _ => ?_
    cases b with
    | none => exact (calm : Spares limit (Draw.markNode .func t start))
    | some b => exact (body t.span b (by simpa using hbody)).bind fun _ => calm
  cases recv with
  | none => cases b <;> exact hrest
  | some r =>
    have hfield := field r (by simpa using hrecv)
    cases b <;> exact skip fun _ => hfield.bind fun _ => skip fun _ => hrest

theorem topDecl : ∀ {d : TopDecl}, AllLow limit d.entries → Spares limit (Draw.topDecl d)
  | .decl d, h => decl d h
  | .func _, h => func h

theorem topDecls (last : Option (Option DeclKind)) {ds : List TopDecl}
    (h : AllLow limit (ds.flatMap TopDecl.entries)) : Spares limit (Draw.topDecls last ds) := by
  induction ds generalizing last with
  | nil => exact pure ()
  | cons d ds ih =>
    rw [List.flatMap_cons, allLow_append] at h
    have hspan : d.span.Low limit := by
      cases d with
      | decl d => exact h.1.node (n := .decl d)
      | func f => exact h.1.node (n := .func f)
    exact get fun _ => (itemBreak hspan _).bind fun _ => (topDecl h.1).bind fun _ => skip fun _ =>
      ih _ h.2

end Spares

end FuncLift
