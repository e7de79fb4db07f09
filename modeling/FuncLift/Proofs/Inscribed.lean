import FuncLift.Proofs.Plain

/-!
# What is drawn of a tree that stands on one line

Only lists ask on which lines things stood, and a list that stood on one line is drawn on one line.
So the characters that are drawn of such a tree do not depend on where the line is.
-/
namespace FuncLift

/-- From one pen to another the characters were written. Of all else only the marks and the end of what
was written last may have changed, and the operator that the pen remembers may have been forgotten. -/
structure Pen.Wrote (p : Pen) (cs : List Char) (q : Pen) : Prop where
  text : q.text = p.text ++ cs
  lines : q.lines = p.lines
  comments : q.comments = p.comments
  indent : q.indent = p.indent
  atStart : q.atStart = p.atStart
  lastOp : p.lastOp = none → q.lastOp = none

theorem Pen.Wrote.trans {p q r : Pen} {cs ds : List Char} (h : p.Wrote cs q) (k : q.Wrote ds r) :
    p.Wrote (cs ++ ds) r where
  text := by rw [k.text, h.text, List.append_assoc]
  lines := k.lines.trans h.lines
  comments := k.comments.trans h.comments
  indent := k.indent.trans h.indent
  atStart := k.atStart.trans h.atStart
  lastOp hp := k.lastOp (h.lastOp hp)

/-- No comment waits and things lie on these lines: then drawing writes the characters. -/
def Inscribes {α : Type} (lines : LineTable) (m : Draw α) (cs : List Char) (post : α → Prop) : Prop :=
  ∀ p : Pen, p.comments = [] → p.lines = lines → p.Wrote cs (m p).2 ∧ post (m p).1

namespace Inscribes

variable {α β : Type} {lines : LineTable} {m : Draw α} {f : α → Draw β} {cs ds : List Char}
  {Q : α → Prop} {post : β → Prop}

theorem bind (h : Inscribes lines m cs Q) (k : ∀ a, Q a → Inscribes lines (f a) ds post) :
    Inscribes lines (m >>= f) (cs ++ ds) post := by
  intro p hp hlines
  obtain ⟨hq, ha⟩ := h p hp hlines
  obtain ⟨hr, hb⟩ := k _ ha (m p).2 (hq.comments.trans hp) (hq.lines.trans hlines)
  exact ⟨hq.trans hr, hb⟩

theorem then_ (h : Inscribes lines m cs Q) (k : ∀ a, Q a → Inscribes lines (f a) [] post) :
    Inscribes lines (m >>= f) cs post := by
  have hall := h.bind k
  rwa [List.append_nil] at hall

theorem step (h : Inscribes lines m [] Q) (k : ∀ a, Q a → Inscribes lines (f a) ds post) :
    Inscribes lines (m >>= f) ds post := h.bind k

theorem pure {b : β} (hb : post b) : Inscribes lines (Pure.pure b) [] post :=
  fun p _ _ => ⟨⟨(List.append_nil p.text).symm, rfl, rfl, rfl, rfl, fun h => h⟩, hb⟩

theorem get {f : Pen → Draw β} (k : ∀ p, p.comments = [] → p.lines = lines → Inscribes lines (f p) ds post) :
    Inscribes lines (MonadState.get >>= f) ds post := fun p hp hlines => k p hp hlines p hp hlines

theorem offset {f : Nat → Draw β} (k : ∀ s, Inscribes lines (f s) cs post) :
    Inscribes lines (Draw.offset >>= f) cs post := fun p hp hlines => k p.offset p hp hlines

/-- The characters do not depend on the lines, and neither does what is changed. -/
theorem quiet {g : Pen → Pen} (hg : ∀ p : Pen, p.Wrote [] (g p)) :
    Inscribes lines (modify g : Draw Unit) [] fun _ => True := fun p _ _ => ⟨hg p, trivial⟩

theorem text (s : String) : Inscribes lines (Draw.text s) s.toList fun _ => True := by
  refine fun p _ _ => ⟨⟨?_, rfl, rfl, rfl, rfl, fun _ => rfl⟩, trivial⟩
  change (s :: p.pieces).reverse.flatMap String.toList = _
  simp [Pen.text]

theorem mark (kind : MarkKind) (id start : Nat) :
    Inscribes lines (Draw.mark kind id start) [] fun _ => True :=
  quiet fun _ => ⟨(List.append_nil _).symm, rfl, rfl, rfl, rfl, fun hp => hp⟩

theorem markNode (form : Form) (t : Tag) (start : Nat) :
    Inscribes lines (Draw.markNode form t start) [] fun _ => True := mark _ _ _

theorem setLastEnd (o : Option Nat) : Inscribes lines (Draw.setLastEnd o) [] fun _ => True :=
  quiet fun _ => ⟨(List.append_nil _).symm, rfl, rfl, rfl, rfl, fun hp => hp⟩

theorem name (role : NameRole) (n : Name) :
    Inscribes lines (Draw.name role n) n.text.toList fun _ => True :=
  offset fun _ => (text n.text).then_ fun _ _ => mark _ _ _

theorem inlineComments (span : Span) : Inscribes lines (Draw.inlineComments span) [] fun _ => True := by
  rw [Draw.inlineComments]
  split
  · exact pure trivial
  · intro p hp hlines
    change p.Wrote [] (Draw.inlineFrom span p.comments p).2 ∧ _
    rw [hp]
    have hdone : Inscribes lines (Pure.pure () : Draw Unit) [] fun _ => True := pure trivial
    exact hdone p hp hlines

theorem ident (depth : Nat) (t : Tag) (n : String) :
    Inscribes lines (Draw.expr none depth (.ident t n)) n.toList fun _ => True := by
  rw [Draw.expr]
  refine offset fun _ => (inlineComments t.span).step fun _ _ => offset fun start => ?_
  exact (text n).then_ fun _ _ => (markNode .ident t start).step fun _ _ => pure trivial

theorem toList_fragment {m : Draw Unit} (h : Inscribes ⟨[]⟩ m cs fun _ => True) :
    (Drawing.fragment m).toList = cs := by
  rw [Drawing.fragment, Drawing.toList_text_run]
  exact (h (.fresh ⟨[]⟩ [] 0) rfl rfl).1.text

theorem markedType {t : Tag} {m : Draw Unit} (h : Inscribes lines m cs fun _ => True) :
    Inscribes lines (Draw.typeExpr.markedType t m) cs fun _ => True :=
  offset fun start => h.then_ fun _ _ => markNode .type t start

end Inscribes

/-! ## Lists on one line -/

/-- Rows of characters with commas between them. -/
def commas : List (List Char) → List Char
  | [] => []
  | x :: xs => x ++ xs.flatMap (", ".toList ++ ·)

theorem Inscribes.names {lines : LineTable} : ∀ ns : List Name,
    Inscribes lines (Draw.names ns) (commas (ns.map fun n => n.text.toList)) fun _ => True
  | [] => pure trivial
  | [n] => by
    have hname : Inscribes lines (Draw.names [n]) n.text.toList fun _ => True := name .list n
    simpa [commas] using hname
  | n :: m :: ns => by
    have hcommas : commas ((n :: m :: ns).map fun n => n.text.toList) =
        n.text.toList ++ (", ".toList ++ commas ((m :: ns).map fun n => n.text.toList)) := by
      simp [commas]
    rw [Draw.names, hcommas]
    · exact (name .list n).bind fun _ _ => (text ", ").bind fun _ _ => names (m :: ns)
    · rintro ⟨⟩

/-- The items stand on the line, and the rows are drawn of them. -/
def Draw.Row (lines : LineTable) (line : Nat) (xs : List Draw.Item) (ws : List (List Char)) : Prop :=
  List.Forall₂ (fun x w => lines.holds line x.span.start = true ∧ lines.holds line x.span.stop = true ∧
    Inscribes lines x.draw w fun _ => True) xs ws

namespace Inscribes

variable {lines : LineTable} {line : Nat} {s : Draw.ListState} {x : Draw.Item} {xs : List Draw.Item}
  {w cs : List Char} {ws : List (List Char)}

theorem itemRest (hs : OnLine line s) (hstop : lines.holds line x.span.stop = true)
    (hx : Inscribes lines x.draw w fun _ => True)
    (hrest : ∀ s, OnLine line s → Inscribes lines (Draw.listItems "" false s xs) cs (OnLine line)) :
    Inscribes lines (do
      x.draw
      if xs.isEmpty then Draw.text ""
      let p ← MonadState.get
      if (known? x.span.stop).isSome then Draw.setLastEnd (some x.span.stop)
      Draw.listItems "" false { s with line := p.lineAt? x.span.stop } xs) (w ++ cs) (OnLine line) := by
  refine hx.bind fun _ _ => ?_
  have hafter : Inscribes lines (do
      let p ← MonadState.get
      if (known? x.span.stop).isSome then Draw.setLastEnd (some x.span.stop)
      Draw.listItems "" false { s with line := p.lineAt? x.span.stop } xs) cs (OnLine line) := by
    refine get fun p hp hlines => ?_
    have hlist := hrest { s with line := p.lineAt? x.span.stop }
      ⟨LineTable.lineAt_of_holds (by rwa [hlines]), hs.2⟩
    split
    · exact (setLastEnd _).step fun _ _ => hlist
    · exact hlist
  by_cases hempty : xs.isEmpty = true
  · rw [if_pos hempty]
    exact (text "").step fun _ _ => hafter
  · rw [if_neg hempty]
    exact hafter

theorem laterItems (h : Draw.Row lines line xs ws) (hs : OnLine line s) :
    Inscribes lines (Draw.listItems "" false s xs) (ws.flatMap (", ".toList ++ ·)) (OnLine line) := by
  induction h generalizing s with
  | nil => exact pure hs
  | @cons x w xs ws hx _ ih =>
    obtain ⟨hstart, hstop, hdraw⟩ := hx
    rw [Draw.listItems]
    refine (text ",").bind fun _ _ => get fun p hp hlines => ?_
    rw [laterLine_eq_false hs.1 (LineTable.lineAt_of_holds (by rwa [hlines])),
      if_neg Bool.false_ne_true]
    exact (text " ").bind fun _ _ => itemRest hs hstop hdraw fun s hs => ih hs

theorem items (h : Draw.Row lines line xs ws) (hs : OnLine line s) :
    Inscribes lines (Draw.listItems "" true s xs) (commas ws) (OnLine line) := by
  cases h with
  | nil => exact pure hs
  | @cons x w xs ws hx hxs =>
    obtain ⟨hstart, hstop, hdraw⟩ := hx
    rw [Draw.listItems]
    refine get fun p hp hlines => ?_
    rw [laterLine_eq_false hs.1 (LineTable.lineAt_of_holds (by rwa [hlines]))]
    exact itemRest hs hstop hdraw fun s hs => laterItems hxs hs

theorem list {opening : Nat} {closing : Span} (h : Draw.Row lines line xs ws)
    (hopen : lines.holds line opening = true) (hclose : lines.holds line closing.start = true) :
    Inscribes lines (Draw.list opening xs closing "") (commas ws) fun _ => True := by
  refine get fun p hp hlines => ?_
  extract_lets above after
  -- the list is not broken when it starts, and no item breaks it
  have hitems : Inscribes lines (after ()) (commas ws) fun _ => True := by
    have hs : OnLine line ⟨above, false⟩ := ⟨LineTable.lineAt_of_holds (by rwa [hlines]), rfl⟩
    refine (items h hs).then_ fun s hs => get fun q hq hqlines => ?_
    extract_lets closes
    have hcloses : closes = false := by
      simp [closes, laterLine_eq_false hs.1 (LineTable.lineAt_of_holds (by rwa [hqlines]))]
    rw [hcloses, if_neg Bool.false_ne_true]
    change Inscribes lines (if s.broken = true then _ else _) [] _
    rw [hs.2, if_neg Bool.false_ne_true, hcloses, if_neg Bool.false_ne_true]
    exact pure trivial
  split
  · exact (setLastEnd _).step fun _ _ => hitems
  · exact hitems

end Inscribes

/-! ## Signatures on one line -/

def parenthesized (ws : List (List Char)) : List Char := '(' :: (commas ws ++ [')'])

def signatureChars (ps rs : List (List Char)) (lone : Bool) : List Char :=
  parenthesized ps ++ if lone then ' ' :: commas rs else if rs.isEmpty then [] else ' ' :: parenthesized rs

namespace Inscribes

variable {lines : LineTable} {line : Nat} {xs : List Draw.Item} {vs ws : List (List Char)}

theorem params {opening : Nat} {closing : Span} (h : Draw.Row lines line xs ws)
    (hopen : lines.holds line opening = true) (hclose : lines.holds line closing.start = true) :
    Inscribes lines (Draw.params opening xs closing) (parenthesized ws) fun _ => True := by
  have hlist := list h hopen hclose
  exact (text "(").bind fun _ _ => hlist.bind fun _ _ => text ")"

theorem signature {t : Tag} {ps rs : List Field} (hps : Draw.Row lines line (Draw.fieldItems ps) vs)
    (hrs : Draw.Row lines line (Draw.fieldItems rs) ws) (hopen : lines.holds line t.span.start = true)
    (hclose : lines.holds line (Draw.closingByte t.span).start = true) :
    Inscribes lines (Draw.signature ⟨t, ps, rs⟩) (signatureChars vs ws (Field.isLone rs)) fun _ => True := by
  have hunknown : lines.holds line Span.unknown = true := by simp [LineTable.holds]
  cases rs with
  | nil =>
    cases hrs
    rw [Draw.signature, signatureChars]
    refine offset fun start => (params hps hopen hclose).bind fun _ _ => ?_
    exact markNode .signature t start
  | cons f fs =>
    obtain ⟨w, ws, hf, hfs, rfl⟩ := List.forall₂_cons_left_iff.1 hrs
    have hparams : Inscribes lines (Draw.params t.span.start (Draw.fieldItems ps) f.tag.span)
        (parenthesized vs) fun _ => True := params hps hopen hf.1
    by_cases hlone : Field.isLone (f :: fs) = true
    · obtain ⟨g, heq, hnames⟩ := Field.isLone_eq_true hlone
      cases heq
      cases hfs
      obtain ⟨u, ns, type, variadic, label⟩ := f
      cases hnames
      have hcommas : commas [w] = w := by simp [commas]
      rw [Draw.signature, signatureChars, if_pos hlone, hcommas]
      refine offset fun start => hparams.bind fun _ _ => (text " ").bind fun _ _ => ?_
      exact hf.2.2.then_ fun _ _ => markNode .signature t start
    · rw [Draw.signature, signatureChars, if_neg hlone]
      refine offset fun start => hparams.bind fun _ _ => ?_
      -- the arms are those for no result, for a lone one and for a list, and only the last is left
      split
      · contradiction
      · rename_i heq
        rw [heq] at hlone
        exact absurd rfl hlone
      · have hresults : Inscribes lines
            (Draw.params Span.unknown (Draw.fieldItems (f :: fs)) (Draw.closingByte t.span))
            (parenthesized (w :: ws)) fun _ => True := params (.cons hf hfs) hunknown hclose
        refine (text " ").bind fun _ _ => hresults.then_ fun _ _ => ?_
        exact markNode .signature t start

end Inscribes

end FuncLift
