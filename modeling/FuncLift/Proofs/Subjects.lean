import FuncLift.Proofs.Laid
import FuncLift.Proofs.Resolved
import FuncLift.Proofs.Spares

/-!
# What marks are for

A mark says what it is for: a node of some form, a name in some place, or the package clause. Every
node has a mark for itself and one for each of its names. Drawing a tree marks the nodes of the tree
and their names, each as what it is, and nothing else; the comments it meets are marked likewise.
-/
namespace FuncLift

namespace Mark

/-- What a mark is for, wherever it stands. -/
def subject (m : Mark) : MarkKind × Nat := (m.kind, m.id)

end Mark

/-- The mark of a name where it stands. -/
def Name.mark (role : NameRole) (n : Name) : Mark := ⟨.name role, n.tag.id, n.tag.span⟩

namespace Node

/-- The marks of the names that a node has besides its children. -/
def nameMarks : Node → List Mark
  | .spec (.imports _ n _) => n.toList.map (Name.mark .importName)
  | .spec (.values _ ns _ _) => ns.map (Name.mark .list)
  | .spec (.type _ n _ _) => [n.mark .typeName]
  | .func f => [f.name.mark .func]
  | .field f => f.names.map (Name.mark .list)
  | .stmt (.labeled _ n _) => [n.mark .label]
  | .stmt (.branch _ _ n) => n.toList.map (Name.mark .label)
  | .stmt (.typeSwitch _ _ n _ _) => n.toList.map (Name.mark .typeSwitchBind)
  | .simple (.define _ ns _) => ns.map (Name.mark .list)
  | .expr (.selector _ _ n) => [n.mark .selector]
  | _ => []

/-- The marks of a node and of its names, where they stand. -/
def marks (n : Node) : List Mark := ⟨.node n.form, n.tag.id, n.span⟩ :: n.nameMarks

end Node

namespace SourceFile

/-- The marks of all nodes and names of a file and of its package clause, where they stand. -/
def marks (f : SourceFile) : List Mark :=
  ⟨.packageClause, f.tag.id, f.tag.span⟩ :: f.name.mark .packageName :: f.nodes.flatMap Node.marks

end SourceFile

/-- Nodes among which are the children of each of them, and whose marks are allowed. -/
structure Permits (P : MarkKind × Nat → Prop) (S : Node → Prop) : Prop where
  own : ∀ n, S n → ∀ m ∈ n.marks, P m.subject
  below : ∀ n, S n → ∀ c ∈ n.children, S c

/-- A piece that is a node is one of some nodes. -/
def Piece.Among (S : Node → Prop) : Piece → Prop
  | .name _ => True
  | .child n => S n

@[simp] theorem Piece.among_name (S : Node → Prop) (n : Name) : (name n).Among S ↔ True := .rfl

@[simp] theorem Piece.among_child (S : Node → Prop) (n : Node) : (child n).Among S ↔ S n := .rfl

namespace Permits

variable {P : MarkKind × Nat → Prop} {S : Node → Prop} {n : Node}

theorem self (h : Permits P S) (hn : S n) : P (.node n.form, n.tag.id) :=
  h.own n hn _ List.mem_cons_self

theorem names (h : Permits P S) (hn : S n) : ∀ m ∈ n.nameMarks, P m.subject :=
  fun m hm => h.own n hn m (List.mem_cons_of_mem _ hm)

theorem pieces (h : Permits P S) (hn : S n) : ∀ x ∈ n.pieces, x.Among S := by
  intro x hx
  cases x with
  | name n => trivial
  | child c => exact h.below n hn c (Node.mem_children.2 hx)

end Permits

/-- Only what is allowed is marked, and the comments that wait may be. -/
structure Pen.Allowed (P : MarkKind × Nat → Prop) (p : Pen) : Prop where
  marked : ∀ m ∈ p.marks, P m.subject
  waiting : ∀ g ∈ p.comments, ∀ n, Node.Holds (.commentGroup g) n → ∀ m ∈ n.marks, P m.subject

/-- Drawing that marks nothing and leaves all comments waiting. -/
class Blank {α : Type} (m : Draw α) : Prop where
  marks_eq : ∀ p, (m p).2.marks = p.marks
  comments_eq : ∀ p, (m p).2.comments = p.comments

namespace Blank

variable {α : Type}

instance (a : α) : Blank (pure a : Draw α) := ⟨fun _ => rfl, fun _ => rfl⟩

instance : Blank Draw.offset := ⟨fun _ => rfl, fun _ => rfl⟩

instance (s : String) : Blank (Draw.write s) := ⟨fun _ => rfl, fun _ => rfl⟩

instance (s : String) : Blank (Draw.text s) := ⟨fun _ => rfl, fun _ => rfl⟩

instance (n : Nat) : Blank (Draw.newlines n) := ⟨fun _ => rfl, fun _ => rfl⟩

instance (e : Option Nat) : Blank (Draw.setLastEnd e) := ⟨fun _ => rfl, fun _ => rfl⟩

instance (o : Option String) : Blank (Draw.setLastOp o) := ⟨fun _ => rfl, fun _ => rfl⟩

instance : Blank Draw.indentMore := ⟨fun _ => rfl, fun _ => rfl⟩

instance : Blank Draw.indentLess := ⟨fun _ => rfl, fun _ => rfl⟩

instance (n : Nat) : Blank (modify fun p : Pen => { p with indent := n }) :=
  ⟨fun _ => rfl, fun _ => rfl⟩

instance (b : Bool) : Blank (modify fun p : Pen => { p with atStart := b }) :=
  ⟨fun _ => rfl, fun _ => rfl⟩

instance (next : Span) (least : Nat) : Blank (Draw.separate next least) := by
  constructor <;> intro p
  · change ((if p.atStart = true then _ else _ : Draw Unit) p).2.marks = _
    split <;> rfl
  · change ((if p.atStart = true then _ else _ : Draw Unit) p).2.comments = _
    split <;> rfl

end Blank

/-- Drawing that marks only what is allowed. -/
def Marks {α : Type} (P : MarkKind × Nat → Prop) (m : Draw α) : Prop :=
  ∀ p : Pen, p.Allowed P → (m p).2.Allowed P

namespace Marks

variable {α β : Type} {P : MarkKind × Nat → Prop} {m : Draw α} {f : α → Draw β}

theorem blank [h : Blank m] : Marks P m := by
  intro p hp
  refine ⟨?_, ?_⟩
  · rw [h.marks_eq]
    exact hp.marked
  · rw [h.comments_eq]
    exact hp.waiting

theorem bind (h : Marks P m) (k : ∀ a, Marks P (f a)) : Marks P (m >>= f) :=
  fun p hp => k (m p).1 (m p).2 (h p hp)

/-- A step that marks nothing. -/
theorem skip [Blank m] (k : ∀ a, Marks P (f a)) : Marks P (m >>= f) := blank.bind k

theorem get {f : Pen → Draw β} (k : ∀ p, Marks P (f p)) : Marks P (MonadState.get >>= f) :=
  fun p hp => k p p hp

theorem ite {c : Prop} [Decidable c] {m' : Draw α} (h : c → Marks P m) (h' : ¬c → Marks P m') :
    Marks P (if c then m else m') := by
  split
  · exact h ‹_›
  · exact h' ‹_›

/-- An action that need not be taken, and what comes after it. -/
theorem perhaps {c : Prop} [Decidable c] {m : Draw Unit} {k : Unit → Draw β} (h : Marks P m)
    (hk : Marks P (k ())) : Marks P (if c then m >>= k else k ()) :=
  ite (fun _ => h.bind fun _ => hk) fun _ => hk

theorem pure (a : α) : Marks P (Pure.pure a : Draw α) := blank

theorem mark {kind : MarkKind} {id : Nat} (h : P (kind, id)) (start : Nat) :
    Marks P (Draw.mark kind id start) :=
  fun _ hp => ⟨List.forall_mem_cons.2 ⟨h, hp.marked⟩, hp.waiting⟩

theorem node {form : Form} {t : Tag} (h : P (.node form, t.id)) (start : Nat) :
    Marks P (Draw.markNode form t start) := mark h start

theorem name {role : NameRole} {n : Name} (h : P (n.mark role).subject) :
    Marks P (Draw.name role n) := skip fun _ => skip fun _ => mark h _

theorem names : ∀ {ns : List Name}, (∀ m ∈ ns.map (Name.mark .list), P m.subject) →
    Marks P (Draw.names ns)
  | [], _ => pure ()
  | [n], h => name (h _ List.mem_cons_self)
  | n :: k :: ns, h => by
    obtain ⟨hn, hns⟩ := List.forall_mem_cons.1 h
    exact (name hn).bind fun _ => skip fun _ => names hns

/-- What is drawn and then marked. -/
theorem marking {content : Draw Unit} (h : Marks P content) {form : Form} {t : Tag}
    (ht : P (.node form, t.id)) : Marks P (do
      let start ← Draw.offset
      content
      Draw.markNode form t start) := skip fun _ => h.bind fun _ => node ht _

theorem spaceIfCombines (next : String) : Marks P (Draw.spaceIfCombines next) := by
  refine get fun p => ?_
  split
  · exact ite (fun _ => blank) fun _ => blank
  · exact blank

theorem operator (s : String) : Marks P (Draw.operator s) :=
  (spaceIfCombines s).bind fun _ => skip fun _ => blank

section Comments

theorem moreComments (last : Nat) {cs : List Comment}
    (h : ∀ c ∈ cs, P (.node .comment, c.tag.id)) : Marks P (Draw.moreComments last cs) := by
  induction cs generalizing last with
  | nil => exact pure ()
  | cons c cs ih =>
    obtain ⟨hc, hcs⟩ := List.forall_mem_cons.1 h
    refine get fun p => ?_
    extract_lets jp
    have hjp : Marks P (jp ()) :=
      skip fun _ => skip fun _ => (node hc _).bind fun _ => ih _ hcs
    split
    · exact skip fun _ => hjp
    · exact skip fun _ => hjp

theorem inlineGroup {cs : List Comment} (h : ∀ c ∈ cs, P (.node .comment, c.tag.id)) :
    Marks P (Draw.inlineGroup cs) := by
  induction cs with
  | nil => exact pure ()
  | cons c cs ih =>
    obtain ⟨hc, hcs⟩ := List.forall_mem_cons.1 h
    cases cs with
    | nil => exact skip fun _ => skip fun _ => node hc _
    | cons d cs => exact skip fun _ => skip fun _ => (node hc _).bind fun _ => skip fun _ => ih hcs

variable {g : CommentGroup}

/-- What may be marked of a group and of its comments. -/
theorem of_holds (h : ∀ n, Node.Holds (.commentGroup g) n → ∀ m ∈ n.marks, P m.subject) :
    P (.node .commentGroup, g.tag.id) ∧ ∀ c ∈ g.comments, P (.node .comment, c.tag.id) := by
  refine ⟨h _ (.self _) _ List.mem_cons_self, fun c hc => ?_⟩
  have hchild : Node.comment c ∈ (Node.commentGroup g).children :=
    Node.mem_children.2 (List.mem_map_of_mem hc)
  exact h _ (.step hchild (.self _)) _ List.mem_cons_self

theorem commentGroup (least : Nat) (hg : P (.node .commentGroup, g.tag.id))
    (hcs : ∀ c ∈ g.comments, P (.node .comment, c.tag.id)) :
    Marks P (Draw.commentGroup g least) := by
  refine get fun p => ?_
  extract_lets rest
  have hrest : Marks P (rest ()) := by
    obtain ⟨t, cs⟩ := g
    cases cs with
    | nil => exact skip fun _ => (node hg _).bind fun _ => blank
    | cons c cs =>
      obtain ⟨hc, hcs⟩ := List.forall_mem_cons.1 hcs
      exact skip fun _ => skip fun _ => (node hc _).bind fun _ => (moreComments _ hcs).bind fun _ =>
        (node hg _).bind fun _ => blank
  split
  · exact skip fun _ => hrest
  · exact skip fun _ => hrest

theorem setComments {gs : List CommentGroup} {p : Pen} (hp : p.Allowed P)
    (hgs : p.comments = g :: gs) : Pen.Allowed P { p with comments := gs } :=
  ⟨hp.marked, fun x hx => hp.waiting x (hgs ▸ List.mem_cons_of_mem _ hx)⟩

theorem flush (limit least : Nat) : Marks P (Draw.flush limit least) := by
  have hfrom (gs : List CommentGroup) : ∀ (least : Nat) (p : Pen), p.comments = gs → p.Allowed P →
      (Draw.flushFrom limit least gs p).2.Allowed P := by
    induction gs with
    | nil => exact fun _ p _ hp => hp
    | cons g gs ih =>
      intro least p hgs hp
      rw [Draw.flushFrom]
      split
      · exact hp
      · obtain ⟨hg, hcs⟩ := of_holds (hp.waiting g (hgs ▸ List.mem_cons_self))
        have hwaiting : (Draw.commentGroup g least { p with comments := gs }).2.comments = gs :=
          (Spares.commentGroup g least).comments_eq _
        exact ih 1 _ hwaiting (commentGroup least hg hcs _ (setComments hp hgs))
  exact fun p hp => hfrom p.comments least p rfl hp

theorem flushTrailing : Marks P Draw.flushTrailing := by
  have hfrom (gs : List CommentGroup) : ∀ p : Pen, p.comments = gs → p.Allowed P →
      (Draw.flushTrailingFrom gs p).2.Allowed P := by
    induction gs with
    | nil => exact fun p _ hp => hp
    | cons g gs ih =>
      intro p hgs hp
      change ((if p.isTrailing g.tag.span = true then _ else _ : Draw Unit) p).2.Allowed P
      split
      · obtain ⟨hg, hcs⟩ := of_holds (hp.waiting g (hgs ▸ List.mem_cons_self))
        have hwaiting : (Draw.commentGroup g 1 { p with comments := gs }).2.comments = gs :=
          (Spares.commentGroup g 1).comments_eq _
        exact ih _ hwaiting (commentGroup 1 hg hcs _ (setComments hp hgs))
      · exact hp
  exact fun p hp => hfrom p.comments p rfl hp

theorem inlineComments (span : Span) : Marks P (Draw.inlineComments span) := by
  have hfrom (gs : List CommentGroup) : ∀ p : Pen, p.comments = gs → p.Allowed P →
      (Draw.inlineFrom span gs p).2.Allowed P := by
    induction gs with
    | nil => exact fun p _ hp => hp
    | cons g gs ih =>
      intro p hgs hp
      change ((if (decide (g.tag.span.start < span.start) &&
        p.sameLine g.tag.span.stop span.start) = true then _ else _ : Draw Unit) p).2.Allowed P
      split
      · obtain ⟨hg, hcs⟩ := of_holds (hp.waiting g (hgs ▸ List.mem_cons_self))
        have hwaiting : Spares 0 (do
            let start ← Draw.offset
            Draw.inlineGroup g.comments
            Draw.markNode .commentGroup g.tag start
            Draw.text " ") :=
          .skip fun _ => (Spares.inlineGroup g.comments).bind fun _ => .skip fun _ => .calm
        have hgroup : Marks P (do
            let start ← Draw.offset
            Draw.inlineGroup g.comments
            Draw.markNode .commentGroup g.tag start
            Draw.text " ") :=
          skip fun _ => (inlineGroup hcs).bind fun _ => (node hg _).bind fun _ => blank
        exact ih _ (hwaiting.comments_eq _) (hgroup _ (setComments hp hgs))
      · exact hp
  exact ite (fun _ => blank) fun _ p hp => hfrom p.comments p rfl hp

end Comments

section Breaks

theorem breakOnce (s : Draw.ListState) : Marks P (Draw.breakOnce s) :=
  ite (fun _ => pure _) fun _ => skip fun _ => pure _

theorem beforeItem (span : Span) (least : Nat) : Marks P (Draw.beforeItem span least) :=
  ite (fun _ => flushTrailing.bind fun _ => pure _) fun _ =>
    (flush _ _).bind fun _ => blank

theorem itemBreak (span : Span) (least : Nat) : Marks P (Draw.itemBreak span least) :=
  (beforeItem span least).bind fun _ => blank

theorem close (span : Span) (delim : String) (indented : Bool) :
    Marks P (Draw.close span delim indented) :=
  (flush _ 1).bind fun _ => perhaps blank (skip fun _ => blank)

theorem groupBreak (first : Bool) (span : Span) : Marks P (Draw.groupBreak first span) := by
  refine ite (fun _ => itemBreak span 1) fun _ => ite (fun _ => ?_) fun _ => blank
  exact (flush _ 1).bind fun _ => ite (fun _ => blank) fun _ => blank

theorem closeGroup (span : Span) (delim : String) : Marks P (Draw.closeGroup span delim) :=
  (flush _ 1).bind fun _ => skip fun _ => skip fun _ => blank

end Breaks

end Marks

/-- Drawing the items marks only what is allowed. -/
def MarksItems (P : MarkKind × Nat → Prop) (items : List Draw.Item) : Prop :=
  ∀ x ∈ items, Marks P x.draw

namespace MarksItems

variable {P : MarkKind × Nat → Prop} {items : List Draw.Item}

theorem nil : MarksItems P [] := by simp [MarksItems]

theorem cons {x : Draw.Item} (hx : Marks P x.draw) (h : MarksItems P items) :
    MarksItems P (x :: items) := List.forall_mem_cons.2 ⟨hx, h⟩

theorem stmtLines (h : MarksItems P items) : Marks P (Draw.stmtLines items) := by
  induction items with
  | nil => exact .pure ()
  | cons x xs ih =>
    obtain ⟨hx, hxs⟩ := List.forall_mem_cons.1 h
    refine (Marks.beforeItem _ 1).bind fun least => .get fun p => .perhaps .blank ?_
    exact .skip fun _ => .skip fun _ => hx.bind fun _ => .skip fun _ => ih hxs

theorem joined (h : MarksItems P items) (sep : String) : Marks P (Draw.joined sep items) := by
  induction items with
  | nil => exact .pure ()
  | cons x xs ih =>
    obtain ⟨hx, hxs⟩ := List.forall_mem_cons.1 h
    cases xs with
    | nil => exact hx
    | cons y ys => exact hx.bind fun _ => .skip fun _ => ih hxs

theorem clauseLines (h : MarksItems P items) : Marks P (Draw.clauseLines items) := by
  induction items with
  | nil => exact .pure ()
  | cons x xs ih =>
    obtain ⟨hx, hxs⟩ := List.forall_mem_cons.1 h
    exact (Marks.itemBreak _ 1).bind fun _ => hx.bind fun _ => .skip fun _ => ih hxs

theorem groupLines (h : MarksItems P items) (first : Bool) :
    Marks P (Draw.groupLines first items) := by
  induction items generalizing first with
  | nil => exact .pure ()
  | cons x xs ih =>
    obtain ⟨hx, hxs⟩ := List.forall_mem_cons.1 h
    exact (Marks.groupBreak first _).bind fun _ => hx.bind fun _ => .skip fun _ => ih hxs false

theorem clauseBody (h : MarksItems P items) (span : Span) : Marks P (Draw.clauseBody span items) :=
  .skip fun _ => .skip fun _ => h.clauseLines.bind fun _ => .close span _ _

theorem listItems (h : MarksItems P items) (tail : String) (first : Bool) (s : Draw.ListState) :
    Marks P (Draw.listItems tail first s items) := by
  induction items generalizing first s with
  | nil => exact .pure s
  | cons x xs ih =>
    obtain ⟨hx, hxs⟩ := List.forall_mem_cons.1 h
    rw [Draw.listItems]
    extract_lets item plain
    have hitem (s : Draw.ListState) : Marks P (item s) := by
      refine hx.bind fun _ => .perhaps .blank (.get fun p => ?_)
      exact .perhaps .blank (ih hxs false _)
    have hspace : Marks P (plain ()) := .skip fun _ => hitem _
    have hbreak : Marks P (do
        let p ← get
        if Draw.laterLine s.line (p.lineAt? x.span.start) = true then do
          let s ← Draw.breakOnce s
          Draw.itemBreak x.span 1
          let s ← pure s
          item s
        else if first = true then plain ()
        else do
          let r ← Draw.text " "
          plain r) := by
      refine .get fun p => .ite (fun _ => ?_) fun _ => .ite (fun _ => hspace) fun _ =>
        .skip fun _ => hspace
      exact (Marks.breakOnce s).bind fun _ => (Marks.itemBreak _ 1).bind fun _ => .skip fun _ =>
        hitem _
    exact .ite (fun _ => hbreak) fun _ => .skip fun _ => hbreak

theorem list (h : MarksItems P items) (opening : Nat) (closing : Span) (tail : String) :
    Marks P (Draw.list opening items closing tail) := by
  refine .get fun p => ?_
  extract_lets line rest
  have hend (closes : Bool) (s : Draw.ListState) : Marks P (do
      if s.broken then Draw.indentLess
      if closes then Draw.newlines 1) :=
    .perhaps .blank (.ite (fun _ => .blank) fun _ => .blank)
  refine .perhaps .blank ((h.listItems tail true _).bind fun s => .get fun q => ?_)
  refine .ite (fun _ => ?_) fun _ => .skip fun _ => hend _ _
  exact .skip fun _ => (Marks.breakOnce s).bind fun _ => (Marks.flush _ 1).bind fun _ =>
    .skip fun _ => hend _ _

theorem params (h : MarksItems P items) (opening : Nat) (closing : Span) :
    Marks P (Draw.params opening items closing) :=
  .skip fun _ => (h.list _ closing _).bind fun _ => .blank

end MarksItems

/-- Parentheses that were dropped may be marked. -/
def MayDrop (P : MarkKind × Nat → Prop) (dropped : Option (List Tag)) : Prop :=
  ∀ t ∈ dropped.getD [], P (.node .paren, t.id)

namespace MayDrop

variable {P : MarkKind × Nat → Prop} {ts : List Tag} {t : Tag}

theorem none : MayDrop P Option.none := fun _ h => by cases h

theorem nil : MayDrop P (some []) := fun _ h => by cases h

theorem concat (h : MayDrop P (some ts))
    (ht : P (.node .paren, t.id)) : MayDrop P (some (ts ++ [t])) :=
  List.forall_mem_append.2 ⟨h, List.forall_mem_singleton.2 ht⟩

end MayDrop

namespace Marks

variable {P : MarkKind × Nat → Prop}

theorem blockLines {t : Tag} {items : List Draw.Item} (ht : P (.node .block, t.id))
    (h : MarksItems P items) : Marks P (Draw.blockLines t items) :=
  skip fun _ => skip fun _ => skip fun _ => skip fun _ => h.stmtLines.bind fun _ =>
    (close _ _ _).bind fun _ => node ht _

theorem blockOnOneLine {t : Tag} {items : List Draw.Item} (ht : P (.node .block, t.id))
    (h : MarksItems P items) : Marks P (Draw.blockOnOneLine t items) := by
  refine skip fun _ => skip fun _ => ?_
  extract_lets rest
  have hrest : Marks P (rest ()) := skip fun _ => (node ht _).bind fun _ => blank
  refine ite (fun _ => hrest) fun _ => ?_
  exact skip fun _ => (h.joined _).bind fun _ => skip fun _ => hrest

/-- Dropped parentheses are marked with the expression in them. -/
theorem marked {dropped : Option (List Tag)} {form : Form} {t : Tag} {sign : Option String}
    {content : Draw Unit} (hdropped : MayDrop P dropped)
    (ht : P (.node form, t.id)) (h : Marks P content) :
    Marks P (Draw.marked dropped form t sign content) := by
  have hmarks (outer : Nat) {ts : List Tag} (hts : ∀ t ∈ ts, P (.node .paren, t.id)) :
      Marks P (ts.forM fun t => Draw.markNode .paren t outer : Draw Unit) := by
    induction ts with
    | nil => exact pure ()
    | cons t ts ih =>
      obtain ⟨ht, hts⟩ := List.forall_mem_cons.1 hts
      exact (node ht outer).bind fun _ => ih hts
  refine skip fun outer => (inlineComments _).bind fun _ => ?_
  have hrest : Marks P (do
      let start ← Draw.offset
      content
      Draw.markNode form t start
      (dropped.getD []).forM fun t => Draw.markNode .paren t outer) :=
    skip fun _ => h.bind fun _ => (node ht _).bind fun _ => hmarks _ hdropped
  cases sign with
  | none => exact hrest
  | some s => exact (spaceIfCombines s).bind fun _ => hrest

/-- Something that may be left out, and what follows it. -/
theorem given {x : Option (Draw Unit)} {k : Unit → Draw Unit}
    (h : Marks P (x.getD (Pure.pure ()))) (hk : Marks P (k ())) :
    Marks P (match x with
      | some m => m >>= k
      | none => Pure.pure ()) := by
  cases x with
  | none => exact h
  | some m => exact h.bind fun _ => hk

theorem header {isFor : Bool} {init cond post : Option (Draw Unit)}
    (hinit : Marks P (init.getD (Pure.pure ()))) (hcond : Marks P (cond.getD (Pure.pure ())))
    (hpost : Marks P (post.getD (Pure.pure ()))) : Marks P (Draw.header isFor init cond post) := by
  refine skip fun _ => ite (fun _ => given hcond blank) fun _ => ?_
  refine hinit.bind fun _ => skip fun _ => hcond.bind fun _ => ite (fun _ => ?_) fun _ => ?_
  · exact skip fun _ => given hpost blank
  · exact ite (fun _ => blank) fun _ => blank

theorem sliceBounds {xs : List (Option (Draw Unit))}
    (h : ∀ x ∈ xs, Marks P (x.getD (Pure.pure ()))) (blanks before : Bool) :
    Marks P (Draw.sliceBounds blanks before xs) := by
  induction xs generalizing before with
  | nil => exact pure ()
  | cons x xs ih =>
    obtain ⟨hx, hxs⟩ := List.forall_mem_cons.1 h
    have hcolon {bound : Draw Unit} (hbound : Marks P bound) : Marks P
        (do Draw.text ":"; bound; Draw.sliceBounds blanks x.isSome xs) :=
      skip fun _ => hbound.bind fun _ => ih hxs _
    cases x with
    | none => exact perhaps (k := fun _ => do Draw.text ":"; _) blank (hcolon hx)
    | some m =>
      have hm : Marks P (if blanks = true then Draw.text " " >>= fun _ => m else m) :=
        perhaps (k := fun _ => m) blank hx
      have hall := hcolon hm
      cases blanks <;> exact perhaps (k := fun _ => do Draw.text ":"; _) blank hall

theorem fieldBlock {keyword : String} {span : Span} {fields : List Field} {items : List Draw.Item}
    (h : MarksItems P items) : Marks P (Draw.typeExpr.fieldBlock keyword span fields items) := by
  refine get fun p => skip fun _ => ite (fun _ => ?_) fun _ => ?_
  · cases items with
    | nil => exact blank
    | cons x xs => exact skip fun _ => (h x List.mem_cons_self).bind fun _ => blank
  · exact skip fun _ => skip fun _ => skip fun _ => (h.groupLines true).bind fun _ =>
      closeGroup _ _

theorem parensOf {nested : Bool} {bare inner : Draw Unit} (hbare : Marks P bare)
    (hinner : Marks P inner) : Marks P (Draw.expr.parens nested bare inner) :=
  ite (fun _ => hbare) fun _ => skip fun _ => hinner.bind fun _ => blank

theorem ofSignature {t : Tag} {fs rs : List Field} (ht : P (.node .signature, t.id))
    (hparams : MarksItems P (Draw.fieldItems fs)) (hresults : MarksItems P (Draw.fieldItems rs)) :
    Marks P (Draw.signature ⟨t, fs, rs⟩) := by
  rw [Draw.signature]
  refine skip fun _ => (hparams.params _ _).bind fun _ => ?_
  split
  · exact node ht _
  · exact skip fun _ => (hresults.joined "").bind fun _ => node ht _
  · exact skip fun _ => (hresults.params _ _).bind fun _ => node ht _

theorem ofMethod {t : Tag} {ns : List Name} {type : TypeExpr} {variadic : Bool}
    {label : Option String} (ht : P (.node .field, t.id))
    (hns : ∀ m ∈ ns.map (Name.mark .list), P m.subject) (htype : Marks P (Draw.typeExpr type))
    (hsig : ∀ ft sig, type = .func ft sig →
      P (.node .type, ft.id) ∧ Marks P (Draw.signature sig)) :
    Marks P (Draw.method ⟨t, ns, type, variadic, label⟩) := by
  have hbare := marking htype ht
  match ns, type with
  | [n], .func ft sig =>
    obtain ⟨hft, hdraw⟩ := hsig ft sig rfl
    have hmethod : Marks P (do
        let start ← Draw.offset
        Draw.name .list n
        let typeStart ← Draw.offset
        Draw.signature sig
        Draw.markNode .type ft typeStart
        Draw.markNode .field t start) :=
      skip fun _ => (name (hns _ List.mem_cons_self)).bind fun _ => skip fun _ =>
        hdraw.bind fun _ => (node hft _).bind fun _ => node ht _
    exact hmethod
  | [], _ | _ :: _ :: _, _ | [_], .named .. | [_], .pointer .. | [_], .slice .. | [_], .array ..
  | [_], .map .. | [_], .chan .. | [_], .struct .. | [_], .interface .. => exact hbare

end Marks

namespace Permits

variable {P : MarkKind × Nat → Prop} {S : Node → Prop}

mutual

theorem expr (h : Permits P S) {dropped : Option (List Tag)}
    (hdropped : MayDrop P dropped) (depth : Nat) :
    ∀ e : Expr, S (.expr e) → Marks P (Draw.expr dropped depth e)
  | .ident t n, hn => .marked hdropped (h.self hn) .blank
  | .lit t k x, hn => .marked hdropped (h.self hn) .blank
  | .funcLit t sig b, hn => by
    obtain ⟨hsig, hb⟩ : S (.signature sig) ∧ S (.block b) := by
      simpa [Node.pieces] using h.pieces hn
    exact .marked hdropped (h.self hn) (.skip fun _ => (h.signature sig hsig).bind fun _ =>
      h.body t.span b hb)
  | .composite t type elems, hn => by
    obtain ⟨htype, helems⟩ : (∀ t ∈ type, S (.type t)) ∧
        ∀ x ∈ elems.flatMap Element.pieces, x.Among S := by
      simpa [Node.pieces, or_imp, forall_and] using h.pieces hn
    exact .marked hdropped (h.self hn) ((h.typeOption type htype).bind fun _ => .skip fun _ =>
      ((h.elementItems elems helems).list _ _ _).bind fun _ => .blank)
  | .paren t e, hn => by
    have he : S (.expr e) := by
      simpa [Node.pieces] using h.pieces hn
    have hin (depth : Nat) : Marks P (Draw.expr none depth e) := h.expr .none depth e he
    have hself : P (.node .paren, t.id) := h.self hn
    cases dropped with
    | none => exact .marked hdropped hself (.parensOf (hin _) (hin _))
    | some ts =>
      exact .ite (fun _ => .marked hdropped hself (.parensOf (hin _) (hin _))) fun _ =>
        h.expr (hdropped.concat hself) depth e he
  | .selector t e sel, hn => by
    have he : S (.expr e) := by
      simpa [Node.pieces] using h.pieces hn
    exact .marked hdropped (h.self hn) ((h.expr .none depth e he).bind fun _ => .skip fun _ =>
      .name (h.names hn _ List.mem_cons_self))
  | .index t e i, hn => by
    obtain ⟨he, hi⟩ : S (.expr e) ∧ S (.expr i) := by
      simpa [Node.pieces] using h.pieces hn
    exact .marked hdropped (h.self hn) ((h.expr .none 1 e he).bind fun _ => .skip fun _ =>
      (h.expr .none _ i hi).bind fun _ => .blank)
  | .slice t e lo hi max, hn => by
    obtain ⟨he, hlo, hhi, hmax⟩ : S (.expr e) ∧ (∀ e ∈ lo, S (.expr e)) ∧
        (∀ e ∈ hi, S (.expr e)) ∧ ∀ e ∈ max, S (.expr e) := by
      simpa [Node.pieces, or_imp, forall_and] using h.pieces hn
    refine .marked hdropped (h.self hn) ((h.expr .none 1 e he).bind fun _ => .skip fun _ =>
      (h.exprOption .none _ lo hlo).bind fun _ =>
        (Marks.sliceBounds (fun x hx => ?_) _ _).bind fun _ => .blank)
    have hhi := h.exprOption MayDrop.none (depth + 1) hi hhi
    have hmax := h.exprOption MayDrop.none (depth + 1) max hmax
    split at hx
    · rcases List.mem_cons.1 hx with rfl | hx
      · exact hhi
      · rw [List.mem_singleton.1 hx]
        exact hmax
    · rw [List.mem_singleton.1 hx]
      exact hhi
  | .assert t e type, hn => by
    obtain ⟨he, htype⟩ : S (.expr e) ∧ ∀ t ∈ type, S (.type t) := by
      simpa [Node.pieces, or_imp, forall_and] using h.pieces hn
    exact .marked hdropped (h.self hn) ((h.expr .none 1 e he).bind fun _ => .skip fun _ =>
      .ite (fun _ => (h.typeOption type htype).bind fun _ => .blank) fun _ => .skip fun _ => .blank)
  | .call t callee args spread, hn => by
    obtain ⟨hcallee, hargs⟩ : S (.expr callee) ∧ ∀ e ∈ args, S (.expr e) := by
      simpa [Node.pieces, or_imp, forall_and] using h.pieces hn
    exact .marked hdropped (h.self hn) ((h.expr .none _ callee hcallee).bind fun _ =>
      .skip fun _ => ((h.exprItems _ args hargs).list _ _ _).bind fun _ => .blank)
  | .unary t op e, hn => by
    have he : S (.expr e) := by
      simpa [Node.pieces] using h.pieces hn
    exact .marked hdropped (h.self hn) ((Marks.operator _).bind fun _ => h.expr .none _ e he)
  | .binary t l op r, hn => by
    obtain ⟨hl, hr⟩ : S (.expr l) ∧ S (.expr r) := by
      simpa [Node.pieces] using h.pieces hn
    have hright : Marks P (Draw.expr none (depth + 1) r) := h.expr .none _ r hr
    refine .marked hdropped (h.self hn) ((h.expr .none _ l hl).bind fun _ => .perhaps .blank ?_)
    refine (Marks.operator _).bind fun _ => .get fun p => ?_
    split
    · refine .ite (fun _ => ?_) fun _ => .perhaps .blank hright
      exact .skip fun _ => .skip fun _ => hright.bind fun _ => .blank
    · exact .perhaps .blank hright
  | .type t type, hn => by
    have htype : S (.type type) := by
      simpa [Node.pieces] using h.pieces hn
    exact .marked hdropped (h.self hn) (h.typeExpr type htype)

theorem exprOption (h : Permits P S) {dropped : Option (List Tag)}
    (hdropped : MayDrop P dropped) (depth : Nat) : ∀ e : Option Expr,
    (∀ x ∈ e, S (.expr x)) → Marks P ((Draw.exprOption dropped depth e).getD (Pure.pure ()))
  | none, _ => .pure ()
  | some e, he => h.expr hdropped depth e (he e rfl)

theorem exprItems (h : Permits P S) (depth : Nat) : ∀ es : List Expr, (∀ e ∈ es, S (.expr e)) →
    MarksItems P (Draw.exprItems depth es)
  | [], _ => .nil
  | e :: es, hes => .cons (h.expr .none depth e (hes e List.mem_cons_self))
      (h.exprItems depth es fun x hx => hes x (List.mem_cons_of_mem _ hx))

theorem element (h : Permits P S) : ∀ e : Element, (∀ x ∈ e.pieces, x.Among S) →
    Marks P (Draw.element e)
  | ⟨key, value⟩, he => by
    obtain ⟨hkey, hvalue⟩ : (∀ e ∈ key, S (.expr e)) ∧ S (.expr value) := by
      simpa [Element.pieces, or_imp, forall_and] using he
    have hfirst := h.exprOption MayDrop.none 1 key hkey
    have hlast : Marks P (Draw.expr none 1 value) := h.expr .none 1 value hvalue
    cases key with
    | none => exact hlast
    | some key => exact hfirst.bind fun _ => .skip fun _ => hlast

theorem elementItems (h : Permits P S) : ∀ es : List Element,
    (∀ x ∈ es.flatMap Element.pieces, x.Among S) → MarksItems P (Draw.elementItems es)
  | [], _ => .nil
  | e :: es, hes => by
    rw [List.flatMap_cons, List.forall_mem_append] at hes
    exact .cons (h.element e hes.1) (h.elementItems es hes.2)

theorem typeExpr (h : Permits P S) : ∀ t : TypeExpr, S (.type t) → Marks P (Draw.typeExpr t)
  | .named t pkg n, hn => by
    refine .marking ?_ (h.self hn)
    cases pkg with
    | none => exact .blank
    | some pkg => exact .skip fun _ => .skip fun _ => .blank
  | .pointer t e, hn => by
    have he : S (.type e) := by
      simpa [Node.pieces, or_imp, forall_and] using h.pieces hn
    exact .marking (.skip fun _ => h.typeExpr e he) (h.self hn)
  | .slice t e, hn => by
    have he : S (.type e) := by
      simpa [Node.pieces, or_imp, forall_and] using h.pieces hn
    exact .marking (.skip fun _ => h.typeExpr e he) (h.self hn)
  | .array t len e, hn => by
    obtain ⟨hlen, he⟩ : (∀ e ∈ len, S (.expr e)) ∧ S (.type e) := by
      simpa [Node.pieces, or_imp, forall_and] using h.pieces hn
    have hsize := h.exprOption MayDrop.none 1 len hlen
    refine .marking (.skip fun _ => ?_) (h.self hn)
    cases len with
    | none => exact .skip (m := Draw.text "...") fun _ => .skip fun _ => h.typeExpr e he
    | some len => exact hsize.bind fun _ => .skip fun _ => h.typeExpr e he
  | .map t k v, hn => by
    obtain ⟨hk, hv⟩ : S (.type k) ∧ S (.type v) := by
      simpa [Node.pieces, or_imp, forall_and] using h.pieces hn
    exact .marking (.skip fun _ => (h.typeExpr k hk).bind fun _ => .skip fun _ => h.typeExpr v hv)
      (h.self hn)
  | .chan t dir e, hn => by
    have he : S (.type e) := by
      simpa [Node.pieces, or_imp, forall_and] using h.pieces hn
    exact .marking (.skip fun _ => h.typeExpr e he) (h.self hn)
  | .func t sig, hn => by
    have hsig : S (.signature sig) := by
      simpa [Node.pieces, or_imp, forall_and] using h.pieces hn
    exact .marking (.skip fun _ => h.signature sig hsig) (h.self hn)
  | .struct t fs, hn => by
    have hfs : ∀ f ∈ fs, S (.field f) := by
      simpa [Node.pieces, or_imp, forall_and] using h.pieces hn
    exact .marking (.fieldBlock (h.fieldItems fs hfs)) (h.self hn)
  | .interface t ms, hn => by
    have hms : ∀ f ∈ ms, S (.field f) := by
      simpa [Node.pieces, or_imp, forall_and] using h.pieces hn
    exact .marking (.fieldBlock (h.methodItems ms hms)) (h.self hn)

theorem typeOption (h : Permits P S) : ∀ t : Option TypeExpr, (∀ x ∈ t, S (.type x)) →
    Marks P (Draw.typeOption t)
  | none, _ => .pure ()
  | some t, ht => h.typeExpr t (ht t rfl)

theorem typeItems (h : Permits P S) : ∀ ts : List TypeExpr, (∀ t ∈ ts, S (.type t)) →
    MarksItems P (Draw.typeItems ts)
  | [], _ => .nil
  | t :: ts, hts => .cons (h.typeExpr t (hts t List.mem_cons_self))
      (h.typeItems ts fun x hx => hts x (List.mem_cons_of_mem _ hx))

theorem field (h : Permits P S) : ∀ f : Field, S (.field f) → Marks P (Draw.field f)
  | ⟨t, ns, type, variadic, label⟩, hn => by
    have htype : Marks P (Draw.typeExpr type) := by
      refine h.typeExpr type ?_
      simpa [Node.pieces, or_imp, forall_and] using h.pieces hn
    have ht : P (.node .field, t.id) := h.self hn
    refine .skip fun start => (Marks.names (h.names hn)).bind fun _ => ?_
    have hlabel : Marks P (do
        Draw.typeExpr type
        match label with
        | some l => do
          Draw.text " "
          Draw.text l
          Draw.markNode .field t start
        | none => Draw.markNode .field t start) := by
      refine htype.bind fun _ => ?_
      cases label with
      | none => exact .node ht _
      | some l => exact .skip fun _ => .skip fun _ => .node ht _
    cases ns <;> cases variadic
    · exact hlabel
    · exact .skip fun _ => hlabel
    · exact .skip fun _ => hlabel
    · exact .skip fun _ => .skip fun _ => hlabel

theorem fieldItems (h : Permits P S) : ∀ fs : List Field, (∀ f ∈ fs, S (.field f)) →
    MarksItems P (Draw.fieldItems fs)
  | [], _ => .nil
  | f :: fs, hfs => .cons (h.field f (hfs f List.mem_cons_self))
      (h.fieldItems fs fun x hx => hfs x (List.mem_cons_of_mem _ hx))

theorem method (h : Permits P S) : ∀ f : Field, S (.field f) → Marks P (Draw.method f)
  | ⟨t, ns, type, variadic, label⟩, hn => by
    have htype : S (.type type) := by
      simpa [Node.pieces, or_imp, forall_and] using h.pieces hn
    refine .ofMethod (h.self hn) (h.names hn) (h.typeExpr type htype) ?_
    cases type with
    | func ft sig =>
      rintro _ _ ⟨⟩
      have hsig : S (.signature sig) := by simpa [Node.pieces] using h.pieces htype
      exact ⟨h.self htype, h.signature sig hsig⟩
    | _ => exact nofun

theorem methodItems (h : Permits P S) : ∀ fs : List Field, (∀ f ∈ fs, S (.field f)) →
    MarksItems P (Draw.methodItems fs)
  | [], _ => .nil
  | f :: fs, hfs => .cons (h.method f (hfs f List.mem_cons_self))
      (h.methodItems fs fun x hx => hfs x (List.mem_cons_of_mem _ hx))

theorem signature (h : Permits P S) : ∀ s : Signature, S (.signature s) → Marks P (Draw.signature s)
  | ⟨t, ps, rs⟩, hn => by
    obtain ⟨hps, hrs⟩ : (∀ f ∈ ps, S (.field f)) ∧ ∀ f ∈ rs, S (.field f) := by
      simpa [Node.pieces, or_imp, forall_and] using h.pieces hn
    exact .ofSignature (h.self hn) (h.fieldItems ps hps) (h.fieldItems rs hrs)

theorem body (h : Permits P S) (outer : Span) : ∀ b : Block, S (.block b) →
    Marks P (Draw.body outer b)
  | ⟨t, ss⟩, hn => by
    have hss : ∀ s ∈ ss, S (.stmt s) := by
      simpa [Node.pieces, or_imp, forall_and] using h.pieces hn
    have hitems := h.stmtItems ss hss
    exact .skip fun _ => .get fun p => .ite (fun _ => .blockOnOneLine (h.self hn) hitems) fun _ =>
      .blockLines (h.self hn) hitems

theorem block (h : Permits P S) : ∀ b : Block, S (.block b) → Marks P (Draw.block b)
  | ⟨t, ss⟩, hn => by
    have hss : ∀ s ∈ ss, S (.stmt s) := by
      simpa [Node.pieces, or_imp, forall_and] using h.pieces hn
    exact .blockLines (h.self hn) (h.stmtItems ss hss)

theorem simple (h : Permits P S) : ∀ s : Simple, S (.simple s) → Marks P (Draw.simple s)
  | .expr t e, hn => by
    have he : S (.expr e) := by
      simpa [Node.pieces, or_imp, forall_and] using h.pieces hn
    exact .marking (h.expr .none 1 e he) (h.self hn)
  | .send t c v, hn => by
    obtain ⟨hc, hv⟩ : S (.expr c) ∧ S (.expr v) := by
      simpa [Node.pieces, or_imp, forall_and] using h.pieces hn
    exact .skip fun _ => (h.expr .none 1 c hc).bind fun _ => .skip fun _ =>
      (h.expr .none 1 v hv).bind fun _ => .node (h.self hn) _
  | .step t e op, hn => by
    have he : S (.expr e) := by
      simpa [Node.pieces, or_imp, forall_and] using h.pieces hn
    exact .skip fun _ => (h.expr .none 2 e he).bind fun _ => .skip fun _ => .node (h.self hn) _
  | .assign t l op r, hn => by
    obtain ⟨hl, hr⟩ : (∀ e ∈ l, S (.expr e)) ∧ ∀ e ∈ r, S (.expr e) := by
      simpa [Node.pieces, or_imp, forall_and] using h.pieces hn
    exact .skip fun _ => ((h.exprItems _ l hl).list _ _ _).bind fun _ => .skip fun _ =>
      .skip fun _ => .skip fun _ => ((h.exprItems _ r hr).list _ _ _).bind fun _ =>
        .node (h.self hn) _
  | .define t ns vs, hn => by
    have hvs : ∀ e ∈ vs, S (.expr e) := by
      simpa [Node.pieces, or_imp, forall_and] using h.pieces hn
    exact .skip fun _ => (Marks.names (h.names hn)).bind fun _ => .skip fun _ =>
      ((h.exprItems _ vs hvs).list _ _ _).bind fun _ => .node (h.self hn) _

theorem simpleOption (h : Permits P S) : ∀ s : Option Simple, (∀ x ∈ s, S (.simple x)) →
    Marks P ((Draw.simpleOption s).getD (Pure.pure ()))
  | none, _ => .pure ()
  | some s, hs => h.simple s (hs s rfl)

theorem stmt (h : Permits P S) : ∀ s : Stmt, S (.stmt s) → Marks P (Draw.stmt s)
  | .simple t s, hn => by
    have hs : S (.simple s) := by
      simpa [Node.pieces, or_imp, forall_and] using h.pieces hn
    exact .marking (h.simple s hs) (h.self hn)
  | .decl t d, hn => by
    have hd : S (.decl d) := by
      simpa [Node.pieces, or_imp, forall_and] using h.pieces hn
    exact .marking (h.decl d hd) (h.self hn)
  | .labeled t n s, hn => by
    have hs : S (.stmt s) := by
      simpa [Node.pieces, or_imp, forall_and] using h.pieces hn
    exact .marking ((Marks.name (h.names hn _ List.mem_cons_self)).bind fun _ => .skip fun _ =>
      .skip fun _ => (Marks.itemBreak _ 1).bind fun _ => h.stmt s hs) (h.self hn)
  | .go t e, hn => by
    have he : S (.expr e) := by
      simpa [Node.pieces, or_imp, forall_and] using h.pieces hn
    exact .marking (.skip fun _ => h.expr .none 1 e he) (h.self hn)
  | .defer t e, hn => by
    have he : S (.expr e) := by
      simpa [Node.pieces, or_imp, forall_and] using h.pieces hn
    exact .marking (.skip fun _ => h.expr .none 1 e he) (h.self hn)
  | .ret t es, hn => by
    have hes : ∀ e ∈ es, S (.expr e) := by
      simpa [Node.pieces, or_imp, forall_and] using h.pieces hn
    have hvalues := h.exprItems 1 es hes
    refine .marking (.skip fun _ => ?_) (h.self hn)
    cases es with
    | nil => exact .pure ()
    | cons e es => exact .skip fun _ => hvalues.list _ _ _
  | .branch t kind n, hn => by
    refine .marking (.skip fun _ => ?_) (h.self hn)
    cases n with
    | none => exact .pure ()
    | some n => exact .skip fun _ => .name (h.names hn _ List.mem_cons_self)
  | .block t b, hn => by
    have hb : S (.block b) := by
      simpa [Node.pieces, or_imp, forall_and] using h.pieces hn
    exact .marking (h.block b hb) (h.self hn)
  | .ifElse t init cond yes no, hn => by
    obtain ⟨hinit, hcond, hyes, hno⟩ : (∀ s ∈ init, S (.simple s)) ∧ S (.expr cond) ∧
        S (.block yes) ∧ ∀ s ∈ no, S (.stmt s) := by
      simpa [Node.pieces, or_imp, forall_and] using h.pieces hn
    have hhead : Marks P (Draw.header false (Draw.simpleOption init)
        (Draw.exprOption (some []) 1 (some cond)) none) :=
      .header (h.simpleOption init hinit) (h.expr .nil 1 cond hcond) (.pure ())
    have helse := h.stmtOption no hno
    refine .marking (.skip fun _ => hhead.bind fun _ => (h.block yes hyes).bind fun _ => ?_)
      (h.self hn)
    cases no with
    | none => exact .pure ()
    | some s => exact .skip fun _ => helse
  | .loop t head b, hn => by
    obtain ⟨hhead, hb⟩ : (∀ x ∈ head.pieces, x.Among S) ∧ S (.block b) := by
      simpa [Node.pieces, or_imp, forall_and] using h.pieces hn
    exact .marking (.skip fun _ => (h.loopHead head hhead).bind fun _ => h.block b hb) (h.self hn)
  | .switch t init subject cs, hn => by
    obtain ⟨hinit, hsubject, hcs⟩ : (∀ s ∈ init, S (.simple s)) ∧ (∀ e ∈ subject, S (.expr e)) ∧
        ∀ c ∈ cs, S (.clause c) := by
      simpa [Node.pieces, or_imp, forall_and] using h.pieces hn
    have hhead : Marks P (Draw.header false (Draw.simpleOption init)
        (Draw.exprOption (some []) 1 subject) none) :=
      .header (h.simpleOption init hinit) (h.exprOption .nil 1 subject hsubject) (.pure ())
    exact .marking (.skip fun _ => hhead.bind fun _ => (h.clauseItems cs hcs).clauseBody _)
      (h.self hn)
  | .typeSwitch t init bind guard cs, hn => by
    obtain ⟨hinit, hguard, hcs⟩ : (∀ s ∈ init, S (.simple s)) ∧ S (.expr guard) ∧
        ∀ c ∈ cs, S (.clause c) := by
      simpa [Node.pieces, or_imp, forall_and] using h.pieces hn
    have hfirst := h.simpleOption init hinit
    have hrest : Marks P (do
        Draw.expr none 1 guard
        Draw.text " "
        Draw.clauseBody t.span (Draw.clauseItems cs)) :=
      (h.expr .none 1 guard hguard).bind fun _ => .skip fun _ =>
        (h.clauseItems cs hcs).clauseBody _
    have hnames := h.names hn
    refine .marking (.skip fun _ => ?_) (h.self hn)
    cases init with
    | none =>
      cases bind with
      | none => exact hrest
      | some n => exact (Marks.name (hnames _ List.mem_cons_self)).bind fun _ => .skip fun _ =>
          hrest
    | some s =>
      cases bind with
      | none => exact hfirst.bind fun _ => .skip fun _ => hrest
      | some n => exact hfirst.bind fun _ => .skip fun _ =>
          (Marks.name (hnames _ List.mem_cons_self)).bind fun _ => .skip fun _ => hrest
  | .select t cs, hn => by
    have hcs : ∀ c ∈ cs, S (.comm c) := by
      simpa [Node.pieces, or_imp, forall_and] using h.pieces hn
    exact .marking (.skip fun _ => .get fun p => .ite (fun _ => .blank) fun _ =>
      (h.commItems cs hcs).clauseBody _) (h.self hn)

theorem stmtOption (h : Permits P S) : ∀ s : Option Stmt, (∀ x ∈ s, S (.stmt x)) →
    Marks P ((Draw.stmtOption s).getD (Pure.pure ()))
  | none, _ => .pure ()
  | some s, hs => h.stmt s (hs s rfl)

theorem stmtItems (h : Permits P S) : ∀ ss : List Stmt, (∀ s ∈ ss, S (.stmt s)) →
    MarksItems P (Draw.stmtItems ss)
  | [], _ => .nil
  | s :: ss, hss => .cons (h.stmt s (hss s List.mem_cons_self))
      (h.stmtItems ss fun x hx => hss x (List.mem_cons_of_mem _ hx))

theorem loopHead (h : Permits P S) : ∀ x : LoopHead, (∀ p ∈ x.pieces, p.Among S) →
    Marks P (Draw.loopHead x)
  | .forever, _ => @Marks.header _ true none none none (.pure ()) (.pure ()) (.pure ())
  | .cond e, hx => by
    have he : S (.expr e) := by
      simpa [LoopHead.pieces] using hx
    exact @Marks.header _ true none (Draw.exprOption (some []) 1 (some e)) none (.pure ())
      (h.expr .nil 1 e he) (.pure ())
  | .clause init cond post, hx => by
    obtain ⟨hinit, hcond, hpost⟩ : (∀ s ∈ init, S (.simple s)) ∧ (∀ e ∈ cond, S (.expr e)) ∧
        ∀ s ∈ post, S (.simple s) := by
      simpa [LoopHead.pieces, or_imp, forall_and] using hx
    exact .header (h.simpleOption init hinit) (h.exprOption .nil 1 cond hcond)
      (h.simpleOption post hpost)
  | .range key value define e, hx => by
    obtain ⟨hkey, hvalue, he⟩ : (∀ e ∈ key, S (.expr e)) ∧ (∀ e ∈ value, S (.expr e)) ∧
        S (.expr e) := by
      simpa [LoopHead.pieces, or_imp, forall_and] using hx
    have hkey := h.exprOption MayDrop.none 1 key hkey
    have hvalue := h.exprOption MayDrop.none 1 value hvalue
    have hrange : Marks P (do
        Draw.text "range "
        Draw.expr (some []) 1 e
        Draw.text " ") := .skip fun _ => (h.expr .nil 1 e he).bind fun _ => .blank
    refine .skip fun _ => ?_
    cases key with
    | none => exact hrange
    | some key =>
      cases value with
      | none => exact hkey.bind fun _ => .skip fun _ => hrange
      | some value => exact hkey.bind fun _ => .skip fun _ => hvalue.bind fun _ => .skip fun _ =>
          hrange

theorem cases (h : Permits P S) (start : Nat) : ∀ x : Cases, (∀ p ∈ x.pieces, p.Among S) →
    Marks P (Draw.cases start x)
  | .default, _ => @Marks.blank _ _ (Draw.text "default") _
  | .exprs es, hx => by
    have hes : ∀ e ∈ es, S (.expr e) := by
      simpa [Cases.pieces] using hx
    exact .skip fun _ => (h.exprItems 1 es hes).list _ _ _
  | .types ts, hx => by
    have hts : ∀ t ∈ ts, S (.type t) := by
      simpa [Cases.pieces] using hx
    exact .skip fun _ => (h.typeItems ts hts).list _ _ _

theorem clause (h : Permits P S) : ∀ c : Clause, S (.clause c) → Marks P (Draw.clause c)
  | ⟨t, cs, ss⟩, hn => by
    obtain ⟨hcs, hss⟩ : (∀ x ∈ cs.pieces, x.Among S) ∧ ∀ s ∈ ss, S (.stmt s) := by
      simpa [Node.pieces, or_imp, forall_and] using h.pieces hn
    exact .skip fun _ => .skip fun _ => (h.cases _ cs hcs).bind fun _ => .skip fun _ =>
      .skip fun _ =>
      (h.stmtItems ss hss).stmtLines.bind fun _ => .skip fun _ => .node (h.self hn) _

theorem clauseItems (h : Permits P S) : ∀ cs : List Clause, (∀ c ∈ cs, S (.clause c)) →
    MarksItems P (Draw.clauseItems cs)
  | [], _ => .nil
  | c :: cs, hcs => .cons (h.clause c (hcs c List.mem_cons_self))
      (h.clauseItems cs fun x hx => hcs x (List.mem_cons_of_mem _ hx))

theorem comm (h : Permits P S) : ∀ c : Comm, S (.comm c) → Marks P (Draw.comm c)
  | ⟨t, guard, ss⟩, hn => by
    obtain ⟨hguard, hss⟩ : (∀ s ∈ guard, S (.simple s)) ∧ ∀ s ∈ ss, S (.stmt s) := by
      simpa [Node.pieces, or_imp, forall_and] using h.pieces hn
    have hfirst := h.simpleOption guard hguard
    have hrest (start : Nat) : Marks P (do
        Draw.text ":"
        Draw.indentMore
        Draw.stmtLines (Draw.stmtItems ss)
        Draw.indentLess
        Draw.markNode .comm t start) :=
      .skip fun _ => .skip fun _ => (h.stmtItems ss hss).stmtLines.bind fun _ => .skip fun _ =>
        .node (h.self hn) _
    refine .skip fun _ => .skip fun _ => ?_
    cases guard with
    | none => exact .skip fun _ => hrest _
    | some s => exact .skip fun _ => hfirst.bind fun _ => .skip fun _ => hrest _

theorem commItems (h : Permits P S) : ∀ cs : List Comm, (∀ c ∈ cs, S (.comm c)) →
    MarksItems P (Draw.commItems cs)
  | [], _ => .nil
  | c :: cs, hcs => .cons (h.comm c (hcs c List.mem_cons_self))
      (h.commItems cs fun x hx => hcs x (List.mem_cons_of_mem _ hx))

theorem decl (h : Permits P S) : ∀ d : Decl, S (.decl d) → Marks P (Draw.decl d)
  | ⟨t, kind, grouped, ss⟩, hn => by
    have hss : ∀ s ∈ ss, S (.spec s) := by
      simpa [Node.pieces, or_imp, forall_and] using h.pieces hn
    have hitems := h.specItems ss hss
    have ht : P (.node .decl, t.id) := h.self hn
    refine .skip fun _ => .skip fun _ => .skip fun _ => ?_
    cases grouped <;> cases ss
    · exact .node ht _
    · exact (hitems _ List.mem_cons_self).bind fun _ => .node ht _
    · exact .skip fun _ => .node ht _
    · exact .skip fun _ => .skip fun _ => .skip fun _ => (hitems.groupLines true).bind fun _ =>
        (Marks.closeGroup _ _).bind fun _ => .node ht _

theorem spec (h : Permits P S) : ∀ s : Spec, S (.spec s) → Marks P (Draw.spec s)
  | .imports t none path, hn => .marking .blank (h.self hn)
  | .imports t (some n) path, hn => .skip fun _ =>
      (Marks.name (h.names hn _ List.mem_cons_self)).bind fun _ => .skip fun _ => .skip fun _ =>
        .node (h.self hn) _
  | .values t ns type vs, hn => by
    obtain ⟨htype, hvs⟩ : (∀ t ∈ type, S (.type t)) ∧ ∀ e ∈ vs, S (.expr e) := by
      simpa [Node.pieces, or_imp, forall_and] using h.pieces hn
    have hvalues := h.exprItems 1 vs hvs
    have ht : P (.node .valueSpec, t.id) := h.self hn
    refine .skip fun _ => (Marks.names (h.names hn)).bind fun _ =>
      .perhaps .blank ((h.typeOption type htype).bind fun _ => ?_)
    cases vs with
    | nil => exact .node ht _
    | cons v vs => exact .skip fun _ => (hvalues.list _ _ _).bind fun _ => .node ht _
  | .type t n isAlias type, hn => by
    have htype : S (.type type) := by
      simpa [Node.pieces, or_imp, forall_and] using h.pieces hn
    exact .skip fun _ => (Marks.name (h.names hn _ List.mem_cons_self)).bind fun _ => .skip fun _ =>
      (h.typeExpr type htype).bind fun _ => .node (h.self hn) _

theorem specItems (h : Permits P S) : ∀ ss : List Spec, (∀ s ∈ ss, S (.spec s)) →
    MarksItems P (Draw.specItems ss)
  | [], _ => .nil
  | s :: ss, hss => .cons (h.spec s (hss s List.mem_cons_self))
      (h.specItems ss fun x hx => hss x (List.mem_cons_of_mem _ hx))

end

theorem func (h : Permits P S) {f : FuncDecl} (hn : S (.func f)) : Marks P (Draw.func f) := by
  obtain ⟨t, recv, n, sig, b⟩ := f
  obtain ⟨hrecv, hsig, hb⟩ : (∀ f ∈ recv, S (.field f)) ∧ S (.signature sig) ∧
      ∀ x ∈ b, S (.block x) := by
    simpa [Node.pieces, or_imp, forall_and] using h.pieces hn
  have ht : P (.node .func, t.id) := h.self hn
  have hname : P (n.mark .func).subject := h.names hn _ List.mem_cons_self
  refine .skip fun start => .skip fun _ => ?_
  have hrest : Marks P (do
      Draw.name .func n
      Draw.signature sig
      b.elim (Draw.markNode .func t start) fun b => do
        Draw.body t.span b
        Draw.markNode .func t start) := by
    refine (Marks.name hname).bind fun _ => (h.signature sig hsig).bind fun _ => ?_
    cases b with
    | none => exact .node ht _
    | some b => exact (h.body t.span b (hb b rfl)).bind fun _ => .node ht _
  cases recv with
  | none => cases b <;> exact hrest
  | some r =>
    have hfield := h.field r (hrecv r rfl)
    cases b <;> exact Marks.skip fun _ => hfield.bind fun _ => Marks.skip fun _ => hrest

theorem topDecl (h : Permits P S) {d : TopDecl} (hd : S (Outline.ofTopDecl d).content) :
    Marks P (Draw.topDecl d) := by
  cases d with
  | decl d => exact h.decl d (by cases d; exact hd)
  | func f => exact h.func hd

theorem topDecls (h : Permits P S) (last : Option (Option DeclKind)) {ds : List TopDecl}
    (hds : ∀ d ∈ ds, S (Outline.ofTopDecl d).content) : Marks P (Draw.topDecls last ds) := by
  induction ds generalizing last with
  | nil => exact .pure ()
  | cons d ds ih =>
    obtain ⟨hd, hds⟩ := List.forall_mem_cons.1 hds
    exact .get fun _ => (Marks.itemBreak _ _).bind fun _ => (h.topDecl hd).bind fun _ =>
      .skip fun _ => ih _ hds

/-- Drawing a file marks the package clause, its name, and what its nodes may be marked with. -/
theorem sourceFile (h : Permits P S) {f : SourceFile} (hclause : P (.packageClause, f.tag.id))
    (hname : P (f.name.mark .packageName).subject)
    (hdecls : ∀ d ∈ f.decls, S (Outline.ofTopDecl d).content) : Marks P (Draw.sourceFile f) := by
  refine .skip fun _ => (Marks.flush _ 1).bind fun _ => .skip fun _ => .skip fun _ => ?_
  refine .skip fun _ => (Marks.name hname).bind fun _ => (Marks.mark hclause _).bind fun _ => .skip fun _ => ?_
  exact (h.topDecls none hdecls).bind fun _ => (Marks.flush _ 1).bind fun _ => .blank

end Permits

/-- Whatever is marked in the drawing of a file is one of its nodes or names, or its clause. -/
theorem Document.subjects_drawing (u : Document) (base : Nat) :
    ∀ m ∈ (u.drawing base).marks, m.subject ∈ u.file.marks.map Mark.subject := by
  let P : MarkKind × Nat → Prop := (· ∈ u.file.marks.map Mark.subject)
  have hown : ∀ n ∈ u.file.nodes, ∀ m ∈ n.marks, P m.subject := fun n hn m hm =>
    List.mem_map_of_mem (List.mem_cons_of_mem _ (List.mem_cons_of_mem _
      (List.mem_flatMap.2 ⟨n, hn, hm⟩)))
  have hpermits : Permits P (· ∈ u.file.nodes) := by
    refine ⟨hown, fun n hn c hc => ?_⟩
    obtain ⟨o, ho, hholds⟩ := SourceFile.mem_nodes.1 hn
    exact SourceFile.mem_nodes.2 ⟨o, ho, hholds.trans (.step hc (.self c))⟩
  have hmem {o : Outline} (ho : o ∈ Outline.ofFile u.file) {n : Node} (hn : o.content.Holds n) :
      n ∈ u.file.nodes := SourceFile.mem_nodes.2 ⟨o, ho, hn⟩
  have hfile : Marks P (Draw.sourceFile u.file) := by
    refine hpermits.sourceFile List.mem_cons_self
      (List.mem_cons_of_mem _ List.mem_cons_self) fun d hd => ?_
    exact hmem (List.mem_append_left _ (List.mem_map_of_mem hd)) (.self _)
  have hfresh : (Pen.fresh u.lines u.file.comments base).Allowed P := by
    refine ⟨nofun, fun g hg n hn => hown n ?_⟩
    exact hmem (o := Outline.ofCommentGroup g)
      (List.mem_append_right _ (List.mem_map_of_mem hg)) hn
  intro m hm
  exact (hfile _ hfresh).marked m (List.mem_reverse.1 hm)

end FuncLift
