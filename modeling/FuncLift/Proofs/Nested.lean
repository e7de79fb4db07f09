import FuncLift.Proofs.Handout

/-!
# Pieces in a row

What stands in a node from left to right are its pieces: the names that it owns and its children. A
tree is nested if the pieces of every node stand in a row inside of it. Where a piece stands is told
by a function, so that a tree can be looked at where it stands and where it will come to stand.
-/
namespace FuncLift

/-- A name of a node, or a child of it. -/
inductive Piece where
  | name (n : Name)
  | child (n : Node)

abbrev Name.piece (n : Name) : Piece := .name n

abbrev Expr.piece (e : Expr) : Piece := .child (.expr e)

abbrev TypeExpr.piece (t : TypeExpr) : Piece := .child (.type t)

abbrev Field.piece (f : Field) : Piece := .child (.field f)

abbrev Signature.piece (s : Signature) : Piece := .child (.signature s)

abbrev Block.piece (b : Block) : Piece := .child (.block b)

abbrev Simple.piece (s : Simple) : Piece := .child (.simple s)

abbrev Stmt.piece (s : Stmt) : Piece := .child (.stmt s)

abbrev Clause.piece (c : Clause) : Piece := .child (.clause c)

abbrev Comm.piece (c : Comm) : Piece := .child (.comm c)

abbrev Decl.piece (d : Decl) : Piece := .child (.decl d)

abbrev Spec.piece (s : Spec) : Piece := .child (.spec s)

abbrev FuncDecl.piece (f : FuncDecl) : Piece := .child (.func f)

abbrev Comment.piece (c : Comment) : Piece := .child (.comment c)

abbrev CommentGroup.piece (g : CommentGroup) : Piece := .child (.commentGroup g)

def TopDecl.piece : TopDecl → Piece
  | .decl d => d.piece
  | .func f => f.piece

def Element.pieces (e : Element) : List Piece := e.key.toList.map Expr.piece ++ [e.value.piece]

def LoopHead.pieces : LoopHead → List Piece
  | .forever => []
  | .cond e => [e.piece]
  | .clause init e post =>
    init.toList.map Simple.piece ++ (e.toList.map Expr.piece ++ post.toList.map Simple.piece)
  | .range key value _ e =>
    key.toList.map Expr.piece ++ (value.toList.map Expr.piece ++ [e.piece])

def Cases.pieces : Cases → List Piece
  | .default => []
  | .exprs es => es.map Expr.piece
  | .types ts => ts.map TypeExpr.piece

namespace Node

/-- The pieces of a node in the order of the text. -/
def pieces : Node → List Piece
  | .decl d => d.specs.map Spec.piece
  | .spec (.imports _ n _) => n.toList.map Name.piece
  | .spec (.values _ ns t vs) =>
    ns.map Name.piece ++ (t.toList.map TypeExpr.piece ++ vs.map Expr.piece)
  | .spec (.type _ n _ t) => [n.piece, t.piece]
  | .func f => f.recv.toList.map Field.piece ++
      f.name.piece :: f.sig.piece :: f.body.toList.map Block.piece
  | .signature s => s.params.map Field.piece ++ s.results.map Field.piece
  | .field f => f.names.map Name.piece ++ [f.type.piece]
  | .block b => b.stmts.map Stmt.piece
  | .stmt (.simple _ s) => [s.piece]
  | .stmt (.decl _ d) => [d.piece]
  | .stmt (.labeled _ n s) => [n.piece, s.piece]
  | .stmt (.go _ e) | .stmt (.defer _ e) => [e.piece]
  | .stmt (.ret _ es) => es.map Expr.piece
  | .stmt (.branch _ _ n) => n.toList.map Name.piece
  | .stmt (.block _ b) => [b.piece]
  | .stmt (.ifElse _ init cond yes no) => init.toList.map Simple.piece ++
      cond.piece :: yes.piece :: no.toList.map Stmt.piece
  | .stmt (.loop _ head b) => head.pieces ++ [b.piece]
  | .stmt (.switch _ init subject cs) => init.toList.map Simple.piece ++
      (subject.toList.map Expr.piece ++ cs.map Clause.piece)
  | .stmt (.typeSwitch _ init bind guard cs) => init.toList.map Simple.piece ++
      (bind.toList.map Name.piece ++ guard.piece :: cs.map Clause.piece)
  | .stmt (.select _ cs) => cs.map Comm.piece
  | .simple (.expr _ e) | .simple (.step _ e _) => [e.piece]
  | .simple (.send _ c v) => [c.piece, v.piece]
  | .simple (.assign _ l _ r) => l.map Expr.piece ++ r.map Expr.piece
  | .simple (.define _ ns vs) => ns.map Name.piece ++ vs.map Expr.piece
  | .expr (.ident _ _) | .expr (.lit _ _ _) => []
  | .expr (.funcLit _ sig b) => [sig.piece, b.piece]
  | .expr (.composite _ t es) => t.toList.map TypeExpr.piece ++ es.flatMap Element.pieces
  | .expr (.paren _ e) | .expr (.unary _ _ e) => [e.piece]
  | .expr (.selector _ e n) => [e.piece, n.piece]
  | .expr (.index _ e i) => [e.piece, i.piece]
  | .expr (.slice _ e lo hi max) => e.piece ::
      (lo.toList.map Expr.piece ++ (hi.toList.map Expr.piece ++ max.toList.map Expr.piece))
  | .expr (.assert _ e t) => e.piece :: t.toList.map TypeExpr.piece
  | .expr (.call _ f args _) => f.piece :: args.map Expr.piece
  | .expr (.binary _ l _ r) => [l.piece, r.piece]
  | .expr (.type _ t) => [t.piece]
  | .type (.named _ _ _) => []
  | .type (.pointer _ t) | .type (.slice _ t) | .type (.chan _ _ t) => [t.piece]
  | .type (.array _ len t) => len.toList.map Expr.piece ++ [t.piece]
  | .type (.map _ k v) => [k.piece, v.piece]
  | .type (.func _ sig) => [sig.piece]
  | .type (.struct _ fs) | .type (.interface _ fs) => fs.map Field.piece
  | .clause c => c.cases.pieces ++ c.stmts.map Stmt.piece
  | .comm c => c.comm.toList.map Simple.piece ++ c.stmts.map Stmt.piece
  | .comment _ => []
  | .commentGroup g => g.comments.map Comment.piece

/-- The entry of a node itself. -/
def self : Node → Entry
  | .decl d => ⟨d.tag, none, d.grouped || decide (d.specs.length ≤ 1)⟩
  | .stmt (.loop t head _) => ⟨t, none, head.isWhole⟩
  | .expr (.ident t s) | .expr (.lit t _ s) => ⟨t, some s, true⟩
  | .type (.interface t ms) => ⟨t, none, ms.all Field.isMember⟩
  | .comment c => c.entry
  | n => n.tag.entry

def entries : Node → List Entry
  | .decl d => d.entries
  | .spec s => s.entries
  | .func f => f.entries
  | .signature s => s.entries
  | .field f => f.entries
  | .block b => b.entries
  | .stmt s => s.entries
  | .simple s => s.entries
  | .expr e => e.entries
  | .type t => t.entries
  | .clause c => c.entries
  | .comm c => c.entries
  | .comment c => [c.entry]
  | .commentGroup g => g.entries

end Node

namespace Piece

def tag : Piece → Tag
  | .name n => n.tag
  | .child n => n.tag

def entries : Piece → List Entry
  | .name n => [n.entry]
  | .child n => n.entries

def entriesAll (ps : List Piece) : List Entry := ps.flatMap entries

@[simp] theorem entriesAll_nil : entriesAll [] = [] := rfl

@[simp] theorem entriesAll_cons (p : Piece) (ps : List Piece) :
    entriesAll (p :: ps) = p.entries ++ entriesAll ps := rfl

@[simp] theorem entriesAll_append (ps qs : List Piece) :
    entriesAll (ps ++ qs) = entriesAll ps ++ entriesAll qs := List.flatMap_append

@[simp] theorem entriesAll_names (ns : List Name) :
    entriesAll (ns.map Name.piece) = nameEntries ns := by
  induction ns with
  | nil => rfl
  | cons n ns ih => simpa [entries] using ih

/-- Children of one family. -/
theorem entriesAll_map {α : Type} {piece : α → Piece} {f : α → List Entry}
    (h : ∀ a, (piece a).entries = f a) (xs : List α) :
    entriesAll (xs.map piece) = xs.flatMap f := by
  rw [entriesAll, List.flatMap_map]
  exact congrArg (xs.flatMap ·) (funext h)

@[simp] theorem entriesAll_exprs (es : List Expr) :
    entriesAll (es.map Expr.piece) = es.flatMap Expr.entries := entriesAll_map (fun _ => rfl) es

@[simp] theorem entriesAll_types (ts : List TypeExpr) :
    entriesAll (ts.map TypeExpr.piece) = ts.flatMap TypeExpr.entries :=
  entriesAll_map (fun _ => rfl) ts

@[simp] theorem entriesAll_fields (fs : List Field) :
    entriesAll (fs.map Field.piece) = fs.flatMap Field.entries := entriesAll_map (fun _ => rfl) fs

@[simp] theorem entriesAll_blocks (bs : List Block) :
    entriesAll (bs.map Block.piece) = bs.flatMap Block.entries := entriesAll_map (fun _ => rfl) bs

@[simp] theorem entriesAll_simples (ss : List Simple) :
    entriesAll (ss.map Simple.piece) = ss.flatMap Simple.entries :=
  entriesAll_map (fun _ => rfl) ss

@[simp] theorem entriesAll_stmts (ss : List Stmt) :
    entriesAll (ss.map Stmt.piece) = ss.flatMap Stmt.entries := entriesAll_map (fun _ => rfl) ss

@[simp] theorem entriesAll_clauses (cs : List Clause) :
    entriesAll (cs.map Clause.piece) = cs.flatMap Clause.entries :=
  entriesAll_map (fun _ => rfl) cs

@[simp] theorem entriesAll_comms (cs : List Comm) :
    entriesAll (cs.map Comm.piece) = cs.flatMap Comm.entries := entriesAll_map (fun _ => rfl) cs

@[simp] theorem entriesAll_specs (ss : List Spec) :
    entriesAll (ss.map Spec.piece) = ss.flatMap Spec.entries := entriesAll_map (fun _ => rfl) ss

@[simp] theorem entriesAll_topDecls (ds : List TopDecl) :
    entriesAll (ds.map TopDecl.piece) = ds.flatMap TopDecl.entries :=
  entriesAll_map (fun d => by cases d <;> rfl) ds

@[simp] theorem entriesAll_comments (cs : List Comment) :
    entriesAll (cs.map Comment.piece) = cs.map Comment.entry := by
  rw [entriesAll_map (f := fun c => [c.entry]) (fun _ => rfl), ← List.map_eq_flatMap]

@[simp] theorem entriesAll_commentGroups (gs : List CommentGroup) :
    entriesAll (gs.map CommentGroup.piece) = gs.flatMap CommentGroup.entries :=
  entriesAll_map (fun _ => rfl) gs

@[simp] theorem entriesAll_loopHead (h : LoopHead) : entriesAll h.pieces = h.entries := by
  cases h <;> simp [LoopHead.pieces, Piece.entries, Node.entries]

@[simp] theorem entriesAll_cases (c : Cases) : entriesAll c.pieces = c.entries := by
  cases c <;> simp [Cases.pieces]

@[simp] theorem entriesAll_elements (es : List Element) :
    entriesAll (es.flatMap Element.pieces) = es.flatMap Element.entries := by
  induction es with
  | nil => rfl
  | cons e es ih =>
    cases e
    simp [Element.pieces, Piece.entries, Node.entries, ih]

end Piece

namespace Node

open Piece

@[simp] theorem tag_self (n : Node) : n.self.tag = n.tag := by
  rcases n with d | s | f | s | f | b | s | s | e | t | c | c | c | g
  all_goals first
    | rfl
    | (cases s <;> rfl)
    | (cases e <;> rfl)
    | (cases t <;> rfl)

/-- The entries of a node are its own and those of its pieces. -/
theorem perm_entries (n : Node) : n.entries.Perm (n.self :: entriesAll n.pieces) := by
  rw [List.perm_iff_count]
  intro x
  rcases n with d | s | f | s | f | b | s | s | e | t | c | c | c | g
  case decl => cases d; simp [entries, self, pieces]
  case spec => cases s <;> simp [entries, self, pieces, Node.tag, Spec.tag, Piece.entries]
  case func =>
    cases f
    simp [entries, self, pieces, Node.tag, Piece.entries, List.count_cons]
    omega
  case signature => cases s; simp [entries, self, pieces, Node.tag]
  case field => cases f; simp [entries, self, pieces, Node.tag, Piece.entries]
  case block => cases b; simp [entries, self, pieces, Node.tag]
  case stmt =>
    cases s with
    | typeSwitch t init bind guard cs =>
      simp [entries, self, pieces, Node.tag, Stmt.tag, Piece.entries, List.count_cons]
      omega
    | _ => simp [entries, self, pieces, Node.tag, Stmt.tag, Piece.entries]
  case simple => cases s <;> simp [entries, self, pieces, Node.tag, Simple.tag, Piece.entries]
  case expr =>
    cases e with
    | selector t e n =>
      simp [entries, self, pieces, Node.tag, Expr.tag, Piece.entries, List.count_cons]
    | _ => simp [entries, self, pieces, Node.tag, Expr.tag, Piece.entries]
  case type => cases t <;> simp [entries, self, pieces, Node.tag, TypeExpr.tag, Piece.entries]
  case clause => cases c; simp [entries, self, pieces, Node.tag]
  case comm => cases c; simp [entries, self, pieces, Node.tag]
  case comment => simp [entries, self, pieces]
  case commentGroup => cases g; simp [entries, self, pieces, Node.tag]

theorem mem_entries (n : Node) (x : Entry) :
    x ∈ n.entries ↔ x = n.self ∨ x ∈ entriesAll n.pieces := by
  rw [n.perm_entries.mem_iff, List.mem_cons]

end Node

mutual

/-- The pieces of a node stand in a row inside of it, and so do theirs. A condition holds of the
node and of all nodes below. -/
inductive Nested (place : Tag → Span) (Q : Node → Prop) : Node → Prop where
  | mk {n : Node} : Q n → Row place Q (place n.tag).start n.pieces (place n.tag).stop →
      Nested place Q n

/-- Pieces stand one behind the other between two offsets. -/
inductive Row (place : Tag → Span) (Q : Node → Prop) : Nat → List Piece → Nat → Prop where
  | nil {lo hi : Nat} : lo ≤ hi → Row place Q lo [] hi
  | name {lo hi : Nat} {n : Name} {ps : List Piece} : lo ≤ (place n.tag).start →
      (place n.tag).start ≤ (place n.tag).stop → Row place Q (place n.tag).stop ps hi →
      Row place Q lo (.name n :: ps) hi
  | child {lo hi : Nat} {n : Node} {ps : List Piece} : lo ≤ (place n.tag).start →
      Nested place Q n → Row place Q (place n.tag).stop ps hi → Row place Q lo (.child n :: ps) hi

end

section Row

variable {place : Tag → Span} {Q : Node → Prop} {lo mid hi : Nat} {ps qs : List Piece} {n : Node}

theorem Nested.local (h : Nested place Q n) : Q n := by
  cases h with
  | mk hq _ => exact hq

theorem Nested.row (h : Nested place Q n) :
    Row place Q (place n.tag).start n.pieces (place n.tag).stop := by
  cases h with
  | mk _ hrow => exact hrow

namespace Row

mutual

theorem le : ∀ {lo hi : Nat} {ps : List Piece}, Row place Q lo ps hi → lo ≤ hi
  | _, _, _, .nil h => h
  | _, _, _, .name h h' hrest => Nat.le_trans h (Nat.le_trans h' (le hrest))
  | _, _, _, .child h hn hrest => Nat.le_trans h (Nat.le_trans (nested_le hn) (le hrest))

theorem nested_le : ∀ {n : Node}, Nested place Q n → (place n.tag).start ≤ (place n.tag).stop
  | _, .mk _ hrow => le hrow

end

theorem append (h : Row place Q lo ps mid) (k : Row place Q mid qs hi) :
    Row place Q lo (ps ++ qs) hi := by
  induction ps generalizing lo with
  | nil =>
    cases h with
    | nil h =>
      cases k with
      | nil k => exact .nil (Nat.le_trans h k)
      | name k k' hrest => exact .name (Nat.le_trans h k) k' hrest
      | child k hn hrest => exact .child (Nat.le_trans h k) hn hrest
  | cons p ps ih =>
    cases h with
    | name h h' hrest => exact .name h h' (ih hrest)
    | child h hn hrest => exact .child h hn (ih hrest)

/-- A row may be looked at from farther away. -/
theorem widen {lo' hi' : Nat} (h : Row place Q lo ps hi) (hlo : lo' ≤ lo) (hhi : hi ≤ hi') :
    Row place Q lo' ps hi' := by
  have hleft : Row place Q lo' [] lo := .nil hlo
  have hright : Row place Q hi [] hi' := .nil hhi
  simpa using (hleft.append h).append hright

theorem split (h : Row place Q lo (ps ++ qs) hi) :
    ∃ mid, Row place Q lo ps mid ∧ Row place Q mid qs hi := by
  induction ps generalizing lo with
  | nil => exact ⟨lo, .nil (Nat.le_refl _), h⟩
  | cons p ps ih =>
    cases h with
    | name h h' hrest =>
      obtain ⟨mid, hps, hqs⟩ := ih hrest
      exact ⟨mid, .name h h' hps, hqs⟩
    | child h hn hrest =>
      obtain ⟨mid, hps, hqs⟩ := ih hrest
      exact ⟨mid, .child h hn hps, hqs⟩

/-- The first piece of a row and the others. -/
theorem cons {p : Piece} (h : Row place Q lo (p :: ps) hi) : lo ≤ (place p.tag).start ∧
    (place p.tag).start ≤ (place p.tag).stop ∧ (∀ n, p = .child n → Nested place Q n) ∧
      Row place Q (place p.tag).stop ps hi := by
  cases h with
  | name h h' hrest => exact ⟨h, h', by simp, hrest⟩
  | child h hn hrest => exact ⟨h, nested_le hn, by rintro _ ⟨⟩; exact hn, hrest⟩

/-- A piece of a row stands inside of it. -/
theorem of_mem (h : Row place Q lo ps hi) {p : Piece} (hp : p ∈ ps) : lo ≤ (place p.tag).start ∧
    (place p.tag).stop ≤ hi ∧ ∀ n, p = .child n → Nested place Q n := by
  obtain ⟨before, after, rfl⟩ := List.append_of_mem hp
  obtain ⟨mid, hbefore, hrest⟩ := h.split
  obtain ⟨hstart, _, hn, hafter⟩ := hrest.cons
  exact ⟨Nat.le_trans hbefore.le hstart, hafter.le, hn⟩

end Row

end Row

section Inside

variable {place : Tag → Span} {Q : Node → Prop}

mutual

/-- Every entry of a nested tree stands inside of its root. -/
theorem Nested.inside : ∀ {n : Node}, Nested place Q n → ∀ x ∈ n.entries,
    (place n.tag).start ≤ (place x.tag).start ∧ (place x.tag).start ≤ (place x.tag).stop ∧
      (place x.tag).stop ≤ (place n.tag).stop
  | n, .mk _ hrow, x, hx => by
    rcases (n.mem_entries x).1 hx with rfl | hx
    · rw [n.tag_self]
      exact ⟨Nat.le_refl _, hrow.le, Nat.le_refl _⟩
    · exact Row.inside hrow x hx

theorem Row.inside : ∀ {lo hi : Nat} {ps : List Piece}, Row place Q lo ps hi →
    ∀ x ∈ Piece.entriesAll ps, lo ≤ (place x.tag).start ∧
      (place x.tag).start ≤ (place x.tag).stop ∧ (place x.tag).stop ≤ hi
  | _, _, _, .nil _, x, hx => by cases hx
  | _, _, _, .name (n := n) h h' hrest, x, hx => by
    rcases List.mem_append.1 hx with hx | hx
    · rw [List.mem_singleton.1 hx]
      exact ⟨h, h', hrest.le⟩
    · obtain ⟨hstart, hordered, hstop⟩ := Row.inside hrest x hx
      exact ⟨Nat.le_trans h (Nat.le_trans h' hstart), hordered, hstop⟩
  | _, _, _, .child (n := n) h hn hrest, x, hx => by
    rcases List.mem_append.1 hx with hx | hx
    · obtain ⟨hstart, hordered, hstop⟩ := Nested.inside hn x hx
      exact ⟨Nat.le_trans h hstart, hordered, Nat.le_trans hstop hrest.le⟩
    · obtain ⟨hstart, hordered, hstop⟩ := Row.inside hrest x hx
      exact ⟨Nat.le_trans h (Nat.le_trans (Row.nested_le hn) hstart), hordered, hstop⟩

end

end Inside

end FuncLift
