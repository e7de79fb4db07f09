import FuncLift.Proofs.Nested

/-!
# Strips of tokens and pieces

While a node is read, what was read of it lies in a strip: tokens and pieces one behind the other,
none of them empty. A node that is made of a strip is tight: only its first piece can start where it
starts, only its last piece can end where it ends, and if both are the same piece, that piece is of
another rank. The rules below follow a reader through its steps with the strip that it has read.
-/
namespace FuncLift

namespace Node

/-- Where a node and its child have the same span, the child has the higher rank. -/
def rank : Node → Nat
  | .stmt _ | .func _ => 0
  | .simple _ | .decl _ | .block _ | .clause _ | .comm _ => 1
  | .spec _ => 2
  | .expr _ | .field _ => 3
  | .type _ => 4
  | .signature _ | .comment _ | .commentGroup _ => 5

/-- The list of statements of a node that has one. -/
def list : Node → List Stmt
  | .block b => b.stmts
  | .clause c => c.stmts
  | .comm c => c.stmts
  | _ => []

end Node

/-- What the text holds a node to. -/
structure Tight (n : Node) : Prop where
  nonempty : n.span.start < n.span.stop
  names : ∀ m, .name m ∈ n.pieces → m.tag.span.start < m.tag.span.stop
  smaller : ∀ c, .child c ∈ n.pieces →
    n.rank < c.rank ∨ n.span.start < c.span.start ∨ c.span.stop < n.span.stop
  opens : ∀ s ∈ n.list, n.span.start < s.span.start

/-- Tight nodes, one inside of the other. -/
abbrev Upright (n : Node) : Prop := Nested Tag.span Tight n

theorem Nested.tight {n : Node} (h : Upright n) : n.span.start < n.span.stop := h.local.nonempty

/-- A name is not empty, and a child is upright. -/
def Piece.Sound : Piece → Prop
  | .name n => n.tag.span.start < n.tag.span.stop
  | .child n => Upright n

def Piece.span (p : Piece) : Span := p.tag.span

theorem Piece.Sound.lt {p : Piece} (h : p.Sound) : p.span.start < p.span.stop := by
  cases p with
  | name n => exact h
  | child n => exact Nested.tight h

/-- Tokens and pieces one behind the other. A token is not told apart from others. -/
inductive Strip : Nat → List (Option Piece) → Nat → Prop where
  | nil {lo hi : Nat} : lo ≤ hi → Strip lo [] hi
  | token {lo a b hi : Nat} {xs : List (Option Piece)} : lo ≤ a → a < b → Strip b xs hi →
      Strip lo (none :: xs) hi
  | piece {lo hi : Nat} {p : Piece} {xs : List (Option Piece)} : lo ≤ p.span.start → p.Sound →
      Strip p.span.stop xs hi → Strip lo (some p :: xs) hi

/-- Pieces alone. -/
def solid (ps : List Piece) : List (Option Piece) := ps.map some

@[simp] theorem solid_nil : solid [] = [] := rfl

@[simp] theorem solid_cons (p : Piece) (ps : List Piece) : solid (p :: ps) = some p :: solid ps := rfl

@[simp] theorem solid_append (ps qs : List Piece) : solid (ps ++ qs) = solid ps ++ solid qs :=
  List.map_append

/-- The pieces of a strip. -/
def piecesOf : List (Option Piece) → List Piece
  | [] => []
  | none :: xs => piecesOf xs
  | some p :: xs => p :: piecesOf xs

@[simp] theorem piecesOf_nil : piecesOf [] = [] := rfl

@[simp] theorem piecesOf_none (xs : List (Option Piece)) :
    piecesOf (none :: xs) = piecesOf xs := rfl

@[simp] theorem piecesOf_some (p : Piece) (xs : List (Option Piece)) :
    piecesOf (some p :: xs) = p :: piecesOf xs := rfl

@[simp] theorem piecesOf_append (xs ys : List (Option Piece)) :
    piecesOf (xs ++ ys) = piecesOf xs ++ piecesOf ys := by
  induction xs with
  | nil => rfl
  | cons x xs ih => cases x <;> simp [ih]

@[simp] theorem piecesOf_solid (ps : List Piece) : piecesOf (solid ps) = ps := by
  induction ps with
  | nil => rfl
  | cons p ps ih => simpa using ih

namespace Strip

variable {lo mid hi : Nat} {xs ys : List (Option Piece)} {p : Piece}

theorem le (h : Strip lo xs hi) : lo ≤ hi := by
  induction h with
  | nil h => exact h
  | token h h' _ ih => omega
  | piece h hp _ ih => exact Nat.le_trans h (Nat.le_trans (Nat.le_of_lt hp.lt) ih)

theorem lt (h : Strip lo xs hi) (hne : xs ≠ []) : lo < hi := by
  cases h with
  | nil h => exact absurd rfl hne
  | token h h' hrest =>
    have := hrest.le
    omega
  | piece h hp hrest =>
    have := hrest.le
    have := hp.lt
    omega

theorem append (h : Strip lo xs mid) (k : Strip mid ys hi) : Strip lo (xs ++ ys) hi := by
  induction h with
  | nil h =>
    cases k with
    | nil k => exact .nil (Nat.le_trans h k)
    | token k k' hrest => exact .token (Nat.le_trans h k) k' hrest
    | piece k hp hrest => exact .piece (Nat.le_trans h k) hp hrest
  | token h h' _ ih => exact .token h h' (ih k)
  | piece h hp _ ih => exact .piece h hp (ih k)

theorem widen {lo' hi' : Nat} (h : Strip lo xs hi) (hlo : lo' ≤ lo) (hhi : hi ≤ hi') :
    Strip lo' xs hi' := by
  have hleft : Strip lo' [] lo := .nil hlo
  have hright : Strip hi [] hi' := .nil hhi
  simpa using (hleft.append h).append hright

theorem split (h : Strip lo (xs ++ ys) hi) : ∃ mid, Strip lo xs mid ∧ Strip mid ys hi := by
  induction xs generalizing lo with
  | nil => exact ⟨lo, .nil (Nat.le_refl _), h⟩
  | cons x xs ih =>
    cases h with
    | token h h' hrest =>
      obtain ⟨mid, hxs, hys⟩ := ih hrest
      exact ⟨mid, .token h h' hxs, hys⟩
    | piece h hp hrest =>
      obtain ⟨mid, hxs, hys⟩ := ih hrest
      exact ⟨mid, .piece h hp hxs, hys⟩

theorem forget (h : Strip lo xs hi) : Strip lo (solid (piecesOf xs)) hi := by
  induction h with
  | nil h => exact .nil h
  | token h h' _ ih => exact ih.widen (by omega) (Nat.le_refl _)
  | piece h hp _ ih => exact .piece h hp ih

theorem drop (xs : List (Option Piece)) (h : Strip lo (xs ++ none :: ys) hi) : Strip lo (xs ++ ys) hi := by
  obtain ⟨mid, hxs, hrest⟩ := h.split
  cases hrest with
  | token h h' hys => exact hxs.append (hys.widen (by omega) (Nat.le_refl _))

theorem row (h : Strip lo xs hi) : Row Tag.span Tight lo (piecesOf xs) hi := by
  induction h with
  | nil h => exact .nil h
  | token h h' _ ih => exact ih.widen (by omega) (Nat.le_refl _)
  | @piece lo hi p xs h hp _ ih =>
    cases p with
    | name n => exact .name h (Nat.le_of_lt hp) ih
    | child n => exact .child h hp ih

theorem of_mem_piecesOf (h : p ∈ piecesOf xs) : ∃ as bs, xs = as ++ some p :: bs := by
  induction xs with
  | nil => cases h
  | cons x xs ih =>
    cases x with
    | none =>
      obtain ⟨as, bs, rfl⟩ := ih h
      exact ⟨none :: as, bs, rfl⟩
    | some q =>
      rcases List.mem_cons.1 h with rfl | h
      · exact ⟨[], xs, rfl⟩
      · obtain ⟨as, bs, rfl⟩ := ih h
        exact ⟨some q :: as, bs, rfl⟩

theorem one (hp : p.Sound) : Strip p.span.start [some p] p.span.stop :=
  .piece (Nat.le_refl _) hp (.nil (Nat.le_refl _))

theorem blur (h : Strip lo xs hi) (hne : xs ≠ []) : Strip lo [none] hi :=
  .token (Nat.le_refl _) (h.lt hne) (.nil (Nat.le_refl _))

theorem replace (xs : List (Option Piece)) {zs : List (Option Piece)} (h : Strip lo (xs ++ some p :: ys) hi)
    (hp : p.Sound → Strip p.span.start zs p.span.stop) : Strip lo (xs ++ (zs ++ ys)) hi := by
  obtain ⟨mid, hxs, hrest⟩ := h.split
  cases hrest with
  | piece h hsound hys =>
    exact hxs.append (((hp hsound).widen h (Nat.le_refl _)).append hys)

end Strip

theorem Nested.strip {n : Node} (h : Upright n) :
    Strip n.span.start (solid n.pieces) n.span.stop := by
  have hrow (lo hi : Nat) (ps : List Piece) (hps : Row Tag.span Tight lo ps hi)
      (hsub : ∀ m, .name m ∈ ps → m.tag.span.start < m.tag.span.stop) : Strip lo (solid ps) hi := by
    induction ps generalizing lo with
    | nil => exact .nil hps.le
    | cons p ps ih =>
      have hsub' := fun m hm => hsub m (List.mem_cons_of_mem p hm)
      cases hps with
      | name h _ hrest => exact .piece h (hsub _ List.mem_cons_self) (ih _ hrest hsub')
      | child h hn hrest => exact .piece h hn (ih _ hrest hsub')
  exact hrow _ _ _ h.row h.local.names

/-- A strip that a node can be made of. A node with statements starts with a token; a piece that is
alone is of higher rank. -/
def Opens (n : Node) : List (Option Piece) → Prop
  | [] => False
  | none :: _ => True
  | some (.name _) :: _ => n.list = []
  | some (.child c) :: xs => n.list = [] ∧ (n.rank < c.rank ∨ xs ≠ [])

/-- The strip is what the node holds, and the node covers the place it is read from. -/
structure Wraps (n : Node) (span : Span) (xs : List (Option Piece)) : Prop where
  span : n.span = span
  pieces : piecesOf xs = n.pieces
  opens : Opens n xs

theorem Strip.upright {n : Node} {xs : List (Option Piece)} (h : Strip n.span.start xs n.span.stop)
    (hpieces : piecesOf xs = n.pieces) (hopens : Opens n xs) : Upright n := by
  have hne : xs ≠ [] := by
    rintro rfl
    exact hopens
  have hchild {p : Piece} {as bs : List (Option Piece)} (hxs : xs = as ++ some p :: bs) :
      p.Sound ∧ (as ≠ [] → n.span.start < p.span.start) ∧ (bs ≠ [] → p.span.stop < n.span.stop) := by
    subst hxs
    obtain ⟨mid, has, hrest⟩ := h.split
    cases hrest with
    | piece hle hp hbs =>
      exact ⟨hp, fun hne => Nat.lt_of_lt_of_le (has.lt hne) hle, fun hne => hbs.lt hne⟩
  have hstmt : ∀ s ∈ n.list, .child (.stmt s) ∈ n.pieces := by
    intro s hs
    rcases n with _ | _ | _ | _ | _ | b | _ | _ | _ | _ | c | c | _ | _
    case block => exact List.mem_map_of_mem hs
    case clause => exact List.mem_append_right _ (List.mem_map_of_mem hs)
    case comm => exact List.mem_append_right _ (List.mem_map_of_mem hs)
    all_goals cases hs
  refine .mk ⟨h.lt hne, fun m hm => ?_, fun c hc => ?_, fun s hs => ?_⟩ ?_
  · obtain ⟨as, bs, hxs⟩ := Strip.of_mem_piecesOf (hpieces ▸ hm)
    exact (hchild hxs).1
  · obtain ⟨as, bs, hxs⟩ := Strip.of_mem_piecesOf (hpieces ▸ hc)
    by_cases has : as = []
    · subst has hxs
      rcases hopens.2 with hrank | hbs
      · exact .inl hrank
      · exact .inr (.inr ((hchild rfl).2.2 hbs))
    · exact .inr (.inl ((hchild hxs).2.1 has))
  · obtain ⟨as, bs, hxs⟩ := Strip.of_mem_piecesOf (hpieces ▸ hstmt s hs)
    by_cases has : as = []
    · subst has hxs
      rw [hopens.1] at hs
      cases hs
    · exact (hchild hxs).2.1 has
  · rw [← hpieces]
    exact h.row

theorem Strip.wrap {n c : Node} (hspan : n.span = c.span) (hpieces : n.pieces = [.child c])
    (hlist : n.list = []) (hrank : n.rank < c.rank) (hc : Upright c) :
    Strip c.span.start [some (.child n)] c.span.stop := by
  have hone : Strip c.span.start [some (.child c)] c.span.stop := Strip.one (p := .child c) hc
  have hn : Upright n := by
    rw [← hspan] at hone
    exact hone.upright hpieces.symm ⟨hlist, .inl hrank⟩
  have htwo := Strip.one (p := .child n) hn
  rwa [show (Piece.child n).span = c.span from hspan] at htwo

/-- Tokens one behind the other. Only the semicolon of a line end is empty. -/
def Runs : Nat → List Placed → Nat → Prop
  | lo, [], size => lo ≤ size
  | lo, p :: ps, size => lo ≤ p.span.start ∧ p.span.start ≤ p.span.stop ∧
      (Read.isLineEnd p = false → p.span.start < p.span.stop) ∧ Runs p.span.stop ps size

theorem Runs.mono {lo lo' size : Nat} {ps : List Placed} (h : Runs lo ps size) (hlo : lo' ≤ lo) :
    Runs lo' ps size := by
  cases ps with
  | nil => exact Nat.le_trans hlo h
  | cons p ps => exact ⟨Nat.le_trans hlo h.1, h.2⟩

namespace Cursor

def Ordered (c : Cursor) : Prop := Runs c.reached c.ahead c.size

theorem Ordered.reached_le {c : Cursor} (h : c.Ordered) : c.reached ≤ c.next := by
  obtain ⟨ahead, size, reached, literals, nextId⟩ := c
  cases ahead with
  | nil => exact h
  | cons p ps => exact h.1

end Cursor

/-- What was read since an offset lies in a strip up to the last token. -/
structure Taken (r s : Nat) (xs : List (Option Piece)) (c : Cursor) : Prop where
  ordered : c.Ordered
  reached : r ≤ c.reached
  next : s ≤ c.next
  strip : xs ≠ [] → Strip s xs c.reached

namespace Taken

variable {r s : Nat} {xs ys : List (Option Piece)} {c c' : Cursor}

theorem fresh (h : c.Ordered) : Taken c.reached c.next [] c :=
  ⟨h, Nat.le_refl _, Nat.le_refl _, fun hne => absurd rfl hne⟩

theorem append (h : Taken r s xs c) (k : Taken c.reached c.next ys c') :
    Taken r s (xs ++ ys) c' := by
  have hle := h.ordered.reached_le
  refine ⟨k.ordered, Nat.le_trans h.reached k.reached, Nat.le_trans h.next k.next, fun hne => ?_⟩
  by_cases hxs : xs = []
  · subst hxs
    exact (k.strip hne).widen h.next (Nat.le_refl _)
  · by_cases hys : ys = []
    · subst hys
      rw [List.append_nil]
      exact (h.strip hxs).widen (Nat.le_refl _) k.reached
    · exact ((h.strip hxs).widen (Nat.le_refl _) hle).append (k.strip hys)

theorem imp (h : Taken r s xs c) (hne : ys ≠ [] → xs ≠ [])
    (hstrip : ∀ lo hi, Strip lo xs hi → Strip lo ys hi) : Taken r s ys c :=
  ⟨h.ordered, h.reached, h.next, fun hys => hstrip _ _ (h.strip (hne hys))⟩

theorem same (h : Taken r s xs c) (hahead : c'.ahead = c.ahead) (hsize : c'.size = c.size)
    (hreached : c'.reached = c.reached) : Taken r s xs c' := by
  have hnext : c'.next = c.next := by rw [Cursor.next, Cursor.next, hahead, hsize]
  refine ⟨?_, hreached ▸ h.reached, hnext ▸ h.next, hreached ▸ h.strip⟩
  have hordered := h.ordered
  rwa [Cursor.Ordered, ← hahead, ← hsize, ← hreached] at hordered

theorem node {n : Node} (h : Taken r s xs c) (hn : Wraps n ⟨s, max c.reached s⟩ xs) :
    Taken r s [some (.child n)] c := by
  obtain ⟨hspan, hpieces, hopens⟩ := hn
  have hne : xs ≠ [] := by
    rintro rfl
    exact hopens
  have hstrip := h.strip hne
  have hlt := hstrip.lt hne
  have hstart : n.span.start = s := by rw [hspan]
  have hstop : n.span.stop = c.reached := by
    rw [hspan]
    exact Nat.max_eq_left (Nat.le_of_lt hlt)
  have hnode : Upright n := by
    refine Strip.upright ?_ hpieces hopens
    rwa [hstart, hstop]
  exact ⟨h.ordered, h.reached, h.next, fun _ =>
    .piece (Nat.le_of_eq hstart.symm) hnode (.nil (Nat.le_of_eq hstop))⟩

theorem take {p : Placed} (h : c.Ordered) (ht : Read.take c = .ok (p, c')) :
    Taken c.reached c.next [] c' ∧ ∀ t, Facing (some t) c → t ≠ .punct .semi →
      p.span.start = c.next ∧ p.span.start < p.span.stop ∧ c'.reached = p.span.stop := by
  obtain ⟨ahead, size, reached, literals, nextId⟩ := c
  cases ahead with
  | nil =>
    cases ht
    have hle : reached ≤ size := h
    exact ⟨⟨Nat.le_refl size, hle, Nat.le_refl size, fun hne => absurd rfl hne⟩, fun t ht => by cases ht⟩
  | cons q rest =>
    cases ht
    obtain ⟨hstart, hle, hreal, hrest⟩ := h
    have hstop : p.span.stop ≤ (Cursor.mk rest size p.span.stop literals nextId).next :=
      Cursor.Ordered.reached_le (c := ⟨rest, size, p.span.stop, literals, nextId⟩) hrest
    refine ⟨⟨?_, ?_, Nat.le_trans hle hstop, fun hne => absurd rfl hne⟩, fun t ht hne => ?_⟩
    · change Runs (if Read.isLineEnd p = true then reached else p.span.stop) rest size
      split
      · exact hrest.mono (Nat.le_trans hstart hle)
      · exact hrest
    · change reached ≤ if Read.isLineEnd p = true then reached else p.span.stop
      split
      · exact Nat.le_refl _
      · exact Nat.le_trans hstart hle
    · have hline : Read.isLineEnd p = false := by
        have htoken : p.token = t := by simpa [Facing] using ht
        simp [Read.isLineEnd, htoken, hne]
      refine ⟨rfl, hreal hline, ?_⟩
      change (if Read.isLineEnd p = true then reached else p.span.stop) = p.span.stop
      rw [hline]
      rfl

end Taken

/-- A reader that has read a strip since an offset, and has read the pieces of its result when it
is done. -/
def Lays {α : Type} (s : Nat) (pre : Cursor → Prop) (xs : List (Option Piece)) (m : Read α)
    (out : α → List Piece) (post : α → Prop) : Prop :=
  ∀ r c a c', Taken r s xs c → pre c → m c = .ok (a, c') → Taken r s (solid (out a)) c' ∧ post a

/-- A reader that starts where it is. -/
abbrev Reads {α : Type} (m : Read α) (out : α → List Piece) : Prop :=
  ∀ s, Lays s Anywhere [] m out fun _ => True

namespace Lays

variable {α β : Type} {s : Nat} {pre : Cursor → Prop} {xs ys : List (Option Piece)} {m : Read α}
  {f : α → Read β} {out : α → List Piece} {post : α → Prop} {out' : β → List Piece}
  {post' : β → Prop}

theorem of_pre {pre' : Cursor → Prop} (h : Lays s pre xs m out post) (hp : ∀ c, pre' c → pre c) :
    Lays s pre' xs m out post := fun r c a c' hs hc => h r c a c' hs (hp c hc)

theorem of_anywhere (h : Lays s Anywhere xs m out post) : Lays s pre xs m out post :=
  h.of_pre fun _ _ => trivial

theorem never (h : ∀ c x, m c ≠ .ok x) : Lays s pre xs m out post :=
  fun _ c _ _ _ _ hm => absurd hm (h c _)

theorem neverThen (h : ∀ c x, m c ≠ .ok x) : Lays s pre xs (m >>= f) out' post' :=
  never fun c _ hm => by
    obtain ⟨_, _, hm, _⟩ := Read.bind_ok.1 hm
    exact h c _ hm

theorem unexpected {w : Wanted} : Lays s pre xs (Read.unexpected w) out post :=
  never fun _ _ => Read.unexpected_not_ok

theorem exhausted : Lays s pre xs Read.exhausted out post := never fun _ _ => Read.exhausted_not_ok

theorem fail {e : ParseFault} {span : Span} : Lays s pre xs (Read.fail e span) out post :=
  never fun _ _ => Read.fail_not_ok

theorem imp (h : Lays s pre ys m out post) (hne : ys ≠ [] → xs ≠ [])
    (hstrip : ∀ lo hi, Strip lo xs hi → Strip lo ys hi) : Lays s pre xs m out post :=
  fun r c a c' hs hp hm => h r c a c' (hs.imp hne hstrip) hp hm

theorem blur (h : Lays s pre [none] m out post) (hne : xs ≠ []) : Lays s pre xs m out post :=
  h.imp (fun _ => hne) fun _ _ hstrip => hstrip.blur hne

theorem pure {a : α} (hout : piecesOf xs = out a) (hp : post a) :
    Lays s pre xs (pure a) out post := by
  intro r c b c' hs _ hm
  obtain ⟨rfl, rfl⟩ := Read.pure_ok.1 hm
  refine ⟨hs.imp (fun hne hnil => hne ?_) fun lo hi h => hout ▸ h.forget, hp⟩
  rw [← hout, hnil]
  rfl

theorem bind (h : Lays s pre xs m out post)
    (k : ∀ a, post a → Lays s Anywhere (solid (out a)) (f a) out' post') :
    Lays s pre xs (m >>= f) out' post' := by
  intro r c b c'' hs hp hm
  obtain ⟨a, c', hm, hf⟩ := Read.bind_ok.1 hm
  obtain ⟨hs', ha⟩ := h r c a c' hs hp hm
  exact k a ha r c' b c'' hs' trivial hf

theorem step (h : ∀ s, Lays s pre [] m out post)
    (k : ∀ a, post a → Lays s Anywhere (xs ++ solid (out a)) (f a) out' post') :
    Lays s pre xs (m >>= f) out' post' := by
  intro r c b c'' hs hp hm
  obtain ⟨a, c', hm, hf⟩ := Read.bind_ok.1 hm
  obtain ⟨hs', ha⟩ := h c.next c.reached c a c' (.fresh hs.ordered) hp hm
  exact k a ha r c' b c'' (hs.append hs') trivial hf

theorem stepAs (out : α → List Piece) (h : Reads m out)
    (k : ∀ a, Lays s Anywhere (xs ++ solid (out a)) (f a) out' post') :
    Lays s Anywhere xs (m >>= f) out' post' := step h fun a _ => k a

theorem ret {a : α} (h : Lays s pre xs (f a) out' post') :
    Lays s pre xs (Pure.pure a >>= f) out' post' := h

theorem stay (hm : ∀ c a c', m c = .ok (a, c') → c' = c)
    (k : ∀ a, Lays s pre xs (f a) out' post') : Lays s pre xs (m >>= f) out' post' := by
  intro r c b c'' hs hp h
  obtain ⟨a, c', hmc, hf⟩ := Read.bind_ok.1 h
  cases hm c a c' hmc
  exact k a r c b c'' hs hp hf

theorem get {f : Cursor → Read β} (k : ∀ c, Lays s pre xs (f c) out' post') :
    Lays s pre xs (get >>= f) out' post' :=
  stay (fun _ _ _ h => (Read.get_ok.1 h).2.symm) k

theorem peek {f : Option Token → Read β} (k : ∀ t, Lays s (Facing t) xs (f t) out' post') :
    Lays s pre xs (Read.peek >>= f) out' post' := by
  intro r c b c' hs _ hm
  obtain ⟨t, c1, hp, hm⟩ := Read.bind_ok.1 hm
  obtain ⟨ht, rfl⟩ := Read.peek_ok.1 hp
  exact k t r c b c' hs ht hm

theorem peekSecond {f : Option Token → Read β} (k : ∀ t, Lays s pre xs (f t) out' post') :
    Lays s pre xs (Read.peekSecond >>= f) out' post' :=
  stay (fun _ _ _ h => by cases h; rfl) k

theorem at_ {t : Token} {f : Bool → Read β} (k : ∀ b, Lays s pre xs (f b) out' post') :
    Lays s pre xs (Read.at_ t >>= f) out' post' :=
  stay (fun _ _ _ h => by cases h; rfl) k

theorem start {f : Nat → Read β}
    (k : ∀ s, Lays s (fun c => pre c ∧ c.next = s) [] (f s) out' post') :
    Lays s pre [] (Read.start >>= f) out' post' := by
  intro r c b c' hs hp hm
  obtain ⟨t, c1, hst, hm⟩ := Read.bind_ok.1 hm
  cases hst
  obtain ⟨hs', hb⟩ := k c.next c.reached c b c' (.fresh hs.ordered) ⟨hp, rfl⟩ hm
  exact ⟨hs.append hs', hb⟩

theorem startPeekAt {f : Nat → Option Token → Read β}
    (k : ∀ s t, Lays s (fun c => Facing t c ∧ c.next = s) [] (f s t) out' post') :
    Lays s pre [] (Read.start >>= fun s => Read.peek >>= f s) out' post' := by
  refine start fun s r c b c' hs hp hm => ?_
  obtain ⟨t, c1, hpeek, hm⟩ := Read.bind_ok.1 hm
  obtain ⟨ht, rfl⟩ := Read.peek_ok.1 hpeek
  exact k s t r c b c' hs ⟨ht, hp.2⟩ hm

theorem startPeek {f : Nat → Option Token → Read β}
    (k : ∀ s t, Lays s (Facing t) [] (f s t) out' post') :
    Lays s pre [] (Read.start >>= fun s => Read.peek >>= f s) out' post' :=
  startPeekAt fun s t => (k s t).of_pre fun _ h => h.1

theorem skip {f : Placed → Read β} (k : ∀ p, Lays s Anywhere xs (f p) out' post') :
    Lays s pre xs (Read.take >>= f) out' post' := by
  intro r c b c' hs _ hm
  obtain ⟨p, c1, ht, hm⟩ := Read.bind_ok.1 hm
  have htake := hs.append (Taken.take hs.ordered ht).1
  rw [List.append_nil] at htake
  exact k p r c1 b c' htake trivial hm

theorem take {f : Placed → Read β}
    (hpre : ∀ c, pre c → ∃ t, Facing (some t) c ∧ t ≠ .punct .semi)
    (k : ∀ p, p.span.start < p.span.stop → Lays s Anywhere (xs ++ [none]) (f p) out' post') :
    Lays s pre xs (Read.take >>= f) out' post' := by
  intro r c b c' hs hp hm
  obtain ⟨p, c1, ht, hm⟩ := Read.bind_ok.1 hm
  obtain ⟨t, hfacing, hne⟩ := hpre c hp
  obtain ⟨htake, hreal⟩ := Taken.take hs.ordered ht
  obtain ⟨hstart, hlt, hreached⟩ := hreal t hfacing hne
  have hone : Taken c.reached c.next [none] c1 := by
    refine ⟨htake.ordered, htake.reached, htake.next, fun _ => ?_⟩
    rw [hreached, ← hstart]
    exact .token (Nat.le_refl _) hlt (.nil (Nat.le_refl _))
  exact k p hlt r c1 b c' (hs.append hone) trivial hm

theorem takeFacing {t : Token} {f : Placed → Read β} (ht : t ≠ .punct .semi)
    (k : ∀ p, Lays s Anywhere (xs ++ [none]) (f p) out' post') :
    Lays s (Facing (some t)) xs (Read.take >>= f) out' post' :=
  take (fun _ h => ⟨t, h, ht⟩) fun p _ => k p

theorem at_facing {t : Token} {c c' : Cursor} {b : Bool} (h : Read.at_ t c = .ok (b, c')) :
    c' = c ∧ (b = true → Facing (some t) c) := by
  obtain ⟨u, c1, hp, h⟩ := Read.bind_ok.1 h
  obtain ⟨hu, rfl⟩ := Read.peek_ok.1 hp
  obtain ⟨rfl, rfl⟩ := Read.pure_ok.1 h
  refine ⟨rfl, fun hb => ?_⟩
  have hut : u = some t := by simpa using hb
  exact hut ▸ hu

theorem eat {t : Token} {f : Bool → Read β} (ht : t ≠ .punct .semi)
    (k : Lays s Anywhere (xs ++ [none]) (f true) out' post')
    (k' : Lays s Anywhere xs (f false) out' post') :
    Lays s pre xs (Read.eat t >>= f) out' post' := by
  intro r c b c' hs hp hm
  obtain ⟨met, c1, he, hm⟩ := Read.bind_ok.1 hm
  obtain ⟨u, c2, hu, he⟩ := Read.bind_ok.1 he
  obtain ⟨rfl, hfacing⟩ := at_facing hu
  cases u with
  | false =>
    obtain ⟨rfl, rfl⟩ := Read.pure_ok.1 he
    exact k' r _ b c' hs trivial hm
  | true =>
    obtain ⟨p, c3, htake, he⟩ := Read.bind_ok.1 he
    obtain ⟨rfl, rfl⟩ := Read.pure_ok.1 he
    have htook : Lays s (Facing (some t)) xs (Read.take >>= fun _ => f true) out' post' :=
      take (fun _ h => ⟨t, h, ht⟩) fun _ _ => k
    exact htook r _ b c' hs (hfacing rfl) (Read.bind_ok.2 ⟨p, c3, htake, hm⟩)

/-- A token that need not count. It may be the semicolon of a line end. -/
theorem eatAny {t : Token} {f : Bool → Read β} (k : ∀ b, Lays s Anywhere xs (f b) out' post') :
    Lays s pre xs (Read.eat t >>= f) out' post' := by
  intro r c b c' hs hp hm
  obtain ⟨met, c1, he, hm⟩ := Read.bind_ok.1 hm
  obtain ⟨u, c2, hu, he⟩ := Read.bind_ok.1 he
  obtain ⟨rfl, _⟩ := at_facing hu
  cases u with
  | false =>
    obtain ⟨rfl, rfl⟩ := Read.pure_ok.1 he
    exact k false r _ b c' hs trivial hm
  | true =>
    obtain ⟨p, c3, htake, he⟩ := Read.bind_ok.1 he
    obtain ⟨rfl, rfl⟩ := Read.pure_ok.1 he
    have hskip : Lays s pre xs (Read.take >>= fun _ => f true) out' post' := skip fun _ => k true
    exact hskip r _ b c' hs hp (Read.bind_ok.2 ⟨p, c3, htake, hm⟩)

theorem expect {t : Token} {f : Unit → Read β} (ht : t ≠ .punct .semi)
    (k : Lays s Anywhere (xs ++ [none]) (f ()) out' post') :
    Lays s pre xs (Read.expect t >>= f) out' post' := by
  intro r c b c' hs hp hm
  obtain ⟨_, c1, he, hm⟩ := Read.bind_ok.1 hm
  obtain ⟨met, c2, heat, he⟩ := Read.bind_ok.1 he
  have heats : Lays s pre xs (Read.eat t >>= fun b => if b = true then f () else
      (Read.unexpected (.token t) : Read Unit) >>= f) out' post' :=
    eat ht (by simpa using k) (by simpa using neverThen fun _ _ => Read.unexpected_not_ok)
  refine heats r c b c' hs hp (Read.bind_ok.2 ⟨met, c2, heat, ?_⟩)
  cases met with
  | true =>
    obtain ⟨rfl, rfl⟩ := Read.pure_ok.1 he
    exact hm
  | false => exact absurd he Read.unexpected_not_ok

theorem expectSemi {f : Unit → Read β} (k : Lays s Anywhere xs (f ()) out' post') :
    Lays s pre xs (Read.expect (.punct .semi) >>= f) out' post' := by
  intro r c b c' hs hp hm
  obtain ⟨_, c1, he, hm⟩ := Read.bind_ok.1 hm
  obtain ⟨met, c2, heat, he⟩ := Read.bind_ok.1 he
  have heats : Lays s pre xs (Read.eat (.punct .semi) >>= fun b => if b = true then f () else
      (Read.unexpected (.token (.punct .semi)) : Read Unit) >>= f) out' post' := by
    refine eatAny fun b => ?_
    cases b with
    | true => simpa using k
    | false => simpa using neverThen fun _ _ => Read.unexpected_not_ok
  refine heats r c b c' hs hp (Read.bind_ok.2 ⟨met, c2, heat, ?_⟩)
  cases met with
  | true =>
    obtain ⟨rfl, rfl⟩ := Read.pure_ok.1 he
    exact hm
  | false => exact absurd he Read.unexpected_not_ok

theorem endStatement {f : Unit → Read β} (k : Lays s Anywhere xs (f ()) out' post') :
    Lays s pre xs (Read.endStatement >>= f) out' post' := by
  intro r c b c' hs _ hm
  obtain ⟨_, c1, he, hm⟩ := Read.bind_ok.1 hm
  obtain ⟨t, c2, hp, he⟩ := Read.bind_ok.1 he
  obtain ⟨_, rfl⟩ := Read.peek_ok.1 hp
  split at he
  · obtain ⟨p, c3, ht, he⟩ := Read.bind_ok.1 he
    obtain ⟨_, rfl⟩ := Read.pure_ok.1 he
    have htake := hs.append (Taken.take hs.ordered ht).1
    rw [List.append_nil] at htake
    exact k r _ b c' htake trivial hm
  · obtain ⟨_, rfl⟩ := Read.pure_ok.1 he
    exact k r _ b c' hs trivial hm
  · obtain ⟨_, rfl⟩ := Read.pure_ok.1 he
    exact k r _ b c' hs trivial hm
  · obtain ⟨_, rfl⟩ := Read.pure_ok.1 he
    exact k r _ b c' hs trivial hm
  · exact absurd he Read.unexpected_not_ok

theorem tagAt {span : Span} {f : Tag → Read β}
    (hpre : ∀ c i, pre c → pre { c with nextId := i })
    (k : ∀ t, t.span = span → Lays s pre xs (f t) out' post') :
    Lays s pre xs (Read.tagAt span >>= f) out' post' := by
  intro r c b c' hs hp hm
  obtain ⟨t, c1, ht, hm⟩ := Read.bind_ok.1 hm
  cases ht
  exact k ⟨c.nextId, span⟩ rfl r { c with nextId := c.nextId + 1 } b c' (hs.same rfl rfl rfl)
    (hpre c _ hp) hm

theorem spanFrom {u : Nat} {f : Span → Read β}
    (k : ∀ span, span.start = u → Lays s pre xs (f span) out' post') :
    Lays s pre xs (Read.spanFrom u >>= f) out' post' := by
  intro r c b c' hs hp hm
  obtain ⟨span, c1, hsp, hm⟩ := Read.bind_ok.1 hm
  cases hsp
  exact k _ rfl r c b c' hs hp hm

theorem spanNode {f : Span → Read β} (n : Span → Node)
    (k : ∀ span, Lays s Anywhere [some (.child (n span))] (f span) out' post')
    (hn : ∀ span, Wraps (n span) span xs) :
    Lays s pre xs (Read.spanFrom s >>= f) out' post' := by
  intro r c b c' hs _ hm
  obtain ⟨span, c1, hsp, hm⟩ := Read.bind_ok.1 hm
  cases hsp
  exact k _ r c b c' (hs.node (hn _)) trivial hm

theorem tag {f : Tag → Read β} (n : Tag → Node)
    (k : ∀ t, Lays s Anywhere [some (.child (n t))] (f t) out' post')
    (hn : ∀ t, Wraps (n t) t.span xs) :
    Lays s pre xs (Read.tagFrom s >>= f) out' post' := by
  intro r c b c' hs hp hm
  obtain ⟨t, c1, ht, hm⟩ := Read.bind_ok.1 hm
  cases ht
  exact k _ r { c with nextId := c.nextId + 1 } b c'
    ((hs.node (hn ⟨c.nextId, _⟩)).same rfl rfl rfl) trivial hm

theorem made {g : Tag → β} {n : Tag → Node} (hout : ∀ t, out' (g t) = [.child (n t)])
    (hn : ∀ t, Wraps (n t) t.span xs) :
    Lays s pre xs (Read.tagFrom s >>= fun t => Pure.pure (g t)) out' fun _ => True :=
  tag n (fun t => pure (hout t).symm trivial) hn

theorem nodeHere {f : α → Tag → Read β} (h : ∀ s, Lays s Anywhere [] m out post)
    (n : α → Tag → Node)
    (k : ∀ a t, Lays s Anywhere (xs ++ [some (Piece.child (n a t))]) (f a t) out' post')
    (hn : ∀ a t, Wraps (n a t) t.span (solid (out a))) :
    Lays s pre xs (Read.start >>= fun u => m >>= fun a => Read.tagFrom u >>= f a) out' post' := by
  intro r c b c' hs _ hm
  obtain ⟨u, c1, hu, hm⟩ := Read.bind_ok.1 hm
  cases hu
  obtain ⟨a, c2, ha, hm⟩ := Read.bind_ok.1 hm
  obtain ⟨t, c3, ht, hm⟩ := Read.bind_ok.1 hm
  cases ht
  obtain ⟨hread, _⟩ := h c.next c.reached c a c2 (.fresh hs.ordered) trivial ha
  have hnode := hread.node (hn a ⟨c2.nextId, _⟩)
  exact k a _ r { c2 with nextId := c2.nextId + 1 } b c' (hs.append (hnode.same rfl rfl rfl))
    trivial hm

theorem withLiterals {allowed : Bool} (h : Lays s Anywhere xs m out post) :
    Lays s pre xs (Read.withLiterals allowed m) out post := by
  intro r c a c' hs _ hm
  obtain ⟨_, _, hg, hm⟩ := Read.bind_ok.1 hm
  obtain ⟨rfl, rfl⟩ := Read.get_ok.1 hg
  obtain ⟨_, c1, hset, hm⟩ := Read.bind_ok.1 hm
  obtain ⟨b, c2, hb, hm⟩ := Read.bind_ok.1 hm
  obtain ⟨_, c3, hset', hm⟩ := Read.bind_ok.1 hm
  obtain ⟨rfl, rfl⟩ := Read.pure_ok.1 hm
  cases hset
  cases hset'
  obtain ⟨hs', ha⟩ := h r { c with literals := allowed } b c2 (hs.same rfl rfl rfl) trivial hb
  exact ⟨hs'.same rfl rfl rfl, ha⟩

theorem taken_name {n : Name} {c c' : Cursor} (h : c.Ordered) (hm : Read.name c = .ok (n, c')) :
    Taken c.reached c.next [some n.piece] c' ∧ n.tag.span.start = c.next := by
  obtain ⟨t, c1, hp, hm⟩ := Read.bind_ok.1 hm
  obtain ⟨hfacing, rfl⟩ := Read.peek_ok.1 hp
  split at hm
  · obtain ⟨p, c2, ht, hm⟩ := Read.bind_ok.1 hm
    obtain ⟨htake, hreal⟩ := Taken.take h ht
    obtain ⟨hstart, hlt, hreached⟩ := hreal _ hfacing (by simp)
    cases hm
    refine ⟨⟨htake.ordered, htake.reached, htake.next, fun _ => ?_⟩, hstart⟩
    exact .piece (Nat.le_of_eq hstart.symm) (show p.span.start < p.span.stop from hlt)
      (.nil (Nat.le_of_eq hreached.symm))
  · exact absurd hm Read.unexpected_not_ok

theorem name : Reads Read.name fun n => [n.piece] := by
  intro s r c n c' hs _ hm
  exact ⟨hs.append (taken_name hs.ordered hm).1, trivial⟩

theorem nameFirst {f : Name → Read β}
    (k : ∀ n, n.tag.span.start = s → Lays s Anywhere [some n.piece] (f n) out' post')
    (hpre : ∀ c, pre c → c.next = s) : Lays s pre [] (Read.name >>= f) out' post' := by
  intro r c b c' hs hp hm
  obtain ⟨n, c1, hn, hm⟩ := Read.bind_ok.1 hm
  obtain ⟨hstands, hstart⟩ := taken_name hs.ordered hn
  exact k n (hstart.trans (hpre c hp)) r c1 b c' (hs.append hstands) trivial hm

theorem takeName {t : Token} {text : String} {f : Tag → Read β} (ht : t ≠ .punct .semi)
    (k : ∀ u, Lays s Anywhere (xs ++ [some (Name.mk u text).piece]) (f u) out' post') :
    Lays s (Facing (some t)) xs (Read.take >>= fun p => Read.tagAt p.span >>= f) out' post' := by
  intro r c b c' hs hp hm
  obtain ⟨p, c1, htake, hm⟩ := Read.bind_ok.1 hm
  obtain ⟨u, c2, htag, hm⟩ := Read.bind_ok.1 hm
  cases htag
  obtain ⟨htook, hreal⟩ := Taken.take hs.ordered htake
  obtain ⟨hstart, hlt, hreached⟩ := hreal t hp ht
  have hone : Taken c.reached c.next [some (Name.mk ⟨c1.nextId, p.span⟩ text).piece] c1 := by
    refine ⟨htook.ordered, htook.reached, htook.next, fun _ => ?_⟩
    exact .piece (Nat.le_of_eq hstart.symm) (show p.span.start < p.span.stop from hlt)
      (.nil (Nat.le_of_eq hreached.symm))
  exact k _ r { c1 with nextId := c1.nextId + 1 } b c' ((hs.append hone).same rfl rfl rfl) trivial hm

theorem names (fuel s : Nat) :
    Lays s Anywhere [] (Read.names fuel) (·.map Name.piece) (· ≠ []) := by
  induction fuel generalizing s with
  | zero => exact exhausted
  | succ fuel ih =>
    rw [Read.names]
    refine step name fun n _ => eat (by simp) ?_ ?_
    · exact step ih fun ns _ => pure (by simp) (by simp)
    · exact pure (by simp) (by simp)

end Lays

end FuncLift
