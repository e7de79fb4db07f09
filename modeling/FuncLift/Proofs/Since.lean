import FuncLift.Proofs.Header

/-!
# What has been read since

While a node is read, the pieces that were read since its start account for the braces that were
taken, its brackets are balanced, and a scan for a range clause that starts with it goes on behind it
or gives up. The rules below follow a reader through its steps with the pieces that it has read.
-/
namespace FuncLift

theorem Cursor.Ordered.next_le {c : Cursor} (h : c.Ordered) : ∀ p ∈ c.ahead, c.next ≤ p.span.start := by
  have hbehind {lo hi : Nat} {ps : List Placed} (h : Runs lo ps hi) : ∀ p ∈ ps, lo ≤ p.span.start := by
    induction ps generalizing lo with
    | nil => simp
    | cons p ps ih =>
      obtain ⟨hlo, hp, _, hps⟩ := h
      exact List.forall_mem_cons.2 ⟨hlo, ih (hps.mono (Nat.le_trans hlo hp))⟩
  obtain ⟨ahead, size, reached, literals, nextId⟩ := c
  cases ahead with
  | nil => simp
  | cons p ps =>
    obtain ⟨_, hp, _, hps⟩ := h
    exact List.forall_mem_cons.2 ⟨Nat.le_refl _, hbehind (hps.mono hp)⟩

/-- A cursor walks over the tokens of a text, none of the braces is empty, and those behind it end
where it has come to. -/
structure Walks (T : List Placed) (c : Cursor) : Prop where
  filled : ∀ q ∈ T, q.Opens → q.span.start < q.span.stop
  ordered : c.Ordered
  split : ∃ past, T = past ++ c.ahead ∧ ∀ q ∈ past, q.Opens → q.span.stop ≤ c.reached

namespace Walks

variable {T : List Placed} {c c' : Cursor} {p q : Placed}

theorem mem_ahead (h : Walks T c) (hq : q ∈ T) (hopens : q.Opens) (hle : c.next ≤ q.span.start) :
    q ∈ c.ahead := by
  have hne := h.filled q hq hopens
  have hreached := h.ordered.reached_le
  obtain ⟨past, rfl, hpast⟩ := h.split
  rcases List.mem_append.1 hq with hq | hq
  · have hstop := hpast q hq hopens
    omega
  · exact hq

theorem stop_le (h : Walks T c) (hq : q ∈ T) (hopens : q.Opens) (hlt : q.span.start < c.next) :
    q.span.stop ≤ c.reached := by
  obtain ⟨past, rfl, hpast⟩ := h.split
  rcases List.mem_append.1 hq with hq | hq
  · exact hpast q hq hopens
  · exact absurd hlt (Nat.not_lt.2 (h.ordered.next_le q hq))

theorem same (h : Walks T c) (hahead : c'.ahead = c.ahead) (hsize : c'.size = c.size)
    (hreached : c'.reached = c.reached) : Walks T c' := by
  refine ⟨h.filled, ?_, ?_⟩
  · have hordered := h.ordered
    rwa [Cursor.Ordered, ← hahead, ← hsize, ← hreached] at hordered
  · rw [hahead, hreached]
    exact h.split

theorem take (h : Walks T c) (ht : Read.take c = .ok (p, c')) :
    Walks T c' ∧ c.reached ≤ c'.reached ∧ c.next ≤ c'.next ∧
      ∀ q ∈ T, q.Opens → c.next ≤ q.span.start → q.span.start < c'.next → q = p := by
  obtain ⟨htaken, hreal⟩ := Taken.take h.ordered ht
  have hpassed (q : Placed) (hq : q ∈ T) (hopens : q.Opens) (hle : c.next ≤ q.span.start)
      (hlt : q.span.start < c'.next) : q = p := by
    have hmem := h.mem_ahead hq hopens hle
    have hnext := htaken.ordered.next_le
    cases hahead : c.ahead with
    | nil =>
      rw [hahead] at hmem
      cases hmem
    | cons r rest =>
      have htake : p = r ∧ c'.ahead = rest := by
        simp only [Read.take, modifyGet, MonadStateOf.modifyGet, StateT.modifyGet, hahead] at ht
        cases ht
        exact ⟨rfl, rfl⟩
      rw [hahead] at hmem
      rcases List.mem_cons.1 hmem with rfl | hmem
      · exact htake.1.symm
      · exact absurd hlt (Nat.not_lt.2 (hnext q (htake.2 ▸ hmem)))
  refine ⟨⟨h.filled, htaken.ordered, ?_⟩, htaken.reached, htaken.next, hpassed⟩
  obtain ⟨past, hsplit, hpast⟩ := h.split
  obtain ⟨ahead, size, reached, literals, nextId⟩ := c
  cases ahead with
  | nil =>
    cases ht
    exact ⟨past, hsplit, fun q hq hopens => Nat.le_trans (hpast q hq hopens) htaken.reached⟩
  | cons r rest =>
    cases ht
    refine ⟨past ++ [p], by simp [hsplit], fun q hq hopens => ?_⟩
    rcases List.mem_append.1 hq with hq | hq
    · exact Nat.le_trans (hpast q hq hopens) htaken.reached
    · obtain rfl := List.mem_singleton.1 hq
      have hfacing : Facing (some (.punct .lBrace)) ⟨q :: rest, size, reached, literals, nextId⟩ := by
        rw [← show q.token = .punct .lBrace from hopens]
        rfl
      exact Nat.le_of_eq (hreal _ hfacing (by simp)).2.2.symm

end Walks

/-- What is allowed while a node is read: braces that no piece accounts for, assignments outside of
brackets. What is read stands behind the mark. -/
structure Mode where
  own : Bool
  loose : Bool
  mark : Nat

namespace Mode

/-- How many brackets are open behind a token, if the token is allowed. -/
def pass? (w : Mode) (k : Nat) : Token → Option Nat
  | .punct .lParen | .punct .lBrack => some (k + 1)
  | .punct .rParen | .punct .rBrack => if k = 0 then none else some (k - 1)
  | .punct .lBrace => if w.own then some k else none
  | .punct .define | .punct .assign => if w.loose || k != 0 then some k else none
  | _ => some k

/-- Whether a part may be read in another mode. -/
def admits (w : Mode) (k : Nat) (v : Mode) : Bool :=
  (w.own || !v.own) && (w.loose || k != 0 || !v.loose)

/-- Whether what was read in a mode may be told as if it was read in another. -/
def le (w v : Mode) : Bool := (v.own || !w.own) && (v.loose || !w.loose) && v.mark == 0

theorem admits_iff {w v : Mode} {k : Nat} : w.admits k v = true ↔
    (w.own = false → v.own = false) ∧ (w.loose = false → k ≠ 0 ∨ v.loose = false) := by
  obtain ⟨own, loose, mark⟩ := w
  obtain ⟨own', loose', mark'⟩ := v
  cases own <;> cases loose <;> cases own' <;> cases loose' <;> simp [admits]

theorem le_iff {w v : Mode} : w.le v = true ↔ (v.own = false → w.own = false) ∧
    (v.loose = false → w.loose = false) ∧ v.mark = 0 := by
  obtain ⟨own, loose, mark⟩ := w
  obtain ⟨own', loose', mark'⟩ := v
  cases own <;> cases loose <;> cases own' <;> cases loose' <;> simp [le]

/-- An allowed token leaves brackets balanced, keeps a scan going, and is no brace of a node that has
none of its own. -/
theorem pass?_spec {w : Mode} {k k' : Nat} {p : Placed} (h : w.pass? k p.token = some k')
    (rest : List Placed) :
    (∀ d, Read.rangeAhead (d + 1 + k) (p :: rest) = Read.rangeAhead (d + 1 + k') rest) ∧
      (w.loose = false → Read.rangeAhead k (p :: rest) = none ∨
        Read.rangeAhead k (p :: rest) = Read.rangeAhead k' rest) ∧
      (w.own = false → ¬p.Opens) := by
  have hdeep (d : Nat) : d + 1 + k ≠ 0 := by omega
  unfold pass? at h
  split at h
  iterate 2
    rename_i htoken
    cases h
    simp [Read.rangeAhead, htoken, Placed.Opens, Nat.add_assoc]
  iterate 2
    rename_i htoken
    split at h
    · cases h
    · cases h
      have hback (d : Nat) : d + 1 + k - 1 = d + 1 + (k - 1) := by omega
      simp [Read.rangeAhead, htoken, Placed.Opens, hback]
  · rename_i htoken
    split at h
    · rename_i hown
      cases h
      by_cases hk : k = 0 <;> simp [Read.rangeAhead, htoken, hk, hown]
    · cases h
  iterate 2
    rename_i htoken
    split at h
    · rename_i hloose
      cases h
      simp only [Bool.or_eq_true, bne_iff_ne] at hloose
      refine ⟨fun d => by simp [Read.rangeAhead, htoken], fun hfirm => ?_,
        by simp [Placed.Opens, htoken]⟩
      have hk : k ≠ 0 := hloose.resolve_left (by simp [hfirm])
      simp [Read.rangeAhead, htoken, hk]
    · cases h
  · cases h
    rename_i hlp hlb hrp hrb hbrace hdefine hassign
    refine ⟨fun d => ?_, fun _ => ?_, fun _ => hbrace⟩
    · rw [Read.rangeAhead]
      split
      all_goals first | contradiction | rfl | (rw [if_neg (hdeep d)])
    · rw [Read.rangeAhead]
      split
      all_goals first | contradiction | exact .inr rfl | (split <;> simp)

end Mode

/-- What has been read since a cursor, with some brackets open. -/
structure Since (T : List Placed) (lit : Bool) (w : Mode) (b : Cursor) (k : Nat) (ps : List Piece)
    (c : Cursor) : Prop where
  walks : Walks T c
  literals : c.literals = lit
  next : b.next ≤ c.next
  mark : w.mark ≤ c.next
  told : ∀ n, .child n ∈ ps → Throughout (Node.Told T) n
  inside : w.own = false → ∀ p ∈ ps, b.next ≤ p.tag.span.start ∧ p.tag.span.stop ≤ c.next
  accounts : w.own = false → Accounts T ps b.next c.next
  even : ∀ d, Read.rangeAhead (d + 1) b.ahead = Read.rangeAhead (d + 1 + k) c.ahead
  through : w.loose = false →
    Read.rangeAhead 0 b.ahead = none ∨ Read.rangeAhead 0 b.ahead = Read.rangeAhead k c.ahead

theorem Read.take_ok {c c' : Cursor} {p : Placed} (h : Read.take c = .ok (p, c')) :
    c'.literals = c.literals ∧ (c.ahead = [] ∨ c.ahead = p :: c'.ahead) := by
  obtain ⟨ahead, size, reached, literals, nextId⟩ := c
  cases ahead with
  | nil =>
    cases h
    exact ⟨rfl, .inl rfl⟩
  | cons q rest =>
    cases h
    exact ⟨rfl, .inr rfl⟩

theorem Read.expect_ok {t : Token} {c c' : Cursor} {u : Unit} (h : Read.expect t c = .ok (u, c')) :
    Facing (some t) c ∧ ∃ p, Read.take c = .ok (p, c') := by
  obtain ⟨met, c1, hmet, h⟩ := Read.bind_ok.1 h
  obtain ⟨x, c2, hx, hmet⟩ := Read.bind_ok.1 hmet
  obtain ⟨rfl, hfacing⟩ := Lays.at_facing hx
  cases x with
  | false =>
    obtain ⟨rfl, rfl⟩ := Read.pure_ok.1 hmet
    exact absurd h Read.unexpected_not_ok
  | true =>
    obtain ⟨p, c3, ht, hmet⟩ := Read.bind_ok.1 hmet
    obtain ⟨rfl, rfl⟩ := Read.pure_ok.1 hmet
    obtain ⟨_, rfl⟩ := Read.pure_ok.1 h
    exact ⟨hfacing rfl, p, ht⟩

theorem Read.withLiterals_run {α : Type} {allowed : Bool} {m : Read α} {c c' : Cursor} {a : α}
    (h : Read.withLiterals allowed m c = .ok (a, c')) :
    ∃ c1, m { c with literals := allowed } = .ok (a, c1) ∧ c' = { c1 with literals := c.literals } := by
  obtain ⟨_, _, hg, h⟩ := Read.bind_ok.1 h
  obtain ⟨rfl, rfl⟩ := Read.get_ok.1 hg
  obtain ⟨_, c1, hset, h⟩ := Read.bind_ok.1 h
  obtain ⟨x, c2, hm, h⟩ := Read.bind_ok.1 h
  obtain ⟨_, c3, hset', h⟩ := Read.bind_ok.1 h
  obtain ⟨rfl, rfl⟩ := Read.pure_ok.1 h
  cases hset
  cases hset'
  exact ⟨c2, hm, rfl⟩

namespace Since

variable {T : List Placed} {lit : Bool} {w v : Mode} {b c c' : Cursor} {k k' : Nat}
  {ps qs : List Piece} {p : Placed} {n : Node}

theorem fresh (h : Walks T c) (hlit : c.literals = lit) (hw : w.mark = 0) :
    Since T lit w c 0 [] c where
  walks := h
  literals := hlit
  next := Nat.le_refl _
  mark := hw ▸ Nat.zero_le _
  told n hn := by cases hn
  inside _ p hp := by cases hp
  accounts _ q _ _ hstart hstop := absurd hstart (Nat.not_le.2 hstop)
  even _ := rfl
  through _ := .inr rfl

theorem append (h : Since T lit w b k ps c) (h' : Since T lit v c 0 qs c')
    (hv : w.admits k v = true) : Since T lit w b k (ps ++ qs) c' := by
  obtain ⟨hown, hloose⟩ := Mode.admits_iff.1 hv
  refine ⟨h'.walks, h'.literals, Nat.le_trans h.next h'.next, Nat.le_trans h.mark h'.next, ?_, ?_, ?_, ?_, ?_⟩
  · intro n hn
    exact (List.mem_append.1 hn).elim (h.told n) (h'.told n)
  · intro hw p hp
    rcases List.mem_append.1 hp with hp | hp
    · obtain ⟨hstart, hstop⟩ := h.inside hw p hp
      exact ⟨hstart, Nat.le_trans hstop h'.next⟩
    · obtain ⟨hstart, hstop⟩ := h'.inside (hown hw) p hp
      exact ⟨Nat.le_trans h.next hstart, hstop⟩
  · intro hw q hq hopens hstart hstop
    rcases Nat.lt_or_ge q.span.start c.next with hlt | hge
    · obtain ⟨n, hn, hholds⟩ := h.accounts hw q hq hopens hstart hlt
      exact ⟨n, List.mem_append_left _ hn, hholds⟩
    · obtain ⟨n, hn, hholds⟩ := h'.accounts (hown hw) q hq hopens hge hstop
      exact ⟨n, List.mem_append_right _ hn, hholds⟩
  · intro d
    have heven := h'.even (d + k)
    rw [show d + k + 1 = d + 1 + k from Nat.add_right_comm d k 1] at heven
    rw [h.even d, heven]
  · intro hw
    rcases h.through hw with hnone | hsame
    · exact .inl hnone
    · rw [hsame]
      cases k with
      | zero => exact h'.through ((hloose hw).resolve_left (fun h => h rfl))
      | succ k => exact .inr (h'.even k)

theorem same (h : Since T lit w b k ps c) (hahead : c'.ahead = c.ahead) (hsize : c'.size = c.size)
    (hreached : c'.reached = c.reached) (hliterals : c'.literals = c.literals) :
    Since T lit w b k ps c' := by
  have hnext : c'.next = c.next := by rw [Cursor.next, Cursor.next, hahead, hsize]
  exact ⟨h.walks.same hahead hsize hreached, hliterals ▸ h.literals, hnext ▸ h.next,
    hnext ▸ h.mark, h.told, hnext ▸ h.inside, hnext ▸ h.accounts, hahead ▸ h.even,
    hahead ▸ h.through⟩

/-- The same pieces may be told otherwise, and some may be left out where none has to account for
anything. -/
theorem imp (h : Since T lit w b k ps c) (hv : w.le v = true)
    (htold : ∀ n, .child n ∈ qs → .child n ∈ ps) (hsame : v.own = false → ∀ p, p ∈ qs ↔ p ∈ ps) :
    Since T lit v b k qs c := by
  obtain ⟨hown, hloose, hmark⟩ := Mode.le_iff.1 hv
  refine ⟨h.walks, h.literals, h.next, hmark ▸ Nat.zero_le _, fun n hn => h.told n (htold n hn), ?_, ?_,
    h.even, fun hw => h.through (hloose hw)⟩
  · intro hw p hp
    exact h.inside (hown hw) p ((hsame hw p).1 hp)
  · intro hw q hq hopens hstart hstop
    obtain ⟨n, hn, hholds⟩ := h.accounts (hown hw) q hq hopens hstart hstop
    exact ⟨n, (hsame hw _).2 hn, hholds⟩

theorem take (h : Since T lit w b k ps c) (ht : Read.take c = .ok (p, c'))
    (hahead : c.ahead = p :: c'.ahead) (hpass : w.pass? k p.token = some k') :
    Since T lit w b k' ps c' := by
  obtain ⟨hwalks, _, hnext, honly⟩ := h.walks.take ht
  obtain ⟨hdeep, hthrough, hown⟩ := Mode.pass?_spec hpass c'.ahead
  refine ⟨hwalks, (Read.take_ok ht).1.trans h.literals, Nat.le_trans h.next hnext,
    Nat.le_trans h.mark hnext, h.told, ?_, ?_, ?_, ?_⟩
  · intro hw x hx
    obtain ⟨hstart, hstop⟩ := h.inside hw x hx
    exact ⟨hstart, Nat.le_trans hstop hnext⟩
  · intro hw q hq hopens hstart hstop
    rcases Nat.lt_or_ge q.span.start c.next with hlt | hge
    · exact h.accounts hw q hq hopens hstart hlt
    · obtain rfl := honly q hq hopens hge hstop
      exact absurd hopens (hown hw)
  · intro d
    rw [h.even d, hahead, hdeep d]
  · intro hw
    rcases h.through hw with hnone | hsame
    · exact .inl hnone
    · rw [hsame, hahead]
      exact hthrough hw

theorem takeFacing {t : Token} (h : Since T lit w b k ps c) (hfacing : Facing (some t) c)
    (hpass : w.pass? k t = some k') (ht : Read.take c = .ok (p, c')) : Since T lit w b k' ps c' := by
  have hne := hfacing.nonempty
  refine h.take ht ((Read.take_ok ht).2.resolve_left hne) ?_
  rwa [(hfacing.of_take ht).1]

theorem eat {t : Token} {met : Bool} (h : Since T lit w b k ps c)
    (hpass : w.pass? k t = some k') (he : Read.eat t c = .ok (met, c')) :
    if met = true then Since T lit w b k' ps c' else c' = c := by
  obtain ⟨u, c1, hu, he⟩ := Read.bind_ok.1 he
  obtain ⟨rfl, hfacing⟩ := Lays.at_facing hu
  cases u with
  | false =>
    obtain ⟨rfl, rfl⟩ := Read.pure_ok.1 he
    exact rfl
  | true =>
    obtain ⟨p, c2, ht, he⟩ := Read.bind_ok.1 he
    obtain ⟨rfl, rfl⟩ := Read.pure_ok.1 he
    exact h.takeFacing (hfacing rfl) hpass ht

theorem expect {t : Token} (h : Since T lit w b k ps c) (hpass : w.pass? k t = some k')
    (he : Read.expect t c = .ok ((), c')) : Since T lit w b k' ps c' := by
  obtain ⟨hfacing, p, ht⟩ := Read.expect_ok he
  exact h.takeFacing hfacing hpass ht

theorem node (h : Since T lit w b k ps c) (hspan : n.span = ⟨b.next, max c.reached b.next⟩)
    (hn : Throughout (Node.Told T) n) : Since T lit ⟨false, w.loose, 0⟩ b k [.child n] c := by
  have hreached := h.walks.ordered.reached_le
  refine ⟨h.walks, h.literals, h.next, Nat.zero_le _, ?_, ?_, ?_, h.even, h.through⟩
  · intro m hm
    cases List.mem_singleton.1 hm
    exact hn
  · intro _ p hp
    obtain rfl := List.mem_singleton.1 hp
    have hnode : (Piece.child n).tag.span = ⟨b.next, max c.reached b.next⟩ := hspan
    rw [hnode]
    exact ⟨Nat.le_refl _, Nat.max_le.2 ⟨hreached, h.next⟩⟩
  · intro _ q hq hopens hstart hstop
    refine ⟨n, List.mem_cons_self, ?_⟩
    rw [hspan]
    exact ⟨hstart, Nat.le_trans (h.walks.stop_le hq hopens hstop) (Nat.le_max_left _ _)⟩

/-- What was read accounts for the braces in a node that is made of it. -/
theorem accounts_node (h : Since T lit w b k ps c) (hw : w.own = false) :
    Accounts T ps b.next (max c.reached b.next) := by
  intro q hq hopens hstart hstop
  have hreached := h.walks.ordered.reached_le
  have hnext := h.next
  exact h.accounts hw q hq hopens hstart (by omega)

theorem fronts (h : Since T lit w b k ps c) (hw : w.own = false)
    (hfacing : Facing (some (.punct .lBrace)) c) : ∃ p, Fronts T b.next ps p ∧ p.span.start = c.next := by
  obtain ⟨past, hsplit, _⟩ := h.walks.split
  cases hahead : c.ahead with
  | nil => exact absurd hahead hfacing.nonempty
  | cons p rest =>
    have hopens : p.Opens := by simpa [Placed.Opens, Facing, hahead] using hfacing
    have hstart : p.span.start = c.next := by rw [Cursor.next, hahead]; rfl
    refine ⟨p, ⟨?_, hopens, hstart ▸ h.next, fun x hx => hstart ▸ (h.inside hw x hx).2,
      hstart ▸ h.accounts hw⟩, hstart⟩
    rw [hsplit, hahead]
    exact List.mem_append_right _ List.mem_cons_self

/-- The parts of a simple statement may be told instead of the statement. -/
theorem spread {s : Simple} (h : Since T lit w b k (ps ++ [s.piece]) c) (hs : Upright (.simple s)) :
    Since T lit w b k (ps ++ (Node.simple s).pieces) c := by
  have hlast : s.piece ∈ ps ++ [s.piece] := List.mem_append_right _ List.mem_cons_self
  have hthroughout := h.told (.simple s) hlast
  have htold : Accounts T (Node.simple s).pieces s.span.start s.span.stop := hthroughout.local
  refine ⟨h.walks, h.literals, h.next, h.mark, ?_, ?_, ?_, h.even, h.through⟩
  · intro n hn
    rcases List.mem_append.1 hn with hn | hn
    · exact h.told n (List.mem_append_left _ hn)
    · exact hthroughout.child hn
  · intro hw p hp
    rcases List.mem_append.1 hp with hp | hp
    · exact h.inside hw p (List.mem_append_left _ hp)
    · obtain ⟨hstart, hstop⟩ := h.inside hw _ hlast
      obtain ⟨hlo, hhi, _⟩ := hs.row.of_mem hp
      exact ⟨Nat.le_trans hstart hlo, Nat.le_trans hhi hstop⟩
  · intro hw q hq hopens hstart hstop
    obtain ⟨n, hn, hholds⟩ := h.accounts hw q hq hopens hstart hstop
    rcases List.mem_append.1 hn with hn | hn
    · exact ⟨n, List.mem_append_left _ hn, hholds⟩
    · cases List.mem_singleton.1 hn
      have hlt := Nat.lt_of_lt_of_le (h.walks.filled q hq hopens) hholds.stop
      obtain ⟨m, hm, hin⟩ := htold q hq hopens hholds.start hlt
      exact ⟨m, List.mem_append_right _ hm, hin⟩

theorem restored {allowed : Bool} (h : Since T allowed w { c with literals := allowed } 0 ps c') :
    Since T c.literals w c 0 ps { c' with literals := c.literals } :=
  ⟨h.walks.same rfl rfl rfl, rfl, h.next, h.mark, h.told, h.inside, h.accounts, h.even, h.through⟩

end Since

/-- A reader that has read pieces since a cursor, and has read the pieces of its result when it is
done. -/
def Spends {α : Type} (T : List Placed) (lit : Bool) (w v : Mode) (b : Cursor) (k : Nat)
    (pre : Cursor → Prop) (ps : List Piece) (m : Read α) (out : α → List Piece) (post : α → Prop) :
    Prop :=
  ∀ c a c', Since T lit w b k ps c → pre c → m c = .ok (a, c') →
    Since T lit v b 0 (out a) c' ∧ post a

/-- A reader that starts where it is. -/
def Begins {α : Type} (T : List Placed) (lit : Bool) (v : Mode) (pre : Cursor → Prop) (m : Read α)
    (out : α → List Piece) (post : α → Prop) : Prop :=
  ∀ c a c', Walks T c → c.literals = lit → pre c → m c = .ok (a, c') →
    Since T lit v c 0 (out a) c' ∧ post a

/-- A part of a node: it accounts for all of its braces, and has no assignment outside of brackets. -/
def Mode.firm : Mode := ⟨false, false, 0⟩

/-- A statement, or a part of one. -/
def Mode.free : Mode := ⟨false, true, 0⟩

/-- Parts of a node that has braces of its own. -/
def Mode.inner : Mode := ⟨true, false, 0⟩

section Rules

variable {α β : Type} {T : List Placed} {lit : Bool} {w v u : Mode} {b : Cursor} {k k' : Nat}
  {pre : Cursor → Prop} {ps qs : List Piece} {m : Read α} {f : α → Read β} {out : α → List Piece}
  {post : α → Prop} {out' : β → List Piece} {post' : β → Prop}

namespace Begins

theorem of (w : Mode) (hw : w.mark = 0) (h : ∀ b, Spends T lit w v b 0 pre [] m out post) :
    Begins T lit v pre m out post :=
  fun c a c' hs hlit hp hm => h c c a c' (.fresh hs hlit hw) hp hm

theorem start (w : Mode) (hw : w.mark = 0) {f : Nat → Read α}
    (h : ∀ b, Spends T lit w v b 0 pre [] (f b.next) out post) :
    Begins T lit v pre (Read.start >>= f) out post := by
  intro c a c' hs hlit hp hm
  obtain ⟨s, c1, hst, hm⟩ := Read.bind_ok.1 hm
  cases hst
  exact h c c a c' (.fresh hs hlit hw) hp hm

theorem exhausted : Begins T lit v pre Read.exhausted out post :=
  fun _ _ _ _ _ _ hm => absurd hm Read.exhausted_not_ok

theorem withLiterals {allowed : Bool} (h : Begins T allowed v Anywhere m out post) :
    Begins T lit v pre (Read.withLiterals allowed m) out post := by
  intro c a c' hs hlit _ hm
  obtain ⟨c1, hx, rfl⟩ := Read.withLiterals_run hm
  obtain ⟨hread, hpost⟩ := h { c with literals := allowed } a c1 (hs.same rfl rfl rfl) rfl trivial hx
  exact ⟨hlit ▸ hread.restored, hpost⟩

end Begins

namespace Spends

theorem of_pre {pre' : Cursor → Prop} (h : Spends T lit w v b k pre ps m out post)
    (hp : ∀ c, pre' c → pre c) : Spends T lit w v b k pre' ps m out post :=
  fun c a c' hs hc => h c a c' hs (hp c hc)

theorem of_anywhere (h : Spends T lit w v b k Anywhere ps m out post) :
    Spends T lit w v b k pre ps m out post := h.of_pre fun _ _ => trivial

theorem never (h : ∀ c x, m c ≠ .ok x) : Spends T lit w v b k pre ps m out post :=
  fun c _ _ _ _ hm => absurd hm (h c _)

theorem neverThen (h : ∀ c x, m c ≠ .ok x) : Spends T lit w v b k pre ps (m >>= f) out' post' :=
  never fun c _ hm => by
    obtain ⟨_, _, hm, _⟩ := Read.bind_ok.1 hm
    exact h c _ hm

theorem unexpected {wanted : Wanted} :
    Spends T lit w v b k pre ps (Read.unexpected wanted) out post :=
  never fun _ _ => Read.unexpected_not_ok

theorem fail {e : ParseFault} {span : Span} :
    Spends T lit w v b k pre ps (Read.fail e span) out post :=
  never fun _ _ => Read.fail_not_ok

theorem imp (h : Spends T lit u v b k pre qs m out post) (hu : w.le u = true)
    (htold : ∀ n, .child n ∈ qs → .child n ∈ ps) (hsame : u.own = false → ∀ p, p ∈ qs ↔ p ∈ ps) :
    Spends T lit w v b k pre ps m out post :=
  fun c a c' hs hp hm => h c a c' (hs.imp hu htold hsame) hp hm

theorem inner (h : Spends T lit ⟨true, w.loose, 0⟩ v b k pre ps m out post) :
    Spends T lit w v b k pre ps m out post := by
  have hle : w.le ⟨true, w.loose, 0⟩ = true := Mode.le_iff.2 ⟨by simp, fun h => h, rfl⟩
  exact h.imp hle (fun _ h => h) (by simp)

theorem pure {a : α} (hw : w.le v = true) (hout : ∀ p, p ∈ out a ↔ p ∈ ps) (hp : post a) :
    Spends T lit w v b 0 pre ps (pure a) out post := by
  intro c x c' hs _ hm
  obtain ⟨rfl, rfl⟩ := Read.pure_ok.1 hm
  exact ⟨hs.imp hw (fun n => (hout _).1) fun _ => hout, hp⟩

/-- Where nothing has to be accounted for, the result may be made of what was read. -/
theorem yield {a : α} (hw : w.le v = true) (hv : v.own = true)
    (htold : (∀ n, .child n ∈ ps → Throughout (Node.Told T) n) →
      ∀ n, .child n ∈ out a → Throughout (Node.Told T) n) (hp : post a) :
    Spends T lit w v b 0 pre ps (Pure.pure a) out post := by
  intro c x c' hs _ hm
  obtain ⟨rfl, rfl⟩ := Read.pure_ok.1 hm
  obtain ⟨_, hloose, hmark⟩ := Mode.le_iff.1 hw
  have hown (h : v.own = false) : False := by
    rw [hv] at h
    cases h
  exact ⟨⟨hs.walks, hs.literals, hs.next, hmark ▸ Nat.zero_le _, htold hs.told,
    fun h => (hown h).elim, fun h => (hown h).elim, hs.even, fun h => hs.through (hloose h)⟩, hp⟩

theorem ret {a : α} (h : Spends T lit w v b k pre ps (f a) out' post') :
    Spends T lit w v b k pre ps (Pure.pure a >>= f) out' post' := h

/-- A reader that starts where it is adds its pieces. What is known of the cursors and of where the
pieces stand may be used. -/
theorem stepFrom (h : Begins T lit u pre m out post) (hu : w.admits k u = true)
    (hnext : ∀ c a c', Since T lit w b k ps c → m c = .ok (a, c') → post a →
      (u.own = false → ∀ p ∈ out a, c.next ≤ p.tag.span.start) →
        Spends T lit w v b k Anywhere (ps ++ out a) (f a) out' post') :
    Spends T lit w v b k pre ps (m >>= f) out' post' := by
  intro c x c'' hs hp hm
  obtain ⟨a, c', hm, hf⟩ := Read.bind_ok.1 hm
  obtain ⟨hs', ha⟩ := h c a c' hs.walks hs.literals hp hm
  exact hnext c a c' hs hm ha (fun hown p hp => (hs'.inside hown p hp).1) c' x c''
    (hs.append hs' hu) trivial hf

theorem step (h : Begins T lit u pre m out post) (hu : w.admits k u = true)
    (hnext : ∀ a, post a → Spends T lit w v b k Anywhere (ps ++ out a) (f a) out' post') :
    Spends T lit w v b k pre ps (m >>= f) out' post' :=
  stepFrom h hu fun _ a _ _ _ ha _ => hnext a ha

theorem bind (h : Spends T lit w u b k pre ps m out post)
    (hnext : ∀ a, post a → Spends T lit u v b 0 Anywhere (out a) (f a) out' post') :
    Spends T lit w v b k pre ps (m >>= f) out' post' := by
  intro c x c'' hs hp hm
  obtain ⟨a, c', hm, hf⟩ := Read.bind_ok.1 hm
  obtain ⟨hs', ha⟩ := h c a c' hs hp hm
  exact hnext a ha c' x c'' hs' trivial hf

theorem stay (hm : ∀ c a c', m c = .ok (a, c') → c' = c)
    (hnext : ∀ a, Spends T lit w v b k pre ps (f a) out' post') :
    Spends T lit w v b k pre ps (m >>= f) out' post' := by
  intro c x c'' hs hp h
  obtain ⟨a, c', hmc, hf⟩ := Read.bind_ok.1 h
  cases hm c a c' hmc
  exact hnext a c x c'' hs hp hf

theorem get {f : Cursor → Read β} (hnext : ∀ c, c.literals = lit →
    Spends T lit w v b k (fun c' => pre c' ∧ c' = c) ps (f c) out' post') :
    Spends T lit w v b k pre ps (get >>= f) out' post' := by
  intro c x c'' hs hp h
  obtain ⟨a, c', hg, hf⟩ := Read.bind_ok.1 h
  obtain ⟨rfl, rfl⟩ := Read.get_ok.1 hg
  exact hnext _ hs.literals _ x c'' hs ⟨hp, rfl⟩ hf

theorem peek {f : Option Token → Read β}
    (hnext : ∀ t, Spends T lit w v b k (Facing t) ps (f t) out' post') :
    Spends T lit w v b k pre ps (Read.peek >>= f) out' post' := by
  intro c x c'' hs _ h
  obtain ⟨t, c1, hp, hf⟩ := Read.bind_ok.1 h
  obtain ⟨ht, rfl⟩ := Read.peek_ok.1 hp
  exact hnext t c x c'' hs ht hf

theorem peekSecond {f : Option Token → Read β}
    (hnext : ∀ t, Spends T lit w v b k (fun c => pre c ∧ c.ahead[1]?.map Placed.token = t) ps (f t)
      out' post') :
    Spends T lit w v b k pre ps (Read.peekSecond >>= f) out' post' := by
  intro c x c'' hs hp h
  obtain ⟨t, c1, ht, hf⟩ := Read.bind_ok.1 h
  cases ht
  exact hnext _ c x c'' hs ⟨hp, rfl⟩ hf

theorem at_ {t : Token} {f : Bool → Read β}
    (hnext : ∀ x, Spends T lit w v b k pre ps (f x) out' post') :
    Spends T lit w v b k pre ps (Read.at_ t >>= f) out' post' :=
  stay (fun _ _ _ h => by cases h; rfl) hnext

theorem start {f : Nat → Read β} (hnext : ∀ s, Spends T lit w v b k pre ps (f s) out' post') :
    Spends T lit w v b k pre ps (Read.start >>= f) out' post' :=
  stay (fun _ _ _ h => by cases h; rfl) hnext

theorem spanFrom {s : Nat} {f : Span → Read β}
    (hnext : ∀ span, Spends T lit w v b k pre ps (f span) out' post') :
    Spends T lit w v b k pre ps (Read.spanFrom s >>= f) out' post' :=
  stay (fun _ _ _ h => by cases h; rfl) hnext

theorem still (post : α → Prop) (hm : ∀ c a c', m c = .ok (a, c') → c'.ahead = c.ahead ∧
      c'.size = c.size ∧ c'.reached = c.reached ∧ c'.literals = c.literals ∧ post a)
    (hnext : ∀ a, post a → Spends T lit w v b k Anywhere ps (f a) out' post') :
    Spends T lit w v b k pre ps (m >>= f) out' post' := by
  intro c x c'' hs _ h
  obtain ⟨a, c', hmc, hf⟩ := Read.bind_ok.1 h
  obtain ⟨hahead, hsize, hreached, hliterals, ha⟩ := hm c a c' hmc
  exact hnext a ha c' x c'' (hs.same hahead hsize hreached hliterals) trivial hf

theorem tagAt {span : Span} {f : Tag → Read β}
    (hnext : ∀ t, t.span = span → Spends T lit w v b k Anywhere ps (f t) out' post') :
    Spends T lit w v b k pre ps (Read.tagAt span >>= f) out' post' :=
  still (fun t => t.span = span) (fun _ _ _ h => by cases h; exact ⟨rfl, rfl, rfl, rfl, rfl⟩) hnext

theorem tagFrom {s : Nat} {f : Tag → Read β}
    (hnext : ∀ t, Spends T lit w v b k Anywhere ps (f t) out' post') :
    Spends T lit w v b k pre ps (Read.tagFrom s >>= f) out' post' :=
  still (fun _ => True) (fun _ _ _ h => by cases h; exact ⟨rfl, rfl, rfl, rfl, trivial⟩)
    fun t _ => hnext t

theorem take (k' : Nat) {f : Placed → Read β}
    (hpre : ∀ c, pre c → ∃ t, Facing (some t) c ∧ w.pass? k t = some k')
    (hnext : ∀ p, Spends T lit w v b k' Anywhere ps (f p) out' post') :
    Spends T lit w v b k pre ps (Read.take >>= f) out' post' := by
  intro c x c'' hs hp h
  obtain ⟨p, c', ht, hf⟩ := Read.bind_ok.1 h
  obtain ⟨t, hfacing, hpass⟩ := hpre c hp
  exact hnext p c' x c'' (hs.takeFacing hfacing hpass ht) trivial hf

theorem takeFacing {t : Token} {f : Placed → Read β} (hpass : w.pass? k t = some k')
    (hnext : ∀ p, Spends T lit w v b k' Anywhere ps (f p) out' post') :
    Spends T lit w v b k (Facing (some t)) ps (Read.take >>= f) out' post' :=
  take k' (fun _ h => ⟨t, h, hpass⟩) hnext

theorem eat {t : Token} {f : Bool → Read β} (hpass : w.pass? k t = some k')
    (htrue : Spends T lit w v b k' Anywhere ps (f true) out' post')
    (hfalse : Spends T lit w v b k pre ps (f false) out' post') :
    Spends T lit w v b k pre ps (Read.eat t >>= f) out' post' := by
  intro c x c'' hs hp h
  obtain ⟨met, c', he, hf⟩ := Read.bind_ok.1 h
  have hread := hs.eat hpass he
  cases met with
  | true => exact htrue c' x c'' hread trivial hf
  | false =>
    obtain rfl : c' = c := hread
    exact hfalse c' x c'' hs hp hf

theorem eatAny {t : Token} {f : Bool → Read β} (hpass : w.pass? k t = some k)
    (hnext : ∀ met, Spends T lit w v b k Anywhere ps (f met) out' post') :
    Spends T lit w v b k pre ps (Read.eat t >>= f) out' post' :=
  eat hpass (hnext true) (hnext false).of_anywhere

theorem expect {t : Token} {f : Unit → Read β} (hpass : w.pass? k t = some k')
    (hnext : Spends T lit w v b k' Anywhere ps (f ()) out' post') :
    Spends T lit w v b k pre ps (Read.expect t >>= f) out' post' := by
  intro c x c'' hs _ h
  obtain ⟨_, c', he, hf⟩ := Read.bind_ok.1 h
  exact hnext c' x c'' (hs.expect hpass he) trivial hf

theorem endStatement {f : Unit → Read β}
    (hnext : Spends T lit w v b k Anywhere ps (f ()) out' post') :
    Spends T lit w v b k pre ps (Read.endStatement >>= f) out' post' := by
  intro c x c'' hs _ h
  obtain ⟨_, c1, he, hf⟩ := Read.bind_ok.1 h
  obtain ⟨t, c2, hp, he⟩ := Read.bind_ok.1 he
  obtain ⟨hfacing, rfl⟩ := Read.peek_ok.1 hp
  split at he
  · obtain ⟨p, c3, ht, he⟩ := Read.bind_ok.1 he
    obtain ⟨_, rfl⟩ := Read.pure_ok.1 he
    exact hnext c3 x c'' (hs.takeFacing hfacing rfl ht) trivial hf
  iterate 3
    obtain ⟨_, rfl⟩ := Read.pure_ok.1 he
    exact hnext _ x c'' hs trivial hf
  · exact absurd he Read.unexpected_not_ok

end Spends

/-- What has to be known of a node that is made of pieces. -/
structure Builds (T : List Placed) (w : Mode) (ps : List Piece) (n : Node) (span : Span) : Prop where
  span : n.span = span
  children : ∀ c, .child c ∈ n.pieces → .child c ∈ ps
  told : (w.own = false → Accounts T ps n.span.start n.span.stop) → n.Told T

theorem Accounts.mono {start stop : Nat} (h : Accounts T ps start stop)
    (hsub : ∀ n, .child n ∈ ps → .child n ∈ qs) : Accounts T qs start stop := by
  intro q hq hopens hstart hstop
  obtain ⟨n, hn, hholds⟩ := h q hq hopens hstart hstop
  exact ⟨n, hsub n hn, hholds⟩

namespace Spends

theorem node {f : Tag → Read β} (n : Tag → Node)
    (hn : ∀ t, t.span.start = b.next → Builds T w ps (n t) t.span)
    (hnext : ∀ t, Spends T lit ⟨false, w.loose, 0⟩ v b k Anywhere [.child (n t)] (f t) out' post') :
    Spends T lit w v b k pre ps (Read.tagFrom b.next >>= f) out' post' := by
  intro c x c'' hs _ h
  obtain ⟨t, c', ht, hf⟩ := Read.bind_ok.1 h
  cases ht
  obtain ⟨hspan, hchildren, htold⟩ := hn ⟨c.nextId, b.next, max c.reached b.next⟩ rfl
  have hthroughout := Throughout.of (htold fun hw => by rw [hspan]; exact hs.accounts_node hw)
    fun m hm => hs.told m (hchildren m hm)
  have hnode := hs.node hspan hthroughout
  exact hnext _ { c with nextId := c.nextId + 1 } x c'' (hnode.same rfl rfl rfl rfl) trivial hf

theorem made {g : Tag → β} {n : Tag → Node} (hw : (Mode.mk false w.loose 0).le v = true)
    (hout : ∀ t, out' (g t) = [.child (n t)]) (hpost : ∀ t, post' (g t))
    (hn : ∀ t, t.span.start = b.next → Builds T w ps (n t) t.span) :
    Spends T lit w v b 0 pre ps (Read.tagFrom b.next >>= fun t => Pure.pure (g t)) out' post' :=
  node n hn fun t => pure hw (fun p => by rw [hout]) (hpost t)

/-- Where nothing has to be accounted for, nodes may be added that are made of what was read. -/
theorem grow (n : Node) (hw : w.own = true)
    (hn : (∀ c, .child c ∈ ps → Throughout (Node.Told T) c) → Throughout (Node.Told T) n)
    (h : Spends T lit w v b k pre (ps ++ [Piece.child n]) m out post) :
    Spends T lit w v b k pre ps m out post := by
  intro c a c' hs hp hm
  have hown (h : w.own = false) : False := by
    rw [hw] at h
    cases h
  refine h c a c' ⟨hs.walks, hs.literals, hs.next, hs.mark, fun m hm => ?_, fun h => (hown h).elim,
    fun h => (hown h).elim, hs.even, hs.through⟩ hp hm
  rcases List.mem_append.1 hm with hm | hm
  · exact hs.told m hm
  · cases List.mem_singleton.1 hm
    exact hn hs.told

/-- The parts of a simple statement may be told instead of the statement. -/
theorem spread {x : Simple} (hx : Upright (.simple x))
    (h : Spends T lit w v b k pre (ps ++ (Node.simple x).pieces) m out post) :
    Spends T lit w v b k pre (ps ++ [x.piece]) m out post :=
  fun c a c' hs hp hm => h c a c' (hs.spread hx) hp hm

/-- The braces of the node itself start here. What is read from now on stands behind the first. -/
theorem brace {f : Unit → Read β} (hw : w.own = false)
    (hnext : ∀ p, Fronts T b.next ps p →
      Spends T lit ⟨true, w.loose, p.span.start⟩ v b k Anywhere ps (f ()) out' post') :
    Spends T lit w v b k pre ps (Read.expect (.punct .lBrace) >>= f) out' post' := by
  intro c x c'' hs _ h
  obtain ⟨_, c', he, hf⟩ := Read.bind_ok.1 h
  obtain ⟨hfacing, q, ht⟩ := Read.expect_ok he
  obtain ⟨p, hp, hstart⟩ := hs.fronts hw hfacing
  have hpass : (Mode.mk true w.loose 0).pass? k (.punct .lBrace) = some k := rfl
  have hle : w.le ⟨true, w.loose, 0⟩ = true := Mode.le_iff.2 ⟨by simp, fun h => h, rfl⟩
  have hread := (hs.imp hle (fun _ h => h) (by simp)).expect hpass he
  have hmark : p.span.start ≤ c'.next := hstart ▸ (hs.walks.take ht).2.2.1
  exact hnext p hp c' x c'' ⟨hread.walks, hread.literals, hread.next, hmark, hread.told, hread.inside,
    hread.accounts, hread.even, hread.through⟩ trivial hf

end Spends

/-! ## Names -/

theorem Read.name_ok {c c' : Cursor} {n : Name} (h : Read.name c = .ok (n, c')) :
    ∃ s, Facing (some (.ident s)) c ∧ ∃ p c1, Read.take c = .ok (p, c1) ∧
      c' = { c1 with nextId := c1.nextId + 1 } := by
  obtain ⟨t, c1, hp, h⟩ := Read.bind_ok.1 h
  obtain ⟨hfacing, rfl⟩ := Read.peek_ok.1 hp
  split at h
  · rename_i s
    obtain ⟨p, c2, ht, h⟩ := Read.bind_ok.1 h
    cases h
    exact ⟨s, hfacing, p, c2, ht, rfl⟩
  · exact absurd h Read.unexpected_not_ok

theorem Begins.name : Begins T lit .firm pre Read.name (fun n => [n.piece]) fun _ => True := by
  intro c n c' hs hlit _ hm
  obtain ⟨_, hstart⟩ := Lays.taken_name hs.ordered hm
  have hstop := Lays.reached_name hm
  obtain ⟨s, hfacing, p, c1, ht, rfl⟩ := Read.name_ok hm
  have hread : Since T lit .firm c 0 [] c1 := (Since.fresh hs hlit rfl).takeFacing hfacing rfl ht
  have hle := hread.walks.ordered.reached_le
  refine ⟨.same ⟨hread.walks, hread.literals, hread.next, hread.mark, ?_, ?_, ?_, hread.even,
    hread.through⟩ rfl rfl rfl rfl, trivial⟩
  · simp
  · intro _ x hx
    obtain rfl := List.mem_singleton.1 hx
    exact ⟨Nat.le_of_eq hstart.symm, Nat.le_trans (Nat.le_of_eq hstop.symm) hle⟩
  · exact fun hw => (hread.accounts hw).mono (by simp)

theorem Begins.names (fuel : Nat) :
    Begins T lit .firm pre (Read.names fuel) (·.map Name.piece) fun _ => True := by
  induction fuel generalizing pre with
  | zero => exact .exhausted
  | succ fuel ih =>
    refine .of .firm rfl fun b => ?_
    rw [Read.names]
    refine .step .name rfl fun n _ => .eat rfl ?_ ?_
    · exact .step ih rfl fun ns _ => .pure rfl (by simp) trivial
    · exact .pure rfl (by simp) trivial

theorem Spends.labelled {f : Name → Placed → Read β}
    (hnext : ∀ n p, Spends T lit w v b k Anywhere (ps ++ [n.piece]) (f n p) out' post') :
    Spends T lit w v b k (fun c => c.ahead[1]?.map Placed.token = some (.punct .colon)) ps
      (Read.name >>= fun n => Read.take >>= f n) out' post' := by
  intro c x c'' hs hp h
  obtain ⟨n, c', hn, hf⟩ := Read.bind_ok.1 h
  have hnamed : Begins T lit .firm Anywhere Read.name (fun n => [n.piece]) fun _ => True := .name
  obtain ⟨hname, _⟩ := hnamed c n c' hs.walks hs.literals trivial hn
  obtain ⟨s, hfacing, p, c1, ht, rfl⟩ := Read.name_ok hn
  have hahead := (Read.take_ok ht).2.resolve_left hfacing.nonempty
  rw [hahead] at hp
  have hcolon : Facing (some (.punct .colon)) { c1 with nextId := c1.nextId + 1 } := by
    rw [Facing, ← hp]
    simp [List.head?_eq_getElem?]
  have hadmits : w.admits k .firm = true := Mode.admits_iff.2 ⟨fun _ => rfl, fun _ => .inr rfl⟩
  have hpass : w.pass? k (.punct .colon) = some k := rfl
  exact takeFacing hpass (hnext n) _ x c'' (hs.append hname hadmits) hcolon hf

end Rules

end FuncLift
