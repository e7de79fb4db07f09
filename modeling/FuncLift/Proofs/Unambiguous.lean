import FuncLift.Proofs.Precedence
import FuncLift.Proofs.Reread

/-!
# Operations are unambiguous

The tokens of an operation on names, read from left to right, are those that were taken for it, and
the grammar reads the tokens of any such operation that groups its operands by precedence as that
operation. So an operation that was read is the only one with its tokens that groups so.
-/
namespace FuncLift

namespace Expr

def isOperation : Expr → Bool
  | .ident .. => true
  | .paren _ e | .unary _ _ e => e.isOperation
  | .binary _ l _ r => l.isOperation && r.isOperation
  | _ => false

/-- The tokens of an operation from left to right. -/
def inOrder : Expr → List Token
  | .ident _ n => [.ident n]
  | .paren _ e => .punct .lParen :: (e.inOrder ++ [.punct .rParen])
  | .unary _ op e => .punct op.punct :: e.inOrder
  | .binary _ l op r => l.inOrder ++ .punct op.punct :: r.inOrder
  | _ => []

def untagged : Expr → Expr
  | .ident _ n => .ident default n
  | .paren _ e => .paren default e.untagged
  | .unary _ op e => .unary default op e.untagged
  | .binary _ l op r => .binary default l.untagged op r.untagged
  | e => e

end Expr

theorem BinaryOp.of_ofToken {t : Token} {op : BinaryOp} (h : BinaryOp.ofToken? t = some op) :
    t = .punct op.punct := by
  unfold BinaryOp.ofToken? at h
  split at h
  · split at h <;> cases h <;> rfl
  · cases h

theorem UnaryOp.of_ofToken {t : Token} {op : UnaryOp} (h : UnaryOp.ofToken? t = some op) :
    t = .punct op.punct := by
  unfold UnaryOp.ofToken? at h
  split at h <;> cases h <;> rfl

def Cursor.tokens (c : Cursor) : List Token := c.ahead.map Placed.token

/-- The tokens that are taken for an operation are those of the operation. -/
def Read.Transcribes (r : Read Expr) : Prop :=
  ∀ c e c', r c = .ok (e, c') → e.isOperation = true → c.tokens = e.inOrder ++ c'.tokens

namespace Read

theorem tokens_take {c c' : Cursor} {t : Token} {p : Placed} (h : Facing (some t) c)
    (ht : Read.take c = .ok (p, c')) : c.tokens = t :: c'.tokens := by
  obtain ⟨ahead, size, reached, literals, nextId⟩ := c
  cases ahead with
  | nil => cases h
  | cons q rest =>
    cases ht
    cases h
    rfl

theorem tokens_expect {c c' : Cursor} {t : Token} (h : Read.expect t c = .ok ((), c')) :
    c.tokens = t :: c'.tokens := by
  obtain ⟨met, c1, hmet, h⟩ := bind_ok.1 h
  obtain ⟨b, c2, hb, hmet⟩ := bind_ok.1 hmet
  obtain ⟨next, c3, hnext, hb⟩ := bind_ok.1 hb
  obtain ⟨hfacing, rfl⟩ := peek_ok.1 hnext
  obtain ⟨rfl, rfl⟩ := pure_ok.1 hb
  split at hmet
  · rename_i hnext
    obtain ⟨p, c4, htake, hmet⟩ := bind_ok.1 hmet
    obtain ⟨rfl, rfl⟩ := pure_ok.1 hmet
    obtain ⟨_, rfl⟩ := pure_ok.1 h
    exact tokens_take (eq_of_beq hnext ▸ hfacing) htake
  · obtain ⟨rfl, rfl⟩ := pure_ok.1 hmet
    exact absurd h unexpected_not_ok

theorem tokens_tagFrom {c c' : Cursor} {s : Nat} {t : Tag} (h : Read.tagFrom s c = .ok (t, c')) :
    c'.tokens = c.tokens := by
  cases h
  rfl

/-- The productions that can return an operation take its tokens and no others. Behind an operation
no suffix was taken, for what has one is no operation. -/
structure TranscribesAll (fuel : Nat) : Prop where
  expr : Transcribes (Read.expr fuel)
  binary : ∀ least, Transcribes (Read.binary fuel least)
  binaryRest : ∀ least s x c e c', Read.binaryRest fuel least s x c = .ok (e, c') →
    e.isOperation = true → x.isOperation = true ∧
      ∃ more, e.inOrder = x.inOrder ++ more ∧ c.tokens = more ++ c'.tokens
  unary : Transcribes (Read.unary fuel)
  primary : Transcribes (Read.primary fuel)
  primaryRest : ∀ s x c e c', Read.primaryRest fuel s x c = .ok (e, c') → e.isOperation = true →
    e = x ∧ c' = c
  operand : Transcribes (Read.operand fuel)

namespace TranscribesAll

variable {fuel : Nat} (ih : TranscribesAll fuel)
include ih

theorem expr_succ : Transcribes (Read.expr (fuel + 1)) := by
  rw [Read.expr]
  exact ih.binary 1

theorem binary_succ (least : Nat) : Transcribes (Read.binary (fuel + 1) least) := by
  intro c e c' hr he
  rw [Read.binary] at hr
  obtain ⟨s, c1, hs, hr⟩ := bind_ok.1 hr
  cases hs
  obtain ⟨x, c1, hx, hr⟩ := bind_ok.1 hr
  obtain ⟨hxop, more, hmore, hc1⟩ := ih.binaryRest _ _ _ _ _ _ hr he
  rw [ih.unary c x c1 hx hxop, hc1, hmore, List.append_assoc]

theorem binaryRest_succ {least s : Nat} {x : Expr} {c c' : Cursor} {e : Expr}
    (hr : Read.binaryRest (fuel + 1) least s x c = .ok (e, c')) (he : e.isOperation = true) :
    x.isOperation = true ∧ ∃ more, e.inOrder = x.inOrder ++ more ∧ c.tokens = more ++ c'.tokens := by
  rcases binaryRest_ok hr with ⟨rfl, rfl, _⟩ |
    ⟨p, op, t, right, c1, c2, c3, hahead, hop, _, hright, hc3, hr⟩
  · exact ⟨he, [], by simp⟩
  · obtain ⟨hxop, more, hmore, hbehind⟩ := ih.binaryRest _ _ _ _ _ _ hr he
    rw [Expr.isOperation, Bool.and_eq_true] at hxop
    have hc2 : c3.tokens = c2.tokens := congrArg (List.map Placed.token) hc3
    have htaken := ih.binary _ c1 right c2 hright hxop.2
    have hc : c.tokens = .punct op.punct :: c1.tokens := by
      rw [Cursor.tokens, hahead, List.map_cons, BinaryOp.of_ofToken hop]
      rfl
    refine ⟨hxop.1, .punct op.punct :: (right.inOrder ++ more), ?_, ?_⟩
    · rw [hmore, Expr.inOrder]
      simp
    · rw [hc, htaken, ← hc2, hbehind]
      simp

theorem unary_succ : Transcribes (Read.unary (fuel + 1)) := by
  intro c e c' hr he
  rw [Read.unary] at hr
  obtain ⟨s, c1, hs, hr⟩ := bind_ok.1 hr
  cases hs
  obtain ⟨next, c1, hnext, hr⟩ := bind_ok.1 hr
  obtain ⟨hfacing, rfl⟩ := peek_ok.1 hnext
  cases hop : next.bind UnaryOp.ofToken? with
  | none =>
    simp only [hop] at hr
    exact ih.primary c e c' hr he
  | some op =>
    simp only [hop] at hr
    obtain ⟨token, rfl, htoken⟩ := Option.bind_eq_some_iff.1 hop
    obtain ⟨p, c1, htake, hr⟩ := bind_ok.1 hr
    obtain ⟨x, c2, hx, hr⟩ := bind_ok.1 hr
    obtain ⟨t, c3, htag, hr⟩ := bind_ok.1 hr
    obtain ⟨rfl, rfl⟩ := pure_ok.1 hr
    rw [tokens_take hfacing htake, ih.unary c1 x c2 hx he, tokens_tagFrom htag,
      UnaryOp.of_ofToken htoken, Expr.inOrder, List.cons_append]

theorem primary_succ : Transcribes (Read.primary (fuel + 1)) := by
  intro c e c' hr he
  rw [Read.primary] at hr
  obtain ⟨s, c1, hs, hr⟩ := bind_ok.1 hr
  cases hs
  obtain ⟨x, c1, hx, hr⟩ := bind_ok.1 hr
  obtain ⟨rfl, rfl⟩ := ih.primaryRest _ _ _ _ _ hr he
  exact ih.operand c e c' hx he

theorem primaryRest_succ {s : Nat} {x : Expr} {c c' : Cursor} {e : Expr}
    (hr : Read.primaryRest (fuel + 1) s x c = .ok (e, c')) (he : e.isOperation = true) :
    e = x ∧ c' = c := by
  have hsuffix {y : Expr} {d : Cursor} (hy : y.isOperation = false)
      (hr : Read.primaryRest fuel s y d = .ok (e, c')) : False := by
    obtain ⟨rfl, _⟩ := ih.primaryRest s y d e c' hr he
    rw [hy] at he
    cases he
  rw [Read.primaryRest] at hr
  obtain ⟨next, c1, hnext, hr⟩ := bind_ok.1 hr
  obtain ⟨hfacing, rfl⟩ := peek_ok.1 hnext
  split at hr
  · obtain ⟨p, c1, _, hr⟩ := bind_ok.1 hr
    obtain ⟨isAssert, c2, _, hr⟩ := bind_ok.1 hr
    split at hr
    · obtain ⟨isSwitch, c3, _, hr⟩ := bind_ok.1 hr
      dsimp only at hr
      split at hr
      · obtain ⟨_, c4, _, hr⟩ := bind_ok.1 hr
        obtain ⟨t, c5, _, hr⟩ := bind_ok.1 hr
        exact (hsuffix rfl hr).elim
      · obtain ⟨type, c4, _, hr⟩ := bind_ok.1 hr
        obtain ⟨_, c5, _, hr⟩ := bind_ok.1 hr
        obtain ⟨t, c6, _, hr⟩ := bind_ok.1 hr
        exact (hsuffix rfl hr).elim
    · obtain ⟨sel, c3, _, hr⟩ := bind_ok.1 hr
      obtain ⟨t, c4, _, hr⟩ := bind_ok.1 hr
      exact (hsuffix rfl hr).elim
  · obtain ⟨p, c1, _, hr⟩ := bind_ok.1 hr
    obtain ⟨build, c2, hbuild, hr⟩ := bind_ok.1 hr
    obtain ⟨_, c3, _, hr⟩ := bind_ok.1 hr
    obtain ⟨t, c4, _, hr⟩ := bind_ok.1 hr
    obtain ⟨d, d', _, hbuild, _⟩ := withLiterals_ok hbuild
    obtain ⟨i, rfl⟩ | ⟨lo, hi, max, rfl⟩ := bracket_ok hbuild <;> exact (hsuffix rfl hr).elim
  · obtain ⟨p, c1, _, hr⟩ := bind_ok.1 hr
    obtain ⟨⟨args, spread⟩, c2, _, hr⟩ := bind_ok.1 hr
    obtain ⟨_, c3, _, hr⟩ := bind_ok.1 hr
    obtain ⟨t, c4, _, hr⟩ := bind_ok.1 hr
    exact (hsuffix rfl hr).elim
  · obtain ⟨d, c1, hget, hr⟩ := bind_ok.1 hr
    obtain ⟨rfl, rfl⟩ := get_ok.1 hget
    cases htype : literalType? c.literals x with
    | none =>
      simp only [htype] at hr
      obtain ⟨rfl, rfl⟩ := pure_ok.1 hr
      exact ⟨rfl, rfl⟩
    | some type =>
      simp only [htype] at hr
      obtain ⟨t, c1, _, hr⟩ := bind_ok.1 hr
      obtain ⟨lit, c2, hlit, hr⟩ := bind_ok.1 hr
      obtain ⟨_, _, _, rfl⟩ := composite_ok hlit
      exact (hsuffix rfl hr).elim
  · obtain ⟨rfl, rfl⟩ := pure_ok.1 hr
    exact ⟨rfl, rfl⟩

theorem operand_succ : Transcribes (Read.operand (fuel + 1)) := by
  intro c e c' hr he
  have hliteral {s : Nat} {kind : LitKind} {text : String}
      (hr : Read.operand.literal s kind text c = .ok (e, c')) : False := by
    obtain ⟨p, c1, _, hr⟩ := bind_ok.1 hr
    obtain ⟨t, c2, _, hr⟩ := bind_ok.1 hr
    obtain ⟨rfl, rfl⟩ := pure_ok.1 hr
    cases he
  have htype {s : Nat} (hr : (do
      let t ← Read.typeExpr fuel
      return Expr.type (← tagFrom s) t : Read Expr) c = .ok (e, c')) : False := by
    obtain ⟨p, c1, _, hr⟩ := bind_ok.1 hr
    obtain ⟨t, c2, _, hr⟩ := bind_ok.1 hr
    obtain ⟨rfl, rfl⟩ := pure_ok.1 hr
    cases he
  rw [Read.operand] at hr
  obtain ⟨s, c1, hs, hr⟩ := bind_ok.1 hr
  cases hs
  obtain ⟨next, c1, hnext, hr⟩ := bind_ok.1 hr
  obtain ⟨hfacing, rfl⟩ := peek_ok.1 hnext
  split at hr
  · obtain ⟨p, c1, htake, hr⟩ := bind_ok.1 hr
    obtain ⟨t, c2, htag, hr⟩ := bind_ok.1 hr
    obtain ⟨rfl, rfl⟩ := pure_ok.1 hr
    rw [tokens_take hfacing htake, tokens_tagFrom htag]
    rfl
  all_goals first
    | exact (hliteral hr).elim
    | exact (htype hr).elim
    | exact absurd hr unexpected_not_ok
    | skip
  · obtain ⟨p, c1, htake, hr⟩ := bind_ok.1 hr
    obtain ⟨inner, c2, hinner, hr⟩ := bind_ok.1 hr
    obtain ⟨_, c3, hclose, hr⟩ := bind_ok.1 hr
    obtain ⟨t, c4, htag, hr⟩ := bind_ok.1 hr
    obtain ⟨rfl, rfl⟩ := pure_ok.1 hr
    obtain ⟨d, d', hd, hinner, hd'⟩ := withLiterals_ok hinner
    have hopen : c1.tokens = d.tokens := congrArg (List.map Placed.token) hd.symm
    have hbehind : c2.tokens = d'.tokens := congrArg (List.map Placed.token) hd'
    rw [tokens_take hfacing htake, hopen, ih.expr d inner d' hinner he, ← hbehind,
      tokens_expect hclose, tokens_tagFrom htag, Expr.inOrder]
    simp
  · obtain ⟨p, c1, _, hr⟩ := bind_ok.1 hr
    obtain ⟨sig, c2, _, hr⟩ := bind_ok.1 hr
    obtain ⟨opens, c3, _, hr⟩ := bind_ok.1 hr
    split at hr
    · obtain ⟨body, c4, _, hr⟩ := bind_ok.1 hr
      obtain ⟨t, c5, _, hr⟩ := bind_ok.1 hr
      obtain ⟨rfl, rfl⟩ := pure_ok.1 hr
      cases he
    · obtain ⟨t, c4, _, hr⟩ := bind_ok.1 hr
      obtain ⟨u, c5, _, hr⟩ := bind_ok.1 hr
      obtain ⟨rfl, rfl⟩ := pure_ok.1 hr
      cases he

end TranscribesAll

theorem transcribesAll (fuel : Nat) : TranscribesAll fuel := by
  induction fuel with
  | zero =>
    constructor <;> intros <;> (try intro _ _ _ _ _) <;> simp only [Read.expr, Read.binary,
      Read.binaryRest, Read.unary, Read.primary, Read.primaryRest, Read.operand] at * <;>
      exact absurd ‹_› exhausted_not_ok
  | succ fuel ih =>
    exact {
      expr := ih.expr_succ
      binary := ih.binary_succ
      binaryRest := fun _ _ _ _ _ _ => ih.binaryRest_succ
      unary := ih.unary_succ
      primary := ih.primary_succ
      primaryRest := fun _ _ _ _ _ => ih.primaryRest_succ
      operand := ih.operand_succ }

end Read

namespace Expr

theorem level_of_operator_none {e : Expr} (h : e.operator? = none) : 6 ≤ e.level := by
  cases e with
  | binary => cases h
  | _ => simp [level]

/-- Reading the tokens of an operation: as an operand, as a unary operation, and as a chain of binary
ones before the loop that goes on with it. -/
structure Regains (e : Expr) : Prop where
  unary : ∀ {fuel : Nat} {rest : List Token}, 6 ≤ e.level → Follows 5 rest →
    8 * e.inOrder.length + 2 ≤ fuel →
    Takes (e.inOrder ++ rest) (Read.unary fuel) rest (·.untagged = e.untagged)
  binary : ∀ {fuel m least : Nat} {rest after : List Token} {post : Expr → Prop}, least ≤ e.level →
    Follows e.level rest → m + 8 * e.inOrder.length + 3 ≤ fuel →
    (∀ f s x, m ≤ f → x.untagged = e.untagged →
      Takes rest (Read.binaryRest f least s x) after post) →
    Takes (e.inOrder ++ rest) (Read.binary fuel least) after post

namespace Regains

variable {e : Expr}

theorem of_unary
    (h : ∀ {fuel : Nat} {rest : List Token}, Follows 5 rest → 8 * e.inOrder.length + 2 ≤ fuel →
      Takes (e.inOrder ++ rest) (Read.unary fuel) rest (·.untagged = e.untagged)) : Regains e where
  unary _ := h
  binary {fuel m least rest after post} _ hrest hfuel k := by
    have hrest : Follows 5 rest := fun t ht => ⟨(hrest t ht).1, fun op _ => op.precedence_le⟩
    obtain ⟨fuel, rfl⟩ : ∃ f, fuel = f + 1 := ⟨fuel - 1, by omega⟩
    rw [Read.binary]
    exact .start fun s => .bind (h hrest (by omega)) fun x hx => k fuel s x (by omega) hx

/-- An operand starts with no operator, and nothing that goes on with it follows. -/
theorem of_operand {t : Token} {ts : List Token} (htokens : e.inOrder = t :: ts)
    (ht : UnaryOp.ofToken? t = none)
    (h : ∀ {fuel : Nat} {rest : List Token}, 8 * e.inOrder.length ≤ fuel + 2 →
      Takes (e.inOrder ++ rest) (Read.operand fuel) rest (·.untagged = e.untagged)) : Regains e := by
  refine .of_unary fun {fuel rest} hrest hfuel => ?_
  obtain ⟨fuel, rfl⟩ : ∃ f, fuel = f + 2 := ⟨fuel - 2, by omega⟩
  have hlength : 0 < e.inOrder.length := by simp [htokens]
  rw [Read.unary]
  refine .start fun s => .peek ?_
  have hhead : (e.inOrder ++ rest).head?.bind UnaryOp.ofToken? = none := by
    rw [htokens, List.cons_append, List.head?_cons, Option.bind_some, ht]
  simp only [hhead]
  rw [Read.primary]
  refine .start fun s => .bind (h (by omega)) fun x hx => ?_
  obtain ⟨fuel, rfl⟩ : ∃ f, fuel = f + 1 := ⟨fuel - 1, by omega⟩
  exact .primaryRest_stop hrest hx

theorem expr (h : Regains e) {fuel : Nat} {rest : List Token} (hrest : Follows 0 rest)
    (hfuel : 8 * e.inOrder.length + 5 ≤ fuel) :
    Takes (e.inOrder ++ rest) (Read.expr fuel) rest (·.untagged = e.untagged) := by
  obtain ⟨fuel, rfl⟩ : ∃ f, fuel = f + 1 := ⟨fuel - 1, by omega⟩
  rw [Read.expr]
  refine h.binary (m := 1) e.level_pos (hrest.mono (Nat.zero_le _)) (by omega) fun f s x hf hx => ?_
  obtain ⟨f, rfl⟩ := Nat.exists_eq_add_of_le' hf
  exact .binaryRest_stop hrest (by omega) hx

theorem ident (t : Tag) (n : String) : Regains (.ident t n) := by
  refine .of_operand rfl rfl fun {fuel rest} hfuel => ?_
  obtain ⟨fuel, rfl⟩ : ∃ f, fuel = f + 1 := ⟨fuel - 1, by simp [inOrder] at hfuel; omega⟩
  rw [Read.operand]
  exact .start fun s => .peek (.take fun _ => .tagFrom fun u => .pure rfl)

theorem paren (t : Tag) (h : Regains e) : Regains (.paren t e) := by
  refine .of_operand rfl rfl fun {fuel rest} hfuel => ?_
  rw [inOrder, List.length_cons, List.length_append, List.length_singleton] at hfuel
  obtain ⟨fuel, rfl⟩ : ∃ f, fuel = f + 1 := ⟨fuel - 1, by omega⟩
  rw [inOrder, Read.operand, List.cons_append, List.append_assoc]
  refine .start fun s => .peek (.take fun _ => ?_)
  refine .bind (.withLiterals (h.expr (.of_closer (by decide)) (by omega))) fun x hx => ?_
  exact .expect (.tagFrom fun u => .pure (by rw [untagged, untagged, hx]))

theorem unaryOp (t : Tag) (op : UnaryOp) (h : Regains e) (hlevel : 6 ≤ e.level) :
    Regains (.unary t op e) := by
  refine .of_unary fun {fuel rest} hrest hfuel => ?_
  obtain ⟨fuel, rfl⟩ : ∃ f, fuel = f + 1 := ⟨fuel - 1, by omega⟩
  rw [inOrder, List.length_cons] at hfuel
  rw [inOrder, Read.unary]
  refine .start fun s => .peek ?_
  have hop : UnaryOp.ofToken? (.punct op.punct) = some op := by cases op <;> rfl
  simp only [List.cons_append, List.head?_cons, Option.bind_some, hop]
  refine .take fun _ => .bind (h.unary hlevel hrest (by omega)) fun x hx => ?_
  exact .tagFrom fun u => .pure (by rw [untagged, untagged, hx])

theorem binaryOp (t : Tag) {l r : Expr} {op : BinaryOp} (hl : Regains l) (hr : Regains r)
    (hleft : op.precedence ≤ l.level) (hright : op.precedence < r.level) :
    Regains (.binary t l op r) := by
  have hop := op.precedence_le
  refine ⟨fun h => ?_, fun {fuel m least rest after post} hleast hrest hfuel k => ?_⟩
  · rw [level] at h
    omega
  · rw [inOrder, List.length_append, List.length_cons] at hfuel
    rw [inOrder, List.append_assoc, List.cons_append]
    rw [level] at hleast hrest
    refine hl.binary (m := m + 8 * r.inOrder.length + 5) (by omega) (.of_operator hleft) (by omega)
      fun f s x hf hx => ?_
    obtain ⟨f, rfl⟩ : ∃ g, f = g + 1 := ⟨f - 1, by omega⟩
    rw [Read.binaryRest]
    refine .peek ?_
    simp only [List.head?_cons, Option.bind_some, ofToken_punct]
    rw [if_neg (by omega)]
    refine .take fun _ => .bind (Q := (·.untagged = r.untagged)) ?_ fun y hy => .tagFrom fun u =>
      k f s _ (by omega) (by rw [untagged, untagged, hx, hy])
    -- the loop for the right operand stops at what follows, the outer one goes on
    refine hr.binary (m := 1) (by omega) (hrest.mono (by omega)) (by omega) fun g s y hg hy => ?_
    obtain ⟨g, rfl⟩ := Nat.exists_eq_add_of_le' hg
    exact .binaryRest_stop hrest (by omega) hy

end Regains

theorem regains : ∀ e : Expr, e.isOperation = true → (Node.expr e).Regular → Regains e
  | .ident t n, _, _ => .ident t n
  | .paren t e, he, hregular =>
    .paren t (regains e he (hregular.pieces _ List.mem_cons_self))
  | .unary t op e, he, hregular =>
    .unaryOp t op (regains e he (hregular.pieces _ List.mem_cons_self))
      (level_of_operator_none hregular.grouped)
  | .binary t l op r, he, hregular => by
    rw [isOperation, Bool.and_eq_true] at he
    have hlevel {e : Expr} {n : Nat} (hn : n ≤ 6)
        (h : ∀ op', e.operator? = some op' → n ≤ op'.precedence) : n ≤ e.level := by
      cases hop : e.operator? with
      | none => exact Nat.le_trans hn (level_of_operator_none hop)
      | some op' => exact level_of_operator hop ▸ h op' hop
    have hop := op.precedence_le
    obtain ⟨hleft, hright⟩ := hregular.grouped
    exact .binaryOp t (regains l he.1 (hregular.pieces l.piece (by simp [Node.pieces])))
      (regains r he.2 (hregular.pieces r.piece (by simp [Node.pieces])))
      (hlevel (by omega) hleft) (hlevel (by omega) hright)

/-- Two operations on names with the same tokens that both group by precedence are the same. -/
theorem untagged_eq_of_inOrder {x y : Expr} (hx : x.isOperation = true) (hy : y.isOperation = true)
    (hxr : (Node.expr x).Regular) (hyr : (Node.expr y).Regular) (h : x.inOrder = y.inOrder) :
    x.untagged = y.untagged := by
  let c : Cursor := ⟨x.inOrder.map fun t => ⟨t, default⟩, 0, 0, true, 0⟩
  have hc : c.ahead.map Placed.token = x.inOrder ++ [] := by
    simp [c, Function.comp_def]
  have hend : Follows 0 [] := nofun
  obtain ⟨a, c1, ha, _, _, hax⟩ :=
    (regains x hx hxr).expr hend (Nat.le_refl _) c hc
  obtain ⟨b, c2, hb, _, _, hby⟩ :=
    (regains y hy hyr).expr hend (Nat.le_refl _) c (h ▸ hc)
  rw [h, hb] at ha
  cases ha
  exact hax.symm.trans hby

/-- What is read as an expression groups by precedence throughout. If it consists of names,
parentheses and operators, its tokens from left to right are those that were taken, and it is the only
such expression with these tokens that groups by precedence. -/
theorem read_grouped {fuel : Nat} {c c' : Cursor} {e : Expr} (h : Read.expr fuel c = .ok (e, c')) :
    (∀ n, (Node.expr e).Holds n → n.Grouped) ∧
      (e.isOperation = true → c.tokens = e.inOrder ++ c'.tokens ∧
        ∀ x : Expr, x.isOperation = true → (∀ n, (Node.expr x).Holds n → n.Grouped) →
          x.inOrder ++ c'.tokens = c.tokens → x.untagged = e.untagged) := by
  have hregular : (Node.expr e).Regular := (readsGrouped fuel).expr c e c' h
  refine ⟨hregular, fun he => ?_⟩
  have htokens := (Read.transcribesAll fuel).expr c e c' h he
  refine ⟨htokens, fun x hx hxregular hsame => ?_⟩
  exact untagged_eq_of_inOrder hx he hxregular hregular
    (List.append_cancel_right (hsame.trans htokens))

/-- A sum of a name, a product with a sum in parentheses, and a negated name. -/
theorem read_grouped_sum : ∃ e c',
    Read.expr 1024 ⟨[.ident "a", .punct .minus, .ident "b", .punct .star, .punct .lParen, .ident "c",
      .punct .plus, .ident "d", .punct .rParen, .punct .minus, .punct .minus, .ident "x",
      .punct .semi].map fun t => ⟨t, default⟩, 0, 0, true, 0⟩ = .ok (e, c') ∧
      e.isOperation = true ∧ c'.tokens = [.punct .semi] ∧ ∀ n, (Node.expr e).Holds n → n.Grouped := by
  generalize hc : (⟨_, 0, 0, true, 0⟩ : Cursor) = c
  have hread : (match Read.expr 1024 c with
      | .ok (e, c') => e.isOperation && c'.tokens == [.punct .semi]
      | .error _ => false) = true := by
    subst hc
    decide +kernel
  cases h : Read.expr 1024 c with
  | error => simp [h] at hread
  | ok r =>
    rw [h] at hread
    obtain ⟨hop, hrest⟩ := Bool.and_eq_true_iff.1 hread
    exact ⟨r.1, r.2, rfl, hop, eq_of_beq hrest, (read_grouped h).1⟩

end Expr

end FuncLift
