import FuncLift.Proofs.Handout
import FuncLift.Proofs.Labels
import FuncLift.Render.Blanks

/-!
# The shape of operations

The grammar builds trees whose shape follows precedence: the left operand of a binary operator binds
at least as tightly as the operator and the right one tighter, and what is selected from, indexed,
sliced or called is no operation without parentheses. So the tokens of a tree, read from left to
right, tell the tree. Parentheses directly inside of parentheses are written once.
-/
namespace FuncLift

def UnaryOp.punct : UnaryOp → Punct
  | .add => .plus | .sub => .minus | .not => .bang | .xor => .caret | .deref => .star
  | .addr => .amp | .recv => .arrow

def BinaryOp.punct : BinaryOp → Punct
  | .add => .plus | .sub => .minus | .mul => .star | .div => .slash | .mod => .percent
  | .and => .amp | .or => .pipe | .xor => .caret | .shl => .shl | .shr => .shr
  | .andNot => .andNot | .lAnd => .lAnd | .lOr => .lOr | .eq => .eqEq | .ne => .notEq
  | .lt => .lt | .le => .le | .gt => .gt | .ge => .ge

namespace Expr

mutual

/-- Only names, parentheses, operators, selectors, indices, slices and calls. -/
def isPlain : Expr → Bool
  | .ident .. => true
  | .paren _ e | .selector _ e _ | .unary _ _ e => isPlain e
  | .index _ e i => isPlain e && isPlain i
  | .slice _ e lo hi max =>
    isPlain e && isPlainOption lo && isPlainOption hi && isPlainOption max
  | .call _ callee args _ => isPlain callee && isPlainList args
  | .binary _ l _ r => isPlain l && isPlain r
  | _ => false

def isPlainOption : Option Expr → Bool
  | none => true
  | some e => isPlain e

def isPlainList : List Expr → Bool
  | [] => true
  | e :: es => isPlain e && isPlainList es

end

mutual

/-- The tree without tags, and without parentheses directly inside of others. -/
def core : Expr → Expr
  | .ident _ n => .ident default n
  | .paren _ e => if e.isParen then core e else .paren default (core e)
  | .selector _ e sel => .selector default (core e) ⟨default, sel.text⟩
  | .index _ e i => .index default (core e) (core i)
  | .slice _ e lo hi max => .slice default (core e) (coreOption lo) (coreOption hi) (coreOption max)
  | .call _ callee args spread => .call default (core callee) (coreList args) spread
  | .unary _ op e => .unary default op (core e)
  | .binary _ l op r => .binary default (core l) op (core r)
  | e => e

def coreOption : Option Expr → Option Expr
  | none => none
  | some e => some (core e)

def coreList : List Expr → List Expr
  | [] => []
  | e :: es => core e :: coreList es

end

mutual

/-- The tokens of a plain tree from left to right. -/
def tokens : Expr → List Token
  | .ident _ n => [.ident n]
  | .paren _ e =>
    if e.isParen then tokens e else .punct .lParen :: (tokens e ++ [.punct .rParen])
  | .selector _ e sel => tokens e ++ [.punct .dot, .ident sel.text]
  | .index _ e i => tokens e ++ .punct .lBrack :: (tokens i ++ [.punct .rBrack])
  | .slice _ e lo hi max =>
    tokens e ++ .punct .lBrack :: (tokensOption lo ++ .punct .colon :: (tokensOption hi ++
      ((if max.isSome then .punct .colon :: tokensOption max else []) ++ [.punct .rBrack])))
  | .call _ callee args spread =>
    tokens callee ++ .punct .lParen :: (tokensList args ++
      ((if spread then [.punct .ellipsis] else []) ++ [.punct .rParen]))
  | .unary _ op e => .punct op.punct :: tokens e
  | .binary _ l op r => tokens l ++ .punct op.punct :: tokens r
  | _ => []

def tokensOption : Option Expr → List Token
  | none => []
  | some e => tokens e

def tokensList : List Expr → List Token
  | [] => []
  | e :: es => tokens e ++ if es.isEmpty then [] else .punct .comma :: tokensList es

end

/-- How tightly the outermost operation binds. -/
def level : Expr → Nat
  | .binary _ _ op _ => op.precedence
  | .unary .. => 6
  | _ => 7

/-- The shape that the grammar gives to operations. -/
inductive Shaped : Expr → Prop
  | ident {t : Tag} {n : String} (hn : Token.IsName n) : Shaped (.ident t n)
  | paren {t : Tag} {e : Expr} (he : Shaped e) : Shaped (.paren t e)
  | selector {t : Tag} {e : Expr} {sel : Name} (he : Shaped e) (hlevel : e.level = 7)
      (hsel : Token.IsName sel.text) : Shaped (.selector t e sel)
  | index {t : Tag} {e i : Expr} (he : Shaped e) (hlevel : e.level = 7) (hi : Shaped i) :
      Shaped (.index t e i)
  | slice {t : Tag} {e : Expr} {lo hi max : Option Expr} (he : Shaped e) (hlevel : e.level = 7)
      (hlo : ∀ x ∈ lo, Shaped x) (hhi : ∀ x ∈ hi, Shaped x) (hmax : ∀ x ∈ max, Shaped x) :
      Shaped (.slice t e lo hi max)
  | call {t : Tag} {callee : Expr} {args : List Expr} {spread : Bool} (he : Shaped callee)
      (hlevel : callee.level = 7) (hargs : ∀ x ∈ args, Shaped x)
      (hspread : spread = true → args ≠ []) : Shaped (.call t callee args spread)
  | unary {t : Tag} {op : UnaryOp} {e : Expr} (he : Shaped e) (hlevel : 6 ≤ e.level) :
      Shaped (.unary t op e)
  | binary {t : Tag} {l r : Expr} {op : BinaryOp} (hl : Shaped l) (hr : Shaped r)
      (hleft : op.precedence ≤ l.level) (hright : op.precedence < r.level) :
      Shaped (.binary t l op r)

end Expr

/-- The names ahead are names, and the strings ahead are read as strings wherever they stand. -/
def Cursor.Named (c : Cursor) : Prop := ∀ p ∈ c.ahead, ∀ s, (p.token = .ident s → Token.IsName s) ∧
  (Read.isText (some p.token) = some s → (Token.ofLabel s).Legible)

/-- An operator that stands ahead binds looser than given. -/
def Cursor.Looser (n : Nat) (c : Cursor) : Prop :=
  ∀ p ∈ c.ahead.head?, ∀ op, BinaryOp.ofToken? p.token = some op → op.precedence < n

namespace Read

/-- A reader that only takes tokens. -/
def Consumes {α : Type} (r : Read α) : Prop :=
  ∀ c a c', r c = .ok (a, c') → ∀ p ∈ c'.ahead, p ∈ c.ahead

namespace Consumes

variable {α β : Type} {r : Read α} {f : α → Read β}

theorem named (h : Consumes r) {c c' : Cursor} {a : α} (hc : c.Named) (hr : r c = .ok (a, c')) :
    c'.Named := fun p hp => hc p (h c a c' hr p hp)

theorem of_same (h : ∀ c a c', r c = .ok (a, c') → c'.ahead = c.ahead) : Consumes r := by
  intro c a c' hr p hp
  rwa [h c a c' hr] at hp

theorem bind (h : Consumes r) (k : ∀ a, Consumes (f a)) : Consumes (r >>= f) := by
  intro c b c'' hr p hp
  obtain ⟨a, c', hr, hf⟩ := bind_ok.1 hr
  exact h c a c' hr p (k a c' b c'' hf p hp)

theorem pure (a : α) : Consumes (Pure.pure a : Read α) := of_same fun _ _ _ h => by cases h; rfl

theorem unexpected {w : Wanted} : Consumes (Read.unexpected w : Read α) :=
  fun _ _ _ h => absurd h unexpected_not_ok

theorem take : Consumes Read.take := by
  rintro ⟨_ | ⟨q, rest⟩, _, _, _, _⟩ a c' hr p hp
  · cases hr
    exact hp
  · cases hr
    exact List.mem_cons_of_mem _ hp

theorem eat (t : Token) : Consumes (Read.eat t) := by
  refine .bind (.of_same fun _ _ _ h => by cases h; rfl) fun met => ?_
  split
  · exact take.bind fun _ => .pure _
  · exact .pure _

theorem expect (t : Token) : Consumes (Read.expect t) := by
  refine (eat t).bind fun met => ?_
  split
  · exact .pure _
  · exact .unexpected

theorem tagFrom (s : Nat) : Consumes (Read.tagFrom s) := of_same fun _ _ _ h => by cases h; rfl

theorem endStatement : Consumes Read.endStatement := by
  refine .bind (.of_same fun c a c' h => by cases h; rfl) fun next => ?_
  split
  · exact .bind .take fun _ => .pure _
  · exact .pure _
  · exact .pure _
  · exact .pure _
  · exact .unexpected

end Consumes

theorem withLiterals_ok {α : Type} {allowed : Bool} {r : Read α} {c c' : Cursor} {a : α}
    (h : withLiterals allowed r c = .ok (a, c')) : ∃ d d', d.ahead = c.ahead ∧ r d = .ok (a, d') ∧
      c'.ahead = d'.ahead := by
  obtain ⟨_, _, hg, h⟩ := bind_ok.1 h
  obtain ⟨rfl, rfl⟩ := get_ok.1 hg
  obtain ⟨_, c1, hm, h⟩ := bind_ok.1 h
  obtain ⟨b, c2, hb, h⟩ := bind_ok.1 h
  obtain ⟨_, c3, hm', h⟩ := bind_ok.1 h
  obtain ⟨rfl, rfl⟩ := pure_ok.1 h
  cases hm
  cases hm'
  exact ⟨{ c with literals := allowed }, c2, rfl, hb, rfl⟩

theorem name_named {c c' : Cursor} {n : Name} (hc : c.Named) (h : Read.name c = .ok (n, c')) :
    Token.IsName n.text ∧ c'.Named := by
  obtain ⟨next, c1, hnext, h⟩ := bind_ok.1 h
  obtain ⟨hfacing, rfl⟩ := peek_ok.1 hnext
  split at h
  · obtain ⟨p, c1, htake, h⟩ := bind_ok.1 h
    obtain ⟨t, c2, htag, h⟩ := bind_ok.1 h
    obtain ⟨rfl, rfl⟩ := pure_ok.1 h
    cases htag
    obtain ⟨htoken, rest, hahead, _⟩ := hfacing.of_take htake
    have h1 : c1.Named := Consumes.take.named hc htake
    exact ⟨(hc p (by simp [hahead]) _).1 htoken, h1⟩
  · exact absurd h unexpected_not_ok

theorem composite_ok {fuel s : Nat} {type : Option TypeExpr} {c c' : Cursor} {e : Expr}
    (h : Read.composite fuel s type c = .ok (e, c')) :
    ∃ t ty elems, e = .composite t ty elems := by
  cases fuel with
  | zero =>
    rw [Read.composite] at h
    exact absurd h exhausted_not_ok
  | succ fuel =>
    rw [Read.composite] at h
    obtain ⟨_, c1, _, h⟩ := bind_ok.1 h
    obtain ⟨elems, c2, _, h⟩ := bind_ok.1 h
    obtain ⟨_, c3, _, h⟩ := bind_ok.1 h
    obtain ⟨t, c4, _, h⟩ := bind_ok.1 h
    obtain ⟨rfl, rfl⟩ := pure_ok.1 h
    exact ⟨t, type, elems, rfl⟩

/-- What is read if it is wanted. -/
def perhaps {α : Type} (wanted : Bool) (r : Read α) : Read (Option α) :=
  if wanted then some <$> r else pure none

/-- The grammar of brackets over any reader of the expressions in them. -/
def bracketBy (r : Read Expr) (x : Expr) : Read (Tag → Expr) := do
  let lo ← perhaps (!(← atPunct .colon)) r
  if ← eatPunct .colon then
    let next ← peek
    let hi ← perhaps (!(next == some (.punct .colon) || next == some (.punct .rBrack))) r
    let max ← perhaps (← eatPunct .colon) r
    return fun t => .slice t x lo hi max
  else
    match lo with
    | some e => return fun t => .index t x e
    | none => unexpected .index

theorem perhaps_bind {α β : Type} (wanted : Bool) (r : Read α) (f : Option α → Read β) :
    (perhaps wanted r >>= f) = if wanted then r >>= fun a => f (some a) else f none := by
  cases wanted
  · rfl
  · simp [perhaps]

theorem bracket_eq (fuel : Nat) (x : Expr) :
    Read.bracket (fuel + 1) x = bracketBy (Read.expr fuel) x := by
  rw [Read.bracket, bracketBy]
  simp only [perhaps_bind, pure_bind, Bool.not_eq_true', ← Bool.not_eq_true, ite_not]

theorem bracket_ok {fuel : Nat} {x : Expr} {c c' : Cursor} {build : Tag → Expr}
    (h : Read.bracket fuel x c = .ok (build, c')) :
    (∃ i, build = fun t => .index t x i) ∨ ∃ lo hi max, build = fun t => .slice t x lo hi max := by
  cases fuel with
  | zero =>
    rw [Read.bracket] at h
    exact absurd h exhausted_not_ok
  | succ fuel =>
    rw [bracket_eq, bracketBy] at h
    obtain ⟨_, c1, _, h⟩ := bind_ok.1 h
    obtain ⟨lo, c2, _, h⟩ := bind_ok.1 h
    obtain ⟨slices, c3, _, h⟩ := bind_ok.1 h
    split at h
    · obtain ⟨_, c4, _, h⟩ := bind_ok.1 h
      obtain ⟨hi, c5, _, h⟩ := bind_ok.1 h
      obtain ⟨_, c6, _, h⟩ := bind_ok.1 h
      obtain ⟨max, c7, _, h⟩ := bind_ok.1 h
      obtain ⟨rfl, rfl⟩ := pure_ok.1 h
      exact .inr ⟨lo, hi, max, rfl⟩
    · cases lo with
      | none => exact absurd h unexpected_not_ok
      | some i =>
        obtain ⟨rfl, rfl⟩ := pure_ok.1 h
        exact .inl ⟨i, rfl⟩

/-- Plain results with a budget have the shape that the grammar gives them. Behind a plain result the
names ahead are still names; nothing is said of a result that is not plain, so only the productions
that can return a plain one occur. -/
structure GivesShape (fuel : Nat) : Prop where
  expr : ∀ c e c', c.Named → Read.expr fuel c = .ok (e, c') → e.isPlain = true →
    e.Shaped ∧ c'.Named
  binary : ∀ least c e c', least ≤ 6 → c.Named → Read.binary fuel least c = .ok (e, c') →
    e.isPlain = true → e.Shaped ∧ least ≤ e.level ∧ c'.Named ∧ c'.Looser least
  binaryRest : ∀ least s x c e c', Read.binaryRest fuel least s x c = .ok (e, c') →
    e.isPlain = true → x.isPlain = true ∧ (x.Shaped → least ≤ x.level → c.Named →
      c.Looser (x.level + 1) → e.Shaped ∧ least ≤ e.level ∧ c'.Named ∧ c'.Looser least)
  unary : ∀ c e c', c.Named → Read.unary fuel c = .ok (e, c') → e.isPlain = true →
    e.Shaped ∧ 6 ≤ e.level ∧ c'.Named
  primary : ∀ c e c', c.Named → Read.primary fuel c = .ok (e, c') → e.isPlain = true →
    e.Shaped ∧ e.level = 7 ∧ c'.Named
  primaryRest : ∀ s x c e c', Read.primaryRest fuel s x c = .ok (e, c') → e.isPlain = true →
    x.isPlain = true ∧ (x.Shaped → x.level = 7 → c.Named → e.Shaped ∧ e.level = 7 ∧ c'.Named)
  bracket : ∀ x c build c' t, Read.bracket fuel x c = .ok (build, c') → (build t).isPlain = true →
    x.isPlain = true ∧
      (x.Shaped → x.level = 7 → c.Named → (build t).Shaped ∧ (build t).level = 7 ∧ c'.Named)
  arguments : ∀ c args spread c', c.Named → Read.arguments fuel c = .ok ((args, spread), c') →
    Expr.isPlainList args = true →
      (∀ x ∈ args, x.Shaped) ∧ (spread = true → args ≠ []) ∧ c'.Named
  operand : ∀ c e c', c.Named → Read.operand fuel c = .ok (e, c') → e.isPlain = true →
    e.Shaped ∧ e.level = 7 ∧ c'.Named

section Step

variable {fuel : Nat} (ih : GivesShape fuel)
include ih

theorem GivesShape.expr_succ {c c' : Cursor} {e : Expr} (hc : c.Named)
    (hr : Read.expr (fuel + 1) c = .ok (e, c')) (he : e.isPlain = true) : e.Shaped ∧ c'.Named := by
  rw [Read.expr] at hr
  obtain ⟨hshaped, _, hnamed, _⟩ := ih.binary 1 c e c' (by omega) hc hr he
  exact ⟨hshaped, hnamed⟩

theorem GivesShape.binary_succ {least : Nat} {c c' : Cursor} {e : Expr} (hleast : least ≤ 6)
    (hc : c.Named) (hr : Read.binary (fuel + 1) least c = .ok (e, c')) (he : e.isPlain = true) :
    e.Shaped ∧ least ≤ e.level ∧ c'.Named ∧ c'.Looser least := by
  rw [Read.binary] at hr
  obtain ⟨s, c1, hs, hr⟩ := bind_ok.1 hr
  cases hs
  obtain ⟨x, c1, hx, hr⟩ := bind_ok.1 hr
  obtain ⟨hplain, hrest⟩ := ih.binaryRest least _ x c1 e c' hr he
  obtain ⟨hshaped, hlevel, hnamed⟩ := ih.unary c x c1 hc hx hplain
  refine hrest hshaped (by omega) hnamed fun p _ op _ => ?_
  have : op.precedence ≤ 5 := by cases op <;> decide
  omega

theorem GivesShape.binaryRest_succ {least s : Nat} {x : Expr} {c c' : Cursor} {e : Expr}
    (hr : Read.binaryRest (fuel + 1) least s x c = .ok (e, c')) (he : e.isPlain = true) :
    x.isPlain = true ∧ (x.Shaped → least ≤ x.level → c.Named → c.Looser (x.level + 1) →
      e.Shaped ∧ least ≤ e.level ∧ c'.Named ∧ c'.Looser least) := by
  rw [Read.binaryRest] at hr
  obtain ⟨next, c1, hnext, hr⟩ := bind_ok.1 hr
  obtain ⟨hfacing, rfl⟩ := peek_ok.1 hnext
  have hahead : ∀ p ∈ c.ahead.head?, next = some p.token := by
    intro p hp
    rw [← hfacing, hp]
    rfl
  cases hop : next.bind BinaryOp.ofToken? with
  | none =>
    simp only [hop] at hr
    obtain ⟨rfl, rfl⟩ := pure_ok.1 hr
    refine ⟨he, fun hx hlevel hc _ => ⟨hx, hlevel, hc, fun p hp op hop' => ?_⟩⟩
    rw [hahead p hp, Option.bind_some, hop'] at hop
    cases hop
  | some op =>
    simp only [hop] at hr
    split at hr
    · rename_i hlt
      obtain ⟨rfl, rfl⟩ := pure_ok.1 hr
      refine ⟨he, fun hx hlevel hc _ => ⟨hx, hlevel, hc, fun p hp op' hop' => ?_⟩⟩
      rw [hahead p hp, Option.bind_some, hop'] at hop
      cases hop
      exact hlt
    · rename_i hle
      obtain ⟨p, c1, htake, hr⟩ := bind_ok.1 hr
      obtain ⟨right, c2, hright, hr⟩ := bind_ok.1 hr
      obtain ⟨t, c3, htag, hr⟩ := bind_ok.1 hr
      cases htag
      obtain ⟨hplain, hrest⟩ := ih.binaryRest _ _ _ _ _ _ hr he
      rw [Expr.isPlain, Bool.and_eq_true] at hplain
      refine ⟨hplain.1, fun hx hlevel hc hlooser => ?_⟩
      have hprecedence : op.precedence ≤ 5 := by cases op <;> decide
      obtain ⟨hshaped, hrlevel, hnamed, hbehind⟩ := ih.binary _ c1 right c2 (by omega)
        (Consumes.take.named hc htake) hright hplain.2
      have hleft : op.precedence ≤ x.level := by
        obtain ⟨t, rfl, ht⟩ := Option.bind_eq_some_iff.1 hop
        obtain ⟨q, hq, rfl⟩ := Option.map_eq_some_iff.1 hfacing
        exact Nat.le_of_lt_succ (hlooser q hq op ht)
      exact hrest (.binary hx hshaped hleft (by omega)) (by simpa [Expr.level] using hle) hnamed hbehind

theorem GivesShape.unary_succ {c c' : Cursor} {e : Expr} (hc : c.Named)
    (hr : Read.unary (fuel + 1) c = .ok (e, c')) (he : e.isPlain = true) :
    e.Shaped ∧ 6 ≤ e.level ∧ c'.Named := by
  rw [Read.unary] at hr
  obtain ⟨s, c1, hs, hr⟩ := bind_ok.1 hr
  cases hs
  obtain ⟨next, c1, hnext, hr⟩ := bind_ok.1 hr
  obtain ⟨hfacing, rfl⟩ := peek_ok.1 hnext
  cases hop : next.bind UnaryOp.ofToken? with
  | none =>
    simp only [hop] at hr
    obtain ⟨hshaped, hlevel, hnamed⟩ := ih.primary c e c' hc hr he
    exact ⟨hshaped, by omega, hnamed⟩
  | some op =>
    simp only [hop] at hr
    obtain ⟨p, c1, htake, hr⟩ := bind_ok.1 hr
    obtain ⟨x, c2, hx, hr⟩ := bind_ok.1 hr
    obtain ⟨t, c3, htag, hr⟩ := bind_ok.1 hr
    obtain ⟨rfl, rfl⟩ := pure_ok.1 hr
    obtain ⟨hshaped, hlevel, hnamed⟩ := ih.unary c1 x c2 (Consumes.take.named hc htake) hx he
    exact ⟨.unary hshaped hlevel, Nat.le_refl 6, (Consumes.tagFrom _).named hnamed htag⟩

theorem GivesShape.primary_succ {c c' : Cursor} {e : Expr} (hc : c.Named)
    (hr : Read.primary (fuel + 1) c = .ok (e, c')) (he : e.isPlain = true) :
    e.Shaped ∧ e.level = 7 ∧ c'.Named := by
  rw [Read.primary] at hr
  obtain ⟨s, c1, hs, hr⟩ := bind_ok.1 hr
  cases hs
  obtain ⟨x, c1, hx, hr⟩ := bind_ok.1 hr
  obtain ⟨hplain, hrest⟩ := ih.primaryRest _ x c1 e c' hr he
  obtain ⟨hshaped, hlevel, hnamed⟩ := ih.operand c x c1 hc hx hplain
  exact hrest hshaped hlevel hnamed

theorem GivesShape.arguments_succ {c c' : Cursor} {args : List Expr} {spread : Bool} (hc : c.Named)
    (hr : Read.arguments (fuel + 1) c = .ok ((args, spread), c'))
    (hargs : Expr.isPlainList args = true) :
    (∀ x ∈ args, x.Shaped) ∧ (spread = true → args ≠ []) ∧ c'.Named := by
  rw [Read.arguments] at hr
  obtain ⟨done, c1, hdone, hr⟩ := bind_ok.1 hr
  cases hdone
  split at hr
  · cases hr
    exact ⟨by simp, by simp, hc⟩
  · obtain ⟨e, c1, hexpr, hr⟩ := bind_ok.1 hr
    obtain ⟨dots, c2, hdots, hr⟩ := bind_ok.1 hr
    obtain ⟨comma, c3, hcomma, hr⟩ := bind_ok.1 hr
    have hbehind (h1 : c1.Named) : c3.Named :=
      (Consumes.eat _).named ((Consumes.eat _).named h1 hdots) hcomma
    split at hr
    · obtain ⟨⟨es, more⟩, c4, hes, hr⟩ := bind_ok.1 hr
      cases hr
      rw [Expr.isPlainList, Bool.and_eq_true] at hargs
      obtain ⟨hshaped, h1⟩ := ih.expr c e c1 hc hexpr hargs.1
      obtain ⟨hrest, _, h4⟩ := ih.arguments c3 es more _ (hbehind h1) hes hargs.2
      exact ⟨List.forall_mem_cons.2 ⟨hshaped, hrest⟩, by simp, h4⟩
    · cases hr
      rw [Expr.isPlainList, Bool.and_eq_true] at hargs
      obtain ⟨hshaped, h1⟩ := ih.expr c e c1 hc hexpr hargs.1
      exact ⟨by simpa using hshaped, by simp, hbehind h1⟩

theorem GivesShape.operand_succ {c c' : Cursor} {e : Expr} (hc : c.Named)
    (hr : Read.operand (fuel + 1) c = .ok (e, c')) (he : e.isPlain = true) :
    e.Shaped ∧ e.level = 7 ∧ c'.Named := by
  have hliteral {s : Nat} {kind : LitKind} {text : String}
      (hr : Read.operand.literal s kind text c = .ok (e, c')) : False := by
    obtain ⟨p, c1, _, hr⟩ := bind_ok.1 hr
    obtain ⟨t, c2, _, hr⟩ := bind_ok.1 hr
    obtain ⟨rfl, rfl⟩ := pure_ok.1 hr
    cases he
  have htype {s : Nat} (hr : (do
      let t ← Read.typeExpr fuel
      return Expr.type (← tagFrom s) t : Read Expr) c = .ok (e, c')) : False := by
    obtain ⟨p, c1, _, hr⟩ := bind_ok.1 hr
    obtain ⟨t, c2, _, hr⟩ := bind_ok.1 hr
    obtain ⟨rfl, rfl⟩ := pure_ok.1 hr
    cases he
  rw [Read.operand] at hr
  obtain ⟨s, c1, hs, hr⟩ := bind_ok.1 hr
  cases hs
  obtain ⟨next, c1, hnext, hr⟩ := bind_ok.1 hr
  obtain ⟨hfacing, rfl⟩ := peek_ok.1 hnext
  split at hr
  · obtain ⟨p, c1, htake, hr⟩ := bind_ok.1 hr
    obtain ⟨t, c2, htag, hr⟩ := bind_ok.1 hr
    obtain ⟨rfl, rfl⟩ := pure_ok.1 hr
    obtain ⟨htoken, rest, hahead, _⟩ := hfacing.of_take htake
    refine ⟨.ident ((hc p (by simp [hahead]) _).1 htoken), rfl, ?_⟩
    exact (Consumes.tagFrom _).named (Consumes.take.named hc htake) htag
  all_goals first
    | exact (hliteral hr).elim
    | exact (htype hr).elim
    | exact absurd hr unexpected_not_ok
    | skip
  · obtain ⟨p, c1, htake, hr⟩ := bind_ok.1 hr
    obtain ⟨inner, c2, hinner, hr⟩ := bind_ok.1 hr
    obtain ⟨_, c3, hclose, hr⟩ := bind_ok.1 hr
    obtain ⟨t, c4, htag, hr⟩ := bind_ok.1 hr
    obtain ⟨rfl, rfl⟩ := pure_ok.1 hr
    obtain ⟨d, d', hd, hinner, hd'⟩ := withLiterals_ok hinner
    have h1 := Consumes.take.named hc htake
    obtain ⟨hshaped, h2⟩ := ih.expr d inner d' (by rwa [Cursor.Named, hd]) hinner he
    have h2 : c2.Named := by rwa [Cursor.Named, hd']
    exact ⟨.paren hshaped, rfl,
      (Consumes.tagFrom _).named ((Consumes.expect _).named h2 hclose) htag⟩
  · obtain ⟨p, c1, _, hr⟩ := bind_ok.1 hr
    obtain ⟨sig, c2, _, hr⟩ := bind_ok.1 hr
    obtain ⟨opens, c3, _, hr⟩ := bind_ok.1 hr
    split at hr
    · obtain ⟨body, c4, _, hr⟩ := bind_ok.1 hr
      obtain ⟨t, c5, _, hr⟩ := bind_ok.1 hr
      obtain ⟨rfl, rfl⟩ := pure_ok.1 hr
      cases he
    · obtain ⟨t, c4, _, hr⟩ := bind_ok.1 hr
      obtain ⟨u, c5, _, hr⟩ := bind_ok.1 hr
      obtain ⟨rfl, rfl⟩ := pure_ok.1 hr
      cases he

theorem GivesShape.primaryRest_succ {s : Nat} {x : Expr} {c c' : Cursor} {e : Expr}
    (hr : Read.primaryRest (fuel + 1) s x c = .ok (e, c')) (he : e.isPlain = true) :
    x.isPlain = true ∧
      (x.Shaped → x.level = 7 → c.Named → e.Shaped ∧ e.level = 7 ∧ c'.Named) := by
  rw [Read.primaryRest] at hr
  obtain ⟨next, c1, hnext, hr⟩ := bind_ok.1 hr
  obtain ⟨hfacing, rfl⟩ := peek_ok.1 hnext
  split at hr
  · obtain ⟨p, c1, htake, hr⟩ := bind_ok.1 hr
    obtain ⟨isAssert, c2, heat, hr⟩ := bind_ok.1 hr
    split at hr
    · -- an assertion makes the whole expression one that is not plain
      have hassert {d : Cursor} {t : Tag} {type : Option TypeExpr}
          (hr : Read.primaryRest fuel s (.assert t x type) d = .ok (e, c')) : False := by
        have := (ih.primaryRest s _ d e c' hr he).1
        cases this
      obtain ⟨isSwitch, c3, _, hr⟩ := bind_ok.1 hr
      dsimp only at hr
      split at hr
      · obtain ⟨_, c4, _, hr⟩ := bind_ok.1 hr
        obtain ⟨t, c5, _, hr⟩ := bind_ok.1 hr
        exact (hassert hr).elim
      · obtain ⟨type, c4, _, hr⟩ := bind_ok.1 hr
        obtain ⟨_, c5, _, hr⟩ := bind_ok.1 hr
        obtain ⟨t, c6, _, hr⟩ := bind_ok.1 hr
        exact (hassert hr).elim
    · obtain ⟨sel, c3, hsel, hr⟩ := bind_ok.1 hr
      obtain ⟨t, c4, htag, hr⟩ := bind_ok.1 hr
      obtain ⟨hplain, hrest⟩ := ih.primaryRest s _ _ e c' hr he
      refine ⟨hplain, fun hx hlevel hc => ?_⟩
      have h2 := (Consumes.eat _).named (Consumes.take.named hc htake) heat
      obtain ⟨hname, h3⟩ := name_named h2 hsel
      exact hrest (.selector hx hlevel hname) rfl ((Consumes.tagFrom _).named h3 htag)
  · obtain ⟨p, c1, htake, hr⟩ := bind_ok.1 hr
    obtain ⟨build, c2, hbuild, hr⟩ := bind_ok.1 hr
    obtain ⟨_, c3, hclose, hr⟩ := bind_ok.1 hr
    obtain ⟨t, c4, htag, hr⟩ := bind_ok.1 hr
    obtain ⟨d, d', hd, hbuild, hd'⟩ := withLiterals_ok hbuild
    obtain ⟨hplain, hrest⟩ := ih.primaryRest s _ _ e c' hr he
    obtain ⟨hxplain, hbracket⟩ := ih.bracket x d build d' t hbuild hplain
    refine ⟨hxplain, fun hx hlevel hc => ?_⟩
    have h1 := Consumes.take.named hc htake
    obtain ⟨hshaped, hblevel, h2⟩ := hbracket hx hlevel (by rwa [Cursor.Named, hd])
    have h2 : c2.Named := by rwa [Cursor.Named, hd']
    exact hrest hshaped hblevel
      ((Consumes.tagFrom _).named ((Consumes.expect _).named h2 hclose) htag)
  · obtain ⟨p, c1, htake, hr⟩ := bind_ok.1 hr
    obtain ⟨⟨args, spread⟩, c2, hargs, hr⟩ := bind_ok.1 hr
    obtain ⟨_, c3, hclose, hr⟩ := bind_ok.1 hr
    obtain ⟨t, c4, htag, hr⟩ := bind_ok.1 hr
    obtain ⟨d, d', hd, hargs, hd'⟩ := withLiterals_ok hargs
    obtain ⟨hplain, hrest⟩ := ih.primaryRest s _ _ e c' hr he
    rw [Expr.isPlain, Bool.and_eq_true] at hplain
    refine ⟨hplain.1, fun hx hlevel hc => ?_⟩
    have h1 := Consumes.take.named hc htake
    obtain ⟨hshaped, hspread, h2⟩ :=
      ih.arguments d args spread d' (by rwa [Cursor.Named, hd]) hargs hplain.2
    have h2 : c2.Named := by rwa [Cursor.Named, hd']
    exact hrest (.call hx hlevel hshaped hspread) rfl
      ((Consumes.tagFrom _).named ((Consumes.expect _).named h2 hclose) htag)
  · obtain ⟨d, c1, hget, hr⟩ := bind_ok.1 hr
    obtain ⟨rfl, rfl⟩ := get_ok.1 hget
    cases htype : literalType? c.literals x with
    | none =>
      simp only [htype] at hr
      obtain ⟨rfl, rfl⟩ := pure_ok.1 hr
      exact ⟨he, fun hx hlevel hc => ⟨hx, hlevel, hc⟩⟩
    | some type =>
      simp only [htype] at hr
      obtain ⟨t, c1, _, hr⟩ := bind_ok.1 hr
      obtain ⟨lit, c2, hlit, hr⟩ := bind_ok.1 hr
      have hplain := (ih.primaryRest s lit c2 e c' hr he).1
      obtain ⟨_, _, _, rfl⟩ := composite_ok hlit
      cases hplain
  · obtain ⟨rfl, rfl⟩ := pure_ok.1 hr
    exact ⟨he, fun hx hlevel hc => ⟨hx, hlevel, hc⟩⟩

theorem GivesShape.perhaps {wanted : Bool} {c c' : Cursor} {e : Option Expr} (hc : c.Named)
    (hr : Read.perhaps wanted (Read.expr fuel) c = .ok (e, c')) (he : Expr.isPlainOption e = true) :
    (∀ x ∈ e, x.Shaped) ∧ c'.Named := by
  cases wanted with
  | false =>
    cases hr
    exact ⟨by simp, hc⟩
  | true =>
    rw [← bind_pure (Read.perhaps true (Read.expr fuel)), perhaps_bind] at hr
    obtain ⟨x, c1, hx, hr⟩ := bind_ok.1 hr
    cases hr
    obtain ⟨hshaped, h1⟩ := ih.expr c x c' hc hx he
    exact ⟨by simpa using hshaped, h1⟩

theorem GivesShape.bracket_succ {x : Expr} {c c' : Cursor} {build : Tag → Expr} {t : Tag}
    (hr : Read.bracket (fuel + 1) x c = .ok (build, c')) (he : (build t).isPlain = true) :
    x.isPlain = true ∧
      (x.Shaped → x.level = 7 → c.Named → (build t).Shaped ∧ (build t).level = 7 ∧ c'.Named) := by
  rw [bracket_eq, bracketBy] at hr
  obtain ⟨done, c1, hdone, hr⟩ := bind_ok.1 hr
  cases hdone
  obtain ⟨lo, c1, hlo, hr⟩ := bind_ok.1 hr
  obtain ⟨slices, c2, hslices, hr⟩ := bind_ok.1 hr
  split at hr
  · obtain ⟨next, c3, hnext, hr⟩ := bind_ok.1 hr
    obtain ⟨_, rfl⟩ := peek_ok.1 hnext
    obtain ⟨hi, c3, hhi, hr⟩ := bind_ok.1 hr
    obtain ⟨full, c4, hfull, hr⟩ := bind_ok.1 hr
    obtain ⟨max, c5, hmax, hr⟩ := bind_ok.1 hr
    obtain ⟨rfl, rfl⟩ := pure_ok.1 hr
    simp only [Expr.isPlain, Bool.and_eq_true] at he
    refine ⟨he.1.1.1, fun hx hlevel hc => ?_⟩
    obtain ⟨hlo, h1⟩ := ih.perhaps hc hlo he.1.1.2
    obtain ⟨hhi, h3⟩ := ih.perhaps ((Consumes.eat _).named h1 hslices) hhi he.1.2
    obtain ⟨hmax, h5⟩ := ih.perhaps ((Consumes.eat _).named h3 hfull) hmax he.2
    exact ⟨.slice hx hlevel hlo hhi hmax, rfl, h5⟩
  · cases lo with
    | none => exact absurd hr unexpected_not_ok
    | some i =>
      obtain ⟨rfl, rfl⟩ := pure_ok.1 hr
      simp only [Expr.isPlain, Bool.and_eq_true] at he
      refine ⟨he.1, fun hx hlevel hc => ?_⟩
      obtain ⟨hi, h1⟩ := ih.perhaps hc hlo he.2
      exact ⟨.index hx hlevel (hi i rfl), rfl, (Consumes.eat _).named h1 hslices⟩

end Step

theorem givesShape (fuel : Nat) : GivesShape fuel := by
  induction fuel with
  | zero =>
    constructor <;> intros <;> rename_i hr _
    · rw [Read.expr] at hr; exact absurd hr exhausted_not_ok
    · rw [Read.binary] at hr; exact absurd hr exhausted_not_ok
    · rw [Read.binaryRest] at hr; exact absurd hr exhausted_not_ok
    · rw [Read.unary] at hr; exact absurd hr exhausted_not_ok
    · rw [Read.primary] at hr; exact absurd hr exhausted_not_ok
    · rw [Read.primaryRest] at hr; exact absurd hr exhausted_not_ok
    · rw [Read.bracket] at hr; exact absurd hr exhausted_not_ok
    · rw [Read.arguments] at hr; exact absurd hr exhausted_not_ok
    · rw [Read.operand] at hr; exact absurd hr exhausted_not_ok
  | succ fuel ih =>
    exact {
      expr := fun _ _ _ => ih.expr_succ
      binary := fun _ _ _ _ => ih.binary_succ
      binaryRest := fun _ _ _ _ _ _ => ih.binaryRest_succ
      unary := fun _ _ _ => ih.unary_succ
      primary := fun _ _ _ => ih.primary_succ
      primaryRest := fun _ _ _ _ _ => ih.primaryRest_succ
      bracket := fun _ _ _ _ _ => ih.bracket_succ
      arguments := fun _ _ _ _ => ih.arguments_succ
      operand := fun _ _ _ => ih.operand_succ }

end Read

end FuncLift
