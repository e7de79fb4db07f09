import FuncLift.Proofs.Shaped

/-!
# Reading the tokens of a tree

Reading the tokens of a plain tree in the grammar's shape gives the tree back. The grammar reads
operations and operands in loops, so each statement tells how a reader goes on: after the tokens of
a tree its loop stands before what follows, with the tree as its operand so far.
-/
namespace FuncLift

/-- A reader takes the tokens in front of others, and what it returns is as described. -/
def Takes {α : Type} (before : List Token) (r : Read α) (after : List Token) (post : α → Prop) :
    Prop :=
  ∀ c : Cursor, c.ahead.map Placed.token = before → ∃ a c', r c = .ok (a, c') ∧
    c'.ahead <:+ c.ahead ∧ c'.ahead.map Placed.token = after ∧ post a

namespace Takes

variable {α β : Type} {ts us vs : List Token} {t : Token} {r : Read α} {f : α → Read β}
  {Q : α → Prop} {post : β → Prop}

theorem bind (h : Takes ts r us Q) (k : ∀ a, Q a → Takes us (f a) vs post) :
    Takes ts (r >>= f) vs post := by
  intro c hc
  obtain ⟨a, c1, hr, hsuffix, hc1, ha⟩ := h c hc
  obtain ⟨b, c2, hf, hsuffix', hc2, hb⟩ := k a ha c1 hc1
  exact ⟨b, c2, Read.bind_ok.2 ⟨a, c1, hr, hf⟩, hsuffix'.trans hsuffix, hc2, hb⟩

theorem still (h : ∀ c : Cursor, c.ahead.map Placed.token = ts →
    ∃ a c', r c = .ok (a, c') ∧ c'.ahead = c.ahead ∧ Q a) : Takes ts r ts Q := by
  intro c hc
  obtain ⟨a, c', hr, hahead, ha⟩ := h c hc
  exact ⟨a, c', hr, hahead ▸ List.suffix_refl _, hahead ▸ hc, ha⟩

theorem pure {b : β} (hb : post b) : Takes ts (Pure.pure b) ts post :=
  still fun c _ => ⟨b, c, rfl, rfl, hb⟩

theorem start {f : Nat → Read β} (k : ∀ s, Takes ts (f s) vs post) :
    Takes ts (Read.start >>= f) vs post :=
  bind (Q := fun _ => True) (still fun c _ => ⟨_, c, rfl, rfl, trivial⟩) fun s _ => k s

theorem peek {f : Option Token → Read β} (k : Takes ts (f ts.head?) vs post) :
    Takes ts (Read.peek >>= f) vs post := by
  refine bind (Q := (· = ts.head?)) (still fun c hc => ⟨_, c, rfl, rfl, ?_⟩) fun t ht => ht ▸ k
  rw [← hc, List.head?_map]

theorem take {f : Placed → Read β} (k : ∀ p, Takes ts (f p) vs post) :
    Takes (t :: ts) (Read.take >>= f) vs post := by
  refine bind (Q := fun _ => True) ?_ fun p _ => k p
  rintro ⟨_ | ⟨p, rest⟩, _, _, _, _⟩ hc
  · cases hc
  · exact ⟨_, _, rfl, List.suffix_cons _ _, List.tail_eq_of_cons_eq hc, trivial⟩

theorem tagAt {span : Span} {f : Tag → Read β} (k : ∀ t, Takes ts (f t) vs post) :
    Takes ts (Read.tagAt span >>= f) vs post :=
  bind (Q := fun _ => True) (still fun _ _ => ⟨_, _, rfl, rfl, trivial⟩) fun t _ => k t

theorem tagFrom {s : Nat} {f : Tag → Read β} (k : ∀ t, Takes ts (f t) vs post) :
    Takes ts (Read.tagFrom s >>= f) vs post :=
  bind (Q := fun _ => True) (still fun _ _ => ⟨_, _, rfl, rfl, trivial⟩) fun t _ => k t

theorem at_ {f : Bool → Read β} (t : Token) (k : Takes ts (f (ts.head? == some t)) vs post) :
    Takes ts (Read.at_ t >>= f) vs post := by
  refine bind (Q := (· = (ts.head? == some t))) (peek (pure rfl)) ?_
  rintro _ rfl
  exact k

theorem eat {f : Bool → Read β} (k : Takes ts (f true) vs post) :
    Takes (t :: ts) (Read.eat t >>= f) vs post := by
  refine bind (Q := (· = true)) (at_ t ?_) fun b hb => hb ▸ k
  simp only [List.head?_cons, beq_self_eq_true, if_true]
  exact take fun _ => pure rfl

theorem pass {f : Bool → Read β} (ht : ts.head? ≠ some t) (k : Takes ts (f false) vs post) :
    Takes ts (Read.eat t >>= f) vs post := by
  refine bind (Q := (· = false)) (at_ t ?_) fun b hb => hb ▸ k
  simp only [beq_eq_false_iff_ne.2 ht]
  exact pure rfl

theorem expect {f : Unit → Read β} (k : Takes ts (f ()) vs post) :
    Takes (t :: ts) (Read.expect t >>= f) vs post := by
  rw [Read.expect, bind_assoc]
  exact eat k

theorem name {s : String} {f : Name → Read β} (k : ∀ n : Name, n.text = s → Takes ts (f n) vs post) :
    Takes (.ident s :: ts) (Read.name >>= f) vs post :=
  bind (Q := (·.text = s)) (peek (take fun _ => tagAt fun _ => pure rfl)) fun n hn => k n hn

theorem withLiterals {allowed : Bool} (h : Takes ts r us Q) :
    Takes ts (Read.withLiterals allowed r) us Q := by
  intro c hc
  obtain ⟨a, c1, hr, hsuffix, hc1, ha⟩ := h { c with literals := allowed } hc
  refine ⟨a, { c1 with literals := c.literals }, ?_, hsuffix, hc1, ha⟩
  refine Read.bind_ok.2 ⟨c, c, rfl, Read.bind_ok.2 ⟨(), _, rfl, ?_⟩⟩
  exact Read.bind_ok.2 ⟨a, c1, hr, Read.bind_ok.2 ⟨(), _, rfl, rfl⟩⟩

end Takes

namespace Expr

/-- A token with which an expression can start. -/
def Opens (t : Token) : Prop := (∃ n, t = .ident n) ∨ t = .punct .lParen ∨ ∃ op : UnaryOp, t = .punct op.punct

theorem Opens.ne {t u : Token} (ht : Opens t) (hu : u = .punct .rParen ∨ u = .punct .rBrack ∨
    u = .punct .colon) : t ≠ u := by
  rcases ht with ⟨n, rfl⟩ | rfl | ⟨op, rfl⟩
  · rcases hu with rfl | rfl | rfl <;> exact nofun
  · rcases hu with rfl | rfl | rfl <;> decide
  · cases op <;> rcases hu with rfl | rfl | rfl <;> decide

theorem Shaped.opens {e : Expr} (h : e.Shaped) : ∃ t ts, e.tokens = t :: ts ∧ Opens t ∧
    (e.level = 7 → UnaryOp.ofToken? t = none) := by
  induction h with
  | @ident _ n hn => exact ⟨.ident n, [], by rw [tokens], .inl ⟨n, rfl⟩, fun _ => rfl⟩
  | @paren t e he ih =>
    obtain ⟨u, us, hu, hopens, hlevel⟩ := ih
    by_cases hparen : e.isParen = true
    · refine ⟨u, us, by rw [tokens, if_pos hparen, hu], hopens, fun _ => hlevel ?_⟩
      cases e <;> first | rfl | cases hparen
    · exact ⟨_, _, by rw [tokens, if_neg hparen], .inr (.inl rfl), fun _ => rfl⟩
  | selector _ hlevel _ ih | index _ hlevel _ ih | slice _ hlevel _ _ _ ih
  | call _ hlevel _ _ ih =>
    obtain ⟨u, us, hu, hopens, hunary⟩ := ih
    exact ⟨u, _, by rw [tokens, hu, List.cons_append], hopens, fun _ => hunary hlevel⟩
  | @unary t op e _ _ ih => exact ⟨_, _, by rw [tokens], .inr (.inr ⟨op, rfl⟩), fun h => by cases h⟩
  | @binary t l r op _ _ _ _ ihl _ =>
    obtain ⟨u, us, hu, hopens, _⟩ := ihl
    refine ⟨u, _, by rw [tokens, hu, List.cons_append], hopens, fun h => ?_⟩
    rw [level] at h
    cases op <;> cases h

/-- What follows an operand: nothing that goes on with it, and no operator that binds tighter than
given. -/
def Follows (n : Nat) (rest : List Token) : Prop := ∀ t ∈ rest.head?,
  (t ≠ .punct .dot ∧ t ≠ .punct .lBrack ∧ t ≠ .punct .lParen ∧ t ≠ .punct .lBrace) ∧
    ∀ op, BinaryOp.ofToken? t = some op → op.precedence ≤ n

theorem Follows.mono {m n : Nat} {rest : List Token} (h : Follows m rest) (hle : m ≤ n) :
    Follows n rest := fun t ht => ⟨(h t ht).1, fun op hop => Nat.le_trans ((h t ht).2 op hop) hle⟩

theorem Follows.of_closer {p : Punct} {rest : List Token}
    (hp : p ∈ [.rParen, .rBrack, .colon, .comma, .ellipsis, .semi]) :
    Follows 0 (.punct p :: rest) := by
  rintro _ ⟨⟩
  simp only [List.mem_cons, List.not_mem_nil, or_false] at hp
  rcases hp with rfl | rfl | rfl | rfl | rfl | rfl <;> exact ⟨by decide, nofun⟩

theorem ofToken_punct (op : BinaryOp) : BinaryOp.ofToken? (.punct op.punct) = some op := by
  cases op <;> rfl

theorem Follows.of_operator {op : BinaryOp} {n : Nat} {rest : List Token} (h : op.precedence ≤ n) :
    Follows n (.punct op.punct :: rest) := by
  rintro _ ⟨⟩
  refine ⟨by cases op <;> decide, fun op' hop' => ?_⟩
  rw [ofToken_punct] at hop'
  cases hop'
  exact h

theorem isParen_core : ∀ e : Expr, e.core.isParen = e.isParen
  | .paren _ e => by
    rw [core]
    split
    · rename_i h
      rw [isParen_core e, h]
      rfl
    · rfl
  | .ident .. | .selector .. | .index .. | .slice .. | .call .. | .unary .. | .binary ..
  | .lit .. | .funcLit .. | .composite .. | .assert .. | .type .. => by simp [core, isParen]

theorem core_paren {t u : Tag} {e x : Expr} (h : x.core = e.core) :
    (paren u x).core = (paren t e).core := by
  rw [core, core, ← isParen_core, ← isParen_core e, h]

/-- Reading the tokens of a tree: as an operand, as a unary operation, and as a chain of binary
ones. -/
structure Rereads (e : Expr) : Prop where
  primary : ∀ {fuel m : Nat} {rest after : List Token} {post : Expr → Prop}, e.level = 7 →
    m + 8 * e.tokens.length ≤ fuel →
    (∀ f s x, m ≤ f → x.core = e.core → Takes rest (Read.primaryRest f s x) after post) →
    Takes (e.tokens ++ rest) (Read.primary fuel) after post
  unary : ∀ {fuel : Nat} {rest : List Token}, 6 ≤ e.level → Follows 5 rest →
    8 * e.tokens.length + 2 ≤ fuel →
    Takes (e.tokens ++ rest) (Read.unary fuel) rest (·.core = e.core)
  binary : ∀ {fuel m least : Nat} {rest after : List Token} {post : Expr → Prop}, least ≤ e.level →
    Follows e.level rest → m + 8 * e.tokens.length + 3 ≤ fuel →
    (∀ f s x, m ≤ f → x.core = e.core → Takes rest (Read.binaryRest f least s x) after post) →
    Takes (e.tokens ++ rest) (Read.binary fuel least) after post

end Expr

namespace Takes

theorem primaryRest_stop {f s n : Nat} {x : Expr} {rest : List Token} {post : Expr → Prop}
    (hrest : Expr.Follows n rest) (hx : post x) :
    Takes rest (Read.primaryRest (f + 1) s x) rest post := by
  rw [Read.primaryRest]
  refine peek ?_
  split
  all_goals rename_i hhead
  · exact absurd rfl (hrest _ hhead).1.1
  · exact absurd rfl (hrest _ hhead).1.2.1
  · exact absurd rfl (hrest _ hhead).1.2.2.1
  · exact absurd rfl (hrest _ hhead).1.2.2.2
  · exact pure hx

theorem binaryRest_stop {f s n least : Nat} {x : Expr} {rest : List Token} {post : Expr → Prop}
    (hrest : Expr.Follows n rest) (hn : n < least) (hx : post x) :
    Takes rest (Read.binaryRest (f + 1) least s x) rest post := by
  rw [Read.binaryRest]
  refine peek ?_
  cases hop : rest.head?.bind BinaryOp.ofToken? with
  | none => exact pure hx
  | some op =>
    obtain ⟨t, ht, hop'⟩ := Option.bind_eq_some_iff.1 hop
    have := (hrest t ht).2 op hop'
    dsimp only
    rw [if_pos (by omega)]
    exact pure hx

end Takes

namespace Expr

section

variable {e : Expr}

theorem unary_of_primary (hshaped : e.Shaped) (hlevel : e.level = 7)
    (h : ∀ {fuel m : Nat} {rest after : List Token} {post : Expr → Prop},
      m + 8 * e.tokens.length ≤ fuel →
      (∀ f s x, m ≤ f → x.core = e.core → Takes rest (Read.primaryRest f s x) after post) →
      Takes (e.tokens ++ rest) (Read.primary fuel) after post)
    {fuel : Nat} {rest : List Token} (hrest : Follows 5 rest)
    (hfuel : 8 * e.tokens.length + 2 ≤ fuel) :
    Takes (e.tokens ++ rest) (Read.unary fuel) rest (·.core = e.core) := by
  obtain ⟨t, ts, htokens, _, hunary⟩ := hshaped.opens
  cases fuel with
  | zero => omega
  | succ fuel =>
    rw [Read.unary]
    refine .start fun s => .peek ?_
    have hhead : (e.tokens ++ rest).head?.bind UnaryOp.ofToken? = none := by
      rw [htokens, List.cons_append, List.head?_cons, Option.bind_some, hunary hlevel]
    simp only [hhead]
    refine h (m := 1) (by omega) fun f s x hf hx => ?_
    obtain ⟨f, rfl⟩ := Nat.exists_eq_add_of_le' hf
    exact .primaryRest_stop hrest hx

theorem binary_of_unary
    (h : ∀ {fuel : Nat} {rest : List Token}, Follows 5 rest → 8 * e.tokens.length + 2 ≤ fuel →
      Takes (e.tokens ++ rest) (Read.unary fuel) rest (·.core = e.core))
    {fuel m least : Nat} {rest after : List Token} {post : Expr → Prop} (hrest : Follows e.level rest)
    (hfuel : m + 8 * e.tokens.length + 3 ≤ fuel)
    (k : ∀ f s x, m ≤ f → x.core = e.core → Takes rest (Read.binaryRest f least s x) after post) :
    Takes (e.tokens ++ rest) (Read.binary fuel least) after post := by
  have hrest : Follows 5 rest := by
    refine fun t ht => ⟨(hrest t ht).1, fun op _ => ?_⟩
    cases op <;> decide
  cases fuel with
  | zero => omega
  | succ fuel =>
    rw [Read.binary]
    refine .start fun s => .bind (h hrest (by omega)) fun x hx => ?_
    exact k fuel s x (by omega) hx

theorem Rereads.of_primary (hshaped : e.Shaped) (hlevel : e.level = 7)
    (h : ∀ {fuel m : Nat} {rest after : List Token} {post : Expr → Prop},
      m + 8 * e.tokens.length ≤ fuel →
      (∀ f s x, m ≤ f → x.core = e.core → Takes rest (Read.primaryRest f s x) after post) →
      Takes (e.tokens ++ rest) (Read.primary fuel) after post) : Rereads e where
  primary _ := h
  unary _ := unary_of_primary hshaped hlevel h
  binary _ := binary_of_unary (unary_of_primary hshaped hlevel h)

theorem level_pos (e : Expr) : 0 < e.level := by
  cases e with
  | binary t l op r => cases op <;> exact Nat.succ_pos _
  | _ => exact Nat.succ_pos _

theorem Rereads.expr (h : Rereads e) {fuel : Nat} {rest : List Token}
    (hrest : Follows 0 rest) (hfuel : 8 * e.tokens.length + 5 ≤ fuel) :
    Takes (e.tokens ++ rest) (Read.expr fuel) rest (·.core = e.core) := by
  cases fuel with
  | zero => omega
  | succ fuel =>
    rw [Read.expr]
    refine h.binary (m := 1) e.level_pos (hrest.mono (Nat.zero_le _)) (by omega) fun f s x hf hx => ?_
    obtain ⟨f, rfl⟩ := Nat.exists_eq_add_of_le' hf
    exact .binaryRest_stop hrest (by omega) hx

theorem Rereads.of_operand {n : Nat} (hshaped : e.Shaped) (hlevel : e.level = 7)
    (hn : n < 8 * e.tokens.length)
    (h : ∀ {fuel : Nat} {rest : List Token}, n ≤ fuel →
      Takes (e.tokens ++ rest) (Read.operand fuel) rest (·.core = e.core)) : Rereads e := by
  refine .of_primary hshaped hlevel fun {fuel m rest after post} hfuel k => ?_
  cases fuel with
  | zero => omega
  | succ fuel =>
    rw [Read.primary]
    exact .start fun s => .bind (h (by omega)) fun x hx => k _ s x (by omega) hx

theorem Rereads.ident {t : Tag} {n : String} (hn : Token.IsName n) : Rereads (.ident t n) := by
  refine .of_operand (n := 1) (.ident hn) rfl (by simp [tokens]) fun {fuel rest} hfuel => ?_
  obtain ⟨fuel, rfl⟩ := Nat.exists_eq_add_of_le' hfuel
  rw [tokens, Read.operand]
  refine .start fun s => .peek ?_
  exact .take fun _ => .tagFrom fun u => .pure (by rw [core, core])

theorem Rereads.paren {t : Tag} (hshaped : e.Shaped) (h : Rereads e) : Rereads (.paren t e) := by
  by_cases hparen : e.isParen = true
  · have htokens : (Expr.paren t e).tokens = e.tokens := by rw [tokens, if_pos hparen]
    have hcore : (Expr.paren t e).core = e.core := by rw [core, if_pos hparen]
    have hlevel : (Expr.paren t e).level = e.level := by
      cases e <;> first | rfl | cases hparen
    constructor
    · rw [htokens, hcore, hlevel]
      exact h.primary
    · rw [htokens, hcore, hlevel]
      exact h.unary
    · rw [htokens, hcore, hlevel]
      exact h.binary
  · have htokens : (Expr.paren t e).tokens = .punct .lParen :: (e.tokens ++ [Token.punct .rParen]) := by
      rw [tokens, if_neg hparen]
    refine .of_operand (n := 8 * e.tokens.length + 6) (.paren hshaped) rfl ?_ fun hfuel => ?_
    · simp only [htokens, List.length_cons, List.length_append, List.length_nil]
      omega
    · rename_i fuel rest
      obtain ⟨fuel, rfl⟩ : ∃ f, fuel = f + 1 := ⟨fuel - 1, by omega⟩
      rw [htokens, Read.operand, List.cons_append, List.append_assoc]
      refine .start fun s => .peek (.take fun _ => ?_)
      refine .bind (.withLiterals (h.expr (.of_closer (by decide)) (by omega))) fun x hx => ?_
      exact .expect (.tagFrom fun u => .pure (core_paren hx))

/-- An operand that is gone on with: one step of the loop reads what is behind it. -/
theorem Rereads.of_step {x : Expr} {n : Nat} {more : List Token} (hshaped : e.Shaped)
    (hlevel : e.level = 7) (hx : Rereads x) (hxlevel : x.level = 7)
    (htokens : e.tokens = x.tokens ++ more) (hn : n < 8 * more.length)
    (h : ∀ {fuel s : Nat} {y : Expr} {rest after : List Token} {post : Expr → Prop}, n ≤ fuel →
      y.core = x.core →
      (∀ z, z.core = e.core → Takes rest (Read.primaryRest fuel s z) after post) →
      Takes (more ++ rest) (Read.primaryRest (fuel + 1) s y) after post) : Rereads e := by
  refine .of_primary hshaped hlevel fun {fuel m rest after post} hfuel k => ?_
  rw [htokens, List.length_append] at hfuel
  rw [htokens, List.append_assoc]
  refine hx.primary (m := m + n + 1) hxlevel (by omega) fun f s y hf hy => ?_
  obtain ⟨f, rfl⟩ : ∃ g, f = g + 1 := ⟨f - 1, by omega⟩
  exact h (by omega) hy fun z hz => k f s z (by omega) hz

theorem Rereads.selector {t : Tag} {sel : Name} (hshaped : e.Shaped) (hlevel : e.level = 7)
    (hsel : Token.IsName sel.text) (h : Rereads e) : Rereads (.selector t e sel) := by
  refine .of_step (n := 0) (.selector hshaped hlevel hsel) rfl h hlevel (by rw [tokens]) (by simp)
    fun {fuel s y rest after post} _ hy k => ?_
  rw [Read.primaryRest]
  refine .peek (.take fun _ => .pass (by rintro ⟨⟩) ?_)
  exact .name fun n hn => .tagFrom fun u => k _ (by rw [core, core, hy, hn])

/-- A bound of a slice is wanted unless a colon or the bracket stands in its place. -/
theorem head_tokensOption {o : Option Expr} (ho : ∀ x ∈ o, x.Shaped) {u v : Token} (rest : List Token)
    (hu : u = .punct .rBrack ∨ u = .punct .colon) :
    ((tokensOption o ++ v :: rest).head? == some u) = (o.isNone && v == u) := by
  cases o with
  | none => simp [tokensOption]
  | some x =>
    obtain ⟨t, ts, htokens, hopens, _⟩ := (ho x rfl).opens
    simp [tokensOption, htokens, hopens.ne (.inr hu)]

theorem takes_perhaps {β : Type} {o : Option Expr} {wanted : Bool} {fuel : Nat}
    {f : Option Expr → Read β} {rest after : List Token} {post : β → Prop} (hwanted : wanted = o.isSome)
    (ho : ∀ x ∈ o, Rereads x) (hrest : Follows 0 rest) (hfuel : 8 * (tokensOption o).length + 5 ≤ fuel)
    (k : ∀ y, coreOption y = coreOption o → Takes rest (f y) after post) :
    Takes (tokensOption o ++ rest) (Read.perhaps wanted (Read.expr fuel) >>= f) after post := by
  rw [Read.perhaps_bind, hwanted]
  cases o with
  | none => exact k none rfl
  | some x =>
    rw [tokensOption] at hfuel ⊢
    refine .bind ((ho x rfl).expr hrest hfuel) fun y hy => k (some y) ?_
    rw [coreOption, coreOption, hy]

theorem takes_bracket {y x : Expr} {fuel : Nat} {rest : List Token} {lo hi max : Option Expr} {t : Tag}
    (hy : y.core = x.core) (hlo : ∀ e ∈ lo, e.Shaped ∧ Rereads e) (hhi : ∀ e ∈ hi, e.Shaped ∧ Rereads e)
    (hmax : ∀ e ∈ max, Rereads e) (hfuel : 8 * (tokensOption lo).length + 8 * (tokensOption hi).length +
      8 * (tokensOption max).length + 6 ≤ fuel) :
    Takes (tokensOption lo ++ .punct .colon :: (tokensOption hi ++
      ((if max.isSome then .punct .colon :: tokensOption max else []) ++ .punct .rBrack :: rest)))
      (Read.bracket fuel y) (.punct .rBrack :: rest)
      fun build => ∀ u, (build u).core = (Expr.slice t x lo hi max).core := by
  obtain ⟨fuel, rfl⟩ : ∃ f, fuel = f + 1 := ⟨fuel - 1, by omega⟩
  rw [Read.bracket_eq, Read.bracketBy]
  refine .at_ _ (takes_perhaps ?_ (fun e he => (hlo e he).2) (.of_closer (by decide)) (by omega)
    fun lo' hlo' => .eat (.peek ?_))
  · rw [head_tokensOption (fun e he => (hlo e he).1) _ (.inr rfl)]
    cases lo <;> rfl
  · have hwanted {v : Token} {us : List Token} (hv : v = .punct .rBrack ∨ v = .punct .colon) :
        (!((tokensOption hi ++ v :: us).head? == some (.punct .colon) ||
          (tokensOption hi ++ v :: us).head? == some (.punct .rBrack))) = hi.isSome := by
      rw [head_tokensOption (fun e he => (hhi e he).1) _ (.inl rfl),
        head_tokensOption (fun e he => (hhi e he).1) _ (.inr rfl)]
      cases hi <;> rcases hv with rfl | rfl <;> rfl
    cases max with
    | none =>
      refine takes_perhaps (hwanted (.inl rfl)) (fun e he => (hhi e he).2) (.of_closer (by decide))
        (by omega) fun hi' hhi' => .pass (by rintro ⟨⟩) (.pure fun u => ?_)
      rw [core, core, hy, hlo', hhi']
    | some m =>
      refine takes_perhaps (hwanted (.inr rfl)) (fun e he => (hhi e he).2) (.of_closer (by decide))
        (by omega) fun hi' hhi' => .eat (takes_perhaps (o := some m) rfl hmax
          (.of_closer (by decide)) (by omega) fun max' hmax' => .pure fun u => ?_)
      rw [core, core, hy, hlo', hhi', hmax']

theorem Rereads.of_bracket {x : Expr} {n : Nat} {inner : List Token} (hshaped : e.Shaped)
    (hlevel : e.level = 7) (hx : Rereads x) (hxlevel : x.level = 7)
    (htokens : e.tokens = x.tokens ++ Token.punct .lBrack :: (inner ++ [Token.punct .rBrack]))
    (hn : n < 8 * (inner.length + 2))
    (h : ∀ {fuel : Nat} {y : Expr} {rest : List Token}, n ≤ fuel → y.core = x.core →
      Takes (inner ++ .punct .rBrack :: rest) (Read.bracket fuel y) (.punct .rBrack :: rest)
        fun build => ∀ u, (build u).core = e.core) : Rereads e := by
  refine .of_step hshaped hlevel hx hxlevel htokens (n := n) (by simp; omega)
    fun {fuel s y rest after post} hfuel hy k => ?_
  rw [Read.primaryRest, List.cons_append, List.append_assoc]
  exact .peek (.take fun _ => .bind (.withLiterals (h hfuel hy)) fun build hbuild =>
    .expect (.tagFrom fun u => k _ (hbuild u)))

theorem Rereads.slice {t : Tag} {lo hi max : Option Expr} (hshaped : (Expr.slice t e lo hi max).Shaped)
    (hlevel : e.level = 7) (hlo : ∀ x ∈ lo, x.Shaped ∧ Rereads x)
    (hhi : ∀ x ∈ hi, x.Shaped ∧ Rereads x) (hmax : ∀ x ∈ max, Rereads x) (h : Rereads e) :
    Rereads (.slice t e lo hi max) := by
  have htokens : (Expr.slice t e lo hi max).tokens = e.tokens ++ Token.punct .lBrack ::
      ((tokensOption lo ++ Token.punct .colon :: (tokensOption hi ++
        if max.isSome then .punct .colon :: tokensOption max else [])) ++ [Token.punct .rBrack]) := by
    simp [tokens]
  refine .of_bracket (n := 8 * (tokensOption lo).length + 8 * (tokensOption hi).length +
    8 * (tokensOption max).length + 6) hshaped rfl h hlevel htokens ?_ fun hfuel hy => ?_
  · cases max <;> simp [tokensOption] <;> omega
  · simpa using takes_bracket hy hlo hhi hmax hfuel

theorem Rereads.index {t : Tag} {i : Expr} (hshaped : (Expr.index t e i).Shaped)
    (hlevel : e.level = 7) (hi : i.Shaped) (h : Rereads e) (hri : Rereads i) :
    Rereads (.index t e i) := by
  refine .of_bracket (n := 8 * i.tokens.length + 6) hshaped rfl h hlevel (by rw [tokens]) (by omega)
    fun {fuel y rest} hfuel hy => ?_
  obtain ⟨fuel, rfl⟩ : ∃ f, fuel = f + 1 := ⟨fuel - 1, by omega⟩
  have hwanted := head_tokensOption (o := some i) (by simpa using hi) (v := .punct .rBrack) rest
    (.inr rfl)
  rw [Read.bracket_eq, Read.bracketBy]
  rw [tokensOption] at hwanted
  refine .at_ _ (takes_perhaps (o := some i) (by rw [hwanted]; rfl) (by simpa using hri)
    (.of_closer (by decide)) (by rw [tokensOption]; omega) fun lo hlo => .pass (by rintro ⟨⟩) ?_)
  cases lo with
  | none => cases hlo
  | some j =>
    refine .pure fun u => ?_
    rw [coreOption, coreOption] at hlo
    rw [core, core, hy, Option.some.inj hlo]

theorem takes_arguments {args : List Expr} (hargs : ∀ x ∈ args, x.Shaped ∧ Rereads x) {spread : Bool}
    (hspread : spread = true → args ≠ []) {fuel : Nat} {rest : List Token}
    (hfuel : 8 * (tokensList args).length + 6 ≤ fuel) :
    Takes (tokensList args ++ ((if spread then [Token.punct .ellipsis] else []) ++ .punct .rParen :: rest))
      (Read.arguments fuel) (.punct .rParen :: rest)
      fun r => coreList r.1 = coreList args ∧ r.2 = spread := by
  induction args generalizing fuel with
  | nil =>
    have hspread : spread = false := by simpa using hspread
    subst hspread
    obtain ⟨fuel, rfl⟩ : ∃ f, fuel = f + 1 := ⟨fuel - 1, by omega⟩
    rw [Read.arguments]
    exact .at_ _ (.pure ⟨rfl, rfl⟩)
  | cons e es ih =>
    obtain ⟨⟨hshaped, he⟩, hes⟩ := List.forall_mem_cons.1 hargs
    obtain ⟨t, ts, htokens, hopens, _⟩ := hshaped.opens
    obtain ⟨fuel, rfl⟩ : ∃ f, fuel = f + 1 := ⟨fuel - 1, by omega⟩
    rw [tokensList, List.length_append] at hfuel
    rw [Read.arguments, tokensList, List.append_assoc]
    have hdone {us : List Token} : ((e.tokens ++ us).head? == some (.punct .rParen)) = false := by
      simp [htokens, hopens.ne (.inl rfl)]
    refine .at_ _ ?_
    rw [hdone, if_neg Bool.false_ne_true]
    cases es with
    | nil =>
      cases spread with
      | true =>
        refine .bind (he.expr (.of_closer (by decide)) (by omega)) fun x hx => .eat (.pass (by rintro ⟨⟩) ?_)
        exact .pure ⟨by simp [coreList, hx], rfl⟩
      | false =>
        refine .bind (he.expr (.of_closer (by decide)) (by omega)) fun x hx =>
          .pass (by rintro ⟨⟩) (.pass (by rintro ⟨⟩) ?_)
        exact .pure ⟨by simp [coreList, hx], rfl⟩
    | cons e' es =>
      simp only [List.isEmpty_cons, Bool.false_eq_true, if_false, List.length_cons] at hfuel
      refine .bind (he.expr (.of_closer (by decide)) (by omega)) fun x hx =>
        .pass (by rintro ⟨⟩) (.eat (.bind (ih hes (by simp) (by omega)) ?_))
      rintro ⟨xs, more⟩ ⟨hxs, hmore⟩
      exact .pure ⟨by rw [coreList, coreList, hx, hxs], by simpa using hmore⟩

theorem Rereads.call {t : Tag} {args : List Expr} {spread : Bool}
    (hshaped : (Expr.call t e args spread).Shaped) (hlevel : e.level = 7)
    (hargs : ∀ x ∈ args, x.Shaped ∧ Rereads x) (hspread : spread = true → args ≠ [])
    (h : Rereads e) : Rereads (.call t e args spread) := by
  refine .of_step (n := 8 * (tokensList args).length + 6) hshaped rfl h hlevel (by rw [tokens])
    (by simp; omega) fun {fuel s y rest after post} hfuel hy k => ?_
  rw [Read.primaryRest, List.cons_append, List.append_assoc, List.append_assoc]
  refine .peek (.take fun _ => .bind (.withLiterals (takes_arguments hargs hspread hfuel)) ?_)
  rintro ⟨xs, dots⟩ ⟨hxs, rfl⟩
  exact .expect (.tagFrom fun u => k _ (by rw [core, core, hy, hxs]))

theorem Rereads.of_unary {t : Tag} {op : UnaryOp} (h : Rereads e) (hlevel : 6 ≤ e.level) :
    Rereads (.unary t op e) := by
  have hunary {fuel : Nat} {rest : List Token} (hrest : Follows 5 rest)
      (hfuel : 8 * (Expr.unary t op e).tokens.length + 2 ≤ fuel) :
      Takes ((Expr.unary t op e).tokens ++ rest) (Read.unary fuel) rest
        (·.core = (Expr.unary t op e).core) := by
    obtain ⟨fuel, rfl⟩ : ∃ f, fuel = f + 1 := ⟨fuel - 1, by omega⟩
    rw [tokens, List.length_cons] at hfuel
    rw [tokens, Read.unary]
    refine .start fun s => .peek ?_
    have hop : UnaryOp.ofToken? (.punct op.punct) = some op := by cases op <;> rfl
    simp only [List.cons_append, List.head?_cons, Option.bind_some, hop]
    refine .take fun _ => .bind (h.unary hlevel hrest (by omega)) fun x hx => ?_
    exact .tagFrom fun u => .pure (by rw [core, core, hx])
  exact ⟨fun h => by rw [level] at h; omega, fun _ => hunary, fun _ => binary_of_unary hunary⟩

theorem Rereads.of_binary {t : Tag} {l r : Expr} {op : BinaryOp} (hl : Rereads l) (hr : Rereads r)
    (hleft : op.precedence ≤ l.level) (hright : op.precedence < r.level) :
    Rereads (.binary t l op r) := by
  have hop : op.precedence ≤ 5 := by cases op <;> decide
  refine ⟨fun h => ?_, fun h => ?_, fun {fuel m least rest after post} hleast hrest hfuel k => ?_⟩
  · rw [level] at h
    omega
  · rw [level] at h
    omega
  · rw [tokens, List.length_append, List.length_cons] at hfuel
    rw [tokens, List.append_assoc, List.cons_append]
    rw [level] at hleast hrest
    refine hl.binary (m := m + 8 * r.tokens.length + 5) (by omega) (.of_operator hleft) (by omega)
      fun f s x hf hx => ?_
    obtain ⟨f, rfl⟩ : ∃ g, f = g + 1 := ⟨f - 1, by omega⟩
    rw [Read.binaryRest]
    refine .peek ?_
    simp only [List.head?_cons, Option.bind_some, ofToken_punct]
    rw [if_neg (by omega)]
    refine .take fun _ => .bind (Q := (·.core = r.core)) ?_ fun y hy => .tagFrom fun u =>
      k f s _ (by omega) (by rw [core, core, hx, hy])
    refine hr.binary (m := 1) (by omega) (hrest.mono (by omega)) (by omega) fun g s y hg hy => ?_
    obtain ⟨g, rfl⟩ := Nat.exists_eq_add_of_le' hg
    exact .binaryRest_stop hrest (by omega) hy

end

theorem Shaped.rereads {e : Expr} (h : e.Shaped) : Rereads e := by
  induction h with
  | ident hn => exact .ident hn
  | paren he ih => exact .paren he ih
  | selector he hlevel hsel ih => exact .selector he hlevel hsel ih
  | index he hlevel hi ihe ihi => exact .index (.index he hlevel hi) hlevel hi ihe ihi
  | slice he hlevel hlo hhi hmax ihe ihlo ihhi ihmax =>
    exact .slice (.slice he hlevel hlo hhi hmax) hlevel (fun x hx => ⟨hlo x hx, ihlo x hx⟩)
      (fun x hx => ⟨hhi x hx, ihhi x hx⟩) ihmax ihe
  | call he hlevel hargs hspread ihe ihargs =>
    exact .call (.call he hlevel hargs hspread) hlevel (fun x hx => ⟨hargs x hx, ihargs x hx⟩)
      hspread ihe
  | unary _ hlevel ih => exact .of_unary ih hlevel
  | binary _ _ hleft hright ihl ihr => exact .of_binary ihl ihr hleft hright

end Expr

end FuncLift
