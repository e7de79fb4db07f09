import FuncLift.Proofs.Straight
import FuncLift.Proofs.Stable

/-!
# Straight functions are read again

From the tokens of plain statements a body is read, and with the signature in front of it a function. So
the text that is printed for a file of straight functions and bare declarations is read again, and what
is read has the same declarations up to their insides.
-/
namespace FuncLift

namespace Token

/-- The sign behind a label or between the names of a definition. -/
def JoinsNames (t : Token) : Prop := t = .punct .comma ∨ t = .punct .colon ∨ t = .punct .define

theorem joinsNames_of_opens {t : Token} (h : Expr.Opens t) : ¬t.JoinsNames := by
  rintro (rfl | rfl | rfl)
  all_goals
    rcases h with ⟨n, ⟨⟩⟩ | ⟨⟨⟩⟩ | ⟨op, hop⟩
    cases op <;> cases hop

end Token

namespace Expr

/-- Behind the first token of a plain expression no sign stands that joins names, unless it stands
behind the expression. -/
theorem Shaped.second {e : Expr} (h : e.Shaped) {rest : List Token}
    (hrest : ∀ t ∈ rest.head?, ¬t.JoinsNames) : ∀ t ∈ (e.tokens ++ rest)[1]?, ¬t.JoinsNames := by
  have hfirst {e : Expr} (h : e.Shaped) (us : List Token) :
      ∀ t ∈ (e.tokens ++ us).head?, ¬t.JoinsNames := by
    obtain ⟨u, ts, htokens, hopens, -⟩ := h.opens
    rw [htokens]
    rintro t ⟨⟩
    exact Token.joinsNames_of_opens hopens
  have hsign {p : Punct} (hp : p ∉ [.comma, .colon, .define]) (us : List Token) :
      ∀ t ∈ (Token.punct p :: us).head?, ¬t.JoinsNames := by
    rintro t ⟨⟩ (h | h | h)
    all_goals
      cases h
      exact hp (by decide)
  induction h generalizing rest with
  | ident hn =>
    rw [tokens]
    exact fun t ht => hrest t (by rwa [List.head?_eq_getElem?])
  | @paren t e he ih =>
    rw [tokens]
    split
    · exact ih hrest
    · intro u hu
      refine hfirst he ([.punct .rParen] ++ rest) u ?_
      rw [List.head?_eq_getElem?]
      simpa using hu
  | selector _ _ _ ih | index _ _ _ ih | slice _ _ _ _ _ ih | call _ _ _ _ ih =>
    rw [tokens, List.append_assoc]
    exact ih (hsign (by decide) _)
  | @unary t op e he _ _ =>
    intro u hu
    refine hfirst he rest u ?_
    rw [List.head?_eq_getElem?]
    simpa [tokens] using hu
  | @binary t l r op _ _ _ _ ihl _ =>
    rw [tokens, List.append_assoc]
    exact ihl (hsign (by cases op <;> decide) _)

end Expr

namespace Read

theorem definesAhead_names {ns : List String} (hns : ns ≠ []) {ps : List Placed} {rest : List Token}
    (hps : ps.map Placed.token = nameTokens ns ++ .punct .define :: rest) : definesAhead ps = true := by
  fun_induction nameTokens ns generalizing ps with
  | case1 => exact absurd rfl hns
  | case2 n =>
    obtain ⟨p, qs, rfl, hp, hqs⟩ := List.map_eq_cons_iff.1 hps
    obtain ⟨q, qs, rfl, hq, -⟩ := List.map_eq_cons_iff.1 hqs
    obtain ⟨_, _⟩ := p
    obtain ⟨_, _⟩ := q
    cases hp
    cases hq
    rfl
  | case3 n m ns ih =>
    obtain ⟨p, qs, rfl, hp, hqs⟩ := List.map_eq_cons_iff.1 hps
    obtain ⟨q, qs, rfl, hq, hrest⟩ := List.map_eq_cons_iff.1 hqs
    obtain ⟨_, _⟩ := p
    obtain ⟨_, _⟩ := q
    cases hp
    cases hq
    have hmore : definesAhead qs = true := ih (List.cons_ne_nil m ns) hrest
    exact hmore

theorem definesAhead_other {ps : List Placed} {ts : List Token} (hps : ps.map Placed.token = ts)
    (hsecond : ∀ t ∈ ts[1]?, ¬t.JoinsNames) : definesAhead ps = false := by
  subst hps
  unfold definesAhead
  split
  · exact absurd (.inr (.inr rfl)) (hsecond _ rfl)
  · exact absurd (.inl rfl) (hsecond _ rfl)
  · rfl

end Read

namespace Takes

variable {β : Type} {ts us vs : List Token} {post : β → Prop}

theorem get {f : Cursor → Read β}
    (k : ∀ c : Cursor, c.ahead.map Placed.token = ts → Takes ts (f c) vs post) :
    Takes ts (MonadState.get >>= f) vs post := fun c hc => k c hc c hc

theorem exprs {es : List Expr} (hne : es ≠ []) (hes : ∀ e ∈ es, e.Shaped) {fuel : Nat} {rest : List Token}
    (hrest : Expr.Follows 0 rest) (hcomma : rest.head? ≠ some (.punct .comma))
    (hfuel : 8 * (Expr.tokensList es).length + 6 ≤ fuel) :
    Takes (Expr.tokensList es ++ rest) (Read.exprs fuel) rest fun xs => xs.map Expr.core = es.map Expr.core := by
  induction es generalizing fuel with
  | nil => exact absurd rfl hne
  | cons e es ih =>
    obtain ⟨he, hes⟩ := List.forall_mem_cons.1 hes
    obtain ⟨fuel, rfl⟩ : ∃ f, fuel = f + 1 := ⟨fuel - 1, by omega⟩
    rw [Read.exprs]
    cases es with
    | nil =>
      simp only [Expr.tokensList, List.isEmpty_nil, if_true, List.append_nil] at hfuel ⊢
      apply Takes.bind (he.rereads.expr hrest (by omega))
      intro x hx
      exact .pass hcomma (.pure (by simp [hx]))
    | cons e' es =>
      simp only [Expr.tokensList, List.isEmpty_cons, Bool.false_eq_true, if_false, List.length_append,
        List.length_cons] at hfuel
      rw [Expr.tokensList, List.isEmpty_cons, if_neg Bool.false_ne_true, List.append_assoc,
        List.cons_append]
      apply Takes.bind (he.rereads.expr (.of_closer (by decide)) (by omega))
      intro x hx
      apply Takes.eat
      apply Takes.bind (ih (List.cons_ne_nil e' es) hes ?_)
      · intro xs hxs
        exact .pure (by simp [hx, hxs])
      · rw [Expr.tokensList, List.length_append]
        omega

end Takes

namespace Stmt

variable {lines : LineTable} {vs : List Token} {fuel : Nat}

/-- A statement that starts as an expression does, and with no label, is a simple one. -/
theorem takes_simple {t : Token} {us : List Token} (ht : Expr.Opens t)
    (hlabel : us.head? ≠ some (.punct .colon)) (h : Takes (t :: us) (Read.simple fuel) vs fun _ => True) :
    Takes (t :: us) (Read.stmt (fuel + 1)) vs fun _ => True := by
  have hlast (s : Nat) : Takes (t :: us) (do
      let inner ← Read.simple fuel
      return Stmt.simple (← Read.tagFrom s) inner) vs fun _ => True := by
    apply Takes.bind h
    intro x _
    exact .tagFrom fun _ => .pure trivial
  rw [Read.stmt]
  apply Takes.start
  intro s
  apply Takes.peek
  rcases ht with ⟨n, rfl⟩ | rfl | ⟨op, rfl⟩
  · have hbranch : (some (Token.ident n)).bind BranchKind.ofToken? = none := rfl
    dsimp only [List.head?_cons]
    rw [hbranch]
    apply Takes.peekSecond
    split
    · rename_i hsecond
      rw [List.getElem?_cons_succ, ← List.head?_eq_getElem?] at hsecond
      exact absurd hsecond hlabel
    · exact hlast s
  · exact .peekSecond (hlast s)
  · cases op
    all_goals exact .peekSecond (hlast s)

theorem takes_expr {e : Expr} (he : e.Shaped) (hfuel : 8 * e.tokens.length + 8 ≤ fuel)
    (rest : List Token) : Takes (e.tokens ++ .punct .semi :: rest) (Read.stmt fuel)
      (.punct .semi :: rest) fun _ => True := by
  obtain ⟨fuel, rfl⟩ : ∃ f, fuel = f + 1 + 1 := ⟨fuel - 2, by omega⟩
  have hsecond : ∀ t ∈ (e.tokens ++ .punct .semi :: rest)[1]?, ¬t.JoinsNames := by
    apply he.second
    rintro t ⟨⟩ (h | h | h) <;> cases h
  obtain ⟨t, us, htokens, hopens, -⟩ := he.opens
  have hlabel : (us ++ .punct .semi :: rest).head? ≠ some (.punct .colon) := by
    intro hcolon
    refine hsecond (.punct .colon) ?_ (.inr (.inl rfl))
    rw [htokens, List.cons_append, List.getElem?_cons_succ, ← List.head?_eq_getElem?, hcolon]
    rfl
  have hvalues : Takes (e.tokens ++ .punct .semi :: rest) (Read.exprs fuel) (.punct .semi :: rest)
      fun xs => xs.map Expr.core = [e].map Expr.core := by
    have hall := @Takes.exprs [e] (List.cons_ne_nil e []) (List.forall_mem_singleton.2 he) fuel
      (.punct .semi :: rest) (.of_closer (by decide)) (by rintro ⟨⟩)
    rw [Expr.tokensList, List.isEmpty_nil, if_pos rfl, List.append_nil] at hall
    exact hall (by omega)
  have hsimple : Takes (e.tokens ++ .punct .semi :: rest) (Read.simple (fuel + 1))
      (.punct .semi :: rest) fun _ => True := by
    rw [Read.simple]
    apply Takes.start
    intro s
    apply Takes.get
    intro c hc
    rw [Read.definesAhead_other hc hsecond, if_neg Bool.false_ne_true]
    apply Takes.bind hvalues
    intro xs hxs
    obtain ⟨x, rfl⟩ : ∃ x, xs = [x] := List.length_eq_one_iff.1 (by simpa using congrArg List.length hxs)
    apply Takes.peek
    change Takes _ (do
      let e ← Read.single s [x]
      return Simple.expr (← Read.tagFrom s) e) _ _
    rw [Read.single, pure_bind]
    exact .tagFrom fun _ => .pure trivial
  rw [htokens] at hsimple ⊢
  exact takes_simple hopens hlabel hsimple

theorem takes_define {ns : List String} (hns : ns ≠ []) {es : List Expr} (hne : es ≠ [])
    (hes : ∀ e ∈ es, e.Shaped)
    (hfuel : 8 * (nameTokens ns ++ .punct .define :: Expr.tokensList es).length + 8 ≤ fuel)
    (rest : List Token) : Takes (nameTokens ns ++ .punct .define ::
      (Expr.tokensList es ++ .punct .semi :: rest)) (Read.stmt fuel) (.punct .semi :: rest)
      fun _ => True := by
  obtain ⟨fuel, rfl⟩ : ∃ f, fuel = f + 1 + 1 := ⟨fuel - 2, by omega⟩
  have hlength := Takes.length_le_nameTokens ns
  simp only [List.length_append, List.length_cons] at hfuel
  have hsimple : Takes (nameTokens ns ++ .punct .define :: (Expr.tokensList es ++ .punct .semi :: rest))
      (Read.simple (fuel + 1)) (.punct .semi :: rest) fun _ => True := by
    rw [Read.simple]
    apply Takes.start
    intro s
    apply Takes.get
    intro c hc
    rw [Read.definesAhead_names hns hc, if_pos rfl]
    apply Takes.bind (Takes.names hns (by omega) (by rintro ⟨⟩))
    intro xs _
    apply Takes.expect
    apply Takes.bind (Takes.exprs hne hes (.of_closer (by decide)) (by rintro ⟨⟩) (by omega))
    intro ys _
    exact .tagFrom fun _ => .pure trivial
  obtain ⟨n, ms, rfl⟩ := List.exists_cons_of_ne_nil hns
  cases ms with
  | nil => exact takes_simple (.inl ⟨n, rfl⟩) (by rintro ⟨⟩) hsimple
  | cons m ms => exact takes_simple (.inl ⟨n, rfl⟩) (by rintro ⟨⟩) hsimple

theorem takes_ret {es : List Expr} (hes : ∀ e ∈ es, e.Shaped)
    (hfuel : 8 * (Expr.tokensList es).length + 8 ≤ fuel) (rest : List Token) :
    Takes (.keyword .returnKw :: (Expr.tokensList es ++ .punct .semi :: rest)) (Read.stmt fuel)
      (.punct .semi :: rest) fun _ => True := by
  obtain ⟨fuel, rfl⟩ : ∃ f, fuel = f + 1 := ⟨fuel - 1, by omega⟩
  rw [Read.stmt]
  apply Takes.start
  intro s
  apply Takes.peek
  apply Takes.take
  intro p
  apply Takes.peek
  by_cases hnil : es = []
  · subst hnil
    change Takes _ (do
      let es ← pure []
      return Stmt.ret (← Read.tagFrom s) es) _ _
    rw [pure_bind]
    exact .tagFrom fun _ => .pure trivial
  · have hsemi : Expr.Follows 0 (.punct .semi :: rest) := .of_closer (by decide)
    have hvalues := Takes.exprs hnil hes hsemi (by rintro ⟨⟩) (by omega : _ ≤ fuel)
    obtain ⟨e, es, rfl⟩ := List.exists_cons_of_ne_nil hnil
    obtain ⟨u, us, htokens, hopens, -⟩ := (hes e List.mem_cons_self).opens
    have hhead : (Expr.tokensList (e :: es) ++ .punct .semi :: rest).head? = some u := by
      rw [Expr.tokensList, htokens]
      rfl
    rw [hhead]
    -- the first token of an expression ends no statement, so values are read
    rcases hopens with ⟨n, rfl⟩ | rfl | ⟨op, rfl⟩
    case' inr.inr => cases op
    all_goals
      apply Takes.bind hvalues
      intro xs _
      exact .tagFrom fun _ => .pure trivial

theorem Formed.takes {s : Stmt} {ts : List Token} (h : Formed lines s ts)
    (hfuel : 8 * ts.length + 8 ≤ fuel) (rest : List Token) :
    Takes (ts ++ .punct .semi :: rest) (Read.stmt fuel) (.punct .semi :: rest) fun _ => True := by
  cases h with
  | expr he => exact takes_expr he hfuel rest
  | @define t u ns vs line hns _ hvs hshaped =>
    have hnames : ns.map Name.text ≠ [] := by simpa using hns
    rw [List.append_assoc]
    exact takes_define hnames hvs hshaped hfuel rest
  | ret hshaped =>
    rw [List.length_cons] at hfuel
    exact takes_ret hshaped (by omega) rest

theorem Formed.opens {s : Stmt} {ts : List Token} (h : Formed lines s ts) :
    ∃ t us, ts = t :: us ∧ (Expr.Opens t ∨ t = .keyword .returnKw) := by
  cases h with
  | expr he =>
    obtain ⟨t, us, htokens, hopens, -⟩ := he.opens
    exact ⟨t, us, htokens, .inl hopens⟩
  | @define t u ns vs line hns =>
    obtain ⟨n, ns, rfl⟩ := List.exists_cons_of_ne_nil hns
    cases ns with
    | nil => exact ⟨_, _, rfl, .inl (.inl ⟨n.text, rfl⟩)⟩
    | cons m ns => exact ⟨_, _, rfl, .inl (.inl ⟨n.text, rfl⟩)⟩
  | ret => exact ⟨_, _, rfl, .inr rfl⟩

/-- The statements of a body are read up to the brace that closes it. -/
theorem takes_stmts {ss : List Stmt} {rows : List (List Token)} {rest : List Token}
    (h : List.Forall₂ (Formed lines) ss rows) (hfuel : 8 * (Token.body false rows).length + 1 ≤ fuel) :
    Takes (Token.body false rows ++ .punct .rBrace :: rest) (Read.stmts fuel) (.punct .rBrace :: rest)
      fun xs => xs.length = ss.length := by
  induction h generalizing fuel with
  | nil =>
    obtain ⟨fuel, rfl⟩ : ∃ f, fuel = f + 1 := ⟨fuel - 1, by omega⟩
    rw [Read.stmts]
    exact .peek (.pure rfl)
  | @cons s ts ss rows hs _ ih =>
    obtain ⟨fuel, rfl⟩ : ∃ f, fuel = f + 1 := ⟨fuel - 1, by omega⟩
    obtain ⟨t, us, rfl, hopens⟩ := hs.opens
    rw [Token.length_body_line] at hfuel
    have hread := hs.takes (by omega : 8 * (t :: us).length + 8 ≤ fuel) (Token.body false rows ++
      .punct .rBrace :: rest)
    rw [Token.body_line, List.append_assoc, Read.stmts]
    apply Takes.peek
    -- whatever it starts with, a statement is read, and behind it the rest
    rcases hopens with (⟨n, rfl⟩ | rfl | ⟨op, rfl⟩) | rfl
    case' inl.inr.inr => cases op
    all_goals
      apply Takes.bind hread
      intro x _
      apply Takes.peek
      apply Takes.endStatement
      apply Takes.bind (ih (by omega))
      intro xs hxs
      exact .pure (by simp [hxs])

end Stmt

/-- The kind of a declaration, or the name of a function and whether it has a receiver. -/
def TopDecl.title : TopDecl → DeclKind ⊕ String × Bool
  | .decl d => .inl d.kind
  | .func f => .inr (f.name.text, f.recv.isSome)

theorem TopDecl.eq_func_of_title {d : TopDecl} {n : String} (h : d.title = .inr (n, false)) :
    ∃ f, d = .func f ∧ f.name.text = n ∧ f.recv = none := by
  cases d with
  | decl d => cases h
  | func f =>
    obtain ⟨hname, hrecv⟩ := Prod.mk.inj (Sum.inr.inj h)
    exact ⟨f, rfl, hname, by simpa using hrecv⟩

section

variable {lines : LineTable} {fuel : Nat}

theorem takes_block {ss : List Stmt} {rows : List (List Token)} {rest : List Token}
    (h : List.Forall₂ (Stmt.Formed lines) ss rows)
    (hfuel : 8 * (Token.block false rows).length ≤ fuel) :
    Takes (Token.block false rows ++ rest) (Read.withLiterals true (Read.block fuel)) rest
      fun b => b.stmts.length = ss.length := by
  rw [Token.length_block] at hfuel
  obtain ⟨fuel, rfl⟩ : ∃ f, fuel = f + 1 := ⟨fuel - 1, by omega⟩
  rw [Token.block_append]
  apply Takes.withLiterals
  rw [Read.block]
  apply Takes.start
  intro s
  apply Takes.expect
  apply Takes.bind (Takes.withLiterals (Stmt.takes_stmts h (by omega)))
  intro xs hxs
  apply Takes.expect
  exact .tagFrom fun _ => .pure hxs

theorem takes_funcDecl {f : FuncDecl} {ts : List Token} (h : f.Formed lines ts)
    (hfuel : 8 * ts.length ≤ fuel) (rest : List Token) :
    Takes (ts ++ .punct .semi :: rest) (Read.funcDecl fuel) (.punct .semi :: rest)
      fun x => (TopDecl.func x).title = (TopDecl.func f).title := by
  cases h with
  | @mk t u n sig ss rows hn hsig hbare hflat hbody hss =>
    have hlength : (TypeExpr.func default sig).tokens.length =
        (TypeExpr.func default sig).tokens.tail.length + 1 := by
      cases sig
      rw [TypeExpr.tokens]
      rfl
    simp only [List.length_cons, List.length_append] at hfuel
    have htokens : .keyword .funcKw :: .ident n.text :: ((TypeExpr.func default sig).tokens.tail ++
        Token.block false rows) ++ .punct .semi :: rest =
        .keyword .funcKw :: .ident n.text :: ((TypeExpr.func default sig).tokens.tail ++
          (Token.block false rows ++ .punct .semi :: rest)) := by
      simp
    have hstops : Read.Stops (Token.block false rows ++ .punct .semi :: rest) :=
      .punct (by decide) _
    rw [htokens, Read.funcDecl]
    apply Takes.start
    intro s
    apply Takes.expect
    apply Takes.at_
    rw [beq_eq_false_iff_ne.2 (by rintro ⟨⟩), if_neg Bool.false_ne_true, pure_bind]
    apply Takes.name
    intro m hm
    apply Takes.bind (hsig.retold.behindName default sig rfl fuel _ hstops (by omega))
    intro x _
    apply Takes.at_
    have hbrace : ((Token.block false rows ++ .punct .semi :: rest).head? == some (.punct .lBrace)) =
        true := rfl
    rw [hbrace, if_pos rfl]
    apply Takes.bind (takes_block hss (by omega))
    intro b _
    rw [pure_bind]
    apply Takes.tagFrom
    intro v
    apply Takes.pure
    rw [TopDecl.title, TopDecl.title, hm]

/-- Behind its declarations nothing is left of a file. -/
theorem takes_topDecls {ds : List TopDecl} {rows : List (List Token)}
    (h : List.Forall₂ (TopDecl.Straight lines) ds rows)
    (hfuel : 8 * (Token.body false rows).length + 1 ≤ fuel) :
    Takes (Token.body false rows) (Read.topDecls fuel) []
      fun xs => xs.map TopDecl.title = ds.map TopDecl.title := by
  induction h generalizing fuel with
  | nil =>
    obtain ⟨fuel, rfl⟩ : ∃ f, fuel = f + 1 := ⟨fuel - 1, by omega⟩
    rw [Read.topDecls]
    exact .peek (.pure rfl)
  | @cons d ts ds rows hd _ ih =>
    obtain ⟨fuel, rfl⟩ : ∃ f, fuel = f + 1 := ⟨fuel - 1, by omega⟩
    rw [Token.length_body_line] at hfuel
    have hothers (x : TopDecl) (hx : x.title = d.title) : Takes (.punct .semi :: Token.body false rows)
        (do
          if (← Read.atPunct .rParen) || (← Read.atPunct .rBrace) then
            (Read.unexpected .declaration : Read Unit)
          Read.endStatement
          return x :: (← Read.topDecls fuel)) [] fun xs => xs.map TopDecl.title =
            (d :: ds).map TopDecl.title := by
      apply Takes.at_
      apply Takes.at_
      apply Takes.endStatement
      apply Takes.bind (ih (by omega))
      intro xs hxs
      exact .pure (by rw [List.map_cons, List.map_cons, hx, hxs])
    rw [Token.body_line, Read.topDecls]
    apply Takes.peek
    cases hd with
    | @bare d ts hbare h =>
      have hread := h.takes (by omega : 8 * ts.length ≤ fuel) (Token.body false rows)
      obtain ⟨e, rfl⟩ : ∃ e, d = .decl e := by
        cases h
        · exact ⟨_, rfl⟩
        · exact ⟨_, rfl⟩
      obtain ⟨⟨kind, us, rfl⟩, -⟩ := h.ends
      have hfunc : Token.keyword kind.keyword ≠ .keyword .funcKw := by cases kind <;> decide
      have hdecl : (DeclKind.ofToken? (.keyword kind.keyword)).isSome = true := by
        rw [kind.ofToken_keyword]
        rfl
      change Takes _ (if _ then _ else if _ then _ else _ : Read (List TopDecl)) _ _
      rw [if_neg hfunc, if_pos hdecl]
      apply Takes.bind hread
      intro x hx
      exact hothers (.decl x) (congrArg Sum.inl (Option.some.inj hx.kind))
    | @func f ts h =>
      have hread := takes_funcDecl h (by omega : 8 * ts.length ≤ fuel) (Token.body false rows)
      obtain ⟨us, rfl⟩ : ∃ us, ts = .keyword .funcKw :: us := by
        cases h
        exact ⟨_, rfl⟩
      change Takes _ (if Token.keyword .funcKw = .keyword .funcKw then _ else _ : Read (List TopDecl)) _ _
      rw [if_pos rfl]
      apply Takes.bind hread
      intro x hx
      exact hothers (.func x) hx

theorem takes_sourceFile {n : String} {ds : List TopDecl} {rows : List (List Token)}
    (h : List.Forall₂ (TopDecl.Straight lines) ds rows)
    (hfuel : 8 * (Token.body false rows).length + 1 ≤ fuel) :
    Takes (.keyword .packageKw :: .ident n :: .punct .semi :: Token.body false rows)
      (Read.sourceFile fuel) [] fun f => f.name.text = n ∧
        f.decls.map TopDecl.title = ds.map TopDecl.title := by
  rw [Read.sourceFile]
  apply Takes.start
  intro s
  apply Takes.expect
  apply Takes.name
  intro m hm
  apply Takes.tagFrom
  intro t
  apply Takes.endStatement
  apply Takes.bind (takes_topDecls h hfuel)
  intro xs hxs
  exact .pure ⟨hm, hxs⟩

end

namespace Scan

theorem endsAfter_semi (ends : Bool) (ts us : List Token) :
    endsAfter ends (ts ++ .punct .semi :: us) = endsAfter false us := by
  rw [endsAfter, endsAfter, List.getLast?_append, List.getLast?_cons]
  cases us.getLast? <;> rfl

theorem endsAfter_body (rows : List (List Token)) : endsAfter false (Token.body false rows) = false := by
  induction rows with
  | nil => rfl
  | cons ts rows ih =>
    rw [Token.body_line, endsAfter_semi, ih]

end Scan

/-- A text that is laid out up to the end of its last line is scanned into its tokens. -/
theorem scan_lines {text : String} {ts : List Token} (h : Laid false text.toList ts)
    (hends : Scan.endsAfter false ts = false) :
    ∃ ps : List Placed, ps.map Placed.token = ts ∧ scan text = ⟨ps, [], []⟩ := by
  obtain ⟨ps, last, hps, hlast, -, heq⟩ := Scan.ofLexemes_laid h [] (by simp) [] (by simp) .start rfl 0
  rw [hends] at hlast
  refine ⟨ps, hps, ?_⟩
  rw [Lexeme.all, Scan.ofLexemes] at heq
  simpa [Scan.lineEnd, hlast, Scan.append, Scan.none, scan] using heq

namespace Document

/-- The text that is printed for straight functions and bare declarations without comments is read
again, and the declarations are as before up to their insides. -/
theorem ofSource_print {d : Document} (hcomments : d.file.comments = [])
    (hname : Token.IsName d.file.name.text) {rows : List (List Token)}
    (h : List.Forall₂ (TopDecl.Straight d.lines) d.file.decls rows) : ∃ d', ofSource d.print = .ok d' ∧
      d'.file.name.text = d.file.name.text ∧ d'.file.comments = [] ∧
      d'.file.decls.map TopDecl.title = d.file.decls.map TopDecl.title := by
  have hends : Scan.endsAfter false (.keyword .packageKw :: .ident d.file.name.text :: .punct .semi ::
      Token.body false rows) = false :=
    (Scan.endsAfter_semi false [.keyword .packageKw, .ident d.file.name.text] _).trans
      (Scan.endsAfter_body rows)
  obtain ⟨ps, hps, hscan⟩ := scan_lines (laid_print hcomments hname h) hends
  have hlength : ps.length = (Token.body false rows).length + 3 := by
    simpa using congrArg List.length hps
  have hbudget : 8 * (Token.body false rows).length + 1 ≤ budget (scan d.print).tokens.length := by
    rw [hscan, budget, hlength]
    omega
  obtain ⟨f, c, hread, -, -, hfname, htitles⟩ := takes_sourceFile h hbudget
    ⟨(scan d.print).tokens, d.print.utf8ByteSize, 0, true, 0⟩ (by rw [hscan, hps])
  have hterminated : terminated d.print = d.print := terminated_eq_self (by
    rw [print, (d.drawing_pen 0).1, List.getLast?_concat])
  have hgroups : Read.commentGroups (LooseComment.groups d.print.toList (scan d.print).comments) c =
      .ok ([], c) := by
    rw [hscan]
    rfl
  rw [← hterminated] at hread hgroups
  obtain ⟨d', hd', hfile, -⟩ := ofSource_of_read (by rw [hterminated, hscan]) hread hgroups
  refine ⟨d', hd', ?_, ?_, ?_⟩
  all_goals rw [hfile]
  · exact hfname
  · exact htitles

end Document

end FuncLift
