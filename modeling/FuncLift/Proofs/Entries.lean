import FuncLift.Proofs.Plain

/-!
# Reading lists of parameters

The tokens of fields in parentheses are read entry by entry: every name but the last of a field is an
entry of its own, and so is a field that is just a name. From the entries the fields are put together
again, and where a name could be that of a field or that of a parameter, it is taken for the latter.
-/
namespace FuncLift

namespace Read

/-- Nothing that stands ahead goes on with a type. -/
def Stops (rest : List Token) : Prop :=
  ∀ t ∈ rest.head?, t ≠ .punct .dot ∧ Read.atTypeStart (some t) = false

theorem Stops.punct {p : Punct} (hp : p ∈ [.rParen, .rBrack, .lBrace, .rBrace, .comma, .semi])
    (rest : List Token) : Stops (.punct p :: rest) := by
  have hall : ∀ p ∈ [Punct.rParen, .rBrack, .lBrace, .rBrace, .comma, .semi],
      Token.punct p ≠ .punct .dot ∧ Read.atTypeStart (some (.punct p)) = false := by decide
  rintro t ⟨⟩
  exact hall p hp

theorem Stops.atTypeStart {rest : List Token} (h : Stops rest) :
    Read.atTypeStart rest.head? = false := by
  cases hhead : rest.head? with
  | none => rfl
  | some t => exact (h t hhead).2

theorem Stops.ne_paren {rest : List Token} (h : Stops rest) :
    (rest.head? == some (.punct .lParen)) = false := by
  rw [beq_eq_false_iff_ne]
  intro hhead
  have hstart := h.atTypeStart
  rw [hhead] at hstart
  cases hstart

theorem Stops.label (l : String) (rest : List Token) : Stops (.ofLabel l :: rest) := by
  rintro t ⟨⟩
  rw [Token.ofLabel]
  split
  · exact ⟨by simp, rfl⟩
  · exact ⟨by simp, rfl⟩

end Read

namespace TypeExpr

/-- Reading the tokens of a type gives what they tell. -/
def Rereads (t : TypeExpr) : Prop := ∀ (fuel : Nat) (rest : List Token), Read.Stops rest →
  8 * t.tokens.length + 5 ≤ fuel →
    Takes (t.tokens ++ rest) (Read.typeExpr fuel) rest (·.core = t.readBack)

/-- The token with which a type starts. -/
structure Starts (t : TypeExpr) (u : Token) : Prop where
  type : Read.atTypeStart (some u) = true
  paren : u ≠ .punct .lParen
  arrow : u = .punct .arrow → t.isRecv = true
  name : ∀ n, u = .ident n → ∃ v pkg m, t = .named v pkg m

theorem head_tokens (t : TypeExpr) : ∃ u us, t.tokens = u :: us ∧ Starts t u := by
  have hsign {t : TypeExpr} {u : Token} (htype : Read.atTypeStart (some u) = true)
      (hparen : u ≠ .punct .lParen) (harrow : u ≠ .punct .arrow) (hname : ∀ n, u ≠ .ident n) :
      Starts t u :=
    ⟨htype, hparen, fun h => absurd h harrow, fun n h => absurd h (hname n)⟩
  cases t with
  | named v pkg n =>
    have hname (m : String) : Starts (.named v pkg n) (.ident m) :=
      ⟨rfl, by simp, by simp, fun _ _ => ⟨v, pkg, n, rfl⟩⟩
    cases pkg with
    | none => exact ⟨_, _, by rw [tokens], hname n⟩
    | some pkg => exact ⟨_, _, by rw [tokens], hname pkg⟩
  | pointer | slice | map =>
    refine ⟨_, _, by rw [tokens], ?_⟩
    exact hsign rfl (by simp) (by simp) (by simp)
  | array _ len =>
    cases len with
    | none | some =>
      refine ⟨_, _, by rw [tokens], ?_⟩
      exact hsign rfl (by simp) (by simp) (by simp)
  | chan _ dir =>
    cases dir with
    | recv =>
      refine ⟨_, _, by rw [tokens], ?_⟩
      exact ⟨rfl, by simp, fun _ => rfl, by simp⟩
    | both | send =>
      refine ⟨_, _, by rw [tokens], ?_⟩
      exact hsign rfl (by simp) (by simp) (by simp)
  | func _ sig =>
    obtain ⟨u, ps, rs⟩ := sig
    refine ⟨_, _, by rw [tokens], ?_⟩
    exact hsign rfl (by simp) (by simp) (by simp)
  | struct | interface =>
    refine ⟨_, _, by rw [tokens], ?_⟩
    exact hsign rfl (by simp) (by simp) (by simp)

/-- A type starts with no sign that stands behind names or at the end of a field. -/
theorem head_ne (t : TypeExpr) (rest : List Token) {p : Punct}
    (hp : p ∈ [.rParen, .rBrack, .rBrace, .comma, .semi, .assign, .dot, .ellipsis, .lParen]) :
    (t.tokens ++ rest).head? ≠ some (.punct p) := by
  have hall : ∀ p ∈ [Punct.rParen, .rBrack, .rBrace, .comma, .semi, .assign, .dot, .ellipsis],
      Read.atTypeStart (some (.punct p)) = false := by decide
  obtain ⟨u, us, htokens, hstarts⟩ := t.head_tokens
  rw [htokens]
  rintro ⟨⟩
  by_cases hparen : p = .lParen
  · exact hstarts.paren (by rw [hparen])
  · have hfalse := hall p (by simpa [hparen] using hp)
    rw [hstarts.type] at hfalse
    cases hfalse

end TypeExpr

namespace Takes

variable {β : Type} {ts us vs : List Token} {post : β → Prop}

theorem spanFrom {s : Nat} {f : Span → Read β} (k : ∀ span, Takes ts (f span) vs post) :
    Takes ts (Read.spanFrom s >>= f) vs post :=
  bind (Q := fun _ => True) (still fun _ _ => ⟨_, _, rfl, rfl, trivial⟩) fun span _ => k span

end Takes

/-! ## From entries to fields -/

/-- The entries of which fields without tags are put together. -/
inductive Enters : List Param → List Field → Prop
  | nil : Enters [] []
  | bare {n : Name} {span : Span} {ps : List Param} {fs : List Field} (h : Enters ps fs) :
      Enters (.bare n span :: ps) (.ofName n.text :: fs)
  | typed {x : TypeExpr} {v : Bool} {span : Span} {ps : List Param} {fs : List Field}
      (hx : Field.bareName? ⟨default, [], x.core, v, none⟩ = none) (h : Enters ps fs) :
      Enters (.typed none x v span :: ps) (⟨default, [], x.core, v, none⟩ :: fs)
  | last {n : Name} {x : TypeExpr} {v : Bool} {span : Span} {ps : List Param} {fs : List Field}
      (h : Enters ps fs) : Enters (.typed (some n) x v span :: ps)
        (⟨default, [⟨default, n.text⟩], x.core, v, none⟩ :: fs)
  | more {n : Name} {ns : List Name} {x : TypeExpr} {v : Bool} {span : Span} {ps : List Param}
      {fs : List Field} (hns : ns ≠ []) (h : Enters ps (⟨default, ns, x, v, none⟩ :: fs)) :
      Enters (.bare n span :: ps) (⟨default, ⟨default, n.text⟩ :: ns, x, v, none⟩ :: fs)

namespace Takes

variable {ts : List Token}

theorem fieldsOfTypes (ns : List Name) : Takes ts (Read.fieldsOfTypes ns) ts
    fun gs => gs.map Field.core = (ns.map Name.text).map Field.ofName := by
  induction ns with
  | nil =>
    apply Takes.pure
    rfl
  | cons n ns ih =>
    rw [Read.fieldsOfTypes]
    apply Takes.tagAt
    intro t
    apply Takes.tagAt
    intro u
    apply Takes.bind ih
    intro gs hgs
    apply Takes.pure
    rw [List.map_cons, hgs, List.map_cons, List.map_cons, Field.core, Field.stripped,
      TypeExpr.core]
    rfl

theorem group {ps : List Param} {fs : List Field} (h : Enters ps fs) (waiting : List Name)
    (first : Option Nat) : Takes ts (Read.group waiting first ps) ts
      fun gs => gs.map Field.core = Field.regroup (waiting.map Name.text) fs := by
  induction h generalizing waiting first with
  | nil =>
    rw [Read.group, Field.regroup]
    exact fieldsOfTypes waiting
  | @bare n span ps fs _ ih =>
    rw [Read.group, Field.regroup]
    have hgroup := ih (waiting ++ [n]) (some (first.getD span.start))
    rw [List.map_append] at hgroup
    exact hgroup
  | @typed x v span ps fs hx _ ih =>
    rw [Read.group]
    apply Takes.bind (fieldsOfTypes waiting)
    intro before hbefore
    apply Takes.tagAt
    intro t
    apply Takes.bind (ih [] none)
    intro gs hgs
    apply Takes.pure
    rw [Field.regroup, hx]
    rw [List.map_append, hbefore, List.map_cons, hgs]
    rfl
  | @last n x v span ps fs _ ih =>
    rw [Read.group]
    apply Takes.tagAt
    intro t
    apply Takes.bind (ih [] none)
    intro gs hgs
    apply Takes.pure
    rw [List.map_cons, hgs, Field.core, Field.stripped]
    simp [Field.regroup, Field.bareName?]
  | @more n ns x v span ps fs hns _ ih =>
    rw [Read.group]
    have hgroup := ih (waiting ++ [n]) (some (first.getD span.start))
    have hregroup : Field.regroup ((waiting ++ [n]).map Name.text) (⟨default, ns, x, v, none⟩ :: fs) =
        Field.regroup (waiting.map Name.text)
          (⟨default, ⟨default, n.text⟩ :: ns, x, v, none⟩ :: fs) := by
      obtain ⟨m, ns, rfl⟩ := List.exists_cons_of_ne_nil hns
      simp [Field.regroup, Field.bareName?]
    rwa [hregroup] at hgroup

end Takes

/-! ## Entries -/

namespace TypeExpr

variable {us : List Token} {fuel : Nat}

/-- What follows an entry. -/
def EndsEntry (us : List Token) : Prop := ∃ p vs, us = .punct p :: vs ∧ (p = .comma ∨ p = .rParen)

theorem EndsEntry.stops (h : EndsEntry us) : Read.Stops us := by
  obtain ⟨p, vs, rfl, hp⟩ := h
  rcases hp with rfl | rfl
  · exact .punct (by decide) vs
  · exact .punct (by decide) vs

theorem takes_bare (hus : EndsEntry us) (n : String) :
    Takes (.ident n :: us) (Read.param (fuel + 1)) us
      fun p => ∃ m span, p = .bare m span ∧ m.text = n := by
  rw [Read.param]
  apply Takes.start
  intro s
  apply Takes.peek
  apply Takes.name
  intro m hm
  apply Takes.peek
  obtain ⟨p, vs, rfl, hp⟩ := hus
  rcases hp with rfl | rfl
  · apply Takes.spanFrom
    intro span
    exact .pure ⟨m, span, rfl, hm⟩
  · apply Takes.spanFrom
    intro span
    exact .pure ⟨m, span, rfl, hm⟩

/-- An entry with a type of its own, behind a name or alone. -/
theorem takes_typed {t : TypeExpr} (ht : t.Rereads) (n : Option String) (v : Bool)
    (hbare : n = none → v = false → ∀ u m, t ≠ .named u none m) (hus : EndsEntry us)
    (hfuel : 8 * t.tokens.length + 5 ≤ fuel) :
    Takes ((n.map Token.ident).toList ++ ((if v then [.punct .ellipsis] else []) ++ (t.tokens ++ us)))
      (Read.param (fuel + 1)) us
      fun p => ∃ m x span, p = .typed m x v span ∧ m.map Name.text = n ∧ x.core = t.readBack := by
  obtain ⟨u, vs, htokens, hstarts⟩ := t.head_tokens
  -- in all cases but one the type is read as such at last
  have htype {m : Option Name} {s : Nat} (hm : m.map Name.text = n) : Takes (t.tokens ++ us) (do
      let type ← Read.typeExpr fuel
      return .typed m type v (← Read.spanFrom s) : Read Param) us
      fun p => ∃ m x span, p = .typed m x v span ∧ m.map Name.text = n ∧ x.core = t.readBack := by
    apply Takes.bind (ht fuel us hus.stops hfuel)
    intro x hx
    apply Takes.spanFrom
    intro span
    exact .pure ⟨m, x, span, rfl, hm, hx⟩
  rw [Read.param]
  apply Takes.start
  intro s
  cases n with
  | some n =>
    apply Takes.peek
    apply Takes.name
    intro m hm
    have hsome : (some m).map Name.text = some n := by rw [← hm]; rfl
    cases v with
    | true => exact .peek (.take fun _ => htype hsome)
    | false =>
      change Takes (t.tokens ++ us) _ us _
      apply Takes.peek
      split
      · exact absurd ‹_› (t.head_ne us (by decide))
      · exact absurd ‹_› (t.head_ne us (by decide))
      · exact absurd ‹_› (t.head_ne us (by decide))
      · exact absurd ‹_› (t.head_ne us (by decide))
      · exact htype hsome
  | none =>
    cases v with
    | true => exact .peek (.take fun _ => htype rfl)
    | false =>
      change Takes (t.tokens ++ us) _ us _
      apply Takes.peek
      split
      · -- the name is that of a package, or it would be an entry without a type
        rename_i k hk
        rw [htokens] at hk
        obtain ⟨w, pkg, m, rfl⟩ := hstarts.name k (Option.some.inj hk)
        cases pkg with
        | none => exact absurd rfl (hbare rfl rfl w m)
        | some pkg =>
          rw [tokens, readBack]
          apply Takes.name
          intro q hq
          apply Takes.peek
          apply Takes.take
          intro _
          apply Takes.name
          intro sel hsel
          apply Takes.tagFrom
          intro tag
          apply Takes.spanFrom
          intro span
          refine .pure ⟨none, _, span, rfl, rfl, ?_⟩
          rw [core, hq, hsel]
      · exact absurd ‹_› (t.head_ne us (by decide))
      · exact htype rfl

end TypeExpr

/-! ## Lists of entries -/

namespace Field

theorem length_pos_row (f : Field) : 0 < f.row.length := by
  obtain ⟨u, us, htokens, -⟩ := f.type.head_tokens
  simp only [row, htokens, List.length_append, List.length_cons]
  omega

theorem length_pos_methodRow (f : Field) : 0 < f.methodRow.length := by
  obtain ⟨u, us, htokens, -⟩ := f.type.head_tokens
  unfold methodRow
  split
  · exact Nat.succ_pos _
  · rw [htokens]
    exact Nat.succ_pos _

/-- What stands behind the first of some rows with commas between them. -/
def others : List (List Token) → List Token
  | [] => []
  | rows => .punct .comma :: Token.listed rows

theorem listed_cons (ts : List Token) (rows : List (List Token)) :
    Token.listed (ts :: rows) = ts ++ others rows := by
  cases rows with
  | nil => rw [Token.listed, others, List.append_nil]
  | cons => rfl

end Field

namespace TypeExpr

variable {rest : List Token} {fuel : Nat}

/-- The entries of the other fields are read behind a comma, if there are any. -/
def TakesOthers (rows : List (List Token)) (rest : List Token) (fuel : Nat)
    (post : List Param → Prop) : Prop :=
  (rows = [] → post []) ∧ (rows ≠ [] →
    Takes (Token.listed rows ++ .punct .rParen :: rest) (Read.params fuel) (.punct .rParen :: rest) post)

theorem takes_entry {ts : List Token} {rows : List (List Token)} {P : Param → Prop}
    {Q post : List Param → Prop} (hhead : ts.head? ≠ none ∧ ts.head? ≠ some (.punct .rParen))
    (hp : ∀ us, EndsEntry us → Takes (ts ++ us) (Read.param fuel) us P)
    (hothers : TakesOthers rows rest fuel Q) (hpost : ∀ p ps, P p → Q ps → post (p :: ps)) :
    Takes (ts ++ (Field.others rows ++ .punct .rParen :: rest)) (Read.params (fuel + 1))
      (.punct .rParen :: rest) post := by
  rw [Read.params]
  apply Takes.at_
  have hdone (us : List Token) : ((ts ++ us).head? == some (.punct .rParen)) = false := by
    obtain ⟨hnone, hne⟩ := hhead
    cases ts with
    | nil => exact absurd rfl hnone
    | cons t ts => exact beq_eq_false_iff_ne.2 hne
  rw [hdone, if_neg Bool.false_ne_true]
  cases rows with
  | nil =>
    apply Takes.bind (hp _ ⟨_, _, rfl, .inr rfl⟩)
    intro p hp
    apply Takes.pass (by rintro ⟨⟩)
    exact .pure (hpost p [] hp (hothers.1 rfl))
  | cons row rows =>
    apply Takes.bind (hp _ ⟨_, _, rfl, .inl rfl⟩)
    intro p hp
    apply Takes.eat
    apply Takes.bind (hothers.2 (List.cons_ne_nil row rows))
    intro ps hps
    exact .pure (hpost p ps hp hps)

section

variable {t : Tag} {type : TypeExpr} {v : Bool} {rows : List (List Token)} {fs : List Field}

/-- A field without names is an entry with a type, or just a name. -/
theorem takes_unnamed (ht : type.Rereads) (hfuel : 8 * type.tokens.length + 5 ≤ fuel)
    (hothers : TakesOthers rows rest (fuel + 1) (Enters · fs)) :
    Takes (((if v then [.punct .ellipsis] else []) ++ type.tokens) ++
        (Field.others rows ++ .punct .rParen :: rest)) (Read.params (fuel + 2))
      (.punct .rParen :: rest) (Enters · (Field.readBack ⟨t, [], type, v, none⟩ :: fs)) := by
  cases hbare : Field.bareName? ⟨t, [], type, v, none⟩ with
  | some m =>
    obtain ⟨-, rfl, w, rfl⟩ := Field.bareName_eq_some.1 hbare
    rw [tokens]
    apply takes_entry (by simp) (fun us hus => takes_bare hus m) hothers
    rintro p ps ⟨k, span, rfl, rfl⟩ hps
    exact .bare hps
  | none =>
    have hhead : ((if v then [Token.punct .ellipsis] else []) ++ type.tokens).head? ≠ none ∧
        ((if v then [Token.punct .ellipsis] else []) ++ type.tokens).head? ≠
          some (.punct .rParen) := by
      cases v with
      | true => simp
      | false =>
        obtain ⟨u, us, htokens, -⟩ := type.head_tokens
        have hne := type.head_ne [] (p := .rParen) (by decide)
        rw [List.append_nil] at hne
        exact ⟨by simp [htokens], hne⟩
    have hentry (us : List Token) (hus : EndsEntry us) :
        Takes ((if v then [Token.punct .ellipsis] else []) ++ type.tokens ++ us)
          (Read.param (fuel + 1)) us fun p => ∃ m x span, p = .typed m x v span ∧
            m.map Name.text = none ∧ x.core = type.readBack := by
      rw [List.append_assoc]
      apply takes_typed ht none v _ hus (by omega)
      rintro - rfl w m rfl
      cases hbare
    apply takes_entry hhead hentry hothers
    rintro p ps ⟨m, x, span, rfl, hm, hx⟩ hps
    obtain rfl : m = none := Option.map_eq_none_iff.1 hm
    have hback : Field.readBack ⟨t, [], type, v, none⟩ = ⟨default, [], x.core, v, none⟩ := by
      rw [Field.readBack, Field.stripped, hx]
      rfl
    rw [hback]
    apply Enters.typed _ hps
    rw [← hback, bareName_readBack, hbare]

/-- The type stands in the entry of the last name. -/
theorem takes_lastName {n : Name} (ht : type.Rereads) (hfuel : 8 * type.tokens.length + 5 ≤ fuel)
    (hothers : TakesOthers rows rest (fuel + 1) (Enters · fs)) :
    Takes (.ident n.text :: ((if v then [.punct .ellipsis] else []) ++ type.tokens) ++
        (Field.others rows ++ .punct .rParen :: rest)) (Read.params (fuel + 2))
      (.punct .rParen :: rest) (Enters · (Field.readBack ⟨t, [n], type, v, none⟩ :: fs)) := by
  have hentry (us : List Token) (hus : EndsEntry us) :
      Takes (.ident n.text :: ((if v then [.punct .ellipsis] else []) ++ type.tokens) ++ us)
        (Read.param (fuel + 1)) us fun p => ∃ m x span, p = .typed m x v span ∧
          m.map Name.text = some n.text ∧ x.core = type.readBack := by
    rw [List.cons_append, List.append_assoc]
    exact takes_typed ht (some n.text) v (by simp) hus (by omega)
  apply takes_entry (by simp) hentry hothers
  rintro p ps ⟨m, x, span, rfl, hm, hx⟩ hps
  obtain ⟨m, rfl, htext⟩ := Option.map_eq_some_iff.1 hm
  rw [Field.readBack, Field.stripped, ← hx, List.map_cons, List.map_nil, ← htext]
  exact .last hps

end

theorem takes_field {f : Field} (ht : f.type.Rereads) (hlabel : f.label = none)
    {rows : List (List Token)} {fs : List Field}
    (hfuel : 8 * f.row.length + 7 ≤ fuel)
    (hothers : ∀ fuel', fuel ≤ fuel' + 8 * f.row.length →
      TakesOthers rows rest fuel' (Enters · fs)) :
    Takes (f.row ++ (Field.others rows ++ .punct .rParen :: rest)) (Read.params fuel)
      (.punct .rParen :: rest) (Enters · (f.readBack :: fs)) := by
  have hpos := f.length_pos_row
  obtain ⟨t, ns, type, v, label⟩ := f
  cases hlabel
  replace ht : type.Rereads := ht
  have hrow (ns : List Name) : Field.row ⟨t, ns, type, v, none⟩ = nameTokens (ns.map Name.text) ++
      ((if v then [.punct .ellipsis] else []) ++ type.tokens) := by
    rw [Field.row, Option.map_none, Option.toList_none, List.append_nil]
  induction ns generalizing fuel with
  | nil =>
    obtain ⟨fuel, rfl⟩ : ∃ k, fuel = k + 2 := ⟨fuel - 2, by omega⟩
    have hrest := hothers (fuel + 1) (by omega)
    rw [hrow] at hfuel ⊢
    simp only [List.map_nil, nameTokens, List.nil_append, List.length_append] at hfuel
    exact takes_unnamed ht (by omega) hrest
  | cons n ns ih =>
    obtain ⟨fuel, rfl⟩ : ∃ k, fuel = k + 2 := ⟨fuel - 2, by omega⟩
    cases ns with
    | nil =>
      have hrest := hothers (fuel + 1) (by omega)
      rw [hrow] at hfuel ⊢
      simp only [List.map_cons, List.map_nil, nameTokens, List.length_append, List.length_cons,
        List.length_nil] at hfuel
      exact takes_lastName ht (by omega) hrest
    | cons m ns =>
      -- the first name is an entry, and the other ones are read as a field without it
      have hmore : Field.row ⟨t, n :: m :: ns, type, v, none⟩ =
          .ident n.text :: .punct .comma :: Field.row ⟨t, m :: ns, type, v, none⟩ := by
        rw [hrow, hrow]
        rfl
      rw [hmore] at hfuel hothers ⊢
      simp only [List.length_cons] at hfuel hothers
      rw [List.cons_append, List.cons_append, Read.params]
      apply Takes.at_
      apply Takes.bind (takes_bare ⟨_, _, rfl, .inl rfl⟩ n.text)
      rintro p ⟨k, span, rfl, hk⟩
      apply Takes.eat
      apply Takes.bind (ih (by omega) (fun fuel' hle => hothers fuel' (by omega))
        (Field.length_pos_row _))
      intro ps hps
      apply Takes.pure
      rw [Field.readBack, Field.stripped, List.map_cons, ← hk]
      exact .more (by simp) hps

theorem takes_params {fs : List Field} (hfs : ∀ f ∈ fs, f.type.Rereads ∧ f.label = none)
    (hfuel : 8 * (Token.listed (fs.map Field.row)).length + 8 ≤ fuel) :
    Takes (Token.listed (fs.map Field.row) ++ .punct .rParen :: rest) (Read.params fuel)
      (.punct .rParen :: rest) (Enters · (fs.map Field.readBack)) := by
  induction fs generalizing fuel with
  | nil =>
    obtain ⟨fuel, rfl⟩ : ∃ k, fuel = k + 1 := ⟨fuel - 1, by omega⟩
    rw [Read.params]
    apply Takes.at_
    exact .pure .nil
  | cons f fs ih =>
    obtain ⟨⟨ht, hlabel⟩, hfs⟩ := List.forall_mem_cons.1 hfs
    rw [List.map_cons, Field.listed_cons] at hfuel ⊢
    rw [List.length_append] at hfuel
    rw [List.append_assoc]
    apply takes_field ht hlabel (by omega)
    intro fuel' hle
    constructor
    · intro hnil
      rw [List.map_eq_nil_iff.1 hnil]
      exact .nil
    · intro hne
      obtain ⟨row, rows, hrows⟩ := List.exists_cons_of_ne_nil hne
      rw [hrows, Field.others, ← hrows, List.length_cons] at hfuel
      · exact ih hfs (by omega)
      · rintro ⟨⟩

theorem takes_parameters {fs : List Field} (hfs : ∀ f ∈ fs, f.type.Rereads ∧ f.label = none)
    (hfuel : 8 * (Token.listed (fieldRows fs)).length + 9 ≤ fuel) :
    Takes (Token.parens (Token.listed (fieldRows fs)) ++ rest) (Read.parameters fuel) rest
      fun gs => coreFields gs = Field.regroup [] (readBackFields fs) := by
  obtain ⟨fuel, rfl⟩ : ∃ k, fuel = k + 1 := ⟨fuel - 1, by omega⟩
  rw [fieldRows_eq] at hfuel ⊢
  rw [Token.parens, List.cons_append, List.append_assoc, Read.parameters]
  apply Takes.expect
  apply Takes.bind (takes_params hfs (by omega))
  intro ps hps
  apply Takes.expect
  simp only [coreFields_eq, readBackFields_eq]
  exact .group hps [] none

end TypeExpr

end FuncLift
