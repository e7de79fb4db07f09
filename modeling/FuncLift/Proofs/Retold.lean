import FuncLift.Proofs.Entries

/-!
# Reading the tokens of a type

Reading the tokens of a plain type in the shape of the grammar gives what they tell: a function is read
from its lists of parameters and results, a struct or an interface field by field.
-/
namespace FuncLift

namespace Takes

variable {β : Type} {ts us vs : List Token} {post : β → Prop}

theorem peekSecond {f : Option Token → Read β} (k : Takes ts (f ts[1]?) vs post) :
    Takes ts (Read.peekSecond >>= f) vs post := by
  refine bind (Q := (· = ts[1]?)) (still fun c hc => ⟨_, c, rfl, rfl, ?_⟩) fun t ht => ht ▸ k
  rw [← hc, List.getElem?_map]

theorem endStatement {f : Unit → Read β} (k : Takes ts (f ()) vs post) :
    Takes (.punct .semi :: ts) (Read.endStatement >>= f) vs post := by
  rw [Read.endStatement, bind_assoc]
  exact .peek (.take fun _ => k)

theorem endStatement_brace {f : Unit → Read β}
    (k : Takes (.punct .rBrace :: ts) (f ()) vs post) :
    Takes (.punct .rBrace :: ts) (Read.endStatement >>= f) vs post := by
  rw [Read.endStatement, bind_assoc]
  exact .peek k

theorem length_le_nameTokens (ns : List String) : ns.length ≤ (nameTokens ns).length := by
  fun_induction nameTokens ns with
  | case1 | case2 => simp
  | case3 n m ns ih =>
    simp only [List.length_cons] at ih ⊢
    omega

theorem names {ns : List String} (hns : ns ≠ []) {fuel : Nat} (hfuel : ns.length ≤ fuel)
    (hrest : us.head? ≠ some (.punct .comma)) :
    Takes (nameTokens ns ++ us) (Read.names fuel) us fun xs => xs.map Name.text = ns := by
  fun_induction nameTokens ns generalizing fuel with
  | case1 => exact absurd rfl hns
  | case2 n =>
    rw [List.length_singleton] at hfuel
    obtain ⟨fuel, rfl⟩ := Nat.exists_eq_add_of_le' hfuel
    rw [Read.names]
    exact .name fun m hm => .pass hrest (.pure (by simp [hm]))
  | case3 n m ns ih =>
    rw [List.length_cons] at hfuel
    obtain ⟨fuel, rfl⟩ : ∃ f, fuel = f + 1 := ⟨fuel - 1, by omega⟩
    rw [Read.names]
    refine .name fun x hx => .eat (.bind (ih (List.cons_ne_nil m ns) (by omega)) fun xs hxs => .pure ?_)
    simp [hx, hxs]

end Takes

namespace TypeExpr

section

variable {t u : Tag} {e k v : TypeExpr}

theorem Rereads.named {pkg : Option String} {n : String} : Rereads (.named t pkg n) := by
  intro fuel rest hrest hfuel
  obtain ⟨fuel, rfl⟩ : ∃ f, fuel = f + 1 := ⟨fuel - 1, by omega⟩
  have hdot : rest.head? ≠ some (.punct .dot) := fun h => (hrest _ h).1 rfl
  rw [Read.typeExpr]
  refine .start fun s => ?_
  cases pkg with
  | none =>
    refine .peek (.name fun m hm => .pass hdot (.tagFrom fun _ => .pure ?_))
    rw [core, hm, readBack]
  | some pkg =>
    refine .peek (.name fun m hm => .eat (.name fun sel hsel => .tagFrom fun _ => .pure ?_))
    rw [core, hm, hsel, readBack]

theorem Rereads.pointer (h : Rereads e) : Rereads (.pointer t e) := by
  intro fuel rest hrest hfuel
  obtain ⟨fuel, rfl⟩ : ∃ f, fuel = f + 1 := ⟨fuel - 1, by omega⟩
  rw [tokens, List.length_cons] at hfuel
  rw [Read.typeExpr, tokens]
  refine .start fun s => .peek (.take fun _ => .bind (h _ _ hrest (by omega)) fun x hx =>
    .tagFrom fun _ => .pure ?_)
  rw [core, hx, readBack]

theorem Rereads.slice (h : Rereads e) : Rereads (.slice t e) := by
  intro fuel rest hrest hfuel
  obtain ⟨fuel, rfl⟩ : ∃ f, fuel = f + 1 := ⟨fuel - 1, by omega⟩
  simp only [tokens, List.length_cons] at hfuel
  rw [Read.typeExpr, tokens]
  refine .start fun s => .peek (.take fun _ => .eat (.bind (h _ _ hrest (by omega)) fun x hx =>
    .tagFrom fun _ => .pure ?_))
  rw [core, hx, readBack]

theorem Rereads.array {len : Option Expr} (hlen : ∀ l ∈ len, l.Shaped) (h : Rereads e) :
    Rereads (.array t len e) := by
  intro fuel rest hrest hfuel
  obtain ⟨fuel, rfl⟩ : ∃ f, fuel = f + 1 := ⟨fuel - 1, by omega⟩
  rw [Read.typeExpr]
  refine .start fun s => ?_
  cases len with
  | none =>
    simp only [tokens, List.length_cons] at hfuel
    rw [tokens]
    refine .peek (.take fun _ => .pass (by rintro ⟨⟩) (.eat (.expect (.bind (h _ _ hrest (by omega)) fun x hx =>
      .tagFrom fun _ => .pure ?_))))
    rw [core, hx, readBack, Expr.coreOption]
  | some l =>
    have hl := hlen l rfl
    simp only [tokens, List.length_cons, List.length_append] at hfuel
    rw [tokens, List.cons_append, List.append_assoc]
    obtain ⟨w, ws, htokens, hopens, _⟩ := hl.opens
    have hhead {p : Punct} (hp : w ≠ .punct p) :
        (l.tokens ++ (.punct .rBrack :: e.tokens ++ rest)).head? ≠ some (.punct p) := by
      rw [htokens]
      exact fun h => hp (Option.some.inj h)
    have hdots : w ≠ .punct .ellipsis := by
      rcases hopens with ⟨n, rfl⟩ | rfl | ⟨op, rfl⟩
      · rintro ⟨⟩
      · decide
      · cases op <;> decide
    refine .peek (.take fun _ => .pass (hhead (hopens.ne (.inr (.inl rfl)))) (.pass (hhead hdots) ?_))
    refine .bind (.withLiterals (hl.rereads.expr (.of_closer (by decide)) (by omega))) fun y hy =>
      .expect (.bind (h _ _ hrest (by omega)) fun x hx => .tagFrom fun _ => .pure ?_)
    rw [core, hx, readBack, Expr.coreOption, Expr.coreOption, hy]

theorem Rereads.map (hk : Rereads k) (hv : Rereads v) : Rereads (.map t k v) := by
  intro fuel rest hrest hfuel
  obtain ⟨fuel, rfl⟩ : ∃ f, fuel = f + 1 := ⟨fuel - 1, by omega⟩
  simp only [tokens, List.length_cons, List.length_append] at hfuel
  rw [Read.typeExpr, tokens, List.cons_append, List.cons_append, List.append_assoc]
  refine .start fun s => .peek (.take fun _ => .expect ?_)
  refine .bind (hk _ _ (.punct (by decide) _) (by omega)) fun x hx => .expect ?_
  refine .bind (hv _ _ hrest (by omega)) fun y hy => .tagFrom fun _ => .pure ?_
  rw [core, hx, hy, readBack]

theorem Rereads.recv (h : Rereads e) : Rereads (.chan t .recv e) := by
  intro fuel rest hrest hfuel
  obtain ⟨fuel, rfl⟩ : ∃ f, fuel = f + 1 := ⟨fuel - 1, by omega⟩
  simp only [tokens, List.length_cons] at hfuel
  rw [Read.typeExpr, tokens]
  refine .start fun s => .peek (.take fun _ => .expect (.bind (h _ _ hrest (by omega)) fun x hx =>
    .tagFrom fun _ => .pure ?_))
  rw [core, hx]
  simp [readBack]

theorem Rereads.send (h : Rereads e) : Rereads (.chan t .send e) := by
  intro fuel rest hrest hfuel
  obtain ⟨fuel, rfl⟩ : ∃ f, fuel = f + 1 := ⟨fuel - 1, by omega⟩
  simp only [tokens, List.length_cons] at hfuel
  rw [Read.typeExpr, tokens]
  refine .start fun s => .peek (.take fun _ => .eat (.bind (h _ _ hrest (by omega)) fun x hx =>
    .tagFrom fun _ => .pure ?_))
  rw [core, hx]
  simp [readBack]

theorem Rereads.both (hrecv : e.isRecv = false) (h : Rereads e) : Rereads (.chan t .both e) := by
  intro fuel rest hrest hfuel
  obtain ⟨fuel, rfl⟩ : ∃ f, fuel = f + 1 := ⟨fuel - 1, by omega⟩
  simp only [tokens, List.length_cons] at hfuel
  rw [Read.typeExpr, tokens]
  have harrow : (e.tokens ++ rest).head? ≠ some (.punct .arrow) := by
    obtain ⟨w, ws, htokens, hw⟩ := e.head_tokens
    rw [htokens]
    intro hhead
    rw [hw.arrow (Option.some.inj hhead)] at hrecv
    cases hrecv
  refine .start fun s => .peek (.take fun _ => .pass harrow (.bind (h _ _ hrest (by omega)) fun x hx =>
    .tagFrom fun _ => .pure ?_))
  rw [core, hx, readBack, afterChan_eq ((isRecv_readBack e).trans hrecv)]
  rfl

theorem Rereads.both_recv (h : Rereads (.chan t .both e)) :
    Rereads (.chan t .both (.chan u .recv e)) := by
  intro fuel rest hrest hfuel
  obtain ⟨fuel, rfl⟩ : ∃ f, fuel = f + 1 := ⟨fuel - 1, by omega⟩
  simp only [Rereads, tokens, List.length_cons] at h hfuel
  rw [Read.typeExpr, tokens, tokens]
  refine .start fun s => .peek (.take fun _ => .eat (.bind (h _ _ hrest (by omega)) fun x hx =>
    .tagFrom fun _ => .pure ?_))
  rw [core, hx]
  simp [readBack, afterChan]

end

/-! ## Functions -/

/-- Reading what stands behind the keyword of a function gives what it tells. -/
def RereadsSignature (sig : Signature) : Prop := ∀ (fuel : Nat) (rest : List Token),
  Read.Stops rest → 8 * (func default sig).tokens.length + 4 ≤ fuel →
    Takes ((func default sig).tokens.tail ++ rest) (Read.signature fuel) rest
      fun s => ∀ t, (func t s).core = (func default sig).readBack

theorem rereads_signature {u : Tag} {ps rs : List Field}
    (hps : ∀ f ∈ ps, f.type.Rereads ∧ f.label = none)
    (hrs : ∀ f ∈ rs, f.type.Rereads ∧ f.label = none) (hopen : Field.isOpen rs = false) :
    RereadsSignature ⟨u, ps, rs⟩ := by
  intro fuel rest hrest hfuel
  obtain ⟨fuel, rfl⟩ : ∃ f, fuel = f + 1 := ⟨fuel - 1, by omega⟩
  simp only [tokens, Token.signature, List.length_cons, List.length_append, Token.parens,
    List.length_nil] at hfuel
  rw [tokens, List.tail_cons, Token.signature, List.append_assoc, Read.signature, readBack]
  apply Takes.start
  intro s
  apply Takes.bind (takes_parameters hps (by omega))
  intro qs hqs
  apply Takes.peek
  extract_lets jp
  have hjp (ss : List Field) (hss : coreFields ss = Field.regroup [] (readBackFields rs)) :
      Takes rest (jp ss) rest fun s => ∀ t, (func t s).core = .func default
        ⟨default, Field.regroup [] (readBackFields ps), Field.regroup [] (readBackFields rs)⟩ := by
    apply Takes.tagFrom
    intro v
    apply Takes.pure
    intro t
    rw [core, hqs, hss]
  cases hlone : Field.isLone rs with
  | true =>
    -- a type stands here, and it does not start with a parenthesis
    obtain ⟨t, type, label, rfl⟩ := Field.eq_lone hlone hopen
    obtain ⟨htype, hlabel⟩ := hrs _ List.mem_cons_self
    cases hlabel
    replace htype : type.Rereads := htype
    have hrow : Token.listed (fieldRows [⟨t, [], type, false, none⟩]) = type.tokens :=
      List.append_nil _
    obtain ⟨w, ws, htokens, hw⟩ := type.head_tokens
    rw [hlone, if_pos rfl, hrow] at hfuel
    have hparen : ((type.tokens ++ rest).head? == some (.punct .lParen)) = false :=
      beq_eq_false_iff_ne.2 (type.head_ne rest (by decide))
    have hstart : Read.atTypeStart (type.tokens ++ rest).head? = true := by
      rw [htokens]
      exact hw.type
    rw [if_pos rfl, hrow, hparen, if_neg Bool.false_ne_true, if_pos hstart]
    apply Takes.bind (htype fuel rest hrest (by omega))
    intro x hx
    apply Takes.tagAt
    intro v
    rw [pure_bind]
    apply hjp
    have hlisted := @regroup_readBack [⟨t, [], type, false, none⟩] (List.forall_mem_singleton.2 rfl) rfl
    rw [hlisted, coreFields, readBackFields, hx]
    rfl
  | false =>
    rw [hlone, if_neg Bool.false_ne_true] at hfuel
    rw [if_neg Bool.false_ne_true]
    cases rs with
    | nil =>
      change Takes rest _ rest _
      rw [fieldRows, List.isEmpty_nil, if_pos rfl, List.nil_append, hrest.ne_paren,
        if_neg Bool.false_ne_true, hrest.atTypeStart, if_neg Bool.false_ne_true, pure_bind]
      exact hjp [] rfl
    | cons f fs =>
      have hempty : (fieldRows (f :: fs)).isEmpty = false := by
        rw [fieldRows_eq]
        rfl
      rw [hempty, if_neg Bool.false_ne_true] at hfuel ⊢
      simp only [List.length_cons, List.length_append, List.length_nil] at hfuel
      have hparen : ((Token.parens (Token.listed (fieldRows (f :: fs))) ++ rest).head? ==
          some (.punct .lParen)) = true := rfl
      rw [hparen, if_pos rfl]
      exact .bind (takes_parameters hrs (by omega)) hjp

theorem Rereads.func {t : Tag} {sig : Signature} (h : RereadsSignature sig) :
    Rereads (.func t sig) := by
  intro fuel rest hrest hfuel
  obtain ⟨u, ps, rs⟩ := sig
  obtain ⟨fuel, rfl⟩ : ∃ f, fuel = f + 1 := ⟨fuel - 1, by omega⟩
  have hsig := h fuel rest hrest
  simp only [tokens, List.tail_cons] at hsig hfuel ⊢
  rw [Read.typeExpr]
  refine .start fun s => .peek (.take fun _ => ?_)
  apply Takes.bind (hsig (by omega))
  intro x hx
  apply Takes.tagFrom
  intro v
  exact .pure (hx v)

/-! ## Structs and interfaces -/

/-- What stands behind a field: a semicolon, or the closing brace at once. -/
def EndsField (us vs : List Token) : Prop :=
  us = .punct .semi :: vs ∨ us = vs ∧ ∃ ws, vs = .punct .rBrace :: ws

theorem EndsField.head {us vs : List Token} (h : EndsField us vs) :
    ∃ p ws, us = .punct p :: ws ∧ (p = .semi ∨ p = .rBrace) := by
  rcases h with rfl | ⟨rfl, ws, rfl⟩
  · exact ⟨_, _, rfl, .inl rfl⟩
  · exact ⟨_, _, rfl, .inr rfl⟩

theorem EndsField.stops {us vs : List Token} (h : EndsField us vs) : Read.Stops us := by
  obtain ⟨p, ws, rfl, hp⟩ := h.head
  rcases hp with rfl | rfl
  · exact .punct (by decide) ws
  · exact .punct (by decide) ws

theorem EndsField.takes {β : Type} {us vs ws : List Token} {f : Unit → Read β} {post : β → Prop}
    (h : EndsField us vs) (k : Takes vs (f ()) ws post) :
    Takes us (Read.endStatement >>= f) ws post := by
  rcases h with rfl | ⟨rfl, ws, rfl⟩
  · exact .endStatement k
  · exact .endStatement_brace k

section

variable {f : Field} {us vs ws : List Token} {fuel : Nat} {post : List Field → Prop}

/-- What stands at the start of a field and behind it belongs to an embedded type. -/
def embeds (first second : Option Token) : Bool :=
  match first, second with
  | some (.ident _), some t =>
    t == .punct .dot || t == .punct .semi || t == .punct .rBrace || (Read.isText (some t)).isSome
  | _, _ => true

theorem embeds_type (t : TypeExpr) {label : Option String} (hend : EndsField us vs) :
    embeds (t.tokens ++ ((label.map Token.ofLabel).toList ++ us)).head?
      (t.tokens ++ ((label.map Token.ofLabel).toList ++ us))[1]? = true := by
  obtain ⟨w, ts, htokens, hw⟩ := t.head_tokens
  by_cases hname : ∃ k, w = .ident k
  · obtain ⟨k, hk⟩ := hname
    obtain ⟨x, pkg, m, rfl⟩ := hw.name k hk
    cases pkg with
    | some pkg =>
      rw [tokens]
      rfl
    | none =>
      rw [tokens]
      cases label with
      | some l =>
        change (_ || (Read.isText (some (Token.ofLabel l))).isSome) = true
        rw [Token.isText_ofLabel, Option.isSome_some, Bool.or_true]
      | none =>
        obtain ⟨p, ws, rfl, hp⟩ := hend.head
        rcases hp with rfl | rfl
        · rfl
        · rfl
  · rw [htokens, List.cons_append, List.head?_cons]
    unfold embeds
    split
    · rename_i k _ hk _
      exact absurd ⟨k, Option.some.inj hk⟩ hname
    · rfl

theorem embeds_names (n : String) (ns : List String) (t : TypeExpr) (rest : List Token) :
    embeds (nameTokens (n :: ns) ++ (t.tokens ++ rest)).head?
      (nameTokens (n :: ns) ++ (t.tokens ++ rest))[1]? = false := by
  cases ns with
  | nil =>
    obtain ⟨w, ts, htokens, hw⟩ := t.head_tokens
    have hne {p : Punct} (hp : p ∈ [.dot, .semi, .rBrace]) : (w == .punct p) = false := by
      have hhead := t.head_ne rest (p := p) (by
        simp only [List.mem_cons, List.not_mem_nil, or_false] at hp
        rcases hp with rfl | rfl | rfl <;> decide)
      rw [htokens] at hhead
      exact beq_eq_false_iff_ne.2 fun h => hhead (congrArg some h)
    have htext : Read.isText (some w) = none := by
      have htype := hw.type
      unfold Read.isText
      split
      · rename_i s hs
        cases hs
        cases htype
      · rename_i s hs
        cases hs
        cases htype
      · rfl
    rw [nameTokens, htokens]
    change (w == .punct .dot || w == .punct .semi || w == .punct .rBrace ||
      (Read.isText (some w)).isSome) = false
    rw [hne (by decide), hne (by decide), hne (by decide), htext]
    rfl
  | cons m ns => rfl

theorem EndsField.isText (h : EndsField us vs) (label : Option String) :
    Read.isText ((label.map Token.ofLabel).toList ++ us).head? = label := by
  cases label with
  | none =>
    obtain ⟨p, ws, rfl, -⟩ := h.head
    rfl
  | some l => exact Token.isText_ofLabel l

theorem EndsField.stops_label (h : EndsField us vs) (label : Option String) :
    Read.Stops ((label.map Token.ofLabel).toList ++ us) := by
  cases label with
  | none => exact h.stops
  | some l => exact .label l us

/-- Names that spell the same and types that tell the same make fields that do. -/
theorem core_eq_readBack {t : Tag} {ns ms : List Name} {type x : TypeExpr} {label : Option String}
    (hms : ms.map Name.text = ns.map Name.text) (hx : x.core = type.readBack) (s : Tag) :
    (Field.mk s ms x false label).core = (Field.mk t ns type false label).readBack := by
  have hstrip := congrArg (List.map fun n => (⟨default, n⟩ : Name)) hms
  rw [List.map_map, List.map_map] at hstrip
  rw [Field.core, Field.readBack, Field.stripped, Field.stripped, hx]
  exact congrArg (Field.mk default · type.readBack false label) hstrip

theorem tokens_ne_brace (t : TypeExpr) (rest : List Token) :
    ((t.tokens ++ rest).head?.isNone || (t.tokens ++ rest).head? == some (.punct .rBrace)) =
      false := by
  have hne := beq_eq_false_iff_ne.2 (t.head_ne rest (p := .rBrace) (by decide))
  obtain ⟨w, ts, htokens, -⟩ := t.head_tokens
  rw [hne, htokens]
  rfl

theorem row_ne_brace (hf : f.IsMember) (rest : List Token) :
    ((f.row ++ rest).head?.isNone || (f.row ++ rest).head? == some (.punct .rBrace)) = false := by
  obtain ⟨t, ns, type, v, label⟩ := f
  obtain ⟨-, -, rfl⟩ := hf
  cases ns with
  | nil =>
    have hrow : Field.row ⟨t, [], type, false, label⟩ ++ rest =
        type.tokens ++ ((label.map Token.ofLabel).toList ++ rest) := by
      rw [← List.append_assoc]
      rfl
    rw [hrow]
    exact type.tokens_ne_brace _
  | cons n ns => cases ns <;> rfl

theorem methodRow_ne_brace (hf : f.IsMethod) (rest : List Token) :
    ((f.methodRow ++ rest).head?.isNone ||
      (f.methodRow ++ rest).head? == some (.punct .rBrace)) = false := by
  obtain ⟨t, ns, type, v, label⟩ := f
  obtain ⟨-, -, rfl | ⟨n, u, sig, rfl, -⟩⟩ := hf
  · exact type.tokens_ne_brace rest
  · rfl

theorem takes_member (ht : f.type.Rereads) (hf : f.IsMember) (hend : EndsField us vs)
    (hfuel : 8 * f.row.length + 5 ≤ fuel) {Q : List Field → Prop}
    (hrest : Takes vs (Read.structFields fuel) ws Q)
    (hpost : ∀ g gs, g.core = f.readBack → Q gs → post (g :: gs)) :
    Takes (f.row ++ us) (Read.structFields (fuel + 1)) ws post := by
  obtain ⟨t, ns, type, v, label⟩ := f
  obtain ⟨hnames, hlabel, rfl⟩ := hf
  replace ht : type.Rereads := ht
  have hrow : Field.row ⟨t, ns, type, false, label⟩ ++ us = nameTokens (ns.map Name.text) ++
      (type.tokens ++ ((label.map Token.ofLabel).toList ++ us)) := by
    simp [Field.row]
  have hlength : 8 * (nameTokens (ns.map Name.text)).length + 8 * type.tokens.length + 5 ≤ fuel := by
    simp only [Field.row, List.length_append] at hfuel
    omega
  rw [Read.structFields]
  apply Takes.peek
  rw [row_ne_brace ⟨hnames, hlabel, rfl⟩, if_neg Bool.false_ne_true, hrow]
  apply Takes.start
  intro s
  apply Takes.peekSecond
  extract_lets embedded jp
  -- whether names were read or none, what is left is the type, its label and the end of the field
  have hjp (ms : List Name) (hms : ms.map Name.text = ns.map Name.text) :
      Takes (type.tokens ++ ((label.map Token.ofLabel).toList ++ us)) (jp ms) ws post := by
    apply Takes.bind (ht fuel _ (hend.stops_label label) (by omega))
    intro x hx
    apply Takes.peek
    extract_lets read jp'
    have hread : read = label := hend.isText label
    have hlast : Takes us (jp' ()) ws post := by
      apply Takes.tagFrom
      intro v
      apply hend.takes
      apply Takes.bind hrest
      intro gs hgs
      apply Takes.pure
      rw [hread]
      exact hpost _ _ (core_eq_readBack hms hx _) hgs
    rw [hread]
    cases label with
    | none => exact hlast
    | some l => exact .take fun _ => hlast
  cases ns with
  | nil =>
    have hembedded : embedded = true := embeds_type type hend
    rw [hembedded, if_pos rfl, pure_bind]
    exact hjp [] rfl
  | cons n ns =>
    have hembedded : embedded = false := embeds_names n.text (ns.map Name.text) type _
    rw [hembedded, if_neg Bool.false_ne_true]
    have hnames : (n :: ns).map Name.text ≠ [] := List.cons_ne_nil _ _
    have hle := Takes.length_le_nameTokens ((n :: ns).map Name.text)
    exact .bind (.names hnames (by omega) (type.head_ne _ (by decide))) hjp

/-- Behind the name that starts a type, and ends a field, there is no parenthesis. -/
theorem name_ne_paren (t : TypeExpr) (hend : EndsField us vs) {k : String}
    (hk : (t.tokens ++ us).head? = some (.ident k)) : (t.tokens ++ us)[1]? ≠ some (.punct .lParen) := by
  obtain ⟨w, ts, htokens, hw⟩ := t.head_tokens
  rw [htokens] at hk
  obtain ⟨x, pkg, m, rfl⟩ := hw.name k (Option.some.inj hk)
  obtain ⟨p, rest, rfl, hp⟩ := hend.head
  cases pkg with
  | some pkg =>
    rw [tokens]
    simp
  | none =>
    rw [tokens]
    rcases hp with rfl | rfl
    · simp
    · simp

/-- Nothing of the tokens of a function but the keyword is left out by its signature. -/
theorem tokens_func (t : Tag) (sig : Signature) : (func t sig).tokens = (func default sig).tokens := by
  cases sig
  rw [tokens, tokens]

theorem readBack_func (t : Tag) (sig : Signature) :
    (func t sig).readBack = (func default sig).readBack := by
  cases sig
  rw [readBack, readBack]

theorem tail_tokens_func (sig : Signature) :
    ∃ ts, (func default sig).tokens.tail = .punct .lParen :: ts := by
  cases sig
  rw [tokens]
  exact ⟨_, rfl⟩

theorem takes_method (ht : f.type.Rereads) (hf : f.IsMethod)
    (hsig : ∀ t sig, f.type = .func t sig → RereadsSignature sig) (hend : EndsField us vs)
    (hfuel : 8 * f.methodRow.length + 5 ≤ fuel) {Q : List Field → Prop}
    (hrest : Takes vs (Read.interfaceMethods fuel) ws Q)
    (hpost : ∀ g gs, g.core = f.readBack → Q gs → post (g :: gs)) :
    Takes (f.methodRow ++ us) (Read.interfaceMethods (fuel + 1)) ws post := by
  have hbrace := methodRow_ne_brace hf us
  obtain ⟨t, ns, type, v, label⟩ := f
  obtain ⟨rfl, rfl, hmethod⟩ := hf
  replace ht : type.Rereads := ht
  rw [Read.interfaceMethods]
  apply Takes.peek
  rw [hbrace, if_neg Bool.false_ne_true]
  apply Takes.start
  intro s
  apply Takes.peekSecond
  extract_lets jp
  have hjp (ms : List Name) (x : TypeExpr) (hms : ms.map Name.text = ns.map Name.text)
      (hx : x.core = type.readBack) : Takes us (jp (ms, x)) ws post := by
    apply Takes.tagFrom
    intro v
    apply hend.takes
    apply Takes.bind hrest
    intro gs hgs
    apply Takes.pure
    exact hpost _ _ (core_eq_readBack hms hx _) hgs
  rcases hmethod with rfl | ⟨n, u, sig, rfl, -, rfl⟩
  · -- an embedded type
    have hrow : Field.methodRow ⟨t, [], type, false, none⟩ = type.tokens := rfl
    rw [hrow] at hfuel ⊢
    split
    · rename_i k hk hparen
      exact absurd hparen (type.name_ne_paren hend hk)
    · apply Takes.bind (ht fuel us hend.stops (by omega))
      intro x hx
      rw [pure_bind]
      exact hjp [] x rfl hx
  · have hrow : Field.methodRow ⟨t, [n], .func u sig, false, none⟩ =
        .ident n.text :: (func default sig).tokens.tail := by
      rw [Field.methodRow, ← tokens_func u]
    rw [hrow, List.length_cons, List.length_tail] at hfuel
    have hread := hsig u sig rfl fuel us hend.stops (by omega)
    obtain ⟨ts, hts⟩ := tail_tokens_func sig
    rw [hrow]
    rw [hts] at hread ⊢
    apply Takes.name
    intro m hm
    apply Takes.start
    intro r
    apply Takes.bind hread
    intro x hx
    apply Takes.tagFrom
    intro v
    rw [pure_bind]
    exact hjp [m] _ (by rw [List.map_cons, List.map_nil, hm]; rfl)
      ((hx v).trans (readBack_func u sig).symm)

/-- A reader of fields up to a brace that reads each of them reads all. -/
theorem takes_body {row : Field → List Token} {reader : Nat → Read (List Field)} {fs : List Field}
    {oneLine : Bool} (hone : oneLine = true → fs.length ≤ 1) {rest : List Token}
    (hclose : ∀ fuel, Takes (.punct .rBrace :: rest) (reader (fuel + 1)) rest (· = []))
    (hrow : ∀ f ∈ fs, 0 < (row f).length)
    (hread : ∀ f ∈ fs, ∀ us vs fuel Q post, EndsField us vs → 8 * (row f).length + 5 ≤ fuel →
      Takes vs (reader fuel) rest Q → (∀ g gs, g.core = f.readBack → Q gs → post (g :: gs)) →
        Takes (row f ++ us) (reader (fuel + 1)) rest post)
    (hfuel : 8 * (Token.body oneLine (fs.map row)).length + 6 ≤ fuel) :
    Takes (Token.body oneLine (fs.map row) ++ .punct .rBrace :: rest) (reader fuel) rest
      fun gs => coreFields gs = readBackFields fs := by
  simp only [coreFields_eq, readBackFields_eq]
  induction fs generalizing fuel with
  | nil =>
    obtain ⟨fuel, rfl⟩ : ∃ k, fuel = k + 1 := ⟨fuel - 1, by omega⟩
    intro c hc
    obtain ⟨gs, c', hgs, hsuffix, hahead, rfl⟩ := hclose fuel c hc
    exact ⟨[], c', hgs, hsuffix, hahead, rfl⟩
  | cons f fs ih =>
    obtain ⟨hpos, hrow⟩ := List.forall_mem_cons.1 hrow
    obtain ⟨hf, hfs⟩ := List.forall_mem_cons.1 hread
    obtain ⟨fuel, rfl⟩ : ∃ k, fuel = k + 1 := ⟨fuel - 1, by omega⟩
    have hbody : Token.body oneLine ((f :: fs).map row) =
        row f ++ ((if oneLine then [] else [.punct .semi]) ++ Token.body oneLine (fs.map row)) :=
      Token.body_cons oneLine (row f) (fs.map row)
    rw [hbody] at hfuel ⊢
    simp only [List.length_append] at hfuel
    rw [List.append_assoc, List.append_assoc]
    apply hf _ (Token.body oneLine (fs.map row) ++ .punct .rBrace :: rest) fuel
      (fun gs => gs.map Field.core = fs.map Field.readBack)
    · cases oneLine with
      | false => exact .inl rfl
      | true =>
        have hnil : fs = [] := by simpa using hone rfl
        subst hnil
        exact .inr ⟨rfl, rest, rfl⟩
    · omega
    · apply ih _ hrow hfs (by omega)
      intro h
      have hle := hone h
      rw [List.length_cons] at hle
      omega
    · intro g gs hg hgs
      rw [List.map_cons, List.map_cons, hg, hgs]

theorem takes_structFields {fs : List Field} (hfs : ∀ f ∈ fs, f.type.Rereads ∧ f.IsMember)
    {oneLine : Bool} (hone : oneLine = true → fs.length ≤ 1) {rest : List Token}
    (hfuel : 8 * (Token.body oneLine (fieldRows fs)).length + 6 ≤ fuel) :
    Takes (Token.body oneLine (fieldRows fs) ++ .punct .rBrace :: rest) (Read.structFields fuel) rest
      fun gs => coreFields gs = readBackFields fs := by
  rw [fieldRows_eq] at hfuel ⊢
  refine takes_body hone (fun fuel => ?_) (fun f _ => f.length_pos_row) ?_ hfuel
  · rw [Read.structFields]
    apply Takes.peek
    exact .expect (.pure rfl)
  · intro f hf us vs fuel Q post hend hle hrest hpost
    exact takes_member (hfs f hf).1 (hfs f hf).2 hend hle hrest hpost

theorem takes_interfaceMethods {fs : List Field} (hfs : ∀ f ∈ fs, f.type.Rereads ∧ f.IsMethod)
    (hsig : ∀ f ∈ fs, ∀ t sig, f.type = .func t sig → RereadsSignature sig)
    {oneLine : Bool} (hone : oneLine = true → fs.length ≤ 1) {rest : List Token}
    (hfuel : 8 * (Token.body oneLine (methodRows fs)).length + 6 ≤ fuel) :
    Takes (Token.body oneLine (methodRows fs) ++ .punct .rBrace :: rest) (Read.interfaceMethods fuel) rest
      fun gs => coreFields gs = readBackFields fs := by
  rw [methodRows_eq] at hfuel ⊢
  refine takes_body hone (fun fuel => ?_) (fun f _ => f.length_pos_methodRow) ?_ hfuel
  · rw [Read.interfaceMethods]
    apply Takes.peek
    exact .expect (.pure rfl)
  · intro f hf us vs fuel Q post hend hle hrest hpost
    exact takes_method (hfs f hf).1 (hfs f hf).2 (hsig f hf) hend hle hrest hpost

end

section

variable {t : Tag} {fs : List Field}

theorem length_le_one {span : Span} (h : Field.onOneLine span fs = true) : fs.length ≤ 1 := by
  unfold Field.onOneLine Draw.fieldsFitOneLine at h
  rw [Bool.and_eq_true] at h
  obtain ⟨-, h⟩ := h
  split at h
  · exact Nat.zero_le 1
  · exact Nat.le_refl 1
  · cases h

theorem Rereads.struct (hfs : ∀ f ∈ fs, f.type.Rereads ∧ f.IsMember) : Rereads (.struct t fs) := by
  intro fuel rest hrest hfuel
  obtain ⟨fuel, rfl⟩ : ∃ f, fuel = f + 1 := ⟨fuel - 1, by omega⟩
  rw [tokens, List.length_cons, Token.length_block] at hfuel
  rw [tokens, List.cons_append, Token.block_append, Read.typeExpr]
  refine .start fun s => .peek (.take fun _ => .expect ?_)
  apply Takes.bind (takes_structFields hfs length_le_one (by omega))
  intro gs hgs
  apply Takes.tagFrom
  intro v
  apply Takes.pure
  rw [core, hgs, readBack]

theorem Rereads.interface (hfs : ∀ f ∈ fs, f.type.Rereads ∧ f.IsMethod)
    (hsig : ∀ f ∈ fs, ∀ t sig, f.type = .func t sig → RereadsSignature sig) :
    Rereads (.interface t fs) := by
  intro fuel rest hrest hfuel
  obtain ⟨fuel, rfl⟩ : ∃ f, fuel = f + 1 := ⟨fuel - 1, by omega⟩
  rw [tokens, List.length_cons, Token.length_block] at hfuel
  rw [tokens, List.cons_append, Token.block_append, Read.typeExpr]
  refine .start fun s => .peek (.take fun _ => .expect ?_)
  apply Takes.bind (takes_interfaceMethods hfs hsig length_le_one (by omega))
  intro gs hgs
  apply Takes.tagFrom
  intro v
  apply Takes.pure
  rw [core, hgs, readBack]

end

/-- What is read of a type: by itself, behind `chan`, whose arrow its tokens can give, and behind the
name of a method. -/
structure Retold (t : TypeExpr) : Prop where
  alone : Rereads t
  behindChan : ∀ u, Rereads (.chan u .both t)
  behindName : ∀ u sig, t = .func u sig → RereadsSignature sig

theorem Retold.of_rereads {t : TypeExpr} (h : Rereads t) (hrecv : t.isRecv = false)
    (hfunc : ∀ u sig, t ≠ .func u sig) : Retold t :=
  ⟨h, fun _ => .both hrecv h, fun u sig heq => absurd heq (hfunc u sig)⟩

theorem Shaped.retold {t : TypeExpr} (h : t.Shaped) : Retold t := by
  induction h with
  | named => exact .of_rereads .named rfl (by simp)
  | pointer _ ih => exact .of_rereads ih.alone.pointer rfl (by simp)
  | slice _ ih => exact .of_rereads ih.alone.slice rfl (by simp)
  | array hlen _ ih => exact .of_rereads (.array hlen ih.alone) rfl (by simp)
  | map _ _ ihk ihv => exact .of_rereads (.map ihk.alone ihv.alone) rfl (by simp)
  | @chan t dir e _ ih =>
    cases dir with
    | both => exact .of_rereads (ih.behindChan t) rfl (by simp)
    | send => exact .of_rereads ih.alone.send rfl (by simp)
    | recv => exact ⟨ih.alone.recv, fun u => (ih.behindChan u).both_recv, by simp⟩
  | @func t u ps rs _ _ hparams hresults hopen ihps ihrs =>
    have hsig : RereadsSignature ⟨u, ps, rs⟩ := rereads_signature
      (fun f hf => ⟨(ihps f hf).alone, (hparams f hf).label⟩)
      (fun f hf => ⟨(ihrs f hf).alone, (hresults f hf).label⟩) hopen
    refine ⟨.func hsig, fun v => .both rfl (.func hsig), ?_⟩
    rintro _ _ ⟨⟩
    exact hsig
  | struct _ hmembers ih =>
    exact .of_rereads (.struct fun f hf => ⟨(ih f hf).alone, hmembers f hf⟩) rfl (by simp)
  | interface _ hmethods ih =>
    exact .of_rereads (.interface (fun f hf => ⟨(ih f hf).alone, hmethods f hf⟩)
      fun f hf => (ih f hf).behindName) rfl (by simp)

end TypeExpr

end FuncLift
