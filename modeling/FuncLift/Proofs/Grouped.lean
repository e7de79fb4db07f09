import FuncLift.Proofs.Plain

/-!
# The shape of types

Plain types are read with the shape of the grammar: names are names, labels are strings, and what is
read in a list of parameters has no label. The entries of such a list are read one by one and then put
together to fields, so their shape is told first of the entries.
-/
namespace FuncLift

namespace TypeExpr

theorem arePlain_iff {fs : List Field} :
    arePlain fs = true ↔ ∀ f ∈ fs, f.type.isPlain = true := by
  induction fs with
  | nil => exact iff_of_true rfl (List.forall_mem_nil _)
  | cons f fs ih =>
    obtain ⟨t, ns, type, v, l⟩ := f
    rw [arePlain, Bool.and_eq_true, ih, List.forall_mem_cons]

end TypeExpr

namespace Param

def isPlain : Param → Bool
  | .bare .. => true
  | .typed _ t _ _ => t.isPlain

def Shaped : Param → Prop
  | .bare n _ => Token.IsName n.text
  | .typed n t _ _ => (∀ m ∈ n, Token.IsName m.text) ∧ t.Shaped

end Param

/-- A parameter of the grammar. -/
structure Field.ShapedParam (f : Field) : Prop where
  type : f.type.Shaped
  param : f.IsParam

namespace Read

theorem tagged_ok {α β : Type} {r : Read α} {s : Nat} {build : Tag → α → β} {c c' : Cursor} {b : β}
    (h : (do
      let a ← r
      return build (← tagFrom s) a : Read β) c = .ok (b, c')) :
    ∃ a tag c1, r c = .ok (a, c1) ∧ b = build tag a ∧ (c1.Named → c'.Named) := by
  obtain ⟨a, c1, ha, h⟩ := bind_ok.1 h
  obtain ⟨tag, c2, htag, h⟩ := bind_ok.1 h
  obtain ⟨rfl, rfl⟩ := pure_ok.1 h
  exact ⟨a, tag, c1, ha, rfl, fun h1 => (Consumes.tagFrom _).named h1 htag⟩

theorem label_legible {next : Option Token} {c : Cursor} (hc : c.Named) (h : Facing next c) :
    ∀ l ∈ isText next, (Token.ofLabel l).Legible := by
  intro l hl
  rw [← h] at hl
  cases hahead : c.ahead with
  | nil =>
    rw [hahead] at hl
    cases hl
  | cons p ps =>
    rw [hahead] at hl
    exact (hc p (by simp [hahead]) l).2 hl

theorem names_named {fuel : Nat} {c c' : Cursor} {ns : List Name} (hc : c.Named)
    (h : Read.names fuel c = .ok (ns, c')) :
    ns ≠ [] ∧ (∀ n ∈ ns.map Name.text, Token.IsName n) ∧ c'.Named := by
  induction fuel generalizing c ns with
  | zero => exact absurd h exhausted_not_ok
  | succ fuel ih =>
    rw [Read.names] at h
    obtain ⟨n, c1, hn, h⟩ := bind_ok.1 h
    obtain ⟨hname, h1⟩ := name_named hc hn
    obtain ⟨comma, c2, hcomma, h⟩ := bind_ok.1 h
    have h2 := (Consumes.eat _).named h1 hcomma
    split at h
    · obtain ⟨ms, c3, hms, h⟩ := bind_ok.1 h
      obtain ⟨rfl, rfl⟩ := pure_ok.1 h
      obtain ⟨-, hnames, h3⟩ := ih h2 hms
      exact ⟨List.cons_ne_nil _ _, List.forall_mem_cons.2 ⟨hname, hnames⟩, h3⟩
    · obtain ⟨rfl, rfl⟩ := pure_ok.1 h
      exact ⟨List.cons_ne_nil _ _, by simpa using hname, h2⟩

/-! ## From entries to fields -/

theorem fieldsOfTypes_ok {ns : List Name} {c c' : Cursor} {fs : List Field}
    (h : Read.fieldsOfTypes ns c = .ok (fs, c')) :
    c'.ahead = c.ahead ∧ ((∀ n ∈ ns, Token.IsName n.text) → ∀ f ∈ fs, f.ShapedParam) := by
  induction ns generalizing c fs with
  | nil =>
    cases h
    exact ⟨rfl, fun _ => List.forall_mem_nil _⟩
  | cons n ns ih =>
    rw [Read.fieldsOfTypes] at h
    obtain ⟨t, c1, ht, h⟩ := bind_ok.1 h
    obtain ⟨u, c2, hu, h⟩ := bind_ok.1 h
    obtain ⟨rest, c3, hrest, h⟩ := bind_ok.1 h
    obtain ⟨rfl, rfl⟩ := pure_ok.1 h
    cases ht
    cases hu
    obtain ⟨hahead, hshaped⟩ := ih hrest
    refine ⟨hahead, fun hnames => ?_⟩
    obtain ⟨hn, hns⟩ := List.forall_mem_cons.1 hnames
    have htype : (TypeExpr.named ⟨c.nextId, n.tag.span⟩ none n.text).Shaped :=
      .named (by rintro _ ⟨⟩) hn
    exact List.forall_mem_cons.2 ⟨⟨htype, List.forall_mem_nil _, rfl⟩, hshaped hns⟩

theorem group_ok {pending : List Name} {first : Option Nat} {ps : List Param} {c c' : Cursor}
    {fs : List Field} (h : Read.group pending first ps c = .ok (fs, c'))
    (hplain : ∀ f ∈ fs, f.type.isPlain = true) :
    (∀ p ∈ ps, p.isPlain = true) ∧ c'.ahead = c.ahead ∧
      ((∀ n ∈ pending, Token.IsName n.text) → (∀ p ∈ ps, p.Shaped) → ∀ f ∈ fs, f.ShapedParam) := by
  induction ps generalizing pending first c fs with
  | nil =>
    obtain ⟨hahead, hshaped⟩ := fieldsOfTypes_ok h
    exact ⟨List.forall_mem_nil _, hahead, fun hpending _ => hshaped hpending⟩
  | cons p ps ih =>
    cases p with
    | bare n span =>
      obtain ⟨hps, hahead, hshaped⟩ := ih h hplain
      refine ⟨List.forall_mem_cons.2 ⟨rfl, hps⟩, hahead, fun hpending hall => ?_⟩
      obtain ⟨hn, hall⟩ := List.forall_mem_cons.1 hall
      apply hshaped _ hall
      intro m hm
      rcases List.mem_append.1 hm with hm | hm
      · exact hpending m hm
      · rwa [List.mem_singleton.1 hm]
    | typed n type variadic span =>
      cases n with
      | some n =>
        rw [Read.group] at h
        obtain ⟨t, c1, ht, h⟩ := bind_ok.1 h
        obtain ⟨rest, c2, hrest, h⟩ := bind_ok.1 h
        obtain ⟨rfl, rfl⟩ := pure_ok.1 h
        cases ht
        obtain ⟨htype, hplain⟩ := List.forall_mem_cons.1 hplain
        obtain ⟨hps, hahead, hshaped⟩ := ih hrest hplain
        refine ⟨List.forall_mem_cons.2 ⟨htype, hps⟩, hahead, fun hpending hall => ?_⟩
        obtain ⟨⟨hname, htype⟩, hall⟩ := List.forall_mem_cons.1 hall
        refine List.forall_mem_cons.2 ⟨⟨htype, ?_, rfl⟩, hshaped (List.forall_mem_nil _) hall⟩
        intro m hm
        rw [List.map_append, List.mem_append] at hm
        rcases hm with hm | hm
        · obtain ⟨k, hk, rfl⟩ := List.mem_map.1 hm
          exact hpending k hk
        · rw [List.mem_singleton.1 hm]
          exact hname n rfl
      | none =>
        rw [Read.group] at h
        obtain ⟨before, c1, hbefore, h⟩ := bind_ok.1 h
        obtain ⟨t, c2, ht, h⟩ := bind_ok.1 h
        obtain ⟨rest, c3, hrest, h⟩ := bind_ok.1 h
        obtain ⟨rfl, rfl⟩ := pure_ok.1 h
        cases ht
        obtain ⟨hbefores, hplain⟩ := List.forall_mem_append.1 hplain
        obtain ⟨htype, hplain⟩ := List.forall_mem_cons.1 hplain
        obtain ⟨hfront, hfronts⟩ := fieldsOfTypes_ok hbefore
        obtain ⟨hps, hahead, hshaped⟩ := ih hrest hplain
        refine ⟨List.forall_mem_cons.2 ⟨htype, hps⟩, hahead.trans hfront, fun hpending hall => ?_⟩
        obtain ⟨⟨-, htype⟩, hall⟩ := List.forall_mem_cons.1 hall
        refine List.forall_mem_append.2 ⟨hfronts hpending, ?_⟩
        exact List.forall_mem_cons.2 ⟨⟨htype, List.forall_mem_nil _, rfl⟩,
          hshaped (List.forall_mem_nil _) hall⟩

end Read

/-! ## The productions -/

namespace Read

theorem either_ok {α : Type} {p : Prop} [Decidable p] {r r' : Read α} {c : Cursor} {x : α × Cursor}
    (h : (if p then r else r') c = .ok x) : r c = .ok x ∨ r' c = .ok x := by
  split at h
  · exact .inl h
  · exact .inr h

/-- Plain types that are read with a budget have the shape of the grammar, and behind them the names
ahead are still names. -/
structure GivesTypes (fuel : Nat) : Prop where
  typeExpr : ∀ {c t c'}, c.Named → Read.typeExpr fuel c = .ok (t, c') → t.isPlain = true →
    t.Shaped ∧ c'.Named
  signature : ∀ {c sig c'}, c.Named → Read.signature fuel c = .ok (sig, c') → ∀ t,
    (TypeExpr.func t sig).isPlain = true → (TypeExpr.func t sig).Shaped ∧ c'.Named
  parameters : ∀ {c fs c'}, c.Named → Read.parameters fuel c = .ok (fs, c') →
    (∀ f ∈ fs, f.type.isPlain = true) → (∀ f ∈ fs, f.ShapedParam) ∧ c'.Named
  params : ∀ {c ps c'}, c.Named → Read.params fuel c = .ok (ps, c') →
    (∀ p ∈ ps, p.isPlain = true) → (∀ p ∈ ps, p.Shaped) ∧ c'.Named
  param : ∀ {c p c'}, c.Named → Read.param fuel c = .ok (p, c') → p.isPlain = true →
    p.Shaped ∧ c'.Named
  structFields : ∀ {c fs c'}, c.Named → Read.structFields fuel c = .ok (fs, c') →
    (∀ f ∈ fs, f.type.isPlain = true) → (∀ f ∈ fs, f.type.Shaped ∧ f.IsMember) ∧ c'.Named
  interfaceMethods : ∀ {c fs c'}, c.Named → Read.interfaceMethods fuel c = .ok (fs, c') →
    (∀ f ∈ fs, f.type.isPlain = true) → (∀ f ∈ fs, f.type.Shaped ∧ f.IsMethod) ∧ c'.Named

section Step

variable {fuel : Nat} {c c' : Cursor}

/-- A name, with or without a package. -/
theorem named_shaped {t : TypeExpr} {s : Nat} (hc : c.Named) (hr : (do
      let n ← name
      if ← eatPunct .dot then
        let sel ← name
        return .named (← tagFrom s) (some n.text) sel.text
      else
        return .named (← tagFrom s) none n.text : Read TypeExpr) c = .ok (t, c')) :
    t.Shaped ∧ c'.Named := by
  obtain ⟨n, c1, hn, hr⟩ := bind_ok.1 hr
  obtain ⟨hname, h1⟩ := name_named hc hn
  obtain ⟨dot, c2, hdot, hr⟩ := bind_ok.1 hr
  have h2 := (Consumes.eat _).named h1 hdot
  split at hr
  · obtain ⟨sel, c3, hsel, hr⟩ := bind_ok.1 hr
    obtain ⟨tag, c4, htag, hr⟩ := bind_ok.1 hr
    obtain ⟨rfl, rfl⟩ := pure_ok.1 hr
    obtain ⟨hsel, h3⟩ := name_named h2 hsel
    exact ⟨.named (by simpa using hname) hsel, (Consumes.tagFrom _).named h3 htag⟩
  · obtain ⟨tag, c3, htag, hr⟩ := bind_ok.1 hr
    obtain ⟨rfl, rfl⟩ := pure_ok.1 hr
    exact ⟨.named (by rintro _ ⟨⟩) hname, (Consumes.tagFrom _).named h2 htag⟩

/-- Behind its bracket a slice, an array that counts its elements, or one with a length. -/
theorem GivesTypes.bracket (ih : GivesTypes fuel) {t : TypeExpr} {s : Nat} (hc : c.Named)
    (hr : (do
      if ← eatPunct .rBrack then
        let elem ← Read.typeExpr fuel
        return .slice (← tagFrom s) elem
      else if ← eatPunct .ellipsis then
        expectPunct .rBrack
        let elem ← Read.typeExpr fuel
        return .array (← tagFrom s) none elem
      else
        let len ← withLiterals true (expr fuel)
        expectPunct .rBrack
        let elem ← Read.typeExpr fuel
        return .array (← tagFrom s) (some len) elem : Read TypeExpr) c = .ok (t, c'))
    (ht : t.isPlain = true) : t.Shaped ∧ c'.Named := by
  obtain ⟨close, c1, hclose, hr⟩ := bind_ok.1 hr
  have h1 := (Consumes.eat _).named hc hclose
  split at hr
  · obtain ⟨e, tag, c2, he, rfl, hlast⟩ := tagged_ok hr
    obtain ⟨he, h2⟩ := ih.typeExpr h1 he ht
    exact ⟨.slice he, hlast h2⟩
  · obtain ⟨dots, c2, hdots, hr⟩ := bind_ok.1 hr
    have h2 := (Consumes.eat _).named h1 hdots
    split at hr
    · obtain ⟨_, c3, hclose, hr⟩ := bind_ok.1 hr
      obtain ⟨e, tag, c4, he, rfl, hlast⟩ := tagged_ok hr
      obtain ⟨he, h4⟩ := ih.typeExpr ((Consumes.expect _).named h2 hclose) he ht
      exact ⟨.array (by rintro _ ⟨⟩) he, hlast h4⟩
    · obtain ⟨len, c3, hlen, hr⟩ := bind_ok.1 hr
      obtain ⟨_, c4, hclose, hr⟩ := bind_ok.1 hr
      obtain ⟨e, tag, c5, he, rfl, hlast⟩ := tagged_ok hr
      rw [TypeExpr.isPlain, Bool.and_eq_true] at ht
      -- the length is read with literals allowed, from a cursor that differs in nothing else
      obtain ⟨d, d', hd, hlen, hd'⟩ := withLiterals_ok hlen
      obtain ⟨hlen, h3⟩ := (givesShape fuel).expr d len d' (by rwa [Cursor.Named, hd]) hlen ht.1
      have h3 : c3.Named := by rwa [Cursor.Named, hd']
      obtain ⟨he, h5⟩ := ih.typeExpr ((Consumes.expect _).named h3 hclose) he ht.2
      exact ⟨.array (by simpa using hlen) he, hlast h5⟩

/-- Plain types are read with the shape of the grammar; parentheses around a type are dropped. -/
theorem GivesTypes.typeExpr_succ (ih : GivesTypes fuel) {t : TypeExpr} (hc : c.Named)
    (hr : Read.typeExpr (fuel + 1) c = .ok (t, c')) (ht : t.isPlain = true) :
    t.Shaped ∧ c'.Named := by
  rw [Read.typeExpr] at hr
  obtain ⟨s, c1, hs, hr⟩ := bind_ok.1 hr
  cases hs
  obtain ⟨next, c1, hnext, hr⟩ := bind_ok.1 hr
  obtain ⟨hfacing, rfl⟩ := peek_ok.1 hnext
  split at hr
  · exact named_shaped hc hr
  · obtain ⟨p, c1, htake, hr⟩ := bind_ok.1 hr
    obtain ⟨e, tag, c2, he, rfl, hlast⟩ := tagged_ok hr
    obtain ⟨he, h2⟩ := ih.typeExpr (Consumes.take.named hc htake) he ht
    exact ⟨.pointer he, hlast h2⟩
  · obtain ⟨p, c1, htake, hr⟩ := bind_ok.1 hr
    exact ih.bracket (Consumes.take.named hc htake) hr ht
  · obtain ⟨p, c1, htake, hr⟩ := bind_ok.1 hr
    obtain ⟨_, c2, hopen, hr⟩ := bind_ok.1 hr
    obtain ⟨k, c3, hk, hr⟩ := bind_ok.1 hr
    obtain ⟨_, c4, hclose, hr⟩ := bind_ok.1 hr
    obtain ⟨v, tag, c5, hv, rfl, hlast⟩ := tagged_ok hr
    rw [TypeExpr.isPlain, Bool.and_eq_true] at ht
    have h2 := (Consumes.expect _).named (Consumes.take.named hc htake) hopen
    obtain ⟨hk, h3⟩ := ih.typeExpr h2 hk ht.1
    obtain ⟨hv, h5⟩ := ih.typeExpr ((Consumes.expect _).named h3 hclose) hv ht.2
    exact ⟨.map hk hv, hlast h5⟩
  · obtain ⟨p, c1, htake, hr⟩ := bind_ok.1 hr
    obtain ⟨arrow, c2, harrow, hr⟩ := bind_ok.1 hr
    obtain ⟨e, tag, c3, he, rfl, hlast⟩ := tagged_ok hr
    have h2 := (Consumes.eat _).named (Consumes.take.named hc htake) harrow
    obtain ⟨he, h3⟩ := ih.typeExpr h2 he ht
    exact ⟨.chan he, hlast h3⟩
  · obtain ⟨p, c1, htake, hr⟩ := bind_ok.1 hr
    obtain ⟨_, c2, hchan, hr⟩ := bind_ok.1 hr
    obtain ⟨e, tag, c3, he, rfl, hlast⟩ := tagged_ok hr
    have h2 := (Consumes.expect _).named (Consumes.take.named hc htake) hchan
    obtain ⟨he, h3⟩ := ih.typeExpr h2 he ht
    exact ⟨.chan he, hlast h3⟩
  · obtain ⟨p, c1, htake, hr⟩ := bind_ok.1 hr
    obtain ⟨sig, tag, c2, hsig, rfl, hlast⟩ := tagged_ok hr
    obtain ⟨hshaped, h2⟩ := ih.signature (Consumes.take.named hc htake) hsig tag ht
    exact ⟨hshaped, hlast h2⟩
  · obtain ⟨p, c1, htake, hr⟩ := bind_ok.1 hr
    obtain ⟨_, c2, hopen, hr⟩ := bind_ok.1 hr
    obtain ⟨fields, tag, c3, hfields, rfl, hlast⟩ := tagged_ok hr
    have h2 := (Consumes.expect _).named (Consumes.take.named hc htake) hopen
    obtain ⟨hshaped, h3⟩ := ih.structFields h2 hfields (TypeExpr.arePlain_iff.1 ht)
    exact ⟨.struct (fun f hf => (hshaped f hf).1) fun f hf => (hshaped f hf).2, hlast h3⟩
  · obtain ⟨p, c1, htake, hr⟩ := bind_ok.1 hr
    obtain ⟨_, c2, hopen, hr⟩ := bind_ok.1 hr
    obtain ⟨methods, tag, c3, hmethods, rfl, hlast⟩ := tagged_ok hr
    have h2 := (Consumes.expect _).named (Consumes.take.named hc htake) hopen
    obtain ⟨hshaped, h3⟩ := ih.interfaceMethods h2 hmethods (TypeExpr.arePlain_iff.1 ht)
    exact ⟨.interface (fun f hf => (hshaped f hf).1) fun f hf => (hshaped f hf).2, hlast h3⟩
  · obtain ⟨p, c1, htake, hr⟩ := bind_ok.1 hr
    obtain ⟨e, c2, he, hr⟩ := bind_ok.1 hr
    obtain ⟨_, c3, hclose, hr⟩ := bind_ok.1 hr
    obtain ⟨rfl, rfl⟩ := pure_ok.1 hr
    obtain ⟨he, h2⟩ := ih.typeExpr (Consumes.take.named hc htake) he ht
    exact ⟨he, (Consumes.expect _).named h2 hclose⟩
  · exact absurd hr unexpected_not_ok

theorem GivesTypes.signature_succ (ih : GivesTypes fuel) {sig : Signature} (hc : c.Named)
    (hr : Read.signature (fuel + 1) c = .ok (sig, c')) (t : Tag)
    (ht : (TypeExpr.func t sig).isPlain = true) : (TypeExpr.func t sig).Shaped ∧ c'.Named := by
  rw [Read.signature] at hr
  obtain ⟨s, c1, hs, hr⟩ := bind_ok.1 hr
  cases hs
  obtain ⟨ps, c1, hps, hr⟩ := bind_ok.1 hr
  obtain ⟨next, c2, hnext, hr⟩ := bind_ok.1 hr
  obtain ⟨hfacing, rfl⟩ := peek_ok.1 hnext
  have hall {rs : List Field} {u : Tag} {d : Cursor} (hsig : sig = ⟨u, ps, rs⟩)
      (hrs : c1.Named → (∀ f ∈ rs, f.type.isPlain = true) → (∀ f ∈ rs, f.ShapedParam) ∧ d.Named) :
      (TypeExpr.func t sig).Shaped ∧ d.Named := by
    subst hsig
    rw [TypeExpr.isPlain, Bool.and_eq_true, Bool.and_eq_true, Bool.not_eq_true'] at ht
    obtain ⟨⟨hopen, hparams⟩, hresults⟩ := ht
    obtain ⟨hps, h1⟩ := ih.parameters hc hps (TypeExpr.arePlain_iff.1 hparams)
    obtain ⟨hrs, hd⟩ := hrs h1 (TypeExpr.arePlain_iff.1 hresults)
    exact ⟨.func (fun f hf => (hps f hf).type) (fun f hf => (hrs f hf).type)
      (fun f hf => (hps f hf).param) (fun f hf => (hrs f hf).param) hopen, hd⟩
  have hlast {rs : List Field} {d : Cursor} (h : (do
      return ⟨← tagFrom c.next, ps, rs⟩ : Read Signature) d = .ok (sig, c')) :
      ∃ u, sig = ⟨u, ps, rs⟩ ∧ (d.Named → c'.Named) := by
    obtain ⟨u, d1, hu, h⟩ := bind_ok.1 h
    obtain ⟨rfl, rfl⟩ := pure_ok.1 h
    exact ⟨u, rfl, fun hd => (Consumes.tagFrom _).named hd hu⟩
  split at hr
  · obtain ⟨rs, c2, hrs, hr⟩ := bind_ok.1 hr
    obtain ⟨u, hsig, hend⟩ := hlast hr
    refine hall hsig fun h1 hplain => ?_
    obtain ⟨hshaped, h2⟩ := ih.parameters h1 hrs hplain
    exact ⟨hshaped, hend h2⟩
  · split at hr
    · -- a result without parentheses
      obtain ⟨type, c2, htype, hr⟩ := bind_ok.1 hr
      obtain ⟨u, c3, hu, hr⟩ := bind_ok.1 hr
      obtain ⟨rs, c4, hrs, hr⟩ := bind_ok.1 hr
      cases hu
      cases hrs
      obtain ⟨v, hsig, hend⟩ := hlast hr
      refine hall hsig fun h1 hplain => ?_
      obtain ⟨hshaped, h2⟩ := ih.typeExpr h1 htype (hplain _ List.mem_cons_self)
      refine ⟨fun f hf => ?_, hend h2⟩
      cases List.mem_singleton.1 hf
      exact ⟨hshaped, List.forall_mem_nil _, rfl⟩
    · obtain ⟨rs, c2, hrs, hr⟩ := bind_ok.1 hr
      cases hrs
      obtain ⟨u, hsig, hend⟩ := hlast hr
      exact hall hsig fun h1 _ => ⟨List.forall_mem_nil _, hend h1⟩

theorem GivesTypes.parameters_succ (ih : GivesTypes fuel) {fs : List Field} (hc : c.Named)
    (hr : Read.parameters (fuel + 1) c = .ok (fs, c')) (hfs : ∀ f ∈ fs, f.type.isPlain = true) :
    (∀ f ∈ fs, f.ShapedParam) ∧ c'.Named := by
  rw [Read.parameters] at hr
  obtain ⟨_, c1, hopen, hr⟩ := bind_ok.1 hr
  obtain ⟨ps, c2, hps, hr⟩ := bind_ok.1 hr
  obtain ⟨_, c3, hclose, hr⟩ := bind_ok.1 hr
  obtain ⟨hplain, hahead, hshaped⟩ := group_ok hr hfs
  obtain ⟨hps, h2⟩ := ih.params ((Consumes.expect _).named hc hopen) hps hplain
  have h3 := (Consumes.expect _).named h2 hclose
  exact ⟨hshaped (List.forall_mem_nil _) hps, by rwa [Cursor.Named, hahead]⟩

theorem GivesTypes.params_succ (ih : GivesTypes fuel) {ps : List Param} (hc : c.Named)
    (hr : Read.params (fuel + 1) c = .ok (ps, c')) (hps : ∀ p ∈ ps, p.isPlain = true) :
    (∀ p ∈ ps, p.Shaped) ∧ c'.Named := by
  rw [Read.params] at hr
  obtain ⟨done, c1, hdone, hr⟩ := bind_ok.1 hr
  cases hdone
  split at hr
  · cases hr
    exact ⟨List.forall_mem_nil _, hc⟩
  · obtain ⟨p, c1, hp, hr⟩ := bind_ok.1 hr
    obtain ⟨comma, c2, hcomma, hr⟩ := bind_ok.1 hr
    split at hr
    · obtain ⟨rest, c3, hrest, hr⟩ := bind_ok.1 hr
      cases hr
      obtain ⟨hplain, hps⟩ := List.forall_mem_cons.1 hps
      obtain ⟨hp, h1⟩ := ih.param hc hp hplain
      obtain ⟨hrest, h3⟩ := ih.params ((Consumes.eat _).named h1 hcomma) hrest hps
      exact ⟨List.forall_mem_cons.2 ⟨hp, hrest⟩, h3⟩
    · cases hr
      obtain ⟨hp, h1⟩ := ih.param hc hp (hps p List.mem_cons_self)
      exact ⟨List.forall_mem_singleton.2 hp, (Consumes.eat _).named h1 hcomma⟩

/-- At last an entry has a type, behind a name or alone. -/
theorem GivesTypes.typed (ih : GivesTypes fuel) {p : Param} {n : Option Name} {variadic : Bool}
    {s : Nat} (hc : c.Named) (hr : (do
      let type ← Read.typeExpr fuel
      return .typed n type variadic (← spanFrom s) : Read Param) c = .ok (p, c'))
    (hp : p.isPlain = true) (hn : ∀ m ∈ n, Token.IsName m.text) : p.Shaped ∧ c'.Named := by
  obtain ⟨type, c1, htype, hr⟩ := bind_ok.1 hr
  obtain ⟨span, c2, hspan, hr⟩ := bind_ok.1 hr
  cases hspan
  cases hr
  obtain ⟨htype, h1⟩ := ih.typeExpr hc htype hp
  exact ⟨⟨hn, htype⟩, h1⟩

theorem GivesTypes.param_succ (ih : GivesTypes fuel) {p : Param} (hc : c.Named)
    (hr : Read.param (fuel + 1) c = .ok (p, c')) (hp : p.isPlain = true) : p.Shaped ∧ c'.Named := by
  rw [Read.param] at hr
  obtain ⟨s, c1, hs, hr⟩ := bind_ok.1 hr
  cases hs
  obtain ⟨next, c1, hnext, hr⟩ := bind_ok.1 hr
  obtain ⟨-, rfl⟩ := peek_ok.1 hnext
  split at hr
  · obtain ⟨n, c1, hn, hr⟩ := bind_ok.1 hr
    obtain ⟨hname, h1⟩ := name_named hc hn
    have hsome : ∀ m ∈ some n, Token.IsName m.text := by
      rintro _ ⟨⟩
      exact hname
    obtain ⟨next, c2, hnext, hr⟩ := bind_ok.1 hr
    obtain ⟨-, rfl⟩ := peek_ok.1 hnext
    split at hr
    · obtain ⟨span, c2, hspan, hr⟩ := bind_ok.1 hr
      cases hspan
      cases hr
      exact ⟨hname, h1⟩
    · obtain ⟨span, c2, hspan, hr⟩ := bind_ok.1 hr
      cases hspan
      cases hr
      exact ⟨hname, h1⟩
    · -- the name of a package
      obtain ⟨q, c2, htake, hr⟩ := bind_ok.1 hr
      obtain ⟨sel, c3, hsel, hr⟩ := bind_ok.1 hr
      obtain ⟨t, c4, ht, hr⟩ := bind_ok.1 hr
      obtain ⟨span, c5, hspan, hr⟩ := bind_ok.1 hr
      cases ht
      cases hspan
      cases hr
      obtain ⟨hsel, h3⟩ := name_named (Consumes.take.named h1 htake) hsel
      exact ⟨⟨by rintro _ ⟨⟩, .named (by simpa using hname) hsel⟩, h3⟩
    · obtain ⟨q, c2, htake, hr⟩ := bind_ok.1 hr
      exact ih.typed (Consumes.take.named h1 htake) hr hp hsome
    · exact ih.typed h1 hr hp hsome
  · obtain ⟨q, c1, htake, hr⟩ := bind_ok.1 hr
    exact ih.typed (Consumes.take.named hc htake) hr hp (by rintro _ ⟨⟩)
  · exact ih.typed hc hr hp (by rintro _ ⟨⟩)

/-- The end of a field behind its label, and the other fields. -/
theorem GivesTypes.members (ih : GivesTypes fuel) {fs : List Field} {ns : List Name}
    {type : TypeExpr} {label : Option String} {s : Nat}
    (hnew : type.isPlain = true → type.Shaped ∧ (∀ l ∈ label, (Token.ofLabel l).Legible) ∧ c.Named)
    (hns : ∀ n ∈ ns.map Name.text, Token.IsName n) (hr : (do
      let tag ← tagFrom s
      endStatement
      return ⟨tag, ns, type, false, label⟩ :: (← Read.structFields fuel) :
        Read (List Field)) c = .ok (fs, c')) (hfs : ∀ f ∈ fs, f.type.isPlain = true) :
    (∀ f ∈ fs, f.type.Shaped ∧ f.IsMember) ∧ c'.Named := by
  obtain ⟨t, c1, ht, hr⟩ := bind_ok.1 hr
  obtain ⟨_, c2, hend, hr⟩ := bind_ok.1 hr
  obtain ⟨more, c3, hmore, hr⟩ := bind_ok.1 hr
  obtain ⟨rfl, rfl⟩ := pure_ok.1 hr
  obtain ⟨hplain, hfs⟩ := List.forall_mem_cons.1 hfs
  obtain ⟨htype, hlabel, hc⟩ := hnew hplain
  have h2 := Consumes.endStatement.named ((Consumes.tagFrom _).named hc ht) hend
  obtain ⟨hmore, h3⟩ := ih.structFields h2 hmore hfs
  exact ⟨List.forall_mem_cons.2 ⟨⟨htype, hns, hlabel, rfl⟩, hmore⟩, h3⟩

/-- A field behind its names, and the other fields. -/
theorem GivesTypes.member (ih : GivesTypes fuel) {fs : List Field} {ns : List Name} {s : Nat}
    (hc : c.Named) (hns : ∀ n ∈ ns.map Name.text, Token.IsName n) (hr : (do
      let type ← Read.typeExpr fuel
      let label := isText (← peek)
      if label.isSome then let _ ← take
      let tag ← tagFrom s
      endStatement
      return ⟨tag, ns, type, false, label⟩ :: (← Read.structFields fuel) :
        Read (List Field)) c = .ok (fs, c')) (hfs : ∀ f ∈ fs, f.type.isPlain = true) :
    (∀ f ∈ fs, f.type.Shaped ∧ f.IsMember) ∧ c'.Named := by
  obtain ⟨type, c1, htype, hr⟩ := bind_ok.1 hr
  obtain ⟨next, c2, hnext, hr⟩ := bind_ok.1 hr
  obtain ⟨hfacing, rfl⟩ := peek_ok.1 hnext
  -- that the names ahead are names holds behind plain types only
  have hnew {d : Cursor} (hd : c1.Named → d.Named) (hplain : type.isPlain = true) :
      type.Shaped ∧ (∀ l ∈ isText next, (Token.ofLabel l).Legible) ∧ d.Named := by
    obtain ⟨hshaped, h1⟩ := ih.typeExpr hc htype hplain
    exact ⟨hshaped, label_legible h1 hfacing, hd h1⟩
  split at hr
  · obtain ⟨p, c2, htake, hr⟩ := bind_ok.1 hr
    exact ih.members (hnew fun h1 => Consumes.take.named h1 htake) hns hr hfs
  · exact ih.members (hnew id) hns hr hfs

theorem GivesTypes.structFields_succ (ih : GivesTypes fuel) {fs : List Field} (hc : c.Named)
    (hr : Read.structFields (fuel + 1) c = .ok (fs, c')) (hfs : ∀ f ∈ fs, f.type.isPlain = true) :
    (∀ f ∈ fs, f.type.Shaped ∧ f.IsMember) ∧ c'.Named := by
  rw [Read.structFields] at hr
  obtain ⟨next, c1, hnext, hr⟩ := bind_ok.1 hr
  obtain ⟨-, rfl⟩ := peek_ok.1 hnext
  split at hr
  · obtain ⟨_, c1, hclose, hr⟩ := bind_ok.1 hr
    cases hr
    exact ⟨List.forall_mem_nil _, (Consumes.expect _).named hc hclose⟩
  · obtain ⟨s, c1, hs, hr⟩ := bind_ok.1 hr
    cases hs
    obtain ⟨second, c1, hsecond, hr⟩ := bind_ok.1 hr
    cases hsecond
    rcases either_ok hr with hr | hr
    · obtain ⟨ns, c1, hns, hr⟩ := bind_ok.1 hr
      cases hns
      exact ih.member hc (List.forall_mem_nil _) hr hfs
    · obtain ⟨ns, c1, hns, hr⟩ := bind_ok.1 hr
      obtain ⟨-, hnames, h1⟩ := names_named hc hns
      exact ih.member h1 hnames hr hfs

/-- The end of a method or of an embedded type, and the other ones. -/
theorem GivesTypes.methods (ih : GivesTypes fuel) {fs : List Field} {ns : List Name}
    {type : TypeExpr} {s : Nat}
    (hnew : type.isPlain = true → (type.Shaped ∧ (ns = [] ∨ ∃ n t sig, ns = [n] ∧
      Token.IsName n.text ∧ type = .func t sig)) ∧ c.Named) (hr : (do
      let tag ← tagFrom s
      endStatement
      return ⟨tag, ns, type, false, none⟩ :: (← Read.interfaceMethods fuel) :
        Read (List Field)) c = .ok (fs, c')) (hfs : ∀ f ∈ fs, f.type.isPlain = true) :
    (∀ f ∈ fs, f.type.Shaped ∧ f.IsMethod) ∧ c'.Named := by
  obtain ⟨t, c1, ht, hr⟩ := bind_ok.1 hr
  obtain ⟨_, c2, hend, hr⟩ := bind_ok.1 hr
  obtain ⟨more, c3, hmore, hr⟩ := bind_ok.1 hr
  obtain ⟨rfl, rfl⟩ := pure_ok.1 hr
  obtain ⟨hplain, hfs⟩ := List.forall_mem_cons.1 hfs
  obtain ⟨⟨htype, hns⟩, hc⟩ := hnew hplain
  have h2 := Consumes.endStatement.named ((Consumes.tagFrom _).named hc ht) hend
  obtain ⟨hmore, h3⟩ := ih.interfaceMethods h2 hmore hfs
  exact ⟨List.forall_mem_cons.2 ⟨⟨htype, rfl, rfl, hns⟩, hmore⟩, h3⟩

theorem GivesTypes.interfaceMethods_succ (ih : GivesTypes fuel) {fs : List Field} (hc : c.Named)
    (hr : Read.interfaceMethods (fuel + 1) c = .ok (fs, c'))
    (hfs : ∀ f ∈ fs, f.type.isPlain = true) : (∀ f ∈ fs, f.type.Shaped ∧ f.IsMethod) ∧ c'.Named := by
  rw [Read.interfaceMethods] at hr
  obtain ⟨next, c1, hnext, hr⟩ := bind_ok.1 hr
  obtain ⟨-, rfl⟩ := peek_ok.1 hnext
  split at hr
  · obtain ⟨_, c1, hclose, hr⟩ := bind_ok.1 hr
    cases hr
    exact ⟨List.forall_mem_nil _, (Consumes.expect _).named hc hclose⟩
  · obtain ⟨s, c1, hs, hr⟩ := bind_ok.1 hr
    cases hs
    obtain ⟨second, c1, hsecond, hr⟩ := bind_ok.1 hr
    rw [show c1 = c by cases hsecond; rfl] at hr
    split at hr
    · obtain ⟨n, c1, hn, hr⟩ := bind_ok.1 hr
      obtain ⟨u, c2, hu, hr⟩ := bind_ok.1 hr
      cases hu
      obtain ⟨sig, c3, hsig, hr⟩ := bind_ok.1 hr
      obtain ⟨t, c4, ht, hr⟩ := bind_ok.1 hr
      obtain ⟨pair, c5, hpair, hr⟩ := bind_ok.1 hr
      cases hpair
      obtain ⟨hname, h1⟩ := name_named hc hn
      refine ih.methods (fun hplain => ?_) hr hfs
      obtain ⟨hshaped, h3⟩ := ih.signature h1 hsig t hplain
      exact ⟨⟨hshaped, .inr ⟨n, t, sig, rfl, hname, rfl⟩⟩, (Consumes.tagFrom _).named h3 ht⟩
    · obtain ⟨type, c1, htype, hr⟩ := bind_ok.1 hr
      obtain ⟨pair, c2, hpair, hr⟩ := bind_ok.1 hr
      cases hpair
      refine ih.methods (fun hplain => ?_) hr hfs
      obtain ⟨hshaped, h1⟩ := ih.typeExpr hc htype hplain
      exact ⟨⟨hshaped, .inl rfl⟩, h1⟩

end Step

theorem givesTypes (fuel : Nat) : GivesTypes fuel := by
  induction fuel with
  | zero =>
    constructor
    · intro c t c' _ hr
      rw [Read.typeExpr] at hr
      exact absurd hr exhausted_not_ok
    · intro c sig c' _ hr
      rw [Read.signature] at hr
      exact absurd hr exhausted_not_ok
    · intro c fs c' _ hr
      rw [Read.parameters] at hr
      exact absurd hr exhausted_not_ok
    · intro c ps c' _ hr
      rw [Read.params] at hr
      exact absurd hr exhausted_not_ok
    · intro c p c' _ hr
      rw [Read.param] at hr
      exact absurd hr exhausted_not_ok
    · intro c fs c' _ hr
      rw [Read.structFields] at hr
      exact absurd hr exhausted_not_ok
    · intro c fs c' _ hr
      rw [Read.interfaceMethods] at hr
      exact absurd hr exhausted_not_ok
  | succ fuel ih =>
    exact {
      typeExpr := ih.typeExpr_succ
      signature := ih.signature_succ
      parameters := ih.parameters_succ
      params := ih.params_succ
      param := ih.param_succ
      structFields := ih.structFields_succ
      interfaceMethods := ih.interfaceMethods_succ }

end Read

end FuncLift
