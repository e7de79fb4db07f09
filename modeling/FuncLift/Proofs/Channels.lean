import FuncLift.Proofs.Grouped
import FuncLift.Proofs.Typeset

/-!
# Which printed types are read back

Types are printed without parentheses, and the arrow of a channel belongs to the keyword `chan` in
front of it if there is one. So a channel that sends and receives channels to receive from is
printed as a channel to send channels to. The parameters of a function are printed without them as
well: one that is just a name, and stands in front of one with names, is read as one of these names.
All other plain types are read back from their print.
-/
namespace FuncLift

namespace TypeExpr

attribute [local simp] Draw.typeExpr

section

variable {t : Tag} {e k v : TypeExpr} {u w : Token}

theorem Inked.named {pkg : Option String} {n : String} (hpkg : ∀ p ∈ pkg, Token.IsName p)
    (hn : Token.IsName n) : Inked (.named t pkg n) (.ident n) := by
  cases pkg with
  | none =>
    refine ⟨.inl ⟨n, rfl⟩, by rw [tokens]; rfl, fun edge hedge => ?_⟩
    rw [Draw.typeExpr, tokens]
    exact .markedType (.text (.word hn fun c hc => hedge.word hc) rfl)
  | some pkg =>
    refine ⟨.inl ⟨n, rfl⟩, by rw [tokens]; rfl, fun edge hedge => ?_⟩
    rw [Draw.typeExpr, tokens]
    refine .markedType ((Writes.text (.word (hpkg pkg rfl) fun c hc => hedge.word hc) rfl).bind ?_)
    refine (Writes.punct (p := .dot) '.' rfl ?_).bind (.text (.word hn ?_) rfl)
    · rintro t ⟨⟩
      exact (by decide : Lexeme.continuesWord '.' = false)
    · rintro c hc t ⟨⟩
      exact Punct.absorbs_word hc _

theorem Inked.pointer (h : Inked e u) : Inked (.pointer t e) u := by
  refine ⟨h.closes, by rw [tokens, List.getLast?_cons, h.last]; rfl, fun edge hedge => ?_⟩
  rw [Draw.typeExpr, tokens]
  exact .markedType ((Writes.punct (p := .star) '*' rfl (hedge.sign (by decide))).bind
    (h.writes _ (.punct (by decide))))

theorem writes_close {p : Punct} (hp : p ∈ [.lBrack, .ellipsis]) :
    Writes ⟨[]⟩ (some (.punct p)) (Draw.text "]") [.punct .rBrack] (some (.punct .rBrack)) := by
  refine .punct (p := .rBrack) ']' rfl ?_
  rintro t ⟨⟩
  simp only [List.mem_cons, List.not_mem_nil, or_false] at hp
  rcases hp with rfl | rfl <;> exact Punct.absorbs_closed (by decide) _

theorem Inked.slice (h : Inked e u) : Inked (.slice t e) u := by
  refine ⟨h.closes, by simp [tokens, List.getLast?_cons, h.last], fun edge hedge => ?_⟩
  rw [Draw.typeExpr, tokens]
  have hopen : Writes ⟨[]⟩ edge (Draw.text "[]") [.punct .lBrack, .punct .rBrack] (some (.punct .rBrack)) := by
    refine .text ((Carries.punct .lBrack '[' rfl (hedge.sign (by decide))).append
      (.punct .rBrack ']' rfl ?_)) (by decide)
    rintro t ⟨⟩
    exact Punct.absorbs_closed (by decide) _
  exact .markedType (hopen.bind (h.writes _ (.punct (by decide))))

theorem Inked.array {len : Option Expr} (hlen : ∀ l ∈ len, l.Shaped) (h : Inked e u) :
    Inked (.array t len e) u := by
  have helem := h.writes _ (Before.punct (p := .rBrack) (by decide))
  have hopen {edge : Option Token} (hedge : Before edge) :
      Writes ⟨[]⟩ edge (Draw.text "[") [.punct .lBrack] (some (.punct .lBrack)) :=
    .punct (p := .lBrack) '[' rfl (hedge.sign (by decide))
  cases len with
  | none =>
    refine ⟨h.closes, by simp [tokens, List.getLast?_cons, h.last], fun edge hedge => ?_⟩
    rw [Draw.typeExpr, tokens, Draw.exprOption, Option.getD_none]
    have hdots : Writes ⟨[]⟩ (some (.punct .lBrack)) (Draw.text "...") [.punct .ellipsis]
        (some (.punct .ellipsis)) := by
      refine .punct (p := .ellipsis) '.' rfl ?_
      rintro t ⟨⟩
      exact Punct.absorbs_closed (by decide) _
    exact .markedType ((hopen hedge).bind (hdots.bind ((writes_close (by decide)).bind helem)))
  | some l =>
    obtain ⟨w, hl⟩ := (hlen l rfl).inked l.isFlat_empty
    refine ⟨h.closes, by simp [tokens, List.getLast?_cons, h.last], fun edge hedge => ?_⟩
    have hclose : Writes ⟨[]⟩ (some w) (Draw.text "]") [.punct .rBrack] (some (.punct .rBrack)) := by
      refine .punct (p := .rBrack) ']' rfl ?_
      rintro t ⟨⟩
      exact hl.closes.absorbs (by decide)
    have hlength := (hopen hedge).inks (f := fun _ => Draw.expr none 1 l) rfl
      (hl.inks 1 _ (.punct (.inl (by decide)))) hl.closes.sign
    rw [Draw.typeExpr, tokens, Draw.exprOption, Option.getD_some, ← bind_assoc]
    have hall := hlength.bind (f := fun _ => Draw.text "]" >>= fun _ => Draw.typeExpr e)
      (hclose.bind helem)
    exact .markedType (by simpa using hall)

theorem Inked.map (hk : Inked k w) (hv : Inked v u) : Inked (.map t k v) u := by
  refine ⟨hv.closes, by simp [tokens, List.getLast?_cons, hv.last], fun edge hedge => ?_⟩
  rw [Draw.typeExpr, tokens]
  have hopen : Writes ⟨[]⟩ edge (Draw.text "map[") [.keyword .mapKw, .punct .lBrack]
      (some (.punct .lBrack)) := by
    refine .text ((Carries.keyword .mapKw fun c hc => hedge.word hc).append
      (.punct .lBrack '[' rfl ?_)) (by decide)
    rintro t ⟨⟩
    exact (by decide : Lexeme.continuesWord '[' = false)
  have hclose : Writes ⟨[]⟩ (some w) (Draw.text "]") [.punct .rBrack] (some (.punct .rBrack)) := by
    refine .punct (p := .rBrack) ']' rfl ?_
    rintro t ⟨⟩
    exact hk.closes.absorbs (by decide)
  exact .markedType (hopen.bind ((hk.writes _ (.punct (by decide))).bind
    (hclose.bind (hv.writes _ (.punct (by decide))))))

theorem Inked.chan {dir : ChanDir} (h : Inked e u) : Inked (.chan t dir e) u := by
  have helem := h.writes none (by rintro _ ⟨⟩)
  cases dir with
  | both =>
    refine ⟨h.closes, by simp [tokens, List.getLast?_cons, h.last], fun edge hedge => ?_⟩
    rw [Draw.typeExpr, tokens]
    have hopen : Writes ⟨[]⟩ edge (Draw.text "chan ") [.keyword .chanKw] none :=
      .text ((Carries.keyword .chanKw fun c hc => hedge.word hc).append .blank) (by decide)
    exact .markedType (hopen.bind helem)
  | send =>
    refine ⟨h.closes, by simp [tokens, List.getLast?_cons, h.last], fun edge hedge => ?_⟩
    rw [Draw.typeExpr, tokens]
    have hopen : Writes ⟨[]⟩ edge (Draw.text "chan<- ") [.keyword .chanKw, .punct .arrow] none := by
      refine .text (((Carries.keyword .chanKw fun c hc => hedge.word hc).append
        (.punct .arrow '<' rfl ?_)).append .blank) (by decide)
      rintro t ⟨⟩
      exact (by decide : Lexeme.continuesWord '<' = false)
    exact .markedType (hopen.bind helem)
  | recv =>
    refine ⟨h.closes, by simp [tokens, List.getLast?_cons, h.last], fun edge hedge => ?_⟩
    rw [Draw.typeExpr, tokens]
    have hopen : Writes ⟨[]⟩ edge (Draw.text "<-chan ") [.punct .arrow, .keyword .chanKw] none := by
      refine .text (((Carries.punct .arrow '<' rfl (hedge.sign (by decide))).append
        (.keyword .chanKw ?_)).append .blank) (by decide)
      rintro c hc t ⟨⟩
      exact Punct.absorbs_word hc _
    exact .markedType (hopen.bind helem)

theorem InkedSignature.func {sig : Signature} (h : InkedSignature sig u) : Inked (.func t sig) u := by
  have htokens : tokens (.func t sig) = tokens (.func default sig) := by
    cases sig
    rw [tokens, tokens]
  have hlast : (tokens (.func default sig)).getLast? = some u := by
    have htail := h.last
    cases sig
    rw [tokens, List.tail_cons] at htail
    rw [tokens, List.getLast?_cons, htail]
    rfl
  refine ⟨h.closes, htokens ▸ hlast, fun edge hedge => ?_⟩
  rw [Draw.typeExpr, htokens]
  exact .markedType (h.writes hedge)

theorem getLast?_block (k : Keyword) (oneLine : Bool) (rows : List (List Token)) :
    (.keyword k :: Token.block oneLine rows).getLast? = some (.punct .rBrace) := by
  simp [Token.block, List.getLast?_cons]

theorem Inked.struct {fs : List Field} (hfs : ∀ f ∈ fs, ∃ u, f.Inked u) :
    Inked (.struct t fs) (.punct .rBrace) := by
  have hitems : List.Forall₂ (InkedItem ⟨[]⟩) (Draw.fieldItems fs) (fieldRows fs) := by
    rw [fieldRows_eq]
    induction fs with
    | nil => exact .nil
    | cons f fs ih =>
      obtain ⟨⟨u, hf⟩, hfs⟩ := List.forall_mem_cons.1 hfs
      exact .cons ⟨u, hf.ends, hf.inks none .blank⟩ (ih hfs)
  have hlength : fs.length = (Draw.fieldItems fs).length := by
    rw [hitems.length_eq, fieldRows_eq, List.length_map]
  refine ⟨.inr (.inr (.inr rfl)), by rw [tokens, getLast?_block], fun edge hedge => ?_⟩
  rw [Draw.typeExpr, tokens]
  exact .markedType (writes_fieldBlock rfl hitems hlength hedge)

theorem Inked.interface {fs : List Field}
    (hfs : ∀ f ∈ fs, ∃ u, u.Closes ∧ Inks ⟨[]⟩ none (Draw.method f) f.methodRow (some u) fun _ => True) :
    Inked (.interface t fs) (.punct .rBrace) := by
  have hitems : List.Forall₂ (InkedItem ⟨[]⟩) (Draw.methodItems fs) (methodRows fs) := by
    rw [methodRows_eq]
    induction fs with
    | nil => exact .nil
    | cons f fs ih =>
      obtain ⟨⟨u, hu, hf⟩, hfs⟩ := List.forall_mem_cons.1 hfs
      exact .cons ⟨u, hu.endsStatement, hf⟩ (ih hfs)
  have hlength : fs.length = (Draw.methodItems fs).length := by
    rw [hitems.length_eq, methodRows_eq, List.length_map]
  refine ⟨.inr (.inr (.inr rfl)), by rw [tokens, getLast?_block], fun edge hedge => ?_⟩
  rw [Draw.typeExpr, tokens]
  exact .markedType (writes_fieldBlock rfl hitems hlength hedge)

end

/-- Drawing the type writes its tokens, and where it is that of a method, drawing the signature does. -/
structure Written (t : TypeExpr) (u : Token) : Prop where
  inked : Inked t u
  signature : ∀ v sig, t = .func v sig → InkedSignature sig u

theorem Inked.written {t : TypeExpr} {u : Token} (h : Inked t u) (hfunc : ∀ v sig, t ≠ .func v sig) :
    ∃ u, Written t u := ⟨u, h, fun v sig heq => absurd heq (hfunc v sig)⟩

theorem inked_params {fs : List Field} (hfs : ∀ f ∈ fs, ∃ u, Written f.type u)
    (hparams : ∀ f ∈ fs, f.IsParam) : ∀ f ∈ fs, ∃ u, f.Inked u ∧ u.Closes := by
  intro f hf
  obtain ⟨u, hu⟩ := hfs f hf
  have hlabel := (hparams f hf).label
  obtain ⟨v, hv⟩ := hu.inked.field (hparams f hf).names (by simp [hlabel])
  exact ⟨v, hv, hv.closes hlabel⟩

theorem Shaped.written {t : TypeExpr} (h : t.Shaped) : ∃ u, Written t u := by
  induction h with
  | named hpkg hn => exact (Inked.named hpkg hn).written (by simp)
  | pointer _ ih =>
    obtain ⟨u, ih⟩ := ih
    exact ih.inked.pointer.written (by simp)
  | slice _ ih =>
    obtain ⟨u, ih⟩ := ih
    exact ih.inked.slice.written (by simp)
  | array hlen _ ih =>
    obtain ⟨u, ih⟩ := ih
    exact (Inked.array hlen ih.inked).written (by simp)
  | map _ _ ihk ihv =>
    obtain ⟨w, ihk⟩ := ihk
    obtain ⟨u, ihv⟩ := ihv
    exact (Inked.map ihk.inked ihv.inked).written (by simp)
  | chan _ ih =>
    obtain ⟨u, ih⟩ := ih
    exact ih.inked.chan.written (by simp)
  | func _ _ hparams hresults _ ihps ihrs =>
    obtain ⟨u, hsig⟩ := inked_signature (inked_params ihps hparams) (inked_params ihrs hresults)
    refine ⟨u, hsig.func, ?_⟩
    rintro v sig ⟨⟩
    exact hsig
  | struct _ hmembers ih =>
    refine (Inked.struct fun f hf => ?_).written (by simp)
    obtain ⟨u, ih⟩ := ih f hf
    exact ih.inked.field (hmembers f hf).names (hmembers f hf).label
  | interface _ hmethods ih =>
    refine (Inked.interface fun f hf => ?_).written (by simp)
    obtain ⟨u, ih⟩ := ih f hf
    exact ⟨u, ih.inked.closes, ih.inked.method (hmethods f hf) ih.signature⟩

theorem Shaped.recovers {t : TypeExpr} (h : t.Shaped) :
    Read.Recovers Read.typeExpr t.print fun u => u.core = t.readBack := by
  obtain ⟨u, hwritten⟩ := h.written
  obtain ⟨q, cs, hdraw, _, _, htext, hfits⟩ := hwritten.inked.writes none (by rintro _ ⟨⟩) _ .fresh
  have hprint : t.print.toList = cs := by
    rw [print, Drawing.fragment, Drawing.toList_text_run, hdraw, htext]
    rfl
  have hlaid := (hfits [] [] .nil).laid false (by rintro _ ⟨⟩)
  rw [List.append_nil, List.append_nil, ← hprint] at hlaid
  have hends : t.tokens.getLast?.map Token.endsStatement = some true := by
    rw [hwritten.inked.last, Option.map_some, hwritten.inked.closes.endsStatement]
  refine hlaid.recovers hends fun fuel hfuel => ?_
  exact h.retold.alone fuel _ (.punct (by decide) []) (by omega)

/-- A plain type that was read anywhere in a text is read back from its print exactly if no channel
without direction has channels to receive from as its elements, and no parameter that is just a name
stands in front of one that has names. -/
theorem read_print_iff {text : String} {c c' : Cursor} {fuel : Nat} {t : TypeExpr}
    (hc : c.ahead <:+ (scan text).tokens) (hread : Read.typeExpr fuel c = .ok (t, c'))
    (hplain : t.isPlain = true) :
    (Read.Recovers Read.typeExpr t.print fun u => u.core = t.core) ↔ t.isTold = true := by
  have hshaped := ((Read.givesTypes fuel).typeExpr (.of_scan hc) hread hplain).1
  obtain ⟨hfaults, u, d, hread, hahead, hu⟩ := hshaped.recovers
  rw [← readBack_eq_core hshaped]
  constructor
  · rintro ⟨_, u', d', hread', _, hu'⟩
    rw [hread] at hread'
    cases hread'
    exact hu.symm.trans hu'
  · intro heq
    exact ⟨hfaults, u, d, hread, hahead, hu.trans heq⟩

/-- Channels with directions, one in the other, below a function, an interface and a struct. -/
theorem read_print_iff_directed : ∃ t c,
    Read.typeExpr 1024 (.atStart
        "[((n))]func(a, b chan<- <-chan int, c ...p.T) interface \x7b M() struct \x7bA K\x7d \x7d") = .ok (t, c) ∧
      t.isPlain = true ∧ Read.Recovers Read.typeExpr t.print fun u => u.core = t.core := by
  have hplain : ((Read.typeExpr 1024 (.atStart
      "[((n))]func(a, b chan<- <-chan int, c ...p.T) interface \x7b M() struct \x7bA K\x7d \x7d")).toOption.any
      fun r => r.1.isPlain && r.1.isTold) = true := by decide +kernel
  cases hread : Read.typeExpr 1024 (.atStart
      "[((n))]func(a, b chan<- <-chan int, c ...p.T) interface \x7b M() struct \x7bA K\x7d \x7d") with
  | error =>
    rw [hread] at hplain
    cases hplain
  | ok r =>
    rw [hread, Except.toOption, Option.any_some, Bool.and_eq_true] at hplain
    exact ⟨r.1, r.2, rfl, hplain.1,
      (read_print_iff (List.suffix_refl _) hread hplain.1).2 hplain.2⟩

end TypeExpr

def Node.type? : Node → Option TypeExpr
  | .type t => some t
  | _ => none

theorem Node.eq_type {n : Node} {t : TypeExpr} (h : n.type? = some t) : n = .type t := by
  cases n with
  | type u => exact congrArg Node.type (Option.some.inj h)
  | _ => cases h

namespace TypeExpr

def isSend : TypeExpr → Bool
  | .chan _ .send _ => true
  | _ => false

theorem isSend_core (t : TypeExpr) : t.core.isSend = t.isSend := by
  cases t with
  | chan _ dir e => cases dir <;> rfl
  | func _ sig =>
    cases sig
    rfl
  | _ => rfl

/-- A channel of channels to receive from is printed as one to send channels to. -/
theorem print_misread : ∃ d t, Document.ofSource "package p\n\nvar c chan (<-chan int)\n" = .ok d ∧
    .type t ∈ d.file.nodes ∧ t.print = "chan <-chan int" ∧
      ¬Read.Recovers Read.typeExpr t.print fun u => u.core = t.core := by
  have hnode : ((Document.ofSource "package p\n\nvar c chan (<-chan int)\n").toOption.any fun d =>
      d.file.nodes.any fun n => n.type?.any fun t => t.print == "chan <-chan int" && !t.isSend) = true := by
    decide +kernel
  have hsend : ((Read.typeExpr (Document.budget (scan "chan <-chan int").tokens.length)
      (.atStart "chan <-chan int")).toOption.any fun r => r.1.isSend) = true := by decide +kernel
  cases hread : Document.ofSource "package p\n\nvar c chan (<-chan int)\n" with
  | error =>
    rw [hread] at hnode
    cases hnode
  | ok d =>
    rw [hread, Except.toOption, Option.any_some, List.any_eq_true] at hnode
    obtain ⟨n, hmem, hn⟩ := hnode
    obtain ⟨t, ht, hboth⟩ := (Option.any_eq_true _ _).1 hn
    obtain rfl := Node.eq_type ht
    rw [Bool.and_eq_true, beq_iff_eq, Bool.not_eq_true'] at hboth
    refine ⟨d, t, rfl, hmem, hboth.1, ?_⟩
    rw [hboth.1]
    rintro ⟨_, u, c, hu, _, hcore⟩
    rw [hu, Except.toOption, Option.any_some, ← isSend_core, hcore, isSend_core, hboth.2] at hsend
    cases hsend

end TypeExpr

end FuncLift
