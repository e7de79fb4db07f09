import FuncLift.Proofs.Since

/-!
# Reading headers

What the productions have in common that read headers and what stands in them. An expression stops in
front of no bracket, so the token between the variables of a range clause and its keyword is the
assignment that a scan has found. The body of a control statement starts with the brace behind the
pieces of its header.
-/
namespace FuncLift

/-! ## What follows an expression -/

/-- No bracket that could go on with an operand is ahead. -/
def Unbracketed (c : Cursor) : Prop :=
  ¬Facing (some (.punct .lParen)) c ∧ ¬Facing (some (.punct .lBrack)) c

theorem Facing.unbracketed {t : Option Token} {c : Cursor} (h : Facing t c)
    (hparen : t ≠ some (.punct .lParen)) (hbrack : t ≠ some (.punct .lBrack)) : Unbracketed c :=
  ⟨fun hp => hparen (h.symm.trans hp), fun hb => hbrack (h.symm.trans hb)⟩

/-- A reader that stops in front of no such bracket. -/
def Rests {α : Type} (pre : Cursor → Prop) (m : Read α) : Prop :=
  ∀ c a c', pre c → m c = .ok (a, c') → Unbracketed c'

namespace Rests

variable {α β : Type} {pre : Cursor → Prop} {m : Read α} {f : α → Read β}

theorem exhausted : Rests pre (Read.exhausted : Read α) :=
  fun _ _ _ _ hm => absurd hm Read.exhausted_not_ok

theorem pure {a : α} (h : ∀ c, pre c → Unbracketed c) : Rests pre (Pure.pure a : Read α) := by
  intro c x c' hp hm
  obtain ⟨_, rfl⟩ := Read.pure_ok.1 hm
  exact h c hp

theorem bind (h : ∀ a, Rests Anywhere (f a)) : Rests pre (m >>= f) := by
  intro c x c' _ hm
  obtain ⟨a, c1, _, hf⟩ := Read.bind_ok.1 hm
  exact h a c1 x c' trivial hf

theorem step (hm : Rests pre m) (h : ∀ a, Rests Unbracketed (f a)) :
    Rests pre (m >>= f) := by
  intro c x c' hp hx
  obtain ⟨a, c1, ha, hf⟩ := Read.bind_ok.1 hx
  exact h a c1 x c' (hm c a c1 hp ha) hf

theorem tag {s : Nat} {f : Tag → Read β} (h : ∀ t, Rests Unbracketed (f t)) :
    Rests Unbracketed (Read.tagFrom s >>= f) := by
  apply step _ h
  intro c t c' hp ht
  cases ht
  exact hp

theorem get {f : Cursor → Read β} (h : ∀ c, Rests pre (f c)) : Rests pre (get >>= f) := by
  intro c x c' hp hm
  obtain ⟨_, _, hg, hf⟩ := Read.bind_ok.1 hm
  obtain ⟨rfl, rfl⟩ := Read.get_ok.1 hg
  exact h _ _ x c' hp hf

theorem peek {f : Option Token → Read β} (h : ∀ t, Rests (fun c => pre c ∧ Facing t c) (f t)) :
    Rests pre (Read.peek >>= f) := by
  intro c x c' hp hm
  obtain ⟨t, c1, hpeek, hf⟩ := Read.bind_ok.1 hm
  obtain ⟨hfacing, rfl⟩ := Read.peek_ok.1 hpeek
  exact h t c x c' ⟨hp, hfacing⟩ hf

theorem primaryRest (fuel s : Nat) (x : Expr) : Rests pre (Read.primaryRest fuel s x) := by
  induction fuel generalizing x pre with
  | zero =>
    rw [Read.primaryRest]
    exact exhausted
  | succ fuel ih =>
    rw [Read.primaryRest]
    refine peek fun next => ?_
    split
    · refine bind fun _ => bind fun asserts => ?_
      split
      · refine bind fun bare => ?_
        split
        · exact bind fun _ => bind fun _ => bind fun _ => ih _
        · exact bind fun _ => bind fun _ => bind fun _ => bind fun _ => ih _
      · exact bind fun _ => bind fun _ => ih _
    · exact bind fun _ => bind fun _ => bind fun _ => bind fun _ => ih _
    · exact bind fun _ => bind fun _ => bind fun _ => bind fun _ => ih _
    · refine get fun c => ?_
      split
      · exact pure fun _ h => h.2.unbracketed (by simp) (by simp)
      · exact bind fun _ => bind fun _ => ih _
    · rename_i hbrack hparen _
      exact pure fun _ h => h.2.unbracketed hparen hbrack

theorem unary (fuel : Nat) : Rests pre (Read.unary fuel) := by
  induction fuel generalizing pre with
  | zero =>
    rw [Read.unary]
    exact exhausted
  | succ fuel ih =>
    rw [Read.unary]
    refine bind fun s => peek fun next => ?_
    split
    · cases fuel with
      | zero =>
        rw [Read.primary]
        exact exhausted
      | succ fuel =>
        rw [Read.primary]
        exact bind fun _ => bind fun x => primaryRest fuel _ x
    · exact bind fun _ => step ih fun e => tag fun t => pure fun _ h => h

theorem binary_binaryRest (fuel : Nat) : (∀ least, Rests Anywhere (Read.binary fuel least)) ∧
    ∀ least s x, Rests Unbracketed (Read.binaryRest fuel least s x) := by
  induction fuel with
  | zero =>
    simp only [Read.binary, Read.binaryRest]
    exact ⟨fun _ => exhausted, fun _ _ _ => exhausted⟩
  | succ fuel ih =>
    obtain ⟨hbinary, hrest⟩ := ih
    constructor
    · intro least
      rw [Read.binary]
      exact bind fun s => step (unary fuel) fun x => hrest least s x
    · intro least s x
      rw [Read.binaryRest]
      refine peek fun next => ?_
      split
      · exact pure fun _ h => h.1
      · split
        · exact pure fun _ h => h.1
        · exact bind fun _ => step (hbinary _) fun right => tag fun t => hrest least s _

theorem expr (fuel : Nat) : Rests Anywhere (Read.expr fuel) := by
  cases fuel with
  | zero =>
    rw [Read.expr]
    exact exhausted
  | succ fuel =>
    rw [Read.expr]
    exact (binary_binaryRest fuel).1 1

end Rests

/-! ## What is not read but made -/

section Rules

variable {α β : Type} {T : List Placed} {lit : Bool} {w v : Mode} {b : Cursor} {k : Nat}
  {pre : Cursor → Prop} {ps : List Piece} {m : Read α} {out : α → List Piece} {post : α → Prop}
  {out' : β → List Piece} {post' : β → Prop}

theorem Spends.known (h : (∀ n, .child n ∈ ps → Throughout (Node.Told T) n) →
    Spends T lit w v b k pre ps m out post) : Spends T lit w v b k pre ps m out post :=
  fun c a c' hs hp hm => h hs.told c a c' hs hp hm

theorem Begins.and {post₂ : α → Prop} (h : Begins T lit v pre m out post)
    (h₂ : ∀ c a c', c.Ordered → m c = .ok (a, c') → post₂ a) :
    Begins T lit v pre m out fun a => post a ∧ post₂ a := by
  intro c a c' hs hlit hp hm
  obtain ⟨hread, hpost⟩ := h c a c' hs hlit hp hm
  exact ⟨hread, hpost, h₂ c a c' hs.ordered hm⟩

theorem Begins.of_post {post' : α → Prop} (h : Begins T lit v pre m out post)
    (hp : ∀ a, post a → post' a) : Begins T lit v pre m out post' := by
  intro c a c' hs hlit hc hm
  obtain ⟨hread, hpost⟩ := h c a c' hs hlit hc hm
  exact ⟨hread, hp a hpost⟩

theorem Begins.stay {f : α → Read β} (hm : ∀ c a c', m c = .ok (a, c') → c' = c)
    (h : ∀ a, Begins T lit v pre (f a) out' post') : Begins T lit v pre (m >>= f) out' post' := by
  intro c x c'' hs hlit hp hx
  obtain ⟨a, c', hmc, hf⟩ := Read.bind_ok.1 hx
  cases hm c a c' hmc
  exact h a c x c'' hs hlit hp hf

theorem Spends.last {u : Mode} {post' : α → Prop} {out' : α → List Piece}
    (h : Begins T lit u pre m out post) (hu : w.admits k u = true)
    (hnext : ∀ a, post a → Spends T lit w v b k Anywhere (ps ++ out a) (Pure.pure a) out' post') :
    Spends T lit w v b k pre ps m out' post' := by
  rw [← bind_pure m]
  exact .step h hu hnext

theorem Throughout.field {f : Field} (h : Throughout (Node.Told T) (.type f.type)) :
    Throughout (Node.Told T) (.field f) :=
  .of trivial fun c hc => by
    obtain rfl : c = .type f.type := by simpa [Node.pieces] using hc
    exact h

theorem Throughout.named {t : Tag} {pkg : Option String} {n : String} :
    Throughout (Node.Told T) (.type (.named t pkg n)) :=
  .of trivial fun c hc => by simp [Node.pieces] at hc

theorem Throughout.ofField {f : Field} (h : Throughout (Node.Told T) (.field f)) :
    Throughout (Node.Told T) (.type f.type) := h.child (by simp [Node.pieces])

theorem Begins.fieldsOfTypes (ns : List Name) :
    Begins T lit .inner pre (Read.fieldsOfTypes ns) (·.map Field.piece) fun _ => True := by
  induction ns generalizing pre with
  | nil => exact .of .inner rfl fun b => .pure rfl (by simp) trivial
  | cons n ns ih =>
    rw [Read.fieldsOfTypes]
    refine .of .inner rfl fun b => .tagAt fun t _ => .tagAt fun u _ => ?_
    exact .grow (.field ⟨u, [], .named t none n.text, false, none⟩) rfl (fun _ => .field .named)
      (.step ih rfl fun fs _ => .pure rfl (by simp) trivial)

/-- The entries of a parameter list become fields with the same types. -/
theorem Begins.group (xs : List Param) (pending : List Name) (first : Option Nat)
    (hxs : ∀ n, .child n ∈ xs.map Param.piece → Throughout (Node.Told T) n) :
    Begins T lit .inner pre (Read.group pending first xs) (·.map Field.piece) fun _ => True := by
  induction xs generalizing pending first pre with
  | nil =>
    rw [Read.group]
    exact fieldsOfTypes pending
  | cons x xs ih =>
    have hrest : ∀ n, .child n ∈ xs.map Param.piece → Throughout (Node.Told T) n :=
      fun n hn => hxs n (List.mem_cons_of_mem _ hn)
    rcases x with ⟨n, span⟩ | ⟨_ | n, type, variadic, span⟩
    · rw [Read.group]
      exact ih _ _ hrest
    · have htype : Throughout (Node.Told T) (.type type) := (hxs _ List.mem_cons_self).ofField
      rw [Read.group]
      refine .of .inner rfl fun b => .step (fieldsOfTypes pending) rfl fun before _ => .tagAt fun t _ => ?_
      exact .grow (.field ⟨t, [], type, variadic, none⟩) rfl (fun _ => .field htype)
        (.step (ih _ _ hrest) rfl fun fs _ => .pure rfl (by simp) trivial)
    · have htype : Throughout (Node.Told T) (.type type) := (hxs _ List.mem_cons_self).ofField
      rw [Read.group]
      refine .of .inner rfl fun b => .tagAt fun t _ => ?_
      exact .grow (.field ⟨t, pending ++ [n], type, variadic, none⟩) rfl (fun _ => .field htype)
        (.step (ih _ _ hrest) rfl fun fs _ => .pure rfl (by simp) trivial)

theorem Builds.stmt {s : Stmt} {span : Span} (hs : s.isControl = false) (hspan : s.span = span)
    (hchildren : ∀ c, .child c ∈ (Node.stmt s).pieces → .child c ∈ ps) :
    Builds T w ps (.stmt s) span where
  span := hspan
  children := hchildren
  told _ h := by
    rw [hs] at h
    cases h

theorem Builds.simple {s : Simple} {span : Span} (hw : w.own = false) (hspan : s.span = span)
    (hpieces : ∀ c, .child c ∈ (Node.simple s).pieces ↔ .child c ∈ ps) :
    Builds T w ps (.simple s) span where
  span := hspan
  children c := (hpieces c).1
  told h := (h hw).mono fun n => (hpieces n).2

theorem Builds.expr {e : Expr} {span : Span} (hw : w.own = false) (hspan : e.span = span)
    (hpieces : ∀ c, .child c ∈ (Node.expr e).pieces ↔ .child c ∈ ps) :
    Builds T w ps (.expr e) span where
  span := hspan
  children c := (hpieces c).1
  told h := .inr ((h hw).mono fun n => (hpieces n).2)

theorem Spends.single {s : Nat} {es : List Expr} {f : Expr → Read β}
    (hnext : ∀ e, es = [e] → Spends T lit w v b k pre [e.piece] (f e) out' post') :
    Spends T lit w v b k pre (es.map Expr.piece) (Read.single s es >>= f) out' post' := by
  rcases es with _ | ⟨e, _ | ⟨e', es⟩⟩
  · simp only [Read.single, bind_assoc]
    exact .spanFrom fun _ => .neverThen fun _ _ => Read.fail_not_ok
  · exact .ret (hnext e rfl)
  · simp only [Read.single, bind_assoc]
    exact .spanFrom fun _ => .neverThen fun _ _ => Read.fail_not_ok

theorem Spends.exprOf (ps : List Piece) {x : Simple} {f : Expr → Read β} (hx : Upright (.simple x))
    (hnext : ∀ t e, x = .expr t e → Spends T lit w v b k pre (ps ++ [e.piece]) (f e) out' post') :
    Spends T lit w v b k pre (ps ++ [x.piece]) (Read.exprOf x >>= f) out' post' := by
  cases x with
  | expr t e => exact .spread hx (.ret (hnext t e rfl))
  | _ => exact .neverThen fun _ _ => Read.fail_not_ok

theorem Facing.rangeAhead_eq_none {c : Cursor} (h : Facing (some (.punct .lBrace)) c) :
    Read.rangeAhead 0 c.ahead = none := by
  cases hahead : c.ahead with
  | nil => rfl
  | cons p rest =>
    have htoken : p.token = .punct .lBrace := by simpa [Facing, hahead] using h
    simp [Read.rangeAhead, htoken]

/-- A reader that starts with an opening brace takes no assignment outside of brackets. -/
theorem Begins.braced (h : Begins T lit .free pre m out post)
    (hfacing : ∀ c a c', m c = .ok (a, c') → Facing (some (.punct .lBrace)) c) :
    Begins T lit .firm pre m out post := by
  intro c a c' hs hlit hp hm
  obtain ⟨hread, hpost⟩ := h c a c' hs hlit hp hm
  have hbrace := hfacing c a c' hm
  refine ⟨⟨hread.walks, hread.literals, hread.next, hread.mark, hread.told, hread.inside,
    hread.accounts, hread.even, fun _ => .inl ?_⟩, hpost⟩
  exact hbrace.rangeAhead_eq_none

end Rules

namespace Stmt.Opened

variable {s : Stmt} {p : Placed}

theorem ofBlock {y : Block} (h : Fronts T s.span.start s.fore p) (hbody : s.body = [y.piece])
    (hy : y.tag.span.start = p.span.start) : s.Opened T p where
  toFronts := h
  body := by
    rw [hbody]
    exact List.forall_mem_singleton.2 (Nat.le_of_eq hy.symm)
  block x hx := by
    rw [hbody] at hx
    cases List.mem_singleton.1 hx
    exact hy

theorem ofClauses {cs : List Clause} (h : Fronts T s.span.start s.fore p)
    (hbody : s.body = cs.map Clause.piece)
    (hcs : ∀ x ∈ cs.map Clause.piece, p.span.start ≤ x.tag.span.start) : s.Opened T p where
  toFronts := h
  body := by
    rw [hbody]
    exact hcs
  block x hx := by
    rw [hbody] at hx
    obtain ⟨_, _, hx⟩ := List.mem_map.1 hx
    cases hx

end Stmt.Opened

theorem Read.guard?_ok {s : Simple} {bind : Option Name} {e : Expr}
    (h : Read.guard? s = some (bind, e)) :
    (Node.simple s).pieces = bind.toList.map Name.piece ++ [e.piece] ∧ e ∈ s.exprs := by
  unfold Read.guard? at h
  split at h
  iterate 2
    split at h
    · cases h
      exact ⟨rfl, List.mem_cons_self⟩
    · cases h
  cases h

/-- The type of a literal is a name, or stood in front of the brace as a type. -/
theorem Throughout.literalType {literals : Bool} {x : Expr} {type : Tag → TypeExpr} {t : Tag}
    (h : Read.literalType? literals x = some type) (hx : Throughout (Node.Told T) (.expr x)) :
    Throughout (Node.Told T) (.type (type t)) := by
  unfold Read.literalType? at h
  split at h
  iterate 2
    split at h
    · cases h
      exact .named
    · cases h
  iterate 4
    cases h
    exact hx.child (by simp [Node.pieces])
  cases h

theorem Read.literalType?_ne_named {x : Expr} {type : Tag → TypeExpr} {t u : Tag}
    {pkg : Option String} {n : String} (h : Read.literalType? false x = some type) :
    type t ≠ .named u pkg n := by
  unfold Read.literalType? at h
  split at h
  all_goals
    cases h
    try simp

theorem Read.block_ok {fuel : Nat} {c c' : Cursor} {b : Block} (h : Read.block fuel c = .ok (b, c')) :
    Facing (some (.punct .lBrace)) c ∧ b.tag.span.start = c.next := by
  cases fuel with
  | zero =>
    rw [Read.block] at h
    exact absurd h Read.exhausted_not_ok
  | succ fuel =>
    rw [Read.block] at h
    obtain ⟨s, c1, hs, h⟩ := Read.bind_ok.1 h
    cases hs
    obtain ⟨_, _, he, h⟩ := Read.bind_ok.1 h
    obtain ⟨_, _, _, h⟩ := Read.bind_ok.1 h
    obtain ⟨_, _, _, h⟩ := Read.bind_ok.1 h
    obtain ⟨t, _, ht, h⟩ := Read.bind_ok.1 h
    cases ht
    obtain ⟨rfl, _⟩ := Read.pure_ok.1 h
    exact ⟨(Read.expect_ok he).1, rfl⟩

theorem Spends.stepAs {α β : Type} {T : List Placed} {lit : Bool} {w v : Mode} {b : Cursor} {k : Nat}
    {pre : Cursor → Prop} {ps : List Piece} {m : Read α} {f : α → Read β} {out' : β → List Piece}
    {post' : β → Prop} (u : Mode) (out : α → List Piece) (post : α → Prop)
    (h : Begins T lit u pre m out post) (hu : w.admits k u = true)
    (hnext : ∀ a, post a → Spends T lit w v b k Anywhere (ps ++ out a) (f a) out' post') :
    Spends T lit w v b k pre ps (m >>= f) out' post' := .step h hu hnext

theorem Spends.block {β : Type} {T : List Placed} {lit : Bool} {w v u : Mode} {b : Cursor} {k : Nat}
    {pre : Cursor → Prop} {ps : List Piece} {fuel : Nat} {f : Block → Read β} {out : β → List Piece}
    {post : β → Prop} (hw : w.own = false)
    (h : Begins T lit u pre (Read.block fuel) (fun y => [y.piece]) fun _ => True)
    (hu : w.admits k u = true)
    (hnext : ∀ y p, Fronts T b.next ps p → y.tag.span.start = p.span.start →
      Spends T lit w v b k Anywhere (ps ++ [y.piece]) (f y) out post) :
    Spends T lit w v b k pre ps (Read.block fuel >>= f) out post := by
  apply Spends.stepFrom h hu
  intro c y c' hs hm _ _
  obtain ⟨hfacing, hstart⟩ := Read.block_ok hm
  obtain ⟨p, hp, hfront⟩ := hs.fronts hw hfacing
  exact hnext y p hp (hstart.trans hfront.symm)

/-- If a scan has found a range clause, and there is none behind the token ahead, it was the token. -/
theorem Mode.pass?_of_rangeAhead {p : Placed} {rest : List Placed}
    (hp : Read.rangeAhead 0 (p :: rest) ≠ none) (hrest : Read.rangeAhead 0 rest = none)
    (hparen : p.token ≠ .punct .lParen) (hbrack : p.token ≠ .punct .lBrack) :
    Mode.free.pass? 0 p.token = some 0 := by
  unfold pass?
  split
  · rename_i htoken
    exact absurd htoken hparen
  · rename_i htoken
    exact absurd htoken hbrack
  iterate 3
    rename_i htoken
    simp [Read.rangeAhead, htoken, hrest] at hp
  all_goals rfl

/-- The end of a range clause, behind its variables. A scan for it has started with them, so the token
in front of the keyword is an assignment. -/
theorem Since.ranged {T : List Placed} {b c c' : Cursor} {ps : List Piece} {fuel : Nat} {define : Bool}
    {f : Expr → LoopHead} {h : LoopHead} (hsince : Since T false .firm b 0 ps c)
    (hc : Unbracketed c) (hscan : Read.rangeAhead 0 b.ahead = some define)
    (hexpr : Begins T false .firm Anywhere (Read.expr fuel) (fun e => [e.piece])
      fun e => false = false → e.Clear)
    (hm : (do
      let _ ← Read.take
      Read.expect (.keyword .rangeKw)
      let e ← Read.expr fuel
      return f e : Read LoopHead) c = .ok (h, c')) (hbrace : Facing (some (.punct .lBrace)) c') :
    ∃ e, h = f e ∧ e.Clear ∧ Since T false .free b 0 (ps ++ [e.piece]) c' := by
  obtain ⟨p, c1, ht, hm⟩ := Read.bind_ok.1 hm
  obtain ⟨_, c2, hrange, hm⟩ := Read.bind_ok.1 hm
  obtain ⟨e, c3, he, hm⟩ := Read.bind_ok.1 hm
  obtain ⟨rfl, rfl⟩ := Read.pure_ok.1 hm
  have hfound : Read.rangeAhead 0 c.ahead = some define := by
    rcases hsince.through rfl with hnone | hsame
    · rw [hscan] at hnone
      cases hnone
    · rw [← hsame, hscan]
  have hahead : c.ahead = p :: c1.ahead := by
    refine (Read.take_ok ht).2.resolve_left fun hnil => ?_
    rw [hnil] at hfound
    cases hfound
  have hread : Spends T false .firm .firm c1 0 Anywhere []
      (Read.expect (.keyword .rangeKw) >>= fun _ => Read.expr fuel) (fun e => [e.piece])
        fun e => false = false → e.Clear :=
    .expect rfl (.last hexpr rfl fun e he => .pure rfl (by simp) he)
  have hfresh : Since T false .firm c1 0 [] c1 :=
    .fresh (hsince.walks.take ht).1 ((Read.take_ok ht).1.trans hsince.literals) rfl
  obtain ⟨hsubject, hclear⟩ := hread c1 e c3 hfresh trivial (Read.bind_ok.2 ⟨_, c2, hrange, he⟩)
  -- a scan from the keyword on meets no range clause in front of the brace
  have hnone : Read.rangeAhead 0 c1.ahead = none :=
    (hsubject.through rfl).elim (fun h => h) fun h => h.trans hbrace.rangeAhead_eq_none
  have hpass := Mode.pass?_of_rangeAhead (by rw [← hahead, hfound]; simp) hnone
    (fun h => hc.1 (by simp [Facing, hahead, h])) fun h => hc.2 (by simp [Facing, hahead, h])
  have hfree : Since T false .free b 0 ps c := hsince.imp rfl (fun _ h => h) fun _ _ => Iff.rfl
  exact ⟨e, rfl, hclear rfl, (hfree.take ht hahead hpass).append hsubject rfl⟩

/-! ## Tokens that always pass -/

section Passes

variable {w : Mode} {k : Nat} {next : Option Token}

/-- Texts and operators pass in every mode, and assignments in statements. -/
theorem Mode.pass?_text (h : (Read.isText next).isSome = true) :
    ∃ t, next = some t ∧ w.pass? k t = some k := by
  unfold Read.isText at h
  split at h
  · exact ⟨_, rfl, rfl⟩
  · exact ⟨_, rfl, rfl⟩
  · cases h

theorem Mode.pass?_unary {op : UnaryOp} (h : next.bind UnaryOp.ofToken? = some op) :
    ∃ t, next = some t ∧ w.pass? k t = some k := by
  obtain ⟨t, rfl, ht⟩ := Option.bind_eq_some_iff.1 h
  refine ⟨t, rfl, ?_⟩
  unfold UnaryOp.ofToken? at ht
  split at ht
  all_goals first | rfl | cases ht

theorem Mode.pass?_binary {op : BinaryOp} (h : next.bind BinaryOp.ofToken? = some op) :
    ∃ t, next = some t ∧ w.pass? k t = some k := by
  obtain ⟨t, rfl, ht⟩ := Option.bind_eq_some_iff.1 h
  refine ⟨t, rfl, ?_⟩
  unfold BinaryOp.ofToken? at ht
  split at ht
  · split at ht
    all_goals first | rfl | cases ht
  · cases ht

theorem Mode.pass?_assign {op : AssignOp} (h : next.bind AssignOp.ofToken? = some op) :
    ∃ t, next = some t ∧ Mode.free.pass? k t = some k := by
  obtain ⟨t, rfl, ht⟩ := Option.bind_eq_some_iff.1 h
  refine ⟨t, rfl, ?_⟩
  unfold AssignOp.ofToken? at ht
  split at ht
  · split at ht
    all_goals first | rfl | cases ht
  · cases ht

theorem Mode.pass?_branch {kind : BranchKind} (h : next.bind BranchKind.ofToken? = some kind) :
    ∃ t, next = some t ∧ w.pass? k t = some k := by
  obtain ⟨t, rfl, ht⟩ := Option.bind_eq_some_iff.1 h
  refine ⟨t, rfl, ?_⟩
  unfold BranchKind.ofToken? at ht
  split at ht
  all_goals first | rfl | cases ht

theorem Mode.pass?_decl {t : Token} (h : (DeclKind.ofToken? t).isSome = true) :
    w.pass? k t = some k := by
  unfold DeclKind.ofToken? at h
  split at h
  all_goals first | rfl | cases h

end Passes

end FuncLift
