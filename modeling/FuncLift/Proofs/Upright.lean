import FuncLift.Proofs.Strips
import FuncLift.Proofs.Reading

/-!
# The grammar reads upright trees

Every production returns a tree in which nodes lie inside of each other as the text says, and the
tree lies between the token it starts at and the last token that was taken. Where a production reads
something again as something else, it stays where it was. The proof is one induction on the budget
over all productions at once.
-/
namespace FuncLift

namespace Param

/-- An entry with a type takes the room of a field; a bare name is a name. -/
def piece : Param → Piece
  | .bare n _ => n.piece
  | .typed n type variadic span => .child (.field ⟨⟨0, span⟩, n.toList, type, variadic, none⟩)

/-- The span of a bare name starts with the name. -/
def Starts : Param → Prop
  | .bare n span => span.start = n.tag.span.start
  | .typed .. => True

end Param

/-- Names that turn out to be types are fields where they stand, and so are entries with a type. -/
theorem fieldOfName {n : Name} {t u : Tag} (ht : t.span = n.tag.span) (hu : u.span = n.tag.span)
    (hn : n.piece.Sound) : Strip n.tag.span.start
      [some (Field.mk u [] (.named t none n.text) false none).piece] n.tag.span.stop := by
  have htype : Upright (.type (.named t none n.text)) := by
    have hone : Strip n.tag.span.start [none] n.tag.span.stop := (Strip.one hn).blur (by simp)
    rw [← show (Node.type (.named t none n.text)).span = n.tag.span from ht] at hone
    exact hone.upright rfl trivial
  have hfield := Strip.wrap (n := .field ⟨u, [], .named t none n.text, false, none⟩)
    (c := .type (.named t none n.text)) (hu.trans ht.symm) rfl rfl (Nat.lt_succ_self _) htype
  rwa [show (Node.type (.named t none n.text)).span = n.tag.span from ht] at hfield

/-- A reader that only hands out numbers. -/
def Still {α : Type} (m : Read α) (post : α → Prop) : Prop :=
  ∀ c a c', m c = .ok (a, c') →
    c'.ahead = c.ahead ∧ c'.size = c.size ∧ c'.reached = c.reached ∧ post a

namespace Still

variable {α β : Type} {m : Read α} {f : α → Read β} {post : α → Prop} {post' : β → Prop}

theorem pure {a : α} (h : post a) : Still (Pure.pure a) post := by
  intro c b c' hm
  obtain ⟨rfl, rfl⟩ := Read.pure_ok.1 hm
  exact ⟨rfl, rfl, rfl, h⟩

theorem bind (h : Still m post) (k : ∀ a, post a → Still (f a) post') : Still (m >>= f) post' := by
  intro c b c'' hm
  obtain ⟨a, c', hm, hf⟩ := Read.bind_ok.1 hm
  obtain ⟨hahead, hsize, hreached, ha⟩ := h c a c' hm
  obtain ⟨kahead, ksize, kreached, hb⟩ := k a ha c' b c'' hf
  exact ⟨kahead.trans hahead, ksize.trans hsize, kreached.trans hreached, hb⟩

theorem tagAt (span : Span) : Still (Read.tagAt span) (·.span = span) := by
  intro c t c' hm
  cases hm
  exact ⟨rfl, rfl, rfl, rfl⟩

theorem fieldsOfTypes (ns : List Name) : Still (Read.fieldsOfTypes ns) fun fs => ∀ lo hi,
    Strip lo (solid (ns.map Name.piece)) hi → Strip lo (solid (fs.map Field.piece)) hi := by
  induction ns with
  | nil => exact pure fun _ _ h => h
  | cons n ns ih =>
    rw [Read.fieldsOfTypes]
    refine bind (tagAt _) fun t ht => bind (tagAt _) fun u hu => bind ih fun fs hfs => pure ?_
    intro lo hi h
    cases h with
    | piece hlo hn hrest => exact ((fieldOfName ht hu hn).widen hlo (Nat.le_refl _)).append (hfs _ _ hrest)

/-- Entries of a parameter list that wait for a type, and the one that has it, make a field. -/
theorem upright_group {lo hi : Nat} {pending : List Name} {n : Name} {type : TypeExpr}
    {variadic : Bool} {span : Span} {t : Tag} {xs : List (Option Piece)}
    (ht : t.span = ⟨(pending.head?.map fun m => m.tag.span.start).getD span.start, span.stop⟩)
    (h : Strip lo (solid (pending.map Name.piece) ++
      some (Param.typed (some n) type variadic span).piece :: xs) hi) :
    Strip lo (some (Field.mk t (pending ++ [n]) type variadic none).piece :: xs) hi := by
  obtain ⟨mid, hpending, hrest⟩ := h.split
  cases hrest with
  | piece hmid hsound hxs =>
    have hspan : (Param.typed (some n) type variadic span).piece.span = span := rfl
    have hparts : Strip span.start (solid [n.piece, type.piece]) span.stop := Nested.strip hsound
    rw [hspan] at hmid hxs
    have hstart : lo ≤ t.span.start ∧
        Strip t.span.start (solid (pending.map Name.piece) ++ solid [n.piece, type.piece]) span.stop := by
      rw [ht]
      cases pending with
      | nil => exact ⟨Nat.le_trans hpending.le hmid, hparts⟩
      | cons m ms =>
        cases hpending with
        | piece hlo hm hms =>
          exact ⟨hlo, .piece (Nat.le_refl _) hm (hms.append (hparts.widen hmid (Nat.le_refl _)))⟩
    have hstop : t.span.stop = span.stop := by rw [ht]
    have hfield : Upright (.field ⟨t, pending ++ [n], type, variadic, none⟩) := by
      have hall := hstart.2
      rw [← hstop] at hall
      exact Strip.upright (n := .field ⟨t, pending ++ [n], type, variadic, none⟩) hall (by simp [Node.pieces]) (by cases pending <;> simp [Opens, Node.list])
    exact .piece hstart.1 hfield (hxs.widen (Nat.le_of_eq hstop) (Nat.le_refl _))

/-- Grouping a parameter list leaves everything where it stands. -/
theorem group (ps : List Param) : ∀ pending : List Name, (∀ p ∈ ps, p.Starts) →
    Still (Read.group pending (pending.head?.map fun n => n.tag.span.start) ps) fun fs => ∀ lo hi,
      Strip lo (solid (pending.map Name.piece ++ ps.map Param.piece)) hi →
        Strip lo (solid (fs.map Field.piece)) hi := by
  induction ps with
  | nil =>
    intro pending _
    simpa [Read.group] using fieldsOfTypes pending
  | cons p ps ih =>
    intro pending hstarts
    have hps : ∀ q ∈ ps, q.Starts := fun q hq => hstarts q (List.mem_cons_of_mem _ hq)
    rcases p with ⟨n, span⟩ | ⟨_ | n, type, variadic, span⟩
    · rw [Read.group]
      have hspan : span.start = n.tag.span.start := hstarts _ List.mem_cons_self
      have hfirst : some ((pending.head?.map fun m => m.tag.span.start).getD span.start) =
          (pending ++ [n]).head?.map fun m => m.tag.span.start := by
        cases pending <;> simp [hspan]
      rw [hfirst]
      simpa [Param.piece] using ih (pending ++ [n]) hps
    · rw [Read.group]
      refine bind (fieldsOfTypes pending) fun before hbefore => bind (tagAt _) fun t ht =>
        bind (ih [] hps) fun fs hfs => pure fun lo hi h => ?_
      rw [List.map_cons, solid_append, solid_cons] at h
      obtain ⟨mid, hpending, hrest⟩ := h.split
      cases hrest with
      | piece hmid hsound hrest =>
        have hfield : Upright (.field ⟨t, [], type, variadic, none⟩) := by
          have hparts : Strip span.start (solid [type.piece]) span.stop := Nested.strip hsound
          rw [← show (Node.field ⟨t, [], type, variadic, none⟩).span = span from ht] at hparts
          exact hparts.upright rfl ⟨rfl, .inl (Nat.lt_succ_self _)⟩
        have hspan : (Field.mk t [] type variadic none).piece.span = span := ht
        rw [List.map_append, solid_append, List.map_cons, solid_cons]
        refine (hbefore _ _ hpending).append (.piece (hspan ▸ hmid) hfield ?_)
        rw [hspan]
        exact hfs _ _ hrest
    · rw [Read.group]
      refine bind (tagAt _) fun t ht => bind (ih [] hps) fun fs hfs => pure fun lo hi h => ?_
      rw [List.map_cons, solid_append, solid_cons] at h
      have hfield := upright_group ht h
      cases hfield with
      | piece hlo hsound hrest =>
        rw [List.map_cons, solid_cons]
        exact .piece hlo hsound (hfs _ _ hrest)

end Still

/-- Handing out numbers reads nothing. -/
theorem Lays.still {α β : Type} {s : Nat} {pre : Cursor → Prop} {xs : List (Option Piece)}
    {m : Read α} {f : α → Read β} {post : α → Prop} {out' : β → List Piece} {post' : β → Prop}
    (h : Still m post) (k : ∀ a, post a → Lays s Anywhere xs (f a) out' post') :
    Lays s pre xs (m >>= f) out' post' := by
  intro r c b c'' hs _ hm
  obtain ⟨a, c', hm, hf⟩ := Read.bind_ok.1 hm
  obtain ⟨hahead, hsize, hreached, ha⟩ := h c a c' hm
  exact k a ha r c' b c'' (hs.same hahead hsize hreached) trivial hf

/-- A list with one expression is that expression. -/
theorem Lays.single {β : Type} {s u : Nat} {pre : Cursor → Prop} {es : List Expr}
    {f : Expr → Read β} {out : β → List Piece} {post : β → Prop}
    (k : ∀ e, Lays s pre [some e.piece] (f e) out post) :
    Lays s pre (solid (es.map Expr.piece)) (Read.single u es >>= f) out post := by
  rcases es with _ | ⟨e, _ | ⟨e', es⟩⟩
  · simp only [Read.single, bind_assoc]
    exact .spanFrom fun _ _ => .neverThen fun _ _ => Read.fail_not_ok
  · exact .ret (k e)
  · simp only [Read.single, bind_assoc]
    exact .spanFrom fun _ _ => .neverThen fun _ _ => Read.fail_not_ok

/-- A statement that is an expression is the expression, where it stands. -/
theorem Lays.exprOf {β : Type} {s : Nat} {pre : Cursor → Prop} (xs : List (Option Piece))
    {ys : List (Option Piece)} {simple : Simple} {f : Expr → Read β} {out : β → List Piece}
    {post : β → Prop}
    (k : ∀ e, Lays s pre (xs ++ some e.piece :: ys) (f e) out post) :
    Lays s pre (xs ++ some simple.piece :: ys) (Read.exprOf simple >>= f) out post := by
  cases simple with
  | expr t e => exact .ret ((k e).imp (by simp) fun lo hi h => h.replace _ fun hsound => hsound.strip)
  | _ => exact .neverThen fun _ _ => Read.fail_not_ok

/-- The guard of a type switch lies where its statement stands. -/
theorem strip_guard {simple : Simple} {bind : Option Name} {e : Expr}
    (h : Read.guard? simple = some (bind, e)) (hsound : simple.piece.Sound) :
    Strip simple.span.start (solid (bind.toList.map Name.piece ++ [e.piece])) simple.span.stop := by
  unfold Read.guard? at h
  split at h
  · split at h
    · cases h
      exact Nested.strip hsound
    · cases h
  · split at h
    · cases h
      exact Nested.strip hsound
    · cases h
  · cases h

/-- The type of a literal lies where its operand stands. -/
theorem strip_literalType {literals : Bool} {x : Expr} {type : Tag → TypeExpr} {t : Tag}
    (h : Read.literalType? literals x = some type) (ht : t.span = x.span) (hsound : x.piece.Sound) :
    Strip x.span.start [some (type t).piece] x.span.stop := by
  have hnamed (pkg : Option String) (n : String) :
      Strip x.span.start [some (TypeExpr.named t pkg n).piece] x.span.stop := by
    have htype : Upright (.type (.named t pkg n)) := by
      have hone : Strip x.span.start [none] x.span.stop :=
        (Strip.one (p := x.piece) hsound).blur (by simp)
      rw [← show (Node.type (.named t pkg n)).span = x.span from ht] at hone
      exact hone.upright rfl trivial
    have hone := Strip.one (p := .child (.type (.named t pkg n))) htype
    rwa [show (Piece.child (.type (.named t pkg n))).span = x.span from ht] at hone
  unfold Read.literalType? at h
  split at h
  · split at h
    · cases h
      exact hnamed _ _
    · cases h
  · split at h
    · cases h
      exact hnamed _ _
    · cases h
  iterate 4
    cases h
    exact Nested.strip hsound
  cases h

/-- All productions with the same budget. -/
structure ReadsUpright (fuel : Nat) : Prop where
  typeExpr : Reads (Read.typeExpr fuel) fun t => [t.piece]
  structFields : Reads (Read.structFields fuel) (·.map Field.piece)
  interfaceMethods : Reads (Read.interfaceMethods fuel) (·.map Field.piece)
  signature : Reads (Read.signature fuel) fun s => [s.piece]
  parameters : ∀ {β : Type} {s : Nat} {pre : Cursor → Prop} {xs : List (Option Piece)}
    {f : List Field → Read β} {out : β → List Piece} {post : β → Prop},
    (∀ fs, Lays s Anywhere (xs ++ none :: solid (fs.map Field.piece)) (f fs) out post) →
      Lays s pre xs (Read.parameters fuel >>= f) out post
  params : ∀ s, Lays s Anywhere [] (Read.params fuel) (·.map Param.piece) (∀ p ∈ ·, p.Starts)
  param : ∀ s, Lays s Anywhere [] (Read.param fuel) (fun p => [p.piece]) Param.Starts
  block : Reads (Read.block fuel) fun b => [b.piece]
  stmts : Reads (Read.stmts fuel) (·.map Stmt.piece)
  stmt : Reads (Read.stmt fuel) fun s => [s.piece]
  simple : Reads (Read.simple fuel) fun s => [s.piece]
  ifElse : Reads (Read.ifElse fuel) fun s => [s.piece]
  loop : Reads (Read.loop fuel) fun s => [s.piece]
  loopHead : Reads (Read.loopHead fuel) LoopHead.pieces
  clauseHead : ∀ s (init : Option Simple), Lays s Anywhere (solid (init.toList.map Simple.piece))
    (Read.clauseHead fuel init) LoopHead.pieces fun _ => True
  switch : Reads (Read.switch fuel) fun s => [s.piece]
  switchHead : Reads (Read.switchHead fuel) fun p =>
    p.1.toList.map Simple.piece ++ p.2.toList.map Simple.piece
  clauses : ∀ types, Reads (Read.clauses fuel types) (·.map Clause.piece)
  clause : ∀ types, Reads (Read.clause fuel types) fun c => [c.piece]
  select : Reads (Read.select fuel) fun s => [s.piece]
  comms : Reads (Read.comms fuel) (·.map Comm.piece)
  comm : Reads (Read.comm fuel) fun c => [c.piece]
  exprs : Reads (Read.exprs fuel) (·.map Expr.piece)
  typeExprs : Reads (Read.typeExprs fuel) (·.map TypeExpr.piece)
  expr : Reads (Read.expr fuel) fun e => [e.piece]
  binary : ∀ least, Reads (Read.binary fuel least) fun e => [e.piece]
  binaryRest : ∀ least s x, Lays s Anywhere [some x.piece] (Read.binaryRest fuel least s x)
    (fun e => [e.piece]) fun _ => True
  unary : Reads (Read.unary fuel) fun e => [e.piece]
  primary : Reads (Read.primary fuel) fun e => [e.piece]
  primaryRest : ∀ s x, Lays s Anywhere [some x.piece] (Read.primaryRest fuel s x)
    (fun e => [e.piece]) fun _ => True
  bracket : ∀ s x, Lays s Anywhere [some x.piece, none] (Read.bracket fuel x)
    (fun build => x.piece :: (Node.expr (build default)).pieces.tail)
    fun build => ∀ t, (build t).tag = t ∧
      (Node.expr (build t)).pieces = x.piece :: (Node.expr (build default)).pieces.tail
  arguments : Reads (Read.arguments fuel) fun p => p.1.map Expr.piece
  composite : ∀ s (type : Option TypeExpr), Lays s Anywhere
    (solid (type.toList.map TypeExpr.piece)) (Read.composite fuel s type) (fun e => [e.piece])
    fun _ => True
  elements : Reads (Read.elements fuel) (·.flatMap Element.pieces)
  element : Reads (Read.element fuel) fun e => [e.piece]
  operand : Reads (Read.operand fuel) fun e => [e.piece]
  decl : ∀ s t, (DeclKind.ofToken? t).isSome = true →
    Lays s (Facing (some t)) [] (Read.decl fuel) (fun d => [d.piece]) fun _ => True
  specs : ∀ kind, Reads (Read.specs fuel kind) (·.map Spec.piece)
  spec : ∀ kind, Reads (Read.spec fuel kind) fun s => [s.piece]

namespace ReadsUpright

attribute [local simp] Node.pieces Node.list Node.rank Opens

variable {fuel : Nat} (ih : ReadsUpright fuel)

include ih

theorem typeExpr_succ : Reads (Read.typeExpr (fuel + 1)) fun t => [t.piece] := by
  intro s
  rw [Read.typeExpr]
  refine .startPeek fun s next => ?_
  split
  · refine .of_anywhere (.step .name fun n _ => .eat (by simp) ?_ ?_)
    · refine .step .name fun sel _ => ?_
      exact .blur (.made (fun _ => rfl) fun _ => ⟨rfl, by simp, by simp⟩) (by simp)
    · exact .blur (.made (fun _ => rfl) fun _ => ⟨rfl, by simp, by simp⟩) (by simp)
  · refine .takeFacing (by simp) fun _ => ?_
    refine .step ih.typeExpr fun elem _ => ?_
    exact .made (fun _ => rfl) fun _ => ⟨rfl, by simp, by simp⟩
  · refine .takeFacing (by simp) fun _ => .eat (by simp) ?_ (.eat (by simp) ?_ ?_)
    · exact .step ih.typeExpr fun elem _ => .made (fun _ => rfl) fun _ => ⟨rfl, by simp, by simp⟩
    · refine .expect (by simp) ?_
      refine .step ih.typeExpr fun elem _ => ?_
      exact .made (fun _ => rfl) fun _ => ⟨rfl, by simp, by simp⟩
    · refine .step (fun s => .withLiterals (ih.expr s)) fun len _ => .expect (by simp) ?_
      refine .step ih.typeExpr fun elem _ => ?_
      exact .made (fun _ => rfl) fun _ => ⟨rfl, by simp, by simp⟩
  · refine .takeFacing (by simp) fun _ => .expect (by simp) ?_
    refine .step ih.typeExpr fun key _ => .expect (by simp) ?_
    refine .step ih.typeExpr fun value _ => ?_
    exact .made (fun _ => rfl) fun _ => ⟨rfl, by simp, by simp⟩
  · refine .takeFacing (by simp) fun _ => .eat (by simp) ?_ ?_
    · exact .step ih.typeExpr fun elem _ => .made (fun _ => rfl) fun _ => ⟨rfl, by simp, by simp⟩
    · exact .step ih.typeExpr fun elem _ => .made (fun _ => rfl) fun _ => ⟨rfl, by simp, by simp⟩
  · refine .takeFacing (by simp) fun _ => .expect (by simp) ?_
    refine .step ih.typeExpr fun elem _ => ?_
    exact .made (fun _ => rfl) fun _ => ⟨rfl, by simp, by simp⟩
  · refine .takeFacing (by simp) fun _ => ?_
    refine .step ih.signature fun sig _ => ?_
    exact .made (fun _ => rfl) fun _ => ⟨rfl, by simp, by simp⟩
  · refine .takeFacing (by simp) fun _ => .expect (by simp) ?_
    refine .step ih.structFields fun fs _ => ?_
    exact .made (fun _ => rfl) fun _ => ⟨rfl, by simp, by simp⟩
  · refine .takeFacing (by simp) fun _ => .expect (by simp) ?_
    refine .step ih.interfaceMethods fun ms _ => ?_
    exact .made (fun _ => rfl) fun _ => ⟨rfl, by simp, by simp⟩
  · refine .takeFacing (by simp) fun _ => ?_
    refine .step ih.typeExpr fun inner _ => ?_
    exact .expect (by simp) (.pure rfl trivial)
  · exact .unexpected

theorem structFields_succ : Reads (Read.structFields (fuel + 1)) (·.map Field.piece) := by
  intro s
  rw [Read.structFields]
  refine .peek fun next => ?_
  split
  · exact .of_anywhere (.expect (by simp) (.pure rfl trivial))
  · refine .of_anywhere (.start fun s => .of_anywhere (.peekSecond fun second => ?_))
    extract_lets embedded jp
    have hjp : ∀ ns, Lays s Anywhere (solid (ns.map Name.piece)) (jp ns) (·.map Field.piece)
        fun _ => True := by
      intro ns
      refine .step ih.typeExpr fun type _ => .peek fun after => ?_
      extract_lets label done
      have hdone : Lays s Anywhere (solid (ns.map Name.piece) ++ solid [type.piece]) (done ())
          (·.map Field.piece) fun _ => True := by
        refine .tag (fun t => .field ⟨t, ns, type, false, label⟩) (fun t => .endStatement
          (.step ih.structFields fun fs _ => .pure (by simp) trivial))
          fun t => ⟨rfl, by simp, ?_⟩
        cases ns <;> simp
      split
      · exact .skip fun _ => hdone
      · exact hdone.of_anywhere
    split
    · exact .ret (hjp [])
    · exact .step (.names fuel) fun ns _ => hjp ns

theorem interfaceMethods_succ : Reads (Read.interfaceMethods (fuel + 1)) (·.map Field.piece) := by
  intro s
  rw [Read.interfaceMethods]
  refine .peek fun next => ?_
  split
  · exact .of_anywhere (.expect (by simp) (.pure rfl trivial))
  · refine .of_anywhere (.start fun s => .of_anywhere (.peekSecond fun second => ?_))
    extract_lets jp
    have hjp : ∀ ns type, Lays s Anywhere (solid (ns.map Name.piece) ++ solid [type.piece])
        (jp (ns, type)) (·.map Field.piece) fun _ => True := by
      intro ns type
      refine .tag (fun t => .field ⟨t, ns, type, false, none⟩) (fun t => .endStatement
        (.step ih.interfaceMethods fun fs _ => .pure (by simp) trivial))
        fun t => ⟨rfl, by simp, ?_⟩
      cases ns <;> simp
    split
    · refine .step .name fun n _ => ?_
      exact .nodeHere ih.signature (fun sig t => .type (.func t sig)) (fun sig t => .ret
        (hjp [n] _)) fun _ _ => ⟨rfl, by simp, by simp⟩
    · exact .step ih.typeExpr fun type _ => .ret (hjp [] type)

theorem signature_succ : Reads (Read.signature (fuel + 1)) fun s => [s.piece] := by
  intro s
  rw [Read.signature]
  refine .start fun s => ih.parameters fun params => .peek fun next => ?_
  extract_lets jp
  have hjp : ∀ results : List Field, Lays s Anywhere (none :: solid (params.map Field.piece) ++
      solid (results.map Field.piece)) (jp results) (fun s => [s.piece]) fun _ => True :=
    fun results => .made (fun _ => rfl) fun _ => ⟨rfl, by simp, by simp⟩
  split
  · exact ih.parameters fun results => (hjp results).imp (by simp) fun lo hi h => h.drop _
  · split
    · refine .of_anywhere ?_
      refine .step ih.typeExpr fun type _ => ?_
      refine .tagAt (fun _ _ h => h) fun t ht => .ret ?_
      refine (hjp [⟨t, [], type, false, none⟩]).imp (by simp) fun lo hi h => ?_
      exact h.replace _ fun hsound => Strip.wrap (n := .field ⟨t, [], type, false, none⟩) ht rfl rfl
        (Nat.lt_succ_self _) hsound
    · exact .of_anywhere (.ret ((hjp []).imp (by simp) fun lo hi h => by simpa using h))

theorem parameters_succ {β : Type} {s : Nat} {pre : Cursor → Prop} {xs : List (Option Piece)}
    {f : List Field → Read β} {out : β → List Piece} {post : β → Prop}
    (k : ∀ fs, Lays s Anywhere (xs ++ none :: solid (fs.map Field.piece)) (f fs) out post) :
    Lays s pre xs (Read.parameters (fuel + 1) >>= f) out post := by
  rw [Read.parameters]
  simp only [bind_assoc]
  refine .expect (by simp) ?_
  refine .step ih.params fun ps hps => ?_
  refine .expect (by simp) (.still (.group ps [] hps) ?_)
  intro fs hfs
  refine (k fs).imp (by simp) fun lo hi h => ?_
  rw [List.append_assoc] at h
  obtain ⟨mid, hopen, hrest⟩ := h.split
  have hparams : Strip mid (solid (ps.map Param.piece)) hi := by simpa using hrest.drop _
  simpa using hopen.append (hfs mid hi hparams)

theorem params_succ (s : Nat) : Lays s Anywhere [] (Read.params (fuel + 1)) (·.map Param.piece)
    (∀ p ∈ ·, p.Starts) := by
  rw [Read.params]
  refine .at_ fun done => ?_
  split
  · exact .pure rfl (by simp)
  · refine .step ih.param fun p hp => .eat (by simp) ?_ ?_
    · exact .step ih.params fun ps hps => .pure (by simp) (by simpa using ⟨hp, hps⟩)
    · exact .pure (by simp) (by simpa using hp)

theorem param_succ (s : Nat) : Lays s Anywhere [] (Read.param (fuel + 1)) (fun p => [p.piece])
    Param.Starts := by
  rw [Read.param]
  refine .startPeekAt fun s next => ?_
  split
  · refine .nameFirst (fun n hn => .peek fun after => ?_) fun c hc => hc.2
    split
    iterate 2 exact .spanFrom fun span hspan => .pure rfl (hspan.trans hn.symm)
    · refine .takeFacing (by simp) fun _ => .step .name fun sel _ => ?_
      exact .blur (.tag (fun t => .type (.named t (some n.text) sel.text)) (fun t => .spanNode
        (fun span => .field ⟨⟨0, span⟩, [], .named t (some n.text) sel.text, false, none⟩) (fun
        span => .pure rfl trivial) fun _ => ⟨rfl, by simp, by simp⟩) fun _ => ⟨rfl, by simp, by
        simp⟩) (by simp)
    · refine .takeFacing (by simp) fun _ => ?_
      refine .step ih.typeExpr fun type _ => ?_
      exact .spanNode (fun span => .field ⟨⟨0, span⟩, [n], type, true, none⟩)
        (fun span => .pure rfl trivial) fun _ => ⟨rfl, by simp, by simp⟩
    · refine .of_anywhere ?_
      refine .step ih.typeExpr fun type _ => ?_
      exact .spanNode (fun span => .field ⟨⟨0, span⟩, [n], type, false, none⟩)
        (fun span => .pure rfl trivial) fun _ => ⟨rfl, by simp, by simp⟩
  · refine .take (fun c hc => ⟨_, hc.1, (by simp)⟩) fun _ _ => ?_
    refine .step ih.typeExpr fun type _ => ?_
    exact .spanNode (fun span => .field ⟨⟨0, span⟩, [], type, true, none⟩)
      (fun span => .pure rfl trivial) fun _ => ⟨rfl, by simp, by simp⟩
  · refine .of_anywhere ?_
    refine .step ih.typeExpr fun type _ => ?_
    exact .spanNode (fun span => .field ⟨⟨0, span⟩, [], type, false, none⟩)
      (fun span => .pure rfl trivial) fun _ => ⟨rfl, by simp, by simp⟩

theorem block_succ : Reads (Read.block (fuel + 1)) fun b => [b.piece] := by
  intro s
  rw [Read.block]
  refine .start fun s => .expect (by simp) ?_
  refine .step (fun s => .withLiterals (ih.stmts s)) fun body _ => ?_
  exact .expect (by simp) (.made (fun _ => rfl) fun _ => ⟨rfl, by simp, by simp⟩)

theorem stmts_succ : Reads (Read.stmts (fuel + 1)) (·.map Stmt.piece) := by
  intro s
  rw [Read.stmts]
  refine .peek fun next => ?_
  split
  iterate 4 exact .pure rfl trivial
  · exact .skip fun _ => ih.stmts s
  · refine .of_anywhere ?_
    refine .step ih.stmt fun first _ => .peek fun after => ?_
    extract_lets jp
    have hjp : Lays s Anywhere (solid [first.piece]) (jp ()) (·.map Stmt.piece) fun _ => True :=
      .step ih.stmts fun rest _ => .pure (by simp) trivial
    split
    iterate 4 exact .of_anywhere (.ret hjp)
    exact .endStatement hjp

theorem stmt_succ : Reads (Read.stmt (fuel + 1)) fun s => [s.piece] := by
  intro s
  rw [Read.stmt]
  refine .startPeek fun s next => ?_
  split
  iterate 3
    refine .step (fun s => ih.decl s _ rfl) fun d _ => ?_
    exact .made (fun _ => rfl) fun _ => ⟨rfl, by simp, by simp⟩
  iterate 2
    refine .takeFacing (by simp) fun _ => ?_
    refine .step ih.expr fun e _ => ?_
    exact .made (fun _ => rfl) fun _ => ⟨rfl, by simp, by simp⟩
  · refine .takeFacing (by simp) fun _ => .peek fun after => ?_
    extract_lets jp
    have hjp : ∀ es : List Expr, Lays s Anywhere (none :: solid (es.map Expr.piece)) (jp es)
        (fun s => [s.piece]) fun _ => True := fun es =>
          .made (fun _ => rfl) fun _ => ⟨rfl, by simp, by simp⟩
    split
    iterate 3 exact .of_anywhere (.ret (hjp []))
    refine .of_anywhere ?_
    refine .step ih.exprs fun es _ => ?_
    exact hjp es
  · refine .of_anywhere ?_
    refine .step ih.block fun b _ => ?_
    exact .made (fun _ => rfl) fun _ => ⟨rfl, by simp, by simp⟩
  · exact (ih.ifElse s).of_anywhere
  · exact (ih.loop s).of_anywhere
  · exact (ih.switch s).of_anywhere
  · exact (ih.select s).of_anywhere
  · split
    · rename_i kind hkind
      refine .take (fun c hc => ?_) fun _ _ => .peek fun after => ?_
      · cases next with
        | none => simp at hkind
        | some t =>
          refine ⟨t, hc, ?_⟩
          rintro rfl
          simp [BranchKind.ofToken?] at hkind
      · extract_lets jp
        have hjp : ∀ n : Option Name, Lays s Anywhere (none :: solid (n.toList.map Name.piece))
            (jp n) (fun s => [s.piece]) fun _ => True := fun n =>
              .made (fun _ => rfl) fun _ => ⟨rfl, by simp, by simp⟩
        split
        · split
          · exact .of_anywhere (.ret (hjp none))
          · exact .of_anywhere (.step .name fun n _ => .ret (hjp (some n)))
        · exact .of_anywhere (.ret (hjp none))
    · refine .of_anywhere (.peekSecond fun second => ?_)
      split
      · refine .step .name fun label _ => .skip fun _ => ?_
        refine .step ih.stmt fun inner _ => ?_
        exact .made (fun _ => rfl) fun _ => ⟨rfl, by simp, by simp⟩
      · exact .step ih.simple fun inner _ => .made (fun _ => rfl) fun _ => ⟨rfl, by simp, by simp⟩

theorem simple_succ : Reads (Read.simple (fuel + 1)) fun s => [s.piece] := by
  intro s
  rw [Read.simple]
  refine .start fun s => .of_anywhere (.get fun c => ?_)
  split
  · refine .step (.names fuel) fun ns _ => .expect (by simp) ?_
    refine .step ih.exprs fun vs _ => ?_
    refine .made (fun _ => rfl) fun t => ⟨rfl, by simp, ?_⟩
    cases ns <;> simp
  · refine .step ih.exprs fun lhs _ => .peek fun next => ?_
    split
    · refine .single fun e => .takeFacing (by simp) fun _ => ?_
      exact .made (fun _ => rfl) fun _ => ⟨rfl, by simp, by simp⟩
    · refine .single fun e => .takeFacing (by simp) fun _ => ?_
      exact .made (fun _ => rfl) fun _ => ⟨rfl, by simp, by simp⟩
    · refine .single fun chan => .takeFacing (by simp) fun _ => ?_
      refine .step ih.expr fun value _ => ?_
      exact .made (fun _ => rfl) fun _ => ⟨rfl, by simp, by simp⟩
    · exact .of_anywhere (.spanFrom fun _ _ => .fail)
    · split
      · rename_i op hop
        refine .take (fun c hc => ?_) fun _ _ => .step ih.exprs fun rhs _ =>
          .made (fun _ => rfl) fun t => ⟨rfl, by simp, ?_⟩
        · cases next with
          | none => simp at hop
          | some t =>
            refine ⟨t, hc, ?_⟩
            rintro rfl
            simp [AssignOp.ofToken?] at hop
        · cases lhs <;> simp
      · exact .single fun e => .made (fun _ => rfl) fun _ => ⟨rfl, by simp, by simp⟩

theorem ifElse_succ : Reads (Read.ifElse (fuel + 1)) fun s => [s.piece] := by
  intro s
  rw [Read.ifElse]
  refine .start fun s => .expect (by simp) ?_
  refine .stepAs (fun p => p.1.toList.map Simple.piece ++ [Expr.piece p.2])
    (fun s => .withLiterals (.eatAny fun semi => ?_)) ?_
  · split
    · exact .step ih.expr fun cond _ => .pure rfl trivial
    · refine .step ih.simple fun first _ => .eatAny fun more => ?_
      split
      · exact .step ih.expr fun cond _ => .pure rfl trivial
      · exact .exprOf [] fun cond => .pure rfl trivial
  · rintro ⟨init, cond⟩
    refine .step ih.block fun yes _ => .eat (by simp) (.peek fun next => ?_) ?_
    · split
      · refine .of_anywhere ?_
        refine .step ih.ifElse fun no _ => ?_
        exact .ret (.made (fun _ => rfl) fun _ => ⟨rfl, by simp, by simp⟩)
      · refine .of_anywhere ?_
        exact .nodeHere ih.block (fun b t => .stmt (.block t b)) (fun b u => .ret (.made
          (fun _ => rfl) fun _ => ⟨rfl, by simp, by simp⟩)) fun _ _ => ⟨rfl, by simp, by simp⟩
      · exact .neverThen fun _ _ => Read.unexpected_not_ok
    · exact .ret (.made (fun _ => rfl) fun _ => ⟨rfl, by simp, by simp⟩)

theorem loop_succ : Reads (Read.loop (fuel + 1)) fun s => [s.piece] := by
  intro s
  rw [Read.loop]
  refine .start fun s => .expect (by simp) ?_
  refine .step (fun s => .withLiterals (ih.loopHead s)) fun head _ => ?_
  refine .step ih.block fun body _ => ?_
  exact .made (fun _ => rfl) fun _ => ⟨rfl, by simp, by simp⟩

theorem loopHead_succ : Reads (Read.loopHead (fuel + 1)) LoopHead.pieces := by
  intro s
  rw [Read.loopHead]
  refine .at_ fun forever => ?_
  split
  · exact .pure rfl trivial
  · refine .eat (by simp) ?_ (.get fun c => ?_)
    · exact .step ih.expr fun e _ => .pure rfl trivial
    · split
      · rename_i define _
        refine .step ih.expr fun key _ => .eat (by simp) ?_ ?_
        · refine .step ih.expr fun v _ => ?_
          exact .ret (.skip fun _ => .expect (by simp) (.step ih.expr fun e _ => .pure rfl trivial))
        · exact .ret (.skip fun _ => .expect (by simp) (.step ih.expr fun e _ => .pure rfl trivial))
      · refine .eatAny fun semi => ?_
        split
        · exact ih.clauseHead s none
        · refine .step ih.simple fun init _ => .eatAny fun more => ?_
          split
          · exact ih.clauseHead s (some init)
          · exact .exprOf [] fun e => .pure rfl trivial

theorem clauseHead_succ (s : Nat) (init : Option Simple) : Lays s Anywhere
    (solid (init.toList.map Simple.piece)) (Read.clauseHead (fuel + 1) init) LoopHead.pieces
    fun _ => True := by
  rw [Read.clauseHead]
  refine .at_ fun bare => ?_
  extract_lets jp
  have hjp : ∀ cond : Option Expr, Lays s Anywhere (solid (init.toList.map Simple.piece) ++
      solid (cond.toList.map Expr.piece)) (jp cond) LoopHead.pieces fun _ => True := by
    intro cond
    refine .expectSemi (.at_ fun done => ?_)
    extract_lets jp
    have hjp : ∀ post : Option Simple, Lays s Anywhere (solid (init.toList.map Simple.piece) ++
        solid (cond.toList.map Expr.piece) ++ solid (post.toList.map Simple.piece)) (jp post)
        LoopHead.pieces fun _ => True := fun post => .pure (by simp [LoopHead.pieces]) trivial
    split
    · exact .ret ((hjp none).imp (by simp) fun lo hi h => by simpa using h)
    · exact .step ih.simple fun p _ => .ret (hjp (some p))
  split
  · exact .ret ((hjp none).imp (by simp) fun lo hi h => by simpa using h)
  · exact .step ih.expr fun e _ => .ret (hjp (some e))

theorem switch_succ : Reads (Read.switch (fuel + 1)) fun s => [s.piece] := by
  intro s
  rw [Read.switch]
  refine .start fun s => .expect (by simp) (.step (fun s => .withLiterals (ih.switchHead s)) ?_)
  rintro ⟨init, subject⟩ _
  refine .expect (by simp) (.step (ih.clauses _) fun cs _ => .expect (by simp) ?_)
  dsimp only
  split
  · rename_i bind e hguard
    cases subject with
    | none => simp at hguard
    | some simple =>
      have hguard : Read.guard? simple = some (bind, e) := by simpa using hguard
      have hlaid : Lays s Anywhere (none :: solid (init.toList.map Simple.piece) ++
          (solid (bind.toList.map Name.piece ++ [e.piece]) ++ (none :: solid (cs.map Clause.piece))))
          (do
            let t ← Read.tagFrom s
            pure (Stmt.typeSwitch t init bind e cs)) (fun s => [s.piece]) fun _ => True :=
        .made (fun _ => rfl) fun _ => ⟨rfl, by simp, by simp⟩
      refine hlaid.imp (by simp) fun lo hi h => ?_
      have hplain : Strip lo (none :: solid (init.toList.map Simple.piece) ++
          some simple.piece :: (none :: solid (cs.map Clause.piece))) hi := by
        simpa using h.drop _
      exact hplain.replace _ (strip_guard hguard)
  · cases subject with
    | none => exact .ret (.made (fun _ => rfl) fun _ => ⟨rfl, by simp, by simp⟩)
    | some simple =>
      have hlaid : Lays s Anywhere (none :: solid (init.toList.map Simple.piece) ++
          some simple.piece :: (none :: solid (cs.map Clause.piece))) (do
            let e ← Read.exprOf simple
            let e ← pure (some e)
            let t ← Read.tagFrom s
            pure (Stmt.switch t init e cs)) (fun s => [s.piece]) fun _ => True :=
        .exprOf _ fun e => .ret (.made (fun _ => rfl)
          fun _ => ⟨rfl, by simp, by simp⟩)
      exact hlaid.imp (by simp) fun lo hi h => by simpa using h.drop _

theorem switchHead_succ : Reads (Read.switchHead (fuel + 1)) fun p =>
    p.1.toList.map Simple.piece ++ p.2.toList.map Simple.piece := by
  intro s
  rw [Read.switchHead]
  refine .at_ fun bare => ?_
  split
  · exact .pure rfl trivial
  · refine .at_ fun semi => ?_
    extract_lets jp
    have hjp : ∀ first : Option Simple, Lays s Anywhere (solid (first.toList.map Simple.piece))
        (jp first) (fun p : Option Simple × Option Simple =>
          p.1.toList.map Simple.piece ++ p.2.toList.map Simple.piece) fun _ => True := by
      intro first
      refine .eatAny fun more => ?_
      split
      · refine .at_ fun done => ?_
        split
        · exact .pure (by simp) trivial
        · exact .step ih.simple fun p _ => .pure (by simp) trivial
      · exact .pure (by simp) trivial
    split
    · exact .ret (hjp none)
    · exact .step ih.simple fun p _ => .ret (hjp (some p))

theorem clauses_succ (types : Bool) : Reads (Read.clauses (fuel + 1) types) (·.map Clause.piece) := by
  intro s
  rw [Read.clauses]
  refine .peek fun next => ?_
  split
  · refine .of_anywhere ?_
    refine .step (ih.clause types) fun c _ => ?_
    refine .step (ih.clauses types) fun cs _ => ?_
    exact .pure (by simp) trivial
  · exact .pure rfl trivial

theorem clause_succ (types : Bool) : Reads (Read.clause (fuel + 1) types) fun c => [c.piece] := by
  intro s
  rw [Read.clause]
  refine .start fun s => ?_
  extract_lets jp
  have hjp : ∀ cases : Cases, Lays s Anywhere (none :: solid cases.pieces) (jp cases)
      (fun c => [c.piece]) fun _ => True :=
    fun cases => .expect (by simp) (.step ih.stmts fun body _ =>
      .made (fun _ => rfl) fun _ => ⟨rfl, by simp, by simp⟩)
  refine .eat (by simp) ?_ ?_
  · exact .ret (hjp .default)
  · refine .expect (by simp) ?_
    cases types with
    | true => exact .step ih.typeExprs fun ts _ => .ret (hjp (.types ts))
    | false => exact .step ih.exprs fun es _ => .ret (hjp (.exprs es))

theorem select_succ : Reads (Read.select (fuel + 1)) fun s => [s.piece] := by
  intro s
  rw [Read.select]
  refine .start fun s => .expect (by simp) (.expect (by simp) ?_)
  refine .step ih.comms fun cs _ => ?_
  exact .expect (by simp) (.made (fun _ => rfl) fun _ => ⟨rfl, by simp, by simp⟩)

theorem comms_succ : Reads (Read.comms (fuel + 1)) (·.map Comm.piece) := by
  intro s
  rw [Read.comms]
  refine .peek fun next => ?_
  split
  · refine .of_anywhere ?_
    refine .step ih.comm fun c _ => ?_
    refine .step ih.comms fun cs _ => ?_
    exact .pure (by simp) trivial
  · exact .pure rfl trivial

theorem comm_succ : Reads (Read.comm (fuel + 1)) fun c => [c.piece] := by
  intro s
  rw [Read.comm]
  refine .start fun s => ?_
  extract_lets jp
  have hjp : ∀ guard : Option Simple, Lays s Anywhere (none :: solid (guard.toList.map Simple.piece))
      (jp guard) (fun c => [c.piece]) fun _ => True :=
    fun guard => .expect (by simp) (.step ih.stmts fun body _ =>
      .made (fun _ => rfl) fun _ => ⟨rfl, by simp, by simp⟩)
  refine .eat (by simp) ?_ ?_
  · exact .ret (hjp none)
  · refine .expect (by simp) ?_
    refine .step ih.simple fun p _ => ?_
    exact .ret (hjp (some p))

theorem exprs_succ : Reads (Read.exprs (fuel + 1)) (·.map Expr.piece) := by
  intro s
  rw [Read.exprs]
  refine .step ih.expr fun e _ => .eat (by simp) ?_ ?_
  · exact .step ih.exprs fun es _ => .pure (by simp) trivial
  · exact .pure rfl trivial

theorem typeExprs_succ : Reads (Read.typeExprs (fuel + 1)) (·.map TypeExpr.piece) := by
  intro s
  rw [Read.typeExprs]
  refine .step ih.typeExpr fun t _ => .eat (by simp) ?_ ?_
  · exact .step ih.typeExprs fun ts _ => .pure (by simp) trivial
  · exact .pure rfl trivial

theorem expr_succ : Reads (Read.expr (fuel + 1)) fun e => [e.piece] := by
  intro s
  rw [Read.expr]
  exact ih.binary 1 s

theorem binary_succ (least : Nat) : Reads (Read.binary (fuel + 1) least) fun e => [e.piece] := by
  intro s
  rw [Read.binary]
  exact .start fun s => .of_anywhere (.bind (ih.unary s) fun x _ => ih.binaryRest least s x)

theorem binaryRest_succ (least s : Nat) (x : Expr) : Lays s Anywhere [some x.piece]
    (Read.binaryRest (fuel + 1) least s x) (fun e => [e.piece]) fun _ => True := by
  rw [Read.binaryRest]
  refine .peek fun next => ?_
  split
  · exact .pure rfl trivial
  · rename_i op hop
    split
    · exact .pure rfl trivial
    · refine .take (fun c hc => ?_) fun _ _ => .step (ih.binary _) fun right _ =>
        .tag _ (fun t => ih.binaryRest least s _) fun _ => ⟨rfl, by simp, by simp⟩
      cases next with
      | none => simp at hop
      | some t =>
        refine ⟨t, hc, ?_⟩
        rintro rfl
        simp [BinaryOp.ofToken?] at hop

theorem unary_succ : Reads (Read.unary (fuel + 1)) fun e => [e.piece] := by
  intro s
  rw [Read.unary]
  refine .startPeek fun s next => ?_
  split
  · exact (ih.primary s).of_anywhere
  · rename_i op hop
    refine .take (fun c hc => ?_) fun _ _ => .step ih.unary fun e _ =>
      .made (fun _ => rfl) fun _ => ⟨rfl, by simp, by simp⟩
    cases next with
    | none => simp at hop
    | some t =>
      refine ⟨t, hc, ?_⟩
      rintro rfl
      simp [UnaryOp.ofToken?] at hop

theorem primary_succ : Reads (Read.primary (fuel + 1)) fun e => [e.piece] := by
  intro s
  rw [Read.primary]
  exact .start fun s => .of_anywhere (.bind (ih.operand s) fun x _ => ih.primaryRest s x)

theorem primaryRest_succ (s : Nat) (x : Expr) : Lays s Anywhere [some x.piece]
    (Read.primaryRest (fuel + 1) s x) (fun e => [e.piece]) fun _ => True := by
  rw [Read.primaryRest]
  refine .peek fun next => ?_
  split
  · refine .takeFacing (by simp) fun _ => .eat (by simp) (.eat (by simp) ?_ ?_) ?_
    · exact .ret (.expect (by simp) (.tag (fun t => .expr (.assert t x none))
        (fun t => ih.primaryRest s _) fun _ => ⟨rfl, by simp, by simp⟩))
    · refine .step ih.typeExpr fun type _ => ?_
      exact .ret (.expect (by simp) (.tag (fun t => .expr (.assert t x (some type)))
        (fun t => ih.primaryRest s _) fun _ => ⟨rfl, by simp, by simp⟩))
    · refine .step .name fun sel _ => ?_
      exact .tag _ (fun t => ih.primaryRest s _) fun _ => ⟨rfl, by simp, by simp⟩
  · refine .takeFacing (by simp) fun _ => ?_
    refine .bind (.withLiterals (ih.bracket s x)) fun build hbuild => .expect (by simp) ?_
    refine .tag (fun t => .expr (build t)) (fun t => ih.primaryRest s _)
      fun t => ⟨congrArg Tag.span (hbuild t).1, ?_, by simp⟩
    simpa using (hbuild t).2.symm
  · refine .takeFacing (by simp) fun _ => .step (fun s => .withLiterals (ih.arguments s)) ?_
    rintro ⟨args, spread⟩ _
    exact .expect (by simp) (.tag _ (fun t => ih.primaryRest s _) fun _ => ⟨rfl, by simp, by simp⟩)
  · refine .of_anywhere (.get fun c => ?_)
    split
    · exact .pure rfl trivial
    · rename_i type htype
      refine .tagAt (fun _ _ h => h) fun t ht => ?_
      refine .bind (.imp (ih.composite s _) (by simp) fun lo hi h => ?_)
        fun e _ => ih.primaryRest s e
      exact h.replace [] (strip_literalType htype ht)
  · exact .pure rfl trivial

theorem bracket_succ (s : Nat) (x : Expr) : Lays s Anywhere [some x.piece, none]
    (Read.bracket (fuel + 1) x) (fun build => x.piece :: (Node.expr (build default)).pieces.tail)
    fun build => ∀ t, (build t).tag = t ∧
      (Node.expr (build t)).pieces = x.piece :: (Node.expr (build default)).pieces.tail := by
  rw [Read.bracket]
  refine .at_ fun open_ => ?_
  extract_lets jp
  have hjp : ∀ lo : Option Expr, Lays s Anywhere (some x.piece :: solid (lo.toList.map Expr.piece))
      (jp lo) (fun build => x.piece :: (Node.expr (build default)).pieces.tail)
      fun build => ∀ t, (build t).tag = t ∧
        (Node.expr (build t)).pieces = x.piece :: (Node.expr (build default)).pieces.tail := by
    intro lo
    refine .eatAny fun slices => ?_
    split
    · refine .peek fun next => ?_
      extract_lets hiJp
      have hhi : ∀ hi : Option Expr, Lays s Anywhere (some x.piece ::
          solid (lo.toList.map Expr.piece ++ hi.toList.map Expr.piece)) (hiJp hi)
          (fun build => x.piece :: (Node.expr (build default)).pieces.tail)
          fun build => ∀ t, (build t).tag = t ∧
            (Node.expr (build t)).pieces = x.piece :: (Node.expr (build default)).pieces.tail := by
        intro hi
        refine .eatAny fun full => ?_
        split
        · exact .step ih.expr fun e _ => .ret (.pure (by simp [Node.pieces]) fun t => ⟨rfl, rfl⟩)
        · exact .ret (.pure (by simp [Node.pieces]) fun t => ⟨rfl, rfl⟩)
      split
      · exact .of_anywhere (.ret ((hhi none).imp (by simp) fun a b h => by simpa using h))
      · refine .of_anywhere ?_
        refine .step ih.expr fun e _ => ?_
        exact .ret ((hhi (some e)).imp (by simp) fun a b h => by simpa using h)
    · cases lo with
      | some e => exact .pure (by simp [Node.pieces]) fun t => ⟨rfl, rfl⟩
      | none => exact .unexpected
  split
  · exact .ret ((hjp none).imp (by simp) fun a b h => h.drop [some x.piece])
  · refine .step ih.expr fun e _ => ?_
    exact .ret ((hjp (some e)).imp (by simp) fun a b h => h.drop [some x.piece])

theorem arguments_succ : Reads (Read.arguments (fuel + 1)) fun p => p.1.map Expr.piece := by
  intro s
  rw [Read.arguments]
  refine .at_ fun done => ?_
  split
  · exact .pure rfl trivial
  · refine .step ih.expr fun e _ => .eatAny fun spread => .eat (by simp) ?_ ?_
    · refine .step ih.arguments ?_
      rintro ⟨es, further⟩ _
      exact .pure (by simp) trivial
    · exact .pure rfl trivial

theorem composite_succ (s : Nat) (type : Option TypeExpr) : Lays s Anywhere
    (solid (type.toList.map TypeExpr.piece)) (Read.composite (fuel + 1) s type)
    (fun e => [e.piece]) fun _ => True := by
  rw [Read.composite]
  refine .expect (by simp) ?_
  refine .step (fun s => .withLiterals (ih.elements s)) fun elems _ => .expect (by simp) ?_
  refine .tag (fun t => .expr (.composite t type elems)) (fun t => .pure rfl trivial)
    fun t => ⟨rfl, by simp, ?_⟩
  cases type <;> simp

theorem elements_succ : Reads (Read.elements (fuel + 1)) (·.flatMap Element.pieces) := by
  intro s
  rw [Read.elements]
  refine .at_ fun done => ?_
  split
  · exact .pure rfl trivial
  · have hrest (elem : Element) : Lays s Anywhere (solid elem.pieces) (do
        if ← Read.eatPunct .comma then return elem :: (← Read.elements fuel) else return [elem])
        (·.flatMap Element.pieces) fun _ => True := by
      refine .eat (by simp) ?_ ?_
      · exact .step ih.elements fun es _ => .pure (by simp) trivial
      · exact .pure (by simp) trivial
    refine .step ih.element fun first _ => .eat (by simp) ?_ ?_
    · refine .step ih.element fun value _ => ?_
      exact .ret ((hrest ⟨some first, value⟩).imp (by simp)
        fun lo hi h => h.drop [some first.piece])
    · exact .ret (hrest ⟨none, first⟩)

theorem element_succ : Reads (Read.element (fuel + 1)) fun e => [e.piece] := by
  intro s
  rw [Read.element]
  refine .at_ fun bare => ?_
  split
  · exact .start fun s => .of_anywhere (ih.composite s none)
  · exact ih.expr s

omit ih in
theorem literal {s : Nat} {t : Token} (kind : LitKind) (text : String) (ht : t ≠ .punct .semi) :
    Lays s (Facing (some t)) [] (Read.operand.literal s kind text) (fun e => [e.piece])
      fun _ => True :=
  .takeFacing ht fun _ => .made (fun _ => rfl) fun _ => ⟨rfl, by simp, by simp⟩

theorem operand_succ : Reads (Read.operand (fuel + 1)) fun e => [e.piece] := by
  intro s
  rw [Read.operand]
  refine .startPeek fun s next => ?_
  split
  · exact .takeFacing (by simp) fun _ => .made (fun _ => rfl) fun _ => ⟨rfl, by simp, by simp⟩
  iterate 6 exact literal _ _ (by simp)
  · refine .takeFacing (by simp) fun _ => ?_
    refine .step (fun s => .withLiterals (ih.expr s)) fun inner _ => ?_
    exact .expect (by simp) (.made (fun _ => rfl) fun _ => ⟨rfl, by simp, by simp⟩)
  · refine .takeFacing (by simp) fun _ => ?_
    refine .step ih.signature fun sig _ => .at_ fun bodied => ?_
    split
    · refine .step (fun s => .withLiterals (ih.block s)) fun body _ => ?_
      exact .made (fun _ => rfl) fun _ => ⟨rfl, by simp, by simp⟩
    · exact .tag (fun t => .type (.func t sig)) (fun t => .made (fun _ => rfl)
        fun _ => ⟨rfl, by simp, by simp⟩) fun _ => ⟨rfl, by simp, by simp⟩
  iterate 5
    refine .of_anywhere ?_
    refine .step ih.typeExpr fun type _ => ?_
    exact .made (fun _ => rfl) fun _ => ⟨rfl, by simp, by simp⟩
  · exact .unexpected

theorem decl_succ (s : Nat) (t : Token) (ht : (DeclKind.ofToken? t).isSome = true) :
    Lays s (Facing (some t)) [] (Read.decl (fuel + 1)) (fun d => [d.piece]) fun _ => True := by
  rw [Read.decl]
  refine .start fun s => .take (fun c hc => ⟨t, hc.1, ?_⟩) fun p _ => .eat (by simp) ?_ ?_
  · rintro rfl
    cases ht
  · refine .step (ih.specs _) fun ss _ => ?_
    exact .expect (by simp) (.made (fun _ => rfl) fun _ => ⟨rfl, by simp, by simp⟩)
  · exact .step (ih.spec _) fun one _ => .made (fun _ => rfl) fun _ => ⟨rfl, by simp, by simp⟩

theorem specs_succ (kind : DeclKind) : Reads (Read.specs (fuel + 1) kind) (·.map Spec.piece) := by
  intro s
  rw [Read.specs]
  refine .peek fun next => ?_
  split
  · exact .pure rfl trivial
  · refine .of_anywhere ?_
    refine .step (ih.spec kind) fun one _ => .endStatement ?_
    refine .step (ih.specs kind) fun ss _ => ?_
    exact .pure (by simp) trivial

theorem spec_succ (kind : DeclKind) : Reads (Read.spec (fuel + 1) kind) fun s => [s.piece] := by
  intro s
  rw [Read.spec]
  refine .start fun s => .of_anywhere ?_
  split
  · refine .peek fun next => ?_
    extract_lets jp
    have hjp : ∀ n : Option Name, Lays s Anywhere (solid (n.toList.map Name.piece)) (jp n)
        (fun s => [s.piece]) fun _ => True := by
      intro n
      refine .peek fun after => ?_
      split
      · rename_i path hpath
        refine .take (fun c hc => ?_) fun _ _ => .made (fun _ => rfl) fun t =>
          ⟨rfl, by simp, ?_⟩
        · cases after with
          | none => simp [Read.isText] at hpath
          | some t =>
            refine ⟨t, hc, ?_⟩
            rintro rfl
            simp [Read.isText] at hpath
        · cases n <;> simp
      · exact .unexpected
    split
    · exact .of_anywhere (.step .name fun n _ => .ret (hjp (some n)))
    · exact .takeName (by simp) fun u => .ret (hjp (some ⟨u, "."⟩))
    · exact .of_anywhere (.ret (hjp none))
  · refine .step .name fun n _ => .eatAny fun isAlias => ?_
    refine .step ih.typeExpr fun type _ => ?_
    exact .made (fun _ => rfl) fun _ => ⟨rfl, by simp, by simp⟩
  all_goals
    refine .step (.names fuel) fun ns hns => .peek fun next => ?_
    extract_lets jp
    have hjp : ∀ type : Option TypeExpr, Lays s Anywhere (solid (ns.map Name.piece) ++
        solid (type.toList.map TypeExpr.piece)) (jp type) (fun s => [s.piece]) fun _ => True := by
      intro type
      have hdone (vs : List Expr) {xs : List (Option Piece)} (hxs : piecesOf xs = ns.map Name.piece ++
          (type.toList.map TypeExpr.piece ++ vs.map Expr.piece))
          (hopens : ∀ t, Opens (.spec (.values t ns type vs)) xs) : Lays s Anywhere xs (do
            let t ← Read.tagFrom s
            pure (Spec.values t ns type vs)) (fun s => [s.piece]) fun _ => True :=
        .made (fun _ => rfl) fun t => ⟨rfl, hxs, hopens t⟩
      obtain ⟨n, ns, rfl⟩ := List.exists_cons_of_ne_nil hns
      refine .eat (by simp) ?_ ?_
      · exact .step ih.exprs fun vs _ => hdone vs (by simp) fun t => by simp
      · exact .ret (hdone [] (by simp) fun t => by simp)
    split
    iterate 4 exact .of_anywhere (.ret ((hjp none).imp (by simp) fun lo hi h => by simpa using h))
    refine .of_anywhere ?_
    refine .step ih.typeExpr fun type _ => ?_
    exact .ret (hjp (some type))

omit ih in
/-- Without a budget nothing is read. -/
theorem of_zero : ReadsUpright 0 := by
  constructor <;> intros <;> simp only [
    Read.typeExpr, Read.structFields, Read.interfaceMethods, Read.signature, Read.parameters,
    Read.params, Read.param, Read.block, Read.stmts, Read.stmt, Read.simple, Read.ifElse,
    Read.loop, Read.loopHead, Read.clauseHead, Read.switch, Read.switchHead, Read.clauses,
    Read.clause, Read.select, Read.comms, Read.comm, Read.exprs, Read.typeExprs, Read.expr,
    Read.binary, Read.binaryRest, Read.unary, Read.primary, Read.primaryRest, Read.bracket,
    Read.arguments, Read.composite, Read.elements, Read.element, Read.operand, Read.decl,
    Read.specs, Read.spec] <;>
    first
    | exact .exhausted
    | exact fun _ => .exhausted

end ReadsUpright

theorem readsUpright (fuel : Nat) : ReadsUpright fuel := by
  induction fuel with
  | zero => exact .of_zero
  | succ fuel ih =>
    exact {
      typeExpr := ih.typeExpr_succ
      structFields := ih.structFields_succ
      interfaceMethods := ih.interfaceMethods_succ
      signature := ih.signature_succ
      parameters := ih.parameters_succ
      params := ih.params_succ
      param := ih.param_succ
      block := ih.block_succ
      stmts := ih.stmts_succ
      stmt := ih.stmt_succ
      simple := ih.simple_succ
      ifElse := ih.ifElse_succ
      loop := ih.loop_succ
      loopHead := ih.loopHead_succ
      clauseHead := ih.clauseHead_succ
      switch := ih.switch_succ
      switchHead := ih.switchHead_succ
      clauses := ih.clauses_succ
      clause := ih.clause_succ
      select := ih.select_succ
      comms := ih.comms_succ
      comm := ih.comm_succ
      exprs := ih.exprs_succ
      typeExprs := ih.typeExprs_succ
      expr := ih.expr_succ
      binary := ih.binary_succ
      binaryRest := ih.binaryRest_succ
      unary := ih.unary_succ
      primary := ih.primary_succ
      primaryRest := ih.primaryRest_succ
      bracket := ih.bracket_succ
      arguments := ih.arguments_succ
      composite := ih.composite_succ
      elements := ih.elements_succ
      element := ih.element_succ
      operand := ih.operand_succ
      decl := ih.decl_succ
      specs := ih.specs_succ
      spec := ih.spec_succ
    }

namespace Lays

theorem funcDecl (fuel : Nat) : Reads (Read.funcDecl fuel) fun f => [f.piece] := by
  intro s
  have ih := readsUpright fuel
  refine .start fun s => .expect (by simp) (.at_ fun hasRecv => ?_)
  extract_lets jp
  have hjp : ∀ recv : Option Field, Lays s Anywhere (none :: solid (recv.toList.map Field.piece))
      (jp recv) (fun f => [f.piece]) fun _ => True := by
    intro recv
    refine .step .name fun n _ => ?_
    refine .step ih.signature fun sig _ => .at_ fun hasBody => ?_
    split
    · refine .step (fun s => .withLiterals (ih.block s)) fun b _ => ?_
      exact .ret (.made (fun _ => rfl) fun _ => ⟨rfl, by simp [Node.pieces], by simp [Opens]⟩)
    · exact .ret (.made (fun _ => rfl) fun _ => ⟨rfl, by simp [Node.pieces], by simp [Opens]⟩)
  split
  · refine .stay (fun _ _ _ h => by cases h; rfl) fun u => ih.parameters fun fields => ?_
    split
    · rename_i field
      exact .ret ((hjp (some field)).imp (by simp) fun lo hi h => h.drop [none])
    · exact .spanFrom fun _ _ => .neverThen fun _ _ => Read.fail_not_ok
  · exact .ret (hjp none)

theorem topDecls (fuel : Nat) : Reads (Read.topDecls fuel) (·.map TopDecl.piece) := by
  induction fuel with
  | zero => exact fun _ => exhausted
  | succ fuel ih =>
    intro s
    rw [Read.topDecls]
    refine .peek fun next => ?_
    split
    · exact .pure rfl trivial
    · exact .skip fun _ => ih s
    · rename_i t _
      extract_lets jp
      have hjp : ∀ d : TopDecl, Lays s Anywhere [some d.piece] (jp d) (·.map TopDecl.piece)
          fun _ => True := by
        intro d
        refine .at_ fun a => .at_ fun b => ?_
        extract_lets done
        have hdone : Lays s Anywhere [some d.piece] (done ()) (·.map TopDecl.piece) fun _ => True :=
          .endStatement (.step ih fun ds _ => .pure (by simp) trivial)
        split
        · exact .neverThen fun _ _ => Read.unexpected_not_ok
        · exact hdone
      split
      · exact .of_anywhere (.step (funcDecl fuel) fun f _ => .ret (hjp (.func f)))
      · split
        · rename_i hkind
          exact .step (fun s => (readsUpright fuel).decl s t hkind) fun d _ => .ret (hjp (.decl d))
        · exact .neverThen fun _ _ => Read.unexpected_not_ok

theorem reached_name {n : Name} {c c' : Cursor} (h : Read.name c = .ok (n, c')) :
    c'.reached = n.tag.span.stop := by
  obtain ⟨t, c1, hp, hm⟩ := Read.bind_ok.1 h
  obtain ⟨hfacing, rfl⟩ := Read.peek_ok.1 hp
  split at hm
  · obtain ⟨p, c2, ht, hm⟩ := Read.bind_ok.1 hm
    obtain ⟨htoken, _, _, hreached⟩ := hfacing.of_take ht
    cases hm
    change c2.reached = p.span.stop
    rw [hreached, if_neg (by simp [Read.isLineEnd, htoken])]
  · exact absurd hm Read.unexpected_not_ok

/-- The clause of a file starts where the file does, and ends with the name. -/
theorem span_sourceFile {fuel : Nat} {c c' : Cursor} {f : SourceFile}
    (h : Read.sourceFile fuel c = .ok (f, c')) :
    f.tag.span = ⟨c.next, max f.name.tag.span.stop c.next⟩ := by
  obtain ⟨s, c1, hs, h⟩ := Read.bind_ok.1 h
  cases hs
  obtain ⟨_, _, _, h⟩ := Read.bind_ok.1 h
  obtain ⟨n, c2, hn, h⟩ := Read.bind_ok.1 h
  obtain ⟨t, c3, ht, h⟩ := Read.bind_ok.1 h
  cases ht
  obtain ⟨_, _, _, h⟩ := Read.bind_ok.1 h
  obtain ⟨ds, _, _, h⟩ := Read.bind_ok.1 h
  obtain ⟨rfl, _⟩ := Read.pure_ok.1 h
  rw [← reached_name hn]
  rfl

theorem sourceFile (fuel : Nat) : Reads (Read.sourceFile fuel) fun f =>
    f.name.piece :: f.decls.map TopDecl.piece := by
  intro s
  refine .start fun s => .expect (by simp) (.step .name fun n _ => ?_)
  simp only [Read.tagFrom, bind_assoc]
  exact .spanFrom fun _ _ => .tagAt (fun _ _ h => h) fun t _ => .endStatement (.step (topDecls fuel) fun ds _ =>
    .pure (by simp) trivial)

end Lays

namespace Runs

variable {lo mid hi : Nat} {ps qs : List Placed}

theorem append (hps : Runs lo ps mid) (hqs : Runs mid qs hi) : Runs lo (ps ++ qs) hi := by
  induction ps generalizing lo with
  | nil => exact hqs.mono hps
  | cons p ps ih => exact ⟨hps.1, hps.2.1, hps.2.2.1, ih hps.2.2.2⟩

theorem one {p : Placed} (hlo : lo ≤ p.span.start) (hp : p.span.start < p.span.stop)
    (hhi : p.span.stop ≤ hi) : Runs lo [p] hi := ⟨hlo, Nat.le_of_lt hp, fun _ => hp, hhi⟩

theorem lineEnd {line : Scan.Line} {offset : Nat} (hlo : lo ≤ offset) (hhi : offset ≤ hi) :
    Runs lo (Scan.lineEnd line offset).tokens hi := by
  unfold Scan.lineEnd
  split
  · refine ⟨hlo, Nat.le_refl _, fun h => ?_, hhi⟩
    simp [Read.isLineEnd] at h
  · exact Nat.le_trans hlo hhi

/-- The tokens of a lexeme lie inside of it. -/
theorem ofLexeme (line : Scan.Line) (offset : Nat) {lexeme : Lexeme} (h : lexeme.text ≠ []) :
    Runs offset (Scan.ofLexeme line offset lexeme).1.tokens (offset + byteSize lexeme.text) := by
  have hpos := byteSize_pos h
  have hempty : Runs offset [] (offset + byteSize lexeme.text) := Nat.le_add_right _ _
  have hone (t : Token) : Runs offset [⟨t, offset, offset + byteSize lexeme.text⟩]
      (offset + byteSize lexeme.text) :=
    one (Nat.le_refl _) (Nat.lt_add_of_pos_right hpos) (Nat.le_refl _)
  unfold Scan.ofLexeme
  dsimp only
  split
  · exact hempty
  · exact lineEnd (Nat.le_refl _) (Nat.le_add_right _ _)
  · exact hempty
  · split
    · exact hempty
    · have hfront : lexeme.text.takeWhile (fun c => !Lexeme.isLineEnd c) <+: lexeme.text :=
        List.takeWhile_prefix _
      obtain ⟨rest, hrest⟩ := hfront
      have hsize := congrArg byteSize hrest
      simp only [byteSize_append] at hsize
      exact lineEnd (Nat.le_add_right _ _) (by omega)
  · exact hone _
  · split
    · exact hempty
    · exact hone _
  · split
    · exact hone _
    · exact hone _

theorem ofLexemes (line : Scan.Line) (offset : Nat) (cs : List Char) :
    Runs offset (Scan.ofLexemes line offset (Lexeme.all cs)).tokens (offset + byteSize cs) := by
  fun_induction Lexeme.all cs generalizing line offset with
  | case1 => exact lineEnd (Nat.le_refl _) (Nat.le_refl _)
  | case2 c cs kind n hfront ih =>
    have hsize : byteSize (c :: cs) = byteSize (c :: cs.take n) + byteSize (cs.drop n) := by
      rw [← byteSize_append, List.cons_append, List.take_append_drop]
    rw [Scan.ofLexemes, hsize, ← Nat.add_assoc]
    exact (ofLexeme line offset (List.cons_ne_nil _ _)).append (ih _ _)

end Runs

/-- The file of a text: from its clause on its name and its declarations stand one behind the other,
all upright, before the empty lines at the end. -/
theorem Document.ofSource_upright {source : String} {d : Document} (h : ofSource source = .ok d) :
    ∃ stop, stop < d.lines.dropBlankEnd.size ∧ Strip d.file.tag.span.start
      (solid (d.file.name.piece :: d.file.decls.map TopDecl.piece)) stop := by
  obtain ⟨file, c, c', hreads⟩ := ofSource_ok h
  have hruns := Runs.ofLexemes .start 0 (terminated source).toList
  rw [Nat.zero_add, byteSize_toList] at hruns
  have hordered : Cursor.Ordered
      ⟨(scan (terminated source)).tokens, (terminated source).utf8ByteSize, 0, true, 0⟩ := hruns
  obtain ⟨htaken, _⟩ := Lays.sourceFile _ _ _ _ _ _ (.fresh hordered) trivial hreads.sourceFile
  have hstrip := htaken.strip (by simp)
  have hlt := hstrip.lt (by simp)
  refine ⟨c.reached, hreads.reached_lt (by omega), ?_⟩
  rw [hreads.file, Lays.span_sourceFile hreads.sourceFile]
  exact hstrip

end FuncLift
