import FuncLift.Proofs.Lined

/-!
# Lexical scoping

What is in sight at an identifier decides what it is bound to. The trail of every node leads to the
children that are looked at, and in front of a child's trail the frames of the resolver are what the
child sees. So what a node sees, which is told from the tree, is what the resolver has when it gets
there.
-/
namespace FuncLift

namespace Node

/-- What can stand outside of all functions and their literals: there is no scope, and nothing is
declared. -/
def Outer : Role → Node → Prop
  | .package, .decl _ | .package, .spec _ | .package, .func _ => True
  | _, .expr _ | _, .type _ | .plain, .signature _ | .plain, .field _ => True
  | _, _ => False

variable {r : Role} {p c : Node}

theorem Outer.intros (h : p.Outer r) : p.intros r = [] := by
  cases p <;> cases r <;> first | rfl | exact h.elim

theorem Outer.shows (h : p.Outer r) : p.shows r c = [] := by
  cases p <;> cases r <;> first | rfl | exact h.elim

theorem Outer.child (h : p.Outer r) (hopens : p.opens r = false) (hc : c ∈ p.children) :
    c.Outer (r.child p c) := by
  rw [mem_children] at hc
  have hplain (hkind : (∃ e, c = .expr e) ∨ ∃ t, c = .type t) : c.Outer (r.child p c) := by
    rcases hkind with ⟨e, rfl⟩ | ⟨t, rfl⟩ <;> simp [Outer]
  cases p with
  | decl d =>
    cases r <;> first | exact h.elim | skip
    obtain ⟨s, _, hs⟩ := List.mem_map.1 hc
    cases hs
    trivial
  | spec s =>
    refine hplain ?_
    cases s <;> simp [pieces] at hc <;> grind
  | func f => cases r <;> first | exact h.elim | cases hopens
  | expr e =>
    cases e with
    | funcLit => cases r <;> cases hopens
    | _ =>
      refine hplain ?_
      simp [pieces, Element.pieces] at hc <;> grind
  | type t =>
    cases t with
    | func t sig =>
      obtain rfl : c = .signature sig := by simpa [pieces] using hc
      cases r <;> trivial
    | struct t fs | interface t fs =>
      obtain ⟨f, _, rfl⟩ : ∃ f ∈ fs, .field f = c := by simpa [pieces] using hc
      cases r <;> trivial
    | _ =>
      refine hplain ?_
      simp [pieces] at hc <;> grind
  | signature s =>
    cases r <;> first | exact h.elim | skip
    obtain ⟨f, rfl⟩ : ∃ f, c = .field f := by
      simp [pieces] at hc
      grind
    trivial
  | field f =>
    refine hplain ?_
    simp [pieces] at hc
    grind
  | _ => cases r <;> exact h.elim

end Node

/-- A member of a row that is put together of two stands in the second or in the first. -/
theorem append_cons_cases {α : Type} {as bs before behind : List α} {c : α}
    (h : as ++ bs = before ++ c :: behind) :
    (∃ rest, before = as ++ rest ∧ bs = rest ++ c :: behind) ∨ ∃ rest, as = before ++ c :: rest := by
  rcases List.append_eq_append_iff.1 h with ⟨rest, hbefore, hbs⟩ | ⟨rest, has, hrest⟩
  · exact .inl ⟨rest, hbefore, hbs⟩
  · cases rest with
    | nil => exact .inl ⟨[], by simpa using has.symm, hrest.symm⟩
    | cons x rest =>
      obtain ⟨rfl, rfl⟩ := List.cons.inj hrest
      exact .inr ⟨rest, has⟩

/-- How the trail of a node starts: a node with a scope opens it. -/
inductive Entrance (r : Role) (p : Node) : List Event → Prop
  | no (h : p.opens r = false) : Entrance r p []
  | yes (h : p.opens r = true) : Entrance r p [.openScope]
  | passed {m : Node} (h : p.opens r = true) : Entrance r p [.pass m, .openScope]

namespace Document

variable {d : Document} {r : Role} {p c : Node} {a b o u v : List Event} {ss : List Scope}
  {before behind : List Node}

theorem InSight.enters (h : d.InSight u ss) (ho : Entrance r p o) : d.InSight (u ++ o) (enter r p ss) := by
  unfold enter
  cases ho with
  | no hopens =>
    rw [hopens, List.append_nil]
    exact h
  | yes hopens =>
    rw [if_pos hopens]
    exact h.opened p
  | @passed m hopens =>
    rw [if_pos hopens]
    simpa using (h.level (x := [.pass m]) rfl).opened p

/-- The trail of a node up to some point brings names into the innermost scope, which is the node's own
if it has one. -/
def Brings (d : Document) (r : Role) (p : Node) (w : List Event) (is : List Intro) : Prop :=
  ∀ ⦃u post ss⦄, d.file.trail = u ++ (w ++ post) → (enter r p ss = [] → is = []) → d.InSight u ss →
    d.InSight (u ++ w) (declareAll is (enter r p ss))

theorem Brings.append {w x : List Event} {is js : List Intro} (hw : d.Brings r p w is)
    (hx : d.Declares x js) : d.Brings r p (w ++ x) (is ++ js) := by
  intro u post ss htrail hnone h
  rw [List.append_assoc] at htrail
  have hsight := hw htrail (fun hss => (List.append_eq_nil_iff.1 (hnone hss)).1) h
  rw [← List.append_assoc] at htrail
  rw [declareAll_append, ← List.append_assoc]
  refine hx htrail (fun hss => ?_) hsight
  exact (List.append_eq_nil_iff.1 (hnone (declareAll_eq_nil.1 hss))).2

theorem Brings.entrance (ho : Entrance r p o) : d.Brings r p o [] := by
  intro u post ss _ _ h
  rw [declareAll_nil]
  exact h.enters ho

/-- The trail of a child is a part of the trail of its parent, and in front of it that is in sight
which the child sees. -/
def Reaches (d : Document) (r : Role) (p : Node) (a : List Event) (before : List Node) (c : Node) :
    Prop :=
  ∃ w x v, a = w ++ (x ++ v) ∧ Trails (r.child p c) c x ∧
    d.Brings r p w (p.shows r c ++ before.flatMap fun x => x.intros (r.child p x))

/-- The trail of a node goes along its children. What the node declares itself is seen by those behind
it, and those in front declare nothing. -/
theorem Owned.reaches_shown (hd : d.Owned) {ps qs : List Piece} {m : List Event} {is : List Intro}
    (hp : p.pieces = ps ++ qs) (hm : d.Brings r p m is) (hb : Lined r p qs b)
    (ha : a = m ++ (b ++ v)) (hquiet : ∀ x ∈ Piece.nodes ps, x.intros (r.child p x) = [])
    (hfront : c ∈ Piece.nodes ps → p.shows r c = [] ∧ ∃ w x v, m = w ++ (x ++ v) ∧
      Trails (r.child p c) c x ∧ d.Brings r p w [])
    (hback : c ∈ Piece.nodes qs → p.shows r c = is)
    (hchild : p.children = before ++ c :: behind) (hlook : ¬p.Skips r c) :
    d.Reaches r p a before c := by
  have hnodes : Piece.nodes ps ++ Piece.nodes qs = before ++ c :: behind := by
    rw [← Piece.nodes_append, ← hp, ← Node.children_outline p]
    exact hchild
  rcases append_cons_cases hnodes with ⟨before', rfl, hqs⟩ | ⟨front, hps⟩
  · obtain ⟨qs', w, x, v', rfl, hw, hbefore, hx⟩ := hb.split hqs hlook
    have hnone : (Piece.nodes ps).flatMap (fun x => x.intros (r.child p x)) = [] :=
      List.flatMap_eq_nil_iff.2 hquiet
    have hbrings := hm.append (hw.declares hd)
    refine ⟨m ++ w, x, v' ++ v, by simp [ha], hx, ?_⟩
    rw [hback (by rw [hqs]; simp), List.flatMap_append, hnone, List.nil_append, ← hbefore]
    exact hbrings
  · obtain ⟨hshows, w, x, v', rfl, hx, hbrings⟩ := hfront (by rw [hps]; simp)
    have hnone : before.flatMap (fun x => x.intros (r.child p x)) = [] := by
      refine List.flatMap_eq_nil_iff.2 fun n hn => hquiet n ?_
      rw [hps]
      exact List.mem_append_left _ hn
    refine ⟨w, x, v' ++ (b ++ v), by simp [ha], hx, ?_⟩
    rw [hshows, hnone]
    exact hbrings

theorem Owned.reaches (hd : d.Owned) (ho : Entrance r p o) (hb : Lined r p p.pieces b)
    (ha : a = o ++ (b ++ v)) (hshows : p.shows r c = [])
    (hchild : p.children = before ++ c :: behind) (hlook : ¬p.Skips r c) :
    d.Reaches r p a before c :=
  hd.reaches_shown (List.nil_append _).symm (.entrance ho) hb ha (by simp) (by simp)
    (fun _ => hshows) hchild hlook

end Document

namespace Lined

variable {r : Role}

theorem elements {t : Tag} {ty : Option TypeExpr} {all : List Element} (xs : List Element)
    (hxs : ∀ x ∈ xs, x ∈ all) : Lined r (.expr (.composite t ty all)) (xs.flatMap Element.pieces)
      (Trail.elements (Resolve.keysAreFields ty) xs) := by
  induction xs with
  | nil => exact .nil
  | cons x xs ih =>
    obtain ⟨key, value⟩ := x
    have hrest := ih fun x hx => hxs x (List.mem_cons_of_mem _ hx)
    have hkey : Lined r (.expr (.composite t ty all)) (key.toList.map Expr.piece)
        (Trail.key (Resolve.keysAreFields ty) key) := by
      unfold Trail.key
      split
      · rename_i hskip
        cases key with
        | none => exact .nil
        | some e =>
          obtain ⟨hfields, hident⟩ := Bool.and_eq_true_iff.1 hskip
          have hskips : Node.Skips r (.expr (.composite t ty all)) (.expr e) := by
            cases r <;> exact ⟨hfields, hident, _, hxs _ List.mem_cons_self, rfl⟩
          exact List.append_nil (mute (Trail.expr e)) ▸ skip hskips .nil
      · exact exprOption key
    rw [List.flatMap_cons, Element.pieces, List.append_assoc]
    exact hkey.append (.look .expr hrest)

theorem ofExpr {e : Expr} (hident : ∀ t n, e ≠ .ident t n) (hfunc : ∀ t s b, e ≠ .funcLit t s b) :
    Lined r (.expr e) (Node.expr e).pieces (Trail.expr e) := by
  cases e with
  | ident t n => exact absurd rfl (hident t n)
  | funcLit t s b => exact absurd rfl (hfunc t s b)
  | lit => exact .pass .nil
  | composite t ty xs => exact .pass ((typeOption ty).append (elements xs fun _ => id))
  | paren t e | unary t op e => exact .pass (one .expr)
  | selector t e n => exact .pass (List.append_nil (Trail.expr e) ▸ look .expr (.name .nil))
  | index t e i => exact .pass (.look .expr (one .expr))
  | slice t e lo hi max =>
    exact .pass (.look .expr ((exprOption lo).append ((exprOption hi).append (exprOption max))))
  | assert t e ty => exact .pass (.look .expr (typeOption ty))
  | call t f args spread => exact .pass (.look .expr (exprs args))
  | binary t x op y => exact .pass (.look .expr (one .expr))
  | type t ty => exact .pass (one .type)

theorem ofType (t : TypeExpr) : Lined r (.type t) (Node.type t).pieces (Trail.typeExpr t) := by
  cases t with
  | named => exact .pass .nil
  | pointer t x | slice t x | chan t dir x => exact .pass (one .type)
  | array t len x => exact .pass ((exprOption len).append (one .type))
  | map t k v => exact .pass (.look .type (one .type))
  | func t sig =>
    have hrole : r.child (.type (.func t sig)) (.signature sig) = .plain := by cases r <;> rfl
    obtain ⟨u, params, results⟩ := sig
    exact .pass (one (by rw [hrole]; exact .signature))
  | struct t fs | interface t fs => exact .pass (fieldTypes (fun _ => by cases r <;> rfl) fs)

end Lined

namespace Document.Owned

variable {d : Document} (hd : d.Owned) {r : Role} {c : Node} {before behind : List Node}

include hd

theorem reaches_expr {e : Expr} (hchild : (Node.expr e).children = before ++ c :: behind)
    (hlook : ¬(Node.expr e).Skips r c) : d.Reaches r (.expr e) (Trail.expr e) before c := by
  have hshows : (Node.expr e).shows r c = [] := Node.Outer.shows (by cases r <;> trivial)
  have hplain (hident : ∀ t n, e ≠ .ident t n) (hfunc : ∀ t s b, e ≠ .funcLit t s b) :
      d.Reaches r (.expr e) (Trail.expr e) before c := by
    refine hd.reaches (v := []) (.no ?_) (.ofExpr hident hfunc) (by simp) hshows hchild hlook
    cases e with
    | funcLit t s b => exact absurd rfl (hfunc t s b)
    | _ => cases r <;> rfl
  cases e with
  | ident t n => exact absurd hchild (by simp [Node.children, Node.children_outline, Node.pieces])
  | funcLit t sig b =>
    obtain ⟨u, body⟩ := b
    have hsig : r.child (.expr (.funcLit t sig ⟨u, body⟩)) (.signature sig) = .params := by
      cases r <;> rfl
    have hbody : r.child (.expr (.funcLit t sig ⟨u, body⟩)) (.block ⟨u, body⟩) = .plain := by
      cases r <;> rfl
    have hlined : Lined r (.expr (.funcLit t sig ⟨u, body⟩)) [sig.piece, Block.piece ⟨u, body⟩]
        (Trail.signature sig ++ (Event.pass (.block ⟨u, body⟩) :: Trail.stmts body)) :=
      .look (by rw [hsig]; exact .params) (.one (by rw [hbody]; exact .body))
    have hopens : (Node.expr (.funcLit t sig ⟨u, body⟩)).opens r = true := by cases r <;> rfl
    exact hd.reaches (v := [.closeScope]) (.passed (m := .expr (.funcLit t sig ⟨u, body⟩)) hopens)
      hlined (by simp [Trail.expr]) hshows hchild hlook
  | _ => exact hplain (by simp) (by simp)

theorem reaches_type {t : TypeExpr} (hchild : (Node.type t).children = before ++ c :: behind)
    (hlook : ¬(Node.type t).Skips r c) : d.Reaches r (.type t) (Trail.typeExpr t) before c := by
  have hshows : (Node.type t).shows r c = [] := Node.Outer.shows (by cases r <;> trivial)
  exact hd.reaches (v := []) (.no (by cases r <;> rfl)) (.ofType t) (by simp) hshows hchild hlook

theorem reaches_simple {note : Option Nat} {s : Simple}
    (hchild : (Node.simple s).children = before ++ c :: behind)
    (hlook : ¬(Node.simple s).Skips .plain c) :
    d.Reaches .plain (.simple s) (Trail.simple note s) before c := by
  have hreaches (hb : Lined .plain (.simple s) (Node.simple s).pieces (Trail.simple note s)) :
      d.Reaches .plain (.simple s) (Trail.simple note s) before c :=
    hd.reaches (v := []) (.no rfl) hb (by simp) rfl hchild hlook
  cases s with
  | expr t e | step t e op => exact hreaches (.pass (.one .expr))
  | send t x y => exact hreaches (.pass (.look .expr (.one .expr)))
  | assign t l op x => exact hreaches (.pass ((Lined.exprs l).append (.exprs x)))
  | define t ns vs =>
    have hlined : Lined .plain (.simple (.define t ns vs)) (Node.simple (.define t ns vs)).pieces
        (.pass (.simple (.define t ns vs)) :: Trail.exprs vs) := .pass (.names ns (.exprs vs))
    exact hd.reaches (.no rfl) hlined rfl rfl hchild hlook

theorem reaches_stmt {s : Stmt} (hrange : ∀ t key value define e b,
      s ≠ .loop t (.range key value define e) b)
    (hchild : (Node.stmt s).children = before ++ c :: behind)
    (hlook : ¬(Node.stmt s).Skips .plain c) :
    d.Reaches .plain (.stmt s) (Trail.stmt s) before c := by
  have hshows : (Node.stmt s).shows .plain c = [] := by
    have hnone : s.rangeIntros = [] := by
      cases s with
      | loop t head b =>
        cases head with
        | range key value define e => exact absurd rfl (hrange t key value define e b)
        | _ => rfl
      | _ => rfl
    cases c <;> first | rfl | exact hnone
  have hflat (hopens : (Node.stmt s).opens .plain = false)
      (hb : Lined .plain (.stmt s) (Node.stmt s).pieces (Trail.stmt s)) :
      d.Reaches .plain (.stmt s) (Trail.stmt s) before c :=
    hd.reaches (v := []) (.no hopens) hb (by simp) hshows hchild hlook
  have hscope {b : List Event} (hopens : (Node.stmt s).opens .plain = true)
      (hb : Lined .plain (.stmt s) (Node.stmt s).pieces b)
      (ha : Trail.stmt s = [Event.pass (.stmt s), Event.openScope] ++ (b ++ [Event.closeScope])) :
      d.Reaches .plain (.stmt s) (Trail.stmt s) before c :=
    hd.reaches (.passed hopens) hb ha hshows hchild hlook
  have hstmts : ∀ x, Role.plain.child (.stmt s) (.stmt x) = .plain := by
    intro x
    cases s <;> rfl
  have hsimples : ∀ x, Role.plain.child (.stmt s) (.simple x) = .plain := by
    intro x
    cases s <;> rfl
  have hblock (b : Block) : Lined .plain (.stmt s) [b.piece]
      (.openScope :: (.pass (.block b) :: (Trail.stmts b.stmts ++ [Event.closeScope]))) := by
    have hrole : Role.plain.child (.stmt s) (.block b) = .scoped := by cases s <;> rfl
    exact .one (by rw [hrole]; exact .block)
  cases s with
  | simple t x => exact hflat rfl (.pass (.one .simple))
  | decl t x =>
    obtain ⟨u, kind, grouped, ss⟩ := x
    exact hflat rfl (.pass (.one .decl))
  | labeled t n x => exact hflat rfl (.pass (.name (.one .stmt)))
  | go t e | defer t e => exact hflat rfl (.pass (.one .expr))
  | ret t es => exact hflat rfl (.pass (.exprs es))
  | branch t kind n =>
    exact absurd hchild (by simp [Node.children, Node.children_outline, Node.pieces])
  | block t b =>
    obtain ⟨u, body⟩ := b
    exact hflat rfl (.pass (hblock ⟨u, body⟩))
  | ifElse t init cond yes no =>
    obtain ⟨u, yes⟩ := yes
    exact hscope rfl ((Lined.simpleOption hsimples init).append
      (.look .expr ((hblock ⟨u, yes⟩).append (.stmtOption hstmts no)))) (by simp [Trail.stmt])
  | loop t head b =>
    obtain ⟨u, body⟩ := b
    cases head with
    | forever => exact hscope rfl (hblock ⟨u, body⟩) (by simp [Trail.stmt, Trail.loopHead])
    | cond e =>
      exact hscope rfl (.look .expr (hblock ⟨u, body⟩)) (by simp [Trail.stmt, Trail.loopHead])
    | clause init cond post =>
      exact hscope rfl (((Lined.simpleOption hsimples init).append
        ((Lined.exprOption cond).append (.simpleOption hsimples post))).append (hblock ⟨u, body⟩))
        (by simp [Trail.stmt, Trail.loopHead])
    | range key value define e => exact absurd rfl (hrange t key value define e ⟨u, body⟩)
  | switch t init subject cs =>
    exact hscope rfl ((Lined.simpleOption hsimples init).append
      ((Lined.exprOption subject).append (.clauses (fun _ => rfl) cs))) (by simp [Trail.stmt])
  | typeSwitch t init bind guard cs =>
    exact hscope rfl ((Lined.simpleOption hsimples init).append (.names bind.toList
      (.look .expr (.typeClauses (fun _ => rfl) cs)))) (by simp [Trail.stmt])
  | select t cs => exact hflat rfl (.pass (.comms (fun _ => rfl) cs))

theorem reaches_spec {home : Nat} {s : Spec} (hchild : (Node.spec s).children = before ++ c :: behind)
    (hlook : ¬(Node.spec s).Skips .plain c) :
    d.Reaches .plain (.spec s) (Trail.specs home [s]) before c := by
  cases s with
  | imports t n path =>
    exact absurd hchild (by simp [Node.children, Node.children_outline, Node.pieces])
  | values t ns ty vs =>
    have hlined : Lined .plain (.spec (.values t ns ty vs)) (Node.spec (.values t ns ty vs)).pieces
        (.pass (.spec (.values t ns ty vs)) :: (Trail.typeOption ty ++ Trail.exprs vs)) :=
      .pass (.names ns ((Lined.typeOption ty).append (.exprs vs)))
    exact hd.reaches (v := Trail.valueNames home t.id ns.length ty vs 0 ns) (.no rfl) hlined
      (by simp [Trail.specs]) rfl hchild hlook
  | type t n isAlias ty =>
    have hbrings : d.Brings .plain (.spec (.type t n isAlias ty)) _ _ := .append (.entrance (.no rfl))
      (hd.declares (.typeSpec home t n isAlias ty) rfl)
    have hpieces : (Node.spec (.type t n isAlias ty)).pieces = [] ++ [n.piece, ty.piece] := rfl
    exact hd.reaches_shown (v := []) hpieces hbrings (.name (.one (c := .type ty) .type))
      (by simp [Trail.specs]) (by simp) (by simp) (fun _ => rfl) hchild hlook

theorem reaches_packageSpec {s : Spec} (hchild : (Node.spec s).children = before ++ c :: behind)
    (hlook : ¬(Node.spec s).Skips .package c) :
    d.Reaches .package (.spec s) (Trail.packageSpec s) before c := by
  have hreaches (hb : Lined .package (.spec s) (Node.spec s).pieces (Trail.packageSpec s)) :
      d.Reaches .package (.spec s) (Trail.packageSpec s) before c :=
    hd.reaches (v := []) (.no rfl) hb (by simp) rfl hchild hlook
  cases s with
  | imports t n path =>
    exact absurd hchild (by simp [Node.children, Node.children_outline, Node.pieces])
  | values t ns ty vs =>
    exact hreaches (.pass (.names ns ((Lined.typeOption ty).append (.exprs vs))))
  | type t n isAlias ty => exact hreaches (.pass (.name (.one .type)))

theorem reaches_func {f : FuncDecl} (hchild : (Node.func f).children = before ++ c :: behind)
    (hlook : ¬(Node.func f).Skips .package c) :
    d.Reaches .package (.func f) (Trail.func f) before c := by
  obtain ⟨t, recv, n, sig, body⟩ := f
  have hlined {ps : List Piece} {b : List Event}
      (hbody : Lined .package (.func ⟨t, recv, n, sig, body⟩) ps b) :
      Lined .package (.func ⟨t, recv, n, sig, body⟩)
        (recv.toList.map Field.piece ++ n.piece :: sig.piece :: ps)
        (Trail.fields recv.toList ++ (Trail.signature sig ++ b)) :=
    (Lined.fields (fun _ => rfl) recv.toList).append (.name (.look .params hbody))
  have hreaches {b : List Event} (hbody : Lined .package (.func ⟨t, recv, n, sig, body⟩)
      (body.toList.map Block.piece) b) (ha : Trail.func ⟨t, recv, n, sig, body⟩ =
        [Event.pass (.func ⟨t, recv, n, sig, body⟩), Event.openScope] ++
          ((Trail.fields recv.toList ++ (Trail.signature sig ++ b)) ++ [Event.closeScope])) :
      d.Reaches .package (.func ⟨t, recv, n, sig, body⟩) (Trail.func ⟨t, recv, n, sig, body⟩)
        before c := hd.reaches (.passed rfl) (hlined hbody) ha rfl hchild hlook
  cases body with
  | none => exact hreaches .nil (by simp [Trail.func])
  | some b => exact hreaches (.one .body) (by simp [Trail.func])

theorem reaches_clause {x : Clause} (hchild : (Node.clause x).children = before ++ c :: behind)
    (hlook : ¬(Node.clause x).Skips .plain c) :
    d.Reaches .plain (.clause x) (Trail.clauses [x]) before c := by
  obtain ⟨t, cases, body⟩ := x
  have hbody : Lined .plain (.clause ⟨t, cases, body⟩) (body.map Stmt.piece)
      (.pass (.clause ⟨t, cases, body⟩) :: Trail.stmts body) := .pass (.stmts (fun _ => rfl) body)
  have hreaches {b : List Event} (hb : Lined .plain (.clause ⟨t, cases, body⟩) cases.pieces b)
      (ha : Trail.clauses [⟨t, cases, body⟩] = [Event.openScope] ++
        ((b ++ (Event.pass (.clause ⟨t, cases, body⟩) :: Trail.stmts body)) ++ [Event.closeScope])) :
      d.Reaches .plain (.clause ⟨t, cases, body⟩) (Trail.clauses [⟨t, cases, body⟩]) before c :=
    hd.reaches (.yes rfl) (hb.append hbody) ha rfl hchild hlook
  cases cases with
  | exprs es => exact hreaches (.exprs es) (by simp [Trail.clauses])
  | types ts => exact hreaches (.mutedTypes (fun _ => by trivial) ts) (by simp [Trail.clauses])
  | default => exact hreaches .nil (by simp [Trail.clauses])

theorem declares_bound (home : Nat) (bind : Option Name) (x : Clause) :
    d.Declares (Trail.bound home bind ++ [Event.pass (.clause x)])
      (bind.toList.map fun n => ⟨.clause x, Resolve.localVar n .typeSwitch home⟩) := by
  cases bind with
  | none => exact .level rfl
  | some n =>
    intro u post ss htrail hnone h
    obtain ⟨s, ss, rfl⟩ : ∃ s ss', ss = s :: ss' := by
      cases ss with
      | nil => cases hnone rfl
      | cons s ss => exact ⟨s, ss, rfl⟩
    have hmet : d.file.trail = (u ++ Trail.bound home (some n)) ++ Event.pass (.clause x) :: post := by
      simp [htrail]
    have hplace : u.length = (Intro.mk (.clause x) (Resolve.localVar n .typeSwitch home)).place
        d.file.trail := by
      have hclause : (Intro.mk (.clause x) (Resolve.localVar n .typeSwitch home)).ofClause = true := rfl
      rw [Intro.place, hclause, if_pos rfl, hd.findIdx_met hmet]
      simp [Trail.bound]
    have hsited : d.Sited ⟨.clause x, Resolve.localVar n .typeSwitch home⟩ := by
      constructor
      · rw [hmet]
        simp
      · intro hfalse
        cases hfalse
      · intro _
        rw [← hplace, hmet, List.getElem?_append_right (by simp [Trail.bound])]
        simp [Trail.bound]
    have htold := h.told htrail rfl rfl rfl hplace hsited
    simpa [Trail.bound] using htold.level (x := [.pass (.clause x)]) rfl

theorem reaches_typeClause {home : Nat} {bind : Option Name} {x : Clause}
    (hchild : (Node.clause x).children = before ++ c :: behind)
    (hlook : ¬(Node.clause x).Skips (.typeClause home bind) c) :
    d.Reaches (.typeClause home bind) (.clause x) (Trail.typeClauses home bind [x]) before c := by
  obtain ⟨t, cases, body⟩ := x
  have hquiet : ∀ n ∈ Piece.nodes cases.pieces, (∃ e, n = .expr e) ∨ ∃ t, n = .type t := by
    intro n hn
    rw [Piece.mem_nodes] at hn
    cases cases <;> simp [Cases.pieces] at hn <;> grind
  have hback : c ∈ Piece.nodes (body.map Stmt.piece) →
      (Node.clause ⟨t, cases, body⟩).shows (.typeClause home bind) c =
        bind.toList.map fun n => ⟨.clause ⟨t, cases, body⟩, Resolve.localVar n .typeSwitch home⟩ := by
    intro hc
    rw [Piece.nodes_stmts] at hc
    obtain ⟨s, _, rfl⟩ := List.mem_map.1 hc
    cases bind <;> rfl
  have hreaches {b : List Event} (hb : Level false b)
      (hfront : c ∈ Piece.nodes cases.pieces → ∃ w x v, b = w ++ (x ++ v) ∧ Level false w ∧
        Trails .plain c x)
      (ha : Trail.typeClauses home bind [⟨t, cases, body⟩] = ([Event.openScope] ++ (b ++
        (Trail.bound home bind ++ [Event.pass (.clause ⟨t, cases, body⟩)]))) ++
          (Trail.stmts body ++ [Event.closeScope])) :
      d.Reaches (.typeClause home bind) (.clause ⟨t, cases, body⟩)
        (Trail.typeClauses home bind [⟨t, cases, body⟩]) before c := by
    have hopens : d.Brings (.typeClause home bind) (.clause ⟨t, cases, body⟩) [.openScope] [] :=
      .entrance (.yes rfl)
    refine hd.reaches_shown rfl
      (hopens.append ((Declares.level hb).append (hd.declares_bound home bind _)))
      (.stmts (fun _ => rfl) body) ha (fun n hn => ?_) (fun hc => ?_) hback hchild hlook
    · rcases hquiet n hn with ⟨e, rfl⟩ | ⟨t, rfl⟩ <;> rfl
    · obtain ⟨w, x, v, rfl, hw, hx⟩ := hfront hc
      refine ⟨?_, [.openScope] ++ w, x, _, by simp; rfl, ?_, hopens.append (.level hw)⟩
      · rcases hquiet c hc with ⟨e, rfl⟩ | ⟨t, rfl⟩ <;> cases bind <;> rfl
      · rcases hquiet c hc with ⟨e, rfl⟩ | ⟨t, rfl⟩ <;> exact hx
  cases cases with
  | exprs es =>
    refine hreaches (.mute (Trail.exprs es)) (fun hc => ?_) (by simp [Trail.typeClauses])
    obtain ⟨e, _, rfl⟩ : ∃ e ∈ es, .expr e = c := by simpa [Piece.mem_nodes, Cases.pieces] using hc
    exact absurd trivial hlook
  | types ts =>
    refine hreaches (Fair.retraces.typeExprs (fun _ => True) ts).1 (fun hc => ?_)
      (by simp [Trail.typeClauses])
    obtain ⟨t, ht, rfl⟩ : ∃ t ∈ ts, .type t = c := by simpa [Piece.mem_nodes, Cases.pieces] using hc
    obtain ⟨w, v, hsplit, hw⟩ := Trail.typeExprs_split ht
    exact ⟨w, _, v, hsplit, hw, .type⟩
  | default => exact hreaches (b := []) rfl (by simp [Cases.pieces]) (by simp [Trail.typeClauses])

theorem brings_range {t : Tag} {key value : Option Expr} {define : Bool} {e : Expr} {b : Block} :
    d.Brings .plain (.stmt (.loop t (.range key value define e) b))
      ([Event.pass (.stmt (.loop t (.range key value define e) b)), Event.openScope] ++
        Trail.loopHead t.id (.range key value define e))
      (Stmt.loop t (.range key value define e) b).rangeIntros := by
  have hopens : d.Brings .plain (.stmt (.loop t (.range key value define e) b))
      [.pass (.stmt (.loop t (.range key value define e) b)), .openScope] [] :=
    .entrance (.passed rfl)
  cases define with
  | false =>
    have hlevel : Level false (Trail.loopHead t.id (.range key value false e)) :=
      (Level.expr e).append ((Level.exprOption key).append (.exprOption value))
    exact hopens.append (.level hlevel)
  | true =>
    intro u post ss htrail hnone h
    have hsubject : d.file.trail = u ++
        ([Event.pass (.stmt (.loop t (.range key value true e) b)), Event.openScope] ++ Trail.expr e ++
          (Trail.rangeVar t.id e 0 key ++ Trail.rangeVar t.id e 1 value ++ post)) := by
      simpa [Trail.loopHead] using htrail
    have hsight := hopens.append (.level (.expr e)) hsubject (fun _ => rfl) h
    rw [List.append_nil, declareAll_nil] at hsight
    have hlead : (.openScope :: Trail.expr e : List Event).length = 1 + (Trail.expr e).length := by
      simp [Nat.add_comm]
    have hnames := hd.names (.range t key value e b) hlead (by simpa [Trail.loopHead] using htrail)
      (fun hss => hnone hss) (by simpa using hsight)
    simpa [Trail.loopHead] using hnames

theorem reaches_range {t : Tag} {key value : Option Expr} {define : Bool} {e : Expr} {b : Block}
    (hchild : (Node.stmt (.loop t (.range key value define e) b)).children = before ++ c :: behind)
    (hlook : ¬(Node.stmt (.loop t (.range key value define e) b)).Skips .plain c) :
    d.Reaches .plain (.stmt (.loop t (.range key value define e) b))
      (Trail.stmt (.loop t (.range key value define e) b)) before c := by
  obtain ⟨u, body⟩ := b
  have hquiet : ∀ n ∈ Piece.nodes (LoopHead.range key value define e).pieces,
      ∃ x, n = .expr x ∧ (x = e ∨ key = some x ∨ value = some x) := by
    intro n hn
    rw [Piece.mem_nodes] at hn
    simp [LoopHead.pieces] at hn
    grind
  have hblock : Lined .plain (.stmt (.loop t (.range key value define e) ⟨u, body⟩))
      [Block.piece ⟨u, body⟩] (.openScope :: (.pass (.block ⟨u, body⟩) ::
        (Trail.stmts body ++ [Event.closeScope]))) := .one .block
  refine hd.reaches_shown (v := [.closeScope]) rfl hd.brings_range hblock (by simp [Trail.stmt])
    (fun n hn => ?_) (fun hc => ?_) (fun hc => ?_) hchild hlook
  · obtain ⟨x, rfl, _⟩ := hquiet n hn
    rfl
  · obtain ⟨x, rfl, hx⟩ := hquiet c hc
    have hopens : d.Brings .plain (.stmt (.loop t (.range key value define e) ⟨u, body⟩))
        [.pass (.stmt (.loop t (.range key value define e) ⟨u, body⟩)), .openScope] [] :=
      .entrance (.passed rfl)
    obtain ⟨w, v, hsplit, hw⟩ : ∃ w v, Trail.loopHead t.id (.range key value define e) =
        w ++ (Trail.expr x ++ v) ∧ Level false w := by
      cases define with
      | true =>
        -- the variables are not looked at, so this is the subject
        obtain rfl : x = e := hx.resolve_right hlook
        exact ⟨[], _, rfl, rfl⟩
      | false =>
        have hexprs : Trail.loopHead t.id (.range key value false e) =
            Trail.exprs (e :: (key.toList ++ value.toList)) := by
          cases key <;> cases value <;> simp [Trail.loopHead, Trail.exprs, Trail.exprOption]
        rw [hexprs]
        refine Trail.exprs_split ?_
        simpa using hx
    refine ⟨rfl, _, _, v, ?_, .expr, hopens.append (.level hw)⟩
    rw [hsplit, List.append_assoc]
  · obtain rfl : c = .block ⟨u, body⟩ := by simpa using hc
    rfl

end Document.Owned

theorem Trails.reaches {d : Document} (hd : d.Owned) {r : Role} {p c : Node} {a : List Event}
    {before behind : List Node} (h : Trails r p a) (hchild : p.children = before ++ c :: behind)
    (hlook : ¬p.Skips r c) : d.Reaches r p a before c := by
  cases h with
  | expr => exact hd.reaches_expr hchild hlook
  | type => exact hd.reaches_type hchild hlook
  | simple => exact hd.reaches_simple hchild hlook
  | @stmt s =>
    by_cases hrange : ∃ t key value define e b, s = .loop t (.range key value define e) b
    · obtain ⟨t, key, value, define, e, b, rfl⟩ := hrange
      exact hd.reaches_range hchild hlook
    · refine hd.reaches_stmt (fun t key value define e b hs => hrange ?_) hchild hlook
      exact ⟨t, key, value, define, e, b, hs⟩
  | @decl home x =>
    have hlined : Lined .plain (.decl x) (Node.decl x).pieces
        (.pass (.decl x) :: Trail.specs home x.specs) := .pass (.specs home (fun _ => rfl) x.specs)
    exact hd.reaches (v := []) (.no rfl) hlined (by simp) rfl hchild hlook
  | spec => exact hd.reaches_spec hchild hlook
  | @packageDecl x =>
    have hlined : Lined .package (.decl x) (Node.decl x).pieces (Trail.topDecl (.decl x)) :=
      .pass (.packageSpecs (fun _ => rfl) x.specs)
    exact hd.reaches (v := []) (.no rfl) hlined (by simp) rfl hchild hlook
  | packageSpec => exact hd.reaches_packageSpec hchild hlook
  | func => exact hd.reaches_func hchild hlook
  | @params s =>
    obtain ⟨t, params, results⟩ := s
    have hlined : Lined .params (.signature ⟨t, params, results⟩)
        (Node.signature ⟨t, params, results⟩).pieces (Trail.signature ⟨t, params, results⟩) :=
      .pass ((Lined.fields (fun _ => rfl) params).append (.fields (fun _ => rfl) results))
    exact hd.reaches (v := []) (.no rfl) hlined (by simp) rfl hchild hlook
  | @signature s =>
    have hlined : Lined .plain (.signature s) (Node.signature s).pieces
        (.pass (.signature s) :: (Trail.fieldTypes s.params ++ Trail.fieldTypes s.results)) :=
      .pass ((Lined.fieldTypes (fun _ => rfl) s.params).append (.fieldTypes (fun _ => rfl) s.results))
    exact hd.reaches (v := []) (.no rfl) hlined (by simp) rfl hchild hlook
  | @param f =>
    obtain ⟨t, ns, type, variadic, label⟩ := f
    have hlined : Lined .params (.field ⟨t, ns, type, variadic, label⟩)
        (Node.field ⟨t, ns, type, variadic, label⟩).pieces
        (.pass (.field ⟨t, ns, type, variadic, label⟩) :: Trail.typeExpr type) :=
      .pass (.names ns (.one .type))
    exact hd.reaches (v := Trail.paramNames t.id type variadic 0 ns) (.no rfl) hlined
      (by simp [Trail.fields]) rfl hchild hlook
  | @field f =>
    obtain ⟨t, ns, type, variadic, label⟩ := f
    have hlined : Lined .plain (.field ⟨t, ns, type, variadic, label⟩)
        (Node.field ⟨t, ns, type, variadic, label⟩).pieces
        (.pass (.field ⟨t, ns, type, variadic, label⟩) :: Trail.typeExpr type) :=
      .pass (.names ns (.one .type))
    exact hd.reaches (v := []) (.no rfl) hlined (by simp [Trail.fieldTypes]) rfl hchild hlook
  | @body b =>
    have hlined : Lined .plain (.block b) (Node.block b).pieces
        (.pass (.block b) :: Trail.stmts b.stmts) := .pass (.stmts (fun _ => rfl) b.stmts)
    exact hd.reaches (v := []) (.no rfl) hlined (by simp) rfl hchild hlook
  | @block b =>
    have hlined : Lined .scoped (.block b) (Node.block b).pieces
        (.pass (.block b) :: Trail.stmts b.stmts) := .pass (.stmts (fun _ => rfl) b.stmts)
    exact hd.reaches (v := [.closeScope]) (.yes rfl) hlined (by simp) rfl hchild hlook
  | clause => exact hd.reaches_clause hchild hlook
  | typeClause => exact hd.reaches_typeClause hchild hlook
  | @comm x =>
    obtain ⟨t, guard, body⟩ := x
    have hlined : Lined .plain (.comm ⟨t, guard, body⟩) (Node.comm ⟨t, guard, body⟩).pieces
        (Trail.simpleOption guard ++ (Event.pass (.comm ⟨t, guard, body⟩) :: Trail.stmts body)) :=
      (Lined.simpleOption (fun _ => rfl) guard).append (.pass (.stmts (fun _ => rfl) body))
    exact hd.reaches (v := [.closeScope]) (.yes rfl) hlined (by simp [Trail.comms]) rfl hchild hlook

namespace Document

variable {d : Document} {r : Role} {n : Node} {ss : List Scope}

/-- A node has its trail in that of the file, and there the scopes are in sight. -/
def Shows (d : Document) (r : Role) (n : Node) (ss : List Scope) : Prop :=
  ∃ u a post, d.file.trail = u ++ (a ++ post) ∧ Trails r n a ∧ d.InSight u ss ∧
    (ss = [] → n.Outer r)

theorem shows_top {x : TopDecl} (hx : x ∈ d.file.decls) (htrails : Trails .package n (Trail.topDecl x))
    (houter : n.Outer .package) : d.Shows .package n [] := by
  obtain ⟨front, rest, hdecls⟩ := List.append_of_mem hx
  have hstart : d.InSight [] [] := ⟨d.start_only.frames, by simp⟩
  have hlevel := (Fair.retraces.topDecls (fun _ => True) front).1
  refine ⟨front.flatMap Trail.topDecl, _, rest.flatMap Trail.topDecl, ?_, htrails, ?_, fun _ => houter⟩
  · rw [SourceFile.trail, hdecls, List.flatMap_append, List.flatMap_cons]
  · exact hstart.level hlevel

theorem outer_intros {c : Node} {before behind : List Node}
    (hchild : n.children = before ++ c :: behind) (hss : ss = [] → n.Outer r)
    (hnone : enter r n ss = []) : ss = [] ∧ n.opens r = false ∧
      (n.shows r c ++ before.flatMap fun x => x.intros (r.child n x)) = [] := by
  unfold enter at hnone
  split at hnone
  · cases hnone
  · rename_i hopens
    have hopens : n.opens r = false := by simpa using hopens
    have houter := hss hnone
    refine ⟨hnone, hopens, ?_⟩
    rw [houter.shows, List.nil_append, List.flatMap_eq_nil_iff]
    intro x hx
    exact (houter.child hopens (by rw [hchild]; simp [hx])).intros

theorem Owned.shows (hd : d.Owned) (h : d.file.Sees r n ss) : d.Shows r n ss := by
  induction h with
  | decl h => exact shows_top h .packageDecl trivial
  | func h => exact shows_top h .func trivial
  | @child r p c ss before behind _ hchild hlook ih =>
    obtain ⟨u, a, post, htrail, htrails, hsight, houter⟩ := ih
    obtain ⟨w, x, v, rfl, hx, hbrings⟩ := htrails.reaches hd hchild hlook
    have hfront : d.file.trail = u ++ (w ++ (x ++ v ++ post)) := by simp [htrail]
    refine ⟨u ++ w, x, v ++ post, by simp [htrail], hx, ?_, fun hnone => ?_⟩
    · exact hbrings hfront (fun hnone => (outer_intros hchild houter hnone).2.2) hsight
    · obtain ⟨hss, hopens, _⟩ := outer_intros hchild houter (declareAll_eq_nil.1 hnone)
      exact (houter hss).child hopens (by rw [hchild]; simp)

end Document

namespace SourceFile

variable {f : SourceFile} {r : Role} {p n : Node} {ss : List Scope}

/-- A name that is in sight somewhere in the file. -/
def Declares (f : SourceFile) (i : Intro) : Prop := ∃ r n ss, f.Sees r n ss ∧ ∃ s ∈ ss, i ∈ s.bindings

/-- A node that stands in a child which is passed without a look. -/
def Passes (f : SourceFile) (n : Node) : Prop :=
  ∃ r p ss c, f.Sees r p ss ∧ c ∈ p.children ∧ p.Skips r c ∧ c.Holds n

theorem Sees.down (h : f.Sees r p ss) (hn : p.Holds n) : (∃ r ss, f.Sees r n ss) ∨ f.Passes n := by
  induction hn generalizing r ss with
  | self => exact .inl ⟨r, ss, h⟩
  | @step p c n hc hn ih =>
    by_cases hskip : p.Skips r c
    · exact .inr ⟨r, p, ss, c, h, hc, hskip, hn⟩
    · obtain ⟨before, behind, hchild⟩ := List.append_of_mem hc
      exact ih (.child h hchild hskip)

theorem sees_or_passes (hn : n ∈ f.nodes) (hcomment : n.isComment = false) :
    (∃ r ss, f.Sees r n ss) ∨ f.Passes n := by
  obtain ⟨x, hx, hholds⟩ := (mem_nodes_decls hcomment).1 hn
  cases x with
  | decl d =>
    have hcontent : (Outline.ofTopDecl (.decl d)).content = .decl d := Outline.content_outline (.decl d)
    rw [hcontent] at hholds
    exact (Sees.decl hx).down hholds
  | func g =>
    have hcontent : (Outline.ofTopDecl (.func g)).content = .func g := Outline.content_outline (.func g)
    rw [hcontent] at hholds
    exact (Sees.func hx).down hholds

end SourceFile

theorem Document.Owned.made {d : Document} (hd : d.Owned) {i : Intro} (h : d.file.Declares i) :
    d.Made i := by
  obtain ⟨r, n, ss, hsees, s, hs, hi⟩ := h
  obtain ⟨_, _, _, _, _, hsight, _⟩ := hd.shows hsees
  exact hsight.made s hs i hi

/-- Lexical scoping: an identifier is bound to the last declaration of its name in the innermost scope
around it that has one in sight, and if there is none to the name of the package. Every declaration
has a number of its own, and only what is passed without a look sees nothing. -/
theorem Document.Reached.lexical {d : Document} (h : d.Reached) : ∃ number : Intro → Nat,
    (∀ i, d.file.Declares i → d.scopes.binding? (number i) = some i.binding) ∧
    (∀ i j, d.file.Declares i → d.file.Declares j → number i = number j → i = j) ∧
    (∀ r t name ss, d.file.Sees r (.expr (.ident t name)) ss → d.scopes.bindingOf? t.id =
      ((ss.findSome? (·.last? name)).map number).or (d.scopes.packageBinding? name)) ∧
    ∀ t name, .expr (.ident t name) ∈ d.file.nodes →
      (∃ r ss, d.file.Sees r (.expr (.ident t name)) ss) ∨ d.file.Passes (.expr (.ident t name)) := by
  have hd := h.owned
  refine ⟨d.number, fun i hi => (hd.made hi).binding, fun i j hi hj => hd.number_inj (hd.made hi)
    (hd.made hj), fun r t name ss hsees => ?_, fun t name hn => SourceFile.sees_or_passes hn ?_⟩
  · obtain ⟨u, a, post, htrail, htrails, hsight, _⟩ := hd.shows hsees
    cases htrails
    rw [hd.bindingOf_after htrail, hsight.frames, Scope.lookup_frames]
  · exact SourceFile.isComment_expr _

/-- A function that defines a name in a block of its own and hands it to a call there. -/
def SourceFile.shadowsAt (f : SourceFile) (name : String) : Bool :=
  match f.decls with
  | [.func ⟨_, none, _, _, some ⟨_, [.block _ ⟨_, [.simple _ (.define _ [n] _),
      .simple _ (.expr _ (.call _ (.ident _ _) [.ident _ x] _))]⟩]⟩⟩] => n.text == name && x == name
  | _ => false

/-- The parameter is hidden by the variable that is defined with its value. -/
theorem Document.Reached.lexical_shadowed : ∃ d r t ss n b, ofSource
      "package p\n\nfunc f(x int) \x7b\n\t\x7b\n\t\tx := x\n\t\tg(x)\n\t\x7d\n\x7d\n" = .ok d ∧ d.Reached ∧
    d.file.Sees r (.expr (.ident t "x")) ss ∧ ss.length = 2 ∧ d.scopes.bindingOf? t.id = some n ∧
      d.scopes.binding? n = some b ∧ ∃ names values k, b.origin = .define names values k := by
  have hshape : (ofSource
      "package p\n\nfunc f(x int) \x7b\n\t\x7b\n\t\tx := x\n\t\tg(x)\n\t\x7d\n\x7d\n").toOption.any
      (·.file.shadowsAt "x") = true := by decide +kernel
  cases hread : ofSource
      "package p\n\nfunc f(x int) \x7b\n\t\x7b\n\t\tx := x\n\t\tg(x)\n\t\x7d\n\x7d\n" with
  | error =>
    rw [hread] at hshape
    cases hshape
  | ok d =>
    rw [hread] at hshape
    dsimp only [Except.toOption, Option.any] at hshape
    unfold SourceFile.shadowsAt at hshape
    split at hshape
    · rename_i t₀ f sig t₁ t₂ t₃ t₄ t₅ n values t₆ t₇ t₈ t₉ g t x spread hdecls
      obtain ⟨hname, hx⟩ := Bool.and_eq_true_iff.1 hshape
      obtain rfl := of_decide_eq_true hx
      have hkids (p : Node) : p.children = Piece.nodes p.pieces := p.children_outline
      have hfunc := SourceFile.Sees.func (hdecls ▸ List.mem_singleton_self _)
      obtain ⟨outer, hblock⟩ : ∃ s, d.file.Sees .scoped (.block ⟨t₃, [.simple t₄ (.define t₅ [n] values),
          .simple t₆ (.expr t₇ (.call t₈ (.ident t₉ g) [.ident t "x"] spread))]⟩) [s] := by
        have hbody := @SourceFile.Sees.child _ _ _ (.block _) _ [.signature sig] [] hfunc (hkids _) id
        have hstmt := @SourceFile.Sees.child _ _ _ (.stmt _) _ [] [] hbody (hkids _) id
        exact ⟨_, @SourceFile.Sees.child _ _ _ (.block _) _ [] [] hstmt (hkids _) id⟩
      -- behind the definition its name is in sight
      let i : Intro := ⟨.simple (.define t₅ [n] values), Resolve.localVar n (.define 1 values 0) t₅.id⟩
      have hcall : d.file.Sees .plain _ [⟨_, [i]⟩, outer] :=
        @SourceFile.Sees.child _ _ _ (.stmt _) _ [.stmt _] [] hblock (hkids _) id
      have hsimple : d.file.Sees .plain _ [⟨_, [i]⟩, outer] :=
        @SourceFile.Sees.child _ _ _ (.simple _) _ [] [] hcall (hkids _) id
      have hexpr : d.file.Sees .plain _ [⟨_, [i]⟩, outer] :=
        @SourceFile.Sees.child _ _ _ (.expr _) _ [] [] hsimple (hkids _) id
      have hx : d.file.Sees .plain (.expr (.ident t "x")) [⟨_, [i]⟩, outer] :=
        @SourceFile.Sees.child _ _ _ (.expr _) _ [.expr _] [] hexpr (hkids _) id
      have hkept (m : Node) : (Scope.mk m [i]).bindings = [i] := by
        have hi : i.name = "x" := of_decide_eq_true hname
        simp [Scope.bindings, Scope.keep, hi]
      have hlast (m : Node) : (Scope.mk m [i]).last? "x" = some i := by
        have hi : (i.name == "x") = true := hname
        simp [Scope.last?, hkept, hi]
      obtain ⟨number, hnumber, _, hbound, _⟩ := lexical (.read hread)
      refine ⟨d, .plain, t, _, number i, i.binding, rfl, .read hread, hx, rfl, ?_, ?_, _, _, _, rfl⟩
      · rw [hbound _ t "x" _ hx, List.findSome?_cons, hlast]
        rfl
      · exact hnumber i ⟨_, _, _, hx, _, List.mem_cons_self, by simp [hkept]⟩
    · cases hshape

end FuncLift
