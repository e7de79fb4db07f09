import FuncLift.Proofs.Retrace

/-!
# Where a trail takes another way

Every scope that a trail opens it closes, and no expression declares anything around it. Every
declaration on a trail belongs to a node that is met on it. If an expression or a run of statements
is replaced, the trail is the same before and behind, and there is no declaration of the region
before or behind it.
-/
namespace FuncLift

/-- How many of the scopes that a trail opened are open behind an event. It closes none that was open
before the trail, and without the flag it declares nothing in one of those. -/
def Event.rise (k : Bool) (h : Nat) : Event → Option Nat
  | .pass _ | .refer .. => some h
  | .openScope => some (h + 1)
  | .closeScope => if h = 0 then none else some (h - 1)
  | .declare _ | .define _ | .range .. => if h = 0 ∧ k = false then none else some h

def height (k : Bool) (h : Nat) (es : List Event) : Option Nat := es.foldlM (Event.rise k) h

@[simp] theorem height_nil (k : Bool) (h : Nat) : height k h [] = some h := rfl

@[simp] theorem height_cons (k : Bool) (h : Nat) (e : Event) (es : List Event) :
    height k h (e :: es) = (e.rise k h).bind fun h' => height k h' es := by
  simp [height, List.foldlM_cons]

@[simp] theorem height_append (k : Bool) (h : Nat) (es fs : List Event) :
    height k h (es ++ fs) = (height k h es).bind fun h' => height k h' fs := by
  simp [height, List.foldlM_append]

theorem height_lift {k k' : Bool} {h h' j : Nat} {es : List Event} (hj : k' = k ∨ 0 < j)
    (hes : height k h es = some h') : height k' (h + j) es = some (h' + j) := by
  induction es generalizing h with
  | nil =>
    cases hes
    rfl
  | cons e es ih =>
    rw [height_cons, Option.bind_eq_some_iff] at hes ⊢
    obtain ⟨h₁, he, hes⟩ := hes
    refine ⟨h₁ + j, ?_, ih hes⟩
    cases e with
    | pass n | refer t name =>
      cases he
      rfl
    | openScope =>
      cases he
      simp [Event.rise, Nat.add_right_comm]
    | closeScope =>
      simp only [Event.rise] at he ⊢
      split at he
      · cases he
      · cases he
        rw [if_neg (by omega)]
        exact congrArg some (by omega)
    | declare l | define l | range t b =>
      simp only [Event.rise] at he ⊢
      split at he
      · cases he
      · rename_i hk
        cases he
        rw [if_neg]
        rintro ⟨h0, rfl⟩
        rcases hj with rfl | hj
        · exact hk ⟨by omega, rfl⟩
        · omega

theorem height_weaken {h h' : Nat} {es : List Event} (hes : height false h es = some h') :
    height true h es = some h' := by
  induction es generalizing h with
  | nil => exact hes
  | cons e es ih =>
    rw [height_cons, Option.bind_eq_some_iff] at hes ⊢
    obtain ⟨h₁, he, hes⟩ := hes
    refine ⟨h₁, ?_, ih hes⟩
    cases e with
    | declare l | define l | range t b =>
      simp only [Event.rise] at he ⊢
      split at he
      · cases he
      · simpa using he
    | _ => exact he

/-- The trail closes what it opens. With the flag it may declare something around it. -/
def Level (k : Bool) (es : List Event) : Prop := height k 0 es = some 0

namespace Level

variable {k : Bool} {a b : List Event}

theorem append (ha : Level k a) (hb : Level k b) : Level k (a ++ b) := by
  unfold Level at *
  rw [height_append, ha, Option.bind_some, hb]

theorem weaken (ha : Level false a) : Level true a := height_weaken ha

theorem scope (ha : Level true a) : Level false (.openScope :: (a ++ [Event.closeScope])) := by
  have hlift := @height_lift true false 0 0 1 a (.inr Nat.one_pos) ha
  simp only [Nat.zero_add] at hlift
  simp [Level, Event.rise, hlift]

theorem pass {n : Node} (ha : Level k a) : Level k (.pass n :: a) := by
  unfold Level at *
  simp [Event.rise, ha]

theorem mute (es : List Event) : Level k (FuncLift.mute es) := by
  unfold FuncLift.mute
  induction met es with
  | nil => rfl
  | cons n ns ih => exact ih.pass

end Level

/-- All declarations on a trail belong to nodes on it or around it. -/
def AllRooted (o : Node → Prop) (es : List Event) : Prop :=
  ∀ e ∈ es, e.Rooted fun n => n ∈ met es ∨ o n

theorem Event.Rooted.mono {o o' : Node → Prop} (h : ∀ n, o n → o' n) {e : Event}
    (he : e.Rooted o) : e.Rooted o' := by
  cases e with
  | declare l | define l =>
    obtain ⟨⟨n, hn, hid⟩, hnote⟩ := he
    refine ⟨⟨n, h n hn, hid⟩, fun id hl => ?_⟩
    obtain ⟨m, hm, hmid⟩ := hnote id hl
    exact ⟨m, h m hm, hmid⟩
  | range t b =>
    obtain ⟨hspan, n, hn, hid⟩ := he
    exact ⟨hspan, n, h n hn, hid⟩
  | _ => trivial

namespace AllRooted

variable {o : Node → Prop} {a b : List Event}

theorem nil : AllRooted o [] := by simp [AllRooted]

theorem append (ha : AllRooted o a) (hb : AllRooted o b) : AllRooted o (a ++ b) := by
  intro e he
  rcases List.mem_append.1 he with he | he
  · exact (ha e he).mono fun n hn => by simpa using hn.imp_left .inl
  · refine (hb e he).mono fun n hn => ?_
    rw [met_append, List.mem_append]
    tauto

theorem pass {n : Node} (ha : AllRooted (Below o n) a) : AllRooted o (.pass n :: a) := by
  intro e he
  rcases List.mem_cons.1 he with rfl | he
  · trivial
  · refine (ha e he).mono fun m hm => ?_
    rw [met_pass, List.mem_cons]
    unfold Below at hm
    tauto

theorem mute (es : List Event) : AllRooted o (FuncLift.mute es) := by
  intro e he
  obtain ⟨n, _, rfl⟩ := List.mem_map.1 he
  trivial

theorem scope (ha : AllRooted o a) : AllRooted o (.openScope :: (a ++ [Event.closeScope])) := by
  intro e he
  rcases List.mem_cons.1 he with rfl | he
  · trivial
  · rcases List.mem_append.1 he with he | he
    · refine (ha e he).mono fun n hn => ?_
      rw [met_openScope, met_append, List.mem_append]
      tauto
    · rw [List.mem_singleton.1 he]
      trivial

theorem one {e : Event} (he : e.Rooted o) : AllRooted o [e] := by
  intro x hx
  rw [List.mem_singleton.1 hx]
  exact he.mono fun n hn => .inr hn

end AllRooted

/-- What holds of every trail. -/
def Fair (k : Bool) (o : Node → Prop) (a _ : List Event) : Prop := Level k a ∧ AllRooted o a

namespace Fair

open Change

variable {k : Bool} {o : Node → Prop} {a a' b b' : List Event}

theorem append (ha : Fair k o a a') (hb : Fair k o b b') : Fair k o (a ++ b) (a' ++ b') :=
  ⟨ha.1.append hb.1, ha.2.append hb.2⟩

theorem scope (ha : Fair true o a a') :
    Fair false o (.openScope :: (a ++ [Event.closeScope])) (.openScope :: (a' ++ [Event.closeScope])) :=
  ⟨ha.1.scope, ha.2.scope⟩

theorem node {n n' : Node} (ha : Fair k (Below o n) a a') :
    Fair k o (.pass n :: a) (.pass n' :: a') := ⟨ha.1.pass, ha.2.pass⟩

theorem retraces : (tags fun t => t).Retraces Fair where
  id _ := rfl
  nil := ⟨rfl, .nil⟩
  append := append
  weaken ha := ⟨ha.1.weaken, ha.2⟩
  mute _ := ⟨.mute _, .mute _⟩
  node _ _ := node
  scope := scope
  owner := owner_of_plain (R := Fair) (fun _ => rfl) append scope node
  refer _ := ⟨rfl, .one trivial⟩
  declared l' hl _ := ⟨⟨rfl, .one hl⟩, ⟨rfl, .one hl⟩⟩
  range b' _ hb _ := ⟨rfl, .one hb⟩
  replaced he := by cases he
  replacedKey _ he := by cases he
  replacedVar _ _ _ he := by cases he

theorem expr (o : Node → Prop) (e : Expr) : Level false (Trail.expr e) ∧ AllRooted o (Trail.expr e) :=
  retraces.expr o e

theorem stmts (o : Node → Prop) (ss : List Stmt) :
    Level true (Trail.stmts ss) ∧ AllRooted o (Trail.stmts ss) := retraces.stmts o ss

theorem trail (f : SourceFile) :
    Level false f.trail ∧ AllRooted (fun _ => False) f.trail :=
  retraces.topDecls (fun _ => False) f.decls

end Fair

theorem mute_append (es fs : List Event) : mute (es ++ fs) = mute es ++ mute fs := by
  simp [mute]

theorem mute_mute (es : List Event) : mute (mute es) = mute es := by
  rw [mute, met_mute, ← mute]

/-- A node at which a trail takes another way: the events that are left out, those that take their
place, and what comes right behind. -/
structure Spot where
  node : Node
  old : List Event
  new : List Event
  tail : List Event

namespace Spot

/-- How the events of a spot are on a trail, before and after. Where the resolver passes without a
look they are muted. A replaced key of a literal is looked at. A replaced variable of a range clause
is lost. -/
inductive Turns (s : Spot) : List Event → List Event → List Event → Prop where
  | plain (rest : List Event) : Turns s s.old s.new (s.tail ++ rest)
  | muted (rest : List Event) : Turns s (mute s.old) (mute s.new) rest
  | shown (rest : List Event) : Owner.ofNode? s.node = none → Turns s (mute s.old) s.new rest
  | range (t : Tag) (b : Binding) (rest : List Event) : s.node = .expr (.ident t b.name) →
      s.old = [.refer t b.name] → b.span = t.span → Turns s [.range t b] (mute s.new) rest

theorem Turns.append {s : Spot} {x y post : List Event} (h : s.Turns x y post) (b : List Event) :
    s.Turns x y (post ++ b) := by
  cases h with
  | plain rest =>
    rw [List.append_assoc]
    exact .plain _
  | muted => exact .muted _
  | shown _ hs => exact .shown _ hs
  | range t b rest hs hold hb => exact .range t b _ hs hold hb

theorem Turns.mute {s : Spot} {x y post : List Event} (h : s.Turns x y post) (rest : List Event) :
    s.Turns (FuncLift.mute x) (FuncLift.mute y) rest := by
  cases h with
  | plain => exact .muted rest
  | muted =>
    rw [mute_mute, mute_mute]
    exact .muted rest
  | shown =>
    rw [mute_mute]
    exact .muted rest
  | range t b _ _ hold _ =>
    have hx : FuncLift.mute [Event.range t b] = FuncLift.mute s.old := by
      rw [hold]
      rfl
    rw [hx, mute_mute]
    exact .muted rest

/-- The node of a spot is not met. -/
def Misses (s : Spot) (es : List Event) : Prop := ∀ n ∈ met es, n.tag.id ≠ s.node.tag.id

theorem Misses.append {s : Spot} {a b : List Event} (ha : s.Misses a) (hb : s.Misses b) :
    s.Misses (a ++ b) := by
  intro n hn
  rw [met_append] at hn
  exact (List.mem_append.1 hn).elim (ha n) (hb n)

/-- The node of a spot is met once at most, and nothing else has its number. -/
structure Once (s : Spot) (es : List Event) : Prop where
  eq : ∀ n ∈ met es, n.tag.id = s.node.tag.id → n = s.node
  count : metCount (fun n => n.tag.id == s.node.tag.id) es ≤ 1

theorem misses_iff {s : Spot} {es : List Event} :
    s.Misses es ↔ metCount (fun n => n.tag.id == s.node.tag.id) es = 0 := by
  simp [Misses, metCount, List.countP_eq_zero]

theorem Once.left {s : Spot} {a b : List Event} (h : s.Once (a ++ b)) : s.Once a := by
  have hcount := h.count
  rw [metCount_append] at hcount
  exact ⟨fun n hn => h.eq n (by simp [hn]), by omega⟩

theorem Once.right {s : Spot} {a b : List Event} (h : s.Once (a ++ b)) : s.Once b := by
  have hcount := h.count
  rw [metCount_append] at hcount
  exact ⟨fun n hn => h.eq n (by simp [hn]), by omega⟩

theorem Once.one {s : Spot} {a b : List Event} (h : s.Once (a ++ b)) :
    s.Misses a ∨ s.Misses b := by
  have hcount := h.count
  rw [metCount_append] at hcount
  rw [misses_iff, misses_iff]
  omega

/-- The way of a trail past a spot, before and after. -/
structure Passed (s : Spot) (o : Node → Prop) (a b : List Event) : Prop where
  away : s.Misses a → Change.Same true o a b
  split : ¬ s.Misses a → ∃ pre post x y, s.Turns x y post ∧ a = pre ++ x ++ post ∧
    b.map Event.bare = (pre ++ y ++ post).map Event.bare ∧ AllRooted o (pre ++ post)

/-- A trail whose spot is met once at most goes past it. -/
def Turned (s : Spot) (_ : Bool) (o : Node → Prop) (a b : List Event) : Prop :=
  AllRooted o a ∧ (s.Once a → s.Passed o a b)

namespace Turned

open Change

variable {s : Spot} {k : Bool} {o : Node → Prop} {a a' b b' : List Event}

theorem same (hroot : AllRooted o a) (hmiss : s.Once a → s.Misses a) (hsame : Same true o a b) :
    s.Turned k o a b := ⟨hroot, fun h => ⟨fun _ => hsame, fun hn => absurd (hmiss h) hn⟩⟩

theorem append (ha : s.Turned k o a a') (hb : s.Turned k o b b') :
    s.Turned k o (a ++ b) (a' ++ b') := by
  refine ⟨ha.1.append hb.1, fun h => ?_⟩
  have ha' := ha.2 h.left
  have hb' := hb.2 h.right
  refine ⟨fun hmiss => ?_, fun hhit => ?_⟩
  · exact (ha'.away fun n hn => hmiss n (by simp [hn])).append
      (hb'.away fun n hn => hmiss n (by simp [hn]))
  · rcases h.one with hmiss | hmiss
    · obtain ⟨pre, post, x, y, hturns, rfl, hb2, hroot⟩ :=
        hb'.split fun hm => hhit (hmiss.append hm)
      have hsame : a'.map Event.bare = a.map Event.bare := ha'.away hmiss
      refine ⟨a ++ pre, post, x, y, hturns, by simp, by simp [hsame, hb2], ?_⟩
      rw [List.append_assoc]
      exact ha.1.append hroot
    · obtain ⟨pre, post, x, y, hturns, rfl, ha2, hroot⟩ :=
        ha'.split fun hm => hhit (hm.append hmiss)
      have hsame : b'.map Event.bare = b.map Event.bare := hb'.away hmiss
      refine ⟨pre, post ++ b, x, y, hturns.append b, by simp, by simp [hsame, ha2], ?_⟩
      rw [← List.append_assoc]
      exact hroot.append hb.1

theorem mute (ha : s.Turned k o a a') : s.Turned k o (FuncLift.mute a) (FuncLift.mute a') := by
  refine ⟨.mute _, fun h => ?_⟩
  have honce : s.Once a := ⟨by simpa using h.eq, by simpa using h.count⟩
  have hmisses : s.Misses (FuncLift.mute a) ↔ s.Misses a := by simp [Misses]
  obtain ⟨haway, hsplit⟩ := ha.2 honce
  refine ⟨fun hm => (haway (hmisses.1 hm)).mute, fun hn => ?_⟩
  obtain ⟨pre, post, x, y, hturns, rfl, hy, _⟩ := hsplit fun hm => hn (hmisses.2 hm)
  refine ⟨FuncLift.mute pre, FuncLift.mute post, _, _, hturns.mute _, ?_, ?_, ?_⟩
  · rw [mute_append, mute_append]
  · rw [mute_bare, hy, ← mute_bare, mute_append, mute_append]
  · exact (AllRooted.mute pre).append (.mute post)

theorem node {c : Change} (hid : c.KeepsIds) {n : Node} (hn : c.replacement? n = none)
    (hspot : n ≠ s.node) (ha : s.Turned k (Below o n) a a') :
    s.Turned k o (.pass n :: a) (.pass (c.node n) :: a') := by
  refine ⟨ha.1.pass, fun h => ?_⟩
  have hne : n.tag.id ≠ s.node.tag.id := fun he => hspot (h.eq n List.mem_cons_self he)
  have honce : s.Once a := h.right (a := [.pass n])
  have hmisses : s.Misses (.pass n :: a) ↔ s.Misses a := by
    simp [Misses, hne]
  have hbare : (Event.pass (c.node n)).bare = (Event.pass n).bare := by
    simp [Event.bare, head_node hid hn]
  obtain ⟨haway, hsplit⟩ := ha.2 honce
  refine ⟨fun hm => (haway (hmisses.1 hm)).node hid hn, fun hm => ?_⟩
  obtain ⟨pre, post, x, y, hturns, rfl, hy, hroot⟩ := hsplit fun hx => hm (hmisses.2 hx)
  exact ⟨.pass n :: pre, post, x, y, hturns, rfl, by simp [hbare, hy], hroot.pass⟩

theorem single {e e' : Event} (hroot : e.Rooted o) (hspot : ∀ n, e.node? = some n → n ≠ s.node)
    (hsame : e'.bare = e.bare) : s.Turned k o [e] [e'] := by
  refine same (.one hroot) (fun h n hn hid => ?_) (by simp [Same, hsame])
  have he : e.node? = some n := by
    cases hnode : e.node? <;> simp_all [met]
  exact hspot n he (h.eq n hn hid)

theorem scope (ha : s.Turned true o a a') :
    s.Turned false o (.openScope :: (a ++ [Event.closeScope])) (.openScope :: (a' ++ [Event.closeScope])) := by
  have hopen : s.Turned true o [.openScope] [.openScope] :=
    single trivial (fun n hn => by cases hn) rfl
  have hclose : s.Turned true o [.closeScope] [.closeScope] :=
    single trivial (fun n hn => by cases hn) rfl
  exact hopen.append (ha.append hclose)

end Turned

/-- The spot of an expression. -/
def ofExpr (e new : Expr) : Spot := ⟨.expr e, Trail.expr e, Trail.expr new, []⟩

theorem mem_met_expr (e : Expr) : .expr e ∈ met (Trail.expr e) := by
  cases e with
  | funcLit t sig b => cases b; exact List.mem_cons_self
  | _ => exact List.mem_cons_self

theorem ne_spot {e new : Expr} {n : Node} (hn : (Change.replaceExpr e.tag.id new).replacement? n = none) :
    n ≠ .expr e := by
  rintro rfl
  simp [Change.replacement?, Change.replaceExpr] at hn

theorem onExpr_replaceExpr {id : Nat} {new x y : Expr}
    (h : (Change.replaceExpr id new).onExpr x = some y) : x.tag.id = id ∧ y = new := by
  simp only [Change.replaceExpr] at h
  split at h
  · exact ⟨‹_›, (Option.some.inj h).symm⟩
  · cases h

/-- A variable of a range clause that is no name is passed without a look. -/
theorem rangeVar_mute (home : Nat) (subject : Expr) (index : Nat) {e : Expr}
    (he : Resolve.isIdent (some e) = false) :
    Trail.rangeVar home subject index (some e) = mute (Trail.expr e) := by
  cases e with
  | ident t n => cases he
  | _ => rw [Trail.rangeVar]; rintro _ _ ⟨⟩

theorem turned_expr {e new x : Expr} (hx : x.tag.id = e.tag.id) {k : Bool} {o : Node → Prop}
    {a b : List Event} (hroot : AllRooted o a) (hmet : met a = met (Trail.expr x))
    (hturns : x = e → (ofExpr e new).Turns a b []) : (ofExpr e new).Turned k o a b := by
  refine ⟨hroot, fun honce => ?_⟩
  have hmem : .expr x ∈ met a := hmet ▸ mem_met_expr x
  have heq : x = e := Node.expr.inj (honce.eq _ hmem hx)
  refine ⟨fun hmiss => absurd hx (hmiss _ hmem), fun _ => ?_⟩
  exact ⟨[], [], a, b, hturns heq, by simp, by simp, .nil⟩

open Change in
theorem retraces_replaceExpr (e : Expr) {new : Expr} (hnew : Resolve.isIdent (some new) = false) :
    (replaceExpr e.tag.id new).Retraces (ofExpr e new).Turned where
  id _ := rfl
  nil := .same .nil (fun _ n hn => by cases hn) rfl
  append := .append
  weaken ha := ha
  mute := .mute
  node hn _ := .node (fun _ => rfl) hn (ne_spot hn)
  scope := .scope
  owner := owner_of_plain (fun _ => rfl) .append .scope
    (.node (fun _ => rfl) (ownerless_replacement _ _)
      (ne_spot (ownerless_replacement (replaceExpr e.tag.id new) _)))
  refer hc := .single trivial (fun n hn => by cases hn; exact ne_spot hc) rfl
  declared l' hl hbare := by
    have hbare' : (Event.define l').bare = (Event.define _).bare := congrArg Event.define hbare
    exact ⟨.single hl (fun n hn => by cases hn) (congrArg Event.declare hbare),
      .single hl (fun n hn => by cases hn) hbare'⟩
  range b' hc hb hbare := .single hb (fun n hn => by cases hn; exact ne_spot hc)
    (congrArg (Event.range _) hbare)
  replaced {o x y} hc := by
    obtain ⟨hx, rfl⟩ := onExpr_replaceExpr hc
    exact turned_expr hx (Fair.expr o x).2 rfl fun h => h ▸ .plain []
  replacedKey {o x y} fields hc := by
    obtain ⟨hx, rfl⟩ := onExpr_replaceExpr hc
    have hkey : Trail.key fields (some y) = Trail.expr y := by simp [Trail.key, hnew, Trail.exprOption]
    rw [hkey, Trail.key]
    split
    · exact turned_expr hx (.mute _) (met_mute _) fun h => h ▸ .shown [] rfl
    · exact turned_expr hx (Fair.expr o x).2 rfl fun h => h ▸ .plain []
  replacedVar {o home x y} subject subject' index hc hhome := by
    obtain ⟨hx, rfl⟩ := onExpr_replaceExpr hc
    rw [rangeVar_mute home subject' index hnew]
    cases hident : Resolve.isIdent (some x) with
    | false =>
      rw [rangeVar_mute home subject index hident]
      exact turned_expr hx (.mute _) (met_mute _) fun h => h ▸ .muted []
    | true =>
      match x, hident with
      | .ident t n, _ =>
        rw [Trail.rangeVar]
        refine turned_expr hx (.one ⟨rfl, hhome⟩) rfl fun h => h ▸ ?_
        exact .range t ⟨n, .localVar, .range subject index, home, t.span⟩ [] rfl rfl rfl

/-- The spot of statements in a list. Behind the list its scope is closed. -/
def ofRun (w : Owner) (run after : List Stmt) (new : Stmt) : Spot :=
  ⟨w.node, Trail.stmts run, Trail.stmt new, Trail.stmts after ++ [Event.closeScope]⟩

/-- Trails that tell the same if no node on them has a number. -/
def Off (id : Nat) (k : Bool) (o : Node → Prop) (a b : List Event) : Prop :=
  (∀ n ∈ met a, n.tag.id ≠ id) → Change.Same k o a b

open Change in
theorem retraces_off (owner first count : Nat) (new : Stmt) :
    (replaceRun owner first count new).Retraces (Off owner) where
  id _ := rfl
  nil _ := rfl
  append ha hb hmiss :=
    (ha fun n hn => hmiss n (by simp [hn])).append (hb fun n hn => hmiss n (by simp [hn]))
  weaken ha := ha
  mute ha hmiss := (ha (by simpa using hmiss)).mute
  node hn _ ha hmiss :=
    .node (fun _ => rfl) hn (ha fun n hn => hmiss n (List.mem_cons_of_mem _ hn))
  scope ha hmiss := (ha fun n hn => hmiss n (by simp [hn])).scope
  owner {o w front front'} hfront hrun hmiss := by
    have hw : w.id ≠ owner := hmiss w.node (by simp)
    have hstmts (ss : List Stmt) : (replaceRun owner first count new).onStmts w.id ss = ss := by
      simp [replaceRun, hw]
    exact owner_of_plain (R := Same) hstmts .append .scope
      (.node (fun _ => rfl) (ownerless_replacement _ _)) (hfront fun n hn => hmiss n (by simp [hn]))
      (hrun fun n hn => hmiss n (by simp [hn]))
  refer _ _ := .refer (fun _ => rfl) _ _
  declared l' _ hl := ⟨fun _ => by simp [Same, Event.bare, hl], fun _ => by simp [Same, Event.bare, hl]⟩
  range b' _ _ hb _ := .range (fun _ => rfl) _ hb
  replaced he := by cases he
  replacedKey _ he := by cases he
  replacedVar _ _ _ he := by cases he

theorem stmts_append (ss ts : List Stmt) :
    Trail.stmts (ss ++ ts) = Trail.stmts ss ++ Trail.stmts ts := by
  induction ss with
  | nil => rfl
  | cons s ss ih => simp [Trail.stmts, ih]

section Run

open Change

variable {w : Owner} {before run after : List Stmt} {new : Stmt} {first : Nat}

theorem ne_owner {n : Node} (hn : Owner.ofNode? n = none) : n ≠ (ofRun w run after new).node := by
  rintro rfl
  cases w <;> cases hn

/-- At the owner of a run the trail of the new statement takes the place of that of the run. -/
theorem turned_owner (hsplit : w.stmts = before ++ run ++ after)
    (hbefore : ∀ s ∈ before, s.tag.id ≠ first) (hfirst : run.head?.map (·.tag.id) = some first)
    {o : Node → Prop} {front front' : List Event}
    (hfront : (ofRun w run after new).Turned true o front front') :
    (ofRun w run after new).Turned false o
      (.openScope :: (front ++ Event.pass w.node :: (Trail.stmts w.stmts ++ [Event.closeScope])))
      (.openScope :: (front' ++ Event.pass ((replaceRun w.id first run.length new).owner w).node ::
        (Trail.stmts ((replaceRun w.id first run.length new).owner w).stmts ++ [Event.closeScope]))) := by
  have hroot {ss : List Stmt} : AllRooted (Below o w.node) (Trail.stmts ss) := (Fair.stmts _ ss).2
  refine ⟨by simpa using (hfront.1.append hroot.pass).scope, fun honce => ?_⟩
  -- the owner is met once, so that neither its front nor its statements meet it
  have hself : ((ofRun w run after new).node.tag.id == w.id) = true := beq_self_eq_true _
  have hcount := honce.count
  simp only [metCount_open, metCount_append, metCount_pass, metCount_close, metCount_nil] at hcount
  rw [if_pos (by exact hself)] at hcount
  have hmissFront : (ofRun w run after new).Misses front := misses_iff.2 (by omega)
  have hmissStmts : (ofRun w run after new).Misses (Trail.stmts w.stmts) := misses_iff.2 (by omega)
  rw [hsplit, stmts_append, stmts_append] at hmissStmts
  have honceFront : (ofRun w run after new).Once front :=
    ⟨fun n hn => honce.eq n (by simp [hn]), by omega⟩
  have hsameFront : front'.map Event.bare = front.map Event.bare :=
    (hfront.2 honceFront).away hmissFront
  have hsame (ss : List Stmt) (hss : (ofRun w run after new).Misses (Trail.stmts ss)) :
      (Trail.stmts (ss.map (replaceRun w.id first run.length new).stmt)).map Event.bare =
        (Trail.stmts ss).map Event.bare := by
    rw [← stmts_eq_map]
    exact (retraces_off w.id first run.length new).stmts o ss hss
  have hbeforeSame := hsame before fun n hn => hmissStmts n (by simp [hn])
  have hafterSame := hsame after fun n hn => hmissStmts n (by simp [hn])
  have hplain : (ofRun w run after new).Turns (Trail.stmts run) (Trail.stmt new)
      (Trail.stmts after ++ [Event.closeScope]) := by
    have hturns := Turns.plain (s := ofRun w run after new) []
    rwa [List.append_nil] at hturns
  refine ⟨fun hmiss => absurd rfl (hmiss w.node (by simp)), fun _ => ⟨.openScope :: (front ++
    Event.pass w.node :: Trail.stmts before), Trail.stmts after ++ [Event.closeScope], Trail.stmts run,
    Trail.stmt new, hplain, ?_, ?_, ?_⟩⟩
  · rw [hsplit, stmts_append, stmts_append]
    simp
  · rw [node_owner, stmts_owner, stmts_replaceRun hsplit hbefore hfirst, stmts_append, Trail.stmts]
    have hhead := head_node (c := replaceRun w.id first run.length new) (fun _ => rfl)
      (ownerless_replacement _ w)
    simp [Event.bare, hhead, hsameFront, hbeforeSame, hafterSame]
  · simpa using (hfront.1.append (hroot.append hroot).pass).scope

theorem retraces_replaceRun (hsplit : w.stmts = before ++ run ++ after)
    (hbefore : ∀ s ∈ before, s.tag.id ≠ first) (hfirst : run.head?.map (·.tag.id) = some first) :
    (replaceRun w.id first run.length new).Retraces (ofRun w run after new).Turned where
  id _ := rfl
  nil := .same .nil (fun _ n hn => by cases hn) rfl
  append := .append
  weaken ha := ha
  mute := .mute
  node hn hno := .node (fun _ => rfl) hn (ne_owner hno)
  scope := .scope
  owner {o v front front'} hfront hrun := by
    by_cases hid : v.id = w.id
    · refine ⟨by simpa using (hfront.1.append hrun.1.pass).scope, fun honce => ?_⟩
      have hv : v = w := owner_eq_of_node (honce.eq v.node (by simp) hid)
      subst hv
      exact (turned_owner hsplit hbefore hfirst hfront).2 honce
    · have hstmts (ss : List Stmt) : (replaceRun w.id first run.length new).onStmts v.id ss = ss := by
        simp [replaceRun, hid]
      have hne : v.node ≠ (ofRun w run after new).node := fun h => hid (congrArg (·.tag.id) h)
      exact owner_of_plain hstmts .append .scope
        (.node (fun _ => rfl) (ownerless_replacement _ _) hne) hfront hrun
  refer hc := .single trivial (fun n hn => by cases hn; exact ne_owner rfl) rfl
  declared l' hl hbare := by
    have hbare' : (Event.define l').bare = (Event.define _).bare := congrArg Event.define hbare
    exact ⟨.single hl (fun n hn => by cases hn) (congrArg Event.declare hbare),
      .single hl (fun n hn => by cases hn) hbare'⟩
  range b' hc hb hbare := .single hb (fun n hn => by cases hn; exact ne_owner rfl)
    (congrArg (Event.range _) hbare)
  replaced he := by cases he
  replacedKey _ he := by cases he
  replacedVar _ _ _ he := by cases he

end Run

end Spot

end FuncLift
