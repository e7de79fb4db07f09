import FuncLift.Proofs.Met

/-!
# Trails of changed trees

A change of a tree changes its trail where the tree was changed and nowhere else. The rules below
say what a relation of trails has to bear so that every change keeps it: trails behind each other,
trails below a node, in a scope, and muted ones. A relation may tell trails that declare something
in the scope around them from trails that do not, and it may rest on the nodes around a trail.
-/
namespace FuncLift

def Origin.bare : Origin → Origin
  | .define names _ index => .define names [] index
  | .value names _ _ index => .value names none [] index
  | .param _ _ index => .param .stub false index
  | .range _ index => .range .stub index
  | .typeSwitch => .typeSwitch
  | .func _ => .func .stub
  | .typeSpec => .typeSpec
  | .importSpec => .importSpec

/-- The site of a declaration: neither where the name stands in the text, nor what its type depends
on. -/
def Binding.bare (b : Binding) : Binding := { b with origin := b.origin.bare, span := .unset }

def Local.bare (l : Local) : Local := ⟨l.binding.bare, l.note⟩

def Event.bare : Event → Event
  | .pass n => .pass n.head
  | .openScope => .openScope
  | .closeScope => .closeScope
  | .refer t name => .refer t.bare name
  | .declare l => .declare l.bare
  | .define l => .define l.bare
  | .range t b => .range t.bare b.bare

theorem node_bare (e : Event) : e.bare.node? = e.node?.map Node.head := by cases e <;> rfl

theorem met_bare (es : List Event) : met (es.map Event.bare) = (met es).map Node.head := by
  induction es with
  | nil => rfl
  | cons e es ih =>
    simp only [met, List.map_cons, List.filterMap_cons, node_bare] at ih ⊢
    cases e.node? <;> simp [ih]

theorem mute_bare (es : List Event) : (mute es).map Event.bare = mute (es.map Event.bare) := by
  simp [mute, met_bare, Event.bare, Function.comp_def]

/-- A node with a number is among those around. -/
def Knows (o : Node → Prop) (id : Nat) : Prop := ∃ n, o n ∧ n.tag.id = id

/-- A node with a number is among those around, and holds names. -/
def Roots (o : Node → Prop) (home : Nat) (ns : List Name) : Prop :=
  ∃ n, o n ∧ n.tag.id = home ∧ ∀ m ∈ ns, m.entry ∈ n.own

/-- The node that declares a name is among those around, and so is the statement that it is noted
for. -/
def Event.Rooted (o : Node → Prop) : Event → Prop
  | .declare l | .define l =>
    (∃ n, o n ∧ n.tag.id = l.binding.home ∧ ∃ e ∈ n.own, e.span = l.binding.span) ∧
      ∀ id, l.note = some id → Knows o id
  | .range t b => b.span = t.span ∧ Knows o b.home
  | _ => True

theorem Roots.rooted {o : Node → Prop} {home : Nat} {ns : List Name} (h : Roots o home ns)
    {m : Name} (hm : m ∈ ns) (origin : Origin) (note : Option Nat)
    (hnote : ∀ id, note = some id → Knows o id) :
    (Event.declare ⟨Resolve.localVar m origin home, note⟩).Rooted o := by
  obtain ⟨n, hn, hid, hown⟩ := h
  exact ⟨⟨n, hn, hid, m.entry, hown m hm, rfl⟩, hnote⟩

theorem Roots.tail {o : Node → Prop} {home : Nat} {m : Name} {ns : List Name}
    (h : Roots o home (m :: ns)) : Roots o home ns := by
  obtain ⟨n, hn, hid, hown⟩ := h
  exact ⟨n, hn, hid, fun x hx => hown x (List.mem_cons_of_mem _ hx)⟩

/-- The trail of a key of a literal. -/
def Trail.key (fields : Bool) (e : Option Expr) : List Event :=
  if fields && Resolve.isIdent e then mute (exprOption e) else exprOption e

/-- The nodes around what is below a node. -/
def Below (o : Node → Prop) (n : Node) : Node → Prop := fun m => m = n ∨ o m

namespace Change

/-- A relation of trails that a change keeps. The flag tells whether the trail may declare something
in the scope around it. -/
structure Retraces (c : Change) (R : Bool → (Node → Prop) → List Event → List Event → Prop) :
    Prop where
  id : c.KeepsIds
  nil : ∀ {k o}, R k o [] []
  append : ∀ {k o a a' b b'}, R k o a a' → R k o b b' → R k o (a ++ b) (a' ++ b')
  weaken : ∀ {o a a'}, R false o a a' → R true o a a'
  mute : ∀ {o a a'}, R false o a a' → R false o (FuncLift.mute a) (FuncLift.mute a')
  node : ∀ {k o n a a'}, c.replacement? n = none → Owner.ofNode? n = none →
    R k (Below o n) a a' → R k o (.pass n :: a) (.pass (c.node n) :: a')
  scope : ∀ {o a a'}, R true o a a' →
    R false o (.openScope :: (a ++ [Event.closeScope])) (.openScope :: (a' ++ [Event.closeScope]))
  owner : ∀ {o w front front'}, R true o front front' →
    R true (Below o w.node) (Trail.stmts w.stmts) (Trail.stmts (c.stmts w.stmts)) →
    R false o (.openScope :: (front ++ Event.pass w.node :: (Trail.stmts w.stmts ++ [Event.closeScope])))
      (.openScope :: (front' ++ Event.pass (c.owner w).node ::
        (Trail.stmts (c.owner w).stmts ++ [Event.closeScope])))
  refer : ∀ {o t name}, c.onExpr (.ident t name) = none →
    R false o [.refer t name] [.refer (c.onTag t) name]
  declared : ∀ {o l} (l' : Local), (Event.declare l).Rooted o → l'.bare = l.bare →
    R true o [.declare l] [.declare l'] ∧ R true o [.define l] [.define l']
  range : ∀ {o t b} (b' : Binding), c.onExpr (.ident t b.name) = none →
    (Event.range t b).Rooted o → b'.bare = b.bare → R true o [.range t b] [.range (c.onTag t) b']
  replaced : ∀ {o e new}, c.onExpr e = some new → R false o (Trail.expr e) (Trail.expr new)
  replacedKey : ∀ {o e new} (fields : Bool), c.onExpr e = some new →
    R false o (Trail.key fields (some e)) (Trail.key fields (some new))
  replacedVar : ∀ {o home e new} (subject subject' : Expr) (index : Nat),
    c.onExpr e = some new → Knows o home →
    R true o (Trail.rangeVar home subject index (some e))
      (Trail.rangeVar home subject' index (some new))

namespace Retraces

variable {c : Change} {R : Bool → (Node → Prop) → List Event → List Event → Prop}
  (h : c.Retraces R) {o : Node → Prop}

include h

theorem paramNames {home home' : Nat} (hhome : home' = home) (type type' : TypeExpr)
    (variadic : Bool) (index : Nat) {ns : List Name} (hroots : Roots o home ns) :
    R true o (Trail.paramNames home type variadic index ns)
      (Trail.paramNames home' type' variadic index (c.names ns)) := by
  subst hhome
  induction ns generalizing index with
  | nil => exact h.nil
  | cons m ns ih =>
    have hm := hroots.rooted List.mem_cons_self (.param type variadic index) none (by simp)
    have hnew := h.declared ⟨Resolve.localVar (c.name m) (.param type' variadic index) home', none⟩
      hm rfl
    exact h.append hnew.1 (ih _ hroots.tail)

theorem definedNames {note : Option Nat} {home home' : Nat} (hhome : home' = home) (names : Nat)
    (values values' : List Expr) (index : Nat) {ns : List Name} (hroots : Roots o home ns)
    (hnote : ∀ id, note = some id → Knows o id) :
    R true o (Trail.definedNames note home names values index ns)
      (Trail.definedNames note home' names values' index (c.names ns)) := by
  subst hhome
  induction ns generalizing index with
  | nil => exact h.nil
  | cons m ns ih =>
    have hm := hroots.rooted List.mem_cons_self (.define names values index) note hnote
    have hnew := h.declared ⟨Resolve.localVar (c.name m) (.define names values' index) home', note⟩
      hm rfl
    exact h.append hnew.2 (ih _ hroots.tail)

theorem valueNames {note home note' home' : Nat} (hhome : home' = home) (hsame : note' = note)
    (names : Nat) (type type' : Option TypeExpr) (values values' : List Expr) (index : Nat)
    {ns : List Name} (hroots : Roots o home ns) (hnote : Knows o note) :
    R true o (Trail.valueNames note home names type values index ns)
      (Trail.valueNames note' home' names type' values' index (c.names ns)) := by
  subst hhome hsame
  induction ns generalizing index with
  | nil => exact h.nil
  | cons m ns ih =>
    have hm := hroots.rooted List.mem_cons_self (.value names type values index) (some note')
      fun id hid => Option.some.inj hid ▸ hnote
    have hnew := h.declared
      ⟨Resolve.localVar (c.name m) (.value names type' values' index) home', some note'⟩ hm rfl
    exact h.append hnew.1 (ih _ hroots.tail)

theorem bound {home home' : Nat} (hhome : home' = home) {bind : Option Name}
    (hroots : Roots o home bind.toList) :
    R true o (Trail.bound home bind) (Trail.bound home' (c.nameOption bind)) := by
  subst hhome
  cases bind with
  | none => exact h.nil
  | some m =>
    have hm := hroots.rooted (m := m) (by simp) .typeSwitch none (by simp)
    exact (h.declared ⟨Resolve.localVar (c.name m) .typeSwitch home', none⟩ hm rfl).1

theorem key (fields : Bool) {e : Option Expr}
    (he : R false o (Trail.exprOption e) (Trail.exprOption (c.exprOption e))) :
    R false o (Trail.key fields e) (Trail.key fields (c.exprOption e)) := by
  have hsame (hident : Resolve.isIdent (c.exprOption e) = Resolve.isIdent e) :
      R false o (Trail.key fields e) (Trail.key fields (c.exprOption e)) := by
    unfold Trail.key
    rw [hident]
    split
    · exact h.mute he
    · exact he
  cases e with
  | none => exact hsame rfl
  | some e =>
    cases hc : c.onExpr e with
    | none =>
      apply hsame
      cases e <;> rw [Change.exprOption, Change.expr, hc] <;> rfl
    | some new =>
      rw [Change.exprOption, Change.expr_of_replaced hc]
      exact h.replacedKey fields hc

omit h in
theorem keysAreFields_typeOption (t : Option TypeExpr) :
    Resolve.keysAreFields (c.typeOption t) = Resolve.keysAreFields t := by
  rcases t with _ | t
  · rfl
  · cases t <;> rfl

mutual

theorem expr (o : Node → Prop) (e : Expr) :
    R false o (Trail.expr e) (Trail.expr (c.expr e)) := by
  cases hc : c.onExpr e with
  | some new =>
    rw [Change.expr_of_replaced hc]
    exact h.replaced hc
  | none =>
    have hn {a a' : List Event} : R false (Below o (.expr e)) a a' →
        R false o (.pass (.expr e) :: a) (.pass (c.node (.expr e)) :: a') := h.node hc rfl
    match e with
    | .ident t n =>
      rw [Change.expr, hc]
      exact h.refer hc
    | .lit t k x =>
      rw [Change.node, Change.expr, hc] at hn
      rw [Change.expr, hc]
      exact hn h.nil
    | .funcLit t sig ⟨u, body⟩ =>
      rw [Change.node, Change.expr, hc] at hn
      rw [Change.expr, hc]
      exact hn (h.owner (w := .block ⟨u, body⟩) (signature _ sig) (stmts _ body))
    | .composite t type elems =>
      rw [Change.node, Change.expr, hc] at hn
      rw [Change.expr, hc]
      exact hn (h.append (typeOption _ type) (keysAreFields_typeOption (c := c) type ▸ elements _ _ elems))
    | .paren t x =>
      rw [Change.node, Change.expr, hc] at hn
      rw [Change.expr, hc]
      exact hn (expr _ x)
    | .selector t x sel =>
      rw [Change.node, Change.expr, hc] at hn
      rw [Change.expr, hc]
      exact hn (expr _ x)
    | .index t x i =>
      rw [Change.node, Change.expr, hc] at hn
      rw [Change.expr, hc]
      exact hn (h.append (expr _ x) (expr _ i))
    | .slice t x lo hi max =>
      rw [Change.node, Change.expr, hc] at hn
      rw [Change.expr, hc]
      exact hn (h.append (expr _ x) (h.append (exprOption _ lo)
        (h.append (exprOption _ hi) (exprOption _ max))))
    | .assert t x type =>
      rw [Change.node, Change.expr, hc] at hn
      rw [Change.expr, hc]
      exact hn (h.append (expr _ x) (typeOption _ type))
    | .call t callee args spread =>
      rw [Change.node, Change.expr, hc] at hn
      rw [Change.expr, hc]
      exact hn (h.append (expr _ callee) (exprs _ args))
    | .unary t op x =>
      rw [Change.node, Change.expr, hc] at hn
      rw [Change.expr, hc]
      exact hn (expr _ x)
    | .binary t l op r =>
      rw [Change.node, Change.expr, hc] at hn
      rw [Change.expr, hc]
      exact hn (h.append (expr _ l) (expr _ r))
    | .type t type =>
      rw [Change.node, Change.expr, hc] at hn
      rw [Change.expr, hc]
      exact hn (typeExpr _ type)

theorem exprOption (o : Node → Prop) : ∀ e : Option Expr,
    R false o (Trail.exprOption e) (Trail.exprOption (c.exprOption e))
  | none => h.nil
  | some e => expr o e

theorem exprs (o : Node → Prop) : ∀ es : List Expr,
    R false o (Trail.exprs es) (Trail.exprs (c.exprs es))
  | [] => h.nil
  | e :: es => h.append (expr o e) (exprs o es)

theorem elements (o : Node → Prop) (fields : Bool) : ∀ es : List Element,
    R false o (Trail.elements fields es) (Trail.elements fields (c.elements es))
  | [] => h.nil
  | ⟨key, value⟩ :: es =>
    h.append (h.key fields (exprOption o key)) (h.append (expr o value) (elements o fields es))

theorem typeExpr (o : Node → Prop) : ∀ t : TypeExpr,
    R false o (Trail.typeExpr t) (Trail.typeExpr (c.typeExpr t))
  | .named t pkg n => h.node (n := .type (.named t pkg n)) rfl rfl h.nil
  | .pointer t x => h.node (n := .type (.pointer t x)) rfl rfl (typeExpr _ x)
  | .slice t x => h.node (n := .type (.slice t x)) rfl rfl (typeExpr _ x)
  | .chan t dir x => h.node (n := .type (.chan t dir x)) rfl rfl (typeExpr _ x)
  | .array t len x => h.node (n := .type (.array t len x)) rfl rfl
      (h.append (exprOption _ len) (typeExpr _ x))
  | .map t k v => h.node (n := .type (.map t k v)) rfl rfl (h.append (typeExpr _ k) (typeExpr _ v))
  | .func t ⟨u, params, results⟩ => h.node (n := .type (.func t ⟨u, params, results⟩)) rfl rfl
      (h.node (n := .signature ⟨u, params, results⟩) rfl rfl
        (h.append (fieldTypes _ params) (fieldTypes _ results)))
  | .struct t fs => h.node (n := .type (.struct t fs)) rfl rfl (fieldTypes _ fs)
  | .interface t fs => h.node (n := .type (.interface t fs)) rfl rfl (fieldTypes _ fs)

theorem typeOption (o : Node → Prop) : ∀ t : Option TypeExpr,
    R false o (Trail.typeOption t) (Trail.typeOption (c.typeOption t))
  | none => h.nil
  | some t => typeExpr o t

theorem typeExprs (o : Node → Prop) : ∀ ts : List TypeExpr,
    R false o (Trail.typeExprs ts) (Trail.typeExprs (c.types ts))
  | [] => h.nil
  | t :: ts => h.append (typeExpr o t) (typeExprs o ts)

theorem fieldTypes (o : Node → Prop) : ∀ fs : List Field,
    R false o (Trail.fieldTypes fs) (Trail.fieldTypes (c.fields fs))
  | [] => h.nil
  | ⟨t, ns, type, variadic, label⟩ :: fs =>
    h.append (h.node (n := .field ⟨t, ns, type, variadic, label⟩) rfl rfl (typeExpr _ type))
      (fieldTypes o fs)

theorem fields (o : Node → Prop) : ∀ fs : List Field,
    R true o (Trail.fields fs) (Trail.fields (c.fields fs))
  | [] => h.nil
  | ⟨t, ns, type, variadic, label⟩ :: fs => by
    have hroots : Roots (Below o (.field ⟨t, ns, type, variadic, label⟩)) t.id ns :=
      ⟨_, .inl rfl, rfl, fun m hm => List.mem_cons_of_mem _ (List.mem_map_of_mem hm)⟩
    exact h.append (h.node (n := .field ⟨t, ns, type, variadic, label⟩) rfl rfl
      (h.append (h.weaken (typeExpr _ type)) (h.paramNames (h.id t) type _ variadic 0 hroots)))
      (fields o fs)

theorem signature (o : Node → Prop) : ∀ s : Signature,
    R true o (Trail.signature s) (Trail.signature (c.signature s))
  | ⟨t, params, results⟩ => h.node (n := .signature ⟨t, params, results⟩) rfl rfl
      (h.append (fields _ params) (fields _ results))

theorem simple (o : Node → Prop) (note : Option Nat)
    (hnote : ∀ id, note = some id → Knows o id) : ∀ s : Simple,
    R true o (Trail.simple note s) (Trail.simple note (c.simple s))
  | .expr t e => h.node (n := .simple (.expr t e)) rfl rfl (h.weaken (expr _ e))
  | .step t e op => h.node (n := .simple (.step t e op)) rfl rfl (h.weaken (expr _ e))
  | .send t ch v => h.node (n := .simple (.send t ch v)) rfl rfl
      (h.weaken (h.append (expr _ ch) (expr _ v)))
  | .assign t l op r => h.node (n := .simple (.assign t l op r)) rfl rfl
      (h.weaken (h.append (exprs _ l) (exprs _ r)))
  | .define t ns vs => by
    have hroots : Roots (Below o (.simple (.define t ns vs))) t.id ns :=
      ⟨_, .inl rfl, rfl, fun m hm => List.mem_cons_of_mem _ (List.mem_map_of_mem hm)⟩
    have hknown (id : Nat) (hid : note = some id) : Knows (Below o (.simple (.define t ns vs))) id := by
      obtain ⟨n, hn, htag⟩ := hnote id hid
      exact ⟨n, .inr hn, htag⟩
    have hlength : (c.names ns).length = ns.length := List.length_map _
    have hnames := h.definedNames (h.id t) ns.length vs (c.exprs vs) 0 hroots hknown
    simp only [Trail.simple, Change.simple, hlength]
    exact h.node (n := .simple (.define t ns vs)) rfl rfl
      (h.append (h.weaken (exprs _ vs)) hnames)

theorem simpleOption (o : Node → Prop) : ∀ s : Option Simple,
    R true o (Trail.simpleOption s) (Trail.simpleOption (c.simpleOption s))
  | none => h.nil
  | some s => simple o none (fun _ hid => by cases hid) s

theorem stmt (o : Node → Prop) : ∀ s : Stmt, R true o (Trail.stmt s) (Trail.stmt (c.stmt s))
  | .simple t s => by
    have hs := simple (Below o (.stmt (.simple t s))) (some t.id)
      (fun id hid => ⟨_, .inl rfl, Option.some.inj hid⟩) s
    simp only [Trail.stmt, Change.stmt, h.id t]
    exact h.node (n := .stmt (.simple t s)) rfl rfl hs
  | .decl t ⟨u, kind, grouped, ss⟩ => by
    have hss := specs (Below (Below o (.stmt (.decl t ⟨u, kind, grouped, ss⟩)))
      (.decl ⟨u, kind, grouped, ss⟩)) t.id ⟨_, .inr (.inl rfl), rfl⟩ ss
    simp only [Trail.stmt, Change.stmt, Change.decl, h.id t]
    exact h.node (n := .stmt (.decl t ⟨u, kind, grouped, ss⟩)) rfl rfl
      (h.node (n := .decl ⟨u, kind, grouped, ss⟩) rfl rfl hss)
  | .labeled t n s => h.node (n := .stmt (.labeled t n s)) rfl rfl (stmt _ s)
  | .go t e => h.node (n := .stmt (.go t e)) rfl rfl (h.weaken (expr _ e))
  | .defer t e => h.node (n := .stmt (.defer t e)) rfl rfl (h.weaken (expr _ e))
  | .ret t es => h.node (n := .stmt (.ret t es)) rfl rfl (h.weaken (exprs _ es))
  | .branch t kind n => h.node (n := .stmt (.branch t kind n)) rfl rfl h.nil
  | .block t ⟨u, body⟩ => h.node (n := .stmt (.block t ⟨u, body⟩)) rfl rfl
      (h.weaken (h.owner (w := .block ⟨u, body⟩) h.nil (stmts _ body)))
  | .ifElse t init cond ⟨u, yes⟩ no => h.node (n := .stmt (.ifElse t init cond ⟨u, yes⟩ no)) rfl rfl
      (h.weaken (h.scope (h.append (simpleOption _ init) (h.append (h.weaken (expr _ cond))
        (h.append (h.weaken (h.owner (w := .block ⟨u, yes⟩) h.nil (stmts _ yes)))
          (stmtOption _ no))))))
  | .loop t head ⟨u, body⟩ => by
    have hhead := loopHead (Below o (.stmt (.loop t head ⟨u, body⟩))) t.id ⟨_, .inl rfl, rfl⟩ head
    simp only [Trail.stmt, Change.stmt, Change.block, h.id t]
    exact h.node (n := .stmt (.loop t head ⟨u, body⟩)) rfl rfl
      (h.weaken (h.scope (h.append hhead
        (h.weaken (h.owner (w := .block ⟨u, body⟩) h.nil (stmts _ body))))))
  | .switch t init subject cs => h.node (n := .stmt (.switch t init subject cs)) rfl rfl
      (h.weaken (h.scope (h.append (simpleOption _ init)
        (h.weaken (h.append (exprOption _ subject) (clauses _ cs))))))
  | .typeSwitch t init bind guard cs => by
    have hroots : Roots (Below o (.stmt (.typeSwitch t init bind guard cs))) t.id bind.toList :=
      ⟨_, .inl rfl, rfl, fun m hm => List.mem_cons_of_mem _ (List.mem_map_of_mem hm)⟩
    have hcs := typeClauses (Below o (.stmt (.typeSwitch t init bind guard cs))) hroots cs
    simp only [Trail.stmt, Change.stmt, h.id t]
    exact h.node (n := .stmt (.typeSwitch t init bind guard cs)) rfl rfl
      (h.weaken (h.scope (h.append (simpleOption _ init)
        (h.weaken (h.append (expr _ guard) hcs)))))
  | .select t cs => h.node (n := .stmt (.select t cs)) rfl rfl (h.weaken (comms _ cs))

theorem stmtOption (o : Node → Prop) : ∀ s : Option Stmt,
    R true o (Trail.stmtOption s) (Trail.stmtOption (c.stmtOption s))
  | none => h.nil
  | some s => stmt o s

theorem stmts (o : Node → Prop) : ∀ ss : List Stmt,
    R true o (Trail.stmts ss) (Trail.stmts (c.stmts ss))
  | [] => h.nil
  | s :: ss => h.append (stmt o s) (stmts o ss)

theorem rangeVar (o : Node → Prop) {home : Nat} (hhome : Knows o home) (subject subject' : Expr)
    (index : Nat) : ∀ e : Option Expr, R true o (Trail.rangeVar home subject index e)
      (Trail.rangeVar home subject' index (c.exprOption e))
  | none => h.nil
  | some e => by
    cases hc : c.onExpr e with
    | some new =>
      rw [Change.exprOption, Change.expr_of_replaced hc]
      exact h.replacedVar subject subject' index hc hhome
    | none =>
      have he := h.weaken (h.mute (expr o e))
      rw [Change.exprOption]
      match e with
      | .ident t n =>
        rw [Change.expr, hc]
        exact h.range (b := ⟨n, .localVar, .range subject index, home, t.span⟩)
          ⟨n, .localVar, .range subject' index, home, (c.onTag t).span⟩ hc ⟨rfl, hhome⟩ rfl
      | .lit .. | .funcLit .. | .composite .. | .paren .. | .selector .. | .index .. | .slice ..
      | .assert .. | .call .. | .unary .. | .binary .. | .type .. =>
        rw [Change.expr, hc] at he ⊢
        exact he

theorem loopHead (o : Node → Prop) (home : Nat) (hhome : Knows o home) : ∀ x : LoopHead,
    R true o (Trail.loopHead home x) (Trail.loopHead home (c.loopHead x))
  | .forever => h.nil
  | .cond e => h.weaken (expr o e)
  | .clause init cond post =>
    h.append (simpleOption o init) (h.append (h.weaken (exprOption o cond)) (simpleOption o post))
  | .range key value true e => h.append (h.weaken (expr o e))
      (h.append (rangeVar o hhome e (c.expr e) 0 key) (rangeVar o hhome e (c.expr e) 1 value))
  | .range key value false e =>
    h.weaken (h.append (expr o e) (h.append (exprOption o key) (exprOption o value)))

theorem clauses (o : Node → Prop) : ∀ cs : List Clause,
    R false o (Trail.clauses cs) (Trail.clauses (c.clauses cs))
  | [] => h.nil
  | ⟨t, .exprs es, body⟩ :: cs => h.append
      (h.owner (w := .clause ⟨t, .exprs es, body⟩) (h.weaken (exprs o es)) (stmts _ body))
      (clauses o cs)
  | ⟨t, .types ts, body⟩ :: cs => h.append
      (h.owner (w := .clause ⟨t, .types ts, body⟩) (h.weaken (h.mute (typeExprs o ts)))
        (stmts _ body)) (clauses o cs)
  | ⟨t, .default, body⟩ :: cs => h.append
      (h.owner (w := .clause ⟨t, .default, body⟩) h.nil (stmts _ body)) (clauses o cs)

theorem typeClauses (o : Node → Prop) {home : Nat} {bind : Option Name}
    (hroots : Roots o home bind.toList) : ∀ cs : List Clause,
    R false o (Trail.typeClauses home bind cs)
      (Trail.typeClauses home (c.nameOption bind) (c.clauses cs))
  | [] => h.nil
  | ⟨t, .types ts, body⟩ :: cs => h.append
      (h.owner (w := .clause ⟨t, .types ts, body⟩)
        (h.append (h.weaken (typeExprs o ts)) (h.bound rfl hroots)) (stmts _ body))
      (typeClauses o hroots cs)
  | ⟨t, .exprs es, body⟩ :: cs => h.append
      (h.owner (w := .clause ⟨t, .exprs es, body⟩)
        (h.append (h.weaken (h.mute (exprs o es))) (h.bound rfl hroots)) (stmts _ body))
      (typeClauses o hroots cs)
  | ⟨t, .default, body⟩ :: cs => h.append
      (h.owner (w := .clause ⟨t, .default, body⟩) (h.append h.nil (h.bound rfl hroots))
        (stmts _ body)) (typeClauses o hroots cs)

theorem comms (o : Node → Prop) : ∀ cs : List Comm,
    R false o (Trail.comms cs) (Trail.comms (c.comms cs))
  | [] => h.nil
  | ⟨t, guard, body⟩ :: cs => h.append
      (h.owner (w := .comm ⟨t, guard, body⟩) (simpleOption o guard) (stmts _ body)) (comms o cs)

theorem specs (o : Node → Prop) (home : Nat) (hhome : Knows o home) : ∀ ss : List Spec,
    R true o (Trail.specs home ss) (Trail.specs home (c.specs ss))
  | [] => h.nil
  | .values t ns type vs :: ss => by
    have hroots : Roots (Below o (.spec (.values t ns type vs))) t.id ns :=
      ⟨_, .inl rfl, rfl, fun m hm => List.mem_cons_of_mem _ (List.mem_map_of_mem hm)⟩
    have hknown : Knows (Below o (.spec (.values t ns type vs))) home := by
      obtain ⟨n, hn, hid⟩ := hhome
      exact ⟨n, .inr hn, hid⟩
    have hlength : (c.names ns).length = ns.length := List.length_map _
    have hnames := h.valueNames (h.id t) rfl ns.length type (c.typeOption type) vs (c.exprs vs) 0
      hroots hknown
    simp only [Trail.specs, Change.specs, Change.spec, hlength]
    exact h.append (h.node (n := .spec (.values t ns type vs)) rfl rfl
      (h.append (h.weaken (typeOption _ type)) (h.append (h.weaken (exprs _ vs)) hnames)))
      (specs o home hhome ss)
  | .type t n isAlias type :: ss => by
    have hknown : Knows (Below o (.spec (.type t n isAlias type))) home := by
      obtain ⟨m, hm, hid⟩ := hhome
      exact ⟨m, .inr hm, hid⟩
    have hname := h.declared (o := Below o (.spec (.type t n isAlias type)))
      (l := ⟨⟨n.text, .typeName, .typeSpec, t.id, n.tag.span⟩, some home⟩)
      ⟨⟨n.text, .typeName, .typeSpec, (c.onTag t).id, (c.onTag n.tag).span⟩, some home⟩
      ⟨⟨_, .inl rfl, rfl, n.entry, by simp [Node.own], rfl⟩, fun id hid =>
        Option.some.inj hid ▸ hknown⟩ (by rw [h.id t]; rfl)
    exact h.append (h.node (n := .spec (.type t n isAlias type)) rfl rfl
      (h.append hname.1 (h.weaken (typeExpr _ type)))) (specs o home hhome ss)
  | .imports t n path :: ss =>
    h.append (h.node (n := .spec (.imports t n path)) rfl rfl h.nil) (specs o home hhome ss)

end

theorem func (o : Node → Prop) (f : FuncDecl) :
    R false o (Trail.func f) (Trail.func (c.func f)) := by
  obtain ⟨t, recv, n, sig, body⟩ := f
  have hrecv (o : Node → Prop) :
      R true o (Trail.fields recv.toList) (Trail.fields (recv.map c.field).toList) := by
    cases recv with
    | none => exact h.nil
    | some f => exact h.fields o [f]
  cases body with
  | none =>
    exact h.node (n := .func ⟨t, recv, n, sig, none⟩) rfl rfl
      (h.scope (h.append (hrecv _) (h.signature _ sig)))
  | some b =>
    exact h.node (n := .func ⟨t, recv, n, sig, some b⟩) rfl rfl
      (h.owner (w := .block b) (h.append (hrecv _) (h.signature _ sig)) (h.stmts _ b.stmts))

theorem packageSpec (o : Node → Prop) (s : Spec) :
    R false o (Trail.packageSpec s) (Trail.packageSpec (c.spec s)) := by
  cases s with
  | imports t n path => exact h.node (n := .spec (.imports t n path)) rfl rfl h.nil
  | values t ns type vs =>
    exact h.node (n := .spec (.values t ns type vs)) rfl rfl
      (h.append (h.typeOption _ type) (h.exprs _ vs))
  | type t n isAlias type =>
    exact h.node (n := .spec (.type t n isAlias type)) rfl rfl (h.typeExpr _ type)

theorem topDecl (o : Node → Prop) (d : TopDecl) :
    R false o (Trail.topDecl d) (Trail.topDecl (c.topDecl d)) := by
  cases d with
  | decl d =>
    obtain ⟨t, kind, grouped, ss⟩ := d
    have hss (o : Node → Prop) (xs : List Spec) :
        R false o (xs.flatMap Trail.packageSpec) ((c.specs xs).flatMap Trail.packageSpec) := by
      induction xs with
      | nil => exact h.nil
      | cons x xs ih => exact h.append (h.packageSpec o x) ih
    exact h.node (n := .decl ⟨t, kind, grouped, ss⟩) rfl rfl (hss _ ss)
  | func f => exact h.func o f

theorem topDecls (o : Node → Prop) (ds : List TopDecl) :
    R false o (ds.flatMap Trail.topDecl) ((ds.map c.topDecl).flatMap Trail.topDecl) := by
  induction ds with
  | nil => exact h.nil
  | cons d ds ih => exact h.append (h.topDecl o d) ih

end Retraces

/-- A change that leaves a list of statements alone needs no care at its owner. -/
theorem owner_of_plain {c : Change} {R : Bool → (Node → Prop) → List Event → List Event → Prop}
    {w : Owner} (hstmts : ∀ ss, c.onStmts w.id ss = ss)
    (append : ∀ {o a a' b b'}, R true o a a' → R true o b b' → R true o (a ++ b) (a' ++ b'))
    (scope : ∀ {o a a'}, R true o a a' →
      R false o (.openScope :: (a ++ [Event.closeScope])) (.openScope :: (a' ++ [Event.closeScope])))
    (node : ∀ {o a a'}, R true (Below o w.node) a a' →
      R true o (.pass w.node :: a) (.pass (c.node w.node) :: a'))
    {o : Node → Prop} {front front' : List Event} (hfront : R true o front front')
    (hrun : R true (Below o w.node) (Trail.stmts w.stmts) (Trail.stmts (c.stmts w.stmts))) :
    R false o (.openScope :: (front ++ Event.pass w.node :: (Trail.stmts w.stmts ++ [Event.closeScope])))
      (.openScope :: (front' ++ Event.pass (c.owner w).node ::
        (Trail.stmts (c.owner w).stmts ++ [Event.closeScope]))) := by
  rw [node_owner, stmts_owner, hstmts]
  have hscope := scope (append hfront (node hrun))
  simpa using hscope

/-- Trails that tell the same. -/
def Same (_ : Bool) (_ : Node → Prop) (a b : List Event) : Prop :=
  b.map Event.bare = a.map Event.bare

namespace Same

variable {k : Bool} {o : Node → Prop} {a a' b b' : List Event}

theorem append (ha : Same k o a a') (hb : Same k o b b') : Same k o (a ++ b) (a' ++ b') := by
  unfold Same at *
  rw [List.map_append, List.map_append, ha, hb]

theorem scope (ha : Same true o a a') :
    Same false o (.openScope :: (a ++ [Event.closeScope])) (.openScope :: (a' ++ [Event.closeScope])) := by
  unfold Same at *
  simp [Event.bare, ha]

theorem node {c : Change} (hid : c.KeepsIds) {n : Node} (hn : c.replacement? n = none)
    (ha : Same k (Below o n) a a') : Same k o (.pass n :: a) (.pass (c.node n) :: a') := by
  unfold Same at *
  simp [Event.bare, head_node hid hn, ha]

theorem mute (ha : Same k o a a') : Same false o (FuncLift.mute a) (FuncLift.mute a') := by
  unfold Same at *
  rw [mute_bare, mute_bare, ha]

theorem refer {c : Change} (hid : c.KeepsIds) (t : Tag) (name : String) :
    Same k o [.refer t name] [.refer (c.onTag t) name] := by
  simp [Same, Event.bare, bare_onTag hid]

theorem range {c : Change} (hid : c.KeepsIds) (t : Tag) {b b' : Binding} (hb : b'.bare = b.bare) :
    Same k o [.range t b] [.range (c.onTag t) b'] := by
  simp [Same, Event.bare, bare_onTag hid, hb]

end Same

/-- Other tags with the same numbers change no trail. -/
theorem retraces_tags {f : Tag → Tag} (hf : (tags f).KeepsIds) : (tags f).Retraces Same where
  id := hf
  nil := rfl
  append := Same.append
  weaken ha := ha
  mute := Same.mute
  node hn _ := Same.node hf hn
  scope := Same.scope
  owner := owner_of_plain (R := Same) (fun _ => rfl) Same.append Same.scope
    (Same.node hf (ownerless_replacement _ _))
  refer _ := Same.refer hf _ _
  declared l' _ hl := by simp [Same, Event.bare, hl]
  range b' _ _ hb := Same.range hf _ hb
  replaced he := by cases he
  replacedKey _ he := by cases he
  replacedVar _ _ _ he := by cases he

end Change

end FuncLift
