import FuncLift.Proofs.Reroute

/-!
# The trails of the call and of the new function

The arguments of the call are looked up where the region stood, and the names of the outputs are
defined there. The new function opens a scope, declares its parameters in it and walks along the
region in that same scope; the values that it returns are looked up behind the region.
-/
namespace FuncLift

/-- The arguments of the call that stands in the place of a region. -/
def Replacement.arguments : Replacement → List Expr
  | .expr (.call _ _ args _) | .stmt (.simple _ (.expr _ (.call _ _ args _)))
  | .stmt (.simple _ (.define _ _ [.call _ _ args _])) => args
  | _ => []

/-- The values that the last statement of a function returns. -/
def FuncDecl.returned (f : FuncDecl) : List Expr :=
  match (f.body.elim [] Block.stmts).getLast? with
  | some (.ret _ es) => es
  | _ => []

def FuncDecl.Takes (f : FuncDecl) (b : Binding) : Prop :=
  ∃ x ∈ f.sig.params, ∃ i n, x.names[i]? = some n ∧
    b = Resolve.localVar n (.param x.type x.variadic i) x.tag.id

/-- A binding is one of the names that the statement in the place of a run defines. -/
def Replacement.Defines (r : Replacement) (b : Binding) : Prop :=
  ∃ t u ns values i n, r = .stmt (.simple t (.define u ns values)) ∧ ns[i]? = some n ∧
    b = Resolve.localVar n (.define ns.length values i) u.id

theorem only_append_ne {name : String} {a f : List Local} (h : only name f ≠ []) :
    only name (a ++ f) ≠ [] := by
  rw [only, List.filter_append, ne_eq, List.append_eq_nil_iff]
  exact fun hnil => h hnil.2

namespace Trail

theorem walk_expr (e : Expr) (env : Env) : walk (expr e) env = env :=
  (Fair.expr (fun _ => False) e).1.walk_eq

theorem walk_exprs (es : List Expr) (env : Env) : walk (exprs es) env = env :=
  (Fair.retraces.exprs (fun _ => False) es).1.walk_eq

theorem walk_typeExpr (t : TypeExpr) (env : Env) : walk (typeExpr t) env = env :=
  (Fair.retraces.typeExpr (fun _ => False) t).1.walk_eq

theorem exprs_append (es fs : List Expr) : exprs (es ++ fs) = exprs es ++ exprs fs := by
  induction es with
  | nil => rfl
  | cons e es ih => simp [exprs, ih]

theorem walk_definedNames (note : Option Nat) (home names : Nat) (values : List Expr) (index : Nat)
    (ns : List Name) (f : List Local) (fs : Env) :
    ∃ a, walk (definedNames note home names values index ns) (f :: fs) = (a ++ f) :: fs ∧
      (∀ l ∈ a, ∃ i n, ns[i]? = some n ∧
        l.binding = Resolve.localVar n (.define names values (index + i)) home) ∧
      ∀ n ∈ ns, n.text ≠ "_" → only n.text (a ++ f) ≠ [] := by
  induction ns generalizing index f with
  | nil => exact ⟨[], rfl, by simp, by simp⟩
  | cons n ns ih =>
    obtain ⟨b, hb, hmem, hself⟩ := Event.exists_enter (e := .define
      ⟨Resolve.localVar n (.define names values index) home, note⟩) rfl f
    obtain ⟨a, ha, hl, hnames⟩ := ih (index + 1) (b ++ f)
    refine ⟨a ++ b, ?_, fun l hlab => ?_, fun m hm hname => ?_⟩
    · rw [definedNames, walk_cons, Event.walk_enter rfl, hb, ha, List.append_assoc]
    · rcases List.mem_append.1 hlab with hla | hlb
      · obtain ⟨i, m, hm, hbinding⟩ := hl l hla
        exact ⟨i + 1, m, hm, by rw [hbinding, Nat.add_right_comm, Nat.add_assoc]⟩
      · exact ⟨0, n, rfl, congrArg Local.binding (hmem l hlb)⟩
    · rw [List.append_assoc]
      rcases List.mem_cons.1 hm with rfl | hm
      · exact only_append_ne (hself hname)
      · exact hnames m hm hname

theorem walk_fields {fs : List Field} {ns : List String}
    (hfs : fs.map (fun x => x.names.map Name.text) = ns.map fun n => [n]) (f : List Local)
    (env : Env) : ∃ a, walk (fields fs) (f :: env) = (a ++ f) :: env ∧
      (∀ l ∈ a, ∃ x ∈ fs, ∃ n, x.names = [n] ∧
        l.binding = Resolve.localVar n (.param x.type x.variadic 0) x.tag.id) ∧
      ∀ n ∈ ns, n ≠ "_" → only n (a ++ f) ≠ [] := by
  induction fs generalizing ns f with
  | nil =>
    obtain rfl : ns = [] := by simpa using hfs.symm
    exact ⟨[], rfl, by simp, by simp⟩
  | cons x fs ih =>
    cases ns with
    | nil => cases hfs
    | cons n ns =>
      obtain ⟨hx, hrest⟩ := List.cons.inj hfs
      obtain ⟨t, names, type, variadic, label⟩ := x
      obtain ⟨m, rfl, rfl⟩ : ∃ m, names = [m] ∧ m.text = n := by
        match names, hx with
        | [m], hx => exact ⟨m, rfl, by simpa using hx⟩
      obtain ⟨b, hb, hmem, hself⟩ := Event.exists_enter (e := .declare
        ⟨Resolve.localVar m (.param type variadic 0) t.id, none⟩) rfl f
      obtain ⟨a, ha, hl, hnames⟩ := ih hrest (b ++ f)
      refine ⟨a ++ b, ?_, fun l hlab => ?_, fun k hk hname => ?_⟩
      · rw [fields, List.cons_append, walk_cons, List.append_assoc, walk_append, Event.walk,
          walk_typeExpr, paramNames, paramNames, List.singleton_append, walk_cons,
          Event.walk_enter rfl, hb, ha, List.append_assoc]
      · rcases List.mem_append.1 hlab with hla | hlb
        · obtain ⟨x, hx, hlx⟩ := hl l hla
          exact ⟨x, List.mem_cons_of_mem _ hx, hlx⟩
        · exact ⟨_, List.mem_cons_self, m, rfl, congrArg Local.binding (hmem l hlb)⟩
      · rw [List.append_assoc]
        rcases List.mem_cons.1 hk with rfl | hk
        · exact only_append_ne (hself hname)
        · exact hnames k hk hname

theorem walk_fields_nil {fs : List Field} (hfs : ∀ x ∈ fs, x.names = []) (env : Env) :
    walk (fields fs) env = env := by
  induction fs with
  | nil => rfl
  | cons x fs ih =>
    obtain ⟨t, names, type, variadic, label⟩ := x
    obtain rfl : names = [] := hfs _ List.mem_cons_self
    rw [fields, List.cons_append, walk_cons, List.append_assoc, walk_append, Event.walk,
      walk_typeExpr, paramNames, List.nil_append]
    exact ih fun x hx => hfs x (List.mem_cons_of_mem _ hx)

end Trail

/-- A trail is part of a longer one, with the same scopes around it as around that one. -/
def Comes (es fs : List Event) : Prop := ∃ q r, fs = q ++ (es ++ r) ∧ ∀ env, walk q env = env

namespace Comes

variable {es fs : List Event}

theorem left (h : Comes es fs) (gs : List Event) : Comes es (fs ++ gs) := by
  obtain ⟨q, r, rfl, hq⟩ := h
  exact ⟨q, r ++ gs, by simp, hq⟩

theorem right (h : Comes es fs) {gs : List Event} (hgs : ∀ env, walk gs env = env) :
    Comes es (gs ++ fs) := by
  obtain ⟨q, r, rfl, hq⟩ := h
  exact ⟨gs ++ q, r, by simp, fun env => by rw [walk_append, hgs, hq]⟩

theorem pass (h : Comes es fs) {n : Node} : Comes es (.pass n :: fs) :=
  @right _ _ h [.pass n] fun _ => rfl

theorem of_mem {xs : List Expr} {e : Expr} (h : e ∈ xs) : Comes (Trail.expr e) (Trail.exprs xs) := by
  obtain ⟨l, r, rfl⟩ := List.append_of_mem h
  exact ⟨Trail.exprs l, Trail.exprs r, by rw [Trail.exprs_append]; rfl, Trail.walk_exprs l⟩

end Comes

theorem Plan.IsExprBody.comes {e : Expr} {body : List Stmt} (h : IsExprBody e body) :
    Comes (Trail.expr e) (Trail.stmts body) := by
  have hself : Comes (Trail.expr e) (Trail.expr e) := ⟨[], [], by simp, fun _ => rfl⟩
  rcases h with ⟨t, u, rfl⟩ | ⟨t, rfl⟩
  · exact hself.pass.pass.left _
  · exact (hself.left _).pass.left _

namespace Plan

variable {p : Plan}

/-- A scope holds the parameters of the planned function and nothing else. -/
structure Parameters (p : Plan) (f : FuncDecl) (a : List Local) : Prop where
  takes : ∀ l ∈ a, f.Takes l.binding
  here : ∀ n, n ≠ "_" → (only n a ≠ [] ↔ n ∈ p.params.map Capture.name)

/-- The new function opens a scope with its parameters, and its body is walked along in there. -/
theorem IsFunction.trail_eq {body : List Stmt} {f : FuncDecl} (h : p.IsFunction body f) :
    ∃ front, Trail.func f = front ++ (Trail.stmts body ++ [Event.closeScope]) ∧
      ∀ env, ∃ a, walk front env = a :: env ∧ p.Parameters f a := by
  obtain ⟨t, hbody, _⟩ := h.body
  obtain ⟨ft, recv, name, ⟨st, params, results⟩, fbody⟩ := f
  obtain rfl : recv = none := h.recv
  obtain rfl : fbody = some ⟨t, body⟩ := hbody
  have htrail : Trail.func ⟨ft, none, name, ⟨st, params, results⟩, some ⟨t, body⟩⟩ =
      (Event.pass (.func ⟨ft, none, name, ⟨st, params, results⟩, some ⟨t, body⟩⟩) :: Event.openScope ::
        Event.pass (.signature ⟨st, params, results⟩) :: (Trail.fields params ++
          (Trail.fields results ++ [Event.pass (.block ⟨t, body⟩)]))) ++
        (Trail.stmts body ++ [Event.closeScope]) := by
    simp [Trail.func, Trail.fields, Trail.signature]
  refine ⟨_, htrail, fun env => ?_⟩
  have hparams : params.map (fun x => x.names.map Name.text) =
      (p.params.map Capture.name).map fun n => [n] := by
    simpa [Function.comp_def] using h.params
  obtain ⟨a, ha, htakes, hnames⟩ := Trail.walk_fields hparams [] env
  rw [List.append_nil] at ha hnames
  refine ⟨a, ?_, fun l hl => ?_, fun n hn => ⟨fun hne => ?_, fun hmem => hnames n hmem hn⟩⟩
  · rw [walk_cons, walk_cons, walk_cons, Event.walk, Event.walk, Event.walk, walk_append, ha,
      walk_append, Trail.walk_fields_nil h.results]
    rfl
  · obtain ⟨x, hx, n, hn, hl⟩ := htakes l hl
    exact ⟨x, hx, 0, n, by rw [hn]; rfl, hl⟩
  · obtain ⟨l, hl⟩ := List.exists_mem_of_ne_nil _ hne
    obtain ⟨hla, hname⟩ := mem_only.1 hl
    obtain ⟨x, hx, m, hm, hbinding⟩ := htakes l hla
    have htext : m.text = n := by rw [← hname, Local.name, hbinding]; rfl
    have hfield : [n] ∈ p.params.map fun c => [c.name] := by
      rw [← h.params, ← htext]
      exact List.mem_map.2 ⟨x, hx, by rw [hm]; rfl⟩
    simpa using hfield

/-- Where the region is on the trail of the new function, with the parameters around it, and behind it
the values that are returned. -/
structure Rewalks (p : Plan) (f : FuncDecl) (front back : List Event) : Prop where
  trail : Trail.func f = front ++ (p.region.trail ++ back)
  params : ∀ env, ∃ a, walk front env = a :: env ∧ p.Parameters f a
  returned : ∀ stmts owner, p.region = .statements stmts owner → p.outputs ≠ [] →
    f.returned.map Expr.identName? = p.outputNames.map some ∧
      ∀ e ∈ f.returned, Comes (Trail.expr e) back

theorem edit_rewalks (p : Plan) (d : Document) :
    ∃ front back, p.Rewalks (p.edit d).function front back := by
  obtain ⟨⟨c, body, hsurgery, _, hfunction⟩, _, _⟩ := (p.edit_spec d).1
  obtain ⟨front, htrail, hparams⟩ := hfunction.trail_eq
  obtain ⟨t, hbody, _⟩ := hfunction.body
  have hmake {q r : List Event} (hsplit : Trail.stmts body = q ++ (p.region.trail ++ r))
      (hq : ∀ env, walk q env = env) (hreturned : ∀ stmts owner,
        p.region = .statements stmts owner → p.outputs ≠ [] →
          (p.edit d).function.returned.map Expr.identName? = p.outputNames.map some ∧
            ∀ e ∈ (p.edit d).function.returned, Comes (Trail.expr e) r) :
      ∃ front back, p.Rewalks (p.edit d).function front back := by
    refine ⟨front ++ q, r ++ [Event.closeScope], by rw [htrail, hsplit]; simp, fun env => ?_,
      fun stmts owner hr hout => ?_⟩
    · obtain ⟨a, ha, hp⟩ := hparams env
      exact ⟨a, by rw [walk_append, ha, hq], hp⟩
    · obtain ⟨hnames, hcomes⟩ := hreturned stmts owner hr hout
      exact ⟨hnames, fun e he => (hcomes e he).left _⟩
  unfold IsSurgery at hsurgery
  cases hr : p.region with
  | expression e parent slot =>
    rw [hr] at hsurgery hmake
    obtain ⟨call, _, _, _, hbody⟩ := hsurgery
    obtain ⟨q, r, hsplit, hq⟩ := hbody.comes
    exact hmake hsplit hq fun _ _ h => by cases h
  | statements stmts owner =>
    rw [hr] at hsurgery hmake
    obtain ⟨call, st, _, _, _, _, hstmts⟩ := hsurgery
    rcases hstmts with ⟨hout, rfl⟩ | ⟨hout, u, es, rfl, hes⟩
    · refine hmake (q := []) (r := []) ?_ (fun _ => rfl) fun _ _ _ hne => absurd hout hne
      exact (List.append_nil _).symm
    · have hlast : (p.edit d).function.returned = es := by
        simp [FuncDecl.returned, hbody]
      refine hmake (q := []) (Spot.stmts_append ..) (fun _ => rfl) fun _ _ _ _ => ?_
      rw [hlast]
      refine ⟨hes, fun e he => ?_⟩
      rw [Trail.stmts, Trail.stmt]
      exact (Comes.of_mem he).pass.left _

theorem IsCall.arguments {call : Expr} (h : p.IsCall call) :
    (Replacement.expr call).arguments.map Expr.identName? = p.params.map (fun c => some c.name) ∧
      ∀ e ∈ (Replacement.expr call).arguments, Comes (Trail.expr e) (Trail.expr call) := by
  obtain ⟨t, u, args, rfl, hargs⟩ := h
  refine ⟨hargs, fun e he => ?_⟩
  rw [Trail.expr]
  exact ((Comes.of_mem he).right (Trail.walk_expr _)).pass

theorem IsSpot.arguments {r : Replacement} {s : Spot} (h : p.IsSpot r s) :
    r.arguments.map Expr.identName? = p.params.map (fun c => some c.name) ∧
      ∀ e ∈ r.arguments, Comes (Trail.expr e) s.new := by
  unfold IsSpot at h
  split at h
  · obtain ⟨call, rfl, hcall, rfl⟩ := h
    exact hcall.arguments
  · obtain ⟨call, st, _, _, rfl, hcall, hst, _, rfl⟩ := h
    obtain ⟨hnames, hcomes⟩ := hcall.arguments
    obtain ⟨t, u, args, rfl, _⟩ := hcall
    rcases hst with ⟨_, v, w, rfl⟩ | ⟨_, v, w, ns, rfl, _⟩
    · exact ⟨hnames, fun e he => ((hcomes e he).pass).pass⟩
    · refine ⟨hnames, fun e he => (Comes.left ?_ _).pass.pass⟩
      exact (hcomes e he).left _

/-- What stands in the place of a region adds at most the outputs to the scope around it. -/
theorem IsSpot.walk_new {r : Replacement} {s : Spot} (h : p.IsSpot r s) (f : List Local)
    (fs : Env) : ∃ a, walk s.new (f :: fs) = (a ++ f) :: fs ∧
      (∀ l ∈ a, r.Defines l.binding ∧ l.name ∈ p.outputNames) ∧
      ∀ stmts owner, p.region = .statements stmts owner →
        ∀ o ∈ p.outputNames, o ≠ "_" → only o (a ++ f) ≠ [] := by
  unfold IsSpot at h
  split at h
  · rename_i hr
    obtain ⟨call, _, _, rfl⟩ := h
    exact ⟨[], Trail.walk_expr _ _, by simp, fun _ _ h => by rw [hr] at h; cases h⟩
  · obtain ⟨call, st, _, _, rfl, _, hst, _, rfl⟩ := h
    rcases hst with ⟨hout, v, w, rfl⟩ | ⟨_, v, w, ns, rfl, hns⟩
    · exact ⟨[], Trail.walk_expr _ _, by simp, fun _ _ _ o ho => by simp [outputNames, hout] at ho⟩
    · obtain ⟨a, ha, hdefined, hnames⟩ :=
        Trail.walk_definedNames (some v.id) w.id ns.length [call] 0 ns f fs
      refine ⟨a, ?_, fun l hl => ?_, fun _ _ _ o ho hname => ?_⟩
      · change walk (Trail.exprs [call] ++
          Trail.definedNames (some v.id) w.id ns.length [call] 0 ns) (f :: fs) = _
        rw [walk_append, Trail.walk_exprs, ha]
      · obtain ⟨i, n, hn, hbinding⟩ := hdefined l hl
        rw [Nat.zero_add] at hbinding
        refine ⟨⟨v, w, ns, [call], i, n, rfl, hn, hbinding⟩, ?_⟩
        rw [← hns, Local.name, hbinding]
        exact List.mem_map_of_mem (List.mem_of_getElem? hn)
      · rw [← hns] at ho
        obtain ⟨n, hn, rfl⟩ := List.mem_map.1 ho
        exact hnames n hn hname

end Plan

end FuncLift
