import FuncLift.Proofs.Captured
import FuncLift.Proofs.Checked
import FuncLift.Proofs.Package

/-!
# The name of the new function

A name is free for a new function if the package does not have it. Nothing else is asked of it, so
that a declaration inside of a function may keep the call from the new function, and identifiers that
were bound to nothing become bound to it. No other identifier does, unless the lift cuts it off from
its declaration.
-/
namespace FuncLift

open Outline

namespace Document.Lifts

variable {d next : Document} {sel : Selection} {name : String} {done : Lifted}

theorem name_free (h : d.Lifts sel name next done) : done.plan.name = name ∧ name ≠ "_" ∧
    d.scopes.packageBinding? name = none := by
  have hplan := h.plan
  rw [(region_plan hplan).2]
  unfold Document.plan at hplan
  split at hplan
  · cases hplan
  · rename_i hvalid
    dsimp only at hplan
    split at hplan
    · cases hplan
    · rename_i htaken
      refine ⟨rfl, ?_, by simpa [typing] using htaken⟩
      rintro rfl
      exact hvalid rfl

theorem settled_head (h : d.Lifts sel name next done) :
    ((done.plan.edit d).settledFunction d).name.text = name ∧
      ((done.plan.edit d).settledFunction d).recv = none := by
  obtain ⟨⟨c, body, _, _, hfunction⟩, _, _⟩ := (done.plan.edit_spec d).1
  refine ⟨hfunction.name.trans h.name_free.1, ?_⟩
  simp [Edit.settledFunction, Change.func, hfunction.recv]

theorem package_function (h : d.Lifts sel name next done) : ∃ k,
    next.scopes.packageBinding? name = some k ∧
      next.scopes.binding? k = some ((done.plan.edit d).settledFunction d).binding := by
  obtain ⟨_, hblank, _⟩ := h.name_free
  obtain ⟨htext, hrecv⟩ := h.settled_head
  obtain ⟨hnext, _⟩ := h.layout
  obtain ⟨_, _, hlast⟩ := (done.plan.edit d).settled_ends d
  rw [← hnext] at hlast
  rw [← htext]
  exact package_last hlast hrecv (htext ▸ hblank)

end Document.Lifts


/-- The callee of the call that stands in the place of a region. -/
def Replacement.callee? : Replacement → Option Expr
  | .expr (.call _ c _ _) | .stmt (.simple _ (.expr _ (.call _ c _ _)))
  | .stmt (.simple _ (.define _ _ [.call _ c _ _])) => some c
  | _ => none

def Event.meets (i : Nat) (e : Event) : Bool := e.node?.any fun n => n.tag.id == i

/-- The scopes that are open where the walk along a file meets a node. -/
def SourceFile.openAt (f : SourceFile) (i : Nat) : Env :=
  walk (f.trail.takeWhile fun e => !e.meets i) []

def Region.first (r : Region) : Nat := r.rootIds.headD 0

/-- An identifier and the declaration that it was bound to are on different sides of the edge of the
region, and neither a parameter nor an output has the name. Or the region is the variable of a range
clause that is declared. -/
def Plan.CutsOff (p : Plan) (u : Nat) (b : Binding) : Prop :=
  (u ∈ p.region.ids ∧ b.home ∉ p.region.ids ∧ b.name ∉ p.params.map Capture.name) ∨
    (u ∉ p.region.ids ∧ b.home ∈ p.region.ids ∧ b.name ∉ p.outputNames) ∨
    ∃ t parent slot, p.region = .expression (.ident t b.name) parent slot ∧ b.span = t.span

/-- An identifier that the name of the new function may take: it was bound to nothing, or to a
declaration of that name that the lift cuts it off from. -/
def Plan.Adopts (p : Plan) (d : Document) (name : String) (u : Nat) : Prop :=
  d.scopes.bindingOf? u = none ∨ ∃ i b, d.scopes.bindingOf? u = some i ∧
    d.scopes.binding? i = some b ∧ b.name = name ∧ p.CutsOff u b

/-- The callee of the call is an identifier with the name of the function, looked up in the scopes
around the call. -/
theorem Plan.IsSpot.callee {p : Plan} {r : Replacement} {s : Spot}
    (h : p.IsSpot r s) : ∃ c, r.callee? = some (.ident c p.name) ∧ Comes [.refer c p.name] s.new := by
  have hcall {call : Expr} (hcall : p.IsCall call) :
      ∃ t c args, call = .call t (.ident c p.name) args false ∧
        Comes [.refer c p.name] (Trail.expr call) := by
    obtain ⟨t, c, args, rfl, _⟩ := hcall
    refine ⟨t, c, args, rfl, Comes.pass ?_⟩
    exact ⟨[], Trail.exprs args, rfl, fun _ => rfl⟩
  unfold Plan.IsSpot at h
  split at h
  · obtain ⟨call, rfl, hc, rfl⟩ := h
    obtain ⟨t, c, args, rfl, hcomes⟩ := hcall hc
    exact ⟨c, rfl, hcomes⟩
  · obtain ⟨call, st, _, _, rfl, hc, hst, _, rfl⟩ := h
    obtain ⟨t, c, args, rfl, hcomes⟩ := hcall hc
    rcases hst with ⟨_, v, w, rfl⟩ | ⟨_, v, w, ns, rfl, _⟩
    · exact ⟨c, rfl, hcomes.pass.pass⟩
    · exact ⟨c, rfl, ((hcomes.left _).left _).pass.pass⟩

theorem Node.ident_of_head {m : Node} {t : Tag} {n : String}
    (h : m.head = (Node.expr (.ident t n)).head) : ∃ u, m = .expr (.ident u n) ∧ u.id = t.id := by
  cases m with
  | expr e =>
    cases e with
    | ident u k =>
      obtain ⟨hu, rfl⟩ := Expr.ident.inj (Node.expr.inj h)
      have hid : u.bare.id = t.bare.id := by rw [hu]
      exact ⟨u, rfl, hid⟩
    | _ => cases h
  | _ => cases h

theorem range_not_mem_mute {t : Tag} {b : Binding} {es : List Event} : .range t b ∉ mute es := by
  intro h
  obtain ⟨_, _, hpass⟩ := List.mem_map.1 h
  cases hpass

theorem Trail.head_expr (e : Expr) :
    ∃ ev rest, Trail.expr e = ev :: rest ∧ ev.node? = some (.expr e) := by
  cases e with
  | funcLit t sig b => cases b; exact ⟨_, _, rfl, rfl⟩
  | _ => exact ⟨_, _, rfl, rfl⟩

theorem Trail.head_stmt (s : Stmt) :
    ∃ ev rest, Trail.stmt s = ev :: rest ∧ ev.node? = some (.stmt s) := by
  cases s with
  | decl t d => cases d; exact ⟨_, _, rfl, rfl⟩
  | block t b => cases b; exact ⟨_, _, rfl, rfl⟩
  | ifElse t init cond b no => cases b; exact ⟨_, _, rfl, rfl⟩
  | loop t head b => cases b; exact ⟨_, _, rfl, rfl⟩
  | _ => exact ⟨_, _, rfl, rfl⟩

theorem Region.Located.head_trail {f : SourceFile} {target : Span} {r : Region}
    (h : r.Located f target) :
    ∃ ev rest n, r.trail = ev :: rest ∧ ev.node? = some n ∧ n.tag.id = r.first := by
  cases r with
  | expression e parent slot =>
    obtain ⟨ev, rest, htrail, hn⟩ := Trail.head_expr e
    exact ⟨ev, rest, _, htrail, hn, by cases e <;> rfl⟩
  | statements stmts owner =>
    obtain ⟨_, _, ⟨s, hs, _⟩, _⟩ := h
    obtain ⟨ss, rfl⟩ := List.head?_eq_some_iff.1 hs
    obtain ⟨ev, rest, htrail, hn⟩ := Trail.head_stmt s
    refine ⟨ev, rest ++ Trail.stmts ss, _, ?_, hn, by cases s <;> rfl⟩
    rw [Region.trail, Trail.stmts, htrail]
    rfl

namespace Reroutes

variable {d next : Document} {p : Plan} {s : Spot} {pre x y post : List Event} {l : Local}
  {name : String}

theorem expression_of_node (h : Reroutes d next p s pre x y post)
    (hs : Owner.ofNode? s.node = none) : ∃ e parent slot call, p.region = .expression e parent slot ∧
      s = .ofExpr e call := by
  have hspot := h.spot
  rw [Plan.IsSpot] at hspot
  cases hr : p.region with
  | expression e parent slot =>
    rw [hr] at hspot
    obtain ⟨call, _, _, rfl⟩ := hspot
    exact ⟨e, parent, slot, call, rfl, rfl⟩
  | statements stmts owner =>
    rw [hr] at hspot
    obtain ⟨_, _, _, _, _, _, _, _, rfl⟩ := hspot
    cases owner <;> cases hs

theorem turns_cases (h : Reroutes d next p s pre x y post) :
    Plainly p s x y post ∨
    (x = mute p.region.trail ∧ y = mute s.new) ∨
    (x = mute p.region.trail ∧ y = s.new ∧ ∀ env, walk y env = env) ∨
    ∃ t b parent slot, p.region = .expression (.ident t b.name) parent slot ∧ b.span = t.span ∧
      x = [.range t b] ∧ y = mute s.new := by
  have hold := h.spot.old
  cases h.turns with
  | plain rest => exact .inl ⟨hold, rfl, rest, rfl⟩
  | muted => exact .inr (.inl ⟨by rw [hold], rfl⟩)
  | shown _ hs =>
    obtain ⟨e, parent, slot, call, _, rfl⟩ := h.expression_of_node hs
    exact .inr (.inr (.inl ⟨by rw [hold], rfl, Trail.walk_expr call⟩))
  | range t b _ hs _ hb =>
    obtain ⟨e, parent, slot, call, hr, rfl⟩ := h.expression_of_node (by rw [hs]; rfl)
    obtain rfl : e = .ident t b.name := Node.expr.inj hs
    exact .inr (.inr (.inr ⟨t, b, parent, slot, hr, hb, rfl, rfl⟩))

theorem walk_mute (es : List Event) (env : Env) : walk (mute es) env = env := by
  unfold mute
  induction met es with
  | nil => rfl
  | cons n ns ih => exact ih

theorem home_local (h : Reroutes d next p s pre x y post) (hl : l ∈ locals x) :
    l.binding.home ∈ p.region.ids ∨ ∃ t parent slot,
      p.region = .expression (.ident t l.name) parent slot ∧ l.binding.span = t.span := by
  rcases h.turns_cases with hplain | ⟨rfl, _⟩ | ⟨rfl, _⟩ | ⟨t, b, parent, slot, hr, hb, rfl, _⟩
  · rw [hplain.old] at hl
    obtain ⟨⟨n, hn, hhome⟩, _⟩ := p.region.fair.2.home hl
    exact .inl (hhome ▸ Region.mem_ids_of_met hn)
  · rw [locals_mute] at hl
    cases hl
  · rw [locals_mute] at hl
    cases hl
  · obtain rfl : l = ⟨b, none⟩ := by simpa [locals, Event.local?] using hl
    exact .inr ⟨t, parent, slot, hr, hb⟩

theorem open_of_range (h : Reroutes d next p s pre x y post) {t : Tag} {b : Binding}
    (hx : x = [.range t b]) : ∃ f fs, walk pre [] = f :: fs := by
  cases hwalk : walk pre [] with
  | cons f fs => exact ⟨f, fs, rfl⟩
  | nil =>
    have htrail : Level false d.file.trail := (Fair.trail d.file).1
    rw [h.before, List.append_assoc] at htrail
    obtain ⟨n, hn, hrest⟩ := Option.bind_eq_some_iff.1 ((height_append ..).symm.trans htrail)
    obtain rfl : n = 0 := by rw [← length_walk hn, hwalk]; rfl
    rw [hx] at hrest
    cases hrest

/-- The scopes behind the region and behind what takes its place: they are those before it, or there
is an open scope to which both add something. -/
theorem scopes_behind (h : Reroutes d next p s pre x y post)
    (hout : ∀ e parent slot, p.region = .expression e parent slot → p.outputNames = []) :
    (walk x (walk pre []) = walk pre [] ∧ walk y (walk pre []) = walk pre []) ∨
    ∃ f fs a a', walk pre [] = f :: fs ∧ walk x (walk pre []) = (a ++ f) :: fs ∧
      walk y (walk pre []) = (a' ++ f) :: fs ∧ (∀ l ∈ a, l ∈ locals x) ∧
      (∀ l ∈ a', l.name ∈ p.outputNames) ∧
      ∀ o ∈ p.outputNames, o ≠ "_" → only o (a' ++ f) ≠ [] := by
  rcases h.turns_cases with hplain | ⟨rfl, rfl⟩ | ⟨rfl, _, hy⟩ | ⟨t, b, parent, slot, hr, _, hx, rfl⟩
  · cases hr : p.region with
    | expression e parent slot =>
      refine .inl ⟨by rw [hplain.old, hr]; exact Trail.walk_expr e _, ?_⟩
      have hspot := h.spot
      rw [Plan.IsSpot, hr] at hspot
      obtain ⟨call, _, _, rfl⟩ := hspot
      rw [hplain.new]
      exact Trail.walk_expr call _
    | statements stmts owner =>
      obtain ⟨⟨f, fs, hopen⟩, _⟩ := h.run_open hplain hr
      obtain ⟨a, ha, hlocals⟩ := Level.walk_cons h.level f fs
      obtain ⟨a', ha', hnames, houtputs⟩ := h.spot.walk_new f fs
      refine .inr ⟨f, fs, a, a', hopen, by rw [hopen, ha], by rw [hopen, hplain.new, ha'], hlocals,
        fun l hl => (hnames l hl).2, houtputs stmts owner hr⟩
  · exact .inl ⟨walk_mute _ _, walk_mute _ _⟩
  · exact .inl ⟨walk_mute _ _, hy _⟩
  · obtain ⟨f, fs, hopen⟩ := h.open_of_range hx
    obtain ⟨a, ha, hlocals⟩ := Level.walk_cons h.level f fs
    refine .inr ⟨f, fs, a, [], hopen, by rw [hopen, ha], by rw [hopen]; exact walk_mute _ _, hlocals,
      by simp, ?_⟩
    simp [hout _ _ _ hr]

theorem walk_host (h : Reroutes d next p s pre x y post) : walk (pre ++ y ++ post) [] = [] := by
  have htrail : Level false next.file.trail := (Fair.trail next.file).1
  have hfunc : Level false (Trail.func (p.edit d).function) := by
    have hfair := (Fair.retraces.topDecls (fun _ => False) [.func (p.edit d).function]).1
    simpa [Trail.topDecl] using hfair
  unfold Level at htrail
  rw [← height_bare, h.after, height_bare, height_append] at htrail
  obtain ⟨n, hn, hrest⟩ := Option.bind_eq_some_iff.1 htrail
  have hlift : height false (0 + n) _ = some (0 + n) := height_lift (.inl rfl) hfunc
  rw [Nat.zero_add, hrest] at hlift
  obtain rfl : 0 = n := Option.some.inj hlift
  exact List.eq_nil_of_length_eq_zero (length_walk hn)

theorem moved (h : Reroutes d next p s pre x y post) (hplain : Plainly p s x y post)
    {q c : List Event} {e : Event} (hx : x = q ++ e :: c) : ∃ es rest a,
      next.file.trail.map Event.bare = (es ++ e :: rest).map Event.bare ∧
      walk es [] = walk q [a] ∧ p.Parameters (p.edit d).function a := by
  obtain ⟨front, back, hrewalks⟩ := p.edit_rewalks d
  obtain ⟨a, ha, hparams⟩ := hrewalks.params (walk (pre ++ y ++ post) [])
  have hafter := h.after
  rw [hrewalks.trail, ← hplain.old] at hafter
  have hsplit : pre ++ y ++ post ++ (front ++ (x ++ back)) =
      (pre ++ y ++ post ++ front ++ q) ++ e :: (c ++ back) := by simp [hx]
  rw [hsplit] at hafter
  refine ⟨_, _, a, hafter, ?_, hparams⟩
  rw [walk_append, walk_append _ front, ha, h.walk_host]

/-- Walks behind the region and behind what takes its place: what the first finds and the second does
not is a declaration of the region, and no output has its name. -/
theorem cut_behind (h : Reroutes d next p s pre x y post)
    (hout : ∀ e parent slot, p.region = .expression e parent slot → p.outputNames = [])
    (hname : name ≠ "_") {q : List Event} (hl : (walk (pre ++ x ++ q) []).find? name = some l)
    (hnone : (walk (pre ++ y ++ q) []).find? name = none) :
    l ∈ locals x ∧ name ∉ p.outputNames := by
  rw [walk_append, walk_append] at hl hnone
  rcases h.scopes_behind hout with ⟨hx, hy⟩ | ⟨f, fs, a, a', _, hx, hy, ha, _, houtputs⟩
  · rw [hx] at hl
    rw [hy, hl] at hnone
    cases hnone
  · rw [hx] at hl
    rw [hy] at hnone
    cases hheight : height true 0 q with
    | none =>
      rw [walk_closed hheight (a ++ f) (a' ++ f), hnone] at hl
      cases hl
    | some n =>
      have hstays := find_stays hheight hname hnone
      rw [Env.find?_cons, Option.or_eq_none_iff, List.head?_eq_none_iff] at hstays
      have hf : only name f = [] := by
        have happend := hstays.1
        rw [only, List.filter_append, List.append_eq_nil_iff] at happend
        exact happend.2
      refine ⟨?_, fun ho => houtputs name ho hname hstays.1⟩
      have hhere : ¬ Env.here ((a' ++ f) :: fs) name = true := by
        rw [Env.here_cons]
        exact fun hne => hne hstays.1
      rcases find_over ((a ++ f) :: fs) ((a' ++ f) :: fs) hheight hname
        (fun _ => ⟨by simp, by simp, fun h => absurd h hhere⟩) with hsame | ⟨hbefore, _⟩
      · rw [hnone, hl] at hsame
        cases hsame
      · rw [hl, Env.find?_cons, hstays.2, Option.or_none] at hbefore
        obtain ⟨hmem, hln⟩ := mem_only.1 (List.mem_of_mem_head? hbefore.symm)
        rcases List.mem_append.1 hmem with hla | hlf
        · exact ha l hla
        · have hmem : l ∈ only name f := mem_only.2 ⟨hlf, hln⟩
          rw [hf] at hmem
          cases hmem

end Reroutes

namespace Document.Lifts

variable {d next : Document} {sel : Selection} {name : String} {done : Lifted} {s : Spot}
  {pre x y post : List Event} {l : Local}

theorem outputs_expression (h : d.Lifts sel name next done) : ∀ e parent slot,
    done.plan.region = .expression e parent slot → done.plan.outputNames = [] := by
  intro e parent slot hr
  rw [h.plan_eq.2, hr]
  rfl

theorem find_output (h : d.Lifts sel name next done) (hd : d.Owned)
    (hroute : Reroutes d next done.plan s pre x y post) {n : String}
    (hn : n ∈ done.plan.outputNames) :
    ∃ l ∈ locals x, l ∉ locals pre ∧ (walk x (walk pre [])).find? n = some l := by
  obtain ⟨k, hk⟩ := h.exists_output hn
  obtain ⟨e, b, he, hek, hb, hkind, rfl, hp⟩ := Region.of_mem_outputs hk
  obtain ⟨_, _, _, _, _, _, _, _, hplain, _⟩ := hroute.found_produced hd hek hb hkind hp
  obtain ⟨stmts, owner, hr⟩ := Region.exists_statements hp
  obtain ⟨_, before, after, rest, hsplit, hpost⟩ := hroute.run_open hplain hr
  have hu : e.tag.id ∉ done.plan.region.ids := by
    intro hu
    have hmet := (h.mem_laterNodes_iff hd hr hsplit).1 he
    exact hroute.apart hd hu (.expr e) (by simp [hpost, hmet]) rfl
  obtain ⟨l, _, _, _, _, f, fs, _, _, hinside, hnew, _, hopen, _, _, hfound, _⟩ :=
    hroute.found_later hd hu hek hb hkind hp
  rw [hopen]
  exact ⟨l, hinside, fun hl => hnew (by rw [locals_append]; simp [hl]), hfound⟩

theorem find_none_behind (h : d.Lifts sel name next done) (hd : d.Owned)
    (hroute : Reroutes d next done.plan s pre x y post) {n : String} (hname : n ≠ "_")
    {q : List Event} (hnone : (walk (pre ++ x ++ q) []).find? n = none) :
    (walk (pre ++ y ++ q) []).find? n = none := by
  have houtput := h.find_output hd hroute (n := n)
  rw [walk_append, walk_append] at hnone ⊢
  rcases hroute.scopes_behind h.outputs_expression with
    ⟨hx, hy⟩ | ⟨f, fs, a, a', _, hx, hy, _, hnames, _⟩
  · rw [hx] at hnone
    rw [hy, hnone]
  · rw [hx] at hnone houtput
    rw [hy]
    cases hheight : height true 0 q with
    | none => rw [walk_closed hheight (a' ++ f) (a ++ f), hnone]
    | some m =>
      have hstays := find_stays hheight hname hnone
      have hno : n ∉ done.plan.outputNames := by
        intro ho
        obtain ⟨l, _, _, hl⟩ := houtput ho
        rw [hl] at hstays
        cases hstays
      rw [Env.find?_cons, Option.or_eq_none_iff, List.head?_eq_none_iff, only, List.filter_append,
        List.append_eq_nil_iff] at hstays
      obtain ⟨⟨ha, hf⟩, hfs⟩ := hstays
      have ha' : a'.filter (fun l => l.name == n) = [] := by
        refine List.filter_eq_nil_iff.2 fun l hl heq => hno ?_
        exact (by simpa using heq : l.name = n) ▸ hnames l hl
      have hnew : Env.find? ((a' ++ f) :: fs) n = none := by
        simp [Env.find?_cons, only, List.filter_append, ha', hf, hfs]
      have hhere : ¬ Env.here ((a ++ f) :: fs) n = true := by
        rw [Env.here_cons, only, List.filter_append, ha, hf]
        exact fun hne => hne rfl
      rcases find_over ((a' ++ f) :: fs) ((a ++ f) :: fs) hheight hname
        (fun _ => ⟨by simp, by simp, fun h => absurd h hhere⟩) with hsame | ⟨hbefore, _⟩
      · rw [← hsame, hnone]
      · rw [hbefore, hnew]

/-- Walks in the region and in the new function: what the first finds and the second does not is
declared before the region, and no parameter has its name. -/
theorem cut_inside (h : d.Lifts sel name next done) (hd : d.Reached) (hsize : d.size < 2 ^ 32)
    (hroute : Reroutes d next done.plan s pre x y post)
    (hplain : Reroutes.Plainly done.plan s x y post) {n : String} (hname : n ≠ "_") {f : FuncDecl}
    {a : List Local} (ha : done.plan.Parameters f a) {env : Env} {q c : List Event}
    (hx : x = q ++ c) (hl : (walk q (walk pre [])).find? n = some l)
    (hnone : (walk q (a :: env)).find? n = none) :
    l ∈ locals pre ∧ n ∉ done.plan.params.map Capture.name := by
  constructor
  · by_contra hnew
    have hfound := hroute.found_again (h.encloses hd hsize) hplain hx (h.params_apart ha) env hl hnew
    rw [hfound] at hnone
    cases hnone
  · intro hparam
    have hlevel := hroute.level
    rw [hx] at hlevel
    obtain ⟨m, hheight, _⟩ := Option.bind_eq_some_iff.1 ((height_append ..).symm.trans hlevel)
    have hstays := find_stays hheight hname hnone
    rw [Env.find?_cons, Option.or_eq_none_iff, List.head?_eq_none_iff] at hstays
    exact (ha.here n hname).2 hparam hstays.1

theorem find_none_inside (h : d.Lifts sel name next done) (hd : d.Reached) (hsize : d.size < 2 ^ 32)
    (hroute : Reroutes d next done.plan s pre x y post)
    (hplain : Reroutes.Plainly done.plan s x y post) {n : String} (hname : n ≠ "_") {f : FuncDecl}
    {a : List Local} (ha : done.plan.Parameters f a) {q c : List Event} (hx : x = q ++ c)
    (hnone : (walk q (walk pre [])).find? n = none) : (walk q [a]).find? n = none := by
  obtain ⟨k, hlevel, hopen⟩ := hroute.level_open hplain
  rw [hx] at hlevel
  obtain ⟨m, hheight, _⟩ := Option.bind_eq_some_iff.1 ((height_append ..).symm.trans hlevel)
  have hstays := find_stays hheight hname hnone
  have hparam : only n a = [] := by
    by_contra hne
    obtain ⟨i, hi⟩ := h.exists_param ((ha.here n hname).1 hne)
    obtain ⟨e, b, he, hk, hb, hkind, rfl, hwithin⟩ := Region.of_mem_params hi
    obtain ⟨_, hbound⟩ := hroute.bound_before hd.owned (h.encloses hd hsize)
    obtain ⟨_, l, hl, _⟩ := hbound e.tag.id (List.mem_map_of_mem he) i b hk hb hkind hwithin
    rw [hl] at hstays
    cases hstays
  have hhere : (walk pre []).here n = true → Env.here [a] n = true := by
    intro hhere
    cases hwalk : walk pre [] with
    | nil => rw [hwalk] at hhere; cases hhere
    | cons g gs =>
      rw [hwalk, Env.here_cons] at hhere
      rw [hwalk, Env.find?_cons, Option.or_eq_none_iff, List.head?_eq_none_iff] at hstays
      exact absurd hstays.1 hhere
  rcases find_over [a] (walk pre []) hheight hname
    (fun hk => ⟨by simp, hopen hk, hhere⟩) with hsame | ⟨hbefore, _⟩
  · rw [← hsame, hnone]
  · rw [hbefore, Env.find?_cons, hparam]
    rfl

theorem openAt_first (h : d.Lifts sel name next done) (hd : d.Owned)
    (hroute : Reroutes d next done.plan s pre x y post) :
    d.file.openAt done.plan.region.first = walk pre [] := by
  obtain ⟨target, _, _, hloc⟩ := resolve_located h.region
  obtain ⟨ev, rest, n, htrail, hn, hid⟩ := hloc.head_trail
  have hids : done.plan.region.first ∈ done.plan.region.ids := by
    rw [← hid]
    exact Region.mem_ids_of_met (by rw [htrail]; simp [met, hn])
  obtain ⟨ev', rest', hx, hmeets⟩ : ∃ ev' rest', x = ev' :: rest' ∧ ev'.node? = some n := by
    rcases hroute.turns_cases with hplain | ⟨rfl, _⟩ | ⟨rfl, _⟩ | ⟨t, b, parent, slot, hr, _, rfl, _⟩
    · exact ⟨ev, rest, hplain.old.trans htrail, hn⟩
    · exact ⟨.pass n, mute rest, by simp [htrail, mute, met, hn], rfl⟩
    · exact ⟨.pass n, mute rest, by simp [htrail, mute, met, hn], rfl⟩
    · rw [hr] at htrail
      cases htrail
      exact ⟨_, _, rfl, hn⟩
  have hbefore : ∀ e ∈ pre, (!e.meets done.plan.region.first) = true := by
    intro e he
    cases hne : e.node? with
    | none => simp [Event.meets, hne]
    | some m =>
      have hm : m ∈ met (pre ++ post) := by
        rw [met_append]
        exact List.mem_append_left _ (List.mem_filterMap.2 ⟨e, he, hne⟩)
      simpa [Event.meets, hne] using hroute.apart hd hids m hm
  have hself : ¬ (!ev'.meets done.plan.region.first) = true := by simp [Event.meets, hmeets, hid]
  rw [SourceFile.openAt, hroute.before, List.append_assoc,
    List.takeWhile_append_of_pos hbefore, hx, List.cons_append, List.takeWhile_cons, if_neg hself,
    List.append_nil]

section Binds

variable (hd : d.Reached) {k : Nat}
  (hk : next.scopes.packageBinding? name = some k)

include hd hk

theorem callee_bound (h : d.Lifts sel name next done) : ∃ c,
    (done.plan.edit d).replacement.callee? = some (.ident c name) ∧
      (next.scopes.bindingOf? c.id = some k ↔ c.id ∈ users next.file.trail ∧
        (d.file.openAt done.plan.region.first).find? name = none) ∧
      ∀ l, c.id ∈ users next.file.trail →
        (d.file.openAt done.plan.region.first).find? name = some l →
        next.scopes.site? c.id = some l.binding.bare := by
  obtain ⟨s, pre, x, y, post, hroute⟩ := h.reroutes hd.owned
  obtain ⟨c, hcallee, q, r, hnew, hq⟩ := hroute.spot.callee
  rw [h.name_free.1] at hcallee hnew
  refine ⟨c, hcallee, ?_⟩
  rw [h.openAt_first hd.owned hroute]
  have hafter := hroute.after
  by_cases hlook : y = s.new
  · have hsplit : pre ++ y ++ post ++ Trail.func (done.plan.edit d).function =
        (pre ++ q) ++ .refer c name :: (r ++ post ++ Trail.func (done.plan.edit d).function) := by
      rw [hlook, hnew]
      simp
    rw [hsplit] at hafter
    have hfind : (walk (pre ++ q) []).find? name = (walk pre []).find? name := by
      rw [walk_append, hq]
    have hbound := (h.owned hd.owned).bindingOf_package_iff hafter rfl hk
    have husers := ((h.owned hd.owned).mem_users_iff hafter rfl).2 rfl
    refine ⟨?_, fun l _ hl => (h.owned hd.owned).site_of_found hafter rfl (hfind.trans hl)⟩
    rw [hfind] at hbound
    exact hbound.trans ⟨fun hb => ⟨husers, hb.2⟩, fun hb => ⟨⟨c, rfl⟩, hb.2⟩⟩
  · -- the resolver does not look at the call
    have hmuted : y = mute s.new := by
      rcases hroute.turns_cases with hplain | ⟨_, hy⟩ | ⟨_, hy, _⟩ | ⟨_, _, _, _, _, _, _, hy⟩
      · exact absurd hplain.new hlook
      · exact hy
      · exact absurd hy hlook
      · exact hy
    have hsplit : pre ++ y ++ post ++ Trail.func (done.plan.edit d).function =
        (pre ++ mute q) ++ Event.pass (.expr (.ident c name)) ::
          (mute r ++ post ++ Trail.func (done.plan.edit d).function) := by
      rw [hmuted, hnew, mute_append, List.cons_append, List.nil_append]
      simp [mute, met, Event.node?]
    rw [hsplit] at hafter
    have husers : c.id ∉ users next.file.trail := by
      intro hu
      have huser := ((h.owned hd.owned).mem_users_iff hafter rfl).1 hu
      cases huser
    exact ⟨⟨fun hb => absurd (mem_users hb) husers, fun hb => absurd hb.1 husers⟩,
      fun l hu _ => absurd hu husers⟩

/-- Where a name is referred to, before and after. If nothing is found any more the identifier is cut
off, and if nothing was found nothing is found. -/
theorem rebinds (h : d.Lifts sel name next done) {t : Tag} {n : String} {a a' c c' : List Event}
    (hbefore : d.file.trail = a ++ .refer t n :: c)
    (hafter : next.file.trail.map Event.bare = (a' ++ .refer t n :: c').map Event.bare)
    (hcut : ∀ l, (walk a []).find? name = some l → (walk a' []).find? name = none →
      done.plan.CutsOff t.id l.binding)
    (hkeep : (walk a []).find? name = none → (walk a' []).find? name = none) :
    (next.scopes.bindingOf? t.id = some k → n = name ∧ done.plan.Adopts d name t.id) ∧
      (d.scopes.bindingOf? t.id = none → n = name → next.scopes.bindingOf? t.id = some k) := by
  have hfree := h.name_free.2.2
  have hbound := (h.owned hd.owned).bindingOf_package_iff hafter rfl hk
  constructor
  · intro hb
    obtain ⟨⟨_, heq⟩, hnone⟩ := hbound.1 hb
    cases heq
    refine ⟨rfl, ?_⟩
    rcases hd.owned.bound_or_none hbefore hfree with ⟨hnot, _⟩ | ⟨i, l, hi, hl, hfind⟩
    · exact .inl hnot
    · exact .inr ⟨i, l.binding, hi, hl, (Env.mem_of_find? hfind).1, hcut l hfind hnone⟩
  · rintro hnot rfl
    rcases hd.owned.bound_or_none hbefore hfree with ⟨_, hfind⟩ | ⟨i, l, hi, _⟩
    · exact hbound.2 ⟨⟨t, rfl⟩, hkeep hfind⟩
    · rw [hi] at hnot
      cases hnot

theorem rebinds_before (h : d.Lifts sel name next done)
    (hroute : Reroutes d next done.plan s pre x y post) {t : Tag} {n : String} {q c : List Event}
    (hpre : pre = q ++ .refer t n :: c) :
    (next.scopes.bindingOf? t.id = some k → n = name ∧ done.plan.Adopts d name t.id) ∧
      (d.scopes.bindingOf? t.id = none → n = name → next.scopes.bindingOf? t.id = some k) := by
  have hafter := hroute.after
  have hsplit : pre ++ y ++ post ++ Trail.func (done.plan.edit d).function =
      q ++ .refer t n :: (c ++ y ++ post ++ Trail.func (done.plan.edit d).function) := by simp [hpre]
  rw [hsplit] at hafter
  refine h.rebinds hd hk (c := c ++ x ++ post) (by simp [hroute.before, hpre]) hafter
    (fun l hl hnone => ?_) id
  rw [hl] at hnone
  cases hnone

theorem rebinds_behind (h : d.Lifts sel name next done)
    (hroute : Reroutes d next done.plan s pre x y post) {t : Tag} {n : String} {q c : List Event}
    (hpost : post = q ++ .refer t n :: c) :
    (next.scopes.bindingOf? t.id = some k → n = name ∧ done.plan.Adopts d name t.id) ∧
      (d.scopes.bindingOf? t.id = none → n = name → next.scopes.bindingOf? t.id = some k) := by
  have hblank := h.name_free.2.1
  have hafter := hroute.after
  have hsplit : pre ++ y ++ post ++ Trail.func (done.plan.edit d).function =
      (pre ++ y ++ q) ++ .refer t n :: (c ++ Trail.func (done.plan.edit d).function) := by
    simp [hpost]
  rw [hsplit] at hafter
  refine h.rebinds hd hk (a := pre ++ x ++ q) (c := c) (by simp [hroute.before, hpost]) hafter
    (fun l hfind hnone => ?_) (h.find_none_behind hd.owned hroute hblank)
  obtain ⟨hlocal, hno⟩ := hroute.cut_behind h.outputs_expression hblank hfind hnone
  rcases hroute.home_local hlocal with hhome | hself
  · refine .inr (.inl ⟨fun hids => ?_, hhome, ?_⟩)
    · exact hroute.apart hd.owned hids (.expr (.ident t n)) (by simp [hpost, met, Event.node?]) rfl
    · rwa [← (Env.mem_of_find? hfind).1] at hno
  · exact .inr (.inr hself)

theorem rebinds_inside (h : d.Lifts sel name next done) (hsize : d.size < 2 ^ 32)
    (hroute : Reroutes d next done.plan s pre x y post)
    (hplain : Reroutes.Plainly done.plan s x y post) {t : Tag} {n : String} {q c : List Event}
    (hx : x = q ++ .refer t n :: c) :
    (next.scopes.bindingOf? t.id = some k → n = name ∧ done.plan.Adopts d name t.id) ∧
      (d.scopes.bindingOf? t.id = none → n = name → next.scopes.bindingOf? t.id = some k) := by
  have hblank := h.name_free.2.1
  obtain ⟨es, rest, a, hafter, hwalk, hparams⟩ := hroute.moved hplain hx
  refine h.rebinds hd hk (a := pre ++ q) (c := c ++ post) (by simp [hroute.before, hx]) hafter
    (fun l hfind hnone => ?_) (fun hfind => ?_)
  · rw [walk_append] at hfind
    rw [hwalk] at hnone
    obtain ⟨hpre, hparam⟩ := h.cut_inside hd hsize hroute hplain hblank hparams hx hfind hnone
    have hids : t.id ∈ done.plan.region.ids := by
      refine Region.mem_ids_of_met (n := .expr (.ident t n)) ?_
      rw [← hroute.met_eq]
      simp [hx, met, Event.node?]
    have hlocal : l ∈ locals (pre ++ post) := by rw [locals_append]; simp [hpre]
    rw [← (Env.mem_of_find? hfind).1] at hparam
    exact .inl ⟨hids, (hroute.outside hd.owned hlocal).1, hparam⟩
  · rw [walk_append] at hfind
    rw [hwalk]
    exact h.find_none_inside hd hsize hroute hplain hblank hparams hx hfind

theorem name_of_bound (h : d.Lifts sel name next done) {t : Tag} {n : String}
    (hn : .expr (.ident t n) ∈ d.file.nodes) (hb : next.scopes.bindingOf? t.id = some k) :
    n = name := by
  have hnext := h.owned hd.owned
  obtain ⟨e, he, hu⟩ := List.mem_filterMap.1 (mem_users hb)
  obtain ⟨a, c, htrail⟩ := List.append_of_mem he
  obtain ⟨⟨v, rfl⟩, _⟩ :=
    (hnext.bindingOf_package_iff (congrArg (List.map Event.bare) htrail) hu hk).1 hb
  -- the node that was there before is still there, and no other has its number
  obtain ⟨l, hl, hnode⟩ : ∃ l ∈ d.file.links, l.node = .expr (.ident t n) := by
    rw [SourceFile.nodes, Outline.walkAll_eq_linksAll 0 none] at hn
    exact List.mem_map.1 hn
  obtain ⟨m, hm, hhead, _⟩ := h.kept hd.owned l hl
  obtain ⟨w, hnode', hw⟩ := Node.ident_of_head (hhead.trans (congrArg Node.head hnode))
  obtain ⟨m', hm', hsame⟩ := List.mem_map.1 (mem_of_countP
    (fun q => SourceFile.count_declLinks q next.file) (List.mem_filterMap.2 ⟨_, he, rfl⟩))
  have hid : m.id = t.id := by
    rw [Link.id, hnode']
    exact hw
  have hid' : m'.id = t.id := by
    rw [Link.id, hsame]
    exact Option.some.inj hu
  have heq := eq_of_linkCount (hnext.linkCount_le_one t.id)
    (mem_declLinks hm (by rw [hnode']; rfl)) hm' hid hid'
  rw [heq, hsame] at hnode'
  cases hnode'
  rfl

theorem range_gone (h : d.Lifts sel name next done)
    (hroute : Reroutes d next done.plan s pre x y post) {t : Tag} {b : Binding}
    (he : .range t b ∈ d.file.trail) (hb : next.scopes.bindingOf? t.id = some k) :
    ∃ v parent slot, done.plan.region = .expression (.ident v b.name) parent slot ∧
      b.span = v.span := by
  have hgone : .range t b ∉ pre ++ y ++ post ++ Trail.func (done.plan.edit d).function := by
    intro hmem
    obtain ⟨a, c, hsplit⟩ := List.append_of_mem hmem
    have hafter := hroute.after
    rw [hsplit] at hafter
    obtain ⟨⟨_, hrefer⟩, _⟩ := ((h.owned hd.owned).bindingOf_package_iff hafter rfl hk).1 hb
    cases hrefer
  obtain ⟨front, back, hrewalks⟩ := done.plan.edit_rewalks d
  rw [hroute.before] at he
  simp only [hrewalks.trail, List.mem_append, not_or] at he hgone
  rcases he with (hpre | hx) | hpost
  · exact absurd hpre hgone.1.1.1
  · rcases hroute.turns_cases with hplain | ⟨hmute, _⟩ | ⟨hmute, _⟩ |
      ⟨v, b', parent, slot, hr, hspan, hrange, _⟩
    · exact absurd (hplain.old ▸ hx) hgone.2.2.1
    · exact absurd (hmute ▸ hx) range_not_mem_mute
    · exact absurd (hmute ▸ hx) range_not_mem_mute
    · rw [hrange] at hx
      cases List.mem_singleton.1 hx
      exact ⟨t, parent, slot, hr, hspan⟩
  · exact absurd hpost hgone.1.2

/-- An identifier of the document before is bound to the new function only if it has its name and
was unbound or is cut off; where it was looked up in vain the name is enough. -/
theorem adopts (h : d.Lifts sel name next done) (hsize : d.size < 2 ^ 32) {t : Tag} {n : String}
    (hn : .expr (.ident t n) ∈ d.file.nodes) :
    (next.scopes.bindingOf? t.id = some k → n = name ∧ done.plan.Adopts d name t.id) ∧
      (t.id ∈ users d.file.trail → d.scopes.bindingOf? t.id = none → n = name →
        next.scopes.bindingOf? t.id = some k) := by
  obtain ⟨s, pre, x, y, post, hroute⟩ := h.reroutes hd.owned
  obtain ⟨e, he, hnode⟩ := List.mem_filterMap.1 (SourceFile.mem_met hn rfl)
  obtain ⟨a, c, htrail⟩ := List.append_of_mem he
  have hlook := hd.owned.mem_users_iff (congrArg (List.map Event.bare) htrail) hnode
  have hplace : (∃ q, pre = a ++ e :: q) ∨ (∃ q r, x = q ++ e :: r) ∨ ∃ q, post = q ++ e :: c := by
    rcases eq_append_cons (htrail.symm.trans hroute.before) with ⟨q, hq, _⟩ | ⟨q, _, hpost⟩
    · rcases eq_append_cons hq.symm with ⟨r, hr, _⟩ | ⟨r, _, hr⟩
      · exact .inl ⟨r, hr⟩
      · exact .inr (.inl ⟨r, q, hr⟩)
    · exact .inr (.inr ⟨q, hpost⟩)
  cases e with
  | refer t' m =>
    cases hnode
    have hboth : (next.scopes.bindingOf? t.id = some k → n = name ∧ done.plan.Adopts d name t.id) ∧
        (d.scopes.bindingOf? t.id = none → n = name → next.scopes.bindingOf? t.id = some k) := by
      rcases hplace with ⟨q, hpre⟩ | ⟨q, r, hx⟩ | ⟨q, hpost⟩
      · exact h.rebinds_before hd hk hroute hpre
      · exact h.rebinds_inside hd hk hsize hroute (hroute.plain_of_refer (t := t) (n := n) (by simp [hx])) hx
      · exact h.rebinds_behind hd hk hroute hpost
    exact ⟨hboth.1, fun _ => hboth.2⟩
  | range t' b =>
    cases hnode
    obtain ⟨hpre, hpost⟩ := hd.owned.user_once htrail rfl
    refine ⟨fun hb => ⟨h.name_of_bound hd hk hn hb, ?_⟩, fun _ hnot hname => ?_⟩
    · by_cases hblank : b.name = "_"
      · exact .inl (bindingOf_blank htrail hpre hpost hblank)
      · obtain ⟨i, hi, hstands⟩ := bindingOf_range htrail hpost hblank
        refine .inr ⟨i, b, hi, hstands.binding, h.name_of_bound hd hk hn hb, .inr (.inr ?_)⟩
        exact h.range_gone hd hk hroute he hb
    · have hblank : b.name ≠ "_" := hname ▸ h.name_free.2.1
      obtain ⟨i, hi, _⟩ := bindingOf_range htrail hpost hblank
      rw [hi] at hnot
      cases hnot
  | pass m =>
    obtain rfl : m = .expr (.ident t n) := Option.some.inj hnode
    have hnot : t.id ∉ users d.file.trail := fun hu => by cases hlook.1 hu
    refine ⟨fun hb => ⟨h.name_of_bound hd hk hn hb, .inl ?_⟩, fun hu => absurd hu hnot⟩
    rw [Option.eq_none_iff_forall_ne_some]
    exact fun i hi => hnot (mem_users hi)
  | _ => cases hnode

end Binds

end Document.Lifts

/-- What the name of the new function `f` is bound to. The call is in `r`, and `k` is the number of the
function's binding. -/
structure Named (d next : Document) (done : Lifted) (f : FuncDecl) (r : Replacement) (k : Nat) :
    Prop where
  /-- In the package the name stands for the new function. -/
  package : next.scopes.packageBinding? done.plan.name = some k ∧
    next.scopes.binding? k = some f.binding
  /-- The callee is bound to the new function unless a function declares the name around the region
  (then it is bound to that), or the resolver does not look at the place. -/
  callee : ∃ c, r.callee? = some (.ident c done.plan.name) ∧
    (next.scopes.bindingOf? c.id = some k ↔ c.id ∈ users next.file.trail ∧
      (d.file.openAt done.plan.region.first).find? done.plan.name = none) ∧
    ∀ l, c.id ∈ users next.file.trail →
      (d.file.openAt done.plan.region.first).find? done.plan.name = some l →
      next.scopes.site? c.id = some l.binding.bare
  /-- Of the identifiers that were there before it takes only those of its name, and of these only
  what was unbound or is cut off from its declaration. -/
  existing : ∀ t n, .expr (.ident t n) ∈ d.file.nodes → next.scopes.bindingOf? t.id = some k →
    n = done.plan.name ∧ done.plan.Adopts d done.plan.name t.id
  /-- It takes all that were looked up in vain. -/
  unbound : ∀ t, .expr (.ident t done.plan.name) ∈ d.file.nodes → t.id ∈ users d.file.trail →
    d.scopes.bindingOf? t.id = none → next.scopes.bindingOf? t.id = some k

/-- In every document of a session the name of a lifted function binds the call where nothing nearer
has the name, and of the old identifiers only those that nothing else binds. -/
theorem Document.Reached.lift_named {d : Document} (hd : d.Reached) (hsize : d.size < 2 ^ 32) :
    ∀ s name next done, d.lift s name = .ok (next, done) → done.plan.name = name ∧
      ∃ f r k, Conserved d next done f r ∧ Named d next done f r k := by
  intro s name next done hlift
  have h := lifts hd.owned hlift
  obtain ⟨rfl, _⟩ := h.name_free
  obtain ⟨k, hk, hbinding⟩ := h.package_function
  exact ⟨rfl, _, _, k, h.keeps_settled hd.owned, ⟨hk, hbinding⟩, h.callee_bound hd hk,
    fun t n hn => (h.adopts hd hk hsize hn).1,
    fun t hn hu hnot => (h.adopts hd hk hsize hn).2 hu hnot rfl⟩

theorem Document.Reached.lift_named_literal : ∃ d next done, d.Reached ∧ d.size < 2 ^ 32 ∧
    d.lift ⟨⟨4, 7⟩, ⟨4, 8⟩⟩ "Seven" = .ok (next, done) ∧ done.plan.name = "Seven" ∧
      ∃ f r k, Conserved d next done f r ∧ Named d next done f r k := by
  obtain ⟨d, next, done, hread, hlift, hsize⟩ := exists_lift_literal
  exact ⟨d, next, done, .read hread, hsize, hlift, lift_named (.read hread) hsize _ _ _ _ hlift⟩

def Node.ident? : Node → Option (Tag × String)
  | .expr (.ident t n) => some (t, n)
  | _ => none

theorem Node.ident?_eq_some {x : Node} {t : Tag} {n : String} :
    x.ident? = some (t, n) ↔ x = .expr (.ident t n) := by
  unfold Node.ident?
  split
  · simp
  · rename_i hother
    simpa using hother t n

/-- A call of the new function where a variable has its name is bound to the variable, and a call of
what was predeclared is bound to the new function. -/
theorem Document.lift_named_taken : ∃ d next done c k t n, ofSource
      "package p\n\nvar n = len(s)\n\nfunc f() int \x7b\n\tlen := 1\n\treturn 3 + len\n\x7d\n" =
      .ok d ∧ d.lift ⟨⟨7, 9⟩, ⟨7, 10⟩⟩ "len" = .ok (next, done) ∧
    (done.plan.edit d).replacement.callee? = some c ∧
    next.scopes.packageBinding? "len" = some k ∧ next.scopes.bindingOf? c.tag.id ≠ some k ∧
    .expr (.ident t n) ∈ d.file.nodes ∧ next.scopes.bindingOf? t.id = some k := by
  obtain ⟨d, next, done, hread, hlift, hcheck⟩ := exists_lift
    "package p\n\nvar n = len(s)\n\nfunc f() int \x7b\n\tlen := 1\n\treturn 3 + len\n\x7d\n"
    ⟨⟨7, 9⟩, ⟨7, 10⟩⟩ "len"
    (fun d next done => (next.scopes.packageBinding? "len").any fun k =>
      ((done.plan.edit d).replacement.callee?.any fun c =>
        next.scopes.bindingOf? c.tag.id != some k) &&
      d.file.nodes.any fun x => x.ident?.any fun p => next.scopes.bindingOf? p.1.id == some k)
    (by decide +kernel)
  obtain ⟨k, hk, hcheck⟩ := (Option.any_eq_true _ _).1 hcheck
  obtain ⟨hcallee, htaken⟩ := Bool.and_eq_true_iff.1 hcheck
  obtain ⟨c, hc, hne⟩ := (Option.any_eq_true _ _).1 hcallee
  obtain ⟨x, hx, hany⟩ := List.any_eq_true.1 htaken
  obtain ⟨⟨t, n⟩, hident, hbound⟩ := (Option.any_eq_true _ _).1 hany
  obtain rfl := Node.ident?_eq_some.1 hident
  exact ⟨d, next, done, c, k, t, n, hread, hlift, hc, hk, by simpa using hne, hx,
    by simpa using hbound⟩

theorem liftText_ok {source text : String} {s : Selection} {name : String} {done : Lifted}
    (h : liftText source s name = .ok (text, done)) : ∃ d next, Document.ofSource source = .ok d ∧
      d.lift s name = .ok (next, done) ∧ text = next.print := by
  unfold liftText at h
  split at h
  · cases h
  · rename_i d hd
    split at h
    · cases h
    · rename_i next done' hlift
      cases h
      exact ⟨d, next, hd, hlift, rfl⟩

/-- The text after a lift is that of a tree with one declaration more, and the last one is a function
of the name without a receiver. If this tree is straight, the text is read again as one with as many
declarations, and the last one is such a function again. -/
theorem liftText_declares {source text : String} {s : Selection} {name : String} {done : Lifted}
    (h : liftText source s name = .ok (text, done)) : ∃ d next f,
      Document.ofSource source = .ok d ∧ d.lift s name = .ok (next, done) ∧ text = next.print ∧
      next.file.decls.length = d.file.decls.length + 1 ∧
      next.file.decls.getLast? = some (.func f) ∧ f.name.text = name ∧ f.recv = none ∧
      (next.isStraight = true → ∃ d' g, Document.ofSource text = .ok d' ∧
        d'.file.decls.length = d.file.decls.length + 1 ∧
        d'.file.decls.getLast? = some (.func g) ∧ g.name.text = name ∧ g.recv = none) := by
  obtain ⟨d, next, hread, hlift, rfl⟩ := liftText_ok h
  have hl := Document.lifts (Document.Reached.read hread).owned hlift
  have hkeeps := hl.keeps_settled (Document.Reached.read hread).owned
  obtain ⟨hname, hrecv⟩ := hl.settled_head
  have hlength : next.file.decls.length = d.file.decls.length + 1 := by
    simpa [SourceFile.declHeads] using congrArg List.length hkeeps.decls.2
  refine ⟨d, next, _, hread, hlift, rfl, hlength, hkeeps.decls.1, hname, hrecv, ?_⟩
  intro hstraight
  obtain ⟨d', hagain, -, -, htitles⟩ := Document.ofSource_print_straight hstraight
  have hcount := congrArg List.length htitles
  rw [List.length_map, List.length_map, hlength] at hcount
  have hlast := congrArg List.getLast? htitles
  rw [List.getLast?_map, List.getLast?_map, hkeeps.decls.1] at hlast
  obtain ⟨x, hx, htitle⟩ := Option.map_eq_some_iff.1 hlast
  rw [TopDecl.title, hname, hrecv] at htitle
  obtain ⟨g, rfl, hg⟩ := TopDecl.eq_func_of_title htitle
  exact ⟨d', g, hagain, hcount, hx, hg⟩

theorem liftText_declares_sum : ∃ text done, liftText
    "package p\n\nfunc f(a int, b int) \x7b\n\tprintln(a + b)\n\x7d\n" ⟨⟨4, 10⟩, ⟨4, 15⟩⟩ "Sum" =
      .ok (text, done) ∧ ∃ d next f, Document.ofSource
        "package p\n\nfunc f(a int, b int) \x7b\n\tprintln(a + b)\n\x7d\n" = .ok d ∧
      d.lift ⟨⟨4, 10⟩, ⟨4, 15⟩⟩ "Sum" = .ok (next, done) ∧ text = next.print ∧
      next.file.decls.length = d.file.decls.length + 1 ∧
      next.file.decls.getLast? = some (.func f) ∧ f.name.text = "Sum" ∧ f.recv = none ∧
      ∃ d' g, Document.ofSource text = .ok d' ∧ d'.file.decls.length = d.file.decls.length + 1 ∧
        d'.file.decls.getLast? = some (.func g) ∧ g.name.text = "Sum" ∧ g.recv = none := by
  obtain ⟨d, next, done, hread, hlift, hstraight⟩ := Document.exists_lift
    "package p\n\nfunc f(a int, b int) \x7b\n\tprintln(a + b)\n\x7d\n" ⟨⟨4, 10⟩, ⟨4, 15⟩⟩ "Sum"
    (fun _ next _ => next.isStraight) (by decide +kernel)
  have htext : liftText "package p\n\nfunc f(a int, b int) \x7b\n\tprintln(a + b)\n\x7d\n"
      ⟨⟨4, 10⟩, ⟨4, 15⟩⟩ "Sum" = .ok (next.print, done) := by
    simp only [liftText, hread, hlift]
  obtain ⟨e, next', f, he, hlift', htext', hlength, hlast, hname, hrecv, hagain⟩ :=
    liftText_declares htext
  obtain rfl : d = e := Except.ok.inj (hread.symm.trans he)
  obtain ⟨rfl, -⟩ := Prod.mk.inj (Except.ok.inj (hlift.symm.trans hlift'))
  exact ⟨next.print, done, htext, d, next, f, hread, hlift, rfl, hlength, hlast, hname, hrecv,
    hagain hstraight⟩

/-- An element of a literal that leaves its type out is no expression by itself: returned from a
function, it cannot be read. -/
theorem liftText_unreadable : ∃ text done e, liftText
    "package p\n\ntype T struct \x7b\n\tA int\n\x7d\n\nvar v = []T\x7b\x7bA: 1\x7d\x7d\n"
      ⟨⟨7, 13⟩, ⟨7, 19⟩⟩ "Elem" = .ok (text, done) ∧ Document.ofSource text = .error e := by
  obtain ⟨d, next, done, hread, hlift, hcheck⟩ := Document.exists_lift
    "package p\n\ntype T struct \x7b\n\tA int\n\x7d\n\nvar v = []T\x7b\x7bA: 1\x7d\x7d\n"
    ⟨⟨7, 13⟩, ⟨7, 19⟩⟩ "Elem" (fun _ next _ => !(Document.ofSource next.print).isOk)
    (by decide +kernel)
  cases hagain : Document.ofSource next.print with
  | ok d' => simp [hagain, Except.isOk, Except.toBool] at hcheck
  | error e =>
    refine ⟨next.print, done, e, ?_, hagain⟩
    simp only [liftText, hread, hlift]

end FuncLift
