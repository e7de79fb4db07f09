import FuncLift.Proofs.Named

/-!
# What the identifiers are bound to after a lift

An identifier that stays on the same side of the edge of the region as its declaration keeps it. One
that is taken along without its declaration gets a parameter instead, and one that is left behind
without its declaration gets the variable that the call defines. Names are what holds this together:
a name that the region declares anywhere is no parameter, and a definition keeps to a variable that
its scope has already.
-/
namespace FuncLift

open Outline

/-- The region is itself the variable that a range clause declares. -/
def Region.IsVariable (r : Region) (b : Binding) : Prop :=
  ∃ t parent slot, r = .expression (.ident t b.name) parent slot ∧ b.span = t.span

theorem Region.IsVariable.span_eq {r : Region} {b : Binding} (h : r.IsVariable b) :
    b.span = r.span := by
  obtain ⟨t, parent, slot, rfl, hspan⟩ := h
  exact hspan

/-- What an identifier `u` that was bound to the `k`-th binding `b`, a local variable, is bound to
after a lift. The new function is `f`, and the call is in `r`. -/
structure Rebound (d next : Document) (done : Lifted) (f : FuncDecl) (r : Replacement) (u k : Nat)
    (b : Binding) : Prop where
  /-- An identifier that is taken along without its declaration is bound to a parameter, if the region
  does not declare the name itself. -/
  taken : u ∈ done.plan.region.ids → b.home ∉ done.plan.region.ids →
    b.name ∉ d.scopes.namesWithin done.plan.region.span →
    ∃ c, f.Takes c ∧ c.name = b.name ∧ next.scopes.site? u = some c.bare
  /-- If the region declares the name somewhere, there is no such parameter, and only the region's
  declarations of the name are left for it. -/
  dropped : u ∈ done.plan.region.ids → b.home ∉ done.plan.region.ids →
    b.name ∈ d.scopes.namesWithin done.plan.region.span →
    b.name ∉ done.plan.params.map Capture.name ∧ ∀ c, next.scopes.site? u = some c →
      c.kind = .localVar → c.name = b.name ∧ c.home ∈ done.plan.region.ids
  /-- An identifier that is left behind without its declaration is bound to the variable that the call
  defines, if a statement of the run itself declared it. -/
  returned : u ∉ done.plan.region.ids → k ∈ done.plan.region.produced d.scopes →
    (d.file.openAt done.plan.region.first).here b.name = false →
    ∃ c, r.Defines c ∧ c.name = b.name ∧ next.scopes.site? u = some c.bare
  /-- The definition keeps to a variable that its scope has already. -/
  reused : u ∉ done.plan.region.ids → k ∈ done.plan.region.produced d.scopes →
    (d.file.openAt done.plan.region.first).here b.name = true →
    ∃ l, (d.file.openAt done.plan.region.first).find? b.name = some l ∧
      next.scopes.site? u = some l.binding.bare
  /-- Where both are taken along, and where both are left, nothing changes. -/
  kept : (u ∈ done.plan.region.ids ↔ b.home ∈ done.plan.region.ids) →
    next.scopes.site? u = some b.bare

theorem Change.takes_func {c : Change} (hc : c.Retags) {f : FuncDecl} {b : Binding} (h : f.Takes b) :
    ∃ b', (c.func f).Takes b' ∧ b'.bare = b.bare := by
  obtain ⟨x, hx, i, n, hn, rfl⟩ := h
  obtain ⟨t, ns, type, variadic, label⟩ := x
  have hnames : (c.names ns)[i]? = some (c.name n) := by simp [Change.names, hn]
  have hfield : c.field ⟨t, ns, type, variadic, label⟩ ∈ (c.func f).sig.params := by
    obtain ⟨_, _, _, ⟨_, params, results⟩, _⟩ := f
    simpa [Change.func, Change.signature] using List.mem_map_of_mem (f := c.field) hx
  refine ⟨_, ⟨_, hfield, i, c.name n, hnames, rfl⟩, ?_⟩
  simp [Change.field, Change.name, Resolve.localVar, Binding.bare, Origin.bare, hc.2 t]

theorem Edit.takes_settledFunction (e : Edit) (d : Document) {b : Binding} (h : e.function.Takes b) :
    ∃ b', (e.settledFunction d).Takes b' ∧ b'.bare = b.bare := by
  obtain ⟨c, hc, hcb⟩ := Change.takes_func
    (Change.retags_ofMarks (e.functionDrawing d).marks.reverse) h
  obtain ⟨b', hb', hbc⟩ := Change.takes_func
    (Change.retags_ofMarks ((d.unsettled e).drawing 0).marks.reverse) hc
  exact ⟨b', hb', hbc.trans hcb⟩

theorem Trail.only_definedNames {note : Option Nat} {home names : Nat} {values : List Expr}
    {index : Nat} {ns : List Name} {name : String} {f g : List Local} {fs gs : Env}
    (hname : name ≠ "_") (hf : only name f ≠ [])
    (hg : walk (Trail.definedNames note home names values index ns) (f :: fs) = g :: gs) :
    only name g = only name f := by
  induction ns generalizing index f with
  | nil =>
    cases hg
    rfl
  | cons n ns ih =>
    have hone : only name (Event.enter f
        (.define ⟨Resolve.localVar n (.define names values index) home, note⟩)) = only name f := by
      by_cases hn : Local.name ⟨Resolve.localVar n (.define names values index) home, note⟩ = name
      · exact (only_enter_self rfl hn hname).trans (if_pos ⟨rfl, hf⟩)
      · exact only_enter_other rfl hn
    rw [Trail.definedNames, walk_cons, Event.walk_enter rfl] at hg
    exact (ih (hone ▸ hf) hg).trans hone

theorem Plan.IsSpot.only_new {p : Plan} {r : Replacement} {s : Spot} (h : p.IsSpot r s)
    {name : String} {f g : List Local} {fs gs : Env} (hname : name ≠ "_") (hf : only name f ≠ [])
    (hg : walk s.new (f :: fs) = g :: gs) : only name g = only name f := by
  have hsame {call : Expr} (hcall : walk (Trail.expr call) (f :: fs) = g :: gs) :
      only name g = only name f := by
    rw [Trail.walk_expr] at hcall
    cases hcall
    rfl
  unfold IsSpot at h
  split at h
  · obtain ⟨call, _, _, rfl⟩ := h
    exact hsame hg
  · obtain ⟨call, st, _, _, rfl, _, hst, _, rfl⟩ := h
    rcases hst with ⟨_, v, w, rfl⟩ | ⟨_, v, w, ns, rfl, _⟩
    · exact hsame hg
    · change walk (Trail.exprs [call] ++
        Trail.definedNames (some v.id) w.id ns.length [call] 0 ns) (f :: fs) = _ at hg
      rw [walk_append, Trail.walk_exprs] at hg
      exact Trail.only_definedNames hname hf hg

theorem Trail.mem_later {after : List Stmt} {rest q c : List Event} {e : Event} {n : Nat}
    (h : Trail.stmts after ++ Event.closeScope :: rest = q ++ e :: c) (hq : height true 0 q = some n)
    (he : e ≠ .closeScope) : e ∈ Trail.stmts after := by
  rcases eq_append_cons h.symm with ⟨q', hafter, _⟩ | ⟨q', rfl, hclose⟩
  · simp [hafter]
  · exfalso
    have hrun : height true 0 (Trail.stmts after) = some 0 := (Fair.stmts (fun _ => False) after).1
    cases q' with
    | nil => exact he (List.cons.inj hclose).1.symm
    | cons e' q' =>
      obtain ⟨rfl, _⟩ := List.cons.inj hclose
      rw [height_append, hrun] at hq
      cases hq

theorem local_of_found {e : Event} {es : List Event} {l : Local}
    (h : e.found? (walk es []) = some l) : l ∈ locals (es ++ [e]) := by
  rw [locals_append]
  cases e with
  | refer t n => exact List.mem_append_left _ (mem_added (added_of_find h).2.2).1.1
  | range t b =>
    simp only [Event.found?] at h
    split at h
    · cases h
    · cases h
      exact List.mem_append_right _ (by simp [locals, Event.local?])
  | _ => cases h

theorem Document.Owned.kind_of_not_found {d : Document} (hd : d.Owned) {pre post : List Event}
    {t : Tag} {name : String}
    (htrail : d.file.trail.map Event.bare = (pre ++ .refer t name :: post).map Event.bare)
    (hnone : (walk pre []).find? name = none) {c : Binding} (hc : d.scopes.site? t.id = some c) :
    c.kind ≠ .localVar := by
  obtain ⟨pre', e, post', hsplit, he, hwalk⟩ := split_bare htrail
  cases e with
  | refer v m =>
    obtain ⟨hv, rfl⟩ := Event.refer.inj he
    have hid : v.id = t.id := (Tag.mk.inj hv).1
    obtain ⟨k, hk, hcode⟩ := Option.bind_eq_some_iff.1 hc
    obtain ⟨b, hb, rfl⟩ := Option.map_eq_some_iff.1 hcode
    rw [← hid] at hk
    obtain ⟨hpre, hpost⟩ := hd.user_once hsplit rfl
    have hkind : b.kind ≠ .localVar :=
      kind_of_find_none hsplit hpre hpost ((Env.find_none_congr hwalk m).2 hnone) hk hb
    exact hkind
  | _ => cases he

theorem only_append (name : String) (a f : List Local) :
    only name (a ++ f) = only name a ++ only name f := List.filter_append ..

namespace Document.Lifts

variable {d next : Document} {sel : Selection} {name : String} {done : Lifted} {s : Spot}
  {pre x y post : List Event} {l : Local} {n : String}

theorem only_output (h : d.Lifts sel name next done) (hd : d.Owned)
    (hroute : Reroutes d next done.plan s pre x y post) {a f : List Local} {fs : Env}
    (hpre : walk pre [] = f :: fs) (hx : walk x (walk pre []) = (a ++ f) :: fs)
    (hn : n ∈ done.plan.outputNames) : only n a ≠ [] := by
  obtain ⟨m, _, hnew, hm⟩ := h.find_output hd hroute hn
  have hbefore (g : List Local) (hg : g ∈ walk pre []) : m ∉ g := by
    intro hmg
    rcases mem_walk hg hmg with ⟨_, hnil, _⟩ | hadded
    · cases hnil
    · exact hnew (mem_added hadded).1.1
  rw [hx] at hm
  rw [hpre] at hbefore
  obtain ⟨hname, g, hg, hmg⟩ := Env.mem_of_find? hm
  have hma : m ∈ a := by
    rcases List.mem_cons.1 hg with rfl | hg
    · exact (List.mem_append.1 hmg).resolve_right (hbefore f List.mem_cons_self)
    · exact absurd hmg (hbefore g (List.mem_cons_of_mem _ hg))
  exact List.ne_nil_of_mem (mem_only.2 ⟨hma, hname⟩)

/-- What is found behind the region and is no declaration of the region is found behind what takes its
place. -/
theorem found_behind (h : d.Lifts sel name next done) (hd : d.Owned)
    (hroute : Reroutes d next done.plan s pre x y post) (hname : n ≠ "_") {q : List Event}
    (hl : (walk (pre ++ x ++ q) []).find? n = some l) (hnew : l ∉ locals x) :
    (walk (pre ++ y ++ q) []).find? n = some l := by
  have houtput {a f : List Local} {fs : Env} : walk pre [] = f :: fs →
      walk x (walk pre []) = (a ++ f) :: fs → n ∈ done.plan.outputNames → only n a ≠ [] :=
    h.only_output hd hroute
  rw [walk_append, walk_append] at hl ⊢
  rcases hroute.scopes_behind h.outputs_expression with
    ⟨hx, hy⟩ | ⟨f, fs, a, a', hpre, hx, hy, ha, hnames, _⟩
  · rw [hx] at hl
    rw [hy, hl]
  · have hdeclared : only n a' ≠ [] → only n a ≠ [] := by
      intro hne
      obtain ⟨m, hm⟩ := List.exists_mem_of_ne_nil _ hne
      obtain ⟨hma, hmn⟩ := mem_only.1 hm
      exact houtput hpre hx (hmn ▸ hnames m hma)
    rw [hx] at hl
    rw [hy]
    cases hheight : height true 0 q with
    | none => rw [walk_closed hheight (a' ++ f) (a ++ f), hl]
    | some m =>
      have hhere : Env.here ((a' ++ f) :: fs) n = true → Env.here ((a ++ f) :: fs) n = true := by
        rw [Env.here_cons, Env.here_cons, only_append, only_append]
        simp only [ne_eq, List.append_eq_nil_iff]
        tauto
      rcases find_over ((a ++ f) :: fs) ((a' ++ f) :: fs) hheight hname
        (fun _ => ⟨by simp, by simp, hhere⟩) with hsame | ⟨hbefore, hboth⟩
      · rw [hsame, hl]
      · -- nothing of the name is declared by the region or by what takes its place
        have hold := hbefore.symm.trans hl
        have hnone : only n a = [] := by
          by_contra hne
          obtain ⟨w, rest, hcons⟩ := List.exists_cons_of_ne_nil hne
          have hw : w ∈ only n a := by simp [hcons]
          rw [Env.find?_cons, only_append, hcons] at hold
          cases hold
          exact hnew (ha _ (mem_only.1 hw).1)
        have hnone' : only n a' = [] := by
          by_contra hne
          exact hdeclared hne hnone
        have hsame : only n (a' ++ f) = only n (a ++ f) := by
          rw [only_append, only_append, hnone, hnone']
        rw [hboth (by rw [Bool.eq_iff_iff, Env.here_cons, Env.here_cons, hsame]), ← hold,
          Env.find?_cons, Env.find?_cons, hsame]

section Inside

variable (hd : d.Reached) (hsize : d.size < 2 ^ 32) {t : Tag} {q c : List Event}

include hd hsize

theorem refer_taken (h : d.Lifts sel name next done)
    (hroute : Reroutes d next done.plan s pre x y post)
    (hplain : Reroutes.Plainly done.plan s x y post) (hx : x = q ++ .refer t n :: c)
    (hl : (walk (pre ++ q) []).find? n = some l) {k : Nat} (hk : d.scopes.bindingOf? t.id = some k)
    (hb : d.scopes.binding? k = some l.binding) (hkind : l.binding.kind = .localVar)
    (hn : n ∉ d.scopes.namesWithin done.plan.region.span) :
    ∃ b, (done.plan.edit d).function.Takes b ∧ b.name = n ∧
      next.scopes.site? t.id = some b.bare := by
  obtain ⟨es, rest, a, hafter, hwalk, hparams⟩ := hroute.moved hplain hx
  obtain ⟨rfl, hblank, _⟩ := added_of_find hl
  have hnode : .expr (.ident t l.name) ∈ done.plan.region.nodes := by
    rw [Region.mem_nodes_iff, ← hroute.met_eq]
    simp [hx, met, Event.node?]
  obtain ⟨i, hi⟩ := Region.exists_mem_params hnode hk hb hkind hn
  have hparam : l.name ∈ done.plan.params.map Capture.name := by
    rw [h.plan_eq.1]
    exact List.mem_map_of_mem (f := Prod.fst) hi
  have hne := (hparams.here l.name hblank).2 hparam
  -- the region adds no declaration of the name, so the parameter is found
  have hlevel := hroute.level
  rw [hx] at hlevel
  obtain ⟨m, hheight, _⟩ := Option.bind_eq_some_iff.1 ((height_append ..).symm.trans hlevel)
  have hquiet := hroute.quiet (h.encloses hd hsize) hn
  rw [hx] at hquiet
  have hhere : Env.here [a] l.name = true := (Env.here_cons a []).2 hne
  have hsame := (hquiet.left.find_over hheight hblank fun _ => hhere).2
  obtain ⟨w, ws, hcons⟩ := List.exists_cons_of_ne_nil hne
  obtain ⟨hw, hwname⟩ := mem_only.1 (show w ∈ only l.name a by simp [hcons])
  refine ⟨w.binding, hparams.takes w hw, hwname, (h.owned hd.owned).site_of_found hafter rfl ?_⟩
  change (walk es []).find? l.name = some w
  rw [hwalk, hsame, Env.find?_cons, hcons]
  rfl

omit hsize in
/-- Who refers to a variable whose name the region declares is bound to a declaration of the region
afterwards, or to no local variable. -/
theorem refer_dropped (h : d.Lifts sel name next done)
    (hroute : Reroutes d next done.plan s pre x y post)
    (hplain : Reroutes.Plainly done.plan s x y post) (hx : x = q ++ .refer t n :: c)
    (hblank : n ≠ "_") (hn : n ∈ d.scopes.namesWithin done.plan.region.span) {b : Binding}
    (hb : next.scopes.site? t.id = some b) (hkind : b.kind = .localVar) :
    b.name = n ∧ b.home ∈ done.plan.region.ids := by
  obtain ⟨es, rest, a, hafter, hwalk, hparams⟩ := hroute.moved hplain hx
  rcases hfind : (walk es []).find? n with _ | w
  · exact absurd hkind ((h.owned hd.owned).kind_of_not_found hafter hfind hb)
  · have hsite := (h.owned hd.owned).site_of_found hafter rfl hfind
    obtain rfl : w.binding.bare = b := Option.some.inj (hsite.symm.trans hb)
    rw [hwalk] at hfind
    obtain ⟨rfl, f, hf, hwf⟩ := Env.mem_of_find? hfind
    refine ⟨rfl, ?_⟩
    have hwx : w ∈ locals x := by
      rcases mem_walk hf hwf with ⟨g, hg, hwg⟩ | hadded
      · -- a parameter would have a name that the region declares
        obtain rfl := List.mem_singleton.1 hg
        have hnone := h.params_apart hparams w.name hn hblank
        exact absurd hnone (List.ne_nil_of_mem (mem_only.2 ⟨hwg, rfl⟩))
      · rw [hx, locals_append]
        exact List.mem_append_left _ (mem_added hadded).1.1
    rw [hplain.old] at hwx
    obtain ⟨⟨m, hm, hhome⟩, _⟩ := done.plan.region.fair.2.home hwx
    exact hhome ▸ Region.mem_ids_of_met hm

theorem refer_moved (h : d.Lifts sel name next done)
    (hroute : Reroutes d next done.plan s pre x y post)
    (hplain : Reroutes.Plainly done.plan s x y post) (hx : x = q ++ .refer t n :: c)
    (hl : (walk (pre ++ q) []).find? n = some l) (hnew : l ∉ locals pre) :
    next.scopes.site? t.id = some l.binding.bare := by
  obtain ⟨es, rest, a, hafter, hwalk, hparams⟩ := hroute.moved hplain hx
  refine (h.owned hd.owned).site_of_found hafter rfl ?_
  change (walk es []).find? n = some l
  rw [hwalk]
  rw [walk_append] at hl
  exact hroute.found_again (h.encloses hd hsize) hplain hx (h.params_apart hparams) [] hl hnew

omit hsize in
theorem range_moved (h : d.Lifts sel name next done)
    (hroute : Reroutes d next done.plan s pre x y post) {b : Binding} (hx : x = q ++ .range t b :: c)
    (hblank : b.name ≠ "_") (hvar : ¬ done.plan.region.IsVariable b) :
    next.scopes.site? t.id = some b.bare := by
  have hmem : .range t b ∈ x := by simp [hx]
  rcases hroute.turns_cases with hplain | ⟨rfl, _⟩ | ⟨rfl, _⟩ | ⟨v, b', parent, slot, hr, hb, rfl, _⟩
  · obtain ⟨es, rest, a, hafter, _⟩ := hroute.moved hplain hx
    exact (h.owned hd.owned).site_of_found (l := ⟨b, none⟩) hafter rfl (if_neg hblank)
  · exact absurd hmem range_not_mem_mute
  · exact absurd hmem range_not_mem_mute
  · cases List.mem_singleton.1 hmem
    exact absurd ⟨_, parent, slot, hr, hb⟩ hvar

end Inside

section Outside

variable (hd : d.Owned) {u k : Nat} {b : Binding}

include hd

theorem name_output (h : d.Lifts sel name next done)
    (hroute : Reroutes d next done.plan s pre x y post) (hu : u ∉ done.plan.region.ids)
    (hk : d.scopes.bindingOf? u = some k) (hb : d.scopes.binding? k = some b)
    (hkind : b.kind = .localVar) (hp : k ∈ done.plan.region.produced d.scopes) :
    b.name ∈ done.plan.outputNames := by
  obtain ⟨l, t, q, c, m, f, fs, rfl, rfl, _, _, hplain, _, hpost, hheight, _⟩ :=
    hroute.found_later hd hu hk hb hkind hp
  obtain ⟨stmts, owner, hr⟩ := Region.exists_statements hp
  obtain ⟨_, before, after, rest, hsplit, hafter⟩ := hroute.run_open hplain hr
  have hmem : .refer t l.binding.name ∈ Trail.stmts after :=
    Trail.mem_later (hafter.symm.trans hpost) hheight (by simp)
  have hlater : .expr (.ident t l.binding.name) ∈ done.plan.region.laterNodes :=
    (h.mem_laterNodes_iff hd hr hsplit).2 (List.mem_filterMap.2 ⟨_, hmem, rfl⟩)
  obtain ⟨i, hi⟩ := Region.exists_mem_outputs hlater hk hb hkind hp
  rw [h.plan_eq.2]
  exact List.mem_map_of_mem (f := Prod.fst) hi

/-- Who refers from outside to what a statement of the run declares finds what the call defines, or
what the scope around has had already. -/
theorem refer_returned (h : d.Lifts sel name next done)
    (hroute : Reroutes d next done.plan s pre x y post) (hu : u ∉ done.plan.region.ids)
    (hk : d.scopes.bindingOf? u = some k) (hb : d.scopes.binding? k = some b)
    (hkind : b.kind = .localVar) (hp : k ∈ done.plan.region.produced d.scopes) :
    ∃ w : Local, w.name = b.name ∧ next.scopes.site? u = some w.binding.bare ∧
      ((walk pre []).here b.name = false → (done.plan.edit d).replacement.Defines w.binding) ∧
      ((walk pre []).here b.name = true → (walk pre []).find? b.name = some w) := by
  have hout := h.name_output hd hroute hu hk hb hkind hp
  obtain ⟨l, t, q, c, m, f, fs, rfl, rfl, _, hnew, hplain, hopen, hpost, hheight, _, hfound⟩ :=
    hroute.found_later hd hu hk hb hkind hp
  obtain ⟨stmts, owner, hr⟩ := Region.exists_statements hp
  obtain ⟨a, ha, _⟩ := Level.walk_cons hroute.level f fs
  obtain ⟨a', ha', hdefined, houtputs⟩ := hroute.spot.walk_new f fs
  have hblank : l.name ≠ "_" := by
    rw [← hopen, ← walk_append, ← walk_append] at hfound
    exact (added_of_find hfound).2.1
  have hlater : l ∉ locals q := fun hl => hnew (by rw [hpost]; simp [locals_append, hl])
  have hne : only l.name (a' ++ f) ≠ [] := houtputs stmts owner hr _ hout hblank
  have hold : only l.name (a ++ f) ≠ [] := by
    rw [only_append]
    exact List.append_ne_nil_of_left_ne_nil (h.only_output hd hroute hopen (hopen ▸ ha) hout) _
  rw [ha] at hfound
  -- nothing behind the run declares what is found, so the walk over the call finds it at once
  have hfind : (walk q ((a' ++ f) :: fs)).find? l.name = Env.find? ((a' ++ f) :: fs) l.name := by
    have hhere : Env.here ((a ++ f) :: fs) l.name = true := (Env.here_cons ..).2 hold
    have hhere' : Env.here ((a' ++ f) :: fs) l.name = true := (Env.here_cons ..).2 hne
    rcases find_over ((a ++ f) :: fs) ((a' ++ f) :: fs) hheight hblank
      (fun _ => ⟨by simp, by simp, fun _ => hhere⟩) with hsame | ⟨_, hboth⟩
    · have hnow := hsame.trans hfound
      exact hnow.trans (find_before hheight hblank (by simp) hnow hlater).symm
    · exact hboth (hhere.trans hhere'.symm)
  obtain ⟨w, ws, hcons⟩ := List.exists_cons_of_ne_nil hne
  have hw : w ∈ only l.name (a' ++ f) := by simp [hcons]
  refine ⟨w, (mem_only.1 hw).2, ?_, fun hhere => ?_, fun hhere => ?_⟩
  · have hafter := hroute.after
    have hsplit : pre ++ y ++ post ++ Trail.func (done.plan.edit d).function =
        (pre ++ s.new ++ q) ++ .refer t l.name ::
          (c ++ Trail.func (done.plan.edit d).function) := by
      simp [hplain.new, hpost, Local.name]
    rw [hsplit] at hafter
    refine (h.owned hd).site_of_found hafter rfl ?_
    change (walk (pre ++ s.new ++ q) []).find? l.name = some w
    rw [walk_append, walk_append, hopen, ha', hfind, Env.find?_cons, hcons]
    rfl
  · have hnone : only l.name f = [] := by
      by_contra hf
      have hthere := (Env.here_cons f fs).2 hf
      rw [hopen] at hhere
      exact absurd (hhere.symm.trans hthere) (by simp)
    rw [only_append, hnone, List.append_nil] at hw
    exact (hdefined w (mem_only.1 hw).1).1
  · have hf : only l.name f ≠ [] := by
      rw [hopen] at hhere
      exact (Env.here_cons f fs).1 hhere
    have hsame := hroute.spot.only_new hblank hf ha'
    change (walk pre []).find? l.name = some w
    rw [hopen, Env.find?_cons, ← hsame, hcons]
    rfl

end Outside

section Places

variable (hd : d.Reached) {u k : Nat} {e : Event} {a c : List Event}
  (htrail : d.file.trail = a ++ e :: c) (he : e.user? = some u)
  (hfound : e.found? (walk a []) = some l) (hl : Stands d.scopes k l)

include hd htrail he hfound hl

theorem rebound_left (h : d.Lifts sel name next done)
    (hroute : Reroutes d next done.plan s pre x y post) (hu : u ∉ done.plan.region.ids)
    (hout : l ∈ locals (pre ++ post)) (hx : l ∉ locals x) {f : FuncDecl} {r : Replacement} :
    Rebound d next done f r u k l.binding := by
  obtain ⟨hhome, hnote⟩ := hroute.outside hd.owned hout
  have hp : k ∉ done.plan.region.produced d.scopes := by
    intro hp
    obtain ⟨id, hid, hln⟩ := Reroutes.noted hp hl
    exact hnote id hln hid
  refine ⟨fun hin => absurd hin hu, fun hin => absurd hin hu, fun _ hk => absurd hk hp,
    fun _ hk => absurd hk hp, fun _ => ?_⟩
  have hafter := hroute.after
  rcases hroute.found_outside hu htrail he with ⟨q, hpre⟩ | ⟨q, rfl, hpost⟩
  · have hsplit : pre ++ y ++ post ++ Trail.func (done.plan.edit d).function =
        a ++ e :: (q ++ y ++ post ++ Trail.func (done.plan.edit d).function) := by simp [hpre]
    rw [hsplit] at hafter
    exact (h.owned hd.owned).site_of_found hafter he hfound
  · have hsplit : pre ++ y ++ post ++ Trail.func (done.plan.edit d).function =
        (pre ++ y ++ q) ++ e :: (c ++ Trail.func (done.plan.edit d).function) := by simp [hpost]
    rw [hsplit] at hafter
    refine (h.owned hd.owned).site_of_found hafter he ?_
    cases e with
    | refer t n =>
      exact h.found_behind hd.owned hroute (added_of_find hfound).2.1 hfound hx
    | range t b => exact hfound
    | _ => cases he

omit htrail he hfound in
theorem rebound_returned (h : d.Lifts sel name next done)
    (hroute : Reroutes d next done.plan s pre x y post) (hu : u ∉ done.plan.region.ids)
    (hk : d.scopes.bindingOf? u = some k) (hkind : l.binding.kind = .localVar)
    (hhome : l.binding.home ∈ done.plan.region.ids) {f : FuncDecl} :
    Rebound d next done f (done.plan.edit d).replacement u k l.binding := by
  refine ⟨fun hin => absurd hin hu, fun hin => absurd hin hu, fun _ hp hhere => ?_,
    fun _ hp hhere => ?_, fun hiff => absurd (hiff.2 hhome) hu⟩
  all_goals
    obtain ⟨w, hname, hsite, hnew, hold⟩ :=
      h.refer_returned hd.owned hroute hu hk hl.binding hkind hp
    rw [h.openAt_first hd.owned hroute] at *
  · exact ⟨w.binding, hnew hhere, hname, hsite⟩
  · exact ⟨w, hold hhere, hsite⟩

/-- Where an identifier is taken along, it gets a parameter for a declaration that is left, and keeps
one that is taken along as well. -/
theorem rebound_taken (h : d.Lifts sel name next done) (hsize : d.size < 2 ^ 32)
    (hroute : Reroutes d next done.plan s pre x y post) (hu : u ∈ done.plan.region.ids)
    (hk : d.scopes.bindingOf? u = some k) (hkind : l.binding.kind = .localVar)
    (hvar : ¬ done.plan.region.IsVariable l.binding) {r : Replacement} :
    Rebound d next done ((done.plan.edit d).settledFunction d) r u k l.binding := by
  obtain ⟨q, rest, hx, rfl, rfl⟩ := hroute.found_inside hd.owned hu htrail he
  have hinside : l ∈ locals x → l.binding.home ∈ done.plan.region.ids := fun hlx =>
    (hroute.home_local hlx).resolve_right hvar
  have hkept : l.binding.home ∈ done.plan.region.ids →
      next.scopes.site? u = some l.binding.bare →
      Rebound d next done ((done.plan.edit d).settledFunction d) r u k l.binding := fun hhome hsite =>
    ⟨fun _ hno => absurd hhome hno, fun _ hno => absurd hhome hno, fun hno => absurd hu hno,
      fun hno => absurd hu hno, fun _ => hsite⟩
  cases e with
  | refer t n =>
    cases he
    obtain ⟨rfl, hblank, hadded⟩ := added_of_find hfound
    have hplain := hroute.plain_of_refer (t := t) (n := l.name) (by simp [hx])
    by_cases hpre : l ∈ locals pre
    · have hhome := (hroute.outside hd.owned (l := l) (by simp [locals_append, hpre])).1
      refine ⟨fun _ _ hn => ?_, fun _ _ hn => ⟨fun hparam => ?_, fun c hc hckind => ?_⟩,
        fun hno => absurd hu hno, fun hno => absurd hu hno, fun hiff => absurd (hiff.1 hu) hhome⟩
      · obtain ⟨b, hb, hbname, hsite⟩ :=
          h.refer_taken hd hsize hroute hplain hx hfound hk hl.binding hkind hn
        obtain ⟨b', hb', hbare⟩ := (done.plan.edit d).takes_settledFunction d hb
        have hname : b'.bare.name = b.bare.name := by rw [hbare]
        exact ⟨b', hb', hname.trans hbname, hbare ▸ hsite⟩
      · obtain ⟨i, hi⟩ := h.exists_param hparam
        obtain ⟨_, _, _, _, _, _, _, hout⟩ := Region.of_mem_params hi
        exact hout hn
      · exact h.refer_dropped hd hroute hplain hx hblank hn hc hckind
    · have hlx : l ∈ locals x := by
        have hlocal := (mem_added hadded).1.1
        rw [locals_append] at hlocal
        rw [hx, locals_append]
        exact List.mem_append_left _ ((List.mem_append.1 hlocal).resolve_left hpre)
      exact hkept (hinside hlx) (h.refer_moved hd hsize hroute hplain hx hfound hpre)
  | range t b =>
    cases he
    simp only [Event.found?] at hfound
    split at hfound
    · cases hfound
    · rename_i hblank
      cases hfound
      have hlx : ⟨b, none⟩ ∈ locals x := by
        rw [hx, locals_append]
        exact List.mem_append_right _ (by simp [locals, Event.local?])
      exact hkept (hinside hlx) (h.range_moved hd hroute hx hblank hvar)
  | _ => cases he

theorem rebound (h : d.Lifts sel name next done) (hsize : d.size < 2 ^ 32)
    (hk : d.scopes.bindingOf? u = some k) (hkind : l.binding.kind = .localVar)
    (hvar : ¬ done.plan.region.IsVariable l.binding) :
    Rebound d next done ((done.plan.edit d).settledFunction d) (done.plan.edit d).replacement u k
      l.binding := by
  obtain ⟨s, pre, x, y, post, hroute⟩ := h.reroutes hd.owned
  by_cases hu : u ∈ done.plan.region.ids
  · exact h.rebound_taken hd htrail he hfound hl hsize hroute hu hk hkind hvar
  have hinside : l ∈ locals x → l.binding.home ∈ done.plan.region.ids := fun hlx =>
    (hroute.home_local hlx).resolve_right hvar
  by_cases hout : l ∈ locals (pre ++ post)
  · have hx : l ∉ locals x := fun hlx => (hroute.outside hd.owned hout).1 (hinside hlx)
    exact h.rebound_left hd htrail he hfound hl hroute hu hout hx
  · have hlx : l ∈ locals x := by
      have hsplit : (a ++ [e]) ++ c = pre ++ x ++ post := by
        rw [List.append_assoc, List.singleton_append, ← htrail, hroute.before]
      have hlocal : l ∈ locals (pre ++ x ++ post) := by
        rw [← hsplit, locals_append]
        exact List.mem_append_left _ (local_of_found hfound)
      simp only [locals_append, List.mem_append] at hlocal hout
      tauto
    exact h.rebound_returned hd hl hroute hu hk hkind (hinside hlx)

end Places

end Document.Lifts

/-- In every document of a session a lift keeps the identifiers that were bound to local variables, as
far as the names allow it. Nothing is said about a range clause whose variable is lifted itself. -/
theorem Document.Reached.lift_rebound {d : Document} (hd : d.Reached) (hsize : d.size < 2 ^ 32) :
    ∀ s name next done, d.lift s name = .ok (next, done) → ∃ f r, Conserved d next done f r ∧
      ∀ u k b, d.scopes.bindingOf? u = some k → d.scopes.binding? k = some b → b.kind = .localVar →
        ¬ done.plan.region.IsVariable b → Rebound d next done f r u k b := by
  intro s name next done hlift
  have h := lifts hd.owned hlift
  refine ⟨_, _, h.keeps_settled hd.owned, fun u k b hk hb hkind hvar => ?_⟩
  obtain ⟨a, e, c, l, htrail, he, hfound, hl, rfl⟩ := hd.owned.found hk hb hkind
  exact h.rebound hd htrail he hfound hl hsize hk hkind hvar

/-- There is an identifier that is bound to a local variable with a certain property. -/
def Document.anyUse (d : Document) (q : Tag → Binding → Bool) : Bool :=
  d.file.nodes.any fun x => x.ident?.any fun p => (d.scopes.bindingOf? p.1.id).any fun k =>
    (d.scopes.binding? k).any fun b => decide (b.kind = .localVar) && q p.1 b

theorem Document.exists_use {d : Document} {q : Tag → Binding → Bool} (h : d.anyUse q = true) :
    ∃ t n k b, .expr (.ident t n) ∈ d.file.nodes ∧ d.scopes.bindingOf? t.id = some k ∧
      d.scopes.binding? k = some b ∧ b.kind = .localVar ∧ q t b = true := by
  obtain ⟨x, hx, hany⟩ := List.any_eq_true.1 h
  obtain ⟨⟨t, n⟩, hident, hany⟩ := (Option.any_eq_true _ _).1 hany
  obtain ⟨k, hk, hany⟩ := (Option.any_eq_true _ _).1 hany
  obtain ⟨b, hb, hany⟩ := (Option.any_eq_true _ _).1 hany
  obtain ⟨hkind, hq⟩ := Bool.and_eq_true_iff.1 hany
  obtain rfl := Node.ident?_eq_some.1 hident
  exact ⟨t, n, k, b, hx, hk, hb, of_decide_eq_true hkind, hq⟩

/-- A run that takes its variable as a parameter. -/
theorem Document.Reached.lift_rebound_run : ∃ d next done u k b, d.Reached ∧ d.size < 2 ^ 32 ∧
    d.lift ⟨⟨4, 2⟩, ⟨4, 12⟩⟩ "Next" = .ok (next, done) ∧ d.scopes.bindingOf? u = some k ∧
      d.scopes.binding? k = some b ∧ b.kind = .localVar ∧ ¬ done.plan.region.IsVariable b ∧
      u ∈ done.plan.region.ids ∧ b.home ∉ done.plan.region.ids ∧
      ∃ f r, Conserved d next done f r ∧ Rebound d next done f r u k b := by
  obtain ⟨d, next, done, hread, hlift, hcheck⟩ := exists_lift
    "package p\n\nfunc f(a int) int \x7b\n\tb := a + 1\n\treturn b\n\x7d\n" ⟨⟨4, 2⟩, ⟨4, 12⟩⟩ "Next"
    (fun d _ done => decide (d.size < 2 ^ 32) && d.anyUse fun t b =>
      decide (t.id ∈ done.plan.region.ids ∧ b.home ∉ done.plan.region.ids ∧
        b.span ≠ done.plan.region.span)) (by decide +kernel)
  obtain ⟨hsize, huse⟩ := Bool.and_eq_true_iff.1 hcheck
  replace hsize := of_decide_eq_true hsize
  obtain ⟨t, n, k, b, _, hk, hb, hkind, hq⟩ := exists_use huse
  obtain ⟨hu, hhome, hspan⟩ := of_decide_eq_true hq
  have hvar : ¬ done.plan.region.IsVariable b := fun hvar => hspan hvar.span_eq
  obtain ⟨f, r, hconserved, hrebound⟩ := lift_rebound (.read hread) hsize _ _ _ _ hlift
  exact ⟨d, next, done, t.id, k, b, .read hread, hsize, hlift, hk, hb, hkind, hvar, hu, hhome, f, r,
    hconserved, hrebound t.id k b hk hb hkind hvar⟩

/-- After a lift an identifier that was bound to a local variable is bound to nothing, or to another
declaration that was there before. -/
def Document.Loses (source : String) (s : Selection) (name : String) : Prop :=
  ∃ d next done t n k b, ofSource source = .ok d ∧ d.lift s name = .ok (next, done) ∧
    .expr (.ident t n) ∈ d.file.nodes ∧ d.scopes.bindingOf? t.id = some k ∧
    d.scopes.binding? k = some b ∧ b.kind = .localVar ∧
    ∀ c, next.scopes.site? t.id = some c →
      c.home ≠ b.home ∧ c.home ∈ d.file.nodes.map fun x => x.tag.id

theorem Document.loses_of_liftable {source : String} {s : Selection} {name : String}
    (h : liftable source s name (fun d next _ => d.anyUse fun t b => (next.scopes.site? t.id).all
      fun c => decide (c.home ≠ b.home ∧ c.home ∈ d.file.nodes.map fun x => x.tag.id)) = true) :
    Loses source s name := by
  obtain ⟨d, next, done, hread, hlift, hcheck⟩ := exists_lift source s name _ h
  obtain ⟨t, n, k, b, hn, hk, hb, hkind, hlost⟩ := exists_use hcheck
  refine ⟨d, next, done, t, n, k, b, hread, hlift, hn, hk, hb, hkind, fun c hc => ?_⟩
  rw [hc] at hlost
  exact of_decide_eq_true hlost

/-- What an identifier was bound to gets lost if the region declares the name once more, if the run
declared what its scope had already, if the declaration has a label, and if the variable of a range
clause is all that is lifted. -/
theorem Document.lift_loses :
    Loses "package p\n\nfunc f() \x7b\n\tx := 1\n\tprintln(x)\n\t\x7b\n\t\tx := 2\n\t\tprintln(x)\n\t\x7d\n\x7d\n"
      ⟨⟨5, 2⟩, ⟨9, 3⟩⟩ "Show" ∧
    Loses "package p\n\nfunc f() \x7b\n\tx := 1\n\tvar x = 2\n\tprintln(x)\n\x7d\n"
      ⟨⟨5, 2⟩, ⟨5, 11⟩⟩ "Show" ∧
    Loses "package p\n\nfunc f() \x7b\nL:\n\tx := 1\n\tprintln(x)\n\x7d\n"
      ⟨⟨4, 1⟩, ⟨5, 8⟩⟩ "Show" ∧
    Loses "package p\n\nfunc f(xs []int) \x7b\n\tfor i := range xs \x7b\n\t\tprintln(i)\n\t\x7d\n\x7d\n"
      ⟨⟨4, 6⟩, ⟨4, 7⟩⟩ "Show" := by
  refine ⟨loses_of_liftable ?_, loses_of_liftable ?_, loses_of_liftable ?_, loses_of_liftable ?_⟩
  all_goals decide +kernel

end FuncLift
