import FuncLift.Proofs.Apart
import FuncLift.Proofs.Captures
import FuncLift.Proofs.Carried

/-!
# What the call and the return stand for

A parameter of the new function stands for one variable, declared outside of the region, which all
references of that name in the region are bound to; the argument of the call is bound to that
variable. A value that the new function returns is bound to the variable that the region declares
and later statements refer to.
-/
namespace FuncLift

open Outline

namespace Reroutes

variable {d next : Document} {p : Plan} {s : Spot} {pre x y post : List Event}

structure Plainly (p : Plan) (s : Spot) (x y post : List Event) : Prop where
  old : x = p.region.trail
  new : y = s.new
  tail : ∃ rest, post = s.tail ++ rest

theorem plain_of_refer (h : Reroutes d next p s pre x y post) {t : Tag} {n : String}
    (hx : .refer t n ∈ x) : Plainly p s x y post := by
  rcases h.turns.plain_or with ⟨hold, hnew, htail⟩ | hmute | ⟨t, b, hrange⟩
  · exact ⟨hold.trans h.spot.old, hnew, htail⟩
  · rw [hmute] at hx
    obtain ⟨_, _, hpass⟩ := List.mem_map.1 hx
    cases hpass
  · rw [hrange] at hx
    cases List.mem_singleton.1 hx

/-- A region with a declaration that is noted for a statement is replaced as it stands. -/
theorem plain_of_note (h : Reroutes d next p s pre x y post) {l : Local} (hl : l ∈ locals x)
    (hnote : l.note ≠ none) : Plainly p s x y post := by
  rcases h.turns.plain_or with ⟨hold, hnew, htail⟩ | hmute | ⟨t, b, hrange⟩
  · exact ⟨hold.trans h.spot.old, hnew, htail⟩
  · rw [hmute, locals_mute] at hl
    cases hl
  · obtain rfl : l = ⟨b, none⟩ := by simpa [hrange, locals, Event.local?] using hl
    exact absurd rfl hnote

/-- A reference of the region to a name that the region does not declare is bound to what the name
stands for before the region, and so is every other one to the same name. -/
theorem bound_before (h : Reroutes d next p s pre x y post) (hd : d.Owned) (hr : p.region.Encloses) :
    ∃ r : Resolver, ∀ u ∈ p.region.ids, ∀ k b, d.scopes.bindingOf? u = some k →
      d.scopes.binding? k = some b → b.kind = .localVar →
      b.name ∉ d.scopes.namesWithin p.region.span →
      r.frames.lookup? b.name = some k ∧ ∃ l, (walk pre []).find? b.name = some l ∧
        l.binding = b ∧ ∃ (t : Tag) (q c : List Event), t.id = u ∧
          x = q ++ Event.refer t b.name :: c := by
  obtain ⟨r, hagrees, hscopes, _⟩ :=
    Document.scopes_split (h.before.trans (List.append_assoc pre x post))
  refine ⟨r, fun u hu k b hk hb hkind hname => ?_⟩
  obtain ⟨a, e, c, l, htrail, heu, hfound, hstands, rfl⟩ := hd.found hk hb hkind
  obtain ⟨q, c', rfl, rfl, rfl⟩ := h.found_inside hd hu htrail heu
  have hquiet := h.quiet hr hname
  obtain ⟨m, hheight, _⟩ := Option.bind_eq_some_iff.1 ((height_append ..).symm.trans h.level)
  cases e with
  | refer t n =>
    cases heu
    obtain ⟨rfl, hblank, _⟩ := added_of_find hfound
    replace hfound : (walk q (walk pre [])).find? l.name = some l := by
      rw [← walk_append]
      exact hfound
    have hsame := (hquiet.left.find_over hheight hblank id).1
    have hnumber := hquiet.left.lookup hblank hheight hagrees (u := []) (b := r.frames) rfl rfl rfl
    obtain ⟨hthere, _⟩ := hagrees.run q
    have hplay : d.scopes = (playAll (.refer t l.name :: (c' ++ post))
        (playAll q r).2).2.table := by
      rw [hscopes, List.append_assoc, playAll_append]
      rfl
    refine ⟨?_, l, hsame.symm.trans hfound, rfl, t, q, c', rfl, rfl⟩
    rcases hthere.lookup l.name with ⟨_, hnone⟩ | ⟨i, _, hi, _, _⟩
    · rw [hnone] at hfound
      cases hfound
    · have hbound := Document.bindingOf_play hthere hplay (hd.user_once htrail rfl).2 hi
      obtain rfl : i = k := Option.some.inj (hbound.symm.trans hk)
      exact hnumber.symm.trans hi
  | range t b =>
    -- the region would declare the name itself
    simp only [Event.found?] at hfound
    split at hfound
    · cases hfound
    · rename_i hblank
      cases hfound
      refine absurd rfl (hquiet ⟨b, none⟩ ?_)
      have hadded : (Event.range t b).added? (walk q (walk pre [])) = some ⟨b, none⟩ :=
        Event.added_eq (l := ⟨b, none⟩) rfl hblank _
      rw [added_append, added, hadded]
      simp
  | _ => cases heu

/-- A run of statements stands in an open scope, which is closed behind the list. -/
theorem run_open (h : Reroutes d next p s pre x y post) (hplain : Plainly p s x y post)
    {stmts : List Stmt} {owner : Owner} (hr : p.region = .statements stmts owner) :
    (∃ f fs, walk pre [] = f :: fs) ∧ ∃ before after rest,
      owner.stmts = before ++ stmts ++ after ∧ post = Trail.stmts after ++ Event.closeScope :: rest := by
  have hspot := h.spot
  rw [Plan.IsSpot, hr] at hspot
  obtain ⟨call, st, before, after, _, _, _, hsplit, rfl⟩ := hspot
  obtain ⟨rest, hpost⟩ := hplain.tail
  have hpost : post = Trail.stmts after ++ Event.closeScope :: rest := by
    rw [hpost, Spot.ofRun, List.append_assoc]
    rfl
  refine ⟨?_, before, after, rest, hsplit, hpost⟩
  -- with no scope open, the trail would close one too many
  cases hwalk : walk pre [] with
  | cons f fs => exact ⟨f, fs, rfl⟩
  | nil =>
    have htrail : Level false d.file.trail := (Fair.trail d.file).1
    rw [h.before, List.append_assoc] at htrail
    obtain ⟨n, hn, hrest⟩ := Option.bind_eq_some_iff.1 ((height_append ..).symm.trans htrail)
    obtain rfl : n = 0 := by rw [← length_walk hn, hwalk]; rfl
    have hweak := height_weaken hrest
    have hrun : height true 0 (Trail.stmts after) = some 0 := (Fair.stmts (fun _ => False) after).1
    rw [height_append, h.level, Option.bind_some, hpost, height_append, hrun] at hweak
    cases hweak

section Produced

variable {u k : Nat} {b : Binding} {l : Local}

theorem noted (hp : k ∈ p.region.produced d.scopes) (hl : Stands d.scopes k l) :
    ∃ id ∈ p.region.ids, l.note = some id := by
  obtain ⟨stmts, owner, hr⟩ := Region.exists_statements hp
  rw [hr] at hp ⊢
  obtain ⟨st, hst, hk⟩ := List.mem_flatMap.1 hp
  refine ⟨st.tag.id, ?_, (hl.note _).1 (Scopes.mem_declaredBy.1 hk)⟩
  refine List.mem_map.2 ⟨.stmt st, ?_, rfl⟩
  rw [Region.nodes, Region.roots, flatMap_nodes none]
  refine List.mem_map.2 ⟨⟨none, .stmt st⟩, ?_, rfl⟩
  refine mem_linksAll (o := ofStmt st) (List.mem_map_of_mem hst) ?_
  cases st <;> exact List.mem_cons_self

/-- Whoever refers to what a statement of the region declares finds it as a declaration of the
region. -/
theorem found_produced (h : Reroutes d next p s pre x y post) (hd : d.Owned)
    (hk : d.scopes.bindingOf? u = some k) (hb : d.scopes.binding? k = some b)
    (hkind : b.kind = .localVar) (hp : k ∈ p.region.produced d.scopes) :
    ∃ (l : Local) (t : Tag) (q c : List Event), l.binding = b ∧ t.id = u ∧ l ∈ locals x ∧ l ∉ locals (pre ++ post) ∧
      Plainly p s x y post ∧ d.file.trail = q ++ Event.refer t b.name :: c ∧
      (walk q []).find? b.name = some l := by
  obtain ⟨a, e, c, l, htrail, heu, hfound, hstands, rfl⟩ := hd.found hk hb hkind
  obtain ⟨id, hid, hnote⟩ := noted hp hstands
  have hnew : l ∉ locals (pre ++ post) := fun hl => (h.outside hd hl).2 id hnote hid
  cases e with
  | refer t n =>
    cases heu
    obtain ⟨rfl, _, hadded⟩ := added_of_find hfound
    have hlocal : l ∈ locals (pre ++ x ++ post) := by
      rw [← h.before, htrail, locals_append]
      exact List.mem_append_left _ (mem_added hadded).1.1
    have hx : l ∈ locals x := by
      simp only [locals_append, List.mem_append] at hlocal hnew
      tauto
    have hplain := h.plain_of_note hx (by rw [hnote]; simp)
    exact ⟨l, t, a, c, rfl, rfl, hx, hnew, hplain, htrail, hfound⟩
  | range t b =>
    simp only [Event.found?] at hfound
    split at hfound
    · cases hfound
    · cases hfound
      cases hnote
  | _ => cases heu

/-- Whoever refers to it from outside of the region stands behind the region, in the scope of its
list, and the name stands for it right behind the region. -/
theorem found_later (h : Reroutes d next p s pre x y post) (hd : d.Owned)
    (hu : u ∉ p.region.ids) (hk : d.scopes.bindingOf? u = some k)
    (hb : d.scopes.binding? k = some b) (hkind : b.kind = .localVar)
    (hp : k ∈ p.region.produced d.scopes) :
    ∃ (l : Local) (t : Tag) (q c : List Event) (n : Nat) (f : List Local) (fs : Env),
      l.binding = b ∧ t.id = u ∧ l ∈ locals x ∧ l ∉ locals (pre ++ post) ∧
      Plainly p s x y post ∧ walk pre [] = f :: fs ∧ post = q ++ Event.refer t b.name :: c ∧
      height true 0 q = some n ∧ (walk x (f :: fs)).find? b.name = some l ∧
      (walk q (walk x (f :: fs))).find? b.name = some l := by
  obtain ⟨l, t, a, c, rfl, rfl, hx, hnew, hplain, htrail, hfound⟩ :=
    h.found_produced hd hk hb hkind hp
  obtain ⟨stmts, owner, hr⟩ := Region.exists_statements hp
  obtain ⟨⟨f, fs, hopen⟩, _⟩ := h.run_open hplain hr
  have hlocals : l ∉ locals pre ∧ l ∉ locals post := by simpa using hnew
  obtain ⟨_, hblank, hadded⟩ := added_of_find hfound
  have hlocal := (mem_added hadded).1.1
  rcases h.found_outside hu htrail rfl with ⟨q, hpre⟩ | ⟨q, rfl, hpost⟩
  · rw [hpre, locals_append] at hlocals
    exact absurd (List.mem_append_left _ hlocal) hlocals.1
  · have hq : l ∉ locals q := fun hl => hlocals.2 (by rw [hpost, locals_append]; simp [hl])
    rw [walk_append, walk_append, hopen] at hfound
    obtain ⟨a, ha, _⟩ := Level.walk_cons h.level f fs
    refine ⟨l, t, q, c, ?_⟩
    cases hheight : height true 0 q with
    | none =>
      -- the scope is closed, so that the name would stand for something before the region
      rw [ha, walk_closed hheight (a ++ f) f fs, ← hopen, ← walk_append] at hfound
      have hbefore := (mem_added (added_of_find hfound).2.2).1.1
      rw [locals_append, List.mem_append] at hbefore
      exact absurd hbefore (not_or_intro hlocals.1 hq)
    | some n =>
      have hbehind : (walk x (f :: fs)).find? l.name = some l :=
        find_before hheight hblank (fun _ => by rw [ha]; simp) hfound hq
      exact ⟨n, f, fs, rfl, rfl, hx, hnew, hplain, hopen, hpost, rfl, hbehind, hfound⟩

end Produced

theorem level_open (h : Reroutes d next p s pre x y post) (hplain : Plainly p s x y post) :
    ∃ k, Level k x ∧ (k = true → walk pre [] ≠ []) := by
  cases hregion : p.region with
  | expression e parent slot =>
    refine ⟨false, ?_, fun h => by cases h⟩
    rw [hplain.old, hregion]
    exact (Fair.expr (fun _ => False) e).1
  | statements stmts owner =>
    obtain ⟨⟨f, fs, hopen⟩, _⟩ := h.run_open hplain hregion
    exact ⟨true, h.level, fun _ => by rw [hopen]; simp⟩

/-- What the region finds and what is not declared before it is found in the new function too, since
no parameter has the name of something that the region declares. -/
theorem found_again (h : Reroutes d next p s pre x y post) (hr : p.region.Encloses)
    (hplain : Plainly p s x y post) {q c : List Event} (hx : x = q ++ c) {a : List Local}
    (ha : ∀ n ∈ d.scopes.namesWithin p.region.span, n ≠ "_" → only n a = []) (env : Env)
    {n : String} {l : Local} (hl : (walk q (walk pre [])).find? n = some l) (hnew : l ∉ locals pre) :
    (walk q (a :: env)).find? n = some l := by
  obtain ⟨k, hlevel, hopen⟩ := h.level_open hplain
  rw [hx] at hlevel
  obtain ⟨m, hheight, _⟩ := Option.bind_eq_some_iff.1 ((height_append ..).symm.trans hlevel)
  have hbefore (f : List Local) (hf : f ∈ walk pre []) : l ∉ f := by
    intro hlf
    rcases mem_walk hf hlf with ⟨g, hg, _⟩ | hadded
    · cases hg
    · exact hnew (mem_added hadded).1.1
  obtain ⟨rfl, f, hf, hlf⟩ := Env.mem_of_find? hl
  have hadded : l ∈ added (walk pre []) q :=
    (mem_walk hf hlf).resolve_left fun ⟨g, hg, hlg⟩ => hbefore g hg hlg
  have hin : l.name ∈ d.scopes.namesWithin p.region.span := by
    refine h.within hr ?_
    rw [hx, added_append]
    exact List.mem_append_left _ hadded
  have hblank := (mem_added hadded).1.2
  have hhere : Env.here (a :: env) l.name = true → (walk pre []).here l.name = true :=
    fun hhere => absurd (ha _ hin hblank) ((Env.here_cons a env).1 hhere)
  rcases find_over (walk pre []) (a :: env) hheight hblank
    (fun hk => ⟨hopen hk, by simp, hhere⟩) with hsame | ⟨hold, _⟩
  · rw [hsame, hl]
  · obtain ⟨_, g, hg, hlg⟩ := Env.mem_of_find? (hold.symm.trans hl)
    exact absurd hlg (hbefore g hg)

end Reroutes

/-- What the parameters of the new function `f` and its outputs stand for. The call is in `r`. -/
structure Captured (d next : Document) (done : Lifted) (f : FuncDecl) (r : Replacement) : Prop where
  /-- A parameter stands for one variable from outside of the region: all references of that name in
  the region are bound to it, and so is the argument. -/
  params : ∀ c ∈ done.plan.params, ∃ k b,
    (c.name, k) ∈ (done.plan.region.captures d.scopes).params ∧ d.scopes.binding? k = some b ∧
    b.kind = .localVar ∧ b.name = c.name ∧ b.home ∉ done.plan.region.ids ∧
    (∀ u ∈ done.plan.region.ids, ∀ i x, d.scopes.bindingOf? u = some i →
      d.scopes.binding? i = some x → x.kind = .localVar → x.name = c.name → i = k) ∧
    ∀ e ∈ r.arguments, e.identName? = some c.name → next.scopes.site? e.tag.id = some b.bare
  arguments : r.arguments.map Expr.identName? = done.plan.params.map fun c => some c.name
  /-- An output is declared in the region, and the value that is returned is bound to it. -/
  outputs : ∀ c ∈ done.plan.outputs, ∃ k b,
    (c.name, k) ∈ (done.plan.region.captures d.scopes).outputs ∧ d.scopes.binding? k = some b ∧
    b.kind = .localVar ∧ b.name = c.name ∧ b.home ∈ done.plan.region.ids ∧
    ∀ e ∈ f.returned, e.identName? = some c.name → next.scopes.site? e.tag.id = some b.bare
  returned : done.plan.outputs ≠ [] →
    f.returned.map Expr.identName? = done.plan.outputs.map fun c => some c.name

namespace Document.Lifts

variable {d next : Document} {sel : Selection} {name : String} {done : Lifted} {s : Spot}
  {pre x y post : List Event} {n : String} {k : Nat}

theorem param_bound (h : d.Lifts sel name next done) (hd : d.Reached) (hsize : d.size < 2 ^ 32)
    (hroute : Reroutes d next done.plan s pre x y post)
    (hn : (n, k) ∈ (done.plan.region.captures d.scopes).params) :
    ∃ b, d.scopes.binding? k = some b ∧ b.kind = .localVar ∧ b.name = n ∧
      b.home ∉ done.plan.region.ids ∧
      (∀ u ∈ done.plan.region.ids, ∀ i x, d.scopes.bindingOf? u = some i →
        d.scopes.binding? i = some x → x.kind = .localVar → x.name = n → i = k) ∧
      ∀ e ∈ (done.plan.edit d).replacement.arguments, e.identName? = some n →
        next.scopes.site? e.tag.id = some b.bare := by
  obtain ⟨e, b, he, hk, hb, hkind, rfl, hname⟩ := Region.of_mem_params hn
  obtain ⟨r, hbound⟩ := hroute.bound_before hd.owned (h.encloses hd hsize)
  obtain ⟨hlookup, l, hl, rfl, t, q, c, _, hx⟩ :=
    hbound e.tag.id (List.mem_map_of_mem he) k b hk hb hkind hname
  have hlocal : l ∈ locals (pre ++ post) := by
    rw [locals_append]
    exact List.mem_append_left _ (mem_added (added_of_find hl).2.2).1.1
  refine ⟨l.binding, hb, hkind, rfl, (hroute.outside hd.owned hlocal).1,
    fun u hu i c hi hc hckind hcname => ?_, fun a ha haname => ?_⟩
  · have hother := (hbound u hu i c hi hc hckind (hcname ▸ hname)).1
    rw [hcname] at hother
    exact Option.some.inj (hother.symm.trans hlookup)
  · -- the arguments are looked up where the region began
    have hplain := hroute.plain_of_refer (show .refer t l.binding.name ∈ x by simp [hx])
    obtain ⟨v, rfl⟩ := Expr.identName_eq haname
    obtain ⟨q, c, hnew, hq⟩ := hroute.spot.arguments.2 _ ha
    have htrail := hroute.after
    rw [hplain.new, hnew] at htrail
    have hsplit : pre ++ (q ++ (Trail.expr (.ident v l.binding.name) ++ c)) ++ post ++
        Trail.func (done.plan.edit d).function = (pre ++ q) ++ .refer v l.binding.name ::
          (c ++ post ++ Trail.func (done.plan.edit d).function) := by
      simp [Trail.expr]
    rw [hsplit] at htrail
    refine (h.owned hd.owned).site_of_found htrail rfl ?_
    rw [walk_append, hq]
    exact hl

theorem params_apart (h : d.Lifts sel name next done) {f : FuncDecl} {a : List Local}
    (ha : done.plan.Parameters f a) :
    ∀ n ∈ d.scopes.namesWithin done.plan.region.span, n ≠ "_" → only n a = [] := by
  intro n hn hblank
  by_contra hne
  obtain ⟨k, hk⟩ := h.exists_param ((ha.here n hblank).1 hne)
  obtain ⟨_, _, _, _, _, _, _, hout⟩ := Region.of_mem_params hk
  exact hout hn

theorem mem_laterNodes_iff (h : d.Lifts sel name next done) (hd : d.Owned)
    {stmts before after : List Stmt} {owner : Owner}
    (hr : done.plan.region = .statements stmts owner)
    (hsplit : owner.stmts = before ++ stmts ++ after) {m : Node} :
    m ∈ done.plan.region.laterNodes ↔ m ∈ met (Trail.stmts after) := by
  have hnodes : done.plan.region.laterNodes = (Region.statements after owner).nodes := by
    rw [Region.laterNodes, h.later_eq hd hr hsplit, Region.nodes, Region.roots, List.flatMap_map]
  rw [hnodes, Region.mem_nodes_iff]
  rfl

theorem output_bound (h : d.Lifts sel name next done) (hd : d.Reached) (hsize : d.size < 2 ^ 32)
    (hroute : Reroutes d next done.plan s pre x y post)
    (hn : (n, k) ∈ (done.plan.region.captures d.scopes).outputs) :
    ∃ b, d.scopes.binding? k = some b ∧ b.kind = .localVar ∧ b.name = n ∧
      b.home ∈ done.plan.region.ids ∧
      ∀ e ∈ (done.plan.edit d).function.returned, e.identName? = some n →
        next.scopes.site? e.tag.id = some b.bare := by
  obtain ⟨e, b, he, hk, hb, hkind, rfl, hp⟩ := Region.of_mem_outputs hn
  obtain ⟨_, _, _, _, _, _, _, _, hplain, _⟩ := hroute.found_produced hd.owned hk hb hkind hp
  obtain ⟨stmts, owner, hr⟩ := Region.exists_statements hp
  obtain ⟨_, before, after, rest, hsplit, hpost⟩ := hroute.run_open hplain hr
  have hu : e.tag.id ∉ done.plan.region.ids := by
    intro hu
    have hmet := (h.mem_laterNodes_iff hd.owned hr hsplit).1 he
    exact hroute.apart hd.owned hu (.expr e) (by simp [hpost, hmet]) rfl
  obtain ⟨l, _, _, _, _, f, fs, rfl, _, hinside, hnew, _, hopen, _, _, hfound, _⟩ :=
    hroute.found_later hd.owned hu hk hb hkind hp
  rw [← hopen] at hfound
  have hbefore : l ∉ locals pre := fun hl => hnew (by rw [locals_append]; simp [hl])
  refine ⟨l.binding, hb, hkind, rfl, ?_, fun a ha haname => ?_⟩
  · rw [hplain.old] at hinside
    obtain ⟨⟨m, hm, hhome⟩, _⟩ := done.plan.region.fair.2.home hinside
    exact hhome ▸ Region.mem_ids_of_met hm
  · obtain ⟨v, rfl⟩ := Expr.identName_eq haname
    obtain ⟨front, back, hrewalks⟩ := done.plan.edit_rewalks d
    have hout : done.plan.outputs ≠ [] := by
      intro hnil
      have hnames := h.plan_eq.2
      rw [Plan.outputNames, hnil] at hnames
      have hmem := List.mem_map_of_mem (f := Prod.fst) hn
      rw [← hnames] at hmem
      cases hmem
    obtain ⟨q, c, hback, hq⟩ := (hrewalks.returned stmts owner hr hout).2 _ ha
    obtain ⟨ps, hps, hparams⟩ := hrewalks.params (walk (pre ++ y ++ post) [])
    have htrail := hroute.after
    rw [hrewalks.trail, ← hplain.old, hback] at htrail
    have hsplit : pre ++ y ++ post ++ (front ++ (x ++ (q ++ (Trail.expr (.ident v l.binding.name) ++
        c)))) = (pre ++ y ++ post ++ front ++ x ++ q) ++ .refer v l.binding.name :: c := by
      simp [Trail.expr]
    rw [hsplit] at htrail
    refine (h.owned hd.owned).site_of_found htrail rfl ?_
    rw [walk_append, walk_append, walk_append _ front, hps, hq]
    exact hroute.found_again (h.encloses hd hsize) hplain (List.append_nil x).symm
      (h.params_apart hparams) _ hfound hbefore

end Document.Lifts

theorem Change.returned_func {c : Change} (hc : c.Retags) (f : FuncDecl) :
    (c.func f).returned = f.returned.map c.expr := by
  cases hbody : f.body with
  | none => simp [FuncDecl.returned, Change.func, hbody]
  | some b =>
    obtain ⟨t, body⟩ := b
    simp only [FuncDecl.returned, Change.body_func hc hbody, hbody, Option.elim_some,
      List.getLast?_map]
    cases body.getLast? with
    | none => rfl
    | some st => cases st <;> simp [Change.stmt]

theorem Change.ident_expr {c : Change} (hc : c.Retags) (e : Expr) :
    (c.expr e).tag.id = e.tag.id ∧ (c.expr e).identName? = e.identName? := by
  have htag : (c.expr e).tag = c.onTag e.tag := tag_node hc (.expr e)
  refine ⟨by rw [htag, hc.2], ?_⟩
  rw [hc.1]
  exact expr_tags e

/-- The values that the new function returns keep their numbers and their names. -/
theorem Edit.returned_settledFunction (e : Edit) (d : Document) :
    ∃ g : Expr → Expr, (e.settledFunction d).returned = e.function.returned.map g ∧
      ∀ v, (g v).tag.id = v.tag.id ∧ (g v).identName? = v.identName? := by
  refine ⟨fun v => (Change.ofMarks ((d.unsettled e).drawing 0).marks.reverse).expr
    ((Change.ofMarks (e.functionDrawing d).marks.reverse).expr v), ?_, fun v => ?_⟩
  · rw [settledFunction, Change.returned_func (Change.retags_ofMarks _),
      Change.returned_func (Change.retags_ofMarks _), List.map_map]
    rfl
  · have hinner := Change.ident_expr (Change.retags_ofMarks (e.functionDrawing d).marks.reverse) v
    have houter := Change.ident_expr (Change.retags_ofMarks
      ((d.unsettled e).drawing 0).marks.reverse)
      ((Change.ofMarks (e.functionDrawing d).marks.reverse).expr v)
    exact ⟨houter.1.trans hinner.1, houter.2.trans hinner.2⟩

/-- In every document of a session the call of a further lift and what the new function returns mean
what was captured. -/
theorem Document.Reached.lift_captured {d : Document} (hd : d.Reached) (hsize : d.size < 2 ^ 32) :
    ∀ s name next done, d.lift s name = .ok (next, done) →
      ∃ f r, Conserved d next done f r ∧ Captured d next done f r := by
  intro s name next done hlift
  have h := lifts hd.owned hlift
  obtain ⟨spot, pre, x, y, post, hroute⟩ := h.reroutes hd.owned
  obtain ⟨g, hg, hsame⟩ := (done.plan.edit d).returned_settledFunction d
  refine ⟨_, _, h.keeps_settled hd.owned, fun c hc => ?_, hroute.spot.arguments.1, fun c hc => ?_,
    fun hout => ?_⟩
  · obtain ⟨k, hk⟩ := h.exists_param (List.mem_map_of_mem hc)
    obtain ⟨b, hb⟩ := h.param_bound hd hsize hroute hk
    exact ⟨k, b, hk, hb⟩
  · obtain ⟨k, hk⟩ := h.exists_output (List.mem_map_of_mem hc)
    obtain ⟨b, hb, hkind, hbname, hhome, hsite⟩ := h.output_bound hd hsize hroute hk
    refine ⟨k, b, hk, hb, hkind, hbname, hhome, fun e he hename => ?_⟩
    rw [hg] at he
    obtain ⟨v, hv, rfl⟩ := List.mem_map.1 he
    rw [(hsame v).1]
    exact hsite v hv ((hsame v).2.symm.trans hename)
  · obtain ⟨front, back, hrewalks⟩ := done.plan.edit_rewalks d
    obtain ⟨c, hc⟩ := List.exists_mem_of_ne_nil _ hout
    obtain ⟨k, hk⟩ := h.exists_output (List.mem_map_of_mem hc)
    obtain ⟨_, _, _, _, _, _, _, hp⟩ := Region.of_mem_outputs hk
    obtain ⟨stmts, owner, hr⟩ := Region.exists_statements hp
    have hnames : (done.plan.edit d).function.returned.map (fun v => (g v).identName?) =
        done.plan.outputNames.map some := by
      rw [← (hrewalks.returned stmts owner hr hout).1]
      exact List.map_congr_left fun v _ => (hsame v).2
    rw [hg, List.map_map]
    exact hnames.trans (List.map_map ..)

theorem Document.Reached.lift_captured_run : ∃ d next done, d.Reached ∧ d.size < 2 ^ 32 ∧
    d.lift ⟨⟨4, 2⟩, ⟨4, 12⟩⟩ "Next" = .ok (next, done) ∧ done.plan.params.map Capture.name = ["a"] ∧
      done.plan.outputNames = ["b"] ∧
      ∃ f r, Conserved d next done f r ∧ Captured d next done f r := by
  obtain ⟨d, next, done, hread, hlift, hcheck⟩ := exists_lift
    "package p\n\nfunc f(a int) int \x7b\n\tb := a + 1\n\treturn b\n\x7d\n" ⟨⟨4, 2⟩, ⟨4, 12⟩⟩ "Next"
    (fun d _ done => decide (d.size < 2 ^ 32 ∧ done.plan.params.map Capture.name = ["a"] ∧
      done.plan.outputNames = ["b"])) (by decide +kernel)
  obtain ⟨hsize, hparams, houtputs⟩ := of_decide_eq_true hcheck
  exact ⟨d, next, done, .read hread, hsize, hlift, hparams, houtputs,
    lift_captured (.read hread) hsize _ _ _ _ hlift⟩

end FuncLift
