import FuncLift.Proofs.Sight

/-!
# The frames are what is in sight

A binding is made at one place of the trail, and the number of bindings before is its number. Along the
trail the frames of the resolver hold the names in sight, with these numbers: a scope is opened, a
name is declared, and a trail that closes what it opens leaves them as they were.
-/
namespace FuncLift

theorem frames_height {h h' : Nat} {es : List Event} (hes : height false h es = some h')
    {r : Resolver} {f b : Frames} (hr : r.frames = f ++ b) (hlength : f.length = h) :
    ∃ g, (playAll es r).2.frames = g ++ b ∧ g.length = h' := by
  induction es generalizing h r f with
  | nil =>
    cases hes
    exact ⟨f, hr, hlength⟩
  | cons e es ih =>
    rw [height_cons, Option.bind_eq_some_iff] at hes
    obtain ⟨h₁, he, hes⟩ := hes
    replace ih := @ih h₁ hes (e.play r).2
    have hdeclared {l : Local} (hl : e.local? = some l) (hpos : h ≠ 0)
        (hrise : some h = some h₁) : ∃ g, (playAll es (e.play r).2).2.frames = g ++ b ∧
          g.length = h' := by
      cases hrise
      cases f with
      | nil => exact absurd hlength.symm hpos
      | cons g f =>
        rcases e.frames_play hl r with hframes | ⟨n, hframes⟩
        · exact ih (hframes.trans hr) hlength
        · rw [hr] at hframes
          exact ih (f := ((l.name, n) :: g) :: f) hframes (by simpa using hlength)
    cases e with
    | pass n =>
      cases he
      exact ih hr hlength
    | refer t name =>
      cases he
      refine ih ?_ hlength
      rw [Agrees.play_refer]
      split <;> exact hr
    | openScope =>
      cases he
      have hframes : (Event.openScope.play r).2.frames = [] :: r.frames := rfl
      exact ih (f := [] :: f) (by rw [hframes, hr]; rfl) (by simp [hlength])
    | closeScope =>
      simp only [Event.rise] at he
      split at he
      · cases he
      · cases he
        cases f with
        | nil => cases hlength; contradiction
        | cons g f =>
          have hframes : (Event.closeScope.play r).2.frames = r.frames.tail := rfl
          exact ih (f := f) (by rw [hframes, hr]; rfl) (by simp [← hlength])
    | declare l | define l | range t x =>
      simp only [Event.rise] at he
      split at he
      · cases he
      · rename_i hpos
        exact hdeclared rfl (fun h0 => hpos ⟨h0, trivial⟩) he

theorem Level.frames {es : List Event} (hes : Level false es) (r : Resolver) :
    (playAll es r).2.frames = r.frames := by
  obtain ⟨g, hg, hlength⟩ := frames_height hes (f := []) rfl rfl
  rw [hg, List.eq_nil_of_length_eq_zero hlength, List.nil_append]

namespace Event

variable {e : Event} {l : Local} {r : Resolver}

theorem play_define (l : Local) (r : Resolver) : (Event.define l).play r =
    if (Resolve.declaredHere l.name r).1 = true then ((), r) else (Event.declare l).play r := by
  change (if (Resolve.declaredHere l.name r).1 = true then (pure () : Resolve Unit) else
    (Event.declare l).play) r = _
  split <;> rfl

theorem play_kept (he : e.local? = some l)
    (h : l.name = "_" ∨ e.spares = true ∧ (Resolve.declaredHere l.name r).1 = true) :
    (e.play r).2.frames = r.frames := by
  have hblank (hname : l.name = "_") : r.add l = r := if_pos hname
  cases e with
  | declare m =>
    cases he
    rw [play_declare, hblank (by simpa [spares] using h)]
  | define m =>
    cases he
    rw [play_define]
    split
    · rfl
    · rw [play_declare, hblank (by simpa [spares, *] using h)]
  | range t b =>
    cases he
    have hname : b.name = "_" := by simpa [spares, Local.name] using h
    rw [play_range, if_pos hname]
  | _ => cases he

theorem play_made (he : e.local? = some l) (hname : l.name ≠ "_")
    (hnew : ¬(e.spares = true ∧ (Resolve.declaredHere l.name r).1 = true)) :
    (e.play r).2.frames = r.frames.push l.name r.table.bindings.length ∧
      (e.play r).2.table.bindings = r.table.bindings ++ [l.binding] := by
  have hadd : (r.add l).frames = r.frames.push l.name r.table.bindings.length ∧
      (r.add l).table.bindings = r.table.bindings ++ [l.binding] := by
    unfold Resolver.add
    rw [if_neg hname]
    obtain ⟨table, frames⟩ := r
    cases frames <;> exact ⟨rfl, rfl⟩
  cases e with
  | declare m =>
    cases he
    rw [play_declare]
    exact hadd
  | define m =>
    cases he
    rw [play_define, if_neg fun hhere => hnew ⟨rfl, hhere⟩, play_declare]
    exact hadd
  | range t b =>
    cases he
    rw [play_range, if_neg (show ¬b.name = "_" from hname)]
    exact hadd
  | _ => cases he

end Event

namespace Document

variable {d : Document} {u x y post : List Event}

/-- The resolver in front of a document's trail: the names of the package are known. -/
def start (d : Document) : Resolver :=
  (d.file.decls.forM (Resolve.packageDecl d.vocabulary) ⟨.empty, []⟩).2

def after (d : Document) (u : List Event) : Resolver := (playAll u d.start).2

theorem start_only (d : Document) : PackageOnly d.start := by
  refine PackageOnly.forM (PackageOnly.packageDecl d.vocabulary) d.file.decls _ ?_
  exact ⟨rfl, rfl, rfl, by simp [Scopes.empty]⟩

theorem scopes_after (d : Document) : d.scopes = (d.after d.file.trail).table := by
  rw [after, ← SourceFile.play_trail]
  rfl

theorem after_append (d : Document) (u x : List Event) :
    d.after (u ++ x) = (playAll x (d.after u)).2 := by
  rw [after, playAll_append]
  rfl

theorem after_agrees (d : Document) (u : List Event) : Agrees (d.after u) (walk u []) :=
  (d.start_only.agrees.run u).1

theorem after_grows (d : Document) (u x : List Event) :
    FuncLift.Grows (users x) (d.after u).table (d.after (u ++ x)).table := by
  rw [after_append]
  exact ((d.after_agrees u).run x).2

theorem scopes_grows (htrail : d.file.trail = u ++ x) :
    FuncLift.Grows (users x) (d.after u).table d.scopes := by
  rw [scopes_after, htrail]
  exact d.after_grows u x

/-- An identifier is bound to what the frames have for its name, or else the package. -/
theorem Owned.bindingOf_after (hd : d.Owned) {t : Tag} {name : String}
    (htrail : d.file.trail = u ++ .refer t name :: post) : d.scopes.bindingOf? t.id =
      ((d.after u).frames.lookup? name).or (d.scopes.packageBinding? name) := by
  obtain ⟨hpre, hpost⟩ := hd.user_once htrail rfl
  rcases (d.after_agrees u).lookup name with ⟨hframes, hnone⟩ | ⟨n, l, hframes, _, _⟩
  · rw [hframes, Option.none_or]
    exact bindingOf_package htrail hpre hpost hnone
  · rw [hframes, Option.some_or]
    refine bindingOf_play (d.after_agrees u) ?_ hpost hframes
    rw [scopes_after, htrail, after_append]

end Document

namespace Intro

/-- How many events behind the node that declares a name the name is declared. -/
def offset (i : Intro) : Nat :=
  match i.decl, i.binding.origin with
  | _, .define _ values k => (Trail.exprs values).length + k
  | _, .value _ type values k => (Trail.typeOption type).length + (Trail.exprs values).length + k
  | _, .param type _ k => (Trail.typeExpr type).length + k
  | .stmt (.loop t (.range key _ _ _) _), .range subject k => 1 + (Trail.expr subject).length +
      if k = 0 then 0 else (Trail.rangeVar t.id subject 0 key).length
  | _, _ => 0

/-- Whether the name is the variable of a type switch, which is declared right in front of its clause. -/
def ofClause (i : Intro) : Bool :=
  match i.binding.origin with
  | .typeSwitch => true
  | _ => false

def place (es : List Event) (i : Intro) : Nat :=
  let met := es.findIdx (Event.meets i.decl.tag.id)
  if i.ofClause then met - 1 else met + 1 + i.offset

end Intro

namespace Document

variable {d : Document} {u x y post : List Event} {i j : Intro}

def number (d : Document) (i : Intro) : Nat :=
  (d.after (d.file.trail.take (i.place d.file.trail))).table.bindings.length

/-- The trail has the node that declares a name, and where it is. -/
structure Sited (d : Document) (i : Intro) : Prop where
  met : .pass i.decl ∈ d.file.trail
  home : i.ofClause = false → i.decl.tag.id = i.binding.home
  clause : i.ofClause = true → d.file.trail[i.place d.file.trail + 1]? = some (.pass i.decl)

structure Made (d : Document) (i : Intro) : Prop where
  sited : d.Sited i
  bound : ∃ u e post, d.file.trail = u ++ e :: post ∧ u.length = i.place d.file.trail ∧
    (d.after (u ++ [e])).table.bindings = (d.after u).table.bindings ++ [i.binding]

theorem number_eq (htrail : d.file.trail = u ++ post) (hu : u.length = i.place d.file.trail) :
    d.number i = (d.after u).table.bindings.length := by
  rw [number, ← hu, htrail, List.take_left]

theorem Made.binding (h : d.Made i) : d.scopes.binding? (d.number i) = some i.binding := by
  obtain ⟨u, e, post, htrail, hu, hbindings⟩ := h.bound
  have hsplit : d.file.trail = (u ++ [e]) ++ post := by simpa using htrail
  rw [number_eq htrail hu]
  refine (scopes_grows hsplit).bindings _ _ ?_
  rw [hbindings, List.getElem?_concat_length]

theorem Owned.node_eq (hd : d.Owned) {n m : Node} (hn : .pass n ∈ d.file.trail)
    (hm : .pass m ∈ d.file.trail) (hid : n.tag.id = m.tag.id) : n = m := by
  by_contra hne
  have hmem {k : Node} (hk : .pass k ∈ d.file.trail) : k ∈ FuncLift.met d.file.trail :=
    List.mem_filterMap.2 ⟨_, hk, rfl⟩
  have hone := hd.metCount_le_one m.tag.id
  rw [metCount, List.countP_eq_length_filter] at hone
  have hn' : n ∈ (FuncLift.met d.file.trail).filter fun k => k.tag.id == m.tag.id := by
    simpa [hid] using hmem hn
  have hm' : m ∈ (FuncLift.met d.file.trail).filter fun k => k.tag.id == m.tag.id := by
    simpa using hmem hm
  rcases hl : (FuncLift.met d.file.trail).filter fun k => k.tag.id == m.tag.id with
    _ | ⟨k, _ | ⟨k', ks⟩⟩
  · rw [hl] at hn'
    cases hn'
  · rw [hl] at hn' hm'
    exact hne ((List.mem_singleton.1 hn').trans (List.mem_singleton.1 hm').symm)
  · rw [hl] at hone
    simp at hone

theorem bindings_le (d : Document) (u x : List Event) :
    (d.after u).table.bindings.length ≤ (d.after (u ++ x)).table.bindings.length := by
  by_contra h
  rw [Nat.not_le] at h
  have hget := (d.after_grows u x).bindings _ _ (List.getElem?_eq_getElem h)
  have hlt := (List.getElem?_eq_some_iff.1 hget).1
  omega

theorem number_lt {e : Event} (htrail : d.file.trail = u ++ e :: post)
    (hu : u.length = i.place d.file.trail)
    (hbindings : (d.after (u ++ [e])).table.bindings = (d.after u).table.bindings ++ [i.binding])
    {v post' : List Event} (hj : d.file.trail = v ++ post') (hv : v.length = j.place d.file.trail)
    (hlt : u.length < v.length) : d.number i < d.number j := by
  have hfront : u ++ [e] <+: d.file.trail := ⟨post, by rw [htrail]; simp⟩
  obtain ⟨w, rfl⟩ := List.prefix_of_prefix_length_le hfront ⟨_, hj.symm⟩ (by simpa using hlt)
  have hle := d.bindings_le (u ++ [e]) w
  rw [hbindings, List.length_append, List.length_singleton] at hle
  rw [number_eq htrail hu, number_eq hj hv]
  omega

theorem Owned.number_inj (hd : d.Owned) (hi : d.Made i) (hj : d.Made j)
    (h : d.number i = d.number j) : i = j := by
  obtain ⟨u, e, post, htrail, hu, hbindings⟩ := hi.bound
  obtain ⟨v, e', post', htrail', hv, hbindings'⟩ := hj.bound
  have hlength : u.length = v.length := by
    rcases Nat.lt_trichotomy u.length v.length with hlt | heq | hlt
    · have := number_lt htrail hu hbindings htrail' hv hlt
      omega
    · exact heq
    · have := number_lt htrail' hv hbindings' htrail hu hlt
      omega
  obtain ⟨rfl, hrest⟩ := List.append_inj (htrail.symm.trans htrail') hlength
  obtain ⟨rfl, rfl⟩ := List.cons.inj hrest
  have hbinding : i.binding = j.binding := by
    have := hbindings.symm.trans hbindings'
    simpa using this
  have hkind : i.ofClause = j.ofClause := by rw [Intro.ofClause, Intro.ofClause, hbinding]
  have hdecl : i.decl = j.decl := by
    cases hi' : i.ofClause with
    | true =>
      have hthere := hi.sited.clause hi'
      have hthere' := hj.sited.clause (hkind ▸ hi')
      rw [← hu] at hthere
      rw [← hv, hthere] at hthere'
      simpa using hthere'
    | false =>
      refine hd.node_eq hi.sited.met hj.sited.met ?_
      rw [hi.sited.home hi', hj.sited.home (hkind ▸ hi'), hbinding]
  cases i
  cases j
  cases hdecl
  cases hbinding
  rfl

end Document

namespace Scope

/-- The frame of a scope, the newest name first. -/
def frame (number : Intro → Nat) (s : Scope) : List (String × Nat) :=
  s.bindings.reverse.map fun i => (i.name, number i)

theorem lookup_frame (number : Intro → Nat) (s : Scope) (name : String) :
    (s.frame number).lookup name = (s.last? name).map number := by
  unfold frame last?
  induction s.bindings.reverse with
  | nil => rfl
  | cons i is ih =>
    rw [List.map_cons, List.lookup_cons, ih, List.find?_cons]
    by_cases hname : i.name = name
    · simp [hname]
    · have hother : (name == i.name) = false := by simpa using Ne.symm hname
      have hother' : (i.name == name) = false := by simpa using hname
      simp [hother, hother']

theorem lookup_frames (number : Intro → Nat) (ss : List Scope) (name : String) :
    Frames.lookup? (ss.map (frame number)) name = (ss.findSome? (·.last? name)).map number := by
  unfold Frames.lookup?
  induction ss with
  | nil => rfl
  | cons s ss ih =>
    rw [List.map_cons, List.findSome?_cons, List.findSome?_cons, lookup_frame, ih]
    cases s.last? name <;> rfl

theorem bindings_append (n : Node) (is : List Intro) (i : Intro) :
    (Scope.mk n (is ++ [i])).bindings = keep (Scope.mk n is).bindings i := by
  simp [bindings]

end Scope

namespace Document

variable {d : Document} {u x y post : List Event} {s : Scope} {ss : List Scope} {i : Intro}
  {is js : List Intro} {e : Event} {l : Local}

/-- The frames behind a part of the trail are the scopes in sight there. -/
structure InSight (d : Document) (u : List Event) (ss : List Scope) : Prop where
  frames : (d.after u).frames = ss.map (Scope.frame d.number)
  made : ∀ s ∈ ss, ∀ i ∈ s.bindings, d.Made i

namespace InSight

theorem opened (h : d.InSight u ss) (n : Node) : d.InSight (u ++ [Event.openScope]) (⟨n, []⟩ :: ss) where
  frames := by
    rw [after_append, List.map_cons, ← h.frames]
    rfl
  made s hs i hi := by
    rcases List.mem_cons.1 hs with rfl | hs
    · cases hi
    · exact h.made s hs i hi

theorem level (h : d.InSight u ss) (hx : Level false x) : d.InSight (u ++ x) ss where
  frames := by rw [after_append, hx.frames, h.frames]
  made := h.made

theorem declaredHere (h : d.InSight u (s :: ss)) (name : String) :
    (Resolve.declaredHere name (d.after u)).1 = true ↔ ∃ j ∈ s.bindings, j.name = name := by
  change ((d.after u).frames.head?.getD []).any (fun p => p.1 == name) = true ↔ _
  rw [h.frames]
  simp [Scope.frame]

theorem told (h : d.InSight u (s :: ss)) (htrail : d.file.trail = u ++ e :: post)
    (hl : e.local? = some l) (hbinding : l.binding = i.binding) (hspares : e.spares = i.reuses)
    (hplace : u.length = i.place d.file.trail) (hsited : d.Sited i) :
    d.InSight (u ++ [e]) (declareAll [i] (s :: ss)) := by
  have hname : l.name = i.name := congrArg Binding.name hbinding
  have hafter : d.after (u ++ [e]) = (e.play (d.after u)).2 := d.after_append u [e]
  have hhere := h.declaredHere l.name
  rw [hname] at hhere
  by_cases hkept : i.name = "_" ∨ i.reuses = true ∧ ∃ j ∈ s.bindings, j.name = i.name
  · have hsame : (Scope.mk s.node (s.names ++ [i])).bindings = s.bindings := by
      rw [Scope.bindings_append, Scope.keep, if_pos hkept]
    have hframe : (Scope.mk s.node (s.names ++ [i])).frame d.number = s.frame d.number := by
      rw [Scope.frame, hsame, Scope.frame]
    constructor
    · rw [hafter, Event.play_kept hl (by rwa [hname, hspares, hhere]), h.frames, declareAll,
        List.map_cons, List.map_cons, hframe]
    · intro t ht j hj
      rcases List.mem_cons.1 ht with rfl | ht
      · exact h.made s List.mem_cons_self j (hsame ▸ hj)
      · exact h.made t (List.mem_cons_of_mem _ ht) j hj
  · have hmore : (Scope.mk s.node (s.names ++ [i])).bindings = s.bindings ++ [i] := by
      rw [Scope.bindings_append, Scope.keep, if_neg hkept]
    obtain ⟨hblank, hnew⟩ := not_or.1 hkept
    obtain ⟨hframes, hbindings⟩ := Event.play_made (r := d.after u) hl (by rwa [hname])
      (by rwa [hname, hspares, hhere])
    have hframe : (Scope.mk s.node (s.names ++ [i])).frame d.number =
        (i.name, d.number i) :: s.frame d.number := by
      rw [Scope.frame, hmore, Scope.frame]
      simp
    constructor
    · rw [hafter, hframes, h.frames, declareAll, List.map_cons, List.map_cons, hframe, hname,
        number_eq htrail hplace]
      rfl
    · intro t ht j hj
      rcases List.mem_cons.1 ht with rfl | ht
      · rw [hmore] at hj
        rcases List.mem_append.1 hj with hj | hj
        · exact h.made s List.mem_cons_self j hj
        · rw [List.mem_singleton.1 hj]
          exact ⟨hsited, u, e, post, htrail, hplace, by rw [hafter, hbindings, hbinding]⟩
      · exact h.made t (List.mem_cons_of_mem _ ht) j hj

end InSight

/-- A part of the trail brings names into the innermost scope. -/
def Declares (d : Document) (x : List Event) (is : List Intro) : Prop :=
  ∀ ⦃u post ss⦄, d.file.trail = u ++ (x ++ post) → (ss = [] → is = []) → d.InSight u ss →
    d.InSight (u ++ x) (declareAll is ss)

theorem declareAll_nil : declareAll [] ss = ss := by
  cases ss with
  | nil => rfl
  | cons s ss => simp [declareAll]

theorem declareAll_append : declareAll (is ++ js) ss = declareAll js (declareAll is ss) := by
  cases ss with
  | nil => rfl
  | cons s ss => simp [declareAll]

theorem declareAll_eq_nil : declareAll is ss = [] ↔ ss = [] := by
  cases ss <;> simp [declareAll]

namespace Declares

theorem level (hx : Level false x) : d.Declares x [] := by
  intro u post ss _ _ h
  rw [declareAll_nil]
  exact h.level hx

theorem nil : d.Declares [] [] := level rfl

theorem append (hx : d.Declares x is) (hy : d.Declares y js) : d.Declares (x ++ y) (is ++ js) := by
  intro u post ss htrail hnone h
  rw [List.append_assoc] at htrail
  have hsight := hx htrail (fun hss => (List.append_eq_nil_iff.1 (hnone hss)).1) h
  rw [← List.append_assoc] at htrail
  rw [declareAll_append, ← List.append_assoc]
  refine hy htrail (fun hss => ?_) hsight
  exact (List.append_eq_nil_iff.1 (hnone (declareAll_eq_nil.1 hss))).2

theorem pass {n : Node} (hx : d.Declares x is) : d.Declares (.pass n :: x) is :=
  append (level (x := [.pass n]) rfl) hx

theorem before (hx : d.Declares x is) (hy : Level false y) : d.Declares (x ++ y) is := by
  simpa using hx.append (level hy)

theorem behind (hy : Level false y) (hx : d.Declares x is) : d.Declares (y ++ x) is :=
  (level hy).append hx

end Declares

end Document

/-- Events that declare the names of one node, with the number of events between the node and them. -/
inductive Names (decl : Node) : Nat → List Event → List Intro → Prop
  | nil {n : Nat} : Names decl n [] []
  | pass {n : Nat} {m : Node} {es : List Event} {is : List Intro} (h : Names decl (n + 1) es is) :
      Names decl n (.pass m :: es) is
  | told {n : Nat} {e : Event} {es : List Event} {l : Local} {i : Intro} {is : List Intro}
      (hl : e.local? = some l) (hbinding : l.binding = i.binding) (hspares : e.spares = i.reuses)
      (hdecl : i.decl = decl) (hhome : decl.tag.id = i.binding.home) (hclause : i.ofClause = false)
      (hoffset : i.offset = n) (h : Names decl (n + 1) es is) : Names decl n (e :: es) (i :: is)

namespace Document

variable {d : Document} {u x y post : List Event} {ss : List Scope} {decl : Node}

theorem Owned.findIdx_met (hd : d.Owned) (htrail : d.file.trail = u ++ Event.pass decl :: post) :
    d.file.trail.findIdx (Event.meets decl.tag.id) = u.length := by
  have hone := hd.metCount_le_one decl.tag.id
  rw [htrail, metCount_append, metCount, metCount, met_pass, List.countP_cons_of_pos (by simp)]
    at hone
  have hnone : ∀ e ∈ u, Event.meets decl.tag.id e = false := by
    intro e he
    cases hn : e.node? with
    | none => simp [Event.meets, hn]
    | some n =>
      have hzero : (FuncLift.met u).countP (fun n => n.tag.id == decl.tag.id) = 0 := by omega
      have hmem : n ∈ FuncLift.met u := List.mem_filterMap.2 ⟨e, he, hn⟩
      simpa [Event.meets, hn] using List.countP_eq_zero.1 hzero n hmem
  rw [htrail, List.findIdx_append]
  have hge : u.findIdx (Event.meets decl.tag.id) = u.length := by
    rw [List.findIdx_eq_length]
    exact hnone
  rw [hge, if_neg (Nat.lt_irrefl _), List.findIdx_cons]
  simp [Event.meets, Event.node?]

theorem Owned.names (hd : d.Owned) {es : List Event} {n : Nat} {is : List Intro} {lead : List Event}
    (hnames : Names decl n es is) (hlead : lead.length = n)
    (htrail : d.file.trail = u ++ (Event.pass decl :: (lead ++ es)) ++ post)
    (hnone : ss = [] → is = []) (h : d.InSight (u ++ Event.pass decl :: lead) ss) :
    d.InSight (u ++ Event.pass decl :: (lead ++ es)) (declareAll is ss) := by
  induction hnames generalizing lead ss with
  | nil =>
    rw [declareAll_nil, List.append_nil]
    exact h
  | @pass n m es is _ ih =>
    have hsplit : lead ++ Event.pass m :: es = (lead ++ [Event.pass m]) ++ es := by simp
    rw [hsplit] at htrail ⊢
    refine ih (by simp [hlead]) htrail hnone ?_
    simpa using h.level (x := [.pass m]) rfl
  | @told n e es l i is hl hbinding hspares hdecl hhome hclause hoffset _ ih =>
    have hsplit : lead ++ e :: es = (lead ++ [e]) ++ es := by simp
    obtain ⟨s, ss, rfl⟩ : ∃ s ss', ss = s :: ss' := by
      cases ss with
      | nil => cases hnone rfl
      | cons s ss => exact ⟨s, ss, rfl⟩
    have hmet : d.file.trail = u ++ Event.pass decl :: (lead ++ (e :: es) ++ post) := by simp [htrail]
    have hplace : (u ++ Event.pass decl :: lead).length = i.place d.file.trail := by
      rw [Intro.place, hdecl, hd.findIdx_met hmet, hclause, hoffset]
      simp [hlead]
      omega
    have hsited : d.Sited i := by
      constructor
      · rw [hdecl, hmet]
        simp
      · exact fun _ => hdecl ▸ hhome
      · exact fun h => by simp [hclause] at h
    have hnext : d.file.trail = (u ++ Event.pass decl :: lead) ++ e :: (es ++ post) := by simp [htrail]
    have htold := h.told hnext hl hbinding hspares hplace hsited
    rw [hsplit] at htrail ⊢
    have hcons : i :: is = [i] ++ is := rfl
    rw [hcons, declareAll_append]
    refine ih (by simp [hlead]) htrail (fun hss => by cases hss) ?_
    simpa using htold

theorem Owned.declares (hd : d.Owned) {es lead : List Event} {is : List Intro}
    (hnames : Names decl lead.length es is) (hlead : Level false lead) :
    d.Declares (.pass decl :: (lead ++ es)) is := by
  intro u post ss htrail hnone h
  refine hd.names hnames rfl (by simpa using htrail) hnone ?_
  simpa using (h.level (x := [.pass decl]) rfl).level hlead

end Document

end FuncLift
