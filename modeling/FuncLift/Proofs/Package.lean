import FuncLift.Proofs.Apart

/-!
# Names of the package

An identifier that finds no declaration in an open scope is bound to the name of the package, and to
nothing if the package has no such name. The names of the package are numbered before all others, so
that no identifier that finds a declaration is bound to one of them. The last function of a file has
its name, whatever else is called so.
-/
namespace FuncLift

open Outline

/-- All names in the open scopes are declared behind the first so many bindings. -/
structure Behind (n : Nat) (r : Resolver) : Prop where
  bindings : n ≤ r.table.bindings.length
  frames : ∀ f ∈ r.frames, ∀ p ∈ f, n ≤ p.2

namespace Behind

variable {n : Nat} {r : Resolver}

theorem add (h : Behind n r) (l : Local) : Behind n (r.add l) := by
  unfold Resolver.add
  split
  · exact h
  · refine ⟨?_, fun f hf p hp => ?_⟩
    · simpa [Scopes.extend] using Nat.le_succ_of_le h.bindings
    · obtain ⟨table, frames⟩ := r
      cases frames with
      | nil =>
        obtain rfl := List.mem_singleton.1 hf
        obtain rfl := List.mem_singleton.1 hp
        exact h.bindings
      | cons g gs =>
        rcases List.mem_cons.1 hf with rfl | hf
        · rcases List.mem_cons.1 hp with rfl | hp
          · exact h.bindings
          · exact h.frames g List.mem_cons_self p hp
        · exact h.frames f (List.mem_cons_of_mem _ hf) p hp

theorem event (h : Behind n r) (e : Event) : Behind n (e.play r).2 := by
  cases e with
  | pass m => exact h
  | openScope =>
    refine ⟨h.bindings, fun f hf => ?_⟩
    rcases List.mem_cons.1 hf with rfl | hf
    · exact fun p hp => by cases hp
    · exact h.frames f hf
  | closeScope => exact ⟨h.bindings, fun f hf => h.frames f (List.mem_of_mem_tail hf)⟩
  | refer t name =>
    rw [Agrees.play_refer]
    split <;> exact ⟨h.bindings, h.frames⟩
  | declare l =>
    rw [play_declare]
    exact h.add l
  | define l =>
    change Behind n ((if (Resolve.declaredHere l.name r).1 = true then (pure () : Resolve Unit) else
      (Event.declare l).play) r).2
    split
    · exact h
    · rw [play_declare]
      exact h.add l
  | range t b =>
    rw [play_range]
    have hadd := h.add ⟨b, none⟩
    split
    · exact h
    · exact ⟨hadd.bindings, hadd.frames⟩

theorem run (h : Behind n r) (es : List Event) : Behind n (playAll es r).2 := by
  induction es generalizing r with
  | nil => exact h
  | cons e es ih => exact ih (h.event e)

theorem lookup (h : Behind n r) {name : String} {i : Nat} (hi : r.frames.lookup? name = some i) :
    n ≤ i := by
  obtain ⟨f, hf, hp⟩ := List.exists_of_findSome?_eq_some hi
  exact h.frames f hf _ (mem_of_lookup hp)

end Behind

namespace Document

variable {d : Document} {pre post : List Event} {e : Event} {u : Nat} {l : Local} {name : String}

theorem bindingOf_ne_package (htrail : d.file.trail = pre ++ e :: post) (hu : e.user? = some u)
    (hpost : u ∉ users post) (hl : e.found? (walk pre []) = some l) {k : Nat}
    (hk : d.scopes.packageBinding? name = some k) : d.scopes.bindingOf? u ≠ some k := by
  obtain ⟨r, hr, hscopes⟩ := d.scopes_eq
  have hstart : Behind r.table.bindings.length r :=
    ⟨Nat.le_refl _, fun f hf => by rw [hr.frames] at hf; cases hf⟩
  have hbehind := hstart.run pre
  obtain ⟨hagrees, hpre⟩ := hr.agrees.run pre
  generalize hmid : (playAll pre r).2 = mid at hbehind hagrees hpre
  have hplay : d.scopes = (playAll post (e.play mid).2).2.table := by
    rw [hscopes, htrail, playAll_append, ← hmid]
    rfl
  obtain ⟨hthere, hevent⟩ := hagrees.event e
  have hrest := (hthere.run post).2
  -- the numbers of the package are smaller than all that were given on the trail
  have hlt : k < r.table.bindings.length := by
    rw [hplay, Scopes.packageBinding?, hrest.package, hevent.package, hpre.package] at hk
    obtain ⟨b, hb, _⟩ := hr.package _ (mem_of_lookup hk)
    exact (List.getElem?_eq_some_iff.1 hb).1
  rw [hplay, hrest.uses u hpost]
  cases e with
  | refer t m =>
    cases hu
    rcases hagrees.lookup m with ⟨_, hnone⟩ | ⟨i, _, hi, _, _⟩
    · exact absurd (hnone.symm.trans hl) (by simp)
    · rw [Agrees.play_refer, hi]
      have hle := hbehind.lookup hi
      simp only [Scopes.bindingOf?, Option.some_or, List.lookup_cons_self, ne_eq, Option.some.injEq]
      omega
  | range t b =>
    cases hu
    simp only [Event.found?] at hl
    split at hl
    · cases hl
    · rename_i hb
      rw [play_range, if_neg hb]
      have hle := hbehind.bindings
      simp only [Scopes.bindingOf?, List.lookup_cons_self, ne_eq, Option.some.injEq]
      omega
  | _ => cases hu

/-- An identifier that finds no name in an open scope is bound to the name of the package. -/
theorem bindingOf_package {t : Tag} (htrail : d.file.trail = pre ++ .refer t name :: post)
    (hpre : t.id ∉ users pre) (hpost : t.id ∉ users post)
    (hnone : (walk pre []).find? name = none) :
    d.scopes.bindingOf? t.id = d.scopes.packageBinding? name := by
  obtain ⟨r, hagrees, hscopes, hgrows, _, hunused⟩ := scopes_split htrail
  have hlookup : r.frames.lookup? name = none := by
    rcases hagrees.lookup name with ⟨h, _⟩ | ⟨_, _, _, hl, _⟩
    · exact h
    · exact absurd (hnone.symm.trans hl) (by simp)
  have hrest := ((hagrees.event (.refer t name)).1.run post).2
  have hpackage : d.scopes.packageBinding? name = r.table.packageBinding? name := by
    rw [Scopes.packageBinding?, hgrows.package]
    rfl
  rw [hpackage, hscopes]
  refine (hrest.uses t.id hpost).trans ?_
  rw [Agrees.play_refer, hlookup, Option.none_or]
  cases hp : r.table.packageBinding? name with
  | none => exact hunused _ hpre
  | some m => simp [Scopes.bindingOf?]

theorem package_inj {m : String} {k : Nat} (hk : d.scopes.packageBinding? name = some k)
    (hm : d.scopes.packageBinding? m = some k) : m = name := by
  obtain ⟨r, hr, hscopes⟩ := d.scopes_eq
  rw [hscopes, Scopes.packageBinding?, (hr.agrees.run d.file.trail).2.package] at hk hm
  obtain ⟨b, hb, _, hname⟩ := hr.package _ (mem_of_lookup hk)
  obtain ⟨c, hc, _, hname'⟩ := hr.package _ (mem_of_lookup hm)
  obtain rfl : b = c := Option.some.inj (hb.symm.trans hc)
  exact hname'.symm.trans hname

/-- Who is bound to a name of the package, told from a trail that tells the same as that of the
document. -/
theorem Owned.bindingOf_package_iff (hd : d.Owned)
    (htrail : d.file.trail.map Event.bare = (pre ++ e :: post).map Event.bare)
    (hu : e.user? = some u) {k : Nat} (hk : d.scopes.packageBinding? name = some k) :
    d.scopes.bindingOf? u = some k ↔ (∃ t, e = .refer t name) ∧ (walk pre []).find? name = none := by
  obtain ⟨pre', e', post', hsplit, he, hwalk⟩ := split_bare htrail
  rw [← e.user_bare, ← he, e'.user_bare] at hu
  obtain ⟨hbefore, hafter⟩ := hd.user_once hsplit hu
  have hnone (m : String) := Env.find_none_congr hwalk m
  constructor
  · intro hb
    have hfound : e'.found? (walk pre' []) = none := by
      rcases hl : e'.found? (walk pre' []) with _ | l
      · rfl
      · exact absurd hb (bindingOf_ne_package hsplit hu hafter hl hk)
    cases e' with
    | refer t m =>
      cases hu
      have hm := (bindingOf_package hsplit hbefore hafter hfound).symm.trans hb
      obtain rfl := package_inj hk hm
      refine ⟨?_, (hnone _).1 hfound⟩
      cases e with
      | refer t' m =>
        obtain ⟨_, rfl⟩ := Event.refer.inj he
        exact ⟨t', rfl⟩
      | _ => cases he
    | range t b =>
      cases hu
      simp only [Event.found?] at hfound
      split at hfound
      · rename_i hblank
        rw [bindingOf_blank hsplit hbefore hafter hblank] at hb
        cases hb
      · cases hfound
    | _ => cases hu
  · rintro ⟨⟨t, rfl⟩, hfind⟩
    cases e' with
    | refer t' m =>
      obtain ⟨_, rfl⟩ := Event.refer.inj he
      cases hu
      rw [bindingOf_package hsplit hbefore hafter ((hnone _).2 hfind), hk]
    | _ => cases he

end Document

def FuncDecl.binding (f : FuncDecl) : Binding :=
  ⟨f.name.text, .function, .func f.sig, f.tag.id, f.name.tag.span⟩

/-- The last declaration of a file has its name in the package, whatever came before. -/
theorem Document.package_last {d : Document} {f : FuncDecl}
    (hlast : d.file.decls.getLast? = some (.func f)) (hrecv : f.recv = none)
    (hname : f.name.text ≠ "_") : ∃ k, d.scopes.packageBinding? f.name.text = some k ∧
      d.scopes.binding? k = some f.binding := by
  obtain ⟨init, hdecls⟩ := List.getLast?_eq_some_iff.1 hlast
  obtain ⟨r, hr⟩ : ∃ r : Resolver,
      (d.file.decls.forM (Resolve.packageDecl d.vocabulary) ⟨.empty, []⟩).2 =
        ⟨{ r.table with
            bindings := r.table.bindings ++ [f.binding]
            package := (f.name.text, r.table.bindings.length) :: r.table.package }, r.frames⟩ := by
    refine ⟨(init.forM (Resolve.packageDecl d.vocabulary) ⟨.empty, []⟩).2, ?_⟩
    have happend : (init ++ [TopDecl.func f]).forM (Resolve.packageDecl d.vocabulary) =
        init.forM (Resolve.packageDecl d.vocabulary) >>= fun _ =>
          [TopDecl.func f].forM (Resolve.packageDecl d.vocabulary) := List.forM_append
    rw [hdecls, happend]
    change (Resolve.packageDecl d.vocabulary (.func f)
      (init.forM (Resolve.packageDecl d.vocabulary) ⟨.empty, []⟩).2).2 = _
    simp only [Resolve.packageDecl, hrecv, Option.isNone_none, if_true, Resolve.declarePackage,
      hname, if_false]
    rfl
  have hgrows := (PackageOnly.forM (PackageOnly.packageDecl d.vocabulary) d.file.decls
    ⟨.empty, []⟩ ⟨rfl, rfl, rfl, by simp [Scopes.empty]⟩).agrees.run d.file.trail
  have hscopes : d.scopes = (playAll d.file.trail
      (d.file.decls.forM (Resolve.packageDecl d.vocabulary) ⟨.empty, []⟩).2).2.table := by
    rw [← SourceFile.play_trail]
    rfl
  rw [hr] at hgrows hscopes
  refine ⟨r.table.bindings.length, ?_, ?_⟩
  · rw [hscopes, Scopes.packageBinding?, hgrows.2.package]
    simp
  · rw [hscopes]
    exact hgrows.2.bindings _ _ (by simp)

/-- A name that the open scopes have is found as long as none of them is closed. -/
theorem find_stays {name : String} {k : Bool} {es : List Event} {h : Nat} {env : Env}
    (hes : height k 0 es = some h) (hname : name ≠ "_") (hfind : (walk es env).find? name = none) :
    env.find? name = none := by
  have hstep : ∀ e ∈ es, ∀ l b (c : Env), k = true → e.local? = some l → b.find? name ≠ none →
      (e.walk b).find? name ≠ none := by
    intro e _ l b _ _ hl hb
    by_cases hlname : l.name = name
    · cases b with
      | nil => exact absurd rfl hb
      | cons f fs =>
        rw [Event.walk_enter hl, Env.find?_cons]
        have hself := only_enter_self (f := f) hl hlname hname
        rw [hself]
        split
        · rename_i hold
          simp [hold.2]
        · simp
    · rwa [Event.find_walk_other hl hlname]
  by_contra hb
  obtain ⟨v, _, c, _, hv, _, _, _, hc⟩ := walk_over name (fun b _ => b.find? name ≠ none) hstep hes
    env [] hb
  rw [hv, Env.find?_append, Option.or_eq_none_iff] at hfind
  exact hc hfind.2


theorem users_bare (es : List Event) : users (es.map Event.bare) = users es := by
  induction es with
  | nil => rfl
  | cons e es ih =>
    simp only [users, List.map_cons, List.filterMap_cons, e.user_bare] at ih ⊢
    rw [ih]

theorem metCount_bare (i : Nat) (es : List Event) :
    metCount (fun n => n.tag.id == i) (es.map Event.bare) = metCount (fun n => n.tag.id == i) es := by
  rw [metCount, met_bare, List.countP_map]
  exact List.countP_congr fun n _ => by simp

theorem Event.rise_bare (k : Bool) (h : Nat) (e : Event) : e.bare.rise k h = e.rise k h := by
  cases e <;> rfl

theorem height_bare (k : Bool) (h : Nat) (es : List Event) :
    height k h (es.map Event.bare) = height k h es := by
  induction es generalizing h with
  | nil => rfl
  | cons e es ih => simp [Event.rise_bare, ih]

theorem SourceFile.mem_met {f : SourceFile} {n : Node} (hn : n ∈ f.nodes)
    (hc : n.isComment = false) : n ∈ met f.trail := by
  rw [nodes, Outline.walkAll_eq_linksAll 0 none] at hn
  obtain ⟨l, hl, rfl⟩ := List.mem_map.1 hn
  refine mem_of_countP (fun q => (f.count_declLinks q).symm) ?_
  exact List.mem_map_of_mem (mem_declLinks hl hc)

namespace Document.Owned

variable {d : Document} {pre post : List Event} {e : Event} {n : Node} {name : String}

theorem mem_users_iff (hd : d.Owned)
    (htrail : d.file.trail.map Event.bare = (pre ++ e :: post).map Event.bare)
    (hn : e.node? = some n) : n.tag.id ∈ users d.file.trail ↔ e.user? = some n.tag.id := by
  have hone := hd.metCount_le_one n.tag.id
  have hself : 0 < metCount (fun m => m.tag.id == n.tag.id) [e] :=
    List.countP_pos_iff.2 ⟨n, by simp [met, hn], by simp⟩
  have hsplit : pre ++ e :: post = pre ++ ([e] ++ post) := rfl
  rw [← metCount_bare, htrail, metCount_bare, hsplit, metCount_append, metCount_append] at hone
  rw [← users_bare, htrail, users_bare, hsplit, users_append, users_append, List.mem_append,
    List.mem_append]
  constructor
  · rintro (h | h | h)
    · have := metCount_pos_of_mem_users h
      omega
    · obtain ⟨e', he', hu⟩ := List.mem_filterMap.1 h
      exact List.mem_singleton.1 he' ▸ hu
    · have := metCount_pos_of_mem_users h
      omega
  · intro hu
    exact .inr (.inl (by simp [users, hu]))

/-- An identifier whose name the package does not have is bound to what it finds, or to nothing. -/
theorem bound_or_none (hd : d.Owned) {t : Tag} (htrail : d.file.trail = pre ++ .refer t name :: post)
    (hname : d.scopes.packageBinding? name = none) :
    (d.scopes.bindingOf? t.id = none ∧ (walk pre []).find? name = none) ∨
      ∃ i l, d.scopes.bindingOf? t.id = some i ∧ d.scopes.binding? i = some l.binding ∧
        (walk pre []).find? name = some l := by
  obtain ⟨hpre, hpost⟩ := hd.user_once htrail rfl
  rcases hl : (walk pre []).find? name with _ | l
  · exact .inl ⟨(bindingOf_package htrail hpre hpost hl).trans hname, rfl⟩
  · obtain ⟨i, hi, hstands⟩ := bindingOf_refer htrail hpost hl
    exact .inr ⟨i, l, hi, hstands.binding, rfl⟩

end Document.Owned

end FuncLift
