import FuncLift.Proofs.Lookup
import FuncLift.Proofs.Session

/-!
# Declaration sites

The site of a declaration is what it is apart from its place in the text and from its type. An
identifier finds its site on the trail, and the same site on every trail that tells the same.
-/
namespace FuncLift

/-- The site of the declaration that an identifier is bound to. -/
def Scopes.site? (s : Scopes) (u : Nat) : Option Binding :=
  (s.bindingOf? u).bind fun k => (s.binding? k).map Binding.bare

theorem Scopes.site_of_stands {s : Scopes} {u k : Nat} {l : Local} (hk : s.bindingOf? u = some k)
    (hl : Stands s k l) : s.site? u = some l.binding.bare := by
  rw [site?, hk, Option.bind_some, binding?, hl.binding, Option.map_some]

/-- What the identifier of an event finds. -/
def Event.found? (env : Env) : Event → Option Local
  | .refer _ name => env.find? name
  | .range _ b => if b.name = "_" then none else some ⟨b, none⟩
  | _ => none

namespace Env

def bare (env : Env) : Env := env.map (List.map Local.bare)

theorem find_bare (env : Env) (name : String) :
    env.bare.find? name = (env.find? name).map Local.bare := by
  have hframe (f : List Local) : findIn name (f.map Local.bare) = (findIn name f).map Local.bare :=
    List.find?_map
  induction env with
  | nil => rfl
  | cons f fs ih =>
    change List.findSome? _ (f.map Local.bare :: Env.bare fs) = _
    rw [List.findSome?_cons, hframe, find?, List.findSome?_cons]
    cases findIn name f with
    | none => exact ih
    | some l => rfl

theorem find_none_congr {env env' : Env} (h : env.bare = env'.bare) (name : String) :
    env.find? name = none ↔ env'.find? name = none := by
  rw [← Option.map_eq_none_iff (f := Local.bare), ← find_bare, h, find_bare, Option.map_eq_none_iff]

theorem here_bare (env : Env) (name : String) : env.bare.here name = env.here name := by
  cases env with
  | nil => rfl
  | cons f fs =>
    change (f.map Local.bare).any _ = f.any _
    rw [List.any_map]
    rfl

theorem add_bare (env : Env) (l : Local) : env.bare.add l.bare = (env.add l).bare := by
  have hname : l.bare.name = l.name := rfl
  unfold add
  rw [hname]
  split
  · rfl
  · cases env <;> rfl

end Env

theorem Event.walk_bare (env : Env) (e : Event) : e.bare.walk env.bare = (e.walk env).bare := by
  cases e with
  | pass n | refer t name | openScope => rfl
  | closeScope => exact (List.map_tail ..).symm
  | declare l => exact env.add_bare l
  | define l =>
    have hname : l.bare.name = l.name := rfl
    simp only [Event.bare, Event.walk, hname, Env.here_bare, env.add_bare]
    split <;> rfl
  | range t b => exact env.add_bare ⟨b, none⟩

theorem walk_bare (es : List Event) (env : Env) :
    walk (es.map Event.bare) env.bare = (walk es env).bare := by
  induction es generalizing env with
  | nil => rfl
  | cons e es ih => rw [List.map_cons, walk_cons, walk_cons, e.walk_bare, ih]

/-- An event on a trail that tells the same as another one stands for an event there, with the same
scopes around it. -/
theorem split_bare {es pre post : List Event} {e : Event}
    (h : es.map Event.bare = (pre ++ e :: post).map Event.bare) :
    ∃ (pre' : List Event) (e' : Event) (post' : List Event), es = pre' ++ e' :: post' ∧
      e'.bare = e.bare ∧
      (walk pre' []).bare = (walk pre []).bare := by
  rw [List.map_append, List.map_cons] at h
  obtain ⟨pre', rest, rfl, hpre, hrest⟩ := List.map_eq_append_iff.1 h
  obtain ⟨e', post', rfl, he, _⟩ := List.map_eq_cons_iff.1 hrest
  exact ⟨pre', e', post', rfl, he, by rw [← walk_bare, ← walk_bare, hpre]⟩

theorem Event.user_bare (e : Event) : e.bare.user? = e.user? := by cases e <;> rfl

theorem Event.found_bare (env : Env) (e : Event) :
    e.bare.found? env.bare = (e.found? env).map Local.bare := by
  cases e with
  | refer t name => exact env.find_bare name
  | range t b =>
    have hname : b.bare.name = b.name := rfl
    simp only [Event.bare, found?, hname]
    split <;> rfl
  | _ => rfl

theorem Event.node_of_user {e : Event} {u : Nat} (h : e.user? = some u) :
    ∃ n, e.node? = some n ∧ n.tag.id = u := by
  cases e with
  | refer t name => exact ⟨_, rfl, Option.some.inj h⟩
  | range t b => exact ⟨_, rfl, Option.some.inj h⟩
  | _ => cases h

theorem exists_met_of_user {e : Event} {u : Nat} (h : e.user? = some u) {es : List Event}
    (he : e ∈ es) : ∃ n ∈ met es, n.tag.id = u := by
  obtain ⟨n, hn, hid⟩ := e.node_of_user h
  exact ⟨n, List.mem_filterMap.2 ⟨e, he, hn⟩, hid⟩

theorem metCount_pos_of_mem_users {u : Nat} {es : List Event} (h : u ∈ users es) :
    0 < metCount (fun n => n.tag.id == u) es := by
  obtain ⟨e, he, hu⟩ := List.mem_filterMap.1 h
  obtain ⟨n, hn, hid⟩ := exists_met_of_user hu he
  exact List.countP_pos_iff.2 ⟨n, hn, by simpa using hid⟩

namespace Document

variable {d : Document} {u : Nat} {pre post : List Event} {e : Event}

theorem Owned.metCount_le_one (hd : d.Owned) (i : Nat) :
    metCount (fun n => n.tag.id == i) d.file.trail ≤ 1 := by
  rw [SourceFile.count_trail, tallyAll_eq_linksAll _ none]
  exact hd.linkCount_le_one i

theorem Owned.user_once (hd : d.Owned) (htrail : d.file.trail = pre ++ e :: post)
    (hu : e.user? = some u) : u ∉ users pre ∧ u ∉ users post := by
  have hone := hd.metCount_le_one u
  have hself : u ∈ users [e] := by simp [users, hu]
  have hpos := metCount_pos_of_mem_users hself
  have hsplit : pre ++ e :: post = pre ++ [e] ++ post := by simp
  rw [htrail, hsplit, metCount_append, metCount_append] at hone
  constructor <;> intro h <;> have := metCount_pos_of_mem_users h <;> omega

/-- Whoever is bound to a variable of a function finds it on the trail. -/
theorem Owned.found (hd : d.Owned) {k : Nat} (hk : d.scopes.bindingOf? u = some k) {b : Binding}
    (hb : d.scopes.binding? k = some b) (hkind : b.kind = .localVar) :
    ∃ (pre : List Event) (e : Event) (post : List Event) (l : Local),
      d.file.trail = pre ++ e :: post ∧ e.user? = some u ∧
        e.found? (walk pre []) = some l ∧ Stands d.scopes k l ∧ l.binding = b := by
  obtain ⟨e, he, hu⟩ := List.mem_filterMap.1 (mem_users hk)
  obtain ⟨pre, post, htrail⟩ := List.append_of_mem he
  obtain ⟨hpre, hpost⟩ := hd.user_once htrail hu
  have hstands {l : Local} (hl : ∃ n, d.scopes.bindingOf? u = some n ∧ Stands d.scopes n l) :
      Stands d.scopes k l ∧ l.binding = b := by
    obtain ⟨n, hn, hl⟩ := hl
    obtain rfl : n = k := Option.some.inj (hn.symm.trans hk)
    exact ⟨hl, Option.some.inj (hl.binding.symm.trans hb)⟩
  cases e with
  | refer t name =>
    cases hu
    rcases hl : (walk pre []).find? name with _ | l
    · exact absurd hkind (kind_of_find_none htrail hpre hpost hl hk hb)
    · exact ⟨pre, _, post, l, htrail, rfl, hl, hstands (bindingOf_refer htrail hpost hl)⟩
  | range t b' =>
    cases hu
    by_cases hname : b'.name = "_"
    · rw [bindingOf_blank htrail hpre hpost hname] at hk
      cases hk
    · exact ⟨pre, _, post, ⟨b', none⟩, htrail, rfl, if_neg hname,
        hstands (bindingOf_range htrail hpost hname)⟩
  | _ => cases hu

/-- What an identifier finds on a trail that tells the same is its site. -/
theorem Owned.site_of_found (hd : d.Owned)
    (htrail : d.file.trail.map Event.bare = (pre ++ e :: post).map Event.bare)
    (hu : e.user? = some u) {l : Local} (hl : e.found? (walk pre []) = some l) :
    d.scopes.site? u = some l.binding.bare := by
  obtain ⟨pre', e', post', htrail, he, hwalk⟩ := split_bare htrail
  rw [← e.user_bare, ← he, e'.user_bare] at hu
  have hfound : (e'.found? (walk pre' [])).map Local.bare = some l.bare := by
    rw [← e'.found_bare, he, hwalk, e.found_bare, hl, Option.map_some]
  obtain ⟨l', hl', hbare⟩ := Option.map_eq_some_iff.1 hfound
  have hsite : l'.binding.bare = l.binding.bare := congrArg Local.binding hbare
  rw [← hsite]
  obtain ⟨_, hpost⟩ := hd.user_once htrail hu
  cases e' with
  | refer t name =>
    cases hu
    obtain ⟨n, hn, hstands⟩ := bindingOf_refer htrail hpost hl'
    exact Scopes.site_of_stands hn hstands
  | range t b =>
    cases hu
    simp only [Event.found?] at hl'
    split at hl'
    · cases hl'
    · rename_i hname
      cases hl'
      obtain ⟨n, hn, hstands⟩ := bindingOf_range htrail hpost hname
      exact Scopes.site_of_stands hn hstands
  | _ => cases hu

end Document

end FuncLift
