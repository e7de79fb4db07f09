import FuncLift.Proofs.Detour

/-!
# Looking names up along a trail

Two walks along the same trail from different scopes find the same declarations, as far as these are
made on the way. They may differ in what they find below, and in this: whether a name that is
defined is new depends on the scope that was there before.
-/
namespace FuncLift

namespace Event

def local? : Event → Option Local
  | .declare l | .define l => some l
  | .range _ b => some ⟨b, none⟩
  | _ => none

/-- Whether an event leaves a name alone that the scope has. -/
def spares : Event → Bool
  | .define _ => true
  | _ => false

def enter (f : List Local) : Event → List Local
  | .declare l => if l.name = "_" then f else l :: f
  | .define l => if f.any (fun m => m.name == l.name) then f else if l.name = "_" then f else l :: f
  | .range _ b => if b.name = "_" then f else ⟨b, none⟩ :: f
  | _ => f

theorem walk_enter {e : Event} {l : Local} (he : e.local? = some l) (f : List Local) (fs : Env) :
    e.walk (f :: fs) = e.enter f :: fs := by
  cases e with
  | declare l =>
    simp only [walk, Env.add, enter]
    split <;> rfl
  | define l =>
    simp only [walk, Env.add, Env.here, enter, List.head?_cons, Option.getD_some]
    split
    · rfl
    · split <;> rfl
  | range t b =>
    by_cases hb : b.name = "_" <;> simp [walk, Env.add, enter, Local.name, hb]
  | _ => cases he

end Event

def locals (es : List Event) : List Local := es.filterMap Event.local?

@[simp] theorem locals_nil : locals [] = [] := rfl

@[simp] theorem locals_append (es fs : List Event) : locals (es ++ fs) = locals es ++ locals fs :=
  List.filterMap_append

def only (name : String) (f : List Local) : List Local := f.filter fun l => l.name == name

section Only

variable {name : String} {f : List Local} {e : Event} {l : Local}

@[simp] theorem only_nil : only name [] = [] := rfl

theorem only_cons_self (h : l.name = name) : only name (l :: f) = l :: only name f := by
  simp [only, h]

theorem only_cons_other (h : l.name ≠ name) : only name (l :: f) = only name f := by
  simp [only, h]

theorem mem_only : l ∈ only name f ↔ l ∈ f ∧ l.name = name := by simp [only]

theorem any_iff_only : (f.any fun m => m.name == name) = !(only name f).isEmpty := by
  rw [Bool.eq_iff_iff, Bool.not_eq_true', List.isEmpty_eq_false_iff_exists_mem]
  simp [only]

theorem only_enter_other (he : e.local? = some l) (hl : l.name ≠ name) :
    only name (e.enter f) = only name f := by
  cases e with
  | declare m | define m | range t b =>
    cases he
    simp only [Event.enter]
    repeat' split
    all_goals first
      | rfl
      | exact only_cons_other hl
  | _ => cases he

theorem only_enter_self (he : e.local? = some l) (hl : l.name = name) (hname : name ≠ "_") :
    only name (e.enter f) =
      if e.spares = true ∧ only name f ≠ [] then only name f else l :: only name f := by
  cases e with
  | declare m =>
    cases he
    rw [Event.enter, if_neg (hl ▸ hname), only_cons_self hl]
    rfl
  | range t b =>
    cases he
    have hb : b.name ≠ "_" := fun h => hname (hl.symm.trans h)
    rw [Event.enter, if_neg hb, only_cons_self hl]
    rfl
  | define m =>
    cases he
    rw [Event.enter, any_iff_only, hl]
    by_cases h : only name f = []
    · simp [h, hname, only_cons_self hl]
    · simp [h, Event.spares]
  | _ => cases he

theorem only_enter_congr (he : e.local? = some l) {g : List Local}
    (h : only name f = only name g) : only name (e.enter f) = only name (e.enter g) := by
  by_cases hl : l.name = name
  · subst hl
    have hany : (f.any fun m => m.name == l.name) = g.any fun m => m.name == l.name := by
      rw [any_iff_only, any_iff_only, h]
    cases e with
    | declare m | define m | range t b =>
      cases he
      simp only [Event.enter, hany]
      repeat' split
      all_goals first
        | exact h
        | rw [only_cons_self rfl, only_cons_self rfl, h]
    | _ => cases he
  · rw [only_enter_other he hl, only_enter_other he hl, h]

theorem Event.exists_enter (he : e.local? = some l) (f : List Local) :
    ∃ a, e.enter f = a ++ f ∧ (∀ m ∈ a, m = l) ∧ (l.name ≠ "_" → only l.name (a ++ f) ≠ []) := by
  have hkeep (h : l.name ≠ "_" → only l.name f ≠ []) : ∃ a, f = a ++ f ∧ (∀ m ∈ a, m = l) ∧
      (l.name ≠ "_" → only l.name (a ++ f) ≠ []) := ⟨[], rfl, by simp, h⟩
  have hadd : ∃ a, l :: f = a ++ f ∧ (∀ m ∈ a, m = l) ∧
      (l.name ≠ "_" → only l.name (a ++ f) ≠ []) :=
    ⟨[l], rfl, by simp, fun _ => by simp [only_cons_self rfl]⟩
  cases e with
  | declare m | range t b =>
    cases he
    simp only [enter]
    split
    · exact hkeep fun hname => by contradiction
    · exact hadd
  | define m =>
    cases he
    rw [enter, any_iff_only]
    split
    · rename_i hhere
      exact hkeep fun _ => by simpa using hhere
    · split
      · exact hkeep fun hname => by contradiction
      · exact hadd
  | _ => cases he

end Only

namespace Env

variable {name : String}

@[simp] theorem find?_nil : Env.find? [] name = none := rfl

theorem find?_cons (f : List Local) (fs : Env) :
    Env.find? (f :: fs) name = (only name f).head?.or (Env.find? fs name) := by
  have hfind : findIn name f = (only name f).head? := by rw [findIn, only, List.head?_filter]
  rw [find?, List.findSome?_cons, hfind, find?]
  cases (only name f).head? <;> rfl

theorem find?_append (a b : Env) :
    Env.find? (a ++ b) name = (Env.find? a name).or (Env.find? b name) := by
  induction a with
  | nil => rfl
  | cons f a ih => rw [List.cons_append, find?_cons, find?_cons, ih, Option.or_assoc]

theorem find?_congr {a b : Env} (h : a.map (only name) = b.map (only name)) :
    Env.find? a name = Env.find? b name := by
  induction a generalizing b with
  | nil =>
    cases b with
    | nil => rfl
    | cons => cases h
  | cons f a ih =>
    cases b with
    | nil => cases h
    | cons g b =>
      obtain ⟨hf, ha⟩ := List.cons.inj h
      rw [find?_cons, find?_cons, hf, ih ha]

theorem mem_of_find? {env : Env} {l : Local} (h : Env.find? env name = some l) :
    l.name = name ∧ ∃ f ∈ env, l ∈ f := by
  obtain ⟨f, hf, hl⟩ := List.exists_of_findSome?_eq_some h
  exact ⟨by simpa using List.find?_some hl, f, hf, List.mem_of_find?_eq_some hl⟩

end Env

def Event.added? (env : Env) (e : Event) : Option Local :=
  e.local?.filter fun l => l.name != "_" && !(e.spares && env.here l.name)

def added : Env → List Event → List Local
  | _, [] => []
  | env, e :: es => (e.added? env).toList ++ added (e.walk env) es

section Added

variable {env : Env} {e : Event} {es : List Event} {l : Local}

theorem added_append (es fs : List Event) (env : Env) :
    added env (es ++ fs) = added env es ++ added (walk es env) fs := by
  induction es generalizing env with
  | nil => rfl
  | cons e es ih => rw [List.cons_append, added, added, ih, walk_cons, List.append_assoc]

theorem Event.added_eq (he : e.local? = some l) (hname : l.name ≠ "_") (env : Env) :
    e.added? env = if e.spares = true ∧ env.here l.name = true then none else some l := by
  rw [added?, he, Option.filter_some]
  cases hspares : e.spares <;> cases hhere : env.here l.name <;> simp [hname]

theorem Event.walk_add (he : e.local? = some l) :
    e.walk env = match e.added? env with
      | some m => env.add m
      | none => env := by
  by_cases hname : l.name = "_"
  · have hnone : e.added? env = none := by
      rw [added?, he, Option.filter_some]
      simp [hname]
    have hadd : env.add l = env := if_pos hname
    rw [hnone]
    cases e with
    | define m =>
      cases he
      rw [walk, hadd]
      exact ite_self _
    | declare m | range t b =>
      cases he
      exact hadd
    | _ => cases he
  · rw [added_eq he hname]
    cases e with
    | define m =>
      cases he
      simp only [walk, spares, true_and]
      split <;> rfl
    | declare m | range t b =>
      cases he
      rfl
    | _ => cases he

theorem Env.mem_add {m : Local} (hm : m.name ≠ "_") :
    (∃ f ∈ env.add m, l ∈ f) ↔ l = m ∨ ∃ f ∈ env, l ∈ f := by
  unfold Env.add
  rw [if_neg hm]
  cases env <;> simp [or_assoc]

theorem Event.name_of_added (h : e.added? env = some l) : e.local? = some l ∧ l.name ≠ "_" := by
  obtain ⟨he, hkept⟩ := Option.filter_eq_some_iff.1 h
  exact ⟨he, by simpa using (Bool.and_eq_true_iff.1 hkept).1⟩

theorem Event.mem_walk : (∃ f ∈ e.walk env, l ∈ f) →
    (∃ f ∈ env, l ∈ f) ∨ e.added? env = some l := by
  intro h
  have hdeclared {m : Local} (he : e.local? = some m) :
      (∃ f ∈ env, l ∈ f) ∨ e.added? env = some l := by
    rw [walk_add he] at h
    split at h
    · rename_i k hk
      rw [hk]
      exact ((Env.mem_add (name_of_added hk).2).1 h).symm.imp_right fun hl => by rw [hl]
    · exact .inl h
  cases e with
  | pass n | refer t x => exact .inl h
  | openScope =>
    obtain ⟨f, hf, hl⟩ := h
    rcases List.mem_cons.1 hf with rfl | hf
    · cases hl
    · exact .inl ⟨f, hf, hl⟩
  | closeScope =>
    obtain ⟨f, hf, hl⟩ := h
    exact .inl ⟨f, List.mem_of_mem_tail hf, hl⟩
  | declare m | define m | range t b => exact hdeclared rfl

theorem mem_walk {f : List Local} (hf : f ∈ walk es env) (hl : l ∈ f) :
    (∃ g ∈ env, l ∈ g) ∨ l ∈ added env es := by
  induction es generalizing env with
  | nil => exact .inl ⟨f, hf, hl⟩
  | cons e es ih =>
    rw [added, List.mem_append, Option.mem_toList]
    rcases ih hf with h | h
    · exact (Event.mem_walk h).imp_right .inl
    · exact .inr (.inr h)

theorem mem_added (h : l ∈ added env es) : (l ∈ locals es ∧ l.name ≠ "_") ∧
    ∃ pre post, es = pre ++ post ∧ ∃ f ∈ walk pre env, l ∈ f := by
  induction es generalizing env with
  | nil => cases h
  | cons e es ih =>
    have hcons : locals (e :: es) = e.local?.toList ++ locals es := by
      cases he : e.local? <;> simp [locals, he]
    rw [hcons]
    rcases List.mem_append.1 h with h | h
    · have hadded : e.added? env = some l := Option.mem_toList.1 h
      obtain ⟨hlocal, hname⟩ := Event.name_of_added hadded
      refine ⟨⟨by simp [hlocal], hname⟩, [e], es, rfl, ?_⟩
      rw [walk_cons, Event.walk_add hlocal, hadded]
      exact (Env.mem_add hname).2 (.inl rfl)
    · obtain ⟨⟨hlocal, hname⟩, pre, post, hes, hin⟩ := ih h
      exact ⟨⟨List.mem_append_right _ hlocal, hname⟩, e :: pre, post, by rw [hes]; rfl, hin⟩

theorem added_of_find {name : String} (h : (walk es []).find? name = some l) :
    l.name = name ∧ name ≠ "_" ∧ l ∈ added [] es := by
  obtain ⟨rfl, f, hf, hl⟩ := Env.mem_of_find? h
  rcases mem_walk hf hl with ⟨g, hg, _⟩ | hadded
  · cases hg
  · exact ⟨rfl, (mem_added hadded).1.2, hadded⟩

end Added

/-- Two walks along one trail. On top of what was there before, both have the same declarations of a
name; below, a relation holds that bears what is declared in the scope around the trail. -/
theorem walk_append_over {name : String} {B : Env → Env → Prop} {k : Bool}
    {es : List Event} (hB : ∀ e ∈ es, ∀ l b b', k = true → e.local? = some l → B b b' →
      B (e.walk b) (e.walk b')) {h h' : Nat} (hes : height k h es = some h') {u w b b' : Env}
    (hlength : u.length = h) (hu : u.map (only name) = w.map (only name)) (hb : B b b') :
    ∃ v v' c c', walk es (u ++ b) = v ++ c ∧ walk es (w ++ b') = v' ++ c' ∧ v.length = h' ∧
      v.map (only name) = v'.map (only name) ∧ B c c' := by
  induction es generalizing h u w b b' with
  | nil =>
    cases hes
    exact ⟨u, w, b, b', rfl, rfl, hlength, hu, hb⟩
  | cons e es ih =>
    rw [height_cons, Option.bind_eq_some_iff] at hes
    obtain ⟨h₁, he, hes⟩ := hes
    replace ih := @ih fun x hx => hB x (List.mem_cons_of_mem _ hx)
    have hdeclared {l : Local} (hl : e.local? = some l) (hrise : h₁ = h)
        (hk : h = 0 → k = true) : ∃ v v' c c', walk (e :: es) (u ++ b) = v ++ c ∧
          walk (e :: es) (w ++ b') = v' ++ c' ∧ v.length = h' ∧
          v.map (only name) = v'.map (only name) ∧ B c c' := by
      cases u with
      | nil =>
        obtain rfl : w = [] := by simpa using hu.symm
        exact ih hes (hlength.trans hrise.symm) rfl
          (hB e List.mem_cons_self l b b' (hk hlength.symm) hl hb)
      | cons f u =>
        cases w with
        | nil => cases hu
        | cons g w =>
          obtain ⟨hfg, hu⟩ := List.cons.inj hu
          have hmap : (e.enter f :: u).map (only name) = (e.enter g :: w).map (only name) := by
            rw [List.map_cons, List.map_cons, only_enter_congr hl hfg, hu]
          have hrest := ih (u := e.enter f :: u) hes (by simpa [hrise] using hlength) hmap hb
          rw [walk_cons, walk_cons, List.cons_append, List.cons_append, Event.walk_enter hl,
            Event.walk_enter hl]
          exact hrest
    cases e with
    | pass n | refer t x =>
      cases he
      exact ih hes hlength hu hb
    | openScope =>
      cases he
      exact ih (u := [] :: u) (w := [] :: w) hes (by simp [hlength]) (by simp [hu]) hb
    | closeScope =>
      simp only [Event.rise] at he
      split at he
      · cases he
      · cases he
        cases u with
        | nil => cases hlength; contradiction
        | cons f u =>
          cases w with
          | nil => cases hu
          | cons g w =>
            exact ih (u := u) (w := w) hes (by simp [← hlength]) (List.cons.inj hu).2 hb
    | declare l | define l | range t x =>
      simp only [Event.rise] at he
      split at he
      · cases he
      · rename_i hk
        cases he
        refine hdeclared rfl rfl fun h0 => ?_
        cases k with
        | true => rfl
        | false => exact absurd ⟨h0, rfl⟩ hk

theorem walk_over (name : String) (B : Env → Env → Prop) {k : Bool} {es : List Event}
    (hB : ∀ e ∈ es, ∀ l b b', k = true → e.local? = some l → B b b' → B (e.walk b) (e.walk b'))
    {h : Nat} (hes : height k 0 es = some h) (b b' : Env) (hb : B b b') :
    ∃ v v' c c', walk es b = v ++ c ∧ walk es b' = v' ++ c' ∧ v.length = h ∧
      v.map (only name) = v'.map (only name) ∧ B c c' :=
  walk_append_over hB hes (u := []) (w := []) rfl rfl hb

theorem Env.here_cons {name : String} (f : List Local) (fs : Env) :
    Env.here (f :: fs) name = true ↔ only name f ≠ [] := by
  rw [here, List.head?_cons, Option.getD_some, any_iff_only]
  simp

/-- Two scopes with the declarations of a name that were added to them. As far as something was added
to the first, the newest is the same in both. -/
def Beside (name : String) (g g' : List Local) (fs fs' b b' : Env) : Prop :=
  ∃ f f' a a', b = f :: fs ∧ b' = f' :: fs' ∧ only name f = a ++ g ∧ only name f' = a' ++ g' ∧
    (a = [] ∨ a.head? = a'.head?) ∧ ((g = [] ↔ g' = []) → a = a')

theorem Beside.walk {name : String} (hname : name ≠ "_") {g g' : List Local} (hg : g = [] → g' = [])
    {fs fs' b b' : Env} {e : Event} {l : Local} (he : e.local? = some l)
    (h : Beside name g g' fs fs' b b') : Beside name g g' fs fs' (e.walk b) (e.walk b') := by
  obtain ⟨f, f', a, a', rfl, rfl, hf, hf', hhead, hsame⟩ := h
  rw [Event.walk_enter he, Event.walk_enter he]
  by_cases hl : l.name = name
  · have hstep := only_enter_self (f := f) he hl hname
    have hstep' := only_enter_self (f := f') he hl hname
    rw [hf] at hstep
    rw [hf'] at hstep'
    by_cases hold : e.spares = true ∧ a ++ g ≠ []
    · rw [if_pos hold] at hstep
      by_cases hold' : e.spares = true ∧ a' ++ g' ≠ []
      · rw [if_pos hold'] at hstep'
        exact ⟨_, _, a, a', rfl, rfl, hstep, hstep', hhead, hsame⟩
      · -- only the second gets the name: the first has it from before
        rw [if_neg hold'] at hstep'
        have hnil : a' ++ g' = [] := by simpa [hold.1] using hold'
        obtain ⟨rfl, rfl⟩ := List.append_eq_nil_iff.1 hnil
        have ha : a = [] := by simpa using hhead
        subst ha
        have hne : g ≠ [] := hold.2
        exact ⟨_, _, [], [l], rfl, rfl, hstep, hstep', .inl rfl, fun h => absurd (h.2 rfl) hne⟩
    · rw [if_neg hold] at hstep
      by_cases hold' : e.spares = true ∧ a' ++ g' ≠ []
      · have hnil : a ++ g = [] := by simpa [hold'.1] using hold
        obtain ⟨rfl, rfl⟩ := List.append_eq_nil_iff.1 hnil
        have hg' := hg rfl
        rw [← hsame ⟨fun _ => hg', fun _ => rfl⟩, hg'] at hold'
        exact absurd rfl hold'.2
      · rw [if_neg hold'] at hstep'
        exact ⟨_, _, l :: a, l :: a', rfl, rfl, hstep, hstep', .inr rfl,
          fun h => by rw [hsame h]⟩
  · rw [← only_enter_other he hl] at hf hf'
    exact ⟨_, _, a, a', rfl, rfl, hf, hf', hhead, hsame⟩

section Over

variable {name : String} {k : Bool} {es : List Event} {h : Nat} {env : Env}

theorem find_over (env env' : Env) (hes : height k 0 es = some h) (hname : name ≠ "_")
    (henv : k = true → env ≠ [] ∧ env' ≠ [] ∧ (env'.here name = true → env.here name = true)) :
    (walk es env').find? name = (walk es env).find? name ∨
      ((walk es env).find? name = env.find? name ∧
        (env.here name = env'.here name → (walk es env').find? name = env'.find? name)) := by
  cases k with
  | false =>
    obtain ⟨v, v', c, c', hv, hv', _, hsame, rfl, rfl⟩ :=
      walk_over name (fun b b' => b = env ∧ b' = env') (fun _ _ _ _ _ hk => by cases hk) hes
        _ _ ⟨rfl, rfl⟩
    rw [hv, hv', Env.find?_append, Env.find?_append, ← Env.find?_congr hsame]
    cases Env.find? v name with
    | none => exact .inr ⟨rfl, fun _ => rfl⟩
    | some l => exact .inl rfl
  | true =>
    obtain ⟨hne, hne', hhere⟩ := henv rfl
    match env, env', hne, hne' with
    | f :: fs, f' :: fs', _, _ =>
      rw [Env.here_cons, Env.here_cons] at hhere
      have hg : only name f = [] → only name f' = [] := fun h =>
        Decidable.byContradiction fun h' => hhere h' h
      obtain ⟨v, v', c, c', hv, hv', _, hsame, hbeside⟩ :=
        walk_over name (Beside name (only name f) (only name f') fs fs')
          (fun _ _ _ _ _ _ hl hb => hb.walk hname hg hl) hes _ _
          ⟨f, f', [], [], rfl, rfl, rfl, rfl, .inl rfl, fun _ => rfl⟩
      obtain ⟨x, x', a, a', rfl, rfl, hx, hx', hhead, hboth⟩ := hbeside
      rw [hv, hv', Env.find?_append, Env.find?_append, ← Env.find?_congr hsame]
      cases Env.find? v name with
      | some l => exact .inl rfl
      | none =>
        rw [Option.none_or, Option.none_or, Env.find?_cons, Env.find?_cons, hx, hx']
        cases a with
        | nil =>
          refine .inr ⟨by rw [List.nil_append, Env.find?_cons], fun heq => ?_⟩
          have hiff : only name f = [] ↔ only name f' = [] := by
            rw [Bool.eq_iff_iff, Env.here_cons, Env.here_cons] at heq
            exact not_iff_not.1 heq
          rw [← hboth hiff, List.nil_append, Env.find?_cons]
        | cons l a =>
          have hl : some l = a'.head? := by simpa using hhead
          refine .inl ?_
          rw [List.head?_append, ← hl]
          rfl

theorem find_before (hes : height k 0 es = some h) (hname : name ≠ "_") (hne : k = true → env ≠ [])
    {l : Local} (hl : (walk es env).find? name = some l) (hnew : l ∉ locals es) :
    env.find? name = some l := by
  rcases find_over env [[]] hes hname
    (fun hk => ⟨hne hk, by simp, fun h => by cases h⟩) with hsame | ⟨hbefore, _⟩
  · -- along with no scope below, it is found as well: so it is declared on the way
    rw [hl] at hsame
    obtain ⟨_, f, hf, hlf⟩ := Env.mem_of_find? hsame
    rcases mem_walk hf hlf with ⟨g, hg, hlg⟩ | hadded
    · rw [List.mem_singleton.1 hg] at hlg
      cases hlg
    · exact absurd (mem_added hadded).1.1 hnew
  · rw [← hbefore, hl]

theorem Event.find_walk_other {e : Event} {l : Local} (he : e.local? = some l) (hl : l.name ≠ name)
    (env : Env) :
    (e.walk env).find? name = env.find? name := by
  cases env with
  | nil =>
    rcases hfound : (e.walk []).find? name with _ | m
    · rfl
    · obtain ⟨hm, f, hf, hmf⟩ := Env.mem_of_find? hfound
      rcases Event.mem_walk ⟨f, hf, hmf⟩ with ⟨g, hg, _⟩ | hadded
      · cases hg
      · have hml : some l = some m := he.symm.trans (Event.name_of_added hadded).1
        exact absurd (Option.some.inj hml ▸ hm) hl
  | cons f fs => rw [Event.walk_enter he, Env.find?_cons, Env.find?_cons, only_enter_other he hl]

theorem Level.walk_eq (hes : Level false es) : walk es env = env := by
  obtain ⟨v, _, c, _, hv, _, hlength, _, rfl, _⟩ := walk_over ""
    (fun b b' => b = env ∧ b' = env) (fun _ _ _ _ _ hk => by cases hk) hes _ _ ⟨rfl, rfl⟩
  rw [List.eq_nil_of_length_eq_zero hlength] at hv
  exact hv

theorem Level.walk_cons (hes : Level true es) (f : List Local) (fs : Env) :
    ∃ a, walk es (f :: fs) = (a ++ f) :: fs ∧ ∀ l ∈ a, l ∈ locals es := by
  have hadds : ∀ e ∈ es, ∀ l b (c : Env), true = true → e.local? = some l →
      (∃ a, b = (a ++ f) :: fs ∧ ∀ l ∈ a, l ∈ locals es) →
      ∃ a, e.walk b = (a ++ f) :: fs ∧ ∀ l ∈ a, l ∈ locals es := by
    rintro e he l _ _ _ hl ⟨a, rfl, ha⟩
    obtain ⟨b, hb, hmem, _⟩ := Event.exists_enter hl (a ++ f)
    refine ⟨b ++ a, by rw [Event.walk_enter hl, hb, List.append_assoc], fun m hm => ?_⟩
    rcases List.mem_append.1 hm with hm | hm
    · exact List.mem_filterMap.2 ⟨e, he, hmem m hm ▸ hl⟩
    · exact ha m hm
  obtain ⟨v, _, c, _, hv, _, hlength, _, a, rfl, ha⟩ := walk_over ""
    (fun b _ => ∃ a, b = (a ++ f) :: fs ∧ ∀ l ∈ a, l ∈ locals es) hadds hes
    (f :: fs) [] ⟨[], rfl, by simp⟩
  rw [List.eq_nil_of_length_eq_zero hlength] at hv
  exact ⟨a, hv, ha⟩

theorem exists_close {n : Nat} (hes : height true n es = none) :
    ∃ a b, es = a ++ Event.closeScope :: b ∧ height true n a = some 0 := by
  induction es generalizing n with
  | nil => cases hes
  | cons e es ih =>
    rw [height_cons] at hes
    have hon {m : Nat} (he : e.rise true n = some m) :
        ∃ a b, e :: es = a ++ Event.closeScope :: b ∧ height true n a = some 0 := by
      rw [he, Option.bind_some] at hes
      obtain ⟨a, b, rfl, ha⟩ := ih hes
      exact ⟨e :: a, b, rfl, by rw [height_cons, he, Option.bind_some, ha]⟩
    cases e with
    | closeScope =>
      cases n with
      | zero => exact ⟨[], es, rfl, rfl⟩
      | succ n => exact hon rfl
    | pass _ | refer _ _ | openScope => exact hon rfl
    | declare _ | define _ | range _ _ => exact hon (if_neg (by simp))

theorem walk_closed (hes : height true 0 es = none) (f g : List Local) (fs : Env) :
    walk es (f :: fs) = walk es (g :: fs) := by
  obtain ⟨a, b, rfl, ha⟩ := exists_close hes
  obtain ⟨c, hc, _⟩ := Level.walk_cons ha f fs
  obtain ⟨c', hc', _⟩ := Level.walk_cons ha g fs
  rw [walk_append, walk_append, hc, hc']
  rfl

theorem length_walk (hes : height false 0 es = some h) : (walk es []).length = h := by
  obtain ⟨v, _, c, _, hv, _, hlength, _, rfl, _⟩ := walk_over ""
    (fun b b' => b = [] ∧ b' = []) (fun _ _ _ _ _ hk => by cases hk) hes _ _ ⟨rfl, rfl⟩
  rw [List.append_nil] at hv
  rw [hv, hlength]

end Over

def Quiet (name : String) (env : Env) (es : List Event) : Prop :=
  ∀ l ∈ added env es, l.name ≠ name

section Quiet

variable {name : String} {env : Env} {e : Event} {es : List Event}

theorem Quiet.cons_iff : Quiet name env (e :: es) ↔
    (∀ l, e.added? env = some l → l.name ≠ name) ∧ Quiet name (e.walk env) es := by
  simp only [Quiet, added, List.mem_append, Option.mem_toList]
  constructor
  · exact fun h => ⟨fun l hl => h l (.inl hl), fun l hl => h l (.inr hl)⟩
  · rintro ⟨h, h'⟩ l (hl | hl)
    · exact h l hl
    · exact h' l hl

theorem Quiet.left {fs : List Event} (h : Quiet name env (es ++ fs)) : Quiet name env es := by
  intro l hl
  refine h l ?_
  rw [added_append]
  exact List.mem_append_left _ hl

theorem Event.walk_spared {l : Local} (he : e.local? = some l) (hspares : e.spares = true)
    (hhere : env.here l.name = true) : e.walk env = env := by
  cases e with
  | define m =>
    cases he
    exact if_pos hhere
  | _ => cases hspares

theorem Env.here_walk_other {l : Local} (he : e.local? = some l) (hl : l.name ≠ name) :
    (e.walk env).here name = env.here name := by
  cases env with
  | nil =>
    have hfound := Event.find_walk_other he hl []
    cases hwalk : e.walk [] with
    | nil => rfl
    | cons f fs =>
      rw [hwalk, Env.find?_cons, Env.find?_nil, Option.or_eq_none_iff, List.head?_eq_none_iff] at hfound
      rw [Bool.eq_iff_iff, Env.here_cons]
      simp [hfound.1, Env.here]
  | cons f fs =>
    rw [Event.walk_enter he, Bool.eq_iff_iff, Env.here_cons, Env.here_cons, only_enter_other he hl]

/-- Scopes that have nothing of a name do not hide what the ones around them have. -/
theorem Env.find?_append_of_none {v c : Env} (hv : ∀ f ∈ v, only name f = []) :
    (v ++ c).find? name = c.find? name := by
  induction v with
  | nil => rfl
  | cons f v ih =>
    rw [List.cons_append, Env.find?_cons, hv f List.mem_cons_self]
    exact ih fun g hg => hv g (List.mem_cons_of_mem _ hg)

/-- A declaration of another name adds nothing of this one, in whichever scope it lands. -/
theorem Event.walk_append_other {e : Event} {l : Local} (hl : e.local? = some l)
    (hother : l.name ≠ name) {v c : Env} (hv : ∀ f ∈ v, only name f = []) :
    ∃ v' c', e.walk (v ++ c) = v' ++ c' ∧ v'.length = v.length ∧ (∀ f ∈ v', only name f = []) ∧
      c'.here name = c.here name ∧ c'.find? name = c.find? name := by
  cases v with
  | nil => exact ⟨[], e.walk c, rfl, rfl, hv, Env.here_walk_other hl hother,
      Event.find_walk_other hl hother c⟩
  | cons f v =>
    refine ⟨e.enter f :: v, c, Event.walk_enter hl f (v ++ c), rfl, ?_, rfl, rfl⟩
    obtain ⟨hf, hv⟩ := List.forall_mem_cons.1 hv
    exact List.forall_mem_cons.2 ⟨(only_enter_other hl hother).trans hf, hv⟩

theorem Quiet.find_append_over {k : Bool} {h h' : Nat} (hes : height k h es = some h')
    (hname : name ≠ "_") {u w b b' : Env} (hlength : u.length = h) (hlength' : w.length = h)
    (hu : ∀ f ∈ u, only name f = []) (hw : ∀ f ∈ w, only name f = [])
    (hhere : b.here name = true → b'.here name = true) (hquiet : Quiet name (u ++ b) es) :
    (walk es (u ++ b)).find? name = b.find? name ∧
      (walk es (w ++ b')).find? name = b'.find? name := by
  induction es generalizing h u w b b' with
  | nil => exact ⟨Env.find?_append_of_none hu, Env.find?_append_of_none hw⟩
  | cons e es ih =>
    rw [height_cons, Option.bind_eq_some_iff] at hes
    obtain ⟨h₁, he, hes⟩ := hes
    obtain ⟨hadds, hquiet⟩ := Quiet.cons_iff.1 hquiet
    have hdeclared {l : Local} (hl : e.local? = some l) (hrise : h₁ = h) :
        (walk (e :: es) (u ++ b)).find? name = b.find? name ∧
          (walk (e :: es) (w ++ b')).find? name = b'.find? name := by
      subst hrise
      by_cases hother : l.name = name
      · -- nothing is added, so the scope around has the name, and no other one is open
        subst hother
        have hadded := Event.added_eq hl hname (u ++ b)
        split at hadded
        · rename_i hspared
          cases u with
          | nil =>
            obtain rfl : w = [] := List.eq_nil_of_length_eq_zero (hlength'.trans hlength.symm)
            have hsame : e.walk ([] ++ b) = [] ++ b := Event.walk_spared hl hspared.1 hspared.2
            have hsame' : e.walk ([] ++ b') = [] ++ b' :=
              Event.walk_spared hl hspared.1 (hhere hspared.2)
            rw [hsame] at hquiet
            rw [walk_cons, walk_cons, hsame, hsame']
            exact ih hes hlength hlength' hu hw hhere hquiet
          | cons f u =>
            exact absurd (hu f List.mem_cons_self) ((Env.here_cons f _).1 hspared.2)
        · exact absurd rfl (hadds l hadded)
      · obtain ⟨v, c, hv, hvlength, hvnone, hchere, hcfind⟩ :=
          Event.walk_append_other (c := b) hl hother hu
        obtain ⟨v', c', hv', hvlength', hvnone', hchere', hcfind'⟩ :=
          Event.walk_append_other (c := b') hl hother hw
        rw [walk_cons, walk_cons, hv, hv', ← hcfind, ← hcfind']
        rw [hv] at hquiet
        refine ih hes (hvlength.trans hlength) (hvlength'.trans hlength') hvnone hvnone' ?_ hquiet
        rwa [hchere, hchere']
    cases e with
    | pass n | refer t x =>
      cases he
      exact ih hes hlength hlength' hu hw hhere hquiet
    | openScope =>
      cases he
      have hopen {v : Env} (hv : ∀ f ∈ v, only name f = []) :
          ∀ f ∈ [] :: v, only name f = [] := List.forall_mem_cons.2 ⟨rfl, hv⟩
      exact ih (u := [] :: u) (w := [] :: w) hes (by simp [hlength]) (by simp [hlength'])
        (hopen hu) (hopen hw) hhere hquiet
    | closeScope =>
      simp only [Event.rise] at he
      split at he
      · cases he
      · cases he
        obtain ⟨f, u, rfl⟩ : ∃ f v, u = f :: v := List.exists_cons_of_length_pos (by omega)
        obtain ⟨g, w, rfl⟩ : ∃ g v, w = g :: v := List.exists_cons_of_length_pos (by omega)
        exact ih (u := u) (w := w) hes (by simp [← hlength]) (by simp [← hlength'])
          (List.forall_mem_cons.1 hu).2 (List.forall_mem_cons.1 hw).2 hhere hquiet
    | declare l | define l | range t x =>
      simp only [Event.rise] at he
      split at he
      · cases he
      · cases he
        exact hdeclared rfl rfl

/-- Where a trail adds no declaration of a name, it adds none over another scope either that has the
name if the first one has it. So the name stays what it was in both. -/
theorem Quiet.find_over {k : Bool} {h : Nat} (hes : height k 0 es = some h) (hname : name ≠ "_")
    {env' : Env} (hhere : env.here name = true → env'.here name = true)
    (hquiet : Quiet name env es) : (walk es env).find? name = env.find? name ∧
      (walk es env').find? name = env'.find? name := by
  have hnil : ∀ f ∈ ([] : Env), only name f = [] := fun f hf => by cases hf
  exact Quiet.find_append_over hes hname (u := []) (w := []) rfl rfl hnil hnil hhere hquiet

end Quiet

def Frames.push (name : String) (n : Nat) : Frames → Frames
  | [] => [[(name, n)]]
  | f :: fs => ((name, n) :: f) :: fs

theorem Frames.lookup_push {name other : String} (h : other ≠ name) (n : Nat) (fs : Frames) :
    (fs.push other n).lookup? name = fs.lookup? name := by
  have hne : (name == other) = false := by simpa using fun h' => h h'.symm
  cases fs with
  | nil => simp [push, lookup?, List.lookup_cons, hne]
  | cons f fs =>
    have hf : List.lookup name ((other, n) :: f) = List.lookup name f := by
      simp [List.lookup_cons, hne]
    rw [push, lookup?, lookup?, List.findSome?_cons, List.findSome?_cons, hf]

theorem Event.frames_play {e : Event} {l : Local} (he : e.local? = some l) (r : Resolver) :
    (e.play r).2.frames = r.frames ∨ ∃ n, (e.play r).2.frames = r.frames.push l.name n := by
  have hadd (m : Local) : (r.add m).frames = r.frames ∨
      ∃ n, (r.add m).frames = r.frames.push m.name n := by
    unfold Resolver.add
    split
    · exact .inl rfl
    · refine .inr ⟨r.table.bindings.length, ?_⟩
      obtain ⟨table, frames⟩ := r
      cases frames <;> rfl
  cases e with
  | declare m =>
    cases he
    rw [play_declare]
    exact hadd l
  | define m =>
    cases he
    have hplay : (Event.define l).play r = if (Resolve.declaredHere l.name r).1 = true then ((), r)
        else (Event.declare l).play r := by
      change (if (Resolve.declaredHere l.name r).1 = true then (pure () : Resolve Unit) else
        (Event.declare l).play) r = _
      split <;> rfl
    rw [hplay]
    split
    · exact .inl rfl
    · rw [play_declare]
      exact hadd l
  | range t b =>
    cases he
    rw [play_range]
    split
    · exact .inl rfl
    · exact hadd ⟨b, none⟩
  | _ => cases he

theorem Event.play_spared {e : Event} {l : Local} {r : Resolver} {env : Env} (hagrees : Agrees r env)
    (he : e.local? = some l) (hspares : e.spares = true) (hhere : env.here l.name = true) :
    (e.play r).2 = r := by
  cases e with
  | define m =>
    cases he
    change ((if (Resolve.declaredHere l.name r).1 = true then (pure () : Resolve Unit) else
      (Event.declare l).play) (Resolve.declaredHere l.name r).2).2 = _
    rw [hagrees.here_iff, if_pos hhere]
    rfl
  | _ => cases hspares

theorem Quiet.lookup {name : String} (hname : name ≠ "_") {k : Bool} {es : List Event} {h h' : Nat}
    (hes : height k h es = some h') {r : Resolver} {env : Env} (hagrees : Agrees r env)
    (hquiet : Quiet name env es) {u b : Frames} (hr : r.frames = u ++ b) (hlength : u.length = h)
    (hu : u.lookup? name = none) : (playAll es r).2.frames.lookup? name = b.lookup? name := by
  induction es generalizing h r env u b with
  | nil =>
    change r.frames.lookup? name = _
    rw [hr, Frames.lookup?, List.findSome?_append, ← Frames.lookup?, hu, Option.none_or,
      Frames.lookup?]
  | cons e es ih =>
    rw [height_cons, Option.bind_eq_some_iff] at hes
    obtain ⟨h₁, he, hes⟩ := hes
    obtain ⟨hadds, hquiet⟩ := Quiet.cons_iff.1 hquiet
    replace ih := @ih h₁ hes (e.play r).2 (e.walk env) (hagrees.event e).1 hquiet
    have hdeclared {l : Local} (hl : e.local? = some l) (hrise : h₁ = h) :
        (playAll es (e.play r).2).2.frames.lookup? name = b.lookup? name := by
      subst hrise
      by_cases hother : l.name = name
      · subst hother
        have hadded := Event.added_eq hl hname env
        split at hadded
        · rename_i hspared
          rw [Event.play_spared hagrees hl hspared.1 hspared.2] at ih ⊢
          exact ih hr hlength hu
        · exact absurd rfl (hadds l hadded)
      · rcases e.frames_play hl r with hframes | ⟨n, hframes⟩
        · exact ih (hframes.trans hr) hlength hu
        · rw [hr] at hframes
          cases u with
          | nil => exact (ih (u := []) hframes hlength rfl).trans (Frames.lookup_push hother n b)
          | cons f u =>
            refine ih (u := ((l.name, n) :: f) :: u) hframes (by simpa using hlength) ?_
            exact (Frames.lookup_push hother n (f :: u)).trans hu
    cases e with
    | pass n =>
      cases he
      exact ih hr hlength hu
    | refer t x =>
      cases he
      refine ih ?_ hlength hu
      rw [Agrees.play_refer]
      split <;> exact hr
    | openScope =>
      cases he
      have hframes : (Event.openScope.play r).2.frames = [] :: r.frames := rfl
      refine ih (u := [] :: u) (by rw [hframes, hr]; rfl) (by simp [hlength]) ?_
      simpa [Frames.lookup?] using hu
    | closeScope =>
      simp only [Event.rise] at he
      split at he
      · cases he
      · cases he
        cases u with
        | nil => cases hlength; contradiction
        | cons f u =>
          have hframes : (Event.closeScope.play r).2.frames = r.frames.tail := rfl
          refine ih (u := u) (by rw [hframes, hr]; rfl) (by simp [← hlength]) ?_
          rw [Frames.lookup?, List.findSome?_cons] at hu
          split at hu
          · cases hu
          · exact hu
    | declare l | define l | range t x =>
      simp only [Event.rise] at he
      split at he
      · cases he
      · cases he
        exact hdeclared rfl rfl

end FuncLift
