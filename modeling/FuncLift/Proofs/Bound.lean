import FuncLift.Proofs.Trail
import Mathlib.Data.List.Forall2

/-!
# What a trail binds

Walking along a trail with the open scopes alone tells what every identifier on it is bound to. The
table of scopes of a document holds the same: an identifier that finds a name in an open scope is
bound to it, and one that finds none is not bound to a variable of a function.
-/
namespace FuncLift

/-- Open scopes with what is declared in them, the innermost and the newest first. -/
abbrev Env := List (List Local)

def Local.name (l : Local) : String := l.binding.name

/-- The newest declaration of a name in one scope. -/
def findIn (name : String) (f : List Local) : Option Local := f.find? fun l => l.name == name

namespace Env

def find? (env : Env) (name : String) : Option Local := env.findSome? (findIn name)

/-- Whether the innermost scope has a name. -/
def here (env : Env) (name : String) : Bool := (env.head?.getD []).any fun l => l.name == name

def add (l : Local) (env : Env) : Env :=
  if l.name = "_" then env
  else match env with
    | [] => [[l]]
    | f :: fs => (l :: f) :: fs

end Env

def Event.walk (env : Env) : Event → Env
  | .pass _ | .refer .. => env
  | .openScope => [] :: env
  | .closeScope => env.tail
  | .declare l => env.add l
  | .define l => if env.here l.name then env else env.add l
  | .range _ b => env.add ⟨b, none⟩

/-- The open scopes behind a trail. -/
def walk (es : List Event) (env : Env) : Env := es.foldl Event.walk env

@[simp] theorem walk_nil (env : Env) : walk [] env = env := rfl

@[simp] theorem walk_cons (e : Event) (es : List Event) (env : Env) :
    walk (e :: es) env = walk es (e.walk env) := rfl

@[simp] theorem walk_append (es fs : List Event) (env : Env) :
    walk (es ++ fs) env = walk fs (walk es env) := List.foldl_append

/-- The identifier that an event binds. -/
def Event.user? : Event → Option Nat
  | .refer t _ | .range t _ => some t.id
  | _ => none

def users (es : List Event) : List Nat := es.filterMap Event.user?

@[simp] theorem users_nil : users [] = [] := rfl

@[simp] theorem users_append (es fs : List Event) : users (es ++ fs) = users es ++ users fs :=
  List.filterMap_append

/-- A number stands for a declared name in a table. -/
structure Stands (s : Scopes) (n : Nat) (l : Local) : Prop where
  binding : s.bindings[n]? = some l.binding
  note : ∀ id, (id, n) ∈ s.declared ↔ l.note = some id

/-- The resolver has the open scopes, by number. -/
structure Agrees (r : Resolver) (env : Env) : Prop where
  frames : List.Forall₂
    (List.Forall₂ fun p l => p.1 = l.name ∧ Stands r.table p.2 l) r.frames env
  noted : ∀ p ∈ r.table.declared, p.2 < r.table.bindings.length

/-- A table gets longer, and binds only those of some identifiers. -/
structure Grows (ids : List Nat) (s s' : Scopes) : Prop where
  stands : ∀ n l, Stands s n l → Stands s' n l
  bindings : ∀ (n : Nat) (b : Binding), s.bindings[n]? = some b → s'.bindings[n]? = some b
  package : s'.package = s.package
  uses : ∀ u, u ∉ ids → s'.bindingOf? u = s.bindingOf? u

namespace Grows

theorem refl (s : Scopes) : Grows [] s s :=
  ⟨fun _ _ h => h, fun _ _ h => h, rfl, fun _ _ => rfl⟩

theorem trans {ids ids' : List Nat} {s s' s'' : Scopes} (h : Grows ids s s')
    (h' : Grows ids' s' s'') : Grows (ids ++ ids') s s'' where
  stands n l hl := h'.stands n l (h.stands n l hl)
  bindings n b hb := h'.bindings n b (h.bindings n b hb)
  package := h'.package.trans h.package
  uses u hu := by
    rw [List.mem_append, not_or] at hu
    rw [h'.uses u hu.2, h.uses u hu.1]

theorem weaken {ids : List Nat} {s s' : Scopes} (h : Grows [] s s') : Grows ids s s' :=
  ⟨h.stands, h.bindings, h.package, fun u _ => h.uses u List.not_mem_nil⟩

theorem use (s : Scopes) (id n : Nat) : Grows [id] s { s with uses := (id, n) :: s.uses } where
  stands _ _ h := ⟨h.binding, h.note⟩
  bindings _ _ h := h
  package := rfl
  uses u hu := by
    have hne : (u == id) = false := by simpa using hu
    simp [Scopes.bindingOf?, List.lookup_cons, hne]

end Grows

/-- A new binding, noted for a statement if there is one. -/
def Scopes.extend (s : Scopes) (l : Local) : Scopes :=
  { s with
    bindings := s.bindings ++ [l.binding]
    declared := s.declared ++ l.note.toList.map fun id => (id, s.bindings.length) }

theorem Stands.extend {s : Scopes} (h : ∀ p ∈ s.declared, p.2 < s.bindings.length) (l : Local) :
    Stands (s.extend l) s.bindings.length l where
  binding := by simp [Scopes.extend]
  note id := by
    have hold : (id, s.bindings.length) ∉ s.declared := fun hid => Nat.lt_irrefl _ (h _ hid)
    simp [Scopes.extend, hold]

theorem Grows.extend {s : Scopes} (l : Local) : Grows [] s (s.extend l) where
  stands n m h := by
    have hn : n < s.bindings.length := (List.getElem?_eq_some_iff.1 h.binding).1
    refine ⟨by rw [Scopes.extend, List.getElem?_append_left hn]; exact h.binding, fun id => ?_⟩
    have hne : s.bindings.length ≠ n := Nat.ne_of_gt hn
    simp [Scopes.extend, hne, h.note]
  bindings n b h := by
    have hn : n < s.bindings.length := (List.getElem?_eq_some_iff.1 h).1
    rw [Scopes.extend, List.getElem?_append_left hn, h]
  package := rfl
  uses _ _ := rfl

/-- The resolver with a new name in its innermost scope. -/
def Resolver.add (l : Local) (r : Resolver) : Resolver :=
  if l.name = "_" then r
  else
    ⟨r.table.extend l, match r.frames with
      | [] => [[(l.name, r.table.bindings.length)]]
      | f :: fs => ((l.name, r.table.bindings.length) :: f) :: fs⟩

theorem declare_eq (b : Binding) (r : Resolver) : Resolve.declare b r =
    if b.name = "_" then (none, r) else (some r.table.bindings.length, r.add ⟨b, none⟩) := by
  obtain ⟨table, frames⟩ := r
  by_cases hb : b.name = "_"
  · rw [if_pos hb]
    simp only [Resolve.declare, hb, if_true]
    rfl
  · have hadd : (Resolver.mk table frames).add ⟨b, none⟩ =
        ⟨{ table with bindings := table.bindings ++ [b] }, match frames with
          | [] => [[(b.name, table.bindings.length)]]
          | f :: fs => ((b.name, table.bindings.length) :: f) :: fs⟩ := by
      simp [Resolver.add, Scopes.extend, Local.name, hb]
    rw [if_neg hb, hadd]
    simp only [Resolve.declare, hb, if_false]
    cases frames <;> rfl

theorem play_declare (l : Local) (r : Resolver) : (Event.declare l).play r = ((), r.add l) := by
  obtain ⟨b, note⟩ := l
  change Resolve.noteDeclared note (Resolve.declare b r).1 (Resolve.declare b r).2 = _
  rw [declare_eq]
  by_cases hb : b.name = "_"
  · have hadd : r.add ⟨b, note⟩ = r := if_pos hb
    rw [if_pos hb, hadd]
    rfl
  · rw [if_neg hb]
    cases note with
    | none => rfl
    | some id =>
      have hb' : ¬ Local.name ⟨b, none⟩ = "_" := hb
      have hb'' : ¬ Local.name ⟨b, some id⟩ = "_" := hb
      change ((), _) = ((), _)
      simp [Resolver.add, hb', hb'', Scopes.extend]
      rfl

theorem play_range (t : Tag) (b : Binding) (r : Resolver) : (Event.range t b).play r =
    ((), if b.name = "_" then r else
      ⟨{ (r.add ⟨b, none⟩).table with
          uses := (t.id, r.table.bindings.length) :: (r.add ⟨b, none⟩).table.uses },
        (r.add ⟨b, none⟩).frames⟩) := by
  have hbind (m : Resolve (Option Nat)) (f : Option Nat → Resolve Unit) :
      (m >>= f) r = f (m r).1 (m r).2 := rfl
  rw [Event.play, hbind, declare_eq]
  by_cases hb : b.name = "_"
  · rw [if_pos hb, if_pos hb]
    rfl
  · rw [if_neg hb, if_neg hb]
    rfl

theorem exists_of_forall₂ {α β : Type} {R : α → β → Prop} {as : List α} {bs : List β}
    (h : List.Forall₂ R as bs) {b : β} (hb : b ∈ bs) : ∃ a ∈ as, R a b := by
  induction h with
  | nil => cases hb
  | cons hr _ ih =>
    rcases List.mem_cons.1 hb with rfl | hb
    · exact ⟨_, List.mem_cons_self, hr⟩
    · obtain ⟨a, ha, hr⟩ := ih hb
      exact ⟨a, List.mem_cons_of_mem _ ha, hr⟩

namespace Agrees

variable {r : Resolver} {env : Env}

theorem mono {table : Scopes} {ids : List Nat} (h : Agrees r env) (hg : Grows ids r.table table)
    (hnoted : ∀ p ∈ table.declared, p.2 < table.bindings.length) :
    Agrees ⟨table, r.frames⟩ env where
  frames := h.frames.imp fun _ _ hf => hf.imp fun _ _ hp => ⟨hp.1, hg.stands _ _ hp.2⟩
  noted := hnoted

theorem here_iff (h : Agrees r env) (name : String) :
    Resolve.declaredHere name r = (env.here name, r) := by
  obtain ⟨table, frames⟩ := r
  have hframe {f : List (String × Nat)} {g : List Local}
      (hf : List.Forall₂ (fun p l => p.1 = l.name ∧ Stands table p.2 l) f g) :
      f.any (fun p => p.1 == name) = g.any fun l => l.name == name := by
    induction hf with
    | nil => rfl
    | cons hp _ ih => rw [List.any_cons, List.any_cons, ih, hp.1]
  change ((frames.head?.getD []).any _, _) = (_, _)
  refine congrArg (·, _) ?_
  have hframes : List.Forall₂ _ frames env := h.frames
  cases hframes with
  | nil => rfl
  | cons hf _ => exact hframe hf

theorem noted_extend (h : Agrees r env) (l : Local) :
    ∀ p ∈ (r.table.extend l).declared, p.2 < (r.table.extend l).bindings.length := by
  intro p hp
  have hlength : (r.table.extend l).bindings.length = r.table.bindings.length + 1 := by
    simp [Scopes.extend]
  rw [hlength]
  rcases List.mem_append.1 hp with hp | hp
  · have := h.noted p hp
    omega
  · obtain ⟨id, _, rfl⟩ := List.mem_map.1 hp
    exact Nat.lt_succ_self _

theorem add (h : Agrees r env) (l : Local) :
    Agrees (r.add l) (env.add l) ∧ Grows [] r.table (r.add l).table := by
  unfold Resolver.add Env.add
  split
  · exact ⟨h, .refl _⟩
  · have hgrows : Grows [] r.table (r.table.extend l) := .extend l
    have hmono := h.mono hgrows (h.noted_extend l)
    have hnew : l.name = l.name ∧ Stands (r.table.extend l) r.table.bindings.length l :=
      ⟨rfl, .extend h.noted l⟩
    refine ⟨⟨?_, h.noted_extend l⟩, hgrows⟩
    obtain ⟨table, frames⟩ := r
    have hframes := hmono.frames
    cases hframes with
    | nil => exact .cons (.cons hnew .nil) .nil
    | cons hf hrest => exact .cons (.cons hnew hf) hrest

theorem lookup (h : Agrees r env) (name : String) :
    (r.frames.lookup? name = none ∧ env.find? name = none) ∨
      ∃ n l, r.frames.lookup? name = some n ∧ env.find? name = some l ∧ Stands r.table n l := by
  have hframe {f : List (String × Nat)} {g : List Local}
      (hf : List.Forall₂ (fun p l => p.1 = l.name ∧ Stands r.table p.2 l) f g) :
      (f.lookup name = none ∧ findIn name g = none) ∨
        ∃ n l, f.lookup name = some n ∧ findIn name g = some l ∧ Stands r.table n l := by
    induction hf with
    | nil => exact .inl ⟨rfl, rfl⟩
    | @cons p l f g hp _ ih =>
      obtain ⟨m, n⟩ := p
      obtain ⟨rfl, hn⟩ : m = l.name ∧ Stands r.table n l := hp
      by_cases hm : l.name = name
      · refine .inr ⟨n, l, ?_, ?_, hn⟩
        · simp [hm]
        · simp [findIn, hm]
      · have hm' : (name == l.name) = false := by simpa using fun he => hm he.symm
        simpa [List.lookup_cons, findIn, hm, hm'] using ih
  unfold Frames.lookup? Env.find?
  have hframes := h.frames
  clear h
  generalize r.frames = frames at hframes
  induction hframes with
  | nil => exact .inl ⟨rfl, rfl⟩
  | cons hf _ ih =>
    rw [List.findSome?_cons, List.findSome?_cons]
    rcases hframe hf with ⟨h1, h2⟩ | ⟨n, l, h1, h2, hn⟩
    · rw [h1, h2]
      exact ih
    · rw [h1, h2]
      exact .inr ⟨n, l, rfl, rfl, hn⟩

theorem tail (h : Agrees r env) : Agrees ⟨r.table, r.frames.tail⟩ env.tail := by
  obtain ⟨table, frames⟩ := r
  refine ⟨?_, h.noted⟩
  have hframes : List.Forall₂ _ frames env := h.frames
  cases hframes with
  | nil => exact .nil
  | cons _ hrest => exact hrest

theorem play_refer (r : Resolver) (t : Tag) (name : String) : (Event.refer t name).play r =
    ((), match (r.frames.lookup? name).or (r.table.packageBinding? name) with
      | some n => ⟨{ r.table with uses := (t.id, n) :: r.table.uses }, r.frames⟩
      | none => r) := by
  change (match (r.frames.lookup? name).or (r.table.packageBinding? name) with
    | some b => Resolve.use t.id b
    | none => pure ()) r = _
  cases (r.frames.lookup? name).or (r.table.packageBinding? name) <;> rfl

theorem event (h : Agrees r env) (e : Event) : Agrees (e.play r).2 (e.walk env) ∧
    Grows e.user?.toList r.table (e.play r).2.table := by
  cases e with
  | pass n => exact ⟨h, .refl _⟩
  | openScope => exact ⟨⟨.cons .nil h.frames, h.noted⟩, .refl _⟩
  | closeScope => exact ⟨h.tail, .refl _⟩
  | refer t name =>
    rw [play_refer]
    split
    · rename_i n _
      have hgrows := Grows.use r.table t.id n
      exact ⟨h.mono hgrows h.noted, hgrows⟩
    · exact ⟨h, (Grows.refl _).weaken⟩
  | declare l =>
    rw [play_declare]
    exact h.add l
  | define l =>
    have hplay : (Event.define l).play r =
        if env.here l.name then ((), r) else (Event.declare l).play r := by
      change (if (Resolve.declaredHere l.name r).1 = true then (pure () : Resolve Unit) else
        (Event.declare l).play) (Resolve.declaredHere l.name r).2 = _
      rw [h.here_iff]
      cases env.here l.name <;> rfl
    have hwalk : (Event.define l).walk env = if env.here l.name then env else env.add l := rfl
    rw [hplay, hwalk]
    split
    · exact ⟨h, .refl _⟩
    · rw [play_declare]
      exact h.add l
  | range t b =>
    rw [play_range]
    obtain ⟨hadd, hgrows⟩ := h.add ⟨b, none⟩
    by_cases hb : b.name = "_"
    · have henv : env.add ⟨b, none⟩ = env := if_pos hb
      simp only [hb, if_true]
      rw [Event.walk, henv]
      exact ⟨h, (Grows.refl _).weaken⟩
    · simp only [hb, if_false]
      have huse := hgrows.trans (.use (r.add ⟨b, none⟩).table t.id r.table.bindings.length)
      exact ⟨hadd.mono (.use _ _ _) hadd.noted, huse⟩

theorem run (h : Agrees r env) (es : List Event) : Agrees (playAll es r).2 (walk es env) ∧
    Grows (users es) r.table (playAll es r).2.table := by
  induction es generalizing r env with
  | nil => exact ⟨h, .refl _⟩
  | cons e es ih =>
    obtain ⟨hevent, hgrows⟩ := h.event e
    obtain ⟨hrun, hgrows'⟩ := ih hevent
    have husers : users (e :: es) = e.user?.toList ++ users es := by
      cases he : e.user? <;> simp [users, he]
    rw [husers]
    exact ⟨hrun, hgrows.trans hgrows'⟩

end Agrees

theorem mem_of_lookup {name : String} {n : Nat} {ps : List (String × Nat)}
    (h : ps.lookup name = some n) : (name, n) ∈ ps := by
  obtain ⟨l₁, l₂, rfl, _⟩ := List.lookup_eq_some_iff.1 h
  simp

/-- Only names of the package are declared yet. -/
structure PackageOnly (r : Resolver) : Prop where
  frames : r.frames = []
  declared : r.table.declared = []
  uses : r.table.uses = []
  package : ∀ p ∈ r.table.package,
    ∃ b, r.table.bindings[p.2]? = some b ∧ b.kind ≠ .localVar ∧ b.name = p.1

namespace PackageOnly

/-- A step that declares names of the package at most. -/
def Kept (m : Resolve Unit) : Prop := ∀ r, PackageOnly r → PackageOnly (m r).2

theorem pure : Kept (pure ()) := fun _ h => h

theorem forM {α : Type} {m : α → Resolve Unit} (h : ∀ a, Kept (m a)) (xs : List α) :
    Kept (xs.forM m) := by
  induction xs with
  | nil => exact pure
  | cons x xs ih => exact fun r hr => ih _ (h x r hr)

theorem declarePackage {b : Binding} (hb : b.kind ≠ .localVar) :
    Kept (Resolve.declarePackage b) := by
  intro r h
  by_cases hname : b.name = "_"
  · simp only [Resolve.declarePackage, hname, if_true]
    exact h
  · simp only [Resolve.declarePackage, hname, if_false]
    refine ⟨h.frames, h.declared, h.uses, fun p hp => ?_⟩
    change ∃ c, (r.table.bindings ++ [b])[p.2]? = some c ∧ c.kind ≠ .localVar ∧ c.name = p.1
    rcases List.mem_cons.1 hp with rfl | hp
    · exact ⟨b, by simp, hb, rfl⟩
    · obtain ⟨c, hc, hkind⟩ := h.package p hp
      have hlt : p.2 < r.table.bindings.length := (List.getElem?_eq_some_iff.1 hc).1
      exact ⟨c, by rw [List.getElem?_append_left hlt, hc], hkind⟩

theorem globalNames (home names : Nat) (type : Option TypeExpr) (values : List Expr) (index : Nat)
    (ns : List Name) : Kept (Resolve.globalNames home names type values index ns) := by
  induction ns generalizing index with
  | nil => exact pure
  | cons n ns ih =>
    intro r h
    exact ih _ _ (declarePackage (b := ⟨n.text, .globalVar, .value names type values index, home,
      n.tag.span⟩) (by simp) r h)

theorem packageSpec (vocabulary : Vocabulary) (s : Spec) :
    Kept (Resolve.packageSpec vocabulary s) := by
  cases s with
  | imports t n path =>
    simp only [Resolve.packageSpec]
    split
    · exact declarePackage (b := ⟨_, .package, _, _, _⟩) (by simp)
    · exact pure
  | values t ns type vs => exact globalNames _ _ _ _ _ _
  | type t n isAlias type => exact declarePackage (b := ⟨_, .typeName, _, _, _⟩) (by simp)

theorem packageDecl (vocabulary : Vocabulary) (d : TopDecl) :
    Kept (Resolve.packageDecl vocabulary d) := by
  cases d with
  | decl d => exact forM (packageSpec vocabulary) d.specs
  | func f =>
    simp only [Resolve.packageDecl]
    split
    · exact declarePackage (b := ⟨_, .function, _, _, _⟩) (by simp)
    · exact pure

theorem agrees {r : Resolver} (h : PackageOnly r) : Agrees r [] where
  frames := by
    rw [h.frames]
    exact .nil
  noted p hp := by
    rw [h.declared] at hp
    cases hp

end PackageOnly

namespace Document

variable {d : Document} {pre post : List Event} {t : Tag} {name : String}

/-- The scopes of a document come from its trail, behind the names of the package. -/
theorem scopes_eq (d : Document) :
    ∃ r, PackageOnly r ∧ d.scopes = (playAll d.file.trail r).2.table := by
  refine ⟨(d.file.decls.forM (Resolve.packageDecl d.vocabulary) ⟨.empty, []⟩).2, ?_, ?_⟩
  · refine PackageOnly.forM (PackageOnly.packageDecl d.vocabulary) d.file.decls _ ?_
    exact ⟨rfl, rfl, rfl, by simp [Scopes.empty]⟩
  · rw [← SourceFile.play_trail]
    rfl

theorem mem_users {u n : Nat} (h : d.scopes.bindingOf? u = some n) : u ∈ users d.file.trail := by
  obtain ⟨r, hr, hscopes⟩ := d.scopes_eq
  by_contra hu
  rw [hscopes, (hr.agrees.run d.file.trail).2.uses u hu, Scopes.bindingOf?, hr.uses] at h
  cases h

/-- The table in the middle of a trail, and what is left of it in the end. -/
theorem scopes_split (htrail : d.file.trail = pre ++ post) : ∃ r, Agrees r (walk pre []) ∧
    d.scopes = (playAll post r).2.table ∧ Grows (users post) r.table d.scopes ∧
    (∀ p ∈ r.table.package, ∃ b, r.table.bindings[p.2]? = some b ∧ b.kind ≠ .localVar) ∧
    ∀ u, u ∉ users pre → r.table.bindingOf? u = none := by
  obtain ⟨r, hr, hscopes⟩ := d.scopes_eq
  obtain ⟨hagrees, hgrows⟩ := hr.agrees.run pre
  have hplay : (playAll d.file.trail r).2 = (playAll post (playAll pre r).2).2 := by
    rw [htrail, playAll_append]
    rfl
  rw [hplay] at hscopes
  refine ⟨(playAll pre r).2, hagrees, hscopes, hscopes ▸ (hagrees.run post).2, fun p hp => ?_,
    fun u hu => ?_⟩
  · rw [hgrows.package] at hp
    obtain ⟨b, hb, hkind, _⟩ := hr.package p hp
    exact ⟨b, hgrows.bindings _ _ hb, hkind⟩
  · rw [hgrows.uses u hu, Scopes.bindingOf?, hr.uses]
    rfl

theorem mem_bindings (htrail : d.file.trail = pre ++ post) {f : List Local}
    (hf : f ∈ walk pre []) {l : Local} (hl : l ∈ f) : l.binding ∈ d.scopes.bindings := by
  obtain ⟨r, hagrees, _, hgrows, _⟩ := scopes_split htrail
  obtain ⟨g, _, hg⟩ := exists_of_forall₂ hagrees.frames hf
  obtain ⟨p, _, _, hp⟩ := exists_of_forall₂ hg hl
  exact List.mem_of_getElem? (hgrows.bindings _ _ hp.binding)

/-- An identifier is bound to the number that the resolver has for its name. -/
theorem bindingOf_play {r : Resolver} {env : Env} (hagrees : Agrees r env)
    (hscopes : d.scopes = (playAll (.refer t name :: post) r).2.table) (hpost : t.id ∉ users post)
    {n : Nat} (hn : r.frames.lookup? name = some n) : d.scopes.bindingOf? t.id = some n := by
  have hevent := hagrees.event (.refer t name)
  have hrest := (hevent.1.run post).2.uses t.id hpost
  rw [playAll_cons] at hscopes
  rw [hscopes]
  refine hrest.trans ?_
  rw [Agrees.play_refer, hn]
  simp [Scopes.bindingOf?]

theorem bindingOf_refer (htrail : d.file.trail = pre ++ .refer t name :: post)
    (hpost : t.id ∉ users post) {l : Local} (hl : (walk pre []).find? name = some l) :
    ∃ n, d.scopes.bindingOf? t.id = some n ∧ Stands d.scopes n l := by
  obtain ⟨r, hagrees, hscopes, hgrows, _⟩ := scopes_split htrail
  rcases hagrees.lookup name with ⟨_, hnone⟩ | ⟨n, l', hn, hl', hstands⟩
  · rw [hnone] at hl
    cases hl
  · obtain rfl : l' = l := Option.some.inj (hl'.symm.trans hl)
    exact ⟨n, bindingOf_play hagrees hscopes hpost hn, hgrows.stands _ _ hstands⟩

/-- An identifier that finds no name is bound to a name of the package, or to none. -/
theorem kind_of_find_none (htrail : d.file.trail = pre ++ .refer t name :: post)
    (hpre : t.id ∉ users pre) (hpost : t.id ∉ users post) (hnone : (walk pre []).find? name = none)
    {n : Nat} (hn : d.scopes.bindingOf? t.id = some n) {b : Binding}
    (hb : d.scopes.binding? n = some b) : b.kind ≠ .localVar := by
  obtain ⟨r, hagrees, hscopes, hgrows, hpackage, hunused⟩ := scopes_split htrail
  have hlookup : r.frames.lookup? name = none := by
    rcases hagrees.lookup name with ⟨h, _⟩ | ⟨_, _, _, hl, _⟩
    · exact h
    · rw [hnone] at hl
      cases hl
  have hevent := hagrees.event (.refer t name)
  have hrest := (hevent.1.run post).2.uses t.id hpost
  rw [playAll_cons] at hscopes
  have huse : ((Event.refer t name).play r).2.table.bindingOf? t.id = some n := by
    rw [← hrest, ← hn, hscopes]
    rfl
  rw [Agrees.play_refer, hlookup] at huse
  cases hp : r.table.packageBinding? name with
  | none =>
    rw [hp] at huse
    exact absurd (huse.symm.trans (hunused _ hpre)) (by simp)
  | some m =>
    rw [hp] at huse
    have hm : m = n := by simpa [Scopes.bindingOf?, List.lookup_cons] using huse
    subst hm
    obtain ⟨c, hc, hkind⟩ := hpackage (name, m) (mem_of_lookup hp)
    have hcb : c = b := Option.some.inj ((hgrows.bindings _ _ hc).symm.trans hb)
    exact hcb ▸ hkind

theorem bindingOf_range {b : Binding} (htrail : d.file.trail = pre ++ .range t b :: post)
    (hpost : t.id ∉ users post) (hb : b.name ≠ "_") :
    ∃ n, d.scopes.bindingOf? t.id = some n ∧ Stands d.scopes n ⟨b, none⟩ := by
  obtain ⟨r, hagrees, hscopes, hgrows, _⟩ := scopes_split htrail
  have hevent := hagrees.event (.range t b)
  have hrun := (hevent.1.run post).2
  rw [playAll_cons] at hscopes
  have hstep : ((Event.range t b).play r).2.table =
      { r.table.extend ⟨b, none⟩ with
        uses := (t.id, r.table.bindings.length) :: r.table.uses } := by
    rw [play_range, if_neg hb]
    simp [Resolver.add, Local.name, hb, Scopes.extend]
  rw [hstep] at hrun
  refine ⟨r.table.bindings.length, ?_, ?_⟩
  · rw [hscopes]
    refine (hrun.uses t.id hpost).trans ?_
    simp [Scopes.bindingOf?]
  · rw [hscopes]
    have hnew := Stands.extend hagrees.noted ⟨b, none⟩
    exact hrun.stands _ _ ⟨hnew.binding, hnew.note⟩

theorem bindingOf_blank {b : Binding} (htrail : d.file.trail = pre ++ .range t b :: post)
    (hpre : t.id ∉ users pre) (hpost : t.id ∉ users post) (hb : b.name = "_") :
    d.scopes.bindingOf? t.id = none := by
  obtain ⟨r, hagrees, hscopes, _, _, hunused⟩ := scopes_split htrail
  have hevent := hagrees.event (.range t b)
  have hrun := (hevent.1.run post).2
  rw [playAll_cons] at hscopes
  rw [hscopes]
  refine (hrun.uses t.id hpost).trans ?_
  rw [play_range, if_pos hb]
  exact hunused _ hpre

end Document

end FuncLift
