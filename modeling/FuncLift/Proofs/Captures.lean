import FuncLift.Proofs.Session

/-!
# What is captured

A parameter is a local variable that the region refers to and whose name the region does not
declare; of one name the first counts. An output is a local variable that a statement of the region
declares and a later statement of the same list refers to.
-/
namespace FuncLift

open Outline

namespace NameMap

variable {name n : String} {b k : Nat} {m : NameMap}

theorem of_mem_insertNew (h : (n, k) ∈ m.insertNew name b) : (n, k) ∈ m ∨ (n = name ∧ k = b) := by
  fun_induction insertNew name b m with
  | case1 => exact .inr (by simpa using h)
  | case2 => exact .inl h
  | case3 =>
    rcases List.mem_cons.1 h with h | h
    · exact .inr (by simpa using h)
    · exact .inl h
  | case4 n' c rest _ _ ih =>
    rcases List.mem_cons.1 h with h | h
    · exact .inl (h ▸ List.mem_cons_self)
    · exact (ih h).imp_left (List.mem_cons_of_mem _)

theorem exists_mem_insertNew : ∃ k, (name, k) ∈ m.insertNew name b := by
  fun_induction insertNew name b m with
  | case1 => exact ⟨b, List.mem_cons_self⟩
  | case2 c rest => exact ⟨c, List.mem_cons_self⟩
  | case3 => exact ⟨b, List.mem_cons_self⟩
  | case4 n' c rest _ _ ih =>
    obtain ⟨k, hk⟩ := ih
    exact ⟨k, List.mem_cons_of_mem _ hk⟩

theorem mem_insertNew_of_mem (h : (n, k) ∈ m) : (n, k) ∈ m.insertNew name b := by
  fun_induction insertNew name b m with
  | case1 => cases h
  | case2 => exact h
  | case3 => exact List.mem_cons_of_mem _ h
  | case4 n' c rest _ _ ih =>
    rcases List.mem_cons.1 h with h | h
    · exact h ▸ List.mem_cons_self
    · exact List.mem_cons_of_mem _ (ih h)

end NameMap

namespace Scopes

variable {s : Scopes} {keep : Nat → Binding → Bool} {bs : List Nat} {n : String} {k : Nat}

theorem mem_references {nodes : List Node} :
    k ∈ s.references nodes ↔ ∃ e, .expr e ∈ nodes ∧ s.bindingOf? e.tag.id = some k := by
  rw [references, List.mem_filterMap]
  constructor
  · rintro ⟨x, hx, hk⟩
    cases x with
    | expr e => exact ⟨e, hx, hk⟩
    | _ => cases hk
  · rintro ⟨e, he, hk⟩
    exact ⟨.expr e, he, hk⟩

theorem mem_declaredBy {id : Nat} : k ∈ s.declaredBy id ↔ (id, k) ∈ s.declared := by
  rw [declaredBy, List.mem_filterMap]
  constructor
  · rintro ⟨⟨st, c⟩, hmem, hk⟩
    dsimp only at hk
    split at hk
    · rename_i hst
      cases hk
      exact hst ▸ hmem
    · cases hk
  · intro h
    exact ⟨(id, k), h, if_pos rfl⟩

/-- One step of `localsByName`. -/
def insertLocal (s : Scopes) (keep : Nat → Binding → Bool) (m : NameMap) (k : Nat) : NameMap :=
  match s.binding? k with
  | some b => if b.kind == .localVar && keep k b then m.insertNew b.name k else m
  | none => m

/-- A number stands for a local variable of a name that is wanted. -/
def Wants (s : Scopes) (keep : Nat → Binding → Bool) (n : String) (k : Nat) : Prop :=
  ∃ b, s.binding? k = some b ∧ b.kind = .localVar ∧ keep k b = true ∧ b.name = n

theorem of_mem_insertLocal {m : NameMap} {i : Nat} (h : (n, k) ∈ s.insertLocal keep m i) :
    (n, k) ∈ m ∨ (k = i ∧ s.Wants keep n k) := by
  unfold insertLocal at h
  split at h
  · rename_i b hb
    split at h
    · rename_i hkeep
      simp only [Bool.and_eq_true, beq_iff_eq] at hkeep
      rcases NameMap.of_mem_insertNew h with h | ⟨rfl, rfl⟩
      · exact .inl h
      · exact .inr ⟨rfl, b, hb, hkeep.1, hkeep.2, rfl⟩
    · exact .inl h
  · exact .inl h

theorem mem_insertLocal_of_mem {m : NameMap} {i : Nat} (h : (n, k) ∈ m) :
    (n, k) ∈ s.insertLocal keep m i := by
  unfold insertLocal
  split
  · split
    · exact NameMap.mem_insertNew_of_mem h
    · exact h
  · exact h

theorem Wants.exists_mem_insertLocal (h : s.Wants keep n k) (m : NameMap) :
    ∃ i, (n, i) ∈ s.insertLocal keep m k := by
  obtain ⟨b, hb, hkind, hkeep, rfl⟩ := h
  have hstep : s.insertLocal keep m k = m.insertNew b.name k := by
    simp [insertLocal, hb, hkind, hkeep]
  rw [hstep]
  exact NameMap.exists_mem_insertNew

theorem of_mem_localsByName (h : (n, k) ∈ s.localsByName keep bs) :
    k ∈ bs ∧ s.Wants keep n k := by
  have hfold : ∀ m, (n, k) ∈ bs.foldl (s.insertLocal keep) m →
      (n, k) ∈ m ∨ (k ∈ bs ∧ s.Wants keep n k) := by
    clear h
    induction bs with
    | nil => exact fun _ => .inl
    | cons i bs ih =>
      intro m hmem
      rcases ih _ hmem with h | ⟨hk, hwant⟩
      · rcases of_mem_insertLocal h with h | ⟨rfl, hwant⟩
        · exact .inl h
        · exact .inr ⟨List.mem_cons_self, hwant⟩
      · exact .inr ⟨List.mem_cons_of_mem _ hk, hwant⟩
  exact (hfold [] h).resolve_left List.not_mem_nil

theorem Wants.exists_mem_localsByName (h : s.Wants keep n k) (hk : k ∈ bs) :
    ∃ i, (n, i) ∈ s.localsByName keep bs := by
  have hfold : ∀ m, (∃ i, (n, i) ∈ m) ∨ k ∈ bs →
      ∃ i, (n, i) ∈ bs.foldl (s.insertLocal keep) m := by
    clear hk
    induction bs with
    | nil => exact fun m hm => hm.resolve_right List.not_mem_nil
    | cons j bs ih =>
      intro m hm
      refine ih _ ?_
      rcases hm with ⟨i, hi⟩ | hk
      · exact .inl ⟨i, mem_insertLocal_of_mem hi⟩
      · rcases List.mem_cons.1 hk with rfl | hk
        · exact .inl (h.exists_mem_insertLocal m)
        · exact .inr hk
  exact hfold [] (.inr hk)

end Scopes

namespace Region

variable {s : Scopes} {r : Region} {n : String} {k : Nat} {b : Binding} {e : Expr}

/-- The nodes of the statements behind a region. -/
def laterNodes (r : Region) : List Node := r.later.flatMap fun st => (Outline.ofStmt st).nodes

theorem exists_statements (h : k ∈ r.produced s) : ∃ stmts owner, r = .statements stmts owner := by
  cases r with
  | expression e parent slot => cases h
  | statements stmts owner => exact ⟨stmts, owner, rfl⟩

/-- A parameter is a local variable that the region refers to, and no name that it declares. -/
theorem of_mem_params (h : (n, k) ∈ (r.captures s).params) : ∃ e b, .expr e ∈ r.nodes ∧
    s.bindingOf? e.tag.id = some k ∧ s.binding? k = some b ∧ b.kind = .localVar ∧ b.name = n ∧
      n ∉ s.namesWithin r.span := by
  obtain ⟨hk, b, hb, hkind, hkeep, rfl⟩ := Scopes.of_mem_localsByName h
  obtain ⟨e, he, hek⟩ := Scopes.mem_references.1 hk
  exact ⟨e, b, he, hek, hb, hkind, rfl, by simpa using hkeep⟩

theorem exists_mem_params (he : .expr e ∈ r.nodes) (hk : s.bindingOf? e.tag.id = some k)
    (hb : s.binding? k = some b) (hkind : b.kind = .localVar)
    (hname : b.name ∉ s.namesWithin r.span) : ∃ i, (b.name, i) ∈ (r.captures s).params := by
  have hwant : s.Wants (fun _ b => !(s.namesWithin r.span).contains b.name) b.name k :=
    ⟨b, hb, hkind, by simpa using hname, rfl⟩
  exact hwant.exists_mem_localsByName (Scopes.mem_references.2 ⟨e, he, hk⟩)

/-- An output is a local variable that the statements of the region declare and later statements
refer to. -/
theorem of_mem_outputs (h : (n, k) ∈ (r.captures s).outputs) : ∃ e b, .expr e ∈ r.laterNodes ∧
    s.bindingOf? e.tag.id = some k ∧ s.binding? k = some b ∧ b.kind = .localVar ∧ b.name = n ∧
      k ∈ r.produced s := by
  obtain ⟨hk, b, hb, hkind, hkeep, rfl⟩ := Scopes.of_mem_localsByName h
  obtain ⟨e, he, hek⟩ := Scopes.mem_references.1 hk
  exact ⟨e, b, he, hek, hb, hkind, rfl, by simpa using hkeep⟩

theorem exists_mem_outputs (he : .expr e ∈ r.laterNodes) (hk : s.bindingOf? e.tag.id = some k)
    (hb : s.binding? k = some b) (hkind : b.kind = .localVar) (hp : k ∈ r.produced s) :
    ∃ i, (b.name, i) ∈ (r.captures s).outputs := by
  have hwant : s.Wants (fun n _ => (r.produced s).contains n) b.name k :=
    ⟨b, hb, hkind, by simpa using hp, rfl⟩
  exact hwant.exists_mem_localsByName (Scopes.mem_references.2 ⟨e, he, hk⟩)

end Region

theorem Plan.names_typed (ty : Typing) (m : NameMap) :
    (typed ty m).map Capture.name = m.map Prod.fst := by
  simp [typed, Function.comp_def]

namespace Document.Lifts

variable {d next : Document} {sel : Selection} {name : String} {done : Lifted}

theorem plan_eq (h : d.Lifts sel name next done) :
    done.plan.params.map Capture.name =
        (done.plan.region.captures d.scopes).params.map Prod.fst ∧
      done.plan.outputNames = (done.plan.region.captures d.scopes).outputs.map Prod.fst := by
  have hplan := (region_plan h.plan).2
  have hparams : done.plan.params =
      Plan.typed d.typing (done.plan.region.captures d.scopes).params := congrArg Plan.params hplan
  have houtputs : done.plan.outputs =
      Plan.typed d.typing (done.plan.region.captures d.scopes).outputs := congrArg Plan.outputs hplan
  rw [Plan.outputNames, hparams, houtputs, Plan.names_typed, Plan.names_typed]
  exact ⟨rfl, rfl⟩

theorem exists_param (h : d.Lifts sel name next done) {n : String}
    (hn : n ∈ done.plan.params.map Capture.name) :
    ∃ k, (n, k) ∈ (done.plan.region.captures d.scopes).params := by
  rw [h.plan_eq.1] at hn
  obtain ⟨⟨n, k⟩, hk, rfl⟩ := List.mem_map.1 hn
  exact ⟨k, hk⟩

theorem exists_output (h : d.Lifts sel name next done) {n : String}
    (hn : n ∈ done.plan.outputNames) :
    ∃ k, (n, k) ∈ (done.plan.region.captures d.scopes).outputs := by
  rw [h.plan_eq.2] at hn
  obtain ⟨⟨n, k⟩, hk, rfl⟩ := List.mem_map.1 hn
  exact ⟨k, hk⟩

theorem later_eq (h : d.Lifts sel name next done) (hd : d.Owned) {stmts before after : List Stmt}
    {owner : Owner} (hr : done.plan.region = .statements stmts owner)
    (hsplit : owner.stmts = before ++ stmts ++ after) : done.plan.region.later = after := by
  obtain ⟨target, _, _, hloc⟩ := resolve_located h.region
  rw [hr] at hloc
  obtain ⟨⟨q, howner⟩, _, _, last, hlast, _⟩ := hloc
  obtain ⟨init, rfl⟩ := List.getLast?_eq_some_iff.1 hlast
  have hsplit' : owner.stmts = (before ++ init) ++ [last] ++ after := by rw [hsplit]; simp
  have hfirst : [last].head?.map (·.tag.id) = some last.tag.id := rfl
  have hbefore := before_ne_first (every_ofList ownerComplete (every_ofTopDecl ownerComplete) _)
    hd.linkCount_le_one (mem_declLinks howner (by cases owner <;> rfl)) hsplit' hfirst
  have hdrop : owner.stmts.dropWhile (fun s => s.tag.id != last.tag.id) = last :: after := by
    rw [hsplit', List.append_assoc, List.dropWhile_append_of_pos]
    · simp
    · simpa using hbefore
  rw [hr, Region.later, hlast]
  simp [hdrop]

end Document.Lifts

end FuncLift
