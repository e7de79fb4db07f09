import FuncLift.Proofs.Session

/-!
# Types that could not be told

A placeholder is written wherever a type could not be told. A type that declarations write down has
none, so a placeholder is a whole deduced type, or what pointers lead to. A plan warns of those that
are whole types, and of no others: behind a pointer a placeholder is written without a word.
-/
namespace FuncLift

namespace Ty

mutual

/-- The hints of all placeholders in a type. -/
def hints : Ty → List String
  | .named _ _ | .literal _ => []
  | .pointer t | .slice t | .array _ t | .chan _ t => hints t
  | .map k v => hints k ++ hints v
  | .func params results _ => hintsAll params ++ hintsAll results
  | .unresolved hint => [hint]

def hintsAll : List Ty → List String
  | [] => []
  | t :: ts => hints t ++ hintsAll ts

end

/-- A placeholder behind so many pointers. -/
def behind (hint : String) : Nat → Ty
  | 0 => .unresolved hint
  | n + 1 => .pointer (behind hint n)

/-- A type without placeholders, or a placeholder behind pointers. -/
def Told (t : Ty) : Prop := t.hints = [] ∨ ∃ hint n, t = behind hint n

theorem hintsAll_append (ts us : List Ty) : hintsAll (ts ++ us) = hintsAll ts ++ hintsAll us := by
  induction ts with
  | nil => rfl
  | cons t ts ih => simp [hintsAll, ih]

theorem hints_of_mem {ts : List Ty} (h : hintsAll ts = []) {t : Ty} (ht : t ∈ ts) : t.hints = [] := by
  induction ts with
  | nil => cases ht
  | cons u ts ih =>
    obtain ⟨hu, hts⟩ := List.append_eq_nil_iff.1 h
    rcases List.mem_cons.1 ht with rfl | ht
    · exact hu
    · exact ih hts ht

theorem hints_behind (hint : String) (n : Nat) : (behind hint n).hints = [hint] := by
  induction n with
  | zero => rfl
  | succ n ih => exact ih

namespace Told

theorem named (pkg : Option String) (name : String) : Told (.named pkg name) := .inl rfl

theorem ofName (name : String) : Told (.ofName name) := .inl rfl

theorem unresolved (hint : String) : Told (.unresolved hint) := .inr ⟨hint, 0, rfl⟩

theorem pointer {t : Ty} (h : t.Told) : Told (.pointer t) := by
  rcases h with h | ⟨hint, n, rfl⟩
  · exact .inl h
  · exact .inr ⟨hint, n + 1, rfl⟩

theorem of_pointer {t : Ty} (h : Told (.pointer t)) : t.Told := by
  rcases h with h | ⟨hint, n, h⟩
  · exact .inl h
  · cases n with
    | zero => cases h
    | succ n => exact .inr ⟨hint, n, Ty.pointer.inj h⟩

/-- A type that is neither a placeholder nor a pointer has no placeholder in it. -/
theorem hints_eq_nil {t : Ty} (h : t.Told) (hplain : ∀ hint, t ≠ .unresolved hint)
    (hpointer : ∀ u, t ≠ .pointer u) : t.hints = [] := by
  rcases h with h | ⟨hint, n, rfl⟩
  · exact h
  · cases n with
    | zero => exact absurd rfl (hplain hint)
    | succ n => exact absurd rfl (hpointer _)

end Told

end Ty

open Ty (Told hintsAll)

mutual

theorem TypeExpr.hints_denote : ∀ t : TypeExpr, t.denote.hints = []
  | .named _ _ _ => rfl
  | .pointer _ t => TypeExpr.hints_denote t
  | .slice _ t => TypeExpr.hints_denote t
  | .array _ _ t => TypeExpr.hints_denote t
  | .map _ k v => by
    rw [TypeExpr.denote, Ty.hints, TypeExpr.hints_denote k, TypeExpr.hints_denote v]
    rfl
  | .chan _ _ t => TypeExpr.hints_denote t
  | .func _ sig => Signature.hints_denote sig
  | .struct _ _ => rfl
  | .interface _ _ => rfl

theorem Signature.hints_denote : ∀ s : Signature, s.denote.hints = []
  | ⟨_, params, results⟩ => by
    rw [Signature.denote, Ty.hints, hintsAll_fieldTypes params, hintsAll_fieldTypes results]
    rfl

theorem hintsAll_fieldTypes : ∀ fs : List Field, hintsAll (fieldTypes fs) = []
  | [] => rfl
  | ⟨_, names, type, _, _⟩ :: fs => by
    have htype := TypeExpr.hints_denote type
    have hnone (n : Nat) : hintsAll (List.replicate n type.denote) = [] := by
      induction n with
      | zero => rfl
      | succ n ih => simp [List.replicate_succ, hintsAll, htype, ih]
    rw [fieldTypes, Ty.hintsAll_append, hnone, hintsAll_fieldTypes fs]
    rfl

end

theorem TypeExpr.told_denote (t : TypeExpr) : t.denote.Told := .inl t.hints_denote

theorem Signature.told_denote (s : Signature) : s.denote.Told := .inl s.hints_denote

theorem Signature.told_results (s : Signature) : ∀ t ∈ s.resultTypes, t.Told := fun _ ht =>
  .inl (Ty.hints_of_mem (hintsAll_fieldTypes s.results) ht)

namespace TypeFacts

variable (facts : TypeFacts)

theorem told_followFrom (n : Nat) {t : Ty} (h : t.Told) : (facts.followFrom n t).Told := by
  induction n generalizing t with
  | zero => exact h
  | succ n ih =>
    unfold followFrom
    split
    · split
      · exact ih (TypeExpr.told_denote _)
      · exact h
    · exact h

theorem told_underlying {t : Ty} (h : t.Told) : (facts.underlying t).Told := facts.told_followFrom 8 h

theorem hints_directField {name : String} {fs : List Field} {t : Ty}
    (h : directField name fs = .inl t) : t.hints = [] := by
  induction fs with
  | nil => cases h
  | cons f fs ih =>
    rw [directField] at h
    split at h
    · cases h
      exact f.type.hints_denote
    · split at h
      · rename_i u hu
        cases h
        exact ih hu
      · cases h

theorem hints_fieldWithin {name : String} {depth : Nat} {t u : Ty}
    (h : facts.fieldWithin name depth t = some u) : u.hints = [] := by
  induction depth generalizing t with
  | zero => cases h
  | succ depth ih =>
    rw [fieldWithin] at h
    obtain ⟨base, _, h⟩ := Option.bind_eq_some_iff.1 h
    split at h
    · split at h
      · rename_i v hv
        cases h
        exact hints_directField hv
      · obtain ⟨v, _, hv⟩ := List.exists_of_findSome?_eq_some h
        exact ih hv
    · cases h

theorem told_rangeTypes {t : Ty} (h : t.Told) : ∀ u ∈ facts.rangeTypes t, u.Told := by
  have hu := facts.told_underlying h
  have hboth {a b : Ty} (ha : a.Told) (hb : b.Told) : ∀ u ∈ [a, b], u.Told :=
    List.forall_mem_cons.2 ⟨ha, List.forall_mem_singleton.2 hb⟩
  unfold rangeTypes
  split
  · rename_i e he
    rw [he] at hu
    exact hboth (.ofName "int") (.inl (hu.hints_eq_nil (by simp) (by simp)))
  · rename_i e he
    rw [he] at hu
    exact hboth (.ofName "int") (.inl (hu.hints_eq_nil (by simp) (by simp)))
  · rename_i e he
    rw [he] at hu
    exact hboth (.ofName "int") (.inl (hu.of_pointer.hints_eq_nil (by simp) (by simp)))
  · rename_i k v he
    rw [he] at hu
    obtain ⟨hk, hv⟩ := List.append_eq_nil_iff.1 (hu.hints_eq_nil (by simp) (by simp))
    exact hboth (.inl hk) (.inl hv)
  · rename_i e he
    rw [he] at hu
    exact List.forall_mem_singleton.2 (.inl (hu.hints_eq_nil (by simp) (by simp)))
  · split
    · exact hboth (.ofName "int") (.ofName "rune")
    · split
      · exact List.forall_mem_singleton.2 hu
      · simp

theorem told_elementType {t : Ty} (h : t.Told) {u : Ty} (hu : facts.elementType? t = some u) :
    u.Told := by
  have hunder := facts.told_underlying h
  unfold elementType? at hu
  split at hu
  · rename_i e he
    rw [he] at hunder
    cases hu
    exact .inl (hunder.hints_eq_nil (by simp) (by simp))
  · rename_i e he
    rw [he] at hunder
    cases hu
    exact .inl (hunder.hints_eq_nil (by simp) (by simp))
  · rename_i e he
    rw [he] at hunder
    cases hu
    exact .inl (hunder.of_pointer.hints_eq_nil (by simp) (by simp))
  · rename_i k e he
    rw [he] at hunder
    cases hu
    exact .inl (List.append_eq_nil_iff.1 (hunder.hints_eq_nil (by simp) (by simp))).2
  · split at hu
    · cases hu
      exact .ofName "byte"
    · cases hu

theorem told_slicedType {t : Ty} (h : t.Told) : (facts.slicedType t).Told := by
  have hu := facts.told_underlying h
  unfold slicedType
  split
  · rename_i e he
    rw [he] at hu
    exact .inl (hu.hints_eq_nil (by simp) (by simp))
  · rename_i e he
    rw [he] at hu
    exact .inl (hu.of_pointer.hints_eq_nil (by simp) (by simp))
  · exact h

end TypeFacts

theorem Expr.told_asType : ∀ e : Expr, e.asType.Told
  | .type _ t => t.told_denote
  | .ident _ n => .ofName n
  | .selector _ (.ident _ pkg) sel => .named (some pkg) sel.text
  | .paren _ e => e.told_asType
  | .selector _ (.lit ..) _ | .selector _ (.funcLit ..) _ | .selector _ (.composite ..) _
  | .selector _ (.paren ..) _ | .selector _ (.selector ..) _ | .selector _ (.index ..) _
  | .selector _ (.slice ..) _ | .selector _ (.assert ..) _ | .selector _ (.call ..) _
  | .selector _ (.unary ..) _ | .selector _ (.binary ..) _ | .selector _ (.type ..) _
  | .lit .. | .funcLit .. | .composite .. | .index .. | .slice .. | .assert .. | .call ..
  | .unary .. | .binary .. => .unresolved _

/-- What a callee yields is told. -/
def Callee.Told : Callee → Prop
  | .results ts => ∀ t ∈ ts, t.Told
  | .value t => t.Told
  | .builtin _ | .unknown | .other => True

namespace Typing

theorem told_valueResults (e : Expr) {t : Ty} (h : t.Told) : ∀ u ∈ valueResults e t, u.Told := by
  unfold valueResults
  split
  · have hplain := List.append_eq_nil_iff.1 (h.hints_eq_nil (by simp) (by simp))
    exact fun u hu => .inl (Ty.hints_of_mem hplain.2 hu)
  · exact List.forall_mem_singleton.2 (.unresolved _)

theorem told_builtinResults {name : String} {args : List Expr} {first : Unit → Option Ty}
    (hfirst : ∀ t, first () = some t → t.Told) {ts : List Ty}
    (h : builtinResults? name args first = some ts) : ∀ t ∈ ts, t.Told := by
  have hone {t : Ty} (ht : t.Told) : ∀ u ∈ [t], u.Told := List.forall_mem_singleton.2 ht
  unfold builtinResults? at h
  split at h
  · cases h
    exact hone (.ofName "int")
  split at h
  · obtain ⟨a, _, rfl⟩ := Option.map_eq_some_iff.1 h
    exact hone a.told_asType.pointer
  split at h
  · obtain ⟨a, _, rfl⟩ := Option.map_eq_some_iff.1 h
    exact hone a.told_asType
  split at h
  · obtain ⟨t, ht, rfl⟩ := Option.map_eq_some_iff.1 h
    exact hone (hfirst t ht)
  split at h
  · cases h
    exact hone (.ofName "float64")
  split at h
  · cases h
    exact hone (.ofName "complex128")
  split at h
  · cases h
    exact hone (.inl rfl)
  split at h
  · cases h
    simp
  split at h
  · cases h
    exact hone (.ofName name)
  · cases h

theorem told_callResults (e : Expr) {callee : Callee} (hcallee : callee.Told) {self : Unit → Ty}
    (hself : (self ()).Told) (args : List Expr) {first : Unit → Option Ty}
    (hfirst : ∀ t, first () = some t → t.Told) :
    ∀ t ∈ callResults e callee self args first, t.Told := by
  have hunknown : ∀ t ∈ [e.unresolved], t.Told := List.forall_mem_singleton.2 (.unresolved _)
  cases callee with
  | results ts => exact hcallee
  | builtin name =>
    rw [callResults]
    cases hresults : builtinResults? name args first with
    | none => exact hunknown
    | some ts => exact told_builtinResults hfirst hresults
  | value t => exact told_valueResults e hcallee
  | unknown => exact hunknown
  | other => exact told_valueResults e hself

variable (ty : Typing) {varType : Nat → Ty}

theorem told_namedCallee (hvar : ∀ n, (varType n).Told) (id : Nat) (name : String) :
    (ty.namedCallee varType id name).Told := by
  unfold namedCallee
  repeat' split
  all_goals first
    | exact trivial
    | exact Signature.told_results _
    | exact List.forall_mem_singleton.2 (Ty.Told.ofName name)
    | exact hvar _

theorem told_identType (hvar : ∀ n, (varType n).Told) (e : Expr) (id : Nat) (name : String) :
    (ty.identType varType e id name).Told := by
  unfold identType
  repeat' split
  · unfold predeclaredType?
    repeat' split
    all_goals first
      | exact .ofName _
      | exact .unresolved _
  all_goals first
    | exact .unresolved _
    | exact hvar _
    | exact .ofName name
    | exact Signature.told_denote _

theorem told_selectedType (e : Expr) (recv : Ty) (name : String) :
    (ty.selectedType e recv name).Told := by
  unfold selectedType
  split
  · exact .inl (ty.facts.hints_fieldWithin ‹_›)
  · split
    · exact Signature.told_denote _
    · exact .unresolved _

theorem told_selectedCallee (recv : Ty) (name : String) : (ty.selectedCallee recv name).Told := by
  unfold selectedCallee
  split
  · exact Signature.told_results _
  · split
    · exact .inl (ty.facts.hints_fieldWithin ‹_›)
    · exact trivial

mutual

/-- The type of an expression is told if the types of the variables are. -/
theorem told_typeOf (hvar : ∀ n, (varType n).Told) : ∀ e : Expr, (ty.typeOf varType e).Told
  | .lit _ kind _ => by cases kind <;> exact .ofName _
  | .ident t n => ty.told_identType hvar (.ident t n) t.id n
  | .funcLit _ sig _ => sig.told_denote
  | .composite _ (some t) elems => by
    have ht := t.told_denote
    rw [typeOf]
    split
    · rename_i e he
      rw [he] at ht
      exact .inl (ht.hints_eq_nil (by simp) (by simp))
    · exact ht
  | .composite _ none _ => .unresolved _
  | .paren _ e => told_typeOf hvar e
  | .selector _ e sel => by
    rw [typeOf]
    split
    · exact .unresolved _
    · exact ty.told_selectedType _ _ _
  | .index _ e _ => by
    rw [typeOf]
    cases helem : ty.facts.elementType? (ty.typeOf varType e) with
    | none => exact .unresolved _
    | some u => exact ty.facts.told_elementType (told_typeOf hvar e) helem
  | .slice _ e _ _ _ => ty.facts.told_slicedType (told_typeOf hvar e)
  | .assert _ _ (some t) => t.told_denote
  | .assert _ _ none => .unresolved _
  | .call t callee args spread => by
    have hresults := @told_callResults (.call t callee args spread) _ (told_calleeOf hvar callee)
      (fun _ => ty.typeOf varType callee) (told_typeOf hvar callee) args
      (fun _ => ty.firstType varType args) (told_firstType hvar args)
    rw [typeOf, List.headD_eq_head?_getD]
    cases hhead : (callResults (.call t callee args spread) (ty.calleeOf varType callee)
      (fun _ => ty.typeOf varType callee) args fun _ => ty.firstType varType args).head? with
    | none => exact .unresolved _
    | some u => exact hresults u (List.mem_of_mem_head? hhead)
  | .unary _ op e => by
    have he := told_typeOf hvar e
    cases op with
    | addr => exact he.pointer
    | deref =>
      rw [typeOf]
      split
      · rename_i t ht
        rw [ht] at he
        exact he.of_pointer
      · exact .unresolved _
    | recv =>
      have hu := ty.facts.told_underlying he
      rw [typeOf]
      split
      · rename_i dir t ht
        rw [ht] at hu
        exact .inl (hu.hints_eq_nil (by simp) (by simp))
      · exact .unresolved _
    | not => exact .ofName "bool"
    | add => exact he
    | sub => exact he
    | xor => exact he
  | .binary _ l op r => by
    have hl := told_typeOf hvar l
    have hr := told_typeOf hvar r
    rw [typeOf]
    split
    · exact .ofName "bool"
    split
    · exact hl
    split
    · exact hr
    split
    · split
      · exact .unresolved _
      · exact hr
    · exact hl
  | .type _ t => t.told_denote

theorem told_firstType (hvar : ∀ n, (varType n).Told) :
    ∀ es : List Expr, ∀ t, ty.firstType varType es = some t → t.Told
  | [], _, h => by cases h
  | e :: _, _, h => by
    cases h
    exact told_typeOf hvar e

theorem told_calleeOf (hvar : ∀ n, (varType n).Told) :
    ∀ e : Expr, (ty.calleeOf varType e).Told
  | .paren _ e => told_calleeOf hvar e
  | .ident t n => ty.told_namedCallee hvar t.id n
  | .selector _ e sel => by
    rw [calleeOf]
    split
    · exact trivial
    · exact ty.told_selectedCallee _ _
  | .type _ t => List.forall_mem_singleton.2 t.told_denote
  | .funcLit _ sig _ => sig.told_results
  | .lit .. | .composite .. | .index .. | .slice .. | .assert .. | .call .. | .unary ..
  | .binary .. => trivial

end

theorem told_typesOf (hvar : ∀ n, (varType n).Told) : ∀ e : Expr, ∀ t ∈ ty.typesOf varType e, t.Told
  | .paren _ e => told_typesOf hvar e
  | .call _ callee args _ => told_callResults _ (ty.told_calleeOf hvar callee)
      (ty.told_typeOf hvar callee) args (ty.told_firstType hvar args)
  | .lit .. | .ident .. | .funcLit .. | .composite .. | .selector .. | .index .. | .slice ..
  | .assert .. | .unary .. | .binary .. | .type .. =>
    List.forall_mem_singleton.2 (ty.told_typeOf hvar _)

theorem told_valueType (hvar : ∀ n, (varType n).Told) {names : Nat} {values : List Expr}
    {index : Nat} {t : Ty} (h : ty.valueType? varType names values index = some t) : t.Told := by
  unfold valueType? at h
  split at h
  · obtain ⟨e, _, rfl⟩ := Option.map_eq_some_iff.1 h
    exact ty.told_typeOf hvar e
  · split at h
    · rename_i e _
      dsimp only at h
      split at h
      · exact ty.told_typesOf hvar e t (List.mem_of_getElem? h)
      · split at h
        · cases h
          split
          · exact ty.told_typeOf hvar e
          · exact .ofName "bool"
        · cases h
    · cases h

theorem told_originType (hvar : ∀ n, (varType n).Told) {name : String} {origin : Origin} {t : Ty}
    (h : ty.originType? varType name origin = some t) : t.Told := by
  cases origin with
  | define names values index => exact ty.told_valueType hvar h
  | value names type values index =>
    cases type with
    | some type =>
      cases h
      exact type.told_denote
    | none => exact ty.told_valueType hvar h
  | param type variadic _ =>
    cases h
    split
    · exact .inl type.hints_denote
    · exact type.told_denote
  | range subject index =>
    exact ty.facts.told_rangeTypes (ty.told_typeOf hvar subject) t (List.mem_of_getElem? h)
  | func sig =>
    cases h
    exact sig.told_denote
  | typeSpec =>
    cases h
    exact .ofName name
  | typeSwitch => cases h
  | importSpec => cases h

theorem told_named (name : String) {t : Option Ty} (h : ∀ u, t = some u → u.Told) :
    (named name t).Told := by
  unfold named
  split
  · exact .unresolved name
  · exact .unresolved name
  · exact h _ rfl

theorem told_bindingTypeFrom (fuel : Nat) (pending : List Nat) (n : Nat) :
    (ty.bindingTypeFrom fuel pending n).Told := by
  induction fuel generalizing pending n with
  | zero => exact .unresolved ""
  | succ fuel ih =>
    unfold bindingTypeFrom
    split
    · exact .unresolved ""
    · split
      · exact .unresolved _
      · exact told_named _ fun u hu => ty.told_originType (fun m => ih _ m) hu

theorem told_bindingType (n : Nat) : (ty.bindingType n).Told := ty.told_bindingTypeFrom _ _ n

end Typing

namespace Plan

/-- The types of the parameters, outputs and results. -/
def types (p : Plan) : List Ty :=
  p.params.map Capture.type ++ (p.outputs.map Capture.type ++ p.results)

theorem told_typed (ty : Typing) (m : NameMap) : ∀ t ∈ (typed ty m).map Capture.type, t.Told := by
  intro t ht
  obtain ⟨c, hc, rfl⟩ := List.mem_map.1 ht
  obtain ⟨x, _, rfl⟩ := List.mem_map.1 hc
  exact ty.told_bindingType x.2

theorem told_ofRegion (ty : Typing) (name : String) (r : Region) :
    ∀ t ∈ (ofRegion ty name r).types, t.Told := by
  have hresults : ∀ t ∈ resultTypes ty (typed ty (r.captures ty.scopes).outputs) r, t.Told := by
    unfold resultTypes
    split
    · split
      · exact ty.told_typesOf ty.told_bindingType _
      · simp
    · exact told_typed ty _
  exact List.forall_mem_append.2 ⟨told_typed ty _,
    List.forall_mem_append.2 ⟨told_typed ty _, hresults⟩⟩

theorem warning_eq_some {subject : Subject} {t : Ty} {w : Warning} :
    t.warning? subject = some w ↔
      ∃ hint, t = .unresolved hint ∧ w = ⟨subject, Ty.placeholder hint⟩ := by
  cases t <;> simp [Ty.warning?, Ty.isUnresolved, Ty.text, eq_comm]

theorem mem_typeWarnings {cs : List Capture} {f : Capture → Subject} {w : Warning} :
    w ∈ cs.filterMap (fun c => c.type.warning? (f c)) ↔
      ∃ c ∈ cs, ∃ hint, c.type = .unresolved hint ∧ w = ⟨f c, Ty.placeholder hint⟩ := by
  simp only [List.mem_filterMap, warning_eq_some]

theorem placeholder_inj {a b : String} (h : Ty.placeholder a = Ty.placeholder b) : a = b := by
  simpa [Ty.placeholder] using h

/-- A plan warns of a placeholder exactly if it is a whole type of the plan. -/
theorem warned_iff (ty : Typing) (name : String) (r : Region) (hint : String) :
    (∃ w ∈ (ofRegion ty name r).warnings, w.placeholder = Ty.placeholder hint) ↔
      .unresolved hint ∈ (ofRegion ty name r).types := by
  have hcaptures (m : NameMap) (f : Capture → Subject) :
      (∃ w ∈ (typed ty m).filterMap (fun c => c.type.warning? (f c)),
        w.placeholder = Ty.placeholder hint) ↔ .unresolved hint ∈ (typed ty m).map Capture.type := by
    constructor
    · rintro ⟨w, hw, hplaceholder⟩
      obtain ⟨c, hc, other, hother, rfl⟩ := mem_typeWarnings.1 hw
      obtain rfl := placeholder_inj hplaceholder
      exact List.mem_map.2 ⟨c, hc, hother⟩
    · intro h
      obtain ⟨c, hc, htype⟩ := List.mem_map.1 h
      exact ⟨_, mem_typeWarnings.2 ⟨c, hc, hint, htype, rfl⟩, rfl⟩
  have hresults (ts : List Ty) : (∃ w ∈ ts.filterMap (Ty.warning? .expression),
      w.placeholder = Ty.placeholder hint) ↔ .unresolved hint ∈ ts := by
    constructor
    · rintro ⟨w, hw, hplaceholder⟩
      obtain ⟨t, ht, hwarning⟩ := List.mem_filterMap.1 hw
      obtain ⟨other, rfl, rfl⟩ := warning_eq_some.1 hwarning
      obtain rfl := placeholder_inj hplaceholder
      exact ht
    · intro h
      exact ⟨_, List.mem_filterMap.2 ⟨_, h, warning_eq_some.2 ⟨hint, rfl, rfl⟩⟩, rfl⟩
  have hsplit {as bs : List Warning} : (∃ w ∈ as ++ bs, w.placeholder = Ty.placeholder hint) ↔
      (∃ w ∈ as, w.placeholder = Ty.placeholder hint) ∨
        ∃ w ∈ bs, w.placeholder = Ty.placeholder hint := by
    simp only [List.mem_append, or_and_right, exists_or]
  have hwarnings := hcaptures (r.captures ty.scopes).params (fun c => .parameter c.name)
  have houtputs := hcaptures (r.captures ty.scopes).outputs (fun c => .result c.name)
  unfold types ofRegion
  dsimp only
  rw [hsplit, hsplit, hwarnings, houtputs, List.mem_append, List.mem_append, or_assoc]
  cases r with
  | expression e parent replaceable => rw [resultWarnings, hresults]
  | statements stmts owner =>
    -- the results are the outputs, which were warned about
    simp [resultWarnings, resultTypes]

/-- What a plan says about the types that could not be told. -/
structure Reports (p : Plan) : Prop where
  told : ∀ t ∈ p.types, t.Told
  reported : ∀ t ∈ p.types, ∀ hint ∈ t.hints,
    (∃ w ∈ p.warnings, w.placeholder = Ty.placeholder hint) ∨ ∃ n, t = Ty.behind hint (n + 1)
  exact : ∀ hint, (∃ w ∈ p.warnings, w.placeholder = Ty.placeholder hint) ↔
    .unresolved hint ∈ p.types

end Plan

/-- Every placeholder in a plan is reported, or it stands behind a pointer; only what is a whole type
of the plan is reported. -/
theorem Document.plan_reports {d : Document} {r : Region} {name : String} {p : Plan}
    (h : d.plan r name = .ok p) : p.Reports := by
  obtain ⟨-, rfl⟩ := region_plan h
  refine ⟨Plan.told_ofRegion _ _ _, fun t ht hint hhint => ?_, Plan.warned_iff _ _ _⟩
  rcases Plan.told_ofRegion _ _ _ t ht with hnone | ⟨other, n, rfl⟩
  · rw [hnone] at hhint
    cases hhint
  · rw [Ty.hints_behind, List.mem_singleton] at hhint
    subst hhint
    cases n with
    | zero => exact .inl ((Plan.warned_iff _ _ _ _).2 ht)
    | succ n => exact .inr ⟨n, rfl⟩

theorem Document.plan_reports_name : ∃ d r p, ofSource
      "package p\n\nfunc f() \x7b\n\tx := limit\n\t_ = x\n\x7d\n" = .ok d ∧
    d.resolve ⟨⟨4, 7⟩, ⟨4, 12⟩⟩ = .ok r ∧ d.plan r "Bound" = .ok p ∧
      p.warnings = [⟨.expression, "Unresolved_limit"⟩] ∧ p.Reports := by
  obtain ⟨d, next, done, hread, hlift, hcheck⟩ := exists_lift
    "package p\n\nfunc f() \x7b\n\tx := limit\n\t_ = x\n\x7d\n" ⟨⟨4, 7⟩, ⟨4, 12⟩⟩ "Bound"
    (fun _ _ done => decide (done.plan.warnings = [⟨.expression, "Unresolved_limit"⟩]))
    (by decide +kernel)
  have hlifts := lifts (ofSource_sound hread).1 hlift
  exact ⟨d, _, _, hread, hlifts.region, hlifts.plan, of_decide_eq_true hcheck,
    plan_reports hlifts.plan⟩

/-- The address of what cannot be told is a placeholder behind a pointer, and nothing is said. -/
theorem Document.plan_silent : ∃ d r p, ofSource
      "package p\n\nfunc f() \x7b\n\tx := &limit\n\t_ = x\n\x7d\n" = .ok d ∧
    d.resolve ⟨⟨4, 7⟩, ⟨4, 13⟩⟩ = .ok r ∧ d.plan r "Bound" = .ok p ∧
      (∃ t ∈ p.types, "limit" ∈ t.hints) ∧
      ∀ w ∈ p.warnings, w.placeholder ≠ Ty.placeholder "limit" := by
  obtain ⟨d, next, done, hread, hlift, hcheck⟩ := exists_lift
    "package p\n\nfunc f() \x7b\n\tx := &limit\n\t_ = x\n\x7d\n" ⟨⟨4, 7⟩, ⟨4, 13⟩⟩ "Bound"
    (fun _ _ done => decide (done.plan.warnings = []) &&
      done.plan.types.any fun t => decide ("limit" ∈ t.hints)) (by decide +kernel)
  have hlifts := lifts (ofSource_sound hread).1 hlift
  obtain ⟨hnone, hany⟩ := Bool.and_eq_true_iff.1 hcheck
  obtain ⟨t, ht, hhint⟩ := List.any_eq_true.1 hany
  refine ⟨d, _, _, hread, hlifts.region, hlifts.plan, ⟨t, ht, of_decide_eq_true hhint⟩, ?_⟩
  rw [of_decide_eq_true hnone]
  simp

end FuncLift
