import FuncLift.Ty.Deduce

/-!
# Asking for types

A deducer answers questions about types one after the other and keeps a record of the bindings whose
types are being asked for, so that a declaration that depends on itself is cut off. Asking is a
recursion that jumps from an identifier to the values of its declaration. It ends all the same,
because a binding on the record is not entered again, and when it ends the record is what it was. So
no answer depends on the questions before it, and every answer is the type that was deduced without a
record.
-/
namespace FuncLift

/-- Questions to a deducer with its record. There is no answer where the depth of the questions goes
beyond what is allowed. -/
abbrev Ask := StateT (List Nat) Option

/-- What is called, without the parentheses around it. -/
def Expr.target : Expr → Expr
  | .paren _ e => e.target
  | e => e

namespace Ask

def tooDeep {α : Type} : Ask α := fun _ => none

open Typing (callResults valueResults builtinResults?)

variable (ty : Typing)

/-- The results of a call of a field or method of a value. -/
def selectedResults (e : Expr) (recv : Ty) (name : String) : List Ty :=
  match ty.facts.method? recv name with
  | some sig => sig.resultTypes
  | none =>
    match ty.facts.field? recv name with
    | some t => valueResults e t
    | none => [e.unresolved]

mutual

def types : Nat → Expr → Ask (List Ty)
  | 0, _ => tooDeep
  | depth + 1, e =>
    match e with
    | .call _ callee args _ => call depth e callee args
    | .paren _ x => types depth x
    | _ => do return [← type depth e]
termination_by structural depth => depth

/-- The type of an expression where one value is wanted. -/
def type : Nat → Expr → Ask Ty
  | 0, _ => tooDeep
  | depth + 1, e =>
    match e with
    | .lit _ kind _ => return kind.type
    | .ident t n => ident depth e t.id n
    | .funcLit _ sig _ => return sig.denote
    | .composite _ (some t) elems => return match t.denote with
        | .array none x => .array (some (toString elems.length)) x
        | t => t
    | .composite _ none _ => return e.unresolved
    | .paren _ x => type depth x
    | .selector _ x sel => do
      if ty.isPackage x then return e.unresolved
      return ty.selectedType e (← type depth x) sel.text
    | .index _ x _ => do return (ty.facts.elementType? (← type depth x)).getD e.unresolved
    | .slice _ x _ _ _ => do return ty.facts.slicedType (← type depth x)
    | .assert _ _ (some t) => return t.denote
    | .assert _ _ none => return e.unresolved
    | .call .. => do return (← types depth e).headD e.unresolved
    | .unary _ .addr x => do return .pointer (← type depth x)
    | .unary _ .deref x => do
      match ← type depth x with
      | .pointer t => return t
      | _ => return e.unresolved
    | .unary _ .recv x => do
      match ty.facts.underlying (← type depth x) with
      | .chan _ t => return t
      | _ => return e.unresolved
    | .unary _ .not _ => return .ofName "bool"
    | .unary _ .add x | .unary _ .sub x | .unary _ .xor x => type depth x
    | .binary _ l op r =>
      if op.isComparison || op == .lAnd || op == .lOr then return .ofName "bool"
      else if op == .shl || op == .shr then type depth l
      else if l.isLiteral && !r.isLiteral then type depth r
      else do
        let left ← type depth l
        if left.isUnresolved then
          let right ← type depth r
          return if right.isUnresolved then left else right
        else return left
    | .type _ t => return t.denote
termination_by structural depth => depth

def ident : Nat → Expr → Nat → String → Ask Ty
  | 0, _, _, _ => tooDeep
  | depth + 1, e, id, name =>
    match ty.scopes.bindingOf? id with
    | none => return (Typing.predeclaredType? name).getD e.unresolved
    | some n =>
      match ty.scopes.binding? n with
      | none => return e.unresolved
      | some b =>
        match b.kind, b.origin with
        | .localVar, _ | .globalVar, _ => binding depth n
        | .typeName, _ => return .ofName name
        | .function, .func sig => return sig.denote
        | _, _ => return e.unresolved
termination_by structural depth => depth

/-- The type of a binding, which is on the record until the values of its declaration are known. -/
def binding : Nat → Nat → Ask Ty
  | 0, _ => tooDeep
  | depth + 1, n =>
    match ty.scopes.binding? n with
    | none => return .unresolved ""
    | some b => do
      if (← get).contains n then return .unresolved b.name
      modify (n :: ·)
      let t ← origin depth b.name b.origin
      modify (·.erase n)
      return Typing.named b.name t
termination_by structural depth => depth

def origin : Nat → String → Origin → Ask (Option Ty)
  | 0, _, _ => tooDeep
  | depth + 1, name, o =>
    match o with
    | .define names values index => value depth names values index
    | .value _ (some t) _ _ => return some t.denote
    | .value names none values index => value depth names values index
    | .param t variadic _ => return some (if variadic then .slice t.denote else t.denote)
    | .range subject index => do return (ty.facts.rangeTypes (← type depth subject))[index]?
    | .func sig => return some sig.denote
    | .typeSpec => return some (.ofName name)
    | .typeSwitch | .importSpec => return none
termination_by structural depth => depth

/-- The type of one of several names that are given values together. -/
def value : Nat → Nat → List Expr → Nat → Ask (Option Ty)
  | 0, _, _, _ => tooDeep
  | depth + 1, names, values, index =>
    if values.length = names then
      match values[index]? with
      | some e => do return some (← type depth e)
      | none => return none
    else
      match values with
      | [e] => do
        let tuple ← types depth e
        if tuple.length = names then return tuple[index]?
        else if names = 2 && e.isCommaOk then
          if index = 0 then return some (← type depth e) else return some (.ofName "bool")
        else return none
      | _ => return none
termination_by structural depth => depth

def call : Nat → Expr → Expr → List Expr → Ask (List Ty)
  | 0, _, _, _ => tooDeep
  | depth + 1, e, callee, args =>
    match callee.target with
    | .ident t name =>
      match ty.scopes.bindingOf? t.id with
      | none => do return (← builtin depth name args).getD [e.unresolved]
      | some n =>
        match ty.scopes.binding? n with
        | none => return [e.unresolved]
        | some b =>
          match b.kind, b.origin with
          | .function, .func sig => return sig.resultTypes
          | .typeName, _ => return [.ofName name]
          | .localVar, _ | .globalVar, _ => do return valueResults e (← binding depth n)
          | _, _ => return [e.unresolved]
    | .selector _ x sel => do
      if ty.isPackage x then return [e.unresolved]
      return selectedResults ty e (← type depth x) sel.text
    | .type _ t => return [t.denote]
    | .funcLit _ sig _ => return sig.resultTypes
    | x => do return valueResults e (← type depth x)
termination_by structural depth => depth

/-- The results of a built-in function. Only three of them depend on the type of an argument. -/
def builtin : Nat → String → List Expr → Ask (Option (List Ty))
  | 0, _, _ => tooDeep
  | depth + 1, name, args => do
    let first ← if ["append", "min", "max"].contains name then first depth args else pure none
    return builtinResults? name args fun _ => first
termination_by structural depth => depth

def first : Nat → List Expr → Ask (Option Ty)
  | 0, _ => tooDeep
  | _ + 1, [] => return none
  | depth + 1, e :: _ => do return some (← type depth e)
termination_by structural depth => depth

end

/-- The question is answered whenever it may go deep enough, and the record stays as it is. -/
def Ends {α : Type} (q : Nat → Ask α) (pending : List Nat) (a : α) : Prop :=
  ∃ least, ∀ depth, least ≤ depth → q depth pending = some (a, pending)

namespace Ends

variable {α β : Type} {q : Nat → Ask α} {pending : List Nat} {a : α}

theorem pure (pending : List Nat) (a : α) : Ends (fun _ => Pure.pure a) pending a :=
  ⟨0, fun _ _ => rfl⟩

theorem bind {k : Nat → α → Ask β} {b : β} (hq : Ends q pending a)
    (hk : Ends (fun depth => k depth a) pending b) :
    Ends (fun depth => q depth >>= k depth) pending b := by
  obtain ⟨m, hm⟩ := hq
  obtain ⟨n, hn⟩ := hk
  refine ⟨max m n, fun depth hdepth => ?_⟩
  have hfirst := hm depth (by omega)
  have hsecond := hn depth (by omega)
  change (q depth pending >>= fun p => k depth p.1 p.2) = _
  rw [hfirst]
  exact hsecond

theorem map (k : α → β) (hq : Ends q pending a) :
    Ends (fun depth => do return k (← q depth)) pending (k a) :=
  hq.bind (.pure pending (k a))

theorem succ {q' : Nat → Ask α} (hq : Ends q' pending a) (h : ∀ depth, q (depth + 1) = q' depth) :
    Ends q pending a := by
  obtain ⟨m, hm⟩ := hq
  refine ⟨m + 1, fun depth hdepth => ?_⟩
  obtain ⟨depth, rfl⟩ : ∃ n, depth = n + 1 := ⟨depth - 1, by omega⟩
  rw [h]
  exact hm depth (by omega)

theorem at_once (h : ∀ depth, q (depth + 1) = Pure.pure a) : Ends q pending a :=
  (Ends.pure pending a).succ h

end Ends

end Ask

namespace Expr

@[simp] theorem target_paren (t : Tag) (e : Expr) : (paren t e).target = e.target := rfl

theorem target_ne_paren (e : Expr) (t : Tag) (x : Expr) : e.target ≠ paren t x := by
  fun_induction target e with
  | case1 _ e ih => exact ih
  | case2 e he => exact he t x

theorem sizeOf_target_le (e : Expr) : sizeOf e.target ≤ sizeOf e := by
  fun_induction target e with
  | case1 t e ih =>
    rw [paren.sizeOf_spec]
    omega
  | case2 => exact Nat.le_refl _

end Expr

namespace Typing

variable (ty : Typing) (var : Nat → Ty)

theorem typeOf_target (e : Expr) : ty.typeOf var e.target = ty.typeOf var e := by
  fun_induction Expr.target e with
  | case1 t e ih => rw [ih, typeOf]
  | case2 => rfl

theorem calleeOf_target (e : Expr) : ty.calleeOf var e.target = ty.calleeOf var e := by
  fun_induction Expr.target e with
  | case1 t e ih => rw [ih, calleeOf]
  | case2 => rfl

end Typing

namespace Ask

open Typing (callResults valueResults builtinResults?)

section Expressions

/-! The types of expressions, given those of the variables. -/

variable {ty : Typing} {pending : List Nat} {var : Nat → Ty}

theorem ends_builtin (name : String) {args : List Expr}
    (hargs : ∀ a ∈ args.head?, Ends (fun depth => type ty depth a) pending (ty.typeOf var a)) :
    Ends (fun depth => builtin ty depth name args) pending
      (builtinResults? name args fun _ => ty.firstType var args) := by
  have hfirst : Ends (fun depth => first ty depth args) pending (ty.firstType var args) := by
    cases args with
    | nil => exact .at_once fun depth => by rw [first, Typing.firstType]
    | cons a as => exact ((hargs a rfl).map some).succ fun depth => by rw [first]
  by_cases hname : ["append", "min", "max"].contains name
  · refine (hfirst.map fun t => builtinResults? name args fun _ => t).succ fun depth => ?_
    rw [builtin, if_pos hname]
  · have hresults : (builtinResults? name args fun _ => ty.firstType var args) =
        builtinResults? name args fun _ => none := by
      simp only [builtinResults?, hname]
      rfl
    rw [hresults]
    refine .at_once fun depth => ?_
    rw [builtin, if_neg hname]
    rfl

theorem ends_unary (t : Tag) (op : UnaryOp) {x : Expr}
    (hx : Ends (fun depth => type ty depth x) pending (ty.typeOf var x)) :
    Ends (fun depth => type ty depth (.unary t op x)) pending (ty.typeOf var (.unary t op x)) := by
  cases op with
  | addr =>
    rw [Typing.typeOf]
    exact (hx.map Ty.pointer).succ fun _ => rfl
  | deref =>
    rw [Typing.typeOf]
    refine (hx.bind ?_).succ fun _ => rfl
    cases ty.typeOf var x <;> exact .pure pending _
  | recv =>
    rw [Typing.typeOf]
    refine (hx.bind ?_).succ fun _ => rfl
    cases ty.facts.underlying (ty.typeOf var x) <;> exact .pure pending _
  | not => exact .at_once fun _ => by rw [Typing.typeOf, type]
  | add | sub | xor =>
    rw [Typing.typeOf]
    exact hx.succ fun _ => rfl

/-- The right operand is asked only where the left one does not tell the type. -/
theorem ends_binary (t : Tag) (op : BinaryOp) {l r : Expr}
    (hl : Ends (fun depth => type ty depth l) pending (ty.typeOf var l))
    (hr : Ends (fun depth => type ty depth r) pending (ty.typeOf var r)) :
    Ends (fun depth => type ty depth (.binary t l op r)) pending
      (ty.typeOf var (.binary t l op r)) := by
  rw [Typing.typeOf]
  by_cases hbool : op.isComparison || op == .lAnd || op == .lOr
  · rw [if_pos hbool]
    exact .at_once fun _ => by rw [type, if_pos hbool]
  · rw [if_neg hbool]
    by_cases hshift : op == .shl || op == .shr
    · rw [if_pos hshift]
      exact hl.succ fun _ => by rw [type, if_neg hbool, if_pos hshift]
    · rw [if_neg hshift]
      by_cases hlit : l.isLiteral && !r.isLiteral
      · rw [if_pos hlit]
        exact hr.succ fun _ => by rw [type, if_neg hbool, if_neg hshift, if_pos hlit]
      · rw [if_neg hlit]
        refine (hl.bind ?_).succ fun _ => by rw [type, if_neg hbool, if_neg hshift, if_neg hlit]
        cases hleft : ty.typeOf var l with
        | unresolved hint =>
          refine hr.bind ?_
          cases ty.typeOf var r <;> exact .pure pending _
        | _ => exact .pure pending _

variable (hvar : ∀ n, Ends (fun depth => binding ty depth n) pending (var n))
include hvar

theorem ends_ident (e : Expr) (id : Nat) (name : String) :
    Ends (fun depth => ident ty depth e id name) pending (ty.identType var e id name) := by
  unfold Typing.identType
  split
  · rename_i hnone
    exact .at_once fun depth => by simp only [ident, hnone]
  · rename_i n hn
    split
    · rename_i hnone
      exact .at_once fun depth => by simp only [ident, hn, hnone]
    · rename_i b hb
      split
      · rename_i hkind
        exact (hvar n).succ fun depth => by simp only [ident, hn, hb, hkind]
      · rename_i hkind
        exact (hvar n).succ fun depth => by simp only [ident, hn, hb, hkind]
      · rename_i hkind
        exact .at_once fun depth => by simp only [ident, hn, hb, hkind]
      · rename_i sig hkind horigin
        exact .at_once fun depth => by simp only [ident, hn, hb, hkind, horigin]
      · exact .at_once fun depth => by simp only [ident, hn, hb]

theorem ends_call (e callee : Expr) {args : List Expr}
    (hself : Ends (fun depth => type ty depth callee.target) pending (ty.typeOf var callee.target))
    (hrecv : ∀ t x sel, callee.target = .selector t x sel →
      Ends (fun depth => type ty depth x) pending (ty.typeOf var x))
    (hargs : ∀ a ∈ args.head?, Ends (fun depth => type ty depth a) pending (ty.typeOf var a)) :
    Ends (fun depth => call ty depth e callee args) pending
      (callResults e (ty.calleeOf var callee) (fun _ => ty.typeOf var callee) args
        fun _ => ty.firstType var args) := by
  rw [← ty.calleeOf_target, ← ty.typeOf_target]
  cases hx : callee.target with
  | ident t name =>
    rw [Typing.calleeOf, Typing.namedCallee]
    split
    · rename_i hnone
      refine ((ends_builtin name hargs).map fun ts => ts.getD [e.unresolved]).succ fun depth => ?_
      simp only [call, hx, hnone]
    · rename_i n hn
      split
      · rename_i hnone
        exact .at_once fun depth => by simp only [call, hx, hn, hnone, callResults]
      · rename_i b hb
        split
        · rename_i sig hkind horigin
          exact .at_once fun depth => by simp only [call, hx, hn, hb, hkind, horigin, callResults]
        · rename_i hkind
          exact .at_once fun depth => by simp only [call, hx, hn, hb, hkind, callResults]
        · rename_i hkind
          refine ((hvar n).map (valueResults e)).succ fun depth => ?_
          simp only [call, hx, hn, hb, hkind]
        · rename_i hkind
          refine ((hvar n).map (valueResults e)).succ fun depth => ?_
          simp only [call, hx, hn, hb, hkind]
        · exact .at_once fun depth => by simp only [call, hx, hn, hb, callResults]
  | selector t x sel =>
    rw [Typing.calleeOf]
    by_cases hpackage : ty.isPackage x
    · rw [if_pos hpackage]
      exact .at_once fun depth => by simp only [call, hx, hpackage, if_true, callResults]
    · rw [if_neg hpackage]
      have hx' := hrecv t x sel hx
      have hresults (recv : Ty) : (callResults e (ty.selectedCallee recv sel.text)
          (fun _ => ty.typeOf var (.selector t x sel)) args fun _ => ty.firstType var args) =
          selectedResults ty e recv sel.text := by
        unfold Typing.selectedCallee selectedResults
        cases ty.facts.method? recv sel.text with
        | some sig => rfl
        | none => cases ty.facts.field? recv sel.text <;> rfl
      rw [hresults]
      refine (hx'.map fun recv => selectedResults ty e recv sel.text).succ fun depth => ?_
      simp only [call, hx, hpackage]
      rfl
  | type t x => exact .at_once fun depth => by simp only [call, hx, Typing.calleeOf, callResults]
  | funcLit t sig body =>
    exact .at_once fun depth => by simp only [call, hx, Typing.calleeOf, callResults]
  | paren t x => exact absurd hx (callee.target_ne_paren t x)
  | _ =>
    rw [hx] at hself
    refine (hself.map (valueResults e)).succ fun depth => ?_
    simp only [call, hx]

theorem ends_type (e : Expr) :
    Ends (fun depth => type ty depth e) pending (ty.typeOf var e) := by
  induction hsize : sizeOf e using Nat.strongRecOn generalizing e with
  | _ size ih =>
    subst hsize
    cases e with
    | lit t kind x => exact .at_once fun _ => by rw [type, Typing.typeOf]
    | ident t n => exact (ends_ident hvar _ t.id n).succ fun _ => by rw [type]
    | funcLit t sig body => exact .at_once fun _ => by rw [type, Typing.typeOf]
    | composite t x elems =>
      cases x with
      | none => exact .at_once fun _ => by rw [type, Typing.typeOf]
      | some x => exact .at_once fun _ => rfl
    | paren t x =>
      rw [Typing.typeOf]
      exact (ih _ (by rw [Expr.paren.sizeOf_spec]; omega) x rfl).succ fun _ => by rw [type]
    | selector t x sel =>
      rw [Typing.typeOf]
      by_cases hpackage : ty.isPackage x
      · rw [if_pos hpackage]
        exact .at_once fun _ => by rw [type, if_pos hpackage]
      · rw [if_neg hpackage]
        refine ((ih _ (by simp; omega) x rfl).map fun recv =>
          ty.selectedType (.selector t x sel) recv sel.text).succ fun _ => ?_
        rw [type, if_neg hpackage]
    | index t x i =>
      rw [Typing.typeOf]
      exact ((ih _ (by simp; omega) x rfl).map fun recv =>
        (ty.facts.elementType? recv).getD (Expr.index t x i).unresolved).succ fun _ => by rw [type]
    | slice t x lo hi max =>
      rw [Typing.typeOf]
      exact ((ih _ (by simp; omega) x rfl).map ty.facts.slicedType).succ fun _ => by rw [type]
    | assert t x want =>
      cases want with
      | none => exact .at_once fun _ => by rw [type, Typing.typeOf]
      | some want => exact .at_once fun _ => by rw [type, Typing.typeOf]
    | call t callee args spread =>
      have hcallee : sizeOf callee < sizeOf (Expr.call t callee args spread) := by simp; omega
      have htarget := callee.sizeOf_target_le
      have hargs (a : Expr) (ha : a ∈ args.head?) :
          Ends (fun depth => type ty depth a) pending (ty.typeOf var a) := by
        have hless := List.sizeOf_lt_of_mem (List.mem_of_mem_head? ha)
        exact ih _ (by simp; omega) a rfl
      have hcall := ends_call hvar (.call t callee args spread) callee
        (ih _ (by omega) callee.target rfl)
        (fun u x sel hx => ih _ (by rw [hx] at htarget; simp at htarget ⊢; omega) x rfl) hargs
      have htypes : Ends (fun depth => types ty depth (.call t callee args spread)) pending _ :=
        hcall.succ fun _ => by rw [types]
      have hhead := htypes.map fun ts => ts.headD (Expr.call t callee args spread).unresolved
      rw [Typing.typeOf]
      exact hhead.succ fun _ => rfl
    | unary t op x =>
      exact ends_unary t op (ih _ (by rw [Expr.unary.sizeOf_spec]; omega) x rfl)
    | binary t l op r =>
      exact ends_binary t op (ih _ (by rw [Expr.binary.sizeOf_spec]; omega) l rfl)
        (ih _ (by rw [Expr.binary.sizeOf_spec]; omega) r rfl)
    | type t x => exact .at_once fun _ => rfl

theorem ends_types (e : Expr) :
    Ends (fun depth => types ty depth e) pending (ty.typesOf var e) := by
  fun_induction Typing.typesOf ty var e with
  | case1 t e ih => exact ih.succ fun _ => by rw [types]
  | case2 t callee args spread =>
    have hargs (a : Expr) (_ : a ∈ args.head?) := ends_type hvar a
    have hcall := ends_call hvar (.call t callee args spread) callee (ends_type hvar _)
      (fun _ x _ _ => ends_type hvar x) hargs
    exact hcall.succ fun _ => by rw [types]
  | case3 e hparen hcall =>
    refine ((ends_type hvar e).map fun t => [t]).succ fun _ => ?_
    cases e with
    | paren t x => exact absurd rfl (hparen t x)
    | call t callee args spread => exact absurd rfl (hcall t callee args spread)
    | _ => rfl

theorem ends_value (names : Nat) (values : List Expr) (index : Nat) :
    Ends (fun depth => value ty depth names values index) pending
      (ty.valueType? var names values index) := by
  unfold Typing.valueType?
  by_cases hlength : values.length = names
  · rw [if_pos hlength]
    cases he : values[index]? with
    | none => exact .at_once fun _ => by simp only [value, if_pos hlength, he, Option.map_none]
    | some e =>
      refine ((ends_type hvar e).map some).succ fun _ => ?_
      simp only [value, if_pos hlength, he]
  · rw [if_neg hlength]
    match values, hlength with
    | [], hlength => exact .at_once fun _ => by simp only [value, if_neg hlength]
    | [e], hlength =>
      refine ((ends_types hvar e).bind ?_).succ fun _ => by simp only [value, if_neg hlength]; rfl
      by_cases htuple : (ty.typesOf var e).length = names
      · simp only [htuple, if_true]
        exact .pure pending _
      · simp only [htuple, if_false]
        by_cases hpair : (names = 2 && e.isCommaOk) = true
        · rw [if_pos hpair]
          by_cases hindex : index = 0
          · simp only [hpair, if_true, hindex]
            exact (ends_type hvar e).map some
          · simp only [hpair, if_true, hindex, if_false]
            exact .pure pending _
        · simp only [hpair]
          exact .pure pending _
    | _ :: _ :: _, hlength => exact .at_once fun _ => by simp only [value, if_neg hlength]

theorem ends_origin (name : String) (o : Origin) :
    Ends (fun depth => origin ty depth name o) pending (ty.originType? var name o) := by
  cases o with
  | define names values index => exact (ends_value hvar names values index).succ fun _ => rfl
  | value names want values index =>
    cases want with
    | none => exact (ends_value hvar names values index).succ fun _ => rfl
    | some t => exact .at_once fun _ => rfl
  | range subject index =>
    exact ((ends_type hvar subject).map fun t => (ty.facts.rangeTypes t)[index]?).succ fun _ => rfl
  | _ => exact .at_once fun _ => rfl

end Expressions

end Ask

namespace Typing

variable (ty : Typing)

/-- How many bindings are not being asked for. -/
def unasked (pending : List Nat) : Nat :=
  (List.range ty.scopes.bindings.length).countP fun n => !pending.contains n

theorem unasked_le (pending : List Nat) : ty.unasked pending ≤ ty.scopes.bindings.length := by
  simpa [unasked] using List.countP_le_length (l := List.range ty.scopes.bindings.length)

theorem unasked_cons {pending : List Nat} {n : Nat} {b : Binding}
    (hb : ty.scopes.binding? n = some b) (hn : pending.contains n = false) :
    ty.unasked (n :: pending) < ty.unasked pending := by
  have hlt : n < ty.scopes.bindings.length := (List.getElem?_eq_some_iff.1 hb).1
  obtain ⟨before, after, hsplit⟩ := List.append_of_mem (List.mem_range.2 hlt)
  have hmono (l : List Nat) : l.countP (fun m => !(n :: pending).contains m) ≤
      l.countP fun m => !pending.contains m := by
    refine List.countP_mono_left fun m _ hm => ?_
    simp only [List.contains_cons, Bool.not_or, Bool.and_eq_true] at hm
    exact hm.2
  have hbefore := hmono before
  have hafter := hmono after
  have hself : (!pending.contains n) = true := by rw [hn]; rfl
  have hgone : (!(n :: pending).contains n) = false := by simp
  simp only [unasked, hsplit, List.countP_append, List.countP_cons, hself, hgone, if_true]
  simp only [Bool.false_eq_true, if_false]
  omega

/-- As many steps as there are bindings left are enough, and more change nothing. -/
theorem bindingTypeFrom_eq {pending : List Nat} {m n : Nat} (hm : ty.unasked pending < m)
    (hn : ty.unasked pending < n) : ty.bindingTypeFrom m pending = ty.bindingTypeFrom n pending := by
  induction m generalizing n pending with
  | zero => omega
  | succ m ih =>
    obtain ⟨n, rfl⟩ : ∃ k, n = k + 1 := ⟨n - 1, by omega⟩
    funext k
    simp only [bindingTypeFrom]
    cases hb : ty.scopes.binding? k with
    | none => rfl
    | some b =>
      cases hk : pending.contains k with
      | true => rfl
      | false =>
        have hless := ty.unasked_cons hb hk
        have hsame : ty.bindingTypeFrom m (k :: pending) = ty.bindingTypeFrom n (k :: pending) :=
          ih (by omega) (by omega)
        rw [hsame]

/-- The types of all bindings while some are being asked for. -/
def bindingTypeBeside (pending : List Nat) : Nat → Ty :=
  ty.bindingTypeFrom (ty.scopes.bindings.length + 1) pending

/-- Steps are not counted: the type of a binding follows from those of the others. -/
theorem bindingTypeBeside_eq (pending : List Nat) {n : Nat} {b : Binding}
    (hb : ty.scopes.binding? n = some b) (hn : pending.contains n = false) :
    ty.bindingTypeBeside pending n =
      named b.name (ty.originType? (ty.bindingTypeBeside (n :: pending)) b.name b.origin) := by
  have hless := ty.unasked_cons hb hn
  have hle := ty.unasked_le pending
  have hlt := ty.unasked_le (n :: pending)
  have hsame : ty.bindingTypeFrom ty.scopes.bindings.length (n :: pending) =
      ty.bindingTypeBeside (n :: pending) :=
    ty.bindingTypeFrom_eq (by omega) (Nat.lt_succ_of_le hlt)
  rw [bindingTypeBeside, bindingTypeFrom, hb]
  simp only [hn, hsame]
  rfl

end Typing

namespace Ask

/-- A binding that is not on the record stays on it only while its own declaration is looked at. -/
theorem ends_binding (ty : Typing) (pending : List Nat) (n : Nat) :
    Ends (fun depth => binding ty depth n) pending (ty.bindingTypeBeside pending n) := by
  induction hleft : ty.unasked pending using Nat.strongRecOn generalizing pending n with
  | _ left ih =>
    subst hleft
    cases hb : ty.scopes.binding? n with
    | none =>
      rw [Typing.bindingTypeBeside, Typing.bindingTypeFrom, hb]
      exact .at_once fun _ => by simp only [binding, hb]
    | some b =>
      cases hn : pending.contains n with
      | true =>
        rw [Typing.bindingTypeBeside, Typing.bindingTypeFrom, hb]
        refine ⟨1, fun depth hdepth => ?_⟩
        obtain ⟨depth, rfl⟩ : ∃ k, depth = k + 1 := ⟨depth - 1, by omega⟩
        simp only [binding, hb]
        change (if pending.contains n = true then _ else _ : Ask Ty) pending = _
        rw [if_pos hn]
        simp only [hn]
        rfl
      | false =>
        have hless := ty.unasked_cons hb hn
        have hothers (m : Nat) := ih _ hless (n :: pending) m rfl
        obtain ⟨least, horigin⟩ := ends_origin hothers b.name b.origin
        rw [ty.bindingTypeBeside_eq pending hb hn]
        refine ⟨least + 1, fun depth hdepth => ?_⟩
        obtain ⟨depth, rfl⟩ : ∃ k, depth = k + 1 := ⟨depth - 1, by omega⟩
        simp only [binding, hb]
        change (if pending.contains n = true then _ else _ : Ask Ty) pending = _
        rw [if_neg (by rw [hn]; simp)]
        change (origin ty depth b.name b.origin (n :: pending) >>= fun p =>
          some (Typing.named b.name p.1, p.2.erase n)) = _
        have hanswer : origin ty depth b.name b.origin (n :: pending) = _ := horigin depth (by omega)
        rw [hanswer]
        simp

end Ask

inductive Query where
  | types (e : Expr)
  | type (e : Expr)
  | binding (n : Nat)

namespace Query

def ask (ty : Typing) (depth : Nat) : Query → Ask (List Ty)
  | .types e => Ask.types ty depth e
  | .type e => do return [← Ask.type ty depth e]
  | .binding n => do return [← Ask.binding ty depth n]

/-- The answer of a deducer with nothing on its record. -/
def answer (ty : Typing) : Query → List Ty
  | .types e => ty.exprTypes e
  | .type e => [ty.exprType e]
  | .binding n => [ty.bindingType n]

def answerBeside (ty : Typing) (pending : List Nat) : Query → List Ty
  | .types e => ty.typesOf (ty.bindingTypeBeside pending) e
  | .type e => [ty.typeOf (ty.bindingTypeBeside pending) e]
  | .binding n => [ty.bindingTypeBeside pending n]

theorem answerBeside_nil (ty : Typing) (q : Query) : q.answerBeside ty [] = q.answer ty := by
  cases q <;> rfl

theorem ends (ty : Typing) (pending : List Nat) (q : Query) :
    Ask.Ends (fun depth => q.ask ty depth) pending (q.answerBeside ty pending) := by
  have hvar := Ask.ends_binding ty pending
  cases q with
  | types e => exact Ask.ends_types hvar e
  | type e => exact (Ask.ends_type hvar e).map fun t => [t]
  | binding n => exact (hvar n).map fun t => [t]

def askAll (ty : Typing) (depth : Nat) : List Query → Ask (List (List Ty))
  | [] => return []
  | q :: qs => do return (← q.ask ty depth) :: (← askAll ty depth qs)

theorem ends_all (ty : Typing) (pending : List Nat) (qs : List Query) :
    Ask.Ends (fun depth => askAll ty depth qs) pending (qs.map (answerBeside ty pending)) := by
  induction qs with
  | nil => exact .pure pending []
  | cons q qs ih => exact (q.ends ty pending).bind (ih.map fun as => q.answerBeside ty pending :: as)

end Query

/-- Every question about the types of a document is answered if it may go deep enough, whatever is on
the deducer's record, and the record stays. After any questions a new deducer answers a further one
as if it were the first, and as the types were deduced without a record. -/
theorem Document.answers_end (d : Document) :
    (∀ (pending : List Nat) (q : Query), ∃ a least, ∀ depth, least ≤ depth →
      q.ask d.typing depth pending = some (a, pending)) ∧
    ∀ (qs : List Query) (q : Query), ∃ least, ∀ depth, least ≤ depth →
      (do let _ ← Query.askAll d.typing depth qs; q.ask d.typing depth) [] =
        some (q.answer d.typing, []) ∧
      q.ask d.typing depth [] = some (q.answer d.typing, []) := by
  refine ⟨fun pending q => ⟨_, q.ends d.typing pending⟩, fun qs q => ?_⟩
  have hq := q.ends d.typing []
  rw [q.answerBeside_nil] at hq
  obtain ⟨m, hm⟩ := (Query.ends_all d.typing [] qs).bind
    (k := fun depth _ => q.ask d.typing depth) hq
  obtain ⟨n, hn⟩ := hq
  exact ⟨max m n, fun depth hdepth => ⟨hm depth (by omega), hn depth (by omega)⟩⟩

end FuncLift
