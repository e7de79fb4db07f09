import FuncLift.Lift.Layout
import FuncLift.Proofs.Bare

/-!
# Changes of tags

A change of tags does to a tree what it does to the tags of its entries. Two such changes that agree
on the entries of a tree change the tree alike, and one that keeps their tags keeps the tree.
-/
namespace FuncLift

/-- Two functions do the same to the tags of entries. -/
def Agree (f g : Tag → Tag) (es : List Entry) : Prop := ∀ x ∈ es, f x.tag = g x.tag

namespace Agree

variable {f g : Tag → Tag}

@[simp] theorem nil : Agree f g [] := by simp [Agree]

@[simp] theorem cons {x : Entry} {es : List Entry} :
    Agree f g (x :: es) ↔ f x.tag = g x.tag ∧ Agree f g es := by simp [Agree]

@[simp] theorem append {es fs : List Entry} :
    Agree f g (es ++ fs) ↔ Agree f g es ∧ Agree f g fs := by
  simp only [Agree, List.mem_append]
  exact ⟨fun h => ⟨fun x hx => h x (.inl hx), fun x hx => h x (.inr hx)⟩,
    fun h x hx => hx.elim (h.1 x) (h.2 x)⟩

end Agree

namespace Change

variable {f g : Tag → Tag}

@[simp] theorem onTag_tags (t : Tag) : (tags f).onTag t = f t := rfl

@[simp] theorem onExpr_tags (e : Expr) : (tags f).onExpr e = none := rfl

@[simp] theorem onStmts_tags (id : Nat) (ss : List Stmt) : (tags f).onStmts id ss = ss := rfl

/-- A tag with a mark gets the span of a mark. -/
theorem ofMarks_found {t : Tag} (ms : List Mark) (h : ∃ m ∈ ms, m.id = t.id) :
    ∃ m ∈ ms, m.id = t.id ∧ ((ofMarks ms).onTag t).span = m.span := by
  have hlookup : ∃ m ∈ ms, m.id = t.id ∧
      (ms.map fun m => (m.id, m.span)).lookup t.id = some m.span := by
    induction ms with
    | nil =>
      obtain ⟨m, hm, _⟩ := h
      cases hm
    | cons n ms ih =>
      rw [List.map_cons, List.lookup_cons]
      by_cases heq : t.id = n.id
      · exact ⟨n, List.mem_cons_self, heq.symm, by simp [heq]⟩
      · obtain ⟨m, hm, hid⟩ := h
        rcases List.mem_cons.1 hm with rfl | hm
        · exact absurd hid.symm heq
        · obtain ⟨k, hk, hkid, hspan⟩ := ih ⟨m, hm, hid⟩
          have hne : (t.id == n.id) = false := by simpa using heq
          refine ⟨k, List.mem_cons_of_mem _ hk, hkid, ?_⟩
          rw [hne]
          exact hspan
  obtain ⟨m, hm, hid, hspan⟩ := hlookup
  exact ⟨m, hm, hid, by simp [ofMarks, tags, hspan]⟩

/-- A tag without a mark stays. -/
theorem ofMarks_kept {t : Tag} (ms : List Mark) (h : ¬∃ m ∈ ms, m.id = t.id) :
    (ofMarks ms).onTag t = t := by
  have hlookup : (ms.map fun m => (m.id, m.span)).lookup t.id = none := by
    refine List.lookup_eq_none_iff.2 fun p hp => ?_
    obtain ⟨m, hm, rfl⟩ := List.mem_map.1 hp
    have hne : m.id ≠ t.id := fun hid => h ⟨m, hm, hid⟩
    simpa using fun hid => hne hid.symm
  simp [ofMarks, tags, hlookup]

theorem names_agree (ns : List Name) (h : Agree f g (nameEntries ns)) :
    (tags f).names ns = (tags g).names ns := by
  refine List.map_congr_left fun n hn => ?_
  have hn : f n.tag = g n.tag := h n.entry (List.mem_map_of_mem hn)
  simp [Change.name, hn]

theorem nameOption_agree (n : Option Name) (h : Agree f g (nameEntries n.toList)) :
    (tags f).nameOption n = (tags g).nameOption n := by
  cases n with
  | none => rfl
  | some n =>
    have hn : f n.tag = g n.tag := h n.entry List.mem_cons_self
    simp [nameOption, Change.name, hn]

mutual

theorem expr_agree : ∀ x : Expr, Agree f g x.entries → (tags f).expr x = (tags g).expr x
  | .ident t n, h => by
    have ht : f t = g t := by simpa using h
    simp only [expr, onExpr_tags, onTag_tags, ht]
  | .lit t k x, h => by
    have ht : f t = g t := by simpa using h
    simp only [expr, onExpr_tags, onTag_tags, ht]
  | .funcLit t sig b, h => by
    obtain ⟨ht, hsig, hb⟩ := by simpa using h
    simp only [expr, onExpr_tags, onTag_tags, ht, signature_agree sig hsig, block_agree b hb]
  | .composite t type es, h => by
    obtain ⟨ht, htype, hes⟩ := by simpa using h
    simp only [expr, onExpr_tags, onTag_tags, ht, typeOption_agree type htype,
      elements_agree es hes]
  | .paren t x, h => by
    obtain ⟨ht, hx⟩ := by simpa using h
    simp only [expr, onExpr_tags, onTag_tags, ht, expr_agree x hx]
  | .selector t x n, h => by
    obtain ⟨ht, hn, hx⟩ := by simpa using h
    simp only [expr, onExpr_tags, onTag_tags, Change.name, ht, hn, expr_agree x hx]
  | .index t x i, h => by
    obtain ⟨ht, hx, hi⟩ := by simpa using h
    simp only [expr, onExpr_tags, onTag_tags, ht, expr_agree x hx, expr_agree i hi]
  | .slice t x lo hi max, h => by
    obtain ⟨ht, hx, hlo, hhi, hmax⟩ := by simpa using h
    simp only [expr, onExpr_tags, onTag_tags, ht, expr_agree x hx, exprOption_agree lo hlo,
      exprOption_agree hi hhi, exprOption_agree max hmax]
  | .assert t x type, h => by
    obtain ⟨ht, hx, htype⟩ := by simpa using h
    simp only [expr, onExpr_tags, onTag_tags, ht, expr_agree x hx, typeOption_agree type htype]
  | .call t callee args spread, h => by
    obtain ⟨ht, hcallee, hargs⟩ := by simpa using h
    simp only [expr, onExpr_tags, onTag_tags, ht, expr_agree callee hcallee, exprs_agree args hargs]
  | .unary t op x, h => by
    obtain ⟨ht, hx⟩ := by simpa using h
    simp only [expr, onExpr_tags, onTag_tags, ht, expr_agree x hx]
  | .binary t l op r, h => by
    obtain ⟨ht, hl, hr⟩ := by simpa using h
    simp only [expr, onExpr_tags, onTag_tags, ht, expr_agree l hl, expr_agree r hr]
  | .type t type, h => by
    obtain ⟨ht, htype⟩ := by simpa using h
    simp only [expr, onExpr_tags, onTag_tags, ht, typeExpr_agree type htype]

theorem exprOption_agree : ∀ x : Option Expr, Agree f g (x.toList.flatMap Expr.entries) →
    (tags f).exprOption x = (tags g).exprOption x
  | none, _ => rfl
  | some x, h => by rw [exprOption, exprOption, expr_agree x (by simpa using h)]

theorem exprs_agree : ∀ xs : List Expr, Agree f g (xs.flatMap Expr.entries) →
    (tags f).exprs xs = (tags g).exprs xs
  | [], _ => rfl
  | x :: xs, h => by
    obtain ⟨hx, hxs⟩ := by simpa using h
    rw [exprs, exprs, expr_agree x hx, exprs_agree xs hxs]

theorem element_agree : ∀ x : Element, Agree f g x.entries →
    (tags f).element x = (tags g).element x
  | ⟨key, value⟩, h => by
    obtain ⟨hkey, hvalue⟩ := by simpa using h
    simp only [element, exprOption_agree key hkey, expr_agree value hvalue]

theorem elements_agree : ∀ xs : List Element, Agree f g (xs.flatMap Element.entries) →
    (tags f).elements xs = (tags g).elements xs
  | [], _ => rfl
  | x :: xs, h => by
    obtain ⟨hx, hxs⟩ := by simpa using h
    rw [elements, elements, element_agree x hx, elements_agree xs hxs]

theorem typeExpr_agree : ∀ x : TypeExpr, Agree f g x.entries →
    (tags f).typeExpr x = (tags g).typeExpr x
  | .named t pkg n, h => by
    have ht : f t = g t := by simpa using h
    simp only [typeExpr, onTag_tags, ht]
  | .pointer t x, h => by
    obtain ⟨ht, hx⟩ := by simpa using h
    simp only [typeExpr, onTag_tags, ht, typeExpr_agree x hx]
  | .slice t x, h => by
    obtain ⟨ht, hx⟩ := by simpa using h
    simp only [typeExpr, onTag_tags, ht, typeExpr_agree x hx]
  | .array t len x, h => by
    obtain ⟨ht, hlen, hx⟩ := by simpa using h
    simp only [typeExpr, onTag_tags, ht, exprOption_agree len hlen, typeExpr_agree x hx]
  | .map t k v, h => by
    obtain ⟨ht, hk, hv⟩ := by simpa using h
    simp only [typeExpr, onTag_tags, ht, typeExpr_agree k hk, typeExpr_agree v hv]
  | .chan t dir x, h => by
    obtain ⟨ht, hx⟩ := by simpa using h
    simp only [typeExpr, onTag_tags, ht, typeExpr_agree x hx]
  | .func t sig, h => by
    obtain ⟨ht, hsig⟩ := by simpa using h
    simp only [typeExpr, onTag_tags, ht, signature_agree sig hsig]
  | .struct t fs, h => by
    obtain ⟨ht, hfs⟩ := by simpa using h
    simp only [typeExpr, onTag_tags, ht, fields_agree fs hfs]
  | .interface t fs, h => by
    obtain ⟨ht, hfs⟩ := by simpa using h
    simp only [typeExpr, onTag_tags, ht, fields_agree fs hfs]

theorem typeOption_agree : ∀ x : Option TypeExpr,
    Agree f g (x.toList.flatMap TypeExpr.entries) → (tags f).typeOption x = (tags g).typeOption x
  | none, _ => rfl
  | some x, h => by rw [typeOption, typeOption, typeExpr_agree x (by simpa using h)]

theorem types_agree : ∀ xs : List TypeExpr, Agree f g (xs.flatMap TypeExpr.entries) →
    (tags f).types xs = (tags g).types xs
  | [], _ => rfl
  | x :: xs, h => by
    obtain ⟨hx, hxs⟩ := by simpa using h
    rw [types, types, typeExpr_agree x hx, types_agree xs hxs]

theorem field_agree : ∀ x : Field, Agree f g x.entries → (tags f).field x = (tags g).field x
  | ⟨t, ns, type, variadic, label⟩, h => by
    obtain ⟨ht, hns, htype⟩ := by simpa using h
    simp only [field, onTag_tags, ht, names_agree ns hns, typeExpr_agree type htype]

theorem fields_agree : ∀ xs : List Field, Agree f g (xs.flatMap Field.entries) →
    (tags f).fields xs = (tags g).fields xs
  | [], _ => rfl
  | x :: xs, h => by
    obtain ⟨hx, hxs⟩ := by simpa using h
    rw [fields, fields, field_agree x hx, fields_agree xs hxs]

theorem signature_agree : ∀ x : Signature, Agree f g x.entries →
    (tags f).signature x = (tags g).signature x
  | ⟨t, ps, rs⟩, h => by
    obtain ⟨ht, hps, hrs⟩ := by simpa using h
    simp only [signature, onTag_tags, ht, fields_agree ps hps, fields_agree rs hrs]

theorem block_agree : ∀ x : Block, Agree f g x.entries → (tags f).block x = (tags g).block x
  | ⟨t, ss⟩, h => by
    obtain ⟨ht, hss⟩ := by simpa using h
    simp only [block, onStmts_tags, onTag_tags, ht, stmts_agree ss hss]

theorem simple_agree : ∀ x : Simple, Agree f g x.entries → (tags f).simple x = (tags g).simple x
  | .expr t e, h => by
    obtain ⟨ht, he⟩ := by simpa using h
    simp only [simple, onTag_tags, ht, expr_agree e he]
  | .send t ch v, h => by
    obtain ⟨ht, hch, hv⟩ := by simpa using h
    simp only [simple, onTag_tags, ht, expr_agree ch hch, expr_agree v hv]
  | .step t e op, h => by
    obtain ⟨ht, he⟩ := by simpa using h
    simp only [simple, onTag_tags, ht, expr_agree e he]
  | .assign t l op r, h => by
    obtain ⟨ht, hl, hr⟩ := by simpa using h
    simp only [simple, onTag_tags, ht, exprs_agree l hl, exprs_agree r hr]
  | .define t ns vs, h => by
    obtain ⟨ht, hns, hvs⟩ := by simpa using h
    simp only [simple, onTag_tags, ht, names_agree ns hns, exprs_agree vs hvs]

theorem simpleOption_agree : ∀ x : Option Simple, Agree f g (x.toList.flatMap Simple.entries) →
    (tags f).simpleOption x = (tags g).simpleOption x
  | none, _ => rfl
  | some x, h => by rw [simpleOption, simpleOption, simple_agree x (by simpa using h)]

theorem stmt_agree : ∀ x : Stmt, Agree f g x.entries → (tags f).stmt x = (tags g).stmt x
  | .simple t s, h => by
    obtain ⟨ht, hs⟩ := by simpa using h
    simp only [stmt, onTag_tags, ht, simple_agree s hs]
  | .decl t d, h => by
    obtain ⟨ht, hd⟩ := by simpa using h
    simp only [stmt, onTag_tags, ht, decl_agree d hd]
  | .labeled t n s, h => by
    obtain ⟨ht, hn, hs⟩ := by simpa using h
    simp only [stmt, onTag_tags, Change.name, ht, hn, stmt_agree s hs]
  | .go t e, h => by
    obtain ⟨ht, he⟩ := by simpa using h
    simp only [stmt, onTag_tags, ht, expr_agree e he]
  | .defer t e, h => by
    obtain ⟨ht, he⟩ := by simpa using h
    simp only [stmt, onTag_tags, ht, expr_agree e he]
  | .ret t es, h => by
    obtain ⟨ht, hes⟩ := by simpa using h
    simp only [stmt, onTag_tags, ht, exprs_agree es hes]
  | .branch t kind n, h => by
    obtain ⟨ht, hn⟩ := by simpa using h
    simp only [stmt, onTag_tags, ht, nameOption_agree n hn]
  | .block t b, h => by
    obtain ⟨ht, hb⟩ := by simpa using h
    simp only [stmt, onTag_tags, ht, block_agree b hb]
  | .ifElse t init cond yes no, h => by
    obtain ⟨ht, hinit, hcond, hyes, hno⟩ := by simpa using h
    simp only [stmt, onTag_tags, ht, simpleOption_agree init hinit, expr_agree cond hcond,
      block_agree yes hyes, stmtOption_agree no hno]
  | .loop t head b, h => by
    obtain ⟨ht, hhead, hb⟩ := by simpa using h
    simp only [stmt, onTag_tags, ht, loopHead_agree head hhead, block_agree b hb]
  | .switch t init subject cs, h => by
    obtain ⟨ht, hinit, hsubject, hcs⟩ := by simpa using h
    simp only [stmt, onTag_tags, ht, simpleOption_agree init hinit,
      exprOption_agree subject hsubject, clauses_agree cs hcs]
  | .typeSwitch t init bind guard cs, h => by
    obtain ⟨ht, hbind, hinit, hguard, hcs⟩ := by simpa using h
    simp only [stmt, onTag_tags, ht, nameOption_agree bind hbind, simpleOption_agree init hinit,
      expr_agree guard hguard, clauses_agree cs hcs]
  | .select t cs, h => by
    obtain ⟨ht, hcs⟩ := by simpa using h
    simp only [stmt, onTag_tags, ht, comms_agree cs hcs]

theorem stmtOption_agree : ∀ x : Option Stmt, Agree f g (x.toList.flatMap Stmt.entries) →
    (tags f).stmtOption x = (tags g).stmtOption x
  | none, _ => rfl
  | some x, h => by rw [stmtOption, stmtOption, stmt_agree x (by simpa using h)]

theorem stmts_agree : ∀ xs : List Stmt, Agree f g (xs.flatMap Stmt.entries) →
    (tags f).stmts xs = (tags g).stmts xs
  | [], _ => rfl
  | x :: xs, h => by
    obtain ⟨hx, hxs⟩ := by simpa using h
    rw [stmts, stmts, stmt_agree x hx, stmts_agree xs hxs]

theorem loopHead_agree : ∀ x : LoopHead, Agree f g x.entries →
    (tags f).loopHead x = (tags g).loopHead x
  | .forever, _ => rfl
  | .cond e, h => by rw [loopHead, loopHead, expr_agree e (by simpa using h)]
  | .clause init cond post, h => by
    obtain ⟨hinit, hcond, hpost⟩ := by simpa using h
    simp only [loopHead, simpleOption_agree init hinit, exprOption_agree cond hcond,
      simpleOption_agree post hpost]
  | .range key value define e, h => by
    obtain ⟨hkey, hvalue, he⟩ := by simpa using h
    simp only [loopHead, exprOption_agree key hkey, exprOption_agree value hvalue, expr_agree e he]

theorem cases_agree : ∀ x : Cases, Agree f g x.entries → (tags f).cases x = (tags g).cases x
  | .default, _ => rfl
  | .exprs es, h => by rw [cases, cases, exprs_agree es (by simpa using h)]
  | .types ts, h => by rw [cases, cases, types_agree ts (by simpa using h)]

theorem clause_agree : ∀ x : Clause, Agree f g x.entries → (tags f).clause x = (tags g).clause x
  | ⟨t, cs, ss⟩, h => by
    obtain ⟨ht, hcs, hss⟩ := by simpa using h
    simp only [clause, onStmts_tags, onTag_tags, ht, cases_agree cs hcs, stmts_agree ss hss]

theorem clauses_agree : ∀ xs : List Clause, Agree f g (xs.flatMap Clause.entries) →
    (tags f).clauses xs = (tags g).clauses xs
  | [], _ => rfl
  | x :: xs, h => by
    obtain ⟨hx, hxs⟩ := by simpa using h
    rw [clauses, clauses, clause_agree x hx, clauses_agree xs hxs]

theorem comm_agree : ∀ x : Comm, Agree f g x.entries → (tags f).comm x = (tags g).comm x
  | ⟨t, guard, ss⟩, h => by
    obtain ⟨ht, hguard, hss⟩ := by simpa using h
    simp only [comm, onStmts_tags, onTag_tags, ht, simpleOption_agree guard hguard,
      stmts_agree ss hss]

theorem comms_agree : ∀ xs : List Comm, Agree f g (xs.flatMap Comm.entries) →
    (tags f).comms xs = (tags g).comms xs
  | [], _ => rfl
  | x :: xs, h => by
    obtain ⟨hx, hxs⟩ := by simpa using h
    rw [comms, comms, comm_agree x hx, comms_agree xs hxs]

theorem decl_agree : ∀ x : Decl, Agree f g x.entries → (tags f).decl x = (tags g).decl x
  | ⟨t, kind, grouped, ss⟩, h => by
    obtain ⟨ht, hss⟩ := by simpa using h
    simp only [decl, onTag_tags, ht, specs_agree ss hss]

theorem spec_agree : ∀ x : Spec, Agree f g x.entries → (tags f).spec x = (tags g).spec x
  | .imports t n path, h => by
    obtain ⟨ht, hn⟩ := by simpa using h
    simp only [spec, onTag_tags, ht, nameOption_agree n hn]
  | .values t ns type vs, h => by
    obtain ⟨ht, hns, htype, hvs⟩ := by simpa using h
    simp only [spec, onTag_tags, ht, names_agree ns hns, typeOption_agree type htype,
      exprs_agree vs hvs]
  | .type t n isAlias type, h => by
    obtain ⟨ht, hn, htype⟩ := by simpa using h
    simp only [spec, onTag_tags, Change.name, ht, hn, typeExpr_agree type htype]

theorem specs_agree : ∀ xs : List Spec, Agree f g (xs.flatMap Spec.entries) →
    (tags f).specs xs = (tags g).specs xs
  | [], _ => rfl
  | x :: xs, h => by
    obtain ⟨hx, hxs⟩ := by simpa using h
    rw [specs, specs, spec_agree x hx, specs_agree xs hxs]

end

theorem name_same (n : Name) : (tags fun t => t).name n = n := rfl

theorem names_same (ns : List Name) : (tags fun t => t).names ns = ns := List.map_id ns

theorem nameOption_same (n : Option Name) : (tags fun t => t).nameOption n = n :=
  Option.map_id_apply

mutual

theorem expr_same : ∀ x : Expr, (tags fun t => t).expr x = x
  | .ident t n => by simp only [expr, onExpr_tags, onTag_tags]
  | .lit t k x => by simp only [expr, onExpr_tags, onTag_tags]
  | .funcLit t sig b => by
    simp only [expr, onExpr_tags, onTag_tags, signature_same sig, block_same b]
  | .composite t type es => by
    simp only [expr, onExpr_tags, onTag_tags, typeOption_same type, elements_same es]
  | .paren t x => by simp only [expr, onExpr_tags, onTag_tags, expr_same x]
  | .selector t x n => by simp only [expr, onExpr_tags, onTag_tags, name_same, expr_same x]
  | .index t x i => by simp only [expr, onExpr_tags, onTag_tags, expr_same x, expr_same i]
  | .slice t x lo hi max => by
    simp only [expr, onExpr_tags, onTag_tags, expr_same x, exprOption_same lo,
      exprOption_same hi, exprOption_same max]
  | .assert t x type => by
    simp only [expr, onExpr_tags, onTag_tags, expr_same x, typeOption_same type]
  | .call t callee args spread => by
    simp only [expr, onExpr_tags, onTag_tags, expr_same callee, exprs_same args]
  | .unary t op x => by simp only [expr, onExpr_tags, onTag_tags, expr_same x]
  | .binary t l op r => by simp only [expr, onExpr_tags, onTag_tags, expr_same l, expr_same r]
  | .type t type => by simp only [expr, onExpr_tags, onTag_tags, typeExpr_same type]

theorem exprOption_same : ∀ x : Option Expr, (tags fun t => t).exprOption x = x
  | none => rfl
  | some x => by rw [exprOption, expr_same x]

theorem exprs_same : ∀ xs : List Expr, (tags fun t => t).exprs xs = xs
  | [] => rfl
  | x :: xs => by rw [exprs, expr_same x, exprs_same xs]

theorem element_same : ∀ x : Element, (tags fun t => t).element x = x
  | ⟨key, value⟩ => by simp only [element, exprOption_same key, expr_same value]

theorem elements_same : ∀ xs : List Element, (tags fun t => t).elements xs = xs
  | [] => rfl
  | x :: xs => by rw [elements, element_same x, elements_same xs]

theorem typeExpr_same : ∀ x : TypeExpr, (tags fun t => t).typeExpr x = x
  | .named t pkg n => by simp only [typeExpr, onTag_tags]
  | .pointer t x => by simp only [typeExpr, onTag_tags, typeExpr_same x]
  | .slice t x => by simp only [typeExpr, onTag_tags, typeExpr_same x]
  | .array t len x => by simp only [typeExpr, onTag_tags, exprOption_same len, typeExpr_same x]
  | .map t k v => by simp only [typeExpr, onTag_tags, typeExpr_same k, typeExpr_same v]
  | .chan t dir x => by simp only [typeExpr, onTag_tags, typeExpr_same x]
  | .func t sig => by simp only [typeExpr, onTag_tags, signature_same sig]
  | .struct t fs => by simp only [typeExpr, onTag_tags, fields_same fs]
  | .interface t fs => by simp only [typeExpr, onTag_tags, fields_same fs]

theorem typeOption_same : ∀ x : Option TypeExpr, (tags fun t => t).typeOption x = x
  | none => rfl
  | some x => by rw [typeOption, typeExpr_same x]

theorem types_same : ∀ xs : List TypeExpr, (tags fun t => t).types xs = xs
  | [] => rfl
  | x :: xs => by rw [types, typeExpr_same x, types_same xs]

theorem field_same : ∀ x : Field, (tags fun t => t).field x = x
  | ⟨t, ns, type, variadic, label⟩ => by
    simp only [field, onTag_tags, names_same ns, typeExpr_same type]

theorem fields_same : ∀ xs : List Field, (tags fun t => t).fields xs = xs
  | [] => rfl
  | x :: xs => by rw [fields, field_same x, fields_same xs]

theorem signature_same : ∀ x : Signature, (tags fun t => t).signature x = x
  | ⟨t, ps, rs⟩ => by simp only [signature, onTag_tags, fields_same ps, fields_same rs]

theorem block_same : ∀ x : Block, (tags fun t => t).block x = x
  | ⟨t, ss⟩ => by simp only [block, onStmts_tags, onTag_tags, stmts_same ss]

theorem simple_same : ∀ x : Simple, (tags fun t => t).simple x = x
  | .expr t e => by simp only [simple, onTag_tags, expr_same e]
  | .send t ch v => by simp only [simple, onTag_tags, expr_same ch, expr_same v]
  | .step t e op => by simp only [simple, onTag_tags, expr_same e]
  | .assign t l op r => by simp only [simple, onTag_tags, exprs_same l, exprs_same r]
  | .define t ns vs => by simp only [simple, onTag_tags, names_same ns, exprs_same vs]

theorem simpleOption_same : ∀ x : Option Simple, (tags fun t => t).simpleOption x = x
  | none => rfl
  | some x => by rw [simpleOption, simple_same x]

theorem stmt_same : ∀ x : Stmt, (tags fun t => t).stmt x = x
  | .simple t s => by simp only [stmt, onTag_tags, simple_same s]
  | .decl t d => by simp only [stmt, onTag_tags, decl_same d]
  | .labeled t n s => by simp only [stmt, onTag_tags, name_same, stmt_same s]
  | .go t e => by simp only [stmt, onTag_tags, expr_same e]
  | .defer t e => by simp only [stmt, onTag_tags, expr_same e]
  | .ret t es => by simp only [stmt, onTag_tags, exprs_same es]
  | .branch t kind n => by simp only [stmt, onTag_tags, nameOption_same n]
  | .block t b => by simp only [stmt, onTag_tags, block_same b]
  | .ifElse t init cond yes no => by
    simp only [stmt, onTag_tags, simpleOption_same init, expr_same cond, block_same yes,
      stmtOption_same no]
  | .loop t head b => by simp only [stmt, onTag_tags, loopHead_same head, block_same b]
  | .switch t init subject cs => by
    simp only [stmt, onTag_tags, simpleOption_same init, exprOption_same subject, clauses_same cs]
  | .typeSwitch t init bind guard cs => by
    simp only [stmt, onTag_tags, nameOption_same bind, simpleOption_same init, expr_same guard,
      clauses_same cs]
  | .select t cs => by simp only [stmt, onTag_tags, comms_same cs]

theorem stmtOption_same : ∀ x : Option Stmt, (tags fun t => t).stmtOption x = x
  | none => rfl
  | some x => by rw [stmtOption, stmt_same x]

theorem stmts_same : ∀ xs : List Stmt, (tags fun t => t).stmts xs = xs
  | [] => rfl
  | x :: xs => by rw [stmts, stmt_same x, stmts_same xs]

theorem loopHead_same : ∀ x : LoopHead, (tags fun t => t).loopHead x = x
  | .forever => rfl
  | .cond e => by rw [loopHead, expr_same e]
  | .clause init cond post => by
    simp only [loopHead, simpleOption_same init, exprOption_same cond,
      simpleOption_same post]
  | .range key value define e => by
    simp only [loopHead, exprOption_same key, exprOption_same value, expr_same e]

theorem cases_same : ∀ x : Cases, (tags fun t => t).cases x = x
  | .default => rfl
  | .exprs es => by rw [cases, exprs_same es]
  | .types ts => by rw [cases, types_same ts]

theorem clause_same : ∀ x : Clause, (tags fun t => t).clause x = x
  | ⟨t, cs, ss⟩ => by simp only [clause, onStmts_tags, onTag_tags, cases_same cs, stmts_same ss]

theorem clauses_same : ∀ xs : List Clause, (tags fun t => t).clauses xs = xs
  | [] => rfl
  | x :: xs => by rw [clauses, clause_same x, clauses_same xs]

theorem comm_same : ∀ x : Comm, (tags fun t => t).comm x = x
  | ⟨t, guard, ss⟩ => by
    simp only [comm, onStmts_tags, onTag_tags, simpleOption_same guard, stmts_same ss]

theorem comms_same : ∀ xs : List Comm, (tags fun t => t).comms xs = xs
  | [] => rfl
  | x :: xs => by rw [comms, comm_same x, comms_same xs]

theorem decl_same : ∀ x : Decl, (tags fun t => t).decl x = x
  | ⟨t, kind, grouped, ss⟩ => by simp only [decl, onTag_tags, specs_same ss]

theorem spec_same : ∀ x : Spec, (tags fun t => t).spec x = x
  | .imports t n path => by simp only [spec, onTag_tags, nameOption_same n]
  | .values t ns type vs => by
    simp only [spec, onTag_tags, names_same ns, typeOption_same type, exprs_same vs]
  | .type t n isAlias type => by simp only [spec, onTag_tags, name_same, typeExpr_same type]

theorem specs_same : ∀ xs : List Spec, (tags fun t => t).specs xs = xs
  | [] => rfl
  | x :: xs => by rw [specs, spec_same x, specs_same xs]

end

theorem func_agree (x : FuncDecl) (h : Agree f g x.entries) :
    (tags f).func x = (tags g).func x := by
  obtain ⟨t, recv, n, sig, body⟩ := x
  obtain ⟨ht, hn, hrecv, hsig, hbody⟩ := by simpa using h
  have hr : recv.map (tags f).field = recv.map (tags g).field := by
    cases recv with
    | none => rfl
    | some r => rw [Option.map_some, Option.map_some, field_agree r (by simpa using hrecv)]
  have hb : body.map (tags f).block = body.map (tags g).block := by
    cases body with
    | none => rfl
    | some b => rw [Option.map_some, Option.map_some, block_agree b (by simpa using hbody)]
  simp only [func, Change.name, onTag_tags, ht, hn, hr, signature_agree sig hsig, hb]

theorem topDecl_agree : ∀ x : TopDecl, Agree f g x.entries →
    (tags f).topDecl x = (tags g).topDecl x
  | .decl d, h => by rw [topDecl, topDecl, decl_agree d h]
  | .func x, h => by rw [topDecl, topDecl, func_agree x h]

theorem commentGroup_agree (x : CommentGroup) (h : Agree f g x.entries) :
    (tags f).commentGroup x = (tags g).commentGroup x := by
  obtain ⟨t, cs⟩ := x
  obtain ⟨ht, hcs⟩ := by simpa using h
  have hc : cs.map (tags f).comment = cs.map (tags g).comment :=
    List.map_congr_left fun c hm => by
      have hc : f c.tag = g c.tag := hcs _ (List.mem_map_of_mem hm)
      simp only [comment, onTag_tags, hc]
  simp only [commentGroup, onTag_tags, ht, hc]

/-- Two changes of tags that agree on the entries of a file change the file alike. -/
theorem sourceFile_agree (x : SourceFile) (h : Agree f g x.entries) :
    (tags f).sourceFile x = (tags g).sourceFile x := by
  obtain ⟨t, n, ds, cs⟩ := x
  rw [SourceFile.entries_eq, Agree.cons, Agree.cons, Agree.append] at h
  obtain ⟨ht, hn, hds, hcs⟩ := h
  have hd : ds.map (tags f).topDecl = ds.map (tags g).topDecl :=
    List.map_congr_left fun d hm =>
      topDecl_agree d fun x hx => hds x (List.mem_flatMap_of_mem hm hx)
  have hc : cs.map (tags f).commentGroup = cs.map (tags g).commentGroup :=
    List.map_congr_left fun c hm =>
      commentGroup_agree c fun x hx => hcs x (List.mem_flatMap_of_mem hm hx)
  have ht : f t = g t := ht
  have hn : f n.tag = g n.tag := hn
  simp only [sourceFile, Change.name, onTag_tags, ht, hn, hd, hc]

/-- A change of tags that keeps those of the entries of a function keeps the function. -/
theorem func_same (x : FuncDecl) (h : Agree f (fun t => t) x.entries) : (tags f).func x = x := by
  rw [func_agree x h]
  obtain ⟨t, recv, n, sig, body⟩ := x
  have hr : recv.map (tags fun t => t).field = recv := by
    cases recv with
    | none => rfl
    | some r => rw [Option.map_some, field_same r]
  have hb : body.map (tags fun t => t).block = body := by
    cases body with
    | none => rfl
    | some b => rw [Option.map_some, block_same b]
  simp only [func, name_same, onTag_tags, hr, signature_same sig, hb]

/-- A change of tags that keeps those of a comment group and its comments keeps the group. -/
theorem commentGroup_same (x : CommentGroup) (h : Agree f (fun t => t) x.entries) :
    (tags f).commentGroup x = x := by
  rw [commentGroup_agree x h]
  obtain ⟨t, cs⟩ := x
  have hc : cs.map (tags fun t => t).comment = cs := List.map_id cs
  simp only [commentGroup, onTag_tags, hc]

end Change

end FuncLift
