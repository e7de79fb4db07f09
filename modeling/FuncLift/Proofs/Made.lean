import FuncLift.Lift.Edit
import FuncLift.Proofs.Located

/-!
# What an edit makes

The nodes that an edit makes have fresh numbers and no place yet. The new function holds the entries
of the region and new ones, and the call in the region's place only new ones.
-/
namespace FuncLift

/-- The name that an expression is. -/
def Expr.identName? : Expr → Option String
  | .ident _ n => some n
  | _ => none

theorem Expr.identName_eq {e : Expr} {s : String} (h : e.identName? = some s) :
    ∃ t, e = .ident t s := by
  cases e <;> cases h
  exact ⟨_, rfl⟩

/-- An entry that has no place yet. -/
def Entry.New (e : Entry) : Prop := e.whole = true ∧ e.span = .unset

/-- What is built holds entries that were at hand, and new ones with fresh numbers. -/
def Makes {α : Type} (held : List Entry) (m : Fresh α) (made : α → List Entry) (post : α → Prop) :
    Prop :=
  ∀ n, n ≤ (m n).2 ∧ post (m n).1 ∧ (∀ e ∈ made (m n).1, e ∈ held ∨ e.New) ∧
    ∀ i, idCount i (made (m n).1) ≤ idCount i held + between n (m n).2 i

namespace Makes

variable {α β : Type} {held : List Entry} {m : Fresh α} {f : α → Fresh β}
  {made : α → List Entry} {post : α → Prop} {made' : β → List Entry} {post' : β → Prop}

theorem pure {a : α} (hc : Covers held (made a)) (hp : post a) :
    Makes held (pure a : Fresh α) made post := by
  refine fun n => ⟨Nat.le_refl n, hp, fun e he => .inl (hc.mem he), fun i => ?_⟩
  exact Nat.le_add_right_of_le (hc.idCount_le i)

theorem bind (h : Makes held m made post) (k : ∀ a, post a → Makes (made a) (f a) made' post') :
    Makes held (m >>= f) made' post' := by
  intro n
  obtain ⟨h1, h2, h3, h4⟩ := h n
  obtain ⟨k1, k2, k3, k4⟩ := k (m n).1 h2 (m n).2
  refine ⟨Nat.le_trans h1 k1, k2, fun e he => ?_, fun i => ?_⟩
  · rcases k3 e he with he | he
    · exact h3 e he
    · exact .inr he
  · have hm := h4 i
    have hf := k4 i
    have hb := between_add h1 k1 i
    change idCount i (made' (f (m n).1 (m n).2).1) ≤
      idCount i held + between n (f (m n).1 (m n).2).2 i
    omega

theorem of_covers {other : List Entry} (h : Makes held m made post) (hc : Covers other held) :
    Makes other m made post := by
  intro n
  obtain ⟨h1, h2, h3, h4⟩ := h n
  refine ⟨h1, h2, fun e he => (h3 e he).imp_left hc.mem, fun i => ?_⟩
  have := h4 i
  have := hc.idCount_le i
  omega

theorem frame {more : List Entry} (h : Makes held m made post) :
    Makes (held ++ more) m (fun a => made a ++ more) post := by
  intro n
  obtain ⟨h1, h2, h3, h4⟩ := h n
  refine ⟨h1, h2, fun e he => ?_, fun i => ?_⟩
  · rcases List.mem_append.1 he with he | he
    · exact (h3 e he).imp_left (List.mem_append_left _)
    · exact .inl (List.mem_append_right _ he)
  · have := h4 i
    simp only [idCount_append]
    omega

theorem step (h : Makes [] m made post)
    (k : ∀ a, post a → Makes (made a ++ held) (f a) made' post') :
    Makes held (m >>= f) made' post' := bind h.frame k

theorem newTag {f : Tag → Fresh β} (text : Option String)
    (k : ∀ t, t.span = .unset → Makes (⟨t, text, true⟩ :: held) (f t) made' post') :
    Makes held (Fresh.tag >>= f) made' post' := by
  have htag : Makes held Fresh.tag (fun t => ⟨t, text, true⟩ :: held) (·.span = .unset) := ?_
  refine bind htag k
  intro n
  have hb : between n (n + 1) n = 1 := by simp [between]
  refine ⟨Nat.le_succ n, rfl, fun e he => ?_, fun i => ?_⟩
  · rcases List.mem_cons.1 he with rfl | he
    · exact .inr ⟨rfl, rfl⟩
    · exact .inl he
  · change idCount i (⟨⟨n, .unset⟩, text, true⟩ :: held) ≤ idCount i held + between n (n + 1) i
    rw [idCount_cons]
    by_cases hi : n = i
    · subst hi
      simp only [if_true]
      omega
    · simp only [hi, if_false]
      omega

theorem tag {f : Tag → Fresh β} (text : Option String)
    (k : ∀ t, Makes (⟨t, text, true⟩ :: held) (f t) made' post') :
    Makes held (Fresh.tag >>= f) made' post' := newTag text fun t _ => k t

theorem name (s : String) : Makes [] (Fresh.name s) (fun n => [n.entry]) (·.text = s) :=
  tag (some s) fun _ => pure (fun _ => Nat.le_refl _) rfl

theorem names (ss : List String) : Makes [] (Fresh.names ss) nameEntries
    (·.map Name.text = ss) := by
  induction ss with
  | nil => exact pure (fun _ => Nat.le_refl _) rfl
  | cons s ss ih =>
    refine step (name s) fun n hn => step ih fun ns hns => pure (fun x => ?_) (by simp [hn, hns])
    simp
    omega

theorem ident (s : String) :
    Makes [] (Fresh.ident s) Expr.entries (·.identName? = some s) :=
  tag (some s) fun _ => pure (fun x => by simp) rfl

theorem idents (ss : List String) : Makes [] (Fresh.idents ss) (·.flatMap Expr.entries)
    (·.map Expr.identName? = ss.map some) := by
  induction ss with
  | nil => exact pure (fun _ => Nat.le_refl _) rfl
  | cons s ss ih =>
    refine step (ident s) fun e he => step ih fun es hes => pure (fun x => ?_) (by simp [he, hes])
    simp
    omega

mutual

theorem node : ∀ t : Ty, Makes [] t.node TypeExpr.entries fun _ => True
  | .named pkg n => .tag none fun t => .pure (fun x => by simp) trivial
  | .pointer e => .tag none fun t => .step (node e) fun _ _ => .pure (fun x => by simp; omega) trivial
  | .slice e => .tag none fun t => .step (node e) fun _ _ => .pure (fun x => by simp; omega) trivial
  | .array none e => .tag none fun t => .step (node e) fun _ _ =>
      .pure (fun x => by simp; omega) trivial
  | .array (some len) e => .tag none fun t => .step (ident len) fun _ _ => .step (node e) fun _ _ =>
      .pure (fun x => by simp; omega) trivial
  | .map k v => .tag none fun t => .step (node k) fun _ _ => .step (node v) fun _ _ =>
      .pure (fun x => by simp; omega) trivial
  | .chan dir e => .tag none fun t => .step (node e) fun _ _ =>
      .pure (fun x => by simp; omega) trivial
  | .func ps rs variadic => .tag none fun t => .tag none fun u => .step (fields variadic ps)
      fun _ _ => .step (fields false rs) fun _ _ => .pure (fun x => by simp; omega) trivial
  | .literal s => .tag none fun t => .pure (fun x => by simp) trivial
  | .unresolved hint => .tag none fun t => .pure (fun x => by simp) trivial

theorem fields (variadic : Bool) : ∀ ts : List Ty,
    Makes [] (Ty.fields variadic ts) (·.flatMap Field.entries)
      (∀ f ∈ ·, f.names = [])
  | [] => .pure (fun x => by simp) (by simp)
  | t :: ts => .tag none fun u => .step (node t) fun _ _ => .step (fields variadic ts) fun _ hfs =>
      .pure (fun x => by simp; omega) (by simpa using hfs)

end

end Makes

namespace Plan

variable (p : Plan)

/-- A call of the planned function with the captured variables. -/
def IsCall (e : Expr) : Prop :=
  ∃ t u args, e = .call t (.ident u p.name) args false ∧
    args.map Expr.identName? = p.params.map fun c => some c.name

theorem call_makes : Makes [] p.call Expr.entries p.IsCall := by
  unfold Plan.call
  refine .step (.ident p.name) fun callee hcallee => .step (.idents _) fun args hargs => ?_
  obtain ⟨u, rfl⟩ := Expr.identName_eq hcallee
  refine .tag none fun t => .pure (fun x => ?_) ⟨t, u, args, rfl,
    by simpa [Function.comp_def] using hargs⟩
  simp
  omega

/-- The statement that a call stands in: by itself, or behind the names of the outputs. -/
def IsCallStmt (call : Expr) (s : Stmt) : Prop :=
  (p.outputs = [] ∧ ∃ t u, s = .simple t (.expr u call)) ∨
    (p.outputs ≠ [] ∧ ∃ t u ns, s = .simple t (.define u ns [call]) ∧
      ns.map Name.text = p.outputNames)

theorem callStmt_makes (call : Expr) :
    Makes call.entries (p.callStmt call) Stmt.entries (p.IsCallStmt call) := by
  unfold Plan.callStmt
  split
  · rename_i hout
    refine .tag none fun t => .tag none fun u =>
      .pure (fun x => by simp; omega) (.inl ⟨List.isEmpty_iff.1 hout, t, u, rfl⟩)
  · rename_i hout
    refine .step (.names _) fun ns hns => .tag none fun t => .tag none fun u =>
      .pure (fun x => by simp; omega) (.inr ⟨fun h => hout (List.isEmpty_iff.2 h), t, u, ns, rfl, hns⟩)

/-- The one statement around an expression that was taken. -/
def IsExprBody (e : Expr) (body : List Stmt) : Prop :=
  (∃ t u, body = [.simple t (.expr u e)]) ∨ ∃ t, body = [.ret t [e]]

theorem exprBody_makes (e : Expr) :
    Makes e.entries (p.exprBody e) (·.flatMap Stmt.entries) (IsExprBody e) := by
  unfold Plan.exprBody
  split
  · exact .tag none fun t => .tag none fun u =>
      .pure (fun x => by simp; omega) (.inl ⟨t, u, rfl⟩)
  · exact .tag none fun t => .pure (fun x => by simp) (.inr ⟨t, rfl⟩)

/-- The statements that were taken, and if there are outputs a statement that returns them. -/
def IsStmtsBody (stmts body : List Stmt) : Prop :=
  (p.outputs = [] ∧ body = stmts) ∨
    (p.outputs ≠ [] ∧ ∃ t es, body = stmts ++ [.ret t es] ∧
      es.map Expr.identName? = p.outputNames.map some)

theorem stmtsBody_makes (stmts : List Stmt) :
    Makes (stmts.flatMap Stmt.entries) (p.stmtsBody stmts) (·.flatMap Stmt.entries)
      (p.IsStmtsBody stmts) := by
  unfold Plan.stmtsBody
  split
  · rename_i hout
    exact .pure (fun _ => Nat.le_refl _) (.inl ⟨List.isEmpty_iff.1 hout, rfl⟩)
  · rename_i hout
    refine .step (.idents _) fun es hes => .tag none fun t =>
      .pure (fun x => by simp; omega) (.inr ⟨fun h => hout (List.isEmpty_iff.2 h), t, es, rfl, hes⟩)

theorem paramFields_makes (cs : List Capture) :
    Makes [] (paramFields cs) (·.flatMap Field.entries)
      (·.map (fun f => f.names.map Name.text) = cs.map fun c => [c.name]) := by
  induction cs with
  | nil => exact .pure (fun _ => Nat.le_refl _) rfl
  | cons c cs ih =>
    refine .tag none fun t => .step (.name c.name) fun n hn => .step (.node c.type) fun ty _ =>
      .step ih fun fs hfs => .pure (fun x => ?_) (by simp [hn, hfs])
    simp
    omega

/-- The planned function around a body. -/
structure IsFunction (body : List Stmt) (f : FuncDecl) : Prop where
  name : f.name.text = p.name
  recv : f.recv = none
  params : f.sig.params.map (fun x => x.names.map Name.text) = p.params.map fun c => [c.name]
  results : ∀ x ∈ f.sig.results, x.names = []
  body : ∃ t, f.body = some ⟨t, body⟩ ∧ t.span = .unset
  unset : f.tag.span = .unset

theorem function_makes (body : List Stmt) :
    Makes (body.flatMap Stmt.entries) (p.function body) FuncDecl.entries (p.IsFunction body) := by
  unfold Plan.function
  refine .step (paramFields_makes p.params) fun ps hps => .step (.fields false p.results)
    fun rs hrs => .tag none fun t => .newTag none fun u hu => .step (.name p.name) fun n hn =>
      .newTag none fun b hb => .pure (fun x => ?_) ⟨hn, rfl, hps, hrs, ⟨b, rfl, hb⟩, hu⟩
  simp
  omega

end Plan

def Region.entries : Region → List Entry
  | .expression e _ _ => e.entries
  | .statements stmts _ => stmts.flatMap Stmt.entries

def Replacement.entries : Replacement → List Entry
  | .expr e => e.entries
  | .stmt s => s.entries

namespace Plan

variable (p : Plan)

/-- The surgery of a plan: a call takes the place of the region, and the region goes into the body
of the new function. -/
def IsSurgery (p : Plan) (r : Replacement) (c : Change) (body : List Stmt) : Prop :=
  match p.region with
  | .expression e parent slot => ∃ call, p.IsCall call ∧ r = .expr call ∧
      c = .write parent (slot.elim parent fun s => s.fill e.tag.id call parent) ∧ IsExprBody e body
  | .statements stmts owner => ∃ call s, p.IsCall call ∧ p.IsCallStmt call s ∧ r = .stmt s ∧
      c = .replaceRun owner.id ((stmts.head?.map fun s => s.tag.id).getD 0) stmts.length s ∧
      p.IsStmtsBody stmts body

theorem surgery_makes : Makes p.region.entries p.surgery
    (fun x => x.1.entries ++ x.2.2.flatMap Stmt.entries)
    fun x => p.IsSurgery x.1 x.2.1 x.2.2 := by
  unfold Plan.surgery
  refine .step p.call_makes fun call hcall => ?_
  unfold IsSurgery
  cases hr : p.region with
  | expression e parent slot =>
    have hbody : Makes (e.entries ++ call.entries) (p.exprBody e)
        (fun b => b.flatMap Stmt.entries ++ call.entries) (IsExprBody e) :=
      (p.exprBody_makes e).frame
    refine .bind (hbody.of_covers fun x => by simp [Region.entries]; omega) fun body hb => ?_
    exact .pure (fun x => by simp [Replacement.entries]; omega) ⟨call, hcall, rfl, rfl, hb⟩
  | statements stmts owner =>
    have hstmt : Makes (call.entries ++ stmts.flatMap Stmt.entries) (p.callStmt call)
        (fun s => s.entries ++ stmts.flatMap Stmt.entries) (p.IsCallStmt call) :=
      (p.callStmt_makes call).frame
    refine .bind (hstmt.of_covers fun x => by simp [Region.entries]) fun s hs => ?_
    have hbody : Makes (stmts.flatMap Stmt.entries ++ s.entries) (p.stmtsBody stmts)
        (fun b => b.flatMap Stmt.entries ++ s.entries) (p.IsStmtsBody stmts) :=
      (p.stmtsBody_makes stmts).frame
    refine .bind (hbody.of_covers fun x => by simp; omega) fun body hb => ?_
    exact .pure (fun x => by simp [Replacement.entries]; omega)
      ⟨call, s, hcall, hs, rfl, rfl, hb⟩

/-- An edit carries out the plan on a file. -/
structure IsEdit (f : SourceFile) (e : Edit) : Prop where
  done : ∃ c body, p.IsSurgery e.replacement c body ∧ e.host = c.sourceFile f ∧
    p.IsFunction body e.function
  old : e.old = p.region.span
  anchor : e.anchor = p.region.anchor?

theorem edit_spec (d : Document) :
    p.IsEdit d.file (p.edit d) ∧ d.nextId ≤ (p.edit d).nextId ∧
      (∀ x ∈ (p.edit d).replacement.entries ++ (p.edit d).function.entries,
        x ∈ p.region.entries ∨ x.New) ∧
      ∀ i, idCount i ((p.edit d).replacement.entries ++ (p.edit d).function.entries) ≤
        idCount i p.region.entries + between d.nextId (p.edit d).nextId i := by
  obtain ⟨h1, h2, h3, h4⟩ := p.surgery_makes d.nextId
  obtain ⟨k1, k2, k3, k4⟩ := p.function_makes (p.surgery d.nextId).1.2.2 (p.surgery d.nextId).2
  refine ⟨⟨⟨_, _, h2, rfl, k2⟩, rfl, rfl⟩, Nat.le_trans h1 k1, fun x hx => ?_, fun i => ?_⟩
  · rcases List.mem_append.1 hx with hx | hx
    · exact h3 x (List.mem_append_left _ hx)
    · rcases k3 x hx with hx | hx
      · exact h3 x (List.mem_append_right _ hx)
      · exact .inr hx
  · have hs := h4 i
    have hf := k4 i
    have hb := between_add h1 k1 i
    change idCount i ((p.surgery d.nextId).1.1.entries ++
      (p.function (p.surgery d.nextId).1.2.2 (p.surgery d.nextId).2).1.entries) ≤
      idCount i p.region.entries +
        between d.nextId (p.function (p.surgery d.nextId).1.2.2 (p.surgery d.nextId).2).2 i
    simp only [idCount_append] at hs ⊢
    omega

end Plan

end FuncLift
