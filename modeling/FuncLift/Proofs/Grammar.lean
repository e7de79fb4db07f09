import FuncLift.Proofs.Handout

/-!
# The grammar hands every number out once

Every production returns a tree whose entries have fresh numbers, each once. Where a production reads
something again as something else (a bare name as a type, an operand as the type of a literal, a
statement as a guard), entries are dropped and never doubled. The productions call each other with
less budget, so the proof is one induction on the budget over all of them at once.
-/
namespace FuncLift

theorem Expr.tag_mem_entries (e : Expr) : ∃ x ∈ e.entries, x.span = e.span := by
  cases e <;> exact ⟨_, List.mem_cons_self, rfl⟩

theorem TypeExpr.tag_mem_entries (t : TypeExpr) : ∃ x ∈ t.entries, x.span = t.span := by
  cases t <;> exact ⟨_, List.mem_cons_self, rfl⟩

def Param.entries : Param → List Entry
  | .bare n _ => [n.entry]
  | .typed n type _ _ => nameEntries n.toList ++ type.entries

/-- An entry starts where something may, and one with a type ends inside the text. -/
def Param.Fits (source : Page) : Param → Prop
  | .bare _ span => source.starts span.start
  | .typed _ _ _ span => span.stop < byteSize source.text ∧ source.starts span.start

/-- What a type operand becomes as the type of a literal uses its entries at most once. -/
theorem literalType_covers {literals : Bool} {e : Expr} {f : Tag → TypeExpr}
    (h : Read.literalType? literals e = some f) (t : Tag) :
    Covers (t.entry :: e.entries) (f t).entries := by
  unfold Read.literalType? at h
  split at h
  · split at h
    · cases h
      exact fun x => by simp
    · cases h
  · split at h
    · cases h
      exact fun x => by simp
    · cases h
  all_goals first
    | cases h
      intro x
      simp
      omega
    | cases h

/-- The parts of a statement that is a guard. -/
theorem guard_covers {s : Simple} {bind : Option Name} {e : Expr}
    (h : Read.guard? s = some (bind, e)) :
    Covers s.entries (nameEntries bind.toList ++ e.entries) := by
  unfold Read.guard? at h
  split at h
  · split at h
    · cases h
      exact fun x => by simp
    · cases h
  · split at h
    · cases h
      exact fun x => by simp
    · cases h
  · cases h

namespace Yields

variable {source : Page} {pre : Cursor → Prop}

theorem single {s : Nat} {es : List Expr} :
    Yields source pre (es.flatMap Expr.entries) (Read.single s es) Expr.entries fun _ => True := by
  unfold Read.single
  split
  · exact .pure (fun x => by simp) trivial
  · exact .of_anywhere (.step (silent_spanFrom s) fun _ _ => .fail)

theorem exprOf {s : Simple} :
    Yields source pre s.entries (Read.exprOf s) Expr.entries fun _ => True := by
  unfold Read.exprOf
  split
  · exact .pure (fun x => by simp) trivial
  · exact .fail

/-- Names that turn out to be types lose their numbers. -/
theorem fieldsOfTypes (ns : List Name) :
    Yields source Anywhere (nameEntries ns) (Read.fieldsOfTypes ns) (·.flatMap Field.entries)
      fun _ => True := by
  induction ns with
  | nil => exact .pure (fun x => by simp) trivial
  | cons n ns ih =>
    rw [Read.fieldsOfTypes]
    refine .tagLike ⟨n.entry, List.mem_cons_self, rfl⟩ fun t => ?_
    refine .tagLike ⟨n.entry, by simp, rfl⟩ fun u => ?_
    refine .framed [u.entry, t.entry] ih (fun x => by simp; omega) fun fs _ => ?_
    exact .pure (fun x => by simp; omega) trivial

/-- Grouping a parameter list keeps names that have a type, and makes types of the others. -/
theorem group (pending : List Name) (first : Option Nat) (ps : List Param)
    (hfirst : ∀ s ∈ first, source.starts s) (h : ∀ p ∈ ps, p.Fits source) :
    Yields source Anywhere (nameEntries pending ++ ps.flatMap Param.entries)
      (Read.group pending first ps) (·.flatMap Field.entries) fun _ => True := by
  have hgetD {first : Option Nat} {s : Nat} (hfirst : ∀ s ∈ first, source.starts s)
      (hs : source.starts s) : source.starts (first.getD s) := by
    cases first with
    | none => exact hs
    | some s => exact hfirst s rfl
  induction ps generalizing pending first with
  | nil => exact (fieldsOfTypes pending).of_covers fun x => by simp
  | cons p ps ih =>
    have hps : ∀ q ∈ ps, q.Fits source := fun q hq => h q (List.mem_cons_of_mem _ hq)
    rcases p with ⟨n, span⟩ | ⟨_ | n, type, variadic, span⟩
    · have hstart := hgetD hfirst (h _ List.mem_cons_self)
      rw [Read.group]
      refine (ih (pending ++ [n]) _ (fun s hs => ?_) hps).of_covers fun x => by simp [Param.entries]
      cases hs
      exact hstart
    · obtain ⟨hstop, hstart⟩ := h _ List.mem_cons_self
      rw [Read.group]
      refine .framed (type.entries ++ ps.flatMap Param.entries) (fieldsOfTypes pending)
        (fun x => by simp [Param.entries]) fun before _ => ?_
      refine .tagAt (fun _ => hstop) hstart fun t _ => ?_
      refine .framed (t.entry :: (before.flatMap Field.entries ++ type.entries))
        (ih [] none nofun hps) (fun x => by simp; omega) fun fs _ => ?_
      exact .pure (fun x => by simp; omega) trivial
    · obtain ⟨hstop, hstart⟩ := h _ List.mem_cons_self
      rw [Read.group]
      refine .tagAt (fun _ => hstop) (hgetD hfirst hstart) fun t _ => ?_
      refine .framed (t.entry :: (nameEntries pending ++ (n.entry :: type.entries)))
        (ih [] none nofun hps) (fun x => by simp [Param.entries]; omega) fun fs _ => ?_
      exact .pure (fun x => by simp; omega) trivial

end Yields

/-- All productions with the same budget: what they return, made of what they are given. -/
structure ReadsTrees (source : Page) (fuel : Nat) : Prop where
  typeExpr : Gives source (Read.typeExpr fuel) TypeExpr.entries
  structFields : Gives source (Read.structFields fuel) (·.flatMap Field.entries)
  interfaceMethods : Yields source Anywhere [] (Read.interfaceMethods fuel)
    (·.flatMap Field.entries) (·.all Field.isMember = true)
  signature : Gives source (Read.signature fuel) Signature.entries
  parameters : Gives source (Read.parameters fuel) (·.flatMap Field.entries)
  params : Yields source Anywhere [] (Read.params fuel) (·.flatMap Param.entries)
    (∀ p ∈ ·, p.Fits source)
  param : Yields source Anywhere [] (Read.param fuel) Param.entries (·.Fits source)
  block : Gives source (Read.block fuel) Block.entries
  stmts : Gives source (Read.stmts fuel) (·.flatMap Stmt.entries)
  stmt : Gives source (Read.stmt fuel) Stmt.entries
  simple : Gives source (Read.simple fuel) Simple.entries
  ifElse : Gives source (Read.ifElse fuel) Stmt.entries
  loop : Gives source (Read.loop fuel) Stmt.entries
  loopHead : Yields source Anywhere [] (Read.loopHead fuel) LoopHead.entries (·.isWhole = true)
  clauseHead : ∀ init : Option Simple, Yields source Anywhere (init.toList.flatMap Simple.entries)
    (Read.clauseHead fuel init) LoopHead.entries (·.isWhole = true)
  switch : Gives source (Read.switch fuel) Stmt.entries
  switchHead : Gives source (Read.switchHead fuel) fun p =>
    p.1.toList.flatMap Simple.entries ++ p.2.toList.flatMap Simple.entries
  clauses : ∀ types, Gives source (Read.clauses fuel types) (·.flatMap Clause.entries)
  clause : ∀ types, Gives source (Read.clause fuel types) Clause.entries
  select : Gives source (Read.select fuel) Stmt.entries
  comms : Gives source (Read.comms fuel) (·.flatMap Comm.entries)
  comm : Gives source (Read.comm fuel) Comm.entries
  exprs : Gives source (Read.exprs fuel) (·.flatMap Expr.entries)
  typeExprs : Gives source (Read.typeExprs fuel) (·.flatMap TypeExpr.entries)
  expr : Gives source (Read.expr fuel) Expr.entries
  binary : ∀ least, Gives source (Read.binary fuel least) Expr.entries
  binaryRest : ∀ least s x, source.starts s → Yields source Anywhere x.entries (Read.binaryRest fuel least s x)
    Expr.entries fun _ => True
  unary : Gives source (Read.unary fuel) Expr.entries
  primary : Gives source (Read.primary fuel) Expr.entries
  primaryRest : ∀ s x, source.starts s → Yields source Anywhere x.entries (Read.primaryRest fuel s x)
    Expr.entries fun _ => True
  bracket : ∀ x, Yields source Anywhere x.entries (Read.bracket fuel x)
    (fun build => (build default).entries.tail)
    fun build => ∀ t, (build t).entries = t.entry :: (build default).entries.tail
  arguments : Gives source (Read.arguments fuel) fun p => p.1.flatMap Expr.entries
  composite : ∀ s (type : Option TypeExpr), source.starts s → Yields source Anywhere
    (type.toList.flatMap TypeExpr.entries) (Read.composite fuel s type) Expr.entries fun _ => True
  elements : Gives source (Read.elements fuel) (·.flatMap Element.entries)
  element : Gives source (Read.element fuel) Expr.entries
  operand : Gives source (Read.operand fuel) Expr.entries
  decl : Yields source Nonempty [] (Read.decl fuel) Decl.entries fun _ => True
  specs : ∀ kind, Gives source (Read.specs fuel kind) (·.flatMap Spec.entries)
  spec : ∀ kind, Gives source (Read.spec fuel kind) Spec.entries

namespace ReadsTrees

variable {source : Page} {fuel : Nat} (ih : ReadsTrees source fuel)

include ih

theorem typeExpr_succ : Gives source (Read.typeExpr (fuel + 1)) TypeExpr.entries := by
  rw [Read.typeExpr]
  refine .startPeek fun s next hs _ => ?_
  split
  · refine .of_anywhere (.step .name fun n _ => .pass (.silent_eat _) fun dot => ?_)
    split
    · exact .step .name fun sel _ => .tag hs fun t => .pure (fun x => by simp) trivial
    · exact .tag hs fun t => .pure (fun x => by simp) trivial
  · refine .take (fun _ => Facing.nonempty) fun _ _ => ?_
    refine .step ih.typeExpr fun elem _ => ?_
    exact .tag hs fun t => .pure (fun x => by simp) trivial
  · refine .take (fun _ => Facing.nonempty) fun _ _ => .pass (.silent_eat _) fun slice => ?_
    split
    · refine .step ih.typeExpr fun elem _ => ?_
      exact .tag hs fun t => .pure (fun x => by simp) trivial
    · refine .pass (.silent_eat _) fun open_ => ?_
      split
      · refine .pass (.silent_expect _) fun _ => ?_
        refine .step ih.typeExpr fun elem _ => ?_
        exact .tag hs fun t => .pure (fun x => by simp) trivial
      · refine .step (.withLiterals ih.expr) fun len _ => .pass (.silent_expect _) fun _ => ?_
        refine .step ih.typeExpr fun elem _ => ?_
        exact .tag hs fun t => .pure (fun x => by simp; omega) trivial
  · refine .take (fun _ => Facing.nonempty) fun _ _ => .pass (.silent_expect _) fun _ => ?_
    refine .step ih.typeExpr fun key _ => .pass (.silent_expect _) fun _ => ?_
    refine .step ih.typeExpr fun value _ => ?_
    exact .tag hs fun t => .pure (fun x => by simp; omega) trivial
  · refine .take (fun _ => Facing.nonempty) fun _ _ => .pass (.silent_eat _) fun sends => ?_
    refine .step ih.typeExpr fun elem _ => ?_
    exact .tag hs fun t => .pure (fun x => by simp) trivial
  · refine .take (fun _ => Facing.nonempty) fun _ _ => .pass (.silent_expect _) fun _ => ?_
    refine .step ih.typeExpr fun elem _ => ?_
    exact .tag hs fun t => .pure (fun x => by simp) trivial
  · refine .take (fun _ => Facing.nonempty) fun _ _ => ?_
    refine .step ih.signature fun sig _ => ?_
    exact .tag hs fun t => .pure (fun x => by simp) trivial
  · refine .take (fun _ => Facing.nonempty) fun _ _ => .pass (.silent_expect _) fun _ => ?_
    refine .step ih.structFields fun fs _ => ?_
    exact .tag hs fun t => .pure (fun x => by simp) trivial
  · refine .take (fun _ => Facing.nonempty) fun _ _ => .pass (.silent_expect _) fun _ => ?_
    refine .step ih.interfaceMethods fun ms hms => ?_
    exact .tag hs fun t => .pure (fun x => by simp [hms]) trivial
  · refine .take (fun _ => Facing.nonempty) fun _ _ => ?_
    refine .step ih.typeExpr fun inner _ => .pass (.silent_expect _) fun _ => ?_
    exact .pure (fun x => by simp) trivial
  · exact .unexpected

theorem structFields_succ :
    Gives source (Read.structFields (fuel + 1)) (·.flatMap Field.entries) := by
  rw [Read.structFields]
  refine .peek fun next => ?_
  split
  · exact .of_anywhere (.pass (.silent_expect _) fun _ => .pure (fun x => by simp) trivial)
  · refine .of_anywhere (.start fun s hs => .pass .silent_peekSecond fun second => ?_)
    extract_lets embedded jp
    have hjp : ∀ ns, Yields source Anywhere (nameEntries ns) (jp ns) (·.flatMap Field.entries)
        fun _ => True := by
      intro ns
      refine .step ih.typeExpr fun type _ => .peek fun after => ?_
      extract_lets label done
      have hdone : Yields source Anywhere (type.entries ++ nameEntries ns) (done ())
          (·.flatMap Field.entries) fun _ => True :=
        .tag hs fun t => .pass .silent_endStatement fun _ => .step ih.structFields fun fs _ =>
          .pure (fun x => by simp; omega) trivial
      split
      · rename_i hlabel
        refine .take (fun c hc => ?_) fun _ _ => hdone
        cases after with
        | none => simp [label, Read.isText] at hlabel
        | some t => exact hc.nonempty
      · exact hdone.of_anywhere
    split
    · exact .ret (hjp [])
    · exact .step (.names fuel) fun ns _ => (hjp ns).of_covers fun x => by simp

theorem interfaceMethods_succ : Yields source Anywhere [] (Read.interfaceMethods (fuel + 1))
    (·.flatMap Field.entries) (·.all Field.isMember = true) := by
  rw [Read.interfaceMethods]
  refine .peek fun next => ?_
  split
  · exact .of_anywhere (.pass (.silent_expect _) fun _ => .pure (fun x => by simp) rfl)
  · refine .of_anywhere (.start fun s hs => .pass .silent_peekSecond fun second => ?_)
    extract_lets jp
    have hjp : ∀ ns type, (∀ t, Field.isMember ⟨t, ns, type, false, none⟩ = true) →
        Yields source Anywhere (nameEntries ns ++ type.entries) (jp (ns, type))
          (·.flatMap Field.entries) (·.all Field.isMember = true) := by
      intro ns type hm
      refine .tag hs fun t => .pass .silent_endStatement fun _ => ?_
      refine .step ih.interfaceMethods fun fs hfs => ?_
      exact .pure (fun x => by simp; omega) (by simp [hm, hfs])
    split
    · refine .step .name fun n _ => .start fun _ hstart => ?_
      refine .step ih.signature fun sig _ => ?_
      exact .tag hstart fun t => .ret ((hjp [n] _ fun _ => rfl).of_covers fun x => by simp; omega)
    · refine .step ih.typeExpr fun type _ => ?_
      exact .ret ((hjp [] type fun _ => rfl).of_covers fun x => by simp)

theorem signature_succ : Gives source (Read.signature (fuel + 1)) Signature.entries := by
  rw [Read.signature]
  refine .start fun s hs => ?_
  refine .step ih.parameters fun ps _ => .peek fun next => ?_
  extract_lets jp
  have hjp : ∀ rs : List Field, Yields source Anywhere
      (rs.flatMap Field.entries ++ ps.flatMap Field.entries) (jp rs) Signature.entries
      fun _ => True :=
    fun rs => .tag hs fun t => .pure (fun x => by simp; omega) trivial
  split
  · exact .of_anywhere (.step ih.parameters fun rs _ => (hjp rs).of_covers fun x => by simp)
  · split
    · refine .of_anywhere (.step ih.typeExpr fun type _ => ?_)
      have hspan : ∃ e : Entry, e ∈ type.entries ++ (ps.flatMap Field.entries ++ []) ∧
          e.span = type.span := by
        obtain ⟨e, he, hs⟩ := type.tag_mem_entries
        exact ⟨e, List.mem_append_left _ he, hs⟩
      exact .tagLike hspan fun t => .ret ((hjp _).of_covers fun x => by simp)
    · exact .of_anywhere (.ret ((hjp []).of_covers fun x => by simp))

theorem parameters_succ :
    Gives source (Read.parameters (fuel + 1)) (·.flatMap Field.entries) := by
  rw [Read.parameters]
  refine .pass (.silent_expect _) fun _ => .step ih.params fun ps hps => ?_
  exact .pass (.silent_expect _) fun _ => (Yields.group [] none ps (by simp) hps).of_covers fun x => by simp

theorem params_succ : Yields source Anywhere [] (Read.params (fuel + 1)) (·.flatMap Param.entries)
    (∀ p ∈ ·, p.Fits source) := by
  rw [Read.params]
  refine .pass (.silent_at _) fun done => ?_
  split
  · exact .pure (fun x => by simp) (by simp)
  · refine .step ih.param fun p hp => .pass (.silent_eat _) fun more => ?_
    split
    · exact .step ih.params fun ps hps => .pure (fun x => by simp; omega) (by simpa using ⟨hp, hps⟩)
    · exact .pure (fun x => by simp) (by simpa using hp)

omit ih in
theorem typeExpr_failsAtEnd (fuel : Nat) : FailsAtEnd (Read.typeExpr fuel) := by
  cases fuel with
  | zero => rw [Read.typeExpr]; exact .exhausted
  | succ fuel =>
    rw [Read.typeExpr]
    exact .start fun s => .peek .unexpected

theorem param_succ :
    Yields source Anywhere [] (Read.param (fuel + 1)) Param.entries (·.Fits source) := by
  rw [Read.param]
  refine .startPeek fun s next hstart hs => ?_
  split
  · have hs := hs (by simp)
    refine .of_anywhere (.step .name fun n _ => .peek fun after => ?_)
    split
    iterate 2
      exact .spanFrom hs hstart fun span _ hspan =>
        .pure (fun x => by simp [Param.entries]) hspan
    · refine .take (fun _ => Facing.nonempty) fun _ _ => .step .name fun sel _ => ?_
      refine .tag hstart fun t => ?_
      refine .spanFrom hs hstart fun span hstop hspan => ?_
      exact .pure (fun x => by simp [Param.entries]) ⟨hstop, hspan⟩
    · refine .take (fun _ => Facing.nonempty) fun _ _ => ?_
      refine .step ih.typeExpr fun type _ => .spanFrom hs hstart fun span hstop hspan => ?_
      exact .pure (fun x => by simp [Param.entries]; omega) ⟨hstop, hspan⟩
    · refine .of_anywhere ?_
      refine .step ih.typeExpr fun type _ => .spanFrom hs hstart fun span hstop hspan => ?_
      exact .pure (fun x => by simp [Param.entries]; omega) ⟨hstop, hspan⟩
  · refine .take (fun _ => Facing.nonempty) fun _ _ => ?_
    refine .step ih.typeExpr fun type _ => ?_
    refine .spanFrom (hs (by simp)) hstart fun span hstop hspan => ?_
    exact .pure (fun x => by simp [Param.entries]) ⟨hstop, hspan⟩
  · cases next with
    | none => exact .at_end (typeExpr_failsAtEnd fuel).bind
    | some t => exact .of_anywhere (.step ih.typeExpr fun type _ =>
        .spanFrom (hs (by simp)) hstart fun span hstop hspan =>
          .pure (fun x => by simp [Param.entries]) ⟨hstop, hspan⟩)

theorem block_succ : Gives source (Read.block (fuel + 1)) Block.entries := by
  rw [Read.block]
  refine .start fun s hs => .pass (.silent_expect _) fun _ => ?_
  refine .step (.withLiterals ih.stmts) fun body _ => .pass (.silent_expect _) fun _ => ?_
  exact .tag hs fun t => .pure (fun x => by simp) trivial

theorem stmts_succ : Gives source (Read.stmts (fuel + 1)) (·.flatMap Stmt.entries) := by
  rw [Read.stmts]
  refine .peek fun next => ?_
  split
  iterate 4 exact .pure (fun x => by simp) trivial
  · exact .take (fun _ => Facing.nonempty) fun _ _ => ih.stmts
  · refine .of_anywhere ?_
    refine .step ih.stmt fun first _ => .peek fun after => ?_
    extract_lets jp
    have hjp : Yields source Anywhere first.entries (jp ()) (·.flatMap Stmt.entries)
        fun _ => True :=
      .step ih.stmts fun ss _ => .pure (fun x => by simp; omega) trivial
    split
    iterate 4 exact .of_anywhere (.ret (hjp.of_covers fun x => by simp))
    · exact .of_anywhere (.pass .silent_endStatement fun _ => hjp.of_covers fun x => by simp)

section FailsAtEnd

omit ih

theorem single_same {s : Nat} {es : List Expr} (c : Cursor) (e : Expr) (c' : Cursor)
    (h : Read.single s es c = .ok (e, c')) : c' = c := by
  unfold Read.single at h
  split at h
  · exact (Read.pure_ok.1 h).2.symm
  · obtain ⟨_, _, _, h⟩ := Read.bind_ok.1 h
    exact absurd h Read.fail_not_ok

theorem operand_failsAtEnd (fuel : Nat) : FailsAtEnd (Read.operand fuel) := by
  cases fuel with
  | zero => rw [Read.operand]; exact .exhausted
  | succ fuel => rw [Read.operand]; exact .start fun s => .peek .unexpected

theorem primary_failsAtEnd (fuel : Nat) : FailsAtEnd (Read.primary fuel) := by
  cases fuel with
  | zero => rw [Read.primary]; exact .exhausted
  | succ fuel => rw [Read.primary]; exact .start fun s => (operand_failsAtEnd fuel).bind

theorem unary_failsAtEnd (fuel : Nat) : FailsAtEnd (Read.unary fuel) := by
  cases fuel with
  | zero => rw [Read.unary]; exact .exhausted
  | succ fuel => rw [Read.unary]; exact .start fun s => .peek (primary_failsAtEnd fuel)

theorem expr_failsAtEnd (fuel : Nat) : FailsAtEnd (Read.expr fuel) := by
  rcases fuel with _ | _ | fuel
  · rw [Read.expr]; exact .exhausted
  · rw [Read.expr, Read.binary]; exact .exhausted
  · rw [Read.expr, Read.binary]; exact .start fun s => (unary_failsAtEnd fuel).bind

theorem exprs_failsAtEnd (fuel : Nat) : FailsAtEnd (Read.exprs fuel) := by
  cases fuel with
  | zero => rw [Read.exprs]; exact .exhausted
  | succ fuel => rw [Read.exprs]; exact (expr_failsAtEnd fuel).bind

theorem names_failsAtEnd (fuel : Nat) : FailsAtEnd (Read.names fuel) := by
  cases fuel with
  | zero => exact .exhausted
  | succ fuel => exact .bind (.peek .unexpected)

theorem simple_failsAtEnd (fuel : Nat) : FailsAtEnd (Read.simple fuel) := by
  cases fuel with
  | zero => rw [Read.simple]; exact .exhausted
  | succ fuel =>
    rw [Read.simple]
    refine .start fun s => .skip (fun _ _ _ h => (Read.get_ok.1 h).2.symm) fun c => ?_
    split
    · exact (names_failsAtEnd fuel).bind
    · exact (exprs_failsAtEnd fuel).bind

theorem stmt_failsAtEnd (fuel : Nat) : FailsAtEnd (Read.stmt fuel) := by
  cases fuel with
  | zero => rw [Read.stmt]; exact .exhausted
  | succ fuel =>
    rw [Read.stmt]
    refine .start fun s => .peek (.skip (fun _ _ _ h => by cases h; rfl) fun second => ?_)
    exact (simple_failsAtEnd fuel).bind

end FailsAtEnd

theorem stmt_succ : Gives source (Read.stmt (fuel + 1)) Stmt.entries := by
  rw [Read.stmt]
  refine .startPeek fun s next hs _ => ?_
  split
  iterate 3
    refine .step (.of_pre ih.decl fun _ => Facing.nonempty) fun d _ => ?_
    exact .tag hs fun t => .pure (fun x => by simp) trivial
  iterate 2
    refine .take (fun _ => Facing.nonempty) fun _ _ => ?_
    refine .step ih.expr fun e _ => ?_
    exact .tag hs fun t => .pure (fun x => by simp) trivial
  · refine .take (fun _ => Facing.nonempty) fun _ _ => .peek fun after => ?_
    extract_lets jp
    have hjp : ∀ es : List Expr, Yields source Anywhere (es.flatMap Expr.entries) (jp es)
        Stmt.entries fun _ => True :=
      fun es => .tag hs fun t => .pure (fun x => by simp) trivial
    split
    iterate 3 exact .of_anywhere (.ret (hjp []))
    exact .of_anywhere (.step ih.exprs fun es _ => (hjp es).of_covers fun x => by simp)
  · refine .of_anywhere ?_
    refine .step ih.block fun b _ => ?_
    exact .tag hs fun t => .pure (fun x => by simp) trivial
  · exact ih.ifElse.of_anywhere
  · exact ih.loop.of_anywhere
  · exact ih.switch.of_anywhere
  · exact ih.select.of_anywhere
  · split
    · rename_i kind hkind
      refine .take (fun c hc => ?_) fun _ _ => .peek fun after => ?_
      · cases next with
        | none => simp at hkind
        | some t => exact hc.nonempty
      · extract_lets jp
        have hjp : ∀ n : Option Name, Yields source Anywhere (nameEntries n.toList) (jp n)
            Stmt.entries fun _ => True :=
          fun n => .tag hs fun t => .pure (fun x => by simp) trivial
        split
        · split
          · exact .of_anywhere (.ret (hjp none))
          · exact .of_anywhere (.step .name fun n _ => .ret (hjp (some n)))
        · exact .of_anywhere (.ret (hjp none))
    · refine .of_anywhere (.pass .silent_peekSecond fun second => ?_)
      split
      · refine .step .name fun label _ => ?_
        refine .takeBefore (stmt_failsAtEnd fuel).bind (.step ih.stmt fun inner _ => ?_)
        exact .tag hs fun t => .pure (fun x => by simp; omega) trivial
      · refine .step ih.simple fun inner _ => ?_
        exact .tag hs fun t => .pure (fun x => by simp) trivial

theorem simple_succ : Gives source (Read.simple (fuel + 1)) Simple.entries := by
  rw [Read.simple]
  refine .start fun s hs => .get fun c => ?_
  split
  · refine .step (.names fuel) fun ns _ => .pass (.silent_expect _) fun _ => ?_
    refine .step ih.exprs fun vs _ => ?_
    exact .tag hs fun t => .pure (fun x => by simp; omega) trivial
  · refine .step ih.exprs fun lhs _ => .peek fun next => ?_
    have hlhs : ∀ {pre}, Yields source pre (lhs.flatMap Expr.entries ++ []) (Read.single s lhs)
        Expr.entries fun _ => True := .of_covers .single fun x => by simp
    split
    · exact .bindSame hlhs single_same fun e _ => .take (fun _ => Facing.nonempty) fun _ _ =>
        .tag hs fun t => .pure (fun x => by simp) trivial
    · exact .bindSame hlhs single_same fun e _ => .take (fun _ => Facing.nonempty) fun _ _ =>
        .tag hs fun t => .pure (fun x => by simp) trivial
    · exact .bindSame hlhs single_same fun chan _ => .take (fun _ => Facing.nonempty) fun _ _ =>
        .step ih.expr fun value _ => .tag hs fun t => .pure (fun x => by simp; omega) trivial
    · exact .of_anywhere (.pass (.silent_spanFrom s) fun _ => .fail)
    · split
      · rename_i op hop
        refine .take (fun c hc => ?_) fun _ _ => .step ih.exprs fun rhs _ =>
          .tag hs fun t => .pure (fun x => by simp; omega) trivial
        cases next with
        | none => simp at hop
        | some t => exact hc.nonempty
      · exact .bind hlhs fun e _ => .tag hs fun t => .pure (fun x => by simp) trivial

theorem ifElse_succ : Gives source (Read.ifElse (fuel + 1)) Stmt.entries := by
  rw [Read.ifElse]
  refine .start fun s hs => .pass (.silent_expect _) fun _ => ?_
  refine .stepAs (fun p => p.1.toList.flatMap Simple.entries ++ p.2.entries)
    (.withLiterals (.pass (.silent_eat _) fun semi => ?_)) ?_
  · split
    · exact .step ih.expr fun cond _ => .pure (fun x => by simp) trivial
    · refine .step ih.simple fun first _ => .pass (.silent_eat _) fun more => ?_
      split
      · exact .step ih.expr fun cond _ => .pure (fun x => by simp; omega) trivial
      · refine .bind (.of_covers .exprOf fun x => by simp) fun cond _ => ?_
        exact .pure (fun x => by simp) trivial
  · rintro ⟨init, cond⟩
    refine .step ih.block fun yes _ => .pass (.silent_eat _) fun else_ => ?_
    extract_lets jp
    have hjp : ∀ no : Option Stmt, Yields source Anywhere (no.toList.flatMap Stmt.entries ++
        (yes.entries ++ (init.toList.flatMap Simple.entries ++ cond.entries ++ []))) (jp no)
        Stmt.entries fun _ => True :=
      fun no => .tag hs fun t => .pure (fun x => by simp; omega) trivial
    split
    · refine .peek fun next => ?_
      split
      · refine .of_anywhere ?_
        refine .step ih.ifElse fun no _ => ?_
        exact .ret ((hjp (some no)).of_covers fun x => by simp)
      · refine .of_anywhere (.start fun _ hstart => ?_)
        refine .step ih.block fun b _ => ?_
        exact .tag hstart fun t => .ret ((hjp (some (.block t b))).of_covers fun x => by simp)
      · exact .neverThen fun _ _ => Read.unexpected_not_ok
    · exact .ret ((hjp none).of_covers fun x => by simp)

theorem loop_succ : Gives source (Read.loop (fuel + 1)) Stmt.entries := by
  rw [Read.loop]
  refine .start fun s hs => .pass (.silent_expect _) fun _ => ?_
  refine .step (.withLiterals ih.loopHead) fun head hhead => ?_
  refine .step ih.block fun body _ => ?_
  exact .tag hs fun t => .pure (fun x => by simp [hhead]; omega) trivial

theorem loopHead_succ : Yields source Anywhere [] (Read.loopHead (fuel + 1)) LoopHead.entries
    (·.isWhole = true) := by
  rw [Read.loopHead]
  refine .pass (.silent_at _) fun forever => ?_
  split
  · exact .pure (fun x => by simp) rfl
  · refine .pass (.silent_eat _) fun bare => ?_
    split
    · exact .step ih.expr fun e _ => .pure (fun x => by simp) rfl
    · refine .get fun c => ?_
      split
      · rename_i define _
        refine .step ih.expr fun key _ => .pass (.silent_eat _) fun more => ?_
        extract_lets jp
        have hjp : ∀ value : Option Expr, Yields source Anywhere
            (value.toList.flatMap Expr.entries ++ key.entries) (jp value) LoopHead.entries
            (·.isWhole = true) :=
          fun value => .takeBefore (FailsAtEnd.bind .expect) (.pass (.silent_expect _) fun _ =>
            .step ih.expr fun e _ => .pure (fun x => by simp; omega) rfl)
        split
        · exact .step ih.expr fun v _ => .ret ((hjp (some v)).of_covers fun x => by simp)
        · exact .ret ((hjp none).of_covers fun x => by simp)
      · refine .pass (.silent_eat _) fun semi => ?_
        split
        · exact ih.clauseHead none
        · refine .step ih.simple fun init _ => .pass (.silent_eat _) fun more => ?_
          split
          · exact (ih.clauseHead (some init)).of_covers fun x => by simp
          · refine .bind (.of_covers .exprOf fun x => by simp) fun e _ => ?_
            exact .pure (fun x => by simp) rfl

theorem clauseHead_succ (init : Option Simple) : Yields source Anywhere
    (init.toList.flatMap Simple.entries) (Read.clauseHead (fuel + 1) init) LoopHead.entries
    (·.isWhole = true) := by
  rw [Read.clauseHead]
  refine .pass (.silent_at _) fun bare => ?_
  extract_lets jp
  have hjp : ∀ cond : Option Expr, Yields source Anywhere (cond.toList.flatMap Expr.entries ++
      init.toList.flatMap Simple.entries) (jp cond) LoopHead.entries (·.isWhole = true) := by
    intro cond
    refine .pass (.silent_expect _) fun _ => .pass (.silent_at _) fun done => ?_
    extract_lets jp
    have hjp : ∀ post : Option Simple, Yields source Anywhere (post.toList.flatMap Simple.entries ++
        (cond.toList.flatMap Expr.entries ++ init.toList.flatMap Simple.entries)) (jp post)
        LoopHead.entries (·.isWhole = true) :=
      fun post => .pure (fun x => by simp; omega) rfl
    split
    · exact .ret (hjp none)
    · exact .step ih.simple fun p _ => .ret ((hjp (some p)).of_covers fun x => by simp)
  split
  · exact .ret (hjp none)
  · exact .step ih.expr fun e _ => .ret ((hjp (some e)).of_covers fun x => by simp)

theorem switch_succ : Gives source (Read.switch (fuel + 1)) Stmt.entries := by
  rw [Read.switch]
  refine .start fun s hs => .pass (.silent_expect _) fun _ =>
    .step (.withLiterals ih.switchHead) ?_
  rintro ⟨init, subject⟩ _
  refine .pass (.silent_expect _) fun _ => ?_
  refine .step (ih.clauses _) fun cs _ => .pass (.silent_expect _) fun _ => ?_
  dsimp only
  split
  · rename_i bind e hguard
    cases subject with
    | none => simp at hguard
    | some simple =>
      have hc : Covers simple.entries (nameEntries bind.toList ++ e.entries) :=
        guard_covers (by simpa using hguard)
      refine .tag hs fun t => .pure (fun x => ?_) trivial
      have := hc x
      simp at this ⊢
      omega
  · cases subject with
    | none => exact .ret (.tag hs fun t => .pure (fun x => by simp; omega) trivial)
    | some simple =>
      have hexpr : Yields source Anywhere (simple.entries ++ (cs.flatMap Clause.entries ++
          init.toList.flatMap Simple.entries)) (Read.exprOf simple)
          (fun e => e.entries ++ (cs.flatMap Clause.entries ++
            init.toList.flatMap Simple.entries)) fun _ => True := .frame .exprOf
      refine .bind (hexpr.of_covers fun x => by simp; omega) fun e _ => ?_
      exact .ret (.tag hs fun t => .pure (fun x => by simp; omega) trivial)

theorem switchHead_succ : Gives source (Read.switchHead (fuel + 1)) fun p =>
    p.1.toList.flatMap Simple.entries ++ p.2.toList.flatMap Simple.entries := by
  rw [Read.switchHead]
  refine .pass (.silent_at _) fun bare => ?_
  split
  · exact .pure (fun x => by simp) trivial
  · refine .pass (.silent_at _) fun semi => ?_
    extract_lets jp
    have hjp : ∀ first : Option Simple, Yields source Anywhere (first.toList.flatMap Simple.entries)
        (jp first) (fun p : Option Simple × Option Simple =>
          p.1.toList.flatMap Simple.entries ++ p.2.toList.flatMap Simple.entries)
        fun _ => True := by
      intro first
      refine .pass (.silent_eat _) fun more => ?_
      split
      · refine .pass (.silent_at _) fun done => ?_
        split
        · exact .pure (fun x => by simp) trivial
        · exact .step ih.simple fun p _ => .pure (fun x => by simp; omega) trivial
      · exact .pure (fun x => by simp) trivial
    split
    · exact .ret (hjp none)
    · exact .step ih.simple fun p _ => .ret ((hjp (some p)).of_covers fun x => by simp)

theorem clauses_succ (types : Bool) :
    Gives source (Read.clauses (fuel + 1) types) (·.flatMap Clause.entries) := by
  rw [Read.clauses]
  refine .peek fun next => ?_
  split
  · refine .of_anywhere ?_
    refine .step (ih.clause types) fun c _ => ?_
    refine .step (ih.clauses types) fun cs _ => ?_
    exact .pure (fun x => by simp; omega) trivial
  · exact .pure (fun x => by simp) trivial

theorem clause_succ (types : Bool) :
    Gives source (Read.clause (fuel + 1) types) Clause.entries := by
  rw [Read.clause]
  refine .start fun s hs => .pass (.silent_eat _) fun isDefault => ?_
  extract_lets jp
  have hjp : ∀ cases : Cases, Yields source Anywhere cases.entries (jp cases) Clause.entries
      fun _ => True :=
    fun cases => .pass (.silent_expect _) fun _ => .step ih.stmts fun body _ =>
      .tag hs fun t => .pure (fun x => by simp; omega) trivial
  split
  · exact .ret (hjp .default)
  · refine .pass (.silent_expect _) fun _ => ?_
    split
    · exact .step ih.typeExprs fun ts _ => .ret ((hjp (.types ts)).of_covers fun x => by simp)
    · exact .step ih.exprs fun es _ => .ret ((hjp (.exprs es)).of_covers fun x => by simp)

theorem select_succ : Gives source (Read.select (fuel + 1)) Stmt.entries := by
  rw [Read.select]
  refine .start fun s hs => .pass (.silent_expect _) fun _ => .pass (.silent_expect _) fun _ => ?_
  refine .step ih.comms fun cs _ => .pass (.silent_expect _) fun _ => ?_
  exact .tag hs fun t => .pure (fun x => by simp) trivial

theorem comms_succ : Gives source (Read.comms (fuel + 1)) (·.flatMap Comm.entries) := by
  rw [Read.comms]
  refine .peek fun next => ?_
  split
  · refine .of_anywhere ?_
    refine .step ih.comm fun c _ => ?_
    refine .step ih.comms fun cs _ => ?_
    exact .pure (fun x => by simp; omega) trivial
  · exact .pure (fun x => by simp) trivial

theorem comm_succ : Gives source (Read.comm (fuel + 1)) Comm.entries := by
  rw [Read.comm]
  refine .start fun s hs => .pass (.silent_eat _) fun isDefault => ?_
  extract_lets jp
  have hjp : ∀ guard : Option Simple, Yields source Anywhere (guard.toList.flatMap Simple.entries)
      (jp guard) Comm.entries fun _ => True :=
    fun guard => .pass (.silent_expect _) fun _ => .step ih.stmts fun body _ =>
      .tag hs fun t => .pure (fun x => by simp; omega) trivial
  split
  · exact .ret (hjp none)
  · refine .pass (.silent_expect _) fun _ => ?_
    refine .step ih.simple fun p _ => ?_
    exact .ret ((hjp (some p)).of_covers fun x => by simp)

theorem exprs_succ : Gives source (Read.exprs (fuel + 1)) (·.flatMap Expr.entries) := by
  rw [Read.exprs]
  refine .step ih.expr fun e _ => .pass (.silent_eat _) fun more => ?_
  split
  · exact .step ih.exprs fun es _ => .pure (fun x => by simp; omega) trivial
  · exact .pure (fun x => by simp) trivial

theorem typeExprs_succ : Gives source (Read.typeExprs (fuel + 1)) (·.flatMap TypeExpr.entries) := by
  rw [Read.typeExprs]
  refine .step ih.typeExpr fun e _ => .pass (.silent_eat _) fun more => ?_
  split
  · exact .step ih.typeExprs fun es _ => .pure (fun x => by simp; omega) trivial
  · exact .pure (fun x => by simp) trivial

theorem binary_succ (least : Nat) : Gives source (Read.binary (fuel + 1) least) Expr.entries := by
  rw [Read.binary]
  refine .start fun s hs => ?_
  refine .step ih.unary fun x _ => ?_
  exact (ih.binaryRest least s x hs).of_covers fun x => by simp

theorem binaryRest_succ (least s : Nat) (x : Expr) (hs : source.starts s) : Yields source Anywhere x.entries
    (Read.binaryRest (fuel + 1) least s x) Expr.entries fun _ => True := by
  rw [Read.binaryRest]
  refine .peek fun next => ?_
  split
  · exact .pure (fun x => Nat.le_refl _) trivial
  · rename_i op hop
    split
    · exact .pure (fun x => Nat.le_refl _) trivial
    · refine .take (fun c hc => ?_) fun _ _ => .step (ih.binary _) fun right _ =>
        .tag hs fun t => (ih.binaryRest least s _ hs).of_covers fun x => by simp; omega
      cases next with
      | none => simp at hop
      | some t => exact hc.nonempty

theorem unary_succ : Gives source (Read.unary (fuel + 1)) Expr.entries := by
  rw [Read.unary]
  refine .start fun s hs => .peek fun next => ?_
  split
  · exact ih.primary.of_anywhere
  · rename_i op hop
    refine .take (fun c hc => ?_) fun _ _ => .step ih.unary fun e _ =>
      .tag hs fun t => .pure (fun x => by simp) trivial
    cases next with
    | none => simp at hop
    | some t => exact hc.nonempty

theorem primary_succ : Gives source (Read.primary (fuel + 1)) Expr.entries := by
  rw [Read.primary]
  refine .start fun s hs => ?_
  refine .step ih.operand fun x _ => ?_
  exact (ih.primaryRest s x hs).of_covers fun x => by simp

theorem primaryRest_succ (s : Nat) (x : Expr) (hs : source.starts s) : Yields source Anywhere x.entries
    (Read.primaryRest (fuel + 1) s x) Expr.entries fun _ => True := by
  rw [Read.primaryRest]
  refine .peek fun next => ?_
  split
  · refine .take (fun _ => Facing.nonempty) fun _ _ => .pass (.silent_eat _) fun isAssert => ?_
    split
    · refine .pass (.silent_eat _) fun isSwitch => ?_
      extract_lets jp
      have hjp : ∀ type : Option TypeExpr, Yields source Anywhere
          (type.toList.flatMap TypeExpr.entries ++ x.entries) (jp type) Expr.entries
          fun _ => True :=
        fun type => .pass (.silent_expect _) fun _ => .tag hs fun t =>
          (ih.primaryRest s _ hs).of_covers fun x => by simp; omega
      split
      · exact .ret (hjp none)
      · exact .step ih.typeExpr fun t _ => .ret ((hjp (some t)).of_covers fun x => by simp)
    · refine .step .name fun sel _ => ?_
      exact .tag hs fun t => (ih.primaryRest s _ hs).of_covers fun x => by simp
  · refine .take (fun _ => Facing.nonempty) fun _ _ => ?_
    refine .bind (.withLiterals (ih.bracket x)) fun build hbuild => ?_
    refine .pass (.silent_expect _) fun _ => ?_
    refine .tag hs fun t => ?_
    exact (ih.primaryRest s _ hs).of_covers fun x => by simp [hbuild t]
  · refine .take (fun _ => Facing.nonempty) fun _ _ => .step (.withLiterals ih.arguments) ?_
    rintro ⟨args, spread⟩ _
    refine .pass (.silent_expect _) fun _ => ?_
    exact .tag hs fun t => (ih.primaryRest s _ hs).of_covers fun x => by simp; omega
  · refine .get fun c => ?_
    split
    · exact .pure (fun x => Nat.le_refl _) trivial
    · rename_i type htype
      refine .tagLike x.tag_mem_entries fun t => ?_
      refine .bind (.of_covers (ih.composite s _ hs) fun y => ?_) fun e _ => ih.primaryRest s e hs
      simpa using literalType_covers htype t y
  · exact .pure (fun x => Nat.le_refl _) trivial

theorem expr_succ : Gives source (Read.expr (fuel + 1)) Expr.entries := by
  rw [Read.expr]
  exact ih.binary 1

theorem bracket_succ (x : Expr) : Yields source Anywhere x.entries (Read.bracket (fuel + 1) x)
    (fun build => (build default).entries.tail)
    fun build => ∀ t, (build t).entries = t.entry :: (build default).entries.tail := by
  rw [Read.bracket]
  refine .pass (.silent_at _) fun open_ => ?_
  extract_lets jp
  have hjp : ∀ lo : Option Expr, Yields source Anywhere (lo.toList.flatMap Expr.entries ++ x.entries)
      (jp lo) (fun build => (build default).entries.tail)
      fun build => ∀ t, (build t).entries = t.entry :: (build default).entries.tail := by
    intro lo
    refine .pass (.silent_eat _) fun slices => ?_
    split
    · refine .peek fun next => ?_
      extract_lets hiJp
      have hhi : ∀ hi : Option Expr, Yields source Anywhere (hi.toList.flatMap Expr.entries ++
          (lo.toList.flatMap Expr.entries ++ x.entries)) (hiJp hi)
          (fun build => (build default).entries.tail)
          fun build => ∀ t, (build t).entries = t.entry :: (build default).entries.tail := by
        intro hi
        refine .pass (.silent_eat _) fun full => ?_
        extract_lets maxJp
        have hmax : ∀ max : Option Expr, Yields source Anywhere (max.toList.flatMap Expr.entries ++
            (hi.toList.flatMap Expr.entries ++ (lo.toList.flatMap Expr.entries ++ x.entries)))
            (maxJp max) (fun build => (build default).entries.tail)
            fun build => ∀ t, (build t).entries = t.entry :: (build default).entries.tail :=
          fun max => .pure (fun x => by simp; omega) fun t => by simp
        split
        · exact .step ih.expr fun e _ => .ret ((hmax (some e)).of_covers fun x => by simp)
        · exact .ret ((hmax none).of_covers fun x => by simp)
      split
      · exact .of_anywhere (.ret ((hhi none).of_covers fun x => by simp))
      · refine .of_anywhere ?_
        refine .step ih.expr fun e _ => ?_
        exact .ret ((hhi (some e)).of_covers fun x => by simp)
    · cases lo with
      | some e => exact .pure (fun x => by simp; omega) fun t => by simp
      | none => exact .unexpected
  split
  · exact .ret (hjp none)
  · exact .step ih.expr fun e _ => .ret ((hjp (some e)).of_covers fun x => by simp)

theorem arguments_succ :
    Gives source (Read.arguments (fuel + 1)) fun p => p.1.flatMap Expr.entries := by
  rw [Read.arguments]
  refine .pass (.silent_at _) fun done => ?_
  split
  · exact .pure (fun x => by simp) trivial
  · refine .step ih.expr fun e _ => .pass (.silent_eat _) fun spread => ?_
    refine .pass (.silent_eat _) fun more => ?_
    split
    · refine .step ih.arguments ?_
      rintro ⟨es, further⟩ _
      exact .pure (fun x => by simp; omega) trivial
    · exact .pure (fun x => by simp) trivial

theorem composite_succ (s : Nat) (type : Option TypeExpr) (hs : source.starts s) : Yields source Anywhere
    (type.toList.flatMap TypeExpr.entries) (Read.composite (fuel + 1) s type) Expr.entries
    fun _ => True := by
  rw [Read.composite]
  refine .pass (.silent_expect _) fun _ => ?_
  refine .step (.withLiterals ih.elements) fun elems _ => .pass (.silent_expect _) fun _ => ?_
  exact .tag hs fun t => .pure (fun x => by simp; omega) trivial

theorem elements_succ : Gives source (Read.elements (fuel + 1)) (·.flatMap Element.entries) := by
  rw [Read.elements]
  refine .pass (.silent_at _) fun done => ?_
  split
  · exact .pure (fun x => by simp) trivial
  · refine .step ih.element fun first _ => .pass (.silent_eat _) fun keyed => ?_
    extract_lets jp
    have hjp : ∀ elem : Element, Yields source Anywhere elem.entries (jp elem)
        (·.flatMap Element.entries) fun _ => True := by
      intro elem
      refine .pass (.silent_eat _) fun more => ?_
      split
      · exact .step ih.elements fun es _ => .pure (fun x => by simp; omega) trivial
      · exact .pure (fun x => by simp) trivial
    split
    · refine .step ih.element fun value _ => ?_
      exact .ret ((hjp ⟨some first, value⟩).of_covers fun x => by simp; omega)
    · exact .ret ((hjp ⟨none, first⟩).of_covers fun x => by simp)

theorem element_succ : Gives source (Read.element (fuel + 1)) Expr.entries := by
  rw [Read.element]
  refine .pass (.silent_at _) fun bare => ?_
  split
  · exact .start fun s hs => (ih.composite s none hs).of_covers fun x => by simp
  · exact ih.expr

omit ih in
theorem literal_gives {t : Token} (s : Nat) (kind : LitKind) (text : String)
    (ht : t.word? = some text) : Yields source (fun c => Facing (some t) c ∧ c.next = s) []
      (Read.operand.literal s kind text) Expr.entries fun _ => True :=
  .wordFrom ht fun t => .pure (fun x => by simp) trivial

theorem operand_succ : Gives source (Read.operand (fuel + 1)) Expr.entries := by
  rw [Read.operand]
  refine .startFacing fun s next hs => ?_
  split
  · rename_i n
    exact .wordFrom (t := .ident n) rfl fun t => .pure (fun x => by simp) trivial
  iterate 6 exact literal_gives s _ _ rfl
  · refine .take (fun _ h => h.1.nonempty) fun _ _ => ?_
    refine .step (.withLiterals ih.expr) fun inner _ => .pass (.silent_expect _) fun _ => ?_
    exact .tag hs fun t => .pure (fun x => by simp) trivial
  · refine .take (fun _ h => h.1.nonempty) fun _ _ => ?_
    refine .step ih.signature fun sig _ => .pass (.silent_at _) fun bodied => ?_
    split
    · refine .step (.withLiterals ih.block) fun body _ => ?_
      exact .tag hs fun t => .pure (fun x => by simp; omega) trivial
    · exact .tag hs fun t => .tag hs fun u => .pure (fun x => by simp) trivial
  iterate 5
    refine .of_anywhere ?_
    refine .step ih.typeExpr fun type _ => ?_
    exact .tag hs fun t => .pure (fun x => by simp) trivial
  · exact .unexpected

theorem decl_succ : Yields source Nonempty [] (Read.decl (fuel + 1)) Decl.entries
    fun _ => True := by
  rw [Read.decl]
  refine .start fun s hs => ?_
  refine .take (fun _ h => h) fun p _ => ?_
  refine .pass (.silent_eat _) fun grouped => ?_
  split
  · refine .step (ih.specs _) fun ss _ => .pass (.silent_expect _) fun _ => ?_
    exact .tag hs fun t => .pure (fun x => by simp) trivial
  · refine .step (ih.spec _) fun one _ => ?_
    exact .tag hs fun t => .pure (fun x => by simp) trivial

theorem specs_succ (kind : DeclKind) :
    Gives source (Read.specs (fuel + 1) kind) (·.flatMap Spec.entries) := by
  rw [Read.specs]
  refine .peek fun next => ?_
  split
  · exact .pure (fun x => by simp) trivial
  · refine .of_anywhere ?_
    refine .step (ih.spec kind) fun one _ => .pass .silent_endStatement fun _ => ?_
    refine .step (ih.specs kind) fun ss _ => ?_
    exact .pure (fun x => by simp; omega) trivial

theorem spec_succ (kind : DeclKind) : Gives source (Read.spec (fuel + 1) kind) Spec.entries := by
  rw [Read.spec]
  refine .start fun s hs => ?_
  split
  · refine .peek fun next => ?_
    extract_lets jp
    have hjp : ∀ n : Option Name, Yields source Anywhere (nameEntries n.toList) (jp n) Spec.entries
        fun _ => True := by
      intro n
      refine .peek fun after => ?_
      split
      · rename_i path hpath
        refine .take (fun c hc => ?_) fun _ _ => .tag hs fun t =>
          .pure (fun x => by simp) trivial
        cases after with
        | none => simp [Read.isText] at hpath
        | some t => exact hc.nonempty
      · exact .unexpected
    split
    · exact .of_anywhere (.step .name fun n _ => .ret (hjp (some n)))
    · exact .word (t := .punct .dot) rfl fun t => .ret (hjp (some ⟨t, "."⟩))
    · exact .of_anywhere (.ret (hjp none))
  · refine .step .name fun n _ => .pass (.silent_eat _) fun isAlias => ?_
    refine .step ih.typeExpr fun type _ => ?_
    exact .tag hs fun t => .pure (fun x => by simp; omega) trivial
  all_goals
    refine .step (.names fuel) fun ns _ => .peek fun next => ?_
    extract_lets jp
    have hjp : ∀ type : Option TypeExpr, Yields source Anywhere
        (type.toList.flatMap TypeExpr.entries ++ nameEntries ns) (jp type) Spec.entries
        fun _ => True := by
      intro type
      refine .pass (.silent_eat _) fun more => ?_
      extract_lets jp
      have hjp : ∀ vs : List Expr, Yields source Anywhere (vs.flatMap Expr.entries ++
          (type.toList.flatMap TypeExpr.entries ++ nameEntries ns)) (jp vs) Spec.entries
          fun _ => True :=
        fun vs => .tag hs fun t => .pure (fun x => by simp; omega) trivial
      split
      · exact .step ih.exprs fun vs _ => hjp vs
      · exact .ret (hjp [])
    split
    iterate 4 exact .of_anywhere (.ret ((hjp none).of_covers fun x => by simp))
    refine .of_anywhere ?_
    refine .step ih.typeExpr fun type _ => ?_
    exact .ret ((hjp (some type)).of_covers fun x => by simp)

omit ih in
/-- Without a budget nothing is read. -/
theorem of_zero : ReadsTrees source 0 := by
  constructor <;> intros <;> simp only [
    Read.typeExpr, Read.structFields, Read.interfaceMethods, Read.signature, Read.parameters,
    Read.params, Read.param, Read.block, Read.stmts, Read.stmt, Read.simple, Read.ifElse,
    Read.loop, Read.loopHead, Read.clauseHead, Read.switch, Read.switchHead, Read.clauses,
    Read.clause, Read.select, Read.comms, Read.comm, Read.exprs, Read.typeExprs, Read.expr,
    Read.binary, Read.binaryRest, Read.unary, Read.primary, Read.primaryRest, Read.bracket,
    Read.arguments, Read.composite, Read.elements, Read.element, Read.operand, Read.decl,
    Read.specs, Read.spec] <;>
    exact .exhausted

end ReadsTrees

theorem readsTrees (source : Page) (fuel : Nat) : ReadsTrees source fuel := by
  induction fuel with
  | zero => exact .of_zero
  | succ fuel ih =>
    exact {
      typeExpr := ih.typeExpr_succ
      structFields := ih.structFields_succ
      interfaceMethods := ih.interfaceMethods_succ
      signature := ih.signature_succ
      parameters := ih.parameters_succ
      params := ih.params_succ
      param := ih.param_succ
      block := ih.block_succ
      stmts := ih.stmts_succ
      stmt := ih.stmt_succ
      simple := ih.simple_succ
      ifElse := ih.ifElse_succ
      loop := ih.loop_succ
      loopHead := ih.loopHead_succ
      clauseHead := fun a => ih.clauseHead_succ a
      switch := ih.switch_succ
      switchHead := ih.switchHead_succ
      clauses := fun a => ih.clauses_succ a
      clause := fun a => ih.clause_succ a
      select := ih.select_succ
      comms := ih.comms_succ
      comm := ih.comm_succ
      exprs := ih.exprs_succ
      typeExprs := ih.typeExprs_succ
      expr := ih.expr_succ
      binary := fun a => ih.binary_succ a
      binaryRest := fun a b c => ih.binaryRest_succ a b c
      unary := ih.unary_succ
      primary := ih.primary_succ
      primaryRest := fun a b => ih.primaryRest_succ a b
      bracket := fun a => ih.bracket_succ a
      arguments := ih.arguments_succ
      composite := fun a b => ih.composite_succ a b
      elements := ih.elements_succ
      element := ih.element_succ
      operand := ih.operand_succ
      decl := ih.decl_succ
      specs := fun a => ih.specs_succ a
      spec := fun a => ih.spec_succ a
    }

end FuncLift
