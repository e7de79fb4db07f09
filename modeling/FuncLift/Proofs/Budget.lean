import FuncLift.Document
import FuncLift.Proofs.Shaped

/-!
# The budget is never used up

A production calls itself again, directly or through others, only after it has taken a token, and
every turn of a loop that succeeds takes one. Productions that call each other without taking a token
do so in the order of their ranks, of which there are fewer than units of budget for a token. So from
a budget of 32 for every token ahead no production runs out, and more budget changes nothing: the
recursion without any bound ends, with the same answer.
-/
namespace FuncLift

/-- How many operators and suffixes follow the operand at the left end. -/
def Expr.steps : Expr → Nat
  | .binary _ l _ _ => l.steps + 1
  | .selector _ e _ | .index _ e _ | .slice _ e _ _ _ | .call _ e _ _ | .assert _ e _ => e.steps + 1
  | _ => 0

/-- Two answers to the same cursor are one answer, which is not that the budget is used up, and which
took at least so many tokens. -/
structure Settles {α : Type} (c : Cursor) (least : α → Nat)
    (x x' : Except Diagnostic (α × Cursor)) : Prop where
  same : x' = x
  ends : ∀ span, x ≠ .error ⟨.parse .exhausted, span⟩
  takes : ∀ a c', x = .ok (a, c') → c'.ahead.length + least a ≤ c.ahead.length

/-- Two readers, mostly one production with two budgets, settle every cursor that meets a condition
and has at most `n` tokens ahead. -/
def Accord {α : Type} (pre : Cursor → Prop) (n : Nat) (least : α → Nat) (r r' : Read α) : Prop :=
  ∀ c, pre c → c.ahead.length ≤ n → Settles c least (r c) (r' c)

namespace Accord

variable {α β : Type} {pre : Cursor → Prop} {n m : Nat} {got : α → Nat} {least least' : β → Nat}
  {r r' : Read α} {f f' : α → Read β} {s s' : Read β}

theorem of_anywhere (h : Accord Anywhere n least s s') : Accord pre n least s s' :=
  fun c _ => h c trivial

/-- Fewer tokens, of which fewer have to be taken. -/
theorem of_le (h : Accord Anywhere n least s s') (hm : m ≤ n) (hl : ∀ b, least' b ≤ least b) :
    Accord pre m least' s s' := by
  intro c _ hc
  obtain ⟨same, ends, takes⟩ := h c trivial (Nat.le_trans hc hm)
  refine ⟨same, ends, fun b c' hr => ?_⟩
  have := takes b c' hr
  have := hl b
  omega

/-- A reader of which every answer is a failure that has nothing to do with the budget. -/
theorem fails (h : ∀ c, ∃ d, s c = .error d ∧ d.fault ≠ .parse .exhausted) :
    Accord pre n least s s := by
  intro c _ _
  obtain ⟨d, hd, hfault⟩ := h c
  refine ⟨rfl, fun span hs => ?_, fun b c' hs => ?_⟩
  · rw [hd] at hs
    cases hs
    exact hfault rfl
  · rw [hd] at hs
    cases hs

theorem fail {e : ParseFault} {span : Span} (he : e ≠ .exhausted) :
    Accord pre n least (Read.fail e span) (Read.fail e span) :=
  fails fun _ => ⟨_, rfl, fun h => he (by cases h; rfl)⟩

theorem unexpected {w : Wanted} : Accord pre n least (Read.unexpected w) (Read.unexpected w) := by
  refine fails fun c => ?_
  obtain ⟨ahead, size, reached, literals, nextId⟩ := c
  cases ahead <;> exact ⟨_, rfl, nofun⟩

theorem pure {b : β} (h : least b = 0) : Accord pre n least (Pure.pure b) (Pure.pure b) := by
  refine fun c _ _ => ⟨rfl, nofun, fun b' c' hr => ?_⟩
  obtain ⟨rfl, rfl⟩ := Read.pure_ok.1 hr
  omega

/-- What was taken first counts for the whole, and is gone for the rest. -/
theorem stepOf {P : α → Prop} (h : Accord pre n got r r') (hP : ∀ c a c', r c = .ok (a, c') → P a)
    (k : ∀ a m, P a → m + got a ≤ n →
      Accord Anywhere m (fun b => least b - got a) (f a) (f' a)) :
    Accord pre n least (r >>= f) (r' >>= f') := by
  intro c hp hc
  obtain ⟨same, ends, takes⟩ := h c hp hc
  have hsame : (r' >>= f') c = (r c).bind fun x => f' x.1 x.2 := by rw [← same]; rfl
  rw [hsame]
  change Settles c least ((r c).bind fun x => f x.1 x.2) _
  cases hr : r c with
  | error d =>
    refine ⟨rfl, fun span h => ?_, nofun⟩
    cases h
    exact ends span hr
  | ok x =>
    obtain ⟨a, c'⟩ := x
    have ha := takes a c' hr
    obtain ⟨ksame, kends, ktakes⟩ :=
      k a c'.ahead.length (hP c a c' hr) (by omega) c' trivial (Nat.le_refl _)
    refine ⟨ksame, kends, fun b c'' hb => ?_⟩
    have := ktakes b c'' hb
    omega

theorem step (h : Accord pre n got r r')
    (k : ∀ a m, m + got a ≤ n → Accord Anywhere m (fun b => least b - got a) (f a) (f' a)) :
    Accord pre n least (r >>= f) (r' >>= f') :=
  h.stepOf (P := fun _ => True) (fun _ _ _ _ => trivial) fun a m _ => k a m

/-- What would come after a failure does not matter. -/
theorem failsThen (h : Accord pre n (fun _ => 0) r r) (hr : ∀ c x, r c ≠ .ok x) :
    Accord pre n least (r >>= f) (r >>= f') :=
  h.stepOf (P := fun _ => False) (fun c a c' ha => hr c (a, c') ha) fun _ _ hf _ => hf.elim

/-- A step that need not take anything. -/
theorem pass (h : Accord Anywhere n (fun _ => 0) r r')
    (k : ∀ a, Accord Anywhere n least (f a) (f' a)) : Accord pre n least (r >>= f) (r' >>= f') :=
  h.of_anywhere.step fun a _ hm => (k a).of_le hm fun _ => Nat.le_refl _

/-- A step that leaves the cursor where it is. -/
theorem skip (h : ∀ c, r c = r' c ∧ ((∃ a, r c = .ok (a, c)) ∨
      ∃ d, r c = .error d ∧ d.fault ≠ .parse .exhausted))
    (k : ∀ a, Accord pre n least (f a) (f' a)) : Accord pre n least (r >>= f) (r' >>= f') := by
  intro c hp hc
  obtain ⟨hsame, ⟨a, ha⟩ | ⟨d, hd, hfault⟩⟩ := h c
  · have hr : (r >>= f) c = f a c := by simp [bind, StateT.bind, Except.bind, ha]
    have hr' : (r' >>= f') c = f' a c := by simp [bind, StateT.bind, Except.bind, ← hsame, ha]
    rw [hr, hr']
    exact k a c hp hc
  · have hr : (r >>= f) c = .error d := by simp [bind, StateT.bind, Except.bind, hd]
    have hr' : (r' >>= f') c = .error d := by simp [bind, StateT.bind, Except.bind, ← hsame, hd]
    rw [hr, hr']
    refine ⟨rfl, fun span h => ?_, nofun⟩
    cases h
    exact hfault rfl

theorem ret {a : α} (k : Accord pre n least (f a) (f' a)) :
    Accord pre n least (Pure.pure a >>= f) (Pure.pure a >>= f') := k

theorem start {f f' : Nat → Read β} (k : ∀ a, Accord pre n least (f a) (f' a)) :
    Accord pre n least (Read.start >>= f) (Read.start >>= f') :=
  skip (fun _ => ⟨rfl, .inl ⟨_, rfl⟩⟩) k

theorem get {f f' : Cursor → Read β} (k : ∀ c, Accord pre n least (f c) (f' c)) :
    Accord pre n least (MonadState.get >>= f) (MonadState.get >>= f') :=
  skip (fun _ => ⟨rfl, .inl ⟨_, rfl⟩⟩) k

theorem peekSecond {f f' : Option Token → Read β} (k : ∀ t, Accord pre n least (f t) (f' t)) :
    Accord pre n least (Read.peekSecond >>= f) (Read.peekSecond >>= f') :=
  skip (fun _ => ⟨rfl, .inl ⟨_, rfl⟩⟩) k

theorem at_ {t : Token} {f f' : Bool → Read β} (k : ∀ b, Accord pre n least (f b) (f' b)) :
    Accord pre n least (Read.at_ t >>= f) (Read.at_ t >>= f') :=
  skip (fun _ => ⟨rfl, .inl ⟨_, rfl⟩⟩) k

theorem spanFrom {p : Nat} {f f' : Span → Read β} (k : ∀ a, Accord pre n least (f a) (f' a)) :
    Accord pre n least (Read.spanFrom p >>= f) (Read.spanFrom p >>= f') :=
  skip (fun _ => ⟨rfl, .inl ⟨_, rfl⟩⟩) k

theorem peek {f f' : Option Token → Read β}
    (k : ∀ t, Accord (Facing t) n least (f t) (f' t)) :
    Accord pre n least (Read.peek >>= f) (Read.peek >>= f') :=
  fun c _ hc => k _ c rfl hc

theorem single {p : Nat} {es : List Expr} {f f' : Expr → Read β}
    (k : ∀ e, Accord pre n least (f e) (f' e)) :
    Accord pre n least (Read.single p es >>= f) (Read.single p es >>= f') := by
  refine skip (fun c => ⟨rfl, ?_⟩) k
  unfold Read.single
  split
  · exact .inl ⟨_, rfl⟩
  · exact .inr ⟨_, rfl, nofun⟩

theorem exprOf {s : Simple} {f f' : Expr → Read β} (k : ∀ e, Accord pre n least (f e) (f' e)) :
    Accord pre n least (Read.exprOf s >>= f) (Read.exprOf s >>= f') := by
  refine skip (fun c => ⟨rfl, ?_⟩) k
  unfold Read.exprOf
  split
  · exact .inl ⟨_, rfl⟩
  · exact .inr ⟨_, rfl, nofun⟩

/-- A step that moves the cursor over no token. -/
theorem still (h : ∀ c, ∃ a d, r c = .ok (a, d) ∧ d.ahead = c.ahead)
    (k : ∀ a, Accord Anywhere n least (f a) (f' a)) : Accord pre n least (r >>= f) (r >>= f') := by
  refine pass (fun c _ _ => ?_) k
  obtain ⟨a, d, hr, hd⟩ := h c
  rw [hr]
  refine ⟨rfl, nofun, fun b c' hb => ?_⟩
  cases hb
  rw [hd]
  exact Nat.le_refl _

theorem tagAt {span : Span} {f f' : Tag → Read β}
    (k : ∀ t, Accord Anywhere n least (f t) (f' t)) :
    Accord pre n least (Read.tagAt span >>= f) (Read.tagAt span >>= f') :=
  still (fun _ => ⟨_, _, rfl, rfl⟩) k

theorem tag {p : Nat} {f f' : Tag → Read β} (k : ∀ t, Accord Anywhere n least (f t) (f' t)) :
    Accord pre n least (Read.tagFrom p >>= f) (Read.tagFrom p >>= f') :=
  still (fun _ => ⟨_, _, rfl, rfl⟩) k

/-- A token that is there is taken. -/
theorem take {f f' : Placed → Read β} (hne : ∀ c, pre c → Nonempty c)
    (k : ∀ p m, m + 1 ≤ n → Accord Anywhere m (fun b => least b - 1) (f p) (f' p)) :
    Accord pre n least (Read.take >>= f) (Read.take >>= f') := by
  have htake : Accord pre n (fun _ => 1) Read.take Read.take := by
    refine fun c hp _ => ⟨rfl, nofun, fun p c' ht => ?_⟩
    obtain ⟨ahead, size, reached, literals, nextId⟩ := c
    cases ahead with
    | nil => exact absurd rfl (hne _ hp)
    | cons q rest =>
      cases ht
      exact Nat.le_refl _
  exact htake.step k

theorem silent_take : Accord pre n (fun _ => 0) Read.take Read.take := by
  refine fun c hp _ => ⟨rfl, nofun, fun p c' ht => ?_⟩
  obtain ⟨ahead, size, reached, literals, nextId⟩ := c
  cases ahead <;> cases ht <;> simp

/-- A token that may be missing. -/
theorem takeAny {f f' : Placed → Read β} (k : ∀ p, Accord Anywhere n least (f p) (f' p)) :
    Accord pre n least (Read.take >>= f) (Read.take >>= f') := silent_take.pass k

theorem takes_eat (t : Token) : Accord pre n Bool.toNat (Read.eat t) (Read.eat t) := by
  have hat : Read.eat t = Read.peek >>= fun next =>
      if (next == some t) = true then Read.take >>= fun _ => Pure.pure true else Pure.pure false := rfl
  rw [hat]
  refine peek fun next => ?_
  split
  · rename_i h
    exact take (fun _ hc => Facing.nonempty (eq_of_beq h ▸ hc)) fun _ _ _ => .pure rfl
  · exact .pure rfl

theorem eat {t : Token} {f f' : Bool → Read β} (k : ∀ b, Accord Anywhere n least (f b) (f' b)) :
    Accord pre n least (Read.eat t >>= f) (Read.eat t >>= f') :=
  ((takes_eat t).of_le (Nat.le_refl n) fun _ => Nat.zero_le _).pass k

theorem takes_expect (t : Token) : Accord pre n (fun _ => 1) (Read.expect t) (Read.expect t) := by
  refine (takes_eat t).step fun met m _ => ?_
  cases met with
  | true => exact .pure rfl
  | false => exact .unexpected

theorem expect {t : Token} {f f' : Unit → Read β}
    (k : ∀ u m, m + 1 ≤ n → Accord Anywhere m (fun b => least b - 1) (f u) (f' u)) :
    Accord pre n least (Read.expect t >>= f) (Read.expect t >>= f') := (takes_expect t).step k

theorem takes_name : Accord pre n (fun _ => 1) Read.name Read.name := by
  refine peek fun next => ?_
  split
  · exact take (fun _ => Facing.nonempty) fun _ _ _ => tagAt fun _ => .pure rfl
  · exact .unexpected

theorem name {f f' : Name → Read β}
    (k : ∀ a m, m + 1 ≤ n → Accord Anywhere m (fun b => least b - 1) (f a) (f' a)) :
    Accord pre n least (Read.name >>= f) (Read.name >>= f') := takes_name.step k

theorem endStatement {f f' : Unit → Read β} (k : ∀ u, Accord Anywhere n least (f u) (f' u)) :
    Accord pre n least (Read.endStatement >>= f) (Read.endStatement >>= f') := by
  refine .pass (.peek fun next => ?_) k
  split
  · exact takeAny fun _ => .pure rfl
  iterate 3 exact .pure rfl
  · exact .unexpected

theorem withLiterals {allowed : Bool} (h : Accord Anywhere n least s s') :
    Accord pre n least (Read.withLiterals allowed s) (Read.withLiterals allowed s') := by
  have hmodify {g : Cursor → Cursor} (hg : ∀ c, (g c).ahead = c.ahead) (c : Cursor) :
      ∃ a d, (modify g : Read PUnit) c = .ok (a, d) ∧ d.ahead = c.ahead := ⟨_, _, rfl, hg c⟩
  refine get fun old => still (hmodify fun _ => rfl) fun _ => h.step fun b m _ => ?_
  exact still (hmodify fun _ => rfl) fun _ => .pure (Nat.sub_self _)

theorem fieldsOfTypes (ns : List Name) :
    Accord pre n (fun _ => 0) (Read.fieldsOfTypes ns) (Read.fieldsOfTypes ns) := by
  induction ns generalizing pre with
  | nil => exact .pure rfl
  | cons x ns ih => exact tagAt fun _ => tagAt fun _ => ih.pass fun _ => .pure rfl

theorem group (pending : List Name) (first : Option Nat) (ps : List Param) :
    Accord pre n (fun _ => 0) (Read.group pending first ps) (Read.group pending first ps) := by
  induction ps generalizing pre pending first with
  | nil => exact fieldsOfTypes pending
  | cons p ps ih =>
    rcases p with ⟨x, span⟩ | ⟨_ | x, type, variadic, span⟩
    · exact ih _ _
    · exact (fieldsOfTypes pending).pass fun _ => tagAt fun _ => (ih _ _).pass fun _ => .pure rfl
    · exact tagAt fun _ => (ih _ _).pass fun _ => .pure rfl

end Accord

/-- An index and a slice are one step from what they are taken of. -/
theorem Expr.steps_bracket {fuel : Nat} {x : Expr} {c c' : Cursor} {build : Tag → Expr}
    (h : Read.bracket fuel x c = .ok (build, c')) (t : Tag) : (build t).steps = x.steps + 1 := by
  obtain ⟨i, rfl⟩ | ⟨lo, hi, max, rfl⟩ := Read.bracket_ok h <;> rfl

/-- A production with either of two budgets, if both have 32 for each token ahead and `rank` more. -/
def Settled {α : Type} (fuel fuel' rank : Nat) (least : α → Nat) (r : Nat → Read α) : Prop :=
  ∀ {n}, 32 * n + rank ≤ min fuel fuel' → Accord Anywhere n least (r fuel) (r fuel')

/-- What is said of every production, given its rank and how many tokens it takes at least when it
succeeds. As long as no token is taken, a production only calls others of a lower rank; a list takes
a token for every entry, and an expression one for its first operand and for every step after it. -/
structure Productions (P : {α : Type} → Nat → (α → Nat) → (Nat → Read α) → Prop) : Prop where
  names : P 1 (fun ns => max 1 ns.length) Read.names
  typeExpr : P 1 (fun _ => 1) Read.typeExpr
  structFields : P 2 (·.length + 1) Read.structFields
  interfaceMethods : P 2 (·.length + 1) Read.interfaceMethods
  signature : P 2 (fun _ => 1) Read.signature
  parameters : P 1 (fun _ => 1) Read.parameters
  params : P 3 List.length Read.params
  param : P 2 (fun _ => 1) Read.param
  block : P 1 (fun _ => 1) Read.block
  stmts : P 10 List.length Read.stmts
  stmt : P 9 (fun _ => 1) Read.stmt
  simple : P 8 (fun _ => 1) Read.simple
  ifElse : P 1 (fun _ => 1) Read.ifElse
  loop : P 1 (fun _ => 1) Read.loop
  loopHead : P 9 (fun _ => 0) Read.loopHead
  clauseHead : ∀ init, P 7 (fun _ => 1) (Read.clauseHead · init)
  switch : P 1 (fun _ => 1) Read.switch
  switchHead : P 9 (fun _ => 0) Read.switchHead
  clauses : ∀ types, P 2 List.length (Read.clauses · types)
  clause : ∀ types, P 1 (fun _ => 1) (Read.clause · types)
  select : P 1 (fun _ => 1) Read.select
  comms : P 2 List.length Read.comms
  comm : P 1 (fun _ => 1) Read.comm
  exprs : P 7 (fun es => max 1 es.length) Read.exprs
  typeExprs : P 2 (fun ts => max 1 ts.length) Read.typeExprs
  expr : P 6 (·.steps + 1) Read.expr
  binary : ∀ least, P 5 (·.steps + 1) (Read.binary · least)
  binaryRest : ∀ least s x, P 1 (·.steps - x.steps) (Read.binaryRest · least s x)
  unary : P 4 (·.steps + 1) Read.unary
  primary : P 3 (·.steps + 1) Read.primary
  primaryRest : ∀ s x, P 2 (·.steps - x.steps) (Read.primaryRest · s x)
  bracket : ∀ x, P 7 (fun _ => 0) (Read.bracket · x)
  arguments : P 7 (·.1.length) Read.arguments
  composite : ∀ s type, P 1 (·.steps + 1) (Read.composite · s type)
  elements : P 8 List.length Read.elements
  element : P 7 (fun _ => 1) Read.element
  operand : P 2 (·.steps + 1) Read.operand
  decl : P 4 (fun _ => 1) Read.decl
  specs : ∀ kind, P 3 List.length (Read.specs · kind)
  spec : ∀ kind, P 2 (fun _ => 1) (Read.spec · kind)

namespace Productions

variable {fuel fuel' : Nat} (ih : Productions (Settled fuel fuel'))

include ih

theorem names_succ : Settled (fuel + 1) (fuel' + 1) 1 (fun ns => max 1 ns.length) Read.names := by
  intro n hn
  rw [Read.names, Read.names]
  refine .name fun x m hm => .eat fun more => ?_
  split
  · exact (ih.names (by omega)).step fun ns _ _ => .pure (by rw [List.length_cons]; omega)
  · exact .pure rfl

theorem typeExpr_succ : Settled (fuel + 1) (fuel' + 1) 1 (fun _ => 1) Read.typeExpr := by
  intro n hn
  rw [Read.typeExpr, Read.typeExpr]
  refine .start fun s => .peek fun next => ?_
  split
  · refine .name fun x m hm => .eat fun dot => ?_
    split
    · exact .name fun sel _ _ => .tag fun t => .pure rfl
    · exact .tag fun t => .pure rfl
  · refine .take (fun _ => Facing.nonempty) fun _ m hm => ?_
    refine (ih.typeExpr (by omega)).step fun elem _ _ => ?_
    exact .tag fun t => .pure rfl
  · refine .take (fun _ => Facing.nonempty) fun _ m hm => .eat fun slice => ?_
    split
    · refine (ih.typeExpr (by omega)).step fun elem _ _ => ?_
      exact .tag fun t => .pure rfl
    · refine .eat fun dots => ?_
      split
      · refine .expect fun _ k hk => ?_
        refine (ih.typeExpr (by omega)).step fun elem _ _ => ?_
        exact .tag fun t => .pure rfl
      · refine .pass ((ih.expr (by omega)).withLiterals.of_le (Nat.le_refl m)
          fun _ => Nat.zero_le _) fun len => ?_
        refine .expect fun _ k hk => ?_
        refine (ih.typeExpr (by omega)).step fun elem _ _ => ?_
        exact .tag fun t => .pure rfl
  · refine .take (fun _ => Facing.nonempty) fun _ m hm => .expect fun _ k hk => ?_
    refine (ih.typeExpr (by omega)).step fun key k' hk' => .expect fun _ k'' hk'' => ?_
    refine (ih.typeExpr (by omega)).step fun value _ _ => ?_
    exact .tag fun t => .pure rfl
  · refine .take (fun _ => Facing.nonempty) fun _ m hm => .eat fun sends => ?_
    refine (ih.typeExpr (by omega)).step fun elem _ _ => ?_
    exact .tag fun t => .pure rfl
  · refine .take (fun _ => Facing.nonempty) fun _ m hm => .expect fun _ k hk => ?_
    refine (ih.typeExpr (by omega)).step fun elem _ _ => ?_
    exact .tag fun t => .pure rfl
  · refine .take (fun _ => Facing.nonempty) fun _ m hm => ?_
    refine (ih.signature (by omega)).step fun sig _ _ => ?_
    exact .tag fun t => .pure rfl
  · refine .take (fun _ => Facing.nonempty) fun _ m hm => .expect fun _ k hk => ?_
    refine (ih.structFields (by omega)).step fun fs _ _ => ?_
    exact .tag fun t => .pure (by omega)
  · refine .take (fun _ => Facing.nonempty) fun _ m hm => .expect fun _ k hk => ?_
    refine (ih.interfaceMethods (by omega)).step fun fs _ _ => ?_
    exact .tag fun t => .pure (by omega)
  · refine .take (fun _ => Facing.nonempty) fun _ m hm => ?_
    refine (ih.typeExpr (by omega)).step fun inner _ _ => ?_
    exact .expect fun _ _ _ => .pure rfl
  · exact .unexpected

theorem structFields_succ : Settled (fuel + 1) (fuel' + 1) 2 (·.length + 1) Read.structFields := by
  intro n hn
  rw [Read.structFields, Read.structFields]
  refine .peek fun next => ?_
  split
  · exact .expect fun _ _ _ => .pure rfl
  · refine .start fun s => .peekSecond fun second => ?_
    extract_lets embedded jp jp'
    have hjp : ∀ ns, Accord Anywhere n (·.length + 1) (jp ns) (jp' ns) := by
      intro ns
      refine (ih.typeExpr (by omega)).step fun type m hm => .peek fun after => ?_
      extract_lets label done done'
      have hdone : Accord Anywhere m (·.length + 1 - 1) (done ()) (done' ()) :=
        .tag fun t => .endStatement fun _ => (ih.structFields (by omega)).step fun fs _ _ =>
          .pure (by simp)
      split
      · exact .of_anywhere (.takeAny fun _ => hdone)
      · exact hdone.of_anywhere
    split
    · exact .of_anywhere (.ret (hjp []))
    · exact .pass ((ih.names (by omega)).of_le (Nat.le_refl n) fun _ => Nat.zero_le _) hjp

theorem interfaceMethods_succ :
    Settled (fuel + 1) (fuel' + 1) 2 (·.length + 1) Read.interfaceMethods := by
  intro n hn
  rw [Read.interfaceMethods, Read.interfaceMethods]
  refine .peek fun next => ?_
  split
  · exact .expect fun _ _ _ => .pure rfl
  · refine .start fun s => .peekSecond fun second => ?_
    extract_lets jp jp'
    have hjp : ∀ m, m + 1 ≤ n → ∀ ns type, Accord Anywhere m (·.length + 1 - 1) (jp (ns, type))
        (jp' (ns, type)) := by
      intro m hm ns type
      refine .tag fun t => .endStatement fun _ => ?_
      refine (ih.interfaceMethods (by omega)).step fun fs _ _ => ?_
      exact .pure (by simp)
    split
    · refine .name fun x m hm => .start fun _ => ?_
      refine (ih.signature (by omega)).step fun sig k hk => ?_
      exact .tag fun t => .ret ((hjp m hm [x] _).of_le (by omega) fun _ => by omega)
    · refine .of_anywhere ?_
      refine (ih.typeExpr (by omega)).step fun type m hm => ?_
      exact .ret (hjp m hm [] type)

theorem signature_succ : Settled (fuel + 1) (fuel' + 1) 2 (fun _ => 1) Read.signature := by
  intro n hn
  rw [Read.signature, Read.signature]
  refine .start fun s => ?_
  refine (ih.parameters (by omega)).step fun ps m hm => .peek fun next => ?_
  extract_lets jp
  have hjp : ∀ k rs, Accord Anywhere k (fun _ => 0) (jp rs) (jp rs) :=
    fun k rs => .tag fun t => .pure rfl
  split
  · refine .of_anywhere ?_
    refine (ih.parameters (by omega)).step fun rs k _ => ?_
    exact hjp k rs
  · split
    · refine .of_anywhere ?_
      refine (ih.typeExpr (by omega)).step fun type k _ => ?_
      exact .tagAt fun t => .ret (hjp k _)
    · exact .of_anywhere (.ret (hjp m []))

theorem parameters_succ : Settled (fuel + 1) (fuel' + 1) 1 (fun _ => 1) Read.parameters := by
  intro n hn
  rw [Read.parameters, Read.parameters]
  refine .expect fun _ m hm => ?_
  refine (ih.params (by omega)).step fun ps _ _ => ?_
  exact .expect fun _ _ _ => (Accord.group [] none ps).of_le (Nat.le_refl _) fun _ => by omega

theorem params_succ : Settled (fuel + 1) (fuel' + 1) 3 List.length Read.params := by
  intro n hn
  rw [Read.params, Read.params]
  refine .at_ fun done => ?_
  split
  · exact .pure rfl
  · refine (ih.param (by omega)).step fun p m hm => .eat fun more => ?_
    split
    · exact (ih.params (by omega)).step fun ps _ _ => .pure (by simp)
    · exact .pure rfl

theorem param_succ : Settled (fuel + 1) (fuel' + 1) 2 (fun _ => 1) Read.param := by
  intro n hn
  rw [Read.param, Read.param]
  refine .start fun s => .peek fun next => ?_
  split
  · refine .name fun x m hm => .peek fun after => ?_
    split
    iterate 2 exact .spanFrom fun _ => .pure rfl
    · refine .takeAny fun _ => .name fun sel _ _ => .tag fun t => ?_
      exact .spanFrom fun _ => .pure rfl
    · refine .takeAny fun _ => ?_
      refine (ih.typeExpr (by omega)).step fun type _ _ => ?_
      exact .spanFrom fun _ => .pure rfl
    · refine .of_anywhere ?_
      refine (ih.typeExpr (by omega)).step fun type _ _ => ?_
      exact .spanFrom fun _ => .pure rfl
  · refine .take (fun _ => Facing.nonempty) fun _ m hm => ?_
    refine (ih.typeExpr (by omega)).step fun type _ _ => ?_
    exact .spanFrom fun _ => .pure rfl
  · refine .of_anywhere ?_
    refine (ih.typeExpr (by omega)).step fun type _ _ => ?_
    exact .spanFrom fun _ => .pure rfl

theorem block_succ : Settled (fuel + 1) (fuel' + 1) 1 (fun _ => 1) Read.block := by
  intro n hn
  rw [Read.block, Read.block]
  refine .start fun s => .expect fun _ m hm => ?_
  refine (ih.stmts (by omega)).withLiterals.step fun body _ _ => .expect fun _ _ _ => ?_
  exact .tag fun t => .pure (by omega)

theorem stmts_succ : Settled (fuel + 1) (fuel' + 1) 10 List.length Read.stmts := by
  intro n hn
  rw [Read.stmts, Read.stmts]
  refine .peek fun next => ?_
  split
  iterate 4 exact .pure rfl
  · refine .take (fun _ => Facing.nonempty) fun _ m hm => ?_
    exact (ih.stmts (by omega)).of_le (Nat.le_refl m) fun _ => Nat.sub_le _ _
  · refine .of_anywhere ?_
    refine (ih.stmt (by omega)).step fun first m hm => .peek fun after => ?_
    extract_lets jp jp'
    have hjp : Accord Anywhere m (·.length - 1) (jp ()) (jp' ()) :=
      (ih.stmts (by omega)).step fun ss _ _ => .pure (by simp)
    split
    iterate 4 exact .of_anywhere (.ret hjp)
    · exact .endStatement fun _ => hjp

theorem stmt_succ : Settled (fuel + 1) (fuel' + 1) 9 (fun _ => 1) Read.stmt := by
  intro n hn
  rw [Read.stmt, Read.stmt]
  refine .start fun s => .peek fun next => ?_
  split
  iterate 3
    refine .of_anywhere ?_
    refine (ih.decl (by omega)).step fun d _ _ => ?_
    exact .tag fun t => .pure rfl
  iterate 2
    refine .take (fun _ => Facing.nonempty) fun _ m hm => ?_
    refine (ih.expr (by omega)).step fun e _ _ => ?_
    exact .tag fun t => .pure (by omega)
  · refine .take (fun _ => Facing.nonempty) fun _ m hm => .peek fun after => ?_
    extract_lets jp
    have hjp : ∀ k es, Accord Anywhere k (fun _ => 0) (jp es) (jp es) :=
      fun k es => .tag fun t => .pure rfl
    split
    iterate 3 exact .of_anywhere (.ret (hjp m []))
    refine .of_anywhere ?_
    exact (ih.exprs (by omega)).step fun es k _ => (hjp k es).of_le (Nat.le_refl k)
      fun _ => by omega
  · refine .of_anywhere ?_
    refine (ih.block (by omega)).step fun b _ _ => ?_
    exact .tag fun t => .pure rfl
  · exact (ih.ifElse (by omega)).of_anywhere
  · exact (ih.loop (by omega)).of_anywhere
  · exact (ih.switch (by omega)).of_anywhere
  · exact (ih.select (by omega)).of_anywhere
  · split
    · rename_i kind hkind
      refine .take (fun c hc => ?_) fun _ m hm => .peek fun after => ?_
      · cases next with
        | none => simp at hkind
        | some t => exact hc.nonempty
      · extract_lets jp
        have hjp : ∀ k label, Accord Anywhere k (fun _ => 0) (jp label) (jp label) :=
          fun k label => .tag fun t => .pure rfl
        split
        · split
          · exact .of_anywhere (.ret (hjp m none))
          · exact .name fun label k _ => .ret (hjp k (some label))
        · exact .of_anywhere (.ret (hjp m none))
    · refine .peekSecond fun second => ?_
      split
      · refine .name fun label m hm => .takeAny fun _ => ?_
        refine (ih.stmt (by omega)).step fun inner _ _ => ?_
        exact .tag fun t => .pure rfl
      · refine .of_anywhere ?_
        refine (ih.simple (by omega)).step fun inner _ _ => ?_
        exact .tag fun t => .pure rfl

theorem simple_succ : Settled (fuel + 1) (fuel' + 1) 8 (fun _ => 1) Read.simple := by
  intro n hn
  rw [Read.simple, Read.simple]
  refine .start fun s => .get fun c => ?_
  split
  · refine (ih.names (by omega)).step fun ns _ _ => .expect fun _ k hk => ?_
    refine (ih.exprs (by omega)).step fun vs _ _ => ?_
    exact .tag fun t => .pure (by omega)
  · refine (ih.exprs (by omega)).step fun lhs m hm => .peek fun next => ?_
    split
    iterate 2
      refine .single fun e => .takeAny fun _ => ?_
      exact .tag fun t => .pure (by omega)
    · refine .single fun e => .takeAny fun _ => ?_
      refine (ih.expr (by omega)).step fun value _ _ => ?_
      exact .tag fun t => .pure (by omega)
    · exact .spanFrom fun _ => .fail (by simp)
    · split
      · refine .takeAny fun _ => ?_
        refine (ih.exprs (by omega)).step fun rhs _ _ => ?_
        exact .tag fun t => .pure (by omega)
      · exact .single fun e => .tag fun t => .pure (by omega)

theorem ifElse_succ : Settled (fuel + 1) (fuel' + 1) 1 (fun _ => 1) Read.ifElse := by
  intro n hn
  rw [Read.ifElse, Read.ifElse]
  refine .start fun s => .expect fun _ m hm => .pass (.withLiterals (.eat fun semi => ?_)) ?_
  · split
    · exact (ih.expr (by omega)).step fun cond _ _ => .pure (by omega)
    · refine (ih.simple (by omega)).step fun first k hk => .eat fun more => ?_
      split
      · exact (ih.expr (by omega)).step fun cond _ _ => .pure (by omega)
      · exact .exprOf fun cond => .pure rfl
  · rintro ⟨init, cond⟩
    refine (ih.block (by omega)).step fun yes k hk => .eat fun else_ => ?_
    extract_lets jp
    have hjp : ∀ k no, Accord Anywhere k (fun _ => 0) (jp no) (jp no) :=
      fun k no => .tag fun t => .pure rfl
    split
    · refine .peek fun next => ?_
      split
      · refine .of_anywhere ?_
        refine (ih.ifElse (by omega)).step fun no k _ => ?_
        exact .ret (hjp k _)
      · refine .start fun _ => .of_anywhere ?_
        refine (ih.block (by omega)).step fun b k _ => ?_
        exact .tag fun t => .ret (hjp k _)
      · exact .failsThen .unexpected fun _ _ => Read.unexpected_not_ok
    · exact .ret (hjp k none)

theorem loop_succ : Settled (fuel + 1) (fuel' + 1) 1 (fun _ => 1) Read.loop := by
  intro n hn
  rw [Read.loop, Read.loop]
  refine .start fun s => .expect fun _ m hm => ?_
  refine (ih.loopHead (by omega)).withLiterals.step fun head k hk => ?_
  refine (ih.block (by omega)).step fun body _ _ => ?_
  exact .tag fun t => .pure rfl

theorem loopHead_succ : Settled (fuel + 1) (fuel' + 1) 9 (fun _ => 0) Read.loopHead := by
  intro n hn
  rw [Read.loopHead, Read.loopHead]
  refine .at_ fun forever => ?_
  split
  · exact .pure rfl
  · refine .eat fun bare => ?_
    split
    · exact (ih.expr (by omega)).step fun e _ _ => .pure (by omega)
    · refine .get fun c => ?_
      split
      · refine (ih.expr (by omega)).step fun key m hm => .eat fun more => ?_
        extract_lets jp jp'
        have hjp : ∀ k, k ≤ m → ∀ value, Accord Anywhere k (fun _ => 0) (jp value) (jp' value) :=
          fun k hk value => .takeAny fun _ => .expect fun _ k' hk' => (ih.expr (by omega)).step
            fun e _ _ => .pure (by omega)
        split
        · refine (ih.expr (by omega)).step fun v k hk => ?_
          exact .ret ((hjp k (by omega) _).of_le (Nat.le_refl k) fun _ => by omega)
        · exact .ret ((hjp m (Nat.le_refl m) none).of_le (Nat.le_refl m) fun _ => by omega)
      · refine .eat fun semi => ?_
        split
        · exact (ih.clauseHead _ (by omega)).of_le (Nat.le_refl n) fun _ => Nat.zero_le _
        · refine (ih.simple (by omega)).step fun init m hm => .eat fun more => ?_
          split
          · exact (ih.clauseHead _ (by omega)).of_le (Nat.le_refl m) fun _ => Nat.zero_le _
          · exact .exprOf fun e => .pure rfl

theorem clauseHead_succ (init : Option Simple) :
    Settled (fuel + 1) (fuel' + 1) 7 (fun _ => 1) (Read.clauseHead · init) := by
  intro n hn
  dsimp only
  rw [Read.clauseHead, Read.clauseHead]
  refine .at_ fun bare => ?_
  extract_lets jp jp'
  have hjp : ∀ cond, Accord Anywhere n (fun _ => 1) (jp cond) (jp' cond) := by
    refine fun cond => .expect fun _ m hm => .at_ fun done => ?_
    extract_lets last
    have hlast : ∀ k post, Accord Anywhere k (fun _ => 0) (last post) (last post) :=
      fun k post => .pure rfl
    split
    · exact .ret (hlast m none)
    · exact (ih.simple (by omega)).step fun p k _ => .ret (hlast k _)
  split
  · exact .ret (hjp none)
  · refine .pass ((ih.expr (by omega)).of_le (Nat.le_refl n) fun _ => Nat.zero_le _) fun e => ?_
    exact .ret (hjp _)

theorem switch_succ : Settled (fuel + 1) (fuel' + 1) 1 (fun _ => 1) Read.switch := by
  intro n hn
  rw [Read.switch, Read.switch]
  refine .start fun s => .expect fun _ m hm => (ih.switchHead (by omega)).withLiterals.step ?_
  rintro ⟨init, subject⟩ k hk
  refine .expect fun _ k' hk' => ?_
  refine (ih.clauses _ (by omega)).step fun cs k'' hk'' => .expect fun _ l hl => ?_
  dsimp only
  split
  · exact .tag fun t => .pure (by omega)
  · cases subject with
    | none => exact .ret (.tag fun t => .pure (by omega))
    | some simple => exact .exprOf fun e => .ret (.tag fun t => .pure (by omega))

theorem switchHead_succ : Settled (fuel + 1) (fuel' + 1) 9 (fun _ => 0) Read.switchHead := by
  intro n hn
  rw [Read.switchHead, Read.switchHead]
  refine .at_ fun bare => ?_
  split
  · exact .pure rfl
  · refine .at_ fun semi => ?_
    extract_lets jp jp'
    have hjp : ∀ first, Accord Anywhere n (fun _ => 0) (jp first) (jp' first) := by
      refine fun first => .eat fun more => ?_
      split
      · refine .at_ fun done => ?_
        split
        · exact .pure rfl
        · exact (ih.simple (by omega)).step fun p _ _ => .pure rfl
      · exact .pure rfl
    split
    · exact .ret (hjp none)
    · refine .pass ((ih.simple (by omega)).of_le (Nat.le_refl n) fun _ => Nat.zero_le _) fun p => ?_
      exact .ret (hjp _)

theorem clauses_succ (types : Bool) :
    Settled (fuel + 1) (fuel' + 1) 2 List.length (Read.clauses · types) := by
  intro n hn
  dsimp only
  rw [Read.clauses, Read.clauses]
  refine .peek fun next => ?_
  split
  · refine .of_anywhere ?_
    refine (ih.clause _ (by omega)).step fun c m hm => ?_
    refine (ih.clauses _ (by omega)).step fun cs _ _ => ?_
    exact .pure (by simp)
  · exact .pure rfl

theorem clause_succ (types : Bool) :
    Settled (fuel + 1) (fuel' + 1) 1 (fun _ => 1) (Read.clause · types) := by
  intro n hn
  dsimp only
  rw [Read.clause, Read.clause]
  refine .start fun s => .eat fun isDefault => ?_
  extract_lets jp jp'
  have hjp : ∀ k, k ≤ n → ∀ cases, Accord Anywhere k (fun _ => 1) (jp cases) (jp' cases) :=
    fun k hk cases => .expect fun _ k' hk' => (ih.stmts (by omega)).step fun body _ _ =>
      .tag fun t => .pure (by omega)
  split
  · exact .ret (hjp n (Nat.le_refl n) _)
  · refine .expect fun _ m hm => ?_
    split
    · refine (ih.typeExprs (by omega)).step fun ts k hk => ?_
      exact .ret ((hjp k (by omega) _).of_le (Nat.le_refl k) fun _ => by omega)
    · refine (ih.exprs (by omega)).step fun es k hk => ?_
      exact .ret ((hjp k (by omega) _).of_le (Nat.le_refl k) fun _ => by omega)

theorem select_succ : Settled (fuel + 1) (fuel' + 1) 1 (fun _ => 1) Read.select := by
  intro n hn
  rw [Read.select, Read.select]
  refine .start fun s => .expect fun _ m hm => .expect fun _ k hk => ?_
  refine (ih.comms (by omega)).step fun cs _ _ => .expect fun _ _ _ => ?_
  exact .tag fun t => .pure (by omega)

theorem comms_succ : Settled (fuel + 1) (fuel' + 1) 2 List.length Read.comms := by
  intro n hn
  rw [Read.comms, Read.comms]
  refine .peek fun next => ?_
  split
  · refine .of_anywhere ?_
    refine (ih.comm (by omega)).step fun c m hm => ?_
    refine (ih.comms (by omega)).step fun cs _ _ => ?_
    exact .pure (by simp)
  · exact .pure rfl

theorem comm_succ : Settled (fuel + 1) (fuel' + 1) 1 (fun _ => 1) Read.comm := by
  intro n hn
  rw [Read.comm, Read.comm]
  refine .start fun s => .eat fun isDefault => ?_
  extract_lets jp jp'
  have hjp : ∀ k, k ≤ n → ∀ guard, Accord Anywhere k (fun _ => 1) (jp guard) (jp' guard) :=
    fun k hk guard => .expect fun _ k' hk' => (ih.stmts (by omega)).step fun body _ _ =>
      .tag fun t => .pure (by omega)
  split
  · exact .ret (hjp n (Nat.le_refl n) none)
  · refine .expect fun _ m hm => ?_
    refine (ih.simple (by omega)).step fun p k hk => ?_
    exact .ret ((hjp k (by omega) _).of_le (Nat.le_refl k) fun _ => by omega)

theorem exprs_succ : Settled (fuel + 1) (fuel' + 1) 7 (fun es => max 1 es.length) Read.exprs := by
  intro n hn
  rw [Read.exprs, Read.exprs]
  refine (ih.expr (by omega)).step fun e m hm => .eat fun more => ?_
  split
  · exact (ih.exprs (by omega)).step fun es _ _ => .pure (by rw [List.length_cons]; omega)
  · exact .pure (by simp)

theorem typeExprs_succ :
    Settled (fuel + 1) (fuel' + 1) 2 (fun ts => max 1 ts.length) Read.typeExprs := by
  intro n hn
  rw [Read.typeExprs, Read.typeExprs]
  refine (ih.typeExpr (by omega)).step fun t m hm => .eat fun more => ?_
  split
  · exact (ih.typeExprs (by omega)).step fun ts _ _ => .pure (by rw [List.length_cons]; omega)
  · exact .pure rfl

theorem expr_succ : Settled (fuel + 1) (fuel' + 1) 6 (·.steps + 1) Read.expr := by
  intro n hn
  rw [Read.expr, Read.expr]
  exact ih.binary _ (by omega)

theorem binary_succ (least : Nat) :
    Settled (fuel + 1) (fuel' + 1) 5 (·.steps + 1) (Read.binary · least) := by
  intro n hn
  dsimp only
  rw [Read.binary, Read.binary]
  refine .start fun s => ?_
  refine (ih.unary (by omega)).step fun x m hm => ?_
  exact (ih.binaryRest _ _ _ (by omega)).of_le (Nat.le_refl m) fun _ => by omega

theorem binaryRest_succ (least s : Nat) (x : Expr) :
    Settled (fuel + 1) (fuel' + 1) 1 (·.steps - x.steps) (Read.binaryRest · least s x) := by
  intro n hn
  dsimp only
  rw [Read.binaryRest, Read.binaryRest]
  refine .peek fun next => ?_
  split
  · exact .pure (Nat.sub_self _)
  · rename_i op hop
    split
    · exact .pure (Nat.sub_self _)
    · refine .take (fun c hc => ?_) fun _ m hm => (ih.binary _ (by omega)).step fun right k hk =>
        .tag fun t => (ih.binaryRest _ _ _ (by omega)).of_le (Nat.le_refl k) fun _ => ?_
      · cases next with
        | none => simp at hop
        | some t => exact hc.nonempty
      · simp only [Expr.steps]
        omega

theorem unary_succ : Settled (fuel + 1) (fuel' + 1) 4 (·.steps + 1) Read.unary := by
  intro n hn
  rw [Read.unary, Read.unary]
  refine .start fun s => .peek fun next => ?_
  split
  · exact (ih.primary (by omega)).of_anywhere
  · rename_i op hop
    refine .take (fun c hc => ?_) fun _ m hm => (ih.unary (by omega)).step fun e _ _ =>
      .tag fun t => .pure (by simp [Expr.steps])
    cases next with
    | none => simp at hop
    | some t => exact hc.nonempty

theorem primary_succ : Settled (fuel + 1) (fuel' + 1) 3 (·.steps + 1) Read.primary := by
  intro n hn
  rw [Read.primary, Read.primary]
  refine .start fun s => ?_
  refine (ih.operand (by omega)).step fun x m hm => ?_
  exact (ih.primaryRest _ _ (by omega)).of_le (Nat.le_refl m) fun _ => by omega

theorem primaryRest_succ (s : Nat) (x : Expr) :
    Settled (fuel + 1) (fuel' + 1) 2 (·.steps - x.steps) (Read.primaryRest · s x) := by
  intro n hn
  dsimp only
  rw [Read.primaryRest, Read.primaryRest]
  refine .peek fun next => ?_
  split
  · refine .take (fun _ => Facing.nonempty) fun _ m hm => .eat fun isAssert => ?_
    split
    · refine .eat fun isSwitch => ?_
      extract_lets jp jp'
      have hjp : ∀ k, k ≤ m → ∀ type,
          Accord Anywhere k (·.steps - x.steps - 1) (jp type) (jp' type) :=
        fun k hk type => .expect fun _ l hl => .tag fun t =>
          (ih.primaryRest _ _ (by omega)).of_le (Nat.le_refl l) fun _ => by
            simp only [Expr.steps]
            omega
      split
      · exact .ret (hjp m (Nat.le_refl m) none)
      · refine (ih.typeExpr (by omega)).step fun t k hk => ?_
        exact .ret ((hjp k (by omega) _).of_le (Nat.le_refl k) fun _ => Nat.sub_le _ _)
    · exact .name fun sel k hk => .tag fun t =>
        (ih.primaryRest _ _ (by omega)).of_le (Nat.le_refl k) fun _ => by
          simp only [Expr.steps]
          omega
  · refine .take (fun _ => Facing.nonempty) fun _ m hm => ?_
    refine (ih.bracket x (by omega)).withLiterals.stepOf (P :=
      fun build => ∀ t, (build t).steps = x.steps + 1) (fun c build c' h => ?_) fun build k hbuild
      hk => .expect fun _ l hl => .tag fun t => (ih.primaryRest _ _ (by omega)).of_le (Nat.le_refl
      l) fun _ => ?_
    · obtain ⟨d, d', _, h, _⟩ := Read.withLiterals_ok h
      exact Expr.steps_bracket h
    · rw [hbuild t]
      omega
  · refine .take (fun _ => Facing.nonempty) fun _ m hm => ?_
    refine (ih.arguments (by omega)).withLiterals.step ?_
    rintro ⟨args, spread⟩ k hk
    exact .expect fun _ l hl => .tag fun t =>
      (ih.primaryRest _ _ (by omega)).of_le (Nat.le_refl l) fun _ => by
        simp only [Expr.steps]
        omega
  · refine .get fun c => ?_
    split
    · exact .pure (Nat.sub_self _)
    · refine .tagAt fun t => ?_
      refine (ih.composite _ _ (by omega)).step fun e k hk => ?_
      exact (ih.primaryRest _ _ (by omega)).of_le (Nat.le_refl k) fun _ => by omega
  · exact .pure (Nat.sub_self _)

theorem bracket_succ (x : Expr) :
    Settled (fuel + 1) (fuel' + 1) 7 (fun _ => 0) (Read.bracket · x) := by
  intro n hn
  dsimp only
  rw [Read.bracket, Read.bracket]
  refine .at_ fun open_ => ?_
  extract_lets jp jp'
  have hjp : ∀ lo, Accord Anywhere n (fun _ => 0) (jp lo) (jp' lo) := by
    refine fun lo => .eat fun slices => ?_
    split
    · refine .peek fun next => ?_
      extract_lets hiJp hiJp'
      have hhi : ∀ hi, Accord Anywhere n (fun _ => 0) (hiJp hi) (hiJp' hi) := by
        refine fun hi => .eat fun full => ?_
        extract_lets maxJp
        have hmax : ∀ max, Accord Anywhere n (fun _ => 0) (maxJp max) (maxJp max) :=
          fun max => .pure rfl
        split
        · refine .pass ((ih.expr (by omega)).of_le (Nat.le_refl n) fun _ => Nat.zero_le _)
            fun e => ?_
          exact .ret (hmax _)
        · exact .ret (hmax none)
      split
      · exact .of_anywhere (.ret (hhi none))
      · refine .pass ((ih.expr (by omega)).of_le (Nat.le_refl n) fun _ => Nat.zero_le _) fun e => ?_
        exact .ret (hhi _)
    · cases lo with
      | some e => exact .pure rfl
      | none => exact .unexpected
  split
  · exact .ret (hjp none)
  · refine .pass ((ih.expr (by omega)).of_le (Nat.le_refl n) fun _ => Nat.zero_le _) fun e => ?_
    exact .ret (hjp _)

theorem arguments_succ : Settled (fuel + 1) (fuel' + 1) 7 (·.1.length) Read.arguments := by
  intro n hn
  rw [Read.arguments, Read.arguments]
  refine .at_ fun done => ?_
  split
  · exact .pure rfl
  · refine (ih.expr (by omega)).step fun e m hm => .eat fun spread => .eat fun more => ?_
    split
    · refine (ih.arguments (by omega)).step ?_
      rintro ⟨es, further⟩ _ _
      exact .pure (by simp)
    · exact .pure (by simp)

theorem composite_succ (s : Nat) (type : Option TypeExpr) :
    Settled (fuel + 1) (fuel' + 1) 1 (·.steps + 1) (Read.composite · s type) := by
  intro n hn
  dsimp only
  rw [Read.composite, Read.composite]
  refine .expect fun _ m hm => ?_
  refine (ih.elements (by omega)).withLiterals.step fun elems _ _ => .expect fun _ _ _ => ?_
  exact .tag fun t => .pure (by simp [Expr.steps])

theorem elements_succ : Settled (fuel + 1) (fuel' + 1) 8 List.length Read.elements := by
  intro n hn
  rw [Read.elements, Read.elements]
  refine .at_ fun done => ?_
  split
  · exact .pure rfl
  · refine (ih.element (by omega)).step fun first m hm => .eat fun keyed => ?_
    extract_lets jp jp'
    have hjp : ∀ k, k ≤ m → ∀ elem, Accord Anywhere k (·.length - 1) (jp elem) (jp' elem) := by
      refine fun k hk elem => .eat fun more => ?_
      split
      · exact (ih.elements (by omega)).step fun es _ _ => .pure (by simp)
      · exact .pure rfl
    split
    · refine (ih.element (by omega)).step fun value k hk => ?_
      exact .ret ((hjp k (by omega) _).of_le (Nat.le_refl k) fun _ => Nat.sub_le _ _)
    · exact .ret (hjp m (Nat.le_refl m) _)

theorem element_succ : Settled (fuel + 1) (fuel' + 1) 7 (fun _ => 1) Read.element := by
  intro n hn
  rw [Read.element, Read.element]
  refine .at_ fun bare => ?_
  split
  · exact .start fun s => (ih.composite _ _ (by omega)).of_le (Nat.le_refl n) fun _ => by omega
  · exact (ih.expr (by omega)).of_le (Nat.le_refl n) fun _ => by omega

theorem operand_succ : Settled (fuel + 1) (fuel' + 1) 2 (·.steps + 1) Read.operand := by
  intro n hn
  have hliteral {t : Token} (s : Nat) (kind : LitKind) (text : String) :
      Accord (Facing (some t)) n (·.steps + 1) (Read.operand.literal s kind text)
        (Read.operand.literal s kind text) :=
    .take (fun _ => Facing.nonempty) fun _ _ _ => .tag fun t => .pure rfl
  rw [Read.operand, Read.operand]
  refine .start fun s => .peek fun next => ?_
  split
  · exact .take (fun _ => Facing.nonempty) fun _ _ _ => .tag fun t => .pure rfl
  iterate 6 exact hliteral s _ _
  · refine .take (fun _ => Facing.nonempty) fun _ m hm => ?_
    refine (ih.expr (by omega)).withLiterals.step fun inner _ _ => .expect fun _ _ _ => ?_
    exact .tag fun t => .pure (by simp [Expr.steps])
  · refine .take (fun _ => Facing.nonempty) fun _ m hm => ?_
    refine (ih.signature (by omega)).step fun sig k hk => .at_ fun bodied => ?_
    split
    · refine (ih.block (by omega)).withLiterals.step fun body _ _ => ?_
      exact .tag fun t => .pure rfl
    · exact .tag fun t => .tag fun u => .pure rfl
  iterate 5
    refine .of_anywhere ?_
    refine (ih.typeExpr (by omega)).step fun type _ _ => ?_
    exact .tag fun t => .pure rfl
  · exact .unexpected

theorem decl_succ : Settled (fuel + 1) (fuel' + 1) 4 (fun _ => 1) Read.decl := by
  intro n hn
  rw [Read.decl, Read.decl]
  refine .start fun s => .takeAny fun p => .eat fun grouped => ?_
  split
  · refine (ih.specs _ (by omega)).step fun ss _ _ => .expect fun _ _ _ => ?_
    exact .tag fun t => .pure (by omega)
  · refine (ih.spec _ (by omega)).step fun one _ _ => ?_
    exact .tag fun t => .pure rfl

theorem specs_succ (kind : DeclKind) :
    Settled (fuel + 1) (fuel' + 1) 3 List.length (Read.specs · kind) := by
  intro n hn
  dsimp only
  rw [Read.specs, Read.specs]
  refine .peek fun next => ?_
  split
  · exact .pure rfl
  · refine .of_anywhere ?_
    refine (ih.spec _ (by omega)).step fun one m hm => .endStatement fun _ => ?_
    refine (ih.specs _ (by omega)).step fun ss _ _ => ?_
    exact .pure (by simp)

theorem spec_succ (kind : DeclKind) :
    Settled (fuel + 1) (fuel' + 1) 2 (fun _ => 1) (Read.spec · kind) := by
  intro n hn
  dsimp only
  rw [Read.spec, Read.spec]
  refine .start fun s => ?_
  split
  · refine .peek fun next => ?_
    extract_lets jp
    have hjp : ∀ k x, Accord Anywhere k (fun _ => 1) (jp x) (jp x) := by
      refine fun k x => .peek fun after => ?_
      split
      · rename_i path hpath
        refine .take (fun c hc => ?_) fun _ _ _ => .tag fun t => .pure rfl
        cases after with
        | none => simp [Read.isText] at hpath
        | some t => exact hc.nonempty
      · exact .unexpected
    split
    · exact .name fun x k _ => .ret ((hjp k _).of_le (Nat.le_refl k) fun _ => by omega)
    · exact .takeAny fun p => .tagAt fun t => .ret (hjp n _)
    · exact .of_anywhere (.ret (hjp n none))
  · refine .name fun x m hm => .eat fun isAlias => ?_
    refine (ih.typeExpr (by omega)).step fun type _ _ => ?_
    exact .tag fun t => .pure rfl
  all_goals
    refine (ih.names (by omega)).step fun ns m hm => .peek fun next => ?_
    extract_lets jp jp'
    have hjp : ∀ k, k + 1 ≤ n → ∀ type, Accord Anywhere k (fun _ => 0) (jp type) (jp' type) := by
      refine fun k hk type => .eat fun more => ?_
      extract_lets last
      have hlast : ∀ k vs, Accord Anywhere k (fun _ => 0) (last vs) (last vs) :=
        fun k vs => .tag fun t => .pure rfl
      split
      · exact (ih.exprs (by omega)).step fun vs l _ =>
          (hlast l vs).of_le (Nat.le_refl l) fun _ => by omega
      · exact .ret (hlast k [])
    split
    iterate 4
      exact .ret ((hjp m (by omega) none).of_le (Nat.le_refl m) fun _ => by omega)
    refine .of_anywhere ?_
    refine (ih.typeExpr (by omega)).step fun type k hk => ?_
    exact .ret ((hjp k (by omega) _).of_le (Nat.le_refl k) fun _ => by omega)

end Productions

/-- Every production settles its cursor with all budgets that are large enough. -/
theorem productions_settled (fuel fuel' : Nat) : Productions (Settled fuel fuel') := by
  induction fuel generalizing fuel' with
  | zero =>
    constructor <;> intros <;> intro n hn <;> omega
  | succ fuel ih =>
    cases fuel' with
    | zero => constructor <;> intros <;> intro n hn <;> omega
    | succ fuel' =>
      have ih := ih fuel'
      exact {
      names := ih.names_succ
      typeExpr := ih.typeExpr_succ
      structFields := ih.structFields_succ
      interfaceMethods := ih.interfaceMethods_succ
      signature := ih.signature_succ
      parameters := ih.parameters_succ
      params := ih.params_succ
      param := ih.param_succ
      block := ih.block_succ
      stmts := ih.stmts_succ
      stmt := ih.stmt_succ
      simple := ih.simple_succ
      ifElse := ih.ifElse_succ
      loop := ih.loop_succ
      loopHead := ih.loopHead_succ
      clauseHead := ih.clauseHead_succ
      switch := ih.switch_succ
      switchHead := ih.switchHead_succ
      clauses := ih.clauses_succ
      clause := ih.clause_succ
      select := ih.select_succ
      comms := ih.comms_succ
      comm := ih.comm_succ
      exprs := ih.exprs_succ
      typeExprs := ih.typeExprs_succ
      expr := ih.expr_succ
      binary := ih.binary_succ
      binaryRest := ih.binaryRest_succ
      unary := ih.unary_succ
      primary := ih.primary_succ
      primaryRest := ih.primaryRest_succ
      bracket := ih.bracket_succ
      arguments := ih.arguments_succ
      composite := ih.composite_succ
      elements := ih.elements_succ
      element := ih.element_succ
      operand := ih.operand_succ
      decl := ih.decl_succ
      specs := ih.specs_succ
      spec := ih.spec_succ }

theorem funcDecl_settled (fuel fuel' : Nat) : Settled fuel fuel' 0 (fun _ => 1) Read.funcDecl := by
  have all := productions_settled fuel fuel'
  intro n hn
  rw [Read.funcDecl, Read.funcDecl]
  refine .start fun s => .expect fun _ m hm => .at_ fun method => ?_
  extract_lets jp jp'
  have hjp : ∀ k, k ≤ m → ∀ recv, Accord Anywhere k (fun _ => 0) (jp recv) (jp' recv) := by
    refine fun k hk recv => .name fun x l hl => (all.signature (by omega)).step fun sig l' hl' =>
      .at_ fun bodied => ?_
    extract_lets last
    have hlast : ∀ k body, Accord Anywhere k (fun _ => 0) (last body) (last body) :=
      fun k body => .tag fun t => .pure rfl
    split
    · exact (all.block (by omega)).withLiterals.step fun b k _ => .ret (hlast k _)
    · exact .ret (hlast l' none)
  split
  · refine .start fun _ => (all.parameters (by omega)).step fun ps k hk => ?_
    split
    · exact .ret (hjp k (by omega) _)
    · exact .spanFrom fun _ => .failsThen (.fail (by simp)) fun _ _ => Read.fail_not_ok
  · exact .ret (hjp m (Nat.le_refl m) none)

theorem topDecls_settled (fuel fuel' : Nat) : Settled fuel fuel' 5 List.length Read.topDecls := by
  induction fuel generalizing fuel' with
  | zero => intro n hn; omega
  | succ fuel ih =>
    cases fuel' with
    | zero => intro n hn; omega
    | succ fuel' =>
      have all := productions_settled fuel fuel'
      intro n hn
      rw [Read.topDecls, Read.topDecls]
      refine .peek fun next => ?_
      split
      · exact .pure rfl
      · exact .take (fun _ => Facing.nonempty) fun _ m hm =>
          (ih fuel' (by omega)).of_le (Nat.le_refl m) fun _ => Nat.sub_le _ _
      · extract_lets jp jp'
        have hjp : ∀ m, m + 1 ≤ n → ∀ d, Accord Anywhere m (·.length - 1) (jp d) (jp' d) := by
          refine fun m hm d => .at_ fun paren => .at_ fun brace => ?_
          extract_lets last last'
          have hlast : Accord Anywhere m (·.length - 1) (last ()) (last' ()) :=
            .endStatement fun _ => (ih fuel' (by omega)).step fun ds _ _ => .pure (by simp)
          split
          · exact .failsThen .unexpected fun _ _ => Read.unexpected_not_ok
          · exact .ret hlast
        split
        · exact .of_anywhere ((funcDecl_settled fuel fuel' (by omega)).step fun f m hm =>
            .ret (hjp m hm _))
        · split
          · exact .of_anywhere ((all.decl (by omega)).step fun d m hm => .ret (hjp m hm _))
          · exact .failsThen .unexpected fun _ _ => Read.unexpected_not_ok

theorem sourceFile_settled (fuel fuel' : Nat) :
    Settled fuel fuel' 0 (·.decls.length + 1) Read.sourceFile := by
  intro n hn
  rw [Read.sourceFile, Read.sourceFile]
  exact .start fun s => .expect fun _ m hm => .name fun x k hk => .tag fun t =>
    .endStatement fun _ => (topDecls_settled fuel fuel' (by omega)).step fun ds _ _ =>
      .pure (by simp)

theorem Accord.comments {pre : Cursor → Prop} {n : Nat} (cs : List LooseComment) :
    Accord pre n (fun _ => 0) (Read.comments cs) (Read.comments cs) := by
  induction cs generalizing pre with
  | nil => exact .pure rfl
  | cons c cs ih => exact .tagAt fun _ => ih.pass fun _ => .pure rfl

theorem Accord.commentGroups {pre : Cursor → Prop} {n : Nat} (gs : List (List LooseComment)) :
    Accord pre n (fun _ => 0) (Read.commentGroups gs) (Read.commentGroups gs) := by
  induction gs generalizing pre with
  | nil => exact .pure rfl
  | cons g gs ih => exact (Accord.comments g).pass fun _ => .tagAt fun _ => ih.pass fun _ => .pure rfl

/-- A production of a rank ends: from 32 units of budget for each token ahead and its rank more, it
gives one answer however large the budget is, never that the budget is used up, and if it succeeds it
took at least so many tokens. -/
def Read.Bounded {α : Type} (rank : Nat) (least : α → Nat) (r : Nat → Read α) : Prop :=
  ∀ c fuel, 32 * c.ahead.length + rank ≤ fuel →
    (∀ fuel', fuel ≤ fuel' → r fuel' c = r fuel c) ∧
    (∀ span, r fuel c ≠ .error ⟨.parse .exhausted, span⟩) ∧
    ∀ a c', r fuel c = .ok (a, c') → c'.ahead.length + least a ≤ c.ahead.length

theorem Read.Bounded.of_settled {α : Type} {rank : Nat} {least : α → Nat} {r : Nat → Read α}
    (h : ∀ fuel fuel', Settled fuel fuel' rank least r) : Bounded rank least r := by
  intro c fuel hfuel
  have hsettles (fuel' : Nat) (hle : fuel ≤ fuel') : Settles c least (r fuel c) (r fuel' c) :=
    h fuel fuel' (n := c.ahead.length) (by omega) c trivial (Nat.le_refl _)
  obtain ⟨_, ends, takes⟩ := hsettles fuel (Nat.le_refl fuel)
  exact ⟨fun fuel' hle => (hsettles fuel' hle).same, ends, takes⟩

theorem productions_bounded : Productions Read.Bounded :=
  have settled := productions_settled
  {
    names := .of_settled fun fuel fuel' => (settled fuel fuel').names
    typeExpr := .of_settled fun fuel fuel' => (settled fuel fuel').typeExpr
    structFields := .of_settled fun fuel fuel' => (settled fuel fuel').structFields
    interfaceMethods := .of_settled fun fuel fuel' => (settled fuel fuel').interfaceMethods
    signature := .of_settled fun fuel fuel' => (settled fuel fuel').signature
    parameters := .of_settled fun fuel fuel' => (settled fuel fuel').parameters
    params := .of_settled fun fuel fuel' => (settled fuel fuel').params
    param := .of_settled fun fuel fuel' => (settled fuel fuel').param
    block := .of_settled fun fuel fuel' => (settled fuel fuel').block
    stmts := .of_settled fun fuel fuel' => (settled fuel fuel').stmts
    stmt := .of_settled fun fuel fuel' => (settled fuel fuel').stmt
    simple := .of_settled fun fuel fuel' => (settled fuel fuel').simple
    ifElse := .of_settled fun fuel fuel' => (settled fuel fuel').ifElse
    loop := .of_settled fun fuel fuel' => (settled fuel fuel').loop
    loopHead := .of_settled fun fuel fuel' => (settled fuel fuel').loopHead
    clauseHead := fun a => .of_settled fun fuel fuel' => (settled fuel fuel').clauseHead a
    switch := .of_settled fun fuel fuel' => (settled fuel fuel').switch
    switchHead := .of_settled fun fuel fuel' => (settled fuel fuel').switchHead
    clauses := fun a => .of_settled fun fuel fuel' => (settled fuel fuel').clauses a
    clause := fun a => .of_settled fun fuel fuel' => (settled fuel fuel').clause a
    select := .of_settled fun fuel fuel' => (settled fuel fuel').select
    comms := .of_settled fun fuel fuel' => (settled fuel fuel').comms
    comm := .of_settled fun fuel fuel' => (settled fuel fuel').comm
    exprs := .of_settled fun fuel fuel' => (settled fuel fuel').exprs
    typeExprs := .of_settled fun fuel fuel' => (settled fuel fuel').typeExprs
    expr := .of_settled fun fuel fuel' => (settled fuel fuel').expr
    binary := fun a => .of_settled fun fuel fuel' => (settled fuel fuel').binary a
    binaryRest := fun a b c => .of_settled fun fuel fuel' => (settled fuel fuel').binaryRest a b c
    unary := .of_settled fun fuel fuel' => (settled fuel fuel').unary
    primary := .of_settled fun fuel fuel' => (settled fuel fuel').primary
    primaryRest := fun a b => .of_settled fun fuel fuel' => (settled fuel fuel').primaryRest a b
    bracket := fun a => .of_settled fun fuel fuel' => (settled fuel fuel').bracket a
    arguments := .of_settled fun fuel fuel' => (settled fuel fuel').arguments
    composite := fun a b => .of_settled fun fuel fuel' => (settled fuel fuel').composite a b
    elements := .of_settled fun fuel fuel' => (settled fuel fuel').elements
    element := .of_settled fun fuel fuel' => (settled fuel fuel').element
    operand := .of_settled fun fuel fuel' => (settled fuel fuel').operand
    decl := .of_settled fun fuel fuel' => (settled fuel fuel').decl
    specs := fun a => .of_settled fun fuel fuel' => (settled fuel fuel').specs a
    spec := fun a => .of_settled fun fuel fuel' => (settled fuel fuel').spec a }

/-- A text is not refused because the budget of the grammar is used up. -/
theorem Document.ofSource_not_exhausted {source : String} {e : SourceError}
    (h : Document.ofSource source = .error e) : ∀ d ∈ e.diagnostics, d.fault ≠ .parse .exhausted := by
  unfold Document.ofSource at h
  extract_lets text scanned cursor reading at h
  split at h
  · cases h
    intro d hd
    obtain ⟨⟨f, span⟩, _, rfl⟩ := List.mem_map.1 hd
    exact nofun
  · have hreading : Accord Anywhere scanned.tokens.length (fun _ => 0) reading reading :=
      (sourceFile_settled _ _ (by simp only [Document.budget]; omega)).step fun file m hm =>
        (Accord.commentGroups _).pass fun groups => .pure (Nat.zero_sub _)
    split at h
    · rename_i d hd
      cases h
      intro d' hd' hfault
      obtain rfl := List.mem_singleton.1 hd'
      obtain ⟨fault, span⟩ := d'
      cases hfault
      exact (hreading cursor trivial (Nat.le_refl _)).ends span hd
    · cases h

/-- Reading ends on any tokens: with a budget proportional to their number no production is cut short,
more budget makes no difference, and every entry of a list and every step of an expression took a token.
So no text is refused because the budget is used up. -/
theorem Document.reading_bounded :
    Productions Read.Bounded ∧ Read.Bounded 0 (fun _ => 1) Read.funcDecl ∧
      Read.Bounded 5 List.length Read.topDecls ∧
      Read.Bounded 0 (·.decls.length + 1) Read.sourceFile ∧
      ∀ source e, Document.ofSource source = .error e →
        ∀ d ∈ e.diagnostics, d.fault ≠ .parse .exhausted :=
  ⟨productions_bounded, .of_settled funcDecl_settled, .of_settled topDecls_settled,
    .of_settled sourceFile_settled, fun _ _ => Document.ofSource_not_exhausted⟩

end FuncLift
