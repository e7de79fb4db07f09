import FuncLift.Tree.Cursor

/-!
# The grammar

Recursive descent over the tokens. Every production spends one unit of a budget, and so does every
further item of a list; the budget is proportional to the number of tokens and is never used up.
-/
namespace FuncLift

namespace UnaryOp

def ofToken? : Token → Option UnaryOp
  | .punct .plus => some .add
  | .punct .minus => some .sub
  | .punct .bang => some .not
  | .punct .caret => some .xor
  | .punct .star => some .deref
  | .punct .amp => some .addr
  | .punct .arrow => some .recv
  | _ => none

end UnaryOp

namespace BinaryOp

def ofToken? : Token → Option BinaryOp
  | .punct p =>
    match p with
    | .plus => some .add | .minus => some .sub | .star => some .mul | .slash => some .div
    | .percent => some .mod | .amp => some .and | .pipe => some .or | .caret => some .xor
    | .shl => some .shl | .shr => some .shr | .andNot => some .andNot | .lAnd => some .lAnd
    | .lOr => some .lOr | .eqEq => some .eq | .notEq => some .ne | .lt => some .lt
    | .le => some .le | .gt => some .gt | .ge => some .ge
    | _ => none
  | _ => none

end BinaryOp

namespace AssignOp

def ofToken? : Token → Option AssignOp
  | .punct p =>
    match p with
    | .assign => some .plain | .addAssign => some .add | .subAssign => some .sub
    | .mulAssign => some .mul | .divAssign => some .div | .modAssign => some .mod
    | .andAssign => some .and | .orAssign => some .or | .xorAssign => some .xor
    | .shlAssign => some .shl | .shrAssign => some .shr | .andNotAssign => some .andNot
    | _ => none
  | _ => none

end AssignOp

namespace BranchKind

def ofToken? : Token → Option BranchKind
  | .keyword .breakKw => some .break_
  | .keyword .continueKw => some .continue_
  | .keyword .gotoKw => some .goto
  | .keyword .fallthroughKw => some .fallthrough
  | _ => none

end BranchKind

namespace DeclKind

def ofToken? : Token → Option DeclKind
  | .keyword .importKw => some .imports
  | .keyword .constKw => some .consts
  | .keyword .typeKw => some .types
  | .keyword .varKw => some .vars
  | _ => none

end DeclKind

/-- An entry of a parameter list before it is known whether a bare name is a name or a type. -/
inductive Param where
  | bare (name : Name) (span : Span)
  | typed (name : Option Name) (type : TypeExpr) (variadic : Bool) (span : Span)

namespace Read

/-- The type that an operand in front of an opening brace stands for. Under the rule for headers a
bare name there is an operand and the brace opens a body. -/
def literalType? (literals : Bool) : Expr → Option (Tag → TypeExpr)
  | .ident _ n => if literals then some fun t => .named t none n else none
  | .selector _ (.ident _ pkg) sel =>
    if literals then some fun t => .named t (some pkg) sel.text else none
  | .type _ (.array t len elem) => some fun _ => .array t len elem
  | .type _ (.slice t elem) => some fun _ => .slice t elem
  | .type _ (.map t k v) => some fun _ => .map t k v
  | .type _ (.struct t fields) => some fun _ => .struct t fields
  | _ => none

def isGuard : Expr → Bool
  | .assert _ _ none => true
  | _ => false

/-- The bound name and the expression of a type switch. -/
def guard? : Simple → Option (Option Name × Expr)
  | .expr _ e => if isGuard e then some (none, e) else none
  | .define _ [n] [e] => if isGuard e then some (some n, e) else none
  | _ => none

def single (start : Nat) : List Expr → Read Expr
  | [e] => pure e
  | es => do fail (.notOneExpression es.length) (← spanFrom start)

def exprOf : Simple → Read Expr
  | .expr _ e => pure e
  | s => fail .notAnExpression s.span

def atTypeStart : Option Token → Bool
  | some (.ident _) => true
  | some (.punct p) => p == .lBrack || p == .star || p == .arrow || p == .lParen
  | some (.keyword k) =>
    k == .mapKw || k == .chanKw || k == .funcKw || k == .structKw || k == .interfaceKw
  | _ => false

def isText : Option Token → Option String
  | some (.string s) | some (.rawString s) => some s
  | _ => none

/-- Names without a type of their own after which no type came are types. -/
def fieldsOfTypes : List Name → Read (List Field)
  | [] => return []
  | n :: ns => do
    let type := TypeExpr.named (← tagAt n.tag.span) none n.text
    let field : Field := ⟨← tagAt n.tag.span, [], type, false, none⟩
    return field :: (← fieldsOfTypes ns)

/-- Groups the entries of a parameter list into fields: bare names share the type that follows. -/
def group (pending : List Name) (first : Option Nat) : List Param → Read (List Field)
  | [] => fieldsOfTypes pending
  | .bare n span :: rest => group (pending ++ [n]) (some (first.getD span.start)) rest
  | .typed (some n) type variadic span :: rest => do
    let tag ← tagAt ⟨first.getD span.start, span.stop⟩
    return ⟨tag, pending ++ [n], type, variadic, none⟩ :: (← group [] none rest)
  | .typed none type variadic span :: rest => do
    let before ← fieldsOfTypes pending
    let field : Field := ⟨← tagAt span, [], type, variadic, none⟩
    return before ++ field :: (← group [] none rest)

def exhausted {α : Type} : Read α := do fail .exhausted (← spanFrom (← start))

def names : Nat → Read (List Name)
  | 0 => exhausted
  | fuel + 1 => do
    let n ← name
    if ← eatPunct .comma then return n :: (← names fuel) else return [n]

mutual

def typeExpr : Nat → Read TypeExpr
  | 0 => exhausted
  | fuel + 1 => do
    let s ← start
    match ← peek with
    | some (.ident _) =>
      let n ← name
      if ← eatPunct .dot then
        let sel ← name
        return .named (← tagFrom s) (some n.text) sel.text
      else
        return .named (← tagFrom s) none n.text
    | some (.punct .star) =>
      let _ ← take
      let elem ← typeExpr fuel
      return .pointer (← tagFrom s) elem
    | some (.punct .lBrack) =>
      let _ ← take
      if ← eatPunct .rBrack then
        let elem ← typeExpr fuel
        return .slice (← tagFrom s) elem
      else if ← eatPunct .ellipsis then
        expectPunct .rBrack
        let elem ← typeExpr fuel
        return .array (← tagFrom s) none elem
      else
        let len ← withLiterals true (expr fuel)
        expectPunct .rBrack
        let elem ← typeExpr fuel
        return .array (← tagFrom s) (some len) elem
    | some (.keyword .mapKw) =>
      let _ ← take
      expectPunct .lBrack
      let key ← typeExpr fuel
      expectPunct .rBrack
      let value ← typeExpr fuel
      return .map (← tagFrom s) key value
    | some (.keyword .chanKw) =>
      let _ ← take
      let dir := if ← eatPunct .arrow then ChanDir.send else .both
      let elem ← typeExpr fuel
      return .chan (← tagFrom s) dir elem
    | some (.punct .arrow) =>
      let _ ← take
      expectKeyword .chanKw
      let elem ← typeExpr fuel
      return .chan (← tagFrom s) .recv elem
    | some (.keyword .funcKw) =>
      let _ ← take
      let sig ← signature fuel
      return .func (← tagFrom s) sig
    | some (.keyword .structKw) =>
      let _ ← take
      expectPunct .lBrace
      let fields ← structFields fuel
      return .struct (← tagFrom s) fields
    | some (.keyword .interfaceKw) =>
      let _ ← take
      expectPunct .lBrace
      let methods ← interfaceMethods fuel
      return .interface (← tagFrom s) methods
    | some (.punct .lParen) =>
      let _ ← take
      let inner ← typeExpr fuel
      expectPunct .rParen
      return inner
    | _ => unexpected .type

/-- The fields up to and including the closing brace. -/
def structFields : Nat → Read (List Field)
  | 0 => exhausted
  | fuel + 1 => do
    let next ← peek
    if next.isNone || next == some (.punct .rBrace) then
      expectPunct .rBrace
      return []
    let s ← start
    let embedded : Bool := match next, ← peekSecond with
      | some (.ident _), some t =>
        t == .punct .dot || t == .punct .semi || t == .punct .rBrace || (isText (some t)).isSome
      | _, _ => true
    let ns ← if embedded then pure [] else names fuel
    let type ← typeExpr fuel
    let label := isText (← peek)
    if label.isSome then let _ ← take
    let tag ← tagFrom s
    endStatement
    return ⟨tag, ns, type, false, label⟩ :: (← structFields fuel)

/-- The methods and embedded types up to and including the closing brace. -/
def interfaceMethods : Nat → Read (List Field)
  | 0 => exhausted
  | fuel + 1 => do
    let next ← peek
    if next.isNone || next == some (.punct .rBrace) then
      expectPunct .rBrace
      return []
    let s ← start
    let (ns, type) ← match next, ← peekSecond with
      | some (.ident _), some (.punct .lParen) => do
        let n ← name
        let sigStart ← start
        let sig ← signature fuel
        pure ([n], TypeExpr.func (← tagFrom sigStart) sig)
      | _, _ => do
        let type ← typeExpr fuel
        pure ([], type)
    let tag ← tagFrom s
    endStatement
    return ⟨tag, ns, type, false, none⟩ :: (← interfaceMethods fuel)

def signature : Nat → Read Signature
  | 0 => exhausted
  | fuel + 1 => do
    let s ← start
    let params ← parameters fuel
    let next ← peek
    let results ← if next == some (.punct .lParen) then parameters fuel
      else if atTypeStart next then do
        let type ← typeExpr fuel
        pure [⟨← tagAt type.span, [], type, false, none⟩]
      else pure []
    return ⟨← tagFrom s, params, results⟩

def parameters : Nat → Read (List Field)
  | 0 => exhausted
  | fuel + 1 => do
    expectPunct .lParen
    let ps ← params fuel
    expectPunct .rParen
    group [] none ps

def params : Nat → Read (List Param)
  | 0 => exhausted
  | fuel + 1 => do
    if ← atPunct .rParen then return []
    let p ← param fuel
    if ← eatPunct .comma then return p :: (← params fuel) else return [p]

def param : Nat → Read Param
  | 0 => exhausted
  | fuel + 1 => do
    let s ← start
    match ← peek with
    | some (.ident _) =>
      let n ← name
      match ← peek with
      | some (.punct .comma) | some (.punct .rParen) => return .bare n (← spanFrom s)
      | some (.punct .dot) =>
        let _ ← take
        let sel ← name
        let type := TypeExpr.named (← tagFrom s) (some n.text) sel.text
        return .typed none type false (← spanFrom s)
      | some (.punct .ellipsis) =>
        let _ ← take
        let type ← typeExpr fuel
        return .typed (some n) type true (← spanFrom s)
      | _ =>
        let type ← typeExpr fuel
        return .typed (some n) type false (← spanFrom s)
    | some (.punct .ellipsis) =>
      let _ ← take
      let type ← typeExpr fuel
      return .typed none type true (← spanFrom s)
    | _ =>
      let type ← typeExpr fuel
      return .typed none type false (← spanFrom s)

def block : Nat → Read Block
  | 0 => exhausted
  | fuel + 1 => do
    let s ← start
    expectPunct .lBrace
    let body ← withLiterals true (stmts fuel)
    expectPunct .rBrace
    return ⟨← tagFrom s, body⟩

/-- The statements up to a closing brace or the next clause, which are left standing. -/
def stmts : Nat → Read (List Stmt)
  | 0 => exhausted
  | fuel + 1 => do
    match ← peek with
    | none | some (.punct .rBrace) | some (.keyword .caseKw) | some (.keyword .defaultKw) =>
      return []
    | some (.punct .semi) =>
      let _ ← take
      stmts fuel
    | some _ =>
      let first ← stmt fuel
      match ← peek with
      | none | some (.punct .rBrace) | some (.keyword .caseKw) | some (.keyword .defaultKw) =>
        pure ()
      | some _ => endStatement
      return first :: (← stmts fuel)

def stmt : Nat → Read Stmt
  | 0 => exhausted
  | fuel + 1 => do
    let s ← start
    match ← peek with
    | some (.keyword .varKw) | some (.keyword .constKw) | some (.keyword .typeKw) =>
      let d ← decl fuel
      return .decl (← tagFrom s) d
    | some (.keyword .goKw) =>
      let _ ← take
      let e ← expr fuel
      return .go (← tagFrom s) e
    | some (.keyword .deferKw) =>
      let _ ← take
      let e ← expr fuel
      return .defer (← tagFrom s) e
    | some (.keyword .returnKw) =>
      let _ ← take
      let es ← match ← peek with
        | some (.punct .semi) | some (.punct .rBrace) | none => pure []
        | some _ => exprs fuel
      return .ret (← tagFrom s) es
    | some (.punct .lBrace) =>
      let b ← block fuel
      return .block (← tagFrom s) b
    | some (.keyword .ifKw) => ifElse fuel
    | some (.keyword .forKw) => loop fuel
    | some (.keyword .switchKw) => switch fuel
    | some (.keyword .selectKw) => select fuel
    | next =>
      match next.bind BranchKind.ofToken? with
      | some kind =>
        let _ ← take
        let label ← match ← peek with
          | some (.ident _) => if kind = .fallthrough then pure none else do pure (some (← name))
          | _ => pure none
        return .branch (← tagFrom s) kind label
      | none =>
        match next, ← peekSecond with
        | some (.ident _), some (.punct .colon) =>
          let label ← name
          let _ ← take
          let inner ← stmt fuel
          return .labeled (← tagFrom s) label inner
        | _, _ =>
          let inner ← simple fuel
          return .simple (← tagFrom s) inner

def simple : Nat → Read Simple
  | 0 => exhausted
  | fuel + 1 => do
    let s ← start
    if definesAhead (← get).ahead then
      let ns ← names fuel
      expectPunct .define
      let values ← exprs fuel
      return .define (← tagFrom s) ns values
    let lhs ← exprs fuel
    match ← peek with
    | some (.punct .inc) =>
      let e ← single s lhs
      let _ ← take
      return .step (← tagFrom s) e .inc
    | some (.punct .dec) =>
      let e ← single s lhs
      let _ ← take
      return .step (← tagFrom s) e .dec
    | some (.punct .arrow) =>
      let chan ← single s lhs
      let _ ← take
      let value ← expr fuel
      return .send (← tagFrom s) chan value
    | some (.punct .define) => fail .definesNonName (← spanFrom s)
    | next =>
      match next.bind AssignOp.ofToken? with
      | some op =>
        let _ ← take
        let rhs ← exprs fuel
        return .assign (← tagFrom s) lhs op rhs
      | none =>
        let e ← single s lhs
        return .expr (← tagFrom s) e

def ifElse : Nat → Read Stmt
  | 0 => exhausted
  | fuel + 1 => do
    let s ← start
    expectKeyword .ifKw
    let (init, cond) ← withLiterals false do
      if ← eatPunct .semi then
        let cond ← expr fuel
        return (none, cond)
      let first ← simple fuel
      if ← eatPunct .semi then
        let cond ← expr fuel
        return (some first, cond)
      else
        return (none, ← exprOf first)
    let yes ← block fuel
    let no ← if ← eatKeyword .elseKw then
        match ← peek with
        | some (.keyword .ifKw) => do
          let no ← ifElse fuel
          pure (some no)
        | some (.punct .lBrace) => do
          let elseStart ← start
          let b ← block fuel
          pure (some (Stmt.block (← tagFrom elseStart) b))
        | _ => unexpected .elseBranch
      else pure none
    return .ifElse (← tagFrom s) init cond yes no

def loop : Nat → Read Stmt
  | 0 => exhausted
  | fuel + 1 => do
    let s ← start
    expectKeyword .forKw
    let head ← withLiterals false (loopHead fuel)
    let body ← block fuel
    return .loop (← tagFrom s) head body

def loopHead : Nat → Read LoopHead
  | 0 => exhausted
  | fuel + 1 => do
    if ← atPunct .lBrace then return .forever
    if ← eatKeyword .rangeKw then
      let e ← expr fuel
      return .range none none false e
    match rangeAhead 0 (← get).ahead with
    | some define =>
      let key ← expr fuel
      let value ← if ← eatPunct .comma then do
          let v ← expr fuel
          pure (some v)
        else pure none
      let _ ← take
      expectKeyword .rangeKw
      let e ← expr fuel
      return .range (some key) value define e
    | none =>
      if ← eatPunct .semi then
        clauseHead fuel none
      else
        let init ← simple fuel
        if ← eatPunct .semi then
          clauseHead fuel (some init)
        else
          return .cond (← exprOf init)

/-- The rest of a loop header after the first semicolon. -/
def clauseHead : Nat → Option Simple → Read LoopHead
  | 0, _ => exhausted
  | fuel + 1, init => do
    let cond ← if ← atPunct .semi then pure none else do
      let e ← expr fuel
      pure (some e)
    expectPunct .semi
    let post ← if ← atPunct .lBrace then pure none else do
      let p ← simple fuel
      pure (some p)
    return .clause init cond post

def switch : Nat → Read Stmt
  | 0 => exhausted
  | fuel + 1 => do
    let s ← start
    expectKeyword .switchKw
    let (init, subject) ← withLiterals false (switchHead fuel)
    let guard := subject.bind guard?
    expectPunct .lBrace
    let cs ← clauses fuel guard.isSome
    expectPunct .rBrace
    match guard with
    | some (bind, e) => return .typeSwitch (← tagFrom s) init bind e cs
    | none =>
      let e ← match subject with
        | some simple => do pure (some (← exprOf simple))
        | none => pure none
      return .switch (← tagFrom s) init e cs

def switchHead : Nat → Read (Option Simple × Option Simple)
  | 0 => exhausted
  | fuel + 1 => do
    if ← atPunct .lBrace then return (none, none)
    let first ← if ← atPunct .semi then pure none else do
      let p ← simple fuel
      pure (some p)
    if ← eatPunct .semi then
      if ← atPunct .lBrace then return (first, none)
      let p ← simple fuel
      return (first, some p)
    else
      return (none, first)

def clauses : Nat → Bool → Read (List Clause)
  | 0, _ => exhausted
  | fuel + 1, types => do
    let next ← peek
    if next == some (.keyword .caseKw) || next == some (.keyword .defaultKw) then
      let c ← clause fuel types
      return c :: (← clauses fuel types)
    else
      return []

def clause : Nat → Bool → Read Clause
  | 0, _ => exhausted
  | fuel + 1, types => do
    let s ← start
    let cases ← if ← eatKeyword .defaultKw then pure Cases.default
      else do
        expectKeyword .caseKw
        if types then
          let ts ← typeExprs fuel
          pure (Cases.types ts)
        else
          let es ← exprs fuel
          pure (Cases.exprs es)
    expectPunct .colon
    let body ← stmts fuel
    return ⟨← tagFrom s, cases, body⟩

def select : Nat → Read Stmt
  | 0 => exhausted
  | fuel + 1 => do
    let s ← start
    expectKeyword .selectKw
    expectPunct .lBrace
    let cs ← comms fuel
    expectPunct .rBrace
    return .select (← tagFrom s) cs

def comms : Nat → Read (List Comm)
  | 0 => exhausted
  | fuel + 1 => do
    let next ← peek
    if next == some (.keyword .caseKw) || next == some (.keyword .defaultKw) then
      let c ← comm fuel
      return c :: (← comms fuel)
    else
      return []

def comm : Nat → Read Comm
  | 0 => exhausted
  | fuel + 1 => do
    let s ← start
    let guard ← if ← eatKeyword .defaultKw then pure none
      else do
        expectKeyword .caseKw
        let p ← simple fuel
        pure (some p)
    expectPunct .colon
    let body ← stmts fuel
    return ⟨← tagFrom s, guard, body⟩

def exprs : Nat → Read (List Expr)
  | 0 => exhausted
  | fuel + 1 => do
    let e ← expr fuel
    if ← eatPunct .comma then return e :: (← exprs fuel) else return [e]

def typeExprs : Nat → Read (List TypeExpr)
  | 0 => exhausted
  | fuel + 1 => do
    let t ← typeExpr fuel
    if ← eatPunct .comma then return t :: (← typeExprs fuel) else return [t]

def expr : Nat → Read Expr
  | 0 => exhausted
  | fuel + 1 => binary fuel 1

/-- An expression whose operators outside of operands bind at least as tightly as given. -/
def binary : Nat → Nat → Read Expr
  | 0, _ => exhausted
  | fuel + 1, least => do
    let s ← start
    let x ← unary fuel
    binaryRest fuel least s x

def binaryRest : Nat → Nat → Nat → Expr → Read Expr
  | 0, _, _, _ => exhausted
  | fuel + 1, least, s, x => do
    match (← peek).bind BinaryOp.ofToken? with
    | none => return x
    | some op =>
      if op.precedence < least then return x
      let _ ← take
      let right ← binary fuel (op.precedence + 1)
      binaryRest fuel least s (.binary (← tagFrom s) x op right)

def unary : Nat → Read Expr
  | 0 => exhausted
  | fuel + 1 => do
    let s ← start
    match (← peek).bind UnaryOp.ofToken? with
    | none => primary fuel
    | some op =>
      let _ ← take
      let e ← unary fuel
      return .unary (← tagFrom s) op e

def primary : Nat → Read Expr
  | 0 => exhausted
  | fuel + 1 => do
    let s ← start
    let x ← operand fuel
    primaryRest fuel s x

/-- Selectors, assertions, indices, calls and literal bodies after an operand. -/
def primaryRest : Nat → Nat → Expr → Read Expr
  | 0, _, _ => exhausted
  | fuel + 1, s, x => do
    match ← peek with
    | some (.punct .dot) =>
      let _ ← take
      if ← eatPunct .lParen then
        let type ← if ← eatKeyword .typeKw then pure none else do
          let t ← typeExpr fuel
          pure (some t)
        expectPunct .rParen
        primaryRest fuel s (.assert (← tagFrom s) x type)
      else
        let sel ← name
        primaryRest fuel s (.selector (← tagFrom s) x sel)
    | some (.punct .lBrack) =>
      let _ ← take
      let build ← withLiterals true (bracket fuel x)
      expectPunct .rBrack
      primaryRest fuel s (build (← tagFrom s))
    | some (.punct .lParen) =>
      let _ ← take
      let (args, spread) ← withLiterals true (arguments fuel)
      expectPunct .rParen
      primaryRest fuel s (.call (← tagFrom s) x args spread)
    | some (.punct .lBrace) =>
      match literalType? (← get).literals x with
      | none => return x
      | some type =>
        let type := type (← tagAt x.span)
        let e ← composite fuel s (some type)
        primaryRest fuel s e
    | _ => return x

/-- An index or the bounds of a slice, without the brackets. -/
def bracket : Nat → Expr → Read (Tag → Expr)
  | 0, _ => exhausted
  | fuel + 1, x => do
    let lo ← if ← atPunct .colon then pure none else do
      let e ← expr fuel
      pure (some e)
    if ← eatPunct .colon then
      let next ← peek
      let hi ← if next == some (.punct .colon) || next == some (.punct .rBrack) then pure none
        else do
          let e ← expr fuel
          pure (some e)
      let max ← if ← eatPunct .colon then do
          let e ← expr fuel
          pure (some e)
        else pure none
      return fun t => .slice t x lo hi max
    else
      match lo with
      | some e => return fun t => .index t x e
      | none => unexpected .index

/-- Arguments up to the closing parenthesis, and whether one of them is spread. -/
def arguments : Nat → Read (List Expr × Bool)
  | 0 => exhausted
  | fuel + 1 => do
    if ← atPunct .rParen then return ([], false)
    let e ← expr fuel
    let spread ← eatPunct .ellipsis
    if ← eatPunct .comma then
      let (es, more) ← arguments fuel
      return (e :: es, spread || more)
    else
      return ([e], spread)

def composite : Nat → Nat → Option TypeExpr → Read Expr
  | 0, _, _ => exhausted
  | fuel + 1, s, type => do
    expectPunct .lBrace
    let elems ← withLiterals true (elements fuel)
    expectPunct .rBrace
    return .composite (← tagFrom s) type elems

def elements : Nat → Read (List Element)
  | 0 => exhausted
  | fuel + 1 => do
    if ← atPunct .rBrace then return []
    let first ← element fuel
    let elem ← if ← eatPunct .colon then do
        let value ← element fuel
        pure (⟨some first, value⟩ : Element)
      else pure ⟨none, first⟩
    if ← eatPunct .comma then return elem :: (← elements fuel) else return [elem]

def element : Nat → Read Expr
  | 0 => exhausted
  | fuel + 1 => do
    if ← atPunct .lBrace then composite fuel (← start) none else expr fuel

def operand : Nat → Read Expr
  | 0 => exhausted
  | fuel + 1 => do
    let s ← start
    match ← peek with
    | some (.ident n) =>
      let _ ← take
      return .ident (← tagFrom s) n
    | some (.int x) => literal s .int x
    | some (.float x) => literal s .float x
    | some (.imag x) => literal s .imag x
    | some (.rune x) => literal s .rune x
    | some (.string x) | some (.rawString x) => literal s .string x
    | some (.punct .lParen) =>
      let _ ← take
      let inner ← withLiterals true (expr fuel)
      expectPunct .rParen
      return .paren (← tagFrom s) inner
    | some (.keyword .funcKw) =>
      let _ ← take
      let sig ← signature fuel
      if ← atPunct .lBrace then
        let body ← withLiterals true (block fuel)
        return .funcLit (← tagFrom s) sig body
      else
        let type := TypeExpr.func (← tagFrom s) sig
        return .type (← tagFrom s) type
    | some (.punct .lBrack) | some (.keyword .mapKw) | some (.keyword .chanKw)
    | some (.keyword .structKw) | some (.keyword .interfaceKw) =>
      let t ← typeExpr fuel
      return .type (← tagFrom s) t
    | _ => unexpected .expression
where
  literal (s : Nat) (kind : LitKind) (text : String) : Read Expr := do
    let _ ← take
    return .lit (← tagFrom s) kind text

def decl : Nat → Read Decl
  | 0 => exhausted
  | fuel + 1 => do
    let s ← start
    let kind := (DeclKind.ofToken? (← take).token).getD .vars
    if ← eatPunct .lParen then
      let ss ← specs fuel kind
      expectPunct .rParen
      return ⟨← tagFrom s, kind, true, ss⟩
    else
      let one ← spec fuel kind
      return ⟨← tagFrom s, kind, false, [one]⟩

def specs : Nat → DeclKind → Read (List Spec)
  | 0, _ => exhausted
  | fuel + 1, kind => do
    let next ← peek
    if next.isNone || next == some (.punct .rParen) then return []
    let one ← spec fuel kind
    endStatement
    return one :: (← specs fuel kind)

def spec : Nat → DeclKind → Read Spec
  | 0, _ => exhausted
  | fuel + 1, kind => do
    let s ← start
    match kind with
    | .imports =>
      let n ← match ← peek with
        | some (.ident _) => do pure (some (← name))
        | some (.punct .dot) => do
          let p ← take
          pure (some ⟨← tagAt p.span, "."⟩)
        | _ => pure none
      match isText (← peek) with
      | some path =>
        let _ ← take
        return .imports (← tagFrom s) n path
      | none => unexpected .importPath
    | .types =>
      let n ← name
      let isAlias ← eatPunct .assign
      let type ← typeExpr fuel
      return .type (← tagFrom s) n isAlias type
    | .consts | .vars =>
      let ns ← names fuel
      let type ← match ← peek with
        | some (.punct .assign) | some (.punct .semi) | some (.punct .rParen) | none => pure none
        | some _ => do
          let t ← typeExpr fuel
          pure (some t)
      let values ← if ← eatPunct .assign then exprs fuel else pure []
      return .values (← tagFrom s) ns type values

end

def funcDecl (fuel : Nat) : Read FuncDecl := do
  let s ← start
  expectKeyword .funcKw
  let recv ← if ← atPunct .lParen then do
      let recvStart ← start
      match ← parameters fuel with
      | [field] => pure (some field)
      | _ => fail .receivers (← spanFrom recvStart)
    else pure none
  let n ← name
  let sig ← signature fuel
  let body ← if ← atPunct .lBrace then do
      let b ← withLiterals true (block fuel)
      pure (some b)
    else pure none
  return ⟨← tagFrom s, recv, n, sig, body⟩

def topDecls : Nat → Read (List TopDecl)
  | 0 => exhausted
  | fuel + 1 => do
    match ← peek with
    | none => return []
    | some (.punct .semi) =>
      let _ ← take
      topDecls fuel
    | some t =>
      let d ← if t = .keyword .funcKw then do
          let f ← funcDecl fuel
          pure (TopDecl.func f)
        else if (DeclKind.ofToken? t).isSome then do
          let d ← decl fuel
          pure (TopDecl.decl d)
        else unexpected .declaration
      if (← atPunct .rParen) || (← atPunct .rBrace) then
        (unexpected .declaration : Read Unit)
      endStatement
      return d :: (← topDecls fuel)

/-- A file without its comments. -/
def sourceFile (fuel : Nat) : Read SourceFile := do
  let s ← start
  expectKeyword .packageKw
  let n ← name
  let tag ← tagFrom s
  endStatement
  return ⟨tag, n, ← topDecls fuel, []⟩

end Read

end FuncLift
