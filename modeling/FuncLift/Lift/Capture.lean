import FuncLift.Lift.Region
import FuncLift.Scope.Resolve

/-!
# Captures

The variables that flow into a region, and those that flow out of it. What flows in is a local
variable that the region refers to and does not declare; what flows out is one that the region
declares and later statements of the same list refer to.
-/
namespace FuncLift

/-- Bindings by name, each name once, in the order of the names. -/
abbrev NameMap := List (String × Nat)

/-- Adds a binding unless its name is there already. -/
def NameMap.insertNew (name : String) (b : Nat) : NameMap → NameMap
  | [] => [(name, b)]
  | (n, c) :: rest =>
    if name = n then (n, c) :: rest
    else if name < n then (name, b) :: (n, c) :: rest
    else (n, c) :: NameMap.insertNew name b rest

structure Captures where
  params : NameMap
  outputs : NameMap

namespace Scopes

/-- The bindings that nodes refer to, in the order of the nodes. -/
def references (s : Scopes) (nodes : List Node) : List Nat :=
  nodes.filterMap fun
    | .expr e => s.bindingOf? e.tag.id
    | _ => none

/-- The names that are declared inside a span. -/
def namesWithin (s : Scopes) (span : Span) : List String :=
  (s.bindings.filter fun b =>
    !b.span.isUnset && decide (span.start ≤ b.span.start) && decide (b.span.stop ≤ span.stop)).map
      Binding.name

/-- Those of the bindings that are local variables and satisfy a condition, by name; of one name the
first counts. -/
def localsByName (s : Scopes) (keep : Nat → Binding → Bool) (bs : List Nat) : NameMap :=
  bs.foldl (fun m n =>
    match s.binding? n with
    | some b => if b.kind == .localVar && keep n b then m.insertNew b.name n else m
    | none => m) []

end Scopes

namespace Region

/-- Statements of the same list behind the region. -/
def later : Region → List Stmt
  | .expression .. => []
  | .statements stmts owner =>
    match stmts.getLast? with
    | none => []
    | some last => (owner.stmts.dropWhile fun s => s.tag.id != last.tag.id).drop 1

/-- Bindings that the region's statements add to the scope they stand in. -/
def produced (s : Scopes) : Region → List Nat
  | .expression .. => []
  | .statements stmts _ => stmts.flatMap fun st => s.declaredBy st.tag.id

def captures (s : Scopes) (r : Region) : Captures :=
  let inside := s.namesWithin r.span
  let produced := r.produced s
  let laterNodes := r.later.flatMap fun st => (Outline.ofStmt st).nodes
  ⟨s.localsByName (fun _ b => !inside.contains b.name) (s.references r.nodes),
    s.localsByName (fun n _ => produced.contains n) (s.references laterNodes)⟩

end Region

end FuncLift
