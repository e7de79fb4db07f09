import FuncLift.Tree.Cursor

/-!
# Comment groups

Comments with nothing but blanks between them form a group. A group that starts behind code stays on
its line; one that starts on a line of its own takes in the comments of the next line as well.
-/
namespace FuncLift

/-- What is left of the characters after so many bytes. -/
def dropBytes : Nat → List Char → List Char
  | _, [] => []
  | n, c :: cs => if n = 0 then c :: cs else dropBytes (n - c.utf8Size) cs

/-- The characters that start within so many bytes. -/
def takeBytes : Nat → List Char → List Char
  | _, [] => []
  | n, c :: cs => if n = 0 then [] else c :: takeBytes (n - c.utf8Size) cs

def sliceBytes (source : List Char) (first last : Nat) : List Char :=
  takeBytes (last - first) (dropBytes first source)

namespace LooseComment

def isGapBlank (c : Char) : Bool := Lexeme.isSpace c || Lexeme.isLineEnd c

/-- Whether the second comment belongs to the group that the first one ends so far. -/
def joins (source : List Char) (trailing : Bool) (a b : LooseComment) : Bool :=
  let gap := sliceBytes source a.span.stop b.span.start
  let lines := gap.count '\n'
  gap.all isGapBlank && (lines == 0 || (!trailing && lines == 1))

/-- Splits the comments after `last` into the rest of its group and further groups. -/
def groupsAfter (source : List Char) (trailing : Bool) (last : LooseComment) :
    List LooseComment → List LooseComment × List (List LooseComment)
  | [] => ([], [])
  | c :: cs =>
    if joins source trailing last c then
      let (rest, groups) := groupsAfter source trailing c cs
      (c :: rest, groups)
    else
      let (rest, groups) := groupsAfter source (!c.ownLine) c cs
      ([], (c :: rest) :: groups)

def groups (source : List Char) : List LooseComment → List (List LooseComment)
  | [] => []
  | c :: cs =>
    let (rest, groups) := groupsAfter source (!c.ownLine) c cs
    (c :: rest) :: groups

end LooseComment

namespace Read

def comments : List LooseComment → Read (List Comment)
  | [] => return []
  | c :: cs => return ⟨← tagAt c.span, c.kind, c.text⟩ :: (← comments cs)

def commentGroups : List (List LooseComment) → Read (List CommentGroup)
  | [] => return []
  | g :: gs => do
    let inner ← comments g
    let first := (g.head?.map fun c => c.span.start).getD 0
    let last := (g.getLast?.map fun c => c.span.stop).getD 0
    return ⟨← tagAt ⟨first, last⟩, inner⟩ :: (← commentGroups gs)

end Read

end FuncLift
