import FuncLift.Text.Alphabetic
import FuncLift.Text.Lines
import FuncLift.Tree.Fresh

/-!
# Types

A type as far as it can be told from the text of one file. Struct and interface types are kept as
they are written. What cannot be told is unresolved, and written as an identifier that hints at the
expression it stands for, so that the gap is easy to see.
-/
namespace FuncLift

/-- A type. The length of an array is kept as written; a variadic function has the element type of
its last parameter. -/
inductive Ty where
  | named (pkg : Option String) (name : String)
  | pointer (elem : Ty)
  | slice (elem : Ty)
  | array (len : Option String) (elem : Ty)
  | map (key value : Ty)
  | chan (dir : ChanDir) (elem : Ty)
  | func (params results : List Ty) (variadic : Bool)
  | literal (text : String)
  | unresolved (hint : String)
deriving Repr, Inhabited

namespace Ty

def ofName (name : String) : Ty := .named none name

def isUnresolved : Ty → Bool
  | .unresolved _ => true
  | _ => false

def isNamed (want : String) : Ty → Bool
  | .named none name => name == want
  | _ => false

def predeclared : List String :=
  ["any", "bool", "byte", "comparable", "complex64", "complex128", "error", "float32", "float64",
    "int", "int8", "int16", "int32", "int64", "rune", "string", "uint", "uint8", "uint16", "uint32",
    "uint64", "uintptr"]

def integers : List String :=
  ["byte", "int", "int8", "int16", "int32", "int64", "rune", "uint", "uint8", "uint16", "uint32",
    "uint64", "uintptr"]

def isInteger : Ty → Bool
  | .named none name => integers.contains name
  | _ => false

/-- The identifier that is written for an unresolved type. -/
def placeholder (hint : String) : String := "Unresolved_" ++ hint

def chanText : ChanDir → String
  | .both => "chan "
  | .send => "chan<- "
  | .recv => "<-chan "

/-- Results of a function: none, one without parentheses, or several with them. -/
def resultText : List String → String
  | [] => ""
  | [r] => " " ++ r
  | rs => " (" ++ ", ".intercalate rs ++ ")"

mutual

def text : Ty → String
  | .named none name => name
  | .named (some pkg) name => pkg ++ "." ++ name
  | .pointer t => "*" ++ t.text
  | .slice t => "[]" ++ t.text
  | .array none t => "[...]" ++ t.text
  | .array (some len) t => "[" ++ len ++ "]" ++ t.text
  | .map k v => "map[" ++ k.text ++ "]" ++ v.text
  | .chan dir t => chanText dir ++ t.text
  | .func params results variadic =>
    "func(" ++ ", ".intercalate (paramTexts variadic params) ++ ")" ++ resultText (texts results)
  | .literal s => s
  | .unresolved hint => placeholder hint

def texts : List Ty → List String
  | [] => []
  | t :: ts => t.text :: texts ts

def paramTexts (variadic : Bool) : List Ty → List String
  | [] => []
  | t :: ts =>
    (if variadic && ts.isEmpty then "..." ++ t.text else t.text) :: paramTexts variadic ts

end

mutual

/-- New nodes that write a type. What has no node of its own becomes a name. -/
def node : Ty → Fresh TypeExpr
  | .named pkg name => return .named (← Fresh.tag) pkg name
  | .pointer t => return .pointer (← Fresh.tag) (← node t)
  | .slice t => return .slice (← Fresh.tag) (← node t)
  | .array none t => return .array (← Fresh.tag) none (← node t)
  | .array (some len) t => return .array (← Fresh.tag) (some (← Fresh.ident len)) (← node t)
  | .map k v => return .map (← Fresh.tag) (← node k) (← node v)
  | .chan dir t => return .chan (← Fresh.tag) dir (← node t)
  | .func params results variadic =>
    return .func (← Fresh.tag) ⟨← Fresh.tag, ← fields variadic params, ← fields false results⟩
  | .literal s => return .named (← Fresh.tag) none s
  | .unresolved hint => return .named (← Fresh.tag) none (placeholder hint)

def fields (variadic : Bool) : List Ty → Fresh (List Field)
  | [] => return []
  | t :: ts => do
    let f : Field := ⟨← Fresh.tag, [], ← node t, variadic && ts.isEmpty, none⟩
    return f :: (← fields variadic ts)

end

mutual

/-- The texts that the nodes of a type hold. -/
def words : Ty → List String
  | .named pkg name => pkg.toList ++ [name]
  | .pointer t | .slice t | .chan _ t => words t
  | .array len t => len.toList ++ words t
  | .map k v => words k ++ words v
  | .func params results _ => wordsAll params ++ wordsAll results
  | .literal s => [s]
  | .unresolved hint => [placeholder hint]

def wordsAll : List Ty → List String
  | [] => []
  | t :: ts => words t ++ wordsAll ts

end

/-- Bytes after which a hint is long enough. -/
def hintSize : Nat := 32

/-- Letters, digits and underscores are kept, and a stretch of other characters behind the first
becomes one underscore. The result is reversed. -/
def hintFrom (kept : List Char) : List Char → List Char
  | [] => kept
  | c :: cs =>
    let kept :=
      if isAlphanumeric c || c == '_' then c :: kept
      else if kept.isEmpty || kept.head? == some '_' then kept
      else '_' :: kept
    if hintSize ≤ byteSize kept then kept else hintFrom kept cs

/-- The part of an identifier that hints at a text. -/
def hint (s : String) : String :=
  match (hintFrom [] s.toList).dropWhile (· == '_') with
  | [] => "value"
  | cs => String.ofList cs.reverse

end Ty

end FuncLift
