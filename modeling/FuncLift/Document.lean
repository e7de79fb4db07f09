import FuncLift.Interner
import FuncLift.Tree.Comments
import FuncLift.Tree.Grammar

/-!
# Documents

A document is the tree of a file with the lengths of its lines. The text it was read from is kept
until the first edit; after that the tree and the lines are all there is.
-/
namespace FuncLift

/-- Every text that occurred in a document, as a name, a literal or a comment. -/
abbrev Vocabulary := Interner (hash : String → UInt64)

structure Document where
  file : SourceFile
  lines : LineTable
  source : Option String
  vocabulary : Vocabulary
  nextId : Nat

namespace Vocabulary

def add (v : Vocabulary) (s : String) : Vocabulary := (v.intern s).2

def addAll (v : Vocabulary) (ss : List String) : Vocabulary := ss.foldl add v

end Vocabulary

def Spec.importName? : Spec → Option String
  | .imports _ n _ => n.map Name.text
  | _ => none

def TopDecl.importNames : TopDecl → List String
  | .decl d => d.specs.filterMap Spec.importName?
  | .func _ => []

namespace Document

def size (d : Document) : Nat := d.lines.size

/-- Budget of the grammar for so many tokens. -/
def budget (tokens : Nat) : Nat := 32 * (tokens + 1)

/-- Reads a file; a missing newline at its end is added. Faulty tokens are reported together, a
fault of the grammar alone. -/
def ofSource (source : String) : Except SourceError Document :=
  let text := terminated source
  let scanned := scan text
  if !scanned.faults.isEmpty then
    .error ⟨scanned.faults.map fun (f, span) => ⟨.lex f, span⟩⟩
  else
    let cursor : Cursor := ⟨scanned.tokens, text.utf8ByteSize, 0, true, 0⟩
    let reading : Read SourceFile := do
      let file ← Read.sourceFile (budget scanned.tokens.length)
      let groups ← Read.commentGroups (LooseComment.groups text.toList scanned.comments)
      return { file with comments := groups }
    match reading.run cursor with
    | .error d => .error ⟨[d]⟩
    | .ok (file, rest) =>
      let vocabulary := Vocabulary.addAll .empty (scanned.tokens.filterMap fun p => p.token.text?)
      let vocabulary := vocabulary.addAll (file.decls.flatMap TopDecl.importNames)
      let vocabulary := vocabulary.addAll (scanned.comments.map LooseComment.text)
      .ok ⟨file, .ofText text, some text, vocabulary, rest.nextId⟩

end Document

end FuncLift
