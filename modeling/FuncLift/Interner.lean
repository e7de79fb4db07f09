/-!
# Interned texts

Equal texts get equal numbers, counted from zero in the order of first sight. Texts are found again
through buckets of a hash function; which function it is does not matter to any answer.
-/
namespace FuncLift

/-- The texts by number, and for every hash value met the numbers of its texts, newest last. -/
structure Interner (hash : String → UInt64) where
  texts : Array String
  buckets : List (UInt64 × List Nat)

namespace Interner

variable {hash : String → UInt64}

def empty : Interner hash := ⟨#[], []⟩

def bucket (i : Interner hash) (h : UInt64) : List Nat := (i.buckets.lookup h).getD []

def get? (i : Interner hash) (s : String) : Option Nat :=
  (i.bucket (hash s)).find? fun n => i.texts[n]? == some s

/-- Adds a number at the end of the bucket of a hash value. -/
def addTo (h : UInt64) (n : Nat) : List (UInt64 × List Nat) → List (UInt64 × List Nat)
  | [] => [(h, [n])]
  | (k, ns) :: rest => if k = h then (k, ns ++ [n]) :: rest else (k, ns) :: addTo h n rest

/-- The number of a text, which is a new one when the text is. -/
def intern (i : Interner hash) (s : String) : Nat × Interner hash :=
  match i.get? s with
  | some n => (n, i)
  | none => (i.texts.size, ⟨i.texts.push s, addTo (hash s) i.texts.size i.buckets⟩)

/-- The text of a number, and the empty text for a number never given. -/
def resolve (i : Interner hash) (n : Nat) : String := i.texts[n]?.getD ""

end Interner

end FuncLift
