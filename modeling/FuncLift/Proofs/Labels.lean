import FuncLift.Proofs.Quoted
import FuncLift.Tree.Grammar

/-!
# Strings whatever follows

A string is cut off at its closing quote, so what stands behind it does not matter. The strings of a
text are the labels of its fields, and which of the two kinds one is can be told from its first
character.
-/
namespace FuncLift

namespace Escape

/-- A string between back quotes: anything but a back quote stands for itself. -/
def RawLiteral (w : List Char) : Prop := ∃ cs, w = '\x60' :: (cs ++ ['\x60']) ∧ '\x60' ∉ cs

end Escape

namespace Lexeme

theorem rawLength_append {cs : List Char} (h : '\x60' ∉ cs) (rest : List Char) :
    rawLength? (cs ++ '\x60' :: rest) = some (cs.length + 1) := by
  induction cs with
  | nil => rfl
  | cons c cs ih =>
    have hc := List.ne_of_not_mem_cons h
    rw [List.cons_append, rawLength?, if_neg (Ne.symm hc), ih (List.not_mem_of_not_mem_cons h)]
    rfl

theorem split_of_rawLength {cs : List Char} {n : Nat} (h : rawLength? cs = some n) :
    ∃ body rest, cs = body ++ '\x60' :: rest ∧ n = body.length + 1 ∧ '\x60' ∉ body := by
  induction cs generalizing n with
  | nil => cases h
  | cons c cs ih =>
    rw [rawLength?] at h
    by_cases hc : c = '\x60'
    · rw [if_pos hc] at h
      cases h
      exact ⟨[], cs, by rw [hc]; rfl, rfl, List.not_mem_nil⟩
    · rw [if_neg hc] at h
      obtain ⟨m, hm, rfl⟩ := Option.map_eq_some_iff.1 h
      obtain ⟨body, rest, rfl, rfl, hbody⟩ := ih hm
      exact ⟨c :: body, rest, rfl, rfl, List.not_mem_cons_of_ne_of_not_mem (Ne.symm hc) hbody⟩

theorem atFront_raw {cs : List Char} {n : Nat} (h : rawLength? cs = some n) :
    atFront '\x60' cs = (.rawString, n) := by
  have hstart : startsWord '\x60' = false := by decide +kernel
  simp [atFront, isSpace, hstart, startsNumber, h]

def CutsRaw (c : Char) (cs : List Char) (r : LexemeKind × Nat) : Prop :=
  r.1 = .rawString → c = '\x60' ∧ rawLength? cs = some r.2

theorem atFront_cutsRaw (c : Char) (cs : List Char) : CutsRaw c cs (atFront c cs) := by
  unfold atFront
  repeat' refine iteInduction (fun _ => ?_) fun _ => ?_
  all_goals try split
  all_goals first
    | exact fun _ => ⟨‹_›, ‹_›⟩
    | intro hkind; cases hkind

end Lexeme

namespace Token

/-- The token of a label, which keeps its quotes. -/
def ofLabel (s : String) : Token := if s.toList.head? = some '\x60' then .rawString s else .string s

theorem isText_ofLabel (s : String) : Read.isText (some (ofLabel s)) = some s := by
  unfold ofLabel
  split <;> rfl

theorem spelling_ofLabel (s : String) : (ofLabel s).spelling = s.toList := by
  unfold ofLabel
  split <;> rfl

theorem legible_ofLabel_string {s : String} (h : Escape.StringLiteral s.toList) :
    (ofLabel s).Legible := by
  obtain ⟨body, hs, hpieces⟩ := h
  have hquoted : ofLabel s = .string s := by
    rw [ofLabel, hs, List.head?_cons, if_neg (by decide)]
  rw [hquoted]
  refine ⟨'"', body ++ ['"'], hs, fun rest => ?_, ?_⟩
  · have hlength := hpieces.quotedLength (.inl rfl) rest
    rw [List.append_cons] at hlength
    rw [Lexeme.atFront_string hlength, List.length_append, List.length_singleton]
  · rw [Scan.read_string_iff, Scan.inner_quoted, ← hs, String.ofList_toList]
    exact ⟨rfl, rfl, hpieces.wellFormed (.inl rfl)⟩

theorem legible_ofLabel_raw {s : String} (h : Escape.RawLiteral s.toList) :
    (ofLabel s).Legible := by
  obtain ⟨body, hs, hbody⟩ := h
  have hraw : ofLabel s = .rawString s := by
    rw [ofLabel, hs, List.head?_cons, if_pos rfl]
  rw [hraw]
  refine ⟨'\x60', body ++ ['\x60'], hs, fun rest => ?_, ?_⟩
  · have hlength := Lexeme.rawLength_append hbody rest
    rw [List.append_cons] at hlength
    rw [Lexeme.atFront_raw hlength, List.length_append, List.length_singleton]
  · rw [Scan.read, ← hs, String.ofList_toList]

end Token

namespace Scan

theorem raw_of_read {kind : LexemeKind} {w : List Char} {s : String}
    (h : read kind w = .ok (.rawString s)) : kind = .rawString ∧ s = String.ofList w := by
  unfold read at h
  dsimp only at h
  repeat' split at h
  all_goals cases h
  exact ⟨rfl, rfl⟩

theorem raw_ofLexemes (line : Line) (offset : Nat) (cs : List Char) {p : Placed} {s : String}
    (hp : p ∈ (ofLexemes line offset (Lexeme.all cs)).tokens) (hs : p.token = .rawString s) :
    Escape.RawLiteral s.toList := by
  fun_induction Lexeme.all cs generalizing line offset with
  | case1 =>
    have hword := word_lineEnd hp
    rw [hs] at hword
    cases hword
  | case2 c cs kind n hfront ih =>
    have hcut := Lexeme.atFront_cutsRaw c cs
    rw [hfront] at hcut
    rw [ofLexemes] at hp
    rcases List.mem_append.1 hp with hp | hp
    · obtain ⟨hread, -⟩ := read_of_word hp (by simp [hs, Token.word?, Token.text?])
      rw [hs] at hread
      obtain ⟨rfl, rfl⟩ := raw_of_read hread
      obtain ⟨rfl, hlength⟩ := hcut rfl
      obtain ⟨body, rest, rfl, rfl, hbody⟩ := Lexeme.split_of_rawLength hlength
      refine ⟨body, ?_, hbody⟩
      rw [String.toList_ofList, List.append_cons, List.take_left' (by simp)]
    · exact ih _ _ hp

/-- The strings that are read as labels are read again wherever they are written. -/
theorem legible_label (line : Line) (offset : Nat) (cs : List Char) {p : Placed} {s : String}
    (hp : p ∈ (ofLexemes line offset (Lexeme.all cs)).tokens)
    (hs : Read.isText (some p.token) = some s) : (Token.ofLabel s).Legible := by
  unfold Read.isText at hs
  split at hs
  · rename_i htoken
    cases hs
    exact Token.legible_ofLabel_string ((literal_ofLexemes line offset cs hp).1 (Option.some.inj htoken))
  · rename_i htoken
    cases hs
    exact Token.legible_ofLabel_raw (raw_ofLexemes line offset cs hp (Option.some.inj htoken))
  · cases hs

end Scan

end FuncLift
