import FuncLift.Proofs.Inked
import FuncLift.Proofs.Laid
import FuncLift.Proofs.Reread

/-!
# Printed expressions are read back

A plain expression that was read from a text, printed by itself and read again is the same tree up
to spans and to parentheses directly inside of others. No parentheses are put in: the tree has the
shape of the grammar, so its tokens tell it, and the text that is printed is cut into these tokens.
-/
namespace FuncLift

def Cursor.atStart (text : String) : Cursor := ⟨(scan text).tokens, text.utf8ByteSize, 0, true, 0⟩

/-- The text is scanned without fault, and the reader takes all of its tokens except the semicolon
that its end stands for. -/
def Read.Recovers {α : Type} (r : Nat → Read α) (text : String) (post : α → Prop) : Prop :=
  (scan text).faults = [] ∧ ∃ a c, r (Document.budget (scan text).tokens.length) (.atStart text) =
    .ok (a, c) ∧ c.ahead = [⟨.punct .semi, text.utf8ByteSize, text.utf8ByteSize⟩] ∧ post a

/-- A laid out text is recovered by a reader that takes its tokens up to a semicolon. -/
theorem Laid.recovers {α : Type} {r : Nat → Read α} {text : String}
    {ts : List Token} {post : α → Prop} (h : Laid false text.toList ts)
    (hends : ts.getLast?.map Token.endsStatement = some true)
    (hr : ∀ fuel, 32 * (ts.length + 2) ≤ fuel →
      Takes (ts ++ [Token.punct .semi]) (r fuel) [.punct .semi] post) : Read.Recovers r text post := by
  obtain ⟨ps, hps, hscan⟩ := scan_laid h hends
  have htokens : (Cursor.atStart text).ahead.map Placed.token = ts ++ [Token.punct .semi] := by
    simp [Cursor.atStart, hscan, hps]
  have hlength : (scan text).tokens.length = ts.length + 1 := by
    simp [hscan, ← hps]
  obtain ⟨a, c, hread, hsuffix, hahead, ha⟩ := hr (Document.budget (scan text).tokens.length)
    (by rw [Document.budget, hlength]) _ htokens
  refine ⟨by rw [hscan], a, c, hread, ?_, ha⟩
  -- what is left is one token, so it is the last one that was there
  have hone : c.ahead.length = 1 := by simpa using congrArg List.length hahead
  refine (List.suffix_of_suffix_length_le hsuffix ?_ ?_).eq_of_length ?_
  · simp [Cursor.atStart, hscan]
  · simp [hone]
  · simp [hone]

namespace Cursor

theorem Named.of_scan {text : String} {c : Cursor} (h : c.ahead <:+ (scan text).tokens) : c.Named :=
  fun _ hp _ => ⟨Scan.isName_ofLexemes .start 0 text.toList (h.subset hp),
    Scan.legible_label .start 0 text.toList (h.subset hp)⟩

end Cursor

theorem Pen.Quiet.fresh : (Pen.fresh ⟨[]⟩ [] 0).Quiet ⟨[]⟩ := ⟨rfl, rfl, rfl⟩

namespace Expr

theorem Inked.laid_print {e : Expr} {t : Token} (h : Inked ⟨[]⟩ e t) :
    Laid false e.print.toList e.tokens := by
  obtain ⟨_, q, cs, hdraw, _, _, htext, _, hfits⟩ := h.inks 1 none .blank _ .fresh rfl
  have hprint : e.print.toList = cs := by
    rw [print, Drawing.fragment, Drawing.toList_text_run, hdraw, htext]
    rfl
  have hlaid := (hfits [] [] .nil).laid false (by rintro _ ⟨⟩)
  rwa [List.append_nil, List.append_nil, ← hprint] at hlaid

theorem Inked.endsStatement {e : Expr} {t : Token} (h : Inked ⟨[]⟩ e t) :
    e.tokens.getLast?.map Token.endsStatement = some true := by
  rw [h.last]
  rcases h.closes with ⟨n, rfl⟩ | rfl | rfl | rfl <;> rfl

theorem Shaped.recovers {e : Expr} (h : e.Shaped) :
    Read.Recovers Read.expr e.print fun x => x.core = e.core := by
  obtain ⟨t, hinked⟩ := h.inked e.isFlat_empty
  refine hinked.laid_print.recovers hinked.endsStatement fun fuel hfuel => ?_
  exact h.rereads.expr (.of_closer (by decide)) (by omega)

/-- A plain expression that was read anywhere in a text is read back from its print. -/
theorem read_print {text : String} {c c' : Cursor} {fuel : Nat} {e : Expr}
    (hc : c.ahead <:+ (scan text).tokens) (hread : Read.expr fuel c = .ok (e, c'))
    (hplain : e.isPlain = true) : Read.Recovers Read.expr e.print fun x => x.core = e.core :=
  ((Read.givesShape fuel).expr c e c' (.of_scan hc) hread hplain).1.recovers

/-- Operators that would combine if no blank stood between them, and doubled parentheses. -/
theorem read_print_signs : ∃ e c,
    Read.expr 1024 (.atStart "a - -b/ *p&^((^c))[f(x, y...):]") = .ok (e, c) ∧
      e.isPlain = true ∧ Read.Recovers Read.expr e.print fun x => x.core = e.core := by
  have hplain : (match Read.expr 1024 (.atStart "a - -b/ *p&^((^c))[f(x, y...):]") with
      | .ok (e, _) => e.isPlain
      | .error _ => false) = true := by decide +kernel
  cases hread : Read.expr 1024 (.atStart "a - -b/ *p&^((^c))[f(x, y...):]") with
  | error => simp [hread] at hplain
  | ok r =>
    rw [hread] at hplain
    exact ⟨r.1, r.2, rfl, hplain, read_print (List.suffix_refl _) hread hplain⟩

end Expr

end FuncLift
