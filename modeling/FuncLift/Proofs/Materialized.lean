import FuncLift.Proofs.Inscribed
import FuncLift.Proofs.Interned
import FuncLift.Proofs.Made

/-!
# Types that are written as new nodes

A type has a text of its own, and it can be made into nodes, which are then printed like any others.
The two texts are the same. What is made takes fresh numbers and has no place, and the texts it holds
are added to a vocabulary behind those that were there.
-/
namespace FuncLift

/-! ## Texts that are added -/

namespace Interner

variable {hash : String → UInt64} {i j k : Interner hash}

/-- All texts keep their numbers. -/
structure Extends (i j : Interner hash) : Prop where
  texts : i.texts.toList <+: j.texts.toList
  numbers : ∀ s n, i.get? s = some n → j.get? s = some n

theorem Extends.refl : Extends i i := ⟨List.prefix_refl _, fun _ _ h => h⟩

theorem Extends.trans (h : Extends i j) (h' : Extends j k) : Extends i k :=
  ⟨h.texts.trans h'.texts, fun s n hs => h'.numbers s n (h.numbers s n hs)⟩

/-- A new text comes behind the others, in the list and in its bucket. -/
theorem extends_intern (i : Interner hash) (s : String) : Extends i (i.intern s).2 := by
  rw [intern]
  cases hs : i.get? s with
  | some n => exact .refl
  | none =>
    refine ⟨by simp, fun w n hw => ?_⟩
    have hne : s ≠ w := by
      rintro rfl
      rw [hs] at hw
      cases hw
    -- at the new number there is none of the old texts, and no other number has changed
    have hsame : (fun (m : Nat) => (i.texts.push s)[m]? == some w) = fun (m : Nat) => i.texts[m]? == some w := by
      funext m
      rw [Array.getElem?_push]
      by_cases hm : m = i.texts.size
      · rw [if_pos hm, hm, Array.getElem?_eq_none (Nat.le_refl _)]
        simpa using hne
      · rw [if_neg hm]
    rw [get?, bucket] at hw ⊢
    dsimp only at hw ⊢
    rw [lookup_addTo, List.find?_append, hsame, hw]
    rfl

end Interner

theorem Vocabulary.extends_addAll (v : Vocabulary) (ss : List String) :
    Interner.Extends v (v.addAll ss) := by
  unfold addAll
  induction ss generalizing v with
  | nil => exact .refl
  | cons s ss ih => exact (Interner.extends_intern v s).trans (ih _)

/-! ## The nodes of a type -/

/-- On a page without lines the text is drawn. -/
abbrev Spells (m : Draw Unit) (s : String) : Prop := Inscribes ⟨[]⟩ m s.toList fun _ => True

namespace Ty

/-- Fields without names are drawn as the texts. -/
structure Fields (fs : List Field) (ws : List String) : Prop where
  unnamed : ∀ f ∈ fs, f.names = []
  row : Draw.Row ⟨[]⟩ 1 (Draw.fieldItems fs) (ws.map String.toList)

theorem paramTexts_false (ts : List Ty) : paramTexts false ts = texts ts := by
  induction ts with
  | nil => rw [paramTexts, texts]
  | cons t ts ih => rw [paramTexts, texts, ih, Bool.false_and, if_neg Bool.false_ne_true]

theorem fields_cons {t : TypeExpr} {u : Tag} {variadic : Bool} {w : String} {fs : List Field}
    {ws : List String} (ht : Spells (Draw.typeExpr t) w) (hfs : Fields fs ws) :
    Fields (⟨u, [], t, variadic, none⟩ :: fs) ((if variadic then "..." ++ w else w) :: ws) := by
  refine ⟨List.forall_mem_cons.2 ⟨rfl, hfs.unnamed⟩, ?_⟩
  rw [Draw.fieldItems, List.map_cons]
  refine .cons ⟨LineTable.holds_empty _, LineTable.holds_empty _, ?_⟩ hfs.row
  dsimp only [Draw.field]
  refine .offset fun start => ?_
  have htype : Spells (do
      Draw.typeExpr t
      Draw.markNode .field u start) w := ht.then_ fun _ _ => .markNode .field u start
  cases variadic with
  | true =>
    have hdots := (Inscribes.text "...").bind fun _ _ => htype
    rw [← String.toList_append] at hdots
    exact hdots
  | false => exact htype

theorem toList_intercalate (ws : List String) :
    (", ".intercalate ws).toList = commas (ws.map String.toList) := by
  induction ws with
  | nil => rfl
  | cons w ws ih =>
    cases ws with
    | nil => simp [commas]
    | cons v vs =>
      rw [String.intercalate_cons_cons, String.toList_append, String.toList_append, ih]
      simp [commas]

theorem toList_resultText {rs : List Field} {ws : List String} (h : Fields rs ws) :
    (resultText ws).toList = if Field.isLone rs then ' ' :: commas (ws.map String.toList)
      else if (ws.map String.toList).isEmpty then [] else ' ' :: parenthesized (ws.map String.toList) := by
  obtain ⟨hunnamed, hrow⟩ := h
  have hlength : (Draw.fieldItems rs).length = ws.length := by simpa using hrow.length_eq
  rcases rs with _ | ⟨⟨u, ns, type, variadic, label⟩, _ | ⟨g, fs⟩⟩
  · obtain rfl : ws = [] := List.eq_nil_of_length_eq_zero hlength.symm
    rfl
  · obtain ⟨w, rfl⟩ : ∃ w, ws = [w] := List.length_eq_one_iff.1 hlength.symm
    obtain rfl : ns = [] := hunnamed _ List.mem_cons_self
    simp [resultText, Field.isLone, commas]
  · rcases ws with _ | ⟨w, _ | ⟨v, ws⟩⟩
    · cases hlength
    · cases hlength
    · have hlone : Field.isLone (⟨u, ns, type, variadic, label⟩ :: g :: fs) = false := by
        cases ns <;> rfl
      have htext : resultText (w :: v :: ws) = " (" ++ ", ".intercalate (w :: v :: ws) ++ ")" := rfl
      rw [hlone, htext, String.toList_append, String.toList_append, toList_intercalate]
      simp [parenthesized]

theorem spells_signature {t : Tag} {ps rs : List Field} {vs ws : List String} (hps : Fields ps vs)
    (hrs : Fields rs ws) : Spells (Draw.signature ⟨t, ps, rs⟩)
      ("(" ++ ", ".intercalate vs ++ ")" ++ resultText ws) := by
  have hparams : ("(" ++ ", ".intercalate vs ++ ")").toList = parenthesized (vs.map String.toList) := by
    rw [String.toList_append, String.toList_append, toList_intercalate]
    simp [parenthesized]
  rw [Spells, String.toList_append, hparams, toList_resultText hrs]
  exact .signature hps.row hrs.row (LineTable.holds_empty _) (LineTable.holds_empty _)

mutual

theorem spells_node : ∀ (t : Ty) (n : Nat),
    Spells (Draw.typeExpr (t.node n).1) t.text
  | .named none name, n => .markedType (.text name)
  | .named (some pkg) name, n => by
    rw [Spells, text, String.append_assoc, String.toList_append, String.toList_append]
    exact .markedType ((Inscribes.text pkg).bind fun _ _ => (Inscribes.text ".").bind fun _ _ => .text name)
  | .pointer e, n => by
    rw [Spells, text, String.toList_append]
    exact .markedType ((Inscribes.text "*").bind fun _ _ => spells_node e _)
  | .slice e, n => by
    rw [Spells, text, String.toList_append]
    exact .markedType ((Inscribes.text "[]").bind fun _ _ => spells_node e _)
  | .array none e, n => by
    have h := (Inscribes.text "[").bind fun _ _ => (Inscribes.text "...").bind fun _ _ =>
      (Inscribes.text "]").bind fun _ _ => spells_node e (n + 1)
    rw [Spells, text, String.toList_append]
    exact .markedType h
  | .array (some len) e, n => by
    have h := (Inscribes.text "[").bind fun _ _ => (Inscribes.ident 1 ⟨n + 1, .unset⟩ len).bind fun _ _ =>
      (Inscribes.text "]").bind fun _ _ => spells_node e (n + 2)
    rw [Spells, text, String.append_assoc, String.append_assoc, String.toList_append, String.toList_append,
      String.toList_append]
    exact .markedType h
  | .map k v, n => by
    rw [Spells, text, String.append_assoc, String.append_assoc, String.toList_append, String.toList_append,
      String.toList_append]
    exact .markedType ((Inscribes.text "map[").bind fun _ _ => (spells_node k _).bind fun _ _ =>
      (Inscribes.text "]").bind fun _ _ => spells_node v _)
  | .chan dir e, n => by
    rw [Spells, text, String.toList_append]
    cases dir with
    | both => exact .markedType ((Inscribes.text "chan ").bind fun _ _ => spells_node e _)
    | send => exact .markedType ((Inscribes.text "chan<- ").bind fun _ _ => spells_node e _)
    | recv => exact .markedType ((Inscribes.text "<-chan ").bind fun _ _ => spells_node e _)
  | .func ps rs variadic, n => by
    have hps := spells_fields variadic ps (n + 2)
    have hrs := spells_fields false rs (Ty.fields variadic ps (n + 2)).2
    rw [paramTexts_false] at hrs
    have h := (Inscribes.text "func").bind fun _ _ => @spells_signature ⟨n + 1, .unset⟩ _ _ _ _ hps hrs
    have htext : (Ty.func ps rs variadic).text = "func" ++ ("(" ++ ", ".intercalate
        (paramTexts variadic ps) ++ ")" ++ resultText (texts rs)) := by
      have hopen : "func(" = "func" ++ "(" := by decide
      rw [text, hopen]
      simp only [String.append_assoc]
    rw [Spells, htext, String.toList_append]
    exact .markedType h
  | .literal s, n => .markedType (.text s)
  | .unresolved hint, n => .markedType (.text (placeholder hint))

theorem spells_fields (variadic : Bool) : ∀ (ts : List Ty) (n : Nat),
    Fields (Ty.fields variadic ts n).1 (paramTexts variadic ts)
  | [], n => ⟨List.forall_mem_nil _, .nil⟩
  | t :: ts, n => by
    rw [paramTexts]
    exact fields_cons (spells_node t _) (spells_fields variadic ts _)

end

/-- The nodes print as the type, and nothing is changed that was there before. -/
structure Materializes (t : Ty) (n : Nat) (e : TypeExpr) (n' : Nat) : Prop where
  prints : e.print = t.text
  /-- The numbers of the new nodes are taken from the next free one on, each at most once. -/
  grows : n ≤ n'
  fresh : ∀ i, idCount i e.entries ≤ between n n' i
  placeless : ∀ x ∈ e.entries, x.New

end Ty

/-- A type is made into nodes that print as its text does. The nodes are new, and the texts in them are
added to a vocabulary without a change to those that it had. -/
theorem Ty.materializes (t : Ty) (n : Nat) : t.Materializes n (t.node n).1 (t.node n).2 ∧
    ∀ v : Vocabulary, Interner.Extends v (v.addAll t.words) := by
  obtain ⟨hle, -, hnew, hfresh⟩ := Makes.node t n
  refine ⟨⟨?_, hle, fun i => ?_, fun x hx => ?_⟩, fun v => v.extends_addAll t.words⟩
  · exact String.toList_inj.1 (spells_node t n).toList_fragment
  · have hcount := hfresh i
    rwa [idCount_nil, Nat.zero_add] at hcount
  · exact (hnew x hx).resolve_left List.not_mem_nil

end FuncLift
