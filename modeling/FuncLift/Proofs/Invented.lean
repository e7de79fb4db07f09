import FuncLift.Proofs.Relexed
import FuncLift.Proofs.Session

/-!
# Invented identifiers

The name of a new function and the placeholder of a type that is not known are written into the text,
so a scan had better read them as names. Both are checked or made by the classes of the Unicode
standard, while a scan has its own letters and digits, which are fewer. The two agree on texts without
the characters in between: letter numbers, marks, fractions, superscripts and the like.
-/
namespace FuncLift

namespace CharRanges

theorem exists_of_covers {rs : CharRanges} {n : Nat} (h : rs.covers n = true) :
    ∃ r ∈ rs, r.1 ≤ n ∧ n ≤ r.2 := by
  induction rs with
  | nil => cases h
  | cons r rs ih =>
    simp only [covers, Bool.and_eq_true, Bool.or_eq_true, decide_eq_true_eq] at h
    obtain ⟨hlo, hhi | hrest⟩ := h
    · exact ⟨r, List.mem_cons_self, hlo, hhi⟩
    · obtain ⟨s, hs, hn⟩ := ih hrest
      exact ⟨s, List.mem_cons_of_mem _ hs, hn⟩

end CharRanges

theorem disjoint_decimalRanges : ∀ r ∈ furtherAlphabeticRanges, ∀ s ∈ decimalRanges,
    r.2 < s.1 ∨ s.2 < r.1 := by
  have hall : furtherAlphabeticRanges.all (fun r =>
      decimalRanges.all fun s => r.2.blt s.1 || s.2.blt r.1) = true := by decide +kernel
  simpa using hall

namespace Lexeme

variable {c : Char}

/-- Alphanumeric by the Unicode standard, but no part of a word to a scan. -/
def Exotic (c : Char) : Prop := isAlphanumeric c = true ∧ continuesWord c = false

theorem startsWord_of_isAlphabetic (h : isAlphabetic c = true ∨ c = '_') (hc : ¬ Exotic c) :
    startsWord c = true := by
  rcases h with halpha | rfl
  · by_cases hletter : isLetter c = true
    · rw [startsWord, hletter, Bool.or_true]
    have hfurther : furtherAlphabeticRanges.covers c.toNat = true := by
      rw [isAlphabetic, Bool.or_eq_true] at halpha
      exact halpha.resolve_left hletter
    have hdigit : isDecimalDigit c = false := by
      rw [Bool.eq_false_iff]
      intro hdigit
      obtain ⟨r, hr, hlo, hhi⟩ := CharRanges.exists_of_covers hfurther
      obtain ⟨s, hs, hlo', hhi'⟩ := CharRanges.exists_of_covers hdigit
      rcases disjoint_decimalRanges r hr s hs with hlt | hlt
      · omega
      · omega
    by_cases hstart : startsWord c = true
    · exact hstart
    · have halnum : isAlphanumeric c = true := by rw [isAlphanumeric, halpha, Bool.true_or]
      have hcontinues : continuesWord c = false := by
        rw [continuesWord, hdigit, Bool.or_false]
        exact Bool.eq_false_iff.2 hstart
      exact absurd ⟨halnum, hcontinues⟩ hc
  · rfl

theorem continuesWord_of_isAlphanumeric (h : isAlphanumeric c = true ∨ c = '_') (hc : ¬ Exotic c) :
    continuesWord c = true := by
  rcases h with halnum | rfl
  · by_cases hcontinues : continuesWord c = true
    · exact hcontinues
    · exact absurd ⟨halnum, Bool.eq_false_iff.2 hcontinues⟩ hc
  · rfl

theorem isAlphabetic_of_startsWord (h : startsWord c = true) : isAlphabetic c = true ∨ c = '_' := by
  rw [startsWord, Bool.or_eq_true, beq_iff_eq] at h
  rcases h with hunderscore | hletter
  · exact .inr hunderscore
  · rw [isAlphabetic, hletter, Bool.true_or]
    exact .inl rfl

theorem isAlphanumeric_of_continuesWord (h : continuesWord c = true) :
    isAlphanumeric c = true ∨ c = '_' := by
  rw [continuesWord, Bool.or_eq_true] at h
  rcases h with hstart | hdigit
  · refine (isAlphabetic_of_startsWord hstart).imp_left fun halpha => ?_
    rw [isAlphanumeric, halpha, Bool.true_or]
  · rw [isAlphanumeric, isNumeral, hdigit, Bool.true_or, Bool.or_true]
    exact .inl rfl

theorem not_exotic_of_continuesWord (h : continuesWord c = true) : ¬ Exotic c := by
  rintro ⟨-, hfalse⟩
  rw [h] at hfalse
  cases hfalse

end Lexeme

namespace Token

/-- A scan reads a text as a name and nothing else, up to the semicolon of the text's end. -/
def ReadsAsName (s : String) : Prop :=
  scan s = ⟨[⟨.ident s, 0, s.utf8ByteSize⟩, ⟨.punct .semi, s.utf8ByteSize, s.utf8ByteSize⟩], [], []⟩

theorem readsAsName_iff {s : String} : ReadsAsName s ↔ IsName s := by
  constructor
  · intro h
    have hmem : ⟨.ident s, 0, s.utf8ByteSize⟩ ∈ (scan s).tokens := by
      rw [h]
      exact List.mem_cons_self
    exact Scan.isName_ofLexemes .start 0 s.toList hmem rfl
  · rintro ⟨⟨c, w, hs, hc, hw⟩, hkeyword⟩
    have hfront : Lexeme.atFront c (w ++ []) = (.word, w.length) := Lexeme.atFront_word hc hw (by simp)
    have hall := Lexeme.all_cons hfront
    have hsize : byteSize (c :: w) = s.utf8ByteSize := by rw [← hs, byteSize_toList]
    rw [List.append_nil] at hall
    rw [ReadsAsName, scan, hs, hall]
    have hofList : String.ofList (c :: w) = s := by rw [← hs, String.ofList_toList]
    have hends : (Token.ident s).endsStatement = true := rfl
    simp [Lexeme.all, Scan.ofLexemes, Scan.ofLexeme, Scan.read, hofList, hkeyword, Scan.token,
      Scan.append, Scan.lineEnd, hsize, hends]

end Token

/-! ## Names of functions -/

theorem validName_iff {name : String} : validName name = true ↔ name ≠ "_" ∧
    Keyword.ofSpelling? name = none ∧ ∃ c w, name.toList = c :: w ∧
      (isAlphabetic c = true ∨ c = '_') ∧ ∀ d ∈ w, isAlphanumeric d = true ∨ d = '_' := by
  unfold validName
  cases hs : name.toList with
  | nil => simp
  | cons c w =>
    simp only [Bool.and_eq_true, Bool.or_eq_true, beq_iff_eq, List.all_eq_true, bne_iff_ne,
      Option.isNone_iff_eq_none]
    constructor
    · rintro ⟨⟨⟨hc, hw⟩, hblank⟩, hkeyword⟩
      exact ⟨hblank, hkeyword, c, w, rfl, hc, hw⟩
    · rintro ⟨hblank, hkeyword, _, _, heq, hc, hw⟩
      cases heq
      exact ⟨⟨⟨hc, hw⟩, hblank⟩, hkeyword⟩

/-- A name is good exactly if it would be read as one, the blank name and exotic ones apart. -/
theorem validName_readsAsName {name : String} :
    Token.ReadsAsName name ∧ name ≠ "_" ↔
      validName name = true ∧ ∀ c ∈ name.toList, ¬ Lexeme.Exotic c := by
  rw [Token.readsAsName_iff, validName_iff]
  constructor
  · rintro ⟨⟨⟨c, w, hs, hc, hw⟩, hkeyword⟩, hblank⟩
    refine ⟨⟨hblank, hkeyword, c, w, hs, Lexeme.isAlphabetic_of_startsWord hc,
      fun d hd => Lexeme.isAlphanumeric_of_continuesWord (hw d hd)⟩, ?_⟩
    intro d hd
    rw [hs] at hd
    apply Lexeme.not_exotic_of_continuesWord
    rcases List.mem_cons.1 hd with rfl | hd
    · rw [Lexeme.continuesWord, hc, Bool.true_or]
    · exact hw d hd
  · rintro ⟨⟨hblank, hkeyword, c, w, hs, hc, hw⟩, hplain⟩
    rw [hs] at hplain
    have hstart := Lexeme.startsWord_of_isAlphabetic hc (hplain c List.mem_cons_self)
    have hcontinue : ∀ d ∈ w, Lexeme.continuesWord d = true := fun d hd =>
      Lexeme.continuesWord_of_isAlphanumeric (hw d hd) (hplain d (List.mem_cons_of_mem _ hd))
    exact ⟨⟨⟨c, w, hs, hstart, hcontinue⟩, hkeyword⟩, hblank⟩

/-! ## Placeholders of types -/

namespace Ty

theorem mem_hintFrom {kept cs : List Char} {c : Char} (h : c ∈ hintFrom kept cs) :
    c ∈ kept ∨ c = '_' ∨ (c ∈ cs ∧ isAlphanumeric c = true) := by
  induction cs generalizing kept with
  | nil => exact .inl h
  | cons d cs ih =>
    -- one character adds itself, an underscore or nothing
    have hstep : ∀ kept', (kept' = kept ∨ kept' = '_' :: kept ∨
        (kept' = d :: kept ∧ (isAlphanumeric d = true ∨ d = '_'))) → c ∈ kept' →
        c ∈ kept ∨ c = '_' ∨ (c ∈ d :: cs ∧ isAlphanumeric c = true) := by
      rintro kept' (rfl | rfl | ⟨rfl, hd⟩) hc
      · exact .inl hc
      · rcases List.mem_cons.1 hc with rfl | hc
        · exact .inr (.inl rfl)
        · exact .inl hc
      · rcases List.mem_cons.1 hc with rfl | hc
        · rcases hd with hd | rfl
          · exact .inr (.inr ⟨List.mem_cons_self, hd⟩)
          · exact .inr (.inl rfl)
        · exact .inl hc
    rw [hintFrom] at h
    generalize hkept' : (if (isAlphanumeric d || d == '_') = true then d :: kept
      else if (kept.isEmpty || kept.head? == some '_') = true then kept else '_' :: kept) = kept' at h
    have hshape : kept' = kept ∨ kept' = '_' :: kept ∨
        (kept' = d :: kept ∧ (isAlphanumeric d = true ∨ d = '_')) := by
      by_cases hd : (isAlphanumeric d || d == '_') = true
      · rw [if_pos hd] at hkept'
        rw [Bool.or_eq_true, beq_iff_eq] at hd
        exact .inr (.inr ⟨hkept'.symm, hd⟩)
      · rw [if_neg hd] at hkept'
        by_cases hlast : (kept.isEmpty || kept.head? == some '_') = true
        · rw [if_pos hlast] at hkept'
          exact .inl hkept'.symm
        · rw [if_neg hlast] at hkept'
          exact .inr (.inl hkept'.symm)
    by_cases hsize : hintSize ≤ byteSize kept'
    · rw [if_pos hsize] at h
      exact hstep kept' hshape h
    · rw [if_neg hsize] at h
      rcases ih h with h | h | ⟨hc, halnum⟩
      · exact hstep kept' hshape h
      · exact .inr (.inl h)
      · exact .inr (.inr ⟨List.mem_cons_of_mem _ hc, halnum⟩)

/-- A hint consists of underscores and of alphanumeric characters, which come from the text unless
there were none. -/
theorem mem_hint {s : String} {c : Char} (h : c ∈ (hint s).toList) :
    c = '_' ∨ (isAlphanumeric c = true ∧ (c ∈ s.toList ∨ Lexeme.continuesWord c = true)) := by
  unfold hint at h
  split at h
  · have hvalue : "value".toList.all Lexeme.continuesWord = true := by decide
    have hcontinues := List.all_eq_true.1 hvalue c h
    rcases Lexeme.isAlphanumeric_of_continuesWord hcontinues with halnum | hunderscore
    · exact .inr ⟨halnum, .inr hcontinues⟩
    · exact .inl hunderscore
  · rename_i kept _
    have hmem : c ∈ hintFrom [] s.toList := by
      rw [String.toList_ofList, List.mem_reverse] at h
      exact (List.dropWhile_suffix _).subset h
    rcases mem_hintFrom hmem with h | h | ⟨hc, halnum⟩
    · cases h
    · exact .inl h
    · exact .inr ⟨halnum, .inl hc⟩

theorem ofSpelling_placeholder (hint : String) : Keyword.ofSpelling? (placeholder hint) = none := by
  have hhead : ∀ k ∈ Keyword.all, k.spelling.toList.head? ≠ some 'U' := by decide +kernel
  rw [Keyword.ofSpelling?, List.find?_eq_none]
  intro k hk hspelling
  rw [beq_iff_eq] at hspelling
  apply hhead k hk
  rw [hspelling, placeholder, String.toList_append]
  rfl

theorem placeholder_readsAsName {hint : String} : Token.ReadsAsName (placeholder hint) ↔
    ∀ c ∈ hint.toList, Lexeme.continuesWord c = true := by
  have htoList : (placeholder hint).toList = 'U' :: ("nresolved_".toList ++ hint.toList) := by
    rw [placeholder, String.toList_append]
    rfl
  have hplain : "nresolved_".toList.all Lexeme.continuesWord = true := by decide
  rw [Token.readsAsName_iff, Token.IsName, htoList]
  constructor
  · rintro ⟨⟨c, w, hw, -, hcontinues⟩, -⟩ d hd
    obtain ⟨rfl, rfl⟩ := List.cons.inj hw
    exact hcontinues d (List.mem_append_right _ hd)
  · intro h
    refine ⟨⟨'U', _, rfl, by decide, ?_⟩, ofSpelling_placeholder hint⟩
    intro d hd
    rcases List.mem_append.1 hd with hd | hd
    · exact List.all_eq_true.1 hplain d hd
    · exact h d hd

end Ty

/-- The placeholder of an expression whose type is not known is read as a name exactly if the hint has
no exotic character. -/
theorem Expr.unresolved_readsAsName {e : Expr} : Token.ReadsAsName e.unresolved.text ↔
    ∀ c ∈ (Ty.hint e.print).toList, ¬ Lexeme.Exotic c := by
  have htext : e.unresolved.text = Ty.placeholder (Ty.hint e.print) := rfl
  rw [htext, Ty.placeholder_readsAsName]
  constructor
  · exact fun h c hc => Lexeme.not_exotic_of_continuesWord (h c hc)
  · intro h c hc
    apply Lexeme.continuesWord_of_isAlphanumeric _ (h c hc)
    exact (Ty.mem_hint hc).symm.imp_left And.left

/-- Names and placeholders are read as names, and what is read as a name is a good one, except for
exotic characters in them; a placeholder has none if the expression has none. -/
theorem invented_readsAsName (name : String) (e : Expr) :
    (Token.ReadsAsName name ∧ name ≠ "_" ↔
      validName name = true ∧ ∀ c ∈ name.toList, ¬ Lexeme.Exotic c) ∧
    (Token.ReadsAsName e.unresolved.text ↔ ∀ c ∈ (Ty.hint e.print).toList, ¬ Lexeme.Exotic c) ∧
    ((∀ c ∈ e.print.toList, ¬ Lexeme.Exotic c) → Token.ReadsAsName e.unresolved.text) := by
  refine ⟨validName_readsAsName, Expr.unresolved_readsAsName, fun h => ?_⟩
  apply Expr.unresolved_readsAsName.2
  intro c hc
  rcases Ty.mem_hint hc with rfl | ⟨-, hc | hcontinues⟩
  · exact Lexeme.not_exotic_of_continuesWord (by decide)
  · exact h c hc
  · exact Lexeme.not_exotic_of_continuesWord hcontinues

/-- A letter number is no letter to a scan, and a superscript no digit. Both get into the text. -/
theorem exotic_written : ∃ d next done, Document.ofSource "package p\n\nvar v = f(\"²\")\n" = .ok d ∧
    d.lift ⟨⟨3, 9⟩, ⟨3, 16⟩⟩ "Ⅰ" = .ok (next, done) ∧
    (validName "Ⅰ" = true ∧ ¬ Token.ReadsAsName "Ⅰ") ∧
    done.plan.results.map Ty.text = ["Unresolved_f_²"] ∧ ¬ Token.ReadsAsName "Unresolved_f_²" := by
  obtain ⟨d, next, done, hread, hlift, hcheck⟩ := Document.exists_lift
    "package p\n\nvar v = f(\"²\")\n" ⟨⟨3, 9⟩, ⟨3, 16⟩⟩ "Ⅰ"
    (fun _ _ done => decide (done.plan.results.map Ty.text = ["Unresolved_f_²"])) (by decide +kernel)
  refine ⟨d, next, done, hread, hlift, ⟨by decide +kernel, fun h => ?_⟩, of_decide_eq_true hcheck,
    fun h => ?_⟩
  · obtain ⟨⟨c, w, hw, hstart, -⟩, -⟩ := Token.readsAsName_iff.1 h
    obtain ⟨rfl, -⟩ := List.cons.inj (show ['Ⅰ'] = c :: w from hw)
    revert hstart
    decide +kernel
  · have hread : Token.ReadsAsName (Ty.placeholder "f_²") := h
    have hcontinues := Ty.placeholder_readsAsName.1 hread '²' (by decide)
    revert hcontinues
    decide +kernel

end FuncLift
