import FuncLift.Proofs.Positions
import FuncLift.Proofs.Echoed
import FuncLift.Proofs.Precedence

/-!
# Which files are printed the same again

A file of declarations that give names a bare type on one line is printed as a text that is read again:
the declarations have the shape of the grammar, so they are laid out as tokens that are read back, and
they come to stand on the lines that their line breaks say, so as many are put there again. What
differs are the types whose arrows are taken for those of another keyword.
-/
namespace FuncLift

namespace LineTable

theorem length_splitLengths (cs : List Char) : (splitLengths cs).1.length = cs.count '\n' := by
  induction cs with
  | nil => rfl
  | cons c cs ih =>
    rw [splitLengths_cons]
    by_cases hc : c = '\n'
    · rw [if_pos hc, hc, List.count_cons_self, List.length_cons, ih]
    · rw [if_neg hc, List.count_cons_of_ne hc, ← ih]
      split <;> simp_all

theorem splitLengths_line {cs : List Char} (h : '\n' ∉ cs) (b : List Char) :
    (splitLengths (cs ++ '\n' :: b)).1 = byteSize cs :: (splitLengths b).1 := by
  induction cs with
  | nil => rfl
  | cons c cs ih =>
    have hc := List.ne_of_not_mem_cons h
    rw [List.cons_append, splitLengths_cons, if_neg (Ne.symm hc), ih (List.not_mem_of_not_mem_cons h)]
    rfl

theorem lineOf_ofText {text : String} {a cs b : List Char} {offset : Nat}
    (htext : text.toList = a ++ '\n' :: (cs ++ '\n' :: b)) (hcs : '\n' ∉ cs)
    (hlo : byteSize a + 1 ≤ offset) (hhi : offset ≤ byteSize a + 1 + byteSize cs) :
    (ofText text).lineOf offset = a.count '\n' + 2 := by
  have hlines : (ofText text).lengths =
      (splitLengths (a ++ ['\n'])).1 ++ byteSize cs :: (splitLengths b).1 := by
    rw [ofText, htext, splitLengths_newline, splitLengths_line hcs]
  have hbytes : bytes (splitLengths (a ++ ['\n'])).1 = byteSize a + 1 := by
    have hsum := bytes_splitLengths (a ++ ['\n'])
    rw [(splitLengths_terminated (by simp)).1, byteSize_append] at hsum
    exact hsum
  obtain ⟨k, rfl⟩ := Nat.exists_eq_add_of_le hlo
  rw [lineOf, hlines, ← hbytes, locate_append (by omega), length_splitLengths, List.count_append]
  rfl

theorem byteSize_breaks (n : Nat) : byteSize (List.replicate n '\n') = n := by
  induction n with
  | zero => rfl
  | succ n ih =>
    have hone : '\n'.utf8Size = 1 := rfl
    rw [List.replicate_succ, byteSize, ih, hone, Nat.add_comm]

theorem lineOf_breaks {text : String} {a cs b : List Char} {n offset : Nat} (hn : 1 ≤ n)
    (htext : text.toList = a ++ (List.replicate n '\n' ++ (cs ++ '\n' :: b))) (hcs : '\n' ∉ cs)
    (hsize : text.utf8ByteSize < Span.unknown) (hlo : byteSize a + n ≤ offset)
    (hhi : offset ≤ byteSize a + n + byteSize cs) :
    offset < Span.unknown ∧ (ofText text).lineOf offset = a.count '\n' + 1 + n := by
  obtain ⟨k, rfl⟩ := Nat.exists_eq_add_of_le' hn
  have hone : '\n'.utf8Size = 1 := rfl
  have hline : text.toList = (a ++ List.replicate k '\n') ++ '\n' :: (cs ++ '\n' :: b) := by
    rw [htext, List.replicate_succ']
    simp
  have hfront : byteSize (a ++ List.replicate k '\n') = byteSize a + k := by
    rw [byteSize_append, byteSize_breaks]
  have hbytes := congrArg byteSize hline
  rw [byteSize_toList, byteSize_append, hfront, byteSize, byteSize_append] at hbytes
  refine ⟨by omega, ?_⟩
  rw [lineOf_ofText hline hcs (by omega) (by omega), List.count_append, List.count_replicate_self]
  omega

end LineTable

theorem Token.IsName.not_mem_newline {n : String} (h : Token.IsName n) : '\n' ∉ n.toList := by
  obtain ⟨⟨c, w, hs, hc, hw⟩, -⟩ := h
  rw [hs]
  intro hmem
  rcases List.mem_cons.1 hmem with rfl | hmem
  · exact absurd hc (by decide)
  · exact absurd (hw _ hmem) (by decide)

theorem not_mem_commas {ws : List (List Char)} (h : ∀ w ∈ ws, '\n' ∉ w) : '\n' ∉ commas ws := by
  cases ws with
  | nil => exact List.not_mem_nil
  | cons w ws =>
    obtain ⟨hw, hws⟩ := List.forall_mem_cons.1 h
    simpa [commas, hw] using hws

theorem not_mem_names {ns : List Name} (h : ∀ n ∈ ns.map Name.text, Token.IsName n) :
    '\n' ∉ commas (ns.map fun n => n.text.toList) := by
  apply not_mem_commas
  intro w hw
  obtain ⟨n, hn, rfl⟩ := List.mem_map.1 hw
  exact (h n.text (List.mem_map_of_mem hn)).not_mem_newline

theorem not_mem_signatureChars {vs ws : List (List Char)} (hvs : ∀ w ∈ vs, '\n' ∉ w)
    (hws : ∀ w ∈ ws, '\n' ∉ w) (lone : Bool) : '\n' ∉ signatureChars vs ws lone := by
  have hparens {ws : List (List Char)} (h : ∀ w ∈ ws, '\n' ∉ w) : '\n' ∉ parenthesized ws := by
    simpa [parenthesized] using not_mem_commas h
  have hresults : '\n' ∉ if lone then ' ' :: commas ws else
      if ws.isEmpty then [] else ' ' :: parenthesized ws := by
    split
    · simpa using not_mem_commas hws
    · split
      · exact List.not_mem_nil
      · simpa using hparens hws
  rw [signatureChars, List.mem_append]
  exact not_or.2 ⟨hparens hvs, hresults⟩

theorem Field.not_mem_leadChars {ns : List Name} (h : ∀ n ∈ ns.map Name.text, Token.IsName n)
    (variadic : Bool) : '\n' ∉ leadChars ns variadic := by
  have hnames : '\n' ∉ if ns.isEmpty then [] else commas (ns.map fun n => n.text.toList) ++ [' '] := by
    split
    · exact List.not_mem_nil
    · simpa using not_mem_names h
  have hdots : '\n' ∉ if variadic then "...".toList else [] := by cases variadic <;> decide
  rw [leadChars, List.mem_append]
  exact not_or.2 ⟨hnames, hdots⟩

namespace TypeExpr

theorem not_mem_fieldLetters {fs : List Field} (hfs : ∀ f ∈ fs, '\n' ∉ f.type.letters)
    (hparams : ∀ f ∈ fs, f.IsParam) : ∀ w ∈ fieldLetters fs, '\n' ∉ w := by
  intro w hw
  rw [fieldLetters_eq] at hw
  obtain ⟨f, hf, rfl⟩ := List.mem_map.1 hw
  rw [List.mem_append]
  exact not_or.2 ⟨Field.not_mem_leadChars (hparams f hf).names f.variadic, hfs f hf⟩

theorem Shaped.not_mem_newline {t : TypeExpr} (h : t.Shaped) (hbare : t.isBare = true) :
    '\n' ∉ t.letters := by
  induction h with
  | @named _ pkg n hpkg hn =>
    cases pkg with
    | none => simpa [letters] using hn.not_mem_newline
    | some p => simpa [letters] using ⟨(hpkg p rfl).not_mem_newline, hn.not_mem_newline⟩
  | pointer _ ih | slice _ ih => simpa [letters] using ih hbare
  | @array _ len e hlen _ ih =>
    obtain ⟨hname, he⟩ := Bool.and_eq_true_iff.1 hbare
    cases len with
    | none => simpa [letters] using ih he
    | some l =>
      cases hlen l rfl with
      | ident hn => simpa [letters, Expr.nameChars] using ⟨hn.not_mem_newline, ih he⟩
      | _ => cases hname
  | @map _ k v _ _ ihk ihv =>
    obtain ⟨hk, hv⟩ := Bool.and_eq_true_iff.1 hbare
    simpa [letters] using ⟨ihk hk, ihv hv⟩
  | @chan _ dir e _ ih => cases dir <;> simpa [letters, chanText] using ih hbare
  | @func _ _ ps rs _ _ hparams hresults _ ihps ihrs =>
    simp only [isBare, Bool.and_eq_true, areBare_iff] at hbare
    have hps := not_mem_fieldLetters (fun f hf => ihps f hf (hbare.1.2 f hf).2) hparams
    have hrs := not_mem_fieldLetters (fun f hf => ihrs f hf (hbare.2 f hf).2) hresults
    simpa [letters] using not_mem_signatureChars hps hrs (Field.isLone rs)
  | struct | interface => simp [letters, blockChars]

end TypeExpr

/-! ## Types on the line of their declaration -/

/-- An upright node that lies between two offsets. -/
structure Node.Within (lo hi : Nat) (n : Node) : Prop where
  upright : Upright n
  start : lo ≤ n.span.start
  stop : n.span.stop ≤ hi

theorem Node.Within.child {lo hi : Nat} {n c : Node} (h : n.Within lo hi) (hc : .child c ∈ n.pieces) :
    c.Within lo hi := by
  obtain ⟨hstart, hstop, hupright⟩ := h.upright.row.of_mem hc
  exact ⟨hupright c rfl, Nat.le_trans h.start hstart, Nat.le_trans hstop h.stop⟩

namespace TypeExpr

variable {lines : LineTable} {line lo hi : Nat}

mutual

theorem isFlat_of_within (hlies : ∀ o, lo ≤ o → o ≤ hi → lines.lineOf o = line) :
    ∀ t : TypeExpr, (Node.type t).Within lo hi → t.isFlat lines = true
  | .named .., _ | .struct .., _ | .interface .., _ => rfl
  | .pointer _ e, h | .slice _ e, h | .chan _ _ e, h =>
    isFlat_of_within hlies e (h.child (List.mem_singleton_self _))
  | .array _ len e, h =>
    isFlat_of_within hlies e (h.child (List.mem_append_right _ (List.mem_singleton_self _)))
  | .map _ k v, h => by
    have hk := isFlat_of_within hlies k (h.child List.mem_cons_self)
    have hv := isFlat_of_within hlies v (h.child (List.mem_cons_of_mem _ List.mem_cons_self))
    exact Bool.and_eq_true_iff.2 ⟨hk, hv⟩
  | .func _ ⟨u, ps, rs⟩, h => by
    have hsig : (Node.signature ⟨u, ps, rs⟩).Within lo hi := h.child (List.mem_singleton_self _)
    have hlt : u.span.start < u.span.stop := hsig.upright.tight
    have hstart : lo ≤ u.span.start := hsig.start
    have hstop : u.span.stop ≤ hi := hsig.stop
    have hline : lines.lineOf u.span.start = line := hlies _ hstart (by omega)
    have hclosing : lines.holds line (Draw.closingByte u.span).start = true := by
      unfold Draw.closingByte Draw.offsetBefore known?
      split
      · rename_i e he
        split at he
        · cases he
        · cases he
          have hlast : lines.lineOf (u.span.stop - 1) = line := hlies _ (by omega) (by omega)
          rw [if_neg (by omega)]
          simp [LineTable.holds, hlast]
      · simp [LineTable.holds, Span.unset]
    have hps := areFlat_of_within hlies ps fun f hf =>
      hsig.child (List.mem_append_left _ (List.mem_map_of_mem hf))
    have hrs := areFlat_of_within hlies rs fun f hf =>
      hsig.child (List.mem_append_right _ (List.mem_map_of_mem hf))
    rw [isFlat, hline, hclosing, hps, hrs]
    rfl

theorem areFlat_of_within (hlies : ∀ o, lo ≤ o → o ≤ hi → lines.lineOf o = line) :
    ∀ fs : List Field, (∀ f ∈ fs, (Node.field f).Within lo hi) → areFlat lines line fs = true
  | [], _ => rfl
  | ⟨t, ns, type, v, l⟩ :: fs, h => by
    obtain ⟨hf, hfs⟩ := List.forall_mem_cons.1 h
    have hlt : t.span.start < t.span.stop := hf.upright.tight
    have hstart : lo ≤ t.span.start := hf.start
    have hstop : t.span.stop ≤ hi := hf.stop
    have htype := isFlat_of_within hlies type
      (hf.child (List.mem_append_right _ (List.mem_singleton_self _)))
    have hrest := areFlat_of_within hlies fs hfs
    rw [areFlat, LineTable.holds, LineTable.holds, hlies _ hstart (by omega), hlies _ (by omega) hstop,
      htype, hrest]
    simp

end

end TypeExpr

theorem TopDecl.within_of_sound {d : TopDecl} {t : TypeExpr} (ht : d.bareType? = some t)
    (h : d.piece.Sound) : (Node.type t).Within d.span.start d.span.stop := by
  unfold bareType? at ht
  split at ht
  · rename_i u kind v ns _
    cases ht
    have hdecl : (Node.decl ⟨u, kind, false, [.values v ns (some t) []]⟩).Within u.span.start u.span.stop :=
      ⟨h, Nat.le_refl _, Nat.le_refl _⟩
    refine (hdecl.child (List.mem_singleton_self _)).child ?_
    simp [Node.pieces]
  · rename_i u kind v n isAlias _
    cases ht
    have hdecl : (Node.decl ⟨u, kind, false, [.type v n isAlias t]⟩).Within u.span.start u.span.stop :=
      ⟨h, Nat.le_refl _, Nat.le_refl _⟩
    refine (hdecl.child (List.mem_singleton_self _)).child ?_
    simp [Node.pieces]
  · cases ht

namespace TopDecl

theorem Formed.not_mem_newline {d : TopDecl} {ts : List Token} (h : Formed d ts) :
    '\n' ∉ d.print.toList := by
  have hkind (k : DeclKind) : '\n' ∉ k.spelling.toList := by cases k <;> decide
  cases h with
  | @values t u kind ns type _ _ hnames htype hbare =>
    rw [toList_print (t := type) rfl hbare, lead]
    have hcommas : '\n' ∉ commas ((ns.map Name.text).map String.toList) := by
      rw [List.map_map]
      exact not_mem_names hnames
    rw [List.map_map] at hcommas ⊢
    simpa using ⟨hkind kind, hcommas, htype.not_mem_newline hbare⟩
  | @type t u n isAlias type hn htype hbare =>
    rw [toList_print (t := type) rfl hbare, lead]
    have hsign : '\n' ∉ (if isAlias then " = " else " ").toList := by cases isAlias <;> decide
    simpa [hsign] using ⟨hkind .types, hn.not_mem_newline, htype.not_mem_newline hbare⟩

/-- The same declarations read again, each behind as many line breaks. -/
abbrev Again (rs rs' : List (Nat × TopDecl)) : Prop :=
  List.Forall₂ (fun r r' => r'.1 = r.1 ∧ Echoes r.2 r'.2) rs rs'

theorem Echo.onLines {text : String} {o : Nat} {rs : List (Nat × TopDecl)} {xs : List TopDecl}
    (h : Echo o rs xs) {a : List Char} (htext : text.toList = a ++ (spaced rs ++ ['\n']))
    (ho : byteSize a = o) (hsize : text.utf8ByteSize < Span.unknown)
    (hall : ∀ r ∈ rs, 1 ≤ r.1 ∧ ∃ ts, Formed r.2 ts) :
    ∃ rs', rs'.map Prod.snd = xs ∧ OnLines (.ofText text) (a.count '\n' + 1) rs' ∧ Again rs rs' ∧
      ∀ x ∈ xs, ∀ t, x.bareType? = some t → t.isFlat (.ofText text) = true := by
  induction h generalizing a with
  | nil => exact ⟨[], rfl, trivial, .nil, List.forall_mem_nil _⟩
  | @cons o n d x rs xs hx hsound hstart hstop _ ih =>
    obtain ⟨⟨hn, ts, hd⟩, hrs⟩ := List.forall_mem_cons.1 hall
    obtain ⟨w, -, hw, -⟩ := scan_spaced hrs 0
    have hnewline := hd.not_mem_newline
    have hline : text.toList = a ++ (List.replicate n '\n' ++ (d.print.toList ++ '\n' :: w)) := by
      rw [htext, spaced, List.append_assoc, List.append_assoc, hw]
    have hrest : text.toList = (a ++ List.replicate n '\n' ++ d.print.toList) ++
        (spaced rs ++ ['\n']) := by
      rw [htext, spaced]
      simp
    obtain ⟨rs', hrs', honLines, hagain, hflat⟩ := ih hrest (by
      rw [byteSize_append, byteSize_append, LineTable.byteSize_breaks, ho]) hrs
    rw [List.count_append, List.count_append, List.count_replicate_self,
      List.count_eq_zero.2 hnewline, Nat.add_zero, Nat.add_right_comm] at honLines
    subst ho
    have hlies {offset : Nat} (hlo : byteSize a + n ≤ offset)
        (hhi : offset ≤ byteSize a + n + byteSize d.print.toList) :=
      LineTable.lineOf_breaks hn hline hnewline hsize hlo hhi
    have hlt : x.span.start < x.span.stop := by
      have := hsound.lt
      cases x <;> exact this
    refine ⟨(n, x) :: rs', by rw [List.map_cons, hrs'], ⟨hlies hstart (by omega), hlies (by omega) hstop,
      honLines⟩, .cons ⟨rfl, hx⟩ hagain, ?_⟩
    refine List.forall_mem_cons.2 ⟨fun t ht => ?_, hflat⟩
    exact t.isFlat_of_within (fun o hlo hhi => (hlies (Nat.le_trans hstart hlo) (Nat.le_trans hhi hstop)).2)
      (within_of_sound ht hsound)

/-- A declaration that is read again is bare, its print is as long as before, and it is the same
exactly if the type keeps its arrows. -/
theorem Formed.echo {d x : TopDecl} {ts : List Token} (h : Formed d ts) (hx : Echoes d x) :
    (∃ u, x.bareType? = some u ∧ u.isBare = true) ∧
      x.print.toList.length = d.print.toList.length ∧
      (x.print.toList = d.print.toList ↔ ∀ t, d.bareType? = some t → t.keepsArrows = true) := by
  obtain ⟨t, ht, hbare⟩ : ∃ t, d.bareType? = some t ∧ t.isBare = true := by
    cases h with
    | values _ _ _ _ hbare => exact ⟨_, rfl, hbare⟩
    | type _ _ hbare => exact ⟨_, rfl, hbare⟩
  obtain ⟨u, hu, hcore⟩ := hx.type t ht
  have hubare : u.isBare = true := by
    rw [← u.isBare_core, hcore, t.isBare_readBack hbare]
  have hprint : x.print.toList = d.lead ++ t.readBack.letters := by
    rw [toList_print hu hubare, hx.lead, ← u.letters_core, hcore]
  rw [hprint, toList_print ht hbare, List.append_right_inj, List.length_append, List.length_append,
    t.length_readBack, t.letters_readBack_iff hbare]
  refine ⟨⟨u, hu, hubare⟩, rfl, fun hkept t' ht' => ?_, fun hkept => hkept t ht⟩
  rw [ht] at ht'
  cases ht'
  exact hkept

theorem spaced_again_iff {rs rs' : List (Nat × TopDecl)} (h : Again rs rs')
    (hall : ∀ r ∈ rs, ∃ ts, Formed r.2 ts) :
    spaced rs' = spaced rs ↔ ∀ r ∈ rs, ∀ t, r.2.bareType? = some t → t.keepsArrows = true := by
  induction h with
  | nil => simp [spaced]
  | @cons r r' rs rs' hr _ ih =>
    obtain ⟨n, d⟩ := r
    obtain ⟨n', x⟩ := r'
    obtain ⟨⟨ts, hd⟩, hrs⟩ := List.forall_mem_cons.1 hall
    obtain ⟨rfl, hx⟩ := hr
    obtain ⟨-, hlength, hsame⟩ := hd.echo hx
    rw [List.forall_mem_cons, ← ih hrs, ← hsame, spaced, spaced, List.append_assoc, List.append_assoc,
      List.append_right_inj]
    constructor
    · exact fun heq => List.append_inj heq hlength
    · rintro ⟨hprint, hrest⟩
      rw [hprint, hrest]

theorem Spaced.again {last : Option (Option DeclKind)} {rs rs' : List (Nat × TopDecl)}
    (h : Again rs rs') (hs : Spaced last rs) : Spaced last rs' := by
  induction h generalizing last with
  | nil => trivial
  | @cons r r' rs rs' hr _ ih =>
    obtain ⟨n, d⟩ := r
    obtain ⟨n', x⟩ := r'
    obtain ⟨rfl, hx⟩ := hr
    obtain ⟨hpos, hle, hkind, hs⟩ := hs
    rw [Spaced, hx.kind]
    exact ⟨hpos, hle, hkind, ih hs⟩

end TopDecl

namespace Read

theorem exprs_ne_nil {fuel : Nat} {c c' : Cursor} {es : List Expr}
    (h : Read.exprs fuel c = .ok (es, c')) : es ≠ [] := by
  cases fuel with
  | zero =>
    rw [Read.exprs] at h
    exact absurd h exhausted_not_ok
  | succ fuel =>
    rw [Read.exprs] at h
    obtain ⟨e, c1, _, h⟩ := bind_ok.1 h
    obtain ⟨comma, c2, _, h⟩ := bind_ok.1 h
    split at h
    · obtain ⟨es, c3, _, h⟩ := bind_ok.1 h
      cases h
      exact List.cons_ne_nil _ _
    · cases h
      exact List.cons_ne_nil _ _

end Read

mutual

theorem TypeExpr.isPlain_of_isBare : ∀ t : TypeExpr, t.isBare = true → t.isPlain = true
  | .named .., _ => rfl
  | .pointer _ e, h | .slice _ e, h | .chan _ _ e, h => isPlain_of_isBare e h
  | .array _ none e, h | .array _ (some (.ident ..)) e, h => isPlain_of_isBare e h
  | .map _ k v, h => Bool.and_eq_true_iff.2 ((Bool.and_eq_true_iff.1 h).imp (isPlain_of_isBare k)
      (isPlain_of_isBare v))
  | .func _ ⟨_, ps, rs⟩, h => by
    simp only [isBare, isPlain, Bool.and_eq_true] at h ⊢
    exact ⟨⟨h.1.1, arePlain_of_areBare ps h.1.2⟩, arePlain_of_areBare rs h.2⟩
  | .struct _ [], _ | .interface _ [], _ => rfl

theorem TypeExpr.arePlain_of_areBare : ∀ fs : List Field, areBare fs = true → arePlain fs = true
  | [], _ => rfl
  | ⟨_, _, t, _, _⟩ :: fs, h => by
    simp only [areBare, arePlain, Bool.and_eq_true] at h ⊢
    exact ⟨isPlain_of_isBare t h.1.2, arePlain_of_areBare fs h.2⟩

end

namespace TopDecl

theorem imports_of_spec (fuel : Nat) :
    Returns (Read.spec (fuel + 1) .imports) fun s => ∃ u n path, s = .imports u n path := by
  rw [Read.spec]
  refine .skip fun u => .skip fun next => ?_
  extract_lets jp
  have hpath (n : Option Name) : Returns (jp n) fun s => ∃ u n path, s = .imports u n path := by
    refine .skip fun text => ?_
    cases Read.isText text with
    | none => exact .unexpected
    | some path => exact .skip fun _ => .skip fun tag => .pure ⟨tag, n, path, rfl⟩
  split
  · exact .skip fun n => hpath n
  · exact .skip fun p => .skip fun tag => hpath _
  · exact hpath none

theorem formed_of_typeSpec {fuel : Nat} {c c' : Cursor} {s : Spec} (hc : c.Named)
    (h : Read.spec (fuel + 1) .types c = .ok (s, c')) {t : Tag}
    (hbare : (decl ⟨t, .types, false, [s]⟩).IsBare lines) :
    (∃ ts, Formed (.decl ⟨t, .types, false, [s]⟩) ts) ∧ c'.Named := by
  obtain ⟨type, htype, hbare, -⟩ := hbare
  rw [Read.spec] at h
  obtain ⟨u, c1, hu, h⟩ := Read.bind_ok.1 h
  cases hu
  obtain ⟨n, c2, hn, h⟩ := Read.bind_ok.1 h
  obtain ⟨hname, h2⟩ := Read.name_named hc hn
  obtain ⟨isAlias, c3, halias, h⟩ := Read.bind_ok.1 h
  have h3 := (Read.Consumes.eat _).named h2 halias
  obtain ⟨type', tag, c4, hread, rfl, hlast⟩ := Read.tagged_ok h
  cases htype
  obtain ⟨hshaped, h4⟩ := (Read.givesTypes fuel).typeExpr h3 hread (type.isPlain_of_isBare hbare)
  exact ⟨⟨_, .type hname hshaped hbare⟩, hlast h4⟩

theorem formed_of_valueSpec {fuel : Nat} {kind : DeclKind} (hkind : kind = .consts ∨ kind = .vars)
    {c c' : Cursor} {s : Spec} (hc : c.Named) (h : Read.spec (fuel + 1) kind c = .ok (s, c'))
    {t : Tag} (hbare : (decl ⟨t, kind, false, [s]⟩).IsBare lines) :
    (∃ ts, Formed (.decl ⟨t, kind, false, [s]⟩) ts) ∧ c'.Named := by
  obtain ⟨type, htype, hbare, -⟩ := hbare
  rcases hkind with rfl | rfl
  all_goals
    rw [Read.spec] at h
    obtain ⟨u, c1, hu, h⟩ := Read.bind_ok.1 h
    cases hu
    obtain ⟨ns, c2, hns, h⟩ := Read.bind_ok.1 h
    obtain ⟨hne, hnames, h2⟩ := Read.names_named hc hns
    have hvalues {x : Option TypeExpr} {d : Cursor} (h : (do
        let values ← if ← Read.eatPunct .assign then Read.exprs fuel else pure []
        return .values (← Read.tagFrom c.next) ns x values : Read Spec) d = .ok (s, c')) :
        ∃ u es, s = .values u ns x es ∧ (es = [] → d.Named → c'.Named) := by
      obtain ⟨assign, c4, hassign, h⟩ := Read.bind_ok.1 h
      cases assign with
      | true =>
        obtain ⟨es, c5, hes, h⟩ := Read.bind_ok.1 h
        cases h
        exact ⟨_, es, rfl, fun hnone => absurd hnone (Read.exprs_ne_nil hes)⟩
      | false =>
        have h4 (hd : d.Named) : c4.Named := (Read.Consumes.eat (.punct .assign)).named hd hassign
        cases h
        exact ⟨_, [], rfl, fun _ => h4⟩
    obtain ⟨next, c3, hnext, h⟩ := Read.bind_ok.1 h
    obtain ⟨-, rfl⟩ := Read.peek_ok.1 hnext
    split at h
    -- without a type the declaration is not bare
    iterate 4
      · obtain ⟨_, _, rfl, _⟩ := hvalues h
        cases htype
    · obtain ⟨type', c4, hread, h⟩ := Read.bind_ok.1 h
      obtain ⟨_, es, rfl, hlast⟩ := hvalues h
      cases es with
      | nil =>
        cases htype
        obtain ⟨hshaped, h4⟩ := (Read.givesTypes fuel).typeExpr h2 hread (type.isPlain_of_isBare hbare)
        exact ⟨⟨_, .values (by simp) hne hnames hshaped hbare⟩, hlast rfl h4⟩
      | cons => cases htype

theorem formed_of_spec {fuel : Nat} {kind : DeclKind} {c c' : Cursor} {s : Spec} (hc : c.Named)
    (h : Read.spec fuel kind c = .ok (s, c')) {t : Tag}
    (hbare : (decl ⟨t, kind, false, [s]⟩).IsBare lines) :
    (∃ ts, Formed (.decl ⟨t, kind, false, [s]⟩) ts) ∧ c'.Named := by
  cases fuel with
  | zero =>
    rw [Read.spec] at h
    exact absurd h Read.exhausted_not_ok
  | succ fuel =>
    cases kind with
    | imports =>
      obtain ⟨u, n, path, rfl⟩ := imports_of_spec fuel _ _ _ h
      obtain ⟨_, htype, _⟩ := hbare
      cases htype
    | types => exact formed_of_typeSpec hc h hbare
    | consts => exact formed_of_valueSpec (.inl rfl) hc h hbare
    | vars => exact formed_of_valueSpec (.inr rfl) hc h hbare

theorem formed_of_decl {fuel : Nat} {c c' : Cursor} {d : Decl} (hc : c.Named)
    (h : Read.decl fuel c = .ok (d, c')) (hbare : (decl d).IsBare lines) :
    (∃ ts, Formed (.decl d) ts) ∧ c'.Named := by
  cases fuel with
  | zero =>
    rw [Read.decl] at h
    exact absurd h Read.exhausted_not_ok
  | succ fuel =>
    rw [Read.decl] at h
    obtain ⟨s, c1, hs, h⟩ := Read.bind_ok.1 h
    cases hs
    obtain ⟨p, c2, htake, h⟩ := Read.bind_ok.1 h
    have h2 := Read.Consumes.take.named hc htake
    obtain ⟨grouped, c3, hopen, h⟩ := Read.bind_ok.1 h
    have h3 := (Read.Consumes.eat _).named h2 hopen
    cases grouped with
    | true =>
      obtain ⟨ss, c4, -, h⟩ := Read.bind_ok.1 h
      obtain ⟨_, c5, -, h⟩ := Read.bind_ok.1 h
      cases h
      obtain ⟨_, htype, _⟩ := hbare
      cases htype
    | false =>
      obtain ⟨one, c4, hspec, h⟩ := Read.bind_ok.1 h
      cases h
      exact formed_of_spec h3 hspec hbare

theorem formed_of_topDecls {fuel : Nat} {c c' : Cursor} {ds : List TopDecl} (hc : c.Named)
    (h : Read.topDecls fuel c = .ok (ds, c')) (hbare : ∀ d ∈ ds, d.IsBare lines) :
    ∀ d ∈ ds, ∃ ts, Formed d ts := by
  induction fuel generalizing c ds with
  | zero =>
    rw [Read.topDecls] at h
    exact absurd h Read.exhausted_not_ok
  | succ fuel ih =>
    rw [Read.topDecls] at h
    obtain ⟨next, c1, hnext, h⟩ := Read.bind_ok.1 h
    obtain ⟨-, rfl⟩ := Read.peek_ok.1 hnext
    split at h
    · cases h
      exact List.forall_mem_nil _
    · obtain ⟨p, c2, htake, h⟩ := Read.bind_ok.1 h
      exact ih (Read.Consumes.take.named hc htake) h hbare
    · -- the declaration is one of those given back, and so are the ones behind it
      have hjp {d : TopDecl} {c2 : Cursor} (h2 : d.IsBare lines → (∃ ts, Formed d ts) ∧ c2.Named)
          (hjp : (do
            if (← Read.atPunct .rParen) || (← Read.atPunct .rBrace) then
              (Read.unexpected .declaration : Read Unit)
            Read.endStatement
            return d :: (← Read.topDecls fuel) : Read (List TopDecl)) c2 = .ok (ds, c')) :
          ∀ d ∈ ds, ∃ ts, Formed d ts := by
        obtain ⟨closesParen, c3, hparen, h⟩ := Read.bind_ok.1 hjp
        cases hparen
        obtain ⟨closesBrace, c3, hbrace, h⟩ := Read.bind_ok.1 h
        cases hbrace
        split at h
        · obtain ⟨_, c3, hnone, _⟩ := Read.bind_ok.1 h
          exact absurd hnone Read.unexpected_not_ok
        · obtain ⟨_, c3, hend, h⟩ := Read.bind_ok.1 h
          obtain ⟨rest, c4, hrest, h⟩ := Read.bind_ok.1 h
          cases h
          obtain ⟨hd, hrests⟩ := List.forall_mem_cons.1 hbare
          obtain ⟨hformed, h2⟩ := h2 hd
          exact List.forall_mem_cons.2
            ⟨hformed, ih (Read.Consumes.endStatement.named h2 hend) hrest hrests⟩
      extract_lets jp at h
      split at h
      · obtain ⟨f, c2, -, h⟩ := Read.bind_ok.1 h
        exact hjp (by rintro ⟨_, ⟨⟩, _⟩) h
      · split at h
        · obtain ⟨d, c2, hread, h⟩ := Read.bind_ok.1 h
          exact hjp (formed_of_decl hc hread) h
        · obtain ⟨_, _, hnone, _⟩ := Read.bind_ok.1 h
          exact absurd hnone Read.unexpected_not_ok

end TopDecl

theorem Document.formed_of_ofSource {source : String} {d : Document} (h : ofSource source = .ok d)
    (hdecls : ∀ x ∈ d.file.decls, x.IsBare d.lines) :
    Token.IsName d.file.name.text ∧ ∀ x ∈ d.file.decls, ∃ ts, TopDecl.Formed x ts := by
  obtain ⟨file, c, c', hreads⟩ := ofSource_ok h
  have hstart : Cursor.Named ⟨(scan (terminated source)).tokens, (terminated source).utf8ByteSize, 0,
      true, 0⟩ := .of_scan (List.suffix_refl _)
  have hread := hreads.sourceFile
  rw [hreads.file] at hdecls ⊢
  unfold Read.sourceFile at hread
  obtain ⟨_, c1, hs, hread⟩ := Read.bind_ok.1 hread
  cases hs
  obtain ⟨_, c1, hkeyword, hread⟩ := Read.bind_ok.1 hread
  obtain ⟨n, c2, hn, hread⟩ := Read.bind_ok.1 hread
  obtain ⟨hname, h2⟩ := Read.name_named ((Read.Consumes.expect _).named hstart hkeyword) hn
  obtain ⟨t, c3, ht, hread⟩ := Read.bind_ok.1 hread
  obtain ⟨_, c4, hend, hread⟩ := Read.bind_ok.1 hread
  have h4 := Read.Consumes.endStatement.named ((Read.Consumes.tagFrom _).named h2 ht) hend
  obtain ⟨ds, c5, hds, hread⟩ := Read.bind_ok.1 hread
  cases hread
  exact ⟨hname, TopDecl.formed_of_topDecls h4 hds hdecls⟩

namespace TopDecl

theorem Spaced.pos {last : Option (Option DeclKind)} {rs : List (Nat × TopDecl)}
    (h : Spaced last rs) : ∀ r ∈ rs, 1 ≤ r.1 := by
  induction rs generalizing last with
  | nil => exact List.forall_mem_nil _
  | cons r rs ih => exact List.forall_mem_cons.2 ⟨h.1, ih h.2.2.2⟩

theorem isBare_again {lines : LineTable} {rs rs' : List (Nat × TopDecl)} (h : Again rs rs')
    (hall : ∀ r ∈ rs, ∃ ts, Formed r.2 ts)
    (hflat : ∀ x ∈ rs'.map Prod.snd, ∀ t, x.bareType? = some t → t.isFlat lines = true) :
    ∀ x ∈ rs'.map Prod.snd, x.IsBare lines := by
  induction h with
  | nil => exact List.forall_mem_nil _
  | cons hr _ ih =>
    obtain ⟨⟨ts, hd⟩, hrs⟩ := List.forall_mem_cons.1 hall
    obtain ⟨hx, hxs⟩ := List.forall_mem_cons.1 hflat
    obtain ⟨⟨u, hu, hbare⟩, -⟩ := hd.echo hr.2
    exact List.forall_mem_cons.2 ⟨⟨u, hu, hbare, hx u hu⟩, ih hrs hxs⟩

end TopDecl

theorem Read.sourceFile_clause {n : String} {c : Cursor} {k m s : Placed} {qs : List Placed}
    (hc : c.Ordered) (hahead : c.ahead = k :: m :: s :: qs) (hk : k.token = .keyword .packageKw)
    (hm : m.token = .ident n) (hs : s.token = .punct .semi) :
    ∃ c', c'.Ordered ∧ c'.ahead = qs ∧ ∀ fuel ds c'', Read.topDecls fuel c' = .ok (ds, c'') →
      ∃ f, f.name.text = n ∧ f.decls = ds ∧ Read.sourceFile fuel c = .ok (f, c'') := by
  obtain ⟨ahead, size, reached, literals, nextId⟩ := c
  obtain ⟨_, kspan⟩ := k
  obtain ⟨_, mspan⟩ := m
  obtain ⟨_, sspan⟩ := s
  cases hahead
  cases hk
  cases hm
  cases hs
  obtain ⟨-, -, -, -, -, -, hstart, hle, -, hqs⟩ := hc
  refine ⟨⟨qs, size, if Read.isLineEnd ⟨.punct .semi, sspan⟩ then mspan.stop else sspan.stop,
    literals, nextId + 1 + 1⟩, ?_, rfl, fun fuel ds c'' hds => ?_⟩
  · refine hqs.mono ?_
    dsimp only
    split
    · exact Nat.le_trans hstart hle
    · exact Nat.le_refl _
  · refine ⟨⟨⟨nextId + 1, kspan.start, max mspan.stop kspan.start⟩, ⟨⟨nextId, mspan⟩, n⟩, ds, []⟩,
      rfl, rfl, ?_⟩
    rw [Read.sourceFile]
    exact Read.bind_ok.2 ⟨_, _, rfl, Read.bind_ok.2 ⟨(), _, rfl, Read.bind_ok.2 ⟨_, _, rfl,
      Read.bind_ok.2 ⟨_, _, rfl, Read.bind_ok.2 ⟨(), _, rfl, Read.bind_ok.2 ⟨ds, c'', hds, rfl⟩⟩⟩⟩⟩⟩

namespace Document

theorem ofSource_spaced {text : String} {f : SourceFile} {rs : List (Nat × TopDecl)}
    (htext : text.toList = f.spaced rs) (hname : Token.IsName f.name.text)
    (hall : ∀ r ∈ rs, 1 ≤ r.1 ∧ ∃ ts, TopDecl.Formed r.2 ts) :
    ∃ d, ofSource text = .ok d ∧ d.file.comments = [] ∧ d.lines = .ofText text ∧
      d.file.name.text = f.name.text ∧
      TopDecl.Echo (byteSize f.clause) rs d.file.decls := by
  obtain ⟨w, qs, hw, hstands, hrest⟩ := TopDecl.scan_spaced hall (byteSize f.clause)
  obtain ⟨ps, last, hps, hends, -, hline⟩ :=
    Scan.ofLexemes_laid (SourceFile.carries_clause hname).laid ('\n' :: w) (by simp) [] (by simp) .start rfl 0
  obtain ⟨k, m, rfl⟩ : ∃ k m, ps = [k, m] := List.length_eq_two.1 (by
    simpa using congrArg List.length hps)
  obtain ⟨hk, hm⟩ : k.token = .keyword .packageKw ∧ m.token = .ident f.name.text := by
    simpa using hps
  have hchars : text.toList = f.clause ++ '\n' :: w := by
    rw [htext, SourceFile.spaced, hw]
  have hscan : scan text =
      ⟨k :: m :: ⟨.punct .semi, byteSize f.clause, byteSize f.clause⟩ :: qs, [], []⟩ := by
    have hsemi : last.ends = true := by
      rw [hends]
      rfl
    simp only [List.nil_append, byteSize, Nat.zero_add] at hline
    rw [scan, hchars, hline, Scan.ofLexemes_newline, hrest, Scan.lineEnd, if_pos hsemi]
    rfl
  have hordered : Cursor.Ordered ⟨(scan text).tokens, text.utf8ByteSize, 0, true, 0⟩ := by
    have hruns := Runs.ofLexemes .start 0 text.toList
    rw [Nat.zero_add, byteSize_toList] at hruns
    exact hruns
  have htokens := congrArg Scan.tokens hscan
  obtain ⟨c1, hc1, hahead, hfile⟩ := Read.sourceFile_clause hordered htokens hk hm rfl
  have hbudget : 8 * qs.length + 1 ≤ budget (scan text).tokens.length := by
    rw [htokens, budget]
    simp only [List.length_cons]
    omega
  obtain ⟨ds, c2, hds, hecho⟩ := TopDecl.reads_spaced hstands hc1 hahead hbudget
  obtain ⟨file, hfname, rfl, hread⟩ := hfile _ _ _ hds
  have hterminated : terminated text = text := terminated_eq_self (by
    rw [htext, SourceFile.spaced, ← List.append_assoc]
    exact List.getLast?_concat)
  have hgroups : Read.commentGroups (LooseComment.groups text.toList (scan text).comments) c2 =
      .ok ([], c2) := by
    rw [hscan]
    rfl
  rw [← hterminated] at hread hgroups
  obtain ⟨d, hd, hdfile, hlines⟩ := ofSource_of_read (by rw [hterminated, hscan]) hread hgroups
  rw [hterminated] at hlines
  refine ⟨d, hd, ?_, hlines, ?_, ?_⟩
  all_goals rw [hdfile]
  · exact hfname
  · exact hecho

/-- A file of declarations that give names a bare type on one line is printed as a text that is read
again. That document is printed as the same text exactly if the types keep their arrows: if no channel
without a direction has channels to receive from for elements. -/
theorem print_stable_iff {source : String} {d : Document} (hread : ofSource source = .ok d)
    (hcomments : d.file.comments = []) (hdecls : ∀ x ∈ d.file.decls, x.IsBare d.lines)
    (hsize : d.print.utf8ByteSize < Span.unknown) : ∃ d', ofSource d.print = .ok d' ∧
      (d'.print = d.print ↔
        ∀ x ∈ d.file.decls, ∀ t, x.bareType? = some t → t.keepsArrows = true) := by
  obtain ⟨hname, hformed⟩ := formed_of_ofSource hread hdecls
  obtain ⟨rs, hrs, hspaced, hprint⟩ := exists_print hcomments hdecls
  have hmem {r : Nat × TopDecl} (hr : r ∈ rs) : r.2 ∈ d.file.decls := hrs ▸ List.mem_map_of_mem hr
  have hall : ∀ r ∈ rs, 1 ≤ r.1 ∧ ∃ ts, TopDecl.Formed r.2 ts :=
    fun r hr => ⟨hspaced.pos r hr, hformed _ (hmem hr)⟩
  obtain ⟨d', hread', hcomments', hlines, hname', hecho⟩ := ofSource_spaced hprint hname hall
  obtain ⟨rs', hrs', honLines, hagain, hflat⟩ :=
    hecho.onLines (by rw [hprint, SourceFile.spaced]) rfl hsize hall
  rw [← hrs'] at hflat
  have hbare := TopDecl.isBare_again hagain (fun r hr => (hall r hr).2) hflat
  rw [hrs', ← hlines] at hbare
  have hprint' := print_of_onLines hcomments' hrs' hbare (hspaced.again hagain) (hlines ▸ honLines)
  refine ⟨d', hread', ?_⟩
  have hclause : d'.file.clause = d.file.clause := by
    unfold SourceFile.clause
    rw [hname']
  rw [← String.toList_inj, hprint', hprint, SourceFile.spaced, SourceFile.spaced, hclause,
    List.append_right_inj, List.append_left_inj,
    TopDecl.spaced_again_iff hagain fun r hr => (hall r hr).2, ← hrs, List.forall_mem_map]

/-- Declarations of each kind, with lines to spare. -/
theorem print_stable_iff_directed : ∃ d d', ofSource
    "package p\nvar a, b map[q.K]chan<- <-chan []int\n\n\n\ntype t = *[n]u;type u func((a), b int) (c ...d)" =
      .ok d ∧ ofSource d.print = .ok d' ∧ d'.print = d.print := by
  have hall : (match ofSource
      "package p\nvar a, b map[q.K]chan<- <-chan []int\n\n\n\ntype t = *[n]u;type u func((a), b int) (c ...d)" with
      | .ok d => d.file.comments.isEmpty && (d.file.decls.all fun x => x.bareType?.any fun t =>
          t.isBare && t.isFlat d.lines && t.keepsArrows) && decide (d.print.utf8ByteSize < Span.unknown)
      | .error _ => false) = true := by decide +kernel
  cases hread : ofSource
      "package p\nvar a, b map[q.K]chan<- <-chan []int\n\n\n\ntype t = *[n]u;type u func((a), b int) (c ...d)" with
  | error => simp [hread] at hall
  | ok d =>
    simp only [hread, Bool.and_eq_true, List.isEmpty_iff, decide_eq_true_eq, List.all_eq_true,
      Option.any_eq_true] at hall
    obtain ⟨⟨hcomments, htypes⟩, hsize⟩ := hall
    obtain ⟨d', hread', hstable⟩ := print_stable_iff hread hcomments
      (fun x hx => (htypes x hx).imp fun t ht => ⟨ht.1, ht.2.1.1, ht.2.1.2⟩) hsize
    refine ⟨d, d', rfl, hread', hstable.2 fun x hx t ht => ?_⟩
    obtain ⟨u, hu, -, hkept⟩ := htypes x hx
    cases ht.symm.trans hu
    exact hkept

/-- A channel of channels to receive from is printed as one to send channels to, and that one with its
arrow at the keyword. -/
theorem print_unstable : ∃ d d',
    ofSource "package p\n\nvar c chan (<-chan int)\n" = .ok d ∧ ofSource d.print = .ok d' ∧
      d.print = "package p\n\nvar c chan <-chan int\n" ∧
      d'.print = "package p\n\nvar c chan<- chan int\n" := by
  have hprints : (match ofSource "package p\n\nvar c chan (<-chan int)\n" with
      | .ok d => (match ofSource d.print with
        | .ok d' => d.print == "package p\n\nvar c chan <-chan int\n" &&
            d'.print == "package p\n\nvar c chan<- chan int\n"
        | .error _ => false)
      | .error _ => false) = true := by decide +kernel
  cases hread : ofSource "package p\n\nvar c chan (<-chan int)\n" with
  | error => simp [hread] at hprints
  | ok d =>
    cases hagain : ofSource d.print with
    | error => simp [hread, hagain] at hprints
    | ok d' =>
      simp only [hread, hagain, Bool.and_eq_true, beq_iff_eq] at hprints
      exact ⟨d, d', rfl, hagain, hprints⟩

/-- A struct with fields is not bare: whether a field stays on one line is told by its length in the
text that was read, and its print can be longer. -/
example : ((ofSource "package p\n\ntype T struct\x7ba,b,c,d,e,f,g,h,i,j,k,l T\x7d\n").toOption.bind fun d =>
    (ofSource d.print).toOption.map fun d' => (d.print, d'.print)) =
      some ("package p\n\ntype T struct\x7b a, b, c, d, e, f, g, h, i, j, k, l T \x7d\n",
        "package p\n\ntype T struct \x7b\n\ta, b, c, d, e, f, g, h, i, j, k, l T\n\x7d\n") := by
  decide +kernel

end Document

end FuncLift
