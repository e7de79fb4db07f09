import FuncLift.Proofs.Printed
import FuncLift.Proofs.Upright

/-!
# Bare declarations that are read again

The text of declarations on lines of their own is scanned line by line, and a semicolon stands for
the end of each. From these tokens every declaration is read again: all of it is the same up to tags,
only its type is what the tokens tell. It lies on the line that it was written on.
-/
namespace FuncLift

namespace Scan

theorem ofLexemes_breaks (n offset : Nat) (cs : List Char) :
    ofLexemes .start offset (Lexeme.all (List.replicate n '\n' ++ cs)) =
      ofLexemes .start (offset + n) (Lexeme.all cs) := by
  induction n generalizing offset with
  | zero => rfl
  | succ n ih =>
    rw [List.replicate_succ, List.cons_append, ofLexemes_newline, ih,
      show offset + (n + 1) = offset + 1 + n by omega]
    rfl

end Scan

/-- The keyword of a declaration. -/
def DeclKind.keyword : DeclKind → Keyword
  | .imports => .importKw
  | .consts => .constKw
  | .types => .typeKw
  | .vars => .varKw

theorem DeclKind.spelling_keyword (k : DeclKind) : k.keyword.spelling = k.spelling := by
  cases k <;> rfl

theorem DeclKind.ofToken_keyword (k : DeclKind) : ofToken? (.keyword k.keyword) = some k := by
  cases k <;> rfl

namespace Carries

variable {e : Option Token} {cs : List Char} {ts : List Token}

theorem absorbs_none (c : Char) : ∀ t ∈ (none : Option Token), t.absorbs c = false := by
  rintro _ ⟨⟩

theorem front {n : String} (hn : Token.IsName n) :
    Carries none n.toList [.ident n] (some (.ident n)) := .word hn fun c _ => absorbs_none c

theorem names {ns : List String} (hne : ns ≠ []) (hns : ∀ n ∈ ns, Token.IsName n) :
    ∃ n, Carries none (commas (ns.map String.toList)) (nameTokens ns) (some (.ident n)) := by
  induction ns with
  | nil => exact absurd rfl hne
  | cons n ns ih =>
    obtain ⟨hn, hns⟩ := List.forall_mem_cons.1 hns
    cases ns with
    | nil =>
      refine ⟨n, ?_⟩
      simpa [commas, nameTokens] using Carries.front hn
    | cons m ns =>
      obtain ⟨k, hrest⟩ := ih (List.cons_ne_nil m ns) hns
      have hcomma : Carries (some (.ident n)) ", ".toList [.punct .comma] none := by
        refine (Carries.punct .comma ',' rfl ?_).append .blank
        rintro t ⟨⟩
        exact (by decide : Lexeme.continuesWord ',' = false)
      refine ⟨k, ?_⟩
      simpa [commas, nameTokens] using (Carries.front hn).append (hcomma.append hrest)

theorem laid {e' : Option Token} (h : Carries none cs ts e') : Laid false cs ts := by
  have hall := (h [] [] .nil).laid false (by rintro _ ⟨⟩)
  rwa [List.append_nil, List.append_nil] at hall

end Carries

theorem SourceFile.carries_clause {f : SourceFile} (hname : Token.IsName f.name.text) :
    Carries none f.clause [.keyword .packageKw, .ident f.name.text] (some (.ident f.name.text)) := by
  have hkeyword : Carries none "package ".toList [.keyword .packageKw] none :=
    (Carries.keyword .packageKw fun c _ => Carries.absorbs_none c).append .blank
  exact hkeyword.append (.front hname)

theorem TypeExpr.Shaped.carries {t : TypeExpr} (h : t.Shaped) : ∃ u, u.Closes ∧
    t.tokens.getLast? = some u ∧ Carries none t.print.toList t.tokens (some u) := by
  obtain ⟨u, hwritten⟩ := h.written
  obtain ⟨q, cs, hdraw, _, _, htext, hcarries⟩ := hwritten.inked.writes none (by rintro _ ⟨⟩) _ .fresh
  have hprint : t.print.toList = cs := by
    rw [print, Drawing.fragment, Drawing.toList_text_run, hdraw, htext]
    rfl
  exact ⟨u, hwritten.inked.closes, hwritten.inked.last, hprint ▸ hcarries⟩

namespace TopDecl

/-- A bare declaration of the grammar, and its tokens. -/
inductive Formed : TopDecl → List Token → Prop
  | values {t u : Tag} {kind : DeclKind} {ns : List Name} {type : TypeExpr}
      (hkind : kind = .consts ∨ kind = .vars) (hns : ns ≠ [])
      (hnames : ∀ n ∈ ns.map Name.text, Token.IsName n) (htype : type.Shaped)
      (hbare : type.isBare = true) :
      Formed (.decl ⟨t, kind, false, [.values u ns (some type) []]⟩)
        (.keyword kind.keyword :: (nameTokens (ns.map Name.text) ++ type.tokens))
  | type {t u : Tag} {n : Name} {isAlias : Bool} {type : TypeExpr} (hn : Token.IsName n.text)
      (htype : type.Shaped) (hbare : type.isBare = true) :
      Formed (.decl ⟨t, .types, false, [.type u n isAlias type]⟩)
        (.keyword .typeKw :: .ident n.text ::
          ((if isAlias then [.punct .assign] else []) ++ type.tokens))

variable {d : TopDecl} {ts : List Token}

theorem Formed.ends (h : Formed d ts) : (∃ kind us, ts = .keyword (DeclKind.keyword kind) :: us) ∧
    ∃ u, u.Closes ∧ ts.getLast? = some u := by
  cases h with
  | values _ _ _ htype =>
    obtain ⟨u, hu, hlast, _⟩ := htype.carries
    exact ⟨⟨_, _, rfl⟩, u, hu, by simp [List.getLast?_cons, hlast]⟩
  | type _ htype =>
    obtain ⟨u, hu, hlast, _⟩ := htype.carries
    exact ⟨⟨.types, _, rfl⟩, u, hu, by simp [List.getLast?_cons, hlast]⟩

theorem Formed.carries (h : Formed d ts) :
    ∃ u, u.Closes ∧ Carries none d.print.toList ts (some u) := by
  have hkeyword (k : DeclKind) : Carries none (k.spelling.toList ++ " ".toList)
      [.keyword k.keyword] none := by
    rw [← k.spelling_keyword]
    exact (Carries.keyword k.keyword fun c _ => Carries.absorbs_none c).append .blank
  cases h with
  | @values t u kind ns type _ hns hnames htype hbare =>
    rw [toList_print (t := type) rfl hbare, lead, ← type.toList_print hbare]
    obtain ⟨_, hlist⟩ := Carries.names (by simpa using hns) hnames
    obtain ⟨u, hu, _, hcarries⟩ := htype.carries
    have hall := (hkeyword kind).append ((hlist.append .blank).append hcarries)
    exact ⟨u, hu, by simpa using hall⟩
  | @type t u n isAlias type hn htype hbare =>
    rw [toList_print (t := type) rfl hbare, lead, ← type.toList_print hbare]
    obtain ⟨v, hv, _, hcarries⟩ := htype.carries
    have hsign : Carries (some (.ident n.text)) (if isAlias then " = " else " ").toList
        (if isAlias then [.punct .assign] else []) none := by
      cases isAlias with
      | false => exact .blank
      | true =>
        have hassign := Carries.punct .assign '=' rfl (Carries.absorbs_none '=')
        exact Carries.blank.append (hassign.append .blank)
    have hall := (hkeyword .types).append ((Carries.front hn).append (hsign.append hcarries))
    exact ⟨v, hv, by simpa [DeclKind.keyword] using hall⟩

theorem Formed.laid (h : Formed d ts) : Laid false d.print.toList ts := by
  obtain ⟨_, _, hcarries⟩ := h.carries
  exact hcarries.laid

end TopDecl

namespace Takes

variable {β : Type} {ts us vs : List Token} {t : Token} {post : β → Prop}

theorem takeToken {f : Placed → Read β} (k : ∀ p, p.token = t → Takes ts (f p) vs post) :
    Takes (t :: ts) (Read.take >>= f) vs post := by
  refine bind (Q := (·.token = t)) ?_ k
  rintro ⟨_ | ⟨p, rest⟩, _, _, _, _⟩ hc
  · cases hc
  · exact ⟨_, _, rfl, List.suffix_cons _ _, List.tail_eq_of_cons_eq hc, List.head_eq_of_cons_eq hc⟩

end Takes

namespace TopDecl

/-- What a declaration becomes when its print is read: all is the same up to tags, only the type is
what its tokens tell. -/
structure Echoes (d x : TopDecl) : Prop where
  kind : Draw.declKind? x = Draw.declKind? d
  lead : x.lead = d.lead
  type : ∀ t, d.bareType? = some t → ∃ u, x.bareType? = some u ∧ u.core = t.readBack

variable {d : TopDecl} {ts : List Token}

theorem takes_decl (kind : DeclKind) {us rest : List Token} {fuel : Nat} {Q : Spec → Prop}
    (hopen : (us ++ rest).head? ≠ some (.punct .lParen))
    (hspec : Takes (us ++ rest) (Read.spec fuel kind) rest Q)
    (hd : ∀ t s, Q s → Echoes d (.decl ⟨t, kind, false, [s]⟩)) :
    Takes (.keyword kind.keyword :: us ++ rest) (Read.decl (fuel + 1)) rest
      fun x => Echoes d (.decl x) := by
  rw [Read.decl]
  refine .start fun s => .takeToken fun p hp => ?_
  rw [hp, kind.ofToken_keyword]
  exact .pass hopen (.bind hspec fun s hs => .tagFrom fun t => .pure (hd t s hs))

theorem takes_values {kind : DeclKind} (hkind : kind = .consts ∨ kind = .vars) {ns : List String}
    (hns : ns ≠ []) {type : TypeExpr} (htype : type.Shaped) {fuel : Nat}
    (hfuel : 8 * ((nameTokens ns).length + type.tokens.length + 1) ≤ fuel + 2) (rest : List Token) :
    Takes (nameTokens ns ++ (type.tokens ++ .punct .semi :: rest)) (Read.spec (fuel + 1) kind)
      (.punct .semi :: rest) fun s => ∃ u xs x, s = .values u xs (some x) [] ∧
        xs.map Name.text = ns ∧ x.core = type.readBack := by
  have hlength := Takes.length_le_nameTokens ns
  have htypes := htype.retold.alone fuel (.punct .semi :: rest) (.punct (by decide) rest) (by omega)
  have hhead {p : Punct} := type.head_ne (.punct .semi :: rest) (p := p)
  have hne : (type.tokens ++ .punct .semi :: rest).head? ≠ none := by
    obtain ⟨u, us, htokens, -⟩ := type.head_tokens
    rw [htokens]
    rintro ⟨⟩
  rcases hkind with rfl | rfl
  all_goals
    rw [Read.spec]
    refine .start fun s => .bind (.names hns (by omega) (hhead (by decide))) fun xs hxs => .peek ?_
    extract_lets jp
    -- behind the type no values stand
    have hjp : ∀ x : TypeExpr, x.core = type.readBack → Takes (.punct .semi :: rest)
        (jp (some x)) (.punct .semi :: rest) fun s => ∃ u xs x, s = .values u xs (some x) [] ∧
          xs.map Name.text = ns ∧ x.core = type.readBack := by
      intro x hx
      refine .pass (by rintro ⟨⟩) ?_
      rw [if_neg Bool.false_ne_true, pure_bind]
      exact .tagFrom fun u => .pure ⟨u, xs, x, rfl, hxs, hx⟩
    split
    · exact absurd ‹_› (hhead (by decide))
    · exact absurd ‹_› (hhead (by decide))
    · exact absurd ‹_› (hhead (by decide))
    · exact absurd ‹_› hne
    · exact .bind htypes fun x hx => hjp x hx

theorem takes_type {n : String} {isAlias : Bool} {type : TypeExpr} (htype : type.Shaped) {fuel : Nat}
    (hfuel : 8 * (type.tokens.length + 1) ≤ fuel + 2) (rest : List Token) :
    Takes (.ident n :: ((if isAlias then [.punct .assign] else []) ++
      (type.tokens ++ .punct .semi :: rest))) (Read.spec (fuel + 1) .types) (.punct .semi :: rest)
      fun s => ∃ u m x, s = .type u m isAlias x ∧ m.text = n ∧ x.core = type.readBack := by
  have htypes := htype.retold.alone fuel (.punct .semi :: rest) (.punct (by decide) rest) (by omega)
  have hhead {p : Punct} := type.head_ne (.punct .semi :: rest) (p := p)
  rw [Read.spec]
  refine .start fun s => .name fun m hm => ?_
  cases isAlias with
  | false =>
    exact .pass (hhead (by decide)) (.bind htypes fun x hx => .tagFrom fun u =>
      .pure ⟨u, m, x, rfl, hm, hx⟩)
  | true => exact .eat (.bind htypes fun x hx => .tagFrom fun u => .pure ⟨u, m, x, rfl, hm, hx⟩)

theorem Formed.takes (h : Formed d ts) {fuel : Nat} (hfuel : 8 * ts.length ≤ fuel)
    (rest : List Token) : Takes (ts ++ .punct .semi :: rest) (Read.decl fuel) (.punct .semi :: rest)
      fun x => Echoes d (.decl x) := by
  obtain ⟨fuel, rfl⟩ : ∃ f, fuel = f + 1 + 1 := ⟨fuel - 2, by
    obtain ⟨⟨kind, us, rfl⟩, _⟩ := h.ends
    simp only [List.length_cons] at hfuel
    omega⟩
  cases h with
  | @values t u kind ns type hkind hns hnames htype hbare =>
    simp only [List.length_cons, List.length_append] at hfuel
    refine takes_decl kind (Q := fun s => ∃ u xs x, s = .values u xs (some x) [] ∧
      xs.map Name.text = ns.map Name.text ∧ x.core = type.readBack) ?_ ?_ ?_
    · obtain ⟨n, ns, rfl⟩ := List.exists_cons_of_ne_nil hns
      cases ns <;> rintro ⟨⟩
    · rw [List.append_assoc]
      exact takes_values hkind (by simpa using hns) htype hfuel rest
    · rintro t' _ ⟨u', xs, x, rfl, hxs, hx⟩
      exact ⟨rfl, by rw [lead, lead, hxs], fun t ht => ⟨x, rfl, by cases ht; exact hx⟩⟩
  | @type t u n isAlias type hn htype hbare =>
    simp only [List.length_cons, List.length_append] at hfuel
    refine takes_decl .types (Q := fun s => ∃ u m x, s = .type u m isAlias x ∧
      m.text = n.text ∧ x.core = type.readBack) (by rintro ⟨⟩) ?_ ?_
    · rw [List.cons_append, List.append_assoc]
      exact takes_type htype (by omega) rest
    · rintro t' _ ⟨u', m, x, rfl, hm, hx⟩
      exact ⟨rfl, by rw [lead, lead, hm], fun t ht => ⟨x, rfl, by cases ht; exact hx⟩⟩

/-- The tokens of declarations on lines of their own, behind an offset. A semicolon stands for the end
of each line. -/
inductive Stands : Nat → List (Nat × TopDecl) → List Placed → Prop
  | nil {o : Nat} : Stands o [] []
  | cons {o n : Nat} {d : TopDecl} {rs : List (Nat × TopDecl)} {ts : List Token}
      {ps qs : List Placed} (hd : Formed d ts) (hps : ps.map Placed.token = ts)
      (hstart : ∀ p ∈ ps, o + n ≤ p.span.start)
      (h : Stands (o + n + byteSize d.print.toList) rs qs) :
      Stands o ((n, d) :: rs) (ps ++ ⟨.punct .semi, o + n + byteSize d.print.toList,
        o + n + byteSize d.print.toList⟩ :: qs)

theorem scan_spaced {rs : List (Nat × TopDecl)} (hall : ∀ r ∈ rs, 1 ≤ r.1 ∧ ∃ ts, Formed r.2 ts)
    (o : Nat) : ∃ w qs, spaced rs ++ ['\n'] = '\n' :: w ∧ Stands o rs qs ∧
      Scan.ofLexemes .start (o + 1) (Lexeme.all w) = ⟨qs, [], []⟩ := by
  induction rs generalizing o with
  | nil => exact ⟨[], [], rfl, .nil, by rw [Lexeme.all]; rfl⟩
  | cons r rs ih =>
    obtain ⟨n, d⟩ := r
    obtain ⟨⟨hn, ts, hd⟩, hrs⟩ := List.forall_mem_cons.1 hall
    obtain ⟨k, rfl⟩ : ∃ k, n = k + 1 := ⟨n - 1, by omega⟩
    obtain ⟨w, qs, hw, hstands, hscan⟩ := ih hrs (o + (k + 1) + byteSize d.print.toList)
    obtain ⟨ps, last, hps, hends, hstart, hline⟩ :=
      Scan.ofLexemes_laid hd.laid ('\n' :: w) (by simp) [] (by simp) .start rfl (o + (k + 1))
    obtain ⟨-, v, hv, hlast⟩ := hd.ends
    have hsemi : last.ends = true := by
      rw [hends, Scan.endsAfter, hlast, Option.map_some, hv.endsStatement, Option.getD_some]
    refine ⟨List.replicate k '\n' ++ (d.print.toList ++ '\n' :: w), _, ?_,
      .cons hd hps hstart hstands, ?_⟩
    · rw [spaced, List.append_assoc, hw, List.replicate_succ, List.cons_append, List.cons_append,
        List.append_assoc]
    · rw [Scan.ofLexemes_breaks, show o + 1 + k = o + (k + 1) by omega]
      simp only [List.nil_append, byteSize, Nat.add_zero] at hline
      rw [hline, Scan.ofLexemes_newline, hscan, Scan.lineEnd, if_pos hsemi]
      simp [Scan.append, Scan.token]

/-- What is read of declarations on lines of their own: each again, and on its line. -/
inductive Echo : Nat → List (Nat × TopDecl) → List TopDecl → Prop
  | nil {o : Nat} : Echo o [] []
  | cons {o n : Nat} {d x : TopDecl} {rs : List (Nat × TopDecl)} {xs : List TopDecl}
      (hx : Echoes d x) (hsound : x.piece.Sound) (hstart : o + n ≤ x.span.start)
      (hstop : x.span.stop ≤ o + n + byteSize d.print.toList)
      (h : Echo (o + n + byteSize d.print.toList) rs xs) : Echo o ((n, d) :: rs) (x :: xs)

/-- A declaration in front of a semicolon is read, and the others behind it. -/
theorem topDecls_cons {f : Nat} {c c1 : Cursor} {x : Decl} {kind : DeclKind} {p : Placed}
    {qs : List Placed} (hhead : c.ahead.head?.map Placed.token = some (.keyword kind.keyword))
    (hread : Read.decl f c = .ok (x, c1)) (hahead : c1.ahead = p :: qs)
    (hp : p.token = .punct .semi) : ∃ c2, Read.take c1 = .ok (p, c2) ∧ c2.ahead = qs ∧
      ∀ ds c3, Read.topDecls f c2 = .ok (ds, c3) →
        Read.topDecls (f + 1) c = .ok (.decl x :: ds, c3) := by
  obtain ⟨ahead, size, reached, literals, nextId⟩ := c1
  obtain ⟨token, span⟩ := p
  cases hahead
  cases hp
  refine ⟨_, rfl, rfl, fun ds c3 hrest => ?_⟩
  rw [Read.topDecls]
  refine Read.bind_ok.2 ⟨some (.keyword kind.keyword), c, Read.peek_ok.2 ⟨hhead, rfl⟩, ?_⟩
  extract_lets jp
  have hjp : jp (.decl x) ⟨⟨.punct .semi, span⟩ :: qs, size, reached, literals, nextId⟩ =
      .ok (.decl x :: ds, c3) :=
    Read.bind_ok.2 ⟨false, _, rfl, Read.bind_ok.2 ⟨false, _, rfl, Read.bind_ok.2 ⟨(), _, rfl,
      Read.bind_ok.2 ⟨ds, c3, hrest, rfl⟩⟩⟩⟩
  have hfunc : Token.keyword kind.keyword ≠ .keyword .funcKw := by cases kind <;> decide
  have hdecl : (DeclKind.ofToken? (.keyword kind.keyword)).isSome = true := by
    rw [kind.ofToken_keyword]
    rfl
  change (if _ then _ else if _ then _ else _ : Read (List TopDecl)) c = _
  rw [if_neg hfunc, if_pos hdecl]
  exact Read.bind_ok.2 ⟨x, _, hread, hjp⟩

theorem reads_spaced {rs : List (Nat × TopDecl)} {o : Nat} {qs : List Placed} (h : Stands o rs qs)
    {c : Cursor} (hc : c.Ordered) (hahead : c.ahead = qs) {fuel : Nat}
    (hfuel : 8 * qs.length + 1 ≤ fuel) :
    ∃ ds c', Read.topDecls fuel c = .ok (ds, c') ∧ Echo o rs ds := by
  induction h generalizing c fuel with
  | nil =>
    obtain ⟨fuel, rfl⟩ : ∃ f, fuel = f + 1 := ⟨fuel - 1, by omega⟩
    refine ⟨[], c, ?_, .nil⟩
    rw [Read.topDecls]
    exact Read.bind_ok.2 ⟨none, c, Read.peek_ok.2 ⟨by rw [Facing, hahead]; rfl, rfl⟩, rfl⟩
  | @cons o n d rs ts ps qs hd hps hstart _ ih =>
    simp only [List.length_append, List.length_cons] at hfuel
    obtain ⟨fuel, rfl⟩ : ∃ f, fuel = f + 1 := ⟨fuel - 1, by omega⟩
    have hlength : ts.length = ps.length := by rw [← hps, List.length_map]
    obtain ⟨x, c1, hread, hsuffix, hrest, hx⟩ := hd.takes (by omega : 8 * ts.length ≤ fuel)
      (qs.map Placed.token) c (by rw [hahead, List.map_append, hps]; rfl)
    -- what is left are the semicolon and the tokens of the other declarations
    have hleft : c1.ahead = ⟨.punct .semi, o + n + byteSize d.print.toList,
        o + n + byteSize d.print.toList⟩ :: qs := by
      have hcount : c1.ahead.length = qs.length + 1 := by simpa using congrArg List.length hrest
      rw [hahead] at hsuffix
      exact (List.suffix_of_suffix_length_le hsuffix (List.suffix_append ps _)
        (by simp [hcount])).eq_of_length (by simp [hcount])
    obtain ⟨kind, us, hts⟩ := hd.ends.1
    have hhead : c.ahead.head?.map Placed.token = some (.keyword kind.keyword) := by
      rw [hahead, ← List.head?_map, List.map_append, hps, hts]
      rfl
    obtain ⟨c2, htake, hahead2, htop⟩ := topDecls_cons hhead hread hleft rfl
    obtain ⟨htaken, -⟩ := (readsUpright fuel).decl c.next (.keyword kind.keyword)
      (by rw [kind.ofToken_keyword]; rfl) _ c x c1 (.fresh hc) hhead hread
    obtain ⟨htaken2, -⟩ := Taken.take htaken.ordered htake
    obtain ⟨ds, c3, hds, hecho⟩ := ih htaken2.ordered hahead2
      (by omega : 8 * qs.length + 1 ≤ fuel)
    have hnext : o + n ≤ c.next := by
      obtain ⟨p, ps, rfl⟩ : ∃ p ps', ps = p :: ps' := List.exists_cons_of_ne_nil fun h => by
        rw [h, hts] at hps
        cases hps
      rw [Cursor.next, hahead]
      exact hstart p List.mem_cons_self
    have hreached := htaken.ordered.reached_le
    rw [Cursor.next, hleft] at hreached
    cases htaken.strip (by simp) with
    | piece hlo hsound hlast =>
      cases hlast with
      | nil hhi =>
        exact ⟨_, c3, htop ds c3 hds, .cons hx hsound (Nat.le_trans hnext hlo)
          (Nat.le_trans hhi hreached) hecho⟩

end TopDecl

end FuncLift
