import FuncLift.Proofs.Lettered

/-!
# What is printed for bare declarations

A declaration that gives names a type on one line is drawn as what leads to the type and the type. A
file of such declarations is drawn as one behind the other, with one line break or two in front of
each.
-/
namespace FuncLift

namespace TopDecl

def print (d : TopDecl) : String := Drawing.fragment (Draw.topDecl d)

/-- The type that a declaration gives to names, if it has no parentheses and no values. -/
def bareType? : TopDecl → Option TypeExpr
  | .decl ⟨_, _, false, [.values _ _ (some t) []]⟩ | .decl ⟨_, _, false, [.type _ _ _ t]⟩ => some t
  | _ => none

def lead : TopDecl → List Char
  | .decl ⟨_, kind, false, [.values _ ns (some _) []]⟩ =>
    kind.spelling.toList ++ (" ".toList ++ (commas ((ns.map Name.text).map String.toList) ++ " ".toList))
  | .decl ⟨_, kind, false, [.type _ n isAlias _]⟩ =>
    kind.spelling.toList ++ (" ".toList ++ (n.text.toList ++
      (if isAlias then " = " else " ").toList))
  | _ => []

/-- A declaration that gives names a bare type on one line. -/
def IsBare (lines : LineTable) (d : TopDecl) : Prop :=
  ∃ t, d.bareType? = some t ∧ t.isBare = true ∧ t.isFlat lines = true

section

variable {lines : LineTable} {d : TopDecl} {t : TypeExpr}

theorem inscribes_decl {t : Tag} {kind : DeclKind} {s : Spec} {cs : List Char}
    (h : Inscribes lines (Draw.spec s) cs fun _ => True) :
    Inscribes lines (Draw.topDecl (.decl ⟨t, kind, false, [s]⟩))
      (kind.spelling.toList ++ (" ".toList ++ cs)) fun _ => True := by
  rw [Draw.topDecl, Draw.decl]
  refine .offset fun start => (Inscribes.text kind.spelling).bind fun _ _ => ?_
  refine (Inscribes.text " ").bind fun _ _ => ?_
  exact h.then_ fun _ _ => .markNode _ t start

theorem inscribes_lead (ht : d.bareType? = some t) (h : t.isBare = true) (hflat : t.isFlat lines = true) :
    Inscribes lines (Draw.topDecl d) (d.lead ++ t.letters) fun _ => True := by
  have htype := t.inscribes_letters h hflat
  unfold bareType? at ht
  split at ht
  · rename_i ns _
    cases ht
    rw [lead, List.map_map]
    simp only [List.append_assoc]
    apply inscribes_decl
    rw [Draw.spec]
    refine .offset fun start => (Inscribes.names ns).bind fun _ _ => ?_
    refine (Inscribes.text " ").bind fun _ _ => ?_
    exact htype.then_ fun _ _ => .markNode _ _ start
  · rename_i n isAlias _
    cases ht
    rw [lead]
    simp only [List.append_assoc]
    apply inscribes_decl
    rw [Draw.spec]
    refine .offset fun start => (Inscribes.name _ n).bind fun _ _ => ?_
    refine (Inscribes.text _).bind fun _ _ => ?_
    exact htype.then_ fun _ _ => .markNode _ _ start
  · cases ht

theorem toList_print (ht : d.bareType? = some t) (h : t.isBare = true) :
    d.print.toList = d.lead ++ t.letters :=
  (inscribes_lead ht h t.isFlat_empty).toList_fragment

theorem IsBare.inscribes (h : d.IsBare lines) :
    Inscribes lines (Draw.topDecl d) d.print.toList fun _ => True := by
  obtain ⟨t, ht, hbare, hflat⟩ := h
  rw [toList_print ht hbare]
  exact inscribes_lead ht hbare hflat

end

end TopDecl

/-- A pen at the left edge, behind something and with no comment waiting. -/
structure Pen.Level (p : Pen) : Prop where
  comments : p.comments = []
  indent : p.indent = 0
  atStart : p.atStart = false

/-- Line breaks that a declaration at least gets in front of it, behind one of a kind. -/
def TopDecl.breaks (last : Option (Option DeclKind)) (d : TopDecl) : Nat :=
  if last != some (Draw.declKind? d) || d.span.isUnset then 2 else 1

namespace Draw

variable {p : Pen}

theorem hasDocComment_level (h : p.Level) (span : Span) : p.hasDocComment span = false := by
  rw [Pen.hasDocComment, h.comments]
  split <;> rfl

theorem topDecls_cons (hp : p.Level) (last : Option (Option DeclKind)) {d : TopDecl}
    (hd : d.IsBare p.lines) (ds : List TopDecl) : ∃ q : Pen, q.Level ∧ q.lines = p.lines ∧
      q.lastEnd = known? d.span.stop ∧ q.text = p.text ++ (List.replicate
        (p.gap d.span (d.breaks last)) '\n' ++ d.print.toList) ∧
      topDecls last (d :: ds) p = topDecls (some (declKind? d)) ds q := by
  let r : Pen := (newlines (p.gap d.span (d.breaks last)) p).2
  have hr : p.Wrote (List.replicate (p.gap d.span (d.breaks last)) '\n') r := by
    refine ⟨?_, rfl, rfl, rfl, rfl, fun _ => rfl⟩
    change (String.ofList (List.replicate _ '\n' ++ List.replicate p.indent '\t') ::
      p.pieces).reverse.flatMap String.toList = _
    simp [hp.indent, Pen.text]
  have hd := hr.trans (hd.inscribes r (hr.comments.trans hp.comments) hr.lines).1
  refine ⟨{ (topDecl d r).2 with lastEnd := known? d.span.stop }, ⟨hd.comments.trans hp.comments,
    hd.indent.trans hp.indent, hd.atStart.trans hp.atStart⟩, hd.lines, rfl, hd.text, ?_⟩
  have hleast : (if last != some (declKind? d) || d.span.isUnset || p.hasDocComment d.span then 2
      else 1) = d.breaks last := by
    rw [hasDocComment_level hp, Bool.or_false]
    rfl
  rw [topDecls]
  change (topDecl d >>= fun _ => setLastEnd (known? d.span.stop) >>= fun _ =>
    topDecls (some (declKind? d)) ds) (itemBreak d.span (if last != some (declKind? d) ||
      d.span.isUnset || p.hasDocComment d.span then 2 else 1) p).2 = _
  rw [hleast, itemBreak_eq hp.comments hp.atStart]
  rfl

end Draw

namespace TopDecl

/-- Declarations, each behind so many line breaks. -/
def spaced : List (Nat × TopDecl) → List Char
  | [] => []
  | (n, d) :: ds => List.replicate n '\n' ++ d.print.toList ++ spaced ds

/-- One line break or two stand in front of each declaration, and two behind one of another kind. -/
def Spaced : Option (Option DeclKind) → List (Nat × TopDecl) → Prop
  | _, [] => True
  | last, (n, d) :: ds => 1 ≤ n ∧ n ≤ 2 ∧ (last ≠ some (Draw.declKind? d) → n = 2) ∧
      Spaced (some (Draw.declKind? d)) ds

/-- Each declaration has a line to itself, as far below the last one as its line breaks say. -/
def OnLines (t : LineTable) : Nat → List (Nat × TopDecl) → Prop
  | _, [] => True
  | line, (n, d) :: ds => (d.span.start < Span.unknown ∧ t.lineOf d.span.start = line + n) ∧
      (d.span.stop < Span.unknown ∧ t.lineOf d.span.stop = line + n) ∧ OnLines t (line + n) ds

theorem breaks_eq (last : Option (Option DeclKind)) (d : TopDecl) :
    1 ≤ d.breaks last ∧ d.breaks last ≤ 2 ∧ (last ≠ some (Draw.declKind? d) → d.breaks last = 2) ∧
      (last = some (Draw.declKind? d) → d.span.isUnset = false → d.breaks last = 1) := by
  unfold breaks
  split
  · refine ⟨by omega, by omega, fun _ => rfl, fun hlast hset => ?_⟩
    rename_i h
    rw [hset, hlast] at h
    simp at h
  · refine ⟨by omega, by omega, fun hlast => ?_, fun _ _ => rfl⟩
    rename_i h
    exact absurd (by simp [hlast]) h

end TopDecl

/-- The line breaks in front of something are as many as they must be, and two at most. -/
theorem Pen.gap_le (p : Pen) (next : Span) {least : Nat} (h : least ≤ 2) :
    least ≤ p.gap next least ∧ p.gap next least ≤ 2 := by
  unfold gap
  split <;> omega

theorem lineAt?_of_lt {p : Pen} {offset : Nat} (h : offset < Span.unknown) :
    p.lineAt? offset = some (p.lines.lineOf offset) := by
  rw [Pen.lineAt?, known?, if_neg (Nat.ne_of_lt h)]
  rfl

namespace Draw

variable {p : Pen}

theorem exists_spaced (last : Option (Option DeclKind)) {ds : List TopDecl}
    (hds : ∀ d ∈ ds, d.IsBare p.lines) (hp : p.Level) :
    ∃ rs, rs.map Prod.snd = ds ∧ TopDecl.Spaced last rs ∧
      (topDecls last ds p).2.text = p.text ++ TopDecl.spaced rs ∧
      (topDecls last ds p).2.comments = [] := by
  induction ds generalizing p last with
  | nil => exact ⟨[], rfl, trivial, (List.append_nil _).symm, hp.comments⟩
  | cons d ds ih =>
    obtain ⟨hd, hds⟩ := List.forall_mem_cons.1 hds
    obtain ⟨q, hq, hlines, -, htext, hdraw⟩ := topDecls_cons hp last hd ds
    obtain ⟨rs, hrs, hspaced, hrest, hcomments⟩ := ih (some (declKind? d)) (by rwa [hlines]) hq
    obtain ⟨hpos, hle, hkind, -⟩ := TopDecl.breaks_eq last d
    have hgap := p.gap_le d.span hle
    refine ⟨(p.gap d.span (d.breaks last), d) :: rs, by simp [hrs], ⟨by omega, hgap.2, fun h => ?_,
      hspaced⟩, ?_, hdraw ▸ hcomments⟩
    · have := hkind h
      omega
    · rw [hdraw, hrest, htext, TopDecl.spaced, List.append_assoc]

/-- Declarations that stand on lines as their line breaks say are drawn with these line breaks. -/
theorem text_spaced {last : Option (Option DeclKind)} {rs : List (Nat × TopDecl)} {line : Nat}
    (hrs : ∀ r ∈ rs, r.2.IsBare p.lines) (hspaced : TopDecl.Spaced last rs) (hlines : TopDecl.OnLines p.lines line rs) (hp : p.Level)
    (hlast : last = none ∨ p.lastEnd.bind p.lineAt? = some line) :
    (topDecls last (rs.map Prod.snd) p).2.text = p.text ++ TopDecl.spaced rs := by
  induction rs generalizing p last line with
  | nil => exact (List.append_nil _).symm
  | cons r rs ih =>
    obtain ⟨n, d⟩ := r
    obtain ⟨hd, hrs⟩ := List.forall_mem_cons.1 hrs
    obtain ⟨hpos, hle, hkind, hspaced⟩ := hspaced
    obtain ⟨⟨hstart, hfirst⟩, ⟨hstop, hfinal⟩, hlines⟩ := hlines
    obtain ⟨q, hq, hqlines, hqend, htext, hdraw⟩ :=
      topDecls_cons hp last hd (rs.map Prod.snd)
    have hset : d.span.isUnset = false := by
      rw [Span.isUnset, beq_eq_false_iff_ne]
      exact Nat.ne_of_lt hstart
    obtain ⟨-, hbreaks, hother, hsame⟩ := TopDecl.breaks_eq last d
    have hgap : p.gap d.span (d.breaks last) = n := by
      by_cases h : last = some (declKind? d)
      · have habove : p.lastEnd.bind p.lineAt? = some line :=
          hlast.resolve_left (by rw [h]; exact Option.some_ne_none _)
        rw [hsame h hset, Pen.gap, habove, lineAt?_of_lt hstart, hfirst]
        dsimp only
        omega
      · have hbounds := p.gap_le d.span hbreaks
        rw [hother h] at hbounds ⊢
        rw [hkind h]
        omega
    have hqlast : q.lastEnd.bind q.lineAt? = some (line + n) := by
      rw [hqend, known?, if_neg (Nat.ne_of_lt hstop), Option.bind_some, lineAt?_of_lt hstop, hqlines,
        hfinal]
    rw [← hqlines] at hrs hlines
    rw [List.map_cons, hdraw, ih hrs hspaced hlines hq (.inr hqlast), htext, hgap, TopDecl.spaced,
      List.append_assoc]

end Draw

def SourceFile.clause (f : SourceFile) : List Char := "package ".toList ++ f.name.text.toList

/-- The text of a file with its declarations behind so many line breaks. -/
def SourceFile.spaced (f : SourceFile) (rs : List (Nat × TopDecl)) : List Char :=
  f.clause ++ (TopDecl.spaced rs ++ ['\n'])

namespace Draw

/-- A file without comments is drawn as its clause, its declarations and a newline. -/
theorem sourceFile_level (lines : LineTable) (f : SourceFile) : ∃ q : Pen, q.Level ∧
    q.lines = lines ∧ q.lastOp = none ∧ q.text = f.clause ∧
    ((topDecls none f.decls q).2.comments = [] →
      (sourceFile f (.fresh lines [] 0)).2.text = (topDecls none f.decls q).2.text ++ ['\n']) := by
  have hclause : Inscribes lines (packageClause f) f.clause fun _ => True :=
    (Inscribes.text "package ").bind fun _ _ => .name .packageName f.name
  obtain ⟨hr, -⟩ := hclause (.fresh lines [] 0) rfl rfl
  refine ⟨{ (fileHead f (.fresh lines [] 0)).2 with lastEnd := known? f.tag.span.stop },
    ⟨hr.comments, hr.indent, hr.atStart⟩, hr.lines, hr.lastOp rfl, hr.text, fun hcomments => ?_⟩
  -- behind the declarations no comment waits, so all that is left is the newline
  change (text "\n" (flush Span.unknown 1 (topDecls none f.decls
    { (fileHead f (.fresh lines [] 0)).2 with lastEnd := known? f.tag.span.stop }).2).2).2.text = _
  rw [flush_eq hcomments]
  exact (Inscribes.text "\n" _ hcomments rfl).1.text

end Draw

namespace Document

/-- A file of bare declarations is printed with one line break or two in front of each. -/
theorem exists_print {d : Document} (hcomments : d.file.comments = [])
    (hdecls : ∀ x ∈ d.file.decls, x.IsBare d.lines) : ∃ rs, rs.map Prod.snd = d.file.decls ∧
      TopDecl.Spaced none rs ∧ d.print.toList = d.file.spaced rs := by
  obtain ⟨q, hq, hqlines, -, hclause, htext⟩ := Draw.sourceFile_level d.lines d.file
  rw [← hqlines] at hdecls
  obtain ⟨rs, hrs, hspaced, hdraw, hnone⟩ := Draw.exists_spaced none hdecls hq
  refine ⟨rs, hrs, hspaced, ?_⟩
  rw [print, drawing, Drawing.toList_text_run, hcomments, htext hnone, hdraw, hclause,
    List.append_assoc]
  rfl

/-- A file that stands on lines as its line breaks say is printed with these line breaks. -/
theorem print_of_onLines {d : Document} {rs : List (Nat × TopDecl)} {line : Nat}
    (hcomments : d.file.comments = []) (hrs : rs.map Prod.snd = d.file.decls)
    (hdecls : ∀ x ∈ d.file.decls, x.IsBare d.lines) (hspaced : TopDecl.Spaced none rs)
    (hlines : TopDecl.OnLines d.lines line rs) : d.print.toList = d.file.spaced rs := by
  obtain ⟨q, hq, hqlines, -, hclause, htext⟩ := Draw.sourceFile_level d.lines d.file
  rw [← hqlines] at hdecls hlines
  obtain ⟨-, -, -, -, hnone⟩ := Draw.exists_spaced none hdecls hq
  have hbare : ∀ r ∈ rs, r.2.IsBare q.lines := fun r hr => hdecls _ (hrs ▸ List.mem_map_of_mem hr)
  have hdraw := Draw.text_spaced hbare hspaced hlines hq (.inl rfl)
  rw [print, drawing, Drawing.toList_text_run, hcomments, htext hnone, ← hrs, hdraw, hclause,
    List.append_assoc]
  rfl

end Document

end FuncLift
