import FuncLift.Proofs.Grammar
import FuncLift.Proofs.Lines

/-!
# Documents that were read

Reading a text gives a document in which no two entries have the same number, all numbers are below
the next free one, and every span that starts inside the text ends inside it.
-/
namespace FuncLift

/-- Every number is used once, and the free ones are free. -/
structure Document.Owned (d : Document) : Prop where
  once : ∀ i, idCount i d.file.entries ≤ 1
  fresh : ∀ e ∈ d.file.entries, e.tag.id < d.nextId

def Document.Settled (d : Document) : Prop := ∀ e ∈ d.file.entries, e.Fine d.size

theorem idCount_pos {e : Entry} {es : List Entry} (h : e ∈ es) : 0 < idCount e.tag.id es :=
  List.countP_pos_iff.2 ⟨e, h, by simp⟩

namespace Yields

variable {source : Page}

theorem funcDecl (fuel : Nat) : Gives source (Read.funcDecl fuel) FuncDecl.entries := by
  have ih := readsTrees source fuel
  refine .start fun s hs => .pass (.silent_expect _) fun _ =>
    .pass (.silent_at _) fun hasRecv => ?_
  extract_lets jp
  have hjp : ∀ recv : Option Field, Yields source Anywhere (recv.toList.flatMap Field.entries)
      (jp recv) FuncDecl.entries fun _ => True := by
    intro recv
    refine .step .name fun n _ => .step ih.signature fun sig _ =>
      .pass (.silent_at _) fun hasBody => ?_
    extract_lets jp
    have hjp : ∀ body : Option Block, Yields source Anywhere (body.toList.flatMap Block.entries ++
        (sig.entries ++ (n.entry :: recv.toList.flatMap Field.entries))) (jp body)
        FuncDecl.entries fun _ => True :=
      fun body => .tag hs fun t => .pure (fun x => by simp; omega) trivial
    split
    · exact .step (.withLiterals ih.block) fun b _ => .ret ((hjp (some b)).of_covers
        fun x => by simp)
    · exact .ret ((hjp none).of_covers fun x => by simp)
  split
  · refine .start fun _ _ => .step ih.parameters fun fields _ => ?_
    split
    · rename_i field
      exact .ret ((hjp (some field)).of_covers fun x => by simp)
    · exact .pass (.silent_spanFrom _) fun _ => .neverThen fun _ _ => Read.fail_not_ok
  · exact .ret (hjp none)

theorem topDecls (fuel : Nat) : Gives source (Read.topDecls fuel) (·.flatMap TopDecl.entries) := by
  induction fuel with
  | zero => exact .exhausted
  | succ fuel ih =>
    rw [Read.topDecls]
    refine .peek fun next => ?_
    split
    · exact .pure (fun x => by simp) trivial
    · exact .take (fun _ => Facing.nonempty) fun _ _ => ih
    · rename_i t _
      extract_lets jp
      have hjp : ∀ d : TopDecl, Yields source Anywhere d.entries (jp d) (·.flatMap TopDecl.entries)
          fun _ => True := by
        intro d
        refine .pass (.silent_at _) fun a => .pass (.silent_at _) fun b => ?_
        extract_lets done
        have hdone : Yields source Anywhere d.entries (done ()) (·.flatMap TopDecl.entries)
            fun _ => True :=
          .pass .silent_endStatement fun _ => .step ih fun ds _ =>
            .pure (fun x => by simp; omega) trivial
        split
        · exact .neverThen fun _ _ => Read.unexpected_not_ok
        · exact hdone
      split
      · exact .of_anywhere (.step (funcDecl fuel) fun f _ =>
          .ret ((hjp (.func f)).of_covers fun x => by simp))
      · split
        · exact .step (.of_pre (readsTrees source fuel).decl fun _ => Facing.nonempty) fun d _ =>
            .ret ((hjp (.decl d)).of_covers fun x => by simp)
        · exact .neverThen fun _ _ => Read.unexpected_not_ok

theorem sourceFile (fuel : Nat) :
    Yields source Anywhere [] (Read.sourceFile fuel) SourceFile.entries (·.comments = []) := by
  refine .start fun s hs => .pass (.silent_expect _) fun _ => .step .name fun n _ => ?_
  refine .tag hs fun t => .pass .silent_endStatement fun _ =>
    .step (topDecls fuel) fun ds _ => .pure (fun x => ?_) rfl
  simp [SourceFile.entries_eq]
  omega

theorem comments {text : List Char} (cs : List LooseComment) (hinside : ∀ c ∈ cs, c.span.stop < byteSize text)
    (hunder : ∀ c ∈ cs, Under 0 text c.span c.text.toList) :
    Gives (.free text) (Read.comments cs) (·.map Comment.entry) := by
  induction cs with
  | nil => exact .pure (fun x => by simp) trivial
  | cons c cs ih =>
    rw [Read.comments]
    refine .entryAt (some c.text) (fun _ => hinside c List.mem_cons_self)
      (fun s hs => Option.some.inj hs ▸ hunder c List.mem_cons_self) trivial fun t _ => ?_
    refine .step (ih (fun d hd => hinside d (List.mem_cons_of_mem _ hd))
      fun d hd => hunder d (List.mem_cons_of_mem _ hd)) fun rest _ => ?_
    exact .pure (fun x => by simp [Comment.entry]; omega) trivial

theorem commentGroups {text : List Char} (hsize : 0 < byteSize text) (gs : List (List LooseComment))
    (hinside : ∀ g ∈ gs, ∀ c ∈ g, c.span.stop < byteSize text)
    (hunder : ∀ g ∈ gs, ∀ c ∈ g, Under 0 text c.span c.text.toList) :
    Gives (.free text) (Read.commentGroups gs) (·.flatMap CommentGroup.entries) := by
  induction gs with
  | nil => exact .pure (fun x => by simp) trivial
  | cons g gs ih =>
    rw [Read.commentGroups]
    have hlast : (g.getLast?.map fun c => c.span.stop).getD 0 < byteSize text := by
      cases hl : g.getLast? with
      | none => exact hsize
      | some c => exact hinside g List.mem_cons_self c (List.mem_of_getLast? hl)
    refine .step (comments g (hinside g List.mem_cons_self) (hunder g List.mem_cons_self))
      fun inner _ => .tagAt (fun _ => hlast) trivial fun t _ => ?_
    refine .step (ih (fun g' hg' => hinside g' (List.mem_cons_of_mem _ hg'))
      fun g' hg' => hunder g' (List.mem_cons_of_mem _ hg')) fun rest _ => ?_
    exact .pure (fun x => by simp; omega) trivial

end Yields

def Comment.plain (c : Comment) : CommentKind × String × Span := (c.kind, c.text, c.tag.span)

def LooseComment.plain (c : LooseComment) : CommentKind × String × Span := (c.kind, c.text, c.span)

/-- The comments of a group as they stand in the text, and what it covers. -/
def CommentGroup.plain (g : CommentGroup) : List (CommentKind × String × Span) × Span :=
  (g.comments.map Comment.plain, g.tag.span)

/-- Comments as a group: it reaches from the first to the last. -/
def LooseComment.group (cs : List LooseComment) : List (CommentKind × String × Span) × Span :=
  (cs.map plain, ⟨(cs.head?.map fun c => c.span.start).getD 0,
    (cs.getLast?.map fun c => c.span.stop).getD 0⟩)

theorem Read.comments_ok {cs : List LooseComment} {c c' : Cursor} {made : List Comment}
    (h : Read.comments cs c = .ok (made, c')) :
    made.map Comment.plain = cs.map LooseComment.plain := by
  induction cs generalizing c c' made with
  | nil =>
    obtain ⟨rfl, _⟩ := Read.pure_ok.1 h
    rfl
  | cons d cs ih =>
    rw [Read.comments] at h
    obtain ⟨t, c1, ht, h⟩ := Read.bind_ok.1 h
    cases ht
    obtain ⟨rest, c2, hrest, h⟩ := Read.bind_ok.1 h
    obtain ⟨rfl, _⟩ := Read.pure_ok.1 h
    rw [List.map_cons, List.map_cons, ih hrest]
    rfl

theorem Read.commentGroups_ok {gs : List (List LooseComment)} {c c' : Cursor}
    {made : List CommentGroup} (h : Read.commentGroups gs c = .ok (made, c')) :
    made.map CommentGroup.plain = gs.map LooseComment.group := by
  induction gs generalizing c c' made with
  | nil =>
    obtain ⟨rfl, _⟩ := Read.pure_ok.1 h
    rfl
  | cons g gs ih =>
    rw [Read.commentGroups] at h
    obtain ⟨inner, c1, hinner, h⟩ := Read.bind_ok.1 h
    obtain ⟨t, c2, ht, h⟩ := Read.bind_ok.1 h
    cases ht
    obtain ⟨rest, c3, hrest, h⟩ := Read.bind_ok.1 h
    obtain ⟨rfl, _⟩ := Read.pure_ok.1 h
    rw [List.map_cons, List.map_cons, ih hrest, CommentGroup.plain, Read.comments_ok hinner]
    rfl

namespace Document

/-- What reading a text that has no faults comes to. -/
structure ReadBy (source : String) (d : Document) (file : SourceFile) (c c' : Cursor) : Prop where
  faults : (scan (terminated source)).faults = []
  sourceFile : Read.sourceFile (budget (scan (terminated source)).tokens.length)
    ⟨(scan (terminated source)).tokens, (terminated source).utf8ByteSize, 0, true, 0⟩ = .ok (file, c)
  commentGroups : Read.commentGroups (LooseComment.groups (terminated source).toList
    (scan (terminated source)).comments) c = .ok (d.file.comments, c')
  file : d.file = { file with comments := d.file.comments }
  lines : d.lines = .ofText (terminated source)
  source : d.source = some (terminated source)
  nextId : d.nextId = c'.nextId

theorem ofSource_ok {source : String} {d : Document} (h : ofSource source = .ok d) :
    ∃ file c c', d.ReadBy source file c c' := by
  unfold ofSource at h
  dsimp only at h
  split at h
  · cases h
  · rename_i hfaults
    split at h
    · cases h
    · rename_i hread
      cases h
      obtain ⟨file, c, hfile, hread⟩ := Read.bind_ok.1 hread
      obtain ⟨groups, c', hgroups, hread⟩ := Read.bind_ok.1 hread
      obtain ⟨rfl, rfl⟩ := Read.pure_ok.1 hread
      exact ⟨file, c, c', by simpa using hfaults, hfile, hgroups, rfl, rfl, rfl, rfl⟩

theorem ofSource_of_read {source : String} {file : SourceFile} {groups : List CommentGroup}
    {c c' : Cursor} (hfaults : (scan (terminated source)).faults = [])
    (hfile : Read.sourceFile (budget (scan (terminated source)).tokens.length)
      ⟨(scan (terminated source)).tokens, (terminated source).utf8ByteSize, 0, true, 0⟩ = .ok (file, c))
    (hgroups : Read.commentGroups (LooseComment.groups (terminated source).toList
      (scan (terminated source)).comments) c = .ok (groups, c')) :
    ∃ d, ofSource source = .ok d ∧ d.file = { file with comments := groups } ∧
      d.lines = .ofText (terminated source) := by
  have hall : (do
      let file ← Read.sourceFile (budget (scan (terminated source)).tokens.length)
      let groups ← Read.commentGroups (LooseComment.groups (terminated source).toList
        (scan (terminated source)).comments)
      return { file with comments := groups } : Read SourceFile) ⟨(scan (terminated source)).tokens,
        (terminated source).utf8ByteSize, 0, true, 0⟩ = .ok ({ file with comments := groups }, c') :=
    Read.bind_ok.2 ⟨file, c, hfile, Read.bind_ok.2 ⟨groups, c', hgroups, rfl⟩⟩
  unfold ofSource
  dsimp only
  rw [hfaults, if_neg (by simp)]
  split
  · rename_i hread
    cases hread.symm.trans hall
  · rename_i hread
    cases hread.symm.trans hall
    exact ⟨_, rfl, rfl, rfl⟩

section ReadBy

variable {source : String} {d : Document} {file : SourceFile} {c c' : Cursor}

theorem ReadBy.size (h : d.ReadBy source file c c') : d.size = byteSize (terminated source).toList := by
  rw [Document.size, h.lines, LineTable.size_ofText (getLast_terminated source), byteSize_toList]

theorem ReadBy.inked_le (h : d.ReadBy source file c c') :
    byteSize (inked (terminated source).toList) ≤ d.size := by
  obtain ⟨rest, hrest⟩ := isPrefix_inked (getLast_terminated source)
  have hsize := congrArg byteSize hrest
  rw [byteSize_append, ← h.size] at hsize
  omega

/-- Reading starts where something may start, if every token does and the end of the text. -/
theorem ReadBy.sound_start (h : d.ReadBy source file c c') {text : List Char}
    (hfront : text <+: (terminated source).toList)
    (hink : byteSize (inked (terminated source).toList) ≤ byteSize text) {starts : Nat → Prop}
    (htokens : ∀ p ∈ (scan (terminated source)).tokens, starts p.span.start)
    (hsize : starts (terminated source).utf8ByteSize) : Cursor.Sound ⟨text, starts⟩
      ⟨(scan (terminated source)).tokens, (terminated source).utf8ByteSize, 0, true, 0⟩ := by
  have hinside := (scan_inside h.faults).mono hink
  have hspelled := scan_spelled (terminated source)
  refine ⟨fun p hp => ?_, Nat.lt_of_lt_of_le (byteSize_pos (by simp [inked])) hink, hsize⟩
  obtain ⟨hordered, hstop⟩ := hinside.tokens p hp
  have hle : p.span.stop ≤ 0 + byteSize text := by omega
  exact ⟨hordered, hstop, fun w hw => Under.of_prefix (hspelled.tokens p hp w hw) hfront hle,
    htokens p hp⟩

/-- All that was read has its place in the text, and a number of its own. The empty lines at the end
of the text do not matter. -/
theorem ReadBy.yields_of (h : d.ReadBy source file c c') {text : List Char}
    (hfront : text <+: (terminated source).toList)
    (hink : byteSize (inked (terminated source).toList) ≤ byteSize text) :
    c.Sound (.free text) ∧ (∀ e ∈ d.file.entries, e.ReadFrom (.free text)) ∧
      ∀ i, idCount i d.file.entries ≤ between 0 d.nextId i := by
  have hinside := (scan_inside h.faults).mono hink
  have hspelled := scan_spelled (terminated source)
  have hpos : 0 < byteSize text := Nat.lt_of_lt_of_le (byteSize_pos (by simp [inked])) hink
  have hunder {span : Span} {s : List Char} (hs : Under 0 (terminated source).toList span s)
      (hstop : span.stop < byteSize text) : Under 0 text span s :=
    hs.of_prefix hfront (by omega)
  obtain ⟨hsound, hle, hbare, hfile, hcount⟩ := @Yields.sourceFile (.free text) _ _ _ _
    (h.sound_start hfront hink (fun _ _ => trivial) trivial) trivial (by simp) h.sourceFile
  have hcomments : ∀ g ∈ LooseComment.groups (terminated source).toList
      (scan (terminated source)).comments, ∀ x ∈ g, x.span.stop < byteSize text :=
    fun g hg x hx => (hinside.comments x (LooseComment.mem_of_mem_groups hg hx)).2
  obtain ⟨_, hle', _, hgroups, hcount'⟩ := Yields.commentGroups hpos _ hcomments
    (fun g hg x hx => hunder (hspelled.comments x (LooseComment.mem_of_mem_groups hg hx))
      (hcomments g hg x hx)) _ _ _ hsound trivial (by simp) h.commentGroups
  have hperm : d.file.entries = file.entries ++ d.file.comments.flatMap CommentGroup.entries := by
    rw [h.file, SourceFile.entries_eq, SourceFile.entries_eq, hbare]
    simp
  refine ⟨hsound, fun e he => ?_, fun i => ?_⟩
  · rw [hperm] at he
    exact (List.mem_append.1 he).elim (hfile e) (hgroups e)
  · have hi := hcount i
    have hi' := hcount' i
    have hadd := between_add hle hle' i
    rw [hperm, idCount_append, h.nextId]
    simp only [idCount_nil, Nat.zero_add] at hi hi' hadd
    omega

theorem ReadBy.yields (h : d.ReadBy source file c c') :
    c.Sound (.free (terminated source).toList) ∧
      (∀ e ∈ d.file.entries, e.ReadFrom (.free (terminated source).toList)) ∧
      ∀ i, idCount i d.file.entries ≤ between 0 d.nextId i :=
  h.yields_of (List.prefix_refl _) (h.size ▸ h.inked_le)

/-- Where something starts that is no comment, a token starts, or the text ends. -/
theorem ReadBy.starts (h : d.ReadBy source file c c') {e : Entry}
    (he : e ∈ d.file.decls.flatMap TopDecl.entries) :
    (∃ p ∈ (scan (terminated source)).tokens, p.span.start = e.span.start) ∨
      e.span.start = d.size := by
  have hsound : Cursor.Sound ⟨(terminated source).toList, fun offset =>
      (∃ p ∈ (scan (terminated source)).tokens, p.span.start = offset) ∨ offset = d.size⟩
        ⟨(scan (terminated source)).tokens, (terminated source).utf8ByteSize, 0, true, 0⟩ :=
    h.sound_start (List.prefix_refl _) (h.size ▸ h.inked_le) (fun p hp => .inl ⟨p, hp, rfl⟩)
      (.inr (by rw [h.size, byteSize_toList]))
  obtain ⟨_, _, _, hfile, _⟩ := Yields.sourceFile _ _ _ _ hsound trivial (by simp) h.sourceFile
  refine (hfile e ?_).start
  rw [h.file] at he
  rw [SourceFile.entries_eq]
  simp only [List.mem_cons, List.mem_append]
  exact .inr (.inr (.inl he))

/-- What stands before the end of the last line that is not empty stands before the empty lines. -/
theorem ReadBy.lt_dropBlankEnd (h : d.ReadBy source file c c') {offset : Nat} (hpos : 0 < offset)
    (hlt : offset < byteSize (inked (terminated source).toList)) :
    offset < d.lines.dropBlankEnd.size := by
  rw [h.lines]
  exact Nat.lt_of_lt_of_le hlt
    (LineTable.inked_le_dropBlankEnd (getLast_terminated source) (by omega))

theorem ReadBy.reached_lt (h : d.ReadBy source file c c') (hpos : 0 < c.reached) :
    c.reached < d.lines.dropBlankEnd.size :=
  h.lt_dropBlankEnd hpos
    (h.yields_of (isPrefix_inked (getLast_terminated source)) (Nat.le_refl _)).1.reached

theorem ReadBy.groups (h : d.ReadBy source file c c') : d.file.comments.map CommentGroup.plain =
    (LooseComment.groups (terminated source).toList (scan (terminated source)).comments).map
      LooseComment.group := Read.commentGroups_ok h.commentGroups

theorem ReadBy.covers (h : d.ReadBy source file c c') {g : CommentGroup} (hg : g ∈ d.file.comments) :
    g.tag.span.start < g.tag.span.stop ∧ g.tag.span.stop < d.lines.dropBlankEnd.size ∧
      ∀ x ∈ g.comments, x.tag.span.start < x.tag.span.stop := by
  have hmem : g.plain ∈ d.file.comments.map CommentGroup.plain := List.mem_map_of_mem hg
  rw [h.groups] at hmem
  obtain ⟨cs, hcs, heq⟩ := List.mem_map.1 hmem
  obtain ⟨hcomments, hspan⟩ := Prod.mk.inj heq
  have hne := LooseComment.ne_nil_of_mem_groups hcs
  have hfirst := List.head?_eq_some_head hne
  have hlast := List.getLast?_eq_some_getLast hne
  have hfollow := (scan_follow (terminated source)).of_mem_groups hcs
  have hinside := scan_inside h.faults
  rw [hfirst, hlast] at hspan
  have hextent : g.tag.span.start < g.tag.span.stop := by
    rw [← hspan]
    exact hfollow.extent hfirst hlast
  refine ⟨hextent, h.lt_dropBlankEnd (by omega) ?_, fun x hx => ?_⟩
  · rw [← hspan]
    exact (hinside.comments _ (LooseComment.mem_of_mem_groups hcs (List.getLast_mem hne))).2
  · have hx : x.plain ∈ g.comments.map Comment.plain := List.mem_map_of_mem hx
    rw [← hcomments] at hx
    obtain ⟨y, hy, hyx⟩ := List.mem_map.1 hx
    have hyspan : y.span = x.tag.span := congrArg (fun p => p.2.2) hyx
    rw [← hyspan]
    exact (hfollow.filled y hy).2

end ReadBy

variable {source : String} {d : Document}

theorem ofSource_sound (h : ofSource source = .ok d) :
    d.Owned ∧ d.Settled ∧ ∀ g ∈ d.file.comments, g.tag.span.start < d.size := by
  obtain ⟨file, c, c', hreads⟩ := ofSource_ok h
  obtain ⟨_, hfine, hcount⟩ := hreads.yields
  refine ⟨⟨fun i => Nat.le_trans (hcount i) (between_le_one _ _ i), fun e he => ?_⟩,
    fun e he => hreads.size ▸ (hfine e he).fine, fun g hg => ?_⟩
  · exact lt_of_between_pos (Nat.lt_of_lt_of_le (idCount_pos he) (hcount e.tag.id))
  · obtain ⟨hstart, hstop, _⟩ := hreads.covers hg
    have hle : d.lines.dropBlankEnd.size ≤ d.size := d.lines.size_dropBlankEnd_le
    omega

end Document

end FuncLift
