import FuncLift.Proofs.Made
import FuncLift.Proofs.Reading
import FuncLift.Proofs.Slots

/-!
# The file around the region

In a document in which no number is used twice, a region that was located and that a call can replace
is taken out of the one place where it stands. The links before and behind it stay what they are, the
links of the call stand between them, and the region goes into the new function as it is.
-/
namespace FuncLift

open Outline

namespace SourceFile

def declLinks (f : SourceFile) : List Link := linksAll none (f.decls.map ofTopDecl)

def commentLinks (f : SourceFile) : List Link := linksAll none (f.comments.map ofCommentGroup)

theorem links_ofFile (f : SourceFile) :
    linksAll none (ofFile f) = f.declLinks ++ f.commentLinks := linksAll_append _ _ _

theorem entries_eq_links (f : SourceFile) : f.entries =
    f.tag.entry :: f.name.entry :: (ownEntries f.declLinks ++ ownEntries f.commentLinks) := by
  rw [entries, Outline.entriesAll_eq_linksAll none, links_ofFile]
  exact congrArg (fun es => f.tag.entry :: f.name.entry :: es) (ownEntries_append _ _)

end SourceFile

theorem isComment_of_mem {f : SourceFile} {l : Link} (h : l ∈ f.commentLinks) :
    l.node.isComment = true := by
  unfold SourceFile.commentLinks at h
  generalize f.comments = gs at h
  induction gs with
  | nil => cases h
  | cons g gs ih =>
    rcases List.mem_append.1 h with h | h
    · rcases List.mem_cons.1 h with rfl | h
      · rfl
      · have hinner (cs : List Comment) (h : l ∈ linksAll (some g.tag.id) (cs.map ofComment)) :
            l.node.isComment = true := by
          induction cs with
          | nil => cases h
          | cons c cs ih =>
            rcases List.mem_cons.1 h with rfl | h
            · rfl
            · exact ih h
        exact hinner g.comments h
    · exact ih h

theorem mem_declLinks {f : SourceFile} {l : Link} (h : l ∈ linksAll none (ofFile f))
    (hl : l.node.isComment = false) : l ∈ f.declLinks := by
  rw [SourceFile.links_ofFile] at h
  rcases List.mem_append.1 h with h | h
  · exact h
  · rw [isComment_of_mem h] at hl
    cases hl

theorem SourceFile.mem_entries_of_link {f : SourceFile} {l : Link}
    (h : l ∈ linksAll none (ofFile f)) : ∀ x ∈ l.node.own, x ∈ f.entries := by
  intro x hx
  rw [SourceFile.entries, Outline.entriesAll_eq_linksAll none]
  exact List.mem_cons_of_mem _ (List.mem_cons_of_mem _ (List.mem_flatMap.2 ⟨l, h, hx⟩))

namespace Document.Owned

variable {d : Document}

theorem linkCount_file (hd : d.Owned) (i : Nat) : linkCount i (linksAll none (ofFile d.file)) ≤ 1 := by
  have h1 := linkCount_le_idCount i (linksAll none (ofFile d.file))
  have h2 := hd.once i
  rw [SourceFile.entries, Outline.entriesAll_eq_linksAll none, idCount_cons, idCount_cons] at h2
  exact Nat.le_trans h1 (Nat.le_trans (Nat.le_add_left _ _) (Nat.le_trans (Nat.le_add_left _ _) h2))

theorem linkCount_le_one (hd : d.Owned) (i : Nat) : linkCount i d.file.declLinks ≤ 1 := by
  have h1 := linkCount_le_idCount i d.file.declLinks
  have h2 := hd.once i
  rw [SourceFile.entries_eq_links] at h2
  simp only [idCount_cons, idCount_append] at h2
  omega

end Document.Owned

namespace Region

/-- The number of the node that a region stands in. -/
def holder : Region → Option Nat
  | .expression _ parent _ => some parent.tag.id
  | .statements _ owner => some owner.id

/-- The links of a region where it stands. -/
def links (r : Region) : List Link :=
  match r with
  | .expression e _ _ => (ofExpr e).links r.holder
  | .statements stmts _ => linksAll r.holder (ofStmts stmts)

theorem links_eq (r : Region) : r.links = linksAll r.holder r.roots := by
  cases r with
  | expression e parent slot => exact (List.append_nil _).symm
  | statements stmts owner => rw [links, roots, ofStmts_eq_map]

end Region

/-- The links of a replacement in a node. -/
def Replacement.links (p : Option Nat) : Replacement → List Link
  | .expr e => (ofExpr e).links p
  | .stmt s => linksAll p [ofStmt s]

theorem before_ne_first {os : List Outline} (hos : EveryOf OwnerComplete os)
    (hcount : ∀ i, linkCount i (linksAll none os) ≤ 1) {q : Option Nat} {w : Owner}
    (hw : ⟨q, w.node⟩ ∈ linksAll none os) {before run after : List Stmt}
    (hsplit : w.stmts = before ++ run ++ after) {first : Nat}
    (hfirst : run.head?.map (·.tag.id) = some first) : ∀ s ∈ before, s.tag.id ≠ first := by
  intro s hs hid
  have hmem (ss : List Stmt) {t : Stmt} (ht : t ∈ ss) :
      0 < linkCount t.tag.id (linksAll (some w.id) (ofStmts ss)) := by
    have hl : ⟨some w.id, .stmt t⟩ ∈ linksAll (some w.id) (ofStmts ss) := by
      refine mem_linksAll (o := ofStmt t) (by rw [ofStmts_eq_map]; exact List.mem_map_of_mem ht) ?_
      cases t <;> exact List.mem_cons_self
    exact linkCount_pos hl
  cases run with
  | nil => cases hfirst
  | cons t rest =>
    have ht : t.tag.id = first := by simpa using hfirst
    obtain ⟨a, b, hlinks⟩ := owner_split hos hw
    have hone := hcount first
    rw [hlinks, Change.links_outline, hsplit, Change.ofStmts_append, Change.ofStmts_append] at hone
    simp only [linksAll_append, linkCount_append, linkCount_cons] at hone
    have h1 := hid ▸ hmem before hs
    have h2 := ht ▸ hmem (t :: rest) List.mem_cons_self
    omega

namespace Plan

variable {p : Plan} {d : Document}

theorem region_sublist : p.region.entries.Sublist (p.edit d).function.entries := by
  obtain ⟨⟨c, body, hsurgery, _, hfunction⟩, _, _⟩ := (p.edit_spec d).1
  obtain ⟨t, hbody, _⟩ := hfunction.body
  have hregion : p.region.entries.Sublist (body.flatMap Stmt.entries) := by
    unfold Plan.IsSurgery at hsurgery
    cases hr : p.region with
    | expression e parent slot =>
      rw [hr] at hsurgery
      obtain ⟨_, _, _, _, hexpr⟩ := hsurgery
      rcases hexpr with ⟨t, u, rfl⟩ | ⟨t, rfl⟩ <;> simp [Region.entries]
    | statements stmts owner =>
      rw [hr] at hsurgery
      obtain ⟨_, _, _, _, _, _, hstmts⟩ := hsurgery
      rcases hstmts with ⟨_, rfl⟩ | ⟨_, t, es, rfl, _⟩
      · exact .refl _
      · rw [List.flatMap_append]
        exact List.sublist_append_left _ _
  generalize (p.edit d).function = f at hbody
  obtain ⟨u, recv, n, sig, b⟩ := f
  cases hbody
  have hbody : (body.flatMap Stmt.entries).Sublist (t.entry :: body.flatMap Stmt.entries) :=
    .cons _ (.refl _)
  have hback := (hbody.trans (List.sublist_append_right sig.entries _)).trans
    (List.sublist_append_right (recv.toList.flatMap Field.entries) _)
  refine hregion.trans ?_
  simpa using List.Sublist.cons _ (List.Sublist.cons _ hback)

/-- The surgery of a plan: a call takes the place of the region, and the region goes into the body
of the new function. -/
def Replaces (p : Plan) (r : Replacement) (c : Change) (body : List Stmt) : Prop :=
  match p.region with
  | .expression e _ _ => ∃ call, p.IsCall call ∧ r = .expr call ∧
      c = .replaceExpr e.tag.id call ∧ IsExprBody e body
  | .statements stmts owner => ∃ call s, p.IsCall call ∧ p.IsCallStmt call s ∧ r = .stmt s ∧
      c = .replaceRun owner.id ((stmts.head?.map fun s => s.tag.id).getD 0) stmts.length s ∧
      p.IsStmtsBody stmts body

theorem idCount_replacement (p : Plan) {i : Nat} (hi : i < d.nextId) :
    idCount i (p.edit d).replacement.entries = 0 := by
  obtain ⟨_, _, _, hcount⟩ := p.edit_spec d
  have hcount := hcount i
  have hregion : idCount i p.region.entries ≤ idCount i (p.edit d).function.entries :=
    region_sublist.countP_le
  rw [idCount_append, between_of_lt hi] at hcount
  omega

theorem fresh_call {call : Expr} (h : (p.edit d).replacement = .expr call) :
    d.nextId ≤ call.tag.id := by
  refine Nat.le_of_not_lt fun hlt => ?_
  have hself := idCount_pos (((Node.expr call).mem_entries _).2 (.inl rfl))
  rw [Node.tag_self] at hself
  have hnone := p.idCount_replacement hlt
  rw [h] at hnone
  exact absurd hnone (Nat.pos_iff_ne_zero.1 hself)

/-- The slot of an expression was found, so writing the filled parent replaces the expression. -/
theorem edit_replaces (hd : d.Owned) {target : Span} (hloc : p.region.Located d.file target)
    (hfits : p.region.badContext? = none) : ∃ c body, p.Replaces (p.edit d).replacement c body ∧
      (p.edit d).host = c.sourceFile d.file ∧ p.IsFunction body (p.edit d).function := by
  obtain ⟨⟨c, body, hsurgery, hhost, hfunction⟩, _, _⟩ := (p.edit_spec d).1
  unfold Plan.IsSurgery at hsurgery
  unfold Replaces
  cases hr : p.region with
  | expression e parent slot =>
    rw [hr] at hsurgery hloc hfits
    obtain ⟨call, hcall, hrepl, rfl, hbody⟩ := hsurgery
    obtain ⟨hlink, _, ⟨q, hparent⟩, hslot⟩ := hloc
    cases slot with
    | none => cases hfits
    | some s =>
      have hold : e.tag.id < d.nextId := by
        obtain ⟨x, xs, hown, htag⟩ := (Node.expr e).own_eq_cons
        have hx := SourceFile.mem_entries_of_link hlink x (by rw [hown]; exact List.mem_cons_self)
        have hid : x.tag.id = e.tag.id := congrArg Tag.id htag
        exact hid ▸ hd.fresh x hx
      have hnew : call.tag.id ≠ e.tag.id := by
        have := fresh_call hrepl
        omega
      have honce : parent.children.countP (fun c => c.tag.id == e.tag.id) ≤ 1 :=
        countP_children (every_ofFile truthful d.file) (hd.linkCount_file _) hparent
      exact ⟨_, body, ⟨call, hcall, hrepl, Change.write_fill hslot.symm honce hnew, hbody⟩, hhost,
        hfunction⟩
  | statements stmts owner =>
    rw [hr] at hsurgery
    exact ⟨c, body, hsurgery, hhost, hfunction⟩

end Plan

theorem swapped_host {d : Document} (hd : d.Owned) {p : Plan} {target : Span}
    (hloc : p.region.Located d.file target) (hfits : p.region.badContext? = none) : ∃ pre post,
      views d.file.declLinks = pre ++ views p.region.links ++ post ∧
      views (p.edit d).host.declLinks =
        pre ++ views ((p.edit d).replacement.links p.region.holder) ++ post := by
  obtain ⟨c, body, hsurgery, hhost, _⟩ := p.edit_replaces hd hloc hfits
  have hmap (c : Change) : (c.sourceFile d.file).declLinks =
      linksAll none ((d.file.decls.map c.topDecl).map ofTopDecl) := rfl
  have hfind {spot : Link} {old new : List Link} {c : Change}
      (hc : c.Congruent (Change.Swapped spot old new))
      (hspot : spot ∈ linksAll none (ofFile d.file)) (hcomment : spot.node.isComment = false) :
      ∃ pre post, views d.file.declLinks = pre ++ views old ++ post ∧
        views (c.sourceFile d.file).declLinks = pre ++ views new ++ post := by
    have hmem := mem_declLinks hspot hcomment
    have hone := hd.linkCount_le_one spot.id
    rcases hc.ofList (hc.ofTopDecl none) d.file.decls
      (fun l hl hid => eq_of_linkCount hone hl hmem hid rfl) hone with ⟨hne, _⟩ | ⟨_, hswap⟩
    · exact absurd rfl (hne spot hmem)
    · exact hswap
  unfold Plan.Replaces at hsurgery
  cases hr : p.region with
  | expression e parent slot =>
    rw [hr] at hsurgery hloc
    obtain ⟨call, _, hrepl, rfl, _⟩ := hsurgery
    rw [hhost, hrepl]
    exact hfind (Change.congruent_replaceExpr (some parent.tag.id) e call) hloc.1
      (by cases e <;> rfl)
  | statements stmts owner =>
    rw [hr] at hsurgery hloc
    obtain ⟨call, s, _, _, hrepl, rfl, _⟩ := hsurgery
    obtain ⟨⟨q, howner⟩, ⟨before, after, hsplit⟩, ⟨t, ht, _⟩, _⟩ := hloc
    rw [hhost, hrepl]
    have hfirst : stmts.head?.map (·.tag.id) = some t.tag.id := by rw [ht]; rfl
    have hget : (stmts.head?.map fun s => s.tag.id).getD 0 = t.tag.id := by rw [hfirst]; rfl
    rw [hget]
    have hcomment : owner.node.isComment = false := by cases owner <;> rfl
    have hbefore := before_ne_first (every_ofList ownerComplete (every_ofTopDecl ownerComplete) _)
      hd.linkCount_le_one (mem_declLinks howner hcomment) hsplit hfirst
    exact hfind (Change.congruent_replaceRun q s hsplit hbefore hfirst) howner hcomment

theorem ownEntries_of_views {a b : List Link} {pre post : List (Link × List Entry)}
    (h : views a = pre ++ views b ++ post) : ownEntries a =
      pre.flatMap (fun x => x.2) ++ ownEntries b ++ post.flatMap (fun x => x.2) := by
  have hown (ls : List Link) : ownEntries ls = (views ls).flatMap fun x => x.2 := by
    simp [ownEntries, views, List.flatMap_map]
  rw [hown, h, hown b, List.flatMap_append, List.flatMap_append]

theorem Region.ownEntries_links (r : Region) : ownEntries r.links = r.entries := by
  cases r with
  | expression e parent slot =>
    rw [Region.links, ownEntries, ← Outline.entries_eq_links, entries_ofExpr]
    rfl
  | statements stmts owner =>
    rw [Region.links, ownEntries, ← Outline.entriesAll_eq_linksAll, entriesAll_ofStmts]
    rfl

theorem Replacement.ownEntries_links (r : Replacement) (p : Option Nat) :
    ownEntries (r.links p) = r.entries := by
  cases r with
  | expr e =>
    rw [Replacement.links, ownEntries, ← Outline.entries_eq_links, entries_ofExpr]
    rfl
  | stmt s =>
    rw [Replacement.links, ownEntries, ← Outline.entriesAll_eq_linksAll]
    simp [Replacement.entries]

theorem FuncDecl.ownEntries_links (f : FuncDecl) (p : Option Nat) :
    ownEntries ((ofFunc f).links p) = f.entries := (Outline.entries_eq_links p (ofFunc f)).symm

theorem ownEntries_topDecls (ds : List TopDecl) :
    ownEntries (linksAll none (ds.map ofTopDecl)) = ds.flatMap TopDecl.entries := by
  rw [ownEntries, ← Outline.entriesAll_eq_linksAll, entriesAll_map]
  rfl

theorem ownEntries_declLinks (f : SourceFile) :
    ownEntries f.declLinks = f.decls.flatMap TopDecl.entries := ownEntries_topDecls f.decls

theorem ownEntries_commentLinks (f : SourceFile) :
    ownEntries f.commentLinks = f.comments.flatMap CommentGroup.entries := by
  rw [SourceFile.commentLinks, ownEntries, ← Outline.entriesAll_eq_linksAll, entriesAll_map]
  rfl

theorem host_rest {p : Plan} {d : Document} : (p.edit d).host.tag = d.file.tag ∧
    (p.edit d).host.name = d.file.name ∧ (p.edit d).host.comments = d.file.comments := by
  obtain ⟨⟨c, body, hsurgery, hhost, _⟩, _, _⟩ := (p.edit_spec d).1
  have hkeep (c : Change) (hc : ∀ t, c.onTag t = t) : (c.sourceFile d.file).tag = d.file.tag ∧
      (c.sourceFile d.file).name = d.file.name ∧
        (c.sourceFile d.file).comments = d.file.comments := by
    have hg (g : CommentGroup) : c.commentGroup g = g := by
      obtain ⟨t, cs⟩ := g
      have hcs : cs.map c.comment = cs := by
        refine List.map_id'' (fun x => ?_) cs
        simp [Change.comment, hc]
      simp [Change.commentGroup, hc, hcs]
    exact ⟨hc _, by simp [Change.sourceFile, Change.name, hc], List.map_id'' hg _⟩
  unfold Plan.IsSurgery at hsurgery
  rw [hhost]
  split at hsurgery
  · obtain ⟨_, _, _, rfl, _⟩ := hsurgery
    exact hkeep _ fun _ => rfl
  · obtain ⟨_, _, _, _, _, rfl, _⟩ := hsurgery
    exact hkeep _ fun _ => rfl

theorem Document.range_lt {d : Document} {s : Selection} {target : Span}
    (h : d.range? s = some target) : target.stop < d.size := by
  unfold Document.range? at h
  split at h
  · rename_i first last _ hlast
    cases h
    exact LineTable.offset_lt hlast
  · cases h

theorem Document.resolve_located {d : Document} {s : Selection} {r : Region}
    (h : d.resolve s = .ok r) : ∃ target : Span, target.start < target.stop ∧
      target.stop < d.size ∧ r.Located d.file target := by
  unfold Document.resolve at h
  split at h
  · cases h
  · split at h
    · cases h
    · split at h
      · cases h
      · rename_i target htarget
        split at h
        · cases h
        · rename_i hempty
          exact ⟨target, by omega, Document.range_lt htarget, SourceFile.regionAt_located h⟩

theorem idCount_head {e e' : Entry} (h : e.tag.id = e'.tag.id) {i : Nat} {es es' : List Entry}
    (hs : idCount i es = idCount i es') : idCount i (e :: es) = idCount i (e' :: es') := by
  rw [idCount_cons, idCount_cons, hs]
  simp only [h]

theorem idCount_commentGroup {c : Change} (hc : c.KeepsIds) (i : Nat) (g : CommentGroup) :
    idCount i (c.commentGroup g).entries = idCount i g.entries := by
  have hcs (cs : List Comment) : idCount i ((cs.map c.comment).map Comment.entry) =
      idCount i (cs.map Comment.entry) := by
    induction cs with
    | nil => rfl
    | cons x cs ih => exact idCount_head (hc x.tag) ih
  obtain ⟨t, cs⟩ := g
  rw [Change.commentGroup, CommentGroup.entries_mk, CommentGroup.entries_mk]
  exact idCount_head (hc t) (hcs cs)

end FuncLift
