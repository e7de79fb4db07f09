import FuncLift.Proofs.Accurate
import FuncLift.Proofs.Conserved
import FuncLift.Proofs.Enclosed
import FuncLift.Proofs.Subjects

/-!
# Everything is marked once

Drawing a file marks each of its nodes and names once, and nothing else, as long as everything in it
can be drawn, no number is used twice and all comments have a place. That holds of the documents of
a session, before and after they are laid out, and of a document in which an edit was just carried
out. So laying out gives everything the span of its mark, and no span stays behind.
-/
namespace FuncLift

open Outline

/-- Lists without two things of one key hold the same things if one holds no more than the other,
and the other has no further key. -/
theorem perm_of_keys {α : Type} (key : α → Nat) {as bs : List α} (ha : (as.map key).Nodup)
    (hb : (bs.map key).Nodup) (hsub : ∀ a ∈ as, a ∈ bs) (hkeys : ∀ b ∈ bs, key b ∈ as.map key) :
    as.Perm bs := by
  refine (List.perm_ext_iff_of_nodup (List.Nodup.of_map key ha) (List.Nodup.of_map key hb)).2
    fun x => ⟨hsub x, fun hx => ?_⟩
  obtain ⟨a, hamem, hkey⟩ := List.mem_map.1 (hkeys x hx)
  rwa [← List.inj_on_of_nodup_map hb (hsub a hamem) hx hkey]

namespace Mark

/-- The number of a mark and the place where it is. -/
def place (m : Mark) : Nat × Span := (m.id, m.span)

end Mark

namespace Entry

/-- The number of an entry and the place where it stands. -/
def place (e : Entry) : Nat × Span := (e.tag.id, e.tag.span)

end Entry

theorem Node.places_marks (n : Node) : n.marks.map Mark.place = n.own.map Entry.place := by
  have hlist (role : NameRole) (ns : List Name) :
      (ns.map (Name.mark role)).map Mark.place = (nameEntries ns).map Entry.place := by
    rw [nameEntries, List.map_map, List.map_map]
    rfl
  rcases n with d | s | f | s | f | b | s | s | e | t | c | c | c | g
  case spec =>
    cases s with
    | imports t n p => exact congrArg (_ :: ·) (hlist .importName n.toList)
    | values t ns type vs => exact congrArg (_ :: ·) (hlist .list ns)
    | type t n a type => rfl
  case field => exact congrArg (_ :: ·) (hlist .list f.names)
  case stmt =>
    cases s with
    | branch t k n => exact congrArg (_ :: ·) (hlist .label n.toList)
    | typeSwitch t init n g cs => exact congrArg (_ :: ·) (hlist .typeSwitchBind n.toList)
    | _ => rfl
  case simple =>
    cases s with
    | define t ns vs => exact congrArg (_ :: ·) (hlist .list ns)
    | _ => rfl
  case expr => cases e <;> rfl
  case type => cases t <;> rfl
  all_goals rfl

theorem SourceFile.places_marks (f : SourceFile) :
    f.marks.map Mark.place = f.entries.map Entry.place := by
  have hnodes := walkAll_eq_linksAll 0 none (ofFile f)
  have hall : (f.nodes.flatMap Node.marks).map Mark.place =
      (entriesAll (ofFile f)).map Entry.place := by
    rw [SourceFile.nodes, hnodes, entriesAll_eq_linksAll none, List.map_flatMap, List.map_flatMap,
      List.flatMap_map]
    simp only [Node.places_marks]
  exact congrArg (_ :: _ :: ·) hall

theorem nodup_ids {es : List Entry} (h : ∀ i, idCount i es ≤ 1) :
    (es.map fun e => e.tag.id).Nodup := by
  refine List.nodup_iff_count_le_one.2 fun i => ?_
  have hcount : List.count i (es.map fun e => e.tag.id) = idCount i es := List.countP_map
  rw [hcount]
  exact h i

theorem SourceFile.ids_marks (f : SourceFile) :
    f.marks.map Mark.id = f.entries.map fun e => e.tag.id := by
  have hplaces := congrArg (List.map Prod.fst) f.places_marks
  rwa [List.map_map, List.map_map] at hplaces

theorem Node.subjects_head (n : Node) :
    n.head.marks.map Mark.subject = n.marks.map Mark.subject := by
  have hlist (role : NameRole) (ns : List Name) :
      ((ns.map Name.bare).map (Name.mark role)).map Mark.subject =
        (ns.map (Name.mark role)).map Mark.subject := by
    rw [List.map_map, List.map_map, List.map_map]
    rfl
  have hoption (role : NameRole) (n : Option Name) :
      ((n.map Name.bare).toList.map (Name.mark role)).map Mark.subject =
        (n.toList.map (Name.mark role)).map Mark.subject := by
    rw [Option.toList_map]
    exact hlist role n.toList
  rcases n with d | s | f | s | f | b | s | s | e | t | c | c | c | g
  case spec =>
    cases s with
    | imports t n p => exact congrArg (_ :: ·) (hoption .importName n)
    | values t ns type vs => exact congrArg (_ :: ·) (hlist .list ns)
    | type t n a type => rfl
  case field => exact congrArg (_ :: ·) (hlist .list f.names)
  case stmt =>
    cases s with
    | branch t k n => exact congrArg (_ :: ·) (hoption .label n)
    | typeSwitch t init n g cs => exact congrArg (_ :: ·) (hoption .typeSwitchBind n)
    | _ => rfl
  case simple =>
    cases s with
    | define t ns vs => exact congrArg (_ :: ·) (hlist .list ns)
    | _ => rfl
  case expr => cases e <;> rfl
  case type => cases t <;> rfl
  all_goals rfl

theorem SourceFile.subjects_eq (f : SourceFile) : f.marks.map Mark.subject =
    (.packageClause, f.tag.id) :: (.name .packageName, f.name.tag.id) ::
      ((linksAll none (ofFile f)).map Link.bare).flatMap fun l =>
        l.node.marks.map Mark.subject := by
  have hnodes := walkAll_eq_linksAll 0 none (ofFile f)
  have hall : (f.nodes.flatMap Node.marks).map Mark.subject =
      ((linksAll none (ofFile f)).map Link.bare).flatMap fun l =>
        l.node.marks.map Mark.subject := by
    rw [SourceFile.nodes, hnodes, List.map_flatMap, List.flatMap_map, List.flatMap_map]
    simp only [Link.bare, Node.subjects_head]
  exact congrArg (_ :: _ :: ·) hall

theorem Change.subjects_sourceFile {c : Change} (hc : c.Retags) (f : SourceFile) :
    (c.sourceFile f).marks.map Mark.subject = f.marks.map Mark.subject := by
  have hdecls : SameLinks f.declLinks (c.sourceFile f).declLinks := (moved_decls hc f.decls).bare
  have hcomments : SameLinks f.commentLinks (c.sourceFile f).commentLinks := by
    obtain ⟨hc, hid⟩ := hc
    rw [hc]
    exact ((congruent_tags hid).ofList ((congruent_tags hid).ofCommentGroup none) f.comments).1
  rw [SourceFile.subjects_eq, SourceFile.subjects_eq, SourceFile.links_ofFile,
    SourceFile.links_ofFile, List.map_append, List.map_append, hdecls, hcomments]
  have hclause : (c.sourceFile f).tag.id = f.tag.id := hc.2 _
  have hname : (c.sourceFile f).name.tag.id = f.name.tag.id := hc.2 _
  rw [hclause, hname]

namespace Document

/-- A document of which all is drawn: everything can be, no number is used twice, and all comments
have a place. -/
structure Ready (u : Document) : Prop where
  whole : u.Whole
  once : ∀ i, idCount i u.file.entries ≤ 1
  known : Known u.file.comments

variable {u : Document}

theorem Ready.ids_marks (h : u.Ready) :
    ((u.drawing 0).marks.map Mark.id).Nodup ∧
      ∀ e ∈ u.file.entries, e.tag.id ∈ (u.drawing 0).marks.map Mark.id := by
  constructor
  · refine List.nodup_iff_count_le_one.2 fun i => ?_
    have hcount : List.count i ((u.drawing 0).marks.map Mark.id) =
        markCount i (u.drawing 0).marks.reverse := by
      rw [markCount, List.countP_reverse]
      exact List.countP_map
    rw [hcount]
    exact markCount_drawing h.whole h.once i
  · obtain ⟨q, gs, _, hmarks, hgs, hnone, hlead⟩ := drawing_leads u 0
    obtain ⟨ms, hms, _, hcomplete⟩ := hlead.marks
    rw [hnone h.known, List.append_nil] at hgs
    rw [← hgs, ← SourceFile.entries_eq_fixed] at hcomplete
    intro e he
    obtain ⟨m, hm, hid⟩ := (hcomplete trivial h.whole).1 e he
    have hms : (u.drawing 0).marks.reverse = ms := hmarks.trans (hms.trans (List.append_nil ms))
    exact List.mem_map.2 ⟨m, List.mem_reverse.1 (hms ▸ hm), hid⟩

/-- What is marked are the nodes and names of the file and its clause, each once. -/
theorem Ready.subjects_perm (h : u.Ready) :
    ((u.drawing 0).marks.map Mark.subject).Perm (u.file.marks.map Mark.subject) := by
  obtain ⟨hnodup, hall⟩ := h.ids_marks
  have hids (ms : List Mark) : (ms.map Mark.subject).map Prod.snd = ms.map Mark.id := by
    rw [List.map_map]
    rfl
  refine perm_of_keys Prod.snd ?_ ?_ (fun s hs => ?_) fun s hs => ?_
  · rw [hids]
    exact hnodup
  · rw [hids, SourceFile.ids_marks]
    exact nodup_ids h.once
  · obtain ⟨m, hm, rfl⟩ := List.mem_map.1 hs
    exact u.subjects_drawing 0 m hm
  · obtain ⟨m, hm, rfl⟩ := List.mem_map.1 hs
    have hid : m.id ∈ u.file.marks.map Mark.id := List.mem_map_of_mem hm
    rw [SourceFile.ids_marks] at hid
    obtain ⟨e, he, hid⟩ := List.mem_map.1 hid
    rw [hids, show m.subject.2 = e.tag.id from hid.symm]
    exact hall e he

theorem Ready.marks_perm (h : u.Ready) : (u.drawing 0).marks.Perm u.settle.file.marks := by
  obtain ⟨hnodup, _⟩ := h.ids_marks
  have hsubjects : u.settle.file.marks.map Mark.subject = u.file.marks.map Mark.subject :=
    Change.subjects_sourceFile (Change.retags_ofMarks _) u.file
  have hperm := h.subjects_perm
  rw [← hsubjects] at hperm
  have hids (ms : List Mark) : (ms.map Mark.subject).map Prod.snd = ms.map Mark.id := by
    rw [List.map_map]
    rfl
  have hidperm := hperm.map Prod.snd
  rw [hids, hids] at hidperm
  refine (perm_of_keys Mark.id (hidperm.nodup_iff.1 hnodup) hnodup (fun k hk => ?_) fun m hm =>
    hidperm.mem_iff.1 (List.mem_map_of_mem hm)).symm
  obtain ⟨m, hm, hsubject⟩ := List.mem_map.1 (hperm.mem_iff.2 (List.mem_map_of_mem hk))
  have hplace := List.mem_map_of_mem (f := Mark.place) hk
  rw [SourceFile.places_marks, entries_settle, List.map_map] at hplace
  obtain ⟨e, he, hplace⟩ := List.mem_map.1 hplace
  obtain ⟨hid, hspan⟩ := Prod.mk.inj hplace
  have hkid : e.tag.id = k.id := hid
  have hmid : m.id = k.id := congrArg Prod.snd hsubject
  obtain ⟨n, hn, hnid, hnspan⟩ := Change.ofMarks_found (t := e.tag) (u.drawing 0).marks.reverse
    ⟨m, List.mem_reverse.2 hm, hmid.trans hkid.symm⟩
  have hnm : n = m := List.inj_on_of_nodup_map hnodup (List.mem_reverse.1 hn) hm
    (hnid.trans (hkid.trans hmid.symm))
  have hkm : k = m := by
    obtain ⟨kind, id, span⟩ := k
    obtain ⟨kind', id', span'⟩ := m
    obtain ⟨rfl, rfl⟩ := Prod.mk.inj hsubject
    rw [Mark.mk.injEq]
    exact ⟨rfl, rfl, hspan.symm.trans (hnspan.trans (congrArg Mark.span hnm))⟩
  exact hkm ▸ hm

/-- Where such a document is laid out to less than the largest size, everything has a place. -/
theorem Ready.isUnset_settle (h : u.Ready) (hsize : u.settle.size < 2 ^ 32) :
    ∀ m ∈ u.settle.file.marks, m.span.isUnset = false := by
  intro m hm
  have hplace := List.mem_map_of_mem (f := Mark.place) hm
  rw [SourceFile.places_marks] at hplace
  obtain ⟨e, he, hplace⟩ := List.mem_map.1 hplace
  have hspan : e.span = m.span := congrArg Prod.snd hplace
  have hsits := (settle_sits h.whole h.once).2 h.known e he
  have hordered := hsits.ordered
  have hinside := hsits.inside
  rw [(size_settle u).2] at hsize
  have hne : e.span.start ≠ Span.unknown := by
    have hunknown : Span.unknown = 2 ^ 32 - 1 := rfl
    omega
  rw [← hspan]
  simpa [Span.isUnset] using hne

/-- The document in which an edit has been carried out and nothing is laid out yet. -/
def applied (d : Document) (e : Edit) : Document where
  file := e.file
  lines := d.lines
  source := none
  vocabulary := d.vocabulary.addAll e.words
  nextId := e.nextId

theorem Owned.once_of_le {d : Document} (hd : d.Owned) {n : Nat} {es : List Entry}
    (h : ∀ i, idCount i es ≤ idCount i d.file.entries + between d.nextId n i) (i : Nat) :
    idCount i es ≤ 1 := by
  have hi := h i
  have hone := hd.once i
  have hbetween := between_le_one d.nextId n i
  by_cases hold : i < d.nextId
  · rw [between_of_lt hold] at hi
    omega
  · have hnone : idCount i d.file.entries = 0 := by
      refine Nat.eq_zero_of_not_pos fun hpos => ?_
      obtain ⟨e, he, hid⟩ := List.countP_pos_iff.1 hpos
      have hid : e.tag.id = i := by simpa using hid
      exact hold (hid ▸ hd.fresh e he)
    omega

section Applied

variable {d : Document} {p : Plan} {target : Span}

/-- The entries of a file with an edit in it: the call stands where the region stood, and the new
function stands at the end. -/
theorem entries_applied (hd : d.Owned) (hloc : p.region.Located d.file target)
    (hfits : p.region.badContext? = none) : ∃ pre post,
    d.file.entries = d.file.tag.entry :: d.file.name.entry ::
      (pre ++ p.region.entries ++ post ++ ownEntries d.file.commentLinks) ∧
    (p.edit d).file.entries = d.file.tag.entry :: d.file.name.entry ::
      (pre ++ (p.edit d).replacement.entries ++ post ++ (p.edit d).function.entries ++
        ownEntries d.file.commentLinks) := by
  obtain ⟨pre, post, hold, hnew⟩ := swapped_host hd hloc hfits
  obtain ⟨htag, hname, hcomments⟩ := host_rest (p := p) (d := d)
  refine ⟨pre.flatMap fun x => x.2, post.flatMap fun x => x.2, ?_, ?_⟩
  · rw [SourceFile.entries_eq_links, ownEntries_of_views hold, Region.ownEntries_links]
  · have hdecls : (p.edit d).file.declLinks =
        (p.edit d).host.declLinks ++ (ofFunc (p.edit d).function).links none := by
      have hfunction : (ofFunc (p.edit d).function).links none =
          linksAll none ([TopDecl.func (p.edit d).function].map ofTopDecl) :=
        (List.append_nil _).symm
      rw [hfunction, SourceFile.declLinks, SourceFile.declLinks, ← linksAll_append,
        ← List.map_append]
      rfl
    have hrest : (p.edit d).file.commentLinks = d.file.commentLinks :=
      congrArg (fun gs : List CommentGroup => linksAll none (gs.map ofCommentGroup)) hcomments
    rw [SourceFile.entries_eq_links, hdecls, hrest, ownEntries_append, ownEntries_of_views hnew,
      Replacement.ownEntries_links, FuncDecl.ownEntries_links]
    exact congrArg₂ (fun (t : Tag) (n : Name) => t.entry :: n.entry :: _) htag hname

theorem ready_applied (hd : d.Owned) (hw : d.Whole) (hknown : Known d.file.comments)
    (hloc : p.region.Located d.file target) (hfits : p.region.badContext? = none) :
    (d.applied (p.edit d)).Ready := by
  obtain ⟨pre, post, hold, hnew⟩ := entries_applied hd hloc hfits
  obtain ⟨_, _, hmem, hcount⟩ := p.edit_spec d
  refine ⟨fun e he => ?_, hd.once_of_le (n := (p.edit d).nextId) fun i => ?_, ?_⟩
  · have hmade : e ∈ d.file.entries ∨ e.New := by
      change e ∈ (p.edit d).file.entries at he
      have hmem := hmem e
      rw [hnew] at he
      rw [hold]
      simp only [List.mem_cons, List.mem_append] at he hmem ⊢
      tauto
    exact hmade.elim (hw e) (·.1)
  · have hi := hcount i
    change idCount i (p.edit d).file.entries ≤ _
    rw [hnew, hold]
    simp only [idCount_cons, idCount_append] at hi ⊢
    omega
  · have hcomments : (d.applied (p.edit d)).file.comments = d.file.comments :=
      (host_rest (p := p) (d := d)).2.2
    rw [hcomments]
    exact hknown

end Applied

/-- The documents that are drawn in the course of a session: those of the session, those in which an
edit has just been carried out, and those in which the call and the new function have their places,
just before the whole file is laid out. -/
inductive Drawable (limit : Nat) : Document → Prop where
  | reached {d : Document} : d.ReachedWithin limit → Drawable limit d
  | applied {d : Document} {s : Selection} {r : Region} {name : String} {p : Plan} :
      d.ReachedWithin limit → d.resolve s = .ok r → d.plan r name = .ok p →
      Drawable limit (d.applied (p.edit d))
  | unsettled {d next : Document} {s : Selection} {name : String} {done : Lifted} :
      d.ReachedWithin limit → d.lift s name = .ok (next, done) →
      (done.plan.edit d).Fits d limit → Drawable limit (d.unsettled (done.plan.edit d))

theorem ReachedWithin.known {d : Document} (h : d.ReachedWithin (2 ^ 32)) :
    Known d.file.comments := by
  intro g hg
  have hunknown : Span.unknown = 2 ^ 32 - 1 := rfl
  have hstart := h.comments g hg
  have hsize := h.size_lt
  omega

theorem Drawable.ready (h : u.Drawable (2 ^ 32)) : u.Ready := by
  cases h with
  | reached h => exact ⟨h.reached.whole, h.reached.owned.once, h.known⟩
  | applied hd hr hp =>
    obtain ⟨target, _, _, hloc⟩ := resolve_located hr
    obtain ⟨hfits, rfl⟩ := region_plan hp
    exact ready_applied hd.reached.owned hd.reached.whole hd.known hloc hfits
  | unsettled hd h hfits =>
    have hnext : Reached _ := .lift hd.reached h
    have hknown := (lifts hd.reached.owned h).known hd.reached hd.comments hd.size_lt hfits
    obtain ⟨rfl, _⟩ := (lifts hd.reached.owned h).layout
    obtain ⟨honce, hw⟩ := sound_of_settle hnext.owned.once hnext.whole
    exact ⟨hw, honce, hknown⟩

/-- Whenever a file is drawn in a session, the drawing has exactly one mark for each of its nodes,
for each of its names and for its clause, and no others. After laying it out everything is where its
mark is, and has a place if the text is not too large. -/
theorem Drawable.marked_once (h : u.Drawable (2 ^ 32)) :
    ((u.drawing 0).marks.map Mark.subject).Perm (u.file.marks.map Mark.subject) ∧
      (u.file.marks.map Mark.id).Nodup ∧
      (u.drawing 0).marks.Perm u.settle.file.marks ∧
      (u.settle.size < 2 ^ 32 → ∀ m ∈ u.settle.file.marks, m.span.isUnset = false) := by
  refine ⟨h.ready.subjects_perm, ?_, h.ready.marks_perm, h.ready.isUnset_settle⟩
  rw [SourceFile.ids_marks]
  exact nodup_ids h.ready.once

/-- A lifted literal: the document with the call and the function in place is laid out. -/
theorem Drawable.marked_once_literal : ∃ u : Document, u.Drawable (2 ^ 32) ∧
    ((u.drawing 0).marks.map Mark.subject).Perm (u.file.marks.map Mark.subject) ∧
      (u.file.marks.map Mark.id).Nodup ∧
      (u.drawing 0).marks.Perm u.settle.file.marks ∧
      u.settle.size < 2 ^ 32 ∧ ∀ m ∈ u.settle.file.marks, m.span.isUnset = false := by
  obtain ⟨d, next, done, hread, hlift, hsize, hfits, hnext, -⟩ := exists_fitting_lift
  have hdrawable := Drawable.unsettled (.read hread hsize) hlift hfits
  obtain ⟨hsubjects, hids, hmarks, hset⟩ := marked_once hdrawable
  obtain ⟨rfl, _⟩ := (lifts (ofSource_sound hread).1 hlift).layout
  exact ⟨_, hdrawable, hsubjects, hids, hmarks, hnext, hset hnext⟩

end Document

end FuncLift
