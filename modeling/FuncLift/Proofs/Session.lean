import FuncLift.Lift
import FuncLift.Proofs.Parts
import Mathlib

/-!
# Sessions

A session reads a text and lifts code out of it any number of times. In all its documents every
number belongs to one entry.
-/
namespace FuncLift

open Outline

namespace Document

/-- The document that an edit is laid out to, before the whole file is laid out once more. -/
def unsettled (d : Document) (e : Edit) : Document where
  file := e.fileAfter d (e.functionDrawing d)
  lines := (e.linesAround d).dropBlankEnd.append (e.functionDrawing d).lines
  source := none
  vocabulary := d.vocabulary.addAll e.words
  nextId := e.nextId

/-- What lifting went through when it succeeded. -/
structure Lifts (d : Document) (s : Selection) (name : String) (next : Document) (done : Lifted) :
    Prop where
  region : d.resolve s = .ok done.plan.region
  plan : d.plan done.plan.region name = .ok done.plan
  fits : done.plan.region.badContext? = none
  function : done.function = (done.plan.edit d).function.tag.id
  layout : next = (d.unsettled (done.plan.edit d)).settle ∧
    done.edit = ⟨(done.plan.edit d).removed d, (done.plan.edit d).delta d, next.lines⟩

theorem layout_ok {d next : Document} {e : Edit} {lines : LineEdit}
    (h : d.layout e = .ok (next, lines)) (hparts : e.parts d = e.plainParts d) :
    next = (d.unsettled e).settle ∧ lines = ⟨e.removed d, e.delta d, next.lines⟩ := by
  unfold layout at h
  rw [hparts] at h
  dsimp only at h
  split at h
  · cases h
  · split at h
    · cases h
    · simp only [Except.ok.injEq, Prod.mk.injEq] at h
      obtain ⟨rfl, rfl⟩ := h
      exact ⟨rfl, rfl⟩

theorem region_plan {d : Document} {r : Region} {name : String} {p : Plan}
    (h : d.plan r name = .ok p) : r.badContext? = none ∧ p = .ofRegion d.typing name r := by
  unfold plan at h
  split at h
  · cases h
  · dsimp only at h
    split at h
    · cases h
    · split at h
      · cases h
      · rename_i hfits
        cases h
        exact ⟨hfits, rfl⟩

theorem lifts {d next : Document} {s : Selection} {name : String} {done : Lifted} (hd : d.Owned)
    (h : d.lift s name = .ok (next, done)) : d.Lifts s name next done := by
  unfold lift at h
  split at h
  · cases h
  · rename_i r hr
    split at h
    · cases h
    · rename_i p hp
      dsimp only at h
      split at h
      · cases h
      · rename_i laid lines hlaid
        simp only [Except.ok.injEq, Prod.mk.injEq] at h
        obtain ⟨rfl, rfl⟩ := h
        obtain ⟨hfits, hplan⟩ := region_plan hp
        have hregion : r = p.region := by
          rw [hplan]
          rfl
        subst hregion
        obtain ⟨target, _, _, hloc⟩ := resolve_located hr
        obtain ⟨pre, post, hcuts⟩ := Plan.Cuts.of_located hd hloc hfits
        exact ⟨hr, hp, hfits, rfl, layout_ok hlaid hcuts.parts_eq⟩

end Document

/-- Tags change without their numbers. -/
structure Moved (a b : List Link) : Prop where
  bare : b.map Link.bare = a.map Link.bare
  count : ∀ i, idCount i (ownEntries b) = idCount i (ownEntries a)
  whole : (∀ e ∈ ownEntries a, e.whole = true) → ∀ e ∈ ownEntries b, e.whole = true

namespace Moved

theorem trans {a b c : List Link} (h : Moved a b) (k : Moved b c) : Moved a c :=
  ⟨k.bare.trans h.bare, fun i => (k.count i).trans (h.count i), fun ha => k.whole (h.whole ha)⟩

theorem append {a a' b b' : List Link} (h : Moved a a') (k : Moved b b') :
    Moved (a ++ b) (a' ++ b') := by
  refine ⟨by simp [h.bare, k.bare], fun i => by simp [h.count, k.count], fun ha e he => ?_⟩
  simp only [ownEntries_append, List.mem_append] at ha he
  exact he.elim (h.whole (fun x hx => ha x (.inl hx)) e) (k.whole (fun x hx => ha x (.inr hx)) e)

end Moved

theorem idCount_retag {f : Tag → Tag} (hf : ∀ t, (f t).id = t.id) (i : Nat) (es : List Entry) :
    idCount i (es.map (Entry.retag f)) = idCount i es := by
  induction es with
  | nil => rfl
  | cons e es ih => simp [Entry.retag, hf, ih]

theorem Moved.of_tags {f : Tag → Tag} (hf : ∀ t, (f t).id = t.id) {a b : List Link}
    (h : b.map Link.bare = a.map Link.bare ∧ ownEntries b = (ownEntries a).map (Entry.retag f)) :
    Moved a b := by
  refine ⟨h.1, fun i => by rw [h.2, idCount_retag hf], fun ha e he => ?_⟩
  rw [h.2] at he
  obtain ⟨x, hx, rfl⟩ := List.mem_map.1 he
  exact ha x hx

namespace Change

/-- Nothing but spans changes. -/
def Retags (c : Change) : Prop := c = tags c.onTag ∧ c.KeepsIds

theorem retags_shift (start : Nat) (delta : Int) : (shift start delta).Retags :=
  ⟨rfl, fun _ => rfl⟩

theorem retags_ofMarks (marks : List Mark) : (ofMarks marks).Retags := ⟨rfl, fun _ => rfl⟩

theorem moved_decls {c : Change} (hc : c.Retags) (ds : List TopDecl) :
    Moved (linksAll none (ds.map ofTopDecl)) (linksAll none ((ds.map c.topDecl).map ofTopDecl)) := by
  obtain ⟨hc, hid⟩ := hc
  rw [hc]
  exact .of_tags hid ((congruent_tags hid).ofList ((congruent_tags hid).ofTopDecl none) ds)

end Change

namespace Edit

variable (e : Edit) (d : Document)

theorem moved_decls : Moved (e.host.declLinks ++ (ofFunc e.function).links none)
    (d.unsettled e).settle.file.declLinks := by
  have hhost : (d.unsettled e).settle.file.decls = ((((e.host.decls.map (Change.shift e.old.stop
      (e.delta d)).topDecl).map (Change.ofMarks (e.callDrawing d).marks.reverse).topDecl) ++
      [TopDecl.func e.function].map
        (Change.ofMarks (e.functionDrawing d).marks.reverse).topDecl).map
      (Change.ofMarks ((d.unsettled e).drawing 0).marks.reverse).topDecl) := rfl
  have hfunc : (ofFunc e.function).links none =
      linksAll none ([TopDecl.func e.function].map ofTopDecl) := (List.append_nil _).symm
  rw [SourceFile.declLinks, SourceFile.declLinks, hhost, hfunc, List.map_append, List.map_append,
    linksAll_append]
  refine .append (((Change.moved_decls (Change.retags_shift _ _) _).trans
    (Change.moved_decls (Change.retags_ofMarks _) _)).trans
    (Change.moved_decls (Change.retags_ofMarks _) _)) ?_
  exact (Change.moved_decls (Change.retags_ofMarks _) _).trans
    (Change.moved_decls (Change.retags_ofMarks _) _)

theorem comments_perm {β : Type} {φ : CommentGroup → β}
    (hφ : ∀ c : Change, c.Retags → ∀ g, φ (c.commentGroup g) = φ g) :
    ((d.unsettled e).settle.file.comments.map φ).Perm (e.host.comments.map φ) := by
  have hplace (g : CommentGroup) : φ (e.placeComment (e.functionDrawing d) g) = φ g := by
    unfold placeComment
    split
    · exact hφ _ (Change.retags_shift _ _) g
    · exact hφ _ (Change.retags_ofMarks _) g
  have hmap {c : Change} (hc : c.Retags) (gs : List CommentGroup) :
      (gs.map c.commentGroup).map φ = gs.map φ := by
    rw [List.map_map]
    exact List.map_congr_left fun g _ => hφ c hc g
  have hnext : (d.unsettled e).settle.file.comments =
      ((((e.kept.map (Change.shift e.old.stop (e.delta d)).commentGroup).map
        (Change.ofMarks (e.callDrawing d).marks.reverse).commentGroup) ++
        e.detached.map (e.placeComment (e.functionDrawing d))).mergeSort
          fun a b => decide (a.tag.span.start ≤ b.tag.span.start)).map
        (Change.ofMarks ((d.unsettled e).drawing 0).marks.reverse).commentGroup := rfl
  rw [hnext, hmap (Change.retags_ofMarks _)]
  refine ((List.mergeSort_perm _ _).map φ).trans ?_
  rw [List.map_append, hmap (Change.retags_ofMarks _), hmap (Change.retags_shift _ _), List.map_map,
    List.map_congr_left (f := φ ∘ e.placeComment (e.functionDrawing d)) fun g _ => hplace g,
    ← List.map_append]
  refine List.Perm.map φ (List.perm_append_comm.trans ?_)
  exact List.filter_append_perm e.takes e.host.comments

end Edit

section Step

variable {d next : Document} {s : Selection} {name : String} {done : Lifted}

theorem Edit.settled_rest (e : Edit) (d : Document) :
    (d.unsettled e).settle.file.tag.id = e.host.tag.id ∧
      (d.unsettled e).settle.file.name.tag.id = e.host.name.tag.id ∧
        (d.unsettled e).settle.nextId = e.nextId := ⟨rfl, rfl, rfl⟩

theorem idCount_flatMap {α : Type} (i : Nat) (f : α → List Entry) (xs : List α) :
    idCount i (xs.flatMap f) = (xs.map fun x => idCount i (f x)).sum := by
  induction xs with
  | nil => rfl
  | cons x xs ih => simp [ih]

theorem Document.Lifts.idCount_le (h : d.Lifts s name next done) (hd : d.Owned) (i : Nat) :
    idCount i next.file.entries ≤
      idCount i d.file.entries + between d.nextId next.nextId i := by
  obtain ⟨target, _, _, hloc⟩ := Document.resolve_located h.region
  obtain ⟨hnext, _⟩ := h.layout
  obtain ⟨pre, post, hold, hnew⟩ := swapped_host hd hloc h.fits
  obtain ⟨_, _, _, hcount⟩ := done.plan.edit_spec d
  obtain ⟨htag, hname, hcomments⟩ := host_rest (p := done.plan) (d := d)
  obtain ⟨hfile, hpackage, hnextId⟩ := Edit.settled_rest (done.plan.edit d) d
  have hdecls := ((done.plan.edit d).moved_decls d).count i
  have hgroups := (done.plan.edit d).comments_perm d
    (φ := fun g => idCount i g.entries) fun c hc g => idCount_commentGroup hc.2 i g
  rw [← hnext] at hfile hpackage hnextId hdecls hgroups
  rw [htag] at hfile
  rw [hname] at hpackage
  have hcount := hcount i
  have hgroups := hgroups.sum_nat
  rw [hcomments, ← idCount_flatMap, ← idCount_flatMap, ← ownEntries_commentLinks,
    ← ownEntries_commentLinks] at hgroups
  rw [ownEntries_append, ownEntries_of_views hnew, FuncDecl.ownEntries_links,
    Replacement.ownEntries_links] at hdecls
  have hrest : idCount i next.file.entries = idCount i (d.file.tag.entry :: d.file.name.entry ::
      (ownEntries next.file.declLinks ++ ownEntries d.file.commentLinks)) := by
    rw [SourceFile.entries_eq_links]
    refine idCount_head hfile (idCount_head hpackage ?_)
    rw [idCount_append, idCount_append, hgroups]
  rw [hrest, SourceFile.entries_eq_links, ownEntries_of_views hold, Region.ownEntries_links,
    hnextId]
  simp only [idCount_cons, idCount_append] at hdecls hcount ⊢
  omega

theorem Document.Lifts.nextId_le (h : d.Lifts s name next done) : d.nextId ≤ next.nextId := by
  obtain ⟨hnext, _⟩ := h.layout
  obtain ⟨_, _, hnextId⟩ := Edit.settled_rest (done.plan.edit d) d
  rw [hnext, hnextId]
  exact (done.plan.edit_spec d).2.1

theorem Document.Lifts.owned (h : d.Lifts s name next done) (hd : d.Owned) : next.Owned := by
  have hle := h.nextId_le
  refine ⟨fun i => ?_, fun e he => ?_⟩
  · have hi := h.idCount_le hd i
    have hone := hd.once i
    have hfresh : d.nextId ≤ i → idCount i d.file.entries = 0 := by
      intro hi
      refine Nat.eq_zero_of_not_pos fun hpos => ?_
      obtain ⟨e, he, hid⟩ := List.countP_pos_iff.1 hpos
      have hid : e.tag.id = i := by simpa using hid
      exact absurd (hd.fresh e he) (by omega)
    have hbetween := between_le_one d.nextId next.nextId i
    rcases Nat.lt_or_ge i d.nextId with hlt | hge
    · rw [between_of_lt hlt] at hi
      omega
    · have := hfresh hge
      omega
  · have hi := h.idCount_le hd e.tag.id
    have hpos := idCount_pos he
    by_cases hold : 0 < idCount e.tag.id d.file.entries
    · obtain ⟨x, hx, hid⟩ := List.countP_pos_iff.1 hold
      have hid : x.tag.id = e.tag.id := by simpa using hid
      have := hd.fresh x hx
      omega
    · have hmade : 0 < between d.nextId next.nextId e.tag.id := by omega
      exact lt_of_between_pos hmade

/-- Drawing reaches everything in the file. -/
def Document.Whole (d : Document) : Prop := ∀ e ∈ d.file.entries, e.whole = true

theorem Document.Lifts.whole (h : d.Lifts s name next done) (hd : d.Owned) (hw : d.Whole) :
    next.Whole := by
  obtain ⟨target, _, _, hloc⟩ := Document.resolve_located h.region
  obtain ⟨hnext, _⟩ := h.layout
  obtain ⟨pre, post, hold, hnew⟩ := swapped_host hd hloc h.fits
  obtain ⟨_, _, hmem, _⟩ := done.plan.edit_spec d
  have hdecls := ((done.plan.edit d).moved_decls d).whole
  rw [← hnext] at hdecls
  unfold Document.Whole at hw ⊢
  rw [SourceFile.entries_eq_links, ownEntries_of_views hold, Region.ownEntries_links] at hw
  rw [ownEntries_append, ownEntries_of_views hnew, FuncDecl.ownEntries_links,
    Replacement.ownEntries_links] at hdecls
  have hrest : ∀ e ∈ ownEntries next.file.commentLinks, e.whole = true := by
    rw [ownEntries_commentLinks]
    intro e he
    obtain ⟨⟨t, cs⟩, _, he⟩ := List.mem_flatMap.1 he
    rw [CommentGroup.entries_mk] at he
    rcases List.mem_cons.1 he with rfl | he
    · rfl
    · obtain ⟨c, _, rfl⟩ := List.mem_map.1 he
      rfl
  have hparts : ∀ e ∈ pre.flatMap (fun x => x.2) ++ (done.plan.edit d).replacement.entries ++
      post.flatMap (fun x => x.2) ++ (done.plan.edit d).function.entries, e.whole = true := by
    intro e he
    have hmem := hmem e
    simp only [List.mem_append, List.mem_cons] at he hw hmem
    have hregion : e ∈ done.plan.region.entries ∨ e.New → e.whole = true :=
      fun h => h.elim (fun h => hw e (by simp [h])) (·.1)
    rcases he with ((he | he) | he) | he
    · exact hw e (by simp [he])
    · exact hregion (hmem (.inl he))
    · exact hw e (by simp [he])
    · exact hregion (hmem (.inr he))
  intro e he
  rw [SourceFile.entries_eq_links] at he
  rcases List.mem_cons.1 he with rfl | he
  · rfl
  · rcases List.mem_cons.1 he with rfl | he
    · rfl
    · exact (List.mem_append.1 he).elim (hdecls hparts e) (hrest e)

end Step

/-- The documents of a session. -/
inductive Document.Reached : Document → Prop where
  | read {source : String} {d : Document} : Document.ofSource source = .ok d → Reached d
  | lift {d next : Document} {s : Selection} {name : String} {done : Lifted} : Reached d →
      d.lift s name = .ok (next, done) → Reached next

namespace Document.Reached

theorem owned {d : Document} (h : d.Reached) : d.Owned := by
  induction h with
  | read h => exact (ofSource_sound h).1
  | lift _ h ih => exact (lifts ih h).owned ih

theorem whole {d : Document} (h : d.Reached) : d.Whole := by
  induction h with
  | read h => exact fun e he => ((ofSource_sound h).2.1 e he).2
  | lift hd h ih => exact (lifts hd.owned h).whole hd.owned ih

end Document.Reached

namespace Document

theorem exists_read (source : String) (check : Document → Bool)
    (h : (ofSource source).toOption.any check = true) : ∃ d, ofSource source = .ok d ∧ check d = true := by
  cases hread : ofSource source with
  | error =>
    rw [hread] at h
    cases h
  | ok d =>
    rw [hread] at h
    exact ⟨d, rfl, h⟩

/-- Whether a text can be read and a selection of it lifted, so that a check passes. -/
def liftable (source : String) (s : Selection) (name : String)
    (check : Document → Document → Lifted → Bool) : Bool :=
  match ofSource source with
  | .error _ => false
  | .ok d =>
    match d.lift s name with
    | .error _ => false
    | .ok (next, done) => check d next done

theorem exists_lift (source : String) (s : Selection) (name : String)
    (check : Document → Document → Lifted → Bool) (h : liftable source s name check = true) :
    ∃ d next done, ofSource source = .ok d ∧ d.lift s name = .ok (next, done) ∧
      check d next done = true := by
  unfold liftable at h
  split at h
  · cases h
  · rename_i d hd
    split at h
    · cases h
    · rename_i next done hl
      exact ⟨d, next, done, hd, hl, h⟩

/-- The literal that a variable is defined with is lifted. -/
theorem exists_lift_literal : ∃ d next done,
    ofSource "package p\n\nfunc f() \x7b\n\tx := 3\n\tprintln(x)\n\x7d\n" = .ok d ∧
      d.lift ⟨⟨4, 7⟩, ⟨4, 8⟩⟩ "Seven" = .ok (next, done) ∧ d.size < 2 ^ 32 := by
  obtain ⟨d, next, done, hread, hlift, hcheck⟩ := exists_lift
    "package p\n\nfunc f() \x7b\n\tx := 3\n\tprintln(x)\n\x7d\n" ⟨⟨4, 7⟩, ⟨4, 8⟩⟩ "Seven"
    (fun d _ _ => decide (d.size < 2 ^ 32)) (by decide +kernel)
  exact ⟨d, next, done, hread, hlift, of_decide_eq_true hcheck⟩

end Document

end FuncLift