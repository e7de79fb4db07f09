import FuncLift.Proofs.Enclosed
import FuncLift.Proofs.Reroute

/-!
# What a region declares, and what is declared around it

The trail of a region meets the nodes of the region, and the trail around it meets none of them. So
a declaration on the one belongs to a node of the region, and a declaration on the other does not.
All that a region declares has its name inside of the span of the region.
-/
namespace FuncLift

open Outline

theorem mem_locals {l : Local} {es : List Event} :
    l ∈ locals es ↔ ∃ e ∈ es, e.local? = some l := List.mem_filterMap

@[simp] theorem locals_mute (es : List Event) : locals (mute es) = [] := by
  unfold mute
  induction met es with
  | nil => rfl
  | cons n ns ih => exact ih

@[simp] theorem users_mute (es : List Event) : users (mute es) = [] := by
  unfold mute
  induction met es with
  | nil => rfl
  | cons n ns ih => exact ih

namespace AllRooted

variable {es : List Event} {l : Local}

/-- A declaration belongs to a node on the trail, and so does its note. -/
theorem home (h : AllRooted (fun _ => False) es) (hl : l ∈ locals es) :
    (∃ n ∈ met es, n.tag.id = l.binding.home) ∧
      ∀ id, l.note = some id → ∃ n ∈ met es, n.tag.id = id := by
  have hmet {i : Nat} (hi : Knows (fun n => n ∈ met es ∨ False) i) :
      ∃ n ∈ met es, n.tag.id = i := by
    obtain ⟨n, hn, hi⟩ := hi
    exact ⟨n, hn.resolve_right id, hi⟩
  obtain ⟨e, he, hlocal⟩ := mem_locals.1 hl
  have hroot := h e he
  cases e with
  | declare m | define m =>
    cases hlocal
    obtain ⟨⟨n, hn, hid, _⟩, hnote⟩ := hroot
    exact ⟨hmet ⟨n, hn, hid⟩, fun id hid => hmet (hnote id hid)⟩
  | range t b =>
    cases hlocal
    exact ⟨hmet hroot.2, fun id hid => by cases hid⟩
  | _ => cases hlocal

theorem span (h : AllRooted (fun _ => False) es) (hl : l ∈ locals es) :
    ∃ n ∈ met es, ∃ e ∈ n.own, e.span = l.binding.span := by
  obtain ⟨e, he, hlocal⟩ := mem_locals.1 hl
  have hroot := h e he
  cases e with
  | declare m | define m =>
    cases hlocal
    obtain ⟨⟨n, hn, _, hown⟩, _⟩ := hroot
    exact ⟨n, hn.resolve_right id, hown⟩
  | range t b =>
    cases hlocal
    exact ⟨.expr (.ident t b.name), List.mem_filterMap.2 ⟨_, he, rfl⟩, ⟨t, some b.name, _⟩,
      List.mem_cons_self, hroot.1.symm⟩
  | _ => cases hlocal

end AllRooted

namespace Region

variable {r : Region}

theorem fair (r : Region) : Level true r.trail ∧ AllRooted (fun _ => False) r.trail := by
  cases r with
  | expression e parent slot => exact ⟨(Fair.expr (fun _ => False) e).1.weaken, (Fair.expr _ e).2⟩
  | statements stmts owner => exact Fair.stmts _ stmts

theorem mem_nodes_iff {n : Node} : n ∈ r.nodes ↔ n ∈ met r.trail :=
  ⟨mem_of_countP fun q => (r.count_trail q).symm, mem_of_countP fun q => r.count_trail q⟩

theorem mem_ids_of_met {n : Node} (h : n ∈ met r.trail) : n.tag.id ∈ r.ids :=
  List.mem_map_of_mem (mem_nodes_iff.2 h)

/-- All entries of a region stand inside of its span, and the span is known. -/
def Encloses (r : Region) : Prop :=
  r.span.stop < Span.unknown ∧ ∀ x ∈ r.entries, r.span.start ≤ x.span.start ∧
    x.span.start ≤ x.span.stop ∧ x.span.stop ≤ r.span.stop

end Region

theorem Document.Lifts.encloses {d next : Document} {sel : Selection} {name : String}
    {done : Lifted} (h : d.Lifts sel name next done) (hd : d.Reached) (hsize : d.size < 2 ^ 32) :
    done.plan.region.Encloses := by
  obtain ⟨target, hordered, hinside, hloc⟩ := resolve_located h.region
  have hstop := (hd.seated.region_span hordered hinside hloc).2
  refine ⟨?_, hloc.inside hd.ordered⟩
  have hunknown : Span.unknown = 2 ^ 32 - 1 := rfl
  omega

theorem Spot.Turns.met_eq {s : Spot} {x y post : List Event} (h : s.Turns x y post) :
    met x = met s.old := by
  cases h with
  | plain => rfl
  | muted => exact met_mute _
  | shown => exact met_mute _
  | range t b _ _ hold _ => rw [hold]; rfl

/-- A region is replaced as it stands, or it is not looked at, or it is a variable of a range
clause. -/
theorem Spot.Turns.plain_or {s : Spot} {x y post : List Event} (h : s.Turns x y post) :
    (x = s.old ∧ y = s.new ∧ ∃ rest, post = s.tail ++ rest) ∨ x = FuncLift.mute s.old ∨
      ∃ t b, x = [.range t b] := by
  cases h with
  | plain rest => exact .inl ⟨rfl, rfl, rest, rfl⟩
  | muted => exact .inr (.inl rfl)
  | shown => exact .inr (.inl rfl)
  | range t b => exact .inr (.inr ⟨t, b, rfl⟩)

theorem Spot.Turns.level {s : Spot} {x y post : List Event} (h : s.Turns x y post)
    (hold : Level true s.old) : Level true x := by
  cases h with
  | plain => exact hold
  | muted => exact .mute _
  | shown => exact .mute _
  | range t b => rfl

theorem eq_append_cons {α : Type} {a b pre post : List α} {e : α}
    (h : a ++ e :: b = pre ++ post) : (∃ q, pre = a ++ e :: q ∧ b = q ++ post) ∨
      ∃ q, a = pre ++ q ∧ post = q ++ e :: b := by
  rcases List.append_eq_append_iff.1 h with ⟨m, rfl, hrest⟩ | ⟨m, rfl, rfl⟩
  · cases m with
    | nil => exact .inr ⟨[], by simp, hrest.symm⟩
    | cons e' q =>
      obtain ⟨rfl, rfl⟩ := List.cons.inj hrest
      exact .inl ⟨q, rfl, rfl⟩
  · exact .inr ⟨m, rfl, rfl⟩

namespace Reroutes

variable {d next : Document} {p : Plan} {s : Spot} {pre x y post : List Event} {l : Local}

theorem met_eq (h : Reroutes d next p s pre x y post) : met x = met p.region.trail := by
  rw [h.turns.met_eq, h.spot.old]

theorem level (h : Reroutes d next p s pre x y post) : Level true x :=
  h.turns.level (h.spot.old ▸ p.region.fair.1)

theorem mem_ids_iff (h : Reroutes d next p s pre x y post) {i : Nat} :
    i ∈ p.region.ids ↔ 0 < metCount (fun n => n.tag.id == i) x := by
  rw [Region.mem_ids_iff, metCount, metCount, h.met_eq]

theorem apart (h : Reroutes d next p s pre x y post) (hd : d.Owned) {i : Nat}
    (hi : i ∈ p.region.ids) : ∀ n ∈ met (pre ++ post), n.tag.id ≠ i := by
  have hone := hd.metCount_le_one i
  rw [h.before, metCount_append, metCount_append] at hone
  have hpos := h.mem_ids_iff.1 hi
  have hzero : metCount (fun n => n.tag.id == i) (pre ++ post) = 0 := by
    rw [metCount_append]
    omega
  intro n hn hid
  exact List.countP_eq_zero.1 hzero n hn (by simpa using hid)

/-- What is declared around the region belongs to no node of the region. -/
theorem outside (h : Reroutes d next p s pre x y post) (hd : d.Owned)
    (hl : l ∈ locals (pre ++ post)) : l.binding.home ∉ p.region.ids ∧
      ∀ id, l.note = some id → id ∉ p.region.ids := by
  obtain ⟨⟨n, hn, hhome⟩, hnote⟩ := h.rooted.home hl
  refine ⟨fun hmem => h.apart hd hmem n hn hhome, fun id hid hmem => ?_⟩
  obtain ⟨m, hm, hmid⟩ := hnote id hid
  exact h.apart hd hmem m hm hmid

theorem inside (h : Reroutes d next p s pre x y post) (hl : l ∈ locals x) :
    ∃ e ∈ p.region.entries, e.span = l.binding.span := by
  have hfair := p.region.fair.2
  have hentry {n : Node} (hn : n ∈ met x) {e : Entry} (he : e ∈ n.own) : e ∈ p.region.entries :=
    Region.mem_entries_of_own (Region.mem_nodes_iff.2 (h.met_eq ▸ hn)) he
  cases h.turns with
  | plain =>
    rw [h.spot.old] at hl hentry
    obtain ⟨n, hn, e, he, hspan⟩ := hfair.span hl
    exact ⟨e, hentry hn he, hspan⟩
  | muted | shown =>
    rw [locals_mute] at hl
    cases hl
  | range t b _ _ _ hspan =>
    obtain rfl : l = ⟨b, none⟩ := by simpa [locals, Event.local?] using hl
    exact ⟨⟨t, some b.name, _⟩, hentry List.mem_cons_self List.mem_cons_self, hspan.symm⟩

/-- A name that the region adds is among the names declared inside of its span. -/
theorem within (h : Reroutes d next p s pre x y post) (hr : p.region.Encloses)
    (hl : l ∈ added (walk pre []) x) : l.name ∈ d.scopes.namesWithin p.region.span := by
  obtain ⟨⟨hlocal, _⟩, q, rest, hx, f, hf, hlf⟩ := mem_added hl
  have htrail : d.file.trail = (pre ++ q) ++ (rest ++ post) := by rw [h.before, hx]; simp
  have hbinding : l.binding ∈ d.scopes.bindings :=
    Document.mem_bindings htrail (by rwa [walk_append]) hlf
  obtain ⟨e, he, hspan⟩ := h.inside hlocal
  obtain ⟨hstart, hordered, hstop⟩ := hr.2 e he
  have hknown := hr.1
  rw [hspan] at hstart hordered hstop
  have hset : l.binding.span.isUnset = false := by
    rw [Span.isUnset, beq_eq_false_iff_ne]
    omega
  refine List.mem_map.2 ⟨l.binding, List.mem_filter.2 ⟨hbinding, ?_⟩, rfl⟩
  simp [hset, hstart, hstop]

theorem quiet (h : Reroutes d next p s pre x y post) (hr : p.region.Encloses) {name : String}
    (hname : name ∉ d.scopes.namesWithin p.region.span) : Quiet name (walk pre []) x :=
  fun _ hl heq => hname (heq ▸ h.within hr hl)

section Found

variable {u : Nat} {a b : List Event} {e : Event}

theorem found_inside (h : Reroutes d next p s pre x y post) (hd : d.Owned)
    (hu : u ∈ p.region.ids) (htrail : d.file.trail = a ++ e :: b) (he : e.user? = some u) :
    ∃ q r, x = q ++ e :: r ∧ a = pre ++ q ∧ b = r ++ post := by
  have hnot (es : List Event) (hes : met es ⊆ met (pre ++ post)) : e ∉ es := by
    intro hmem
    obtain ⟨n, hn, hid⟩ := exists_met_of_user he hmem
    exact h.apart hd hu n (hes hn) hid
  rcases eq_append_cons (htrail.symm.trans h.before) with ⟨q, hq, rfl⟩ | ⟨q, _, hq⟩
  · rcases eq_append_cons hq.symm with ⟨r, hr, _⟩ | ⟨r, rfl, hr⟩
    · exact absurd (by simp [hr]) (hnot pre (by simp))
    · exact ⟨r, q, hr, rfl, rfl⟩
  · exact absurd (by simp [hq]) (hnot post (by simp))

theorem found_outside (h : Reroutes d next p s pre x y post) (hu : u ∉ p.region.ids)
    (htrail : d.file.trail = a ++ e :: b) (he : e.user? = some u) :
    (∃ q, pre = a ++ e :: q) ∨ ∃ q, a = pre ++ x ++ q ∧ post = q ++ e :: b := by
  have hnot : e ∉ x := by
    intro hmem
    obtain ⟨n, hn, hid⟩ := exists_met_of_user he hmem
    exact hu (hid ▸ Region.mem_ids_of_met (h.met_eq ▸ hn))
  rcases eq_append_cons (htrail.symm.trans h.before) with ⟨q, hq, rfl⟩ | ⟨q, hq, hpost⟩
  · rcases eq_append_cons hq.symm with ⟨r, hr, _⟩ | ⟨r, rfl, hr⟩
    · exact .inl ⟨r, hr⟩
    · exact absurd (by simp [hr]) hnot
  · exact .inr ⟨q, hq, hpost⟩

end Found

end Reroutes

end FuncLift
