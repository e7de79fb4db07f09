import FuncLift.Lift.Layout
import FuncLift.Proofs.Drawn
import FuncLift.Proofs.Host
import FuncLift.Proofs.Retagged

/-!
# What an edit moves

The pass over a rewritten file goes by numbers. It leaves out what is new, what went into the new
function and the comments that are taken along, and moves all that stood outside of the region. As no
number is used twice, the file around the call comes out as if all of it had moved, and the new
function and its comments come out as they went in.
-/
namespace FuncLift

open Outline

namespace Outline

theorem flatMap_nodes (p : Option Nat) (os : List Outline) :
    os.flatMap Outline.nodes = (linksAll p os).map Link.node := by
  induction os with
  | nil => rfl
  | cons o os ih =>
    rw [List.flatMap_cons, linksAll_cons, List.map_append, ih, ← walk_eq_links 0]
    rfl

theorem nodes_node (n : Node) (cs : List Outline) : (node n cs).nodes = n :: cs.flatMap nodes := by
  rw [nodes, walk_eq_links 0 none, links_node, List.map_cons, ← flatMap_nodes]

/-- The entries of an outline are those that its nodes have by themselves. -/
theorem entries_eq_nodes (o : Outline) : o.entries = o.nodes.flatMap Node.own := by
  rw [nodes, walk_eq_links 0 none, entries_eq_links none, List.flatMap_map]

end Outline

namespace Node

/-- A node has by itself its own entry and those of the names that it holds. -/
theorem own_eq_names (n : Node) : n.own = n.self :: nameEntries (n.inlineNames ++ n.listedNames) := by
  have hnil (ns : List Name) : nameEntries ns = nameEntries (ns ++ []) := by rw [List.append_nil]
  cases n with
  | spec s =>
    cases s with
    | imports t n path => exact congrArg (t.entry :: ·) (hnil n.toList)
    | _ => rfl
  | stmt s =>
    cases s with
    | branch t kind n => exact congrArg (t.entry :: ·) (hnil n.toList)
    | typeSwitch t init n guard cs => exact congrArg (t.entry :: ·) (hnil n.toList)
    | _ => rfl
  | simple s => cases s <;> rfl
  | expr e => cases e <;> rfl
  | type t => cases t <;> rfl
  | _ => rfl

theorem self_mem_own (n : Node) : n.self ∈ n.own := by
  rw [own_eq_names]
  exact List.mem_cons_self

theorem entry_mem_own {n : Node} {y : Name} (hy : y ∈ n.listedNames) : y.entry ∈ n.own := by
  rw [own_eq_names]
  exact List.mem_cons_of_mem _ (List.mem_map_of_mem (List.mem_append_right _ hy))

theorem own_comment {n : Node} (h : n.isComment = true) : n.own = [n.self] ∧ n.listedNames = [] := by
  cases n with
  | comment | commentGroup => exact ⟨rfl, rfl⟩
  | spec s => cases s <;> cases h
  | stmt s => cases s <;> cases h
  | simple s => cases s <;> cases h
  | expr e => cases e <;> cases h
  | _ => cases h

/-- What nodes have by themselves tells them apart where no number is used twice. -/
theorem eq_of_own {ns : List Node} {n m : Node} {x y : Entry} (hn : n ∈ ns) (hm : m ∈ ns)
    (hx : x ∈ n.own) (hy : y ∈ m.own) (hid : y.tag.id = x.tag.id)
    (hone : idCount x.tag.id (ns.flatMap own) ≤ 1) : n = m := by
  have hcount : ns.countP (fun k => decide (0 < idCount x.tag.id k.own)) ≤
      idCount x.tag.id (ns.flatMap own) := by
    clear hn hm hone
    induction ns with
    | nil => exact Nat.le_refl 0
    | cons k ns ih =>
      rw [List.countP_cons, List.flatMap_cons, idCount_append]
      by_cases hk : 0 < idCount x.tag.id k.own
      · simp only [hk, decide_true, if_true]
        omega
      · simp only [hk, decide_false, Bool.false_eq_true, if_false]
        omega
  exact eq_of_countP (Nat.le_trans hcount hone) hn hm (decide_eq_true (idCount_pos hx))
    (decide_eq_true (hid ▸ idCount_pos hy))

end Node

theorem Region.entries_eq_nodes (r : Region) : r.entries = r.nodes.flatMap Node.own := by
  rw [nodes, flatMap_nodes r.holder, List.flatMap_map, ← r.links_eq, ← ownEntries_links]
  rfl

theorem Region.mem_entries_of_own {r : Region} {n : Node} (h : n ∈ r.nodes) {x : Entry}
    (hx : x ∈ n.own) : x ∈ r.entries := by
  rw [r.entries_eq_nodes]
  exact List.mem_flatMap.2 ⟨n, h, hx⟩

namespace Edit

variable (e : Edit)

theorem groupEntries_perm :
    (groupEntries e.host.comments).Perm (groupEntries e.detached ++ groupEntries e.kept) := by
  rw [← groupEntries_append]
  exact ((List.filter_append_perm e.takes e.host.comments).flatMap_right _).symm

theorem mem_nodes_file {n : Node} : n ∈ e.file.nodes ↔ (∃ l ∈ e.host.declLinks, l.node = n) ∨
    n ∈ (ofFunc e.function).nodes ∨ ∃ l ∈ e.host.commentLinks, l.node = n := by
  have hlinks : linksAll none (ofFile e.file) =
      e.host.declLinks ++ (ofFunc e.function).links none ++ e.host.commentLinks := by
    have hdecls : e.file.declLinks = e.host.declLinks ++ ((ofFunc e.function).links none ++ []) := by
      rw [SourceFile.declLinks, file, List.map_append, linksAll_append]
      rfl
    rw [SourceFile.links_ofFile, hdecls, List.append_nil]
    rfl
  rw [SourceFile.nodes, walkAll_eq_linksAll 0 none, hlinks, nodes, walk_eq_links 0 none]
  simp only [List.map_append, List.mem_append, List.mem_map, or_assoc]

theorem mem_detachedIds {i : Nat} :
    i ∈ e.detachedIds ↔ ∃ x ∈ groupEntries e.detached, x.tag.id = i := by
  have hgroup (g : CommentGroup) : g.entries.map (fun x => x.tag.id) =
      g.tag.id :: g.comments.map fun c => c.tag.id := by
    obtain ⟨t, cs⟩ := g
    rw [CommentGroup.entries_mk, List.map_cons, List.map_map]
    rfl
  have hids : e.detachedIds = (groupEntries e.detached).map fun x => x.tag.id := by
    rw [detachedIds, groupEntries, List.map_flatMap]
    simp only [hgroup]
  rw [hids, List.mem_map]

theorem mem_shiftedAt {n : Node} {i : Nat} : i ∈ e.shiftedAt n ↔
    (e.stays n.tag.id = true ∧ (i = n.tag.id ∨ ∃ y ∈ n.inlineNames, y.tag.id = i)) ∨
      (∃ y ∈ n.listedNames, y.tag.id = i) ∧ e.staysListed i = true := by
  unfold shiftedAt
  by_cases h : e.stays n.tag.id = true <;> simp [h, or_assoc]

theorem own_of_shiftedAt {n : Node} {i : Nat} (h : i ∈ e.shiftedAt n) :
    ∃ x ∈ n.own, x.tag.id = i := by
  rw [n.own_eq_names, nameEntries_append]
  rcases e.mem_shiftedAt.1 h with ⟨_, rfl | ⟨y, hy, hid⟩⟩ | ⟨⟨y, hy, hid⟩, _⟩
  · exact ⟨n.self, List.mem_cons_self, by rw [n.tag_self]⟩
  · exact ⟨y.entry, List.mem_cons_of_mem _ (List.mem_append_left _ (List.mem_map_of_mem hy)), hid⟩
  · exact ⟨y.entry, List.mem_cons_of_mem _ (List.mem_append_right _ (List.mem_map_of_mem hy)), hid⟩

end Edit

namespace Plan

variable {p : Plan} {d : Document}

theorem region_nodes {n : Node} (hn : n ∈ p.region.nodes) :
    n ∈ (ofFunc (p.edit d).function).nodes := by
  obtain ⟨⟨c, body, hsurgery, _, hfunction⟩, _, _⟩ := (p.edit_spec d).1
  obtain ⟨t, hbody, _⟩ := hfunction.body
  have hmem : n ∈ (ofBlock ⟨t, body⟩).nodes := by
    rw [Region.nodes] at hn
    unfold Plan.IsSurgery at hsurgery
    rw [ofBlock, nodes_node, ofStmts_eq_map]
    refine List.mem_cons_of_mem _ ?_
    cases hr : p.region with
    | expression e parent slot =>
      rw [hr] at hsurgery hn
      obtain ⟨_, _, _, _, hexpr⟩ := hsurgery
      have hn : n ∈ (ofExpr e).nodes := by simpa [Region.roots] using hn
      rcases hexpr with ⟨t, u, rfl⟩ | ⟨t, rfl⟩ <;>
        simp [ofStmt, ofSimple, ofExprs, nodes_node, hn]
    | statements stmts owner =>
      rw [hr] at hsurgery hn
      obtain ⟨_, _, _, _, _, _, hstmts⟩ := hsurgery
      rcases hstmts with ⟨_, rfl⟩ | ⟨_, t, es, rfl, _⟩
      · exact hn
      · rw [List.map_append, List.flatMap_append]
        exact List.mem_append_left _ hn
  generalize (p.edit d).function = f at hbody
  obtain ⟨u, recv, m, sig, b⟩ := f
  cases hbody
  rw [ofFunc, nodes_node]
  refine List.mem_cons_of_mem _ (List.mem_flatMap.2 ⟨_, ?_, hmem⟩)
  simp

end Plan

/-- What neither moves with the region nor is of a comment that is taken. -/
def Document.staying (d : Document) (e : Edit) (pre post : List (Link × List Entry)) : List Entry :=
  d.file.tag.entry :: d.file.name.entry :: (pre.flatMap (fun x => x.2) ++
    (post.flatMap (fun x => x.2) ++ groupEntries e.kept))

theorem Document.staying_of_view {d : Document} {e : Edit} {pre post : List (Link × List Entry)}
    {v : Link × List Entry} (hv : v ∈ pre ++ post) {y : Entry} (hy : y ∈ v.2) :
    y ∈ d.staying e pre post := by
  rw [staying, ← List.append_assoc, ← List.flatMap_append]
  exact List.mem_cons_of_mem _ (List.mem_cons_of_mem _
    (List.mem_append_left _ (List.mem_flatMap.2 ⟨v, hv, hy⟩)))

/-- A plan takes its region out between the links before and behind it. -/
structure Plan.Cuts (p : Plan) (d : Document) (pre post : List (Link × List Entry)) : Prop where
  owned : d.Owned
  old : views d.file.declLinks = pre ++ views p.region.links ++ post
  new : views (p.edit d).host.declLinks =
    pre ++ views ((p.edit d).replacement.links p.region.holder) ++ post

namespace Plan.Cuts

variable {p : Plan} {d : Document} {pre post : List (Link × List Entry)} {x : Entry} {n : Node}

theorem of_located (hd : d.Owned) {target : Span} (hloc : p.region.Located d.file target)
    (hfits : p.region.badContext? = none) : ∃ pre post, p.Cuts d pre post := by
  obtain ⟨pre, post, hold, hnew⟩ := swapped_host hd hloc hfits
  exact ⟨pre, post, hd, hold, hnew⟩

theorem perm_old (h : p.Cuts d pre post) : d.file.entries.Perm (p.region.entries ++
    groupEntries (p.edit d).detached ++ d.staying (p.edit d) pre post) := by
  have hgroups := (p.edit d).groupEntries_perm
  rw [host_rest.2.2] at hgroups
  rw [d.file.entries_eq_links, ownEntries_of_views h.old, Region.ownEntries_links,
    ownEntries_commentLinks]
  refine List.perm_iff_count.2 fun y => ?_
  have hcount := hgroups.count_eq y
  simp only [groupEntries, List.count_append, List.count_cons, Document.staying] at hcount ⊢
  omega

/-- The declarations around the call are the old ones with the call in place of the region. -/
theorem decls_host (h : p.Cuts d pre post) : (p.edit d).host.decls.flatMap TopDecl.entries =
    pre.flatMap (fun x => x.2) ++ (p.edit d).replacement.entries ++ post.flatMap (fun x => x.2) := by
  rw [← ownEntries_declLinks, ownEntries_of_views h.new, Replacement.ownEntries_links]

theorem idCount_le_one (h : p.Cuts d pre post) (i : Nat) : idCount i (p.edit d).replacement.entries +
    idCount i (p.edit d).function.entries + idCount i (groupEntries (p.edit d).detached) +
      idCount i (d.staying (p.edit d) pre post) ≤ 1 := by
  obtain ⟨_, _, _, hmade⟩ := p.edit_spec d
  have hmade := hmade i
  have hold : idCount i d.file.entries = idCount i (p.region.entries ++
      groupEntries (p.edit d).detached ++ d.staying (p.edit d) pre post) := h.perm_old.countP_eq _
  have hone := h.owned.once i
  simp only [idCount_append] at hold hmade
  rcases Nat.lt_or_ge i d.nextId with hlt | hge
  · rw [between_of_lt hlt] at hmade
    omega
  · have hnone : idCount i d.file.entries = 0 := by
      refine Nat.eq_zero_of_not_pos fun hpos => ?_
      obtain ⟨y, hy, hid⟩ := List.countP_pos_iff.1 hpos
      have hid : y.tag.id = i := beq_iff_eq.1 hid
      exact absurd (h.owned.fresh y hy) (by omega)
    have := between_le_one d.nextId (p.edit d).nextId i
    omega

theorem lt_of_staying (h : p.Cuts d pre post) (hx : x ∈ d.staying (p.edit d) pre post) :
    x.tag.id < d.nextId :=
  h.owned.fresh x (h.perm_old.mem_iff.2 (List.mem_append_right _ hx))

theorem not_region (h : p.Cuts d pre post) (hx : x ∈ d.staying (p.edit d) pre post) {y : Entry}
    (hy : y ∈ p.region.entries) : y.tag.id ≠ x.tag.id := by
  intro hid
  have hone := h.idCount_le_one x.tag.id
  have hcopy := hid ▸ idCount_pos (region_sublist (d := d).subset hy)
  have hself := idCount_pos hx
  omega

theorem not_detached (h : p.Cuts d pre post) (hx : x ∈ d.staying (p.edit d) pre post) {y : Entry}
    (hy : y ∈ groupEntries (p.edit d).detached) : y.tag.id ≠ x.tag.id := by
  intro hid
  have hone := h.idCount_le_one x.tag.id
  have hcopy := hid ▸ idCount_pos hy
  have hself := idCount_pos hx
  omega

/-- A node of the new function with a number from before the edit is one of the region. -/
theorem region_of_function (h : p.Cuts d pre post) (hn : n ∈ (ofFunc (p.edit d).function).nodes)
    (hx : x ∈ n.own) (hlt : x.tag.id < d.nextId) : n ∈ p.region.nodes := by
  obtain ⟨_, _, _, hmade⟩ := p.edit_spec d
  have hmade := hmade x.tag.id
  have hentries : (p.edit d).function.entries =
      (ofFunc (p.edit d).function).nodes.flatMap Node.own := entries_eq_nodes _
  have hpos : 0 < idCount x.tag.id (p.edit d).function.entries := by
    rw [hentries]
    exact idCount_pos (List.mem_flatMap.2 ⟨n, hn, hx⟩)
  rw [between_of_lt hlt, idCount_append] at hmade
  have hregion : 0 < idCount x.tag.id p.region.entries := by omega
  obtain ⟨y, hy, hid⟩ := List.countP_pos_iff.1 hregion
  have hid : y.tag.id = x.tag.id := beq_iff_eq.1 hid
  rw [p.region.entries_eq_nodes] at hy
  obtain ⟨m, hm, hy⟩ := List.mem_flatMap.1 hy
  have hone := h.idCount_le_one x.tag.id
  rwa [Node.eq_of_own hn (region_nodes hm) hx hy hid (by rw [← hentries]; omega)]

/-- In the new function nothing is moved: it holds what was in the region and what is new. -/
theorem shiftedAt_function (h : p.Cuts d pre post) (hn : n ∈ (ofFunc (p.edit d).function).nodes) :
    (p.edit d).shiftedAt n = [] := by
  refine List.eq_nil_iff_forall_not_mem.2 fun i hi => ?_
  rcases (p.edit d).mem_shiftedAt.1 hi with ⟨hstays, _⟩ | ⟨⟨y, hy, hid⟩, hstays⟩
  · simp only [Edit.stays, Bool.and_eq_true, decide_eq_true_eq] at hstays
    have hregion := h.region_of_function hn n.self_mem_own (by rw [n.tag_self]; exact hstays.1)
    have hnode : n.tag.id ∈ (p.edit d).moved.nodes := List.mem_map_of_mem hregion
    simp [hnode] at hstays
  · subst hid
    simp only [Edit.staysListed, Bool.and_eq_true, decide_eq_true_eq] at hstays
    have hregion := h.region_of_function hn (Node.entry_mem_own hy) hstays.1
    have hname : (p.edit d).moved.containsName y.tag.id = true := by
      refine List.any_eq_true.2 ⟨_, List.mem_filter.2 ⟨List.mem_map_of_mem hregion, ?_⟩,
        List.contains_iff_mem.2 (List.mem_map_of_mem hy)⟩
      simp [List.ne_nil_of_mem hy]
    simp [hname] at hstays

theorem stays_of_staying (h : p.Cuts d pre post) (hx : x ∈ d.staying (p.edit d) pre post) :
    (p.edit d).stays x.tag.id = true ∧ (p.edit d).staysListed x.tag.id = true := by
  have hlt : x.tag.id < (p.edit d).watermark := h.lt_of_staying hx
  have hnode : x.tag.id ∉ (p.edit d).moved.nodes := by
    intro hmem
    obtain ⟨m, hm, hid⟩ := List.mem_map.1 hmem
    exact h.not_region hx (Region.mem_entries_of_own hm m.self_mem_own) (by rw [m.tag_self, hid])
  have hname : (p.edit d).moved.containsName x.tag.id = false := by
    refine List.any_eq_false.2 fun ids hids hcontains => ?_
    obtain ⟨m, hm, rfl⟩ := List.mem_map.1 (List.mem_filter.1 hids).1
    obtain ⟨y, hy, hid⟩ := List.mem_map.1 (List.contains_iff_mem.1 hcontains)
    exact h.not_region hx (Region.mem_entries_of_own hm (Node.entry_mem_own hy)) hid
  have hdetached : x.tag.id ∉ (p.edit d).detachedIds := by
    intro hmem
    rw [Edit.mem_detachedIds] at hmem
    obtain ⟨y, hy, hid⟩ := hmem
    exact h.not_detached hx hy hid
  exact ⟨by simp [Edit.stays, hlt, hnode, hdetached], by simp [Edit.staysListed, hlt, hname]⟩

theorem mem_shiftedAt_of_staying (h : p.Cuts d pre post)
    (hn : ∀ y ∈ n.own, y ∈ d.staying (p.edit d) pre post) (hx : x ∈ n.own) :
    x.tag.id ∈ (p.edit d).shiftedAt n := by
  have hself := (h.stays_of_staying (hn _ n.self_mem_own)).1
  rw [n.tag_self] at hself
  have hlisted := (h.stays_of_staying (hn x hx)).2
  rw [Edit.mem_shiftedAt]
  rw [n.own_eq_names, nameEntries_append] at hx
  rcases List.mem_cons.1 hx with rfl | hx
  · exact .inl ⟨hself, .inl (by rw [n.tag_self])⟩
  · rcases List.mem_append.1 hx with hx | hx
    · obtain ⟨y, hy, rfl⟩ := List.mem_map.1 hx
      exact .inl ⟨hself, .inr ⟨y, hy, rfl⟩⟩
    · obtain ⟨y, hy, rfl⟩ := List.mem_map.1 hx
      exact .inr ⟨⟨y, hy, rfl⟩, hlisted⟩

theorem shiftedAt_eq_nil (hn : ∀ y ∈ n.own, (p.edit d).stays y.tag.id = false)
    (hnames : ∀ y ∈ n.listedNames, (p.edit d).staysListed y.tag.id = false) :
    (p.edit d).shiftedAt n = [] := by
  refine List.eq_nil_iff_forall_not_mem.2 fun i hi => ?_
  rcases (p.edit d).mem_shiftedAt.1 hi with ⟨hstays, _⟩ | ⟨⟨y, hy, rfl⟩, hstays⟩
  · have hself := hn _ n.self_mem_own
    rw [n.tag_self, hstays] at hself
    cases hself
  · rw [hnames y hy] at hstays
    cases hstays

/-- A node of the rewritten file stays with all that it has by itself, or it is not moved. -/
theorem node_cases (h : p.Cuts d pre post) (hn : n ∈ (p.edit d).file.nodes) :
    (∀ y ∈ n.own, y ∈ d.staying (p.edit d) pre post) ∨ (p.edit d).shiftedAt n = [] := by
  rcases (p.edit d).mem_nodes_file.1 hn with ⟨l, hl, rfl⟩ | hn | ⟨l, hl, rfl⟩
  · have hview : (l.bare, l.node.own) ∈ views (p.edit d).host.declLinks := List.mem_map_of_mem hl
    rw [h.new, List.mem_append, List.mem_append] at hview
    rcases hview with (hview | hview) | hview
    · exact .inl fun y hy => Document.staying_of_view (List.mem_append_left _ hview) hy
    · have hnew : ∀ y ∈ l.node.own, ¬y.tag.id < (p.edit d).watermark := by
        intro y hy hlt
        obtain ⟨k, hk, hkl⟩ := List.mem_map.1 hview
        obtain ⟨_, hown⟩ := Prod.mk.inj hkl
        have hentry : y ∈ (p.edit d).replacement.entries := by
          rw [← Replacement.ownEntries_links _ p.region.holder]
          exact List.mem_flatMap.2 ⟨k, hk, hown ▸ hy⟩
        exact absurd (p.idCount_replacement hlt) (Nat.pos_iff_ne_zero.1 (idCount_pos hentry))
      refine .inr (shiftedAt_eq_nil (fun y hy => ?_) fun y hy => ?_)
      · simp [Edit.stays, hnew y hy]
      · have hlt : ¬y.tag.id < (p.edit d).watermark := hnew _ (Node.entry_mem_own hy)
        simp [Edit.staysListed, hlt]
    · exact .inl fun y hy => Document.staying_of_view (List.mem_append_right _ hview) hy
  · exact .inr (h.shiftedAt_function hn)
  · obtain ⟨hown, hnames⟩ := Node.own_comment (isComment_of_mem hl)
    have hself : l.node.self ∈ groupEntries (p.edit d).host.comments := by
      rw [groupEntries, ← ownEntries_commentLinks]
      exact List.mem_flatMap.2 ⟨l, hl, l.node.self_mem_own⟩
    rw [(p.edit d).groupEntries_perm.mem_iff, List.mem_append] at hself
    rcases hself with hself | hself
    · have hdetached : l.node.tag.id ∈ (p.edit d).detachedIds :=
        (p.edit d).mem_detachedIds.2 ⟨_, hself, by rw [Node.tag_self]⟩
      refine .inr (shiftedAt_eq_nil ?_ (by simp [hnames]))
      simp [hown, Edit.stays, hdetached]
    · refine .inl ?_
      simp [hown, Document.staying, hself]

/-- All that stays is of the clause of the package or of a node that stays as a whole. -/
theorem exists_node (h : p.Cuts d pre post) (hx : x ∈ d.staying (p.edit d) pre post) :
    x = d.file.tag.entry ∨ x = d.file.name.entry ∨ ∃ n ∈ (p.edit d).file.nodes, x ∈ n.own ∧
      ∀ y ∈ n.own, y ∈ d.staying (p.edit d) pre post := by
  have hview {v : Link × List Entry} (hv : v ∈ pre ++ post) (hxv : x ∈ v.2) :
      ∃ n ∈ (p.edit d).file.nodes, x ∈ n.own ∧ ∀ y ∈ n.own, y ∈ d.staying (p.edit d) pre post := by
    have hnew : v ∈ views (p.edit d).host.declLinks := by
      rw [h.new, List.append_assoc]
      rcases List.mem_append.1 hv with hv | hv
      · exact List.mem_append_left _ hv
      · exact List.mem_append_right _ (List.mem_append_right _ hv)
    obtain ⟨l, hl, rfl⟩ := List.mem_map.1 hnew
    exact ⟨l.node, (p.edit d).mem_nodes_file.2 (.inl ⟨l, hl, rfl⟩), hxv,
      fun y hy => Document.staying_of_view hv hy⟩
  have hx' := hx
  rw [Document.staying, List.mem_cons, List.mem_cons, List.mem_append, List.mem_append] at hx'
  rcases hx' with rfl | rfl | hpre | hpost | hkept
  · exact .inl rfl
  · exact .inr (.inl rfl)
  · obtain ⟨v, hv, hxv⟩ := List.mem_flatMap.1 hpre
    exact .inr (.inr (hview (List.mem_append_left _ hv) hxv))
  · obtain ⟨v, hv, hxv⟩ := List.mem_flatMap.1 hpost
    exact .inr (.inr (hview (List.mem_append_right _ hv) hxv))
  · have hgroup : x ∈ groupEntries (p.edit d).host.comments :=
      (p.edit d).groupEntries_perm.mem_iff.2 (List.mem_append_right _ hkept)
    rw [groupEntries, ← ownEntries_commentLinks] at hgroup
    obtain ⟨l, hl, hxl⟩ := List.mem_flatMap.1 hgroup
    obtain ⟨hown, -⟩ := Node.own_comment (isComment_of_mem hl)
    refine .inr (.inr ⟨l.node, (p.edit d).mem_nodes_file.2 (.inr (.inr ⟨l, hl, rfl⟩)), hxl, ?_⟩)
    rw [hown, List.mem_singleton] at hxl
    simpa [hown, ← hxl] using hx

theorem mem_shifted_iff (h : p.Cuts d pre post) {i : Nat} : i ∈ (p.edit d).shifted ↔
    ∃ x ∈ d.staying (p.edit d) pre post, x.tag.id = i := by
  obtain ⟨htag, hname, -⟩ := host_rest (p := p) (d := d)
  have hclause : [(p.edit d).file.tag.id, (p.edit d).file.name.tag.id] =
      [d.file.tag.id, d.file.name.tag.id] := by
    rw [← htag, ← hname]
    rfl
  rw [Edit.shifted, hclause, List.mem_append, List.mem_flatMap]
  constructor
  · rintro (⟨n, hn, hi⟩ | hi)
    · rcases h.node_cases hn with hstays | hnil
      · obtain ⟨x, hx, hid⟩ := (p.edit d).own_of_shiftedAt hi
        exact ⟨x, hstays x hx, hid⟩
      · rw [hnil] at hi
        cases hi
    · simp only [List.mem_cons, List.not_mem_nil, or_false] at hi
      rcases hi with rfl | rfl
      · exact ⟨d.file.tag.entry, List.mem_cons_self, rfl⟩
      · exact ⟨d.file.name.entry, List.mem_cons_of_mem _ List.mem_cons_self, rfl⟩
  · rintro ⟨x, hx, rfl⟩
    rcases h.exists_node hx with rfl | rfl | ⟨n, hn, hown, hall⟩
    · exact .inr List.mem_cons_self
    · exact .inr (List.mem_cons_of_mem _ List.mem_cons_self)
    · exact .inl ⟨n, hn, h.mem_shiftedAt_of_staying hall hown⟩

end Plan.Cuts

end FuncLift
