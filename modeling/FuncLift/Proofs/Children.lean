import FuncLift.Proofs.Host

/-!
# Children

A walk meets a node with the number of its parent. Where no number is used twice, the nodes with the
number of one parent are the children of that parent, in order, and every node stands in one place of
one parent.
-/
namespace FuncLift

namespace Outline

variable {i : Nat} {p : Option Nat}

/-- The links that hang below a number. -/
def hanging (i : Nat) (ls : List Link) : List Link := ls.filter fun l => l.parent == some i

@[simp] theorem hanging_nil : hanging i [] = [] := rfl

@[simp] theorem hanging_append (ls ms : List Link) :
    hanging i (ls ++ ms) = hanging i ls ++ hanging i ms := List.filter_append ..

theorem hanging_cons_of_ne {l : Link} (h : l.parent ≠ some i) (ls : List Link) :
    hanging i (l :: ls) = hanging i ls := List.filter_cons_of_neg (by simpa using h)

theorem hanging_cons_of_eq {l : Link} (h : l.parent = some i) (ls : List Link) :
    hanging i (l :: ls) = l :: hanging i ls := List.filter_cons_of_pos (by simp [h])

theorem linkCount_bare (ls : List Link) : linkCount i (ls.map Link.bare) = linkCount i ls := by
  rw [linkCount, linkCount, List.countP_map]
  exact List.countP_congr fun l _ => by simp

theorem hanging_bare (ls : List Link) : hanging i (ls.map Link.bare) = (hanging i ls).map Link.bare :=
  List.filter_map ..

mutual

theorem hanging_links_of_absent : ∀ {p : Option Nat} (o : Outline), p ≠ some i →
    linkCount i (o.links p) = 0 → hanging i (o.links p) = []
  | p, .node n cs, hp, h => by
    rw [links_node, linkCount_cons] at h
    have hn : some n.tag.id ≠ some i := fun hn => by
      simp [Link.id, Option.some.inj hn] at h
    rw [links_node, hanging_cons_of_ne hp]
    exact hanging_linksAll_of_absent cs hn (by omega)

theorem hanging_linksAll_of_absent : ∀ {p : Option Nat} (os : List Outline), p ≠ some i →
    linkCount i (linksAll p os) = 0 → hanging i (linksAll p os) = []
  | _, [], _, _ => rfl
  | p, o :: os, hp, h => by
    rw [linksAll_cons, linkCount_append] at h
    rw [linksAll_cons, hanging_append, hanging_links_of_absent o hp (by omega),
      hanging_linksAll_of_absent os hp (by omega), List.append_nil]

end

theorem hanging_linksAll_self (os : List Outline) (h : linkCount i (linksAll (some i) os) = 0) :
    hanging i (linksAll (some i) os) = (os.map content).map (Link.mk (some i)) := by
  induction os with
  | nil => rfl
  | cons o os ih =>
    obtain ⟨n, cs⟩ := o
    rw [linksAll_cons, linkCount_append, links_node, linkCount_cons] at h
    have hn : some n.tag.id ≠ some i := fun hn => by
      simp [Link.id, Option.some.inj hn] at h
    rw [linksAll_cons, hanging_append, ih (by omega), links_node, hanging_cons_of_eq rfl,
      hanging_linksAll_of_absent cs hn (by omega)]
    rfl

mutual

theorem hanging_links {l : Link} (hid : l.id = i) : ∀ {p : Option Nat} {o : Outline}, p ≠ some i →
    Every Truthful o → linkCount i (o.links p) ≤ 1 → l ∈ o.links p →
      hanging i (o.links p) = l.node.children.map (Link.mk (some i))
  | p, .node n cs, hp, .node self every, hone, hl => by
    rw [links_node, linkCount_cons] at hone
    rw [links_node, hanging_cons_of_ne hp]
    rcases List.mem_cons.1 hl with rfl | hl
    · have hself : n.tag.id = i := hid
      have hcs : cs.map content = n.children := self
      rw [if_pos hid] at hone
      rw [hself] at hone ⊢
      rw [hanging_linksAll_self cs (by omega), hcs]
    · have hpos : 0 < linkCount i (linksAll (some n.tag.id) cs) := hid ▸ linkCount_pos hl
      have hn : some n.tag.id ≠ some i := fun hn => by
        simp only [Link.id, Option.some.inj hn, if_true] at hone
        rw [Option.some.inj hn] at hpos
        omega
      exact hanging_linksAll hid hn every (by omega) hl

theorem hanging_linksAll {l : Link} (hid : l.id = i) : ∀ {p : Option Nat} {os : List Outline},
    p ≠ some i → EveryOf Truthful os → linkCount i (linksAll p os) ≤ 1 → l ∈ linksAll p os →
      hanging i (linksAll p os) = l.node.children.map (Link.mk (some i))
  | p, o :: os, hp, .cons head tail, hone, hl => by
    rw [linksAll_cons, linkCount_append] at hone
    rw [linksAll_cons, hanging_append]
    rcases List.mem_append.1 hl with hl | hl
    · have hpos : 0 < linkCount i (o.links p) := hid ▸ linkCount_pos hl
      rw [hanging_links hid hp head (by omega) hl, hanging_linksAll_of_absent os hp (by omega),
        List.append_nil]
    · have hpos : 0 < linkCount i (linksAll p os) := hid ▸ linkCount_pos hl
      rw [hanging_links_of_absent o hp (by omega), hanging_linksAll hid hp tail (by omega) hl]
      rfl

end

variable {os : List Outline} {l : Link}

theorem exists_mem_linksAll {p : Option Nat} {os : List Outline} {l : Link}
    (h : l ∈ linksAll p os) : ∃ o ∈ os, l ∈ o.links p := by
  induction os with
  | nil => cases h
  | cons o os ih =>
    rcases List.mem_append.1 h with h | h
    · exact ⟨o, List.mem_cons_self, h⟩
    · obtain ⟨x, hx, h⟩ := ih h
      exact ⟨x, List.mem_cons_of_mem _ hx, h⟩

theorem child_mem (hos : EveryOf Truthful os) (hl : l ∈ linksAll p os) {c : Node}
    (hc : c ∈ l.node.children) : ⟨some l.id, c⟩ ∈ linksAll p os := by
  obtain ⟨cs, a, b, htruthful, hsplit⟩ := linksAll_split hos hl
  have hcs : cs.map content = l.node.children := htruthful
  rw [← hcs] at hc
  obtain ⟨o, ho, rfl⟩ := List.mem_map.1 hc
  have hroot : ⟨some l.id, o.content⟩ ∈ o.links (some l.id) := by
    cases o
    exact List.mem_cons_self
  rw [hsplit, links_node]
  exact List.mem_append_left _
    (List.mem_append_right _ (List.mem_cons_of_mem _ (mem_linksAll ho hroot)))

mutual

theorem holder_links : ∀ {p : Option Nat} {o : Outline}, Every Truthful o → l ∈ o.links p →
    l = ⟨p, o.content⟩ ∨ ∃ m ∈ o.links p, l.parent = some m.id ∧ l.node ∈ m.node.children
  | p, .node n cs, .node self every, hl => by
    have hcs : cs.map content = n.children := self
    rcases List.mem_cons.1 hl with rfl | hl
    · exact .inl rfl
    · rcases holder_linksAll every hl with ⟨hparent, hnode⟩ | ⟨m, hm, h⟩
      · exact .inr ⟨⟨p, n⟩, List.mem_cons_self, hparent, hcs ▸ hnode⟩
      · exact .inr ⟨m, List.mem_cons_of_mem _ hm, h⟩

theorem holder_linksAll : ∀ {p : Option Nat} {os : List Outline}, EveryOf Truthful os →
    l ∈ linksAll p os → (l.parent = p ∧ l.node ∈ os.map content) ∨
      ∃ m ∈ linksAll p os, l.parent = some m.id ∧ l.node ∈ m.node.children
  | p, o :: os, .cons head tail, hl => by
    rcases List.mem_append.1 hl with hl | hl
    · rcases holder_links head hl with rfl | ⟨m, hm, h⟩
      · exact .inl ⟨rfl, List.mem_cons_self⟩
      · exact .inr ⟨m, List.mem_append_left _ hm, h⟩
    · rcases holder_linksAll tail hl with ⟨hparent, hnode⟩ | ⟨m, hm, h⟩
      · exact .inl ⟨hparent, List.mem_cons_of_mem _ hnode⟩
      · exact .inr ⟨m, List.mem_append_right _ hm, h⟩

end

/-- The outline of a node is determined by the node. -/
def Faithful (o : Outline) : Prop := o.content.outline = o

theorem faithful (n : Node) : Faithful n.outline := by
  rw [Faithful, content_outline]

theorem every_outline {P : Outline → Prop} (h : ∀ n : Node, P n.outline) : ∀ n : Node, Every P n.outline
  | .decl d => every_ofDecl h d
  | .spec s => every_ofSpec h s
  | .func f => every_ofFunc h f
  | .signature s => every_ofSignature h s
  | .field f => every_ofField h f
  | .block b => every_ofBlock h b
  | .stmt s => every_ofStmt h s
  | .simple s => every_ofSimple h s
  | .expr e => every_ofExpr h e
  | .type t => every_ofType h t
  | .clause c => every_ofClause h c
  | .comm c => every_ofComm h c
  | .comment c => every_ofComment h c
  | .commentGroup g => every_ofCommentGroup h g

theorem EveryOf.eq_map : ∀ {os : List Outline}, EveryOf Faithful os →
    os = (os.map content).map Node.outline
  | [], _ => rfl
  | o :: os, .cons head tail => by
    have ho : o.content.outline = o := by
      cases head with
      | node self below => exact self
    rw [List.map_cons, List.map_cons, ho, ← tail.eq_map]

theorem children_eq_map (n : Node) : n.outline.children = n.children.map Node.outline := by
  have hevery := every_outline faithful n
  rw [Node.children]
  generalize n.outline = o at hevery
  cases hevery with
  | node self below => exact below.eq_map

theorem linkCount_children (hos : EveryOf Faithful os) (hone : linkCount l.id (linksAll p os) ≤ 1)
    (hl : l ∈ linksAll p os) {ns : List Node} (hns : ∀ n ∈ ns, n ∈ l.node.children) :
    linkCount l.id (linksAll (some l.id) (ns.map Node.outline)) = 0 := by
  obtain ⟨cs, a, b, hfaithful, hsplit⟩ := linksAll_split hos hl
  have hcs : l.node.outline.children = cs := by
    have hnode : l.node.outline = .node l.node cs := hfaithful
    rw [hnode]
    rfl
  rw [hsplit, links_node, linkCount_append, linkCount_append, linkCount_cons] at hone
  have hself : (Link.mk l.parent l.node).id = l.id := rfl
  rw [if_pos hself, ← hcs, children_eq_map] at hone
  have hnone : linkCount l.id
      (linksAll (some l.node.tag.id) (l.node.children.map Node.outline)) = 0 := by omega
  refine linkCount_eq_zero.2 fun m hm => linkCount_eq_zero.1 hnone m ?_
  obtain ⟨o, ho, hm⟩ := exists_mem_linksAll hm
  obtain ⟨n, hn, rfl⟩ := List.mem_map.1 ho
  exact mem_linksAll (List.mem_map_of_mem (hns n hn)) hm

end Outline

/-- All nodes of a file with their parents. -/
def SourceFile.links (f : SourceFile) : List Link := Outline.linksAll none (Outline.ofFile f)

open Outline

/-- The nodes of a document are a tree: each stands in one place, at the top or once among the
children of one node. Numbers are below the next free one. -/
structure Document.Rooted (d : Document) : Prop where
  bound : ∀ x ∈ d.file.entries, x.tag.id < d.nextId
  place : ∀ l ∈ d.file.links, linkCount l.id d.file.links = 1
  top : ∀ l ∈ d.file.links, l.parent = none → l.node ∈ (ofFile d.file).map content ∧
    ∀ k ∈ d.file.links, ∀ c ∈ k.node.children, c.tag.id ≠ l.id
  held : ∀ l ∈ d.file.links, ∀ i, l.parent = some i → ∃ m ∈ d.file.links, m.id = i ∧
    l.node ∈ m.node.children ∧ m.node.children.countP (fun c => c.tag.id == l.id) = 1 ∧
      ∀ k ∈ d.file.links, ∀ c ∈ k.node.children, c.tag.id = l.id → k = m

theorem Replacement.links_eq (r : Replacement) (p : Option Nat) :
    r.links p = linksAll p [r.node.outline] := by
  cases r with
  | expr e => exact (List.append_nil _).symm
  | stmt s => rfl

namespace Document.Owned

variable {d : Document}

theorem rooted (hd : d.Owned) : d.Rooted := by
  have htruthful := every_ofFile truthful d.file
  have hone (i : Nat) : linkCount i d.file.links ≤ 1 := hd.linkCount_file i
  -- a child hangs below its parent, so the parent of what has its number is known
  have hparent {l k : Link} (hl : l ∈ d.file.links) (hk : k ∈ d.file.links) {c : Node}
      (hc : c ∈ k.node.children) (hid : c.tag.id = l.id) : l.parent = some k.id := by
    have hchild : ⟨some k.id, c⟩ ∈ d.file.links := child_mem htruthful hk hc
    rw [← eq_of_linkCount (hone l.id) hchild hl hid rfl]
  refine ⟨hd.fresh, fun l hl => ?_, fun l hl htop => ⟨?_, fun k hk c hc hid => ?_⟩,
    fun l hl i hi => ?_⟩
  · exact Nat.le_antisymm (hone l.id) (linkCount_pos hl)
  · rcases holder_linksAll htruthful hl with ⟨_, hnode⟩ | ⟨m, _, hm, _⟩
    · exact hnode
    · rw [htop] at hm
      cases hm
  · have hk := hparent hl hk hc hid
    rw [htop] at hk
    cases hk
  · rcases holder_linksAll htruthful hl with ⟨hnone, _⟩ | ⟨m, hm, hparentm, hchild⟩
    · rw [hnone] at hi
      cases hi
    · refine ⟨m, hm, Option.some.inj (hparentm.symm.trans hi), hchild, ?_, fun k hk c hc hid => ?_⟩
      · have hle := countP_children htruthful (hone l.id) hm
        have hpos : 0 < m.node.children.countP fun c => c.tag.id == l.id :=
          List.countP_pos_iff.2 ⟨_, hchild, beq_self_eq_true _⟩
        omega
      · have hkm : k.id = m.id := Option.some.inj ((hparent hl hk hc hid).symm.trans hparentm)
        exact eq_of_linkCount (hone m.id) hk hm hkm rfl

theorem exists_holder (hd : d.Owned) {r : Region} {target : Span} (hloc : r.Located d.file target)
    (hfits : r.badContext? = none) : ∃ l ∈ d.file.declLinks, r.holder = some l.id ∧
      ∃ ns : List Node, r.roots = ns.map Node.outline ∧ ∀ n ∈ ns, n ∈ l.node.children := by
  cases r with
  | expression e parent slot =>
    obtain ⟨hlink, -, ⟨q, hparent⟩, rfl⟩ := hloc
    have hcomment : parent.isComment = false := by
      cases hslot : Slot.locate e.tag.id parent with
      | none => simp [Region.badContext?, hslot] at hfits
      | some s => exact Slot.isComment_of_locate hslot
    obtain ⟨m, hm, hid, hchild, -⟩ := hd.rooted.held _ hlink _ rfl
    have hsame : m = ⟨q, parent⟩ := eq_of_linkCount (hd.linkCount_file parent.tag.id) hm hparent hid rfl
    subst hsame
    exact ⟨_, mem_declLinks hparent hcomment, rfl, [.expr e], rfl, by simpa using hchild⟩
  | statements stmts owner =>
    obtain ⟨⟨q, howner⟩, ⟨before, after, hsplit⟩, _⟩ := hloc
    obtain ⟨others, hchildren⟩ := owner.children_eq
    refine ⟨_, mem_declLinks howner (by cases owner <;> rfl), rfl, stmts.map .stmt, ?_, ?_⟩
    · rw [Region.roots, List.map_map]
      rfl
    · intro n hn
      rw [hchildren, hsplit, List.map_append, List.map_append]
      simp [hn]

end Document.Owned

end FuncLift
