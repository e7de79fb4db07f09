import FuncLift.Proofs.Bare

/-!
# What a change does to the links

Changing tags keeps all links. Replacing an expression, or a run of statements in one list, takes
the links of what was there out of the walk and puts those of the replacement at the same place;
the links before and behind stay the same.
-/
namespace FuncLift

/-- What counts of links: parents and heads, and the own entries of the nodes. -/
def views (ls : List Link) : List (Link × List Entry) := ls.map fun l => (l.bare, l.node.own)

@[simp] theorem views_nil : views [] = [] := rfl

@[simp] theorem views_cons (l : Link) (ls : List Link) :
    views (l :: ls) = (l.bare, l.node.own) :: views ls := rfl

@[simp] theorem views_append (ls ms : List Link) : views (ls ++ ms) = views ls ++ views ms :=
  List.map_append

/-- The own entries of nodes in walk order. -/
def ownEntries (ls : List Link) : List Entry := ls.flatMap fun l => l.node.own

@[simp] theorem ownEntries_nil : ownEntries [] = [] := rfl

@[simp] theorem ownEntries_cons (l : Link) (ls : List Link) :
    ownEntries (l :: ls) = l.node.own ++ ownEntries ls := rfl

@[simp] theorem ownEntries_append (ls ms : List Link) :
    ownEntries (ls ++ ms) = ownEntries ls ++ ownEntries ms := List.flatMap_append

/-- How many links have a number. -/
def linkCount (i : Nat) (ls : List Link) : Nat := ls.countP fun l => l.id == i

@[simp] theorem linkCount_nil (i : Nat) : linkCount i [] = 0 := rfl

@[simp] theorem linkCount_cons (i : Nat) (l : Link) (ls : List Link) :
    linkCount i (l :: ls) = (if l.id = i then 1 else 0) + linkCount i ls := by
  simp [linkCount, List.countP_cons, Nat.add_comm]

@[simp] theorem linkCount_append (i : Nat) (ls ms : List Link) :
    linkCount i (ls ++ ms) = linkCount i ls + linkCount i ms := List.countP_append

theorem linkCount_eq_zero {i : Nat} {ls : List Link} :
    linkCount i ls = 0 ↔ ∀ l ∈ ls, l.id ≠ i := by simp [linkCount, List.countP_eq_zero]

theorem linkCount_pos {l : Link} {ls : List Link} (h : l ∈ ls) : 0 < linkCount l.id ls :=
  List.countP_pos_iff.2 ⟨l, h, by simp⟩

theorem eq_of_linkCount {i : Nat} {ls : List Link} (h : linkCount i ls ≤ 1) {l m : Link}
    (hl : l ∈ ls) (hm : m ∈ ls) (hli : l.id = i) (hmi : m.id = i) : l = m :=
  eq_of_countP h hl hm (by simpa using hli) (by simpa using hmi)

/-- A node is an entry of its own, so numbers that entries have once nodes have at most once. -/
theorem linkCount_le_idCount (i : Nat) (ls : List Link) :
    linkCount i ls ≤ idCount i (ownEntries ls) := by
  induction ls with
  | nil => exact Nat.zero_le _
  | cons l ls ih =>
    obtain ⟨e, es, hown, htag⟩ := l.node.own_eq_cons
    have hid : e.tag.id = l.id := congrArg Tag.id htag
    simp only [linkCount_cons, ownEntries_cons, hown, List.cons_append, idCount_cons,
      idCount_append, hid]
    omega

namespace Change

open Outline

theorem links_outline (o : Owner) (p : Option Nat) : o.outline.links p =
    ⟨p, o.node⟩ :: (linksAll (some o.id) o.front ++ linksAll (some o.id) (ofStmts o.stmts)) := by
  rw [Owner.outline, links_node, linksAll_append]
  rfl

section Owners

variable (c : Change)

theorem stmts_owner (o : Owner) : (c.owner o).stmts = c.onStmts o.id (c.stmts o.stmts) := by
  cases o with
  | block b => cases b; rfl
  | clause x => cases x; rfl
  | comm x => cases x; rfl

theorem node_owner (o : Owner) : (c.owner o).node = c.node o.node := by cases o <;> rfl

theorem links_owner (hid : c.KeepsIds) (o : Owner) (p : Option Nat) :
    (c.owner o).outline.links p = ⟨p, c.node o.node⟩ :: (linksAll (some o.id) (c.owner o).front ++
      linksAll (some o.id) (ofStmts (c.onStmts o.id (c.stmts o.stmts)))) := by
  have hnode : (c.node o.node).tag.id = o.id := by
    cases o with
    | block b => cases b; exact hid _
    | clause x => cases x; exact hid _
    | comm x => cases x; exact hid _
  rw [Owner.outline, links_node, node_owner, linksAll_append, stmts_owner, hnode]

theorem ownerless_replacement (o : Owner) : c.replacement? o.node = none := by cases o <;> rfl

end Owners

/-- A change that leaves lists of statements alone needs no care at their owners. -/
theorem congruent_of_plain {c : Change} {R : List Link → List Link → Prop}
    (hstmts : ∀ id ss, c.onStmts id ss = ss) (nil : R [] [])
    (append : ∀ {a a' b b'}, R a a' → R b b' → R (a ++ b) (a' ++ b')) (hid : c.KeepsIds)
    (replaced : ∀ p e new, c.onExpr e = some new →
      R ((ofExpr e).links p) ((ofExpr new).links p))
    (kept : ∀ p n, c.replacement? n = none → R [⟨p, n⟩] [⟨p, c.node n⟩]) : c.Congruent R where
  nil := nil
  append := append
  id := hid
  replaced := replaced
  kept p n hn _ := kept p n hn
  owner p o hfront hrun := by
    rw [c.links_owner hid, hstmts, links_outline]
    exact append (kept p o.node (c.ownerless_replacement o)) (append hfront hrun)

theorem congruent_tags {f : Tag → Tag} (hf : ∀ t, (f t).id = t.id) :
    (tags f).Congruent fun a b => b.map Link.bare = a.map Link.bare ∧
      ownEntries b = (ownEntries a).map (Entry.retag f) := by
  refine congruent_of_plain (fun _ _ => rfl) ⟨rfl, rfl⟩ ?_ hf (fun _ _ _ he => by cases he) ?_
  · rintro a a' b b' ⟨h1, h2⟩ ⟨h3, h4⟩
    simp [h1, h2, h3, h4]
  · intro p n hn
    have hid : (tags f).KeepsIds := hf
    have hown : ((tags f).node n).own = n.own.map (Entry.retag f) := own_node hn
    exact ⟨by simp [Link.bare, head_node hid hn], by simpa using hown⟩

/-- One link, known by its number, is where the links differ. -/
def Swapped (spot : Link) (old new : List Link) (a b : List Link) : Prop :=
  (∀ l ∈ a, l.id = spot.id → l = spot) → linkCount spot.id a ≤ 1 →
    ((∀ l ∈ a, l.id ≠ spot.id) ∧ views b = views a) ∨
    ((∃ l ∈ a, l.id = spot.id) ∧
      ∃ pre post, views a = pre ++ views old ++ post ∧ views b = pre ++ views new ++ post)

theorem Swapped.nil {spot : Link} {old new : List Link} : Swapped spot old new [] [] :=
  fun _ _ => .inl ⟨by simp, rfl⟩

theorem Swapped.append {spot : Link} {old new a a' b b' : List Link}
    (ha : Swapped spot old new a a') (hb : Swapped spot old new b b') :
    Swapped spot old new (a ++ b) (a' ++ b') := by
  intro hspot hcount
  rw [linkCount_append] at hcount
  have ha := ha (fun l hl => hspot l (List.mem_append_left _ hl)) (by omega)
  have hb := hb (fun l hl => hspot l (List.mem_append_right _ hl)) (by omega)
  have hpos {c : List Link} (h : ∃ l ∈ c, l.id = spot.id) : linkCount spot.id c ≠ 0 := by
    obtain ⟨l, hl, hid⟩ := h
    exact fun h0 => linkCount_eq_zero.1 h0 l hl hid
  rcases ha with ⟨hna, ha⟩ | ⟨hma, pre, post, ha, ha'⟩ <;>
    rcases hb with ⟨hnb, hb⟩ | ⟨hmb, pre', post', hb, hb'⟩
  · refine .inl ⟨fun l hl => ?_, by simp [ha, hb]⟩
    exact (List.mem_append.1 hl).elim (hna l) (hnb l)
  · obtain ⟨l, hl, hid⟩ := hmb
    exact .inr ⟨⟨l, List.mem_append_right _ hl, hid⟩, views a ++ pre', post',
      by simp [hb], by simp [ha, hb']⟩
  · obtain ⟨l, hl, hid⟩ := hma
    exact .inr ⟨⟨l, List.mem_append_left _ hl, hid⟩, pre, post ++ views b,
      by simp [ha], by simp [ha', hb]⟩
  · have := hpos hma
    have := hpos hmb
    omega

theorem views_kept {c : Change} (htag : ∀ t, c.onTag t = t) {n : Node}
    (hn : c.replacement? n = none) (p : Option Nat) :
    views [⟨p, c.node n⟩] = views [⟨p, n⟩] := by
  have hid : c.KeepsIds := fun t => by rw [htag]
  have hretag : Entry.retag c.onTag = fun e => e := by
    funext e
    simp [Entry.retag, htag]
  have hown : (c.node n).own = n.own := by
    rw [own_node hn, hretag, List.map_id']
  simp [Link.bare, head_node hid hn, hown]

theorem mem_links_ofExpr (e : Expr) (p : Option Nat) :
    ⟨p, .expr e⟩ ∈ (ofExpr e).links p := by cases e <;> exact List.mem_cons_self

theorem congruent_replaceExpr (p : Option Nat) (e new : Expr) :
    (replaceExpr e.tag.id new).Congruent
      (Swapped ⟨p, .expr e⟩ ((ofExpr e).links p) ((ofExpr new).links p)) := by
  refine congruent_of_plain (fun _ _ => rfl) Swapped.nil Swapped.append (fun _ => rfl) ?_ ?_
  · intro q x y hx hspot _
    have hid : x.tag.id = e.tag.id ∧ new = y := by
      simpa [replaceExpr] using hx
    obtain ⟨hid, rfl⟩ := hid
    have hmem := mem_links_ofExpr x q
    have hlink := hspot _ hmem hid
    simp only [Link.mk.injEq, Node.expr.injEq] at hlink
    obtain ⟨rfl, rfl⟩ := hlink
    exact .inr ⟨⟨_, hmem, rfl⟩, [], [], by simp, by simp⟩
  · intro q n hn hspot _
    refine .inl ⟨?_, views_kept (fun _ => rfl) hn q⟩
    intro l hl hid
    have hlink := hspot l hl hid
    rw [List.mem_singleton] at hl
    subst hl
    simp only [Link.mk.injEq] at hlink
    simp [hlink.2, replacement?, replaceExpr] at hn

theorem congruent_replaceRun_off (owner first count : Nat) (new : Stmt) :
    (replaceRun owner first count new).Congruent
      fun a b => (∀ l ∈ a, l.id ≠ owner) → views b = views a where
  nil _ := rfl
  append ha hb hne := by
    rw [views_append, views_append, ha fun l hl => hne l (List.mem_append_left _ hl),
      hb fun l hl => hne l (List.mem_append_right _ hl)]
  id _ := rfl
  replaced _ _ _ he := by cases he
  kept p n hn _ _ := views_kept (fun _ => rfl) hn p
  owner p o hfront hrun hne := by
    rw [links_owner _ (fun _ => rfl)]
    rw [links_outline] at hne ⊢
    have hid : o.id ≠ owner := hne _ List.mem_cons_self
    have hstmts : (replaceRun owner first count new).onStmts o.id = fun ss => ss := by
      funext ss
      simp [replaceRun, hid]
    have hnode := views_kept (c := replaceRun owner first count new) (fun _ => rfl)
      (ownerless_replacement _ o) p
    have hfront := hfront fun l hl => hne l (List.mem_cons_of_mem _ (List.mem_append_left _ hl))
    have hrun := hrun fun l hl => hne l (List.mem_cons_of_mem _ (List.mem_append_right _ hl))
    simp only [views_cons, views_nil, List.cons.injEq, and_true] at hnode
    rw [views_cons, views_cons, hnode, views_append, views_append, hstmts]
    exact congrArg _ (congr (congrArg _ hfront) hrun)

theorem id_stmt {c : Change} (hid : c.KeepsIds) (s : Stmt) : (c.stmt s).tag.id = s.tag.id := by
  cases s <;> exact hid _

theorem spliceRun_append {first count : Nat} {new : Stmt} {before run after : List Stmt}
    (hbefore : ∀ s ∈ before, s.tag.id ≠ first) (hfirst : run.head?.map (·.tag.id) = some first)
    (hcount : run.length = count) :
    spliceRun first count new (before ++ run ++ after) = before ++ new :: after := by
  induction before with
  | nil =>
    cases run with
    | nil => simp at hfirst
    | cons s rest =>
      have hs : s.tag.id = first := by simpa using hfirst
      subst hcount
      simp [spliceRun, hs]
  | cons b before ih =>
    have hb := hbefore b List.mem_cons_self
    have ih := ih fun s hs => hbefore s (List.mem_cons_of_mem _ hs)
    simpa [spliceRun, hb] using ih

theorem ofStmts_append (ss ts : List Stmt) : ofStmts (ss ++ ts) = ofStmts ss ++ ofStmts ts := by
  induction ss with
  | nil => rfl
  | cons s ss ih => simp [ofStmts, ih]

theorem owner_eq_of_node {o o' : Owner} (h : o.node = o'.node) : o = o' := by
  cases o <;> cases o' <;> simp_all [Owner.node]

/-- The list of the owner after the new statement took the place of the run. -/
theorem stmts_replaceRun {o : Owner} {before run after : List Stmt} {new : Stmt} {first : Nat}
    (hsplit : o.stmts = before ++ run ++ after) (hbefore : ∀ s ∈ before, s.tag.id ≠ first)
    (hfirst : run.head?.map (·.tag.id) = some first) :
    (replaceRun o.id first run.length new).onStmts o.id
      ((replaceRun o.id first run.length new).stmts o.stmts) =
      before.map (replaceRun o.id first run.length new).stmt ++
        new :: after.map (replaceRun o.id first run.length new).stmt := by
  rw [stmts_eq_map, hsplit, List.map_append, List.map_append]
  refine (if_pos rfl).trans (spliceRun_append ?_ ?_ (by simp))
  · intro s hs
    obtain ⟨t, ht, rfl⟩ := List.mem_map.1 hs
    rw [id_stmt fun _ => rfl]
    exact hbefore t ht
  · cases run with
    | nil => simp at hfirst
    | cons s rest => simpa [id_stmt (c := replaceRun o.id first _ new) fun _ => rfl] using hfirst

/-- At the owner of a run the new statement takes the place of the run, and all else stays. -/
theorem swapped_at_owner {p : Option Nat} {o : Owner} {before run after : List Stmt} {new : Stmt}
    {first : Nat} (hsplit : o.stmts = before ++ run ++ after)
    (hbefore : ∀ s ∈ before, s.tag.id ≠ first) (hfirst : run.head?.map (·.tag.id) = some first)
    (hstmts : ∀ l ∈ linksAll (some o.id) (ofStmts o.stmts), l.id ≠ o.id)
    (hviews : views (linksAll (some o.id)
        ((replaceRun o.id first run.length new).owner o).front) =
      views (linksAll (some o.id) o.front)) :
    ∃ pre post,
      views (o.outline.links p) = pre ++ views (linksAll (some o.id) (ofStmts run)) ++ post ∧
      views (((replaceRun o.id first run.length new).owner o).outline.links p) =
        pre ++ views (linksAll (some o.id) [ofStmt new]) ++ post := by
  have hkeep (ss : List Stmt) (hss : ∀ l ∈ linksAll (some o.id) (ofStmts ss), l.id ≠ o.id) :
      views (linksAll (some o.id) (ofStmts (ss.map (replaceRun o.id first run.length new).stmt))) =
        views (linksAll (some o.id) (ofStmts ss)) := by
    rw [← stmts_eq_map]
    exact (congruent_replaceRun_off o.id first run.length new).ofStmts (some o.id) ss hss
  have hspliced := @stmts_replaceRun o before run after new first hsplit hbefore hfirst
  rw [hsplit, ofStmts_append, ofStmts_append, linksAll_append, linksAll_append] at hstmts
  have hb := hkeep before fun l hl => hstmts l (by simp [hl])
  have ha := hkeep after fun l hl => hstmts l (by simp [hl])
  have hnode := views_kept (c := replaceRun o.id first run.length new) (fun _ => rfl)
    (ownerless_replacement _ o) p
  refine ⟨views [⟨p, o.node⟩] ++ views (linksAll (some o.id) o.front) ++
    views (linksAll (some o.id) (ofStmts before)), views (linksAll (some o.id) (ofStmts after)),
    ?_, ?_⟩
  · rw [links_outline, hsplit, ofStmts_append, ofStmts_append]
    simp
  · rw [links_owner _ (fun _ => rfl), hspliced, ofStmts_append, ofStmts, ← hnode, ← hb, ← ha,
      ← hviews]
    simp

theorem congruent_replaceRun (p : Option Nat) {o : Owner} {before run after : List Stmt}
    (new : Stmt) {first : Nat} (hsplit : o.stmts = before ++ run ++ after)
    (hbefore : ∀ s ∈ before, s.tag.id ≠ first)
    (hfirst : run.head?.map (·.tag.id) = some first) :
    (replaceRun o.id first run.length new).Congruent (Swapped ⟨p, o.node⟩
      (linksAll (some o.id) (ofStmts run)) (linksAll (some o.id) [ofStmt new])) where
  nil := Swapped.nil
  append := Swapped.append
  id _ := rfl
  replaced _ _ _ he := by cases he
  kept q n hn hno hspot _ := by
    refine .inl ⟨?_, views_kept (fun _ => rfl) hn q⟩
    intro l hl hid
    have hlink := hspot l hl hid
    rw [List.mem_singleton] at hl
    subst hl
    simp only [Link.mk.injEq] at hlink
    rw [hlink.2] at hno
    cases o <;> cases hno
  owner q u hfront hrun := by
    by_cases hid : u.id = o.id
    · intro hspot hcount
      have hlink := hspot ⟨q, u.node⟩ List.mem_cons_self hid
      simp only [Link.mk.injEq] at hlink
      obtain ⟨rfl, hnode⟩ := hlink
      cases owner_eq_of_node hnode
      rw [links_outline] at hspot hcount
      simp only [linkCount_cons, linkCount_append] at hcount
      have hspots : ∀ l ∈ linksAll (some o.id) o.front, l.id = o.id → l = ⟨q, o.node⟩ :=
        fun l hl => hspot l (List.mem_cons_of_mem _ (List.mem_append_left _ hl))
      have hself : Link.id ⟨q, o.node⟩ = o.id := rfl
      simp only [hself, if_true] at hcount
      have hfree := linkCount_eq_zero.1 (by omega : linkCount o.id (linksAll (some o.id) o.front) = 0)
      have hstmts := linkCount_eq_zero.1
        (by omega : linkCount o.id (linksAll (some o.id) (ofStmts o.stmts)) = 0)
      have hviews : views (linksAll (some o.id)
          ((replaceRun o.id first run.length new).owner o).front) =
          views (linksAll (some o.id) o.front) := by
        rcases hfront hspots (by rw [hself]; omega) with ⟨_, h⟩ | ⟨⟨l, hl, h⟩, _⟩
        · exact h
        · exact absurd h (hfree l hl)
      exact .inr ⟨⟨⟨q, o.node⟩, List.mem_cons_self, rfl⟩,
        swapped_at_owner hsplit hbefore hfirst hstmts hviews⟩
    · have hself : Swapped ⟨p, o.node⟩ (linksAll (some o.id) (ofStmts run))
          (linksAll (some o.id) [ofStmt new]) [⟨q, u.node⟩]
          [⟨q, (replaceRun o.id first run.length new).node u.node⟩] := by
        refine fun _ _ => .inl ⟨fun l hl => ?_,
          views_kept (fun _ => rfl) (ownerless_replacement _ u) q⟩
        rw [List.mem_singleton] at hl
        subst hl
        exact hid
      have hstmts : (replaceRun o.id first run.length new).onStmts u.id = fun ss => ss := by
        funext ss
        simp [replaceRun, hid]
      rw [links_owner _ (fun _ => rfl), hstmts, links_outline]
      exact Swapped.append hself (Swapped.append hfront hrun)

end Change

end FuncLift
