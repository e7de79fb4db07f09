import FuncLift.Proofs.Tiled
import Mathlib.Data.List.Chain

/-!
# Where tokens start

A token starts with a character that is no blank. Only the semicolon of a line end does not: it stands
in front of the line end, or at the end of the text. So no token stands between two comments of one
group, and a group of comments lies before a token or behind it.
-/
namespace FuncLift

theorem Lexeme.atFront_ink (c : Char) (cs : List Char) : (Lexeme.atFront c cs).1 = .blank ∨
    (Lexeme.atFront c cs).1 = .newline ∨ LooseComment.isGapBlank c = false := by
  by_cases hspace : Lexeme.isSpace c = true
  · exact .inl (by simp [Lexeme.atFront, hspace])
  by_cases hline : Lexeme.isLineEnd c = true
  · have hend : c = '\n' ∨ c = '\r' := by simpa [Lexeme.isLineEnd] using hline
    rcases hend with rfl | rfl <;> exact .inr (.inl rfl)
  · exact .inr (.inr (by simp [LooseComment.isGapBlank, hspace, hline]))

namespace Placed

variable {p : Placed} {lo : Nat} {cs ds : List Char}

/-- A token may start with a character. -/
structure Leads (p : Placed) (c : Char) : Prop where
  lineEnd : Read.isLineEnd p = true → Lexeme.isLineEnd c = true
  other : Read.isLineEnd p = false → LooseComment.isGapBlank c = false

/-- A token starts in a part of a text that starts at an offset. -/
def StartsIn (p : Placed) (lo : Nat) (cs : List Char) : Prop :=
  ∃ a c b, cs = a ++ c :: b ∧ p.span.start = lo + byteSize a ∧ p.Leads c

theorem StartsIn.append (h : p.StartsIn lo cs) (ds : List Char) : p.StartsIn lo (cs ++ ds) := by
  obtain ⟨a, c, b, rfl, hstart, hlead⟩ := h
  exact ⟨a, c, b ++ ds, by simp, hstart, hlead⟩

theorem StartsIn.behind (h : p.StartsIn (lo + byteSize cs) ds) : p.StartsIn lo (cs ++ ds) := by
  obtain ⟨a, c, b, rfl, hstart, hlead⟩ := h
  exact ⟨cs ++ a, c, b, by simp, by rw [hstart, byteSize_append, Nat.add_assoc], hlead⟩

end Placed

namespace Scan

theorem startsIn_lineEnd {line : Line} {lo : Nat} {a b : List Char} {c : Char}
    (hc : Lexeme.isLineEnd c = true) {p : Placed} (hp : p ∈ (lineEnd line (lo + byteSize a)).tokens) :
    p.StartsIn lo (a ++ c :: b) := by
  unfold lineEnd at hp
  split at hp
  · obtain rfl := List.mem_singleton.1 hp
    exact ⟨a, c, b, rfl, rfl, ⟨fun _ => hc, fun h => by simp [Read.isLineEnd] at h⟩⟩
  · cases hp

theorem startsIn_ofLexeme (line : Line) (offset : Nat) {lexeme : Lexeme} {c : Char} {cs : List Char}
    (htext : lexeme.text = c :: cs) (hgaps : Lexeme.Gaps lexeme.kind lexeme.text)
    (hink : lexeme.kind = .blank ∨ lexeme.kind = .newline ∨ LooseComment.isGapBlank c = false) :
    ∀ p ∈ (ofLexeme line offset lexeme).1.tokens, p.StartsIn offset lexeme.text := by
  have hpos : 0 < byteSize lexeme.text := byteSize_pos (htext ▸ List.cons_ne_nil c cs)
  have hreal (hblank : lexeme.kind ≠ .blank) (hline : lexeme.kind ≠ .newline) (t : Token) :
      Placed.StartsIn ⟨t, offset, offset + byteSize lexeme.text⟩ offset lexeme.text := by
    have hc := (hink.resolve_left hblank).resolve_left hline
    have hspan : Read.isLineEnd ⟨t, offset, offset + byteSize lexeme.text⟩ = false := by
      simp [Read.isLineEnd]
      omega
    exact ⟨[], c, cs, htext, rfl, ⟨fun h => by simp [hspan] at h, fun _ => hc⟩⟩
  unfold ofLexeme
  dsimp only
  split
  · exact fun p hp => absurd hp List.not_mem_nil
  · rename_i hkind
    intro p hp
    have hc : Lexeme.isLineEnd c = true := hgaps.newline hkind c (htext ▸ List.mem_cons_self)
    rw [htext]
    exact startsIn_lineEnd (a := []) hc hp
  · exact fun p hp => absurd hp List.not_mem_nil
  · split
    · exact fun p hp => absurd hp List.not_mem_nil
    · rename_i hbreak
      intro p hp
      -- the comment goes on behind its first line, so there is a line end behind that
      have hsplit := List.takeWhile_append_dropWhile (p := fun c => !Lexeme.isLineEnd c) (l := lexeme.text)
      cases hrest : lexeme.text.dropWhile fun c => !Lexeme.isLineEnd c with
      | nil =>
        rw [hrest, List.append_nil] at hsplit
        exact absurd (congrArg List.length hsplit) hbreak
      | cons d rest =>
        have hd : Lexeme.isLineEnd d = true := by
          have hstop := List.head?_dropWhile_not (fun c => !Lexeme.isLineEnd c) lexeme.text
          rw [hrest] at hstop
          simpa using hstop
        rw [hrest] at hsplit
        have hend : p ∈ (lineEnd line (offset + byteSize
          (lexeme.text.takeWhile fun c => !Lexeme.isLineEnd c))).tokens := hp
        have hstarts := startsIn_lineEnd (b := rest) hd hend
        rwa [hsplit] at hstarts
  · rename_i hkind
    intro p hp
    obtain rfl : p = ⟨.invalid, offset, offset + byteSize lexeme.text⟩ := by
      simpa [append, fault] using hp
    exact hreal (by simp [hkind]) (by simp [hkind]) _
  · rename_i hkind
    split
    · exact fun p hp => absurd hp List.not_mem_nil
    · intro p hp
      obtain rfl := List.mem_singleton.1 hp
      exact hreal (by simp [hkind]) (by simp [hkind]) _
  · rename_i hblank hline _ _ _ _
    intro p hp
    split at hp
    · obtain rfl := List.mem_singleton.1 hp
      exact hreal hblank hline _
    · obtain rfl := List.mem_singleton.1 hp
      exact hreal hblank hline _

theorem startsIn_ofLexemes (line : Line) (offset : Nat) (cs : List Char) :
    ∀ p ∈ (ofLexemes line offset (Lexeme.all cs)).tokens,
      p.StartsIn offset cs ∨ p.span.start = offset + byteSize cs := by
  fun_induction Lexeme.all cs generalizing line offset with
  | case1 =>
    intro p hp
    rw [ofLexemes, lineEnd] at hp
    split at hp
    · obtain rfl := List.mem_singleton.1 hp
      exact .inr rfl
    · cases hp
  | case2 c cs kind n hfront ih =>
    have hgaps := Lexeme.atFront_gaps c cs
    have hink := Lexeme.atFront_ink c cs
    rw [hfront] at hgaps hink
    have hsplit : c :: cs = (c :: cs.take n) ++ cs.drop n := by simp
    have hhere : ∀ p ∈ (ofLexeme line offset ⟨kind, c :: cs.take n⟩).1.tokens,
        p.StartsIn offset (c :: cs.take n) := startsIn_ofLexeme line offset rfl hgaps hink
    intro p hp
    rw [ofLexemes] at hp
    rw [hsplit]
    rcases List.mem_append.1 hp with hp | hp
    · exact .inl ((hhere p hp).append _)
    · rcases ih _ _ p hp with hp | hp
      · exact .inl hp.behind
      · refine .inr ?_
        rw [hp, byteSize_append, Nat.add_assoc]

end Scan

/-- A token of a text starts at a character, or at the end of the text. -/
theorem scan_startsIn (text : String) : ∀ p ∈ (scan text).tokens,
    p.StartsIn 0 text.toList ∨ p.span.start = byteSize text.toList := by
  intro p hp
  have h := Scan.startsIn_ofLexemes .start 0 text.toList p hp
  rwa [Nat.zero_add] at h

namespace LooseComment

/-- Nothing but blanks stands between two comments. -/
def Adjoins (source : List Char) (a b : LooseComment) : Prop :=
  ∀ c ∈ sliceBytes source a.span.stop b.span.start, isGapBlank c = true

theorem adjoins_of_joins {source : List Char} {trailing : Bool} {a b : LooseComment}
    (h : joins source trailing a b = true) : Adjoins source a b := by
  simp only [joins, Bool.and_eq_true] at h
  exact List.all_eq_true.1 h.1

theorem isChain_groupsAfter (source : List Char) (trailing : Bool) (last : LooseComment)
    (cs : List LooseComment) : List.IsChain (Adjoins source)
      (last :: (groupsAfter source trailing last cs).1) ∧
        ∀ g ∈ (groupsAfter source trailing last cs).2, g.IsChain (Adjoins source) := by
  induction cs generalizing trailing last with
  | nil => exact ⟨.singleton last, fun g hg => absurd hg List.not_mem_nil⟩
  | cons c cs ih =>
    rw [groupsAfter]
    split
    · rename_i hjoins
      obtain ⟨hrest, hgroups⟩ := ih trailing c
      exact ⟨.cons_cons (adjoins_of_joins hjoins) hrest, hgroups⟩
    · obtain ⟨hrest, hgroups⟩ := ih (!c.ownLine) c
      exact ⟨.singleton last, List.forall_mem_cons.2 ⟨hrest, hgroups⟩⟩

theorem isChain_of_mem_groups {source : List Char} {cs g : List LooseComment}
    (hg : g ∈ groups source cs) : g.IsChain (Adjoins source) := by
  cases cs with
  | nil => cases hg
  | cons c cs =>
    obtain ⟨hrest, hgroups⟩ := isChain_groupsAfter source (!c.ownLine) c cs
    rcases List.mem_cons.1 hg with rfl | hg
    · exact hrest
    · exact hgroups g hg

theorem Adjoins.spare {source : List Char} {a b : LooseComment} {p : Placed}
    (h : Adjoins source a b) (ha : Under 0 source a.span a.text.toList) (hp : p.StartsIn 0 source)
    (hreal : Read.isLineEnd p = false) (hle : a.span.stop ≤ p.span.start) :
    b.span.start ≤ p.span.start := by
  refine Nat.le_of_not_lt fun hlt => ?_
  obtain ⟨front, behind, hsource, hspan⟩ := ha
  obtain ⟨before, c, after, hsplit, hstart, hlead⟩ := hp
  have hstop : a.span.stop = byteSize (front ++ a.text.toList) := by
    rw [hspan, byteSize_append, Nat.zero_add]
  rw [Nat.zero_add] at hstart
  obtain ⟨gap, hbefore⟩ : ∃ gap, before = front ++ a.text.toList ++ gap := by
    rcases List.append_eq_append_iff.1 (hsource.symm.trans hsplit) with ⟨w, hw, _⟩ | ⟨w, hw, _⟩
    · exact ⟨w, hw⟩
    · -- the comment would end behind the character, unless nothing is in between
      have hnone : byteSize w = 0 := by
        have hsize := congrArg byteSize hw
        rw [byteSize_append before w] at hsize
        omega
      have hnil : w = [] := by
        by_contra hne
        exact absurd (byteSize_pos hne) (by omega)
      rw [hnil, List.append_nil] at hw
      exact ⟨[], by rw [List.append_nil, hw]⟩
  have hsize := congrArg byteSize hbefore
  rw [byteSize_append] at hsize
  obtain ⟨n, hn⟩ : ∃ n, b.span.start - a.span.stop = byteSize gap + (n + 1) :=
    ⟨b.span.start - p.span.start - 1, by omega⟩
  have hmem : c ∈ sliceBytes source a.span.stop b.span.start := by
    rw [sliceBytes, hn, hsplit, hbefore, hstop, List.append_assoc, dropBytes_append, takeBytes_append]
    simp [takeBytes]
  have hblank := h c hmem
  rw [hlead.other hreal] at hblank
  cases hblank

end LooseComment

theorem Scan.comment_mem_tiles {s : Scan} {c : LooseComment} (hc : c ∈ s.comments) :
    Tile.comment c ∈ s.tiles :=
  (List.mergeSort_perm _ _).mem_iff.2 (List.mem_append_left _ (List.mem_map_of_mem hc))

theorem Scan.token_mem_tiles {s : Scan} {p : Placed} (hp : p ∈ s.tokens)
    (hreal : Read.isLineEnd p = false) : Tile.token p ∈ s.tiles :=
  (List.mergeSort_perm _ _).mem_iff.2 (List.mem_append_right _
    (List.mem_map_of_mem (List.mem_filter.2 ⟨hp, by simp [hreal]⟩)))

theorem Scan.Tiles.comment_apart {text : List Char} {s : Scan} (h : s.Tiles text)
    (hfaults : s.faults = []) {c : LooseComment} (hc : c ∈ s.comments) {p : Placed}
    (hp : p ∈ s.tokens) (hreal : Read.isLineEnd p = false) :
    p.span.start < c.span.start ∨ c.span.stop ≤ p.span.start := by
  have htoken := token_mem_tiles hp hreal
  have hfilled := (h.filled _ htoken).1
  have htwins (a b : Tile) : ¬s.Twins a b := by
    rintro ⟨_, _, _, hfault, _⟩
    rw [hfaults] at hfault
    cases hfault
  obtain ⟨before, after, hsplit⟩ := List.append_of_mem (comment_mem_tiles hc)
  have hapart := h.apart
  rw [hsplit, List.pairwise_append, List.pairwise_cons] at hapart
  obtain ⟨_, ⟨hafter, _⟩, hbefore⟩ := hapart
  rw [hsplit] at htoken
  rcases List.mem_append.1 htoken with htoken | htoken
  · have hle := (hbefore _ htoken _ List.mem_cons_self).resolve_right (htwins _ _)
    exact .inl (Nat.lt_of_lt_of_le hfilled hle)
  · rcases List.mem_cons.1 htoken with heq | htoken
    · cases heq
    · exact .inr ((hafter _ htoken).resolve_right (htwins _ _))

theorem scan_group_apart {text : String} (hfaults : (scan text).faults = []) {g : List LooseComment}
    (hg : g ∈ LooseComment.groups text.toList (scan text).comments) {p : Placed}
    (hp : p ∈ (scan text).tokens) (hreal : Read.isLineEnd p = false)
    {first last : LooseComment} (hfirst : g.head? = some first) (hlast : g.getLast? = some last) :
    p.span.start < first.span.start ∨ last.span.stop ≤ p.span.start := by
  have hspelled := scan_spelled text
  have hin {c : LooseComment} (hc : c ∈ g) := LooseComment.mem_of_mem_groups hg hc
  have happly {c : LooseComment} (hc : c ∈ g) :=
    (tiles_scan text).comment_apart hfaults (hin hc) hp hreal
  have hchain := LooseComment.isChain_of_mem_groups hg
  rcases scan_startsIn text p hp with hstarts | hend
  · clear hg
    induction hchain generalizing first with
    | nil => cases hfirst
    | singleton c =>
      cases hfirst
      cases hlast
      exact happly List.mem_cons_self
    | @cons_cons c d rest hadjoins _ ih =>
      cases hfirst
      rw [List.getLast?_cons_cons] at hlast
      rcases ih rfl hlast (fun hc => hin (List.mem_cons_of_mem _ hc))
        (fun hc => happly (List.mem_cons_of_mem _ hc)) with hlt | hle
      · rcases happly List.mem_cons_self with hbefore | hbehind
        · exact .inl hbefore
        · have := hadjoins.spare (hspelled.comments c (hin List.mem_cons_self)) hstarts hreal hbehind
          omega
      · exact .inr hle
  · refine .inr ?_
    rw [hend]
    exact ((tiles_scan text).filled _ (Scan.comment_mem_tiles (hin (List.mem_of_getLast? hlast)))).2

end FuncLift
