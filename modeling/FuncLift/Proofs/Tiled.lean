import FuncLift.Proofs.Semicolons
import FuncLift.Proofs.Upright

/-!
# Tokens and comments tile the text

Every lexeme is a token, a comment or a piece of the gaps, so tokens and comments stand one behind
the other and leave nothing but blanks between them. One lexeme counts twice: a comment that does not
end is a comment and an invalid token.
-/
namespace FuncLift

/-- A token or a comment. -/
inductive Tile where
  | token (p : Placed)
  | comment (c : LooseComment)
deriving DecidableEq, Repr

def Tile.span : Tile → Span
  | .token p => p.span
  | .comment c => c.span

namespace Scan

/-- The comments and the tokens, without the semicolons that line ends stand for. -/
def pieces (s : Scan) : List Tile :=
  s.comments.map .comment ++ (s.tokens.filter fun p => !Read.isLineEnd p).map .token

/-- Comments and tokens by their starts. -/
def tiles (s : Scan) : List Tile := s.pieces.mergeSort fun a b => decide (a.span.start ≤ b.span.start)

/-- A block comment that does not end, and the invalid token that stands for it. -/
def Twins (s : Scan) (a b : Tile) : Prop :=
  ∃ c ∈ s.comments, c.kind = .block ∧ (.unterminatedComment, c.span) ∈ s.faults ∧
    (a = .comment c ∧ b = .token ⟨.invalid, c.span⟩ ∨ b = .comment c ∧ a = .token ⟨.invalid, c.span⟩)

/-- What a scan of a text is like. -/
structure Tiles (text : List Char) (s : Scan) : Prop where
  filled : ∀ x ∈ s.tiles, x.span.start < x.span.stop ∧ x.span.stop ≤ byteSize text
  apart : s.tiles.Pairwise fun a b => a.span.stop ≤ b.span.start ∨ s.Twins a b
  /-- A comment that does not end is there both ways. -/
  twice : ∀ span, (.unterminatedComment, span) ∈ s.faults →
    ⟨.invalid, span⟩ ∈ s.tokens ∧ ∃ c ∈ s.comments, c.kind = .block ∧ c.span = span
  /-- A character is part of a tile, or a blank, or a byte order mark in front of the text. -/
  whole : ∀ a c b, text = a ++ c :: b →
    (∃ x ∈ s.tiles, x.span.start ≤ byteSize a ∧ byteSize (a ++ [c]) ≤ x.span.stop) ∨
      Lexeme.isSpace c = true ∨ Lexeme.isLineEnd c = true ∨ c = '\uFEFF' ∧ a = []
  /-- No token starts before the one in front of it ends, be it only the semicolon of a line end. -/
  ordered : s.tokens.Pairwise fun p q => p.span.stop ≤ q.span.start
  faulty : (s.tokens.filter fun p => p.token == .invalid).map Placed.span = s.faults.map Prod.snd

/-- Two tiles of which none reaches into the other, unless they are one lexeme. -/
def Apart (s : Scan) (a b : Tile) : Prop :=
  a.span.stop ≤ b.span.start ∨ b.span.stop ≤ a.span.start ∨ s.Twins a b

theorem Twins.symm {s : Scan} {a b : Tile} (h : s.Twins a b) : s.Twins b a := by
  obtain ⟨c, hc, hkind, hfault, hab⟩ := h
  exact ⟨c, hc, hkind, hfault, hab.symm⟩

theorem Apart.symm {s : Scan} {a b : Tile} (h : s.Apart a b) : s.Apart b a := by
  rcases h with h | h | h
  · exact .inr (.inl h)
  · exact .inl h
  · exact .inr (.inr h.symm)

theorem Apart.mono {s t : Scan} (hcomments : ∀ c ∈ s.comments, c ∈ t.comments)
    (hfaults : ∀ f ∈ s.faults, f ∈ t.faults) {a b : Tile} (h : s.Apart a b) : t.Apart a b := by
  refine h.imp_right fun h => h.imp_right fun ⟨c, hc, hkind, hfault, hab⟩ => ?_
  exact ⟨c, hcomments c hc, hkind, hfaults _ hfault, hab⟩

theorem pieces_append (s t : Scan) : (s.append t).pieces.Perm (s.pieces ++ t.pieces) := by
  have hmiddle : (t.comments.map Tile.comment ++
      (s.tokens.filter fun p => !Read.isLineEnd p).map Tile.token).Perm
        ((s.tokens.filter fun p => !Read.isLineEnd p).map Tile.token ++
          t.comments.map Tile.comment) := List.perm_append_comm
  have hwhole := (hmiddle.append_right
    ((t.tokens.filter fun p => !Read.isLineEnd p).map Tile.token)).append_left
      (s.comments.map Tile.comment)
  simpa [pieces, append] using hwhole

/-- What a part of a text that starts at an offset contributes. -/
structure Covers (lo : Nat) (cs : List Char) (s : Scan) : Prop where
  filled : ∀ x ∈ s.pieces,
    lo ≤ x.span.start ∧ x.span.start < x.span.stop ∧ x.span.stop ≤ lo + byteSize cs
  apart : s.pieces.Pairwise s.Apart
  twice : ∀ span, (.unterminatedComment, span) ∈ s.faults →
    ⟨.invalid, span⟩ ∈ s.tokens ∧ ∃ c ∈ s.comments, c.kind = .block ∧ c.span = span
  whole : ∀ a c b, cs = a ++ c :: b →
    (∃ x ∈ s.pieces, x.span.start ≤ lo + byteSize a ∧ lo + byteSize (a ++ [c]) ≤ x.span.stop) ∨
      Lexeme.isSpace c = true ∨ Lexeme.isLineEnd c = true ∨ c = '\uFEFF' ∧ lo + byteSize a = 0
  faulty : (s.tokens.filter fun p => p.token == .invalid).map Placed.span = s.faults.map Prod.snd

namespace Covers

variable {lo : Nat} {cs ds : List Char} {s t : Scan}

theorem append (hs : Covers lo cs s) (ht : Covers (lo + byteSize cs) ds t) :
    Covers lo (cs ++ ds) (s.append t) := by
  have hperm := pieces_append s t
  have hmem {x : Tile} : x ∈ (s.append t).pieces ↔ x ∈ s.pieces ∨ x ∈ t.pieces := by
    rw [hperm.mem_iff, List.mem_append]
  refine ⟨fun x hx => ?_, ?_, fun span h => ?_, fun a c b hsplit => ?_, ?_⟩
  · rw [byteSize_append]
    rcases hmem.1 hx with hx | hx
    · have := hs.filled x hx
      omega
    · have := ht.filled x hx
      omega
  · refine (hperm.pairwise_iff Apart.symm).2 (List.pairwise_append.2 ⟨?_, ?_, fun a ha b hb => ?_⟩)
    · exact hs.apart.imp (Apart.mono (fun _ => List.mem_append_left _) fun _ => List.mem_append_left _)
    · exact ht.apart.imp (Apart.mono (fun _ => List.mem_append_right _) fun _ => List.mem_append_right _)
    · exact .inl (Nat.le_trans (hs.filled a ha).2.2 (ht.filled b hb).1)
  · rcases List.mem_append.1 h with h | h
    · obtain ⟨htoken, c, hc, hcomment⟩ := hs.twice span h
      exact ⟨List.mem_append_left _ htoken, c, List.mem_append_left _ hc, hcomment⟩
    · obtain ⟨htoken, c, hc, hcomment⟩ := ht.twice span h
      exact ⟨List.mem_append_right _ htoken, c, List.mem_append_right _ hc, hcomment⟩
  · have hbehind {w : List Char} (ha : a = cs ++ w) (hds : ds = w ++ c :: b) :
        (∃ x ∈ (s.append t).pieces, x.span.start ≤ lo + byteSize a ∧
          lo + byteSize (a ++ [c]) ≤ x.span.stop) ∨
        Lexeme.isSpace c = true ∨ Lexeme.isLineEnd c = true ∨ c = '\uFEFF' ∧ lo + byteSize a = 0 := by
      subst ha
      rw [List.append_assoc, byteSize_append, byteSize_append cs, ← Nat.add_assoc, ← Nat.add_assoc]
      exact (ht.whole w c b hds).imp_left fun ⟨x, hx, hspan⟩ => ⟨x, hmem.2 (.inr hx), hspan⟩
    rcases List.append_eq_append_iff.1 hsplit with ⟨w, ha, hds⟩ | ⟨w, rfl, hcs⟩
    · exact hbehind ha hds
    · cases w with
      | nil => exact hbehind (w := []) (by simp) (by simpa using hcs.symm)
      | cons d w =>
        obtain ⟨rfl, _⟩ := List.cons.inj hcs
        exact (hs.whole a c w rfl).imp_left fun ⟨x, hx, hspan⟩ => ⟨x, hmem.2 (.inl hx), hspan⟩
  · simp only [Scan.append, List.filter_append, List.map_append, hs.faulty, ht.faulty]

theorem ofGap (hpieces : s.pieces = []) (htokens : s.tokens.filter (fun p => p.token == .invalid) = [])
    (hfaults : s.faults = []) (h : ∀ a c b, cs = a ++ c :: b → Lexeme.isSpace c = true ∨
      Lexeme.isLineEnd c = true ∨ c = '\uFEFF' ∧ lo + byteSize a = 0) : Covers lo cs s := by
  refine ⟨by simp [hpieces], by simp [hpieces], by simp [hfaults], fun a c b hsplit => ?_, ?_⟩
  · exact .inr (h a c b hsplit)
  · rw [htokens, hfaults]
    rfl

theorem ofTile (hne : cs ≠ []) {x : Tile} (hx : x ∈ s.pieces)
    (hspan : ∀ y ∈ s.pieces, y.span = ⟨lo, lo + byteSize cs⟩) (hapart : s.pieces.Pairwise s.Apart)
    (htwice : ∀ span, (.unterminatedComment, span) ∈ s.faults →
      ⟨.invalid, span⟩ ∈ s.tokens ∧ ∃ c ∈ s.comments, c.kind = .block ∧ c.span = span)
    (hfaulty : (s.tokens.filter fun p => p.token == .invalid).map Placed.span =
      s.faults.map Prod.snd) : Covers lo cs s := by
  have hpos := byteSize_pos hne
  refine ⟨fun y hy => ?_, hapart, htwice, fun a c b hsplit => .inl ⟨x, hx, ?_⟩, hfaulty⟩
  · rw [hspan y hy]
    exact ⟨Nat.le_refl _, Nat.lt_add_of_pos_right hpos, Nat.le_refl _⟩
  · have hsize : byteSize cs = byteSize (a ++ [c]) + byteSize b := by
      rw [hsplit, ← byteSize_append, List.append_assoc]
      rfl
    rw [hspan x hx]
    dsimp only
    omega

end Covers

theorem pieces_lineEnd (line : Line) (offset : Nat) : (lineEnd line offset).pieces = [] := by
  unfold lineEnd
  split <;> simp [pieces, token, none, Read.isLineEnd]

theorem covers_lineEnd (line : Line) (lo offset : Nat) (cs : List Char)
    (h : ∀ c ∈ cs, Lexeme.isLineEnd c = true) : Covers lo cs (lineEnd line offset) := by
  refine .ofGap (pieces_lineEnd line offset) ?_ ?_ fun a c b hsplit => ?_
  · unfold lineEnd
    split <;> simp [token, none]
  · unfold lineEnd
    split <;> rfl
  · exact .inr (.inl (h c (by simp [hsplit])))

theorem covers_none {lo : Nat} {cs : List Char} (h : ∀ a c b, cs = a ++ c :: b →
    Lexeme.isSpace c = true ∨ c = '\uFEFF' ∧ lo + byteSize a = 0) : Covers lo cs none :=
  .ofGap rfl rfl rfl fun a c b hsplit => (h a c b hsplit).imp_right .inr

theorem covers_comment {lo : Nat} {cs : List Char} (hne : cs ≠ []) (kind : CommentKind)
    (line : Line) : Covers lo cs ⟨[], [], [comment kind cs ⟨lo, lo + byteSize cs⟩ line]⟩ :=
  .ofTile hne (List.mem_singleton.2 rfl) (by simp [pieces, comment, Tile.span]) (by simp [pieces])
    (by simp) rfl

theorem covers_token {lo : Nat} {cs : List Char} (hne : cs ≠ []) {t : Token} (ht : t ≠ .invalid) :
    Covers lo cs (token t ⟨lo, lo + byteSize cs⟩) := by
  have hpos := byteSize_pos hne
  have hpieces : (token t ⟨lo, lo + byteSize cs⟩).pieces = [.token ⟨t, lo, lo + byteSize cs⟩] := by
    have hreal : Read.isLineEnd ⟨t, lo, lo + byteSize cs⟩ = false := by
      simp [Read.isLineEnd]
      omega
    simp [pieces, token, hreal]
  refine .ofTile hne (x := .token ⟨t, lo, lo + byteSize cs⟩) ?_ ?_ ?_ ?_ ?_
  · simp [hpieces]
  · simp [hpieces, Tile.span]
  · simp [hpieces]
  · simp [token]
  · simp [token, ht]

theorem covers_fault {lo : Nat} {cs : List Char} (hne : cs ≠ []) {f : LexFault}
    (hf : f ≠ .unterminatedComment) : Covers lo cs (fault f ⟨lo, lo + byteSize cs⟩) := by
  have hpieces : (fault f ⟨lo, lo + byteSize cs⟩).pieces =
      [.token ⟨.invalid, lo, lo + byteSize cs⟩] := by simp [pieces, fault, Read.isLineEnd]
  refine .ofTile hne (x := .token ⟨.invalid, lo, lo + byteSize cs⟩) ?_ ?_ ?_ ?_ ?_
  · simp [hpieces]
  · simp [hpieces, Tile.span]
  · simp [hpieces]
  · simp [fault, hf.symm]
  · simp [fault]

theorem covers_openComment {lo : Nat} {cs : List Char} (hne : cs ≠ []) (line : Line) :
    Covers lo cs ((⟨[], [], [comment .block cs ⟨lo, lo + byteSize cs⟩ line]⟩ : Scan).append
      (fault .unterminatedComment ⟨lo, lo + byteSize cs⟩)) := by
  have hpieces : ((⟨[], [], [comment .block cs ⟨lo, lo + byteSize cs⟩ line]⟩ : Scan).append
      (fault .unterminatedComment ⟨lo, lo + byteSize cs⟩)).pieces =
      [.comment (comment .block cs ⟨lo, lo + byteSize cs⟩ line),
        .token ⟨.invalid, lo, lo + byteSize cs⟩] := by simp [pieces, fault, append, Read.isLineEnd]
  refine .ofTile hne (x := .token ⟨.invalid, lo, lo + byteSize cs⟩) ?_ ?_ ?_ ?_ ?_
  · simp [hpieces]
  · rw [hpieces]
    simp [Tile.span, comment]
  · rw [hpieces]
    refine List.pairwise_pair.2 (.inr (.inr ⟨_, List.mem_singleton.2 rfl, rfl, ?_, .inl ⟨rfl, rfl⟩⟩))
    exact List.mem_singleton.2 rfl
  · simp [fault, append, comment]
  · simp [fault, append]

theorem read_error {kind : LexemeKind} {text : List Char} {f : LexFault}
    (h : read kind text = .error f) : f ≠ .unterminatedComment := by
  unfold read at h
  dsimp only at h
  repeat' split at h
  all_goals cases h
  all_goals simp

theorem covers_ofLexeme (line : Line) (offset : Nat) (lexeme : Lexeme) (hne : lexeme.text ≠ [])
    (hgaps : Lexeme.Gaps lexeme.kind lexeme.text) :
    Covers offset lexeme.text (ofLexeme line offset lexeme).1 := by
  unfold ofLexeme
  dsimp only
  split
  · exact covers_none fun a c b hsplit => .inl (hgaps.blank ‹_› c (by simp [hsplit]))
  · exact covers_lineEnd line offset offset lexeme.text (hgaps.newline ‹_›)
  · exact covers_comment hne .line line
  · split
    · exact covers_comment hne .block line
    · have hend := covers_lineEnd line (offset + byteSize lexeme.text)
        (offset + byteSize (lexeme.text.takeWhile fun c => !Lexeme.isLineEnd c)) [] (by simp)
      have hboth := (covers_comment hne .block line).append hend
      rwa [List.append_nil] at hboth
  · exact covers_openComment hne line
  · split
    · rename_i hkind hzero
      refine covers_none fun a c b hsplit => .inr ?_
      rw [hgaps.byteOrderMark hkind] at hsplit
      rcases List.cons_eq_append_iff.1 hsplit with ⟨rfl, hrest⟩ | ⟨a, _, hrest⟩
      · exact ⟨(List.cons.inj hrest).1, by simp [hzero, byteSize]⟩
      · simp at hrest
    · exact covers_fault hne (by simp)
  · split
    · rename_i t hread
      refine covers_token hne ?_
      rintro rfl
      rcases read_ok hread with h | ⟨k, h⟩ | ⟨p, _, h⟩ <;> cases h
    · exact covers_fault hne (read_error ‹_›)

theorem covers_ofLexemes (line : Line) (offset : Nat) (cs : List Char) :
    Covers offset cs (ofLexemes line offset (Lexeme.all cs)) := by
  fun_induction Lexeme.all cs generalizing line offset with
  | case1 => exact covers_lineEnd line offset offset [] (by simp)
  | case2 c cs kind n hfront ih =>
    have hgaps := Lexeme.atFront_gaps c cs
    rw [hfront] at hgaps
    have hsplit : c :: cs = (c :: cs.take n) ++ cs.drop n := by simp
    have hhere := covers_ofLexeme line offset ⟨kind, c :: cs.take n⟩
      (List.cons_ne_nil _ _) hgaps
    rw [ofLexemes, hsplit]
    exact hhere.append (ih _ _)

end Scan

theorem Runs.pairwise {lo hi : Nat} {ps : List Placed} (h : Runs lo ps hi) :
    ps.Pairwise fun p q => p.span.stop ≤ q.span.start := by
  have hbehind {lo : Nat} {ps : List Placed} (h : Runs lo ps hi) : ∀ p ∈ ps, lo ≤ p.span.start := by
    induction ps generalizing lo with
    | nil => simp
    | cons p ps ih =>
      obtain ⟨hlo, hp, _, hps⟩ := h
      exact List.forall_mem_cons.2 ⟨hlo, ih (hps.mono (Nat.le_trans hlo hp))⟩
  induction ps generalizing lo with
  | nil => exact .nil
  | cons p ps ih => exact .cons (hbehind h.2.2.2) (ih h.2.2.2)

/-- Tokens and comments of a text are in its bounds, none of them empty, each behind the last unless
it is the other half of a comment that does not end. They leave only blanks out, and faults are the
invalid tokens. -/
theorem tiles_scan (text : String) : (scan text).Tiles text.toList := by
  have hcovers : Scan.Covers 0 text.toList (scan text) := Scan.covers_ofLexemes .start 0 text.toList
  have hperm : (scan text).tiles.Perm (scan text).pieces := List.mergeSort_perm _ _
  have hmem {x : Tile} : x ∈ (scan text).tiles ↔ x ∈ (scan text).pieces := hperm.mem_iff
  have hsorted : (scan text).tiles.Pairwise fun a b => a.span.start ≤ b.span.start := by
    have htrans (a b c : Tile) (hab : decide (a.span.start ≤ b.span.start) = true)
        (hbc : decide (b.span.start ≤ c.span.start) = true) :
        decide (a.span.start ≤ c.span.start) = true := by
      simp only [decide_eq_true_eq] at hab hbc ⊢
      omega
    have htotal (a b : Tile) : (decide (a.span.start ≤ b.span.start) ||
        decide (b.span.start ≤ a.span.start)) = true := by
      simp only [Bool.or_eq_true, decide_eq_true_eq]
      omega
    exact (List.pairwise_mergeSort htrans htotal _).imp of_decide_eq_true
  have hfilled : ∀ x ∈ (scan text).tiles,
      x.span.start < x.span.stop ∧ x.span.stop ≤ byteSize text.toList := by
    intro x hx
    have h := hcovers.filled x (hmem.1 hx)
    omega
  have hapart := (hperm.pairwise_iff Scan.Apart.symm).2 hcovers.apart
  refine ⟨hfilled, ?_, hcovers.twice, fun a c b hsplit => ?_, ?_, hcovers.faulty⟩
  · -- of two tiles the first in order starts first, so it is the second that lies behind
    refine (hsorted.and hapart).imp_of_mem fun {a b} ha hb ⟨hle, hab⟩ => ?_
    rcases hab with hab | hab | htwins
    · exact .inl hab
    · have := (hfilled b hb).1
      omega
    · exact .inr htwins
  · rcases hcovers.whole a c b hsplit with ⟨x, hx, hspan⟩ | hspace | hline | ⟨hmark, hzero⟩
    · exact .inl ⟨x, hmem.2 hx, by simpa using hspan⟩
    · exact .inr (.inl hspace)
    · exact .inr (.inr (.inl hline))
    · refine .inr (.inr (.inr ⟨hmark, ?_⟩))
      cases a with
      | nil => rfl
      | cons d a =>
        have := byteSize_pos (List.cons_ne_nil d a)
        omega
  · exact (Runs.ofLexemes .start 0 text.toList).pairwise

end FuncLift
