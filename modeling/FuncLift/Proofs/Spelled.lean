import FuncLift.Proofs.Placement
import FuncLift.Tree.Comments

/-!
# What stands under tokens and comments

Lexemes are cut from the text one behind the other, so what stands under the span of a word, of a
literal or of a comment is its text. Comments stand one behind the other, and grouping them leaves
none out.
-/
namespace FuncLift

/-- Whether a text that starts at an offset has these characters at a span. -/
def Under (base : Nat) (text : List Char) (span : Span) (s : List Char) : Prop :=
  ∃ a b, text = a ++ s ++ b ∧ span = ⟨base + byteSize a, base + byteSize a + byteSize s⟩

theorem Under.of_prefix {base : Nat} {front text s : List Char} {span : Span}
    (h : Under base text span s) (hfront : front <+: text)
    (hstop : span.stop ≤ base + byteSize front) : Under base front span s := by
  obtain ⟨a, b, hsplit, rfl⟩ := h
  have hle : byteSize (a ++ s) ≤ byteSize front := by
    rw [byteSize_append]
    dsimp only at hstop
    omega
  rcases List.prefix_or_prefix_of_prefix ⟨b, hsplit.symm⟩ hfront with ⟨rest, hrest⟩ | ⟨rest, hrest⟩
  · exact ⟨a, rest, hrest.symm, rfl⟩
  · cases rest with
    | nil => exact ⟨a, [], by simpa using hrest, rfl⟩
    | cons c cs =>
      have hpos := byteSize_pos (List.cons_ne_nil c cs)
      rw [← hrest, byteSize_append] at hle
      omega

/-- What a name or a literal is made of: a text, or the dot of an import. -/
def Token.word? : Token → Option String
  | .punct .dot => some "."
  | t => t.text?

namespace Lexeme

/-- Punctuation takes its spelling. -/
def Spells (c : Char) (cs : List Char) (r : LexemeKind × Nat) : Prop :=
  ∀ p, r.1 = .punct p → c :: cs.take r.2 = p.spelling.toList

theorem atFront_spells (c : Char) (cs : List Char) : Spells c cs (atFront c cs) := by
  unfold atFront
  repeat' refine iteInduction (fun _ => ?_) fun _ => ?_
  all_goals try split
  all_goals intro p hp; cases hp
  exact take_of_punct ‹_›

end Lexeme

namespace Scan

/-- A token that is read from a lexeme has its text, or is a keyword or punctuation. -/
theorem read_ok {kind : LexemeKind} {text : List Char} {t : Token} (h : read kind text = .ok t) :
    t.text? = some (String.ofList text) ∨ (∃ k, t = .keyword k) ∨
      ∃ p, kind = .punct p ∧ t = .punct p := by
  unfold read at h
  dsimp only at h
  repeat' split at h
  all_goals cases h
  all_goals first
    | exact .inl rfl
    | exact .inr (.inl ⟨_, rfl⟩)
    | exact .inr (.inr ⟨_, rfl, rfl⟩)

theorem word_of_read {kind : LexemeKind} {text : List Char} {t : Token} {w : String}
    (hpunct : ∀ p, kind = .punct p → text = p.spelling.toList) (h : read kind text = .ok t)
    (hw : t.word? = some w) : w.toList = text := by
  rcases read_ok h with htext | ⟨k, rfl⟩ | ⟨p, rfl, rfl⟩
  · have hword : t.word? = t.text? := by
      cases t <;> first | rfl | cases htext
    rw [hword, htext] at hw
    cases hw
    exact String.toList_ofList
  · cases hw
  · rw [hpunct p rfl]
    cases p <;> cases hw
    rfl

theorem comments_lineEnd (line : Line) (offset : Nat) : (lineEnd line offset).comments = [] := by
  unfold lineEnd
  split <;> rfl

theorem word_lineEnd {line : Line} {offset : Nat} {p : Placed}
    (hp : p ∈ (lineEnd line offset).tokens) : p.token.word? = Option.none := by
  unfold lineEnd at hp
  split at hp
  · cases List.mem_singleton.1 hp
    rfl
  · cases hp

theorem word_fault {f : LexFault} {span : Span} {p : Placed} (hp : p ∈ (fault f span).tokens) :
    p.token.word? = Option.none := by
  cases List.mem_singleton.1 hp
  rfl

theorem comments_ofLexeme (line : Line) (offset : Nat) (lexeme : Lexeme) :
    (ofLexeme line offset lexeme).1.comments = [] ∨
      ∃ kind, (ofLexeme line offset lexeme).1.comments =
        [comment kind lexeme.text ⟨offset, offset + byteSize lexeme.text⟩ line] := by
  unfold ofLexeme
  dsimp only
  split
  · exact .inl rfl
  · exact .inl (comments_lineEnd _ _)
  · exact .inr ⟨.line, rfl⟩
  · split
    · exact .inr ⟨.block, rfl⟩
    · exact .inr ⟨.block, by simp [append, comments_lineEnd]⟩
  · exact .inr ⟨.block, rfl⟩
  · split <;> exact .inl rfl
  · split <;> exact .inl rfl

theorem read_of_word {line : Line} {offset : Nat} {lexeme : Lexeme} {p : Placed}
    (hp : p ∈ (ofLexeme line offset lexeme).1.tokens) (hsome : p.token.word? ≠ Option.none) :
    read lexeme.kind lexeme.text = .ok p.token ∧
      p.span = ⟨offset, offset + byteSize lexeme.text⟩ := by
  unfold ofLexeme at hp
  dsimp only at hp
  split at hp
  · cases hp
  · exact absurd (word_lineEnd hp) hsome
  · cases hp
  · split at hp
    · cases hp
    · exact absurd (word_lineEnd hp) hsome
  · exact absurd (word_fault (f := .unterminatedComment) hp) hsome
  · split at hp
    · cases hp
    · exact absurd (word_fault hp) hsome
  · split at hp
    · rename_i hread
      cases List.mem_singleton.1 hp
      exact ⟨hread, rfl⟩
    · exact absurd (word_fault hp) hsome

theorem word_ofLexeme {line : Line} {offset : Nat} {lexeme : Lexeme}
    (hpunct : ∀ p, lexeme.kind = .punct p → lexeme.text = p.spelling.toList) {p : Placed}
    (hp : p ∈ (ofLexeme line offset lexeme).1.tokens) {w : String} (hw : p.token.word? = some w) :
    w.toList = lexeme.text ∧ p.span = ⟨offset, offset + byteSize lexeme.text⟩ := by
  obtain ⟨hread, hspan⟩ := read_of_word hp (by simp [hw])
  exact ⟨word_of_read hpunct hread hw, hspan⟩

/-- Words, literals and comments are what the text has under their spans. -/
structure Spelled (source : List Char) (s : Scan) : Prop where
  tokens : ∀ p ∈ s.tokens, ∀ w, p.token.word? = some w → Under 0 source p.span w.toList
  comments : ∀ c ∈ s.comments, Under 0 source c.span c.text.toList

theorem spelled_ofLexeme (line : Line) (front rest : List Char) {lexeme : Lexeme}
    (hpunct : ∀ p, lexeme.kind = .punct p → lexeme.text = p.spelling.toList) :
    (ofLexeme line (byteSize front) lexeme).1.Spelled (front ++ lexeme.text ++ rest) := by
  have hunder : Under 0 (front ++ lexeme.text ++ rest)
      ⟨byteSize front, byteSize front + byteSize lexeme.text⟩ lexeme.text :=
    ⟨front, rest, rfl, by simp⟩
  constructor
  · intro p hp w hw
    obtain ⟨hword, hspan⟩ := word_ofLexeme hpunct hp hw
    rwa [hword, hspan]
  · intro c hc
    rcases comments_ofLexeme line (byteSize front) lexeme with hnone | ⟨kind, hone⟩
    · rw [hnone] at hc
      cases hc
    · rw [hone] at hc
      cases List.mem_singleton.1 hc
      simpa [comment] using hunder

theorem spelled_ofLexemes (line : Line) (front cs : List Char) :
    (ofLexemes line (byteSize front) (Lexeme.all cs)).Spelled (front ++ cs) := by
  fun_induction Lexeme.all cs generalizing line front with
  | case1 =>
    refine ⟨fun p hp w hw => ?_, fun c hc => ?_⟩
    · rw [word_lineEnd hp] at hw
      cases hw
    · rw [ofLexemes, comments_lineEnd] at hc
      cases hc
  | case2 c cs kind n hfront ih =>
    have hpunct := Lexeme.atFront_spells c cs
    rw [hfront] at hpunct
    have hsplit : front ++ (c :: cs) = front ++ (c :: cs.take n) ++ cs.drop n := by simp
    have hhere := @spelled_ofLexeme line front (cs.drop n) ⟨kind, c :: cs.take n⟩ hpunct
    have hnext := ih (ofLexeme line (byteSize front) ⟨kind, c :: cs.take n⟩).2
      (front ++ (c :: cs.take n))
    rw [byteSize_append] at hnext
    rw [ofLexemes, hsplit]
    exact ⟨List.forall_mem_append.2 ⟨hhere.tokens, hnext.tokens⟩,
      List.forall_mem_append.2 ⟨hhere.comments, hnext.comments⟩⟩

end Scan

namespace LooseComment

/-- Comments behind an offset, none of them empty, one behind the other. -/
structure Follow (offset : Nat) (cs : List LooseComment) : Prop where
  filled : ∀ c ∈ cs, offset ≤ c.span.start ∧ c.span.start < c.span.stop
  apart : cs.Pairwise fun a b => a.span.stop ≤ b.span.start

theorem Follow.nil {offset : Nat} : Follow offset [] := ⟨by simp, .nil⟩

theorem Follow.mono {offset offset' : Nat} {cs : List LooseComment} (h : Follow offset cs)
    (hle : offset' ≤ offset) : Follow offset' cs :=
  ⟨fun c hc => ⟨Nat.le_trans hle (h.filled c hc).1, (h.filled c hc).2⟩, h.apart⟩

theorem Follow.cons {offset : Nat} {c : LooseComment} {cs : List LooseComment}
    (hstart : offset ≤ c.span.start) (hc : c.span.start < c.span.stop)
    (hcs : Follow c.span.stop cs) : Follow offset (c :: cs) := by
  refine ⟨List.forall_mem_cons.2 ⟨⟨hstart, hc⟩, ?_⟩, .cons (fun d hd => (hcs.filled d hd).1) hcs.apart⟩
  exact (hcs.mono (by omega)).filled

theorem Follow.extent {offset : Nat} {cs : List LooseComment} (h : Follow offset cs)
    {first last : LooseComment} (hfirst : cs.head? = some first) (hlast : cs.getLast? = some last) :
    first.span.start < last.span.stop := by
  obtain ⟨rest, rfl⟩ := List.head?_eq_some_iff.1 hfirst
  have hfilled := (h.filled first List.mem_cons_self).2
  rcases List.mem_cons.1 (List.mem_of_getLast? hlast) with rfl | hrest
  · exact hfilled
  · have hbehind := (List.pairwise_cons.1 h.apart).1 last hrest
    have := (h.filled last (List.mem_cons_of_mem _ hrest)).2
    omega

theorem Follow.head_le {offset : Nat} {cs : List LooseComment} (h : Follow offset cs) (hne : cs ≠ [])
    {c : LooseComment} (hc : c ∈ cs) : (cs.head hne).span.start ≤ c.span.start := by
  obtain ⟨first, rest, rfl⟩ := List.exists_cons_of_ne_nil hne
  rcases List.mem_cons.1 hc with rfl | hc
  · exact Nat.le_refl _
  · have hfirst := (h.filled first List.mem_cons_self).2
    exact Nat.le_trans (Nat.le_of_lt hfirst) ((List.pairwise_cons.1 h.apart).1 c hc)

theorem Follow.le_getLast {offset : Nat} {cs : List LooseComment} (h : Follow offset cs)
    (hne : cs ≠ []) {c : LooseComment} (hc : c ∈ cs) : c.span.stop ≤ (cs.getLast hne).span.stop := by
  have hsplit := List.dropLast_concat_getLast hne
  have hapart := h.apart
  rw [← hsplit, List.pairwise_append] at hapart
  rw [← hsplit] at hc
  rcases List.mem_append.1 hc with hc | hc
  · have hlast := (h.filled _ (List.getLast_mem hne)).2
    exact Nat.le_trans (hapart.2.2 c hc _ (List.mem_singleton.2 rfl)) (Nat.le_of_lt hlast)
  · exact Nat.le_of_eq (congrArg (·.span.stop) (List.mem_singleton.1 hc))

theorem Follow.ofLexemes (line : Scan.Line) (offset : Nat) (cs : List Char) :
    Follow offset (Scan.ofLexemes line offset (Lexeme.all cs)).comments := by
  fun_induction Lexeme.all cs generalizing line offset with
  | case1 =>
    rw [Scan.ofLexemes, Scan.comments_lineEnd]
    exact .nil
  | case2 c cs kind n hfront ih =>
    have hpos : 0 < byteSize (c :: cs.take n) := byteSize_pos (List.cons_ne_nil _ _)
    have hnext := ih (Scan.ofLexeme line offset ⟨kind, c :: cs.take n⟩).2
      (offset + byteSize (c :: cs.take n))
    rw [Scan.ofLexemes]
    rcases Scan.comments_ofLexeme line offset ⟨kind, c :: cs.take n⟩ with hnone | ⟨k, hone⟩
    · simpa only [Scan.append, hnone, List.nil_append] using hnext.mono (Nat.le_add_right _ _)
    · have hfirst : Follow offset (Scan.comment k (c :: cs.take n)
          ⟨offset, offset + byteSize (c :: cs.take n)⟩ line :: _) :=
        .cons (Nat.le_refl _) (Nat.lt_add_of_pos_right hpos) hnext
      simpa only [Scan.append, hone, List.singleton_append] using hfirst

theorem flatten_groupsAfter (source : List Char) (trailing : Bool) (last : LooseComment)
    (cs : List LooseComment) : (groupsAfter source trailing last cs).1 ++
      (groupsAfter source trailing last cs).2.flatten = cs := by
  induction cs generalizing trailing last with
  | nil => rfl
  | cons c cs ih =>
    rw [groupsAfter]
    split
    · simp [ih]
    · simp [ih]

theorem flatten_groups (source : List Char) (cs : List LooseComment) :
    (groups source cs).flatten = cs := by
  cases cs with
  | nil => rfl
  | cons c cs => simp [groups, flatten_groupsAfter]

theorem ne_nil_of_mem_groupsAfter {source : List Char} {trailing : Bool} {last : LooseComment}
    {cs g : List LooseComment} (hg : g ∈ (groupsAfter source trailing last cs).2) : g ≠ [] := by
  induction cs generalizing trailing last with
  | nil => cases hg
  | cons c cs ih =>
    rw [groupsAfter] at hg
    split at hg
    · exact ih hg
    · rcases List.mem_cons.1 hg with rfl | hg
      · exact List.cons_ne_nil _ _
      · exact ih hg

theorem ne_nil_of_mem_groups {source : List Char} {cs g : List LooseComment}
    (hg : g ∈ groups source cs) : g ≠ [] := by
  cases cs with
  | nil => cases hg
  | cons c cs =>
    rcases List.mem_cons.1 hg with rfl | hg
    · exact List.cons_ne_nil _ _
    · exact ne_nil_of_mem_groupsAfter hg

theorem mem_of_mem_groups {source : List Char} {cs g : List LooseComment}
    (hg : g ∈ groups source cs) {c : LooseComment} (hc : c ∈ g) : c ∈ cs := by
  rw [← flatten_groups source cs]
  exact List.mem_flatten.2 ⟨g, hg, hc⟩

theorem Follow.of_mem_groups {source : List Char} {offset : Nat} {cs g : List LooseComment}
    (h : Follow offset cs) (hg : g ∈ groups source cs) : Follow offset g := by
  refine ⟨fun c hc => h.filled c (mem_of_mem_groups hg hc), ?_⟩
  have hapart := h.apart
  rw [← flatten_groups source cs, List.pairwise_flatten] at hapart
  exact hapart.1 g hg

end LooseComment

theorem scan_spelled (text : String) : (scan text).Spelled text.toList :=
  Scan.spelled_ofLexemes .start [] text.toList

theorem scan_follow (text : String) : LooseComment.Follow 0 (scan text).comments :=
  .ofLexemes .start 0 text.toList

end FuncLift
