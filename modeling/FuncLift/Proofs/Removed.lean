import FuncLift.Proofs.Atomic
import FuncLift.Proofs.Positions

/-!
# What an edit removes

An edit tells the text it replaced line by line. The parts of the lines lie behind each other, and
between two of them is nothing but the newline of the first. So they are told by one row: every part
but the last reaches to the end of its line, and every part but the first starts where its line does.
-/
namespace FuncLift

namespace LineTable

variable {t : LineTable} {line n : Nat}

def lineStart (t : LineTable) (line : Nat) : Nat := bytes (t.lengths.take (line - 1))

theorem lineStart_split {before after : List Nat} (h : t.lengths = before ++ n :: after) :
    t.lineStart (before.length + 1) = bytes before := by
  rw [lineStart, h, Nat.add_sub_cancel, List.take_left]

theorem length?_split {before after : List Nat} (h : t.lengths = before ++ n :: after) :
    t.length? (before.length + 1) = some n := by
  simp [length?, h]

theorem lineStart_succ (h : t.length? line = some n) :
    t.lineStart (line + 1) = t.lineStart line + n + 1 := by
  cases line with
  | zero => cases h
  | succ line =>
    have hn : t.lengths[line]? = some n := h
    rw [lineStart, lineStart, Nat.add_sub_cancel, Nat.add_sub_cancel, List.take_add_one, hn,
      bytes_append]
    exact (Nat.add_assoc _ _ _).symm

end LineTable

namespace Removal

variable (t : LineTable) (r : Removal)

def span : Span := ⟨t.lineStart r.line + r.first, t.lineStart r.line + r.last⟩

def newline : Nat := t.lineStart r.line + (t.length? r.line).getD 0

structure Fits : Prop where
  ordered : r.first ≤ r.last
  inside : ∃ n, t.length? r.line = some n ∧ r.last ≤ n

end Removal

/-- Removals of lines behind each other take all bytes between two offsets, the newlines between them
included. -/
inductive Tiles (t : LineTable) : Nat → List Removal → Nat → Prop where
  | last {r : Removal} : r.Fits t → Tiles t (r.span t).start [r] (r.span t).stop
  | line {r : Removal} {rs : List Removal} {hi : Nat} : r.Fits t →
      (r.span t).stop = r.newline t → Tiles t (r.newline t + 1) rs hi →
        Tiles t (r.span t).start (r :: rs) hi

namespace Tiles

variable {t : LineTable} {lo hi : Nat} {rs : List Removal}

theorem fits (h : Tiles t lo rs hi) : ∀ r ∈ rs, r.Fits t := by
  induction h with
  | last hr =>
    intro r' hr'
    rw [List.mem_singleton.1 hr']
    exact hr
  | line hr _ _ ih =>
    intro r' hr'
    rcases List.mem_cons.1 hr' with rfl | hr'
    · exact hr
    · exact ih r' hr'

theorem ne_nil (h : Tiles t lo rs hi) : rs ≠ [] := by
  cases h <;> exact List.cons_ne_nil _ _

theorem start_le_stop {r : Removal} (hr : r.Fits t) : (r.span t).start ≤ (r.span t).stop :=
  Nat.add_le_add_left hr.ordered _

theorem le (h : Tiles t lo rs hi) : lo ≤ hi := by
  induction h with
  | last hr => exact start_le_stop hr
  | line hr hend _ ih =>
    have hle := start_le_stop hr
    omega

theorem le_start (h : Tiles t lo rs hi) : ∀ r ∈ rs, lo ≤ (r.span t).start := by
  induction h with
  | last hr =>
    intro r' hr'
    rw [List.mem_singleton.1 hr']
  | line hr hend _ ih =>
    intro r' hr'
    rcases List.mem_cons.1 hr' with rfl | hr'
    · exact Nat.le_refl _
    · have hle := start_le_stop hr
      have hrest := ih r' hr'
      omega

theorem apart (h : Tiles t lo rs hi) :
    rs.Pairwise fun r r' => (r.span t).stop < (r'.span t).start := by
  induction h with
  | last hr => exact List.pairwise_singleton _ _
  | line hr hend hrest ih =>
    refine List.pairwise_cons.2 ⟨fun r' hr' => ?_, ih⟩
    have hstart := hrest.le_start r' hr'
    omega

theorem whole (h : Tiles t lo rs hi) (o : Nat) : (lo ≤ o ∧ o < hi) ↔
    (∃ r ∈ rs, (r.span t).start ≤ o ∧ o < (r.span t).stop) ∨
      ∃ r ∈ rs.dropLast, o = r.newline t := by
  induction h with
  | last hr => simp
  | @line r rs hi hr hend hrest ih =>
    have hle := start_le_stop hr
    have hrow := hrest.le
    rw [List.dropLast_cons_of_ne_nil hrest.ne_nil]
    simp only [List.mem_cons, exists_eq_or_imp]
    constructor
    · rintro ⟨hlow, hhigh⟩
      rcases Nat.lt_trichotomy o (r.newline t) with hbefore | hline | hbehind
      · exact .inl (.inl ⟨hlow, by omega⟩)
      · exact .inr (.inl hline)
      · rcases ih.1 ⟨hbehind, hhigh⟩ with hpart | hnewline
        · exact .inl (.inr hpart)
        · exact .inr (.inr hnewline)
    · rintro ((⟨hlow, hhigh⟩ | hpart) | (hline | hnewline))
      · omega
      · have hinside := ih.2 (.inl hpart)
        omega
      · omega
      · have hinside := ih.2 (.inr hnewline)
        omega

end Tiles

namespace LineTable

variable {t : LineTable} {line n c : Nat}

theorem tiles_wholeLines {m : Nat} (hlines : ∀ k < n, ∃ m, t.length? (line + k) = some m)
    (hlast : t.length? (line + n) = some m) (hc : c ≤ m) :
    Tiles t (t.lineStart line) (t.wholeLines line n ++ [⟨line + n, 0, c⟩])
      (t.lineStart (line + n) + c) := by
  induction n generalizing line with
  | zero => exact .last (r := ⟨line, 0, c⟩) ⟨Nat.zero_le _, m, hlast, hc⟩
  | succ n ih =>
    obtain ⟨k, hk⟩ := hlines 0 (Nat.succ_pos n)
    have hline : t.length? line = some k := hk
    have hcomm : line + 1 + n = line + (n + 1) := by omega
    have hrest := @ih (line + 1)
      (fun k hk => by rw [Nat.add_right_comm]; exact hlines (k + 1) (by omega))
      (by rw [hcomm]; exact hlast)
    rw [hcomm] at hrest
    rw [wholeLines, hline, Option.getD_some, List.cons_append]
    have hnewline : Removal.newline t ⟨line, 0, k⟩ = t.lineStart line + k := by
      rw [Removal.newline, hline, Option.getD_some]
    refine .line (r := ⟨line, 0, k⟩) ⟨Nat.zero_le _, k, hline, Nat.le_refl _⟩ hnewline.symm ?_
    rwa [hnewline, ← lineStart_succ hline]

theorem lines_wholeLines (t : LineTable) (line n : Nat) :
    (t.wholeLines line n).map Removal.line = List.range' line n := by
  induction n generalizing line with
  | zero => rfl
  | succ n ih => rw [wholeLines, List.map_cons, ih, List.range'_succ]

theorem position_eq {offset : Nat} (h : offset < t.size) : ∃ m,
    t.length? (t.lineOf offset) = some m ∧ (t.position offset).column - 1 ≤ m ∧
      t.lineStart (t.lineOf offset) + ((t.position offset).column - 1) = offset := by
  obtain ⟨before, m, after, hsplit, hline, hrest, hsum⟩ := locate_eq h
  have hof : t.lineOf offset = before.length + 1 := congrArg (· + 1) hline
  rw [hof, length?_split hsplit, lineStart_split hsplit]
  exact ⟨m, rfl, hrest, hsum⟩

theorem lineOf_mono {a b : Nat} (h : a ≤ b) : t.lineOf a ≤ t.lineOf b := by
  rcases Nat.eq_or_lt_of_le h with rfl | hlt
  · exact Nat.le_refl _
  · have hbefore : (t.position a).before (t.position b) = true := position_before hlt
    have hlines : (t.position a).line < (t.position b).line ∨
        (t.position a).line = (t.position b).line := by
      rw [Position.before, Bool.or_eq_true, Bool.and_eq_true, decide_eq_true_eq,
        beq_iff_eq] at hbefore
      exact hbefore.imp_right And.left
    exact hlines.elim Nat.le_of_lt Nat.le_of_eq

theorem exists_length? {line line' m : Nat} (h : t.length? line' = some m) (hpos : 0 < line)
    (hle : line ≤ line') : ∃ k, t.length? line = some k := by
  obtain ⟨line, rfl⟩ := Nat.exists_eq_succ_of_ne_zero (Nat.ne_of_gt hpos)
  obtain ⟨line', rfl⟩ := Nat.exists_eq_succ_of_ne_zero (Nat.ne_of_gt (Nat.lt_of_lt_of_le hpos hle))
  have hlt : line' < t.lengths.length := (List.getElem?_eq_some_iff.1 h).1
  exact ⟨t.lengths[line], List.getElem?_eq_getElem (by omega)⟩

theorem tiles_removal {a b : Nat} (hab : a ≤ b) (hb : b < t.size) :
    Tiles t a (t.removal (t.position a) (t.position b)) b ∧
      (t.removal (t.position a) (t.position b)).map Removal.line =
        List.range' (t.lineOf a) (t.lineOf b + 1 - t.lineOf a) := by
  obtain ⟨m, hm, hcolumn, ha⟩ := position_eq (t := t) (Nat.lt_of_le_of_lt hab hb)
  obtain ⟨n, hn, hcolumn', hb'⟩ := position_eq hb
  have hle : t.lineOf a ≤ t.lineOf b := lineOf_mono hab
  have hline : (t.position a).line = t.lineOf a := rfl
  have hline' : (t.position b).line = t.lineOf b := rfl
  unfold removal
  rw [hline, hline']
  by_cases hsame : t.lineOf a = t.lineOf b
  · rw [if_pos hsame]
    have hone : t.lineOf b + 1 - t.lineOf a = 1 := by omega
    refine ⟨?_, by rw [hone]; rfl⟩
    have hrow := Tiles.last (t := t)
      (r := ⟨t.lineOf a, (t.position a).column - 1, (t.position b).column - 1⟩)
      ⟨by rw [← hsame] at hb'; dsimp only; omega, m, hm, by
        rw [← hsame, hm] at hn
        cases hn
        exact hcolumn'⟩
    have hstop : t.lineStart (t.lineOf a) + ((t.position b).column - 1) = b := by
      rw [hsame]
      exact hb'
    rw [Removal.span] at hrow
    dsimp only at hrow
    rwa [ha, hstop] at hrow
  · rw [if_neg hsame]
    obtain ⟨k, hk⟩ := Nat.exists_eq_add_of_lt (Nat.lt_of_le_of_ne hle hsame)
    have hcount : t.lineOf b - (t.lineOf a + 1) = k := by omega
    have hlast : t.lineOf b = t.lineOf a + 1 + k := by omega
    have hpos : 0 < t.lineOf a := Nat.succ_pos _
    have hlines : ∀ j < k, ∃ m, t.length? (t.lineOf a + 1 + j) = some m :=
      fun j hj => exists_length? hn (by omega) (by omega)
    have hrest := tiles_wholeLines hlines (hlast ▸ hn) hcolumn'
    rw [← hlast, hb', lineStart_succ hm] at hrest
    rw [hcount, hm, Option.getD_some]
    constructor
    · have hnewline : Removal.newline t ⟨t.lineOf a, (t.position a).column - 1, m⟩ =
          t.lineStart (t.lineOf a) + m := by
        rw [Removal.newline, hm, Option.getD_some]
      have hrow := Tiles.line (r := ⟨t.lineOf a, (t.position a).column - 1, m⟩)
        ⟨hcolumn, m, hm, Nat.le_refl _⟩ hnewline.symm (hnewline ▸ hrest)
      rw [Removal.span] at hrow
      dsimp only at hrow
      rwa [ha] at hrow
    · have hlength : t.lineOf b + 1 - t.lineOf a = k + 1 + 1 := by omega
      have hend : t.lineOf b = t.lineOf a + 1 + 1 * k := by omega
      rw [List.cons_append, List.map_cons, List.map_append, lines_wholeLines, hlength,
        List.range'_succ, List.range'_concat, ← hend]
      rfl

theorem offset?_removal {r : Removal} (h : r.Fits t) :
    t.offset? ⟨r.line, r.first + 1⟩ = some (r.span t).start ∧
      t.offset? ⟨r.line, r.last + 1⟩ = some (r.span t).stop ∧
        t.offset? ⟨r.line, (t.length? r.line).getD 0 + 1⟩ = some (r.newline t) := by
  obtain ⟨hordered, n, hn, hinside⟩ := h
  obtain ⟨line, first, last⟩ := r
  cases line with
  | zero => cases hn
  | succ line =>
    have hline : t.lengths[line]? = some n := hn
    have hcolumn {c : Nat} (hc : c ≤ n) :
        t.offset? ⟨line + 1, c + 1⟩ = some (t.lineStart (line + 1) + c) := by
      have hvalid : ¬(c + 1 = 0 ∨ c + 1 > n + 1) := by omega
      simp only [offset?, hline, if_neg hvalid]
      rfl
    dsimp only at hordered hinside hn
    rw [Removal.newline, hn, Option.getD_some]
    exact ⟨hcolumn (Nat.le_trans hordered hinside), hcolumn hinside, hcolumn (Nat.le_refl n)⟩

end LineTable

/-- What an edit says about the old bytes that a text took the place of. -/
structure LineEdit.Describes (edit : LineEdit) (t : LineTable) (old : Span) (text : String) :
    Prop where
  ordered : t.lineOf old.start ≤ t.lineOf old.stop
  lines : edit.removed.map Removal.line =
    List.range' (t.lineOf old.start) (t.lineOf old.stop + 1 - t.lineOf old.start)
  fits : ∀ r ∈ edit.removed, r.Fits t
  /-- The columns of a line and its newline are told by the spans. -/
  offsets : ∀ r ∈ edit.removed, t.offset? ⟨r.line, r.first + 1⟩ = some (r.span t).start ∧
    t.offset? ⟨r.line, r.last + 1⟩ = some (r.span t).stop ∧
      t.offset? ⟨r.line, (t.length? r.line).getD 0 + 1⟩ = some (r.newline t)
  apart : edit.removed.Pairwise fun r r' => (r.span t).stop < (r'.span t).start
  whole : ∀ o, (old.start ≤ o ∧ o < old.stop) ↔
    (∃ r ∈ edit.removed, (r.span t).start ≤ o ∧ o < (r.span t).stop) ∨
      ∃ r ∈ edit.removed.dropLast, o = r.newline t
  delta : edit.delta = text.utf8ByteSize - ((old.stop : Int) - old.start)

namespace Document

variable {d next : Document} {s : Selection} {name : String} {done : Lifted}

theorem Lifts.old_span (h : d.Lifts s name next done) (hd : d.Reached) :
    (done.plan.edit d).old = done.plan.region.span ∧
      done.plan.region.span.start ≤ done.plan.region.span.stop ∧
        done.plan.region.span.stop < d.size := by
  obtain ⟨target, hordered, hinside, hlocated⟩ := resolve_located h.region
  have hspan := (hd.seated.region_span hordered hinside hlocated).2
  obtain ⟨⟨_, hold, _⟩, _⟩ := done.plan.edit_spec d
  refine ⟨hold, ?_, hspan⟩
  cases hregion : done.plan.region with
  | expression e parent slot =>
    rw [hregion] at hlocated
    have hexpr : e.span = target := hlocated.2.1
    rw [Region.span, hexpr]
    exact Nat.le_of_lt hordered
  | statements stmts owner =>
    rw [hregion] at hlocated
    obtain ⟨_, _, ⟨first, hfirst, hstart⟩, ⟨last, hlast, hstop⟩⟩ := hlocated
    rw [Region.span, hfirst, hlast]
    simp only [Span.hull]
    omega

/-- The edit of a lift tells what the call took the place of. -/
theorem Reached.edit_describes (hd : d.Reached) (h : d.lift s name = .ok (next, done)) :
    done.edit.Describes d.lines done.plan.region.span
      ((done.plan.edit d).callDrawing d).text := by
  have hlifts := lifts hd.owned h
  obtain ⟨hold, hordered, hinside⟩ := hlifts.old_span hd
  obtain ⟨-, hedit⟩ := hlifts.layout
  obtain ⟨htiles, hlines⟩ := LineTable.tiles_removal hordered hinside
  have hremoved : done.edit.removed = d.lines.removal (d.lines.position done.plan.region.span.start)
      (d.lines.position done.plan.region.span.stop) := by
    rw [hedit, ← hold]
    rfl
  have hdelta : done.edit.delta = (done.plan.edit d).delta d := by
    rw [hedit]
  rw [← hremoved] at htiles hlines
  constructor
  · exact LineTable.lineOf_mono hordered
  · exact hlines
  · exact htiles.fits
  · intro r hr
    exact LineTable.offset?_removal (htiles.fits r hr)
  · exact htiles.apart
  · exact htiles.whole
  · rw [hdelta, Edit.delta, Edit.stop_callDrawing, hold]
    omega

theorem Reached.edit_describes_lines : ∃ (d next : Document) (done : Lifted), d.Reached ∧
    d.lift ⟨⟨4, 2⟩, ⟨6, 12⟩⟩ "Seven" = .ok (next, done) ∧
      done.edit.removed = [⟨4, 1, 7⟩, ⟨5, 0, 0⟩, ⟨6, 0, 11⟩] ∧ done.edit.delta = -12 ∧
        done.edit.Describes d.lines done.plan.region.span
          ((done.plan.edit d).callDrawing d).text := by
  obtain ⟨d, next, done, hread, hlift, hcheck⟩ := exists_lift
    "package p\n\nfunc f() \x7b\n\tx := 3\n\n\tprintln(x)\n\tprintln(4)\n\x7d\n" ⟨⟨4, 2⟩, ⟨6, 12⟩⟩ "Seven"
    (fun _ _ done => decide (done.edit.removed = [⟨4, 1, 7⟩, ⟨5, 0, 0⟩, ⟨6, 0, 11⟩] ∧
      done.edit.delta = -12)) (by decide +kernel)
  obtain ⟨hremoved, hdelta⟩ := of_decide_eq_true hcheck
  exact ⟨d, next, done, .read hread, hlift, hremoved, hdelta, (Reached.read hread).edit_describes hlift⟩

end Document

end FuncLift
