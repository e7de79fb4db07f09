import FuncLift.Proofs.Lines
import FuncLift.Proofs.Nested
import FuncLift.Render.Draw

/-!
# What drawing leaves behind

Drawing only ever adds to the text, and marks what it draws. The text under the mark of a word is
the word, and the pieces of a tree are marked in a row. What is written does not depend on where the
text starts. Rules for the steps of drawing follow, one for each thing that the pen can do.
-/
namespace FuncLift

/-- The text written so far. -/
def Pen.text (p : Pen) : List Char := p.pieces.reverse.flatMap String.toList

/-- A mark that belongs to an entry, and has its text if that is a word. -/
structure MarksAt (base : Nat) (text : List Char) (m : Mark) (e : Entry) : Prop where
  id : m.id = e.tag.id
  ordered : m.span.start ≤ m.span.stop
  inside : m.span.stop ≤ base + byteSize text
  under : ∀ s, e.text = some s → Under base text m.span s.toList

theorem MarksAt.mono {base : Nat} {text : List Char} {m : Mark} {e : Entry}
    (h : MarksAt base text m e) (w : List Char) : MarksAt base (text ++ w) m e := by
  refine ⟨h.id, h.ordered, ?_, fun s hs => ?_⟩
  · have := h.inside
    rw [byteSize_append]
    omega
  · obtain ⟨a, b, rfl, hspan⟩ := h.under s hs
    exact ⟨a, b ++ w, by simp, hspan⟩

/-- Drawing reaches everything. -/
def AllWhole (es : List Entry) : Prop := ∀ e ∈ es, e.whole = true

@[simp] theorem allWhole_nil : AllWhole [] := fun _ h => by cases h

@[simp] theorem allWhole_cons (e : Entry) (es : List Entry) :
    AllWhole (e :: es) ↔ e.whole = true ∧ AllWhole es := List.forall_mem_cons

@[simp] theorem allWhole_append (es fs : List Entry) :
    AllWhole (es ++ fs) ↔ AllWhole es ∧ AllWhole fs := List.forall_mem_append

theorem AllWhole.mono {es fs : List Entry} (h : AllWhole es) (hmem : ∀ e ∈ fs, e ∈ es) :
    AllWhole fs := fun e he => h e (hmem e he)

/-- Everything that is marked is placed where its mark is. -/
def Places (place : Tag → Span) (ms : List Mark) : Prop :=
  ∀ m ∈ ms, ∀ t : Tag, t.id = m.id → place t = m.span

/-- How many of the marks have a number. -/
def markCount (i : Nat) (ms : List Mark) : Nat := ms.countP fun m => m.id == i

@[simp] theorem markCount_nil (i : Nat) : markCount i [] = 0 := rfl

@[simp] theorem markCount_append (i : Nat) (ms ns : List Mark) :
    markCount i (ms ++ ns) = markCount i ms + markCount i ns := List.countP_append

/-- From one pen to another only entries were drawn. If nothing was out of reach, all of them were,
none more often than it is there, and the pieces stand in a row. -/
structure Leads (base : Nat) (ok : Prop) (es : List Entry) (ps : List Piece) (p q : Pen) :
    Prop where
  text : ∃ w, q.text = p.text ++ w
  offset : q.offset = base + byteSize q.text
  le : p.offset ≤ q.offset
  marks : ∃ ms, q.marks = ms ++ p.marks ∧
    (∀ m ∈ ms, p.offset ≤ m.span.start ∧ ∃ e ∈ es, MarksAt base q.text m e) ∧
    (ok → AllWhole es → (∀ e ∈ es, ∃ m ∈ ms, m.id = e.tag.id) ∧
      (∀ i, markCount i ms ≤ idCount i es) ∧
      ∀ place, Places place ms → Row place (fun _ => True) p.offset ps q.offset)

namespace Leads

variable {base : Nat} {ok : Prop} {es fs : List Entry} {ps qs : List Piece} {p q r : Pen}

theorem trans (h : Leads base ok es ps p q) (k : Leads base ok fs qs q r) :
    Leads base ok (es ++ fs) (ps ++ qs) p r := by
  obtain ⟨w, hw⟩ := h.text
  obtain ⟨x, hx⟩ := k.text
  obtain ⟨ms, hms, hsound, hcomplete⟩ := h.marks
  obtain ⟨ns, hns, ksound, kcomplete⟩ := k.marks
  refine ⟨⟨w ++ x, by simp [hw, hx]⟩, k.offset, Nat.le_trans h.le k.le, ns ++ ms,
    by simp [hms, hns], ?_, ?_⟩
  · intro m hm
    rcases List.mem_append.1 hm with hm | hm
    · obtain ⟨hstart, e, he, hmark⟩ := ksound m hm
      exact ⟨Nat.le_trans h.le hstart, e, List.mem_append_right _ he, hmark⟩
    · obtain ⟨hstart, e, he, hmark⟩ := hsound m hm
      exact ⟨hstart, e, List.mem_append_left _ he, hx ▸ hmark.mono x⟩
  · intro hok hw
    rw [allWhole_append] at hw
    obtain ⟨hall, hcount, hrow⟩ := hcomplete hok hw.1
    obtain ⟨kall, kcount, krow⟩ := kcomplete hok hw.2
    refine ⟨fun e he => ?_, fun i => ?_, fun place hplace => ?_⟩
    · rcases List.mem_append.1 he with he | he
      · obtain ⟨m, hm, hid⟩ := hall e he
        exact ⟨m, List.mem_append_right _ hm, hid⟩
      · obtain ⟨m, hm, hid⟩ := kall e he
        exact ⟨m, List.mem_append_left _ hm, hid⟩
    · rw [markCount_append, idCount_append, Nat.add_comm]
      exact Nat.add_le_add (hcount i) (kcount i)
    · exact (hrow place fun m hm => hplace m (List.mem_append_right _ hm)).append
        (krow place fun m hm => hplace m (List.mem_append_left _ hm))

theorem of_perm (h : Leads base ok es ps p q) (hperm : fs.Perm es) : Leads base ok fs ps p q := by
  have hmem (e : Entry) : e ∈ fs ↔ e ∈ es := hperm.mem_iff
  obtain ⟨ms, hms, hsound, hcomplete⟩ := h.marks
  refine ⟨h.text, h.offset, h.le, ms, hms, fun m hm => ?_, fun hok hw => ?_⟩
  · obtain ⟨hstart, e, he, hmark⟩ := hsound m hm
    exact ⟨hstart, e, (hmem e).2 he, hmark⟩
  · obtain ⟨hall, hcount, hrow⟩ := hcomplete hok (hw.mono fun e he => (hmem e).2 he)
    refine ⟨fun e he => hall e ((hmem e).1 he), fun i => ?_, hrow⟩
    exact Nat.le_trans (hcount i) (Nat.le_of_eq (hperm.countP_eq _).symm)

theorem part (h : Leads base ok es ps p q) {ok' : Prop} (hmem : ∀ e ∈ es, e ∈ fs) (hok : ¬ok') :
    Leads base ok' fs qs p q := by
  obtain ⟨ms, hms, hsound, _⟩ := h.marks
  refine ⟨h.text, h.offset, h.le, ms, hms, fun m hm => ?_, fun hok' => absurd hok' hok⟩
  obtain ⟨hstart, e, he, hmark⟩ := hsound m hm
  exact ⟨hstart, e, hmem e he, hmark⟩

theorem imp (h : Leads base ok es ps p q) {ok' : Prop} (hok : ok' → ok) :
    Leads base ok' es ps p q := by
  obtain ⟨ms, hms, hsound, hcomplete⟩ := h.marks
  exact ⟨h.text, h.offset, h.le, ms, hms, hsound, fun hok' => hcomplete (hok hok')⟩

theorem forget (h : Leads base ok es ps p q) : Leads base ok es [] p q := by
  obtain ⟨ms, hms, hsound, hcomplete⟩ := h.marks
  refine ⟨h.text, h.offset, h.le, ms, hms, hsound, fun hok hw => ?_⟩
  obtain ⟨hall, hcount, _⟩ := hcomplete hok hw
  exact ⟨hall, hcount, fun _ _ => .nil h.le⟩

end Leads

def groupEntries (gs : List CommentGroup) : List Entry := gs.flatMap CommentGroup.entries

@[simp] theorem groupEntries_nil : groupEntries [] = [] := rfl

@[simp] theorem groupEntries_cons (g : CommentGroup) (gs : List CommentGroup) :
    groupEntries (g :: gs) = g.entries ++ groupEntries gs := rfl

@[simp] theorem groupEntries_append (gs hs : List CommentGroup) :
    groupEntries (gs ++ hs) = groupEntries gs ++ groupEntries hs := List.flatMap_append

theorem tag_mem_groupEntries {g : CommentGroup} {gs : List CommentGroup} (hg : g ∈ gs) :
    g.tag.entry ∈ groupEntries gs := by
  refine List.mem_flatMap.2 ⟨g, hg, ?_⟩
  obtain ⟨t, cs⟩ := g
  rw [CommentGroup.entries_mk]
  exact List.mem_cons_self

theorem allWhole_groupEntries (gs : List CommentGroup) : AllWhole (groupEntries gs) := by
  intro e he
  obtain ⟨⟨t, cs⟩, _, he⟩ := List.mem_flatMap.1 he
  rw [CommentGroup.entries_mk] at he
  rcases List.mem_cons.1 he with rfl | he
  · rfl
  · obtain ⟨c, _, rfl⟩ := List.mem_map.1 he
    rfl

/-- The same pen at another offset and with other marks. -/
def Pen.moved (p : Pen) (offset : Nat) (marks : List Mark) : Pen := { p with offset, marks }

/-- Neither the offset nor the marks count for what is written. -/
def Steady {α : Type} (m : Draw α) : Prop :=
  ∀ p o ms, ∃ o' ms', m (p.moved o ms) = ((m p).1, (m p).2.moved o' ms')

theorem Steady.bind {α β : Type} {m : Draw α} {f : α → Draw β} (h : Steady m)
    (k : ∀ a, Steady (f a)) : Steady (m >>= f) := by
  intro p o ms
  obtain ⟨o₁, ms₁, hm⟩ := h p o ms
  obtain ⟨o₂, ms₂, hf⟩ := k (m p).1 (m p).2 o₁ ms₁
  refine ⟨o₂, ms₂, ?_⟩
  change f (m (p.moved o ms)).1 (m (p.moved o ms)).2 = _
  rw [hm]
  exact hf

/-- The same for an action that is told an offset. -/
def SteadyFrom {α : Type} (f : Nat → Draw α) : Prop :=
  ∀ p o ms s s', ∃ o' ms', f s' (p.moved o ms) = ((f s p).1, (f s p).2.moved o' ms')

namespace SteadyFrom

variable {α β : Type} {m : Draw α}

theorem offset {f : Nat → Draw β} (h : SteadyFrom f) : Steady (Draw.offset >>= f) :=
  fun p o ms => h p o ms p.offset o

theorem bind {f : α → Nat → Draw β} (hm : Steady m) (h : ∀ a, SteadyFrom (f a)) :
    SteadyFrom fun s => m >>= fun a => f a s := by
  intro p o ms s s'
  obtain ⟨o₁, ms₁, hm⟩ := hm p o ms
  obtain ⟨o₂, ms₂, hf⟩ := h (m p).1 (m p).2 o₁ ms₁ s s'
  refine ⟨o₂, ms₂, ?_⟩
  change f (m (p.moved o ms)).1 s' (m (p.moved o ms)).2 = _
  rw [hm]
  exact hf

theorem mark (kind : MarkKind) (id : Nat) : SteadyFrom fun s => Draw.mark kind id s :=
  fun _ o ms _ s' => ⟨o, ⟨kind, id, ⟨s', o⟩⟩ :: ms, rfl⟩

end SteadyFrom

/-- From one pen to another comments were drawn, one behind the other. -/
def Strews (gs : List CommentGroup) (p q : Pen) : Prop :=
  ∃ ms, q.marks = ms ++ p.marks ∧ ∀ place, Places place ms →
    Row place (fun _ => True) p.offset (gs.map CommentGroup.piece) q.offset

namespace Strews

variable {gs hs : List CommentGroup} {p q r : Pen}

theorem trans (h : Strews gs p q) (k : Strews hs q r) : Strews (gs ++ hs) p r := by
  obtain ⟨ms, hms, hrow⟩ := h
  obtain ⟨ns, hns, krow⟩ := k
  refine ⟨ns ++ ms, by rw [hns, hms, List.append_assoc], fun place hplace => ?_⟩
  rw [List.map_append]
  exact (hrow place fun m hm => hplace m (List.mem_append_right _ hm)).append
    (krow place fun m hm => hplace m (List.mem_append_left _ hm))

theorem mark (h : Strews gs p q) (ms : List Mark) :
    Strews gs p { q with marks := ms ++ q.marks } := by
  obtain ⟨ns, hns, hrow⟩ := h
  refine ⟨ms ++ ns, by simp [hns], fun place hplace => ?_⟩
  exact hrow place fun m hm => hplace m (List.mem_append_right _ hm)

theorem none {base : Nat} {ok : Prop} {es : List Entry} {ps : List Piece}
    (h : Leads base ok es ps p q) : Strews [] p q := by
  obtain ⟨ms, hms, _⟩ := h.marks
  exact ⟨ms, hms, fun _ _ => .nil h.le⟩

theorem one {base : Nat} {g : CommentGroup} (h : Leads base True g.entries [g.piece] p q) :
    Strews [g] p q := by
  obtain ⟨ms, hms, _, hcomplete⟩ := h.marks
  have hwhole : AllWhole g.entries := by simpa using allWhole_groupEntries [g]
  exact ⟨ms, hms, (hcomplete trivial hwhole).2.2⟩

end Strews

/-- From one pen to another the lines stayed, and behind the start of a file there is no way back. -/
structure Keeps (p q : Pen) : Prop where
  lines : q.lines = p.lines
  started : p.atStart = false → q.atStart = false

theorem Keeps.refl (p : Pen) : Keeps p p := ⟨rfl, id⟩

theorem Keeps.trans {p q r : Pen} (h : Keeps p q) (k : Keeps q r) : Keeps p r :=
  ⟨k.lines.trans h.lines, fun hp => k.started (h.started hp)⟩

/-- Drawing that draws pieces. If it may, it also draws comments that wait, from the first on. -/
structure Draws {α : Type} (base : Nat) (free : Bool) (ok : Prop) (m : Draw α)
    (ps : List Piece) : Prop where
  leads : ∀ p : Pen, p.offset = base + byteSize p.text →
    ∃ gs, p.comments = gs ++ (m p).2.comments ∧ (free = false → gs = []) ∧
      Leads base ok (Piece.entriesAll ps ++ groupEntries gs) ps p (m p).2
  steady : Steady m
  strews : ∀ p : Pen, p.offset = base + byteSize p.text →
    ∃ gs, p.comments = gs ++ (m p).2.comments ∧ Strews gs p (m p).2
  keeps : ∀ p : Pen, Keeps p (m p).2

namespace Draws

variable {α β : Type} {base : Nat} {free : Bool} {ok : Prop} {m : Draw α} {f : α → Draw β}
  {ps qs : List Piece}

theorem of_calm (hleads : ∀ p : Pen, p.offset = base + byteSize p.text →
      ∃ gs, p.comments = gs ++ (m p).2.comments ∧ (free = false → gs = []) ∧
        Leads base ok (Piece.entriesAll ps ++ groupEntries gs) ps p (m p).2)
    (hsteady : Steady m) (hcalm : ∀ p, (m p).2.comments = p.comments)
    (hkeeps : ∀ p, Keeps p (m p).2) : Draws base free ok m ps := by
  refine ⟨hleads, hsteady, fun p hp => ?_, hkeeps⟩
  obtain ⟨_, _, _, hlead⟩ := hleads p hp
  exact ⟨[], (hcalm p).symm, .none hlead⟩

theorem bind (h : Draws base free ok m ps) (k : ∀ a, Draws base free ok (f a) qs) :
    Draws base free ok (m >>= f) (ps ++ qs) := by
  refine ⟨fun p hp => ?_, h.steady.bind fun a => (k a).steady, fun p hp => ?_,
    fun p => (h.keeps p).trans ((k _).keeps _)⟩
  · obtain ⟨gs, hgs, hfree, hlead⟩ := h.leads p hp
    obtain ⟨hs, hhs, kfree, klead⟩ := (k (m p).1).leads (m p).2 hlead.offset
    refine ⟨gs ++ hs, ?_, fun hf => by simp [hfree hf, kfree hf], ?_⟩
    · rw [hgs, hhs]
      exact (List.append_assoc _ _ _).symm
    · refine (hlead.trans klead).of_perm (List.perm_iff_count.2 fun e => ?_)
      simp only [groupEntries_append, Piece.entriesAll_append, List.count_append]
      omega
  · obtain ⟨_, _, _, hlead⟩ := h.leads p hp
    obtain ⟨gs, hgs, hstrews⟩ := h.strews p hp
    obtain ⟨hs, hhs, kstrews⟩ := (k (m p).1).strews (m p).2 hlead.offset
    refine ⟨gs ++ hs, ?_, hstrews.trans kstrews⟩
    rw [hgs, hhs]
    exact (List.append_assoc _ _ _).symm

theorem pass (h : Draws base free ok m []) (k : ∀ a, Draws base free ok (f a) qs) :
    Draws base free ok (m >>= f) qs := h.bind k

theorem followed (h : Draws base free ok m ps) (k : ∀ a, Draws base free ok (f a) []) :
    Draws base free ok (m >>= f) ps := by
  have hk := h.bind k
  rwa [List.append_nil] at hk

theorem imp {ok' : Prop} (h : Draws base free ok m ps) (hok : ok' → ok) :
    Draws base free ok' m ps := by
  refine ⟨fun p hp => ?_, h.steady, h.strews, h.keeps⟩
  obtain ⟨gs, hgs, hfree, hlead⟩ := h.leads p hp
  exact ⟨gs, hgs, hfree, hlead.imp hok⟩

theorem part {ok' : Prop} (h : Draws base free ok m ps)
    (hps : ∀ e ∈ Piece.entriesAll ps, e ∈ Piece.entriesAll qs) (hok : ¬ok') :
    Draws base free ok' m qs := by
  refine ⟨fun p hp => ?_, h.steady, h.strews, h.keeps⟩
  obtain ⟨gs, hgs, hfree, hlead⟩ := h.leads p hp
  refine ⟨gs, hgs, hfree, hlead.part (fun e he => ?_) hok⟩
  exact List.mem_append.2 ((List.mem_append.1 he).imp_left (hps e))

theorem get {f : Pen → Draw β} (hf : ∀ p o ms, f (p.moved o ms) = f p)
    (k : ∀ p, Draws base free ok (f p) ps) :
    Draws base free ok (MonadState.get >>= f) ps := by
  refine ⟨fun p hp => (k p).leads p hp, fun p o ms => ?_, fun p hp => (k p).strews p hp,
    fun p => (k p).keeps p⟩
  obtain ⟨o', ms', h⟩ := (k p).steady p o ms
  refine ⟨o', ms', ?_⟩
  change f (p.moved o ms) (p.moved o ms) = _
  rw [hf]
  exact h

theorem quiet {g : Pen → Pen} (hkeeps : ∀ p, Keeps p (g p))
    (hsame : ∀ p, (g p).pieces = p.pieces ∧ (g p).offset = p.offset ∧ (g p).marks = p.marks ∧
      (g p).comments = p.comments)
    (hmoved : ∀ p o ms, g (p.moved o ms) = (g p).moved o ms) :
    Draws base free ok (modify g) [] := by
  have hcomments (p : Pen) := (hsame p).2.2.2
  refine .of_calm (fun p hp => ?_) (fun p o ms => ⟨o, ms, congrArg (Prod.mk ()) (hmoved p o ms)⟩)
    hcomments hkeeps
  obtain ⟨htext, hoffset, hmarks, _⟩ := hsame p
  have hpen : (g p).text = p.text := by rw [Pen.text, htext, Pen.text]
  refine ⟨[], (hcomments p).symm, fun _ => rfl, ⟨[], ?_⟩, ?_, ?_, [], hmarks, by simp,
    fun _ _ => ⟨by simp, by simp, fun _ _ => .nil ?_⟩⟩
  · rw [List.append_nil]
    exact hpen
  · exact hoffset.trans (hp.trans (by rw [← hpen]; rfl))
  · exact Nat.le_of_eq hoffset.symm
  · exact Nat.le_of_eq hoffset.symm

theorem pure (a : α) : Draws base free ok (Pure.pure a) [] := by
  refine .of_calm (fun p hp => ?_) (fun p o ms => ⟨o, ms, rfl⟩) (fun _ => rfl) .refl
  exact ⟨[], rfl, fun _ => rfl, ⟨[], (List.append_nil _).symm⟩, hp, Nat.le_refl _, [], rfl, by simp,
    fun _ _ => ⟨by simp, by simp, fun _ _ => .nil (Nat.le_refl _)⟩⟩

theorem setLastEnd (e : Option Nat) : Draws base free ok (Draw.setLastEnd e) [] :=
  quiet (fun _ => ⟨rfl, id⟩) (fun _ => ⟨rfl, rfl, rfl, rfl⟩) fun _ _ _ => rfl

theorem setLastOp (o : Option String) : Draws base free ok (Draw.setLastOp o) [] :=
  quiet (fun _ => ⟨rfl, id⟩) (fun _ => ⟨rfl, rfl, rfl, rfl⟩) fun _ _ _ => rfl

theorem indentMore : Draws base free ok Draw.indentMore [] :=
  quiet (fun _ => ⟨rfl, id⟩) (fun _ => ⟨rfl, rfl, rfl, rfl⟩) fun _ _ _ => rfl

theorem indentLess : Draws base free ok Draw.indentLess [] :=
  quiet (fun _ => ⟨rfl, id⟩) (fun _ => ⟨rfl, rfl, rfl, rfl⟩) fun _ _ _ => rfl

theorem text_write (s : String) (p : Pen) (hp : p.offset = base + byteSize p.text) :
    (Draw.write s p).2.text = p.text ++ s.toList ∧
      (Draw.write s p).2.offset = base + byteSize (Draw.write s p).2.text := by
  have htext : (Draw.write s p).2.text = p.text ++ s.toList := by
    change (s :: p.pieces).reverse.flatMap String.toList = _
    simp [Pen.text]
  refine ⟨htext, ?_⟩
  rw [htext, byteSize_append, byteSize_toList, ← Nat.add_assoc, ← hp]
  rfl

theorem write (s : String) : Draws base free ok (Draw.write s) [] := by
  refine .of_calm (fun p hp => ?_) (fun p o ms => ⟨o + s.utf8ByteSize, ms, rfl⟩) (fun _ => rfl)
    fun _ => ⟨rfl, id⟩
  obtain ⟨htext, hoffset⟩ := text_write s p hp
  have hle : p.offset ≤ (Draw.write s p).2.offset := Nat.le_add_right _ _
  exact ⟨[], rfl, fun _ => rfl, ⟨s.toList, htext⟩, hoffset, hle, [], rfl, by simp,
    fun _ _ => ⟨by simp, by simp, fun _ _ => .nil hle⟩⟩

theorem text (s : String) : Draws base free ok (Draw.text s) [] :=
  (write s).pass fun _ => setLastOp none

theorem leads_marks {es : List Entry} {p q : Pen} (h : Leads base ok es ps p q) (ms : List Mark)
    (xs : List Entry) (hms : ∀ m ∈ ms, m.span = ⟨p.offset, q.offset⟩ ∧ ∃ x ∈ xs, m.id = x.tag.id)
    (hxs : ∀ x ∈ xs, ∃ m ∈ ms, m.id = x.tag.id) (hcount : ∀ i, markCount i ms ≤ idCount i xs)
    (htext : ∀ x ∈ xs, ∀ s, x.text = some s → Under base q.text ⟨p.offset, q.offset⟩ s.toList)
    {ok' : Prop} (hok : ok' → AllWhole xs → ok)
    (hrow : ∀ place : Tag → Span, (∀ x ∈ xs, place x.tag = ⟨p.offset, q.offset⟩) →
      Row place (fun _ => True) p.offset ps q.offset →
      Row place (fun _ => True) p.offset qs q.offset) :
    Leads base ok' (xs ++ es) qs p { q with marks := ms ++ q.marks } := by
  obtain ⟨ns, hns, hsound, hcomplete⟩ := h.marks
  refine ⟨h.text, h.offset, h.le, ms ++ ns, by simp [hns], ?_, fun hok' hall => ?_⟩
  · intro m hm
    rcases List.mem_append.1 hm with hm | hm
    · obtain ⟨hspan, x, hx, hid⟩ := hms m hm
      rw [hspan]
      refine ⟨Nat.le_refl _, x, List.mem_append_left _ hx, hid, ?_, ?_, ?_⟩ <;> rw [hspan]
      · exact h.le
      · exact Nat.le_of_eq h.offset
      · exact htext x hx
    · obtain ⟨hstart, e, he, hmark⟩ := hsound m hm
      exact ⟨hstart, e, List.mem_append_right _ he, hmark⟩
  · rw [allWhole_append] at hall
    obtain ⟨hmarked, hns, hps⟩ := hcomplete (hok hok' hall.1) hall.2
    refine ⟨fun e he => ?_, fun i => ?_, fun place hplace => ?_⟩
    · rcases List.mem_append.1 he with he | he
      · obtain ⟨m, hm, hid⟩ := hxs e he
        exact ⟨m, List.mem_append_left _ hm, hid⟩
      · obtain ⟨m, hm, hid⟩ := hmarked e he
        exact ⟨m, List.mem_append_right _ hm, hid⟩
    · rw [markCount_append, idCount_append]
      exact Nat.add_le_add (hcount i) (hns i)
    · refine hrow place (fun x hx => ?_) (hps place fun m hm => hplace m (List.mem_append_right _ hm))
      obtain ⟨m, hm, hid⟩ := hxs x hx
      rw [hplace m (List.mem_append_left _ hm) x.tag hid.symm, (hms m hm).1]

theorem leads_mark {es : List Entry} {p q : Pen} (h : Leads base ok es ps p q) (kind : MarkKind)
    {x : Entry} (htext : ∀ s, x.text = some s → Under base q.text ⟨p.offset, q.offset⟩ s.toList)
    {ok' : Prop} (hok : x.whole = true → ok)
    (hrow : ∀ place : Tag → Span, place x.tag = ⟨p.offset, q.offset⟩ →
      Row place (fun _ => True) p.offset ps q.offset →
      Row place (fun _ => True) p.offset qs q.offset) :
    Leads base ok' (x :: es) qs p (Draw.mark kind x.tag.id p.offset q).2 :=
  leads_marks h [⟨kind, x.tag.id, ⟨p.offset, q.offset⟩⟩] [x] (by simp) (by simp)
    (fun i => by simp [markCount, idCount, List.countP_cons]) (by simpa using htext) (fun _ hw => hok (by simpa using hw))
    fun place hplace => hrow place (by simpa using hplace)

theorem row_node {place : Tag → Span} {n : Node} {lo hi : Nat} (hn : place n.tag = ⟨lo, hi⟩)
    (h : Row place (fun _ => True) lo n.pieces hi) :
    Row place (fun _ => True) lo [.child n] hi := by
  have hstart : (place n.tag).start = lo := by rw [hn]
  have hstop : (place n.tag).stop = hi := by rw [hn]
  refine .child (Nat.le_of_eq hstart.symm) (.mk trivial ?_) (.nil (Nat.le_of_eq hstop))
  rwa [hstart, hstop]

theorem marking {form : Form} {n : Node} {content : Draw Unit} (htext : n.self.text = none)
    (h : Draws base free (n.self.whole = true) content n.pieces) : Draws base free ok (do
      let start ← Draw.offset
      content
      Draw.markNode form n.tag start) [.child n] := by
  refine ⟨fun p hp => ?_, SteadyFrom.offset (.bind h.steady fun _ => .mark _ _), fun p hp => ?_,
    fun p => ⟨(h.keeps p).lines, (h.keeps p).started⟩⟩
  case refine_2 =>
    obtain ⟨gs, hgs, hstrews⟩ := h.strews p hp
    exact ⟨gs, hgs, hstrews.mark [_]⟩
  obtain ⟨gs, hgs, hfree, hlead⟩ := h.leads p hp
  have hmark : Leads base ok (n.self :: _) [.child n] p
      (Draw.mark (.node form) n.self.tag.id p.offset (content p).2).2 :=
    leads_mark hlead (.node form) (by simp [htext]) (fun hw => hw)
      fun place hn hrow => row_node (n.tag_self ▸ hn) hrow
  rw [n.tag_self] at hmark
  refine ⟨gs, hgs, hfree, hmark.of_perm ?_⟩
  rw [Piece.entriesAll_cons, Piece.entriesAll_nil, List.append_nil]
  exact n.perm_entries.append_right (groupEntries gs)

theorem word {kind : MarkKind} {s : String} {e : Entry} {x : Piece} (hentries : x.entries = [e])
    (htext : e.text = some s)
    (hrow : ∀ (place : Tag → Span) lo hi, place e.tag = ⟨lo, hi⟩ → lo ≤ hi →
      Row place (fun _ => True) lo [x] hi) :
    Draws base free ok (do
      let start ← Draw.offset
      Draw.text s
      Draw.mark kind e.tag.id start) [x] := by
  refine .of_calm (fun p hp => ?_) (fun p o ms => ⟨o + s.utf8ByteSize, _, rfl⟩) (fun _ => rfl)
    fun _ => ⟨rfl, id⟩
  have hdraws : Draws base free True (Draw.text s) [] := text s
  obtain ⟨gs, hgs, hfree, hlead⟩ := hdraws.leads p hp
  have hpen : (Draw.text s p).2.text = p.text ++ s.toList := (text_write s p hp).1
  have hunder : ∀ s', e.text = some s' → Under base (Draw.text s p).2.text
      ⟨p.offset, (Draw.text s p).2.offset⟩ s'.toList := by
    intro s' hs
    obtain rfl : s = s' := Option.some.inj (htext.symm.trans hs)
    refine ⟨p.text, [], by rw [hpen, List.append_nil], ?_⟩
    rw [hlead.offset, hpen, byteSize_append, hp, Nat.add_assoc]
  have hmark : Leads base ok (e :: _) [x] p
      (Draw.mark kind e.tag.id p.offset (Draw.text s p).2).2 :=
    leads_mark hlead kind hunder (fun _ => trivial) fun place he _ => hrow place _ _ he hlead.le
  exact ⟨gs, hgs, hfree, hmark.of_perm (by simp [hentries])⟩

theorem ite {c : Prop} [Decidable c] {m' : Draw α} (h : c → Draws base free ok m ps)
    (h' : ¬c → Draws base free ok m' ps) : Draws base free ok (if c then m else m') ps := by
  split
  · exact h ‹_›
  · exact h' ‹_›

theorem optional {c : Prop} [Decidable c] {m : Draw Unit} (h : Draws base free ok m []) :
    Draws base free ok (if c then m else Pure.pure ()) [] := ite (fun _ => h) fun _ => pure ()

theorem perhaps {c : Prop} [Decidable c] {m : Draw Unit} {k : Unit → Draw β}
    (h : Draws base free ok m []) (hk : Draws base free ok (k ()) ps) :
    Draws base free ok (if c then m >>= k else k ()) ps :=
  ite (fun _ => h.pass fun _ => hk) fun _ => hk

theorem spaceIfCombines (next : String) : Draws base free ok (Draw.spaceIfCombines next) [] := by
  refine get (fun _ _ _ => rfl) fun p => ?_
  split
  · exact optional (text " ")
  · exact pure ()

theorem operator (s : String) : Draws base free ok (Draw.operator s) [] :=
  (spaceIfCombines s).pass fun _ => (write s).pass fun _ => setLastOp (some s)

theorem newlines (n : Nat) : Draws base free ok (Draw.newlines n) [] :=
  get (fun _ _ _ => rfl) fun _ => (write _).pass fun _ => setLastOp none

theorem separate (next : Span) (least : Nat) :
    Draws base free ok (Draw.separate next least) [] := by
  have hstart : Draws base free ok (modify fun q : Pen => { q with atStart := false }) [] :=
    quiet (fun _ => ⟨rfl, fun _ => rfl⟩) (fun _ => ⟨rfl, rfl, rfl, rfl⟩) fun _ _ _ => rfl
  have hrun : Draw.separate next least = (do
      let p ← MonadState.get
      if p.atStart = true then modify fun q => { q with atStart := false }
      else Draw.newlines (p.gap next least)) := by
    funext p
    change (if p.atStart = true then _ else _ : Draw Unit) p =
      (if p.atStart = true then _ else _ : Draw Unit) p
    split <;> rfl
  rw [hrun]
  exact get (fun _ _ _ => rfl) fun p => ite (fun _ => hstart) fun _ => newlines _

theorem name (role : NameRole) (n : Name) : Draws base free ok (Draw.name role n) [n.piece] :=
  word (e := n.entry) rfl rfl fun place lo hi hn hle => by
    have hn : place n.tag = ⟨lo, hi⟩ := hn
    refine .name ?_ ?_ (.nil ?_) <;> simp [hn, hle]

theorem names : ∀ ns : List Name, Draws base free ok (Draw.names ns) (ns.map Name.piece)
  | [] => pure ()
  | [n] => name .list n
  | n :: m :: ns => (name .list n).bind fun _ => (text ", ").pass fun _ => names (m :: ns)

theorem comment (c : Comment) : Draws base free ok (do
      let start ← Draw.offset
      Draw.text c.text
      Draw.markNode .comment c.tag start) [c.piece] :=
  word (e := c.entry) rfl rfl fun _ _ _ hc hle => row_node hc (.nil hle)

theorem moreComments (last : Nat) (cs : List Comment) :
    Draws base free ok (Draw.moreComments last cs) (cs.map Comment.piece) := by
  induction cs generalizing last with
  | nil => exact pure ()
  | cons c cs ih =>
    refine get (fun _ _ _ => rfl) fun p => ?_
    extract_lets jp
    have hjp : Draws base free ok (jp ()) ((c :: cs).map Comment.piece) :=
      (comment c).bind fun _ => ih _
    split
    · exact (text " ").pass fun _ => hjp
    · exact (newlines 1).pass fun _ => hjp

theorem commentGroup (g : CommentGroup) (least : Nat) :
    Draws base free ok (Draw.commentGroup g least) [g.piece] := by
  refine get (fun _ _ _ => rfl) fun p => ?_
  extract_lets rest
  have hrest : Draws base free ok (rest ()) [g.piece] := by
    obtain ⟨t, cs⟩ := g
    cases cs with
    | nil =>
      have hgroup : Draws base free ok (do
          let start ← Draw.offset
          Pure.pure ()
          Draw.markNode .commentGroup t start) [(CommentGroup.mk t []).piece] :=
        marking (n := .commentGroup ⟨t, []⟩) rfl (pure ())
      exact hgroup.followed fun _ => setLastEnd _
    | cons c cs =>
      have hgroup : Draws base free ok (do
          let start ← Draw.offset
          (do
            let start ← Draw.offset
            Draw.text c.text
            Draw.markNode .comment c.tag start
            Draw.moreComments c.tag.span.stop cs)
          Draw.markNode .commentGroup t start) [(CommentGroup.mk t (c :: cs)).piece] :=
        marking (n := .commentGroup ⟨t, c :: cs⟩) rfl ((comment c).bind fun _ => moreComments _ cs)
      exact hgroup.followed fun _ => setLastEnd _
  split
  · exact (text " ").pass fun _ => hrest
  · exact (separate _ _).pass fun _ => hrest

theorem inlineGroup (cs : List Comment) :
    Draws base free ok (Draw.inlineGroup cs) (cs.map Comment.piece) := by
  induction cs with
  | nil => exact pure ()
  | cons c cs ih =>
    cases cs with
    | nil => exact comment c
    | cons d cs => exact (comment c).bind fun _ => (text " ").pass fun _ => ih

end Draws

/-- Drawing while exactly these comments wait. -/
structure DrawsBefore {α : Type} (base : Nat) (gs : List CommentGroup) (m : Draw α) : Prop where
  leads : ∀ (p : Pen) (ok : Prop), p.offset = base + byteSize p.text → p.comments = gs →
    ∃ hs, gs = hs ++ (m p).2.comments ∧ Leads base ok (groupEntries hs) [] p (m p).2
  steady : Steady m
  strews : ∀ p : Pen, p.offset = base + byteSize p.text → p.comments = gs →
    ∃ hs, gs = hs ++ (m p).2.comments ∧ Strews hs p (m p).2
  keeps : ∀ p : Pen, Keeps p (m p).2

namespace DrawsBefore

variable {α β : Type} {base : Nat} {g : CommentGroup} {gs : List CommentGroup} {m : Draw α}
  {f : α → Draw β}

theorem of (h : ∀ ok, Draws base true ok m []) : DrawsBefore base gs m := by
  refine ⟨fun p ok hp hgs => ?_, (h True).steady, fun p hp hgs => hgs ▸ (h True).strews p hp,
    (h True).keeps⟩
  obtain ⟨hs, hhs, _, hlead⟩ := (h ok).leads p hp
  exact ⟨hs, hgs ▸ hhs, hlead⟩

theorem get {f : Pen → Draw β} (hf : ∀ p o ms, f (p.moved o ms) = f p)
    (k : ∀ p, DrawsBefore base gs (f p)) :
    DrawsBefore base gs (MonadState.get >>= f) := by
  refine ⟨fun p ok hp hgs => (k p).leads p ok hp hgs, fun p o ms => ?_,
    fun p hp hgs => (k p).strews p hp hgs, fun p => (k p).keeps p⟩
  obtain ⟨o', ms', h⟩ := (k p).steady p o ms
  refine ⟨o', ms', ?_⟩
  change f (p.moved o ms) (p.moved o ms) = _
  rw [hf]
  exact h

theorem ite {c : Prop} [Decidable c] {m' : Draw α} (h : c → DrawsBefore base gs m)
    (h' : ¬c → DrawsBefore base gs m') : DrawsBefore base gs (if c then m else m') := by
  split
  · exact h ‹_›
  · exact h' ‹_›

theorem take (h : ∀ ok, Draws base false ok m [g.piece]) (k : ∀ a, DrawsBefore base gs (f a)) :
    DrawsBefore base (g :: gs) (do Draw.setComments gs; let a ← m; f a) := by
  have hfirst (p : Pen) (ok : Prop) (hp : p.offset = base + byteSize p.text) :
      gs = (m { p with comments := gs }).2.comments ∧
        Leads base ok g.entries [g.piece] p (m { p with comments := gs }).2 := by
    obtain ⟨hs, hhs, hnone, hlead⟩ := (h ok).leads { p with comments := gs } hp
    cases hnone rfl
    exact ⟨hhs, hlead.text, hlead.offset, hlead.le,
      by simpa [Piece.entries, Node.entries] using hlead.marks⟩
  refine ⟨fun p ok hp hcomments => ?_, ?_, fun p hp hcomments => ?_, fun p => ?_⟩
  · obtain ⟨hgs, hlead⟩ := hfirst p ok hp
    obtain ⟨is, his, klead⟩ := (k _).leads _ ok hlead.offset hgs.symm
    exact ⟨g :: is, congrArg (g :: ·) his, hlead.forget.trans klead⟩
  · have hset : Steady (Draw.setComments gs) := fun p o ms => ⟨o, ms, rfl⟩
    exact hset.bind fun _ => (h True).steady.bind fun a => (k a).steady
  · obtain ⟨hgs, hlead⟩ := hfirst p True hp
    obtain ⟨is, his, kstrews⟩ := (k _).strews _ hlead.offset hgs.symm
    exact ⟨g :: is, congrArg (g :: ·) his, (Strews.one hlead).trans kstrews⟩
  · have hm := (h True).keeps { p with comments := gs }
    exact Keeps.trans ⟨hm.lines, hm.started⟩ ((k _).keeps _)

end DrawsBefore

namespace Draws

variable {α β : Type} {base : Nat} {ok : Prop}

theorem waiting {f : List CommentGroup → Draw β} (k : ∀ gs, DrawsBefore base gs (f gs)) :
    Draws base true ok (do f (← MonadState.get).comments) [] := by
  refine ⟨fun p hp => ?_, fun p o ms => (k p.comments).steady p o ms,
    fun p hp => (k p.comments).strews p hp rfl, fun p => (k p.comments).keeps p⟩
  obtain ⟨hs, hhs, hlead⟩ := (k p.comments).leads p ok hp rfl
  exact ⟨hs, hhs, nofun, hlead⟩

theorem flushFrom (limit least : Nat) (gs : List CommentGroup) :
    DrawsBefore base gs (Draw.flushFrom limit least gs) := by
  induction gs generalizing least with
  | nil => exact .of fun _ => pure _
  | cons g gs ih =>
    refine .ite (fun _ => .of fun _ => pure _) fun _ => .take (fun _ => commentGroup g least) fun _ => ?_
    have hrest := ih 1
    refine ⟨fun p ok hp hgs => hrest.leads p ok hp hgs, ?_, fun p hp hgs => hrest.strews p hp hgs,
      hrest.keeps⟩
    exact hrest.steady.bind fun _ p o ms => ⟨o, ms, rfl⟩

theorem flush (limit least : Nat) : Draws base true ok (Draw.flush limit least) [] :=
  waiting fun gs => flushFrom limit least gs

theorem flushTrailingFrom (gs : List CommentGroup) :
    DrawsBefore base gs (Draw.flushTrailingFrom gs) := by
  induction gs with
  | nil => exact .of fun _ => pure ()
  | cons g gs ih =>
    exact .get (fun _ _ _ => rfl) fun p =>
      .ite (fun _ => .take (fun _ => commentGroup g 1) fun _ => ih) fun _ =>
      .of fun _ => pure ()

theorem flushTrailing : Draws base true ok Draw.flushTrailing [] :=
  waiting fun gs => flushTrailingFrom gs

theorem inlineFrom (span : Span) (gs : List CommentGroup) :
    DrawsBefore base gs (Draw.inlineFrom span gs) := by
  induction gs with
  | nil => exact .of fun _ => pure ()
  | cons g gs ih =>
    refine .get (fun _ _ _ => rfl) fun p => .ite (fun _ => ?_) fun _ => .of fun _ => pure ()
    have hgroup (ok : Prop) : Draws base false ok (do
        let start ← Draw.offset
        Draw.inlineGroup g.comments
        Draw.markNode .commentGroup g.tag start
        Draw.text " ") [g.piece] :=
      (marking (n := .commentGroup g) rfl (inlineGroup g.comments)).followed fun _ => text " "
    have htake := DrawsBefore.take hgroup fun _ => ih
    exact ⟨fun p ok hp hgs => htake.leads p ok hp hgs, htake.steady,
      fun p hp hgs => htake.strews p hp hgs, htake.keeps⟩

theorem inlineComments (span : Span) : Draws base true ok (Draw.inlineComments span) [] :=
  ite (fun _ => pure ()) fun _ => waiting fun gs => inlineFrom span gs

theorem beforeItem (span : Span) (least : Nat) :
    Draws base true ok (Draw.beforeItem span least) [] :=
  ite (fun _ => flushTrailing.pass fun _ => pure _) fun _ => (flush _ _).pass fun _ => pure _

theorem itemBreak (span : Span) (least : Nat) :
    Draws base true ok (Draw.itemBreak span least) [] :=
  (beforeItem span least).pass fun _ => separate _ _

theorem close (span : Span) (delim : String) (indented : Bool) :
    Draws base true ok (Draw.close span delim indented) [] := by
  refine (flush _ 1).pass fun _ => ?_
  extract_lets rest
  have hrest : Draws base true ok (rest ()) [] := (separate _ 1).pass fun _ => text delim
  exact ite (fun _ => indentLess.pass fun _ => hrest) fun _ => hrest

theorem groupBreak (first : Bool) (span : Span) :
    Draws base true ok (Draw.groupBreak first span) [] := by
  refine ite (fun _ => itemBreak span 1) fun _ => ite (fun _ => ?_) fun _ => newlines 1
  exact (flush _ 1).pass fun _ => ite (fun _ => separate _ 1) fun _ => newlines 1

theorem closeGroup (span : Span) (delim : String) :
    Draws base true ok (Draw.closeGroup span delim) [] :=
  (flush _ 1).pass fun _ => indentLess.pass fun _ => (newlines 1).pass fun _ => text delim

theorem breakOnce (s : Draw.ListState) : Draws base true ok (Draw.breakOnce s) [] := by
  refine ite (fun _ => ?_) fun _ => ?_
  · exact pure _
  · exact indentMore.pass fun _ => pure _

end Draws

/-- The items draw pieces, one after the other. -/
inductive DrawsItems (base : Nat) (ok : Prop) : List Draw.Item → List Piece → Prop where
  | nil : DrawsItems base ok [] []
  | cons {x : Draw.Item} {xs : List Draw.Item} {ps qs : List Piece} :
      Draws base true ok x.draw ps → DrawsItems base ok xs qs →
      DrawsItems base ok (x :: xs) (ps ++ qs)

namespace DrawsItems

variable {base : Nat} {ok : Prop} {items : List Draw.Item} {ps : List Piece}

theorem one {x : Draw.Item} {p : Piece} (h : Draws base true ok x.draw [p])
    (k : DrawsItems base ok items ps) : DrawsItems base ok (x :: items) (p :: ps) := .cons h k

theorem listItems (h : DrawsItems base ok items ps) (tail : String) (first : Bool)
    (s : Draw.ListState) : Draws base true ok (Draw.listItems tail first s items) ps := by
  induction h generalizing first s with
  | nil => exact .pure _
  | @cons x xs ps qs hx hxs ih =>
    rw [Draw.listItems]
    extract_lets item plain
    have hitem (s : Draw.ListState) : Draws base true ok (item s) (ps ++ qs) := by
      refine hx.bind fun _ => .perhaps (.text tail) (.get (fun _ _ _ => rfl) fun p => ?_)
      exact .perhaps (.setLastEnd _) (ih false _)
    have hspace : Draws base true ok (plain ()) (ps ++ qs) := (Draws.pure s).pass fun _ => hitem _
    have hbreak : Draws base true ok (do
        let p ← get
        if Draw.laterLine s.line (p.lineAt? x.span.start) = true then do
          let s ← Draw.breakOnce s
          Draw.itemBreak x.span 1
          let s ← pure s
          item s
        else if first = true then plain ()
        else do
          let r ← Draw.text " "
          plain r) (ps ++ qs) := by
      refine .get (fun _ _ _ => rfl) fun p =>
        .ite (fun _ => ?_) fun _ => .ite (fun _ => hspace) fun _ =>
        (Draws.text " ").pass fun _ => hspace
      exact (Draws.breakOnce s).pass fun _ => (Draws.itemBreak _ 1).pass fun _ =>
        (Draws.pure _).pass fun _ => hitem _
    exact .ite (fun _ => hbreak) fun _ => (Draws.text ",").pass fun _ => hbreak

theorem list (h : DrawsItems base ok items ps) (opening : Nat) (closing : Span) (tail : String) :
    Draws base true ok (Draw.list opening items closing tail) ps := by
  refine .get (fun _ _ _ => rfl) fun p => ?_
  extract_lets line rest
  have hend (closes : Bool) (s : Draw.ListState) : Draws base true ok (do
      if s.broken then Draw.indentLess
      if closes then Draw.newlines 1) [] :=
    .perhaps .indentLess (.optional (.newlines 1))
  refine .perhaps (.setLastEnd _) ((h.listItems tail true _).followed fun s =>
    .get (fun _ _ _ => rfl) fun q => ?_)
  refine .ite (fun _ => ?_) fun _ => (Draws.pure s).pass fun _ => hend _ _
  exact (Draws.text ",").pass fun _ => (Draws.breakOnce s).pass fun _ =>
    (Draws.flush _ 1).pass fun _ => (Draws.pure _).pass fun _ => hend _ _

end DrawsItems

end FuncLift
