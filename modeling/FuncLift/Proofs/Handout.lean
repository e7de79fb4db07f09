import FuncLift.Document
import FuncLift.Proofs.Entry
import FuncLift.Proofs.Spelled

/-!
# What reading hands out

Reading gives every entry a number of its own. The rules below follow a reader through its steps
with the entries it holds: a step may drop some of them, and all that it adds has fresh numbers. No
entry has a span that starts inside the text and ends outside of it, and the text under the span of a
word is the word.
-/
namespace FuncLift

@[simp] theorem Tag.tag_entry (t : Tag) : t.entry.tag = t := rfl

@[simp] theorem Name.tag_entry (n : Name) : n.entry.tag = n.tag := rfl

@[simp] theorem Tag.whole_entry (t : Tag) : t.entry.whole = true := rfl

@[simp] theorem Name.whole_entry (n : Name) : n.entry.whole = true := rfl

@[simp] theorem mk_none_true (t : Tag) : (⟨t, none, true⟩ : Entry) = t.entry := rfl

@[simp] theorem nameEntries_nil : nameEntries [] = [] := rfl

@[simp] theorem nameEntries_cons (n : Name) (ns : List Name) :
    nameEntries (n :: ns) = n.entry :: nameEntries ns := rfl

@[simp] theorem nameEntries_append (ns ms : List Name) :
    nameEntries (ns ++ ms) = nameEntries ns ++ nameEntries ms := List.map_append

theorem eq_of_countP {α : Type} {p : α → Bool} {xs : List α} (h : xs.countP p ≤ 1) {a b : α}
    (ha : a ∈ xs) (hb : b ∈ xs) (hpa : p a = true) (hpb : p b = true) : a = b := by
  rw [List.countP_eq_length_filter] at h
  have ha := List.mem_filter.2 ⟨ha, hpa⟩
  have hb := List.mem_filter.2 ⟨hb, hpb⟩
  obtain ⟨x, hx⟩ := List.length_eq_one_iff.1 (Nat.le_antisymm h (List.length_pos_of_mem ha))
  rw [hx, List.mem_singleton] at ha hb
  rw [ha, hb]

/-- How often a tag number occurs among entries. -/
def idCount (i : Nat) (es : List Entry) : Nat := es.countP fun e => e.tag.id == i

@[simp] theorem idCount_nil (i : Nat) : idCount i [] = 0 := rfl

@[simp] theorem idCount_append (i : Nat) (es fs : List Entry) :
    idCount i (es ++ fs) = idCount i es + idCount i fs := List.countP_append

@[simp] theorem idCount_cons (i : Nat) (e : Entry) (es : List Entry) :
    idCount i (e :: es) = (if e.tag.id = i then 1 else 0) + idCount i es := by
  simp [idCount, List.countP_cons, Nat.add_comm]

/-- One for the numbers from `lo` up to `hi`, and zero for the others. -/
def between (lo hi i : Nat) : Nat := if lo ≤ i ∧ i < hi then 1 else 0

theorem between_add {a b c : Nat} (hab : a ≤ b) (hbc : b ≤ c) (i : Nat) :
    between a b i + between b c i = between a c i := by
  unfold between
  split <;> split <;> split <;> omega

theorem between_le_one (lo hi i : Nat) : between lo hi i ≤ 1 := by
  unfold between
  split <;> omega

theorem between_of_lt {lo hi i : Nat} (h : i < lo) : between lo hi i = 0 := by
  unfold between
  split <;> omega

theorem lt_of_between_pos {lo hi i : Nat} (h : 0 < between lo hi i) : i < hi := by
  unfold between at h
  split at h <;> omega

/-- A span that starts inside a text of the given size also ends inside, and drawing the node
reaches all of its children. -/
def Entry.Fine (size : Nat) (e : Entry) : Prop :=
  (e.span.start < size → e.span.stop < size) ∧ e.whole = true

/-- A text, and where something that is read from it may start. -/
structure Page where
  text : List Char
  starts : Nat → Prop

/-- A text in which something may start anywhere. -/
def Page.free (text : List Char) : Page := ⟨text, fun _ => True⟩

/-- An entry that was read from a text: it starts where something may, and a word stands where it
says. -/
structure Entry.ReadFrom (source : Page) (e : Entry) : Prop where
  fine : e.Fine (byteSize source.text)
  under : ∀ s, e.text = some s → Under 0 source.text e.span s.toList
  start : source.starts e.span.start

/-- How often an entry occurs. -/
def tally (x : Entry) (es : List Entry) : Nat := es.count x

@[simp] theorem tally_nil (x : Entry) : tally x [] = 0 := rfl

@[simp] theorem tally_append (x : Entry) (es fs : List Entry) :
    tally x (es ++ fs) = tally x es + tally x fs := List.count_append

@[simp] theorem tally_cons (x e : Entry) (es : List Entry) :
    tally x (e :: es) = (if e = x then 1 else 0) + tally x es := by
  simp [tally, List.count_cons, Nat.add_comm]

/-- Entries made from those at hand, each used at most as often as it is there. -/
def Covers (held made : List Entry) : Prop := ∀ x, tally x made ≤ tally x held

theorem Covers.mem {held made : List Entry} (h : Covers held made) {e : Entry} (he : e ∈ made) :
    e ∈ held := by
  have h1 : 0 < tally e made := List.count_pos_iff.2 he
  exact List.count_pos_iff.1 (Nat.lt_of_lt_of_le h1 (h e))

theorem Covers.idCount_le {held made : List Entry} (h : Covers held made) (i : Nat) :
    idCount i made ≤ idCount i held := by
  induction made generalizing held with
  | nil => exact Nat.zero_le _
  | cons e es ih =>
    have he : e ∈ held := h.mem List.mem_cons_self
    have hp : held.Perm (e :: held.erase e) := List.perm_cons_erase he
    have hrest : Covers (held.erase e) es := by
      intro x
      have hx := h x
      have hc : tally x held = tally x (e :: held.erase e) := hp.count_eq x
      simp only [hc, tally_cons] at hx
      omega
    have hi : idCount i held = idCount i (e :: held.erase e) := hp.countP_eq _
    rw [hi, idCount_cons, idCount_cons]
    have := ih hrest
    omega

/-- A token that lies inside of a text before its end, with its word under it. -/
structure Placed.ReadFrom (source : Page) (p : Placed) : Prop where
  ordered : p.span.start ≤ p.span.stop
  inside : p.span.stop < byteSize source.text
  under : ∀ w, p.token.word? = some w → Under 0 source.text p.span w.toList
  start : source.starts p.span.start

/-- All tokens ahead end inside the text, and so did those taken. -/
structure Cursor.Sound (source : Page) (c : Cursor) : Prop where
  ahead : ∀ p ∈ c.ahead, p.ReadFrom source
  reached : c.reached < byteSize source.text
  size : source.starts c.size

/-- Where the next token starts. -/
def Cursor.next (c : Cursor) : Nat := (c.ahead.head?.map fun p => p.span.start).getD c.size

theorem Cursor.Sound.starts_next {source : Page} {c : Cursor} (h : c.Sound source) :
    source.starts c.next := by
  obtain ⟨ahead, size, reached, literals, nextId⟩ := c
  cases ahead with
  | nil => exact h.size
  | cons p rest => exact (h.ahead p List.mem_cons_self).start

/-- A reader that holds `held` when the condition on the cursor is met returns what it made of
them and of fresh numbers. -/
def Yields {α : Type} (source : Page) (pre : Cursor → Prop) (held : List Entry) (r : Read α)
    (made : α → List Entry) (post : α → Prop) : Prop :=
  ∀ c a c', c.Sound source → pre c → (∀ e ∈ held, e.ReadFrom source) → r c = .ok (a, c') →
    c'.Sound source ∧ c.nextId ≤ c'.nextId ∧ post a ∧ (∀ e ∈ made a, e.ReadFrom source) ∧
      ∀ i, idCount i (made a) ≤ idCount i held + between c.nextId c'.nextId i

/-- No condition on the cursor. -/
def Anywhere : Cursor → Prop := fun _ => True

/-- A reader that needs nothing at hand. -/
abbrev Gives {α : Type} (source : Page) (r : Read α) (made : α → List Entry) : Prop :=
  Yields source Anywhere [] r made fun _ => True

/-- The next token is the given one, or there is none. -/
def Facing (t : Option Token) : Cursor → Prop := fun c => c.ahead.head?.map Placed.token = t

def Nonempty (c : Cursor) : Prop := c.ahead ≠ []

theorem Facing.nonempty {t : Token} {c : Cursor} (h : Facing (some t) c) : Nonempty c := by
  intro hc
  simp [Facing, hc] at h

theorem Facing.of_take {t : Token} {p : Placed} {c c' : Cursor} (h : Facing (some t) c)
    (ht : Read.take c = .ok (p, c')) : p.token = t ∧ ∃ rest, c.ahead = p :: rest ∧ c'.reached =
      if Read.isLineEnd p then c.reached else p.span.stop := by
  obtain ⟨ahead, n, reached, literals, nextId⟩ := c
  cases ahead with
  | nil => simp [Facing] at h
  | cons q rest =>
    cases ht
    exact ⟨by simpa [Facing] using h, rest, rfl, rfl⟩

namespace Read

theorem bind_ok {α β : Type} {r : Read α} {f : α → Read β} {c c'' : Cursor} {b : β} :
    (r >>= f) c = .ok (b, c'') ↔ ∃ a c', r c = .ok (a, c') ∧ f a c' = .ok (b, c'') := by
  simp only [bind, StateT.bind, Except.bind]
  cases r c with
  | error d => simp
  | ok p =>
    constructor
    · intro h
      exact ⟨p.1, p.2, rfl, h⟩
    · rintro ⟨a, c', hp, h⟩
      cases hp
      exact h

theorem pure_ok {α : Type} {a b : α} {c c' : Cursor} :
    (pure a : Read α) c = .ok (b, c') ↔ a = b ∧ c = c' := by
  change Except.ok (a, c) = .ok (b, c') ↔ _
  simp

theorem get_ok {c d c' : Cursor} : (get : Read Cursor) c = .ok (d, c') ↔ c = d ∧ c = c' := by
  simp [get, getThe, MonadStateOf.get, StateT.get, pure, Except.pure]

theorem fail_not_ok {α : Type} {f : ParseFault} {span : Span} {c : Cursor} {x : α × Cursor} :
    (fail f span : Read α) c ≠ .ok x := by
  intro h
  cases h

theorem peek_ok {c c' : Cursor} {t : Option Token} :
    peek c = .ok (t, c') ↔ Facing t c ∧ c = c' := by
  constructor
  · intro h
    cases h
    exact ⟨rfl, rfl⟩
  · rintro ⟨rfl, rfl⟩
    rfl

theorem unexpected_not_ok {α : Type} {w : Wanted} {c : Cursor} {x : α × Cursor} :
    (unexpected w : Read α) c ≠ .ok x := by
  intro h
  obtain ⟨d, c', hd, h⟩ := bind_ok.1 h
  cases ha : d.ahead with
  | nil => rw [ha] at h; exact fail_not_ok h
  | cons p rest => rw [ha] at h; exact fail_not_ok h

theorem exhausted_not_ok {α : Type} {c : Cursor} {x : α × Cursor} :
    (exhausted : Read α) c ≠ .ok x := by
  intro h
  obtain ⟨_, _, _, h⟩ := bind_ok.1 h
  obtain ⟨_, _, _, h⟩ := bind_ok.1 h
  exact fail_not_ok h

end Read

/-- A reader that needs a token. -/
def FailsAtEnd {α : Type} (r : Read α) : Prop := ∀ c x, c.ahead = [] → r c ≠ .ok x

namespace FailsAtEnd

variable {α β : Type} {r : Read α} {f : α → Read β}

theorem bind (h : FailsAtEnd r) : FailsAtEnd (r >>= f) := by
  intro c x hc hr
  obtain ⟨a, c', hr, _⟩ := Read.bind_ok.1 hr
  exact h c _ hc hr

theorem unexpected {w : Wanted} : FailsAtEnd (Read.unexpected w : Read α) :=
  fun _ _ _ => Read.unexpected_not_ok

theorem exhausted : FailsAtEnd (Read.exhausted : Read α) := fun _ _ _ => Read.exhausted_not_ok

theorem peek {f : Option Token → Read β} (h : FailsAtEnd (f none)) :
    FailsAtEnd (Read.peek >>= f) := by
  intro c x hc hr
  obtain ⟨t, c', hp, hr⟩ := Read.bind_ok.1 hr
  obtain ⟨ht, rfl⟩ := Read.peek_ok.1 hp
  have : t = none := by simpa [Facing, hc] using ht.symm
  exact h c x hc (this ▸ hr)

theorem skip (hr : ∀ c a c', r c = .ok (a, c') → c' = c) (hf : ∀ a, FailsAtEnd (f a)) :
    FailsAtEnd (r >>= f) := by
  intro c x hc h
  obtain ⟨a, c', ha, h⟩ := Read.bind_ok.1 h
  cases hr c a c' ha
  exact hf a c x hc h

theorem start {f : Nat → Read β} (hf : ∀ s, FailsAtEnd (f s)) : FailsAtEnd (Read.start >>= f) :=
  skip (fun _ _ _ h => by cases h; rfl) hf

theorem expect {t : Token} : FailsAtEnd (Read.expect t) := by
  intro c x hc hr
  obtain ⟨b, c', he, hr⟩ := Read.bind_ok.1 hr
  obtain ⟨met, c1, ha, he⟩ := Read.bind_ok.1 he
  cases ha
  simp [hc] at he
  obtain ⟨rfl, rfl⟩ := Read.pure_ok.1 he
  exact Read.unexpected_not_ok hr

end FailsAtEnd

namespace Yields

variable {α β : Type} {source : Page} {pre : Cursor → Prop} {held : List Entry} {r : Read α}
  {f : α → Read β} {made : α → List Entry} {post : α → Prop} {made' : β → List Entry}
  {post' : β → Prop}

theorem of_pre {pre' : Cursor → Prop} (h : Yields source pre held r made post)
    (hp : ∀ c, pre' c → pre c) : Yields source pre' held r made post :=
  fun c a c' hs hc => h c a c' hs (hp c hc)

theorem of_anywhere (h : Yields source Anywhere held r made post) :
    Yields source pre held r made post := h.of_pre fun _ _ => trivial

theorem of_covers {other : List Entry} (h : Yields source pre held r made post)
    (hc : Covers other held) : Yields source pre other r made post := by
  intro c a c' hs hp hf hr
  obtain ⟨h1, h2, h3, h4, h5⟩ := h c a c' hs hp (fun e he => hf e (hc.mem he)) hr
  refine ⟨h1, h2, h3, h4, fun i => ?_⟩
  have := h5 i
  have := hc.idCount_le i
  omega

theorem never (h : ∀ c x, r c ≠ .ok x) : Yields source pre held r made post :=
  fun c _ _ _ _ _ hr => absurd hr (h c _)

theorem neverThen (h : ∀ c x, r c ≠ .ok x) : Yields source pre held (r >>= f) made' post' :=
  never fun c _ hr => by
    obtain ⟨_, _, hr, _⟩ := Read.bind_ok.1 hr
    exact h c _ hr

theorem unexpected {w : Wanted} : Yields source pre held (Read.unexpected w) made post :=
  never fun _ _ => Read.unexpected_not_ok

theorem exhausted : Yields source pre held Read.exhausted made post :=
  never fun _ _ => Read.exhausted_not_ok

theorem fail {e : ParseFault} {span : Span} : Yields source pre held (Read.fail e span) made post :=
  never fun _ _ => Read.fail_not_ok

theorem at_end (h : FailsAtEnd r) : Yields source (Facing none) held r made post := by
  intro c a c' _ hp _ hr
  refine absurd hr (h c _ ?_)
  cases hc : c.ahead with
  | nil => rfl
  | cons p rest => simp [Facing, hc] at hp

theorem pure {a : α} (hc : Covers held (made a)) (hp : post a) :
    Yields source pre held (pure a) made post := by
  intro c b c' hs _ hf hr
  obtain ⟨rfl, rfl⟩ := Read.pure_ok.1 hr
  refine ⟨hs, Nat.le_refl _, hp, fun e he => hf e (hc.mem he), fun i => ?_⟩
  have := hc.idCount_le i
  omega

theorem bind (h : Yields source pre held r made post)
    (k : ∀ a, post a → Yields source Anywhere (made a) (f a) made' post') :
    Yields source pre held (r >>= f) made' post' := by
  intro c b c'' hs hp hf hr
  obtain ⟨a, c', hr, hk⟩ := Read.bind_ok.1 hr
  obtain ⟨h1, h2, h3, h4, h5⟩ := h c a c' hs hp hf hr
  obtain ⟨k1, k2, k3, k4, k5⟩ := k a h3 c' b c'' h1 trivial h4 hk
  refine ⟨k1, Nat.le_trans h2 k2, k3, k4, fun i => ?_⟩
  have := h5 i
  have := k5 i
  have := between_add h2 k2 i
  omega

theorem bindSame (h : Yields source pre held r made post)
    (same : ∀ c a c', r c = .ok (a, c') → c' = c)
    (k : ∀ a, post a → Yields source pre (made a) (f a) made' post') :
    Yields source pre held (r >>= f) made' post' := by
  intro c b c'' hs hp hf hr
  obtain ⟨a, c', hr, hk⟩ := Read.bind_ok.1 hr
  obtain ⟨h1, h2, h3, h4, h5⟩ := h c a c' hs hp hf hr
  cases same c a c' hr
  obtain ⟨k1, k2, k3, k4, k5⟩ := k a h3 c b c'' h1 hp h4 hk
  refine ⟨k1, k2, k3, k4, fun i => ?_⟩
  have := h5 i
  have := k5 i
  have : between c.nextId c.nextId i = 0 := by
    unfold between
    split <;> omega
  omega

theorem frame {more : List Entry} (h : Yields source pre held r made post) :
    Yields source pre (held ++ more) r (fun a => made a ++ more) post := by
  intro c a c' hs hp hf hr
  obtain ⟨h1, h2, h3, h4, h5⟩ :=
    h c a c' hs hp (fun e he => hf e (List.mem_append_left _ he)) hr
  refine ⟨h1, h2, h3, fun e he => ?_, fun i => ?_⟩
  · rcases List.mem_append.1 he with he | he
    · exact h4 e he
    · exact hf e (List.mem_append_right _ he)
  · have := h5 i
    simp only [idCount_append]
    omega

/-- A reader that needs nothing adds what it makes to what is at hand. -/
theorem step (h : Yields source pre [] r made post)
    (k : ∀ a, post a → Yields source Anywhere (made a ++ held) (f a) made' post') :
    Yields source pre held (r >>= f) made' post' :=
  bind h.frame k

theorem stepAs (made : α → List Entry) (h : Yields source pre [] r made fun _ => True)
    (k : ∀ a, Yields source Anywhere (made a ++ held) (f a) made' post') :
    Yields source pre held (r >>= f) made' post' := h.step fun a _ => k a

theorem framed (more : List Entry) {other : List Entry} (h : Yields source pre held r made post)
    (hc : Covers other (held ++ more))
    (k : ∀ a, post a → Yields source Anywhere (made a ++ more) (f a) made' post') :
    Yields source pre other (r >>= f) made' post' := bind (h.frame.of_covers hc) k

theorem ret {a : α} (h : Yields source pre held (f a) made' post') :
    Yields source pre held (Pure.pure a >>= f) made' post' := h

theorem withLiterals {allowed : Bool} (h : Yields source Anywhere held r made post) :
    Yields source pre held (Read.withLiterals allowed r) made post := by
  intro c a c' hs _ hf hr
  obtain ⟨_, _, hg, hr⟩ := Read.bind_ok.1 hr
  obtain ⟨rfl, rfl⟩ := Read.get_ok.1 hg
  obtain ⟨_, c1, hm, hr⟩ := Read.bind_ok.1 hr
  obtain ⟨b, c2, hb, hr⟩ := Read.bind_ok.1 hr
  obtain ⟨_, c3, hm', hr⟩ := Read.bind_ok.1 hr
  obtain ⟨rfl, rfl⟩ := Read.pure_ok.1 hr
  cases hm
  cases hm'
  obtain ⟨h1, h2, h3, h4, h5⟩ := 
    h { c with literals := allowed } b c2 ⟨hs.ahead, hs.reached, hs.size⟩ trivial hf hb
  exact ⟨⟨h1.ahead, h1.reached, h1.size⟩, h2, h3, h4, h5⟩

theorem peek {f : Option Token → Read β} (k : ∀ t, Yields source (Facing t) held (f t) made' post') :
    Yields source pre held (Read.peek >>= f) made' post' := by
  intro c b c' hs _ hf hr
  obtain ⟨t, c1, hp, hr⟩ := Read.bind_ok.1 hr
  obtain ⟨ht, rfl⟩ := Read.peek_ok.1 hp
  exact k t c b c' hs ht hf hr

theorem get {f : Cursor → Read β} (k : ∀ c, Yields source Anywhere held (f c) made' post') :
    Yields source pre held (get >>= f) made' post' := by
  intro c b c' hs _ hf hr
  obtain ⟨d, c1, hg, hr⟩ := Read.bind_ok.1 hr
  obtain ⟨rfl, rfl⟩ := Read.get_ok.1 hg
  exact k c c b c' hs trivial hf hr

theorem take_ok {c c' : Cursor} {p : Placed} (hs : c.Sound source) (hne : Nonempty c)
    (h : Read.take c = .ok (p, c')) :
    c'.Sound source ∧ c.nextId = c'.nextId ∧ p.ReadFrom source := by
  obtain ⟨ahead, n, reached, literals, nextId⟩ := c
  cases ahead with
  | nil => exact absurd rfl hne
  | cons q rest =>
    cases h
    have hq := hs.ahead p List.mem_cons_self
    refine ⟨⟨fun x hx => hs.ahead x (List.mem_cons_of_mem _ hx), ?_, hs.size⟩, rfl, hq⟩
    dsimp only
    split
    · exact hs.reached
    · exact hq.inside

theorem take {f : Placed → Read β} (hne : ∀ c, pre c → Nonempty c)
    (k : ∀ p, p.ReadFrom source → Yields source Anywhere held (f p) made' post') :
    Yields source pre held (Read.take >>= f) made' post' := by
  intro c b c' hs hp hf hr
  obtain ⟨p, c1, ht, hr⟩ := Read.bind_ok.1 hr
  obtain ⟨h1, h2, h3⟩ := take_ok hs (hne c hp) ht
  obtain ⟨k1, k2, k3, k4, k5⟩ := k p h3 c1 b c' h1 trivial hf hr
  exact ⟨k1, h2 ▸ k2, k3, k4, h2 ▸ k5⟩

theorem takeBefore {f : Read β} (h : FailsAtEnd f)
    (k : Yields source Anywhere held f made' post') :
    Yields source pre held (Read.take >>= fun _ => f) made' post' := by
  intro c b c' hs hp hf hr
  obtain ⟨p, c1, ht, hr⟩ := Read.bind_ok.1 hr
  by_cases hne : c.ahead = []
  · obtain ⟨ahead, n, reached, literals, nextId⟩ := c
    cases hne
    cases ht
    exact absurd hr (h _ _ rfl)
  · obtain ⟨h1, h2, _⟩ := take_ok hs hne ht
    obtain ⟨k1, k2, k3, k4, k5⟩ := k c1 b c' h1 trivial hf hr
    exact ⟨k1, h2 ▸ k2, k3, k4, h2 ▸ k5⟩

theorem entryAt {span : Span} {f : Tag → Read β} (text : Option String)
    (hspan : span.start < byteSize source.text → span.stop < byteSize source.text)
    (hunder : ∀ s, text = some s → Under 0 source.text span s.toList) (hstart : source.starts span.start)
    (k : ∀ t, t.span = span → Yields source Anywhere (⟨t, text, true⟩ :: held) (f t) made' post') :
    Yields source pre held (Read.tagAt span >>= f) made' post' := by
  intro c b c' hs _ hf hr
  obtain ⟨t, c1, ht, hr⟩ := Read.bind_ok.1 hr
  cases ht
  obtain ⟨k1, k2, k3, k4, k5⟩ := k ⟨c.nextId, span⟩ rfl
    { c with nextId := c.nextId + 1 } b c' ⟨hs.ahead, hs.reached, hs.size⟩ trivial
    (fun e he => by
      rcases List.mem_cons.1 he with rfl | he
      · exact ⟨⟨hspan, rfl⟩, hunder, hstart⟩
      · exact hf e he) hr
  refine ⟨k1, Nat.le_of_succ_le k2, k3, k4, fun i => ?_⟩
  have h5 := k5 i
  have hb : between c.nextId (c.nextId + 1) i + between (c.nextId + 1) c'.nextId i =
      between c.nextId c'.nextId i := between_add (Nat.le_succ _) k2 i
  have h1 : (if c.nextId = i then 1 else 0) ≤ between c.nextId (c.nextId + 1) i := by
    unfold between
    split <;> split <;> omega
  simp only [idCount_cons] at h5
  omega

theorem tagAt {span : Span} {f : Tag → Read β}
    (hspan : span.start < byteSize source.text → span.stop < byteSize source.text)
    (hstart : source.starts span.start)
    (k : ∀ t, t.span = span → Yields source Anywhere (t.entry :: held) (f t) made' post') :
    Yields source pre held (Read.tagAt span >>= f) made' post' := entryAt none hspan nofun hstart k

theorem tag {s : Nat} {f : Tag → Read β} (hstart : source.starts s)
    (k : ∀ t, Yields source Anywhere (t.entry :: held) (f t) made' post') :
    Yields source pre held (Read.tagFrom s >>= f) made' post' := by
  intro c b c' hs _ hf hr
  obtain ⟨t, c1, ht, hr⟩ := Read.bind_ok.1 hr
  obtain ⟨span, c2, hspan, ht⟩ := Read.bind_ok.1 ht
  cases hspan
  have hfit : s < byteSize source.text → max c.reached s < byteSize source.text := by
    intro h
    have := hs.reached
    omega
  have hat : Yields source Anywhere held (Read.tagAt ⟨s, max c.reached s⟩ >>= f) made' post' :=
    tagAt hfit hstart fun t _ => k t
  exact hat c b c' hs trivial hf (Read.bind_ok.2 ⟨t, c1, ht, hr⟩)

theorem tagLike {span : Span} {f : Tag → Read β} (he : ∃ e ∈ held, e.span = span)
    (k : ∀ t, Yields source Anywhere (t.entry :: held) (f t) made' post') :
    Yields source pre held (Read.tagAt span >>= f) made' post' := by
  intro c b c' hs hp hf hr
  obtain ⟨e, he, rfl⟩ := he
  exact tagAt (hf e he).fine.1 (hf e he).start (fun t _ => k t) c b c' hs hp hf hr

theorem word {t : Token} {w : String} {f : Tag → Read β} (hw : t.word? = some w)
    (k : ∀ t, Yields source Anywhere (⟨t, some w, true⟩ :: held) (f t) made' post') :
    Yields source (Facing (some t)) held (Read.take >>= fun p => Read.tagAt p.span >>= f)
      made' post' := by
  intro c b c' hs hp hf hr
  obtain ⟨p, c1, ht, hr⟩ := Read.bind_ok.1 hr
  obtain ⟨h1, h2, h3⟩ := take_ok hs hp.nonempty ht
  have htoken : p.token = t := (hp.of_take ht).1
  have hat : Yields source Anywhere held (Read.tagAt p.span >>= f) made' post' :=
    entryAt (some w) (fun _ => h3.inside)
      (fun s hs => h3.under s (by rw [htoken, hw, hs])) h3.start fun t _ => k t
  obtain ⟨k1, k2, k3, k4, k5⟩ := hat c1 b c' h1 trivial hf hr
  exact ⟨k1, h2 ▸ k2, k3, k4, h2 ▸ k5⟩

/-- A word that is taken reaches from where the token starts to where it ends. -/
theorem wordFrom {t : Token} {w : String} {s : Nat} {f : Tag → Read β} (hw : t.word? = some w)
    (k : ∀ t, Yields source Anywhere (⟨t, some w, true⟩ :: held) (f t) made' post') :
    Yields source (fun c => Facing (some t) c ∧ c.next = s) held
      (Read.take >>= fun _ => Read.tagFrom s >>= f) made' post' := by
  intro c b c' hs hp hf hr
  obtain ⟨p, c1, ht, hr⟩ := Read.bind_ok.1 hr
  -- no word is the semicolon of a line end, so the token moves the end that was reached
  have hsame : Read.tagFrom s c1 = Read.tagAt p.span c1 := by
    obtain ⟨rfl, rest, hahead, hreached⟩ := hp.1.of_take ht
    have hstart : s = p.span.start := by rw [← hp.2, Cursor.next, hahead]; rfl
    have hstop : c1.reached = p.span.stop := by
      rw [hreached, if_neg]
      intro hend
      have hsemi : p.token = .punct .semi := by
        rw [Read.isLineEnd, Bool.and_eq_true] at hend
        exact eq_of_beq hend.1
      rw [hsemi] at hw
      cases hw
    have hordered := (hs.ahead p (hahead ▸ List.mem_cons_self)).ordered
    change Read.tagAt ⟨s, max c1.reached s⟩ c1 = Read.tagAt p.span c1
    rw [hstart, hstop, Nat.max_eq_left hordered]
  refine word hw k c b c' hs hp.1 hf (Read.bind_ok.2 ⟨p, c1, ht, ?_⟩)
  obtain ⟨u, c2, hu, hr⟩ := Read.bind_ok.1 hr
  exact Read.bind_ok.2 ⟨u, c2, hsame ▸ hu, hr⟩

/-- A reader that makes nothing. -/
abbrev Silent (source : Page) (r : Read α) : Prop :=
  Yields source Anywhere [] r (fun _ => []) fun _ => True

theorem pass (h : Silent source r) (k : ∀ a, Yields source Anywhere held (f a) made' post') :
    Yields source pre held (r >>= f) made' post' := step h.of_anywhere fun a _ => k a

theorem silent_of_same (h : ∀ c a c', r c = .ok (a, c') → c' = c) : Silent source r := by
  intro c a c' hs _ _ hr
  cases h c a c' hr
  exact ⟨hs, Nat.le_refl _, trivial, fun e he => absurd he List.not_mem_nil, fun i => Nat.zero_le _⟩

theorem start {f : Nat → Read β} (k : ∀ s, source.starts s → Yields source pre held (f s) made' post') :
    Yields source pre held (Read.start >>= f) made' post' := by
  intro c b c' hs hp hf hr
  obtain ⟨s, c1, hst, hr⟩ := Read.bind_ok.1 hr
  cases hst
  exact k c.next hs.starts_next c b c' hs hp hf hr

theorem silent_peekSecond : Silent source Read.peekSecond :=
  silent_of_same fun _ _ _ h => by cases h; rfl

theorem silent_at (t : Token) : Silent source (Read.at_ t) :=
  silent_of_same fun _ _ _ h => by cases h; rfl

theorem silent_spanFrom (s : Nat) : Silent source (Read.spanFrom s) :=
  silent_of_same fun _ _ _ h => by cases h; rfl

theorem silent_pure (a : α) : Silent source (Pure.pure a : Read α) :=
  pure (fun _ => Nat.le_refl _) trivial

theorem at_ {t : Token} {f : Bool → Read β}
    (k : ∀ b, Yields source (fun c => b = true → Nonempty c) held (f b) made' post') :
    Yields source pre held (Read.at_ t >>= f) made' post' := by
  intro c b c' hs _ hf hr
  obtain ⟨met, c1, ha, hr⟩ := Read.bind_ok.1 hr
  obtain ⟨u, c2, hp, ha⟩ := Read.bind_ok.1 ha
  obtain ⟨hu, rfl⟩ := Read.peek_ok.1 hp
  obtain ⟨rfl, rfl⟩ := Read.pure_ok.1 ha
  refine k _ c b c' hs (fun hmet => ?_) hf hr
  have hut : u = some t := by simpa using hmet
  exact Facing.nonempty (hut ▸ hu)

theorem spanFrom {s : Nat} {f : Span → Read β} (hs : s < byteSize source.text)
    (hstart : source.starts s) (k : ∀ span, span.stop < byteSize source.text →
      source.starts span.start → Yields source Anywhere held (f span) made' post') :
    Yields source pre held (Read.spanFrom s >>= f) made' post' := by
  intro c b c' hc _ hf hr
  obtain ⟨span, c1, hspan, hr⟩ := Read.bind_ok.1 hr
  cases hspan
  have := hc.reached
  exact k _ (show max c.reached s < byteSize source.text by omega) hstart c b c' hc trivial hf hr

theorem startPeek {f : Nat → Option Token → Read β}
    (k : ∀ s t, source.starts s → (t ≠ none → s < byteSize source.text) →
      Yields source (Facing t) held (f s t) made' post') :
    Yields source pre held (Read.start >>= fun s => Read.peek >>= f s) made' post' := by
  intro c b c' hc _ hf hr
  obtain ⟨s, c1, hst, hr⟩ := Read.bind_ok.1 hr
  cases hst
  obtain ⟨t, c2, hp, hr⟩ := Read.bind_ok.1 hr
  obtain ⟨ht, rfl⟩ := Read.peek_ok.1 hp
  refine k _ t hc.starts_next (fun hne => ?_) c b c' hc ht hf hr
  cases ha : c.ahead with
  | nil => exact absurd (by simp [Facing, ha] at ht; exact ht.symm) hne
  | cons p rest =>
    have hfirst := hc.ahead p (ha ▸ List.mem_cons_self)
    rw [Cursor.next, ha]
    exact Nat.lt_of_le_of_lt hfirst.ordered hfirst.inside

theorem startFacing {f : Nat → Option Token → Read β}
    (k : ∀ s t, source.starts s →
      Yields source (fun c => Facing t c ∧ c.next = s) held (f s t) made' post') :
    Yields source pre held (Read.start >>= fun s => Read.peek >>= f s) made' post' := by
  intro c b c' hc _ hf hr
  obtain ⟨s, c1, hst, hr⟩ := Read.bind_ok.1 hr
  cases hst
  obtain ⟨t, c2, hp, hr⟩ := Read.bind_ok.1 hr
  obtain ⟨ht, rfl⟩ := Read.peek_ok.1 hp
  exact k _ t hc.starts_next c b c' hc ⟨ht, rfl⟩ hf hr

theorem silent_eat (t : Token) : Silent source (Read.eat t) := by
  refine at_ fun b => ?_
  cases b with
  | true => exact take (fun _ h => h rfl) fun _ _ => silent_pure true
  | false => exact (silent_pure false).of_anywhere

theorem silent_expect (t : Token) : Silent source (Read.expect t) := by
  refine pass (silent_eat t) fun b => ?_
  split
  · exact silent_pure ()
  · exact unexpected

theorem silent_endStatement : Silent source Read.endStatement := by
  refine peek fun t => ?_
  split
  · exact take (fun _ => Facing.nonempty) fun _ _ => silent_pure ()
  · exact (silent_pure ()).of_anywhere
  · exact (silent_pure ()).of_anywhere
  · exact (silent_pure ()).of_anywhere
  · exact unexpected

theorem name : Yields source Anywhere [] Read.name (fun n => [n.entry]) fun _ => True := by
  refine peek fun t => ?_
  split
  · rename_i s
    exact word (t := .ident s) rfl fun t => pure (fun _ => Nat.le_refl _) trivial
  · exact unexpected

theorem names (fuel : Nat) :
    Yields source Anywhere [] (Read.names fuel) nameEntries fun _ => True := by
  induction fuel with
  | zero => exact exhausted
  | succ fuel ih =>
    refine step name fun n _ => pass (silent_eat _) fun b => ?_
    split
    · exact step ih fun ns _ => pure (fun x => by simp; omega) trivial
    · exact pure (fun x => by simp) trivial

end Yields

end FuncLift
