import FuncLift.Interner
import Mathlib.Data.List.Induction

/-!
# Numbers of interned texts

Whatever the hash function is, every bucket holds the numbers of the texts with its hash value and no
others. So texts that collide are told apart, a text is found exactly if it was interned before, and
texts are numbered in the order in which they were interned first.
-/
namespace FuncLift

namespace Interner

variable {hash : String → UInt64} {i : Interner hash}

theorem lookup_addTo (h g : UInt64) (n : Nat) (buckets : List (UInt64 × List Nat)) :
    ((addTo h n buckets).lookup g).getD [] =
      (buckets.lookup g).getD [] ++ if g = h then [n] else [] := by
  induction buckets with
  | nil =>
    by_cases hg : g = h
    · subst hg
      simp [addTo]
    · simp [addTo, List.lookup_cons, beq_false_of_ne hg, hg]
  | cons b buckets ih =>
    obtain ⟨k, ns⟩ := b
    rw [addTo]
    by_cases hk : k = h
    · subst hk
      rw [if_pos rfl]
      by_cases hg : g = k
      · subst hg
        simp
      · simp [List.lookup_cons, beq_false_of_ne hg, hg]
    · rw [if_neg hk]
      by_cases hg : g = k
      · subst hg
        simp [hk]
      · simpa [List.lookup_cons, beq_false_of_ne hg] using ih

/-- Every text has one number, and its number is in the bucket of its hash value. -/
structure Sound (i : Interner hash) : Prop where
  nodup : i.texts.toList.Nodup
  mem_bucket : ∀ h n, n ∈ i.bucket h ↔ ∃ s, i.texts[n]? = some s ∧ hash s = h

theorem Sound.empty : (empty : Interner hash).Sound := by
  constructor
  · exact List.nodup_nil
  · intro h n
    simp [Interner.empty, bucket]

theorem Sound.get?_eq_some (hi : i.Sound) {s : String} {n : Nat} :
    i.get? s = some n ↔ i.texts[n]? = some s := by
  constructor
  · intro h
    simpa using List.find?_some h
  · intro h
    have hmem : n ∈ i.bucket (hash s) := (hi.mem_bucket _ _).2 ⟨s, h, rfl⟩
    obtain ⟨m, hm⟩ : ∃ m, i.get? s = some m := by
      rw [← Option.isSome_iff_exists, get?, List.find?_isSome]
      exact ⟨n, hmem, by simpa using h⟩
    have hsame : i.texts[m]? = some s := by simpa using List.find?_some hm
    rw [← Array.getElem?_toList] at h hsame
    have hlt : m < i.texts.toList.length := (List.getElem?_eq_some_iff.1 hsame).1
    have heq : m = n := (List.getElem?_inj hlt hi.nodup).1 (hsame.trans h.symm)
    rw [hm, heq]

theorem Sound.get?_eq_none (hi : i.Sound) {s : String} :
    i.get? s = none ↔ s ∉ i.texts.toList := by
  rw [Option.eq_none_iff_forall_ne_some]
  simp only [ne_eq, hi.get?_eq_some, ← Array.getElem?_toList, List.mem_iff_getElem?, not_exists]

/-! ## One request -/

theorem Sound.texts_intern (hi : i.Sound) (s : String) : (i.intern s).2.texts.toList =
    i.texts.toList ++ if s ∈ i.texts.toList then [] else [s] := by
  rw [intern]
  cases hs : i.get? s with
  | some n =>
    have hmem : s ∈ i.texts.toList := by
      by_contra hnot
      rw [hi.get?_eq_none.2 hnot] at hs
      cases hs
    simp [hmem]
  | none => simp [hi.get?_eq_none.1 hs]

theorem Sound.intern (hi : i.Sound) (s : String) : (i.intern s).2.Sound := by
  have htexts := hi.texts_intern s
  rw [Interner.intern] at htexts ⊢
  cases hs : i.get? s with
  | some n => exact hi
  | none =>
    have hnot : s ∉ i.texts.toList := hi.get?_eq_none.1 hs
    rw [hs] at htexts
    constructor
    · rw [htexts, if_neg hnot, List.nodup_append]
      refine ⟨hi.nodup, List.nodup_cons.2 ⟨List.not_mem_nil, List.nodup_nil⟩, ?_⟩
      rintro w hw _ hmem rfl
      rw [List.mem_singleton.1 hmem] at hw
      exact hnot hw
    · intro h n
      rw [bucket, lookup_addTo, List.mem_append, ← bucket, hi.mem_bucket]
      dsimp only
      -- at the new number the new text stands, and at all others the texts are the old ones
      by_cases hn : n = i.texts.size
      · subst hn
        simp [eq_comm]
      · rw [Array.getElem?_push, if_neg hn]
        by_cases hh : h = hash s
        · simp [hh, hn]
        · simp [hh]

theorem Sound.getElem?_intern (hi : i.Sound) (s : String) :
    (i.intern s).2.texts[(i.intern s).1]? = some s := by
  rw [Interner.intern]
  cases hs : i.get? s with
  | some n => exact hi.get?_eq_some.1 hs
  | none => simp

/-! ## Runs -/

inductive Request where
  | intern (s : String)
  | get (s : String)
deriving DecidableEq

def Request.next (i : Interner hash) : Request → Interner hash
  | .intern s => (i.intern s).2
  | .get _ => i

def Request.text? : Request → Option String
  | .intern s => some s
  | .get _ => none

def after (rs : List Request) : Interner hash := rs.foldl Request.next empty

/-- The texts that were interned, each where it came first. -/
def firsts (rs : List Request) : List String := (rs.filterMap Request.text?).eraseDups

theorem mem_firsts {rs : List Request} {s : String} : s ∈ firsts rs ↔ .intern s ∈ rs := by
  rw [firsts, List.mem_eraseDups, List.mem_filterMap]
  constructor
  · rintro ⟨r, hr, htext⟩
    cases r with
    | intern t =>
      cases htext
      exact hr
    | get t => cases htext
  · intro h
    exact ⟨_, h, rfl⟩

theorem firsts_prefix (rs more : List Request) : firsts rs <+: firsts (rs ++ more) := by
  rw [firsts, firsts, List.filterMap_append, List.eraseDups_append]
  exact List.prefix_append _ _

theorem firsts_intern (rs : List Request) (s : String) : firsts (rs ++ [Request.intern s]) =
    firsts rs ++ if s ∈ firsts rs then [] else [s] := by
  have hlast : [Request.intern s].filterMap Request.text? = [s] := rfl
  have hmem : s ∈ firsts rs ↔ s ∈ rs.filterMap Request.text? := List.mem_eraseDups
  rw [firsts, List.filterMap_append, hlast, List.eraseDups_append, ← firsts]
  by_cases hs : s ∈ firsts rs
  · rw [if_pos hs, List.removeAll, List.filter_cons_of_neg (by simpa using hmem.1 hs)]
    rfl
  · rw [if_neg hs, List.removeAll, List.filter_cons_of_pos (by simpa using mt hmem.2 hs)]
    rfl

theorem firsts_get (rs : List Request) (s : String) : firsts (rs ++ [Request.get s]) = firsts rs := by
  have hlast : [Request.get s].filterMap Request.text? = [] := rfl
  rw [firsts, List.filterMap_append, hlast, List.append_nil, ← firsts]

/-- After any run the interner holds the texts that were interned, in the order in which they came. -/
theorem after_holds (hash : String → UInt64) (rs : List Request) : (after rs : Interner hash).Sound ∧
    (after rs : Interner hash).texts.toList = firsts rs := by
  induction rs using List.reverseRecOn with
  | nil => exact ⟨.empty, rfl⟩
  | append_singleton rs r ih =>
    obtain ⟨hsound, htexts⟩ := ih
    have hlast : (after (rs ++ [r]) : Interner hash) = r.next (after rs) := by
      simp [after]
    rw [hlast]
    cases r with
    | intern s =>
      refine ⟨hsound.intern s, ?_⟩
      rw [firsts_intern, ← htexts]
      exact hsound.texts_intern s
    | get s =>
      rw [firsts_get]
      exact ⟨hsound, htexts⟩

theorem getElem?_after (hash : String → UInt64) (before more : List Request) (s : String) :
    (after (before ++ Request.intern s :: more) : Interner hash).texts[
      ((after before : Interner hash).intern s).1]? = some s := by
  have hthen : (after (before ++ [Request.intern s]) : Interner hash) =
      ((after before : Interner hash).intern s).2 := by
    simp [after, Request.next]
  have hplace := (after_holds hash before).1.getElem?_intern s
  obtain ⟨rest, hrest⟩ := firsts_prefix (before ++ [Request.intern s]) more
  rw [List.append_assoc, List.singleton_append] at hrest
  rw [← hthen, ← Array.getElem?_toList, (after_holds hash _).2] at hplace
  rw [← Array.getElem?_toList, (after_holds hash _).2, ← hrest]
  exact (List.getElem?_append_left (List.getElem?_eq_some_iff.1 hplace).1).trans hplace

/-- Whatever the hash function, texts are numbered from zero in the order in which they are interned
first: a text keeps its number and no other text gets it, the number leads back to the text at every
later time, and a text is found exactly if it was interned before. -/
theorem interns (hash : String → UInt64) (before : List Request) (s : String) :
    let now : Interner hash := after before
    let n := (now.intern s).1
    (firsts (before ++ [.intern s]))[n]? = some s ∧
      (∀ between t, ((after (before ++ .intern s :: between) : Interner hash).intern t).1 = n ↔
        t = s) ∧
      (∀ later, (after (before ++ .intern s :: later) : Interner hash).resolve n = s) ∧
      ∀ m, now.get? s = some m ↔ .intern s ∈ before ∧ m = n := by
  intro now n
  obtain ⟨hsound, htexts⟩ := after_holds hash before
  have hlater (more : List Request) :
      (after (before ++ Request.intern s :: more) : Interner hash).texts[n]? = some s :=
    getElem?_after hash before more s
  refine ⟨?_, fun between t => ?_, fun later => ?_, fun m => ?_⟩
  · rw [← (after_holds hash _).2, Array.getElem?_toList]
    exact hlater []
  · constructor
    · intro hsame
      have ht := getElem?_after hash (before ++ Request.intern s :: between) [] t
      have hs := hlater (between ++ [Request.intern t])
      rw [hsame, List.append_assoc, List.cons_append, hs] at ht
      exact (Option.some.inj ht).symm
    · rintro rfl
      have hfound := (after_holds hash (before ++ Request.intern t :: between)).1.get?_eq_some.2 (hlater between)
      rw [Interner.intern, hfound]
  · rw [resolve, hlater later]
    rfl
  · have hfound : now.get? s = some m → m = n := by
      intro h
      simp only [n, Interner.intern, h]
    rw [← mem_firsts, ← htexts]
    constructor
    · intro h
      refine ⟨?_, hfound h⟩
      by_contra hnot
      rw [hsound.get?_eq_none.2 hnot] at h
      cases h
    · rintro ⟨hmem, rfl⟩
      cases hget : now.get? s with
      | none => exact absurd hmem (hsound.get?_eq_none.1 hget)
      | some k => simp only [n, Interner.intern, hget]

end Interner

end FuncLift
