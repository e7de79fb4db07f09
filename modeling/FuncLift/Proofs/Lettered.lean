import FuncLift.Proofs.Channels
import FuncLift.Proofs.Inscribed

/-!
# Types on one line

Types without fields, and functions whose parameters and results stood on one line, are drawn on one
line: as the same characters wherever they stand. When a type is read back from these characters they
are the same again, but for the arrows that are taken for those of another keyword.
-/
namespace FuncLift

def Expr.isName : Expr → Bool
  | .ident .. => true
  | _ => false

theorem Expr.isName_core (e : Expr) : e.core.isName = e.isName := by
  cases e with
  | paren t e =>
    have hparen := isParen_core (.paren t e)
    cases h : (Expr.paren t e).core with
    | paren => rfl
    | _ => simp [h, isParen] at hparen
  | _ => simp [core, isName]

def Expr.nameChars : Expr → List Char
  | .ident _ n => n.toList
  | _ => []

/-- The characters in front of the type of a field. -/
def Field.leadChars (ns : List Name) (variadic : Bool) : List Char :=
  (if ns.isEmpty then [] else commas (ns.map fun n => n.text.toList) ++ [' ']) ++
    if variadic then "...".toList else []

namespace TypeExpr

mutual

/-- No struct and no interface has fields, and arrays name their length or have it counted. -/
@[simp] def isBare : TypeExpr → Bool
  | .named .. => true
  | .pointer _ e | .slice _ e | .chan _ _ e => isBare e
  | .array _ len e => len.all Expr.isName && isBare e
  | .map _ k v => isBare k && isBare v
  | .func _ ⟨_, ps, rs⟩ => !Field.isOpen rs && areBare ps && areBare rs
  | .struct _ fs | .interface _ fs => fs.isEmpty

def areBare : List Field → Bool
  | [] => true
  | ⟨_, _, t, _, label⟩ :: fs => label.isNone && isBare t && areBare fs

end

mutual

/-- The parameters and results of a function stand on one line. -/
@[simp] def isFlat (lines : LineTable) : TypeExpr → Bool
  | .named .. | .struct .. | .interface .. => true
  | .pointer _ e | .slice _ e | .array _ _ e | .chan _ _ e => isFlat lines e
  | .map _ k v => isFlat lines k && isFlat lines v
  | .func _ ⟨t, ps, rs⟩ =>
    lines.holds (lines.lineOf t.span.start) (Draw.closingByte t.span).start &&
      areFlat lines (lines.lineOf t.span.start) ps && areFlat lines (lines.lineOf t.span.start) rs

def areFlat (lines : LineTable) (line : Nat) : List Field → Bool
  | [] => true
  | ⟨t, _, type, _, _⟩ :: fs => lines.holds line t.span.start && lines.holds line t.span.stop &&
      isFlat lines type && areFlat lines line fs

end

def blockChars (keyword : String) : List Char := keyword.toList ++ "\x7b\x7d".toList

def chanText : ChanDir → String
  | .both => "chan "
  | .send => "chan<- "
  | .recv => "<-chan "

mutual

/-- The characters that are drawn of a type on one line. -/
def letters : TypeExpr → List Char
  | .named _ pkg n => (pkg.map fun pkg => pkg.toList ++ ['.']).getD [] ++ n.toList
  | .pointer _ e => "*".toList ++ letters e
  | .slice _ e => "[]".toList ++ letters e
  | .array _ len e =>
    "[".toList ++ ((len.map Expr.nameChars).getD "...".toList ++ ("]".toList ++ letters e))
  | .map _ k v => "map[".toList ++ (letters k ++ ("]".toList ++ letters v))
  | .chan _ dir e => (chanText dir).toList ++ letters e
  | .func _ ⟨_, ps, rs⟩ =>
    "func".toList ++ signatureChars (fieldLetters ps) (fieldLetters rs) (Field.isLone rs)
  | .struct .. => blockChars "struct"
  | .interface .. => blockChars "interface"

def fieldLetters : List Field → List (List Char)
  | [] => []
  | ⟨_, ns, t, variadic, _⟩ :: fs => (Field.leadChars ns variadic ++ letters t) :: fieldLetters fs

end

end TypeExpr

namespace TypeExpr

mutual

/-- No channel without direction has channels to receive from directly as its elements. -/
@[simp] def keepsArrows : TypeExpr → Bool
  | .named .. => true
  | .pointer _ e | .slice _ e | .array _ _ e => keepsArrows e
  | .map _ k v => keepsArrows k && keepsArrows v
  | .chan _ .both e => !e.isRecv && keepsArrows e
  | .chan _ _ e => keepsArrows e
  | .func _ ⟨_, ps, rs⟩ => areKept ps && areKept rs
  | .struct _ fs | .interface _ fs => areKept fs

def areKept : List Field → Bool
  | [] => true
  | ⟨_, _, t, _, _⟩ :: fs => keepsArrows t && areKept fs

end

end TypeExpr

/-! ## Drawing -/

section

variable {lines : LineTable}

theorem Inscribes.field {t : Tag} {ns : List Name} {type : TypeExpr} {variadic : Bool} {cs : List Char}
    (h : Inscribes lines (Draw.typeExpr type) cs fun _ => True) :
    Inscribes lines (Draw.field ⟨t, ns, type, variadic, none⟩) (Field.leadChars ns variadic ++ cs)
      fun _ => True := by
  have htype (start : Nat) : Inscribes lines (do
      if variadic then Draw.text "..."
      Draw.typeExpr type
      Draw.markNode .field t start) ((if variadic then "...".toList else []) ++ cs) fun _ => True := by
    have hmarked := h.then_ fun _ _ => Inscribes.markNode .field t start
    cases variadic with
    | false => exact hmarked
    | true => exact (Inscribes.text "...").bind fun _ _ => hmarked
  rw [Draw.field]
  refine .offset fun start => ?_
  cases ns with
  | nil => exact htype start
  | cons n ns =>
    have hlead : Field.leadChars (n :: ns) variadic ++ cs = commas ((n :: ns).map fun n => n.text.toList) ++
        (" ".toList ++ ((if variadic then "...".toList else []) ++ cs)) := by
      simp [Field.leadChars]
    rw [hlead]
    exact (Inscribes.names (n :: ns)).bind fun _ _ => (Inscribes.text " ").bind fun _ _ => htype start

theorem Inscribes.emptyBlock {keyword : String} {span : Span} :
    Inscribes lines (Draw.typeExpr.fieldBlock keyword span [] [])
      (TypeExpr.blockChars keyword) fun _ => True := by
  refine .get fun p hp _ => ?_
  have hfits : Draw.fieldsFitOneLine p span [] = true := by
    simp [Draw.fieldsFitOneLine, Pen.hasCommentWithin, hp]
  rw [hfits]
  exact (Inscribes.text keyword).bind fun _ _ => Inscribes.text "\x7b\x7d"

namespace TypeExpr

mutual

theorem inscribes_letters : ∀ t : TypeExpr, t.isBare = true → t.isFlat lines = true →
    Inscribes lines (Draw.typeExpr t) t.letters fun _ => True
  | .named _ none n, _, _ => .markedType (.text n)
  | .named _ (some pkg) n, _, _ => by
    rw [Draw.typeExpr, letters, Option.map_some, Option.getD_some, List.append_assoc]
    exact .markedType ((Inscribes.text pkg).bind fun _ _ => (Inscribes.text ".").bind fun _ _ => .text n)
  | .pointer _ e, hbare, hflat => by
    rw [Draw.typeExpr, letters]
    exact .markedType ((Inscribes.text "*").bind fun _ _ => inscribes_letters e hbare hflat)
  | .slice _ e, hbare, hflat => by
    rw [Draw.typeExpr, letters]
    exact .markedType ((Inscribes.text "[]").bind fun _ _ => inscribes_letters e hbare hflat)
  | .array _ none e, hbare, hflat => by
    rw [Draw.typeExpr, letters, Draw.exprOption]
    exact .markedType ((Inscribes.text "[").bind fun _ _ => (Inscribes.text "...").bind fun _ _ =>
      (Inscribes.text "]").bind fun _ _ => inscribes_letters e hbare hflat)
  | .array _ (some (.ident u n)) e, hbare, hflat => by
    rw [Draw.typeExpr, letters, Draw.exprOption]
    exact .markedType ((Inscribes.text "[").bind fun _ _ => (Inscribes.ident 1 u n).bind fun _ _ =>
      (Inscribes.text "]").bind fun _ _ => inscribes_letters e hbare hflat)
  | .map _ k v, hbare, hflat => by
    obtain ⟨hk, hv⟩ := Bool.and_eq_true_iff.1 hbare
    obtain ⟨hkflat, hvflat⟩ := Bool.and_eq_true_iff.1 hflat
    rw [Draw.typeExpr, letters]
    exact .markedType ((Inscribes.text "map[").bind fun _ _ =>
      (inscribes_letters k hk hkflat).bind fun _ _ => (Inscribes.text "]").bind fun _ _ =>
        inscribes_letters v hv hvflat)
  | .chan _ dir e, hbare, hflat => by
    have he := inscribes_letters e hbare hflat
    cases dir <;> rw [Draw.typeExpr, letters] <;> exact .markedType ((Inscribes.text _).bind fun _ _ => he)
  | .func _ ⟨t, ps, rs⟩, hbare, hflat => by
    simp only [isBare, isFlat, Bool.and_eq_true] at hbare hflat
    have hps := row_letters ps _ hbare.1.2 hflat.1.2
    have hrs := row_letters rs _ hbare.2 hflat.2
    rw [Draw.typeExpr, letters]
    refine .markedType ((Inscribes.text "func").bind fun _ _ => ?_)
    exact .signature hps hrs (by simp [LineTable.holds]) hflat.1.1
  | .struct _ [], _, _ => .markedType .emptyBlock
  | .interface _ [], _, _ => .markedType .emptyBlock

theorem row_letters : ∀ (fs : List Field) (line : Nat), areBare fs = true → areFlat lines line fs = true →
    Draw.Row lines line (Draw.fieldItems fs) (fieldLetters fs)
  | [], _, _, _ => .nil
  | ⟨t, ns, type, variadic, none⟩ :: fs, line, hbare, hflat => by
    simp only [areBare, areFlat, Bool.and_eq_true] at hbare hflat
    obtain ⟨⟨⟨hstart, hstop⟩, htype⟩, hfs⟩ := hflat
    rw [Draw.fieldItems, fieldLetters]
    exact .cons ⟨hstart, hstop, .field (inscribes_letters type hbare.1.2 htype)⟩
      (row_letters fs line hbare.2 hfs)

end

mutual

theorem isFlat_empty : ∀ t : TypeExpr, t.isFlat ⟨[]⟩ = true
  | .named .. | .struct .. | .interface .. => rfl
  | .pointer _ e | .slice _ e | .array _ _ e | .chan _ _ e => isFlat_empty e
  | .map _ k v => Bool.and_eq_true_iff.2 ⟨isFlat_empty k, isFlat_empty v⟩
  | .func _ ⟨t, ps, rs⟩ => by
    simp only [isFlat, Bool.and_eq_true]
    exact ⟨⟨LineTable.holds_empty _, areFlat_empty ps⟩, areFlat_empty rs⟩

theorem areFlat_empty : ∀ fs : List Field, areFlat ⟨[]⟩ 1 fs = true
  | [] => rfl
  | ⟨t, _, type, _, _⟩ :: fs => by
    simp only [areFlat, Bool.and_eq_true]
    exact ⟨⟨⟨LineTable.holds_empty _, LineTable.holds_empty _⟩, isFlat_empty type⟩, areFlat_empty fs⟩

end

theorem toList_print {t : TypeExpr} (h : t.isBare = true) : t.print.toList = t.letters :=
  (inscribes_letters t h t.isFlat_empty).toList_fragment

end TypeExpr

end

/-! ## Types without tags -/

namespace Expr

theorem nameChars_core (e : Expr) : e.core.nameChars = e.nameChars := by
  cases e with
  | paren t e =>
    have hparen := isParen_core (.paren t e)
    cases h : (Expr.paren t e).core with
    | paren => rfl
    | _ => simp [h, isParen] at hparen
  | _ => simp [core, nameChars]

end Expr

namespace TypeExpr

theorem isOpen_stripped (g : Field → TypeExpr) (fs : List Field) :
    Field.isOpen (fs.map fun f => f.stripped (g f)) = Field.isOpen fs := by
  rcases fs with _ | ⟨⟨_, _ | _, _, _ | _, _⟩, _ | _⟩ <;> rfl

theorem isLone_stripped (g : Field → TypeExpr) (fs : List Field) :
    Field.isLone (fs.map fun f => f.stripped (g f)) = Field.isLone fs := by
  rcases fs with _ | ⟨⟨_, _ | _, _, _, _⟩, _ | _⟩ <;> rfl

mutual

theorem isBare_core : ∀ t : TypeExpr, t.core.isBare = t.isBare
  | .named .. => rfl
  | .pointer _ e | .slice _ e | .chan _ _ e => isBare_core e
  | .array _ none e => isBare_core e
  | .array _ (some l) e => congrArg₂ and l.isName_core (isBare_core e)
  | .map _ k v => congrArg₂ and (isBare_core k) (isBare_core v)
  | .func _ ⟨_, ps, rs⟩ => by
    have hopen : Field.isOpen (coreFields rs) = Field.isOpen rs := by
      rw [coreFields_eq]
      exact isOpen_stripped (fun f => f.type.core) rs
    rw [core, isBare, isBare, hopen, areBare_coreFields ps, areBare_coreFields rs]
  | .struct _ fs | .interface _ fs => by rw [core, isBare, isBare, coreFields_eq, List.isEmpty_map]

theorem areBare_coreFields : ∀ fs : List Field, areBare (coreFields fs) = areBare fs
  | [] => rfl
  | ⟨_, _, t, _, _⟩ :: fs => by
    rw [coreFields, Field.stripped, areBare, areBare, isBare_core t, areBare_coreFields fs]

end

theorem leadChars_stripped (ns : List Name) (variadic : Bool) :
    Field.leadChars (ns.map fun n => ⟨default, n.text⟩) variadic = Field.leadChars ns variadic := by
  simp [Field.leadChars, Function.comp_def]

theorem lengthChars_core (len : Option Expr) :
    (Expr.coreOption len).map Expr.nameChars = len.map Expr.nameChars := by
  cases len with
  | none => rfl
  | some l => exact congrArg some l.nameChars_core

mutual

theorem letters_core : ∀ t : TypeExpr, t.core.letters = t.letters
  | .named .. => rfl
  | .pointer _ e | .slice _ e | .chan _ _ e => by rw [core, letters, letters, letters_core e]
  | .array _ len e => by rw [core, letters, letters, letters_core e, lengthChars_core]
  | .map _ k v => by rw [core, letters, letters, letters_core k, letters_core v]
  | .func _ ⟨_, ps, rs⟩ => by
    have hlone : Field.isLone (coreFields rs) = Field.isLone rs := by
      rw [coreFields_eq]
      exact isLone_stripped (fun f => f.type.core) rs
    rw [core, letters, letters, fieldLetters_core ps, fieldLetters_core rs, hlone]
  | .struct .. | .interface .. => rfl

theorem fieldLetters_core : ∀ fs : List Field, fieldLetters (coreFields fs) = fieldLetters fs
  | [] => rfl
  | ⟨_, ns, t, variadic, _⟩ :: fs => by
    rw [coreFields, Field.stripped, fieldLetters, fieldLetters, leadChars_stripped, letters_core t,
      fieldLetters_core fs]

end

end TypeExpr

/-! ## Fields that are put together again -/

namespace Field

variable {fs : List Field} {waiting : List String}

theorem regroup_eq_nil : regroup waiting fs = [] ↔ waiting = [] ∧ fs = [] := by
  induction fs generalizing waiting with
  | nil => simp [regroup]
  | cons f fs ih =>
    rw [regroup]
    split
    · simp [ih]
    · split <;> simp

theorem isLone_cons_cons (f g : Field) (fs : List Field) : isLone (f :: g :: fs) = false := by
  obtain ⟨t, ns, type, variadic, label⟩ := f
  cases ns <;> rfl

theorem isLone_cons_of_names {f : Field} (h : f.names ≠ []) (fs : List Field) :
    isLone (f :: fs) = false := by
  obtain ⟨t, ns, type, variadic, label⟩ := f
  cases ns with
  | nil => exact absurd rfl h
  | cons => rfl

theorem isLone_regroup_of_waiting {n m : String} (fs : List Field) :
    isLone (regroup (n :: m :: waiting) fs) = false := by
  induction fs generalizing waiting with
  | nil => exact isLone_cons_cons _ _ _
  | cons f fs ih =>
    rw [regroup]
    split
    · exact ih
    · split
      · exact isLone_cons_cons _ _ _
      · exact isLone_cons_of_names (List.cons_ne_nil _ _) _

/-- A single result without a name stays one, and several results do not become one. -/
theorem isLone_regroup (fs : List Field) : isLone (regroup [] fs) = isLone fs := by
  cases fs with
  | nil => rfl
  | cons f gs =>
    cases gs with
    | nil =>
      obtain ⟨t, _ | ⟨n, ns⟩, type, variadic, label⟩ := f
      · rw [regroup]
        split <;> rfl
      · rfl
    | cons g gs =>
      have hne : regroup [] (g :: gs) ≠ [] := fun h => by cases (regroup_eq_nil.1 h).2
      obtain ⟨x, xs, heq⟩ := List.exists_cons_of_ne_nil hne
      rw [isLone_cons_cons, regroup, heq]
      split
      · rw [List.nil_append, regroup]
        split
        · exact isLone_regroup_of_waiting gs
        · split
          · exact isLone_cons_cons _ _ _
          · exact isLone_cons_of_names (List.cons_ne_nil _ _) _
      · split
        · exact isLone_cons_cons _ _ _
        · exact isLone_cons_cons _ _ _

theorem isOpen_eq_false (h : isLone fs = false) : isOpen fs = false := by
  unfold isOpen
  split
  · cases h
  · rfl

theorem isOpen_regroup (fs : List Field) : isOpen (regroup [] fs) = isOpen fs := by
  cases hlone : isLone fs with
  | false => rw [isOpen_eq_false ((isLone_regroup fs).trans hlone), isOpen_eq_false hlone]
  | true =>
    obtain ⟨⟨t, ns, type, variadic, label⟩, rfl, rfl⟩ := isLone_eq_true hlone
    rw [regroup]
    split
    · rename_i hname
      obtain ⟨-, rfl, -⟩ := bareName_eq_some.1 hname
      rfl
    · rfl

end Field

namespace TypeExpr

variable {waiting : List String} {fs : List Field}

theorem areBare_iff : areBare fs = true ↔ ∀ f ∈ fs, f.label = none ∧ f.type.isBare = true := by
  induction fs with
  | nil => exact iff_of_true rfl (List.forall_mem_nil _)
  | cons f fs ih =>
    obtain ⟨t, ns, type, v, label⟩ := f
    rw [areBare, Bool.and_eq_true, Bool.and_eq_true, Option.isNone_iff_eq_none, ih, List.forall_mem_cons]

theorem areBare_regroup (h : areBare fs = true) : areBare (Field.regroup waiting fs) = true := by
  have hnames (ns : List String) : ∀ f ∈ ns.map Field.ofName, f.label = none ∧ f.type.isBare = true := by
    intro f hf
    obtain ⟨n, -, rfl⟩ := List.mem_map.1 hf
    exact ⟨rfl, rfl⟩
  induction fs generalizing waiting with
  | nil => exact areBare_iff.2 (hnames waiting)
  | cons f fs ih =>
    obtain ⟨hf, hfs⟩ := List.forall_mem_cons.1 (areBare_iff.1 h)
    rw [Field.regroup]
    split
    · exact ih (areBare_iff.2 hfs)
    · have hothers := areBare_iff.1 (@ih [] (areBare_iff.2 hfs))
      split
      · rw [areBare_iff, List.forall_mem_append]
        exact ⟨hnames waiting, List.forall_mem_cons.2 ⟨hf, hothers⟩⟩
      · exact areBare_iff.2 (List.forall_mem_cons.2 ⟨hf, hothers⟩)

theorem isBare_afterChan (t : TypeExpr) : t.afterChan.isBare = t.isBare := by
  fun_induction afterChan t with
  | case1 _ e ih => exact ih
  | case2 => rfl

mutual

theorem isBare_readBack : ∀ t : TypeExpr, t.isBare = true → t.readBack.isBare = true
  | .named .., _ => rfl
  | .pointer _ e, h | .slice _ e, h => isBare_readBack e h
  | .array _ none e, h => isBare_readBack e h
  | .array _ (some (.ident ..)) e, h => isBare_readBack e h
  | .map _ k v, h => by
    obtain ⟨hk, hv⟩ := Bool.and_eq_true_iff.1 h
    exact Bool.and_eq_true_iff.2 ⟨isBare_readBack k hk, isBare_readBack v hv⟩
  | .chan _ .both e, h => (isBare_afterChan _).trans (isBare_readBack e h)
  | .chan _ .send e, h | .chan _ .recv e, h => isBare_readBack e h
  | .func _ ⟨_, ps, rs⟩, h => by
    simp only [isBare, Bool.and_eq_true] at h
    have hopen : Field.isOpen (readBackFields rs) = Field.isOpen rs := by
      rw [readBackFields_eq]
      exact isOpen_stripped (fun f => f.type.readBack) rs
    simp only [readBack, isBare, Bool.and_eq_true, Field.isOpen_regroup, hopen]
    exact ⟨⟨h.1.1, areBare_regroup (areBare_readBack ps h.1.2)⟩, areBare_regroup (areBare_readBack rs h.2)⟩
  | .struct _ [], _ | .interface _ [], _ => rfl

theorem areBare_readBack : ∀ fs : List Field, areBare fs = true → areBare (readBackFields fs) = true
  | [], _ => rfl
  | ⟨_, _, t, _, none⟩ :: fs, h => by
    simp only [areBare, Bool.and_eq_true] at h
    simp only [readBackFields, Field.stripped, areBare, Bool.and_eq_true]
    exact ⟨⟨rfl, isBare_readBack t h.1.2⟩, areBare_readBack fs h.2⟩

end

theorem fieldLetters_eq (fs : List Field) :
    fieldLetters fs = fs.map fun f => Field.leadChars f.names f.variadic ++ f.type.letters := by
  induction fs with
  | nil => rfl
  | cons f fs ih =>
    obtain ⟨t, ns, type, v, l⟩ := f
    rw [fieldLetters, ih]
    rfl

theorem commas_append_cons (xs : List (List Char)) (y : List Char) (ys : List (List Char)) :
    commas (xs ++ y :: ys) = commas (xs ++ [y]) ++ ys.flatMap (", ".toList ++ ·) := by
  cases xs <;> simp [commas]

theorem commas_append_commas (xs : List (List Char)) {ys : List (List Char)} (hys : ys ≠ []) (z : List Char) :
    commas (xs ++ [commas ys ++ z]) = commas (xs ++ ys) ++ z := by
  obtain ⟨y, ys, rfl⟩ := List.exists_cons_of_ne_nil hys
  cases xs <;> simp [commas]

theorem flatMap_commas (xs : List (List Char)) :
    xs.flatMap (", ".toList ++ ·) = if xs.isEmpty then [] else ", ".toList ++ commas xs := by
  cases xs <;> simp [commas]

theorem isEmpty_regroup (fs : List Field) :
    (fieldLetters (Field.regroup [] fs)).isEmpty = (fieldLetters fs).isEmpty := by
  rw [fieldLetters_eq, fieldLetters_eq, List.isEmpty_map, List.isEmpty_map, Bool.eq_iff_iff,
    List.isEmpty_iff, List.isEmpty_iff, Field.regroup_eq_nil]
  simp

/-- The characters of the fields are those of the names and of the fields they were put together of. -/
theorem commas_regroup (waiting : List String) (fs : List Field) :
    commas (fieldLetters (Field.regroup waiting fs)) =
      commas (waiting.map String.toList ++ fieldLetters fs) := by
  have hnames (ns : List String) : fieldLetters (ns.map Field.ofName) = ns.map String.toList := by
    simp [fieldLetters_eq, Field.ofName, Field.leadChars, letters, Function.comp_def]
  induction fs generalizing waiting with
  | nil => rw [Field.regroup, hnames, fieldLetters, List.append_nil]
  | cons f fs ih =>
    rw [Field.regroup]
    cases hname : f.bareName? with
    | some n =>
      obtain ⟨hnone, hvariadic, u, htype⟩ := Field.bareName_eq_some.1 hname
      have hletters : Field.leadChars f.names f.variadic ++ f.type.letters = n.toList := by
        simp [hnone, hvariadic, htype, Field.leadChars, letters]
      dsimp only
      rw [ih, fieldLetters_eq (f :: fs), List.map_cons, hletters, ← fieldLetters_eq]
      simp
    | none =>
      have hrest : (fieldLetters (Field.regroup [] fs)).flatMap (", ".toList ++ ·) =
          (fieldLetters fs).flatMap (", ".toList ++ ·) := by
        rw [flatMap_commas, flatMap_commas, isEmpty_regroup, ih []]
        rfl
      have hcons (g : Field) (gs : List Field) : fieldLetters (g :: gs) =
          (Field.leadChars g.names g.variadic ++ g.type.letters) :: fieldLetters gs := by
        rw [fieldLetters_eq, List.map_cons, ← fieldLetters_eq]
      dsimp only
      by_cases hempty : f.names.isEmpty = true
      · rw [if_pos hempty, fieldLetters_eq, List.map_append, ← fieldLetters_eq, ← fieldLetters_eq, hnames,
          hcons, hcons, commas_append_cons, commas_append_cons _ _ (fieldLetters fs), hrest]
      · have hne : f.names.map (fun n => n.text.toList) ≠ [] := by simpa using hempty
        have hlead {ns : List Name} (hns : ns ≠ []) : Field.leadChars ns f.variadic ++ f.type.letters =
            commas (ns.map fun n => n.text.toList) ++
              (' ' :: ((if f.variadic then "...".toList else []) ++ f.type.letters)) := by
          simp [Field.leadChars, hns]
        have hfield : Field.leadChars (waiting.map (fun n => ⟨default, n⟩) ++ f.names) f.variadic ++
            f.type.letters = commas (waiting.map String.toList ++
              [Field.leadChars f.names f.variadic ++ f.type.letters]) := by
          rw [hlead (by simpa using fun _ => hne), hlead (by simpa using hempty), commas_append_commas _ hne]
          simp [Function.comp_def]
        rw [if_neg hempty, hcons, hcons, commas_append_cons, ← hfield, ← hrest]
        rfl

theorem letters_readBack_func (t u : Tag) (ps rs : List Field) :
    (func t ⟨u, ps, rs⟩).readBack.letters = "func".toList ++
      signatureChars (fieldLetters (readBackFields ps)) (fieldLetters (readBackFields rs)) (Field.isLone rs) := by
  have hlone : Field.isLone (readBackFields rs) = Field.isLone rs := by
    rw [readBackFields_eq]
    exact isLone_stripped (fun f => f.type.readBack) rs
  rw [readBack, letters, signatureChars, signatureChars, parenthesized, parenthesized, parenthesized,
    parenthesized, commas_regroup, commas_regroup, Field.isLone_regroup, hlone, isEmpty_regroup]
  rfl

/-- Rows of the same lengths. -/
abbrev Even (xs ys : List (List Char)) : Prop := List.Forall₂ (fun x y => x.length = y.length) xs ys

section

variable {xs ys vs ws : List (List Char)}

theorem Even.isEmpty_eq (h : Even xs ys) : xs.isEmpty = ys.isEmpty := by
  cases h <;> rfl

theorem Even.flatMap_inj (h : Even xs ys) (s : List Char) :
    (xs.flatMap (s ++ ·)).length = (ys.flatMap (s ++ ·)).length ∧
      (xs.flatMap (s ++ ·) = ys.flatMap (s ++ ·) ↔ xs = ys) := by
  induction h with
  | nil => exact ⟨rfl, iff_of_true rfl rfl⟩
  | @cons x y xs ys hxy _ ih =>
    obtain ⟨hlength, hiff⟩ := ih
    rw [List.flatMap_cons, List.flatMap_cons, List.cons.injEq, ← hiff]
    refine ⟨by simp only [List.length_append, hxy, hlength], fun heq => ?_, ?_⟩
    · obtain ⟨hfront, hrest⟩ := List.append_inj heq (by simp only [List.length_append, hxy])
      exact ⟨List.append_cancel_left hfront, hrest⟩
    · rintro ⟨rfl, hrest⟩
      rw [hrest]

theorem Even.commas_inj (h : Even xs ys) :
    (commas xs).length = (commas ys).length ∧ (commas xs = commas ys ↔ xs = ys) := by
  cases h with
  | nil => exact ⟨rfl, iff_of_true rfl rfl⟩
  | @cons x y xs ys hxy hrest =>
    obtain ⟨hlength, hiff⟩ := Even.flatMap_inj hrest ", ".toList
    rw [commas, commas, List.cons.injEq, ← hiff]
    refine ⟨by simp only [List.length_append, hxy, hlength], fun heq => List.append_inj heq hxy, ?_⟩
    rintro ⟨rfl, htail⟩
    rw [htail]

theorem Even.signature_inj (h : Even xs ys) (h' : Even vs ws) (lone : Bool) :
    (signatureChars xs vs lone).length = (signatureChars ys ws lone).length ∧
      (signatureChars xs vs lone = signatureChars ys ws lone ↔ xs = ys ∧ vs = ws) := by
  obtain ⟨hlength, hiff⟩ := Even.commas_inj h
  obtain ⟨hlength', hiff'⟩ := Even.commas_inj h'
  have hparens : (parenthesized xs).length = (parenthesized ys).length := by
    simp only [parenthesized, List.length_cons, List.length_append, hlength]
  have hresults : (if lone then ' ' :: commas vs else if vs.isEmpty then [] else ' ' :: parenthesized vs).length =
      (if lone then ' ' :: commas ws else if ws.isEmpty then [] else ' ' :: parenthesized ws).length := by
    rw [Even.isEmpty_eq h']
    split
    · simp only [List.length_cons, hlength']
    · split
      · rfl
      · simp only [parenthesized, List.length_cons, List.length_append, hlength']
  rw [signatureChars, signatureChars]
  refine ⟨by simp only [List.length_append, hparens, hresults], fun heq => ?_, ?_⟩
  · obtain ⟨hfront, hback⟩ := List.append_inj heq hparens
    have hxs : xs = ys := by
      rw [parenthesized, parenthesized, List.cons.injEq, List.append_left_inj] at hfront
      exact hiff.1 hfront.2
    have hvs : vs = ws := by
      rw [Even.isEmpty_eq h'] at hback
      split at hback
      · exact hiff'.1 (List.cons.inj hback).2
      · split at hback
        · rename_i hempty
          rw [List.isEmpty_iff.1 hempty]
          exact List.isEmpty_iff.1 ((Even.isEmpty_eq h').trans hempty)
        · rw [parenthesized, parenthesized, List.cons.injEq, List.cons.injEq, List.append_left_inj] at hback
          exact hiff'.1 hback.2.2
    exact ⟨hxs, hvs⟩
  · rintro ⟨rfl, rfl⟩
    rfl

end

theorem length_afterChan (t : TypeExpr) : t.afterChan.letters.length = t.letters.length + 5 := by
  fun_induction afterChan t with
  | case1 t e ih =>
    rw [letters, letters, List.length_append, List.length_append, ih]
    simp [chanText]
    omega
  | case2 t =>
    rw [letters, List.length_append]
    simp [chanText]
    omega

mutual

/-- Where an arrow is taken for that of another keyword there are as many characters as before. -/
theorem length_readBack : ∀ t : TypeExpr, t.readBack.letters.length = t.letters.length
  | .named .. => rfl
  | .pointer _ e | .slice _ e => by
    rw [readBack, letters, letters, List.length_append, List.length_append, length_readBack e]
  | .array _ len e => by
    rw [readBack, letters, letters, lengthChars_core]
    simp only [List.length_append, length_readBack e]
  | .map _ k v => by
    rw [readBack, letters, letters]
    simp only [List.length_append, length_readBack k, length_readBack v]
  | .chan _ .both e => by
    rw [readBack, letters, length_afterChan, List.length_append, length_readBack e]
    simp [chanText]
    omega
  | .chan _ .send e | .chan _ .recv e => by
    rw [readBack, letters, letters, List.length_append, List.length_append, length_readBack e]
    rintro ⟨⟩
  | .func t ⟨u, ps, rs⟩ => by
    obtain ⟨hlength, -⟩ := Even.signature_inj (even_readBack ps) (even_readBack rs) (Field.isLone rs)
    rw [letters_readBack_func, letters, List.length_append, List.length_append, hlength]
  | .struct .. | .interface .. => rfl

theorem even_readBack : ∀ fs : List Field, Even (fieldLetters (readBackFields fs)) (fieldLetters fs)
  | [] => .nil
  | ⟨_, ns, t, variadic, _⟩ :: fs => by
    rw [readBackFields, Field.stripped, fieldLetters, fieldLetters, leadChars_stripped]
    exact .cons (by rw [List.length_append, List.length_append, length_readBack t]) (even_readBack fs)

end

mutual

/-- A bare type that is read back is printed as before exactly if it keeps its arrows. -/
theorem letters_readBack_iff : ∀ t : TypeExpr, t.isBare = true →
    (t.readBack.letters = t.letters ↔ t.keepsArrows = true)
  | .named .., _ => iff_of_true rfl rfl
  | .pointer _ e, h | .slice _ e, h => by
    rw [readBack, letters, letters, List.append_right_inj, letters_readBack_iff e h, keepsArrows]
  | .array _ none e, h | .array _ (some (.ident ..)) e, h => by
    rw [readBack, letters, letters, lengthChars_core]
    simp only [List.append_right_inj, letters_readBack_iff e h, keepsArrows]
  | .map _ k v, h => by
    obtain ⟨hk, hv⟩ := Bool.and_eq_true_iff.1 h
    rw [readBack, letters, letters, List.append_right_inj, keepsArrows, Bool.and_eq_true,
      ← letters_readBack_iff k hk, ← letters_readBack_iff v hv]
    constructor
    · intro heq
      obtain ⟨hkey, hvalue⟩ := List.append_inj heq (length_readBack k)
      exact ⟨hkey, List.append_cancel_left hvalue⟩
    · rintro ⟨hkey, hvalue⟩
      rw [hkey, hvalue]
  | .chan _ .send e, h | .chan _ .recv e, h => by
    rw [readBack, letters, letters, List.append_right_inj, letters_readBack_iff e h, keepsArrows]
    all_goals rintro ⟨⟩
  | .chan _ .both e, h => by
    rw [readBack, letters, keepsArrows, Bool.and_eq_true, Bool.not_eq_true', ← letters_readBack_iff e h]
    cases hrecv : e.isRecv with
    | false =>
      rw [afterChan_eq ((isRecv_readBack e).trans hrecv), letters, List.append_right_inj]
      simp
    | true =>
      -- the arrow of the element comes to stand at the keyword in front of it
      obtain ⟨u, x, rfl⟩ : ∃ u x, e = .chan u .recv x := by
        unfold isRecv at hrecv
        split at hrecv
        · exact ⟨_, _, rfl⟩
        · cases hrecv
      rw [readBack, afterChan, letters, letters]
      · simp [chanText]
      · rintro ⟨⟩
  | .func t ⟨u, ps, rs⟩, h => by
    simp only [isBare, Bool.and_eq_true] at h
    obtain ⟨-, hiff⟩ := Even.signature_inj (even_readBack ps) (even_readBack rs) (Field.isLone rs)
    rw [letters_readBack_func, letters, List.append_right_inj, hiff, areKept_iff ps h.1.2,
      areKept_iff rs h.2, keepsArrows, Bool.and_eq_true]
  | .struct _ [], _ | .interface _ [], _ => iff_of_true rfl rfl

theorem areKept_iff : ∀ fs : List Field, areBare fs = true →
    (fieldLetters (readBackFields fs) = fieldLetters fs ↔ areKept fs = true)
  | [], _ => iff_of_true rfl rfl
  | ⟨_, ns, t, variadic, _⟩ :: fs, h => by
    simp only [areBare, Bool.and_eq_true] at h
    rw [readBackFields, Field.stripped, fieldLetters, fieldLetters, leadChars_stripped, List.cons.injEq,
      List.append_right_inj, letters_readBack_iff t h.1.2, areKept_iff fs h.2, areKept, Bool.and_eq_true]

end

end TypeExpr

end FuncLift
