import FuncLift.Proofs.Recalled

/-!
# Telling whether a file is straight

Whether a name is one, whether an expression or a type has the shape of the grammar, and whether a
statement stood on one line can be computed. So it can be told of a document, before it is printed, that
the text will be read again.
-/
namespace FuncLift

namespace Token

def isName (s : String) : Bool :=
  s.toList.head?.any Lexeme.startsWord && s.toList.tail.all Lexeme.continuesWord &&
    (Keyword.ofSpelling? s).isNone

theorem isName_iff {s : String} : isName s = true ↔ IsName s := by
  cases hs : s.toList with
  | nil => simp [isName, IsName, hs]
  | cons c w => simp [isName, IsName, hs]

theorem isName_of_all {ns : List Name} (h : (ns.all fun n => isName n.text) = true) :
    ∀ n ∈ ns.map Name.text, IsName n := by
  intro n hn
  obtain ⟨m, hm, rfl⟩ := List.mem_map.1 hn
  exact isName_iff.1 (List.all_eq_true.1 h m hm)

end Token

theorem exists_rows {α β : Type} {R : α → β → Prop} {as : List α} (h : ∀ a ∈ as, ∃ b, R a b) :
    ∃ bs, List.Forall₂ R as bs := by
  induction as with
  | nil => exact ⟨[], .nil⟩
  | cons a as ih =>
    obtain ⟨ha, has⟩ := List.forall_mem_cons.1 h
    obtain ⟨b, hb⟩ := ha
    obtain ⟨bs, hbs⟩ := ih has
    exact ⟨b :: bs, .cons hb hbs⟩

theorem LineTable.holds_lineOf (t : LineTable) (offset : Nat) : t.holds (t.lineOf offset) offset = true := by
  simp [holds]

namespace Expr

mutual

/-- A plain expression has the shape of the grammar, and its names are names. -/
def isShaped : Expr → Bool
  | .ident _ n => Token.isName n
  | .paren _ e => isShaped e
  | .selector _ e sel => isShaped e && e.level == 7 && Token.isName sel.text
  | .index _ e i => isShaped e && e.level == 7 && isShaped i
  | .slice _ e lo hi max => isShaped e && e.level == 7 && isShapedOption lo && isShapedOption hi &&
      isShapedOption max
  | .call _ callee args spread => isShaped callee && callee.level == 7 && areShaped args &&
      !(spread && args.isEmpty)
  | .unary _ _ e => isShaped e && decide (6 ≤ e.level)
  | .binary _ l op r => isShaped l && isShaped r && decide (op.precedence ≤ l.level) &&
      decide (op.precedence < r.level)
  | _ => false

def isShapedOption : Option Expr → Bool
  | none => true
  | some e => isShaped e

def areShaped : List Expr → Bool
  | [] => true
  | e :: es => isShaped e && areShaped es

end

mutual

theorem shaped_of_isShaped : ∀ e : Expr, e.isShaped = true → e.Shaped
  | .ident _ _, h => .ident (Token.isName_iff.1 h)
  | .paren _ e, h => .paren (shaped_of_isShaped e h)
  | .selector _ e sel, h => by
    obtain ⟨⟨he, hlevel⟩, hsel⟩ : (e.isShaped = true ∧ e.level = 7) ∧ Token.isName sel.text = true := by
      simpa [isShaped] using h
    exact .selector (shaped_of_isShaped e he) hlevel (Token.isName_iff.1 hsel)
  | .index _ e i, h => by
    obtain ⟨⟨he, hlevel⟩, hi⟩ : (e.isShaped = true ∧ e.level = 7) ∧ i.isShaped = true := by
      simpa [isShaped] using h
    exact .index (shaped_of_isShaped e he) hlevel (shaped_of_isShaped i hi)
  | .slice _ e lo hi max, h => by
    obtain ⟨⟨⟨⟨he, hlevel⟩, hlo⟩, hhi⟩, hmax⟩ : (((e.isShaped = true ∧ e.level = 7) ∧
        isShapedOption lo = true) ∧ isShapedOption hi = true) ∧ isShapedOption max = true := by
      simpa [isShaped] using h
    exact .slice (shaped_of_isShaped e he) hlevel (shaped_of_isShapedOption lo hlo)
      (shaped_of_isShapedOption hi hhi) (shaped_of_isShapedOption max hmax)
  | .call _ callee args spread, h => by
    obtain ⟨⟨⟨he, hlevel⟩, hargs⟩, hspread⟩ : ((callee.isShaped = true ∧ callee.level = 7) ∧
        areShaped args = true) ∧ (spread = false ∨ args ≠ []) := by
      simpa [isShaped] using h
    have hsome : spread = true → args ≠ [] := by
      rintro rfl
      exact hspread.resolve_left (by decide)
    exact .call (shaped_of_isShaped callee he) hlevel (shaped_of_areShaped args hargs) hsome
  | .unary _ op e, h => by
    obtain ⟨he, hlevel⟩ : e.isShaped = true ∧ 6 ≤ e.level := by simpa [isShaped] using h
    exact .unary (shaped_of_isShaped e he) hlevel
  | .binary _ l op r, h => by
    obtain ⟨⟨⟨hl, hr⟩, hleft⟩, hright⟩ : ((l.isShaped = true ∧ r.isShaped = true) ∧
        op.precedence ≤ l.level) ∧ op.precedence < r.level := by
      simpa [isShaped] using h
    exact .binary (shaped_of_isShaped l hl) (shaped_of_isShaped r hr) hleft hright

theorem shaped_of_isShapedOption : ∀ o : Option Expr, isShapedOption o = true → ∀ e ∈ o, e.Shaped
  | some e, h, _, rfl => shaped_of_isShaped e h

theorem shaped_of_areShaped : ∀ es : List Expr, areShaped es = true → ∀ e ∈ es, e.Shaped
  | [], _ => List.forall_mem_nil _
  | e :: es, h => by
    obtain ⟨he, hes⟩ := Bool.and_eq_true_iff.1 h
    exact List.forall_mem_cons.2 ⟨shaped_of_isShaped e he, shaped_of_areShaped es hes⟩

end

end Expr

namespace TypeExpr

mutual

/-- A type without fields in structs and interfaces has the shape of the grammar, and its names are
names. -/
def isShaped : TypeExpr → Bool
  | .named _ pkg n => pkg.all Token.isName && Token.isName n
  | .pointer _ e | .slice _ e | .chan _ _ e => isShaped e
  | .array _ len e => len.all Expr.isShaped && isShaped e
  | .map _ k v => isShaped k && isShaped v
  | .func _ ⟨_, ps, rs⟩ => areShaped ps && areShaped rs && !Field.isOpen rs
  | .struct _ fs | .interface _ fs => fs.isEmpty

def areShaped : List Field → Bool
  | [] => true
  | ⟨_, ns, t, _, label⟩ :: fs => (ns.all fun n => Token.isName n.text) && label.isNone && isShaped t &&
      areShaped fs

end

mutual

theorem shaped_of_isShaped : ∀ t : TypeExpr, t.isShaped = true → t.Shaped
  | .named _ pkg n, h => by
    obtain ⟨hpkg, hn⟩ := Bool.and_eq_true_iff.1 h
    refine .named ?_ (Token.isName_iff.1 hn)
    rintro p rfl
    exact Token.isName_iff.1 hpkg
  | .pointer _ e, h => .pointer (shaped_of_isShaped e h)
  | .slice _ e, h => .slice (shaped_of_isShaped e h)
  | .chan _ _ e, h => .chan (shaped_of_isShaped e h)
  | .array _ len e, h => by
    obtain ⟨hlen, he⟩ := Bool.and_eq_true_iff.1 h
    refine .array ?_ (shaped_of_isShaped e he)
    rintro l rfl
    exact Expr.shaped_of_isShaped l hlen
  | .map _ k v, h => by
    obtain ⟨hk, hv⟩ := Bool.and_eq_true_iff.1 h
    exact .map (shaped_of_isShaped k hk) (shaped_of_isShaped v hv)
  | .func _ ⟨_, ps, rs⟩, h => by
    obtain ⟨⟨hps, hrs⟩, hopen⟩ : (areShaped ps = true ∧ areShaped rs = true) ∧
        Field.isOpen rs = false := by
      simpa [isShaped] using h
    have hparams := shaped_of_areShaped ps hps
    have hresults := shaped_of_areShaped rs hrs
    exact .func (fun f hf => (hparams f hf).type) (fun f hf => (hresults f hf).type)
      (fun f hf => (hparams f hf).param) (fun f hf => (hresults f hf).param) hopen
  | .struct _ fs, h => by
    obtain rfl : fs = [] := List.isEmpty_iff.1 h
    exact .struct (List.forall_mem_nil _) (List.forall_mem_nil _)
  | .interface _ fs, h => by
    obtain rfl : fs = [] := List.isEmpty_iff.1 h
    exact .interface (List.forall_mem_nil _) (List.forall_mem_nil _)

theorem shaped_of_areShaped : ∀ fs : List Field, areShaped fs = true → ∀ f ∈ fs, f.ShapedParam
  | [], _ => List.forall_mem_nil _
  | ⟨t, ns, type, v, label⟩ :: fs, h => by
    obtain ⟨⟨⟨hns, hlabel⟩, ht⟩, hfs⟩ : (((ns.all fun n => Token.isName n.text) = true ∧ label = none) ∧
        type.isShaped = true) ∧ areShaped fs = true := by
      simpa only [areShaped, Bool.and_eq_true, Option.isNone_iff_eq_none] using h
    have hfirst : Field.ShapedParam ⟨t, ns, type, v, label⟩ :=
      ⟨shaped_of_isShaped type ht, Token.isName_of_all hns, hlabel⟩
    exact List.forall_mem_cons.2 ⟨hfirst, shaped_of_areShaped fs hfs⟩

end

/-- A bare type of the grammar on one line. -/
def isStraight (lines : LineTable) (t : TypeExpr) : Bool := t.isShaped && t.isBare && t.isFlat lines

theorem isStraight_iff {lines : LineTable} {t : TypeExpr} : t.isStraight lines = true ↔
    t.isShaped = true ∧ t.isBare = true ∧ t.isFlat lines = true := by
  simp [isStraight, and_assoc]

end TypeExpr

variable {lines : LineTable}

/-- A plain statement on one line. -/
def Stmt.isStraight (lines : LineTable) : Stmt → Bool
  | .simple _ (.expr _ e) => e.isShaped && e.isFlat lines (lines.lineOf e.span.start)
  | .simple _ (.define _ ns vs) =>
    let line := lines.lineOf ((ns.getLast?.map fun n => n.tag.span.stop).getD Span.unknown)
    !ns.isEmpty && (ns.all fun n => Token.isName n.text) && !vs.isEmpty && Expr.areShaped vs &&
      Expr.areFlat lines line vs
  | .ret t es => Expr.areShaped es && Expr.areFlat lines (lines.lineOf t.span.start) es
  | _ => false

theorem Stmt.formed_of_isStraight {s : Stmt} (h : s.isStraight lines = true) :
    ∃ ts, Formed lines s ts := by
  unfold isStraight at h
  split at h
  · obtain ⟨he, hflat⟩ := Bool.and_eq_true_iff.1 h
    exact ⟨_, .expr (Expr.shaped_of_isShaped _ he) hflat⟩
  · rename_i ns vs
    obtain ⟨⟨⟨⟨hns, hnames⟩, hvs⟩, hshaped⟩, hflat⟩ : (((ns ≠ [] ∧
        (ns.all fun n => Token.isName n.text) = true) ∧ vs ≠ []) ∧ Expr.areShaped vs = true) ∧
        Expr.areFlat lines
          (lines.lineOf ((ns.getLast?.map fun n => n.tag.span.stop).getD Span.unknown)) vs = true := by
      simpa only [Bool.and_eq_true, Bool.not_eq_true', List.isEmpty_eq_false_iff] using h
    exact ⟨_, .define hns (Token.isName_of_all hnames) hvs (Expr.shaped_of_areShaped vs hshaped) hflat
      (lines.holds_lineOf _)⟩
  · obtain ⟨hshaped, hflat⟩ := Bool.and_eq_true_iff.1 h
    exact ⟨_, .ret (Expr.shaped_of_areShaped _ hshaped) hflat (lines.holds_lineOf _)⟩
  · cases h

/-- A function without a receiver whose body has such statements on lines of their own. -/
def FuncDecl.isStraight (lines : LineTable) : FuncDecl → Bool
  | ⟨t, none, n, sig, some ⟨u, ss⟩⟩ => Token.isName n.text &&
      (TypeExpr.func default sig).isStraight lines &&
      !Draw.fitsOneLine (.fresh lines [] 0) t.span u.span ss && ss.all (Stmt.isStraight lines)
  | _ => false

theorem FuncDecl.formed_of_isStraight {f : FuncDecl} (h : f.isStraight lines = true) :
    ∃ ts, f.Formed lines ts := by
  unfold isStraight at h
  split at h
  · rename_i t n sig u ss
    obtain ⟨⟨⟨hn, hsig⟩, hbody⟩, hss⟩ : ((Token.isName n.text = true ∧
        (TypeExpr.func default sig).isStraight lines = true) ∧
        Draw.fitsOneLine (.fresh lines [] 0) t.span u.span ss = false) ∧
        ss.all (Stmt.isStraight lines) = true := by
      simpa only [Bool.and_eq_true, Bool.not_eq_true'] using h
    obtain ⟨hshaped, hbare, hflat⟩ := TypeExpr.isStraight_iff.1 hsig
    obtain ⟨rows, hrows⟩ : ∃ rows, List.Forall₂ (Stmt.Formed lines) ss rows := by
      refine exists_rows ?_
      intro s hs
      exact Stmt.formed_of_isStraight (List.all_eq_true.1 hss s hs)
    exact ⟨_, .mk (Token.isName_iff.1 hn) (TypeExpr.shaped_of_isShaped _ hshaped) hbare hflat hbody hrows⟩
  · cases h

/-- A bare declaration or such a function. -/
def TopDecl.isStraight (lines : LineTable) : TopDecl → Bool
  | .decl ⟨_, kind, false, [.values _ ns (some t) []]⟩ => (kind == .consts || kind == .vars) &&
      !ns.isEmpty && (ns.all fun n => Token.isName n.text) && t.isStraight lines
  | .decl ⟨_, .types, false, [.type _ n _ t]⟩ => Token.isName n.text && t.isStraight lines
  | .func f => f.isStraight lines
  | _ => false

theorem TopDecl.straight_of_isStraight {d : TopDecl} (h : d.isStraight lines = true) :
    ∃ ts, d.Straight lines ts := by
  unfold isStraight at h
  split at h
  · rename_i kind _ ns type
    obtain ⟨⟨⟨hkind, hns⟩, hnames⟩, htype⟩ : (((kind = .consts ∨ kind = .vars) ∧ ns ≠ []) ∧
        (ns.all fun n => Token.isName n.text) = true) ∧ type.isStraight lines = true := by
      simpa only [Bool.and_eq_true, Bool.or_eq_true, beq_iff_eq, Bool.not_eq_true',
        List.isEmpty_eq_false_iff] using h
    obtain ⟨hshaped, hbare, hflat⟩ := TypeExpr.isStraight_iff.1 htype
    exact ⟨_, .bare ⟨type, rfl, hbare, hflat⟩ (.values hkind hns (Token.isName_of_all hnames)
      (TypeExpr.shaped_of_isShaped type hshaped) hbare)⟩
  · rename_i n isAlias type
    obtain ⟨hn, htype⟩ := Bool.and_eq_true_iff.1 h
    obtain ⟨hshaped, hbare, hflat⟩ := TypeExpr.isStraight_iff.1 htype
    exact ⟨_, .bare ⟨type, rfl, hbare, hflat⟩ (.type (Token.isName_iff.1 hn)
      (TypeExpr.shaped_of_isShaped type hshaped) hbare)⟩
  · obtain ⟨ts, hts⟩ := FuncDecl.formed_of_isStraight h
    exact ⟨ts, .func hts⟩
  · cases h

namespace Document

/-- There are no comments, and all declarations are straight. -/
def isStraight (d : Document) : Bool :=
  d.file.comments.isEmpty && Token.isName d.file.name.text && d.file.decls.all (TopDecl.isStraight d.lines)

/-- The text that is printed for a straight document is read again, and the declarations are as before
up to their insides. -/
theorem ofSource_print_straight {d : Document} (h : d.isStraight = true) : ∃ d',
    ofSource d.print = .ok d' ∧ d'.file.name.text = d.file.name.text ∧ d'.file.comments = [] ∧
      d'.file.decls.map TopDecl.title = d.file.decls.map TopDecl.title := by
  obtain ⟨⟨hcomments, hname⟩, hdecls⟩ : (d.file.comments = [] ∧ Token.isName d.file.name.text = true) ∧
      d.file.decls.all (TopDecl.isStraight d.lines) = true := by
    simpa only [isStraight, Bool.and_eq_true, List.isEmpty_iff] using h
  obtain ⟨rows, hrows⟩ : ∃ rows, List.Forall₂ (TopDecl.Straight d.lines) d.file.decls rows := by
    refine exists_rows ?_
    intro x hx
    exact TopDecl.straight_of_isStraight (List.all_eq_true.1 hdecls x hx)
  exact ofSource_print hcomments (Token.isName_iff.1 hname) hrows

end Document

end FuncLift
