import FuncLift.Proofs.Roundtrip

/-!
# Plain types and what their tokens tell

A plain type is written as a row of tokens without parentheses around types. Two things are lost
in it. The arrow of a channel goes to the keyword `chan` in front of it, if there is one; and a
parameter of a named type without a name of its own is taken for one of the names of the parameter
behind it.
-/
namespace FuncLift

/-- The tokens of names with commas between them. -/
def nameTokens : List String → List Token
  | [] => []
  | [n] => [.ident n]
  | n :: m :: ns => .ident n :: .punct .comma :: nameTokens (m :: ns)

namespace Token

/-- Rows of tokens with commas between them. -/
def listed : List (List Token) → List Token
  | [] => []
  | [ts] => ts
  | ts :: us :: rows => ts ++ .punct .comma :: listed (us :: rows)

def parens (ts : List Token) : List Token := .punct .lParen :: (ts ++ [.punct .rParen])

/-- Parameters and results. A result that is alone and has no name needs no parentheses. -/
def signature (params results : List (List Token)) (lone : Bool) : List Token :=
  parens (listed params) ++
    if lone then listed results else if results.isEmpty then [] else parens (listed results)

/-- Fields, statements or declarations, either on one line, or each on a line of its own, for the end
of which a semicolon stands. -/
def body (oneLine : Bool) (rows : List (List Token)) : List Token :=
  rows.flatMap (· ++ if oneLine then [] else [.punct .semi])

def block (oneLine : Bool) (rows : List (List Token)) : List Token :=
  .punct .lBrace :: (body oneLine rows ++ [.punct .rBrace])

theorem body_cons (oneLine : Bool) (ts : List Token) (rows : List (List Token)) :
    body oneLine (ts :: rows) =
      ts ++ ((if oneLine then [] else [.punct .semi]) ++ body oneLine rows) := by
  rw [body, List.flatMap_cons, List.append_assoc]
  rfl

theorem body_line (ts : List Token) (rows : List (List Token)) :
    body false (ts :: rows) = ts ++ .punct .semi :: body false rows := body_cons false ts rows

theorem length_body_line (ts : List Token) (rows : List (List Token)) :
    (body false (ts :: rows)).length = ts.length + (body false rows).length + 1 := by
  rw [body_line, List.length_append, List.length_cons, Nat.add_assoc]

theorem block_append (oneLine : Bool) (rows : List (List Token)) (rest : List Token) :
    block oneLine rows ++ rest = .punct .lBrace :: (body oneLine rows ++ .punct .rBrace :: rest) := by
  rw [block, List.cons_append, List.append_assoc]
  rfl

theorem length_block (oneLine : Bool) (rows : List (List Token)) :
    (block oneLine rows).length = (body oneLine rows).length + 2 := by
  rw [block, List.length_cons, List.length_append]
  rfl

end Token

namespace Field

/-- The field without tags, and with another type. -/
def stripped (f : Field) (type : TypeExpr) : Field :=
  ⟨default, f.names.map fun n => ⟨default, n.text⟩, type, f.variadic, f.label⟩

/-- A single result without a name. -/
def isLone : List Field → Bool
  | [⟨_, [], _, _, _⟩] => true
  | _ => false

/-- A single result without a name that stands for any number of values. -/
def isOpen : List Field → Bool
  | [⟨_, [], _, true, _⟩] => true
  | _ => false

/-- The name that stands for the field, where this could be the name of a parameter. -/
def bareName? : Field → Option String
  | ⟨_, [], .named _ none n, false, _⟩ => some n
  | _ => none

def ofName (n : String) : Field := ⟨default, [], .named default none n, false, none⟩

/-- No field that is just a name stands directly in front of one that has names. -/
def isListed : List Field → Bool
  | f :: g :: fs => (f.bareName?.isNone || g.names.isEmpty) && isListed (g :: fs)
  | _ => true

/-- What is read of fields behind names that wait for a type. -/
def regroup (waiting : List String) : List Field → List Field
  | [] => waiting.map ofName
  | f :: fs =>
    match f.bareName? with
    | some n => regroup (waiting ++ [n]) fs
    | none =>
      if f.names.isEmpty then waiting.map ofName ++ f :: regroup [] fs
      else { f with names := waiting.map (fun n => ⟨default, n⟩) ++ f.names } :: regroup [] fs

/-- The fields stood on one line and stay there, whatever is above them. -/
def onOneLine (span : Span) (fields : List Field) : Bool :=
  Draw.fieldsFitOneLine (.fresh ⟨[]⟩ [] 0) span fields

end Field

namespace TypeExpr

mutual

/-- All array lengths are plain, and no function has a single result that stands for any number. -/
@[simp] def isPlain : TypeExpr → Bool
  | .named .. => true
  | .pointer _ e | .slice _ e | .chan _ _ e => isPlain e
  | .array _ len e => Expr.isPlainOption len && isPlain e
  | .map _ k v => isPlain k && isPlain v
  | .func _ ⟨_, ps, rs⟩ => !Field.isOpen rs && arePlain ps && arePlain rs
  | .struct _ fs | .interface _ fs => arePlain fs

def arePlain : List Field → Bool
  | [] => true
  | ⟨_, _, t, _, _⟩ :: fs => isPlain t && arePlain fs

end

mutual

/-- The type without tags, and without doubled parentheses in its lengths. -/
@[simp] def core : TypeExpr → TypeExpr
  | .named _ pkg n => .named default pkg n
  | .pointer _ e => .pointer default (core e)
  | .slice _ e => .slice default (core e)
  | .array _ len e => .array default (Expr.coreOption len) (core e)
  | .map _ k v => .map default (core k) (core v)
  | .chan _ dir e => .chan default dir (core e)
  | .func _ ⟨_, ps, rs⟩ => .func default ⟨default, coreFields ps, coreFields rs⟩
  | .struct _ fs => .struct default (coreFields fs)
  | .interface _ fs => .interface default (coreFields fs)

def coreFields : List Field → List Field
  | [] => []
  | ⟨t, ns, type, v, l⟩ :: fs => Field.stripped ⟨t, ns, type, v, l⟩ (core type) :: coreFields fs

end

mutual

/-- The tokens of a plain type from left to right. -/
@[simp] def tokens : TypeExpr → List Token
  | .named _ none n => [.ident n]
  | .named _ (some pkg) n => [.ident pkg, .punct .dot, .ident n]
  | .pointer _ e => .punct .star :: tokens e
  | .slice _ e => .punct .lBrack :: .punct .rBrack :: tokens e
  | .array _ none e => .punct .lBrack :: .punct .ellipsis :: .punct .rBrack :: tokens e
  | .array _ (some len) e => .punct .lBrack :: (len.tokens ++ .punct .rBrack :: tokens e)
  | .map _ k v => .keyword .mapKw :: .punct .lBrack :: (tokens k ++ .punct .rBrack :: tokens v)
  | .chan _ .both e => .keyword .chanKw :: tokens e
  | .chan _ .send e => .keyword .chanKw :: .punct .arrow :: tokens e
  | .chan _ .recv e => .punct .arrow :: .keyword .chanKw :: tokens e
  | .func _ ⟨_, ps, rs⟩ =>
    .keyword .funcKw :: Token.signature (fieldRows ps) (fieldRows rs) (Field.isLone rs)
  | .struct t fs => .keyword .structKw :: Token.block (Field.onOneLine t.span fs) (fieldRows fs)
  | .interface t fs =>
    .keyword .interfaceKw :: Token.block (Field.onOneLine t.span fs) (methodRows fs)

def fieldRows : List Field → List (List Token)
  | [] => []
  | ⟨_, ns, type, variadic, label⟩ :: fs =>
    (nameTokens (ns.map Name.text) ++ ((if variadic then [.punct .ellipsis] else []) ++
      (tokens type ++ (label.map Token.ofLabel).toList))) :: fieldRows fs

/-- The name of a method stands in place of the keyword of its type. -/
def methodRows : List Field → List (List Token)
  | [] => []
  | ⟨_, [n], type, _, _⟩ :: fs => (.ident n.text :: (tokens type).tail) :: methodRows fs
  | ⟨_, _, type, _, _⟩ :: fs => tokens type :: methodRows fs

end

def isRecv : TypeExpr → Bool
  | .chan _ .recv _ => true
  | _ => false

mutual

/-- No channel without direction has channels to receive from directly as its elements, and no
parameter that is just a name stands in front of one that has names. -/
@[simp] def isTold : TypeExpr → Bool
  | .named .. => true
  | .pointer _ e | .slice _ e | .array _ _ e => isTold e
  | .map _ k v => isTold k && isTold v
  | .chan _ .both e => !e.isRecv && isTold e
  | .chan _ _ e => isTold e
  | .func _ ⟨_, ps, rs⟩ => Field.isListed ps && Field.isListed rs && areTold ps && areTold rs
  | .struct _ fs | .interface _ fs => areTold fs

def areTold : List Field → Bool
  | [] => true
  | ⟨_, _, t, _, _⟩ :: fs => isTold t && areTold fs

end

/-- What is read when `chan` stands in front of a type: its arrow is taken for that of the keyword. -/
def afterChan : TypeExpr → TypeExpr
  | .chan _ .recv e => .chan default .send (afterChan e)
  | t => .chan default .both t

mutual

/-- What is read of the tokens of a type, without tags. -/
@[simp] def readBack : TypeExpr → TypeExpr
  | .named _ pkg n => .named default pkg n
  | .pointer _ e => .pointer default (readBack e)
  | .slice _ e => .slice default (readBack e)
  | .array _ len e => .array default (Expr.coreOption len) (readBack e)
  | .map _ k v => .map default (readBack k) (readBack v)
  | .chan _ .both e => afterChan (readBack e)
  | .chan _ dir e => .chan default dir (readBack e)
  | .func _ ⟨_, ps, rs⟩ =>
    .func default ⟨default, Field.regroup [] (readBackFields ps), Field.regroup [] (readBackFields rs)⟩
  | .struct _ fs => .struct default (readBackFields fs)
  | .interface _ fs => .interface default (readBackFields fs)

def readBackFields : List Field → List Field
  | [] => []
  | ⟨t, ns, type, v, l⟩ :: fs =>
    Field.stripped ⟨t, ns, type, v, l⟩ (readBack type) :: readBackFields fs

end

end TypeExpr

namespace Field

def core (f : Field) : Field := f.stripped f.type.core

def readBack (f : Field) : Field := f.stripped f.type.readBack

/-- The tokens of a field from left to right. -/
def row (f : Field) : List Token :=
  nameTokens (f.names.map Name.text) ++ ((if f.variadic then [.punct .ellipsis] else []) ++
    (f.type.tokens ++ (f.label.map Token.ofLabel).toList))

/-- The tokens of a method from left to right, or of an embedded type. -/
def methodRow (f : Field) : List Token :=
  match f.names with
  | [n] => .ident n.text :: f.type.tokens.tail
  | _ => f.type.tokens

end Field

/-- A parameter or a result, whose names are read as such. -/
structure Field.IsParam (f : Field) : Prop where
  names : ∀ n ∈ f.names.map Name.text, Token.IsName n
  label : f.label = none

/-- A field of a struct, whose names and label are read as such. -/
structure Field.IsMember (f : Field) : Prop where
  names : ∀ n ∈ f.names.map Name.text, Token.IsName n
  label : ∀ l ∈ f.label, (Token.ofLabel l).Legible
  variadic : f.variadic = false

/-- A method of an interface, or an embedded type. -/
structure Field.IsMethod (f : Field) : Prop where
  label : f.label = none
  variadic : f.variadic = false
  method : f.names = [] ∨
    ∃ n t sig, f.names = [n] ∧ Token.IsName n.text ∧ f.type = .func t sig

namespace TypeExpr

inductive Shaped : TypeExpr → Prop
  | named {t : Tag} {pkg : Option String} {n : String} (hpkg : ∀ p ∈ pkg, Token.IsName p)
      (hn : Token.IsName n) : Shaped (.named t pkg n)
  | pointer {t : Tag} {e : TypeExpr} (he : Shaped e) : Shaped (.pointer t e)
  | slice {t : Tag} {e : TypeExpr} (he : Shaped e) : Shaped (.slice t e)
  | array {t : Tag} {len : Option Expr} {e : TypeExpr} (hlen : ∀ l ∈ len, l.Shaped)
      (he : Shaped e) : Shaped (.array t len e)
  | map {t : Tag} {k v : TypeExpr} (hk : Shaped k) (hv : Shaped v) : Shaped (.map t k v)
  | chan {t : Tag} {dir : ChanDir} {e : TypeExpr} (he : Shaped e) : Shaped (.chan t dir e)
  | func {t u : Tag} {ps rs : List Field} (hps : ∀ f ∈ ps, Shaped f.type)
      (hrs : ∀ f ∈ rs, Shaped f.type) (hparams : ∀ f ∈ ps, f.IsParam)
      (hresults : ∀ f ∈ rs, f.IsParam) (hopen : Field.isOpen rs = false) :
      Shaped (.func t ⟨u, ps, rs⟩)
  | struct {t : Tag} {fs : List Field} (hfs : ∀ f ∈ fs, Shaped f.type)
      (hmembers : ∀ f ∈ fs, f.IsMember) : Shaped (.struct t fs)
  | interface {t : Tag} {fs : List Field} (hfs : ∀ f ∈ fs, Shaped f.type)
      (hmethods : ∀ f ∈ fs, f.IsMethod) : Shaped (.interface t fs)

end TypeExpr

/-! ## Fields that are read as they were -/

namespace Field

variable {fs : List Field} {waiting : List String}

theorem isLone_eq_true {rs : List Field} (h : isLone rs = true) :
    ∃ f, rs = [f] ∧ f.names = [] := by
  unfold isLone at h
  split at h
  · exact ⟨_, rfl, rfl⟩
  · cases h

theorem eq_lone {rs : List Field} (hlone : isLone rs = true) (hopen : isOpen rs = false) :
    ∃ t type label, rs = [⟨t, [], type, false, label⟩] := by
  obtain ⟨⟨t, ns, type, v, label⟩, rfl, rfl⟩ := isLone_eq_true hlone
  cases v with
  | false => exact ⟨t, type, label, rfl⟩
  | true => cases hopen

theorem bareName_eq_some {f : Field} {n : String} : f.bareName? = some n ↔
    f.names = [] ∧ f.variadic = false ∧ ∃ t, f.type = .named t none n := by
  constructor
  · intro h
    unfold bareName? at h
    split at h
    · cases h
      exact ⟨rfl, rfl, _, rfl⟩
    · cases h
  · obtain ⟨t, ns, type, v, l⟩ := f
    rintro ⟨rfl, rfl, u, rfl⟩
    rfl

theorem regroup_of_isListed (hbare : ∀ f ∈ fs, ∀ n, f.bareName? = some n → f = ofName n)
    (hlisted : isListed fs = true) (hfirst : waiting ≠ [] → ∀ f ∈ fs.head?, f.names = []) :
    regroup waiting fs = waiting.map ofName ++ fs := by
  induction fs generalizing waiting with
  | nil => simp [regroup]
  | cons f fs ih =>
    obtain ⟨hf, hfs⟩ := List.forall_mem_cons.1 hbare
    have hrest : isListed fs = true := by
      cases fs with
      | nil => rfl
      | cons g gs => exact (Bool.and_eq_true_iff.1 hlisted).2
    rw [regroup]
    cases hname : f.bareName? with
    | some n =>
      -- the name waits, and since the list is listed, no field with names comes next to take it
      have hnext : ∀ g ∈ fs.head?, g.names = [] := by
        intro g hg
        cases fs with
        | nil => cases hg
        | cons h hs =>
          cases hg
          have hpair := (Bool.and_eq_true_iff.1 hlisted).1
          simpa [hname] using hpair
      dsimp only
      rw [ih hfs hrest fun _ => hnext, hf n hname]
      simp
    | none =>
      -- what waited is set down here, and nothing waits behind the field
      dsimp only
      have hback := @ih [] hfs hrest fun h => absurd rfl h
      rw [hback, List.map_nil, List.nil_append]
      by_cases hempty : f.names = []
      · rw [if_pos (by simp [hempty])]
      · have hwaiting : waiting = [] := by
          by_contra hne
          exact hempty (hfirst hne f rfl)
        rw [if_neg (by simp [hempty]), hwaiting]
        cases f
        rfl

theorem length_regroup_le : (regroup waiting fs).length ≤ waiting.length + fs.length := by
  induction fs generalizing waiting with
  | nil => simp [regroup]
  | cons f fs ih =>
    have hnil := @ih []
    rw [List.length_nil] at hnil
    rw [regroup]
    split
    · rename_i n _
      have hmore := @ih (waiting ++ [n])
      simp only [List.length_append, List.length_cons, List.length_nil] at hmore ⊢
      omega
    · split
      · simp only [List.length_append, List.length_map, List.length_cons]
        omega
      · simp only [List.length_cons]
        omega

/-- Where a name is taken for that of a field behind it, one field less is read. -/
theorem length_regroup_lt
    (h : isListed fs = false ∨ waiting ≠ [] ∧ ∃ f ∈ fs.head?, f.names ≠ []) :
    (regroup waiting fs).length < waiting.length + fs.length := by
  induction fs generalizing waiting with
  | nil =>
    rcases h with h | ⟨-, _, h, -⟩
    · cases h
    · cases h
  | cons f fs ih =>
    rw [regroup]
    cases hname : f.bareName? with
    | some n =>
      have hnames : f.names = [] := (bareName_eq_some.1 hname).1
      have hmore : isListed fs = false ∨ waiting ++ [n] ≠ [] ∧ ∃ g ∈ fs.head?, g.names ≠ [] := by
        rcases h with h | ⟨-, g, hg, hnot⟩
        · cases fs with
          | nil => cases h
          | cons g gs =>
            rw [isListed, hname, Option.isNone_some, Bool.false_or, Bool.and_eq_false_iff] at h
            rcases h with h | h
            · exact .inr ⟨by simp, g, rfl, by simpa using h⟩
            · exact .inl h
        · cases hg
          exact absurd hnames hnot
      have := ih hmore
      simp only [List.length_append, List.length_cons, List.length_nil] at this ⊢
      omega
    | none =>
      dsimp only
      have hle := @length_regroup_le fs []
      have hrest (h : isListed (f :: fs) = false) : (regroup [] fs).length < fs.length := by
        cases fs with
        | nil => cases h
        | cons g gs =>
          rw [isListed, hname, Option.isNone_none, Bool.true_or, Bool.true_and] at h
          simpa using @ih [] (.inl h)
      rw [List.length_nil, Nat.zero_add] at hle
      by_cases hempty : f.names = []
      · rw [if_pos (by simp [hempty])]
        rcases h with h | ⟨-, g, hg, hnot⟩
        · have := hrest h
          simp only [List.length_append, List.length_map, List.length_cons]
          omega
        · cases hg
          exact absurd hempty hnot
      · rw [if_neg (by simp [hempty]), List.length_cons, List.length_cons]
        rcases h with h | ⟨hwaiting, -⟩
        · have := hrest h
          omega
        · have := List.length_pos_iff.2 hwaiting
          omega

theorem isListed_congr {fs gs : List Field}
    (h : List.Forall₂ (fun f g => g.bareName? = f.bareName? ∧ g.names.isEmpty = f.names.isEmpty) fs gs) :
    isListed gs = isListed fs := by
  induction h with
  | nil => rfl
  | @cons f g fs gs hfg hrest ih =>
    cases hrest with
    | nil => rfl
    | cons hnext _ => rw [isListed, isListed, ih, hfg.1, hnext.2]

end Field

namespace TypeExpr

theorem readBackFields_eq (fs : List Field) : readBackFields fs = fs.map Field.readBack := by
  induction fs with
  | nil => rfl
  | cons f fs ih =>
    obtain ⟨t, ns, type, v, l⟩ := f
    rw [readBackFields, ih, List.map_cons]
    rfl

theorem coreFields_eq (fs : List Field) : coreFields fs = fs.map Field.core := by
  induction fs with
  | nil => rfl
  | cons f fs ih =>
    obtain ⟨t, ns, type, v, l⟩ := f
    rw [coreFields, ih, List.map_cons]
    rfl

theorem fieldRows_eq (fs : List Field) : fieldRows fs = fs.map Field.row := by
  induction fs with
  | nil => rfl
  | cons f fs ih =>
    obtain ⟨t, ns, type, v, l⟩ := f
    rw [fieldRows, ih, List.map_cons]
    rfl

theorem methodRows_eq (fs : List Field) : methodRows fs = fs.map Field.methodRow := by
  induction fs with
  | nil => rfl
  | cons f fs ih =>
    obtain ⟨t, ns, type, v, l⟩ := f
    rw [List.map_cons, ← ih]
    cases ns with
    | nil => rfl
    | cons n ns => cases ns <;> rfl

theorem isRecv_afterChan (t : TypeExpr) : t.afterChan.isRecv = false := by
  unfold afterChan
  split <;> rfl

theorem isRecv_readBack (t : TypeExpr) : t.readBack.isRecv = t.isRecv := by
  cases t with
  | chan _ dir e =>
    cases dir with
    | both => exact isRecv_afterChan _
    | _ => rfl
  | func _ sig =>
    cases sig
    rfl
  | _ => rfl

theorem afterChan_eq {t : TypeExpr} (h : t.isRecv = false) : t.afterChan = .chan default .both t := by
  unfold afterChan
  split
  · cases h
  · rfl

theorem named_readBack {t : TypeExpr} {u : Tag} {pkg : Option String} {n : String}
    (h : t.readBack = .named u pkg n) : u = default ∧ ∃ v, t = .named v pkg n := by
  cases t with
  | named v =>
    cases h
    exact ⟨rfl, v, rfl⟩
  | chan _ dir e =>
    cases dir with
    | both =>
      rw [readBack] at h
      unfold afterChan at h
      split at h <;> cases h
    | _ => cases h
  | func _ sig =>
    cases sig
    cases h
  | _ => cases h

theorem bareName_readBack (f : Field) : f.readBack.bareName? = f.bareName? := by
  apply Option.ext
  intro n
  rw [Field.bareName_eq_some, Field.bareName_eq_some]
  constructor
  · rintro ⟨hnames, hvariadic, u, htype⟩
    exact ⟨List.map_eq_nil_iff.1 hnames, hvariadic, (named_readBack htype).2⟩
  · rintro ⟨hnames, hvariadic, u, htype⟩
    refine ⟨List.map_eq_nil_iff.2 hnames, hvariadic, default, ?_⟩
    rw [Field.readBack, Field.stripped, htype, readBack]

theorem ofName_readBack {f : Field} {n : String} (hlabel : f.label = none)
    (h : f.readBack.bareName? = some n) : f.readBack = .ofName n := by
  rw [Field.readBack, Field.stripped] at h ⊢
  obtain ⟨hnames, hvariadic, u, htype⟩ := Field.bareName_eq_some.1 h
  dsimp only at hnames hvariadic htype
  obtain ⟨rfl, -⟩ := named_readBack htype
  rw [hnames, hvariadic, htype, hlabel]
  rfl

theorem isListed_readBack (fs : List Field) :
    Field.isListed (readBackFields fs) = Field.isListed fs := by
  rw [readBackFields_eq]
  apply Field.isListed_congr
  induction fs with
  | nil => exact .nil
  | cons f fs ih => exact .cons ⟨bareName_readBack f, by simp [Field.readBack, Field.stripped]⟩ ih

theorem regroup_readBack {fs : List Field} (hlabel : ∀ f ∈ fs, f.label = none)
    (hlisted : Field.isListed fs = true) :
    Field.regroup [] (readBackFields fs) = readBackFields fs := by
  have hbare : ∀ f ∈ readBackFields fs, ∀ n, f.bareName? = some n → f = .ofName n := by
    intro f hf n hn
    rw [readBackFields_eq] at hf
    obtain ⟨g, hg, rfl⟩ := List.mem_map.1 hf
    exact ofName_readBack (hlabel g hg) hn
  rw [Field.regroup_of_isListed hbare (by rw [isListed_readBack, hlisted]) fun h => absurd rfl h]
  rfl

theorem regroup_readBack_iff {fs : List Field} (hlabel : ∀ f ∈ fs, f.label = none) :
    Field.regroup [] (readBackFields fs) = coreFields fs ↔
      Field.isListed fs = true ∧ readBackFields fs = coreFields fs := by
  cases hlisted : Field.isListed fs with
  | true =>
    rw [regroup_readBack hlabel hlisted]
    simp
  | false =>
    -- a field gets lost, so the two lists do not even have the same length
    have hlt := @Field.length_regroup_lt _ [] (.inl (by rw [isListed_readBack, hlisted]) :
      Field.isListed (readBackFields fs) = false ∨ _)
    have hlength : (readBackFields fs).length = (coreFields fs).length := by
      rw [readBackFields_eq, coreFields_eq, List.length_map, List.length_map]
    constructor
    · intro heq
      rw [heq, hlength, List.length_nil] at hlt
      omega
    · rintro ⟨h, -⟩
      cases h

theorem readBackFields_iff {fs : List Field}
    (h : ∀ f ∈ fs, (f.type.readBack = f.type.core ↔ f.type.isTold = true)) :
    readBackFields fs = coreFields fs ↔ areTold fs = true := by
  induction fs with
  | nil => exact iff_of_true rfl rfl
  | cons f fs ih =>
    obtain ⟨hf, hfs⟩ := List.forall_mem_cons.1 h
    obtain ⟨t, ns, type, v, l⟩ := f
    rw [readBackFields, coreFields, areTold, Bool.and_eq_true, ← ih hfs, ← hf, List.cons.injEq]
    simp [Field.stripped]

theorem readBack_eq_core {t : TypeExpr} (h : t.Shaped) : t.readBack = t.core ↔ t.isTold = true := by
  induction h with
  | named => simp [readBack, core, isTold]
  | pointer _ ih | slice _ ih | array _ _ ih => simp [readBack, core, isTold, ih]
  | map _ _ ihk ihv => simp [readBack, core, isTold, ihk, ihv]
  | @chan t dir e _ ih =>
    cases dir with
    | both =>
      rw [readBack, core, isTold]
      cases hrecv : e.isRecv with
      | false => simp [afterChan_eq ((isRecv_readBack e).trans hrecv), ih]
      | true =>
        have hback := (isRecv_readBack e).trans hrecv
        unfold afterChan
        split
        · simp
        · rename_i hnot
          unfold isRecv at hback
          split at hback
          · exact absurd ‹_› (hnot _ _)
          · cases hback
    | _ => simp [readBack, core, isTold, ih]
  | func _ _ hparams hresults _ ihps ihrs =>
    have hps := regroup_readBack_iff fun f hf => (hparams f hf).label
    have hrs := regroup_readBack_iff fun f hf => (hresults f hf).label
    rw [readBackFields_iff ihps] at hps
    rw [readBackFields_iff ihrs] at hrs
    rw [readBack, core, isTold]
    simp only [TypeExpr.func.injEq, Signature.mk.injEq, true_and, hps, hrs, Bool.and_eq_true]
    constructor
    · rintro ⟨⟨hpl, hpt⟩, hrl, hrt⟩
      exact ⟨⟨⟨hpl, hrl⟩, hpt⟩, hrt⟩
    · rintro ⟨⟨⟨hpl, hrl⟩, hpt⟩, hrt⟩
      exact ⟨⟨hpl, hpt⟩, hrl, hrt⟩
  | struct _ _ ih | interface _ _ ih => simp [readBack, core, isTold, readBackFields_iff ih]

end TypeExpr

end FuncLift
