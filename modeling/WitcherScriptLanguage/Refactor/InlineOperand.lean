import WitcherScriptLanguage.Refactor.OperatorParser

/-!
# Parentheses around an inlined value

The text of a value takes the place of a read of the variable, in parentheses where the planner asks
for them (`substituted_text` in `resolve/inline_var.rs`, `needs_parentheses` in
`resolve/body_model/mod.rs`). The value must then be an operand as a whole.
-/

namespace WitcherScriptLanguage.Operators

inductive ExprKind
  | ident | literalInt | literalHex | literalFloat | literalBool | literalString | literalName
  | literalNull | thisExpr | parentExpr | superExpr | virtualParentExpr
  | nestedExpr | memberAccessExpr | funcCallExpr | arrayExpr | newExpr | unaryOpExpr | castExpr
  | binaryOpExpr | ternaryCondExpr | assignOpExpr | sequenceExpression | funcCallArgs
  | returnStmt | exprStmt | localVarDeclStmt | switchCaseLabel | deleteStmt
  | ifStmt | whileStmt | doWhileStmt | forStmt | switchStmt
  deriving DecidableEq, Repr

def Atom.kind : Atom → ExprKind
  | ident => .ident
  | literalInt => .literalInt
  | literalHex => .literalHex
  | literalFloat => .literalFloat
  | literalBool => .literalBool
  | literalString => .literalString
  | literalName => .literalName
  | literalNull => .literalNull
  | thisExpr => .thisExpr
  | parentExpr => .parentExpr
  | superExpr => .superExpr
  | virtualParentExpr => .virtualParentExpr

def Expr.kind : Expr → ExprKind
  | atom a _ => a.kind
  | nested _ => .nestedExpr
  | member _ _ => .memberAccessExpr
  | callNone _ | call _ _ => .funcCallExpr
  | array _ _ => .arrayExpr
  | new _ | newIn _ _ => .newExpr
  | unary _ _ => .unaryOpExpr
  | cast _ _ => .castExpr
  | binary _ _ _ => .binaryOpExpr
  | ternary _ _ _ => .ternaryCondExpr
  | assign _ _ _ => .assignOpExpr
  | comma _ _ => .sequenceExpression

/-- A place for an operand in an expression. -/
inductive Frame
  | nested
  | memberBase (name : String)
  | calleeNone
  | callee (args : Expr)
  | args (callee : Expr)
  | arrayBase (i : Expr)
  | arrayIndex (base : Expr)
  | lifetime (cls : String)
  | unary (op : UnaryOp)
  | cast (type : String)
  | left (op : BinaryOp) (right : Expr)
  | right (op : BinaryOp) (left : Expr)
  | cond (onTrue onFalse : Expr)
  | onTrue (cond onFalse : Expr)
  | onFalse (cond onTrue : Expr)
  | target (op : AssignOp) (right : Expr)
  | assigned (op : AssignOp) (left : Expr)
  | first (rest : Expr)
  | rest (first : Expr)

namespace Frame

def plug (e : Expr) : Frame → Expr
  | nested => .nested e
  | memberBase name => .member e name
  | calleeNone => .callNone e
  | callee us => .call e us
  | args base => .call base e
  | arrayBase i => .array e i
  | arrayIndex base => .array base e
  | lifetime cls => .newIn cls e
  | unary op => .unary op e
  | cast type => .cast type e
  | left op r => .binary op e r
  | right op l => .binary op l e
  | cond t f => .ternary e t f
  | onTrue c f => .ternary c e f
  | onFalse c t => .ternary c t e
  | target op r => .assign op e r
  | assigned op l => .assign op l e
  | first r => .comma e r
  | rest l => .comma l e

def before : Frame → List Token
  | nested => [.sym .lparen]
  | memberBase _ | calleeNone | callee _ | arrayBase _ | left _ _ | cond _ _ | target _ _ |
    first _ => []
  | args base => base.tokens ++ [.sym .lparen]
  | arrayIndex base => base.tokens ++ [.sym .lbrack]
  | lifetime cls => [.sym .new, .typeName cls, .sym .inSym]
  | unary op => [.sym op.sym]
  | cast type => [.sym .lparen, .typeName type, .sym .rparen]
  | right op l => l.tokens ++ [.sym op.sym]
  | onTrue c _ => c.tokens ++ [.sym .question]
  | onFalse c t => c.tokens ++ .sym .question :: (t.tokens ++ [.sym .colon])
  | assigned op l => l.tokens ++ [.sym op.sym]
  | rest l => l.tokens ++ [.sym .comma]

def behind : Frame → List Token
  | nested | args _ => [.sym .rparen]
  | memberBase name => [.sym .dot, .member name]
  | calleeNone => [.sym .lparen, .sym .rparen]
  | callee us => .sym .lparen :: (us.tokens ++ [.sym .rparen])
  | arrayBase i => .sym .lbrack :: (i.tokens ++ [.sym .rbrack])
  | arrayIndex _ => [.sym .rbrack]
  | lifetime _ | unary _ | cast _ | right _ _ | onFalse _ _ | assigned _ _ | rest _ => []
  | left op r => .sym op.sym :: r.tokens
  | cond t f => .sym .question :: (t.tokens ++ .sym .colon :: f.tokens)
  | onTrue _ f => .sym .colon :: f.tokens
  | target op r => .sym op.sym :: r.tokens
  | first r => .sym .comma :: r.tokens

/-- The loosest level that the place takes. -/
def bound : Frame → Nat
  | memberBase _ | calleeNone | callee _ | arrayBase _ => postfixLevel
  | lifetime _ | unary _ | cast _ => prefixLevel
  | left op _ => op.level
  | right op _ => op.level - 1
  | cond _ _ => ternaryLevel - 1
  | onFalse _ _ => ternaryLevel
  | target _ _ => assignLevel - 1
  | nested | arrayIndex _ | onTrue _ _ | assigned _ _ | first _ => assignLevel
  | args _ | rest _ => commaLevel

/-- The level of the whole expression. -/
def level : Frame → Nat
  | nested | memberBase _ | calleeNone | callee _ | args _ | arrayBase _ | arrayIndex _ =>
    postfixLevel
  | lifetime _ | unary _ | cast _ => prefixLevel
  | left op _ | right op _ => op.level
  | cond _ _ | onTrue _ _ | onFalse _ _ => ternaryLevel
  | target _ _ | assigned _ _ => assignLevel
  | first _ | rest _ => commaLevel

/-- What else is in the expression binds tightly enough. -/
def Ok : Frame → Prop
  | nested | memberBase _ | calleeNone | lifetime _ | unary _ | cast _ => True
  | callee us => us.Ok ∧ us.level ≤ commaLevel
  | args base => base.Ok ∧ base.level ≤ postfixLevel
  | arrayBase i => i.Ok ∧ i.level ≤ assignLevel
  | arrayIndex base => base.Ok ∧ base.level ≤ postfixLevel
  | left op r => r.Ok ∧ r.level ≤ op.level - 1
  | right op l => l.Ok ∧ l.level ≤ op.level
  | cond t f => (t.Ok ∧ t.level ≤ assignLevel) ∧ f.Ok ∧ f.level ≤ ternaryLevel
  | onTrue c f => (c.Ok ∧ c.level ≤ ternaryLevel - 1) ∧ f.Ok ∧ f.level ≤ ternaryLevel
  | onFalse c t => (c.Ok ∧ c.level ≤ ternaryLevel - 1) ∧ t.Ok ∧ t.level ≤ assignLevel
  | target _ r => r.Ok ∧ r.level ≤ assignLevel
  | assigned _ l => l.Ok ∧ l.level ≤ assignLevel - 1
  | first r => r.Ok ∧ r.level ≤ commaLevel
  | rest l => l.Ok ∧ l.level ≤ assignLevel

/-- The operand of a member access, a call or an array access. -/
def isBase : Frame → Bool
  | memberBase _ | calleeNone | callee _ | arrayBase _ => true
  | _ => false

lemma tokens_plug (f : Frame) (e : Expr) :
    (f.plug e).tokens = f.before ++ (e.tokens ++ f.behind) := by
  cases f <;> simp [plug, before, behind, Expr.tokens]

lemma level_plug (f : Frame) (e : Expr) : (f.plug e).level = f.level := by
  cases f <;> rfl

lemma ok_plug (f : Frame) (e : Expr) :
    (f.plug e).Ok ↔ (e.Ok ∧ e.level ≤ f.bound) ∧ f.Ok := by
  cases f <;> simp only [plug, Expr.Ok, bound, Ok, and_true] <;> tauto

lemma postfix_le_bound (f : Frame) : postfixLevel ≤ f.bound := by
  cases f with
  | left op r => exact Nat.le_of_lt (Nat.lt_of_succ_lt op.prefix_lt_level)
  | right op l => exact Nat.le_sub_one_of_lt (Nat.lt_of_succ_lt op.prefix_lt_level)
  | _ => exact Nat.le_of_ble_eq_true rfl

/-- Only a base has to be tighter than `new`. -/
lemma prefix_le_bound {f : Frame} (h : f.isBase = false) : prefixLevel ≤ f.bound := by
  cases f with
  | left op r => exact Nat.le_of_lt op.prefix_lt_level
  | right op l => exact Nat.le_sub_one_of_lt op.prefix_lt_level
  | memberBase name => cases h
  | calleeNone => cases h
  | callee us => cases h
  | arrayBase i => cases h
  | _ => exact Nat.le_of_ble_eq_true rfl

lemma bound_of_isBase {f : Frame} (h : f.isBase = true) : f.bound = postfixLevel := by
  cases f with
  | memberBase name => rfl
  | calleeNone => rfl
  | callee us => rfl
  | arrayBase i => rfl
  | _ => cases h

end Frame

/-- A place for an expression in a statement. -/
inductive Slot
  | returnStmt | exprStmt | localVarDeclStmt | switchCaseLabel | deleteStmt
  | ifStmt | whileStmt | doWhileStmt | forStmt | switchStmt
  deriving DecidableEq, Repr

def Slot.kind : Slot → ExprKind
  | returnStmt => .returnStmt
  | exprStmt => .exprStmt
  | localVarDeclStmt => .localVarDeclStmt
  | switchCaseLabel => .switchCaseLabel
  | deleteStmt => .deleteStmt
  | ifStmt => .ifStmt
  | whileStmt => .whileStmt
  | doWhileStmt => .doWhileStmt
  | forStmt => .forStmt
  | switchStmt => .switchStmt

/-- A clause of a `for` may have commas. -/
def Slot.bound : Slot → Nat
  | forStmt => commaLevel
  | _ => assignLevel

/-- A place in the expression of a statement: the frames around it from the inside, and the
statement. -/
structure Context where
  frames : List Frame
  slot : Slot

/-- Expressions with commas are the arguments of a call, or a sequence. -/
def listKind : List Frame → ExprKind
  | .rest _ :: frames => listKind frames
  | .args _ :: _ => .funcCallArgs
  | _ => .sequenceExpression

/-- The kind of the node around the place. -/
def parentKind (slot : Slot) : List Frame → ExprKind
  | [] => slot.kind
  | .nested :: _ => .nestedExpr
  | .memberBase _ :: _ => .memberAccessExpr
  | .calleeNone :: _ | .callee _ :: _ => .funcCallExpr
  | .args _ :: _ => .funcCallArgs
  | .arrayBase _ :: _ | .arrayIndex _ :: _ => .arrayExpr
  | .lifetime _ :: _ => .newExpr
  | .unary _ :: _ => .unaryOpExpr
  | .cast _ :: _ => .castExpr
  | .left _ _ :: _ | .right _ _ :: _ => .binaryOpExpr
  | .cond _ _ :: _ | .onTrue _ _ :: _ | .onFalse _ _ :: _ => .ternaryCondExpr
  | .target _ _ :: _ | .assigned _ _ :: _ => .assignOpExpr
  | .first _ :: frames | .rest _ :: frames => listKind frames

def fillFrames (e : Expr) : List Frame → Expr
  | [] => e
  | f :: frames => fillFrames (f.plug e) frames

def beforeFrames : List Frame → List Token
  | [] => []
  | f :: frames => beforeFrames frames ++ f.before

def behindFrames : List Frame → List Token
  | [] => []
  | f :: frames => f.behind ++ behindFrames frames

/-- The loosest level that the place takes. -/
def boundFrames (slot : Slot) : List Frame → Nat
  | [] => slot.bound
  | f :: _ => f.bound

namespace Context

def fill (context : Context) (e : Expr) : Expr := fillFrames e context.frames

/-- The tokens of the statement's expression in front of the place. -/
def before (context : Context) : List Token := beforeFrames context.frames

def behind (context : Context) : List Token := behindFrames context.frames

def bound (context : Context) : Nat := boundFrames context.slot context.frames

/-- The variable is read and not assigned here. -/
def isRead (context : Context) : Bool :=
  match context.frames with
  | .target _ _ :: _ => false
  | _ => true

def isBase (context : Context) : Bool := context.frames.head?.any Frame.isBase

end Context

def atomicValueKinds : List ExprKind :=
  [.ident, .literalInt, .literalHex, .literalFloat, .literalBool, .literalString, .literalName,
    .literalNull, .funcCallExpr, .memberAccessExpr, .arrayExpr, .nestedExpr, .newExpr, .thisExpr,
    .parentExpr, .superExpr, .virtualParentExpr]

def contextBindsTighter (parent : ExprKind) : Bool :=
  !([.returnStmt, .exprStmt, .funcCallArgs, .nestedExpr, .localVarDeclStmt, .assignOpExpr,
    .switchCaseLabel, .deleteStmt, .sequenceExpression] : List ExprKind).contains parent

def needsParentheses (value : Expr) (context : Context) : Bool :=
  if atomicValueKinds.contains value.kind then false
  else contextBindsTighter (parentKind context.slot context.frames)

def substitutedText (value : Expr) (context : Context) : List Token :=
  if needsParentheses value context then .sym .lparen :: (value.tokens ++ [.sym .rparen])
  else value.tokens

/-- The statement with the substituted text is read with the value in the place of the variable,
in parentheses or not. -/
def Context.KeepsOperand (context : Context) (value : Expr) : Prop :=
  ∃ operand, (operand = value ∨ operand = .nested value) ∧
    Parses context.slot.bound (context.before ++ (substitutedText value context ++ context.behind))
      (context.fill operand)

/-- Everything around the place binds tightly enough. -/
def Surrounds (slot : Slot) : List Frame → Prop
  | [] => True
  | f :: frames => (f.Ok ∧ f.level ≤ boundFrames slot frames) ∧ Surrounds slot frames

lemma tokens_fillFrames (e : Expr) (frames : List Frame) : (fillFrames e frames).tokens =
    beforeFrames frames ++ (e.tokens ++ behindFrames frames) := by
  induction frames generalizing e with
  | nil => simp [fillFrames, beforeFrames, behindFrames]
  | cons f frames ih => simp [fillFrames, beforeFrames, behindFrames, ih, Frame.tokens_plug]

lemma ok_fillFrames (slot : Slot) (e : Expr) (frames : List Frame) :
    (fillFrames e frames).Ok ∧ (fillFrames e frames).level ≤ slot.bound ↔
      (e.Ok ∧ e.level ≤ boundFrames slot frames) ∧ Surrounds slot frames := by
  induction frames generalizing e with
  | nil => exact (and_iff_left trivial).symm
  | cons f frames ih =>
    rw [fillFrames, ih, Frame.ok_plug, Frame.level_plug, boundFrames, Surrounds]
    tauto

/-- Whether the place takes an operand depends on the level of the operand alone. -/
theorem Context.parses_fill_iff {context : Context} {ts : List Token} {e : Expr} :
    Parses context.slot.bound (context.before ++ (ts ++ context.behind)) (context.fill e) ↔
      e.tokens = ts ∧ (e.Ok ∧ e.level ≤ context.bound) ∧
        Surrounds context.slot context.frames := by
  rw [parses_iff, fill, tokens_fillFrames, ok_fillFrames, before, behind, bound,
    List.append_cancel_left_eq, List.append_cancel_right_eq]

namespace Context

variable {context : Context} {value : Expr}

lemma postfix_le_bound (context : Context) : postfixLevel ≤ context.bound := by
  obtain ⟨frames, slot⟩ := context
  cases frames with
  | nil => cases slot <;> exact Nat.le_of_ble_eq_true rfl
  | cons f frames => exact f.postfix_le_bound

lemma prefix_le_bound (h : context.isBase = false) : prefixLevel ≤ context.bound := by
  obtain ⟨frames, slot⟩ := context
  cases frames with
  | nil => cases slot <;> exact Nat.le_of_ble_eq_true rfl
  | cons f frames => exact Frame.prefix_le_bound h

lemma bound_of_isBase (h : context.isBase = true) : context.bound = postfixLevel := by
  obtain ⟨frames, slot⟩ := context
  cases frames with
  | nil => cases h
  | cons f frames => exact Frame.bound_of_isBase h

/-- A place that does not ask for parentheses takes every expression. -/
lemma assign_le_bound (hread : context.isRead = true)
    (h : contextBindsTighter (parentKind context.slot context.frames) = false) :
    assignLevel ≤ context.bound := by
  obtain ⟨frames, slot⟩ := context
  cases frames with
  | nil =>
    cases slot with
    | ifStmt => exact absurd h (by decide)
    | whileStmt => exact absurd h (by decide)
    | doWhileStmt => exact absurd h (by decide)
    | switchStmt => exact absurd h (by decide)
    | _ => exact Nat.le_of_ble_eq_true rfl
  | cons f frames =>
    cases f with
    | nested => exact Nat.le_of_ble_eq_true rfl
    | args base => exact Nat.le_of_ble_eq_true rfl
    | assigned op l => exact Nat.le_of_ble_eq_true rfl
    | first r => exact Nat.le_of_ble_eq_true rfl
    | rest l => exact Nat.le_of_ble_eq_true rfl
    | target op r => cases hread
    | _ => exact absurd h (Bool.ne_false_iff.mpr rfl)

end Context

def Expr.isNew : Expr → Bool
  | new _ | newIn _ _ => true
  | _ => false

lemma Expr.level_of_isNew {value : Expr} (h : value.isNew = true) :
    value.level = prefixLevel ∧ value.kind = .newExpr := by
  cases value with
  | new cls => exact ⟨rfl, rfl⟩
  | newIn cls lifetime => exact ⟨rfl, rfl⟩
  | _ => cases h

/-- Of the atomic values only `new` is looser than a member access. -/
lemma Expr.level_of_atomic {value : Expr} (h : atomicValueKinds.contains value.kind = true) :
    value.level = postfixLevel ∨ value.isNew = true := by
  cases value with
  | new cls => exact .inr rfl
  | newIn cls lifetime => exact .inr rfl
  | unary op e => exact absurd h (Bool.eq_false_iff.mp rfl)
  | cast type e => exact absurd h (Bool.eq_false_iff.mp rfl)
  | binary op l r => exact absurd h (Bool.eq_false_iff.mp rfl)
  | ternary c t f => exact absurd h (Bool.eq_false_iff.mp rfl)
  | assign op l r => exact absurd h (Bool.eq_false_iff.mp rfl)
  | comma l r => exact absurd h (Bool.eq_false_iff.mp rfl)
  | _ => exact .inl rfl

namespace Context

variable {context : Context} {value : Expr}

lemma keepsOperand_iff_level (hsurrounds : Surrounds context.slot context.frames)
    (hvalue : Parses assignLevel value.tokens value) : context.KeepsOperand value ↔
      (needsParentheses value context = true ∨ value.level ≤ context.bound) := by
  obtain ⟨-, hok, hlevel⟩ := parses_iff.mp hvalue
  constructor
  · rintro ⟨operand, hoperand, hparses⟩
    obtain ⟨htokens, hfits, -⟩ := parses_fill_iff.mp hparses
    cases hneeds : needsParentheses value context with
    | true => exact .inl rfl
    | false =>
      rw [substitutedText, hneeds, if_neg Bool.false_ne_true] at htokens
      rcases hoperand with rfl | rfl
      · exact .inr hfits.2
      · -- The parentheses would have to be in the text.
        have hlength := congrArg List.length htokens
        simp [Expr.tokens] at hlength
        omega
  · intro h
    cases hneeds : needsParentheses value context with
    | true =>
      refine ⟨.nested value, .inr rfl, parses_fill_iff.mpr ⟨?_, ⟨⟨hok, hlevel⟩, ?_⟩, hsurrounds⟩⟩
      · rw [substitutedText, hneeds, if_pos rfl, Expr.tokens]
      · exact context.postfix_le_bound
    | false =>
      rw [hneeds] at h
      refine ⟨value, .inl rfl, parses_fill_iff.mpr
        ⟨?_, ⟨hok, h.resolve_left Bool.false_ne_true⟩, hsurrounds⟩⟩
      rw [substitutedText, hneeds, if_neg Bool.false_ne_true]

/-- The statement is then read in no other way. -/
theorem KeepsOperand.eq_of_parses (h : context.KeepsOperand value) {k : Nat} {e : Expr}
    (hparses : Parses k
      (context.before ++ (substitutedText value context ++ context.behind)) e) :
    e = context.fill value ∨ e = context.fill (.nested value) := by
  obtain ⟨operand, hoperand, hkept⟩ := h
  have heq := parses_unique hparses hkept
  rcases hoperand with rfl | rfl
  · exact .inl heq
  · exact .inr heq

/-- A value stays one operand unless it is a `new` expression at the base of a member access, a call
or an array access. -/
theorem keepsOperand_iff (context : Context) (name : String) (value : Expr)
    (hread : context.isRead = true)
    (hsource : Parses context.slot.bound
      (context.before ++ ([.atom .ident name] ++ context.behind))
      (context.fill (.atom .ident name)))
    (hvalue : Parses assignLevel value.tokens value) :
    context.KeepsOperand value ↔ ¬(value.isNew = true ∧ context.isBase = true) := by
  obtain ⟨-, -, hsurrounds⟩ := parses_fill_iff.mp hsource
  rw [keepsOperand_iff_level hsurrounds hvalue]
  constructor
  · rintro hfits ⟨hnew, hbase⟩
    obtain ⟨hlevel, hkind⟩ := Expr.level_of_isNew hnew
    have hneeds : needsParentheses value context = false := by
      rw [needsParentheses, hkind, if_pos (by decide)]
    rw [hneeds, hlevel, bound_of_isBase hbase] at hfits
    exact absurd hfits (by decide)
  · intro hnot
    cases hatomic : atomicValueKinds.contains value.kind with
    | true =>
      refine .inr ?_
      rcases Expr.level_of_atomic hatomic with hlevel | hnew
      · rw [hlevel]
        exact context.postfix_le_bound
      · rw [(Expr.level_of_isNew hnew).1]
        exact prefix_le_bound (Bool.eq_false_iff.mpr fun hbase => hnot ⟨hnew, hbase⟩)
    | false =>
      have hneeds : needsParentheses value context =
          contextBindsTighter (parentKind context.slot context.frames) := by
        rw [needsParentheses, hatomic, if_neg Bool.false_ne_true]
      rw [hneeds]
      cases htighter : contextBindsTighter (parentKind context.slot context.frames) with
      | true => exact .inl rfl
      | false =>
        exact .inr (Nat.le_trans (parses_iff.mp hvalue).2.2 (assign_le_bound hread htighter))

end Context

/-- `new C in this` -/
def newInThis : Expr := .newIn "C" (.atom .thisExpr "this")

/-- `x = r.f;` around `r`. -/
def assignedMember : Context := ⟨[.memberBase "f", .assigned .assign (.atom .ident "x")], .exprStmt⟩

lemma parses_newInThis : Parses assignLevel newInThis.tokens newInThis :=
  parses_iff.mpr ⟨rfl, ⟨trivial, by decide⟩, by decide⟩

lemma parses_assignedMember : Parses assignedMember.slot.bound
    (assignedMember.before ++ ([.atom .ident "r"] ++ assignedMember.behind))
    (assignedMember.fill (.atom .ident "r")) :=
  parses_iff.mpr ⟨rfl, ⟨⟨trivial, by decide⟩, ⟨trivial, by decide⟩, by decide⟩, by decide⟩

/-- A sum is put in parentheses in front of the dot. -/
theorem keepsOperand_assignedMember : assignedMember.KeepsOperand
    (.binary .add (.atom .ident "a") (.atom .ident "b")) :=
  (Context.keepsOperand_iff assignedMember "r" (.binary .add (.atom .ident "a") (.atom .ident "b"))
    rfl parses_assignedMember (parses_iff.mpr ⟨rfl, ⟨⟨trivial, by decide⟩, trivial, by decide⟩,
      by decide⟩)).mpr (by decide)

/-- `x = new C in this.f;` reads `f` of `this`. -/
theorem not_keepsOperand_assignedMember : ¬ ∀ (context : Context) (name : String) (value : Expr),
    context.isRead = true →
    Parses context.slot.bound (context.before ++ ([.atom .ident name] ++ context.behind))
      (context.fill (.atom .ident name)) →
    Parses assignLevel value.tokens value → context.KeepsOperand value := by
  intro hall
  have hkeeps := hall assignedMember "r" newInThis rfl parses_assignedMember parses_newInThis
  obtain ⟨-, -, hsurrounds⟩ := Context.parses_fill_iff.mp parses_assignedMember
  exact absurd ((Context.keepsOperand_iff_level hsurrounds parses_newInThis).mp hkeeps) (by decide)

end WitcherScriptLanguage.Operators
