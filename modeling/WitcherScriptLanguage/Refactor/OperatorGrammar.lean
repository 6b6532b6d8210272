import Mathlib.Data.List.Basic

/-!
# Expressions and the precedence of operators

The operator table of `docs/language-rules.md` as a grammar, one nonterminal for each level. The
parser itself is outside of the repository.
-/

namespace WitcherScriptLanguage.Operators

inductive Sym
  | dot | comma | question | colon | lparen | rparen | lbrack | rbrack
  | bang | tilde | plus | minus | star | slash | percent | lt | le | gt | ge | eqEq | bangEq
  | amp | caret | bar | ampAmp | barBar
  | eq | plusEq | minusEq | starEq | slashEq | ampEq | barEq
  | new | inSym
  deriving DecidableEq, Repr

/-- The expressions of one token. -/
inductive Atom
  | ident | literalInt | literalHex | literalFloat | literalBool | literalString | literalName
  | literalNull | thisExpr | parentExpr | superExpr | virtualParentExpr
  deriving DecidableEq, Repr

inductive Token
  | sym (s : Sym)
  | atom (a : Atom) (text : String)
  /-- The name of a member behind a dot. -/
  | member (name : String)
  /-- The name of a type in a cast or behind `new`. -/
  | typeName (name : String)
  deriving DecidableEq, Repr

inductive UnaryOp
  | neg | not | bitNot | plus
  deriving DecidableEq, Repr

def UnaryOp.sym : UnaryOp → Sym
  | neg => .minus
  | not => .bang
  | bitNot => .tilde
  | plus => .plus

inductive BinaryOp
  | mul | div | mod | add | sub | lt | le | gt | ge | eq | ne | bitAnd | bitXor | bitOr | and | or
  deriving DecidableEq, Repr

def BinaryOp.sym : BinaryOp → Sym
  | mul => .star
  | div => .slash
  | mod => .percent
  | add => .plus
  | sub => .minus
  | lt => .lt
  | le => .le
  | gt => .gt
  | ge => .ge
  | eq => .eqEq
  | ne => .bangEq
  | bitAnd => .amp
  | bitXor => .caret
  | bitOr => .bar
  | and => .ampAmp
  | or => .barBar

/-- The place in the table, which starts with the tightest operators. -/
def BinaryOp.level : BinaryOp → Nat
  | mul | div | mod => 3
  | add | sub => 4
  | lt | le | gt | ge => 5
  | eq | ne => 6
  | bitAnd => 7
  | bitXor => 8
  | bitOr => 9
  | and => 10
  | or => 11

lemma BinaryOp.prefix_lt_level (op : BinaryOp) : 2 < op.level := by cases op <;> decide

inductive AssignOp
  | assign | add | sub | mul | div | bitAnd | bitOr
  deriving DecidableEq, Repr

def AssignOp.sym : AssignOp → Sym
  | assign => .eq
  | add => .plusEq
  | sub => .minusEq
  | mul => .starEq
  | div => .slashEq
  | bitAnd => .ampEq
  | bitOr => .barEq

def postfixLevel : Nat := 1

def prefixLevel : Nat := 2

def ternaryLevel : Nat := 12

def assignLevel : Nat := 13

/-- Expressions with commas between them, as in a call or a clause of a `for`. -/
def commaLevel : Nat := 14

lemma BinaryOp.level_lt_ternary (op : BinaryOp) : op.level < ternaryLevel := by cases op <;> decide

inductive Expr
  | atom (a : Atom) (text : String)
  | nested (e : Expr)
  | member (base : Expr) (name : String)
  | callNone (callee : Expr)
  | call (callee args : Expr)
  | array (base i : Expr)
  | new (cls : String)
  | newIn (cls : String) (lifetime : Expr)
  | unary (op : UnaryOp) (e : Expr)
  | cast (type : String) (e : Expr)
  | binary (op : BinaryOp) (left right : Expr)
  | ternary (cond onTrue onFalse : Expr)
  | assign (op : AssignOp) (left right : Expr)
  | comma (first rest : Expr)
  deriving DecidableEq, Repr

namespace Expr

def tokens : Expr → List Token
  | atom a text => [.atom a text]
  | nested e => .sym .lparen :: (e.tokens ++ [.sym .rparen])
  | member base name => base.tokens ++ [.sym .dot, .member name]
  | callNone callee => callee.tokens ++ [.sym .lparen, .sym .rparen]
  | call callee args => callee.tokens ++ .sym .lparen :: (args.tokens ++ [.sym .rparen])
  | array base i => base.tokens ++ .sym .lbrack :: (i.tokens ++ [.sym .rbrack])
  | new cls => [.sym .new, .typeName cls]
  | newIn cls lifetime => .sym .new :: .typeName cls :: .sym .inSym :: lifetime.tokens
  | unary op e => .sym op.sym :: e.tokens
  | cast type e => .sym .lparen :: .typeName type :: .sym .rparen :: e.tokens
  | binary op left right => left.tokens ++ .sym op.sym :: right.tokens
  | ternary cond onTrue onFalse =>
    cond.tokens ++ .sym .question :: (onTrue.tokens ++ .sym .colon :: onFalse.tokens)
  | assign op left right => left.tokens ++ .sym op.sym :: right.tokens
  | comma first rest => first.tokens ++ .sym .comma :: rest.tokens

def level : Expr → Nat
  | atom _ _ | nested _ | member _ _ | callNone _ | call _ _ | array _ _ => postfixLevel
  | new _ | newIn _ _ | unary _ _ | cast _ _ => prefixLevel
  | binary op _ _ => op.level
  | ternary _ _ _ => ternaryLevel
  | assign _ _ _ => assignLevel
  | comma _ _ => commaLevel

/-- Every operand binds as tightly as its place asks for. -/
def Ok : Expr → Prop
  | atom _ _ => True
  | nested e => e.Ok ∧ e.level ≤ assignLevel
  | member base _ => base.Ok ∧ base.level ≤ postfixLevel
  | callNone callee => callee.Ok ∧ callee.level ≤ postfixLevel
  | call callee args =>
    (callee.Ok ∧ callee.level ≤ postfixLevel) ∧ args.Ok ∧ args.level ≤ commaLevel
  | array base i => (base.Ok ∧ base.level ≤ postfixLevel) ∧ i.Ok ∧ i.level ≤ assignLevel
  | new _ => True
  | newIn _ lifetime => lifetime.Ok ∧ lifetime.level ≤ prefixLevel
  | unary _ e => e.Ok ∧ e.level ≤ prefixLevel
  | cast _ e => e.Ok ∧ e.level ≤ prefixLevel
  | binary op left right =>
    (left.Ok ∧ left.level ≤ op.level) ∧ right.Ok ∧ right.level ≤ op.level - 1
  | ternary cond onTrue onFalse => (cond.Ok ∧ cond.level ≤ ternaryLevel - 1) ∧
    (onTrue.Ok ∧ onTrue.level ≤ assignLevel) ∧ onFalse.Ok ∧ onFalse.level ≤ ternaryLevel
  | assign _ left right =>
    (left.Ok ∧ left.level ≤ assignLevel - 1) ∧ right.Ok ∧ right.level ≤ assignLevel
  | comma first rest =>
    (first.Ok ∧ first.level ≤ assignLevel) ∧ rest.Ok ∧ rest.level ≤ commaLevel

end Expr

/-- The tokens are an expression of the level. Binary operators group to the left, the ternary
operator and assignments to the right. -/
inductive Parses : Nat → List Token → Expr → Prop
  | loosen {k : Nat} {ts : List Token} {e : Expr} : Parses k ts e → Parses (k + 1) ts e
  | atom (a : Atom) (text : String) : Parses postfixLevel [.atom a text] (.atom a text)
  | nested {ts : List Token} {e : Expr} : Parses assignLevel ts e →
      Parses postfixLevel (.sym .lparen :: (ts ++ [.sym .rparen])) (.nested e)
  | member {ts : List Token} {base : Expr} (name : String) : Parses postfixLevel ts base →
      Parses postfixLevel (ts ++ [.sym .dot, .member name]) (.member base name)
  | callNone {ts : List Token} {callee : Expr} : Parses postfixLevel ts callee →
      Parses postfixLevel (ts ++ [.sym .lparen, .sym .rparen]) (.callNone callee)
  | call {ts us : List Token} {callee args : Expr} : Parses postfixLevel ts callee →
      Parses commaLevel us args →
      Parses postfixLevel (ts ++ .sym .lparen :: (us ++ [.sym .rparen])) (.call callee args)
  | array {ts us : List Token} {base i : Expr} : Parses postfixLevel ts base →
      Parses assignLevel us i →
      Parses postfixLevel (ts ++ .sym .lbrack :: (us ++ [.sym .rbrack])) (.array base i)
  | new (cls : String) : Parses prefixLevel [.sym .new, .typeName cls] (.new cls)
  | newIn {ts : List Token} {lifetime : Expr} (cls : String) : Parses prefixLevel ts lifetime →
      Parses prefixLevel (.sym .new :: .typeName cls :: .sym .inSym :: ts) (.newIn cls lifetime)
  | unary {ts : List Token} {e : Expr} (op : UnaryOp) : Parses prefixLevel ts e →
      Parses prefixLevel (.sym op.sym :: ts) (.unary op e)
  | cast {ts : List Token} {e : Expr} (type : String) : Parses prefixLevel ts e →
      Parses prefixLevel (.sym .lparen :: .typeName type :: .sym .rparen :: ts) (.cast type e)
  | binary {ts us : List Token} {left right : Expr} (op : BinaryOp) : Parses op.level ts left →
      Parses (op.level - 1) us right →
      Parses op.level (ts ++ .sym op.sym :: us) (.binary op left right)
  | ternary {ts us vs : List Token} {cond onTrue onFalse : Expr} :
      Parses (ternaryLevel - 1) ts cond → Parses assignLevel us onTrue →
      Parses ternaryLevel vs onFalse →
      Parses ternaryLevel (ts ++ .sym .question :: (us ++ .sym .colon :: vs))
        (.ternary cond onTrue onFalse)
  | assign {ts us : List Token} {left right : Expr} (op : AssignOp) :
      Parses (assignLevel - 1) ts left → Parses assignLevel us right →
      Parses assignLevel (ts ++ .sym op.sym :: us) (.assign op left right)
  | comma {ts us : List Token} {first rest : Expr} : Parses assignLevel ts first →
      Parses commaLevel us rest → Parses commaLevel (ts ++ .sym .comma :: us) (.comma first rest)

lemma Parses.mono {k l : Nat} {ts : List Token} {e : Expr} (h : Parses k ts e) (hle : k ≤ l) :
    Parses l ts e := by
  induction hle with
  | refl => exact h
  | step _ ih => exact ih.loosen

lemma Parses.ok {k : Nat} {ts : List Token} {e : Expr} (h : Parses k ts e) :
    e.tokens = ts ∧ e.Ok ∧ e.level ≤ k := by
  induction h with
  | loosen _ ih => exact ⟨ih.1, ih.2.1, Nat.le_succ_of_le ih.2.2⟩
  | atom a text => exact ⟨rfl, trivial, Nat.le_refl _⟩
  | nested _ ih => exact ⟨by rw [Expr.tokens, ih.1], ih.2, Nat.le_refl _⟩
  | member name _ ih => exact ⟨by rw [Expr.tokens, ih.1], ih.2, Nat.le_refl _⟩
  | callNone _ ih => exact ⟨by rw [Expr.tokens, ih.1], ih.2, Nat.le_refl _⟩
  | call _ _ ih ih' => exact ⟨by rw [Expr.tokens, ih.1, ih'.1], ⟨ih.2, ih'.2⟩, Nat.le_refl _⟩
  | array _ _ ih ih' => exact ⟨by rw [Expr.tokens, ih.1, ih'.1], ⟨ih.2, ih'.2⟩, Nat.le_refl _⟩
  | new cls => exact ⟨rfl, trivial, Nat.le_refl _⟩
  | newIn cls _ ih => exact ⟨by rw [Expr.tokens, ih.1], ih.2, Nat.le_refl _⟩
  | unary op _ ih => exact ⟨by rw [Expr.tokens, ih.1], ih.2, Nat.le_refl _⟩
  | cast type _ ih => exact ⟨by rw [Expr.tokens, ih.1], ih.2, Nat.le_refl _⟩
  | binary op _ _ ih ih' => exact ⟨by rw [Expr.tokens, ih.1, ih'.1], ⟨ih.2, ih'.2⟩, Nat.le_refl _⟩
  | ternary _ _ _ ih ih' ih'' =>
    exact ⟨by rw [Expr.tokens, ih.1, ih'.1, ih''.1], ⟨ih.2, ih'.2, ih''.2⟩, Nat.le_refl _⟩
  | assign op _ _ ih ih' => exact ⟨by rw [Expr.tokens, ih.1, ih'.1], ⟨ih.2, ih'.2⟩, Nat.le_refl _⟩
  | comma _ _ ih ih' => exact ⟨by rw [Expr.tokens, ih.1, ih'.1], ⟨ih.2, ih'.2⟩, Nat.le_refl _⟩

lemma Expr.Ok.parses {e : Expr} (h : e.Ok) {k : Nat} (hk : e.level ≤ k) :
    Parses k e.tokens e := by
  refine Parses.mono ?_ hk
  clear hk
  induction e with
  | atom a text => exact .atom a text
  | nested e ih => exact .nested ((ih h.1).mono h.2)
  | member base name ih => exact .member name ((ih h.1).mono h.2)
  | callNone callee ih => exact .callNone ((ih h.1).mono h.2)
  | call callee args ih ih' => exact .call ((ih h.1.1).mono h.1.2) ((ih' h.2.1).mono h.2.2)
  | array base i ih ih' => exact .array ((ih h.1.1).mono h.1.2) ((ih' h.2.1).mono h.2.2)
  | new cls => exact .new cls
  | newIn cls lifetime ih => exact .newIn cls ((ih h.1).mono h.2)
  | unary op e ih => exact .unary op ((ih h.1).mono h.2)
  | cast type e ih => exact .cast type ((ih h.1).mono h.2)
  | binary op left right ih ih' =>
    exact .binary op ((ih h.1.1).mono h.1.2) ((ih' h.2.1).mono h.2.2)
  | ternary cond onTrue onFalse ih ih' ih'' =>
    exact .ternary ((ih h.1.1).mono h.1.2) ((ih' h.2.1.1).mono h.2.1.2)
      ((ih'' h.2.2.1).mono h.2.2.2)
  | assign op left right ih ih' =>
    exact .assign op ((ih h.1.1).mono h.1.2) ((ih' h.2.1).mono h.2.2)
  | comma first rest ih ih' => exact .comma ((ih h.1.1).mono h.1.2) ((ih' h.2.1).mono h.2.2)

/-- An expression is parsed from its own tokens, and from them only where its operands bind tightly
enough. -/
theorem parses_iff {k : Nat} {ts : List Token} {e : Expr} :
    Parses k ts e ↔ e.tokens = ts ∧ e.Ok ∧ e.level ≤ k :=
  ⟨Parses.ok, fun ⟨htokens, hok, hlevel⟩ => htokens ▸ hok.parses hlevel⟩

end WitcherScriptLanguage.Operators
