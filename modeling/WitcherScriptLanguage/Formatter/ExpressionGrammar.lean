import WitcherScriptLanguage.Formatter.Expressions

/-!
# Trees of the grammar

What the parser makes of a text without errors, as far as the formatters of expressions rely on it:
the tokens and the fields of each kind of node, comments between tokens only, and words apart from
the brackets and dots that the formatter writes without a blank.
-/

namespace WitcherScriptLanguage.Formatting

open Library

def startsWithWord (lexeme : List Char) : Bool := lexeme.head?.any isWordChar

def endsWithWord (lexeme : List Char) : Bool := lexeme.getLast?.any isWordChar

structure Leaf.Ok (l : Leaf) : Prop where
  starts : scriptLexis.startsLexeme l.lexeme = true
  ends : ∀ c ∈ l.lexeme.getLast?, isWhitespace c = false
  token : l.isComment = false → isLineComment l.lexeme = false
  comment : l.isComment = true → startsWithWord l.lexeme = false
  blockComment : l.isComment = true → isLineComment l.lexeme = false → endsWithWord l.lexeme = false
  extent : l.stop = l.start + utf8Bytes l.label.text
  start_lt_stop : l.start < l.stop

instance (l : Leaf) : Decidable l.Ok :=
  -- The instance named is about the last character, not about every character there is.
  have : Decidable (∀ c ∈ l.lexeme.getLast?, isWhitespace c = false) := Option.decidableForallMem _
  decidable_of_iff (scriptLexis.startsLexeme l.lexeme = true ∧
      (∀ c ∈ l.lexeme.getLast?, isWhitespace c = false) ∧
      (l.isComment = false → isLineComment l.lexeme = false) ∧
      (l.isComment = true → startsWithWord l.lexeme = false) ∧
      (l.isComment = true → isLineComment l.lexeme = false → endsWithWord l.lexeme = false) ∧
      l.stop = l.start + utf8Bytes l.label.text ∧ l.start < l.stop)
    ⟨fun ⟨a, b, c, d, e, g, i⟩ => ⟨a, b, c, d, e, g, i⟩,
      fun h => ⟨h.starts, h.ends, h.token, h.comment, h.blockComment, h.extent,
        h.start_lt_stop⟩⟩

/-- A line comment is the last on its line. -/
def EndsLine (a b : Leaf) : Prop :=
  isLineComment a.lexeme = true →
    a.label.endRow < b.label.startRow ∧ ∀ row ∈ b.prevEndRow, row ≤ a.label.endRow

instance (a b : Leaf) : Decidable (EndsLine a b) :=
  inferInstanceAs (Decidable (_ → _))

/-- Leaves in the order of a source. -/
structure Source (leaves : List Leaf) : Prop where
  ok : ∀ l ∈ leaves, l.Ok
  ordered : leaves.Pairwise fun a b => a.stop ≤ b.start
  lines : leaves.IsChain EndsLine

instance (leaves : List Leaf) : Decidable (Source leaves) :=
  decidable_of_iff ((∀ l ∈ leaves, l.Ok) ∧ (leaves.Pairwise fun a b => a.stop ≤ b.start) ∧
      leaves.IsChain EndsLine)
    ⟨fun ⟨a, b, c⟩ => ⟨a, b, c⟩, fun h => ⟨h.ok, h.ordered, h.lines⟩⟩

/-- The kinds in front of which no blank may stand, whatever comes before. -/
def startingBare : List Kind :=
  [.comma, .semicolon, .closeParen, .closeBracket, .less, .greater, .funcParams, .openParen,
    .openBracket, .dot, .colon]

/-- The kinds behind which no blank may stand. -/
def endingBare : List Kind :=
  [.openParen, .openBracket, .less, .closeParen, .unaryOpNot, .unaryOpNeg, .unaryOpBitnot,
    .unaryOpPlus, .dot]

def startsBare (kind : Kind) : Bool := kind ∈ startingBare

def endsBare (kind : Kind) : Bool := kind ∈ endingBare

lemma bare_of_gapBetween {f : Formatter} {bk ak parentKind : Kind}
    (h : f.gapBetween bk ak parentKind = false) : endsBare bk = true ∨ startsBare ak = true := by
  by_contra hbare
  rw [not_or] at hbare
  have hbk : ∀ kind ∈ endingBare, bk ≠ kind := by
    rintro kind hkind rfl
    exact hbare.1 (decide_eq_true hkind)
  have hak : ∀ kind ∈ startingBare, ak ≠ kind := by
    rintro kind hkind rfl
    exact hbare.2 (decide_eq_true hkind)
  simp only [endingBare, startingBare, List.forall_mem_cons, List.not_mem_nil, false_implies,
    implies_true, and_true] at hbk hak
  simp only [Formatter.gapBetween, List.mem_cons, List.not_mem_nil, hbk, hak, or_self, and_false,
    false_and, if_false, or_false] at h
  cases h

namespace ExprNode

variable (n : ExprNode)

/-- The children other than comments. -/
def tokens : List ExprNode := n.children.filter fun c => !c.isComment

def isToken (kind : ExprKind) : Bool := n.label.kind = kind && n.children.isEmpty

def hasField (field : FieldName) : Bool := n.label.field = some field

/-- The tokens of a node by its kind. -/
def shape : Bool :=
  match n.label.kind with
  | .plain .binaryOpExpr =>
    match n.tokens with
    | [left, op, right] => left.hasField .left && op.hasField .op && right.hasField .right &&
      match op.label.kind with
      | .chainOp chainOp => (leavesOf none op).map Leaf.lexeme = [chainOp.text]
      | _ => true
    | _ => false
  | .plain .ternaryCondExpr =>
    match n.tokens with
    | [cond, question, conseq, colon, alt] =>
      cond.hasField .cond && conseq.hasField .conseq && alt.hasField .alt &&
        question.isToken .question && colon.isToken (.plain .colon) &&
        question.label.field.isNone && colon.label.field.isNone &&
        [cond, conseq].all fun c => c.label.kind ≠ .question && c.label.kind ≠ .plain .colon
    | _ => false
  | .plain .funcCallExpr =>
    match n.tokens with
    | func :: opening :: rest =>
      func.hasField .func && func.label.kind ≠ .plain .openParen &&
        func.label.kind ≠ .plain .closeParen && opening.isToken (.plain .openParen) &&
        opening.label.field.isNone &&
        match rest with
        | [closing] => closing.isToken (.plain .closeParen) && closing.label.field.isNone
        | [args, closing] => args.hasField .args && args.label.kind = .plain .funcCallArgs &&
          !args.children.isEmpty && closing.isToken (.plain .closeParen) &&
          closing.label.field.isNone
        | _ => false
    | _ => false
  | .memberAccessExpr =>
    match n.tokens with
    | [receiver, dot, member] => receiver.label.named && receiver.label.kind ≠ .plain .dot &&
      receiver.label.field.isNone && dot.isToken (.plain .dot) && dot.label.field.isNone &&
      member.hasField .member && member.children.isEmpty
    | _ => false
  | .plain .funcCallArgs =>
    -- No argument follows another one without a comma.
    decide (n.tokens.IsChain fun a b =>
      a.label.kind = .plain .comma ∨ b.label.kind = .plain .comma) &&
      n.tokens.all fun c => c.label.kind ≠ .plain .comma ||
        (c.children.isEmpty && c.label.text = [','])
  | .plain .exprStmt =>
    match n.children with
    | [value, semicolon] => value.label.named && value.label.kind ≠ .plain .semicolon &&
      isToken semicolon (.plain .semicolon) && semicolon.label.text = [';']
    | _ => false
  | _ => true

structure Ok (n : ExprNode) : Prop where
  present : n.label.missing = false
  error : n.label.kind ≠ .plain .error
  annotation : n.label.kind ≠ .plain Kind.annotation
  comment : n.isComment = true → n.children = [] ∧ n.label.field = none
  first : ∀ c ∈ n.children.head?, isComment c = false ∧ c.start = n.start
  last : ∀ c ∈ n.children.getLast?, isComment c = false ∧ c.stop = n.stop
  below : ∀ c ∈ n.children, isDeclOrStmt c.label.kind = false
  /-- In front of a comma for a left-out argument, a comment would be written behind it. -/
  commaFirst : n.children.IsChain fun a b => isComment a = true →
    b.label.kind = .plain .funcCallArgs → ∀ c ∈ b.children.head?, c.label.kind ≠ .plain .comma
  startsBare : startsBare n.label.kind.toKind = true →
    ∀ l ∈ (leavesOf none n).head?, startsWithWord l.lexeme = false
  endsBare : endsBare n.label.kind.toKind = true →
    ∀ l ∈ (leavesOf none n).getLast?, endsWithWord l.lexeme = false
  shape : n.shape = true

instance (n : ExprNode) : Decidable n.Ok :=
  decidable_of_iff (n.label.missing = false ∧ n.label.kind ≠ .plain .error ∧
      n.label.kind ≠ .plain Kind.annotation ∧
      (n.isComment = true → n.children = [] ∧ n.label.field = none) ∧
      (∀ c ∈ n.children.head?, isComment c = false ∧ c.start = n.start) ∧
      (∀ c ∈ n.children.getLast?, isComment c = false ∧ c.stop = n.stop) ∧
      (∀ c ∈ n.children, isDeclOrStmt c.label.kind = false) ∧
      (n.children.IsChain fun a b => isComment a = true → b.label.kind = .plain .funcCallArgs →
        ∀ c ∈ b.children.head?, c.label.kind ≠ .plain .comma) ∧
      (Formatting.startsBare n.label.kind.toKind = true →
        ∀ l ∈ (leavesOf none n).head?, startsWithWord l.lexeme = false) ∧
      (Formatting.endsBare n.label.kind.toKind = true →
        ∀ l ∈ (leavesOf none n).getLast?, endsWithWord l.lexeme = false) ∧ n.shape = true)
    ⟨fun ⟨a, b, c, d, e, g, h, i, j, k, l⟩ => ⟨a, b, c, d, e, g, h, i, j, k, l⟩,
      fun h => ⟨h.present, h.error, h.annotation, h.comment, h.first, h.last, h.below, h.commaFirst,
        h.startsBare, h.endsBare, h.shape⟩⟩

/-- Every node is one of the grammar. -/
def Grammatical : Prop := ∀ p m, n.get? p = some m → Ok m

instance : Decidable n.Grammatical := decidable_of_iff _ (RangedTree.forall_get?_iff n).symm

variable {n}

lemma Grammatical.ok (h : Grammatical n) : n.Ok := h [] n rfl

lemma Grammatical.child (h : Grammatical n) {c : ExprNode} (hc : c ∈ n.children) :
    Grammatical c := by
  obtain ⟨i, hi, hget⟩ := List.mem_iff_getElem.mp hc
  intro p m hm
  apply h (i :: p) m
  rw [RangedTree.get?, List.getElem?_eq_getElem hi, hget]
  exact hm

end ExprNode

lemma leavesOf_of_children {n : ExprNode} (h : n.children ≠ []) (prevEndRow : Option Nat) :
    leavesOf prevEndRow n = leavesAmong none n.children := by
  obtain ⟨label, start, stop, children⟩ := n
  have hchildren : children ≠ [] := h
  rw [leavesOf, if_neg (by simpa using hchildren)]
  rfl

lemma leavesOf_of_leaf {n : ExprNode} (h : n.children = []) (prevEndRow : Option Nat) :
    leavesOf prevEndRow n = [⟨n.label, n.start, n.stop, prevEndRow⟩] := by
  obtain ⟨label, start, stop, children⟩ := n
  obtain rfl : children = [] := h
  exact leavesOf.eq_1 ..

lemma leavesOf_ne_nil : ∀ (n : ExprNode) (prevEndRow : Option Nat), leavesOf prevEndRow n ≠ []
  | .node label start stop [], prevEndRow => by
    rw [leavesOf_of_leaf rfl]
    exact List.cons_ne_nil _ _
  | .node label start stop (c :: cs), prevEndRow => by
    rw [leavesOf_of_children (n := .node label start stop (c :: cs)) (List.cons_ne_nil c cs)]
    exact List.append_ne_nil_of_left_ne_nil (leavesOf_ne_nil c none) _

/-- A node starts with a token, at its own start. -/
lemma head?_leavesOf : ∀ (n : ExprNode) (prevEndRow : Option Nat), n.Grammatical →
    ∀ l ∈ (leavesOf prevEndRow n).head?, l.start = n.start ∧ l.isComment = n.isComment
  | .node label start stop [], prevEndRow, h => by
    rw [leavesOf_of_leaf rfl]
    rintro l ⟨⟩
    exact ⟨rfl, rfl⟩
  | .node label start stop (c :: cs), prevEndRow, h => by
    have hfirst := h.ok.first c rfl
    have hcomment : ExprNode.isComment (.node label start stop (c :: cs)) = false := by
      by_contra hcomment
      exact absurd (h.ok.comment (by simpa using hcomment)).1 (List.cons_ne_nil c cs)
    rw [leavesOf_of_children (n := .node label start stop (c :: cs)) (List.cons_ne_nil c cs),
      hcomment, ← hfirst.1,
      show RangedTree.start (.node label start stop (c :: cs)) = c.start from hfirst.2.symm]
    intro l hl
    apply head?_leavesOf c none (h.child List.mem_cons_self)
    rwa [RangedTree.children, leavesAmong, List.head?_append_of_ne_nil _ (leavesOf_ne_nil c none)]
      at hl

lemma getLast?_leavesAmong (prevEndRow : Option Nat) {cs : List ExprNode} {c : ExprNode}
    (hc : cs.getLast? = some c) :
    ∃ r, (leavesAmong prevEndRow cs).getLast? = (leavesOf r c).getLast? := by
  induction cs generalizing prevEndRow with
  | nil => cases hc
  | cons d cs ih =>
    rw [leavesAmong]
    cases cs with
    | nil =>
      rw [List.getLast?_singleton, Option.some.injEq] at hc
      exact ⟨prevEndRow, by rw [leavesAmong, List.append_nil, hc]⟩
    | cons e cs =>
      rw [List.getLast?_cons_cons] at hc
      obtain ⟨r, hr⟩ := ih (some d.label.endRow) hc
      refine ⟨r, ?_⟩
      rw [List.getLast?_append_of_ne_nil _ ?_, hr]
      rw [leavesAmong]
      exact List.append_ne_nil_of_left_ne_nil (leavesOf_ne_nil e _) _

/-- A node ends with a token, at its own end. -/
lemma getLast?_leavesOf : ∀ (n : ExprNode) (prevEndRow : Option Nat), n.Grammatical →
    ∀ l ∈ (leavesOf prevEndRow n).getLast?, l.stop = n.stop ∧ l.isComment = n.isComment
  | .node label start stop children, prevEndRow, h => by
    rcases hlast : children.getLast? with _ | c
    · obtain rfl := List.getLast?_eq_none_iff.mp hlast
      rw [leavesOf_of_leaf rfl]
      rintro l ⟨⟩
      exact ⟨rfl, rfl⟩
    · have hmem : c ∈ children := List.mem_of_getLast? hlast
      have hne : children ≠ [] := List.ne_nil_of_mem hmem
      have hend := h.ok.last c hlast
      have hcomment : ExprNode.isComment (.node label start stop children) = false := by
        by_contra hcomment
        exact absurd (h.ok.comment (by simpa using hcomment)).1 hne
      obtain ⟨r, hr⟩ := getLast?_leavesAmong none hlast
      rw [leavesOf_of_children (n := .node label start stop children) hne, hcomment, ← hend.1,
        show RangedTree.stop (.node label start stop children) = c.stop from hend.2.symm,
        RangedTree.children, hr]
      exact getLast?_leavesOf c r (h.child hmem)

lemma startsWithWord_leavesOf {n : ExprNode} (h : n.Grammatical)
    (hkind : startsBare n.label.kind.toKind = true) (prevEndRow : Option Nat) :
    ∀ l ∈ (leavesOf prevEndRow n).head?, startsWithWord l.lexeme = false := by
  by_cases hchildren : n.children = []
  · have hbare := h.ok.startsBare hkind ⟨n.label, n.start, n.stop, none⟩
      (by rw [leavesOf_of_leaf hchildren]; rfl)
    rw [leavesOf_of_leaf hchildren]
    rintro l ⟨⟩
    exact hbare
  · have hbare := h.ok.startsBare hkind
    rwa [leavesOf_of_children hchildren] at hbare ⊢

lemma endsWithWord_leavesOf {n : ExprNode} (h : n.Grammatical)
    (hkind : endsBare n.label.kind.toKind = true) (prevEndRow : Option Nat) :
    ∀ l ∈ (leavesOf prevEndRow n).getLast?, endsWithWord l.lexeme = false := by
  by_cases hchildren : n.children = []
  · have hbare := h.ok.endsBare hkind ⟨n.label, n.start, n.stop, none⟩
      (by rw [leavesOf_of_leaf hchildren]; rfl)
    rw [leavesOf_of_leaf hchildren]
    rintro l ⟨⟩
    exact hbare
  · have hbare := h.ok.endsBare hkind
    rwa [leavesOf_of_children hchildren] at hbare ⊢

end WitcherScriptLanguage.Formatting
