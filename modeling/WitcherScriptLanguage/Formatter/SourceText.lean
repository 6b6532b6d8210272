import WitcherScriptLanguage.Library.Layouts
import WitcherScriptLanguage.Library.Substitutions
import WitcherScriptLanguage.Refactor.EditPlan

/-!
# Source text for the layout actions

Statements as the layout actions see them (`formatter/action.rs`): runs of lexemes with blanks and
comments in front of them. The actions copy them as they are.
-/

namespace WitcherScriptLanguage

open Library

def isWordChar (c : Char) : Bool := c.isAlphanum || c == '_'

def isLineComment (lexeme : List Char) : Bool := ['/', '/'].isPrefixOf lexeme

def isComment (lexeme : List Char) : Bool := isLineComment lexeme || ['/', '*'].isPrefixOf lexeme

/-- Words need a blank between them, and a line comment a line end behind it. -/
structure KeepsApart (lexeme gap next : List Char) : Prop where
  words : gap = [] → lexeme.getLast?.any isWordChar = true → next.head?.any isWordChar = false
  line : isLineComment lexeme = true → '\n' ∈ gap

def scriptLexis : Lexis Char where
  blank := isWhitespace
  marker c := c == '{' || c == '}'
  apart := KeepsApart

instance (lexeme gap next : List Char) : Decidable (KeepsApart lexeme gap next) :=
  decidable_of_iff ((gap = [] → lexeme.getLast?.any isWordChar = true →
      next.head?.any isWordChar = false) ∧ (isLineComment lexeme = true → '\n' ∈ gap))
    ⟨fun h => ⟨h.1, h.2⟩, fun h => ⟨h.words, h.line⟩⟩

instance (p q : Placed Char) : Decidable (scriptLexis.KeepsApart p q) :=
  inferInstanceAs (Decidable (KeepsApart p.lexeme q.gap q.lexeme))

instance (layout : List (Placed Char)) : Decidable (scriptLexis.Spells layout) :=
  decidable_of_iff ((∀ p ∈ layout, scriptLexis.Ok p) ∧ layout.IsChain scriptLexis.KeepsApart)
    ⟨fun h => ⟨h.1, h.2⟩, fun h => ⟨h.ok, h.apart⟩⟩

/-- A lexeme that neither a word nor a line comment ends with. -/
def isPunctuation (lexeme : List Char) : Bool :=
  !lexeme.getLast?.any isWordChar && !isLineComment lexeme

lemma keepsApart_of_punctuation {lexeme : List Char} (h : isPunctuation lexeme = true)
    (gap next : List Char) : KeepsApart lexeme gap next := by
  rw [isPunctuation, Bool.and_eq_true, Bool.not_eq_true', Bool.not_eq_true'] at h
  refine ⟨fun _ hword => ?_, fun hline => ?_⟩
  · rw [h.1] at hword
    cases hword
  · rw [h.2] at hline
    cases hline

lemma keepsApart_of_newline {gap : List Char} (h : '\n' ∈ gap) (lexeme next : List Char) :
    KeepsApart lexeme gap next :=
  ⟨fun hgap => absurd h (by rw [hgap]; exact List.not_mem_nil), fun _ => h⟩

/-- What comes next may as well start with something else than a word. -/
lemma KeepsApart.of_next {lexeme gap next next' : List Char} (h : KeepsApart lexeme gap next)
    (hnext : next'.head?.any isWordChar = false) : KeepsApart lexeme gap next' :=
  ⟨fun _ _ => hnext, h.line⟩

lemma countP_solid_eq_zero {gap : List Char} (h : ∀ a ∈ gap, isWhitespace a = true) :
    gap.countP scriptLexis.solid = 0 := by
  rw [List.countP_eq_zero]
  intro a ha
  have hblank : scriptLexis.blank a = true := h a ha
  rw [Lexis.solid, hblank]
  exact Bool.false_ne_true

lemma countP_solid_pos_of_isComment {lexeme : List Char} (h : isComment lexeme = true) :
    0 < lexeme.countP scriptLexis.solid := by
  have hslash : '/' ∈ lexeme := by
    rcases Bool.or_eq_true_iff.mp h with hline | hblock
    · exact (List.isPrefixOf_iff_prefix.mp hline).subset List.mem_cons_self
    · exact (List.isPrefixOf_iff_prefix.mp hblock).subset List.mem_cons_self
  exact List.countP_pos_iff.mpr ⟨'/', hslash, rfl⟩

/-- A run of lexemes without what stands in front of it. -/
structure Chunk where
  head : List Char
  tail : List (Placed Char)

namespace Chunk

def placed (c : Chunk) (gap : List Char) : List (Placed Char) := ⟨gap, c.head⟩ :: c.tail

def text (c : Chunk) : List Char := c.head ++ textOf c.tail

def last (c : Chunk) : List Char := ((c.tail.getLast?).map Placed.lexeme).getD c.head

/-- The chunk of a keyword or a bracket. -/
def single (lexeme : List Char) : Chunk := ⟨lexeme, []⟩

def singleLine (c : Chunk) : Bool := !c.text.contains '\n'

end Chunk

/-- The comments and the blanks in front of a chunk. -/
structure Lead where
  comments : List (Placed Char)
  gap : List Char
  areComments : ∀ p ∈ comments, isComment p.lexeme = true

namespace Lead

def blanks (gap : List Char) : Lead := ⟨[], gap, fun _ h => absurd h List.not_mem_nil⟩

def placed (lead : Lead) (c : Chunk) : List (Placed Char) := lead.comments ++ c.placed lead.gap

def text (lead : Lead) : List Char := textOf lead.comments ++ lead.gap

end Lead

lemma Lead.textOf_placed (lead : Lead) (c : Chunk) : textOf (lead.placed c) = lead.text ++ c.text := by
  rw [placed, textOf_append, Chunk.placed, textOf_cons, text, Chunk.text, List.append_assoc]

lemma Lead.comments_eq_nil {lead : Lead} (h : ∀ p ∈ lead.comments, isComment p.lexeme = false) :
    lead.comments = [] := by
  rw [List.eq_nil_iff_forall_not_mem]
  intro p hp
  have hcomment := lead.areComments p hp
  rw [h p hp] at hcomment
  cases hcomment

/-- A comment is seen in the text. -/
lemma Lead.comments_eq_nil_of_countP {lead : Lead}
    (h : (textOf lead.comments).countP scriptLexis.solid = 0) : lead.comments = [] := by
  cases hcomments : lead.comments with
  | nil => rfl
  | cons p comments =>
    have hp := lead.areComments p (by rw [hcomments]; exact List.mem_cons_self)
    have hpos := countP_solid_pos_of_isComment hp
    rw [hcomments, textOf_cons, List.countP_append, List.countP_append] at h
    omega

lemma Lead.placed_ne_nil (lead : Lead) (c : Chunk) : lead.placed c ≠ [] := by
  rw [placed, Chunk.placed]
  exact List.append_ne_nil_of_right_ne_nil _ (List.cons_ne_nil _ _)

lemma Lead.getLast?_placed (lead : Lead) (c : Chunk) :
    ((lead.placed c).getLast?).map Placed.lexeme = some c.last := by
  rw [placed, Chunk.placed, List.getLast?_append_of_ne_nil _ (List.cons_ne_nil _ _),
    List.getLast?_cons, Option.map_some, Chunk.last]
  cases c.tail.getLast? with
  | none => rfl
  | some p => rfl

inductive StmtKind
  | localVarDeclStmt | breakStmt | continueStmt | returnStmt | deleteStmt | exprStmt | ifStmt | other
  deriving DecidableEq, Repr

/-- Unwrapping one of these cannot change what an `else` binds to. -/
def StmtKind.isSimple : StmtKind → Bool
  | .localVarDeclStmt | .breakStmt | .continueStmt | .returnStmt | .deleteStmt | .exprStmt => true
  | _ => false

/-- A statement with its kind. -/
structure StmtText where
  kind : StmtKind
  chunk : Chunk
  /-- It ends with an `if` that could take an `else`. -/
  endsOpen : Bool
  simple : kind.isSimple = true → endsOpen = false ∧ chunk.last = [';']

/-- The statement of the call of a function by one letter. -/
def callStmt (name : Char) : StmtText where
  kind := .exprStmt
  chunk := ⟨[name], [⟨[], ['(']⟩, ⟨[], [')']⟩, ⟨[], [';']⟩]⟩
  endsOpen := false
  simple _ := ⟨rfl, rfl⟩

structure FormatOptions where
  useTabs : Bool
  tabSize : Nat
  lineLimit : Nat

/-- The lines of an editor with tabs. -/
def tabOptions : FormatOptions := ⟨true, 4, 100⟩

def indentUnitFor (options : FormatOptions) : List Char :=
  if options.useTabs then ['\t'] else List.replicate options.tabSize ' '

/-- What a layout toggle reads besides the tree. -/
structure LayoutCtx where
  level : Nat
  indentWidth : Nat
  lineLimit : Nat

/-- The level of a node behind the text. -/
def nodeIndentLevel (front : List Char) (options : FormatOptions) : Nat :=
  let column := utf8Bytes (front.rtakeWhile (· != '\n'))
  if options.useTabs then column else column / max options.tabSize 1

def layoutCtx (front : List Char) (options : FormatOptions) : LayoutCtx :=
  ⟨nodeIndentLevel front options, utf8Bytes (indentUnitFor options), options.lineLimit⟩

lemma isWhitespace_of_mem_lineIndent {source : List Char} {byte : Nat} {c : Char}
    (h : c ∈ lineIndent source byte) : isWhitespace c = true :=
  isWhitespace_of_isIndent (List.mem_takeWhile_imp h)

lemma isWhitespace_of_mem_indentUnitFor {options : FormatOptions} {c : Char}
    (h : c ∈ indentUnitFor options) : isWhitespace c = true := by
  unfold indentUnitFor at h
  split_ifs at h
  · rw [List.mem_singleton.mp h]
    rfl
  · rw [List.eq_of_mem_replicate h]
    rfl

end WitcherScriptLanguage
