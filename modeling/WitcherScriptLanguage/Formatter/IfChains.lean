import WitcherScriptLanguage.Formatter.SourceText

/-!
# Chains of `if` and `else`

A chain with every lexeme, blank and comment of its text (`formatter/statements/if_stmt.rs` walks it
as the nodes of the tree). A text is read as a chain when it spells the lexemes and every `else`
stands at its `if`. Other bodies may take the place of those of a chain where they fit.
-/

namespace WitcherScriptLanguage

open Library

inductive BlockItem
  | stmt (s : StmtText)
  | nop

inductive IfBody
  | block (items : List (Lead × BlockItem)) (close : Lead)
  | nop
  | stmt (s : StmtText)

namespace BlockItem

def chunk : BlockItem → Chunk
  | stmt s => s.chunk
  | nop => .single [';']

def stmt? : BlockItem → Option StmtText
  | stmt s => some s
  | nop => none

end BlockItem

def itemsPlaced (items : List (Lead × BlockItem)) : List (Placed Char) :=
  items.flatMap fun item => item.1.placed item.2.chunk

namespace IfBody

def chunk : IfBody → Chunk
  | block items close => ⟨['{'], itemsPlaced items ++ close.placed (.single ['}'])⟩
  | nop => .single [';']
  | stmt s => s.chunk

def isBlock : IfBody → Bool
  | block _ _ => true
  | _ => false

/-- An `if` in the body could take the `else` behind it. -/
def endsOpen : IfBody → Bool
  | stmt s => s.endsOpen
  | _ => false

def isIf : IfBody → Bool
  | stmt s => s.kind = .ifStmt
  | _ => false

end IfBody

/-- The condition with its brackets, and what stands in front of each of them. -/
structure IfHead where
  openLead : Lead
  condLead : Lead
  cond : Chunk
  closeLead : Lead

def IfHead.placed (head : IfHead) (lead : Lead) : List (Placed Char) :=
  lead.placed (.single ['i', 'f']) ++ head.openLead.placed (.single ['(']) ++
    head.condLead.placed head.cond ++ head.closeLead.placed (.single [')'])

/-- An `if` with what follows its `else`, if there is one: a body or another `if`. -/
inductive Chain
  | ifThen (head : IfHead) (lead : Lead) (body : IfBody)
  | ifElse (head : IfHead) (lead : Lead) (body : IfBody) (elseLead lastLead : Lead) (last : IfBody)
  | ifElseIf (head : IfHead) (lead : Lead) (body : IfBody) (elseLead ifLead : Lead) (rest : Chain)

def elsePlaced (lead : Lead) : List (Placed Char) := lead.placed (.single ['e', 'l', 's', 'e'])

namespace Chain

def placed (lead : Lead) : Chain → List (Placed Char)
  | ifThen head bodyLead body => head.placed lead ++ bodyLead.placed body.chunk
  | ifElse head bodyLead body elseLead lastLead last =>
    head.placed lead ++ bodyLead.placed body.chunk ++ elsePlaced elseLead ++
      lastLead.placed last.chunk
  | ifElseIf head bodyLead body elseLead ifLead rest =>
    head.placed lead ++ bodyLead.placed body.chunk ++ elsePlaced elseLead ++ rest.placed ifLead

/-- Nothing stands in front of the chain itself. -/
def layout (chain : Chain) : List (Placed Char) := chain.placed (.blanks [])

def text (chain : Chain) : List Char := textOf chain.layout

def bodies : Chain → List IfBody
  | ifThen _ _ body => [body]
  | ifElse _ _ body _ _ last => [body, last]
  | ifElseIf _ _ body _ _ rest => body :: rest.bodies

/-- Every `else` belongs to the `if` that it stands at, and what follows it is no further link. -/
def Binds : Chain → Prop
  | ifThen _ _ _ => True
  | ifElse _ _ body _ _ last => body.endsOpen = false ∧ last.isIf = false
  | ifElseIf _ _ body _ _ rest => body.endsOpen = false ∧ rest.Binds

/-- The text of the chain is read as the chain. -/
structure Parses (chain : Chain) : Prop where
  spells : scriptLexis.Spells chain.layout
  binds : chain.Binds

end Chain

/-- A chain without its blanks, and without the braces around its bodies. -/
inductive BareChain
  | ifThen (head body : List (List Char))
  | ifElse (head body last : List (List Char))
  | ifElseIf (head body : List (List Char)) (rest : BareChain)

/-- From front to back. -/
def BareChain.lexemes : BareChain → List (List Char)
  | ifThen head body => head ++ body
  | ifElse head body last => head ++ body ++ last
  | ifElseIf head body rest => head ++ body ++ rest.lexemes

def Chain.bare (lead : Lead) : Chain → BareChain
  | ifThen head bodyLead body =>
    .ifThen (scriptLexis.unmarked (head.placed lead))
      (scriptLexis.unmarked (bodyLead.placed body.chunk))
  | ifElse head bodyLead body elseLead lastLead last =>
    .ifElse (scriptLexis.unmarked (head.placed lead))
      (scriptLexis.unmarked (bodyLead.placed body.chunk ++ elsePlaced elseLead))
      (scriptLexis.unmarked (lastLead.placed last.chunk))
  | ifElseIf head bodyLead body elseLead ifLead rest =>
    .ifElseIf (scriptLexis.unmarked (head.placed lead))
      (scriptLexis.unmarked (bodyLead.placed body.chunk ++ elsePlaced elseLead))
      (rest.bare ifLead)

lemma Chain.lexemes_bare (lead : Lead) (chain : Chain) :
    (chain.bare lead).lexemes = scriptLexis.unmarked (chain.placed lead) := by
  induction chain generalizing lead with
  | ifThen head bodyLead body => simp [bare, BareChain.lexemes, placed, Lexis.unmarked_append]
  | ifElse head bodyLead body elseLead lastLead last =>
    simp [bare, BareChain.lexemes, placed, Lexis.unmarked_append]
  | ifElseIf head bodyLead body elseLead ifLead rest ih =>
    simp [bare, BareChain.lexemes, placed, Lexis.unmarked_append, ih]

/-- The lexemes of each statement in a body. -/
def IfBody.statements : IfBody → List (List (List Char))
  | block items _ => items.map fun item => lexemesOf (item.2.chunk.placed [])
  | nop => [[[';']]]
  | stmt s => [lexemesOf (s.chunk.placed [])]

/-- The text is read as the chain, up to blanks and the braces of the bodies. -/
structure Chain.Reads (chain : Chain) (text : List Char) (chain' : Chain) : Prop where
  text_eq : chain'.text = text
  parses : chain'.Parses
  bare : chain'.bare (.blanks []) = chain.bare (.blanks [])
  statements : chain'.bodies.map IfBody.statements = chain.bodies.map IfBody.statements

def Chain.Preserves (chain : Chain) (text : List Char) : Prop := ∃ chain', chain.Reads text chain'

/-- `P` of the bodies behind a condition, and `Q` of one behind an `else`. -/
def Chain.All (P Q : Lead → IfBody → Prop) : Chain → Prop
  | ifThen _ lead body => P lead body
  | ifElse _ lead body _ lastLead last => P lead body ∧ Q lastLead last
  | ifElseIf _ lead body _ _ rest => P lead body ∧ rest.All P Q

namespace Chain

variable {P Q P' Q' : Lead → IfBody → Prop} {chain : Chain}

lemma All.mono (h : chain.All P Q) (hP : ∀ lead body, P lead body → P' lead body)
    (hQ : ∀ lead body, Q lead body → Q' lead body) : chain.All P' Q' := by
  induction chain with
  | ifThen head lead body => exact hP lead body h
  | ifElse head lead body elseLead lastLead last => exact ⟨hP lead body h.1, hQ lastLead last h.2⟩
  | ifElseIf head lead body elseLead ifLead rest ih => exact ⟨hP lead body h.1, ih h.2⟩

lemma All.and (h : chain.All P Q) (h' : chain.All P' Q') :
    chain.All (fun lead body => P lead body ∧ P' lead body)
      (fun lead body => Q lead body ∧ Q' lead body) := by
  induction chain with
  | ifThen head lead body => exact ⟨h, h'⟩
  | ifElse head lead body elseLead lastLead last => exact ⟨⟨h.1, h'.1⟩, h.2, h'.2⟩
  | ifElseIf head lead body elseLead ifLead rest ih => exact ⟨⟨h.1, h'.1⟩, ih h.2 h'.2⟩

lemma all_of_bodies {R : IfBody → Prop} (h : ∀ body ∈ chain.bodies, R body) :
    chain.All (fun _ body => R body) (fun _ body => R body) := by
  induction chain with
  | ifThen head lead body => exact h body List.mem_cons_self
  | ifElse head lead body elseLead lastLead last =>
    exact ⟨h body List.mem_cons_self, h last (List.mem_cons_of_mem body List.mem_cons_self)⟩
  | ifElseIf head lead body elseLead ifLead rest ih =>
    exact ⟨h body List.mem_cons_self, ih fun b hb => h b (List.mem_cons_of_mem body hb)⟩

lemma All.bodies {R : IfBody → Prop} (h : chain.All (fun _ body => R body) (fun _ body => R body)) :
    ∀ body ∈ chain.bodies, R body := by
  induction chain with
  | ifThen head lead body =>
    intro b hb
    rwa [List.mem_singleton.mp hb]
  | ifElse head lead body elseLead lastLead last =>
    intro b hb
    rcases List.mem_cons.mp hb with rfl | hb
    · exact h.1
    · rw [List.mem_singleton.mp hb]
      exact h.2
  | ifElseIf head lead body elseLead ifLead rest ih =>
    intro b hb
    rcases List.mem_cons.mp hb with rfl | hb
    · exact h.1
    · exact ih h.2 b hb

lemma all_of_placed {R : Placed Char → Prop} {lead : Lead} (h : ∀ p ∈ chain.placed lead, R p) :
    chain.All (fun lead body => ∀ p ∈ lead.placed body.chunk, R p)
      (fun lead body => ∀ p ∈ lead.placed body.chunk, R p) := by
  induction chain generalizing lead with
  | ifThen head bodyLead body => exact fun p hp => h p (by simp [placed, hp])
  | ifElse head bodyLead body elseLead lastLead last =>
    exact ⟨fun p hp => h p (by simp [placed, hp]), fun p hp => h p (by simp [placed, hp])⟩
  | ifElseIf head bodyLead body elseLead ifLead rest ih =>
    exact ⟨fun p hp => h p (by simp [placed, hp]),
      @ih ifLead fun p hp => h p (by simp [placed, hp])⟩

end Chain

def Chain.mapBodies (f : IfBody → IfBody) : Chain → Chain
  | ifThen head lead body => .ifThen head lead (f body)
  | ifElse head lead body elseLead lastLead last =>
    .ifElse head lead (f body) elseLead lastLead (f last)
  | ifElseIf head lead body elseLead ifLead rest =>
    .ifElseIf head lead (f body) elseLead ifLead (rest.mapBodies f)

/-- A chunk may stand in the place of another one behind a lexeme. -/
def Refits (prev : List Char) (lead : Lead) (c c' : Chunk) : Prop :=
  ∀ front back : List (Placed Char), front.getLast?.map Placed.lexeme = some prev →
    scriptLexis.Spells (front ++ (lead.placed c ++ back)) →
    scriptLexis.Spells (front ++ (lead.placed c' ++ back))

lemma IfHead.getLast?_append_placed (front : List (Placed Char)) (head : IfHead) (lead : Lead) :
    (front ++ head.placed lead).getLast?.map Placed.lexeme = some [')'] := by
  rw [placed, ← List.append_assoc, List.getLast?_append_of_ne_nil _ (Lead.placed_ne_nil _ _),
    Lead.getLast?_placed]
  rfl

lemma getLast?_append_elsePlaced (front : List (Placed Char)) (lead : Lead) :
    (front ++ elsePlaced lead).getLast?.map Placed.lexeme = some ['e', 'l', 's', 'e'] := by
  rw [elsePlaced, List.getLast?_append_of_ne_nil _ (Lead.placed_ne_nil _ _), Lead.getLast?_placed]
  rfl

namespace Chain

variable {f : IfBody → IfBody} {chain : Chain}

lemma spells_mapBodies (h : chain.All (fun lead body => Refits [')'] lead body.chunk (f body).chunk)
      (fun lead body => Refits ['e', 'l', 's', 'e'] lead body.chunk (f body).chunk))
    (front : List (Placed Char)) (lead : Lead)
    (hspells : scriptLexis.Spells (front ++ chain.placed lead)) :
    scriptLexis.Spells (front ++ (chain.mapBodies f).placed lead) := by
  induction chain generalizing front lead with
  | ifThen head bodyLead body =>
    have hbody := h (front ++ head.placed lead) [] (head.getLast?_append_placed front lead)
    simp only [placed, List.append_assoc, List.append_nil] at hbody hspells
    simp only [mapBodies, placed]
    exact hbody hspells
  | ifElse head bodyLead body elseLead lastLead last =>
    have hbody := h.1 (front ++ head.placed lead) (elsePlaced elseLead ++ lastLead.placed last.chunk)
      (head.getLast?_append_placed front lead)
    have hlast := h.2 (front ++ head.placed lead ++ bodyLead.placed (f body).chunk ++
      elsePlaced elseLead) [] (getLast?_append_elsePlaced _ elseLead)
    simp only [placed, List.append_assoc, List.append_nil] at hbody hlast hspells
    simp only [mapBodies, placed, List.append_assoc]
    exact hlast (hbody hspells)
  | ifElseIf head bodyLead body elseLead ifLead rest ih =>
    have hbody := h.1 (front ++ head.placed lead) (elsePlaced elseLead ++ rest.placed ifLead)
      (head.getLast?_append_placed front lead)
    have hrest := ih h.2 (front ++ head.placed lead ++ bodyLead.placed (f body).chunk ++
      elsePlaced elseLead) ifLead
    simp only [placed, List.append_assoc] at hbody hrest hspells
    simp only [mapBodies, placed, List.append_assoc]
    exact hrest (hbody hspells)

lemma binds_mapBodies (hopen : ∀ body, body.endsOpen = false → (f body).endsOpen = false)
    (hif : ∀ body, body.isIf = false → (f body).isIf = false) (h : chain.Binds) :
    (chain.mapBodies f).Binds := by
  induction chain with
  | ifThen head lead body => trivial
  | ifElse head lead body elseLead lastLead last => exact ⟨hopen body h.1, hif last h.2⟩
  | ifElseIf head lead body elseLead ifLead rest ih => exact ⟨hopen body h.1, ih h.2⟩

lemma bare_mapBodies (h : chain.All
      (fun lead body => scriptLexis.unmarked (lead.placed (f body).chunk) =
        scriptLexis.unmarked (lead.placed body.chunk))
      (fun lead body => scriptLexis.unmarked (lead.placed (f body).chunk) =
        scriptLexis.unmarked (lead.placed body.chunk)))
    (lead : Lead) : (chain.mapBodies f).bare lead = chain.bare lead := by
  induction chain generalizing lead with
  | ifThen head bodyLead body =>
    have hbody : _ = _ := h
    simp only [mapBodies, bare, hbody]
  | ifElse head bodyLead body elseLead lastLead last =>
    simp only [mapBodies, bare, Lexis.unmarked_append, h.1, h.2]
  | ifElseIf head bodyLead body elseLead ifLead rest ih =>
    simp only [mapBodies, bare, Lexis.unmarked_append, h.1, ih h.2]

lemma forall_mapBodies {R : Placed Char → Prop} (h : ∀ body ∈ chain.bodies, ∀ lead : Lead,
      (∀ p ∈ lead.placed body.chunk, R p) → ∀ p ∈ lead.placed (f body).chunk, R p)
    (lead : Lead) (hplaced : ∀ p ∈ chain.placed lead, R p) :
    ∀ p ∈ (chain.mapBodies f).placed lead, R p := by
  induction chain generalizing lead with
  | ifThen head bodyLead body =>
    have hbody := h body List.mem_cons_self bodyLead
    simp only [mapBodies, placed, List.forall_mem_append] at hplaced ⊢
    exact ⟨hplaced.1, hbody hplaced.2⟩
  | ifElse head bodyLead body elseLead lastLead last =>
    have hbody := h body List.mem_cons_self bodyLead
    have hlast := h last (List.mem_cons_of_mem body List.mem_cons_self) lastLead
    simp only [mapBodies, placed, List.forall_mem_append] at hplaced ⊢
    obtain ⟨⟨⟨hhead, hplaced⟩, helse⟩, hplacedLast⟩ := hplaced
    exact ⟨⟨⟨hhead, hbody hplaced⟩, helse⟩, hlast hplacedLast⟩
  | ifElseIf head bodyLead body elseLead ifLead rest ih =>
    have hbody := h body List.mem_cons_self bodyLead
    have hrest := ih (fun b hb => h b (List.mem_cons_of_mem body hb)) ifLead
    simp only [mapBodies, placed, List.forall_mem_append] at hplaced ⊢
    obtain ⟨⟨⟨hhead, hplaced⟩, helse⟩, hplacedRest⟩ := hplaced
    exact ⟨⟨⟨hhead, hbody hplaced⟩, helse⟩, hrest hplacedRest⟩

lemma all_mapBodies {P Q : Lead → IfBody → Prop} (h : (chain.mapBodies f).All P Q) :
    chain.All (fun lead body => P lead (f body)) (fun lead body => Q lead (f body)) := by
  induction chain with
  | ifThen head lead body => exact h
  | ifElse head lead body elseLead lastLead last => exact h
  | ifElseIf head lead body elseLead ifLead rest ih => exact ⟨h.1, ih h.2⟩

/-- Every `else` is kept apart from the body behind it. -/
lemma all_of_spells (front : List (Placed Char)) (lead : Lead)
    (h : scriptLexis.Spells (front ++ chain.placed lead)) :
    chain.All (fun _ _ => True) fun lead body =>
      ∀ q ∈ (lead.placed body.chunk).head?, KeepsApart ['e', 'l', 's', 'e'] q.gap q.lexeme := by
  induction chain generalizing front lead with
  | ifThen head bodyLead body => trivial
  | ifElse head bodyLead body elseLead lastLead last =>
    refine ⟨trivial, fun q hq => ?_⟩
    have hsplit : front ++ (ifElse head bodyLead body elseLead lastLead last).placed lead =
        (front ++ head.placed lead ++ bodyLead.placed body.chunk ++ elsePlaced elseLead) ++
          lastLead.placed last.chunk := by
      simp only [placed, List.append_assoc]
    rw [hsplit] at h
    obtain ⟨-, -, hseam⟩ := Lexis.spells_append.mp h
    obtain ⟨p, hp, hlexeme⟩ := Option.map_eq_some_iff.mp
      (getLast?_append_elsePlaced (front ++ head.placed lead ++ bodyLead.placed body.chunk) elseLead)
    have hapart := hseam p hp q hq
    rw [Lexis.KeepsApart, hlexeme] at hapart
    exact hapart
  | ifElseIf head bodyLead body elseLead ifLead rest ih =>
    refine ⟨trivial, ih (front ++ head.placed lead ++ bodyLead.placed body.chunk ++
      elsePlaced elseLead) ifLead ?_⟩
    simp only [placed, List.append_assoc] at h ⊢
    exact h

lemma bodies_mapBodies (f : IfBody → IfBody) (chain : Chain) :
    (chain.mapBodies f).bodies = chain.bodies.map f := by
  induction chain with
  | ifThen head lead body => rfl
  | ifElse head lead body elseLead lastLead last => rfl
  | ifElseIf head lead body elseLead ifLead rest ih => exact congrArg (f body :: ·) ih

lemma countP_mapBodies {k : Char → Bool} {n : IfBody → Nat} (lead : Lead)
    (h : ∀ body ∈ chain.bodies,
      body.chunk.text.countP k = (f body).chunk.text.countP k + n body) :
    (textOf (chain.placed lead)).countP k =
      (textOf ((chain.mapBodies f).placed lead)).countP k + (chain.bodies.map n).sum := by
  induction chain generalizing lead with
  | ifThen head bodyLead body =>
    have hbody := h body List.mem_cons_self
    simp [placed, mapBodies, bodies, Lead.textOf_placed, hbody]
    omega
  | ifElse head bodyLead body elseLead lastLead last =>
    have hbody := h body List.mem_cons_self
    have hlast := h last (List.mem_cons_of_mem body List.mem_cons_self)
    simp [placed, mapBodies, bodies, Lead.textOf_placed, hbody, hlast]
    omega
  | ifElseIf head bodyLead body elseLead ifLead rest ih =>
    have hbody := h body List.mem_cons_self
    have hrest := ih ifLead fun b hb => h b (List.mem_cons_of_mem body hb)
    simp [placed, mapBodies, bodies, Lead.textOf_placed, hbody, hrest]
    omega

end Chain

end WitcherScriptLanguage
