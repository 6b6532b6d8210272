import WitcherScriptLanguage.Formatter.IfChains

/-!
# The layout toggle of an `if`

Braces are put around the bodies of a chain of `if` and `else`, or taken away
(`formatter/if_action.rs`, `formatter/statements/if_stmt.rs`). Every other lexeme is copied, so the
chain must read as before: with the same lexemes and with every `else` at its `if`.
-/

namespace WitcherScriptLanguage

open Library

inductive IfLayout
  | collapse | expand
  deriving DecidableEq, Repr

structure IfToggle where
  canCollapse : Bool
  canExpand : Bool
  deriving DecidableEq, Repr

/-- The lone simple statement in a block. -/
def blockSingleStmt : IfBody → Option StmtText
  | .block items _ =>
    match items.filterMap fun item => item.2.stmt? with
    | [s] => if s.kind.isSimple then some s else none
    | _ => none
  | _ => none

def bodyExpandable : IfBody → Bool
  | .stmt _ => true
  | _ => false

def bodyCollapsible : IfBody → Bool
  | .block items close =>
    (blockSingleStmt (.block items close)).any fun s => s.chunk.singleLine
  | .nop => false
  | .stmt s => s.chunk.singleLine

def inlineBodyByteLen (body : IfBody) : Nat :=
  utf8Bytes (((blockSingleStmt body).map fun s => s.chunk.text).getD body.chunk.text)

def ifOpen : Nat := "if (".length

def elseIfOpen : Nat := "else if (".length

def elseOpen : Nat := "else ".length

def condClose : Nat := ") ".length

/-- One link, opened with `prefixLen` characters. -/
def linkFits (ctx : LayoutCtx) (prefixLen : Nat) (head : IfHead) (body : IfBody) : Bool :=
  head.cond.singleLine &&
    ctx.level * ctx.indentWidth + prefixLen + utf8Bytes head.cond.text + condClose +
      inlineBodyByteLen body ≤ ctx.lineLimit

def ifChainCollapseFits (ctx : LayoutCtx) (prefixLen : Nat) : Chain → Bool
  | .ifThen head _ body => linkFits ctx prefixLen head body
  | .ifElse head _ body _ _ last =>
    linkFits ctx prefixLen head body &&
      ctx.level * ctx.indentWidth + elseOpen + inlineBodyByteLen last ≤ ctx.lineLimit
  | .ifElseIf head _ body _ _ rest =>
    linkFits ctx prefixLen head body && ifChainCollapseFits ctx elseIfOpen rest

def hasNoComments (chain : Chain) : Bool := chain.layout.all fun p => !isComment p.lexeme

def ifToggle (ctx : LayoutCtx) (chain : Chain) : IfToggle where
  canCollapse := chain.bodies.all bodyCollapsible && chain.bodies.any IfBody.isBlock &&
    hasNoComments chain && ifChainCollapseFits ctx ifOpen chain
  canExpand := chain.bodies.any bodyExpandable

def bodySubstitution (layout : IfLayout) (base unit : List Char) (body : IfBody) :
    Option (List Char) :=
  match layout with
  | .collapse => (blockSingleStmt body).map fun s => s.chunk.text
  | .expand =>
    if bodyExpandable body then
      some (['{', '\n'] ++ base ++ unit ++ body.chunk.text ++ ['\n'] ++ base ++ ['}'])
    else none

def bodySegment (kept : List Char) (lead : Lead) (subst : IfBody → Option (List Char))
    (body : IfBody) : Segment Char :=
  ⟨kept ++ lead.text, body.chunk.text, subst body⟩

/-- The bodies in the text, each with what stands in front of it. -/
def Chain.segments (subst : IfBody → Option (List Char)) (kept : List Char) (lead : Lead) :
    Chain → List (Segment Char)
  | ifThen head bodyLead body =>
    [bodySegment (kept ++ textOf (head.placed lead)) bodyLead subst body]
  | ifElse head bodyLead body elseLead lastLead last =>
    [bodySegment (kept ++ textOf (head.placed lead)) bodyLead subst body,
      bodySegment (textOf (elsePlaced elseLead)) lastLead subst last]
  | ifElseIf head bodyLead body elseLead ifLead rest =>
    bodySegment (kept ++ textOf (head.placed lead)) bodyLead subst body ::
      rest.segments subst (textOf (elsePlaced elseLead)) ifLead

/-- The chain in a source, between what stands in front of it and behind it. -/
def rewriteIfLayout (front : List Char) (chain : Chain) (back : List Char)
    (options : FormatOptions) (layout : IfLayout) : List Char :=
  let source := front ++ (chain.text ++ back)
  let start := utf8Bytes front
  let base := lineIndent source start
  let subst := bodySubstitution layout base (indentUnitFor options)
  spliceSubs sizeOfChar source start (start + utf8Bytes chain.text)
    (subsFrom sizeOfChar start (chain.segments subst [] (.blanks [])))

/-- The body that the substitution spells. -/
def IfBody.relaid (layout : IfLayout) (base unit : List Char) (body : IfBody) : IfBody :=
  match layout, body with
  | .collapse, body => ((blockSingleStmt body).map IfBody.stmt).getD body
  | .expand, .stmt s =>
    .block [(.blanks ('\n' :: base ++ unit), .stmt s)] (.blanks ('\n' :: base))
  | .expand, body => body

lemma IfBody.text_relaid (layout : IfLayout) (base unit : List Char) (body : IfBody) :
    (body.relaid layout base unit).chunk.text =
      (bodySubstitution layout base unit body).getD body.chunk.text := by
  cases layout with
  | collapse =>
    dsimp only [relaid, bodySubstitution]
    cases blockSingleStmt body with
    | none => rfl
    | some s => rfl
  | expand =>
    cases body with
    | block items close => rfl
    | nop => rfl
    | stmt s =>
      simp [relaid, bodySubstitution, bodyExpandable, chunk, Chunk.text, itemsPlaced, Lead.placed,
        Lead.blanks, Chunk.placed, Chunk.single, BlockItem.chunk]

lemma Chain.flatMap_before (subst : IfBody → Option (List Char)) (kept : List Char) (lead : Lead)
    (chain : Chain) : (chain.segments subst kept lead).flatMap Segment.before =
      kept ++ textOf (chain.placed lead) := by
  induction chain generalizing kept lead with
  | ifThen head bodyLead body =>
    simp [segments, placed, bodySegment, Segment.before, Lead.textOf_placed]
  | ifElse head bodyLead body elseLead lastLead last =>
    simp [segments, placed, bodySegment, Segment.before, Lead.textOf_placed]
  | ifElseIf head bodyLead body elseLead ifLead rest ih =>
    simp [segments, placed, bodySegment, Segment.before, Lead.textOf_placed, ih]

lemma Chain.flatMap_after {subst : IfBody → Option (List Char)} {f : IfBody → IfBody}
    (hf : ∀ body, (f body).chunk.text = (subst body).getD body.chunk.text) (kept : List Char)
    (lead : Lead) (chain : Chain) : (chain.segments subst kept lead).flatMap Segment.after =
      kept ++ textOf ((chain.mapBodies f).placed lead) := by
  induction chain generalizing kept lead with
  | ifThen head bodyLead body =>
    simp [segments, placed, mapBodies, bodySegment, Segment.after, Lead.textOf_placed, hf]
  | ifElse head bodyLead body elseLead lastLead last =>
    simp [segments, placed, mapBodies, bodySegment, Segment.after, Lead.textOf_placed, hf]
  | ifElseIf head bodyLead body elseLead ifLead rest ih =>
    simp [segments, placed, mapBodies, bodySegment, Segment.after, Lead.textOf_placed, hf, ih]

/-- The rewritten text spells the chain with the other bodies. -/
lemma rewriteIfLayout_eq (front : List Char) (chain : Chain) (back : List Char)
    (options : FormatOptions) (layout : IfLayout) :
    rewriteIfLayout front chain back options layout =
      (chain.mapBodies (IfBody.relaid layout
        (lineIndent (front ++ (chain.text ++ back)) (utf8Bytes front))
        (indentUnitFor options))).text := by
  have hpos : ∀ c, 0 < sizeOfChar c := Char.utf8Size_pos
  have hbefore := chain.flatMap_before (bodySubstitution layout
    (lineIndent (front ++ (chain.text ++ back)) (utf8Bytes front)) (indentUnitFor options)) []
    (.blanks [])
  have hsplice := spliceSubs_segments hpos front back [] (chain.segments (bodySubstitution layout
    (lineIndent (front ++ (chain.text ++ back)) (utf8Bytes front)) (indentUnitFor options)) []
    (.blanks []))
  rw [hbefore, List.append_nil, List.nil_append, List.append_nil,
    Chain.flatMap_after (IfBody.text_relaid layout _ _)] at hsplice
  exact hsplice

section Expand

variable {base unit : List Char}

lemma ok_brace {gap : List Char} {c : Char} (hgap : ∀ a ∈ gap, isWhitespace a = true)
    (hc : c = '{' ∨ c = '}') : scriptLexis.Ok ⟨gap, [c]⟩ := by
  refine ⟨hgap, c, [], rfl, ?_, fun _ => rfl⟩
  rcases hc with rfl | rfl
  · rfl
  · rfl

lemma refits_expand (hbase : ∀ c ∈ base, isWhitespace c = true)
    (hunit : ∀ c ∈ unit, isWhitespace c = true) (prev : List Char) (lead : Lead) (body : IfBody) :
    Refits prev lead body.chunk (body.relaid .expand base unit).chunk := by
  cases body with
  | block items close => exact fun front back _ h => h
  | nop => exact fun front back _ h => h
  | stmt s =>
    intro front back _ h
    have hnewline : ∀ c ∈ '\n' :: base, isWhitespace c = true := List.forall_mem_cons.mpr ⟨rfl, hbase⟩
    have hindent : ∀ c ∈ '\n' :: base ++ unit, isWhitespace c = true :=
      List.forall_mem_append.mpr ⟨hnewline, hunit⟩
    have hplaced : front ++ (lead.placed s.chunk ++ back) =
        (front ++ lead.comments) ++ (s.chunk.placed lead.gap ++ back) := by
      simp [Lead.placed]
    have hgoal : front ++ (lead.placed ((IfBody.stmt s).relaid .expand base unit).chunk ++ back) =
        (front ++ lead.comments) ++ ([⟨lead.gap, ['{']⟩] ++
          (s.chunk.placed ('\n' :: base ++ unit) ++ ([⟨'\n' :: base, ['}']⟩] ++ back))) := by
      simp [Lead.placed, IfBody.relaid, IfBody.chunk, itemsPlaced, Lead.blanks, BlockItem.chunk,
        Chunk.placed, Chunk.single]
    have hchunk : (IfBody.stmt s).chunk = s.chunk := rfl
    rw [hchunk, hplaced] at h
    obtain ⟨hfront, hrest, hseam⟩ := Lexis.spells_append.mp h
    obtain ⟨hstmt, hback, -⟩ := Lexis.spells_append.mp hrest
    have hgap := (hstmt.ok _ List.mem_cons_self).blank
    have hclose : scriptLexis.Spells ([⟨'\n' :: base, ['}']⟩] ++ back) := by
      refine Lexis.spells_append.mpr
        ⟨Lexis.spells_singleton.mpr (ok_brace hnewline (.inr rfl)), hback, ?_⟩
      rintro p ⟨⟩ q -
      exact keepsApart_of_punctuation rfl _ _
    have hinner : scriptLexis.Spells
        (s.chunk.placed ('\n' :: base ++ unit) ++ ([⟨'\n' :: base, ['}']⟩] ++ back)) := by
      refine Lexis.spells_append.mpr ⟨hstmt.regap hindent, hclose, ?_⟩
      rintro p - q ⟨⟩
      exact keepsApart_of_newline List.mem_cons_self _ _
    have hblock : scriptLexis.Spells ([⟨lead.gap, ['{']⟩] ++
        (s.chunk.placed ('\n' :: base ++ unit) ++ ([⟨'\n' :: base, ['}']⟩] ++ back))) := by
      refine Lexis.spells_append.mpr
        ⟨Lexis.spells_singleton.mpr (ok_brace hgap (.inl rfl)), hinner, ?_⟩
      rintro p ⟨⟩ q -
      exact keepsApart_of_punctuation rfl _ _
    rw [hgoal]
    refine Lexis.spells_append.mpr ⟨hfront, hblock, ?_⟩
    rintro p hp q ⟨⟩
    exact (hseam p hp _ rfl).of_next rfl

lemma unmarked_expand (lead : Lead) (body : IfBody) :
    scriptLexis.unmarked (lead.placed (body.relaid .expand base unit).chunk) =
      scriptLexis.unmarked (lead.placed body.chunk) := by
  cases body with
  | block items close => rfl
  | nop => rfl
  | stmt s =>
    have hinner : scriptLexis.unmarked
        (s.chunk.placed ('\n' :: base ++ unit) ++ [⟨'\n' :: base, ['}']⟩]) =
          scriptLexis.unmarked (s.chunk.placed lead.gap) := by
      rw [Lexis.unmarked_append, Lexis.unmarked_cons_of_marked rfl, Lexis.unmarked_nil,
        List.append_nil]
      rfl
    have hblock : (IfBody.stmt s).relaid .expand base unit =
        .block [(.blanks ('\n' :: base ++ unit), .stmt s)] (.blanks ('\n' :: base)) := rfl
    have hplaced : lead.placed ((IfBody.stmt s).relaid .expand base unit).chunk = lead.comments ++
        (⟨lead.gap, ['{']⟩ :: (s.chunk.placed ('\n' :: base ++ unit) ++ [⟨'\n' :: base, ['}']⟩])) := by
      simp [Lead.placed, hblock, IfBody.chunk, itemsPlaced, Lead.blanks, BlockItem.chunk,
        Chunk.placed, Chunk.single]
    rw [hplaced, Lexis.unmarked_append, Lexis.unmarked_cons_of_marked rfl, hinner, Lead.placed,
      Lexis.unmarked_append]
    rfl

lemma statements_expand (body : IfBody) :
    (body.relaid .expand base unit).statements = body.statements := by
  cases body with
  | block items close => rfl
  | nop => rfl
  | stmt s => rfl

lemma Chain.reads_expand {chain : Chain} (hbase : ∀ c ∈ base, isWhitespace c = true)
    (hunit : ∀ c ∈ unit, isWhitespace c = true) (h : chain.Parses) :
    chain.Reads (chain.mapBodies (IfBody.relaid .expand base unit)).text
      (chain.mapBodies (IfBody.relaid .expand base unit)) := by
  have hrefits := all_of_bodies fun body (_ : body ∈ chain.bodies) => trivial
  refine ⟨rfl, ⟨?_, binds_mapBodies ?_ ?_ h.binds⟩, bare_mapBodies ?_ _, ?_⟩
  · exact spells_mapBodies (hrefits.mono (fun lead body _ => refits_expand hbase hunit _ lead body)
      fun lead body _ => refits_expand hbase hunit _ lead body) [] _ h.spells
  · intro body hopen
    cases body with
    | block items close => rfl
    | nop => rfl
    | stmt s => rfl
  · intro body hif
    cases body with
    | block items close => rfl
    | nop => rfl
    | stmt s => rfl
  · exact hrefits.mono (fun lead body _ => unmarked_expand lead body)
      fun lead body _ => unmarked_expand lead body
  · rw [bodies_mapBodies, List.map_map]
    exact List.map_congr_left fun body _ => statements_expand body

end Expand

/-- The semicolons in a block. They are statements of their own, which `blockSingleStmt` does not
count. -/
def IfBody.nops : IfBody → Nat
  | block items _ => items.countP fun item => item.2.stmt?.isNone
  | _ => 0

/-- What is left of the body starts with a word. -/
def IfBody.startsWord (body : IfBody) : Bool :=
  (blockSingleStmt body).any fun s => s.chunk.head.head?.any isWordChar

/-- No semicolon is lost, and an `else` does not run into a word. -/
def Chain.CollapseSafe (chain : Chain) : Prop :=
  chain.All (fun _ body => body.nops = 0)
    fun lead body => body.nops = 0 ∧ (lead.gap = [] → body.startsWord = false)

/-- A lexeme that is no comment, with blanks in front of it. -/
structure Plain (p : Placed Char) : Prop where
  ok : scriptLexis.Ok p
  bare : isComment p.lexeme = false

lemma Lead.comments_eq_nil_of_plain {lead : Lead} {c : Chunk}
    (h : ∀ p ∈ lead.placed c, Plain p) : lead.comments = [] :=
  Lead.comments_eq_nil fun p hp => (h p (List.mem_append_left _ hp)).bare

lemma Lead.blank_of_plain {lead : Lead} {c : Chunk} (h : ∀ p ∈ lead.placed c, Plain p) :
    ∀ a ∈ lead.gap, isWhitespace a = true :=
  (h ⟨lead.gap, c.head⟩ (List.mem_append_right _ List.mem_cons_self)).ok.blank

lemma Lead.plain_of_placed {lead : Lead} {c : Chunk} (h : ∀ p ∈ lead.placed c, Plain p) :
    ∀ p ∈ c.tail, Plain p :=
  fun p hp => h p (List.mem_append_right _ (List.mem_cons_of_mem _ hp))

lemma Lead.countP_solid_text {lead : Lead} {c : Chunk} (h : ∀ p ∈ lead.placed c, Plain p) :
    lead.text.countP scriptLexis.solid = 0 := by
  rw [text, comments_eq_nil_of_plain h, textOf_nil, List.nil_append]
  exact countP_solid_eq_zero (blank_of_plain h)

lemma countP_solid_itemsPlaced {items : List (Lead × BlockItem)}
    (h : ∀ p ∈ itemsPlaced items, Plain p) :
    (textOf (itemsPlaced items)).countP scriptLexis.solid =
      ((items.filterMap fun item => item.2.stmt?).map
        fun s => s.chunk.text.countP scriptLexis.solid).sum +
        items.countP fun item => item.2.stmt?.isNone := by
  induction items with
  | nil => rfl
  | cons item items ih =>
    have hitem : ∀ p ∈ item.1.placed item.2.chunk, Plain p :=
      fun p hp => h p (List.mem_append_left _ hp)
    have hitems := ih fun p hp => h p (List.mem_append_right _ hp)
    have hcons : itemsPlaced (item :: items) = item.1.placed item.2.chunk ++ itemsPlaced items := rfl
    rw [hcons, textOf_append, List.countP_append, Lead.textOf_placed, List.countP_append,
      Lead.countP_solid_text hitem, hitems]
    obtain ⟨lead, item⟩ := item
    cases item with
    | stmt s =>
      simp [BlockItem.stmt?, BlockItem.chunk]
      omega
    | nop =>
      have hnop : (BlockItem.chunk .nop).text.countP scriptLexis.solid = 1 := rfl
      simp [BlockItem.stmt?, hnop]
      omega

section Collapse

variable {base unit : List Char} {body : IfBody} {s : StmtText} {lead : Lead}

lemma exists_block_of_blockSingleStmt (h : blockSingleStmt body = some s) :
    ∃ items close, body = .block items close ∧
      (items.filterMap fun item => item.2.stmt?) = [s] ∧ s.kind.isSimple = true := by
  cases body with
  | nop => cases h
  | stmt s' => cases h
  | block items close =>
    refine ⟨items, close, rfl, ?_⟩
    unfold blockSingleStmt at h
    dsimp only at h
    split at h
    · next t hitems =>
      split_ifs at h with hsimple
      cases h
      exact ⟨hitems, hsimple⟩
    · cases h

lemma exists_item_of_nops (h : blockSingleStmt body = some s) (hnops : body.nops = 0) :
    ∃ itemLead close, body = .block [(itemLead, .stmt s)] close := by
  obtain ⟨items, close, rfl, hitems, -⟩ := exists_block_of_blockSingleStmt h
  have hstmts : ∀ item ∈ items, item.2.stmt? ≠ none := by
    intro item hitem hnone
    exact List.countP_eq_zero.mp hnops item hitem (by rw [hnone]; rfl)
  cases items with
  | nil => cases hitems
  | cons item items =>
    obtain ⟨itemLead, item⟩ := item
    cases item with
    | nop => exact absurd rfl (hstmts _ List.mem_cons_self)
    | stmt t =>
      obtain ⟨rfl, hnil⟩ := List.cons.inj hitems
      cases items with
      | nil => exact ⟨itemLead, close, rfl⟩
      | cons i items =>
        exact absurd (List.filterMap_eq_nil_iff.mp hnil i List.mem_cons_self)
          (hstmts i (List.mem_cons_of_mem _ List.mem_cons_self))

lemma relaid_collapse (h : blockSingleStmt body = some s) :
    body.relaid .collapse base unit = .stmt s := by
  rw [IfBody.relaid, h]
  rfl

lemma relaid_collapse_of_none (h : blockSingleStmt body = none) :
    body.relaid .collapse base unit = body := by
  rw [IfBody.relaid, h]
  rfl

/-- A body that can be unwrapped is a block with one statement, or none at all. -/
lemma nops_eq_zero_of_none (hcollapsible : bodyCollapsible body = true)
    (h : blockSingleStmt body = none) : body.nops = 0 := by
  cases body with
  | block items close =>
    rw [bodyCollapsible, h] at hcollapsible
    cases hcollapsible
  | nop => rfl
  | stmt s => rfl

lemma countP_solid_collapse (hcollapsible : bodyCollapsible body = true)
    (hplain : ∀ p ∈ lead.placed body.chunk, Plain p) :
    body.chunk.text.countP scriptLexis.solid =
      (body.relaid .collapse base unit).chunk.text.countP scriptLexis.solid + body.nops := by
  cases h : blockSingleStmt body with
  | none => rw [relaid_collapse_of_none h, nops_eq_zero_of_none hcollapsible h, Nat.add_zero]
  | some s =>
    rw [relaid_collapse h]
    obtain ⟨items, close, rfl, hitems, -⟩ := exists_block_of_blockSingleStmt h
    have htail : ∀ p ∈ itemsPlaced items ++ close.placed (.single ['}']), Plain p :=
      Lead.plain_of_placed hplain
    have hcount := countP_solid_itemsPlaced fun p hp => htail p (List.mem_append_left _ hp)
    have hclose := Lead.countP_solid_text fun p hp => htail p (List.mem_append_right _ hp)
    have hopenBrace : ['{'].countP scriptLexis.solid = 0 := rfl
    have hcloseBrace : (Chunk.single ['}']).text.countP scriptLexis.solid = 0 := rfl
    rw [hitems, List.map_singleton, List.sum_singleton] at hcount
    have htext : (IfBody.block items close).chunk.text =
        ['{'] ++ (textOf (itemsPlaced items) ++ (close.text ++ (Chunk.single ['}']).text)) := by
      rw [Chunk.text, IfBody.chunk, textOf_append, Lead.textOf_placed]
    rw [htext, List.countP_append, List.countP_append, List.countP_append, hopenBrace, hcount,
      hclose, hcloseBrace]
    have hstmt : (IfBody.stmt s).chunk = s.chunk := rfl
    rw [hstmt, IfBody.nops]
    omega

lemma placed_block_of_plain {itemLead close : Lead}
    (hplain : ∀ p ∈ lead.placed (IfBody.block [(itemLead, .stmt s)] close).chunk, Plain p) :
    lead.placed (IfBody.block [(itemLead, .stmt s)] close).chunk =
      [⟨lead.gap, ['{']⟩] ++ (s.chunk.placed itemLead.gap ++ [⟨close.gap, ['}']⟩]) := by
  have htail : ∀ p ∈ itemLead.placed s.chunk ++ close.placed (.single ['}']), Plain p := by
    have h := Lead.plain_of_placed hplain
    simpa [IfBody.chunk, itemsPlaced, BlockItem.chunk] using h
  have hlead := Lead.comments_eq_nil_of_plain hplain
  have hitem := Lead.comments_eq_nil_of_plain fun p hp => htail p (List.mem_append_left _ hp)
  have hclose := Lead.comments_eq_nil_of_plain fun p hp => htail p (List.mem_append_right _ hp)
  simp [Lead.placed, IfBody.chunk, itemsPlaced, BlockItem.chunk, Chunk.placed, Chunk.single, hlead,
    hitem, hclose]

lemma placed_stmt_of_plain {c : Chunk} (hplain : ∀ p ∈ lead.placed c, Plain p) :
    lead.placed (IfBody.stmt s).chunk = s.chunk.placed lead.gap := by
  rw [Lead.placed, Lead.comments_eq_nil_of_plain hplain, List.nil_append]
  rfl

lemma refits_collapse {prev : List Char} (hplain : ∀ p ∈ lead.placed body.chunk, Plain p)
    (hnops : body.nops = 0)
    (hprev : isPunctuation prev = true ∨
      (isLineComment prev = false ∧ (lead.gap = [] → body.startsWord = false))) :
    Refits prev lead body.chunk (body.relaid .collapse base unit).chunk := by
  cases hsingle : blockSingleStmt body with
  | none =>
    rw [relaid_collapse_of_none hsingle]
    exact fun front back _ h => h
  | some s =>
    rw [relaid_collapse hsingle]
    obtain ⟨-, -, -, -, hsimple⟩ := exists_block_of_blockSingleStmt hsingle
    have hstarts : body.startsWord = s.chunk.head.head?.any isWordChar := by
      rw [IfBody.startsWord, hsingle]
      rfl
    obtain ⟨itemLead, close, rfl⟩ := exists_item_of_nops hsingle hnops
    intro front back hfrontLast h
    have hblank := Lead.blank_of_plain hplain
    rw [placed_stmt_of_plain hplain]
    rw [placed_block_of_plain hplain] at h
    obtain ⟨hfront, hblock, -⟩ := Lexis.spells_append.mp h
    obtain ⟨hbraced, hback, -⟩ := Lexis.spells_append.mp hblock
    obtain ⟨-, hinner, -⟩ := Lexis.spells_append.mp hbraced
    obtain ⟨hstmt, -, -⟩ := Lexis.spells_append.mp hinner
    have hbehind : scriptLexis.Spells (s.chunk.placed lead.gap ++ back) := by
      refine Lexis.spells_append.mpr ⟨hstmt.regap hblank, hback, fun p hp q _ => ?_⟩
      have hlast := Lead.getLast?_placed (.blanks lead.gap) s.chunk
      have hplaced : (Lead.blanks lead.gap).placed s.chunk = s.chunk.placed lead.gap := rfl
      rw [hplaced, hp, (s.simple hsimple).2] at hlast
      have hsemi : p.lexeme = [';'] := Option.some.inj hlast
      exact keepsApart_of_punctuation (by rw [hsemi]; rfl) _ _
    refine Lexis.spells_append.mpr ⟨hfront, hbehind, ?_⟩
    rintro p hp q ⟨⟩
    rw [hp] at hfrontLast
    have hlexeme : p.lexeme = prev := Option.some.inj hfrontLast
    rcases hprev with hpunct | ⟨hline, hword⟩
    · exact keepsApart_of_punctuation (by rw [hlexeme]; exact hpunct) _ _
    · refine ⟨fun hgap _ => ?_, fun hcomment => ?_⟩
      · rw [← hstarts]
        exact hword hgap
      · rw [hlexeme, hline] at hcomment
        cases hcomment

lemma unmarked_collapse (hplain : ∀ p ∈ lead.placed body.chunk, Plain p) (hnops : body.nops = 0) :
    scriptLexis.unmarked (lead.placed (body.relaid .collapse base unit).chunk) =
      scriptLexis.unmarked (lead.placed body.chunk) := by
  cases hsingle : blockSingleStmt body with
  | none => rw [relaid_collapse_of_none hsingle]
  | some s =>
    rw [relaid_collapse hsingle]
    obtain ⟨itemLead, close, rfl⟩ := exists_item_of_nops hsingle hnops
    rw [placed_stmt_of_plain hplain, placed_block_of_plain hplain, Lexis.unmarked_append,
      Lexis.unmarked_append, Lexis.unmarked_cons_of_marked rfl, Lexis.unmarked_cons_of_marked rfl,
      Lexis.unmarked_nil, List.append_nil, List.nil_append]
    rfl

lemma statements_collapse (hnops : body.nops = 0) :
    (body.relaid .collapse base unit).statements = body.statements := by
  cases hsingle : blockSingleStmt body with
  | none => rw [relaid_collapse_of_none hsingle]
  | some s =>
    rw [relaid_collapse hsingle]
    obtain ⟨itemLead, close, rfl⟩ := exists_item_of_nops hsingle hnops
    rfl

lemma plain_collapse (hplain : ∀ p ∈ lead.placed body.chunk, Plain p) (hnops : body.nops = 0) :
    ∀ p ∈ lead.placed (body.relaid .collapse base unit).chunk, Plain p := by
  cases hsingle : blockSingleStmt body with
  | none =>
    rw [relaid_collapse_of_none hsingle]
    exact hplain
  | some s =>
    rw [relaid_collapse hsingle]
    obtain ⟨itemLead, close, rfl⟩ := exists_item_of_nops hsingle hnops
    have hblank := Lead.blank_of_plain hplain
    rw [placed_stmt_of_plain hplain]
    rw [placed_block_of_plain hplain] at hplain
    obtain ⟨-, hinner⟩ := List.forall_mem_append.mp hplain
    obtain ⟨hhead, htail⟩ := List.forall_mem_cons.mp (List.forall_mem_append.mp hinner).1
    exact List.forall_mem_cons.mpr ⟨⟨⟨hblank, hhead.ok.starts⟩, hhead.bare⟩, htail⟩

lemma endsOpen_collapse (h : body.endsOpen = false) :
    (body.relaid .collapse base unit).endsOpen = false := by
  cases hsingle : blockSingleStmt body with
  | none => rwa [relaid_collapse_of_none hsingle]
  | some s =>
    obtain ⟨-, -, -, -, hsimple⟩ := exists_block_of_blockSingleStmt hsingle
    rw [relaid_collapse hsingle]
    exact (s.simple hsimple).1

lemma isIf_collapse (h : body.isIf = false) : (body.relaid .collapse base unit).isIf = false := by
  cases hsingle : blockSingleStmt body with
  | none => rwa [relaid_collapse_of_none hsingle]
  | some s =>
    obtain ⟨-, -, -, -, hsimple⟩ := exists_block_of_blockSingleStmt hsingle
    rw [relaid_collapse hsingle]
    refine decide_eq_false fun hkind => ?_
    rw [hkind] at hsimple
    cases hsimple

namespace Chain

variable {chain : Chain}

lemma plain_of_parses (h : chain.Parses) (hcomments : hasNoComments chain = true) :
    ∀ p ∈ chain.layout, Plain p := fun p hp =>
  ⟨h.spells.ok p hp, (Bool.not_eq_true' _).mp (List.all_eq_true.mp hcomments p hp)⟩

lemma CollapseSafe.nops (h : chain.CollapseSafe) : ∀ body ∈ chain.bodies, body.nops = 0 :=
  All.bodies (h.mono (fun _ _ hnops => hnops) fun _ _ hlast => hlast.1)

lemma reads_collapse (h : chain.Parses) (hcomments : hasNoComments chain = true)
    (hsafe : chain.CollapseSafe) :
    chain.Reads (chain.mapBodies (IfBody.relaid .collapse base unit)).text
      (chain.mapBodies (IfBody.relaid .collapse base unit)) := by
  have hplaced := (all_of_placed (plain_of_parses h hcomments)).and hsafe
  refine ⟨rfl, ⟨?_, binds_mapBodies (fun _ => endsOpen_collapse) (fun _ => isIf_collapse) h.binds⟩,
    bare_mapBodies ?_ _, ?_⟩
  · refine spells_mapBodies (hplaced.mono (fun lead body hbody => ?_) fun lead body hlast => ?_) [] _
      h.spells
    · exact refits_collapse hbody.1 hbody.2 (.inl rfl)
    · exact refits_collapse hlast.1 hlast.2.1 (.inr ⟨rfl, hlast.2.2⟩)
  · exact hplaced.mono (fun lead body hbody => unmarked_collapse hbody.1 hbody.2)
      fun lead body hlast => unmarked_collapse hlast.1 hlast.2.1
  · rw [bodies_mapBodies, List.map_map]
    exact List.map_congr_left fun body hbody => statements_collapse (hsafe.nops body hbody)

/-- No character is lost, so no semicolon is. -/
lemma nops_of_preserves (h : chain.Parses) (hcomments : hasNoComments chain = true)
    (hcollapsible : ∀ body ∈ chain.bodies, bodyCollapsible body = true)
    (hpreserves : chain.Preserves (chain.mapBodies (IfBody.relaid .collapse base unit)).text) :
    ∀ body ∈ chain.bodies, body.nops = 0 := by
  obtain ⟨chain', hreads⟩ := hpreserves
  have hunmarked : scriptLexis.unmarked chain'.layout = scriptLexis.unmarked chain.layout := by
    rw [layout, layout, ← lexemes_bare, ← lexemes_bare, hreads.bare]
  have hsame : (textOf chain'.layout).countP scriptLexis.solid =
      (textOf chain.layout).countP scriptLexis.solid := by
    rw [Lexis.countP_solid hreads.parses.spells.ok, hunmarked, Lexis.countP_solid h.spells.ok]
  have hplain := (all_of_placed (plain_of_parses h hcomments)).and (all_of_bodies hcollapsible)
  have hbodies : ∀ body ∈ chain.bodies, body.chunk.text.countP scriptLexis.solid =
      (body.relaid .collapse base unit).chunk.text.countP scriptLexis.solid + body.nops :=
    All.bodies (hplain.mono (fun _ _ hbody => countP_solid_collapse hbody.2 hbody.1)
      fun _ _ hbody => countP_solid_collapse hbody.2 hbody.1)
  have hcount : (textOf chain.layout).countP scriptLexis.solid = _ :=
    countP_mapBodies (.blanks []) hbodies
  have htext : textOf chain'.layout =
      textOf ((chain.mapBodies (IfBody.relaid .collapse base unit)).placed (.blanks [])) :=
    hreads.text_eq
  rw [← hsame, htext] at hcount
  intro body hbody
  have hsum : (chain.bodies.map IfBody.nops).sum = 0 := by omega
  exact List.sum_eq_zero_iff_forall_eq_nat.mp hsum _ (List.mem_map_of_mem hbody)

lemma collapseSafe_of_preserves (h : chain.Parses) (hcomments : hasNoComments chain = true)
    (hcollapsible : ∀ body ∈ chain.bodies, bodyCollapsible body = true)
    (hpreserves : chain.Preserves (chain.mapBodies (IfBody.relaid .collapse base unit)).text) :
    chain.CollapseSafe := by
  have hnops := nops_of_preserves h hcomments hcollapsible hpreserves
  obtain ⟨chain', hreads⟩ := hpreserves
  have hplain := plain_of_parses h hcomments
  have hbodies := (all_of_placed hplain).and (all_of_bodies hnops)
  have hunmarked : scriptLexis.unmarked
      (chain.mapBodies (IfBody.relaid .collapse base unit)).layout =
        scriptLexis.unmarked chain'.layout := by
    rw [layout, layout, ← lexemes_bare, ← lexemes_bare, hreads.bare, bare_mapBodies]
    exact hbodies.mono (fun lead body hbody => unmarked_collapse hbody.1 hbody.2)
      fun lead body hbody => unmarked_collapse hbody.1 hbody.2
  have hok : ∀ p ∈ (chain.mapBodies (IfBody.relaid .collapse base unit)).layout, Plain p :=
    forall_mapBodies (fun body hbody lead hp => plain_collapse hp (hnops body hbody)) _ hplain
  -- The text can be read in one way only, and there every `else` is kept apart.
  have hlayout : (chain.mapBodies (IfBody.relaid .collapse base unit)).layout = chain'.layout :=
    Lexis.eq_of_textOf_eq (fun p hp => (hok p hp).ok) hreads.parses.spells.ok hreads.text_eq.symm
      hunmarked
  have hspells := hreads.parses.spells
  rw [← hlayout] at hspells
  have hseams := all_mapBodies (all_of_spells [] _ hspells)
  refine (hbodies.and hseams).mono (fun lead body hbody => hbody.1.2) fun lead body hlast => ?_
  obtain ⟨⟨hlastPlain, hlastNops⟩, hseam⟩ := hlast
  refine ⟨hlastNops, fun hgap => ?_⟩
  cases hsingle : blockSingleStmt body with
  | none =>
    rw [IfBody.startsWord, hsingle]
    rfl
  | some s =>
    rw [IfBody.startsWord, hsingle, Option.any_some]
    rw [relaid_collapse hsingle, placed_stmt_of_plain hlastPlain] at hseam
    exact (hseam _ rfl).words hgap rfl

end Chain

end Collapse

/-! ### When the toggle is right -/

def IfToggle.offers (toggle : IfToggle) : IfLayout → Bool
  | .collapse => toggle.canCollapse
  | .expand => toggle.canExpand

/-- A block with one simple statement and nothing else. -/
def IfBody.IsOneSimple (body : IfBody) : Prop :=
  ∃ lead s close, body = .block [(lead, .stmt s)] close ∧ s.kind.isSimple = true

/-- The text is the same program in the layout, and braces are only gone from around a statement
that needs none. -/
structure Chain.TogglesTo (chain : Chain) (layout : IfLayout) (text : List Char) : Prop where
  preserves : chain.Preserves text
  unwraps : layout = .collapse → ∀ body ∈ chain.bodies, body.isBlock = true →
    body.IsOneSimple ∧ ∀ p ∈ body.chunk.tail, isComment p.lexeme = false

section Toggle

variable {front back : List Char} {options : FormatOptions} {chain : Chain}

lemma collapsible_of_offers
    (h : (ifToggle (layoutCtx front options) chain).offers .collapse = true) :
    (∀ body ∈ chain.bodies, bodyCollapsible body = true) ∧ hasNoComments chain = true := by
  simp only [IfToggle.offers, ifToggle, Bool.and_eq_true, List.all_eq_true] at h
  exact ⟨h.1.1.1, h.1.2⟩

lemma isOneSimple_of_collapsible {body : IfBody} (hcollapsible : bodyCollapsible body = true)
    (hnops : body.nops = 0) (hblock : body.isBlock = true) : body.IsOneSimple := by
  cases hsingle : blockSingleStmt body with
  | none =>
    cases body with
    | block items close =>
      rw [bodyCollapsible, hsingle] at hcollapsible
      cases hcollapsible
    | nop => cases hblock
    | stmt s => cases hblock
  | some s =>
    obtain ⟨-, -, -, -, hsimple⟩ := exists_block_of_blockSingleStmt hsingle
    obtain ⟨lead, close, hbody⟩ := exists_item_of_nops hsingle hnops
    exact ⟨lead, s, close, hbody, hsimple⟩

/-- Expanding always keeps the program. Collapsing does unless a semicolon of its own stands in one
of the blocks, or an `else` at the brace of one runs into the statement behind it. -/
theorem togglesTo_rewriteIfLayout_iff (front back : List Char) (options : FormatOptions)
    (chain : Chain) (layout : IfLayout) (h : chain.Parses)
    (hoffers : (ifToggle (layoutCtx front options) chain).offers layout = true) :
    chain.TogglesTo layout (rewriteIfLayout front chain back options layout) ↔
      (layout = .collapse → chain.CollapseSafe) := by
  rw [rewriteIfLayout_eq]
  cases layout with
  | expand =>
    have hne : IfLayout.expand ≠ .collapse := by decide
    have hreads : chain.Reads _ (chain.mapBodies (IfBody.relaid .expand
        (lineIndent (front ++ (chain.text ++ back)) (utf8Bytes front)) (indentUnitFor options))) :=
      Chain.reads_expand (fun _ => isWhitespace_of_mem_lineIndent)
        (fun _ => isWhitespace_of_mem_indentUnitFor) h
    exact ⟨fun _ heq => absurd heq hne, fun _ => ⟨⟨_, hreads⟩, fun heq => absurd heq hne⟩⟩
  | collapse =>
    obtain ⟨hcollapsible, hcomments⟩ := collapsible_of_offers hoffers
    refine ⟨fun htoggles _ =>
      Chain.collapseSafe_of_preserves h hcomments hcollapsible htoggles.preserves, fun hsafe => ?_⟩
    refine ⟨⟨_, Chain.reads_collapse h hcomments (hsafe rfl)⟩, fun _ body hbody hblock =>
      ⟨isOneSimple_of_collapsible (hcollapsible body hbody) ((hsafe rfl).nops body hbody) hblock,
        ?_⟩⟩
    have hplain := Chain.all_of_placed (Chain.plain_of_parses h hcomments)
    have htails := hplain.mono (fun lead body hplaced => Lead.plain_of_placed hplaced)
      fun lead body hplaced => Lead.plain_of_placed hplaced
    exact fun p hp => (Chain.All.bodies htails body hbody p hp).bare

end Toggle

/-- `{ f(); }` -/
def callBlock (name : Char) : IfBody := .block [(.blanks [' '], .stmt (callStmt name))] (.blanks [' '])

/-- `if (a) { x(); } else{ y(); }`, with what stands behind the `else`. -/
def ifElseOf (gap : List Char) : Chain :=
  .ifElse ⟨.blanks [' '], .blanks [], .single ['a'], .blanks []⟩ (.blanks [' ']) (callBlock 'x')
    (.blanks [' ']) (.blanks gap) (callBlock 'y')

lemma parses_ifElseOf_nil : (ifElseOf []).Parses := ⟨by decide, rfl, rfl⟩

lemma parses_ifElseOf_blank : (ifElseOf [' ']).Parses := ⟨by decide, rfl, rfl⟩

/-- With a blank behind the `else` the chain is collapsed to `if (a) x(); else y();`. -/
theorem togglesTo_ifElseOf_blank : (ifElseOf [' ']).TogglesTo .collapse
    (rewriteIfLayout [] (ifElseOf [' ']) [] tabOptions .collapse) :=
  (togglesTo_rewriteIfLayout_iff [] [] tabOptions (ifElseOf [' ']) .collapse parses_ifElseOf_blank
    (by decide)).mpr fun _ => ⟨rfl, rfl, fun hgap => absurd hgap (List.cons_ne_nil _ _)⟩

/-- Without one it is collapsed to `if (a) x(); elsey();`. -/
theorem not_togglesTo_ifElseOf_nil : ¬ ∀ (front back : List Char) (options : FormatOptions)
    (chain : Chain) (layout : IfLayout), chain.Parses →
    (ifToggle (layoutCtx front options) chain).offers layout = true →
    chain.TogglesTo layout (rewriteIfLayout front chain back options layout) := by
  intro hall
  have hoffers : (ifToggle (layoutCtx [] tabOptions) (ifElseOf [])).offers .collapse = true := by
    decide
  have hpreserves := (hall [] [] tabOptions (ifElseOf []) .collapse parses_ifElseOf_nil
    hoffers).preserves
  rw [rewriteIfLayout_eq] at hpreserves
  obtain ⟨hcollapsible, hcomments⟩ := collapsible_of_offers hoffers
  have hsafe := Chain.collapseSafe_of_preserves parses_ifElseOf_nil hcomments hcollapsible
    hpreserves
  have hstarts : (callBlock 'y').startsWord = false := hsafe.2.2 rfl
  exact absurd hstarts (by decide)

end WitcherScriptLanguage
