import WitcherScriptLanguage.Formatter.ExpressionText

/-!
# The walk over expressions

What writes the leaves of a node (`Emits`): the token itself, and the loop of `format_children`
over the children as soon as their own formatters do. The comments among the children of a node
belong to the tokens behind them.
-/

namespace WitcherScriptLanguage.Formatting

open Library

/-- A node with the comments in front of it. -/
structure Spaced where
  lead : List Leaf
  site : Site

def Spaced.leaves (p : Spaced) : List Leaf := p.lead ++ p.site.leaves

/-- Each node other than a comment with the comments in front of it. -/
def spaced (lead : List Leaf) : List Site → List Spaced
  | [] => []
  | c :: cs =>
    if c.node.isComment then spaced (lead ++ c.leaves) cs else ⟨lead, c⟩ :: spaced [] cs

lemma map_site_spaced (lead : List Leaf) (cs : List Site) :
    (spaced lead cs).map Spaced.site = cs.filter fun c => !c.node.isComment := by
  induction cs generalizing lead with
  | nil => rfl
  | cons c cs ih =>
    rw [spaced]
    split_ifs with hcomment
    · rw [ih, List.filter_cons_of_neg (by simp [hcomment])]
    · rw [List.map_cons, ih, List.filter_cons_of_pos (by simp [hcomment])]

lemma flatMap_leaves_spaced {lead : List Leaf} {cs : List Site}
    (hlast : ∀ c ∈ cs.getLast?, c.node.isComment = false) (hnil : cs = [] → lead = []) :
    (spaced lead cs).flatMap Spaced.leaves = lead ++ cs.flatMap Site.leaves := by
  induction cs generalizing lead with
  | nil =>
    rw [hnil rfl]
    rfl
  | cons c cs ih =>
    have hlast' : ∀ d ∈ cs.getLast?, d.node.isComment = false := by
      intro d hd
      apply hlast
      rw [List.getLast?_cons, Option.mem_def.mp hd]
      rfl
    rw [spaced]
    split_ifs with hcomment
    · rw [ih hlast', List.flatMap_cons, List.append_assoc]
      rintro rfl
      have htoken := hlast c rfl
      rw [hcomment] at htoken
      cases htoken
    · rw [List.flatMap_cons, ih hlast' fun _ => rfl, List.flatMap_cons, Spaced.leaves,
        List.nil_append, List.append_assoc]

lemma isComment_of_mem_lead {lead : List Leaf} {cs : List Site}
    (hlead : ∀ l ∈ lead, l.isComment = true)
    (hleaf : ∀ c ∈ cs, c.node.isComment = true → c.node.children = []) :
    ∀ p ∈ spaced lead cs, ∀ l ∈ p.lead, l.isComment = true := by
  induction cs generalizing lead with
  | nil => exact fun p hp => absurd hp List.not_mem_nil
  | cons c cs ih =>
    obtain ⟨hc, hcs⟩ := List.forall_mem_cons.mp hleaf
    rw [spaced]
    split_ifs with hcomment
    · apply ih _ hcs
      rw [Site.leaves_of_leaf (hc hcomment)]
      apply List.forall_mem_append.mpr ⟨hlead, ?_⟩
      intro l hl
      rw [List.mem_singleton.mp hl]
      exact hcomment
    · exact List.forall_mem_cons.mpr
        ⟨hlead, ih (fun l hl => absurd hl List.not_mem_nil) hcs⟩

/-- Comments are in front of a token only where the token comes right behind one. -/
lemma of_mem_spaced (lead : List Leaf) {cs : List Site} {q : Site → Prop}
    (hchain : cs.IsChain fun a b => a.node.isComment = true → q b)
    (hlead : lead ≠ [] → ∀ c ∈ cs.head?, q c) : ∀ p ∈ spaced lead cs, p.lead ≠ [] → q p.site := by
  induction cs generalizing lead with
  | nil => exact fun p hp => absurd hp List.not_mem_nil
  | cons c cs ih =>
    rw [List.isChain_cons] at hchain
    rw [spaced]
    split_ifs with hcomment
    · exact ih _ hchain.2 fun _ d hd => hchain.1 d hd hcomment
    · intro p hp hne
      rcases List.mem_cons.mp hp with rfl | hp
      · exact hlead hne c rfl
      · exact ih [] hchain.2 (fun hnil => absurd rfl hnil) p hp hne

/-- An expression of the grammar, or a part of one. -/
structure Site.IsExpr (s : Site) : Prop where
  grammatical : s.node.Grammatical
  token : s.node.isComment = false
  plain : isDeclOrStmt s.kind = false

structure Spaced.Ok (p : Spaced) : Prop where
  lead : ∀ l ∈ p.lead, l.isComment = true
  expr : p.site.IsExpr

/-- The node with no comments in front of it. -/
def Site.bare (s : Site) : Spaced := ⟨[], s⟩

lemma Site.IsExpr.bare {s : Site} (hs : s.IsExpr) : s.bare.Ok :=
  ⟨fun _ hl => absurd hl List.not_mem_nil, hs⟩

namespace Site

variable {s c : Site}

/-- The children other than comments. -/
def tokens (s : Site) : List Spaced := spaced [] s.children

lemma node_mem_of_mem_children (h : c ∈ s.children) : c.node ∈ s.node.children := by
  rw [← s.map_node_children]
  exact List.mem_map_of_mem h

lemma grammatical_of_mem_children (hs : s.node.Grammatical) (h : c ∈ s.children) :
    c.node.Grammatical :=
  hs.child (node_mem_of_mem_children h)

lemma isExpr_of_mem_children (hs : s.node.Grammatical) (h : c ∈ s.children)
    (htoken : c.node.isComment = false) : c.IsExpr :=
  ⟨grammatical_of_mem_children hs h, htoken, hs.ok.below c.node (node_mem_of_mem_children h)⟩

lemma children_ne_nil (h : s.node.children ≠ []) : s.children ≠ [] := by
  intro hnil
  apply h
  rw [← s.map_node_children, hnil, List.map_nil]

lemma isComment_head_children (hs : s.node.Grammatical) :
    ∀ c ∈ s.children.head?, c.node.isComment = false := by
  intro c hc
  have hnode : c.node ∈ s.node.children.head? := by
    rw [← s.map_node_children, List.head?_map, Option.mem_def.mp hc]
    rfl
  exact (hs.ok.first c.node hnode).1

lemma isComment_getLast_children (hs : s.node.Grammatical) :
    ∀ c ∈ s.children.getLast?, c.node.isComment = false := by
  intro c hc
  have hnode : c.node ∈ s.node.children.getLast? := by
    rw [← s.map_node_children, List.getLast?_map, Option.mem_def.mp hc]
    rfl
  exact (hs.ok.last c.node hnode).1

lemma leaves_eq_tokens (hs : s.node.Grammatical) (h : s.node.children ≠ []) :
    s.leaves = s.tokens.flatMap Spaced.leaves := by
  rw [tokens, flatMap_leaves_spaced (isComment_getLast_children hs) fun _ => rfl, List.nil_append,
    leaves_of_children h]

lemma map_node_filter (s : Site) :
    (s.children.filter fun c => !c.node.isComment).map node = s.node.tokens := by
  have hfilter : (s.children.map node).filter (fun n => !n.isComment) =
      (s.children.filter fun c => !c.node.isComment).map node := List.filter_map
  rw [← hfilter, map_node_children, ExprNode.tokens]

lemma map_node_tokens (s : Site) : s.tokens.map (fun p => p.site.node) = s.node.tokens := by
  rw [← map_node_filter, ← map_site_spaced [], ← tokens, List.map_map]
  rfl

lemma mem_children_of_mem_tokens {p : Spaced} (h : p ∈ s.tokens) :
    p.site ∈ s.children ∧ p.site.node.isComment = false := by
  have hsite : p.site ∈ s.tokens.map Spaced.site := List.mem_map_of_mem h
  rw [tokens, map_site_spaced, List.mem_filter] at hsite
  exact ⟨hsite.1, by simpa using hsite.2⟩

lemma ok_of_mem_tokens (hs : s.node.Grammatical) {p : Spaced} (h : p ∈ s.tokens) : p.Ok := by
  obtain ⟨hmem, htoken⟩ := mem_children_of_mem_tokens h
  refine ⟨?_, isExpr_of_mem_children hs hmem htoken⟩
  apply isComment_of_mem_lead (fun l hl => absurd hl List.not_mem_nil) _ p h
  intro c hc hcomment
  exact ((grammatical_of_mem_children hs hc).ok.comment hcomment).1

lemma nodeCount_lt_of_mem_tokens {p : Spaced} (h : p ∈ s.tokens) :
    p.site.node.nodeCount < s.node.nodeCount :=
  RangedTree.nodeCount_lt_of_mem_children
    (node_mem_of_mem_children (mem_children_of_mem_tokens h).1)

/-- No comment stands in front of the first token. -/
lemma lead_head_tokens (hs : s.node.Grammatical) : ∀ p ∈ s.tokens.head?, p.lead = [] := by
  intro p hp
  cases hchildren : s.children with
  | nil =>
    rw [tokens, hchildren] at hp
    cases hp
  | cons c cs =>
    have hfirst : c.node.isComment = false :=
      isComment_head_children hs c (by rw [hchildren]; rfl)
    rw [tokens, hchildren, spaced, if_neg (by simp [hfirst])] at hp
    cases hp
    rfl

lemma tokens_eq_cons (hs : s.node.Grammatical) {n : ExprNode} {ns : List ExprNode}
    (h : s.node.tokens = n :: ns) : ∃ (first : Site) (ps : List Spaced),
      s.tokens = first.bare :: ps ∧ first.node = n ∧ ps.map (fun p => p.site.node) = ns := by
  obtain ⟨p, ps, htokens, hnode, hrest⟩ := List.map_eq_cons_iff.mp (s.map_node_tokens.trans h)
  have hlead : p.lead = [] := lead_head_tokens hs p (by rw [htokens]; rfl)
  refine ⟨p.site, ps, ?_, hnode, hrest⟩
  rw [htokens, bare, ← hlead]

lemma children_eq_cons (hs : s.node.Grammatical) {ps : List Spaced}
    (h : s.tokens = c.bare :: ps) : ∃ cs, s.children = c :: cs := by
  cases hchildren : s.children with
  | nil =>
    rw [tokens, hchildren] at h
    cases h
  | cons d cs =>
    have hfirst : d.node.isComment = false :=
      isComment_head_children hs d (by rw [hchildren]; rfl)
    rw [tokens, hchildren, spaced, if_neg (by simp [hfirst])] at h
    cases h
    exact ⟨cs, rfl⟩

/-- What no comment is like is found among the tokens. -/
lemma find?_children {q : Site → Bool} (hq : ∀ c ∈ s.children, c.node.isComment = true →
    q c = false) : s.children.find? q = (s.tokens.map Spaced.site).find? q := by
  rw [tokens, map_site_spaced, ← List.head?_filter, ← List.head?_filter, List.filter_filter]
  congr 1
  apply List.filter_congr
  intro c hc
  cases hcomment : c.node.isComment with
  | true => simp [hq c hc hcomment]
  | false => simp

lemma childByField_eq (hs : s.node.Grammatical) (field : FieldName) :
    s.childByField field =
      (s.tokens.map Spaced.site).find? fun c => c.node.label.field = some field := by
  apply find?_children
  intro c hc hcomment
  rw [((grammatical_of_mem_children hs hc).ok.comment hcomment).2]
  rfl

lemma firstChildKind_eq {kind : ExprKind} (hkind : kind ≠ .plain .comment) :
    s.firstChildKind kind = (s.tokens.map Spaced.site).find? fun c => c.kind = kind := by
  apply find?_children
  intro c hc hcomment
  have hcomment : c.kind = .plain .comment := of_decide_eq_true hcomment
  rw [hcomment]
  exact decide_eq_false hkind.symm

end Site

/-- The function writes the leaves, where they do not run into a word. -/
def Emits (go : Output → Output) (leaves : List Leaf) : Prop :=
  ∀ ⦃o : Output⦄ ⦃written todo : List Leaf⦄ ⦃gap : List Char⦄,
    Copied o written (leaves ++ todo) gap → WordsApart written gap leaves → Copied (go o) (written ++ leaves) todo []

/-- The formatter knows the comments of the leaves. -/
def ExprFormatter.Knows (f : ExprFormatter) (leaves : List Leaf) : Prop :=
  ∀ l ∈ leaves, l.isComment = true → l.pending ∈ f.comments

lemma WordsApart.of_starts {written next : List Leaf} {gap : List Char}
    (h : ∀ b ∈ next.head?, startsWithWord b.lexeme = false) : WordsApart written gap next :=
  fun _ _ _ b hb _ => h b hb

lemma WordsApart.of_ends {written next : List Leaf} {gap : List Char}
    (h : ∀ a ∈ written.getLast?, endsWithWord a.lexeme = false) : WordsApart written gap next := by
  intro _ a ha b _ hword
  rw [h a ha] at hword
  cases hword

lemma WordsApart.mono {written next rest : List Leaf} {gap : List Char} (hne : next ≠ [])
    (h : WordsApart written gap (next ++ rest)) : WordsApart written gap next := by
  intro hgap a ha b hb
  apply h hgap a ha b
  rwa [List.head?_append_of_ne_nil _ hne]

lemma WordsApart.append {written next : List Leaf} {gap : List Char} (hne : next ≠ [])
    (h : WordsApart written gap next) (rest : List Leaf) :
    WordsApart written gap (next ++ rest) := by
  intro hgap a ha b hb
  rw [List.head?_append_of_ne_nil _ hne] at hb
  exact h hgap a ha b hb

/-- Comments do not start with a word. -/
lemma WordsApart.lead {written lead next : List Leaf} {gap : List Char}
    (hlead : ∀ l ∈ lead, l.isComment = true) (hok : ∀ l ∈ lead, l.Ok)
    (h : lead = [] → WordsApart written gap next) : WordsApart written gap (lead ++ next) := by
  cases lead with
  | nil => exact h rfl
  | cons c lead =>
    apply WordsApart.of_starts
    intro b hb
    cases hb
    exact (hok _ List.mem_cons_self).comment (hlead _ List.mem_cons_self)

section

variable {o : Output} {written todo : List Leaf} {gap : List Char} {s : Site} {p : Spaced}

lemma Site.leaves_ne_nil (s : Site) : s.leaves ≠ [] := leavesOf_ne_nil _ _

lemma Spaced.leaves_ne_nil (p : Spaced) : p.leaves ≠ [] :=
  List.append_ne_nil_of_right_ne_nil _ p.site.leaves_ne_nil

lemma Site.start_head_leaves (hs : s.node.Grammatical) (todo : List Leaf) :
    ∀ l ∈ (s.leaves ++ todo).head?, l.start = s.node.start := by
  intro l hl
  rw [List.head?_append_of_ne_nil _ s.leaves_ne_nil] at hl
  exact (head?_leavesOf s.node s.prevEndRow hs l hl).1

/-- Up to a node, the comments in front of it are written. -/
lemma Copied.flushToSite (f : Formatter) (hp : p.Ok) (h : Copied o written (p.leaves ++ todo) gap) :
    ∃ gap', Copied (f.flushCommentsBefore p.site.node.start o) (written ++ p.lead)
      (p.site.leaves ++ todo) gap' ∧ (p.lead = [] → gap' = gap) := by
  rw [Spaced.leaves, List.append_assoc] at h
  exact h.flushTo f _ hp.lead (List.append_ne_nil_of_left_ne_nil p.site.leaves_ne_nil _)
    (Site.start_head_leaves hp.expr.grammatical todo)

lemma plain_eq (n : ExprNode) : n.plain = .node n.label.toLabel n.start n.stop
    (ExprNode.plainAll n.children) := by
  cases n
  exact ExprNode.plain.eq_1 _ _ _ _

lemma emits_text (hs : s.IsExpr) (hleaf : s.node.children = []) :
    Emits (fun o => o.emit s.node.label.text) s.leaves := by
  intro o written todo gap h hapart
  have htoken : ∀ l ∈ s.leaves, l.isComment = false ∧ l.lexeme = s.node.label.text := by
    intro l hl
    rw [Site.leaves_of_leaf hleaf, List.mem_singleton] at hl
    have hcomment : l.isComment = false := by
      rw [hl]
      exact hs.token
    refine ⟨hcomment, ?_⟩
    rw [Leaf.lexeme, if_neg (by simp [hcomment]), hl]
  rw [Site.leaves_of_leaf hleaf] at htoken h hapart ⊢
  obtain ⟨hcomment, hlexeme⟩ := htoken _ (List.mem_singleton_self _)
  exact h.token _ hcomment hapart (by rw [hlexeme]; rfl) rfl

/-- Behind a node, no comment of it is left. -/
lemma Copied.consumeCommentsBefore (hs : s.node.Grammatical)
    (h : Copied o (written ++ s.leaves) todo gap) :
    o.consumeCommentsBefore s.node.stop = o := by
  rw [Output.consumeCommentsBefore, h.pending, List.dropWhile_eq_self_iff.mpr, ← h.pending]
  intro hne
  have hbehind : ∀ l ∈ todo, s.node.stop ≤ l.start := by
    intro l hl
    rcases List.eq_nil_or_concat' s.leaves with hleaves | ⟨front, last, hleaves⟩
    · exact absurd hleaves s.leaves_ne_nil
    · have hstop := (getLast?_leavesOf s.node s.prevEndRow hs last
        (by rw [← Site.leaves, hleaves]; exact List.getLast?_concat)).1
      rw [← hstop]
      apply (List.pairwise_append.mp h.source.ordered).2.2 last _ l hl
      rw [hleaves]
      simp
  have hle := le_startByte_of_mem hbehind _ (List.getElem_mem hne)
  simpa using hle

/-- A token is written as it is, behind the comments in front of it. -/
lemma emits_emitToken (f : ExprFormatter) (hp : p.Ok) (hleaf : p.site.node.children = []) :
    Emits (f.emitToken p.site) p.leaves := by
  intro o written todo gap h hapart
  obtain ⟨gap', hflushed, hgap⟩ := h.flushToSite f.toFormatter hp
  have hwritten := emits_text hp.expr hleaf hflushed (hapart.flush hp.lead hgap hflushed)
  have hpresent : p.site.node.plain.label.missing = false := by
    rw [plain_eq]
    exact hp.expr.grammatical.ok.present
  rw [ExprFormatter.emitToken, Formatter.emitVerbatim, if_neg (by simp [hpresent]), plain_eq]
  have hkept := hwritten.consumeCommentsBefore hp.expr.grammatical
  simp only [RangedTree.start, RangedTree.stop, RangedTree.label, ExprLabel.toLabel] at hkept ⊢
  rw [hkept, Spaced.leaves, ← List.append_assoc]
  exact hwritten

/-- What is known of the text in front of the next child, behind a child of such a kind. -/
def Joins (prev : Option Kind) (written : List Leaf) (gap : List Char) (next : List Leaf) : Prop :=
  match prev with
  | none => WordsApart written gap next
  | some kind => (∀ l ∈ written.getLast?, l.isComment = true) ∨
      (endsBare kind = true → ∀ l ∈ written.getLast?, endsWithWord l.lexeme = false)

lemma Joins.flush {prev : Option Kind} {lead next : List Leaf} {gap' : List Char}
    (hlead : ∀ c ∈ lead, c.isComment = true) (hgap : lead = [] → gap' = gap)
    (h : Copied o (written ++ lead) todo gap') (hjoins : Joins prev written gap (lead ++ next)) :
    Joins prev (written ++ lead) gap' next := by
  cases prev with
  | none => exact WordsApart.flush hlead hgap h hjoins
  | some kind =>
    by_cases hnil : lead = []
    · rw [hnil, List.append_nil]
      exact hjoins
    · apply Or.inl
      intro l hl
      rw [List.getLast?_append_of_ne_nil _ hnil] at hl
      exact hlead l (List.mem_of_getLast? hl)

lemma Joins.pad {prev : Option Kind} {next : List Leaf} (h : Joins prev written gap next)
    (blanks : List Char) : Joins prev written (gap ++ blanks) next := by
  cases prev with
  | none => exact WordsApart.pad h blanks
  | some kind => exact h

lemma Joins.mono {prev : Option Kind} {next rest : List Leaf} (hne : next ≠ [])
    (h : Joins prev written gap (next ++ rest)) : Joins prev written gap next := by
  cases prev with
  | none => exact WordsApart.mono hne h
  | some kind => exact h

/-- Where no blank goes between two children, one of them keeps words apart. -/
lemma Copied.emitGap (f : Formatter) (parentKind : Kind) {prev : Option Kind} {ak : Kind}
    {next : List Leaf} (h : Copied o written todo gap) (hjoins : Joins prev written gap next)
    (hstarts : startsBare ak = true → ∀ b ∈ next.head?, startsWithWord b.lexeme = false) :
    ∃ gap', Copied (f.emitGap prev ak parentKind o) written todo gap' ∧
      WordsApart written gap' next := by
  cases prev with
  | none => exact ⟨gap, h, hjoins⟩
  | some bk =>
    unfold Formatter.emitGap
    simp only
    split_ifs with hnewline hgap
    · have hpads := pads_emitIndent f (f.level + 1) o
      obtain ⟨blanks, hpadded⟩ := h.pad hpads
      exact ⟨_, hpadded,
        hpadded.wordsApart_of_blank ((endsBlank_of_endsWith hnewline rfl).pad hpads) next⟩
    · obtain ⟨blanks, hpadded⟩ := h.pad (pads_blank o)
      exact ⟨_, hpadded, hpadded.wordsApart_of_blank (endsBlank_emit o rfl rfl) next⟩
    · refine ⟨gap, h, ?_⟩
      rcases bare_of_gapBetween (by simpa using hgap) with hends | hstart
      · rcases hjoins with hcomment | hbare
        · exact h.wordsApart_of_comment hcomment next
        · exact WordsApart.of_ends (hbare hends)
      · exact WordsApart.of_starts (hstarts hstart)

lemma startsWithWord_leaves (hs : s.node.Grammatical) (hkind : startsBare s.kind.toKind = true) :
    ∀ l ∈ s.leaves.head?, startsWithWord l.lexeme = false :=
  startsWithWord_leavesOf hs hkind s.prevEndRow

lemma endsWithWord_leaves (hs : s.node.Grammatical) (hkind : endsBare s.kind.toKind = true)
    (written : List Leaf) : ∀ l ∈ (written ++ s.leaves).getLast?, endsWithWord l.lexeme = false := by
  rw [List.getLast?_append_of_ne_nil _ s.leaves_ne_nil]
  exact endsWithWord_leavesOf hs hkind s.prevEndRow

variable {below : Below} {f : ExprFormatter} {parentKind : ExprKind}

/-- The loop goes on with the comments that no token has been found for. -/
lemma Copied.formatExprChildren {prev : Option ExprKind} {cs : List Site} (lead : List Leaf)
    (hne : cs ≠ []) (hlast : ∀ c ∈ cs.getLast?, c.node.isComment = false)
    (hok : ∀ c ∈ cs, c.node.Grammatical ∧ (c.node.isComment = false → c.IsExpr))
    (hoperand : ∀ c ∈ cs, c.node.isComment = false → c.node.children ≠ [] →
      Emits (formatOperand below f parentKind c) c.leaves)
    (hlead : ∀ l ∈ lead, l.isComment = true)
    (h : Copied o written (lead ++ (cs.flatMap Site.leaves ++ todo)) gap)
    (hjoins : Joins (prev.map ExprKind.toKind) written gap (lead ++ cs.flatMap Site.leaves)) :
    Copied (formatExprChildren below f parentKind prev cs o)
      (written ++ (lead ++ cs.flatMap Site.leaves)) todo [] := by
  induction cs generalizing prev lead o written gap with
  | nil => exact absurd rfl hne
  | cons c cs ih =>
    obtain ⟨⟨hc, hexpr⟩, hok⟩ := List.forall_mem_cons.mp hok
    obtain ⟨hwrites, hoperand⟩ := List.forall_mem_cons.mp hoperand
    have hlast' : ∀ d ∈ cs.getLast?, d.node.isComment = false := by
      intro d hd
      apply hlast
      rw [List.getLast?_cons, Option.mem_def.mp hd]
      rfl
    rw [List.flatMap_cons, List.append_assoc] at h
    obtain ⟨gap₁, hflushed, hgap⟩ := h.flushTo f.toFormatter c.node.start hlead
      (List.append_ne_nil_of_left_ne_nil c.leaves_ne_nil _)
      (Site.start_head_leaves hc (cs.flatMap Site.leaves ++ todo))
    rw [List.flatMap_cons] at hjoins
    have hjoins₁ := hjoins.flush hlead hgap hflushed
    have hskip : ¬ (c.node.label.missing = true ∨ c.kind = .plain Kind.annotation) := by
      rintro (hmissing | hannotation)
      · rw [hc.ok.present] at hmissing
        cases hmissing
      · exact hc.ok.annotation hannotation
    rw [Formatting.formatExprChildren, if_neg hskip]
    simp only
    by_cases hcomment : c.kind = .plain .comment
    · have hleaf := (hc.ok.comment (decide_eq_true hcomment)).1
      have hcs : cs ≠ [] := by
        rintro rfl
        have htoken : decide (c.kind = .plain .comment) = false := hlast c rfl
        exact absurd hcomment (of_decide_eq_false htoken)
      have hcomments : ∀ l ∈ c.leaves, l.isComment = true := by
        intro l hl
        rw [Site.leaves_of_leaf hleaf, List.mem_singleton] at hl
        rw [hl]
        exact decide_eq_true hcomment
      rw [if_pos hcomment, List.flatMap_cons, ← List.append_assoc]
      exact ih c.leaves hcs hlast' hok hoperand hcomments hflushed hjoins₁
    · have htoken : c.node.isComment = false := decide_eq_false hcomment
      have hc' := hexpr htoken
      rw [if_neg hcomment]
      have hcolon : Pads (f.flushCommentsBefore c.node.start o)
          (if c.kind = .plain .colon then
            Formatter.alignColon (f.flushCommentsBefore c.node.start o)
          else f.flushCommentsBefore c.node.start o) :=
        (pads_alignColon _).ite (pads_refl _)
      obtain ⟨blanks, hcolumn⟩ := hflushed.pad hcolon
      generalize (if c.kind = .plain .colon then
          Formatter.alignColon (f.flushCommentsBefore c.node.start o)
        else f.flushCommentsBefore c.node.start o) = o₁ at hcolumn ⊢
      obtain ⟨gap₂, hgapped, hapart⟩ := hcolumn.emitGap f.toFormatter parentKind.toKind
        ((hjoins₁.mono c.leaves_ne_nil).pad blanks) (startsWithWord_leaves hc)
      have hwritten : Copied
          (if c.node.children.isEmpty then
            f.emitToken c (f.emitGap (prev.map ExprKind.toKind) c.kind.toKind parentKind.toKind o₁)
          else formatOperand below f parentKind c
            (f.emitGap (prev.map ExprKind.toKind) c.kind.toKind parentKind.toKind o₁))
          (written ++ lead ++ c.leaves) (cs.flatMap Site.leaves ++ todo) [] := by
        split_ifs with hleaf
        · exact emits_emitToken f hc'.bare (List.isEmpty_iff.mp hleaf) hgapped hapart
        · exact hwrites htoken (fun hnil => hleaf (List.isEmpty_iff.mpr hnil)) hgapped hapart
      rw [List.flatMap_cons, ← List.append_assoc lead, ← List.append_assoc,
        ← List.append_assoc]
      by_cases hcs : cs = []
      · subst hcs
        rw [List.flatMap_nil, List.append_nil, Formatting.formatExprChildren]
        exact hwritten
      · refine ih [] hcs hlast' hok hoperand (fun l hl => absurd hl List.not_mem_nil)
          hwritten (Or.inr fun hkind => ?_)
        exact endsWithWord_leaves hc hkind _

/-- A node with children is written, as soon as its children are. -/
lemma emits_formatAll (hs : s.node.Grammatical) (hne : s.node.children ≠ [])
    (hoperand : ∀ c ∈ s.children, c.node.isComment = false → c.node.children ≠ [] →
      Emits (formatOperand below f s.kind c) c.leaves) :
    Emits (formatAll below f s) s.leaves := by
  intro o written todo gap h hapart
  rw [Site.leaves_of_children hne] at h hapart ⊢
  exact Copied.formatExprChildren [] (Site.children_ne_nil hne)
    (Site.isComment_getLast_children hs)
    (fun c hc => ⟨Site.grammatical_of_mem_children hs hc, Site.isExpr_of_mem_children hs hc⟩)
    hoperand (fun l hl => absurd hl List.not_mem_nil) h hapart

end

end WitcherScriptLanguage.Formatting
