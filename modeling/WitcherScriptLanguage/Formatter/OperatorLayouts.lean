import WitcherScriptLanguage.Formatter.ExpressionWalk

/-!
# Layouts of operators

Broken chains of operators and broken conditional expressions (`formatter/expressions/chain.rs` and
`ternary.rs`) write the leaves of their nodes, as soon as the formatters below do.
-/

namespace WitcherScriptLanguage.Formatting

open Library

/-- The formatters below write the leaves of nodes of such a size. -/
structure Below.Sound (below : Below) (bound : Nat) : Prop where
  node : ∀ (f : ExprFormatter) (p : Spaced), p.Ok → p.site.node.nodeCount ≤ bound →
    f.Knows p.leaves → Emits (below.node f p.site) p.leaves
  ternary : ∀ (f : ExprFormatter) (wrap : OverflowWrap) (s : Site), s.IsExpr →
    s.kind = .plain .ternaryCondExpr → s.node.nodeCount ≤ bound → f.Knows s.leaves →
    Emits (below.ternary wrap f s) s.leaves

lemma ExprFormatter.Knows.mono {f g : ExprFormatter} {leaves part : List Leaf}
    (h : f.Knows leaves) (hsub : part ⊆ leaves) (hcomments : g.comments = f.comments) :
    g.Knows part := by
  intro l hl hcomment
  rw [hcomments]
  exact h l (hsub hl) hcomment

lemma Source.sublist {before part after : List Leaf}
    (h : Source (before ++ (part ++ after))) : Source part := by
  refine ⟨fun l hl => h.ok l (by simp [hl]), ?_, ?_⟩
  · exact (List.pairwise_append.mp (List.pairwise_append.mp h.ordered).2.1).1
  · exact (List.isChain_append.mp (List.isChain_append.mp h.lines).2.1).1

section

variable {o : Output} {written todo : List Leaf} {gap : List Char} {s : Site} {p : Spaced}
  {below : Below} {bound : Nat} {f : ExprFormatter}

lemma Below.Sound.bare (h : below.Sound bound) (hs : s.IsExpr) (hcount : s.node.nodeCount ≤ bound)
    (hknows : f.Knows s.leaves) : Emits (below.node f s) s.leaves :=
  h.node f s.bare hs.bare hcount hknows

/-- The parts of a chain and the leaves that they stand for, each operator one leaf. -/
inductive ChainSpells : List ChainPart → List Leaf → Prop
  | last (part : ChainPart) : ChainSpells [part] part.operand.leaves
  | link {part next : ChainPart} {parts : List ChainPart} {leaves : List Leaf} {op : ChainOp}
      {l : Leaf} (hop : part.op = some op) (hl : l.lexeme = op.text) (htoken : l.isComment = false)
      (hrest : ChainSpells (next :: parts) leaves) :
      ChainSpells (part :: next :: parts) (part.operand.leaves ++ l :: leaves)

lemma ChainSpells.append {front parts : List ChainPart} {last last' next : ChainPart}
    {leaves leaves' : List Leaf} {op : ChainOp} {l : Leaf} (h : ChainSpells (front ++ [last]) leaves)
    (hoperand : last'.operand = last.operand) (hop : last'.op = some op) (hl : l.lexeme = op.text)
    (htoken : l.isComment = false) (h' : ChainSpells (next :: parts) leaves') :
    ChainSpells (front ++ last' :: next :: parts) (leaves ++ l :: leaves') := by
  induction front generalizing leaves with
  | nil =>
    cases h with
    | last =>
      rw [← hoperand]
      exact .link hop hl htoken h'
  | cons part front ih =>
    cases front with
    | nil =>
      cases h with
      | link hop₁ hl₁ htoken₁ hrest =>
        rw [List.append_assoc, List.cons_append]
        exact .link hop₁ hl₁ htoken₁ (ih hrest)
    | cons part₁ front =>
      cases h with
      | link hop₁ hl₁ htoken₁ hrest =>
        rw [List.append_assoc, List.cons_append]
        exact .link hop₁ hl₁ htoken₁ (ih hrest)

lemma ChainSpells.linkLast {parts parts' : List ChainPart} {leaves leaves' : List Leaf}
    {link : BinaryLink} {l : Leaf} (h : ChainSpells parts leaves) (h' : ChainSpells parts' leaves')
    (hl : l.lexeme = link.op.text) (htoken : l.isComment = false) :
    ChainSpells (linkLast parts link ++ parts') (leaves ++ l :: leaves') := by
  rcases List.eq_nil_or_concat' parts with rfl | ⟨front, last, rfl⟩
  · cases h
  · rcases parts' with _ | ⟨next, parts'⟩
    · cases h'
    · simp only [Formatting.linkLast, List.getLast?_concat, List.dropLast_concat,
        List.append_assoc, List.singleton_append]
      apply h.append _ _ hl htoken h'
      · rfl
      · rfl

lemma operand_of_mem_linkLast {parts : List ChainPart} {link : BinaryLink} {part : ChainPart}
    (h : part ∈ linkLast parts link) : ∃ q ∈ parts, part.operand = q.operand := by
  rcases List.eq_nil_or_concat' parts with rfl | ⟨front, last, rfl⟩
  · cases h
  · simp only [linkLast, List.getLast?_concat, List.dropLast_concat] at h
    rcases List.mem_append.mp h with h | h
    · exact ⟨part, List.mem_append_left _ h, rfl⟩
    · rw [List.mem_singleton.mp h]
      exact ⟨last, List.mem_append_right _ (List.mem_singleton_self last), rfl⟩

lemma map_lexeme_leavesOf (n : ExprNode) (prevEndRow : Option Nat) :
    (leavesOf prevEndRow n).map Leaf.lexeme = (leavesOf none n).map Leaf.lexeme := by
  by_cases h : n.children = []
  · rw [leavesOf_of_leaf h, leavesOf_of_leaf h]
    rfl
  · rw [leavesOf_of_children h, leavesOf_of_children h]

/-- A link of a chain takes all tokens of its node. -/
lemma tokens_of_binaryLink {link : BinaryLink} (hs : s.IsExpr) (h : binaryLink s = some link) :
    (∃ lead₁ lead₂, s.tokens = [link.left.bare, ⟨lead₁, link.opNode⟩, ⟨lead₂, link.right⟩]) ∧
      link.opNode.leaves.map Leaf.lexeme = [link.op.text] := by
  have hshape := hs.grammatical.ok.shape
  have hfields := Site.childByField_eq hs.grammatical
  unfold binaryLink at h
  split_ifs at h with hkind
  have hkind : s.node.label.kind = .plain .binaryOpExpr := not_not.mp hkind
  rw [ExprNode.shape, hkind] at hshape
  simp only at hshape
  split at hshape
  · rename_i left op right htokens
    obtain ⟨left, ps₁, htok, rfl, hps₁⟩ := Site.tokens_eq_cons hs.grammatical htokens
    obtain ⟨⟨lead₁, op⟩, ps₂, rfl, rfl, hps₂⟩ := List.map_eq_cons_iff.mp hps₁
    obtain ⟨⟨lead₂, right⟩, ps₃, rfl, rfl, hps₃⟩ := List.map_eq_cons_iff.mp hps₂
    obtain rfl := List.map_eq_nil_iff.mp hps₃
    simp only [Bool.and_eq_true, ExprNode.hasField, decide_eq_true_eq] at hshape
    obtain ⟨⟨⟨hleft, hop⟩, hright⟩, htext⟩ := hshape
    have hfind : ∀ field, s.childByField field =
        [left, op, right].find? fun c => c.node.label.field = some field := by
      intro field
      rw [hfields, htok]
      rfl
    have hopNode : s.childByField .op = some op := by simp [hfind, hleft, hop]
    have hleftNode : s.childByField .left = some left := by simp [hfind, hleft]
    have hrightNode : s.childByField .right = some right := by simp [hfind, hleft, hop, hright]
    simp only [hopNode, hleftNode, hrightNode, Option.bind_some, Option.map_some] at h
    have hlexeme : op.leaves.map Leaf.lexeme = (leavesOf none op.node).map Leaf.lexeme :=
      map_lexeme_leavesOf op.node op.prevEndRow
    rw [Site.kind] at h
    split at h
    · rename_i chainOp hchainOp
      cases h
      rw [hchainOp] at htext
      exact ⟨⟨lead₁, lead₂, htok⟩, hlexeme.trans (of_decide_eq_true htext)⟩
    · cases h
  · cases hshape

lemma Spaced.leaves_subset (h : p ∈ s.tokens) (hs : s.node.Grammatical)
    (hne : s.node.children ≠ []) : p.leaves ⊆ s.leaves := by
  intro l hl
  rw [Site.leaves_eq_tokens hs hne]
  exact List.mem_flatMap.mpr ⟨p, h, hl⟩

lemma Spaced.leaves_of_uncommented (hp : p.Ok) (h : ∀ l ∈ p.leaves, l.isComment = false) :
    p.leaves = p.site.leaves := by
  have hlead : p.lead = [] := by
    apply List.eq_nil_iff_forall_not_mem.mpr
    intro l hl
    have htoken := h l (List.mem_append_left _ hl)
    rw [hp.lead l hl] at htoken
    cases htoken
  rw [Spaced.leaves, hlead, List.nil_append]

lemma Site.children_ne_nil_of_tokens (h : s.tokens ≠ []) : s.node.children ≠ [] := by
  intro hnil
  apply h
  have hchildren : s.children = [] := by
    rw [Site.children, hnil]
    rfl
  rw [Site.tokens, hchildren]
  rfl

/-- The operand is a part of the node. -/
structure PartOf (s operand : Site) : Prop where
  expr : operand.IsExpr
  count : operand.node.nodeCount ≤ s.node.nodeCount
  leaves : operand.leaves ⊆ s.leaves

lemma PartOf.trans {inner operand : Site} (h : PartOf s inner) (h' : PartOf inner operand) :
    PartOf s operand :=
  ⟨h'.expr, h'.count.trans h.count, List.Subset.trans h'.leaves h.leaves⟩

lemma partOf_of_mem_tokens (hs : s.node.Grammatical) (h : p ∈ s.tokens) : PartOf s p.site := by
  refine ⟨(Site.ok_of_mem_tokens hs h).expr, (Site.nodeCount_lt_of_mem_tokens h).le, ?_⟩
  intro l hl
  have hne := Site.children_ne_nil_of_tokens (List.ne_nil_of_mem h)
  exact Spaced.leaves_subset h hs hne (List.mem_append_right _ hl)

/-- Without comments among them, the leaves of a link are those of its operands and one more. -/
lemma leaves_of_binaryLink {link : BinaryLink} (hs : s.IsExpr)
    (hnone : ∀ l ∈ s.leaves, l.isComment = false) (h : binaryLink s = some link) :
    PartOf s link.left ∧ PartOf s link.right ∧ ∃ l : Leaf, l.lexeme = link.op.text ∧
      l.isComment = false ∧ s.leaves = link.left.leaves ++ l :: link.right.leaves := by
  obtain ⟨⟨lead₁, lead₂, htokens⟩, hop⟩ := tokens_of_binaryLink hs h
  have hne : s.node.children ≠ [] := by
    apply Site.children_ne_nil_of_tokens
    rw [htokens]
    exact List.cons_ne_nil _ _
  have hbare : ∀ p ∈ s.tokens, PartOf s p.site ∧ p.leaves = p.site.leaves := by
    intro p hp
    have hsub := Spaced.leaves_subset hp hs.grammatical hne
    exact ⟨partOf_of_mem_tokens hs.grammatical hp, Spaced.leaves_of_uncommented
      (Site.ok_of_mem_tokens hs.grammatical hp) fun l hl => hnone l (hsub hl)⟩
  have hleaves := Site.leaves_eq_tokens hs.grammatical hne
  rw [htokens] at hbare hleaves
  simp only [List.forall_mem_cons, List.flatMap_cons, List.flatMap_nil, List.append_nil]
    at hbare hleaves
  obtain ⟨⟨hleft, hleftLeaves⟩, ⟨hopNode, hopLeaves⟩, ⟨hright, hrightLeaves⟩, -⟩ := hbare
  obtain ⟨l, hl, hlexeme⟩ := List.map_eq_singleton_iff.mp hop
  refine ⟨hleft, hright, l, hlexeme, hnone l (hopNode.leaves ?_), ?_⟩
  · rw [hl]
    exact List.mem_singleton_self l
  · rw [hleaves, hleftLeaves, hopLeaves, hrightLeaves, hl]
    rfl

lemma chainSpells_single (hs : s.IsExpr) : ChainSpells [{ operand := s }] s.leaves ∧
    ∀ part ∈ [({ operand := s } : ChainPart)], PartOf s part.operand := by
  refine ⟨.last { operand := s }, fun part hpart => ?_⟩
  rw [List.mem_singleton.mp hpart]
  exact ⟨hs, le_refl _, List.Subset.refl _⟩

/-- Without comments among them, the parts of a chain take all leaves. -/
lemma collectChainParts_spells (rounds : Nat) (hs : s.IsExpr)
    (hnone : ∀ l ∈ s.leaves, l.isComment = false) :
    ChainSpells (collectChainParts rounds s) s.leaves ∧
      ∀ part ∈ collectChainParts rounds s, PartOf s part.operand := by
  induction rounds generalizing s with
  | zero => exact chainSpells_single hs
  | succ rounds ih =>
    rw [collectChainParts]
    split
    · rename_i link hlink
      obtain ⟨hleft, hright, l, hlexeme, htoken, hleaves⟩ := leaves_of_binaryLink hs hnone hlink
      obtain ⟨hspells, hparts⟩ := ih hleft.expr fun l hl => hnone l (hleft.leaves hl)
      obtain ⟨hspells', hparts'⟩ := ih hright.expr fun l hl => hnone l (hright.leaves hl)
      refine ⟨?_, fun part hpart => ?_⟩
      · rw [hleaves]
        exact hspells.linkLast hspells' hlexeme htoken
      · rcases List.mem_append.mp hpart with hpart | hpart
        · obtain ⟨q, hq, hoperand⟩ := operand_of_mem_linkLast hpart
          rw [hoperand]
          exact hleft.trans (hparts q hq)
        · exact hright.trans (hparts' part hpart)
    · exact chainSpells_single hs

/-- The operator of a link keeps words apart on both sides. -/
lemma Copied.emitChainLink (f : ExprFormatter) {l : Leaf} {op : ChainOp}
    (layout : ChainLinkLayout) (h : Copied o written (l :: todo) gap) (hl : l.lexeme = op.text)
    (htoken : l.isComment = false) :
    ∃ gap', Copied (emitChainLink f op layout o) (written ++ [l]) todo gap' ∧
      EndsBlank (emitChainLink f op layout o) := by
  have hlink : ∀ {before after : Output}, Pads o before → EndsBlank before →
      Pads (before.emit op.text) after → EndsBlank after →
      ∃ gap', Copied after (written ++ [l]) todo gap' ∧ EndsBlank after := by
    intro before after hbefore hblank hafter hends
    obtain ⟨blanks, hpadded⟩ := h.pad hbefore
    have hwritten := hpadded.token (before.emit op.text) htoken
      (hpadded.wordsApart_of_blank hblank [l]) (by rw [hl]; rfl) rfl
    obtain ⟨blanks', hpadded'⟩ := hwritten.pad hafter
    exact ⟨_, hpadded', hends⟩
  have hindent : ∀ o : Output, Pads o (f.emitIndent f.level o.nl) ∧
      EndsBlank (f.emitIndent f.level o.nl) := fun o =>
    ⟨(pads_nl o).trans (pads_emitIndent _ _ _),
      EndsBlank.pad (endsBlank_emit o rfl rfl) (pads_emitIndent _ _ _)⟩
  cases layout with
  | sameLine =>
    exact hlink (pads_blank o) (endsBlank_emit o rfl rfl) (pads_blank _) (endsBlank_emit _ rfl rfl)
  | leadingBreak =>
    exact hlink (hindent o).1 (hindent o).2 (pads_blank _) (endsBlank_emit _ rfl rfl)
  | trailingBreak =>
    exact hlink (pads_blank o) (endsBlank_emit o rfl rfl) (hindent _).1 (hindent _).2

lemma emits_formatChainOperand (hsound : below.Sound bound) (f : ExprFormatter)
    (placement : OperatorPlacement) (part : ChainPart) (parts : List ChainPart)
    (hpart : part.operand.IsExpr) (hcount : part.operand.node.nodeCount ≤ bound)
    (hnone : ∀ l ∈ part.operand.leaves, l.isComment = false) :
    Emits (formatChainOperand below f placement (part :: parts)) part.operand.leaves := by
  have hknows : ∀ f : ExprFormatter, f.Knows part.operand.leaves := by
    intro f l hl hcomment
    rw [hnone l hl] at hcomment
    cases hcomment
  unfold formatChainOperand
  simp only
  split
  · exact hsound.bare hpart hcount (hknows _)
  · exact hsound.bare hpart hcount (hknows _)

/-- The chain, whose first operand may be written on another level. -/
lemma emits_emitChainLinks (hsound : below.Sound bound) (f : ExprFormatter)
    (placement : OperatorPlacement) {parts : List ChainPart} {leaves : List Leaf}
    (h : ChainSpells parts leaves) (hparts : ∀ part ∈ parts, part.operand.IsExpr ∧
      part.operand.node.nodeCount ≤ bound ∧ ∀ l ∈ part.operand.leaves, l.isComment = false)
    (first : ExprFormatter) :
    Emits (fun o => emitChainLinks below f placement parts
      (formatChainOperand below first placement parts o)) leaves := by
  induction h generalizing first with
  | last part =>
    obtain ⟨hexpr, hcount, hnone⟩ := hparts part (List.mem_singleton_self part)
    exact emits_formatChainOperand hsound first placement part [] hexpr hcount hnone
  | @link part next parts leaves op l hop hl htoken hrest ih =>
    obtain ⟨⟨hexpr, hcount, hnone⟩, hparts⟩ := List.forall_mem_cons.mp hparts
    intro o written todo gap h hapart
    rw [List.append_assoc, List.cons_append] at h
    have hoperand := emits_formatChainOperand hsound first placement part (next :: parts) hexpr
      hcount hnone h (hapart.mono part.operand.leaves_ne_nil)
    obtain ⟨gap', hlinked, hblank⟩ := hoperand.emitChainLink f
      (.of part.breakAfter placement) hl htoken
    have hwritten := ih hparts f hlinked (hlinked.wordsApart_of_blank hblank leaves)
    simp only [emitChainLinks, hop]
    rwa [List.append_assoc, List.singleton_append, List.append_assoc] at hwritten

/-- A node holds its leaves. -/
lemma Site.range_leaves (hs : s.node.Grammatical) (hsource : Source s.leaves) :
    ∀ l ∈ s.leaves, s.node.start ≤ l.start ∧ l.start < s.node.stop := by
  intro l hl
  have hlt := (hsource.ok l hl).start_lt_stop
  constructor
  · rcases hleaves : s.leaves with _ | ⟨first, rest⟩
    · exact absurd hleaves s.leaves_ne_nil
    · have hstart : first.start = s.node.start :=
        (head?_leavesOf s.node s.prevEndRow hs first (by rw [← Site.leaves, hleaves]; rfl)).1
      rw [hleaves] at hl hsource
      rcases List.mem_cons.mp hl with rfl | hl
      · exact hstart.ge
      · have hfront : Source ([] ++ first :: rest) := hsource
        have hbehind := hfront.le_start l hl
        have hfirst := (hsource.ok first List.mem_cons_self).start_lt_stop
        omega
  · rcases List.eq_nil_or_concat' s.leaves with hleaves | ⟨front, last, hleaves⟩
    · exact absurd hleaves s.leaves_ne_nil
    · have hstop : last.stop = s.node.stop :=
        (getLast?_leavesOf s.node s.prevEndRow hs last
          (by rw [← Site.leaves, hleaves]; exact List.getLast?_concat)).1
      rw [hleaves] at hl hsource
      rcases List.mem_append.mp hl with hl | hl
      · have hbefore := (List.pairwise_append.mp hsource.ordered).2.2 l hl last
          (List.mem_singleton_self last)
        have hlast := (hsource.ok last (List.mem_append_right _ (List.mem_singleton_self last)))
        have hlastlt := hlast.start_lt_stop
        omega
      · rw [List.mem_singleton.mp hl] at hlt ⊢
        omega

/-- All comments of a node are seen. -/
lemma isComment_of_hasInteriorComment (hs : s.node.Grammatical) (hknows : f.Knows s.leaves)
    (hsource : Source s.leaves) (h : f.hasInteriorComment s.node = false) :
    ∀ l ∈ s.leaves, l.isComment = false := by
  intro l hl
  by_contra hcomment
  have hmem := hknows l hl (by simpa using hcomment)
  have hout := List.any_eq_false.mp h _ hmem
  obtain ⟨hstart, hstop⟩ := Site.range_leaves hs hsource l hl
  apply hout
  rw [Bool.and_eq_true]
  exact ⟨decide_eq_true hstart, decide_eq_true hstop⟩

/-- A chain that is broken has no comments inside. -/
lemma brokenChain_eq_some {operand : Site} {parentKind : ExprKind} {parts : List ChainPart}
    (h : brokenChain f operand parentKind = some parts) :
    f.hasInteriorComment operand.node = false ∧ parts = splitBinaryChain operand := by
  unfold brokenChain at h
  split_ifs at h with hkind hbreak
  rw [not_or, not_or] at hkind
  exact ⟨by simpa using hkind.2.2, (Option.some.inj h).symm⟩

lemma emits_formatOperand (hsound : below.Sound bound) (parentKind : ExprKind) (hs : s.IsExpr)
    (hcount : s.node.nodeCount ≤ bound) (hknows : f.Knows s.leaves) :
    Emits (formatOperand below f parentKind s) s.leaves := by
  intro o written todo gap h hapart
  unfold formatOperand
  split
  · rename_i parts hchain
    obtain ⟨hinterior, rfl⟩ := brokenChain_eq_some hchain
    have hnone := isComment_of_hasInteriorComment hs.grammatical hknows h.source.sublist hinterior
    obtain ⟨hspells, hparts⟩ := collectChainParts_spells s.node.nodeCount hs hnone
    refine emits_emitChainLinks hsound f.indented _ hspells (fun part hpart => ?_) f h hapart
    have hpart := hparts part hpart
    exact ⟨hpart.expr, hpart.count.trans hcount, fun l hl => hnone l (hpart.leaves hl)⟩
  · exact hsound.bare hs hcount hknows h hapart

/-- What the formatters below rely on at a token. -/
structure Ready (bound : Nat) (f : ExprFormatter) (p : Spaced) : Prop where
  ok : p.Ok
  count : p.site.node.nodeCount ≤ bound
  knows : f.Knows p.leaves

lemma ready_of_mem_tokens (hs : s.node.Grammatical) (hcount : s.node.nodeCount ≤ bound + 1)
    (hknows : f.Knows s.leaves) : ∀ p ∈ s.tokens, Ready bound f p := by
  intro p hp
  have hne := Site.children_ne_nil_of_tokens (List.ne_nil_of_mem hp)
  have hlt := Site.nodeCount_lt_of_mem_tokens hp
  exact ⟨Site.ok_of_mem_tokens hs hp, by omega,
    hknows.mono (Spaced.leaves_subset hp hs hne) rfl⟩

lemma emits_formatAll_of_sound (hsound : below.Sound bound) (hs : s.node.Grammatical)
    (hne : s.node.children ≠ []) (hcount : s.node.nodeCount ≤ bound + 1)
    (hknows : f.Knows s.leaves) : Emits (formatAll below f s) s.leaves := by
  apply emits_formatAll hs hne
  intro c hc htoken _
  have hlt := RangedTree.nodeCount_lt_of_mem_children (Site.node_mem_of_mem_children hc)
  apply emits_formatOperand hsound _ (Site.isExpr_of_mem_children hs hc htoken) (by omega)
  apply hknows.mono _ rfl
  intro l hl
  rw [Site.leaves_of_children hne]
  exact List.mem_flatMap.mpr ⟨c, hc, hl⟩

/-- A conditional expression takes all tokens of its node. -/
lemma tokens_of_ternaryParts {parts : TernaryParts} (hs : s.IsExpr)
    (hkind : s.kind = .plain .ternaryCondExpr) (h : ternaryParts s = some parts) :
    (∃ lead₁ lead₂ lead₃ lead₄, s.tokens = [parts.cond.bare, ⟨lead₁, parts.question⟩,
        ⟨lead₂, parts.conseq⟩, ⟨lead₃, parts.colon⟩, ⟨lead₄, parts.alt⟩]) ∧
      parts.question.node.children = [] ∧ parts.colon.node.children = [] := by
  have hshape := hs.grammatical.ok.shape
  have hfields := Site.childByField_eq hs.grammatical
  have hkinds : ∀ {kind}, kind ≠ .plain .comment → s.firstChildKind kind =
      (s.tokens.map Spaced.site).find? fun c => c.kind = kind := Site.firstChildKind_eq
  have hkind : s.node.label.kind = .plain .ternaryCondExpr := hkind
  rw [ExprNode.shape, hkind] at hshape
  simp only at hshape
  split at hshape
  · rename_i cond question conseq colon alt htokens
    obtain ⟨cond, ps₁, htok, rfl, hps₁⟩ := Site.tokens_eq_cons hs.grammatical htokens
    obtain ⟨⟨lead₁, question⟩, ps₂, rfl, rfl, hps₂⟩ := List.map_eq_cons_iff.mp hps₁
    obtain ⟨⟨lead₂, conseq⟩, ps₃, rfl, rfl, hps₃⟩ := List.map_eq_cons_iff.mp hps₂
    obtain ⟨⟨lead₃, colon⟩, ps₄, rfl, rfl, hps₄⟩ := List.map_eq_cons_iff.mp hps₃
    obtain ⟨⟨lead₄, alt⟩, ps₅, rfl, rfl, hps₅⟩ := List.map_eq_cons_iff.mp hps₄
    obtain rfl := List.map_eq_nil_iff.mp hps₅
    simp only [ExprNode.hasField, ExprNode.isToken, Bool.and_eq_true, decide_eq_true_eq,
      List.isEmpty_iff, Option.isNone_iff_eq_none, List.all_cons, List.all_nil] at hshape
    obtain ⟨⟨⟨⟨⟨⟨⟨hcond, hconseq⟩, halt⟩, hquestion, hquestionLeaf⟩, hcolon, hcolonLeaf⟩,
      hquestionField⟩, hcolonField⟩, ⟨hcond', hcond''⟩, ⟨hconseq', hconseq''⟩, -⟩ := hshape
    have hcondNode : s.childByField .cond = some cond := by
      simp [hfields, htok, Site.bare, hcond]
    have hquestionNode : s.firstChildKind .question = some question := by
      simp [hkinds, htok, Site.bare, Site.kind, hcond', hquestion]
    have hconseqNode : s.childByField .conseq = some conseq := by
      simp [hfields, htok, Site.bare, hcond, hquestionField, hconseq]
    have hcolonNode : s.firstChildKind (.plain .colon) = some colon := by
      simp [hkinds, htok, Site.bare, Site.kind, hcond'', hquestion, hconseq'', hcolon]
    have haltNode : s.childByField .alt = some alt := by
      simp [hfields, htok, Site.bare, hcond, hquestionField, hconseq, hcolonField, halt]
    unfold ternaryParts at h
    split_ifs at h
    rw [hcondNode, hquestionNode, hconseqNode, hcolonNode, haltNode] at h
    cases h
    exact ⟨⟨lead₁, lead₂, lead₃, lead₄, htok⟩, hquestionLeaf, hcolonLeaf⟩
  · cases hshape

lemma emits_emitTernaryOperand (hsound : below.Sound bound) (wrap : OverflowWrap) (hs : s.IsExpr)
    (hcount : s.node.nodeCount ≤ bound) (hknows : f.Knows s.leaves) :
    Emits (emitTernaryOperand below f wrap s) s.leaves := by
  intro o written todo gap h hapart
  unfold emitTernaryOperand
  split_ifs with hkind
  · exact hsound.ternary f wrap s hs hkind hcount hknows h hapart
  · exact emits_formatOperand hsound _ hs hcount hknows h hapart

/-- A token on a line of its own, and the operand behind it. -/
lemma Copied.emitTernaryLink (hsound : below.Sound bound) (wrap : OverflowWrap)
    {token operand : Spaced} (htoken : token.Ok) (hleaf : token.site.node.children = [])
    (hoperand : operand.Ok) (hcount : operand.site.node.nodeCount ≤ bound)
    (hknows : f.Knows operand.leaves)
    (h : Copied o written (token.leaves ++ (operand.leaves ++ todo)) gap) :
    Copied (emitTernaryLink below f wrap token.site operand.site o)
      (written ++ token.leaves ++ operand.leaves) todo [] := by
  obtain ⟨gap₁, hflushed, -⟩ := h.flushToSite f.toFormatter htoken
  obtain ⟨blanks₁, hbroken⟩ := hflushed.pad (pads_breakToIndentedLine f _)
  have hwritten := emits_text htoken.expr hleaf hbroken
    (hbroken.wordsApart_of_blank (endsBlank_breakToIndentedLine f _) _)
  obtain ⟨gap₂, hnext, -⟩ := hwritten.flushToSite f.toFormatter hoperand
  unfold Formatting.emitTernaryLink
  simp only
  generalize f.flushCommentsBefore operand.site.node.start _ = o₁ at hnext ⊢
  have hspaced : Pads o₁ (if o₁.endsWith '\n' then f.emitIndent f.level o₁ else o₁.emit [' ']) ∧
      EndsBlank (if o₁.endsWith '\n' then f.emitIndent f.level o₁ else o₁.emit [' ']) := by
    split_ifs with hnewline
    · have hpads := pads_emitIndent f.toFormatter f.level o₁
      exact ⟨hpads, (endsBlank_of_endsWith hnewline rfl).pad hpads⟩
    · exact ⟨pads_blank o₁, endsBlank_emit o₁ rfl rfl⟩
  obtain ⟨blanks₂, hpadded⟩ := hnext.pad hspaced.1
  have hdone := emits_emitTernaryOperand hsound wrap hoperand.expr hcount
    (hknows.mono (List.subset_append_right _ _) rfl) hpadded
    (hpadded.wordsApart_of_blank hspaced.2 _)
  rw [Spaced.leaves, Spaced.leaves, ← List.append_assoc, ← List.append_assoc]
  exact hdone

lemma emits_formatTernaryWith (hsound : below.Sound bound) (wrap : OverflowWrap) (hs : s.IsExpr)
    (hkind : s.kind = .plain .ternaryCondExpr) (hne : s.node.children ≠ [])
    (hcount : s.node.nodeCount ≤ bound + 1) (hknows : f.Knows s.leaves) :
    Emits (formatTernaryWith below f wrap s) s.leaves := by
  have hall := emits_formatAll_of_sound hsound hs.grammatical hne hcount hknows
  intro o written todo gap h hapart
  unfold formatTernaryWith
  split
  · rename_i parts hparts
    split_ifs
    · obtain ⟨⟨lead₁, lead₂, lead₃, lead₄, htokens⟩, hquestion, hcolon⟩ :=
        tokens_of_ternaryParts hs hkind hparts
      have hready := ready_of_mem_tokens hs.grammatical hcount hknows
      have hleaves := Site.leaves_eq_tokens hs.grammatical hne
      rw [htokens] at hready hleaves
      simp only [List.forall_mem_cons, List.flatMap_cons, List.flatMap_nil, List.append_nil]
        at hready hleaves
      obtain ⟨hcond, htoken₁, hconseq, htoken₂, halt, -⟩ := hready
      rw [hleaves] at h hapart ⊢
      simp only [List.append_assoc] at h
      have hfirst := emits_emitTernaryOperand (f := f.withLineEnd (.after parts.cond 0)) hsound wrap
        hcond.ok.expr hcond.count (hcond.knows.mono (List.subset_append_right _ _) rfl) h
        (hapart.mono parts.cond.leaves_ne_nil)
      have hsecond := hfirst.emitTernaryLink hsound wrap htoken₁.ok hquestion hconseq.ok
        hconseq.count (f := f.indented.withLineEnd (.after parts.conseq 0))
        (hconseq.knows.mono (List.Subset.refl _) rfl)
      have hthird := hsecond.emitTernaryLink hsound wrap htoken₂.ok hcolon halt.ok halt.count
        (f := f.indented) (halt.knows.mono (List.Subset.refl _) rfl)
      simp only [List.append_assoc] at hthird
      exact hthird
    · exact hall h hapart
  · exact hall h hapart

lemma emits_formatTernary (hsound : below.Sound bound) (hs : s.IsExpr)
    (hkind : s.kind = .plain .ternaryCondExpr) (hne : s.node.children ≠ [])
    (hcount : s.node.nodeCount ≤ bound + 1) (hknows : f.Knows s.leaves) :
    Emits (formatTernary below f s) s.leaves :=
  emits_formatTernaryWith hsound _ hs hkind hne hcount hknows

end

end WitcherScriptLanguage.Formatting
