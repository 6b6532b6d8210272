import WitcherScriptLanguage.Formatter.CallLayouts

/-!
# The text of statements without a body

Whatever the formatter decides about lines, it writes the tokens and the comments of an expression
in the order of the source, words apart and line comments ended (`format_node` in
`formatter/core.rs`, `format_stmt` in `formatter/statements/mod.rs`).
-/

namespace WitcherScriptLanguage.Formatting

open Library

section

variable {o : Output} {written todo : List Leaf} {gap : List Char} {s : Site} {p : Spaced}
  {below : Below} {bound : Nat} {f : ExprFormatter} (other : ExprFormatter → Site → Output → Output)

/-- The step from the formatters below. -/
lemma emits_formatNode (hsound : below.Sound bound) (hp : p.Ok)
    (hcount : p.site.node.nodeCount ≤ bound + 1) (hknows : f.Knows p.leaves) :
    Emits (formatNode below f other p.site) p.leaves := by
  obtain ⟨hlead, hs⟩ := hp
  have hok := hs.grammatical.ok
  have hknows' : f.Knows p.site.leaves := hknows.mono (List.subset_append_right _ _) rfl
  intro o written todo gap h hapart
  obtain ⟨gap', hflushed, hgap⟩ := h.flushToSite f.toFormatter ⟨hlead, hs⟩
  have hapart' := hapart.flush hlead hgap hflushed
  unfold formatNode
  rw [if_neg (by simp [hok.present])]
  simp only
  rw [if_neg (show p.site.kind ≠ .plain .error from hok.error), Spaced.leaves, ← List.append_assoc]
  split_ifs with hleaf hternary hcall hdecl
  · exact emits_text hs (List.isEmpty_iff.mp hleaf) hflushed hapart'
  · exact emits_formatTernary hsound hs hternary (fun hnil => hleaf (List.isEmpty_iff.mpr hnil))
      hcount hknows' hflushed hapart'
  · exact emits_formatCall hsound hs hcall (fun hnil => hleaf (List.isEmpty_iff.mpr hnil))
      hcount hknows' hflushed hapart'
  · rw [hs.plain] at hdecl
    cases hdecl
  · exact emits_formatAll_of_sound hsound hs.grammatical
      (fun hnil => hleaf (List.isEmpty_iff.mpr hnil)) hcount hknows' hflushed hapart'

lemma children_ne_nil_of_ternary (hs : s.IsExpr) (hkind : s.kind = .plain .ternaryCondExpr) :
    s.node.children ≠ [] := by
  intro hnil
  have hshape := hs.grammatical.ok.shape
  have hkind : s.node.label.kind = .plain .ternaryCondExpr := hkind
  have htokens : s.node.tokens = [] := by
    rw [ExprNode.tokens, hnil]
    rfl
  rw [ExprNode.shape, hkind] at hshape
  simp only [htokens] at hshape
  cases hshape

lemma nodeCount_pos (n : ExprNode) : 0 < n.nodeCount := by
  cases n
  rw [RangedTree.nodeCount]
  omega

/-- By induction on the size of the trees, the formatters write what they are given. -/
lemma sound_formatters (rounds : Nat) : (formatters other rounds).Sound rounds := by
  induction rounds with
  | zero =>
    refine ⟨fun f p _ hcount => ?_, fun f wrap s _ _ hcount => ?_⟩
    · have hpos := nodeCount_pos p.site.node
      omega
    · have hpos := nodeCount_pos s.node
      omega
  | succ rounds ih =>
    refine ⟨fun f p hp hcount hknows => ?_, fun f wrap s hs hkind hcount hknows => ?_⟩
    · exact emits_formatNode other ih hp hcount hknows
    · exact emits_formatTernaryWith ih wrap hs hkind (children_ne_nil_of_ternary hs hkind) hcount
        hknows

lemma hasErrorAmong_eq_false {cs : List ExprNode} (h : ∀ c ∈ cs, c.hasError = false) :
    ExprNode.hasErrorAmong cs = false := by
  induction cs with
  | nil => rfl
  | cons c cs ih =>
    obtain ⟨hc, hcs⟩ := List.forall_mem_cons.mp h
    rw [ExprNode.hasErrorAmong, hc, ih hcs]
    rfl

lemma hasError_eq_false : ∀ n : ExprNode, n.Grammatical → n.hasError = false
  | .node label start stop children, h => by
    have hbelow : ∀ c ∈ children, ExprNode.hasError c = false :=
      fun c hc => hasError_eq_false c (h.child hc)
    have hpresent : label.missing = false := h.ok.present
    have herror : label.kind ≠ .plain .error := h.ok.error
    rw [ExprNode.hasError, hasErrorAmong_eq_false hbelow, hpresent, decide_eq_false herror]
    rfl

/-- What the formatter of a statement without a body may be called on. -/
structure ExprNode.IsStmt (stmt : ExprNode) : Prop where
  grammatical : stmt.Grammatical
  token : stmt.isComment = false
  children : stmt.children ≠ []
  kind : stmt.label.kind = .plain .exprStmt ∨ isDeclOrStmt stmt.label.kind = false

lemma Copied.endLine (h : Copied o written todo []) : Copied o.nl written todo ['\n'] := by
  refine ⟨?_, h.pending, h.source⟩
  exact h.toShows.pad fun c hc => by
    rw [List.mem_singleton.mp hc]
    rfl

/-- An expression statement is its expression and the semicolon. -/
lemma children_of_exprStmt (hs : s.node.Grammatical) (hkind : s.kind = .plain .exprStmt) :
    ∃ value semicolon, s.children = [value, semicolon] ∧ value.node.label.named = true ∧
      value.kind ≠ .plain .semicolon ∧ semicolon.kind = .plain .semicolon ∧
      semicolon.node.children = [] ∧ semicolon.node.label.text = [';'] := by
  have hshape := hs.ok.shape
  have hkind : s.node.label.kind = .plain .exprStmt := hkind
  have hmap := s.map_node_children
  rw [ExprNode.shape, hkind] at hshape
  simp only at hshape
  split at hshape
  · rename_i value semicolon hchildren
    rw [hchildren] at hmap
    obtain ⟨value, cs₁, hcs₁, rfl, hcs₁'⟩ := List.map_eq_cons_iff.mp hmap
    obtain ⟨semicolon, cs₂, rfl, rfl, hcs₂⟩ := List.map_eq_cons_iff.mp hcs₁'
    obtain rfl := List.map_eq_nil_iff.mp hcs₂
    simp only [ExprNode.isToken, Bool.and_eq_true, decide_eq_true_eq, List.isEmpty_iff] at hshape
    obtain ⟨⟨⟨hnamed, hvalue⟩, hsemicolon, hleaf⟩, htext⟩ := hshape
    exact ⟨value, semicolon, hcs₁, hnamed, hvalue, hsemicolon, hleaf, htext⟩
  · cases hshape

lemma Copied.formatExprStmt (hs : s.node.IsStmt) (hkind : s.kind = .plain .exprStmt)
    (hknows : f.Knows s.leaves) (h : Copied o written (s.leaves ++ todo) gap)
    (hapart : WordsApart written gap s.leaves) :
    Copied (formatExprStmt other f s o) (written ++ s.leaves) todo ['\n'] := by
  obtain ⟨value, semicolon, hchildren, hnamed, hvalueKind, hsemicolon, hleaf, htext⟩ :=
    children_of_exprStmt hs.grammatical hkind
  have hsound := sound_formatters other s.node.nodeCount
  have hmem : ∀ c ∈ s.children, c.node ∈ s.node.children :=
    fun c hc => Site.node_mem_of_mem_children hc
  have hleaves := Site.leaves_of_children hs.children
  have htoken := Site.isComment_head_children hs.grammatical value (by rw [hchildren]; rfl)
  rw [hchildren] at hmem hleaves
  rw [List.flatMap_cons, List.flatMap_singleton] at hleaves
  have hvalue : value.IsExpr :=
    Site.isExpr_of_mem_children hs.grammatical (by rw [hchildren]; simp) htoken
  have hsemi : semicolon.IsExpr := by
    apply Site.isExpr_of_mem_children hs.grammatical (by rw [hchildren]; simp)
    apply decide_eq_false
    rw [show semicolon.node.label.kind = .plain .semicolon from hsemicolon]
    exact nofun
  have hfirst : s.namedChildren.head? = some value := by
    simp [Site.namedChildren, hchildren, hnamed]
  have hsecond : s.firstChildKind (.plain .semicolon) = some semicolon := by
    rw [Site.firstChildKind, hchildren]
    simp [hvalueKind, hsemicolon]
  have hlt := RangedTree.nodeCount_lt_of_mem_children (hmem value List.mem_cons_self)
  obtain ⟨blanks, hindented⟩ := h.pad (pads_emitIndent f.toFormatter f.level o)
  rw [hleaves, List.append_assoc] at hindented
  have hpart : value.leaves ⊆ s.leaves := by
    rw [hleaves]
    exact List.subset_append_left _ _
  rw [hleaves] at hapart
  have hwritten := emits_formatOperand (f := f.withLineEnd (statementLineEnd s)) hsound s.kind
    hvalue hlt.le (hknows.mono hpart rfl) hindented
    ((hapart.mono value.leaves_ne_nil).pad blanks)
  have hended := emits_text hsemi hleaf hwritten (WordsApart.of_starts
    (startsWithWord_leaves hsemi.grammatical (by rw [hsemicolon]; rfl)))
  rw [htext] at hended
  have hpresent : semicolon.node.label.missing = false := hsemi.grammatical.ok.present
  unfold Formatting.formatExprStmt
  simp only [hfirst, hsecond, Option.any_some, hpresent, Bool.not_false, if_true]
  rw [hleaves, ← List.append_assoc]
  exact hended.endLine

/-- A statement without a body, behind the comments in front of it, is written token by token; its
line is ended. -/
theorem formatStmt_copies (lead : List Leaf) (hlead : ∀ l ∈ lead, l.isComment = true)
    (hs : s.node.IsStmt) (hknows : f.Knows s.leaves)
    (h : Copied o written (lead ++ (s.leaves ++ todo)) gap)
    (hapart : WordsApart written gap (lead ++ s.leaves)) :
    Copied (formatStmt other f s o) (written ++ (lead ++ s.leaves)) todo ['\n'] := by
  obtain ⟨gap', hflushed, hgap⟩ := h.flushTo f.toFormatter s.node.start hlead
    (List.append_ne_nil_of_left_ne_nil s.leaves_ne_nil _)
    (Site.start_head_leaves hs.grammatical todo)
  have hapart' := hapart.flush hlead hgap hflushed
  unfold formatStmt
  rw [hasError_eq_false _ hs.grammatical, ← List.append_assoc]
  simp only [Bool.false_eq_true, if_false]
  split_ifs with hkind
  · exact hflushed.formatExprStmt other hs hkind hknows hapart'
  · obtain ⟨blanks, hindented⟩ := hflushed.pad (pads_emitIndent f.toFormatter f.level _)
    have hwritten := emits_formatAll_of_sound (f := f.withLineEnd (statementLineEnd s))
      (sound_formatters other s.node.nodeCount) hs.grammatical hs.children (Nat.le_succ _)
      (hknows.mono (List.Subset.refl _) rfl) hindented (hapart'.pad blanks)
    exact hwritten.endLine

end

/-- The statement `f(a, // c` with `b);` on the next line. -/
def sampleStmt : Site where
  node := .node ⟨.plain .exprStmt, none, true, "f(a, // c\nb);".toList, 0, 1, false⟩ 0 13
    [.node ⟨.plain .funcCallExpr, none, true, "f(a, // c\nb)".toList, 0, 1, false⟩ 0 12
      [.node ⟨.plain .ident, some .func, true, ['f'], 0, 0, false⟩ 0 1 [],
        .node ⟨.plain .openParen, none, false, ['('], 0, 0, false⟩ 1 2 [],
        .node ⟨.plain .funcCallArgs, some .args, true, "a, // c\nb".toList, 0, 1, false⟩ 2 11
          [.node ⟨.plain .ident, none, true, ['a'], 0, 0, false⟩ 2 3 [],
            .node ⟨.plain .comma, none, false, [','], 0, 0, false⟩ 3 4 [],
            .node ⟨.plain .comment, none, true, "// c".toList, 0, 0, false⟩ 5 9 [],
            .node ⟨.plain .ident, none, true, ['b'], 1, 1, false⟩ 10 11 []],
        .node ⟨.plain .closeParen, none, false, [')'], 1, 1, false⟩ 11 12 []],
      .node ⟨.plain .semicolon, none, false, [';'], 1, 1, false⟩ 12 13 []]
  above := []
  prevEndRow := none

def sampleFormatter : ExprFormatter where
  toFormatOptions := ⟨false, 2, 80⟩
  level := 0
  colon := .compact
  alignMemberColons := false
  annotationPlacement := .preserve
  defaultPlacement := .preserve
  comments := commentsOf sampleStmt.node.plain

lemma isStmt_sampleStmt : sampleStmt.node.IsStmt :=
  ⟨by decide, by decide, by decide, by decide⟩

/-- The comment ends its line, so that each argument gets one. -/
theorem formatStmt_copies_sampleStmt :
    Copied (formatStmt (fun _ _ o => o) sampleFormatter sampleStmt
      { out := [], comments := sampleFormatter.comments }) sampleStmt.leaves [] ['\n'] ∧
    (formatStmt (fun _ _ o => o) sampleFormatter sampleStmt
      { out := [], comments := sampleFormatter.comments }).out =
      ("f(\n  a, // c\n  b\n);\n").toList :=
  ⟨formatStmt_copies (fun _ _ o => o) [] (by decide) isStmt_sampleStmt
    (by unfold ExprFormatter.Knows; decide)
    (copied_start (show Source sampleStmt.leaves by decide))
    (fun _ _ ha => absurd ha (Option.not_mem_none _)), by rfl⟩

end WitcherScriptLanguage.Formatting
