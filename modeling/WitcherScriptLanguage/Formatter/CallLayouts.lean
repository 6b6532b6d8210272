import WitcherScriptLanguage.Formatter.OperatorLayouts

/-!
# Layouts of calls

Calls whose arguments go on lines of their own, and fluent chains of calls
(`formatter/expressions/call.rs` and `fluent.rs`), write the leaves of their nodes, as soon as the
formatters below do.
-/

namespace WitcherScriptLanguage.Formatting

open Library

/-- The tokens of a call behind its function. -/
structure CallParts.Tokens (parts : CallParts) (opening : Spaced) (args : Option Spaced)
    (closing : Spaced) : Prop where
  openingSite : opening.site = parts.opening
  argsSite : args.map Spaced.site = parts.args
  closingSite : closing.site = parts.closing
  openParen : parts.opening.kind = .plain .openParen ∧ parts.opening.node.children = []
  closeParen : parts.closing.kind = .plain .closeParen ∧ parts.closing.node.children = []
  argsKind : ∀ a ∈ args, a.site.kind = .plain .funcCallArgs ∧ a.site.node.children ≠ []
  commaFirst : ∀ a ∈ args, a.lead ≠ [] → ∀ c ∈ a.site.children.head?, c.kind ≠ .plain .comma

section

variable {o : Output} {written todo : List Leaf} {gap : List Char} {s : Site} {p : Spaced}
  {below : Below} {bound : Nat} {f : ExprFormatter}

lemma commaFirst_of_mem_tokens (hs : s.node.Grammatical) (hp : p ∈ s.tokens) (hne : p.lead ≠ [])
    (hkind : p.site.kind = .plain .funcCallArgs) :
    ∀ c ∈ p.site.children.head?, c.kind ≠ .plain .comma := by
  have hchain := hs.ok.commaFirst
  rw [← s.map_node_children, List.isChain_map] at hchain
  have hnode := of_mem_spaced [] (q := fun b => b.node.label.kind = .plain .funcCallArgs →
    ∀ c ∈ b.node.children.head?, c.label.kind ≠ .plain .comma) hchain (fun h => absurd rfl h) p hp
    hne hkind
  intro c hc
  apply hnode c.node
  rw [← p.site.map_node_children, List.head?_map, Option.mem_def.mp hc]
  rfl

/-- A call takes all tokens of its node. -/
lemma tokens_of_callParts {parts : CallParts} (hs : s.IsExpr)
    (hkind : s.kind = .plain .funcCallExpr) (h : callParts s = some parts) :
    ∃ opening args closing, parts.Tokens opening args closing ∧
      s.tokens = parts.func.bare :: opening :: (args.toList ++ [closing]) := by
  have hshape := hs.grammatical.ok.shape
  have hfields := Site.childByField_eq hs.grammatical
  have hkinds : ∀ {kind}, kind ≠ .plain .comment → s.firstChildKind kind =
      (s.tokens.map Spaced.site).find? fun c => c.kind = kind := Site.firstChildKind_eq
  have hcomma := fun p => commaFirst_of_mem_tokens (p := p) hs.grammatical
  have hkind : s.node.label.kind = .plain .funcCallExpr := hkind
  unfold callParts at h
  split_ifs at h
  rw [ExprNode.shape, hkind] at hshape
  simp only at hshape
  split at hshape
  · rename_i func opening rest htokens
    obtain ⟨func, ps₁, htok, rfl, hps₁⟩ := Site.tokens_eq_cons hs.grammatical htokens
    obtain ⟨⟨lead₁, opening⟩, ps₂, rfl, rfl, hps₂⟩ := List.map_eq_cons_iff.mp hps₁
    rw [Bool.and_eq_true] at hshape
    obtain ⟨hhead, hrest⟩ := hshape
    simp only [ExprNode.hasField, ExprNode.isToken, Bool.and_eq_true, decide_eq_true_eq,
      List.isEmpty_iff, Option.isNone_iff_eq_none] at hhead
    obtain ⟨⟨⟨⟨hfunc, hfunc'⟩, hfunc''⟩, hopening, hopeningLeaf⟩, hopeningField⟩ := hhead
    have hfuncNode : s.childByField .func = some func := by
      simp [hfields, htok, Site.bare, hfunc]
    have hopeningNode : s.firstChildKind (.plain .openParen) = some opening := by
      simp [hkinds, htok, Site.bare, Site.kind, hfunc', hopening]
    split at hrest
    · rename_i closing
      obtain ⟨⟨lead₂, closing⟩, ps₃, rfl, rfl, hps₃⟩ := List.map_eq_cons_iff.mp hps₂
      obtain rfl := List.map_eq_nil_iff.mp hps₃
      simp only [ExprNode.isToken, Bool.and_eq_true, decide_eq_true_eq,
        List.isEmpty_iff, Option.isNone_iff_eq_none] at hrest
      obtain ⟨⟨hclosing, hclosingLeaf⟩, hclosingField⟩ := hrest
      have hclosingNode : s.firstChildKind (.plain .closeParen) = some closing := by
        simp [hkinds, htok, Site.bare, Site.kind, hfunc'', hopening, hclosing]
      have hargsNode : s.childByField .args = none := by
        simp [hfields, htok, Site.bare, hfunc, hopeningField, hclosingField]
      rw [hfuncNode, hopeningNode, hclosingNode, hargsNode] at h
      cases h
      refine ⟨⟨lead₁, opening⟩, none, ⟨lead₂, closing⟩, ⟨rfl, rfl, rfl, ⟨hopening, hopeningLeaf⟩,
        ⟨hclosing, hclosingLeaf⟩, fun _ ha => absurd ha (Option.not_mem_none _),
        fun _ ha => absurd ha (Option.not_mem_none _)⟩, htok⟩
    · rename_i args closing
      obtain ⟨⟨lead₂, args⟩, ps₃, rfl, rfl, hps₃⟩ := List.map_eq_cons_iff.mp hps₂
      obtain ⟨⟨lead₃, closing⟩, ps₄, rfl, rfl, hps₄⟩ := List.map_eq_cons_iff.mp hps₃
      obtain rfl := List.map_eq_nil_iff.mp hps₄
      simp only [ExprNode.hasField, ExprNode.isToken, Bool.and_eq_true, decide_eq_true_eq,
        List.isEmpty_iff, Option.isNone_iff_eq_none, Bool.not_eq_true', List.isEmpty_eq_false_iff]
        at hrest
      obtain ⟨⟨⟨⟨hargs, hargsKind⟩, hargsNe⟩, hclosing, hclosingLeaf⟩, hclosingField⟩ := hrest
      have hargsNode : s.childByField .args = some args := by
        simp [hfields, htok, Site.bare, hfunc, hopeningField, hargs]
      have hclosingNode : s.firstChildKind (.plain .closeParen) = some closing := by
        simp [hkinds, htok, Site.bare, Site.kind, hfunc'', hopening, hargsKind, hclosing]
      rw [hfuncNode, hopeningNode, hclosingNode, hargsNode] at h
      cases h
      refine ⟨⟨lead₁, opening⟩, some ⟨lead₂, args⟩, ⟨lead₃, closing⟩, ⟨rfl, rfl, rfl,
        ⟨hopening, hopeningLeaf⟩, ⟨hclosing, hclosingLeaf⟩, ?_, ?_⟩, htok⟩
      · rintro a ⟨⟩
        exact ⟨hargsKind, hargsNe⟩
      · rintro a ⟨⟩ hne
        exact hcomma ⟨lead₂, args⟩ (by rw [htok]; simp) hne hargsKind
    · cases hrest
  · cases hshape

def Site.isComma (s : Site) : Prop := s.kind = .plain .comma

lemma isChain_args (hs : s.node.Grammatical) (hkind : s.kind = .plain .funcCallArgs) :
    ((s.children.filter fun c => !c.node.isComment).IsChain fun a b => a.isComma ∨ b.isComma) ∧
      ∀ c ∈ s.children, c.isComma → c.node.children = [] ∧ c.node.label.text = [','] := by
  have hshape := hs.ok.shape
  have hkind : s.node.label.kind = .plain .funcCallArgs := hkind
  rw [ExprNode.shape, hkind] at hshape
  simp only [Bool.and_eq_true, decide_eq_true_eq] at hshape
  rw [← s.map_node_filter, List.isChain_map] at hshape
  refine ⟨hshape.1, fun c hc hcomma => ?_⟩
  have htoken : c.node.isComment = false := by
    apply decide_eq_false
    rw [show c.node.label.kind = .plain .comma from hcomma]
    decide
  have hall := List.all_eq_true.mp hshape.2 c.node
    (List.mem_map_of_mem (List.mem_filter.mpr ⟨hc, by rw [htoken]; rfl⟩))
  rw [show c.node.label.kind = .plain .comma from hcomma] at hall
  simpa using hall

/-- What the loop over the arguments knows of a child. -/
structure ArgReady (bound : Nat) (f : ExprFormatter) (c : Site) : Prop where
  grammatical : c.node.Grammatical
  expr : c.node.isComment = false → c.IsExpr
  count : c.node.nodeCount ≤ bound
  knows : f.Knows c.leaves
  comma : c.isComma → c.node.children = [] ∧ c.node.label.text = [',']

lemma Copied.comma (hc : s.IsExpr) (hleaf : s.node.children = [])
    (htext : s.node.label.text = [',']) (h : Copied o written (s.leaves ++ todo) gap) :
    Copied (o.emit [',']) (written ++ s.leaves) todo [] := by
  rw [← htext]
  apply emits_text hc hleaf h
  apply WordsApart.of_starts
  rw [Site.leaves_of_leaf hleaf]
  rintro l ⟨⟩
  have htoken : (⟨s.node.label, s.node.start, s.node.stop, s.prevEndRow⟩ : Leaf).isComment = false :=
    hc.token
  rw [Leaf.lexeme, if_neg (by simp [htoken])]
  rw [htext]
  rfl

/-- The comments in front of the first argument are still to be written. No line is due in front
of a comma only. -/
lemma Copied.emitArgLines (hsound : below.Sound bound) {cs : List Site} (lead : List Leaf)
    (pending : Bool) (hcs : ∀ c ∈ cs, ArgReady bound f c)
    (hchain : (cs.filter fun c => !c.node.isComment).IsChain fun a b => a.isComma ∨ b.isComma)
    (hpending : pending = false →
      ∀ c ∈ (cs.filter fun c => !c.node.isComment).head?, c.isComma)
    (hlead : ∀ l ∈ lead, l.isComment = true) (hfirst : lead ≠ [] → ∃ c cs', cs = c :: cs' ∧
      c.node.isComment = false ∧ ¬ c.isComma)
    (h : Copied o written (lead ++ (cs.flatMap Site.leaves ++ todo)) gap) :
    ∃ gap', Copied (emitArgLines below f pending cs o)
      (written ++ (lead ++ cs.flatMap Site.leaves)) todo gap' := by
  induction cs generalizing o written gap lead pending with
  | nil =>
    have hnil : lead = [] := by
      by_contra hne
      obtain ⟨c, cs', hcs', -⟩ := hfirst hne
      cases hcs'
    subst hnil
    refine ⟨gap, ?_⟩
    rw [Formatting.emitArgLines, List.flatMap_nil, List.append_nil, List.append_nil]
    exact h
  | cons c cs ih =>
    obtain ⟨hc, hcs⟩ := List.forall_mem_cons.mp hcs
    rw [List.flatMap_cons, List.append_assoc] at h
    rw [Formatting.emitArgLines, List.flatMap_cons]
    by_cases hcomment : c.kind = .plain .comment
    · have hnode : c.node.isComment = true := decide_eq_true hcomment
      have hnil : lead = [] := by
        by_contra hne
        obtain ⟨d, cs', hcons, htoken, -⟩ := hfirst hne
        cases hcons
        rw [hnode] at htoken
        cases htoken
      subst hnil
      have hleaves := Site.leaves_of_leaf (hc.grammatical.ok.comment hnode).1
      rw [List.filter_cons_of_neg (by simp [hnode])] at hchain hpending
      rw [List.nil_append, hleaves, List.singleton_append] at h
      obtain ⟨gap', hflushed, -⟩ := Copied.flush f.toFormatter c.node.stop
        [⟨c.node.label, c.node.start, c.node.stop, c.prevEndRow⟩]
        (fun l hl => by rw [List.mem_singleton.mp hl]; exact hnode)
        (fun l hl => by
          rw [List.mem_singleton.mp hl]
          exact (h.source.ok _ (List.mem_append_right _ List.mem_cons_self)).start_lt_stop)
        h.source.le_start h
      obtain ⟨gap'', hrest⟩ := ih [] pending hcs hchain hpending
        (fun l hl => absurd hl List.not_mem_nil) (fun hne => absurd rfl hne) hflushed
      rw [if_pos hcomment, List.nil_append, hleaves, ← List.append_assoc]
      exact ⟨gap'', hrest⟩
    · have htoken : c.node.isComment = false := decide_eq_false hcomment
      rw [List.filter_cons_of_pos (by simp [htoken])] at hchain hpending
      have hnext := (List.isChain_cons.mp hchain).1
      rw [if_neg hcomment]
      by_cases hcomma : c.kind = .plain .comma
      · have hnil : lead = [] := by
          by_contra hne
          obtain ⟨d, cs', hcons, -, harg⟩ := hfirst hne
          cases hcons
          exact harg hcomma
        subst hnil
        obtain ⟨hleaf, htext⟩ := hc.comma hcomma
        have hpads : Pads o (if pending then f.breakToIndentedLine o else o) :=
          (pads_breakToIndentedLine f o).ite (pads_refl o)
        obtain ⟨blanks, hpadded⟩ := h.pad hpads
        have hwritten := hpadded.comma (hc.expr htoken) hleaf htext
        obtain ⟨gap', hrest⟩ := ih [] true hcs
          (List.isChain_cons.mp hchain).2 Bool.noConfusion (fun l hl => absurd hl List.not_mem_nil)
          (fun hne => absurd rfl hne) hwritten
        rw [if_pos hcomma, List.nil_append, ← List.append_assoc]
        exact ⟨gap', hrest⟩
      · have hdue : pending = true := by
          by_contra hpend
          exact hcomma (hpending (by simpa using hpend) c rfl)
        subst hdue
        obtain ⟨gap₁, hflushed, -⟩ := h.flushTo f.toFormatter c.node.start hlead
          (List.append_ne_nil_of_left_ne_nil c.leaves_ne_nil _)
          (Site.start_head_leaves hc.grammatical (cs.flatMap Site.leaves ++ todo))
        obtain ⟨blanks, hbroken⟩ := hflushed.pad (pads_breakToIndentedLine f _)
        have hwritten := emits_formatOperand (f := f.withLineEnd (argLineEnd c cs)) hsound
          (.plain .funcCallArgs) (hc.expr htoken) hc.count
          (hc.knows.mono (List.Subset.refl _) rfl) hbroken
          (hbroken.wordsApart_of_blank (endsBlank_breakToIndentedLine f _) _)
        obtain ⟨gap', hrest⟩ := ih [] false hcs
          (List.isChain_cons.mp hchain).2
          (fun _ d hd => (hnext d hd).resolve_left hcomma)
          (fun l hl => absurd hl List.not_mem_nil) (fun hne => absurd rfl hne) hwritten
        rw [if_neg hcomma, ← List.append_assoc lead, ← List.append_assoc, ← List.append_assoc]
        exact ⟨gap', hrest⟩

/-- The leaves of a call behind its function. -/
def CallParts.Spells (bound : Nat) (f : ExprFormatter) (parts : CallParts) (leaves : List Leaf) :
    Prop :=
  ∃ opening args closing, parts.Tokens opening args closing ∧
    (∀ p ∈ opening :: (args.toList ++ [closing]), Ready bound f p) ∧
    leaves = opening.leaves ++ (args.toList.flatMap Spaced.leaves ++ closing.leaves)

lemma Ready.mono {g : ExprFormatter} (h : Ready bound f p) (hcomments : g.comments = f.comments) :
    Ready bound g p :=
  ⟨h.ok, h.count, h.knows.mono (List.Subset.refl _) hcomments⟩

lemma argReady_of_mem (h : Ready bound f p) (hkind : p.site.kind = .plain .funcCallArgs)
    (hne : p.site.node.children ≠ []) : ∀ c ∈ p.site.children, ArgReady bound f.indented c := by
  intro c hc
  have hs := h.ok.expr.grammatical
  have hlt := RangedTree.nodeCount_lt_of_mem_children (Site.node_mem_of_mem_children hc)
  refine ⟨Site.grammatical_of_mem_children hs hc, Site.isExpr_of_mem_children hs hc,
    hlt.le.trans h.count, h.knows.mono ?_ rfl, (isChain_args hs hkind).2 c hc⟩
  intro l hl
  rw [Spaced.leaves, Site.leaves_of_children hne]
  exact List.mem_append_right _ (List.mem_flatMap.mpr ⟨c, hc, hl⟩)

/-- In front of a bracket or a dot, and of the comments in front of it, no word goes on. -/
lemma Spaced.wordsApart (hp : p.Ok) (hok : ∀ l ∈ p.leaves, l.Ok)
    (hkind : startsBare p.site.kind.toKind = true) : WordsApart written gap p.leaves :=
  WordsApart.lead hp.lead (fun l hl => hok l (List.mem_append_left _ hl)) fun _ =>
    WordsApart.of_starts (startsWithWord_leaves hp.expr.grammatical hkind)

lemma Copied.ok_todo (h : Copied o written todo gap) : ∀ l ∈ todo, l.Ok :=
  fun l hl => h.source.ok l (List.mem_append_right _ hl)

/-- The closing bracket goes on a line of its own. -/
lemma Copied.closeArgs (hp : p.Ok) (hleaf : p.site.node.children = [])
    (h : Copied o written (p.leaves ++ todo) gap) :
    Copied (f.emitToken p.site (f.emitIndent f.level
      (if (f.flushCommentsBefore p.site.node.start o).endsWith '\n' then
        f.flushCommentsBefore p.site.node.start o
      else (f.flushCommentsBefore p.site.node.start o).nl))) (written ++ p.leaves) todo [] := by
  obtain ⟨gap', hflushed, -⟩ := h.flushToSite f.toFormatter hp
  obtain ⟨blanks, hpadded⟩ := hflushed.pad (pads_breakToIndentedLine f _)
  rw [Spaced.leaves, ← List.append_assoc]
  exact emits_emitToken f hp.expr.bare hleaf hpadded
    (hpadded.wordsApart_of_blank (endsBlank_breakToIndentedLine f _) _)

lemma emits_emitSplitArgs {parts : CallParts} {leaves : List Leaf} (hsound : below.Sound bound)
    (hparts : parts.Spells bound f leaves) : Emits (emitSplitArgs below f parts) leaves := by
  obtain ⟨opening, args, closing, htokens, hready, rfl⟩ := hparts
  obtain ⟨hopening, hready⟩ := List.forall_mem_cons.mp hready
  have hclosing := hready closing (List.mem_append_right _ (List.mem_singleton_self closing))
  have hopeningLeaf := htokens.openParen.2
  have hclosingLeaf := htokens.closeParen.2
  rw [← htokens.openingSite] at hopeningLeaf
  rw [← htokens.closingSite] at hclosingLeaf
  intro o written todo gap h hapart
  rw [List.append_assoc, List.append_assoc] at h
  have hopened := emits_emitToken f hopening.ok hopeningLeaf h
    (hapart.mono opening.leaves_ne_nil)
  unfold emitSplitArgs
  simp only
  rw [← htokens.openingSite, ← htokens.closingSite, ← htokens.argsSite, ← List.append_assoc,
    ← List.append_assoc]
  cases args with
  | none =>
    have hdone := hopened.closeArgs (f := f) hclosing.ok hclosingLeaf
    simpa using hdone
  | some a =>
    obtain ⟨hkind, hne⟩ := htokens.argsKind a rfl
    have ha := hready a (by simp)
    have hs := ha.ok.expr.grammatical
    simp only [Option.toList_some, List.flatMap_cons, List.flatMap_nil, List.append_nil,
      Option.map_some] at hopened ⊢
    have hfirst : a.lead ≠ [] → ∃ c cs, a.site.children = c :: cs ∧ c.node.isComment = false ∧
        ¬ c.isComma := by
      intro hlead
      rcases hchildren : a.site.children with _ | ⟨c, cs⟩
      · exact absurd hchildren (Site.children_ne_nil hne)
      · exact ⟨c, cs, rfl, Site.isComment_head_children hs c (by rw [hchildren]; rfl),
          htokens.commaFirst a rfl hlead c (by rw [hchildren]; rfl)⟩
    have hleaves : a.leaves = a.lead ++ a.site.children.flatMap Site.leaves := by
      rw [Spaced.leaves, Site.leaves_of_children hne]
    rw [hleaves, List.append_assoc] at hopened
    obtain ⟨gap', hargs⟩ := hopened.emitArgLines hsound a.lead true
      (argReady_of_mem ha hkind hne) (isChain_args hs hkind).1 Bool.noConfusion ha.ok.lead hfirst
    rw [hleaves]
    exact hargs.closeArgs hclosing.ok hclosingLeaf

lemma emits_emitInlineArgs {parts : CallParts} {leaves : List Leaf} (hsound : below.Sound bound)
    (hparts : parts.Spells bound f leaves) : Emits (emitInlineArgs below f parts) leaves := by
  obtain ⟨opening, args, closing, htokens, hready, rfl⟩ := hparts
  obtain ⟨hopening, hready⟩ := List.forall_mem_cons.mp hready
  have hclosing := hready closing (List.mem_append_right _ (List.mem_singleton_self closing))
  obtain ⟨hopeningKind, hopeningLeaf⟩ := htokens.openParen
  obtain ⟨hclosingKind, hclosingLeaf⟩ := htokens.closeParen
  rw [← htokens.openingSite] at hopeningKind hopeningLeaf
  rw [← htokens.closingSite] at hclosingKind hclosingLeaf
  intro o written todo gap h hapart
  rw [List.append_assoc, List.append_assoc] at h
  have hok := h.ok_todo
  have hopened := emits_emitToken f hopening.ok hopeningLeaf h
    (hapart.mono opening.leaves_ne_nil)
  have hclosed : ∀ (written : List Leaf) (gap : List Char), WordsApart written gap closing.leaves :=
    fun written gap => Spaced.wordsApart hclosing.ok (fun l hl => hok l (by simp [hl]))
      (by rw [hclosingKind]; rfl)
  unfold emitInlineArgs
  simp only
  rw [← htokens.openingSite, ← htokens.closingSite, ← htokens.argsSite, ← List.append_assoc,
    ← List.append_assoc]
  cases args with
  | none =>
    have hdone := emits_emitToken f hclosing.ok hclosingLeaf hopened (hclosed _ _)
    simpa using hdone
  | some a =>
    have ha := hready a (by simp)
    simp only [Option.toList_some, List.flatMap_cons, List.flatMap_nil, List.append_nil,
      Option.map_some] at hopened ⊢
    have hargs := hsound.node f a ha.ok ha.count ha.knows hopened (WordsApart.of_ends ?_)
    · exact emits_emitToken f hclosing.ok hclosingLeaf hargs (hclosed _ _)
    · rw [Spaced.leaves, ← List.append_assoc]
      exact endsWithWord_leaves hopening.ok.expr.grammatical (by rw [hopeningKind]; rfl) _

/-! ### Calls -/

/-- A call is its function and what is behind it. -/
lemma spells_of_callParts {parts : CallParts} (hs : s.IsExpr)
    (hkind : s.kind = .plain .funcCallExpr) (hcount : s.node.nodeCount ≤ bound + 1) (hknows : f.Knows s.leaves)
    (h : callParts s = some parts) : Ready bound f parts.func.bare ∧
      parts.func.node.nodeCount < s.node.nodeCount ∧
      ∃ leaves, parts.Spells bound f leaves ∧ s.leaves = parts.func.leaves ++ leaves := by
  obtain ⟨opening, args, closing, hparts, htokens⟩ := tokens_of_callParts hs hkind h
  have hne : s.node.children ≠ [] := by
    apply Site.children_ne_nil_of_tokens
    rw [htokens]
    exact List.cons_ne_nil _ _
  have hready := ready_of_mem_tokens hs.grammatical hcount hknows
  have hleaves := Site.leaves_eq_tokens hs.grammatical hne
  have hlt := fun p => Site.nodeCount_lt_of_mem_tokens (s := s) (p := p)
  rw [htokens] at hready hleaves hlt
  obtain ⟨hfunc, hready⟩ := List.forall_mem_cons.mp hready
  refine ⟨hfunc, hlt _ List.mem_cons_self, _, ⟨opening, args, closing, hparts, hready, rfl⟩, ?_⟩
  rw [hleaves, List.flatMap_cons, List.flatMap_cons, List.flatMap_append, List.flatMap_singleton]
  rfl

lemma CallParts.Spells.wordsApart {parts : CallParts} {leaves : List Leaf}
    (h : parts.Spells bound f leaves) (hok : ∀ l ∈ leaves, l.Ok) :
    WordsApart written gap leaves := by
  obtain ⟨opening, args, closing, htokens, hready, rfl⟩ := h
  have hopening := (hready opening List.mem_cons_self).ok
  apply WordsApart.append opening.leaves_ne_nil
  apply Spaced.wordsApart hopening fun l hl => hok l (List.mem_append_left _ hl)
  rw [htokens.openingSite, htokens.openParen.1]
  rfl

lemma CallParts.Spells.mono {parts : CallParts} {leaves : List Leaf} {g : ExprFormatter}
    (h : parts.Spells bound f leaves) (hcomments : g.comments = f.comments) :
    parts.Spells bound g leaves := by
  obtain ⟨opening, args, closing, htokens, hready, hleaves⟩ := h
  exact ⟨opening, args, closing, htokens, fun p hp => (hready p hp).mono hcomments, hleaves⟩

lemma emits_emitSplitCall {parts : CallParts} {leaves : List Leaf} (hsound : below.Sound bound)
    (hfunc : Ready bound f parts.func.bare) (hparts : parts.Spells bound f leaves) :
    Emits (emitSplitCall below f parts) (parts.func.leaves ++ leaves) := by
  intro o written todo gap h hapart
  rw [List.append_assoc] at h
  have hok := h.ok_todo
  have hwritten := hsound.bare (f := f.withLineEnd (.after parts.opening 0)) hfunc.ok.expr
    hfunc.count (hfunc.knows.mono (List.Subset.refl _) rfl) h
    (hapart.mono parts.func.leaves_ne_nil)
  rw [← List.append_assoc]
  exact emits_emitSplitArgs hsound hparts hwritten
    (hparts.wordsApart fun l hl => hok l (by simp [hl]))

lemma emits_formatFluentCallArgs {parts : CallParts} {leaves : List Leaf}
    (hsound : below.Sound bound) (hparts : parts.Spells bound f leaves) :
    Emits (formatFluentCallArgs below f parts) leaves := by
  intro o written todo gap h hapart
  unfold formatFluentCallArgs
  split_ifs
  · exact emits_emitSplitArgs hsound hparts h hapart
  · exact emits_emitInlineArgs hsound hparts h hapart

/-- A member access takes all tokens of its node. -/
lemma tokens_of_memberAccess {receiver dot member : Site} (hs : s.IsExpr)
    (hkind : s.kind = .memberAccessExpr) (hreceiver : s.firstNamedChild = some receiver)
    (hdot : s.firstChildKind (.plain .dot) = some dot)
    (hmember : s.memberAccessMember = some member) :
    (∃ lead₁ lead₂, s.tokens = [receiver.bare, ⟨lead₁, dot⟩, ⟨lead₂, member⟩]) ∧
      dot.kind = .plain .dot ∧ dot.node.children = [] ∧ member.node.children = [] := by
  have hshape := hs.grammatical.ok.shape
  have hfields := Site.childByField_eq hs.grammatical
  have hkinds : ∀ {kind}, kind ≠ .plain .comment → s.firstChildKind kind =
      (s.tokens.map Spaced.site).find? fun c => c.kind = kind := Site.firstChildKind_eq
  have hkind : s.node.label.kind = .memberAccessExpr := hkind
  rw [ExprNode.shape, hkind] at hshape
  simp only at hshape
  split at hshape
  · rename_i receiver' dot' member' htokens
    obtain ⟨receiver', ps₁, htok, rfl, hps₁⟩ := Site.tokens_eq_cons hs.grammatical htokens
    obtain ⟨⟨lead₁, dot'⟩, ps₂, rfl, rfl, hps₂⟩ := List.map_eq_cons_iff.mp hps₁
    obtain ⟨⟨lead₂, member'⟩, ps₃, rfl, rfl, hps₃⟩ := List.map_eq_cons_iff.mp hps₂
    obtain rfl := List.map_eq_nil_iff.mp hps₃
    simp only [ExprNode.hasField, ExprNode.isToken, Bool.and_eq_true, decide_eq_true_eq,
      List.isEmpty_iff, Option.isNone_iff_eq_none] at hshape
    obtain ⟨⟨⟨⟨⟨⟨hnamed, hkind'⟩, hfield⟩, hdotKind, hdotLeaf⟩, hdotField⟩, hmemberField⟩,
      hmemberLeaf⟩ := hshape
    have hdotNode : s.firstChildKind (.plain .dot) = some dot' := by
      simp [hkinds, htok, Site.bare, Site.kind, hkind', hdotKind]
    have hmemberNode : s.childByField .member = some member' := by
      simp [hfields, htok, Site.bare, hfield, hdotField, hmemberField]
    have hreceiverNode : s.firstNamedChild = some receiver' := by
      obtain ⟨cs, hchildren⟩ := Site.children_eq_cons hs.grammatical htok
      simp [Site.firstNamedChild, Site.namedChildren, hchildren, hnamed]
    rw [hreceiverNode] at hreceiver
    rw [hdotNode] at hdot
    rw [Site.memberAccessMember, hmemberNode] at hmember
    cases hreceiver
    cases hdot
    cases hmember
    exact ⟨⟨lead₁, lead₂, htok⟩, hdotKind, hdotLeaf, hmemberLeaf⟩
  · cases hshape

/-- The leaves of a link behind its receiver. -/
structure FluentLink.Tokens (bound : Nat) (f : ExprFormatter) (link : FluentLink)
    (dot member : Spaced) (behind : List Leaf) : Prop where
  dotSite : dot.site = link.dot
  memberSite : member.site = link.member
  dotOk : dot.Ok
  memberOk : member.Ok
  dotToken : link.dot.kind = .plain .dot ∧ link.dot.node.children = []
  memberToken : link.member.node.children = []
  call : match link.call with
    | some call => call.Spells bound f behind
    | none => behind = []

def FluentLink.Spells (bound : Nat) (f : ExprFormatter) (link : FluentLink) (leaves : List Leaf) :
    Prop :=
  ∃ dot member behind, link.Tokens bound f dot member behind ∧
    leaves = dot.leaves ++ (member.leaves ++ behind)

lemma fluentLink_eq_some {link : FluentLink} (h : fluentLink s = some link) :
    link.access.kind = .memberAccessExpr ∧ link.access.firstNamedChild = some link.receiver ∧
      link.access.firstChildKind (.plain .dot) = some link.dot ∧
      link.access.memberAccessMember = some link.member ∧
      match link.call with
      | some call => s.kind = .plain .funcCallExpr ∧ callParts s = some call ∧
          link.access = call.func
      | none => link.access = s := by
  have haccess : ∀ {access : Site} {call : Option CallParts},
      (if access.kind ≠ .memberAccessExpr then none
        else do
          let receiver ← access.firstNamedChild
          let dot ← access.firstChildKind (.plain .dot)
          let member ← access.memberAccessMember
          return (⟨access, receiver, dot, member, call⟩ : FluentLink)) = some link →
      link.access = access ∧ link.call = call ∧ access.kind = .memberAccessExpr ∧
        access.firstNamedChild = some link.receiver ∧
        access.firstChildKind (.plain .dot) = some link.dot ∧
        access.memberAccessMember = some link.member := by
    intro access call h
    split_ifs at h with hkind
    obtain ⟨receiver, hreceiver, h⟩ := Option.bind_eq_some_iff.mp h
    obtain ⟨dot, hdot, h⟩ := Option.bind_eq_some_iff.mp h
    obtain ⟨member, hmember, h⟩ := Option.bind_eq_some_iff.mp h
    cases h
    exact ⟨rfl, rfl, not_not.mp hkind, hreceiver, hdot, hmember⟩
  unfold fluentLink at h
  by_cases hcall : s.kind = .plain .funcCallExpr
  · simp only [if_pos hcall] at h
    obtain ⟨pair, hpair, h⟩ := Option.bind_eq_some_iff.mp h
    obtain ⟨parts, hparts, rfl⟩ := Option.map_eq_some_iff.mp hpair
    obtain ⟨hfunc, hlink, hkind, hreceiver, hdot, hmember⟩ := haccess h
    rw [hfunc, hlink]
    exact ⟨hkind, hreceiver, hdot, hmember, hcall, hparts, rfl⟩
  · simp only [if_neg hcall] at h
    obtain ⟨hself, hlink, hkind, hreceiver, hdot, hmember⟩ := haccess h
    rw [hself, hlink]
    exact ⟨hkind, hreceiver, hdot, hmember, rfl⟩

variable (bound f) in
lemma spells_of_access {link : FluentLink} (behind : List Leaf) (hs : link.access.IsExpr)
    (hkind : link.access.kind = .memberAccessExpr)
    (hreceiver : link.access.firstNamedChild = some link.receiver)
    (hdot : link.access.firstChildKind (.plain .dot) = some link.dot)
    (hmember : link.access.memberAccessMember = some link.member)
    (hbehind : match link.call with
      | some call => call.Spells bound f behind
      | none => behind = []) :
    PartOf link.access link.receiver ∧
      link.receiver.node.nodeCount < link.access.node.nodeCount ∧
      ∃ leaves, link.Spells bound f leaves ∧
        link.access.leaves ++ behind = link.receiver.leaves ++ leaves := by
  obtain ⟨⟨lead₁, lead₂, htokens⟩, hdotKind, hdotLeaf, hmemberLeaf⟩ :=
    tokens_of_memberAccess hs hkind hreceiver hdot hmember
  have hne : link.access.node.children ≠ [] := by
    apply Site.children_ne_nil_of_tokens
    rw [htokens]
    exact List.cons_ne_nil _ _
  have hok := fun p => Site.ok_of_mem_tokens (p := p) hs.grammatical
  have hmem : link.receiver.bare ∈ link.access.tokens := by
    rw [htokens]
    exact List.mem_cons_self
  have hlink : link.Tokens bound f ⟨lead₁, link.dot⟩ ⟨lead₂, link.member⟩ behind :=
    ⟨rfl, rfl, hok _ (by rw [htokens]; simp), hok _ (by rw [htokens]; simp),
      ⟨hdotKind, hdotLeaf⟩, hmemberLeaf, hbehind⟩
  refine ⟨partOf_of_mem_tokens hs.grammatical hmem, Site.nodeCount_lt_of_mem_tokens hmem, _,
    ⟨_, _, behind, hlink, rfl⟩, ?_⟩
  rw [Site.leaves_eq_tokens hs.grammatical hne, htokens]
  simp only [List.flatMap_cons, List.flatMap_nil, List.append_nil, List.append_assoc]
  rfl

/-- A link is its receiver and what is behind it. -/
lemma spells_of_fluentLink {link : FluentLink} (hs : s.IsExpr)
    (hcount : s.node.nodeCount ≤ bound + 1) (hknows : f.Knows s.leaves)
    (h : fluentLink s = some link) : PartOf s link.receiver ∧
      link.receiver.node.nodeCount < s.node.nodeCount ∧ (link.call = none → link.access = s) ∧
      ∃ leaves, link.Spells bound f leaves ∧ s.leaves = link.receiver.leaves ++ leaves := by
  obtain ⟨hkind, hreceiver, hdot, hmember, hcall⟩ := fluentLink_eq_some h
  have haccess := fun behind hexpr =>
    spells_of_access bound f behind hexpr hkind hreceiver hdot hmember
  cases hlink : link.call with
  | none =>
    rw [hlink] at hcall haccess
    change link.access = s at hcall
    rw [hcall] at haccess
    obtain ⟨hpart, hlt, leaves, hspells, hleaves⟩ := haccess [] hs rfl
    rw [List.append_nil] at hleaves
    exact ⟨hpart, hlt, fun _ => hcall, leaves, hspells, hleaves⟩
  | some call =>
    rw [hlink] at hcall haccess
    obtain ⟨hcallKind, hparts, hfunc⟩ := hcall
    obtain ⟨hready, hfuncLt, behind, hbehind, hleaves⟩ :=
      spells_of_callParts hs hcallKind hcount hknows hparts
    rw [hfunc] at haccess
    obtain ⟨hpart, hlt, leaves, hspells, hleaves'⟩ := haccess behind hready.ok.expr hbehind
    have hfuncPart : PartOf s call.func := by
      refine ⟨hready.ok.expr, hfuncLt.le, ?_⟩
      rw [hleaves]
      exact List.subset_append_left _ _
    exact ⟨hfuncPart.trans hpart, hlt.trans hfuncLt, nofun, leaves, hspells,
      hleaves.trans hleaves'⟩

lemma FluentLink.Spells.mono {link : FluentLink} {leaves : List Leaf} {g : ExprFormatter}
    (h : link.Spells bound f leaves) (hcomments : g.comments = f.comments) :
    link.Spells bound g leaves := by
  obtain ⟨dot, member, behind, htokens, hleaves⟩ := h
  have hcall : match link.call with
      | some call => call.Spells bound g behind
      | none => behind = [] := by
    have hcall := htokens.call
    split at hcall
    · exact hcall.mono hcomments
    · exact hcall
  exact ⟨dot, member, behind, { htokens with call := hcall }, hleaves⟩

lemma FluentLink.Spells.wordsApart {link : FluentLink} {leaves : List Leaf}
    (h : link.Spells bound f leaves) (hok : ∀ l ∈ leaves, l.Ok) :
    WordsApart written gap leaves := by
  obtain ⟨dot, member, behind, htokens, rfl⟩ := h
  apply WordsApart.append dot.leaves_ne_nil
  apply Spaced.wordsApart htokens.dotOk fun l hl => hok l (List.mem_append_left _ hl)
  rw [htokens.dotSite, htokens.dotToken.1]
  rfl

/-- Without the comments in front of its dot, a link is still one. -/
lemma FluentLink.Spells.split {link : FluentLink} {leaves : List Leaf}
    (h : link.Spells bound f leaves) : ∃ lead rest, leaves = lead ++ rest ∧
      (∀ l ∈ lead, l.isComment = true) ∧ link.Spells bound f rest ∧ rest ≠ [] ∧
      ∀ l ∈ rest.head?, l.start = link.dot.node.start := by
  obtain ⟨dot, member, behind, htokens, rfl⟩ := h
  have hne := dot.site.leaves_ne_nil
  refine ⟨dot.lead, dot.site.leaves ++ (member.leaves ++ behind), ?_, htokens.dotOk.lead, ?_,
    List.append_ne_nil_of_left_ne_nil hne _, ?_⟩
  · rw [Spaced.leaves, List.append_assoc]
  · exact ⟨dot.site.bare, member, behind, { htokens with dotOk := htokens.dotOk.expr.bare }, rfl⟩
  · rw [← htokens.dotSite]
    exact Site.start_head_leaves htokens.dotOk.expr.grammatical _

/-- The step of `emitFluentGroup`. -/
lemma emits_link {link : FluentLink} {leaves : List Leaf} (hsound : below.Sound bound)
    (h : link.Spells bound f leaves) :
    Emits (fun o => match link.call with
      | some call =>
        formatFluentCallArgs below f call (f.emitToken link.member (f.emitToken link.dot o))
      | none => f.emitToken link.member (f.emitToken link.dot o)) leaves := by
  obtain ⟨dot, member, behind, htokens, rfl⟩ := h
  obtain ⟨hdotKind, hdotLeaf⟩ := htokens.dotToken
  have hmemberLeaf := htokens.memberToken
  have hcall := htokens.call
  rw [← htokens.dotSite] at hdotKind hdotLeaf
  rw [← htokens.memberSite] at hmemberLeaf
  intro o written todo gap h hapart
  rw [List.append_assoc, List.append_assoc] at h
  have hok := h.ok_todo
  have hdot := emits_emitToken f htokens.dotOk hdotLeaf h (hapart.mono dot.leaves_ne_nil)
  have hmember := emits_emitToken f htokens.memberOk hmemberLeaf hdot (WordsApart.of_ends (by
    rw [Spaced.leaves, ← List.append_assoc]
    exact endsWithWord_leaves htokens.dotOk.expr.grammatical (by rw [hdotKind]; rfl) _))
  rw [htokens.dotSite, htokens.memberSite] at hmember
  simp only
  rw [← List.append_assoc, ← List.append_assoc]
  split at hcall
  · exact emits_formatFluentCallArgs hsound hcall hmember
      (hcall.wordsApart fun l hl => hok l (by simp [hl]))
  · subst hcall
    rw [List.append_nil]
    exact hmember

inductive LinksSpell (bound : Nat) (f : ExprFormatter) : List FluentLink → List Leaf → Prop
  | nil : LinksSpell bound f [] []
  | cons {link : FluentLink} {links : List FluentLink} {a b : List Leaf}
      (h : link.Spells bound f a) (hrest : LinksSpell bound f links b) :
      LinksSpell bound f (link :: links) (a ++ b)

lemma LinksSpell.snoc {link : FluentLink} {links : List FluentLink} {a b : List Leaf}
    (h : LinksSpell bound f links a) (hlink : link.Spells bound f b) :
    LinksSpell bound f (links ++ [link]) (a ++ b) := by
  induction h with
  | nil =>
    have hsingle := LinksSpell.cons hlink .nil
    rwa [List.append_nil] at hsingle
  | cons hfirst _ ih =>
    rw [List.append_assoc]
    exact .cons hfirst ih

lemma LinksSpell.of_append {links links' : List FluentLink} {leaves : List Leaf}
    (h : LinksSpell bound f (links ++ links') leaves) :
    ∃ a b, LinksSpell bound f links a ∧ LinksSpell bound f links' b ∧ leaves = a ++ b := by
  induction links generalizing leaves with
  | nil => exact ⟨[], leaves, .nil, h, rfl⟩
  | cons link links ih =>
    cases h with
    | cons hlink hrest =>
      obtain ⟨a, b, ha, hb, rfl⟩ := ih hrest
      exact ⟨_, b, .cons hlink ha, hb, (List.append_assoc _ _ _).symm⟩

lemma LinksSpell.mono {links : List FluentLink} {leaves : List Leaf} {g : ExprFormatter}
    (h : LinksSpell bound f links leaves) (hcomments : g.comments = f.comments) :
    LinksSpell bound g links leaves := by
  induction h with
  | nil => exact .nil
  | cons hlink _ ih => exact .cons (hlink.mono hcomments) ih

/-- Links and the comments in front of their dots are written one after the other. -/
lemma Copied.emitLinks {links : List FluentLink} {leaves : List Leaf}
    (hsound : below.Sound bound) (hlinks : LinksSpell bound f links leaves)
    (h : Copied o written (leaves ++ todo) []) :
    Copied (emitFluentGroup below f ⟨links, s, s⟩ o) (written ++ leaves) todo [] := by
  unfold emitFluentGroup
  simp only
  induction hlinks generalizing o written with
  | nil => simpa using h
  | @cons link links a b hlink _ ih =>
    rw [List.append_assoc] at h
    have hok := h.ok_todo
    have hwritten := emits_link hsound hlink h
      (hlink.wordsApart fun l hl => hok l (List.mem_append_left _ hl))
    rw [List.foldl_cons, ← List.append_assoc]
    exact ih hwritten

/-- The leaves of a group, in front of which a line ends. -/
inductive GroupsSpell (bound : Nat) (f : ExprFormatter) : List FluentGroup → List Leaf → Prop
  | nil : GroupsSpell bound f [] []
  | cons {group : FluentGroup} {groups : List FluentGroup} {link : FluentLink}
      {links : List FluentLink} {a b : List Leaf} (hgroup : group.links = link :: links)
      (hdot : group.openingDot = link.dot) (h : LinksSpell bound f (link :: links) a)
      (hrest : GroupsSpell bound f groups b) : GroupsSpell bound f (group :: groups) (a ++ b)

/-- With a call at the end, every link is in a group. -/
lemma groupsSpell_groupLinks (pending : List FluentLink) {links : List FluentLink}
    {leaves : List Leaf}
    (h : LinksSpell bound f (pending ++ links) leaves)
    (hlast : ∀ link ∈ links.getLast?, link.call.isSome = true) (hnil : links = [] → pending = []) :
    GroupsSpell bound f (groupLinks pending links) leaves := by
  induction links generalizing pending leaves with
  | nil =>
    rw [hnil rfl] at h
    cases h
    exact .nil
  | cons link links ih =>
    have hlast' : ∀ l ∈ links.getLast?, l.call.isSome = true := by
      intro l hl
      apply hlast
      rw [List.getLast?_cons, Option.mem_def.mp hl]
      rfl
    rw [List.append_cons] at h
    cases hcall : link.call with
    | none =>
      rw [groupLinks, hcall]
      apply ih _ h hlast'
      rintro rfl
      have hsome := hlast link rfl
      rw [hcall] at hsome
      cases hsome
    | some call =>
      obtain ⟨a, b, ha, hb, rfl⟩ := h.of_append
      have hrest := ih [] hb hlast' fun _ => rfl
      rw [groupLinks, hcall]
      cases pending with
      | nil => exact .cons rfl rfl ha hrest
      | cons first pending => exact .cons rfl rfl ha hrest

lemma emits_emitFluentGroup {group : FluentGroup} {link : FluentLink} {links : List FluentLink}
    {leaves : List Leaf} (hsound : below.Sound bound) (hgroup : group.links = link :: links)
    (hlinks : LinksSpell bound f (link :: links) leaves) :
    Emits (emitFluentGroup below f group) leaves := by
  intro o written todo gap h hapart
  cases hlinks with
  | @cons _ _ a b hlink hrest =>
    rw [List.append_assoc] at h
    have hok := h.ok_todo
    have hwritten := emits_link hsound hlink h
      (hlink.wordsApart fun l hl => hok l (List.mem_append_left _ hl))
    have hdone := hwritten.emitLinks (s := group.openingDot) hsound hrest
    rw [← List.append_assoc, emitFluentGroup, hgroup, List.foldl_cons]
    exact hdone

/-- Each group goes on a line of its own, behind the comments in front of its dot. -/
lemma Copied.emitFluentGroups {groups : List FluentGroup} {leaves : List Leaf}
    (hsound : below.Sound bound) (hgroups : GroupsSpell bound f groups leaves)
    (h : Copied o written (leaves ++ todo) []) :
    Copied (emitFluentGroups below f groups o) (written ++ leaves) todo [] := by
  induction hgroups generalizing o written with
  | nil =>
    rw [Formatting.emitFluentGroups, List.append_nil]
    exact h
  | @cons group groups link links a b hgroup hdot hlinks _ ih =>
    cases hlinks with
    | @cons _ _ a₁ a₂ hlink hrest =>
      obtain ⟨lead, rest, rfl, hlead, hlink', hne, hstart⟩ := hlink.split
      rw [List.append_assoc, List.append_assoc, List.append_assoc] at h
      obtain ⟨gap₁, hflushed, -⟩ := h.flushTo f.toFormatter link.dot.node.start hlead
        (List.append_ne_nil_of_left_ne_nil hne _)
        (by rw [List.head?_append_of_ne_nil _ hne]; exact hstart)
      obtain ⟨blanks, hbroken⟩ := hflushed.pad (pads_breakToIndentedLine f _)
      have hblank := endsBlank_breakToIndentedLine f
        (f.flushCommentsBefore link.dot.node.start o)
      rw [← List.append_assoc rest] at hbroken
      have hgroupSpells := LinksSpell.cons hlink' hrest
      rw [Formatting.emitFluentGroups, hdot, ← List.append_assoc, ← List.append_assoc,
        List.append_assoc written, List.append_assoc lead, ← List.append_assoc written]
      apply ih
      split_ifs
      · exact emits_emitFluentGroup hsound hgroup hgroupSpells hbroken
          (hbroken.wordsApart_of_blank hblank _)
      · exact emits_emitFluentGroup (f := f.withLineEnd (.after group.closingParen 0)) hsound
          hgroup (hgroupSpells.mono rfl) hbroken (hbroken.wordsApart_of_blank hblank _)

/-! ### Fluent chains -/

/-- The node that a chain starts with, behind such links. -/
def chainStart (base : Site) (before : List FluentLink) : Site :=
  (before.getLast?.map FluentLink.access).getD base

/-- Wherever the links are cut behind one without a call, the node is what it gives access to and
the links behind it. -/
lemma collectLinks_split (bound : Nat) (f : ExprFormatter) (rounds : Nat) (hs : s.IsExpr)
    (hcount : s.node.nodeCount ≤ bound + 1) (hknows : f.Knows s.leaves) (before after : List FluentLink)
    (hcut : (collectLinksInSourceOrder rounds s).2 = before ++ after)
    (hbefore : ∀ link ∈ before.getLast?, link.call = none) :
    PartOf s (chainStart (collectLinksInSourceOrder rounds s).1 before) ∧
      (after ≠ [] → (chainStart (collectLinksInSourceOrder rounds s).1 before).node.nodeCount <
        s.node.nodeCount) ∧
      ∃ rest, LinksSpell bound f after rest ∧
        s.leaves = (chainStart (collectLinksInSourceOrder rounds s).1 before).leaves ++ rest := by
  have hself : PartOf s s := ⟨hs, le_refl _, List.Subset.refl _⟩
  induction rounds generalizing s after with
  | zero =>
    obtain ⟨rfl, rfl⟩ := List.append_eq_nil_iff.mp hcut.symm
    exact ⟨hself, fun hne => absurd rfl hne, [], .nil, (List.append_nil _).symm⟩
  | succ rounds ih =>
    rw [collectLinksInSourceOrder] at hcut ⊢
    cases hlink : fluentLink s with
    | none =>
      rw [hlink] at hcut
      obtain ⟨rfl, rfl⟩ := List.append_eq_nil_iff.mp hcut.symm
      exact ⟨hself, fun hne => absurd rfl hne, [], .nil, (List.append_nil _).symm⟩
    | some link =>
      rw [hlink] at hcut
      simp only at hcut ⊢
      obtain ⟨hpart, hlt, hself', leaves, hspells, hleaves⟩ :=
        spells_of_fluentLink hs hcount hknows hlink
      rcases List.eq_nil_or_concat' after with rfl | ⟨after, last, rfl⟩
      · have hlast : before.getLast? = some link := by
          rw [← List.append_nil before, ← hcut, List.getLast?_concat]
        have hstart : chainStart (collectLinksInSourceOrder rounds link.receiver).1 before = s := by
          rw [chainStart, hlast]
          exact hself' (hbefore link hlast)
        rw [hstart]
        exact ⟨hself, fun hne => absurd rfl hne, [], .nil, (List.append_nil _).symm⟩
      · rw [← List.append_assoc] at hcut
        obtain ⟨hrest, hlast⟩ := List.append_inj' hcut rfl
        cases hlast
        obtain ⟨hpart', -, rest, hrestSpells, hrestLeaves⟩ := ih hpart.expr
          (hpart.count.trans hcount) (hknows.mono hpart.leaves rfl) _ hrest
          ⟨hpart.expr, le_refl _, List.Subset.refl _⟩
        refine ⟨hpart.trans hpart', fun _ => lt_of_le_of_lt hpart'.count hlt, rest ++ leaves,
          hrestSpells.snoc hspells, ?_⟩
        rw [hleaves, hrestLeaves, List.append_assoc]

/-- The last link of a call is the call itself. -/
lemma isSome_call_of_getLast? (rounds : Nat) (hkind : s.kind = .plain .funcCallExpr) :
    ∀ link ∈ (collectLinksInSourceOrder rounds s).2.getLast?, link.call.isSome = true := by
  intro link hlast
  cases rounds with
  | zero => cases hlast
  | succ rounds =>
    rw [collectLinksInSourceOrder] at hlast
    split at hlast
    · rename_i link' hlink
      rw [List.getLast?_concat] at hlast
      cases hlast
      obtain ⟨haccess, -, -, -, hcall⟩ := fluentLink_eq_some hlink
      cases hnone : link.call with
      | some call => rfl
      | none =>
        rw [hnone] at hcall
        change link.access = s at hcall
        rw [hcall, hkind] at haccess
        cases haccess
    · cases hlast

lemma chainStart_take (base : Site) {links : List FluentLink} {n : Nat} (h : n < links.length) :
    chainStart base (links.take n) = chainHead base links n := by
  cases n with
  | zero => rfl
  | succ n =>
    have hget : links[n]? = some links[n] := List.getElem?_eq_getElem (by omega)
    rw [chainStart, List.getLast?_take, if_neg (Nat.succ_ne_zero n), Nat.add_sub_cancel, chainHead,
      hget]
    rfl

/-- A fluent chain takes all leaves of its call. -/
lemma spells_of_fluentChain {chain : FluentChain} (hs : s.IsExpr)
    (hkind : s.kind = .plain .funcCallExpr) (hcount : s.node.nodeCount ≤ bound + 1)
    (hknows : f.Knows s.leaves) (h : fluentChain s = some chain) :
    Ready bound f chain.head.bare ∧ ∃ rest, GroupsSpell bound f chain.groups rest ∧
      s.leaves = chain.head.leaves ++ rest := by
  unfold fluentChain at h
  split_ifs at h
  obtain ⟨firstCall, hfirst, rfl⟩ := Option.map_eq_some_iff.mp h
  have hsplit := collectLinks_split bound f s.node.nodeCount hs hcount hknows
  have hlast := isSome_call_of_getLast? s.node.nodeCount hkind
  generalize collectLinksInSourceOrder s.node.nodeCount s = collected at hfirst hsplit hlast ⊢
  obtain ⟨base, links⟩ := collected
  simp only at hfirst hsplit hlast ⊢
  obtain ⟨hlt, -, hbefore⟩ := List.findIdx?_eq_some_iff_getElem.mp hfirst
  have hbare : ∀ link ∈ (links.take firstCall).getLast?, link.call = none := by
    intro link hlink
    obtain ⟨j, hj, rfl⟩ := List.mem_take_iff_getElem.mp (List.mem_of_getLast? hlink)
    have hnone := hbefore j (by omega)
    simpa using hnone
  have hbehind : links.drop firstCall ≠ [] := by
    rw [ne_eq, List.drop_eq_nil_iff]
    omega
  obtain ⟨hpart, hcountLt, rest, hspells, hleaves⟩ :=
    hsplit _ _ (List.take_append_drop firstCall links).symm hbare
  rw [chainStart_take base hlt] at hpart hcountLt hleaves
  have hstrict := hcountLt hbehind
  refine ⟨⟨hpart.expr.bare, ?_, hknows.mono hpart.leaves rfl⟩, rest,
    groupsSpell_groupLinks [] hspells ?_ fun _ => rfl, hleaves⟩
  · exact Nat.le_of_lt_succ (lt_of_lt_of_le hstrict hcount)
  · intro link hlink
    apply hlast
    rwa [List.getLast?_drop, if_neg (by omega)] at hlink

lemma emits_emitFluentChain {chain : FluentChain} {rest : List Leaf} (hsound : below.Sound bound)
    (hhead : Ready bound f chain.head.bare)
    (hgroups : GroupsSpell bound f.indented chain.groups rest) :
    Emits (emitFluentChain below f chain) (chain.head.leaves ++ rest) := by
  intro o written todo gap h hapart
  rw [List.append_assoc] at h
  have hwritten := hsound.bare (f := f.withLineEnd (.after chain.head 0)) hhead.ok.expr hhead.count
    (hhead.knows.mono (List.Subset.refl _) rfl) h (hapart.mono chain.head.leaves_ne_nil)
  rw [← List.append_assoc]
  exact hwritten.emitFluentGroups hsound hgroups

lemma emits_formatCall (hsound : below.Sound bound) (hs : s.IsExpr)
    (hkind : s.kind = .plain .funcCallExpr) (hne : s.node.children ≠ [])
    (hcount : s.node.nodeCount ≤ bound + 1) (hknows : f.Knows s.leaves) :
    Emits (formatCall below f s) s.leaves := by
  have hall := emits_formatAll_of_sound hsound hs.grammatical hne hcount hknows
  intro o written todo gap h hapart
  unfold formatCall
  split
  · rename_i chain hchain
    have hfluent : fluentChain s = some chain := by
      unfold fluentCall at hchain
      split_ifs at hchain
      exact (Option.filter_eq_some_iff.mp hchain).1
    obtain ⟨hhead, rest, hgroups, hleaves⟩ :=
      spells_of_fluentChain (f := f.indented) hs hkind hcount (hknows.mono (List.Subset.refl _) rfl)
        hfluent
    rw [hleaves] at h hapart ⊢
    exact emits_emitFluentChain (f := f) hsound (hhead.mono rfl) hgroups h hapart
  · split
    · rename_i parts hparts
      split_ifs
      · obtain ⟨hfunc, -, leaves, hspells, hleaves⟩ :=
          spells_of_callParts hs hkind hcount hknows hparts
        rw [hleaves] at h hapart ⊢
        exact emits_emitSplitCall hsound hfunc hspells h hapart
      · exact hall h hapart
    · exact hall h hapart

end

end WitcherScriptLanguage.Formatting
