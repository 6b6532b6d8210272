import WitcherScriptLanguage.Cst.Walk
import WitcherScriptLanguage.Diagnostics.RuleReads
import WitcherScriptLanguage.Library.MemoTrees
import WitcherScriptLanguage.Library.SubtreeMarks

/-!
# One walk for all rules

`diagnostics/cst_walker.rs` walks the tree of a document once, tells every rule of the nodes that
it is interested in and keeps one table of inferred types for all of them. The identifiers are
checked in parallel, in shards with tables and observers of their own, which are merged. The
rules read through `RuleRead` only, so what the document gets does not depend on the shards or on
the tables.
-/

namespace WitcherScriptLanguage

open Library

/-- What a node of the syntax tree says about itself; `K` are the kinds of nodes. -/
structure CstLabel (K : Type) where
  kind : K
  isError : Bool := false
  isMissing : Bool := false
  deriving DecidableEq

/-- A call of `infer_type`. -/
structure TypeQuery where
  node : Position
  contextByte : Nat
  deriving DecidableEq

/-- What a rule asks at a node, and what it reports. -/
abbrev RuleVisit := MemoTree RuleRead RuleAnswer TypeQuery ScriptType (List WorkspaceDiagnostic)

structure CstRule (K : Type) where
  interestedIn : K → Bool
  /-- Told whether the node is in an error subtree. -/
  visit : Position → Bool → RuleVisit

/-- The table of types is keyed by the byte ranges of nodes. -/
abbrev TypeMemory := Memory (Nat × Nat) ScriptType ObservedKey

/-- The document that is checked, with what the rules use of it. -/
structure CheckedDocument (K : Type) where
  tree : RangedTree (CstLabel K)
  /-- `kinds::INCOMPLETE_MEMBER_ACCESS_EXPR` -/
  incompleteMemberAccessExpr : K
  /-- `kinds::IDENT` -/
  ident : K
  inferType : TypeQuery → ReadTree RuleRead RuleAnswer ScriptType
  rules : List (CstRule K)
  checkIdent : Position → Bool → RuleVisit
  nativeImport : ReadTree RuleRead RuleAnswer (List WorkspaceDiagnostic)

namespace CheckedDocument

variable {K : Type} [DecidableEq K] (d : CheckedDocument K)

def kindAt (node : Position) : Option K := (d.tree.get? node).map (·.label.kind)

def isErrorSubtreeRoot (node : Position) : Bool :=
  ((d.tree.get? node).map fun n => n.label.isError || n.label.isMissing ||
    n.label.kind = d.incompleteMemberAccessExpr).getD false

/-- The key of `infer_type_memo`. -/
def memoKey (query : TypeQuery) : Nat × Nat :=
  ((d.tree.get? query.node).map fun n => (n.start, n.stop)).getD (0, 0)

section

variable (read : RuleRead → Option (RuleAnswer × List ObservedKey))

/-- The state of `RuleWalk`: what is reported and the memory, or nothing when a lookup has run out
of call depth. -/
abbrev RuleWalk := Option (List WorkspaceDiagnostic × TypeMemory)

/-- The visit of one rule pushes its reports. -/
def visitRule (visit : RuleVisit) (s : RuleWalk) : RuleWalk :=
  s.bind fun (diagnostics, m) => (visit.run read d.inferType d.memoKey m).map fun o =>
    (diagnostics ++ o.1, o.2)

/-- The loop over the rules in `RuleWalk::enter`. -/
def enterNode (node : Position) (inErrorSubtree : Bool) (s : RuleWalk) : RuleWalk :=
  d.rules.foldl (fun s rule =>
    if (d.kindAt node).any rule.interestedIn then d.visitRule read (rule.visit node inErrorSubtree) s
    else s) s

def runRulesOnDocument (m : TypeMemory) : RuleWalk :=
  (walk d.tree (tracking d.isErrorSubtreeRoot (d.enterNode read)) ({}, some ([], m))).bind (·.2)

/-- `collect_nodes_with_error_subtree` for the nodes of a kind. -/
def collectNodesWithErrorSubtree (kind : K) : List (Position × Bool) :=
  ((walk d.tree (tracking d.isErrorSubtreeRoot fun node inErrorSubtree out =>
    if d.kindAt node = some kind then out ++ [(node, inErrorSubtree)] else out)
      ({}, [])).map (·.2)).getD []

end

end CheckedDocument

/-- A way to share the items among tasks and to merge what the tasks have found. -/
inductive Shards (α : Type)
  | run (items : List α)
  | merge (a b : Shards α)

/-- The items in their order. -/
def Shards.items {α : Type} : Shards α → List α
  | run items => items
  | merge a b => a.items ++ b.items

namespace CheckedDocument

variable {K : Type} [DecidableEq K] (d : CheckedDocument K)
  (read : RuleRead → Option (RuleAnswer × List ObservedKey))

/-- `run_parallel_pass` over the identifiers: what the shards report and observe. -/
def runParallelPass : Shards (Position × Bool) → Option (List WorkspaceDiagnostic × List ObservedKey)
  | .run items =>
    (items.foldl (fun s item => d.visitRule read (d.checkIdent item.1 item.2) s)
      (some ([], {}))).map fun o => (o.1, o.2.recorded)
  | .merge a b => (runParallelPass a).bind fun o => (runParallelPass b).map fun o' =>
    (o.1 ++ o'.1, o.2 ++ o'.2)

/-- The stable sort by the start of the range. -/
def sortByStart (diagnostics : List WorkspaceDiagnostic) : List WorkspaceDiagnostic :=
  diagnostics.mergeSort fun a b => decide (a.range.start.line < b.range.start.line ∨
    a.range.start.line = b.range.start.line ∧ a.range.start.character ≤ b.range.start.character)

/-- `collect_cst_diagnostics_for_document`, with the keys that its observer has. -/
def collectCstDiagnosticsForDocument (shards : Shards (Position × Bool)) :
    Option (List WorkspaceDiagnostic × List ObservedKey) :=
  (d.runRulesOnDocument read {}).bind fun o => (d.runParallelPass read shards).bind fun o' =>
    (d.nativeImport.run read).map fun o'' =>
      (sortByStart (o.1 ++ o'.1 ++ o''.1), o.2.recorded ++ o'.2 ++ o''.2)

/-- The node, or one above it, is an error, missing, or an incomplete member access. -/
def InErrorSubtree (node : Position) : Bool := inMarked d.isErrorSubtreeRoot node

/-- The visits of the rules in the order of the walk. -/
def ruleVisits : List RuleVisit :=
  d.tree.positions.flatMap fun node =>
    (d.rules.filter fun rule => (d.kindAt node).any rule.interestedIn).map fun rule =>
      rule.visit node (d.InErrorSubtree node)

/-- The identifiers in the order of the text. -/
def idents : List (Position × Bool) :=
  (d.tree.positions.filter fun node => d.kindAt node = some d.ident).map fun node =>
    (node, d.InErrorSubtree node)

/-- What the rules ask about the document as one computation. -/
def ruleReads : ReadTree RuleRead RuleAnswer (List WorkspaceDiagnostic) :=
  (ReadTree.joined (d.ruleVisits.map (·.plain d.inferType) ++
    d.idents.map (fun item => (d.checkIdent item.1 item.2).plain d.inferType) ++
    [d.nativeImport])).bind fun diagnostics => .done (sortByStart diagnostics)

variable {d} {read}

omit [DecidableEq K] in
lemma foldl_visitRule (visits : List RuleVisit) (s : RuleWalk) :
    visits.foldl (fun s visit => d.visitRule read visit s) s = s.bind fun o =>
      (MemoTree.runAll read d.inferType d.memoKey visits o.2).map fun o' =>
        (o.1 ++ o'.1, o'.2) := by
  induction visits generalizing s with
  | nil =>
    simp only [List.foldl_nil, MemoTree.runAll, Option.map_some, List.append_nil]
    cases s <;> rfl
  | cons visit visits ih =>
    rw [List.foldl_cons, ih, visitRule, Option.bind_assoc]
    congr 1
    funext o
    rw [Option.bind_map, MemoTree.runAll, Option.map_bind]
    congr 1
    funext o'
    simp only [Function.comp_apply, Option.map_map]
    congr 1
    funext o''
    simp only [Function.comp_apply, List.append_assoc]

omit [DecidableEq K] in
lemma enterNode_eq (node : Position) (inErrorSubtree : Bool) (s : RuleWalk) :
    d.enterNode read node inErrorSubtree s =
      ((d.rules.filter fun rule => (d.kindAt node).any rule.interestedIn).map fun rule =>
        rule.visit node inErrorSubtree).foldl (fun s visit => d.visitRule read visit s) s := by
  rw [List.foldl_map, List.foldl_filter]
  rfl

lemma runRulesOnDocument_eq (m : TypeMemory) :
    d.runRulesOnDocument read m = MemoTree.runAll read d.inferType d.memoKey d.ruleVisits m := by
  have hstart : (some (([] : List WorkspaceDiagnostic), m)).bind (fun o =>
      (MemoTree.runAll read d.inferType d.memoKey d.ruleVisits o.2).map fun o' =>
        (o.1 ++ o'.1, o'.2)) = MemoTree.runAll read d.inferType d.memoKey d.ruleVisits m := by
    simp only [Option.bind_some, List.nil_append]
    exact Option.map_id'
  rw [runRulesOnDocument, walk_eq_visit, visit_tracking_root, Option.bind_some, ← hstart,
    ← foldl_visitRule, ruleVisits, List.foldl_flatMap]
  simp only [enterNode_eq]
  rfl

/-- The nodes of a kind are found in the order of the text, with their error flags. -/
lemma collectNodesWithErrorSubtree_eq : d.collectNodesWithErrorSubtree d.ident = d.idents := by
  have hfold : ∀ (nodes : List Position) (out : List (Position × Bool)),
      nodes.foldl (fun out node => if d.kindAt node = some d.ident
        then out ++ [(node, inMarked d.isErrorSubtreeRoot node)] else out) out =
      out ++ (nodes.filter fun node => d.kindAt node = some d.ident).map fun node =>
        (node, d.InErrorSubtree node) := by
    intro nodes
    induction nodes with
    | nil => exact fun out => (List.append_nil out).symm
    | cons node nodes ih =>
      intro out
      rw [List.foldl_cons, ih]
      by_cases hkind : d.kindAt node = some d.ident
      · rw [if_pos hkind, List.filter_cons_of_pos (by rwa [decide_eq_true_iff]), List.map_cons,
          List.append_assoc, List.singleton_append]
        rfl
      · rw [if_neg hkind, List.filter_cons_of_neg (by rwa [decide_eq_true_iff])]
  rw [collectNodesWithErrorSubtree, walk_eq_visit, visit_tracking_root, Option.map_some,
    Option.getD_some, hfold, List.nil_append, idents]

/-- The types that the rules ask for, and that those of one range are inferred alike. -/
structure AsksFor (d : CheckedDocument K) (Q : TypeQuery → Prop) : Prop where
  rules : ∀ rule ∈ d.rules, ∀ node inErrorSubtree,
    (rule.visit node inErrorSubtree).FetchesOnly Q
  idents : ∀ node inErrorSubtree, (d.checkIdent node inErrorSubtree).FetchesOnly Q
  ranges : MemoTree.KeyDecides Q d.inferType d.memoKey

variable {Q : TypeQuery → Prop}

lemma sameOutcome_rules (h : d.AsksFor Q) :
    SameOutcome ((d.runRulesOnDocument read {}).map fun o => (o.1, o.2.recorded))
      ((ReadTree.joined (d.ruleVisits.map (·.plain d.inferType))).run read) := by
  have hvisits : ∀ visit ∈ d.ruleVisits, visit.FetchesOnly Q := by
    intro visit hvisit
    obtain ⟨node, -, hnode⟩ := List.mem_flatMap.mp hvisit
    obtain ⟨rule, hrule, rfl⟩ := List.mem_map.mp hnode
    exact h.rules rule (List.mem_filter.mp hrule).1 node _
  rw [runRulesOnDocument_eq]
  exact (MemoTree.agrees_runAll h.ranges hvisits (MemoTree.coherent_empty [])).sameOutcome

omit [DecidableEq K] in
lemma sameOutcome_shards (h : d.AsksFor Q) (shards : Shards (Position × Bool)) :
    SameOutcome (d.runParallelPass read shards) ((ReadTree.joined (shards.items.map fun item =>
      (d.checkIdent item.1 item.2).plain d.inferType)).run read) := by
  induction shards with
  | run items =>
    have hvisits : ∀ visit ∈ items.map (fun item => d.checkIdent item.1 item.2),
        visit.FetchesOnly Q := by
      intro visit hvisit
      obtain ⟨item, -, rfl⟩ := List.mem_map.mp hvisit
      exact h.idents item.1 item.2
    have hfold := @foldl_visitRule _ d read
      (items.map fun item => d.checkIdent item.1 item.2) (some ([], {}))
    rw [List.foldl_map] at hfold
    have hempty : MemoTree.Coherent Q read d.inferType d.memoKey ⟨∅, []⟩ :=
      MemoTree.coherent_empty []
    have hagrees := (MemoTree.agrees_runAll h.ranges hvisits hempty).sameOutcome
    rw [List.map_map] at hagrees
    rw [runParallelPass, hfold, Option.bind_some, Option.map_map]
    simp only [List.nil_append, Function.comp_def]
    exact hagrees
  | merge a b iha ihb =>
    rw [Shards.items, List.map_append, ReadTree.run_joined_append]
    exact iha.append ihb

/-- However the identifiers are shared among tasks, and whatever the tables remember, the document
gets the diagnostics of its rules' reads, and the observer has the keys of these reads. -/
theorem collect_eq_ruleReads (h : d.AsksFor Q) {shards : Shards (Position × Bool)}
    (hshards : shards.items = d.collectNodesWithErrorSubtree d.ident) :
    SameOutcome (d.collectCstDiagnosticsForDocument read shards) (d.ruleReads.run read) := by
  rw [collectNodesWithErrorSubtree_eq] at hshards
  have hrules := @sameOutcome_rules _ _ d read Q h
  have hpasses := hrules.append (@sameOutcome_shards _ d read Q h shards)
  have hall := (hpasses.append (SameOutcome.refl (d.nativeImport.run read))).map sortByStart
  have hnative : (ReadTree.joined [d.nativeImport]).run read = d.nativeImport.run read := by
    rw [ReadTree.run_joined_cons]
    simp only [ReadTree.joined, ReadTree.run, Option.map_some, List.append_nil]
    cases d.nativeImport.run read <;> rfl
  have hreads : d.ruleReads.run read = ((ReadTree.joined (d.ruleVisits.map (·.plain d.inferType) ++
      d.idents.map (fun item => (d.checkIdent item.1 item.2).plain d.inferType) ++
      [d.nativeImport])).run read).map fun o => (sortByStart o.1, o.2) := by
    rw [ruleReads, ReadTree.run_bind, Option.map_eq_bind]
    congr 1
    funext o
    simp only [ReadTree.run, Option.map_some, List.append_nil, Function.comp_apply]
  rw [hreads, ReadTree.run_joined_append, ReadTree.run_joined_append, hnative, ← hshards]
  have hcollect : d.collectCstDiagnosticsForDocument read shards =
      ((((d.runRulesOnDocument read {}).map fun o => (o.1, o.2.recorded)).bind fun o =>
        (d.runParallelPass read shards).map fun o' => (o.1 ++ o'.1, o.2 ++ o'.2)).bind fun o =>
          (d.nativeImport.run read).map fun o' => (o.1 ++ o'.1, o.2 ++ o'.2)).map
            fun o => (sortByStart o.1, o.2) := by
    unfold collectCstDiagnosticsForDocument
    simp only [Option.map_bind, Option.bind_map, Option.bind_assoc, Option.map_map,
      Function.comp_def]
  rw [hcollect]
  exact hall

/-- Two identifiers that a rule and the check of identifiers ask the types of, in two shards. -/
def twoIdents : CheckedDocument Bool where
  tree := .node ⟨false, false, false⟩ 0 3
    [.node ⟨true, false, false⟩ 0 1 [], .node ⟨true, false, false⟩ 2 3 []]
  incompleteMemberAccessExpr := false
  ident := true
  inferType := fun _ => .ask .hasBuiltins fun _ => .done .unknown
  rules := [⟨fun kind => kind, fun node _ => .fetch ⟨node, 0⟩ fun _ => .done []⟩]
  checkIdent := fun node _ => .fetch ⟨node, 0⟩ fun _ => .done []
  nativeImport := .done []

/-- The reads of an empty database. -/
def emptyRead : RuleRead → Option (RuleAnswer × List ObservedKey) :=
  RuleDb.read ⟨{ workspace := {}, base := {} }, {}⟩ 1

theorem collect_eq_ruleReads_twoIdents :
    SameOutcome (twoIdents.collectCstDiagnosticsForDocument emptyRead
      (.merge (.run [([0], true)]) (.run [([1], true)]))) (twoIdents.ruleReads.run emptyRead) := by
  refine @collect_eq_ruleReads _ _ _ _ (fun _ => True) ⟨?_, ?_, ?_⟩ _ ?_
  · intro rule hrule node inErrorSubtree
    rw [List.mem_singleton.mp hrule]
    exact ⟨trivial, fun _ => trivial⟩
  · exact fun node inErrorSubtree => ⟨trivial, fun _ => trivial⟩
  · exact fun _ _ _ _ _ => rfl
  · rw [collectNodesWithErrorSubtree_eq]
    decide

end CheckedDocument

end WitcherScriptLanguage
