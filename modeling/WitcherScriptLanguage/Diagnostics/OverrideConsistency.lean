import Mathlib.Algebra.Order.BigOperators.Group.List
import Mathlib.Algebra.Order.Ring.Nat
import WitcherScriptLanguage.Diagnostics.WorkspaceRules
import WitcherScriptLanguage.Resolve.ChangedKeys
import WitcherScriptLanguage.Resolve.Inference
import WitcherScriptLanguage.Resolve.MemberPurity

/-!
# Consistency of overrides

A method that overrides one of an ancestor must not be more restricted and takes as many
parameters (`diagnostics/override_consistency.rs`). The rule counts the parameters of the override
in the syntax tree and those of the ancestor in the symbol table, where extraction has put them.
-/

namespace WitcherScriptLanguage

/-- The parameters that a group declares, and the separators that stand in the same field. -/
def nameEntries (group : SyntaxNode) : List SyntaxNode := group.childrenByFieldName .names

def paramGroups (params : SyntaxNode) : List SyntaxNode :=
  params.children.filter fun child => child.kind = .funcParamGroup

def declaredParamCount (funcDecl : SyntaxNode) : Nat :=
  match funcDecl.childByFieldName .params with
  | none => 0
  | some params =>
    (paramGroups params).foldl (fun count group => count + (nameEntries group).length) 0

/-- A declaration that overrides a method of an ancestor. -/
structure Override where
  nameIdent : SyntaxNode
  parent : String
  ancestor : Definition
  own : Symbol

def overridden (db : SymbolDb) (callDepth : Nat) (document : ParsedDocument) (node : SyntaxNode) :
    Observed (Option Override) := do
  if (node.childByFieldName FieldName.annotation).isSome then return none
  let some container := document.enclosingSymbolAt node.range.start [.class, .state] | return none
  let some nameIdent := node.childByFieldName .name | return none
  let some parent ← db.superclassOf callDepth container.typeName | return none
  let some ancestor ← db.findClassBodyMember callDepth parent nameIdent.text | return none
  if ancestor.symbol.kind ≠ .method then return none
  let some own := document.enclosingSymbolAt nameIdent.range.start [.method] | return none
  return some ⟨nameIdent, parent, ancestor, own⟩

def declaredHere (name : String) (d : Definition) : RelatedLocation :=
  ⟨d.uri, d.symbol.selectionRange, "'" ++ name ++ "' declared here"⟩

def kindWeakerAccess : String := "override_weaker_access"

def kindParamCount : String := "override_param_count"

/-- "Weaker" means more accessible. -/
def weakerAccess (o : Override) : List WorkspaceDiagnostic :=
  let name := o.nameIdent.text
  if o.own.access ≤ o.ancestor.symbol.access then []
  else [{
    kind := kindWeakerAccess
    message := "Function '" ++ name ++ "' cannot have a weaker access modifier than in " ++
      "ancestor class '" ++ o.ancestor.symbol.containerName.getD o.parent ++ "'"
    severity := .error
    range := o.nameIdent.sourceRange
    related := [declaredHere name o.ancestor] }]

def ancestorParamCount (db : SymbolDb) (o : Override) : Nat :=
  (db.fullParametersOf o.ancestor.uri o.ancestor.symbol.id).length

def inconsistentParamCount (db : SymbolDb) (node : SyntaxNode) (o : Override) :
    List WorkspaceDiagnostic :=
  let name := o.nameIdent.text
  let ownCount := declaredParamCount node
  let ancestorCount := ancestorParamCount db o
  if ownCount = ancestorCount then []
  else [{
    kind := kindParamCount
    message := "Function '" ++ name ++ "' takes " ++ toString ownCount ++
      " parameter(s) which is inconsistent with base function (" ++ toString ancestorCount ++ ")"
    severity := .error
    range := ((node.childByFieldName .params).getD node).sourceRange
    related := [declaredHere name o.ancestor] }]

def checkOverride (db : SymbolDb) (callDepth : Nat) (document : ParsedDocument)
    (node : SyntaxNode) : Observed (List WorkspaceDiagnostic) := do
  let some o ← overridden db callDepth document node | return []
  return weakerAccess o ++ inconsistentParamCount db node o

/-! ### Parameters in the symbol table -/

/-- The parameters of a callable stay as they are. -/
def KeepsParameters (id : SymbolId) (symbols symbols' : List Symbol) : Prop :=
  parametersOf symbols' id = parametersOf symbols id

variable {symbols symbols' symbols'' : List Symbol} {id : SymbolId} {node : SyntaxNode}

lemma KeepsParameters.trans (h : KeepsParameters id symbols symbols')
    (h' : KeepsParameters id symbols' symbols'') : KeepsParameters id symbols symbols'' :=
  Eq.trans h' h

lemma parametersOf_append (symbols pushed : List Symbol) (id : SymbolId) :
    parametersOf (symbols ++ pushed) id = parametersOf symbols id ++ parametersOf pushed id :=
  List.filter_append ..

lemma keepsParameters_pushSymbol (node nameNode : SyntaxNode) {kind : SymbolKind}
    {spec : SymbolSpec} (h : kind = .parameter → spec.container ≠ some id) :
    KeepsParameters id symbols (pushSymbol symbols node nameNode kind spec) := by
  have hnone : parametersOf [newSymbol symbols node nameNode kind spec] id = [] := by
    rw [parametersOf, List.filter_eq_nil_iff]
    intro s hs hparam
    rw [List.mem_singleton.mp hs] at hparam
    simp only [Bool.and_eq_true, decide_eq_true_eq, beq_iff_eq] at hparam
    exact h hparam.1 hparam.2
  rw [KeepsParameters, pushSymbol, parametersOf_append, hnone, List.append_nil]

lemma keepsParameters_foldl {α : Type} {step : List Symbol → α → List Symbol}
    (hstep : ∀ symbols a, KeepsParameters id symbols (step symbols a)) (items : List α) :
    KeepsParameters id symbols (items.foldl step symbols) := by
  induction items generalizing symbols with
  | nil => rfl
  | cons a items ih => exact (hstep symbols a).trans ih

lemma keepsParameters_visitVarDecl (node : SyntaxNode) (container : Option SymbolId)
    (annotations : List Annotation) {kind : SymbolKind}
    (h : kind = .parameter → container ≠ some id) :
    KeepsParameters id symbols (visitVarDecl symbols node container annotations kind) :=
  keepsParameters_foldl (fun _ child => keepsParameters_pushSymbol node child h) _

lemma keepsParameters_enterDecl (node : SyntaxNode) (container : Option SymbolId)
    (annotations : List Annotation) {kind : SymbolKind} (spec : SymbolSpec)
    (frame : SymbolId → Mode) (hkind : kind ≠ .parameter) :
    KeepsParameters id symbols
      (enterDecl symbols node container annotations kind spec frame).symbols := by
  unfold enterDecl
  dsimp only
  cases node.firstChildKind .ident with
  | none => rfl
  | some nameNode => exact keepsParameters_pushSymbol node nameNode fun h => absurd h hkind

lemma callableKind_ne_parameter {container : Option SymbolId} {kind : SymbolKind}
    (h : kind ≠ .parameter) : callableKind container kind ≠ .parameter := by
  unfold callableKind
  split_ifs
  · decide
  · exact h

/-- Only a declaration's own parameters are pushed for it. -/
lemma keepsParameters_enterCallableDecl (node : SyntaxNode) (container : Option SymbolId)
    (annotations : List Annotation) {kind : SymbolKind} (hkind : kind ≠ .parameter)
    (hid : id.val < symbols.length) :
    KeepsParameters id symbols
      (enterCallableDecl symbols node container annotations kind).symbols := by
  have hdecl : KeepsParameters id symbols (enterDecl symbols node container annotations
      (callableKind container kind) (callableSpec node) (fun id => .callable id false)).symbols :=
    keepsParameters_enterDecl _ _ _ _ _ (callableKind_ne_parameter hkind)
  unfold enterCallableDecl
  cases node.firstChildKind .ident with
  | none => exact hdecl
  | some nameNode =>
    refine hdecl.trans ?_
    have hne : some (SymbolId.mk symbols.length) ≠ some id := by
      rintro ⟨⟩
      exact Nat.lt_irrefl _ hid
    unfold visitParams
    cases node.firstChildKind .funcParams with
    | none => rfl
    | some params =>
      exact keepsParameters_foldl
        (fun _ group => keepsParameters_visitVarDecl group _ _ fun _ => hne) _

lemma keepsParameters_enterInBody (node : SyntaxNode) (container : Option SymbolId)
    (pending : List Annotation) (hid : id.val < symbols.length) :
    KeepsParameters id symbols (enterInBody symbols node container pending).symbols := by
  unfold enterInBody
  split
  · rfl
  · exact keepsParameters_enterDecl _ _ _ _ _ (by decide)
  · exact keepsParameters_enterDecl _ _ _ _ _ (by decide)
  · exact keepsParameters_enterDecl _ _ _ _ _ (by decide)
  · exact keepsParameters_enterDecl _ _ _ _ _ (by decide)
  · exact keepsParameters_enterCallableDecl _ _ _ (by decide) hid
  · exact keepsParameters_enterCallableDecl _ _ _ (by decide) hid
  · exact keepsParameters_visitVarDecl _ _ _ (by rintro ⟨⟩)
  · exact keepsParameters_visitVarDecl _ _ _ (by rintro ⟨⟩)
  · exact keepsParameters_visitVarDecl _ _ _ (by rintro ⟨⟩)
  · rfl

lemma keepsParameters_enterNode (mode : Mode) (node : SyntaxNode) (hid : id.val < symbols.length) :
    KeepsParameters id symbols (enterNode mode symbols node).symbols := by
  unfold enterNode
  split_ifs
  · cases mode with
    | body container pending => exact keepsParameters_enterInBody node container pending hid
    | enumMembers enumId =>
      dsimp only [enterInEnum]
      split_ifs
      · cases node.firstChildKind .ident with
        | none => rfl
        | some nameNode => exact keepsParameters_pushSymbol node nameNode (by rintro ⟨⟩)
      · rfl
    | callable id' bodySeen =>
      dsimp only [enterInCallable]
      split_ifs
      · rfl
      · rfl
  · rfl

lemma Pushes.length_le (h : Pushes symbols symbols') : symbols.length ≤ symbols'.length := by
  induction h with
  | refl => exact Nat.le_refl _
  | push _ node nameNode kind spec ih =>
    rw [pushSymbol, List.length_append]
    omega

mutual

lemma keepsParameters_visitNode (mode : Mode) (symbols : List Symbol)
    (hid : id.val < symbols.length) :
    (node : SyntaxNode) → KeepsParameters id symbols (visitNode mode symbols node).2
  | .mk kind named field text range sourceRange children => by
    have henter : KeepsParameters id symbols (enterNode mode symbols
        (.mk kind named field text range sourceRange children)).symbols :=
      keepsParameters_enterNode mode _ hid
    have hpushes : Pushes symbols (enterNode mode symbols
        (.mk kind named field text range sourceRange children)).symbols := pushes_enterNode mode _
    have hid' := Nat.lt_of_lt_of_le hid hpushes.length_le
    unfold visitNode
    dsimp only
    cases (enterNode mode symbols (.mk kind named field text range sourceRange children)).frame with
    | none => exact henter
    | some inner => exact henter.trans (keepsParameters_visitNodes inner _ hid' children)

lemma keepsParameters_visitNodes (mode : Mode) (symbols : List Symbol)
    (hid : id.val < symbols.length) :
    (nodes : List SyntaxNode) → KeepsParameters id symbols (visitNodes mode symbols nodes)
  | [] => rfl
  | node :: nodes => by
    have hid' := Nat.lt_of_lt_of_le hid (pushes_visitNode mode symbols node).length_le
    unfold visitNodes
    exact (keepsParameters_visitNode mode symbols hid node).trans
      (keepsParameters_visitNodes _ _ hid' nodes)

end

/-- The walk over the nodes enters a node in a frame, with the symbols in front of it. -/
inductive Visits : Mode → List Symbol → List SyntaxNode → Mode → List Symbol → SyntaxNode → Prop
  | here {mode : Mode} {symbols : List Symbol} {node : SyntaxNode} {nodes : List SyntaxNode} :
      Visits mode symbols (node :: nodes) mode symbols node
  | inside {mode inner mode' : Mode} {symbols symbols' : List Symbol} {node node' : SyntaxNode}
      {nodes : List SyntaxNode} : (enterNode mode symbols node).frame = some inner →
        Visits inner (enterNode mode symbols node).symbols node.children mode' symbols' node' →
          Visits mode symbols (node :: nodes) mode' symbols' node'
  | later {mode mode' : Mode} {symbols symbols' : List Symbol} {node node' : SyntaxNode}
      {nodes : List SyntaxNode} :
        Visits (visitNode mode symbols node).1 (visitNode mode symbols node).2 nodes
          mode' symbols' node' → Visits mode symbols (node :: nodes) mode' symbols' node'

lemma visitNode_symbols (mode : Mode) (symbols : List Symbol) (node : SyntaxNode) :
    (visitNode mode symbols node).2 = match (enterNode mode symbols node).frame with
      | none => (enterNode mode symbols node).symbols
      | some inner => visitNodes inner (enterNode mode symbols node).symbols node.children := by
  cases node with
  | mk kind named field text range sourceRange children =>
    rw [visitNode]
    dsimp only [SyntaxNode.children]
    cases (enterNode mode symbols (.mk kind named field text range sourceRange children)).frame with
    | none => rfl
    | some inner => rfl

variable {mode mode' : Mode} {nodes : List SyntaxNode}

/-- What the walk has pushed in front of a node is contained in what it has pushed. -/
lemma Visits.contained (h : Visits mode symbols nodes mode' symbols' node)
    (hmode : InTable symbols mode.symbolId) (hsymbols : Contained symbols) :
    Contained symbols' := by
  induction h with
  | here => exact hsymbols
  | @inside mode inner mode' symbols symbols' node node' nodes hframe _ ih =>
    have hok := enterNode_ok node hmode
    exact ih (hok.frame inner hframe) (hok.ext.contained hsymbols)
  | @later mode mode' symbols symbols' node node' nodes _ ih =>
    obtain ⟨hext, hmode'⟩ := extends_visitNode mode symbols hmode node
    exact ih hmode' (hext.contained hsymbols)

/-- The parameters of a symbol that is in the table once a node is entered are final. -/
lemma Visits.keepsParameters (h : Visits mode symbols nodes mode' symbols' node)
    (hid : id.val < (enterNode mode' symbols' node).symbols.length) :
    KeepsParameters id (enterNode mode' symbols' node).symbols (visitNodes mode symbols nodes) ∧
      id.val < (visitNodes mode symbols nodes).length := by
  induction h with
  | @here mode symbols node nodes =>
    have hnode : KeepsParameters id (enterNode mode symbols node).symbols
        (visitNode mode symbols node).2 ∧ id.val < (visitNode mode symbols node).2.length := by
      rw [visitNode_symbols]
      cases (enterNode mode symbols node).frame with
      | none => exact ⟨rfl, hid⟩
      | some inner =>
        exact ⟨keepsParameters_visitNodes inner _ hid _,
          Nat.lt_of_lt_of_le hid (pushes_visitNodes inner _ _).length_le⟩
    rw [visitNodes]
    exact ⟨hnode.1.trans (keepsParameters_visitNodes _ _ hnode.2 nodes),
      Nat.lt_of_lt_of_le hnode.2 (pushes_visitNodes _ _ nodes).length_le⟩
  | @inside mode inner mode' symbols symbols' node node' nodes hframe _ ih =>
    have hinner := ih hid
    have hnode : (visitNode mode symbols node).2 =
        visitNodes inner (enterNode mode symbols node).symbols node.children := by
      rw [visitNode_symbols, hframe]
    rw [← hnode] at hinner
    rw [visitNodes]
    exact ⟨hinner.1.trans (keepsParameters_visitNodes _ _ hinner.2 nodes),
      Nat.lt_of_lt_of_le hinner.2 (pushes_visitNodes _ _ nodes).length_le⟩
  | later _ ih =>
    rw [visitNodes]
    exact ih hid

/-- The names that a declaration gives its parameters. -/
def parameterNames (funcDecl : SyntaxNode) : List SyntaxNode :=
  match funcDecl.firstChildKind .funcParams with
  | none => []
  | some params => (paramGroups params).flatMap fun group =>
    (nameEntries group).filter fun entry => entry.kind = .ident

/-- Nothing but names stands in the name fields of the parameter groups. -/
def OnlyNames (funcDecl : SyntaxNode) : Prop :=
  ∀ params ∈ funcDecl.firstChildKind .funcParams, ∀ group ∈ paramGroups params,
    ∀ entry ∈ nameEntries group, entry.kind = .ident

lemma length_parametersOf_foldl {α : Type} {step : List Symbol → α → List Symbol}
    (count : α → Nat) {items : List α} (hstep : ∀ symbols, ∀ a ∈ items,
      (parametersOf (step symbols a) id).length = (parametersOf symbols id).length + count a) :
    (parametersOf (items.foldl step symbols) id).length =
      (parametersOf symbols id).length + (items.map count).sum := by
  induction items generalizing symbols with
  | nil => rfl
  | cons a items ih =>
    have hfirst := hstep symbols a List.mem_cons_self
    have hrest := @ih (step symbols a) fun symbols b hb =>
      hstep symbols b (List.mem_cons_of_mem a hb)
    rw [List.foldl_cons, List.map_cons, List.sum_cons, hrest, hfirst, Nat.add_assoc]

lemma length_parametersOf_visitVarDecl {group : SyntaxNode} (hkind : group.kind ≠ .autobindDecl) :
    (parametersOf (visitVarDecl symbols group (some id) [] .parameter) id).length =
      (parametersOf symbols id).length +
        ((nameEntries group).filter fun entry => entry.kind = .ident).length := by
  unfold visitVarDecl
  dsimp only
  rw [if_neg hkind, length_parametersOf_foldl fun _ => 1]
  · rw [List.map_const', List.sum_replicate_nat, Nat.mul_one]
    rfl
  · intro symbols child _
    rw [pushSymbol, parametersOf_append, List.length_append]
    have hone : ∀ s : Symbol, s.kind = .parameter → s.container = some id →
        parametersOf [s] id = [s] := by
      intro s hs hcontainer
      rw [parametersOf, List.filter_eq_self]
      intro s' hs'
      rw [List.mem_singleton.mp hs', hs, hcontainer]
      simp
    rw [hone _ rfl rfl]
    rfl

/-- A declaration has one parameter in the table for each of its names. -/
lemma length_parametersOf_visitParams (funcDecl : SyntaxNode) :
    (parametersOf (visitParams symbols funcDecl id) id).length =
      (parametersOf symbols id).length + (parameterNames funcDecl).length := by
  unfold visitParams parameterNames
  cases funcDecl.firstChildKind .funcParams with
  | none => rfl
  | some params =>
    dsimp only
    rw [List.length_flatMap]
    apply length_parametersOf_foldl
    intro symbols group hgroup
    have hkind : group.kind = .funcParamGroup := of_decide_eq_true (List.mem_filter.mp hgroup).2
    apply length_parametersOf_visitVarDecl
    rw [hkind]
    decide

/-- A symbol that has not been pushed contains nothing. -/
lemma parametersOf_next (h : Contained symbols) : parametersOf symbols ⟨symbols.length⟩ = [] := by
  rw [parametersOf, List.filter_eq_nil_iff]
  intro s hs hparam
  simp only [Bool.and_eq_true, decide_eq_true_eq, beq_iff_eq] at hparam
  obtain ⟨t, ht, -⟩ := (h s hs).2 _ hparam.2
  rw [List.getElem?_eq_none (Nat.le_refl _)] at ht
  cases ht

lemma enterNode_funcDecl {container : Option SymbolId} {pending : List Annotation}
    (hnamed : node.isNamed = true) (hkind : node.kind = .funcDecl) :
    enterNode (.body container pending) symbols node =
      enterCallableDecl symbols node container pending .function := by
  rw [enterNode, if_pos hnamed]
  dsimp only [enterInBody]
  rw [hkind]

lemma length_parametersOf_enterNode {container : Option SymbolId} {pending : List Annotation}
    {nameNode : SyntaxNode} (hnamed : node.isNamed = true) (hkind : node.kind = .funcDecl)
    (hname : node.firstChildKind .ident = some nameNode) (hsymbols : Contained symbols) :
    symbols.length < (enterNode (.body container pending) symbols node).symbols.length ∧
      (parametersOf (enterNode (.body container pending) symbols node).symbols
        ⟨symbols.length⟩).length = (parameterNames node).length := by
  rw [enterNode_funcDecl hnamed hkind]
  have hpushed : (enterCallableDecl symbols node container pending .function).symbols =
      visitParams (enterDecl symbols node container pending (callableKind container .function)
        (callableSpec node) (fun id => .callable id false)).symbols node ⟨symbols.length⟩ := by
    rw [enterCallableDecl, hname]
  have hdecl : (enterDecl symbols node container pending (callableKind container .function)
      (callableSpec node) (fun id => .callable id false)).symbols.length = symbols.length + 1 := by
    rw [enterDecl, hname]
    exact List.length_append
  have hkept : KeepsParameters ⟨symbols.length⟩ symbols (enterDecl symbols node container pending
      (callableKind container .function) (callableSpec node)
      (fun id => .callable id false)).symbols :=
    keepsParameters_enterDecl _ _ _ _ _ (callableKind_ne_parameter (by decide))
  rw [hpushed]
  generalize (enterDecl symbols node container pending (callableKind container .function)
    (callableSpec node) (fun id => .callable id false)).symbols = declared at hdecl hkept ⊢
  constructor
  · have hpushes : Pushes declared (visitParams declared node ⟨symbols.length⟩) :=
      pushes_visitParams node _
    have hle := hpushes.length_le
    omega
  · rw [length_parametersOf_visitParams, hkept, parametersOf_next hsymbols]
    exact Nat.zero_add _

/-- The parameters of a declared function in the table of its document. -/
theorem Visits.length_parametersOf {root nameNode : SyntaxNode} {container : Option SymbolId}
    {pending : List Annotation}
    (h : Visits (.body none []) [] root.children (.body container pending) symbols node)
    (hnamed : node.isNamed = true) (hkind : node.kind = .funcDecl)
    (hname : node.firstChildKind .ident = some nameNode) :
    (parametersOf (extractSymbols root) ⟨symbols.length⟩).length =
      (parameterNames node).length := by
  have hsymbols : Contained symbols :=
    h.contained (fun id hid => by cases hid) fun s hs => by cases hs
  obtain ⟨hlt, hlength⟩ :=
    @length_parametersOf_enterNode symbols node container pending nameNode hnamed hkind hname
      hsymbols
  have hkept : KeepsParameters ⟨symbols.length⟩ _ _ := (h.keepsParameters hlt).1
  rw [extractSymbols, hkept, hlength]

lemma sum_eq_iff {α : Type} {f g : α → Nat} {items : List α} (hle : ∀ a ∈ items, f a ≤ g a) :
    (items.map f).sum = (items.map g).sum ↔ ∀ a ∈ items, f a = g a := by
  induction items with
  | nil => simp
  | cons a items ih =>
    have hrest := ih fun b hb => hle b (List.mem_cons_of_mem a hb)
    have hsum : (items.map f).sum ≤ (items.map g).sum :=
      List.sum_le_sum fun b hb => hle b (List.mem_cons_of_mem a hb)
    have ha := hle a List.mem_cons_self
    rw [List.map_cons, List.map_cons, List.sum_cons, List.sum_cons, List.forall_mem_cons, ← hrest]
    omega

lemma foldl_add_length (groups : List SyntaxNode) (count : Nat) :
    groups.foldl (fun count group => count + (nameEntries group).length) count =
      count + (groups.map fun group => (nameEntries group).length).sum := by
  induction groups generalizing count with
  | nil => rfl
  | cons group groups ih =>
    rw [List.foldl_cons, ih, List.map_cons, List.sum_cons, Nat.add_assoc]

/-- Where the parameter list is what the field of that name holds, the count is right as long as
only names are in it. -/
lemma declaredParamCount_eq_length_iff
    (hparams : node.childByFieldName .params = node.firstChildKind .funcParams) :
    declaredParamCount node = (parameterNames node).length ↔ OnlyNames node := by
  rw [declaredParamCount, parameterNames, OnlyNames, hparams]
  cases node.firstChildKind .funcParams with
  | none => simp
  | some params =>
    have hle : ∀ group ∈ paramGroups params,
        ((nameEntries group).filter fun entry => entry.kind = .ident).length ≤
          (nameEntries group).length := fun group _ => List.length_filter_le _ _
    have hforall : (∀ params' ∈ some params, ∀ group ∈ paramGroups params',
        ∀ entry ∈ nameEntries group, entry.kind = .ident) ↔ ∀ group ∈ paramGroups params,
          ∀ entry ∈ nameEntries group, entry.kind = .ident := by simp
    dsimp only
    rw [foldl_add_length, Nat.zero_add, List.length_flatMap, eq_comm, sum_eq_iff hle, hforall]
    apply forall₂_congr
    intro group _
    rw [List.length_filter_eq_length_iff]
    simp

/-! ### Reports -/

variable {db : SymbolDb} {callDepth : Nat} {document : ParsedDocument} {o : Override}

lemma value_checkOverride (h : (overridden db callDepth document node).value = some (some o)) :
    (checkOverride db callDepth document node).value =
      some (weakerAccess o ++ inconsistentParamCount db node o) := by
  rw [checkOverride, Observed.value_bind, h]
  rfl

/-- What is reported is a difference of the counts. -/
lemma reports_paramCount_iff (db : SymbolDb) (node : SyntaxNode) (o : Override) :
    (∃ d ∈ weakerAccess o ++ inconsistentParamCount db node o, d.kind = kindParamCount) ↔
      declaredParamCount node ≠ ancestorParamCount db o := by
  constructor
  · rintro ⟨d, hd, hkind⟩ heq
    rcases List.mem_append.mp hd with hd | hd
    · unfold weakerAccess at hd
      dsimp only at hd
      split_ifs at hd
      · cases hd
      · rw [List.mem_singleton.mp hd] at hkind
        have hne : kindWeakerAccess ≠ kindParamCount := by decide
        exact absurd hkind hne
    · rw [inconsistentParamCount, if_pos heq] at hd
      cases hd
  · intro hne
    have hreported := if_neg hne ▸ inconsistentParamCount.eq_def db node o
    rw [hreported]
    exact ⟨_, List.mem_append_right _ (List.mem_singleton_self _), rfl⟩

/-- The count of a function's parameters is the number that extraction makes of the declaration
exactly when only names stand in the name fields of its groups. Then differences of the counts
are reported as they are; otherwise one is missed or made up where the ancestor has one of the two
numbers of parameters. -/
theorem declaredParamCount_eq_iff {root nameNode : SyntaxNode} {container : Option SymbolId}
    {pending : List Annotation}
    (h : Visits (.body none []) [] root.children (.body container pending) symbols node)
    (hnamed : node.isNamed = true) (hkind : node.kind = .funcDecl)
    (hname : node.firstChildKind .ident = some nameNode)
    (hparams : node.childByFieldName .params = node.firstChildKind .funcParams) :
    (declaredParamCount node = (parametersOf (extractSymbols root) ⟨symbols.length⟩).length ↔
        OnlyNames node) ∧
      ∀ (db : SymbolDb) (callDepth : Nat) (document : ParsedDocument) (o : Override),
        (overridden db callDepth document node).value = some (some o) →
          ∃ diagnostics, (checkOverride db callDepth document node).value = some diagnostics ∧
            (((∃ d ∈ diagnostics, d.kind = kindParamCount) ↔
                (parametersOf (extractSymbols root) ⟨symbols.length⟩).length ≠
                  ancestorParamCount db o) ↔
              OnlyNames node ∨ ancestorParamCount db o ≠ declaredParamCount node ∧
                ancestorParamCount db o ≠ (parameterNames node).length) := by
  have hlength := h.length_parametersOf hnamed hkind hname
  have hcount := declaredParamCount_eq_length_iff hparams
  rw [hlength]
  refine ⟨hcount, fun db callDepth document o ho => ⟨_, value_checkOverride ho, ?_⟩⟩
  rw [reports_paramCount_iff, ← hcount]
  omega

/-- A parameter list on a single line. -/
def paramList (text : String) (start : Nat) (groups : List SyntaxNode) : SyntaxNode :=
  let range : ByteRange := ⟨start, start + text.toList.length⟩
  .mk .funcParams true (some .params) text range range.inFirstLine groups

def comma (start : Nat) : SyntaxNode :=
  let range : ByteRange := ⟨start, start + 1⟩
  .mk .other false (some .names) "," range range.inFirstLine []

def classB : SyntaxNode :=
  branch .other "class B { function F(a : int, b : int) {} }" 0
    [branch .classDecl "class B { function F(a : int, b : int) {} }" 0
      [leaf .ident "B" 6,
        branch .funcDecl "function F(a : int, b : int) {}" 10
          [leaf .ident "F" 19 (some .name),
            paramList "(a : int, b : int)" 20
              [branch .funcParamGroup "a : int" 21
                [leaf .ident "a" 21 (some .names), leaf .typeAnnot "int" 25],
              branch .funcParamGroup "b : int" 30
                [leaf .ident "b" 30 (some .names), leaf .typeAnnot "int" 34]]]]]

/-- `function F(a : int) {}` -/
def singleF : SyntaxNode :=
  branch .funcDecl "function F(a : int) {}" 20
    [leaf .ident "F" 29 (some .name),
      paramList "(a : int)" 30
        [branch .funcParamGroup "a : int" 31
          [leaf .ident "a" 31 (some .names), leaf .typeAnnot "int" 35]]]

/-- `function F(a, b : int) {}` -/
def groupedF : SyntaxNode :=
  branch .funcDecl "function F(a, b : int) {}" 20
    [leaf .ident "F" 29 (some .name),
      paramList "(a, b : int)" 30
        [branch .funcParamGroup "a, b : int" 31
          [leaf .ident "a" 31 (some .names), comma 32, leaf .ident "b" 34 (some .names),
            leaf .typeAnnot "int" 38]]]

def classCWith (f : SyntaxNode) : SyntaxNode :=
  let text := "class C extends B \x7b " ++ f.text ++ " \x7d"
  branch .other text 0 [branch .classDecl text 0 [leaf .ident "C" 6, leaf .ident "B" 16, f]]

def overridesOf (f : SyntaxNode) : SymbolDb :=
  workspaceOf [.update "file:///b.ws" (extractedDocument classB),
    .update "file:///c.ws" (extractedDocument (classCWith f))]

theorem declaredParamCount_eq_iff_single :
    declaredParamCount singleF = (parametersOf (extractSymbols (classCWith singleF)) ⟨1⟩).length ∧
      ∃ diagnostics, (checkOverride (overridesOf singleF) 5 (extractedDocument (classCWith singleF))
        singleF).value = some diagnostics ∧ ∃ d ∈ diagnostics, d.kind = kindParamCount := by
  have hvisit : ∃ symbols, symbols.length = 1 ∧ Visits (.body none []) []
      (classCWith singleF).children (.body (some ⟨0⟩) []) symbols singleF :=
    ⟨_, rfl, .inside rfl (.later (.later .here))⟩
  obtain ⟨symbols, hlength, hvisit⟩ := hvisit
  have h := @declaredParamCount_eq_iff symbols singleF (classCWith singleF)
    (leaf .ident "F" 29 (some .name)) (some ⟨0⟩) [] hvisit rfl rfl rfl rfl
  rw [hlength] at h
  have hnames : OnlyNames singleF := by
    rintro _ ⟨⟩ group hgroup entry hentry
    rw [List.mem_singleton.mp hgroup] at hentry
    rw [List.mem_singleton.mp hentry]
    rfl
  have hoverride : ((overridden (overridesOf singleF) 5 (extractedDocument (classCWith singleF))
      singleF).value.bind fun o => o.map (ancestorParamCount (overridesOf singleF))) = some 2 := by
    decide +kernel
  obtain ⟨_, hvalue, hsome⟩ := Option.bind_eq_some_iff.mp hoverride
  obtain ⟨o, rfl, hcount⟩ := Option.map_eq_some_iff.mp hsome
  obtain ⟨diagnostics, hdiagnostics, hreported⟩ := h.2 _ _ _ o hvalue
  refine ⟨h.1.mpr hnames, diagnostics, hdiagnostics, (hreported.mpr (.inl hnames)).mpr ?_⟩
  rw [hcount]
  decide

/-- The comma counts as a parameter, and a correct override is reported. -/
theorem not_declaredParamCount_eq_grouped :
    declaredParamCount groupedF = 3 ∧
      (parametersOf (extractSymbols (classCWith groupedF)) ⟨1⟩).length = 2 ∧
      ((checkOverride (overridesOf groupedF) 5 (extractedDocument (classCWith groupedF))
          groupedF).value.map fun diagnostics => diagnostics.map fun d => (d.kind, d.message)) =
        some [(kindParamCount, "Function 'F' takes 3 parameter(s) which is inconsistent with base " ++
          "function (2)")] := by
  refine ⟨rfl, rfl, ?_⟩
  decide +kernel

/-- The ancestor's count is the number of parameters of its declaration, in an index that alone
has its document. -/
theorem ancestorParamCount_eq {root nameNode : SyntaxNode} {container : Option SymbolId}
    {pending : List Annotation}
    (h : Visits (.body none []) [] root.children (.body container pending) symbols node)
    (hnamed : node.isNamed = true) (hkind : node.kind = .funcDecl)
    (hname : node.firstChildKind .ident = some nameNode)
    (hlookup : db.workspace.documents.lookup o.ancestor.uri = some (extractSymbols root))
    (hid : o.ancestor.symbol.id = ⟨symbols.length⟩)
    (hbase : db.base.documents.lookup o.ancestor.uri = none)
    (hbuiltins : ∀ b ∈ db.builtins, b.documents.lookup o.ancestor.uri = none) :
    ancestorParamCount db o = (parameterNames node).length := by
  have hworkspace : db.workspace.fullParametersOf o.ancestor.uri o.ancestor.symbol.id =
      parametersOf (extractSymbols root) ⟨symbols.length⟩ := by
    rw [WorkspaceIndex.fullParametersOf, hlookup, hid]
    rfl
  rw [← h.length_parametersOf hnamed hkind hname, ancestorParamCount, SymbolDb.fullParametersOf,
    hworkspace]
  cases hlist : parametersOf (extractSymbols root) ⟨symbols.length⟩ with
  | cons s rest => rfl
  | nil =>
    have hbase' : db.shadowedBase.fullParametersOf o.ancestor.uri o.ancestor.symbol.id = [] := by
      rw [ShadowedBase.fullParametersOf, SymbolDb.shadowedBase, WorkspaceIndex.fullParametersOf,
        hbase]
      split_ifs
      · rfl
      · rfl
    dsimp only
    rw [hbase']
    cases hb : db.builtins with
    | none => rfl
    | some b =>
      have hb' := hbuiltins b hb
      simp [WorkspaceIndex.fullParametersOf, hb']

end WitcherScriptLanguage
