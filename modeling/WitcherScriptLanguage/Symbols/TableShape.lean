import WitcherScriptLanguage.Symbols.Extraction

/-!
# The shape of the symbol table

What extraction makes of a list of nodes, as a relation between the table in front of it and the
table behind it: which nodes are declarations, and which container each of them has. A property of
the table is proved by induction on this relation.
-/

namespace WitcherScriptLanguage

/-- The children of a callable among which its locals are: those of its first block. -/
def IsBody (node : SyntaxNode) (body : List SyntaxNode) : Prop :=
  body = [] ∨ ∃ block ∈ node.children, block.kind = .funcBlock ∧ body = block.children

/-- A declaration that extraction enters as a callable: its parameters are pushed, and its first
block opens a body. -/
def SyntaxNode.EntersCallable (node : SyntaxNode) : Prop :=
  (node.kind = .funcDecl ∨ node.kind = .eventDecl) ∧ (node.firstChildKind .ident).isSome

/-- In a container, the nodes take the first table to the second one. -/
inductive Extracts : Option SymbolId → List SyntaxNode → List Symbol → List Symbol → Prop
  | done (container : Option SymbolId) (symbols : List Symbol) : Extracts container [] symbols symbols
  /-- A node without symbols. -/
  | skip {container : Option SymbolId} {node : SyntaxNode} {nodes : List SyntaxNode}
      {symbols final : List Symbol} (rest : Extracts container nodes symbols final) :
      Extracts container (node :: nodes) symbols final
  /-- A declaration of variables or fields. -/
  | names {container : Option SymbolId} {node : SyntaxNode} {nodes : List SyntaxNode}
      {symbols final : List Symbol} (annotations : List Annotation) {kind : SymbolKind}
      (hkind : kind ≠ .parameter)
      (rest : Extracts container nodes (visitVarDecl symbols node container annotations kind) final) :
      Extracts container (node :: nodes) symbols final
  | enumMember {container : Option SymbolId} {node nameNode : SyntaxNode} {nodes : List SyntaxNode}
      {symbols final : List Symbol} (hname : node.firstChildKind .ident = some nameNode)
      (rest : Extracts container nodes
        (pushSymbol symbols node nameNode .enumMember { container }) final) :
      Extracts container (node :: nodes) symbols final
  /-- A node that is no declaration, with declarations below it. -/
  | within {container : Option SymbolId} {node : SyntaxNode} {nodes : List SyntaxNode}
      {symbols inner final : List Symbol} (below : Extracts container node.children symbols inner)
      (rest : Extracts container nodes inner final) : Extracts container (node :: nodes) symbols final
  /-- A type with its members. -/
  | type {container : Option SymbolId} {node nameNode : SyntaxNode} {nodes : List SyntaxNode}
      {symbols inner final : List Symbol} {kind : SymbolKind} {spec : SymbolSpec}
      (hname : node.firstChildKind .ident = some nameNode) (hkind : kind ≠ .parameter)
      (hspec : spec.container = container)
      (below : Extracts (some ⟨symbols.length⟩) node.children
        (pushSymbol symbols node nameNode kind spec) inner)
      (rest : Extracts container nodes inner final) : Extracts container (node :: nodes) symbols final
  /-- A callable with its parameters and the locals of its body. -/
  | callable {container : Option SymbolId} {node nameNode : SyntaxNode} {nodes body : List SyntaxNode}
      {symbols inner final : List Symbol} {kind : SymbolKind} {spec : SymbolSpec}
      (hname : node.firstChildKind .ident = some nameNode) (henters : node.EntersCallable)
      (hkind : kind.isCallable = true) (hspec : spec.container = container)
      (hbody : IsBody node body)
      (below : Extracts (some ⟨symbols.length⟩) body
        (visitParams (pushSymbol symbols node nameNode kind spec) node ⟨symbols.length⟩) inner)
      (rest : Extracts container nodes inner final) : Extracts container (node :: nodes) symbols final

/-! ### Extraction visits the nodes -/

lemma isCallable_callableKind (container : Option SymbolId) {kind : SymbolKind}
    (h : kind.isCallable = true) : (callableKind container kind).isCallable = true := by
  unfold callableKind
  split_ifs
  · rfl
  · exact h

/-- The frame of a type or of a node that is no declaration. -/
def Mode.InBody : Mode → Prop
  | .body _ _ | .enumMembers _ => True
  | .callable _ _ => False

/-- The symbols behind a node, from what entering it leaves. -/
def symbolsBehind (entered : Entered) (children : List SyntaxNode) : List Symbol :=
  match entered.frame with
  | none => entered.symbols
  | some inner => visitNodes inner entered.symbols children

lemma visitNode_eq (mode : Mode) (symbols : List Symbol) (node : SyntaxNode) :
    visitNode mode symbols node = ((enterNode mode symbols node).current,
      symbolsBehind (enterNode mode symbols node) node.children) := by
  cases node with
  | mk kind named field text range sourceRange children =>
    rw [visitNode, symbolsBehind]
    cases (enterNode mode symbols (.mk kind named field text range sourceRange children)).frame <;>
      rfl

/-- A node leaves its frame about the same symbol. -/
lemma current_enterNode {mode : Mode} (hmode : mode.InBody) (symbols : List Symbol)
    (node : SyntaxNode) : (enterNode mode symbols node).current.InBody ∧
      (enterNode mode symbols node).current.symbolId = mode.symbolId := by
  unfold enterNode
  split_ifs
  · cases mode with
    | body container pending =>
      have hbody (pending : List Annotation) : (Mode.body container pending).InBody ∧
          (Mode.body container pending).symbolId = container := ⟨trivial, rfl⟩
      have hdecl (kind : SymbolKind) (spec : SymbolSpec) (frame : SymbolId → Mode) :
          (enterDecl symbols node container pending kind spec frame).current =
            .body container [] := by
        unfold enterDecl
        cases node.firstChildKind .ident <;> rfl
      have hcallable (kind : SymbolKind) :
          (enterCallableDecl symbols node container pending kind).current =
            .body container [] := by
        unfold enterCallableDecl
        cases node.firstChildKind .ident <;> exact hdecl _ _ _
      dsimp only [enterInBody]
      split
      · exact hbody _
      all_goals first | exact hbody _ | skip
      · rw [enterTypeDecl, hdecl]
        exact hbody _
      · rw [enterTypeDecl, hdecl]
        exact hbody _
      · rw [enterEnumDecl, hdecl]
        exact hbody _
      · rw [enterStateDecl, hdecl]
        exact hbody _
      · rw [hcallable]
        exact hbody _
      · rw [hcallable]
        exact hbody _
    | enumMembers enumId =>
      dsimp only [enterInEnum]
      split_ifs
      · cases node.firstChildKind .ident <;> exact ⟨trivial, rfl⟩
      · exact ⟨trivial, rfl⟩
    | callable id bodySeen => exact hmode.elim
  · exact ⟨hmode, rfl⟩

section Node

variable {node : SyntaxNode} {symbols : List Symbol}

/-- What the children of a node are known to make of a table, in any frame that opens for them. -/
structure ChildrenVisit (children : List SyntaxNode) : Prop where
  inBody : ∀ (mode : Mode) (symbols : List Symbol), mode.InBody →
    Extracts mode.symbolId children symbols (visitNodes mode symbols children)
  inCallable : ∀ (id : SymbolId) (symbols : List Symbol), ∃ body,
    (body = [] ∨ ∃ block ∈ children, block.kind = .funcBlock ∧ body = block.children) ∧
      Extracts (some id) body symbols (visitNodes (.callable id false) symbols children)

variable (hchildren : ChildrenVisit node.children) {nodes : List SyntaxNode} {final : List Symbol}
include hchildren

lemma extracts_enterDecl (container : Option SymbolId) (annotations : List Annotation)
    {kind : SymbolKind} (spec : SymbolSpec) {frame : SymbolId → Mode} (hkind : kind ≠ .parameter)
    (hframe : ∀ id, (frame id).InBody ∧ (frame id).symbolId = some id)
    (rest : Extracts container nodes (symbolsBehind
      (enterDecl symbols node container annotations kind spec frame) node.children) final) :
    Extracts container (node :: nodes) symbols final := by
  unfold enterDecl at rest
  cases hname : node.firstChildKind .ident with
  | none =>
    rw [hname] at rest
    exact .within (hchildren.inBody (.body container _) symbols trivial) rest
  | some nameNode =>
    rw [hname] at rest
    obtain ⟨hbody, hid⟩ := hframe ⟨symbols.length⟩
    have hbelow := hchildren.inBody (frame ⟨symbols.length⟩) (pushSymbol symbols node nameNode kind
      { spec with container, annotations := annotations ++ node.directAnnotations }) hbody
    rw [hid] at hbelow
    exact .type hname hkind rfl hbelow rest

lemma extracts_enterCallableDecl (container : Option SymbolId) (annotations : List Annotation)
    {kind : SymbolKind} (hdecl : node.kind = .funcDecl ∨ node.kind = .eventDecl)
    (hkind : kind.isCallable = true)
    (rest : Extracts container nodes (symbolsBehind
      (enterCallableDecl symbols node container annotations kind) node.children) final) :
    Extracts container (node :: nodes) symbols final := by
  unfold enterCallableDecl enterDecl at rest
  cases hname : node.firstChildKind .ident with
  | none =>
    rw [hname] at rest
    exact .within (hchildren.inBody (.body container _) symbols trivial) rest
  | some nameNode =>
    rw [hname] at rest
    obtain ⟨body, hbody, hbelow⟩ := hchildren.inCallable ⟨symbols.length⟩
      (visitParams (pushSymbol symbols node nameNode (callableKind container kind)
        { callableSpec node with
          container, annotations := annotations ++ node.directAnnotations }) node ⟨symbols.length⟩)
    have henters : node.EntersCallable := ⟨hdecl, by rw [hname, Option.isSome_some]⟩
    exact .callable hname henters (isCallable_callableKind container hkind) rfl hbody hbelow rest

lemma extracts_enterInBody (container : Option SymbolId) (pending : List Annotation)
    (rest : Extracts container nodes (symbolsBehind
      (enterInBody symbols node container pending) node.children) final) :
    Extracts container (node :: nodes) symbols final := by
  have hbody (id : SymbolId) : (Mode.body (some id) []).InBody ∧
      (Mode.body (some id) []).symbolId = some id := ⟨trivial, rfl⟩
  have henum (id : SymbolId) : (Mode.enumMembers id).InBody ∧
      (Mode.enumMembers id).symbolId = some id := ⟨trivial, rfl⟩
  unfold enterInBody at rest
  split at rest
  · exact .skip rest
  · exact extracts_enterDecl hchildren container pending _ (by decide) hbody rest
  · exact extracts_enterDecl hchildren container pending _ (by decide) hbody rest
  · exact extracts_enterDecl hchildren container pending _ (by decide) henum rest
  · exact extracts_enterDecl hchildren container pending _ (by decide) hbody rest
  · rename_i hdecl
    exact extracts_enterCallableDecl hchildren container pending (.inl hdecl) rfl rest
  · rename_i hdecl
    exact extracts_enterCallableDecl hchildren container pending (.inr hdecl) rfl rest
  · exact .names pending (by decide) rest
  · exact .names pending (by decide) rest
  · exact .names pending (by decide) rest
  · exact .within (hchildren.inBody (.body container pending) symbols trivial) rest

lemma extracts_enterNode {mode : Mode} (hmode : mode.InBody)
    (rest : Extracts mode.symbolId nodes (visitNode mode symbols node).2 final) :
    Extracts mode.symbolId (node :: nodes) symbols final := by
  rw [visitNode_eq] at rest
  unfold enterNode at rest
  split_ifs at rest
  · cases mode with
    | body container pending => exact extracts_enterInBody hchildren container pending rest
    | enumMembers enumId =>
      dsimp only [enterInEnum] at rest
      split_ifs at rest
      · cases hname : node.firstChildKind .ident with
        | none =>
          rw [hname] at rest
          exact .skip rest
        | some nameNode =>
          rw [hname] at rest
          exact .enumMember hname rest
      · exact .within (hchildren.inBody (.enumMembers enumId) symbols trivial) rest
    | callable id bodySeen => exact hmode.elim
  · exact .skip rest

end Node

lemma visitNodes_callable_seen (id : SymbolId) (symbols : List Symbol) (nodes : List SyntaxNode) :
    visitNodes (.callable id true) symbols nodes = symbols := by
  induction nodes with
  | nil => rw [visitNodes]
  | cons node nodes ih =>
    have henter : enterNode (.callable id true) symbols node =
        ⟨none, .callable id true, symbols⟩ := by
      unfold enterNode
      split_ifs
      · simp [enterInCallable]
      · rfl
    rw [visitNodes, visitNode_eq, henter]
    exact ih

/-- The first block of a callable opens its body. -/
lemma extracts_callable_cons {node : SyntaxNode} (hchildren : ChildrenVisit node.children)
    {nodes : List SyntaxNode} {id : SymbolId} {symbols : List Symbol}
    (hrest : ∃ body, (body = [] ∨ ∃ block ∈ nodes, block.kind = .funcBlock ∧
        body = block.children) ∧
      Extracts (some id) body symbols (visitNodes (.callable id false) symbols nodes)) :
    ∃ body, (body = [] ∨ ∃ block ∈ node :: nodes, block.kind = .funcBlock ∧
        body = block.children) ∧
      Extracts (some id) body symbols (visitNodes (.callable id false) symbols (node :: nodes)) := by
  rw [visitNodes, visitNode_eq]
  by_cases hblock : node.isNamed = true ∧ node.kind = .funcBlock
  · have henter : enterNode (.callable id false) symbols node =
        ⟨some (.body (some id) []), .callable id true, symbols⟩ := by
      simp [enterNode, enterInCallable, hblock]
    rw [henter]
    refine ⟨node.children, .inr ⟨node, List.mem_cons_self, hblock.2, rfl⟩, ?_⟩
    dsimp only [symbolsBehind]
    rw [visitNodes_callable_seen]
    exact hchildren.inBody (.body (some id) []) symbols trivial
  · have henter : enterNode (.callable id false) symbols node =
        ⟨none, .callable id false, symbols⟩ := by
      unfold enterNode
      split_ifs with hnamed
      · simp [enterInCallable, not_and.mp hblock hnamed]
      · rfl
    rw [henter]
    obtain ⟨body, hbody, hvisits⟩ := hrest
    refine ⟨body, hbody.imp_right ?_, hvisits⟩
    rintro ⟨block, hmem, hkind⟩
    exact ⟨block, List.mem_cons_of_mem _ hmem, hkind⟩

mutual

lemma childrenVisit_children : ∀ node : SyntaxNode, ChildrenVisit node.children
  | .mk _ _ _ _ _ _ children => childrenVisit children

lemma childrenVisit : ∀ nodes : List SyntaxNode, ChildrenVisit nodes
  | [] => {
      inBody := fun mode symbols _ => by
        rw [visitNodes]
        exact .done _ _
      inCallable := fun id symbols => by
        rw [visitNodes]
        exact ⟨[], .inl rfl, .done _ _⟩ }
  | node :: nodes => {
      inBody := fun mode symbols hmode => by
        obtain ⟨hbody, hid⟩ := current_enterNode hmode symbols node
        have hrest := (childrenVisit nodes).inBody (visitNode mode symbols node).1
          (visitNode mode symbols node).2 (by rwa [visitNode_eq])
        rw [show (visitNode mode symbols node).1.symbolId = mode.symbolId by
          rwa [visitNode_eq]] at hrest
        rw [visitNodes]
        exact extracts_enterNode (childrenVisit_children node) hmode hrest
      inCallable := fun id symbols =>
        extracts_callable_cons (childrenVisit_children node)
          ((childrenVisit nodes).inCallable id symbols) }

end

/-- Extraction visits the children of the root outside of all containers. -/
theorem extracts_extractSymbols (root : SyntaxNode) :
    Extracts none root.children [] (extractSymbols root) :=
  (childrenVisit root.children).inBody (.body none []) [] trivial

def ByteRange.Inside (inner outer : ByteRange) : Prop :=
  outer.start ≤ inner.start ∧ inner.stop ≤ outer.stop

instance (inner outer : ByteRange) : Decidable (inner.Inside outer) :=
  inferInstanceAs (Decidable (_ ∧ _))

lemma ByteRange.Inside.trans {a b c : ByteRange} (h : a.Inside b) (h' : b.Inside c) :
    a.Inside c := ⟨Nat.le_trans h'.1 h.1, Nat.le_trans h.2 h'.2⟩

/-- The range of every node encloses those of its children. -/
inductive SyntaxNode.Nested : SyntaxNode → Prop
  | mk {node : SyntaxNode} (inside : ∀ child ∈ node.children, child.range.Inside node.range)
      (nested : ∀ child ∈ node.children, child.Nested) : Nested node

lemma SyntaxNode.Nested.inside {node : SyntaxNode} (h : node.Nested) :
    ∀ child ∈ node.children, child.range.Inside node.range := by
  cases h with
  | mk inside nested => exact inside

lemma SyntaxNode.Nested.children {node : SyntaxNode} (h : node.Nested) :
    ∀ child ∈ node.children, child.Nested := by
  cases h with
  | mk inside nested => exact nested

lemma SyntaxNode.mem_of_firstChildKind {node child : SyntaxNode} {kind : NodeKind}
    (h : node.firstChildKind kind = some child) : child ∈ node.children :=
  (List.mem_filter.mp (List.mem_of_getElem? h)).1

/-- The symbol stands directly behind the callable and its other parameters. -/
def FollowsCallable (symbols : List Symbol) (id : SymbolId) (position : Nat) : Prop :=
  (∃ t, symbols[id.val]? = some t ∧ t.kind.isCallable = true) ∧
    ∀ j, id.val < j → j < position →
      ∃ u, symbols[j]? = some u ∧ u.kind = .parameter ∧ u.container = some id

/-- What later code relies on. -/
structure WellFormedTable (symbols : List Symbol) : Prop where
  positioned : Positioned symbols
  containers : ∀ s ∈ symbols, ∀ id ∈ s.container, id.val < s.id.val ∧
    ∃ t, symbols[id.val]? = some t ∧ s.byteRange.Inside t.byteRange
  selections : ∀ s ∈ symbols, s.selectionByteRange.Inside s.byteRange
  parameters : ∀ s ∈ symbols, s.kind = .parameter →
    ∃ id, s.container = some id ∧ id.val < s.id.val ∧ FollowsCallable symbols id s.id.val

/-- The container's range encloses the range. -/
def Around (symbols : List Symbol) (container : Option SymbolId) (range : ByteRange) : Prop :=
  ∀ id ∈ container, ∃ t, symbols[id.val]? = some t ∧ range.Inside t.byteRange

section Around

variable {symbols symbols' : List Symbol} {container : Option SymbolId} {range : ByteRange}

lemma getElem?_of_isPrefix (h : symbols <+: symbols') {i : Nat} {s : Symbol}
    (hs : symbols[i]? = some s) : symbols'[i]? = some s := by
  obtain ⟨more, rfl⟩ := h
  rw [List.getElem?_append_left (List.getElem?_eq_some_iff.mp hs).1, hs]

lemma Around.extend (h : Around symbols container range) (hbegins : symbols <+: symbols') :
    Around symbols' container range := by
  intro id hid
  obtain ⟨t, ht, hinside⟩ := h id hid
  exact ⟨t, getElem?_of_isPrefix hbegins ht, hinside⟩

lemma Around.of_inside (h : Around symbols container range) {inner : ByteRange}
    (hinside : inner.Inside range) : Around symbols container inner := by
  intro id hid
  obtain ⟨t, ht, hrange⟩ := h id hid
  exact ⟨t, ht, hinside.trans hrange⟩

lemma FollowsCallable.extend {id : SymbolId} {position : Nat}
    (h : FollowsCallable symbols id position) (hbegins : symbols <+: symbols') :
    FollowsCallable symbols' id position := by
  obtain ⟨⟨t, ht, hkind⟩, hall⟩ := h
  refine ⟨⟨t, getElem?_of_isPrefix hbegins ht, hkind⟩, fun j hj hlt => ?_⟩
  obtain ⟨u, hu, hparameter⟩ := hall j hj hlt
  exact ⟨u, getElem?_of_isPrefix hbegins hu, hparameter⟩

end Around

section Push

variable {symbols : List Symbol} {node nameNode : SyntaxNode} {kind : SymbolKind}
  {spec : SymbolSpec}

lemma isPrefix_pushSymbol : symbols <+: pushSymbol symbols node nameNode kind spec :=
  List.prefix_append _ _

lemma getElem?_pushSymbol_length : (pushSymbol symbols node nameNode kind spec)[symbols.length]? =
    some (newSymbol symbols node nameNode kind spec) := List.getElem?_concat_length

/-- The symbol of a node whose range its container encloses. -/
lemma WellFormedTable.push (h : WellFormedTable symbols)
    (haround : Around symbols spec.container node.range)
    (hname : nameNode.range.Inside node.range)
    (hparameter : kind = .parameter →
      ∃ id, spec.container = some id ∧ FollowsCallable symbols id symbols.length) :
    WellFormedTable (pushSymbol symbols node nameNode kind spec) := by
  have hid : (newSymbol symbols node nameNode kind spec).id = ⟨symbols.length⟩ := rfl
  refine ⟨h.positioned.of_pushes (.push .refl node nameNode kind spec), ?_, ?_, ?_⟩
  · intro s hs id hcontainer
    rcases List.mem_append.mp hs with hold | hnew
    · obtain ⟨hlt, t, ht, hinside⟩ := h.containers s hold id hcontainer
      exact ⟨hlt, t, getElem?_of_isPrefix isPrefix_pushSymbol ht, hinside⟩
    · rw [List.mem_singleton] at hnew
      subst hnew
      obtain ⟨t, ht, hinside⟩ := haround id hcontainer
      exact ⟨(List.getElem?_eq_some_iff.mp ht).1, t, getElem?_of_isPrefix isPrefix_pushSymbol ht,
        hinside⟩
  · intro s hs
    rcases List.mem_append.mp hs with hold | hnew
    · exact h.selections s hold
    · rw [List.mem_singleton.mp hnew]
      exact hname
  · intro s hs hkind
    rcases List.mem_append.mp hs with hold | hnew
    · obtain ⟨id, hcontainer, hlt, hfollows⟩ := h.parameters s hold hkind
      exact ⟨id, hcontainer, hlt, hfollows.extend isPrefix_pushSymbol⟩
    · rw [List.mem_singleton] at hnew
      subst hnew
      obtain ⟨id, hcontainer, hfollows⟩ := hparameter hkind
      obtain ⟨t, ht, -⟩ := hfollows.1
      exact ⟨id, hcontainer, (List.getElem?_eq_some_iff.mp ht).1,
        hfollows.extend isPrefix_pushSymbol⟩

/-- One name of a declaration, or a name of one parameter group. -/
def PushOk (symbols : List Symbol) (node : SyntaxNode) (container : Option SymbolId)
    (kind : SymbolKind) : Prop :=
  Around symbols container node.range ∧ (kind = .parameter →
    ∃ id, container = some id ∧ FollowsCallable symbols id symbols.length)

lemma PushOk.push {container : Option SymbolId} (h : PushOk symbols node container kind)
    (hspec : spec.container = container) :
    PushOk (pushSymbol symbols node nameNode kind spec) node container kind := by
  refine ⟨h.1.extend isPrefix_pushSymbol, fun hkind => ?_⟩
  obtain ⟨id, hid, hcallable, hall⟩ := h.2 hkind
  obtain ⟨hcallable', hall'⟩ :=
    @FollowsCallable.extend _ (pushSymbol symbols node nameNode kind spec) _ _ ⟨hcallable, hall⟩
      isPrefix_pushSymbol
  refine ⟨id, hid, hcallable', fun j hj hlt => ?_⟩
  by_cases hnew : j = symbols.length
  · subst hnew
    exact ⟨_, getElem?_pushSymbol_length, hkind, hspec.trans hid⟩
  · have hlength : (pushSymbol symbols node nameNode kind spec).length = symbols.length + 1 := by
      rw [pushSymbol, List.length_append, List.length_singleton]
    exact hall' j hj (by omega)

/-- A declaration pushes one symbol for each of its names. -/
lemma visitVarDecl_eq_foldl (node : SyntaxNode) (container : Option SymbolId)
    (annotations : List Annotation) (kind : SymbolKind) : ∃ (spec : SymbolSpec)
      (names : List SyntaxNode), spec.container = container ∧
      (∀ name ∈ names, name ∈ node.children) ∧ ∀ symbols,
        visitVarDecl symbols node container annotations kind =
          names.foldl (fun symbols name => pushSymbol symbols node name kind spec) symbols := by
  refine ⟨_, _, ?_, fun name hname => ?_, fun symbols => rfl⟩
  · rfl
  · exact (List.mem_filter.mp (List.mem_filter.mp hname).1).1

/-- The names of a declaration. -/
lemma WellFormedTable.visitVarDecl (h : WellFormedTable symbols) (hnested : node.Nested)
    {container : Option SymbolId} (hpush : PushOk symbols node container kind)
    (annotations : List Annotation) :
    symbols <+: visitVarDecl symbols node container annotations kind ∧
      WellFormedTable (visitVarDecl symbols node container annotations kind) ∧
      PushOk (visitVarDecl symbols node container annotations kind) node container kind := by
  obtain ⟨spec, names, hcontainer, hmem, hfold⟩ :=
    visitVarDecl_eq_foldl node container annotations kind
  rw [hfold symbols]
  clear hfold
  induction names generalizing symbols with
  | nil => exact ⟨List.prefix_rfl, h, hpush⟩
  | cons name names ih =>
    have hname := hnested.inside name (hmem name List.mem_cons_self)
    have hparameter := hpush.2
    rw [← hcontainer] at hparameter
    obtain ⟨hbegins, htable, hlast⟩ := ih (h.push (hcontainer ▸ hpush.1) hname hparameter)
      (hpush.push hcontainer) fun n hn => hmem n (List.mem_cons_of_mem _ hn)
    exact ⟨isPrefix_pushSymbol.trans hbegins, htable, hlast⟩

/-- The parameters of a callable that has just been pushed. -/
lemma WellFormedTable.visitParams (h : WellFormedTable symbols) (hnested : node.Nested)
    {id : SymbolId} (haround : Around symbols (some id) node.range)
    (hfollows : FollowsCallable symbols id symbols.length) :
    symbols <+: visitParams symbols node id ∧ WellFormedTable (visitParams symbols node id) := by
  unfold WitcherScriptLanguage.visitParams
  cases hparams : node.firstChildKind .funcParams with
  | none => exact ⟨List.prefix_rfl, h⟩
  | some params =>
    have hparamsMem := SyntaxNode.mem_of_firstChildKind hparams
    have hparamsNested := hnested.children params hparamsMem
    have hgroups : ∀ group ∈ params.children.filter (fun child => child.kind = .funcParamGroup),
        group.Nested ∧ group.range.Inside node.range := fun group hgroup =>
      have hmem := (List.mem_filter.mp hgroup).1
      ⟨hparamsNested.children group hmem,
        (hparamsNested.inside group hmem).trans (hnested.inside params hparamsMem)⟩
    dsimp only
    generalize params.children.filter _ = groups at hgroups
    induction groups generalizing symbols with
    | nil => exact ⟨List.prefix_rfl, h⟩
    | cons group groups ih =>
      obtain ⟨hgroup, hinside⟩ := hgroups group List.mem_cons_self
      have hpush : PushOk symbols group (some id) .parameter :=
        ⟨haround.of_inside hinside, fun _ => ⟨id, rfl, hfollows⟩⟩
      obtain ⟨hbegins, htable, -, hlast⟩ := h.visitVarDecl hgroup hpush []
      obtain ⟨id', hid', hfollows'⟩ := hlast rfl
      cases hid'
      obtain ⟨hbegins', htable'⟩ := ih htable (haround.extend hbegins) hfollows' fun g hg =>
        hgroups g (List.mem_cons_of_mem _ hg)
      exact ⟨hbegins.trans hbegins', htable'⟩

end Push

/-- A new container encloses the nodes inside its own. -/
lemma around_pushSymbol {symbols : List Symbol} {node nameNode : SyntaxNode} {kind : SymbolKind}
    {spec : SymbolSpec} {range : ByteRange} (h : range.Inside node.range) :
    Around (pushSymbol symbols node nameNode kind spec) (some ⟨symbols.length⟩) range := by
  rintro id ⟨⟩
  exact ⟨_, getElem?_pushSymbol_length, h⟩

/-- Behind a callable there is nothing yet. -/
lemma followsCallable_pushSymbol {symbols : List Symbol} {node nameNode : SyntaxNode}
    {kind : SymbolKind} {spec : SymbolSpec} (hkind : kind.isCallable = true) :
    FollowsCallable (pushSymbol symbols node nameNode kind spec) ⟨symbols.length⟩
      (pushSymbol symbols node nameNode kind spec).length := by
  refine ⟨⟨_, getElem?_pushSymbol_length, hkind⟩, fun j hj hlt => ?_⟩
  rw [pushSymbol, List.length_append, List.length_singleton] at hlt
  have hj' : symbols.length < j := hj
  omega

/-- The locals of a callable are inside of it. -/
lemma IsBody.nested {node : SyntaxNode} {body : List SyntaxNode} (h : IsBody node body)
    (hnested : node.Nested) :
    ∀ child ∈ body, child.Nested ∧ child.range.Inside node.range := by
  intro child hchild
  obtain rfl | ⟨block, hblock, -, rfl⟩ := h
  · cases hchild
  · exact ⟨(hnested.children block hblock).children child hchild,
      ((hnested.children block hblock).inside child hchild).trans (hnested.inside block hblock)⟩

/-- What extraction makes of nested nodes in a container around them. -/
theorem Extracts.wellFormedTable {container : Option SymbolId} {nodes : List SyntaxNode}
    {symbols final : List Symbol} (h : Extracts container nodes symbols final)
    (hnested : ∀ node ∈ nodes, node.Nested)
    (haround : ∀ node ∈ nodes, Around symbols container node.range)
    (htable : WellFormedTable symbols) : symbols <+: final ∧ WellFormedTable final := by
  have hrest {container : Option SymbolId} {node : SyntaxNode} {nodes : List SyntaxNode}
      {symbols inner final : List Symbol} (hbegins : symbols <+: inner)
      (hinner : WellFormedTable inner) (hnested : ∀ n ∈ node :: nodes, n.Nested)
      (haround : ∀ n ∈ node :: nodes, Around symbols container n.range)
      (ih : (∀ n ∈ nodes, n.Nested) → (∀ n ∈ nodes, Around inner container n.range) →
        WellFormedTable inner → inner <+: final ∧ WellFormedTable final) :
      symbols <+: final ∧ WellFormedTable final := by
    obtain ⟨hbegins', hfinal⟩ := ih (fun n hn => hnested n (List.mem_cons_of_mem _ hn))
      (fun n hn => (haround n (List.mem_cons_of_mem _ hn)).extend hbegins) hinner
    exact ⟨hbegins.trans hbegins', hfinal⟩
  induction h with
  | done container symbols => exact ⟨List.prefix_rfl, htable⟩
  | skip rest ih => exact hrest List.prefix_rfl htable hnested haround ih
  | @names container node nodes symbols final annotations kind hkind rest ih =>
    obtain ⟨hbegins, hinner, -⟩ := htable.visitVarDecl (hnested node List.mem_cons_self)
      ⟨haround node List.mem_cons_self, fun h => absurd h hkind⟩ annotations
    exact hrest hbegins hinner hnested haround ih
  | @enumMember container node nameNode nodes symbols final hname rest ih =>
    have hinside := (hnested node List.mem_cons_self).inside nameNode
      (SyntaxNode.mem_of_firstChildKind hname)
    exact hrest isPrefix_pushSymbol (htable.push (haround node List.mem_cons_self) hinside
      fun h => by cases h) hnested haround ih
  | @within container node nodes symbols inner final below rest ihbelow ihrest =>
    have hnode := hnested node List.mem_cons_self
    obtain ⟨hbegins, hinner⟩ := ihbelow hnode.children
      (fun n hn => (haround node List.mem_cons_self).of_inside (hnode.inside n hn)) htable
    exact hrest hbegins hinner hnested haround ihrest
  | @type container node nameNode nodes symbols inner final kind spec hname hkind hspec below rest
      ihbelow ihrest =>
    subst hspec
    have hnode := hnested node List.mem_cons_self
    have hpush := htable.push (haround node List.mem_cons_self)
      (hnode.inside nameNode (SyntaxNode.mem_of_firstChildKind hname)) fun h => absurd h hkind
    obtain ⟨hbegins, hinner⟩ := ihbelow hnode.children
      (fun n hn => around_pushSymbol (hnode.inside n hn)) hpush
    exact hrest (isPrefix_pushSymbol.trans hbegins) hinner hnested haround ihrest
  | @callable container node nameNode nodes body symbols inner final kind spec hname henters hkind
      hspec hbody below rest ihbelow ihrest =>
    subst hspec
    have hnode := hnested node List.mem_cons_self
    have hne : kind ≠ .parameter := by
      rintro rfl
      cases hkind
    have hpush := htable.push (haround node List.mem_cons_self)
      (hnode.inside nameNode (SyntaxNode.mem_of_firstChildKind hname)) fun h => absurd h hne
    obtain ⟨hparams, hwith⟩ := hpush.visitParams hnode
      (around_pushSymbol ⟨Nat.le_refl _, Nat.le_refl _⟩) (followsCallable_pushSymbol hkind)
    have hlocals := hbody.nested hnode
    obtain ⟨hbegins, hinner⟩ := ihbelow (fun n hn => (hlocals n hn).1)
      (fun n hn => (around_pushSymbol (hlocals n hn).2).extend hparams) hwith
    exact hrest (isPrefix_pushSymbol.trans (hparams.trans hbegins)) hinner hnested haround ihrest

lemma wellFormedTable_nil : WellFormedTable [] where
  positioned _ _ hs := by cases hs
  containers _ hs := by cases hs
  selections _ hs := by cases hs
  parameters _ hs := by cases hs

/-- Extraction makes well-formed tables. -/
theorem wellFormedTable_extractSymbols {root : SyntaxNode} (h : root.Nested) :
    WellFormedTable (extractSymbols root) :=
  ((extracts_extractSymbols root).wellFormedTable h.children (fun _ _ _ hid => by cases hid)
    wellFormedTable_nil).2

end WitcherScriptLanguage
