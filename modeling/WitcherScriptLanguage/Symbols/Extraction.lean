import Mathlib.Tactic.SplitIfs
import WitcherScriptLanguage.Symbols
import WitcherScriptLanguage.Types.Annotation

/-!
# Symbol extraction

The symbol table of a document from its syntax tree (`symbols/extract.rs`). The visitor keeps one
frame for each named node that it descends into; here the innermost frame is an argument. Every
symbol is pushed behind its container and under the name of its type.
-/

namespace WitcherScriptLanguage

/-- The node kinds that extraction tells apart. -/
inductive NodeKind
  | annotationNode | annotationIdent | classDecl | structDecl | enumDecl | enumMemberDecl | stateDecl
  | funcDecl | eventDecl | memberVarDecl | autobindDecl | localVarDeclStmt | funcBlock | funcParams
  | funcParamGroup | funcFlavour | typeAnnot | specifier | ident | other
  deriving DecidableEq, Repr

inductive FieldName
  | name | names | base | params | annotation
  deriving DecidableEq, Repr

/-- A node with the text of its range, and with the lines and characters that the line index gives
the range. -/
inductive SyntaxNode
  | mk (kind : NodeKind) (named : Bool) (field : Option FieldName) (text : String)
      (range : ByteRange) (sourceRange : SourceRange) (children : List SyntaxNode)

namespace SyntaxNode

def kind : SyntaxNode → NodeKind
  | mk kind _ _ _ _ _ _ => kind

def isNamed : SyntaxNode → Bool
  | mk _ named _ _ _ _ _ => named

/-- The field of the parent that the node fills. -/
def field : SyntaxNode → Option FieldName
  | mk _ _ field _ _ _ _ => field

def text : SyntaxNode → String
  | mk _ _ _ text _ _ _ => text

def range : SyntaxNode → ByteRange
  | mk _ _ _ _ range _ _ => range

def sourceRange : SyntaxNode → SourceRange
  | mk _ _ _ _ _ sourceRange _ => sourceRange

def children : SyntaxNode → List SyntaxNode
  | mk _ _ _ _ _ _ children => children

def nthChildKind (node : SyntaxNode) (kind : NodeKind) (n : Nat) : Option SyntaxNode :=
  (node.children.filter (fun child => child.kind = kind))[n]?

def firstChildKind (node : SyntaxNode) (kind : NodeKind) : Option SyntaxNode :=
  node.nthChildKind kind 0

def childrenByFieldName (node : SyntaxNode) (field : FieldName) : List SyntaxNode :=
  node.children.filter (fun child => child.field = some field)

def childByFieldName (node : SyntaxNode) (field : FieldName) : Option SyntaxNode :=
  (node.childrenByFieldName field).head?

def baseType (node : SyntaxNode) : Option String := (node.nthChildKind .ident 1).map text

/-- The type that the node's own annotation spells. -/
def annotatedType (node : SyntaxNode) : Option ScriptType :=
  (node.firstChildKind .typeAnnot).map fun child => fromAnnotationText child.text.toList

def annotationOf (node : SyntaxNode) : Option Annotation := do
  let name ← node.firstChildKind .annotationIdent
  some {
    name := String.ofList (name.text.toList.dropWhile (· = '@'))
    argument := (node.firstChildKind .ident).map text }

def directAnnotations (node : SyntaxNode) : List Annotation :=
  (node.children.filter (fun child => child.kind = .annotationNode)).filterMap annotationOf

end SyntaxNode

def FuncFlavour.fromKeyword : String → Option FuncFlavour
  | "cleanup" => some .cleanup
  | "entry" => some .entry
  | "exec" => some .exec
  | "quest" => some .quest
  | "reward" => some .reward
  | "storyscene" => some .storyscene
  | "timer" => some .timer
  | _ => none

def Specifier.fromKeyword : String → Option Specifier
  | "import" => some .import
  | "final" => some .final
  | "latent" => some .latent
  | "abstract" => some .abstract
  | "statemachine" => some .statemachine
  | "editable" => some .editable
  | "saved" => some .saved
  | "const" => some .const
  | "inlined" => some .inlined
  | "optional" => some .optional
  | "out" => some .out
  | _ => none

/-- The last access keyword wins; any other specifier is a flag. -/
def readSpecifier (acc : AccessLevel × Specifiers) (keyword : String) : AccessLevel × Specifiers :=
  if keyword = "private" then (.private, acc.2)
  else if keyword = "protected" then (.protected, acc.2)
  else if keyword = "public" then (.public, acc.2)
  else match Specifier.fromKeyword keyword with
    | some specifier => (acc.1, acc.2.insert specifier)
    | none => acc

def specifiersOf (node : SyntaxNode) : AccessLevel × Specifiers :=
  ((node.children.filter (fun child => child.kind = .specifier)).map (·.text)).foldl readSpecifier
    (.public, .empty)

structure SymbolSpec where
  container : Option SymbolId := none
  annotations : List Annotation := []
  typeAnnotation : Option ScriptType := none
  baseClass : Option String := none
  ownerClass : Option String := none
  flavour : Option FuncFlavour := none
  access : AccessLevel := .public
  specifiers : Specifiers := .empty

def newSymbol (symbols : List Symbol) (node nameNode : SyntaxNode) (kind : SymbolKind)
    (spec : SymbolSpec) : Symbol where
  id := ⟨symbols.length⟩
  name := nameNode.text
  kind := kind
  byteRange := node.range
  selectionByteRange := nameNode.range
  selectionRange := nameNode.sourceRange
  container := spec.container
  containerName := (spec.container.bind (fun id => symbols[id.val]?)).map Symbol.typeName
  typeAnnotation := spec.typeAnnotation
  baseClass := spec.baseClass
  ownerClass := spec.ownerClass
  stateClass := (spec.ownerClass.filter (fun _ => kind = .state)).map fun owner =>
    stateClassName owner nameNode.text
  flavour := spec.flavour
  annotations := spec.annotations
  access := spec.access
  specifiers := spec.specifiers
  origin := .script

def pushSymbol (symbols : List Symbol) (node nameNode : SyntaxNode) (kind : SymbolKind)
    (spec : SymbolSpec) : List Symbol :=
  symbols ++ [newSymbol symbols node nameNode kind spec]

def visitVarDecl (symbols : List Symbol) (node : SyntaxNode) (container : Option SymbolId)
    (annotations : List Annotation) (kind : SymbolKind) : List Symbol :=
  let (access, specifiers) := specifiersOf node
  let namesField := if node.kind = .autobindDecl then FieldName.name else .names
  let spec : SymbolSpec := {
    container, access, specifiers
    annotations := annotations ++ node.directAnnotations
    typeAnnotation := node.annotatedType }
  ((node.childrenByFieldName namesField).filter (fun child => child.kind = .ident)).foldl
    (fun symbols child => pushSymbol symbols node child kind spec) symbols

def visitParams (symbols : List Symbol) (node : SyntaxNode) (functionId : SymbolId) :
    List Symbol :=
  match node.firstChildKind .funcParams with
  | none => symbols
  | some params =>
    (params.children.filter (fun child => child.kind = .funcParamGroup)).foldl
      (fun symbols group => visitVarDecl symbols group (some functionId) [] .parameter) symbols

/-- What the innermost frame makes of the nodes in it. -/
inductive Mode
  /-- Stray sibling annotations pend here and die with the frame. -/
  | body (container : Option SymbolId) (pending : List Annotation)
  /-- Inside an enum, only members are extracted. -/
  | enumMembers (enumId : SymbolId)
  /-- Parameters were pushed at the declaration; only the first block opens a body. -/
  | callable (id : SymbolId) (bodySeen : Bool)

/-- What entering a node leaves: the frame that it pushes, if its children are visited, the
frame it was in, and the symbols. -/
structure Entered where
  frame : Option Mode
  current : Mode
  symbols : List Symbol

def enterDecl (symbols : List Symbol) (node : SyntaxNode) (container : Option SymbolId)
    (annotations : List Annotation) (kind : SymbolKind) (spec : SymbolSpec)
    (frame : SymbolId → Mode) : Entered :=
  let annotations := annotations ++ node.directAnnotations
  match node.firstChildKind .ident with
  | none => ⟨some (.body container annotations), .body container [], symbols⟩
  | some nameNode =>
    ⟨some (frame ⟨symbols.length⟩), .body container [],
      pushSymbol symbols node nameNode kind { spec with container, annotations }⟩

/-- A class or a struct. -/
def enterTypeDecl (symbols : List Symbol) (node : SyntaxNode) (container : Option SymbolId)
    (annotations : List Annotation) (kind : SymbolKind) : Entered :=
  enterDecl symbols node container annotations kind
    { baseClass := node.baseType, specifiers := (specifiersOf node).2 }
    (fun id => .body (some id) [])

def enterEnumDecl (symbols : List Symbol) (node : SyntaxNode) (container : Option SymbolId)
    (annotations : List Annotation) : Entered :=
  enterDecl symbols node container annotations .enum {} .enumMembers

def enterStateDecl (symbols : List Symbol) (node : SyntaxNode) (container : Option SymbolId)
    (annotations : List Annotation) : Entered :=
  enterDecl symbols node container annotations .state
    { baseClass := (node.childByFieldName .base).map SyntaxNode.text
      ownerClass := node.baseType
      specifiers := (specifiersOf node).2 }
    (fun id => .body (some id) [])

/-- A function in another declaration is a method. -/
def callableKind (container : Option SymbolId) (defaultKind : SymbolKind) : SymbolKind :=
  if defaultKind = .function ∧ container.isSome then .method else defaultKind

def callableSpec (node : SyntaxNode) : SymbolSpec where
  typeAnnotation := node.annotatedType
  flavour := (node.firstChildKind .funcFlavour).bind fun child => FuncFlavour.fromKeyword child.text
  access := (specifiersOf node).1
  specifiers := (specifiersOf node).2

/-- Parameters are pushed in front of the locals of the block. -/
def enterCallableDecl (symbols : List Symbol) (node : SyntaxNode) (container : Option SymbolId)
    (annotations : List Annotation) (defaultKind : SymbolKind) : Entered :=
  let entered := enterDecl symbols node container annotations
    (callableKind container defaultKind) (callableSpec node) (fun id => .callable id false)
  match node.firstChildKind .ident with
  | none => entered
  | some _ => { entered with symbols := visitParams entered.symbols node ⟨symbols.length⟩ }

def enterInBody (symbols : List Symbol) (node : SyntaxNode) (container : Option SymbolId)
    (pending : List Annotation) : Entered :=
  match node.kind with
  | .annotationNode => ⟨none, .body container (pending ++ node.annotationOf.toList), symbols⟩
  | .classDecl => enterTypeDecl symbols node container pending .class
  | .structDecl => enterTypeDecl symbols node container pending .struct
  | .enumDecl => enterEnumDecl symbols node container pending
  | .stateDecl => enterStateDecl symbols node container pending
  | .funcDecl => enterCallableDecl symbols node container pending .function
  | .eventDecl => enterCallableDecl symbols node container pending .event
  | .memberVarDecl | .autobindDecl =>
    ⟨none, .body container [], visitVarDecl symbols node container pending .field⟩
  | .localVarDeclStmt =>
    ⟨none, .body container [], visitVarDecl symbols node container pending .variable⟩
  | _ => ⟨some (.body container pending), .body container [], symbols⟩

def enterInEnum (symbols : List Symbol) (node : SyntaxNode) (enumId : SymbolId) : Entered :=
  if node.kind = .enumMemberDecl then
    match node.firstChildKind .ident with
    | none => ⟨none, .enumMembers enumId, symbols⟩
    | some nameNode =>
      ⟨none, .enumMembers enumId,
        pushSymbol symbols node nameNode .enumMember { container := some enumId }⟩
  else ⟨some (.enumMembers enumId), .enumMembers enumId, symbols⟩

def enterInCallable (symbols : List Symbol) (node : SyntaxNode) (id : SymbolId)
    (bodySeen : Bool) : Entered :=
  if node.kind = .funcBlock ∧ bodySeen = false then
    ⟨some (.body (some id) []), .callable id true, symbols⟩
  else ⟨none, .callable id bodySeen, symbols⟩

def enterNode (mode : Mode) (symbols : List Symbol) (node : SyntaxNode) : Entered :=
  if node.isNamed then
    match mode with
    | .body container pending => enterInBody symbols node container pending
    | .enumMembers enumId => enterInEnum symbols node enumId
    | .callable id bodySeen => enterInCallable symbols node id bodySeen
  else ⟨none, mode, symbols⟩

mutual

/-- One node in a frame: the frame and the symbols behind it. -/
def visitNode (mode : Mode) (symbols : List Symbol) : SyntaxNode → Mode × List Symbol
  | .mk kind named field text range sourceRange children =>
    let entered := enterNode mode symbols (.mk kind named field text range sourceRange children)
    match entered.frame with
    | none => (entered.current, entered.symbols)
    | some inner => (entered.current, visitNodes inner entered.symbols children)

def visitNodes (mode : Mode) (symbols : List Symbol) : List SyntaxNode → List Symbol
  | [] => symbols
  | node :: nodes =>
    let visited := visitNode mode symbols node
    visitNodes visited.1 visited.2 nodes

end

/-- The root is a pure container, never a declaration itself. -/
def extractSymbols (root : SyntaxNode) : List Symbol := visitNodes (.body none []) [] root.children

/-! ### Containers -/

/-- Every symbol comes from a script, and its container is in the table under the name that the
symbol carries. -/
def Contained (symbols : List Symbol) : Prop :=
  ∀ s ∈ symbols, s.origin = .script ∧ ∀ id ∈ s.container, ∃ t,
    symbols[id.val]? = some t ∧ s.containerName = some t.typeName

/-- The frame's symbol has been pushed. -/
def InTable (symbols : List Symbol) (container : Option SymbolId) : Prop :=
  ∀ id ∈ container, id.val < symbols.length

/-- The symbol that a frame is about. -/
def Mode.symbolId : Mode → Option SymbolId
  | .body container _ => container
  | .enumMembers enumId => some enumId
  | .callable id _ => some id

/-- Symbols are only added, and their containers are known. -/
structure Extends (symbols symbols' : List Symbol) : Prop where
  isPrefix : symbols <+: symbols'
  contained : Contained symbols → Contained symbols'

variable {symbols symbols' symbols'' : List Symbol} {container : Option SymbolId}

lemma Extends.refl (symbols : List Symbol) : Extends symbols symbols := ⟨List.prefix_rfl, id⟩

lemma Extends.trans (h : Extends symbols symbols') (h' : Extends symbols' symbols'') :
    Extends symbols symbols'' :=
  ⟨h.isPrefix.trans h'.isPrefix, h'.contained ∘ h.contained⟩

lemma InTable.extend (h : InTable symbols container) (hext : Extends symbols symbols') :
    InTable symbols' container := fun id hid =>
  Nat.lt_of_lt_of_le (h id hid) hext.isPrefix.length_le

/-- A symbol whose container has been pushed may be pushed. -/
lemma extends_pushSymbol (node nameNode : SyntaxNode) (kind : SymbolKind) {spec : SymbolSpec}
    (hcontainer : InTable symbols spec.container) :
    Extends symbols (pushSymbol symbols node nameNode kind spec) where
  isPrefix := List.prefix_append _ _
  contained h s hs := by
    rcases List.mem_append.mp hs with hold | hnew
    · obtain ⟨horigin, hall⟩ := h s hold
      refine ⟨horigin, fun id hid => ?_⟩
      obtain ⟨t, ht, hname⟩ := hall id hid
      refine ⟨t, ?_, hname⟩
      have hlt : id.val < symbols.length := (List.getElem?_eq_some_iff.mp ht).1
      rw [pushSymbol, List.getElem?_append_left hlt, ht]
    · rw [List.mem_singleton.mp hnew]
      refine ⟨rfl, fun id hid => ?_⟩
      have hid' : spec.container = some id := hid
      have hlt := hcontainer id hid
      refine ⟨symbols[id.val], ?_, ?_⟩
      · rw [pushSymbol, List.getElem?_append_left hlt, List.getElem?_eq_getElem hlt]
      · simp [newSymbol, hid', List.getElem?_eq_getElem hlt]

/-- A pushed declaration can be a container itself. -/
lemma inTable_pushSymbol (node nameNode : SyntaxNode) (kind : SymbolKind) (spec : SymbolSpec) :
    InTable (pushSymbol symbols node nameNode kind spec) (some ⟨symbols.length⟩) := by
  rintro id ⟨⟩
  simp [pushSymbol]

lemma extends_foldl {α : Type} {step : List Symbol → α → List Symbol}
    (hstep : ∀ symbols a, InTable symbols container → Extends symbols (step symbols a))
    (items : List α) (hcontainer : InTable symbols container) :
    Extends symbols (items.foldl step symbols) := by
  induction items generalizing symbols with
  | nil => exact Extends.refl _
  | cons a items ih =>
    have hfirst := hstep symbols a hcontainer
    exact hfirst.trans (ih (hcontainer.extend hfirst))

lemma extends_visitVarDecl (node : SyntaxNode) (annotations : List Annotation)
    (kind : SymbolKind) (hcontainer : InTable symbols container) :
    Extends symbols (visitVarDecl symbols node container annotations kind) :=
  extends_foldl (fun _ child h => extends_pushSymbol node child kind h) _ hcontainer

lemma extends_visitParams (node : SyntaxNode) {functionId : SymbolId}
    (hcontainer : InTable symbols (some functionId)) :
    Extends symbols (visitParams symbols node functionId) := by
  unfold visitParams
  cases node.firstChildKind .funcParams with
  | none => exact Extends.refl _
  | some params =>
    exact extends_foldl (fun _ group h => extends_visitVarDecl group [] .parameter h) _ hcontainer

/-- What entering a node keeps: the frames that it leaves are about pushed symbols. -/
structure Entered.Ok (symbols : List Symbol) (entered : Entered) : Prop where
  ext : Extends symbols entered.symbols
  current : InTable entered.symbols entered.current.symbolId
  frame : ∀ mode ∈ entered.frame, InTable entered.symbols mode.symbolId

lemma enterDecl_ok (node : SyntaxNode) (annotations : List Annotation) (kind : SymbolKind)
    (spec : SymbolSpec) {frame : SymbolId → Mode} (hframe : ∀ id, (frame id).symbolId = some id)
    (hcontainer : InTable symbols container) :
    (enterDecl symbols node container annotations kind spec frame).Ok symbols := by
  unfold enterDecl
  dsimp only
  cases node.firstChildKind .ident with
  | none =>
    refine ⟨Extends.refl _, hcontainer, ?_⟩
    rintro mode ⟨⟩
    exact hcontainer
  | some nameNode =>
    have hext : Extends symbols (pushSymbol symbols node nameNode kind
        { spec with container, annotations := annotations ++ node.directAnnotations }) :=
      extends_pushSymbol node nameNode kind hcontainer
    refine ⟨hext, hcontainer.extend hext, ?_⟩
    rintro mode ⟨⟩
    rw [hframe]
    exact inTable_pushSymbol node nameNode kind _

lemma enterCallableDecl_ok (node : SyntaxNode) (annotations : List Annotation)
    (defaultKind : SymbolKind) (hcontainer : InTable symbols container) :
    (enterCallableDecl symbols node container annotations defaultKind).Ok symbols := by
  have hframe : ∀ id, (Mode.callable id false).symbolId = some id := fun _ => rfl
  have hdecl := enterDecl_ok node annotations (callableKind container defaultKind)
    (callableSpec node) hframe hcontainer
  unfold enterCallableDecl
  cases hname : node.firstChildKind .ident with
  | none => exact hdecl
  | some nameNode =>
    dsimp only
    have hfunction : InTable (enterDecl symbols node container annotations
        (callableKind container defaultKind) (callableSpec node)
        (fun id => .callable id false)).symbols (some ⟨symbols.length⟩) := by
      unfold enterDecl
      rw [hname]
      exact inTable_pushSymbol node nameNode _ _
    have hparams := extends_visitParams node hfunction
    exact ⟨hdecl.ext.trans hparams, hdecl.current.extend hparams,
      fun mode hmode => (hdecl.frame mode hmode).extend hparams⟩

lemma visitVarDecl_ok (node : SyntaxNode) (annotations : List Annotation) (kind : SymbolKind)
    (hcontainer : InTable symbols container) :
    Entered.Ok symbols ⟨none, .body container [],
      visitVarDecl symbols node container annotations kind⟩ := by
  have hext := extends_visitVarDecl node annotations kind hcontainer
  exact ⟨hext, hcontainer.extend hext, fun _ hmode => by cases hmode⟩

lemma enterInBody_ok (node : SyntaxNode) (pending : List Annotation)
    (hcontainer : InTable symbols container) :
    (enterInBody symbols node container pending).Ok symbols := by
  have hbody : ∀ id, (Mode.body (some id) []).symbolId = some id := fun _ => rfl
  unfold enterInBody
  split
  · exact ⟨Extends.refl _, hcontainer, fun _ hmode => by cases hmode⟩
  · exact enterDecl_ok node pending .class _ hbody hcontainer
  · exact enterDecl_ok node pending .struct _ hbody hcontainer
  · exact enterDecl_ok node pending .enum _ (fun _ => rfl) hcontainer
  · exact enterDecl_ok node pending .state _ hbody hcontainer
  · exact enterCallableDecl_ok node pending .function hcontainer
  · exact enterCallableDecl_ok node pending .event hcontainer
  · exact visitVarDecl_ok node pending .field hcontainer
  · exact visitVarDecl_ok node pending .field hcontainer
  · exact visitVarDecl_ok node pending .variable hcontainer
  · refine ⟨Extends.refl _, hcontainer, ?_⟩
    rintro mode ⟨⟩
    exact hcontainer

lemma enterInEnum_ok (node : SyntaxNode) {enumId : SymbolId}
    (hcontainer : InTable symbols (some enumId)) :
    (enterInEnum symbols node enumId).Ok symbols := by
  unfold enterInEnum
  split_ifs
  · cases node.firstChildKind .ident with
    | none => exact ⟨Extends.refl _, hcontainer, fun _ hmode => by cases hmode⟩
    | some nameNode =>
      have hext : Extends symbols
          (pushSymbol symbols node nameNode .enumMember { container := some enumId }) :=
        extends_pushSymbol node nameNode .enumMember hcontainer
      exact ⟨hext, hcontainer.extend hext, fun _ hmode => by cases hmode⟩
  · refine ⟨Extends.refl _, hcontainer, ?_⟩
    rintro mode ⟨⟩
    exact hcontainer

lemma enterInCallable_ok (node : SyntaxNode) {id : SymbolId} (bodySeen : Bool)
    (hcontainer : InTable symbols (some id)) :
    (enterInCallable symbols node id bodySeen).Ok symbols := by
  unfold enterInCallable
  split_ifs
  · refine ⟨Extends.refl _, hcontainer, ?_⟩
    rintro mode ⟨⟩
    exact hcontainer
  · exact ⟨Extends.refl _, hcontainer, fun _ hmode => by cases hmode⟩

lemma enterNode_ok (node : SyntaxNode) {mode : Mode} (hmode : InTable symbols mode.symbolId) :
    (enterNode mode symbols node).Ok symbols := by
  unfold enterNode
  split_ifs
  · cases mode with
    | body container pending => exact enterInBody_ok node pending hmode
    | enumMembers enumId => exact enterInEnum_ok node hmode
    | callable id bodySeen => exact enterInCallable_ok node bodySeen hmode
  · exact ⟨Extends.refl _, hmode, fun _ hframe => by cases hframe⟩

mutual

lemma extends_visitNode (mode : Mode) (symbols : List Symbol)
    (hmode : InTable symbols mode.symbolId) : (node : SyntaxNode) →
    Extends symbols (visitNode mode symbols node).2 ∧
      InTable (visitNode mode symbols node).2 (visitNode mode symbols node).1.symbolId
  | .mk kind named field text range sourceRange children => by
    have hok := enterNode_ok (.mk kind named field text range sourceRange children) hmode
    unfold visitNode
    dsimp only
    cases hframe :
        (enterNode mode symbols (.mk kind named field text range sourceRange children)).frame with
    | none => exact ⟨hok.ext, hok.current⟩
    | some inner =>
      have hinner := extends_visitNodes inner _ (hok.frame inner hframe) children
      exact ⟨hok.ext.trans hinner, hok.current.extend hinner⟩

lemma extends_visitNodes (mode : Mode) (symbols : List Symbol)
    (hmode : InTable symbols mode.symbolId) : (nodes : List SyntaxNode) →
    Extends symbols (visitNodes mode symbols nodes)
  | [] => Extends.refl _
  | node :: nodes => by
    obtain ⟨hnode, hmode'⟩ := extends_visitNode mode symbols hmode node
    unfold visitNodes
    exact hnode.trans (extends_visitNodes _ _ hmode' nodes)

end

/-- Every extracted symbol carries the type name of its container. -/
theorem contained_extractSymbols (root : SyntaxNode) : Contained (extractSymbols root) := by
  have hroot : InTable [] (Mode.body none []).symbolId := fun id hid => by cases hid
  have hempty : Contained [] := fun s hs => by cases hs
  exact (extends_visitNodes _ _ hroot root.children).contained hempty

/-- The symbol's id is its position in the table. -/
def Positioned (symbols : List Symbol) : Prop :=
  ∀ (i : Nat) (s : Symbol), symbols[i]? = some s → s.id = ⟨i⟩

/-- A table that grows by single pushes. -/
inductive Pushes (symbols : List Symbol) : List Symbol → Prop
  | refl : Pushes symbols symbols
  | push {pushed : List Symbol} (h : Pushes symbols pushed) (node nameNode : SyntaxNode)
      (kind : SymbolKind) (spec : SymbolSpec) :
      Pushes symbols (pushSymbol pushed node nameNode kind spec)

lemma Pushes.trans (h : Pushes symbols symbols') (h' : Pushes symbols' symbols'') :
    Pushes symbols symbols'' := by
  induction h' with
  | refl => exact h
  | push _ node nameNode kind spec ih => exact ih.push node nameNode kind spec

lemma pushes_foldl {α : Type} {step : List Symbol → α → List Symbol}
    (hstep : ∀ symbols a, Pushes symbols (step symbols a)) (items : List α) :
    Pushes symbols (items.foldl step symbols) := by
  induction items generalizing symbols with
  | nil => exact .refl
  | cons a items ih => exact (hstep symbols a).trans ih

lemma pushes_visitVarDecl (node : SyntaxNode) (container : Option SymbolId)
    (annotations : List Annotation) (kind : SymbolKind) :
    Pushes symbols (visitVarDecl symbols node container annotations kind) :=
  pushes_foldl (fun _ child => Pushes.refl.push node child kind _) _

lemma pushes_visitParams (node : SyntaxNode) (functionId : SymbolId) :
    Pushes symbols (visitParams symbols node functionId) := by
  unfold visitParams
  cases node.firstChildKind .funcParams with
  | none => exact .refl
  | some params => exact pushes_foldl (fun _ group => pushes_visitVarDecl group _ _ _) _

lemma pushes_enterDecl (node : SyntaxNode) (container : Option SymbolId)
    (annotations : List Annotation) (kind : SymbolKind) (spec : SymbolSpec)
    (frame : SymbolId → Mode) :
    Pushes symbols (enterDecl symbols node container annotations kind spec frame).symbols := by
  unfold enterDecl
  dsimp only
  cases node.firstChildKind .ident with
  | none => exact .refl
  | some nameNode => exact Pushes.refl.push ..

lemma pushes_enterCallableDecl (node : SyntaxNode) (container : Option SymbolId)
    (annotations : List Annotation) (defaultKind : SymbolKind) :
    Pushes symbols (enterCallableDecl symbols node container annotations defaultKind).symbols := by
  unfold enterCallableDecl
  have hdecl : Pushes symbols (enterDecl symbols node container annotations
      (callableKind container defaultKind) (callableSpec node)
      (fun id => .callable id false)).symbols := pushes_enterDecl ..
  cases node.firstChildKind .ident with
  | none => exact hdecl
  | some nameNode => exact hdecl.trans (pushes_visitParams node _)

lemma pushes_enterInBody (node : SyntaxNode) (container : Option SymbolId)
    (pending : List Annotation) :
    Pushes symbols (enterInBody symbols node container pending).symbols := by
  unfold enterInBody
  split
  · exact .refl
  · exact pushes_enterDecl ..
  · exact pushes_enterDecl ..
  · exact pushes_enterDecl ..
  · exact pushes_enterDecl ..
  · exact pushes_enterCallableDecl ..
  · exact pushes_enterCallableDecl ..
  · exact pushes_visitVarDecl ..
  · exact pushes_visitVarDecl ..
  · exact pushes_visitVarDecl ..
  · exact .refl

lemma pushes_enterNode (mode : Mode) (node : SyntaxNode) :
    Pushes symbols (enterNode mode symbols node).symbols := by
  unfold enterNode
  split_ifs
  · cases mode with
    | body container pending => exact pushes_enterInBody node container pending
    | enumMembers enumId =>
      dsimp only [enterInEnum]
      split_ifs
      · cases node.firstChildKind .ident with
        | none => exact .refl
        | some nameNode => exact Pushes.refl.push ..
      · exact .refl
    | callable id bodySeen =>
      dsimp only [enterInCallable]
      split_ifs
      · exact .refl
      · exact .refl
  · exact .refl

mutual

lemma pushes_visitNode (mode : Mode) (symbols : List Symbol) :
    (node : SyntaxNode) → Pushes symbols (visitNode mode symbols node).2
  | .mk kind named field text range sourceRange children => by
    have henter : Pushes symbols (enterNode mode symbols
        (.mk kind named field text range sourceRange children)).symbols := pushes_enterNode mode _
    unfold visitNode
    dsimp only
    cases (enterNode mode symbols (.mk kind named field text range sourceRange children)).frame with
    | none => exact henter
    | some inner => exact henter.trans (pushes_visitNodes inner _ children)

lemma pushes_visitNodes (mode : Mode) (symbols : List Symbol) :
    (nodes : List SyntaxNode) → Pushes symbols (visitNodes mode symbols nodes)
  | [] => .refl
  | node :: nodes => by
    unfold visitNodes
    exact (pushes_visitNode mode symbols node).trans (pushes_visitNodes _ _ nodes)

end

lemma Positioned.of_pushes (h : Pushes symbols symbols') (hsymbols : Positioned symbols) :
    Positioned symbols' := by
  induction h with
  | refl => exact hsymbols
  | @push pushed _ node nameNode kind spec ih =>
    intro i s hs
    rw [pushSymbol, List.getElem?_append] at hs
    split_ifs at hs with hi
    · exact ih i s hs
    · rw [List.getElem?_singleton] at hs
      split_ifs at hs with hlast
      cases hs
      have hlength : i = pushed.length := by omega
      rw [hlength]
      rfl

/-- Every extracted symbol stands at its id. -/
theorem positioned_extractSymbols (root : SyntaxNode) : Positioned (extractSymbols root) :=
  Positioned.of_pushes (pushes_visitNodes _ _ root.children) (fun _ _ hs => by cases hs)

end WitcherScriptLanguage
