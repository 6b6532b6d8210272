import WitcherScriptLanguage.Library.Memo
import WitcherScriptLanguage.Library.TreeWalks
import WitcherScriptLanguage.Lsp.LinePositions
import WitcherScriptLanguage.Resolve.DefinitionAt

/-!
# Semantic tokens

`semantic_tokens/mod.rs`: a walk through the tree of a document classifies nodes, with a memo table
for the identifiers whose meaning needs the database, and the tokens are encoded by their
distances.
-/

namespace WitcherScriptLanguage

open Library

/-- The node kinds that the tokens tell apart; `other` is that of the remaining named nodes, and a
node without a name is known by its text. -/
inductive TokenNodeKind
  | ident | annotationIdent | comment | literalName | literalString | literalInt | literalFloat
  | literalHex | specifier | funcFlavour | autobindSingle
  | classDecl | structDecl | stateDecl | enumDecl | enumMemberDecl | funcDecl | eventDecl
  | funcParamGroup | memberVarDecl | autobindDecl | localVarDeclStmt | memberAccessExpr
  | other
  | anonymous (text : String)
  deriving DecidableEq, Repr

def TokenNodeKind.isNamed : TokenNodeKind → Bool
  | .anonymous _ => false
  | _ => true

abbrev TokenNode := RangedTree TokenNodeKind

/-- What the parser guarantees of a node. -/
structure TokenNode.Valid (source : String) (n : TokenNode) : Prop where
  ordered : n.Ordered
  start_boundary : LineIndex.Boundary source n.start
  stop_boundary : LineIndex.Boundary source n.stop
  /-- An identifier is a word. -/
  ident : n.label = .ident → n.children = [] ∧
    ∀ word, sliceBytes source.toList n.start n.stop = some word → Open isNewline word

lemma TokenNode.isWord_iff {text : Option (List Char)} :
    text.all (fun word => word.all fun c => !isNewline c) = true ↔
      ∀ word, text = some word → Open isNewline word := by
  rw [Option.all_eq_true]
  constructor
  · intro h word hword c hc
    have hc' := List.all_eq_true.mp (h word hword) c hc
    rwa [Bool.not_eq_true'] at hc'
  · intro h word hword
    rw [List.all_eq_true]
    intro c hc
    rw [h word hword c hc]
    rfl

instance (source : String) (n : TokenNode) : Decidable (TokenNode.Valid source n) :=
  decidable_of_iff (n.Ordered ∧ LineIndex.Boundary source n.start ∧
      LineIndex.Boundary source n.stop ∧ (n.label = .ident → n.children.length = 0 ∧
        (sliceBytes source.toList n.start n.stop).all
          (fun word => word.all fun c => !isNewline c) = true))
    ⟨fun ⟨ho, hb, hb', hi⟩ => ⟨ho, hb, hb', fun h =>
        ⟨List.length_eq_zero_iff.mp (hi h).1, TokenNode.isWord_iff.mp (hi h).2⟩⟩,
      fun h => ⟨h.ordered, h.start_boundary, h.stop_boundary, fun hk =>
        ⟨List.length_eq_zero_iff.mpr (h.ident hk).1, TokenNode.isWord_iff.mpr (h.ident hk).2⟩⟩⟩

/-- `node.parent()` -/
def parentOf (p : Position) : Option Position := if p = [] then none else some p.dropLast

/-- A document with its tree. The parser counts bytes in 32 bits. -/
structure TreeDocument where
  document : ParsedDocument
  root : TokenNode
  valid : ∀ p n, root.get? p = some n → TokenNode.Valid document.source n
  addressable : LineIndex.Addressable document.source

namespace TreeDocument

variable (t : TreeDocument)

/-- The node at a position; there is an empty one where the tree has none. -/
def get (p : Position) : TokenNode := (t.root.get? p).getD (.node .other 0 0 [])

def kind (p : Position) : TokenNodeKind := (t.get p).label

def byteRange (p : Position) : ByteRange := ⟨(t.get p).start, (t.get p).stop⟩

def text (p : Position) : String :=
  String.ofList ((sliceBytes t.document.source.toList (t.get p).start (t.get p).stop).getD [])

def firstNamedChild (p : Position) : Option Position :=
  ((List.range (t.get p).children.length).map fun i => p ++ [i]).find? fun c => (t.kind c).isNamed

end TreeDocument

def ttClass : Nat := 0
def ttEnum : Nat := 1
def ttEnumMember : Nat := 2
def ttFunction : Nat := 3
def ttParameter : Nat := 4
def ttVariable : Nat := 5
def ttProperty : Nat := 6
def ttComment : Nat := 8
def ttString : Nat := 9
def ttNumber : Nat := 10
def ttDecorator : Nat := 12
def ttModifier : Nat := 13

def modDefaultLibrary : Nat := 2

/-- A token type and its modifiers. -/
abbrev TokenClass := Nat × Nat

def symbolKindToTokenType : SymbolKind → Nat
  | .class | .nativeType | .struct | .state => ttClass
  | .enum => ttEnum
  | .enumMember => ttEnumMember
  | .function | .method | .event => ttFunction
  | .field => ttProperty
  | .variable => ttVariable
  | .parameter => ttParameter

/-- The keywords that introduce or modify a declaration. -/
def declarationKeywords : List String :=
  ["class", "struct", "enum", "state", "function", "event", "extends", "var", "autobind", "defaults",
    "hint", "abstract", "statemachine", "latent", "import", "const", "final", "editable", "saved",
    "optional", "out", "inlined", "private", "protected", "public", "cleanup", "entry", "exec",
    "quest", "reward", "storyscene", "timer", "single"]

def classifyAnonymousKeyword (text : String) : Option Nat :=
  if declarationKeywords.contains text then some ttModifier else none

/-- `classify` of the nodes that are no identifiers. -/
def classifyKind : TokenNodeKind → Option TokenClass
  | .annotationIdent => some (ttDecorator, 0)
  | .comment => some (ttComment, 0)
  | .literalName => some (ttEnumMember, 0)
  | .literalString => some (ttString, 0)
  | .literalInt | .literalFloat | .literalHex => some (ttNumber, 0)
  | .specifier | .funcFlavour | .autobindSingle => some (ttModifier, 0)
  | .anonymous text => (classifyAnonymousKeyword text).map fun tokenType => (tokenType, 0)
  | _ => none

/-- The token type of an identifier that its parent decides. -/
def declaredTokenType : TokenNodeKind → Option Nat
  | .classDecl | .structDecl | .stateDecl => some ttClass
  | .enumDecl => some ttEnum
  | .enumMemberDecl => some ttEnumMember
  | .funcDecl | .eventDecl => some ttFunction
  | .funcParamGroup => some ttParameter
  | .memberVarDecl | .autobindDecl => some ttProperty
  | .localVarDeclStmt => some ttVariable
  | _ => none

/-- The database that answers, and the URI under which it asks for the document. -/
structure Resolver where
  uri : String
  db : SymbolDb
  callDepth : Nat
  globals : List ScriptGlobal
  trees : ParsedDocument → TreeView

namespace Resolver

def classifyDefinitionAtIdent (r : Resolver) (t : TreeDocument) (p : Position) :
    Option Definition :=
  (r.db.resolveForIdentNoSiteFallback r.callDepth r.globals r.trees r.uri t.document
    (t.text p, t.byteRange p) (t.byteRange p).start).value.join

def scriptGlobalTypeName (r : Resolver) (name : String) : Option String :=
  (r.globals.find? fun g => g.name = name).map (·.typeName)

/-- A global of the engine is coloured as one and not as the class that it leads to. -/
def scriptGlobalOverride (r : Resolver) (name : String) (d : Definition) : TokenClass :=
  match r.scriptGlobalTypeName name with
  | none => (symbolKindToTokenType d.symbol.kind, 0)
  | some globalType =>
    if d.symbol.kind = .variable || (d.symbol.kind.isInstantiable && d.symbol.name = globalType) then
      (ttVariable, modDefaultLibrary)
    else (symbolKindToTokenType d.symbol.kind, 0)

end Resolver

namespace TreeDocument

variable (r : Resolver) (t : TreeDocument)

def isMemberAccessRhs (p parent : Position) : Bool :=
  t.kind parent = .memberAccessExpr && t.firstNamedChild parent ≠ some p

/-- Locals, members of the type around the identifier, and declarations of the document. -/
def classifyLocally (p : Position) : Option Nat :=
  if (parentOf p).any (t.isMemberAccessRhs p) then none
  else
    let offset := (t.byteRange p).start
    let localType := do
      let callable ← t.document.enclosingSymbolAt offset callableKinds
      let symbol ← t.document.localAtByte callable.id (t.text p) offset
      some (symbolKindToTokenType symbol.kind)
    let memberType := do
      let container ← t.document.enclosingSymbolAt offset typeBodyKinds
      let symbol ← (memberOf t.document.symbols container.id (t.text p)).head?
      some (symbolKindToTokenType symbol.kind)
    (localType.or memberType).or
      ((t.document.topLevelByName (t.text p)).map fun s => symbolKindToTokenType s.kind)

/-- `classify_ident` up to its cache: `none` where the cache is asked. -/
def beforeCache (p : Position) : Option (Option TokenClass) :=
  match parentOf p with
  | none => some none
  | some parent =>
    match declaredTokenType (t.kind parent) with
    | some tokenType => some (some (tokenType, 0))
    | none =>
      match t.classifyLocally p with
      | some tokenType => some (some (tokenType, 0))
      | none =>
        if t.isMemberAccessRhs p parent then
          some ((r.classifyDefinitionAtIdent t p).map fun d =>
            (symbolKindToTokenType d.symbol.kind, 0))
        else none

abbrev CacheKey := String × Option SymbolId

/-- The name and the type around it. -/
def cacheKey (p : Position) : CacheKey :=
  (t.text p, (t.document.enclosingSymbolAt (t.byteRange p).start typeBodyKinds).map (·.id))

/-- What the cache remembers for the key of an identifier. -/
def resolvedClass (p : Position) : Option TokenClass :=
  (r.classifyDefinitionAtIdent t p).map (r.scriptGlobalOverride (t.text p))

abbrev ClassifyCache := AList fun _ : CacheKey => Option TokenClass

def classifyIdent (p : Position) (cache : ClassifyCache) : Option TokenClass × ClassifyCache :=
  match t.beforeCache r p with
  | some result => (result, cache)
  | none => memo t.cacheKey (t.resolvedClass r) p cache

def classify (p : Position) (cache : ClassifyCache) : Option TokenClass × ClassifyCache :=
  if t.kind p = .ident then t.classifyIdent r p cache else (classifyKind (t.kind p), cache)

end TreeDocument

structure RawToken where
  line : Nat
  startChar : Nat
  length : Nat
  tokenType : Nat
  tokenModifiers : Nat
  deriving DecidableEq, Repr

/-- The tokens stand with their nodes. -/
structure TokenCollector where
  cache : TreeDocument.ClassifyCache := ∅
  tokens : List (Position × RawToken) := []

namespace TreeDocument

variable (r : Resolver) (t : TreeDocument)

/-- A node of some width on one line is a token. -/
def rawToken (p : Position) (c : TokenClass) : Option RawToken := do
  let index := LineIndex.new t.document.source
  let start ← index.byteToPosition t.document.source (t.get p).start
  let stop ← index.byteToPosition t.document.source (t.get p).stop
  if start.line = stop.line && start.character < stop.character then
    some ⟨start.line, start.character, stop.character - start.character, c.1, c.2⟩
  else none

def intersects (range : ByteRange) (p : Position) : Bool :=
  !((t.get p).stop ≤ range.start || range.stop ≤ (t.get p).start)

def enter (range : ByteRange) (p : Position) (s : TokenCollector) : TokenCollector × Bool :=
  if !t.intersects range p then (s, false)
  else
    match t.classify r p s.cache with
    | (some tokenClass, cache) =>
      (⟨cache, s.tokens ++ ((t.rawToken p tokenClass).map fun token => (p, token)).toList⟩, false)
    | (none, cache) => ({ s with cache }, (t.kind p).isNamed)

/-- The top-level declarations from the `i`-th one on; `shouldContinue` is asked in front of
each. -/
def collectFrom (shouldContinue : Nat → Bool) (range : ByteRange) :
    Nat → List TokenNode → TokenCollector → Option TokenCollector
  | _, [], s => some s
  | i, child :: children, s =>
    if shouldContinue i then
      collectFrom shouldContinue range (i + 1) children (child.walk (t.enter r range) [i] s)
    else none

def collectInByteRange (range : ByteRange) (shouldContinue : Nat → Bool) :
    Option (List (Position × RawToken)) :=
  (t.collectFrom r shouldContinue range 0 t.root.children {}).map (·.tokens)

def collectSemanticTokens (shouldContinue : Nat → Bool) : Option (List (Position × RawToken)) :=
  t.collectInByteRange r ⟨0, utf8Length t.document.source.toList⟩ shouldContinue

/-- A position that does not fit the text stands for its start or its end. -/
def bytesOfRange (range : SourceRange) : ByteRange :=
  let index := LineIndex.new t.document.source
  ⟨(index.positionToByte t.document.source range.start).getD 0,
    (index.positionToByte t.document.source range.stop).getD (utf8Length t.document.source.toList)⟩

def collectSemanticTokensInRange (range : SourceRange) (shouldContinue : Nat → Bool) :
    Option (List (Position × RawToken)) :=
  t.collectInByteRange r (t.bytesOfRange range) shouldContinue

end TreeDocument

/-- `a - b` on unsigned numbers; `none` where it underflows. -/
def checkedSub (a b : Nat) : Option Nat := if b ≤ a then some (a - b) else none

/-- The distance of a start from the one before it on the same line, or from the line's start. -/
def deltaStartOf (deltaLine startChar prevStart : Nat) : Option Nat :=
  if deltaLine = 0 then checkedSub startChar prevStart else some startChar

def encodeFrom (prevLine prevStart : Nat) : List RawToken → Option (List Nat)
  | [] => some []
  | token :: tokens => do
    let deltaLine ← checkedSub token.line prevLine
    let deltaStart ← deltaStartOf deltaLine token.startChar prevStart
    let rest ← encodeFrom token.line token.startChar tokens
    some ([deltaLine, deltaStart, token.length, token.tokenType, token.tokenModifiers] ++ rest)

def encode (tokens : List RawToken) : Option (List Nat) := encodeFrom 0 0 tokens

/-- The tokens that a client reads, each behind the one in front of it. -/
def decodeFrom (line start : Nat) : List Nat → List RawToken
  | deltaLine :: deltaStart :: length :: tokenType :: tokenModifiers :: rest =>
    let start := if deltaLine = 0 then start + deltaStart else deltaStart
    ⟨line + deltaLine, start, length, tokenType, tokenModifiers⟩ ::
      decodeFrom (line + deltaLine) start rest
  | _ => []

def decode (data : List Nat) : List RawToken := decodeFrom 0 0 data

end WitcherScriptLanguage
