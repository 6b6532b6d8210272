import WitcherScriptLanguage.Resolve.MemberDeclarations
import WitcherScriptLanguage.Resolve.MemberPurity
import WitcherScriptLanguage.Types.NormalForm

/-!
# Member accesses

The resolution of `receiver.member` (`resolve_member_access` in `resolve/inference.rs`). Most
receivers are looked up in the table of their own document first, where the first accessible
member counts. The index takes the last declaration of the nearest class and asks for access
afterwards.
-/

namespace WitcherScriptLanguage

open Library

def SymbolKind.isObjectType : SymbolKind → Bool
  | .class | .nativeType | .struct | .state => true
  | _ => false

/-- An explicit class named like `OwnerStateName` wins over the state. -/
def typeByName (symbols : List Symbol) (name : String) : Option Symbol :=
  let types := symbols.filter fun s => s.kind.isObjectType && s.typeName = name
  (types.find? (fun s => s.kind ≠ .state)).or types.head?

/-- Everything of the name that the container contains, in the order of the table. -/
def memberOf (symbols : List Symbol) (container : SymbolId) (name : String) : List Symbol :=
  symbols.filter fun s => s.container = some container && s.name = name

def resolveDocumentMember (uri : String) (symbols : List Symbol) (containerName name : String)
    (minAccess : AccessLevel) : Option Definition := do
  let container ← typeByName symbols containerName
  let symbol ← (memberOf symbols container.id name).find? fun s => minAccess ≤ s.access
  some ⟨uri, symbol⟩

/-- The type that encloses a position, or the one that an annotation injects into. -/
structure TypeContext where
  name : String
  baseClass : Option String := none
  ownerClass : Option String := none
  deriving DecidableEq, Repr

/-- The expressions that can stand in front of the dot. The last kind has all that the resolution
does not look at: parentheses, casts, `new` and literals. -/
inductive ReceiverKind
  | thisExpr | superExpr | parentExpr | virtualParentExpr | ident | funcCallExpr
  | memberAccessExpr | arrayExpr | other
  deriving DecidableEq, Repr

/-- A member access with what is inferred at its place. -/
structure MemberAccess where
  receiver : ReceiverKind
  /-- `enclosing_type_context` at the member. -/
  context : Option TypeContext := none
  /-- The type that inference gives a receiver that is no keyword. -/
  valueType : ScriptType := .unknown
  name : String
  deriving DecidableEq, Repr

namespace MemberAccess

/-- The name that a keyword stands for, and the type that any other receiver has. -/
def container (access : MemberAccess) : Option String :=
  match access.receiver with
  | .thisExpr => access.context.map (·.name)
  | .superExpr => access.context.bind (·.baseClass)
  | .parentExpr | .virtualParentExpr => access.context.bind (·.ownerClass)
  | _ => access.valueType.toDbString

/-- `infer_type` of the receiver. -/
def inferType (access : MemberAccess) : ScriptType :=
  match access.receiver with
  | .thisExpr | .superExpr | .parentExpr | .virtualParentExpr =>
    match access.container with
    | some name => fromAnnotationText name.toList
    | none => .unknown
  | _ => access.valueType

/-- The access level that the receiver grants. -/
def minAccess (access : MemberAccess) : AccessLevel :=
  match access.receiver with
  | .thisExpr => .private
  | .superExpr => .protected
  | _ => .public

/-- Receivers that are looked up in their own document first. -/
def documentFirst (access : MemberAccess) : Bool :=
  match access.receiver with
  | .thisExpr | .ident | .funcCallExpr | .memberAccessExpr | .arrayExpr => true
  | _ => false

end MemberAccess

namespace SymbolDb

variable (db : SymbolDb) (callDepth : Nat)

def resolveMemberAccess (uri : String) (symbols : List Symbol) (access : MemberAccess) :
    Observed (Option Definition) :=
  match access.receiver with
  | .other => return none
  | _ =>
    match access.container with
    | none => return none
    | some container =>
      match if access.documentFirst then
          resolveDocumentMember uri symbols container access.name access.minAccess
        else none with
      | some d => return some d
      | none => db.findMember callDepth container access.name access.minAccess

/-- The declaration that the walk from the type meets first, whatever its access. -/
def firstDeclaration (container name : String) : Observed (Option Definition) :=
  tryInChain (db.superclassOf callDepth) (fun current _ => do
    Observed.record (.member current name)
    return db.memberAt current name) (lookupCtor container)

end SymbolDb

/-- A name without type arguments is looked up as it is. -/
lemma parseGenericInstance_of_plain {name : String} (h : lookupCtor name = name) :
    parseGenericInstance name = none := by
  have hnone : parseGenericType name.toList = none := by
    by_contra hsome
    obtain ⟨⟨ctor, args⟩, hparse⟩ := Option.ne_none_iff_exists'.mp hsome
    have hctor : ctor = name.toList := by
      rw [lookupCtor, hparse] at h
      rw [← h, String.toList_ofList]
    unfold parseGenericType at hparse
    dsimp only at hparse
    cases hdrop : (trim name.toList).dropWhile (· ≠ '<') with
    | nil =>
      rw [hdrop] at hparse
      cases hparse
    | cons c afterLt =>
      rw [hdrop] at hparse
      dsimp only at hparse
      split_ifs at hparse
      cases hparse
      have hsplit := congrArg List.length
        (List.takeWhile_append_dropWhile (p := (· ≠ '<')) (l := trim name.toList))
      have htrim := length_trim_le ((trim name.toList).takeWhile (· ≠ '<'))
      have hname := length_trim_le name.toList
      rw [hdrop, List.length_append, List.length_cons] at hsplit
      rw [hctor] at htrim
      omega
  rw [parseGenericInstance, hnone]
  rfl

namespace SymbolDb

variable {db : SymbolDb} {callDepth : Nat} {uri container name : String} {minAccess : AccessLevel}
  {symbols : List Symbol} {d : Definition}

/-- The lookup asks for access after it has picked a declaration. -/
lemma value_findMember_eq (h : lookupCtor container = container) :
    (db.findMember callDepth container name minAccess).value =
      (db.firstDeclaration callDepth container name).value.map
        (·.filter fun d => minAccess ≤ d.symbol.access) := by
  have hplain : instantiate container = id := by
    funext d
    rw [instantiate, parseGenericInstance_of_plain h]
    rfl
  rw [findMember, Observed.value_bind, Option.map_eq_bind, hplain]
  refine congrArg _ (funext fun found => ?_)
  rw [Option.map_id]
  rfl

/-- An accessible declaration is found just when it is the first one. -/
lemma findMember_eq_some_iff (h : lookupCtor container = container)
    (haccess : minAccess ≤ d.symbol.access) :
    (db.findMember callDepth container name minAccess).value = some (some d) ↔
      (db.firstDeclaration callDepth container name).value = some (some d) := by
  rw [value_findMember_eq h, Option.map_eq_some_iff]
  constructor
  · rintro ⟨found, hfound, hfilter⟩
    obtain ⟨rfl, -⟩ := Option.filter_eq_some_iff.mp hfilter
    exact hfound
  · intro hfirst
    exact ⟨some d, hfirst, by rw [Option.filter_some, if_pos (by simpa using haccess)]⟩

lemma firstDeclaration_of_memberAt (h : lookupCtor container = container)
    (hat : db.memberAt container name = some d) :
    (db.firstDeclaration callDepth container name).value = some (some d) := by
  simp only [firstDeclaration, tryInChain, walkChain, Observed.value_bind, Observed.value_record,
    Observed.value_pure, Option.bind_some, h, hat]

/-- What the document finds is filed under the name of its container, if it is filed as a member. -/
lemma exists_of_resolveDocumentMember (hcontained : Contained symbols)
    (hpositioned : Positioned symbols)
    (h : resolveDocumentMember uri symbols container name minAccess = some d) :
    d.symbol.containerName = some container ∧ d.symbol.requiresImport = false ∧
      d.symbol.container.isSome ∧ minAccess ≤ d.symbol.access := by
  obtain ⟨t, ht, h⟩ := Option.bind_eq_some_iff.mp h
  obtain ⟨s, hs, h⟩ := Option.bind_eq_some_iff.mp h
  cases h
  obtain ⟨hmem, hfiled⟩ := List.mem_filter.mp (List.mem_of_find?_eq_some hs)
  rw [Bool.and_eq_true, decide_eq_true_iff, decide_eq_true_iff] at hfiled
  have htype : t ∈ symbols.filter fun s => s.kind.isObjectType && s.typeName = container := by
    rcases Option.or_eq_some_iff.mp ht with hfind | ⟨-, hhead⟩
    · exact List.mem_of_find?_eq_some hfind
    · exact List.mem_of_head? hhead
  obtain ⟨htmem, htname⟩ := List.mem_filter.mp htype
  rw [Bool.and_eq_true, decide_eq_true_iff] at htname
  obtain ⟨i, hi, hget⟩ := List.getElem_of_mem htmem
  have hat : symbols[i]? = some t := List.getElem?_eq_some_iff.mpr ⟨hi, hget⟩
  obtain ⟨horigin, hall⟩ := hcontained s hmem
  obtain ⟨t', ht', hname⟩ := hall t.id hfiled.1
  rw [hpositioned i t hat, hat] at ht'
  cases ht'
  refine ⟨hname.trans (congrArg some htname.2), ?_, ?_, ?_⟩
  · rw [Symbol.requiresImport, horigin]
    rfl
  · rw [hfiled.1]
    rfl
  · simpa using List.find?_some hs

/-- The slots of members name their containers. -/
def Slot.Names : Slot → IndexEntry → Prop
  | .member c _, .decl d => d.symbol.containerName = some c
  | .annotated t _, .decl d => d.symbol.annotationTargetClassSafe = some t
  | _, _ => True

lemma insertedAt_names (uri : String) (sym : Symbol) :
    ∀ p ∈ Indices.insertedAt uri sym, Slot.Names p.1 p.2 := by
  intro p hp
  grind [Indices.insertedAt, Slot.Names]

/-- The walk meets a declaration of a class body only at the class that contains it. -/
lemma memberAt_of_firstDeclaration {H : Hasher}
    (hlayers : ∀ ix ∈ db.layers, ∃ ops, ix = runIndex H ops)
    (hcontainer : d.symbol.containerName = some container)
    (hnotAnnotated : d.symbol.annotationTargetClassSafe = none)
    (h : (db.firstDeclaration callDepth container name).value = some (some d)) :
    db.memberAt container name = some d := by
  obtain ⟨current, depth, hvisit⟩ := tryInChain_found h
  have hat : db.memberAt current name = some d := Option.some.inj hvisit
  obtain ⟨ix, hix, hdirect⟩ := exists_layer_of_memberAt hat
  obtain ⟨ops, rfl⟩ := hlayers ix hix
  have hnames := forall_bucket_runIndex insertedAt_names H ops
  rcases Option.or_eq_some_iff.mp (Option.filter_eq_some_iff.mp hdirect).1 with hlast | ⟨-, hhead⟩
  · have hname := hnames (.member current name) (.decl d)
      (List.mem_map_of_mem (List.mem_of_getLast? hlast))
    have hsame : current = container := Option.some.inj (hname.symm.trans hcontainer)
    rw [← hsame, hat]
  · have htarget : d.symbol.annotationTargetClassSafe = some current :=
      hnames (.annotated current name) (.decl d) (List.mem_map_of_mem (List.mem_of_head? hhead))
    rw [hnotAnnotated] at htarget
    cases htarget

/-- The declaration is the one that the index has for the member: what was filed last under the
class, in the first layer that has anything there. A member that its own class body injects into
another class is not filed under its class, so that it has to be met in a superclass. -/
def IndexedFirst (db : SymbolDb) (callDepth : Nat) (container name : String) (d : Definition) :
    Prop :=
  if d.symbol.injectedInBody then
    (db.firstDeclaration callDepth container name).value = some (some d)
  else db.memberAt container name = some d

lemma indexedFirst_iff {H : Hasher} (hlayers : ∀ ix ∈ db.layers, ∃ ops, ix = runIndex H ops)
    (hcontained : Contained symbols) (hpositioned : Positioned symbols)
    (hplain : lookupCtor container = container)
    (h : resolveDocumentMember uri symbols container name minAccess = some d) :
    db.IndexedFirst callDepth container name d ↔
      (db.firstDeclaration callDepth container name).value = some (some d) := by
  obtain ⟨hcontainer, himport, hsome, -⟩ := exists_of_resolveDocumentMember hcontained hpositioned h
  unfold IndexedFirst
  split_ifs with hinjected
  · exact Iff.rfl
  · have hnotAnnotated : d.symbol.annotationTargetClassSafe = none := by
      simpa [Symbol.injectedInBody, himport, hsome] using hinjected
    exact ⟨firstDeclaration_of_memberAt hplain,
      memberAt_of_firstDeclaration hlayers hcontainer hnotAnnotated⟩

/-- The receiver is of a form that the resolution looks at, and what the document finds first is
what the index has; for any other receiver there is nothing to find. -/
def AgreesWithIndex (db : SymbolDb) (callDepth : Nat) (uri : String) (symbols : List Symbol)
    (access : MemberAccess) (container : String) : Prop :=
  if access.receiver = .other then
    (db.findMember callDepth container access.name access.minAccess).value = some none
  else access.documentFirst → ∀ d,
    resolveDocumentMember uri symbols container access.name access.minAccess = some d →
      db.IndexedFirst callDepth container access.name d

/-- The resolution and the lookup in the index give one answer just when the document's own
table agrees with the index. -/
theorem resolveMemberAccess_eq_iff {H : Hasher}
    (hlayers : ∀ ix ∈ db.layers, ∃ ops, ix = runIndex H ops) (hcontained : Contained symbols)
    (hpositioned : Positioned symbols) (hplain : lookupCtor container = container)
    {access : MemberAccess} (hcontainer : access.container = some container) :
    (db.resolveMemberAccess callDepth uri symbols access).value =
        (db.findMember callDepth container access.name access.minAccess).value ↔
      db.AgreesWithIndex callDepth uri symbols access container := by
  unfold AgreesWithIndex
  split_ifs with hother
  · rw [resolveMemberAccess, hother]
    exact eq_comm
  · have hresolve : db.resolveMemberAccess callDepth uri symbols access =
        match if access.documentFirst then
            resolveDocumentMember uri symbols container access.name access.minAccess
          else none with
        | some d => return some d
        | none => db.findMember callDepth container access.name access.minAccess := by
      unfold resolveMemberAccess
      split
      · exact absurd ‹_› hother
      · rw [hcontainer]
    rw [hresolve]
    cases hfirst : access.documentFirst with
    | false => simp
    | true =>
      simp only [if_true, true_implies]
      cases hpick : resolveDocumentMember uri symbols container access.name access.minAccess with
      | none => simp
      | some d =>
        obtain ⟨-, -, -, haccess⟩ := exists_of_resolveDocumentMember hcontained hpositioned hpick
        simp only [Observed.value_pure, Option.some.injEq, forall_eq']
        rw [indexedFirst_iff hlayers hcontained hpositioned hplain hpick,
          ← findMember_eq_some_iff hplain haccess]
        exact eq_comm

end SymbolDb

end WitcherScriptLanguage
