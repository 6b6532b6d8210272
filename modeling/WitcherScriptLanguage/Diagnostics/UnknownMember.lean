import WitcherScriptLanguage.Diagnostics.WorkspaceRules
import WitcherScriptLanguage.Resolve.MemberAccess

/-!
# Unknown members

The branch of the unknown-symbol rule for member accesses (`diagnostics/unknown_symbol.rs`) beside
the resolution that go-to-definition uses. The rule asks the index only, so the two have one
answer where the document's own table agrees with the index.
-/

namespace WitcherScriptLanguage

open Library

def declaringClassOf (d : Definition) : Option String :=
  d.symbol.containerName.or d.symbol.annotationTargetClass

def memberDiagnostic (kind message : String) (severity : Severity) (range : SourceRange) :
    WorkspaceDiagnostic where
  kind := kind
  message := message
  severity := severity
  range := range
  related := []

namespace SymbolDb

variable (db : SymbolDb) (callDepth : Nat)

/-- What is reported on the member of an access; `inside` tells whether the access stands in the
class that declares a member. -/
def checkMemberAccess (access : MemberAccess) (range : SourceRange)
    (inside : Definition → Bool) : Observed (Option WorkspaceDiagnostic) := do
  match access.inferType.toDbString with
  | none => return none
  | some receiverType =>
    match ← db.findTopLevel receiverType with
    | none => return none
    | some top =>
      if !top.symbol.kind.isInstantiable then return none
      else
        match ← db.findMember callDepth receiverType access.name .private with
        | some d =>
          return if d.symbol.access = .private && !inside d then
              some (memberDiagnostic "private_member_access"
                ("Private member '" ++ access.name ++ "' of class '" ++
                  (declaringClassOf d).getD "" ++ "' is not accessible here.") .error range)
            else none
        | none =>
          match ← db.findNativeMember callDepth receiverType access.name with
          | some _ => return some (memberDiagnostic "native_not_imported"
              ("Native member '" ++ access.name ++ "' of '" ++ receiverType ++
                "' is not imported") .info range)
          | none => return some (memberDiagnostic "unknown_member"
              ("No member '" ++ access.name ++ "' on type '" ++ receiverType ++ "'") .error range)

/-- The rule reports the member as unknown. -/
def ReportsUnknownMember (access : MemberAccess) (range : SourceRange)
    (inside : Definition → Bool) : Prop :=
  ∃ diagnostic, (db.checkMemberAccess callDepth access range inside).value = some (some diagnostic) ∧
    diagnostic.kind = "unknown_member"

/-- The receiver is inferred to be of a class, struct or state of the database. -/
def ReceiverIsA (access : MemberAccess) (typeName : String) : Prop :=
  access.inferType.toDbString = some typeName ∧
    ∃ top, db.topLevel typeName = some top ∧ top.symbol.kind.isInstantiable

/-- Go-to-definition and the index give the same definition, and the rule does not report what
go-to-definition resolves. -/
def HasOneAnswer (uri : String) (symbols : List Symbol) (access : MemberAccess) : Prop :=
  ∀ typeName, db.ReceiverIsA access typeName →
    (db.resolveMemberAccess callDepth uri symbols access).value =
        (db.findMember callDepth typeName access.name access.minAccess).value ∧
      ∀ range inside, (∃ d, (db.resolveMemberAccess callDepth uri symbols access).value =
        some (some d)) → ¬db.ReportsUnknownMember callDepth access range inside

/-- The receiver's type is spelled as it is inferred, and the document's table agrees with the
index on the member. -/
def AnswersAgree (uri : String) (symbols : List Symbol) (access : MemberAccess) : Prop :=
  ∀ typeName, db.ReceiverIsA access typeName → access.container = some typeName ∧
    db.AgreesWithIndex callDepth uri symbols access typeName

variable {db callDepth} {access : MemberAccess} {typeName : String}

/-- What is found at any access level is found at the lowest one. -/
lemma findMember_private (hplain : lookupCtor typeName = typeName) {minAccess : AccessLevel}
    {name : String} {d : Definition}
    (h : (db.findMember callDepth typeName name minAccess).value = some (some d)) :
    (db.findMember callDepth typeName name .private).value = some (some d) := by
  have haccess : AccessLevel.private ≤ d.symbol.access := Nat.zero_le _
  rw [value_findMember_eq hplain] at h
  obtain ⟨found, hfound, hfilter⟩ := Option.map_eq_some_iff.mp h
  obtain ⟨rfl, -⟩ := Option.filter_eq_some_iff.mp hfilter
  exact (findMember_eq_some_iff hplain haccess).mpr hfound

/-- The rule is silent on a member that the index has. -/
lemma not_reportsUnknownMember (htype : db.ReceiverIsA access typeName) {d : Definition}
    (h : (db.findMember callDepth typeName access.name .private).value = some (some d))
    (range : SourceRange) (inside : Definition → Bool) :
    ¬db.ReportsUnknownMember callDepth access range inside := by
  obtain ⟨hinferred, top, htop, hinstantiable⟩ := htype
  rintro ⟨diagnostic, hvalue, hkind⟩
  have htopValue : (db.findTopLevel typeName).value = some (some top) := congrArg some htop
  rw [checkMemberAccess, hinferred] at hvalue
  simp only [Observed.value_bind, htopValue, Option.bind_some, hinstantiable, Bool.not_true,
    Bool.false_eq_true, if_false, h, Observed.value_pure, Option.some.injEq] at hvalue
  split_ifs at hvalue
  cases hvalue
  have hkinds : "private_member_access" = "unknown_member" := hkind
  revert hkinds
  decide

/-- A member access has one answer just where its receiver is of a form that the resolution looks
at, or has no such member, and what the document finds first is what the index has. One direction
asks that a keyword's type is no other spelling of a primitive type. -/
theorem hasOneAnswer_iff {H : Hasher} (hlayers : ∀ ix ∈ db.layers, ∃ ops, ix = runIndex H ops)
    (hplain : ∀ name, (db.topLevel name).isSome → lookupCtor name = name) (uri : String)
    (root : SyntaxNode) (access : MemberAccess) :
    (db.AnswersAgree callDepth uri (extractSymbols root) access →
        db.HasOneAnswer callDepth uri (extractSymbols root) access) ∧
      (access.inferType.toDbString = access.container →
        db.HasOneAnswer callDepth uri (extractSymbols root) access →
          db.AnswersAgree callDepth uri (extractSymbols root) access) := by
  have hcontained := contained_extractSymbols root
  have hpositioned := positioned_extractSymbols root
  have hname : ∀ {typeName}, db.ReceiverIsA access typeName → lookupCtor typeName = typeName := by
    rintro typeName ⟨-, top, htop, -⟩
    exact hplain typeName (by rw [htop]; rfl)
  constructor
  · intro hagree typeName htype
    obtain ⟨hcontainer, hindex⟩ := hagree typeName htype
    have hsame := (resolveMemberAccess_eq_iff hlayers hcontained hpositioned (hname htype)
      hcontainer).mpr hindex
    refine ⟨hsame, fun range inside hresolved => ?_⟩
    obtain ⟨d, hd⟩ := hresolved
    rw [hsame] at hd
    exact not_reportsUnknownMember htype (findMember_private (hname htype) hd) range inside
  · intro hspelled hone typeName htype
    have hcontainer : access.container = some typeName := hspelled.symm.trans htype.1
    exact ⟨hcontainer, (resolveMemberAccess_eq_iff hlayers hcontained hpositioned (hname htype)
      hcontainer).mp (hone typeName htype).1⟩

end SymbolDb

/-- The field `x` of a receiver that is inferred to be a `Foo`. -/
def accessOfX (receiver : ReceiverKind) : MemberAccess where
  receiver := receiver
  valueType := .named "Foo"
  name := "x"

lemma classFoo_layers : ∀ ix ∈ (workspaceOf [.update "file:///a.ws"
    (extractedDocument classFoo)]).layers, ∃ ops, ix = runIndex zeroHasher ops := by
  intro ix hix
  rcases mem_layers_workspaceOf hix with rfl | rfl
  · exact ⟨_, rfl⟩
  · exact ⟨[], rfl⟩

lemma eq_foo_of_topLevel {name : String} (h : ((workspaceOf [.update "file:///a.ws"
    (extractedDocument classFoo)]).topLevel name).isSome) : name = "Foo" := by
  by_contra hname
  have hpush : ∃ d, (workspaceOf [.update "file:///a.ws" (extractedDocument classFoo)]
      ).workspace.topLevelByName = BucketMap.push ∅ "Foo" d := ⟨_, rfl⟩
  obtain ⟨d, hd⟩ := hpush
  have hbucket : (workspaceOf [.update "file:///a.ws" (extractedDocument classFoo)]
      ).workspace.topLevelByName.bucket name = [] := by
    rw [hd, BucketMap.bucket_push, if_neg hname]
    rfl
  have hnone : (workspaceOf [.update "file:///a.ws" (extractedDocument classFoo)]).topLevel name =
      none := by
    rw [SymbolDb.topLevel, SymbolDb.layered, WorkspaceIndex.findTopLevel, hbucket]
    rfl
  rw [hnone] at h
  cases h

/-- Of a variable of the class, go-to-definition and the index find the field. -/
theorem hasOneAnswer_classFoo : (workspaceOf [.update "file:///a.ws" (extractedDocument classFoo)]
    ).HasOneAnswer 1 "file:///a.ws" (extractSymbols classFoo) (accessOfX .ident) := by
  refine (SymbolDb.hasOneAnswer_iff classFoo_layers ?_ "file:///a.ws" classFoo
    (accessOfX .ident)).1 ?_
  · intro name htop
    rw [eq_foo_of_topLevel htop]
    decide
  · rintro typeName ⟨⟨⟩, -⟩
    refine ⟨rfl, ?_⟩
    unfold SymbolDb.AgreesWithIndex
    rintro - d ⟨⟩
    unfold SymbolDb.IndexedFirst
    rw [if_neg (by decide)]
    rfl

/-- No type name is declared in two documents. -/
def SymbolDb.TypesDeclaredOnce (db : SymbolDb) : Prop :=
  ∀ ix ∈ db.layers, ∀ ix' ∈ db.layers, ∀ uri uri' symbols symbols',
    ix.documents.lookup uri = some symbols → ix'.documents.lookup uri' = some symbols' →
      ∀ s ∈ symbols, ∀ s' ∈ symbols', s.kind.isType → s'.kind.isType → s.typeName = s'.typeName →
        uri = uri'

lemma typesDeclaredOnce_classFoo : (workspaceOf [.update "file:///a.ws"
    (extractedDocument classFoo)]).TypesDeclaredOnce := by
  have huri : ∀ ix ∈ (workspaceOf [.update "file:///a.ws" (extractedDocument classFoo)]).layers,
      ∀ uri symbols, ix.documents.lookup uri = some symbols → uri = "file:///a.ws" := by
    intro ix hix uri symbols hlookup
    by_contra hne
    have hnone : ix.documents.lookup uri = none := by
      rcases mem_layers_workspaceOf hix with rfl | rfl
      · exact (AList.lookup_insert_ne hne).trans rfl
      · rfl
    rw [hnone] at hlookup
    cases hlookup
  intro ix hix ix' hix' uri uri' symbols symbols' hlookup hlookup' _ _ _ _ _ _ _
  rw [huri ix hix uri symbols hlookup, huri ix' hix' uri' symbols' hlookup']

/-- In parentheses, as in `((Foo)object).x`, the same receiver resolves to nothing. -/
theorem not_hasOneAnswer_nestedReceiver :
    ¬∀ (H : Hasher) (db : SymbolDb) (callDepth : Nat) (uri : String) (root : SyntaxNode)
      (access : MemberAccess), (∀ ix ∈ db.layers, ∃ ops, ix = runIndex H ops) →
        db.TypesDeclaredOnce → db.workspace.documents.lookup uri = some (extractSymbols root) →
          db.HasOneAnswer callDepth uri (extractSymbols root) access := by
  intro h
  have hone := h zeroHasher _ 1 "file:///a.ws" classFoo (accessOfX .other) classFoo_layers
    typesDeclaredOnce_classFoo rfl
  have hsame := (hone "Foo" ⟨rfl, by decide⟩).1
  revert hsame
  decide

end WitcherScriptLanguage
