import WitcherScriptLanguage.Library.BucketMap
import WitcherScriptLanguage.Symbols

/-!
# The name-keyed maps of the workspace index

Insertion and removal are two separate case analyses over a symbol
(`resolve/workspace_index/indices.rs`). Both are described here by what they do to one slot:
insertion appends `insertedAt`, removal filters by `drops`.
-/

namespace WitcherScriptLanguage

open Library

/-- The name-keyed maps of a `WorkspaceIndex`. -/
structure Indices where
  topLevelByName : BucketMap String Definition := ∅
  enumMemberByName : BucketMap String Definition := ∅
  /-- Class name to `(uri, base)`. -/
  superclassByName : BucketMap String (String × String) := ∅
  /-- Base name to `(uri, class)`. -/
  subclassesByName : BucketMap String (String × String) := ∅
  statesByOwner : NestedBucketMap String String Definition := ∅
  memberByType : NestedBucketMap String String Definition := ∅
  annotatedMembersByType : NestedBucketMap String String Definition := ∅
  nativeFunctionsByName : BucketMap String Definition := ∅
  nativeMemberByType : NestedBucketMap String String Definition := ∅

namespace Indices

def pushTopLevel (m : Indices) (k : String) (d : Definition) : Indices :=
  { m with topLevelByName := m.topLevelByName.push k d }

def pushEnumMember (m : Indices) (k : String) (d : Definition) : Indices :=
  { m with enumMemberByName := m.enumMemberByName.push k d }

def pushSuperclass (m : Indices) (k : String) (e : String × String) : Indices :=
  { m with superclassByName := m.superclassByName.push k e }

def pushSubclass (m : Indices) (k : String) (e : String × String) : Indices :=
  { m with subclassesByName := m.subclassesByName.push k e }

def pushState (m : Indices) (owner name : String) (d : Definition) : Indices :=
  { m with statesByOwner := m.statesByOwner.push owner name d }

def pushMember (m : Indices) (container name : String) (d : Definition) : Indices :=
  { m with memberByType := m.memberByType.push container name d }

def pushAnnotated (m : Indices) (target name : String) (d : Definition) : Indices :=
  { m with annotatedMembersByType := m.annotatedMembersByType.push target name d }

def pushNativeFunction (m : Indices) (k : String) (d : Definition) : Indices :=
  { m with nativeFunctionsByName := m.nativeFunctionsByName.push k d }

def pushNativeMember (m : Indices) (container name : String) (d : Definition) : Indices :=
  { m with nativeMemberByType := m.nativeMemberByType.push container name d }

def retainTopLevel (m : Indices) (k : String) (keep : Definition → Bool) : Indices :=
  { m with topLevelByName := m.topLevelByName.retainAndPrune k keep }

def retainEnumMember (m : Indices) (k : String) (keep : Definition → Bool) : Indices :=
  { m with enumMemberByName := m.enumMemberByName.retainAndPrune k keep }

def retainSuperclass (m : Indices) (k : String) (keep : String × String → Bool) : Indices :=
  { m with superclassByName := m.superclassByName.retainAndPrune k keep }

def retainSubclass (m : Indices) (k : String) (keep : String × String → Bool) : Indices :=
  { m with subclassesByName := m.subclassesByName.retainAndPrune k keep }

def retainState (m : Indices) (owner name : String) (keep : Definition → Bool) : Indices :=
  { m with statesByOwner := m.statesByOwner.retainAndPrune owner name keep }

def retainMember (m : Indices) (container name : String) (keep : Definition → Bool) : Indices :=
  { m with memberByType := m.memberByType.retainAndPrune container name keep }

def retainAnnotated (m : Indices) (target name : String) (keep : Definition → Bool) : Indices :=
  { m with annotatedMembersByType := m.annotatedMembersByType.retainAndPrune target name keep }

def retainNativeFunction (m : Indices) (k : String) (keep : Definition → Bool) : Indices :=
  { m with nativeFunctionsByName := m.nativeFunctionsByName.retainAndPrune k keep }

def retainNativeMember (m : Indices) (container name : String) (keep : Definition → Bool) :
    Indices :=
  { m with nativeMemberByType := m.nativeMemberByType.retainAndPrune container name keep }

def insertNative (m : Indices) (uri : String) (sym : Symbol) : Indices :=
  match sym.containerName with
  | none => m.pushNativeFunction sym.name ⟨uri, sym⟩
  | some container => m.pushNativeMember container sym.name ⟨uri, sym⟩

def removeNative (m : Indices) (uri : String) (sym : Symbol) : Indices :=
  match sym.containerName with
  | none => m.retainNativeFunction sym.name (fun d => d.uri != uri)
  | some container => m.retainNativeMember container sym.name (fun d => d.uri != uri)

/-- The body of the loop of `insert_into_indices`. -/
def insertSymbol (m : Indices) (uri : String) (sym : Symbol) : Indices :=
  if sym.requiresImport then m.insertNative uri sym
  else match sym.annotationTargetClassSafe with
  | some target => m.pushAnnotated target sym.name ⟨uri, sym⟩
  | none =>
    if sym.container.isNone then
      let m := m.pushTopLevel sym.typeName ⟨uri, sym⟩
      let m := match sym.kind.extendsByTypeName, sym.baseClass with
        | true, some superclass =>
          (m.pushSuperclass sym.name (uri, superclass)).pushSubclass superclass (uri, sym.name)
        | _, _ => m
      match decide (sym.kind = .state), sym.ownerClass with
      | true, some owner => m.pushState owner sym.name ⟨uri, sym⟩
      | _, _ => m
    else match sym.containerName with
    | none => m
    | some cn =>
      let m := m.pushMember cn sym.name ⟨uri, sym⟩
      if sym.kind = .enumMember then m.pushEnumMember sym.name ⟨uri, sym⟩ else m

/-- The body of the loop of `remove_from_indices`. -/
def removeSymbol (m : Indices) (uri : String) (sym : Symbol) : Indices :=
  if sym.requiresImport then m.removeNative uri sym
  else if sym.container.isNone then
    let m := m.retainTopLevel sym.typeName (fun d => d.uri != uri)
    let m := if sym.kind.extendsByTypeName then
        let m := m.retainSuperclass sym.name (fun e => e.1 != uri)
        match sym.baseClass with
        | some base => m.retainSubclass base (fun e => e.1 != uri || e.2 != sym.name)
        | none => m
      else m
    let m := match decide (sym.kind = .state), sym.ownerClass with
      | true, some owner => m.retainState owner sym.name (fun d => d.uri != uri)
      | _, _ => m
    match sym.annotationTargetClassSafe with
    | some target => m.retainAnnotated target sym.name (fun d => d.uri != uri)
    | none => m
  else match sym.containerName with
  | none => m
  | some cn =>
    let m := m.retainMember cn sym.name (fun d => d.uri != uri)
    if sym.kind = .enumMember then m.retainEnumMember sym.name (fun d => d.uri != uri) else m

def insertIntoIndices (m : Indices) (uri : String) (symbols : List Symbol) : Indices :=
  symbols.foldl (fun m sym => m.insertSymbol uri sym) m

def removeSymbols (m : Indices) (uri : String) (oldSymbols : List Symbol) : Indices :=
  oldSymbols.foldl (fun m sym => m.removeSymbol uri sym) m

end Indices

/-! ### Slots: one key of one map -/

inductive Slot
  | topLevel (name : String)
  | enumMember (name : String)
  | superclass (name : String)
  | subclass (base : String)
  | state (owner name : String)
  | member (container name : String)
  | annotated (target name : String)
  | nativeFunction (name : String)
  | nativeMember (container name : String)
  deriving DecidableEq, Repr

/-- An entry of any of the maps, tagged with the document it comes from. -/
inductive IndexEntry
  | decl (d : Definition)
  | edge (uri name : String)
  deriving DecidableEq, Repr

namespace IndexEntry

def uri : IndexEntry → String
  | decl d => d.uri
  | edge u _ => u

/-- The entry of a superclass or subclass map. -/
def ofEdge (e : String × String) : IndexEntry := edge e.1 e.2

/-- The class at the other end of an edge; a declaration names no class. -/
def edgeName? : IndexEntry → Option String
  | decl _ => none
  | edge _ name => some name

end IndexEntry

namespace Indices

/-- What the map of a slot holds under the slot's key. -/
def bucket (m : Indices) : Slot → List IndexEntry
  | .topLevel k => (m.topLevelByName.bucket k).map .decl
  | .enumMember k => (m.enumMemberByName.bucket k).map .decl
  | .superclass k => (m.superclassByName.bucket k).map .ofEdge
  | .subclass k => (m.subclassesByName.bucket k).map .ofEdge
  | .state o k => (m.statesByOwner.bucket o k).map .decl
  | .member c k => (m.memberByType.bucket c k).map .decl
  | .annotated t k => (m.annotatedMembersByType.bucket t k).map .decl
  | .nativeFunction k => (m.nativeFunctionsByName.bucket k).map .decl
  | .nativeMember c k => (m.nativeMemberByType.bucket c k).map .decl

/-- No map keeps a key without entries. -/
structure Pruned (m : Indices) : Prop where
  topLevel : m.topLevelByName.Pruned
  enumMember : m.enumMemberByName.Pruned
  superclass : m.superclassByName.Pruned
  subclasses : m.subclassesByName.Pruned
  states : m.statesByOwner.Pruned
  member : m.memberByType.Pruned
  annotated : m.annotatedMembersByType.Pruned
  nativeFunctions : m.nativeFunctionsByName.Pruned
  nativeMember : m.nativeMemberByType.Pruned

/-- The entries that insertion of one symbol appends, each with its slot. -/
def insertedAt (uri : String) (sym : Symbol) : List (Slot × IndexEntry) :=
  let d : IndexEntry := .decl ⟨uri, sym⟩
  if sym.requiresImport then
    match sym.containerName with
    | none => [(.nativeFunction sym.name, d)]
    | some c => [(.nativeMember c sym.name, d)]
  else match sym.annotationTargetClassSafe with
  | some target => [(.annotated target sym.name, d)]
  | none =>
    if sym.container.isNone then
      (.topLevel sym.typeName, d) ::
        ((match sym.kind.extendsByTypeName, sym.baseClass with
          | true, some superclass => [(.superclass sym.name, .edge uri superclass),
              (.subclass superclass, .edge uri sym.name)]
          | _, _ => []) ++
        (match decide (sym.kind = .state), sym.ownerClass with
          | true, some owner => [(.state owner sym.name, d)]
          | _, _ => []))
    else match sym.containerName with
    | none => []
    | some cn => (.member cn sym.name, d) ::
        (if sym.kind = .enumMember then [(.enumMember sym.name, d)] else [])

/-- The slots that removal of one symbol looks at. -/
def visitedByRemoval (sym : Symbol) : List Slot :=
  if sym.requiresImport then
    match sym.containerName with
    | none => [.nativeFunction sym.name]
    | some c => [.nativeMember c sym.name]
  else if sym.container.isNone then
    .topLevel sym.typeName ::
      ((if sym.kind.extendsByTypeName then
          .superclass sym.name :: (sym.baseClass.map Slot.subclass).toList
        else []) ++
      (match decide (sym.kind = .state), sym.ownerClass with
        | true, some owner => [.state owner sym.name]
        | _, _ => []) ++
      (sym.annotationTargetClassSafe.map fun t => Slot.annotated t sym.name).toList)
  else match sym.containerName with
  | none => []
  | some cn => .member cn sym.name ::
      (if sym.kind = .enumMember then [.enumMember sym.name] else [])

/-- Whether an entry of a visited slot belongs to the removed symbol. The subclass map keeps
edges of the same document that come from another class. -/
def ownedBy (uri : String) (sym : Symbol) : Slot → IndexEntry → Bool
  | .subclass _, e => e.uri == uri && e.edgeName? == some sym.name
  | _, e => e.uri == uri

/-! ### What the operations do to a bucket -/

/-- The entries of a list of pushes that go to one slot. -/
def appended (pushes : List (Slot × IndexEntry)) (σ : Slot) : List IndexEntry :=
  (pushes.filter (fun p => p.1 = σ)).map Prod.snd

@[simp] lemma appended_nil (σ : Slot) : appended [] σ = [] := rfl

lemma appended_append (xs ys : List (Slot × IndexEntry)) (σ : Slot) :
    appended (xs ++ ys) σ = appended xs σ ++ appended ys σ := by
  simp [appended]

lemma appended_cons (p : Slot × IndexEntry) (xs : List (Slot × IndexEntry)) (σ : Slot) :
    appended (p :: xs) σ = appended [p] σ ++ appended xs σ :=
  appended_append [p] xs σ

lemma appended_singleton (σ' σ : Slot) (e : IndexEntry) :
    appended [(σ', e)] σ = if σ = σ' then [e] else [] := by
  by_cases h : σ' = σ
  · simp [appended, h]
  · simp [appended, h, Ne.symm h]

/-- What removal of a symbol leaves of a bucket when it visits the given slots. -/
def surviving (uri : String) (sym : Symbol) (visited : List Slot) (σ : Slot)
    (entries : List IndexEntry) : List IndexEntry :=
  entries.filter (fun e => !(decide (σ ∈ visited) && ownedBy uri sym σ e))

@[simp] lemma surviving_nil (uri : String) (sym : Symbol) (σ : Slot) (l : List IndexEntry) :
    surviving uri sym [] σ l = l := by
  simp [surviving]

lemma surviving_append (uri : String) (sym : Symbol) (xs ys : List Slot) (σ : Slot)
    (l : List IndexEntry) :
    surviving uri sym (xs ++ ys) σ l = surviving uri sym ys σ (surviving uri sym xs σ l) := by
  unfold surviving
  rw [List.filter_filter]
  apply List.filter_congr
  intro e _
  by_cases hx : σ ∈ xs <;> by_cases hy : σ ∈ ys <;> simp [hx, hy]

lemma surviving_cons (uri : String) (sym : Symbol) (s : Slot) (xs : List Slot) (σ : Slot)
    (l : List IndexEntry) :
    surviving uri sym (s :: xs) σ l = surviving uri sym xs σ (surviving uri sym [s] σ l) :=
  surviving_append uri sym [s] xs σ l

section Buckets

variable (m : Indices) (σ : Slot) (k o : String)

@[simp] lemma bucket_empty : ({} : Indices).bucket σ = [] := by
  cases σ <;> rfl

lemma bucket_pushTopLevel (d : Definition) :
    (m.pushTopLevel k d).bucket σ = m.bucket σ ++ appended [(.topLevel k, .decl d)] σ := by
  rw [appended_singleton]
  cases σ <;> simp [bucket, pushTopLevel, BucketMap.bucket_push]
  split_ifs <;> rfl

lemma bucket_pushEnumMember (d : Definition) :
    (m.pushEnumMember k d).bucket σ = m.bucket σ ++ appended [(.enumMember k, .decl d)] σ := by
  rw [appended_singleton]
  cases σ <;> simp [bucket, pushEnumMember, BucketMap.bucket_push]
  split_ifs <;> rfl

lemma bucket_pushSuperclass (e : String × String) :
    (m.pushSuperclass k e).bucket σ = m.bucket σ ++ appended [(.superclass k, .edge e.1 e.2)] σ := by
  rw [appended_singleton]
  cases σ <;> simp [bucket, pushSuperclass, BucketMap.bucket_push]
  split_ifs <;> rfl

lemma bucket_pushSubclass (e : String × String) :
    (m.pushSubclass k e).bucket σ = m.bucket σ ++ appended [(.subclass k, .edge e.1 e.2)] σ := by
  rw [appended_singleton]
  cases σ <;> simp [bucket, pushSubclass, BucketMap.bucket_push]
  split_ifs <;> rfl

lemma bucket_pushState (d : Definition) :
    (m.pushState o k d).bucket σ = m.bucket σ ++ appended [(.state o k, .decl d)] σ := by
  rw [appended_singleton]
  cases σ <;> simp [bucket, pushState, NestedBucketMap.bucket_push]
  split_ifs <;> rfl

lemma bucket_pushMember (d : Definition) :
    (m.pushMember o k d).bucket σ = m.bucket σ ++ appended [(.member o k, .decl d)] σ := by
  rw [appended_singleton]
  cases σ <;> simp [bucket, pushMember, NestedBucketMap.bucket_push]
  split_ifs <;> rfl

lemma bucket_pushAnnotated (d : Definition) :
    (m.pushAnnotated o k d).bucket σ = m.bucket σ ++ appended [(.annotated o k, .decl d)] σ := by
  rw [appended_singleton]
  cases σ <;> simp [bucket, pushAnnotated, NestedBucketMap.bucket_push]
  split_ifs <;> rfl

lemma bucket_pushNativeFunction (d : Definition) :
    (m.pushNativeFunction k d).bucket σ = m.bucket σ ++ appended [(.nativeFunction k, .decl d)] σ := by
  rw [appended_singleton]
  cases σ <;> simp [bucket, pushNativeFunction, BucketMap.bucket_push]
  split_ifs <;> rfl

lemma bucket_pushNativeMember (d : Definition) :
    (m.pushNativeMember o k d).bucket σ = m.bucket σ ++ appended [(.nativeMember o k, .decl d)] σ := by
  rw [appended_singleton]
  cases σ <;> simp [bucket, pushNativeMember, NestedBucketMap.bucket_push]
  split_ifs <;> rfl

lemma bucket_retainTopLevel (uri : String) (sym : Symbol) :
    (m.retainTopLevel k (fun d => d.uri != uri)).bucket σ =
      surviving uri sym [.topLevel k] σ (m.bucket σ) := by
  cases σ <;> simp [bucket, surviving, ownedBy, retainTopLevel, BucketMap.bucket_retainAndPrune,
    List.filter_map]
  congr

lemma bucket_retainEnumMember (uri : String) (sym : Symbol) :
    (m.retainEnumMember k (fun d => d.uri != uri)).bucket σ =
      surviving uri sym [.enumMember k] σ (m.bucket σ) := by
  cases σ <;> simp [bucket, surviving, ownedBy, retainEnumMember, BucketMap.bucket_retainAndPrune,
    List.filter_map]
  congr

lemma bucket_retainSuperclass (uri : String) (sym : Symbol) :
    (m.retainSuperclass k (fun e => e.1 != uri)).bucket σ =
      surviving uri sym [.superclass k] σ (m.bucket σ) := by
  cases σ <;> simp [bucket, surviving, ownedBy, retainSuperclass, BucketMap.bucket_retainAndPrune,
    List.filter_map]
  congr

lemma bucket_retainState (uri : String) (sym : Symbol) :
    (m.retainState o k (fun d => d.uri != uri)).bucket σ =
      surviving uri sym [.state o k] σ (m.bucket σ) := by
  cases σ <;> simp [bucket, surviving, ownedBy, retainState, NestedBucketMap.bucket_retainAndPrune,
    List.filter_map]
  congr

lemma bucket_retainMember (uri : String) (sym : Symbol) :
    (m.retainMember o k (fun d => d.uri != uri)).bucket σ =
      surviving uri sym [.member o k] σ (m.bucket σ) := by
  cases σ <;> simp [bucket, surviving, ownedBy, retainMember, NestedBucketMap.bucket_retainAndPrune,
    List.filter_map]
  congr

lemma bucket_retainAnnotated (uri : String) (sym : Symbol) :
    (m.retainAnnotated o k (fun d => d.uri != uri)).bucket σ =
      surviving uri sym [.annotated o k] σ (m.bucket σ) := by
  cases σ <;> simp [bucket, surviving, ownedBy, retainAnnotated, NestedBucketMap.bucket_retainAndPrune,
    List.filter_map]
  congr

lemma bucket_retainNativeFunction (uri : String) (sym : Symbol) :
    (m.retainNativeFunction k (fun d => d.uri != uri)).bucket σ =
      surviving uri sym [.nativeFunction k] σ (m.bucket σ) := by
  cases σ <;> simp [bucket, surviving, ownedBy, retainNativeFunction, BucketMap.bucket_retainAndPrune,
    List.filter_map]
  congr

lemma bucket_retainNativeMember (uri : String) (sym : Symbol) :
    (m.retainNativeMember o k (fun d => d.uri != uri)).bucket σ =
      surviving uri sym [.nativeMember o k] σ (m.bucket σ) := by
  cases σ <;> simp [bucket, surviving, ownedBy, retainNativeMember,
    NestedBucketMap.bucket_retainAndPrune, List.filter_map]
  congr

lemma bucket_retainSubclass (uri : String) (sym : Symbol) :
    (m.retainSubclass k (fun e => e.1 != uri || e.2 != sym.name)).bucket σ =
      surviving uri sym [.subclass k] σ (m.bucket σ) := by
  cases σ <;> simp [bucket, surviving, ownedBy, retainSubclass, BucketMap.bucket_retainAndPrune,
    List.filter_map]
  congr 1

/-- Insertion of a symbol appends its entries. -/
theorem bucket_insertSymbol (uri : String) (sym : Symbol) :
    (m.insertSymbol uri sym).bucket σ = m.bucket σ ++ appended (insertedAt uri sym) σ := by
  unfold insertSymbol insertedAt
  cases himport : sym.requiresImport with
  | true =>
    simp only [if_true, insertNative]
    cases sym.containerName with
    | none => exact bucket_pushNativeFunction ..
    | some c => exact bucket_pushNativeMember ..
  | false =>
    cases sym.annotationTargetClassSafe with
    | some target => exact bucket_pushAnnotated ..
    | none =>
      cases sym.container with
      | none =>
        simp only [Bool.false_eq_true, if_false, Option.isNone_none, if_true]
        rw [appended_cons, appended_append, ← List.append_assoc, ← List.append_assoc,
          ← bucket_pushTopLevel]
        generalize m.pushTopLevel sym.typeName ⟨uri, sym⟩ = m'
        have hbases : ∀ m' : Indices, (match sym.kind.extendsByTypeName, sym.baseClass with
            | true, some superclass =>
              (m'.pushSuperclass sym.name (uri, superclass)).pushSubclass superclass (uri, sym.name)
            | _, _ => m').bucket σ = m'.bucket σ ++
              appended (match sym.kind.extendsByTypeName, sym.baseClass with
                | true, some superclass => [(.superclass sym.name, .edge uri superclass),
                    (.subclass superclass, .edge uri sym.name)]
                | _, _ => []) σ := by
          intro m'
          split
          · rw [appended_cons, ← List.append_assoc, bucket_pushSubclass, bucket_pushSuperclass]
          · simp
        rw [← hbases]
        split
        · exact bucket_pushState ..
        · simp
      | some c =>
        simp only [Bool.false_eq_true, if_false, Option.isNone_some]
        cases sym.containerName with
        | none => simp
        | some cn =>
          dsimp only
          rw [appended_cons, ← List.append_assoc, ← bucket_pushMember]
          split_ifs
          · exact bucket_pushEnumMember ..
          · simp

/-- Removal of a symbol filters the slots that it visits. -/
theorem bucket_removeSymbol (uri : String) (sym : Symbol) :
    (m.removeSymbol uri sym).bucket σ =
      surviving uri sym (visitedByRemoval sym) σ (m.bucket σ) := by
  unfold removeSymbol visitedByRemoval
  cases himport : sym.requiresImport with
  | true =>
    simp only [if_true, removeNative]
    cases sym.containerName with
    | none => exact bucket_retainNativeFunction ..
    | some c => exact bucket_retainNativeMember ..
  | false =>
    cases sym.container with
    | none =>
      simp only [Bool.false_eq_true, if_false, Option.isNone_none, if_true]
      rw [surviving_cons, surviving_append, surviving_append, ← bucket_retainTopLevel]
      generalize m.retainTopLevel sym.typeName (fun d => d.uri != uri) = m'
      have hbases : (if sym.kind.extendsByTypeName then
          match sym.baseClass with
          | some base => (m'.retainSuperclass sym.name (fun e => e.1 != uri)).retainSubclass base
              (fun e => e.1 != uri || e.2 != sym.name)
          | none => m'.retainSuperclass sym.name (fun e => e.1 != uri)
        else m').bucket σ = surviving uri sym (if sym.kind.extendsByTypeName then
            .superclass sym.name :: (sym.baseClass.map Slot.subclass).toList
          else []) σ (m'.bucket σ) := by
        split_ifs
        · cases sym.baseClass with
          | none => exact bucket_retainSuperclass ..
          | some base =>
            dsimp only [Option.map_some, Option.toList_some]
            rw [surviving_cons, bucket_retainSubclass, bucket_retainSuperclass]
        · simp
      rw [← hbases]
      generalize (if sym.kind.extendsByTypeName then
          match sym.baseClass with
          | some base => (m'.retainSuperclass sym.name (fun e => e.1 != uri)).retainSubclass base
              (fun e => e.1 != uri || e.2 != sym.name)
          | none => m'.retainSuperclass sym.name (fun e => e.1 != uri)
        else m') = m''
      have hstate : (match decide (sym.kind = SymbolKind.state), sym.ownerClass with
          | true, some owner => m''.retainState owner sym.name (fun d => d.uri != uri)
          | _, _ => m'').bucket σ = surviving uri sym
            (match decide (sym.kind = SymbolKind.state), sym.ownerClass with
              | true, some owner => [Slot.state owner sym.name]
              | _, _ => []) σ (m''.bucket σ) := by
        cases decide (sym.kind = SymbolKind.state) with
        | false => exact (surviving_nil ..).symm
        | true =>
          cases sym.ownerClass with
          | none => exact (surviving_nil ..).symm
          | some owner => exact bucket_retainState ..
      rw [← hstate]
      cases sym.annotationTargetClassSafe with
      | none => exact (surviving_nil ..).symm
      | some target => exact bucket_retainAnnotated ..
    | some c =>
      simp only [Bool.false_eq_true, if_false, Option.isNone_some]
      cases sym.containerName with
      | none => exact (surviving_nil ..).symm
      | some cn =>
        dsimp only
        rw [surviving_cons, ← bucket_retainMember]
        split_ifs
        · exact bucket_retainEnumMember ..
        · exact (surviving_nil ..).symm

/-- The entries that insertion of a symbol list appends, each with its slot. -/
def insertedBy (uri : String) (symbols : List Symbol) : List (Slot × IndexEntry) :=
  symbols.flatMap (insertedAt uri)

theorem bucket_insertIntoIndices (uri : String) (symbols : List Symbol) :
    (m.insertIntoIndices uri symbols).bucket σ =
      m.bucket σ ++ appended (insertedBy uri symbols) σ := by
  unfold insertIntoIndices insertedBy
  induction symbols generalizing m with
  | nil => simp
  | cons sym rest ih =>
    rw [List.foldl_cons, ih, bucket_insertSymbol, List.flatMap_cons, appended_append,
      List.append_assoc]

theorem bucket_removeSymbols (uri : String) (oldSymbols : List Symbol) :
    (m.removeSymbols uri oldSymbols).bucket σ = (m.bucket σ).filter (fun e =>
      !oldSymbols.any (fun sym => decide (σ ∈ visitedByRemoval sym) && ownedBy uri sym σ e)) := by
  unfold removeSymbols
  induction oldSymbols generalizing m with
  | nil => simp
  | cons sym rest ih =>
    rw [List.foldl_cons, ih, bucket_removeSymbol, surviving, List.filter_filter]
    apply List.filter_congr
    intro e _
    rw [List.any_cons, Bool.not_or, Bool.and_comm]

end Buckets

section Pruning

variable {m : Indices}

lemma pruned_empty : ({} : Indices).Pruned :=
  ⟨BucketMap.pruned_empty, BucketMap.pruned_empty, BucketMap.pruned_empty, BucketMap.pruned_empty,
    NestedBucketMap.pruned_empty, NestedBucketMap.pruned_empty, NestedBucketMap.pruned_empty,
    BucketMap.pruned_empty, NestedBucketMap.pruned_empty⟩

lemma Pruned.insertSymbol (h : m.Pruned) (uri : String) (sym : Symbol) :
    (m.insertSymbol uri sym).Pruned := by
  unfold Indices.insertSymbol
  cases sym.requiresImport with
  | true =>
    simp only [if_true, insertNative]
    cases sym.containerName with
    | none => exact { h with nativeFunctions := h.nativeFunctions.push _ _ }
    | some c => exact { h with nativeMember := h.nativeMember.push _ _ _ }
  | false =>
    cases sym.annotationTargetClassSafe with
    | some target => exact { h with annotated := h.annotated.push _ _ _ }
    | none =>
      cases sym.container with
      | none =>
        simp only [Bool.false_eq_true, if_false, Option.isNone_none, if_true]
        have htop : (m.pushTopLevel sym.typeName ⟨uri, sym⟩).Pruned :=
          { h with topLevel := h.topLevel.push _ _ }
        generalize m.pushTopLevel sym.typeName ⟨uri, sym⟩ = m' at htop ⊢
        have hbases : (match sym.kind.extendsByTypeName, sym.baseClass with
            | true, some superclass =>
              (m'.pushSuperclass sym.name (uri, superclass)).pushSubclass superclass (uri, sym.name)
            | _, _ => m').Pruned := by
          split
          · exact { htop with
              superclass := htop.superclass.push _ _
              subclasses := htop.subclasses.push _ _ }
          · exact htop
        split
        · exact { hbases with states := hbases.states.push _ _ _ }
        · exact hbases
      | some c =>
        simp only [Bool.false_eq_true, if_false, Option.isNone_some]
        cases sym.containerName with
        | none => exact h
        | some cn =>
          have hmember : (m.pushMember cn sym.name ⟨uri, sym⟩).Pruned :=
            { h with member := h.member.push _ _ _ }
          dsimp only
          split_ifs
          · exact { hmember with enumMember := hmember.enumMember.push _ _ }
          · exact hmember

lemma Pruned.removeSymbol (h : m.Pruned) (uri : String) (sym : Symbol) :
    (m.removeSymbol uri sym).Pruned := by
  unfold Indices.removeSymbol
  cases sym.requiresImport with
  | true =>
    simp only [if_true, removeNative]
    cases sym.containerName with
    | none => exact { h with nativeFunctions := h.nativeFunctions.retainAndPrune _ _ }
    | some c => exact { h with nativeMember := h.nativeMember.retainAndPrune _ _ _ }
  | false =>
    cases sym.container with
    | none =>
      simp only [Bool.false_eq_true, if_false, Option.isNone_none, if_true]
      have htop : (m.retainTopLevel sym.typeName (fun d => d.uri != uri)).Pruned :=
        { h with topLevel := h.topLevel.retainAndPrune _ _ }
      generalize m.retainTopLevel sym.typeName (fun d => d.uri != uri) = m' at htop ⊢
      have hbases : (if sym.kind.extendsByTypeName then
          match sym.baseClass with
          | some base => (m'.retainSuperclass sym.name (fun e => e.1 != uri)).retainSubclass base
              (fun e => e.1 != uri || e.2 != sym.name)
          | none => m'.retainSuperclass sym.name (fun e => e.1 != uri)
        else m').Pruned := by
        have hsuper : (m'.retainSuperclass sym.name (fun e => e.1 != uri)).Pruned :=
          { htop with superclass := htop.superclass.retainAndPrune _ _ }
        split_ifs
        · split
          · exact { hsuper with subclasses := hsuper.subclasses.retainAndPrune _ _ }
          · exact hsuper
        · exact htop
      generalize (if sym.kind.extendsByTypeName then
          match sym.baseClass with
          | some base => (m'.retainSuperclass sym.name (fun e => e.1 != uri)).retainSubclass base
              (fun e => e.1 != uri || e.2 != sym.name)
          | none => m'.retainSuperclass sym.name (fun e => e.1 != uri)
        else m') = m'' at hbases ⊢
      have hstate : (match decide (sym.kind = SymbolKind.state), sym.ownerClass with
          | true, some owner => m''.retainState owner sym.name (fun d => d.uri != uri)
          | _, _ => m'').Pruned := by
        split
        · exact { hbases with states := hbases.states.retainAndPrune _ _ _ }
        · exact hbases
      cases sym.annotationTargetClassSafe with
      | none => exact hstate
      | some target => exact { hstate with annotated := hstate.annotated.retainAndPrune _ _ _ }
    | some c =>
      simp only [Bool.false_eq_true, if_false, Option.isNone_some]
      cases sym.containerName with
      | none => exact h
      | some cn =>
        have hmember : (m.retainMember cn sym.name (fun d => d.uri != uri)).Pruned :=
          { h with member := h.member.retainAndPrune _ _ _ }
        dsimp only
        split_ifs
        · exact { hmember with enumMember := hmember.enumMember.retainAndPrune _ _ }
        · exact hmember

lemma Pruned.insertIntoIndices (h : m.Pruned) (uri : String) (symbols : List Symbol) :
    (m.insertIntoIndices uri symbols).Pruned := by
  unfold Indices.insertIntoIndices
  induction symbols generalizing m with
  | nil => exact h
  | cons sym rest ih => exact ih (h.insertSymbol uri sym)

lemma Pruned.removeSymbols (h : m.Pruned) (uri : String) (symbols : List Symbol) :
    (m.removeSymbols uri symbols).Pruned := by
  unfold Indices.removeSymbols
  induction symbols generalizing m with
  | nil => exact h
  | cons sym rest ih => exact ih (h.removeSymbol uri sym)

end Pruning

end Indices

end WitcherScriptLanguage
