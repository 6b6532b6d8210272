import WitcherScriptLanguage.Resolve.ShadowedBase

/-!
# Suppression hides declarations

Every lookup of `ShadowedBase` is compared with the same lookup on the index built without the
suppressed documents. The two agree exactly when no suppressed pick hides an unsuppressed
candidate; the catalogs are caches, so for them the last rebuilds of the two runs are compared.
-/

namespace WitcherScriptLanguage

open Library

lemma find?_filter_of_find? {α : Type} {l : List α} {q : α → Bool} {a : α} (p : α → Bool)
    (h : l.find? q = some a) (hp : p a = true) : (l.filter p).find? q = some a := by
  obtain ⟨hq, before, after, rfl, hbefore⟩ := List.find?_eq_some_iff_append.mp h
  rw [List.filter_append, List.filter_cons_of_pos hp]
  exact List.find?_eq_some_iff_append.mpr ⟨hq, before.filter p, after.filter p, rfl,
    fun x hx => hbefore x (List.mem_of_mem_filter hx)⟩

/-- The rule of `find_top_level`. -/
def preferNonStateChoice : Choice Definition where
  pick := preferNonState
  mem_of_pick {l a} h := by
    rw [preferNonState, Option.or_eq_some_iff] at h
    rcases h with hfind | ⟨-, hhead⟩
    · exact List.mem_of_find?_eq_some hfind
    · exact List.mem_of_head? hhead
  nil_of_pick h := by
    rw [preferNonState, Option.or_eq_none_iff] at h
    exact List.head?_eq_none_iff.mp h.2
  stable {l a} p h hp := by
    rw [preferNonState, Option.or_eq_some_iff] at h ⊢
    rcases h with hfind | ⟨hnone, hhead⟩
    · exact .inl (find?_filter_of_find? p hfind hp)
    · refine .inr ⟨List.find?_eq_none.mpr fun x hx => ?_, Choice.first.stable p hhead hp⟩
      exact List.find?_eq_none.mp hnone x (List.mem_of_mem_filter hx)

/-- What `direct_member_of` chooses from: it takes the last class-body declaration, else the
first injected one. -/
def WorkspaceIndex.memberCandidates (ix : WorkspaceIndex) (container name : String) :
    List Definition :=
  (ix.annotatedMembersByType.bucket container name).reverse ++ ix.memberByType.bucket container name

lemma WorkspaceIndex.directMemberOf_eq (ix : WorkspaceIndex) (container name : String)
    (minAccess : AccessLevel) : ix.directMemberOf container name minAccess =
      ((ix.memberCandidates container name).getLast?).filter
        (fun d => minAccess ≤ d.symbol.access) := by
  rw [directMemberOf, memberCandidates, List.getLast?_append, List.getLast?_reverse]

/-- The lookups that `ShadowedBase` offers. -/
inductive BaseLookup
  | findTopLevel (name : String)
  | findTopLevelFiltered (name : String) (ctx : NameContext)
  | findStateInOwner (owner name : String)
  | findEnumMember (name : String)
  | superclassOf (className : String)
  | directMemberOf (container name : String) (minAccess : AccessLevel)
  | classBodyMemberOf (container name : String)
  | classBodyMembersOf (container : String)
  | directMembersOf (container : String) (minAccess : AccessLevel)
  | annotatedMembers (container name : String)
  | callablesCatalog
  | typesCatalog
  | enumMembersCatalog
  | fullParametersOf (uri : String) (callableId : SymbolId)

/-- What a lookup returns. Listings that walk a hash map have no order. -/
inductive BaseAnswer
  | definition (d : Option Definition)
  | name (n : Option String)
  | inOrder (ds : List Definition)
  | anyOrder (ds : Multiset Definition)
  | parameters (ps : List Symbol)

namespace BaseLookup

def onShadowed (b : ShadowedBase) : BaseLookup → BaseAnswer
  | findTopLevel name => .definition (b.findTopLevel name)
  | findTopLevelFiltered name ctx => .definition (b.findTopLevelFiltered name ctx)
  | findStateInOwner owner name => .definition (b.findStateInOwner owner name)
  | findEnumMember name => .definition (b.findEnumMember name)
  | superclassOf className => .name (b.superclassOf className)
  | directMemberOf container name minAccess =>
    .definition (b.directMemberOf container name minAccess)
  | classBodyMemberOf container name => .definition (b.classBodyMemberOf container name)
  | classBodyMembersOf container => .anyOrder (b.classBodyMembersOf container)
  | directMembersOf container minAccess => .anyOrder (b.directMembersOf container minAccess)
  | annotatedMembers container name => .inOrder (b.annotatedMembers container name)
  | callablesCatalog => .anyOrder b.callablesCatalog
  | typesCatalog => .anyOrder b.typesCatalog
  | enumMembersCatalog => .anyOrder b.enumMembersCatalog
  | fullParametersOf uri callableId => .parameters (b.fullParametersOf uri callableId)

def onIndex (ix : WorkspaceIndex) : BaseLookup → BaseAnswer
  | findTopLevel name => .definition (ix.findTopLevel name)
  | findTopLevelFiltered name ctx => .definition (ix.findTopLevelFiltered name ctx)
  | findStateInOwner owner name => .definition (ix.findStateInOwner owner name)
  | findEnumMember name => .definition (ix.findEnumMember name)
  | superclassOf className => .name (ix.superclassOf className)
  | directMemberOf container name minAccess =>
    .definition (ix.directMemberOf container name minAccess)
  | classBodyMemberOf container name => .definition (ix.classBodyMemberOf container name)
  | classBodyMembersOf container => .anyOrder (ix.classBodyMembersOf container)
  | directMembersOf container minAccess => .anyOrder (ix.directMembersOf container minAccess)
  | annotatedMembers container name => .inOrder (ix.annotatedMembers container name)
  | callablesCatalog => .anyOrder ix.completionCatalog.callables
  | typesCatalog => .anyOrder ix.completionCatalog.types
  | enumMembersCatalog => .anyOrder ix.completionCatalog.enumMembers
  | fullParametersOf uri callableId => .parameters (ix.fullParametersOf uri callableId)

end BaseLookup

/-- Whether the step rebuilds the catalog from the maps it leaves behind. -/
def IndexOp.rebuildsCatalog (H : Hasher) (ix : WorkspaceIndex) : IndexOp → Bool
  | update uri document =>
    globalCatalogChanged (ix.updateDocument H uri document).1 && ix.catalogRebuildSuppressed == 0
  | apply uri contribution =>
    globalCatalogChanged (ix.applyContribution uri contribution).1 &&
      ix.catalogRebuildSuppressed == 0
  | remove uri =>
    globalCatalogChanged (ix.removeDocument uri).1 && ix.catalogRebuildSuppressed == 0
  | beginBulk => false
  | endBulk => ix.completionCatalogDirty && ix.catalogRebuildSuppressed - 1 == 0

/-- The prefix of a run after which the cached catalog was last rebuilt. -/
def catalogSource (H : Hasher) (ops : List IndexOp) : List IndexOp :=
  (ops.foldl (fun (acc : List IndexOp × List IndexOp) op =>
    (acc.1 ++ [op], if op.rebuildsCatalog H (runIndex H acc.1) then acc.1 ++ [op] else acc.2))
    ([], [])).2

lemma catalogSource_concat (H : Hasher) (ops : List IndexOp) (op : IndexOp) :
    catalogSource H (ops ++ [op]) =
      if op.rebuildsCatalog H (runIndex H ops) then ops ++ [op] else catalogSource H ops := by
  have hfst : ∀ (rest : List IndexOp) (acc : List IndexOp × List IndexOp),
      (rest.foldl (fun (acc : List IndexOp × List IndexOp) op => (acc.1 ++ [op],
        if op.rebuildsCatalog H (runIndex H acc.1) then acc.1 ++ [op] else acc.2)) acc).1 =
      acc.1 ++ rest := by
    intro rest
    induction rest with
    | nil => simp
    | cons o rest ih =>
      intro acc
      rw [List.foldl_cons, ih, List.append_assoc, List.singleton_append]
  rw [catalogSource, List.foldl_append, List.foldl_cons, List.foldl_nil, hfst]
  rfl

lemma catalog_noteChangedKeys (ix : WorkspaceIndex) (keys : List ObservedKey) :
    (ix.noteChangedKeys keys).completionCatalog =
      if globalCatalogChanged keys && ix.catalogRebuildSuppressed == 0 then
        ix.rebuildCompletionCatalog.completionCatalog
      else ix.completionCatalog := by
  unfold WorkspaceIndex.noteChangedKeys WorkspaceIndex.maybeRebuildCompletionCatalog
  cases globalCatalogChanged keys <;> cases ix.catalogRebuildSuppressed == 0 <;> rfl

/-- A step rebuilds the catalog or leaves it alone. -/
lemma catalog_step (H : Hasher) (ix : WorkspaceIndex) (op : IndexOp) :
    (op.step H ix).completionCatalog =
      if op.rebuildsCatalog H ix then (op.step H ix).rebuildCompletionCatalog.completionCatalog
      else ix.completionCatalog := by
  have hcatalog : ∀ uri, (ix.removeFromIndices uri).completionCatalog = ix.completionCatalog ∧
      (ix.removeFromIndices uri).catalogRebuildSuppressed = ix.catalogRebuildSuppressed := by
    intro uri
    rw [WorkspaceIndex.removeFromIndices_eq]
    exact ⟨rfl, rfl⟩
  have hrebuild : ∀ (jx : WorkspaceIndex) keys,
      (jx.noteChangedKeys keys).rebuildCompletionCatalog.completionCatalog =
        jx.rebuildCompletionCatalog.completionCatalog := by
    intro jx keys
    simp [WorkspaceIndex.rebuildCompletionCatalog]
  have happly : ∀ uri c, (ix.applyContribution uri c).2.completionCatalog =
      if globalCatalogChanged (ix.applyContribution uri c).1 && ix.catalogRebuildSuppressed == 0
      then (ix.applyContribution uri c).2.rebuildCompletionCatalog.completionCatalog
      else ix.completionCatalog := by
    intro uri c
    simp only [WorkspaceIndex.applyContribution]
    rw [hrebuild, catalog_noteChangedKeys]
    simp only [(hcatalog uri).1, (hcatalog uri).2]
  cases op with
  | update uri document => exact happly uri _
  | apply uri c => exact happly uri c
  | remove uri =>
    simp only [IndexOp.step, IndexOp.rebuildsCatalog, WorkspaceIndex.removeDocument]
    rw [hrebuild, catalog_noteChangedKeys]
    simp only [(hcatalog uri).1, (hcatalog uri).2]
  | beginBulk => rfl
  | endBulk =>
    simp only [IndexOp.step, IndexOp.rebuildsCatalog, WorkspaceIndex.endBulkCatalogUpdate,
      WorkspaceIndex.maybeRebuildCompletionCatalog]
    split_ifs <;> rfl

theorem catalog_runIndex (H : Hasher) (ops : List IndexOp) :
    (runIndex H ops).completionCatalog =
      (runIndex H (catalogSource H ops)).rebuildCompletionCatalog.completionCatalog := by
  induction ops using List.reverseRecOn with
  | nil => rfl
  | append_singleton pre op ih =>
    rw [catalogSource_concat, runIndex_concat, catalog_step]
    split_ifs
    · rw [runIndex_concat]
    · exact ih

/-! ### When no candidate is hidden -/

/-- The pick is unsuppressed, or no unsuppressed candidate that passes the guard stands behind
it. -/
def Spares (c : Choice Definition) (suppressed : Finset String) (guard : Definition → Bool)
    (candidates : List Definition) : Prop :=
  ∀ d ∈ c.pick candidates, unsuppressed suppressed d = true ∨
    ∀ d' ∈ c.pick (candidates.filter (unsuppressed suppressed)), guard d' = false

/-- With an unsuppressed class, the last base edge names the same base as the last unsuppressed
one; with a suppressed class, every base edge is suppressed. -/
def SparesSuperclass (suppressed : Finset String) (classes : List Definition)
    (edges : List (String × String)) : Prop :=
  if (preferNonState classes).any (unsuppressed suppressed) then
    edges.getLast?.map Prod.snd =
      (edges.filter (fun e => e.1 ∉ suppressed)).getLast?.map Prod.snd
  else ∀ e ∈ edges, e.1 ∈ suppressed

/-- Nothing is asked of an unguarded lookup. -/
def anyDefinition : Definition → Bool := fun _ => true

def BaseLookup.Unhidden (H : Hasher) (ops : List IndexOp) (suppressed : Finset String) :
    BaseLookup → Prop
  | findTopLevel name => Spares preferNonStateChoice suppressed anyDefinition
      ((runIndex H ops).topLevelByName.bucket name)
  | findTopLevelFiltered .. => True
  | findStateInOwner owner name => Spares .last suppressed anyDefinition
      ((runIndex H ops).statesByOwner.bucket owner name)
  | findEnumMember name => Spares .last suppressed anyDefinition
      ((runIndex H ops).enumMemberByName.bucket name)
  | superclassOf className => SparesSuperclass suppressed
      ((runIndex H ops).topLevelByName.bucket className)
      ((runIndex H ops).superclassByName.bucket className)
  | directMemberOf container name minAccess => Spares .last suppressed
      (fun d => minAccess ≤ d.symbol.access) ((runIndex H ops).memberCandidates container name)
  | classBodyMemberOf container name => Spares .last suppressed anyDefinition
      ((runIndex H ops).memberByType.bucket container name)
  | classBodyMembersOf container => ∀ name, Spares .last suppressed anyDefinition
      ((runIndex H ops).memberByType.bucket container name)
  | directMembersOf container minAccess => ∀ name, Spares .last suppressed
      (fun d => minAccess ≤ d.symbol.access) ((runIndex H ops).memberByType.bucket container name)
  | annotatedMembers .. => True
  | callablesCatalog => ∀ name,
      (((runIndex H (catalogSource H ops)).topLevelByName.bucket name).filter
        (fun d => isCatalogCallable d && unsuppressed suppressed d)).Perm
      (((runIndex H (catalogSource H (restrictOps suppressed ops))).topLevelByName.bucket
        name).filter isCatalogCallable)
  | typesCatalog => ∀ name,
      (((runIndex H (catalogSource H ops)).topLevelByName.bucket name).filter
        (fun d => d.symbol.kind.isType && unsuppressed suppressed d)).Perm
      (((runIndex H (catalogSource H (restrictOps suppressed ops))).topLevelByName.bucket
        name).filter (fun d => d.symbol.kind.isType))
  | enumMembersCatalog => ∀ name,
      ((runIndex H (catalogSource H ops)).enumMemberByName.bucket name).getLast?.filter
        (unsuppressed suppressed) =
      ((runIndex H (catalogSource H (restrictOps suppressed ops))).enumMemberByName.bucket
        name).getLast?
  | fullParametersOf .. => True

lemma spares_iff (c : Choice Definition) (suppressed : Finset String)
    (candidates : List Definition) :
    (c.pick candidates).filter (unsuppressed suppressed) =
        c.pick (candidates.filter (unsuppressed suppressed)) ↔
      Spares c suppressed anyDefinition candidates := by
  have htrue : ∀ o : Option Definition, o.filter anyDefinition = o := by
    rintro (_ | _) <;> rfl
  have h := c.filter_pick_eq_iff candidates (unsuppressed suppressed) anyDefinition
  rwa [htrue, htrue] at h

section Picks

variable {suppressed : Finset String} {ix rx : WorkspaceIndex}

lemma defVisible_eq (suppressed : Finset String) :
    (ShadowedBase.mk ix (some suppressed)).defVisible = unsuppressed suppressed := rfl

lemma findTopLevel_iff (h : Restricts suppressed ix rx) (name : String) :
    (ShadowedBase.mk ix (some suppressed)).findTopLevel name = rx.findTopLevel name ↔
      Spares preferNonStateChoice suppressed anyDefinition (ix.topLevelByName.bucket name) := by
  rw [← spares_iff, WorkspaceIndex.findTopLevel, h.topLevel]
  rfl

lemma findTopLevelFiltered_eq (h : Restricts suppressed ix rx) (name : String)
    (ctx : NameContext) : (ShadowedBase.mk ix (some suppressed)).findTopLevelFiltered name ctx =
      rx.findTopLevelFiltered name ctx := by
  rw [WorkspaceIndex.findTopLevelFiltered, h.topLevel, List.find?_filter]
  simp only [ShadowedBase.findTopLevelFiltered, WorkspaceIndex.allTopLevelWithName,
    defVisible_eq, Bool.and_comm, Bool.decide_and, Bool.decide_eq_true]

lemma findStateInOwner_iff (h : Restricts suppressed ix rx) (owner name : String) :
    (ShadowedBase.mk ix (some suppressed)).findStateInOwner owner name =
        rx.findStateInOwner owner name ↔
      Spares .last suppressed anyDefinition (ix.statesByOwner.bucket owner name) := by
  rw [← spares_iff, WorkspaceIndex.findStateInOwner, h.state]
  rfl

lemma findEnumMember_iff (h : Restricts suppressed ix rx) (name : String) :
    (ShadowedBase.mk ix (some suppressed)).findEnumMember name = rx.findEnumMember name ↔
      Spares .last suppressed anyDefinition (ix.enumMemberByName.bucket name) := by
  rw [← spares_iff, WorkspaceIndex.findEnumMember, h.enumMember]
  rfl

lemma classBodyMemberOf_iff (h : Restricts suppressed ix rx) (container name : String) :
    (ShadowedBase.mk ix (some suppressed)).classBodyMemberOf container name =
        rx.classBodyMemberOf container name ↔
      Spares .last suppressed anyDefinition (ix.memberByType.bucket container name) := by
  rw [← spares_iff, WorkspaceIndex.classBodyMemberOf, h.member]
  rfl

lemma directMemberOf_iff (h : Restricts suppressed ix rx) (container name : String)
    (minAccess : AccessLevel) :
    (ShadowedBase.mk ix (some suppressed)).directMemberOf container name minAccess =
        rx.directMemberOf container name minAccess ↔
      Spares .last suppressed (fun d => minAccess ≤ d.symbol.access)
        (ix.memberCandidates container name) := by
  have hcandidates : rx.memberCandidates container name =
      (ix.memberCandidates container name).filter (unsuppressed suppressed) := by
    simp only [WorkspaceIndex.memberCandidates, h.annotated, h.member, List.filter_append,
      List.filter_reverse]
  unfold Spares
  rw [← Choice.filter_pick_eq_iff, WorkspaceIndex.directMemberOf_eq, hcandidates,
    ShadowedBase.directMemberOf, WorkspaceIndex.directMemberOf_eq]
  rfl

lemma superclassOf_iff (h : Restricts suppressed ix rx) (className : String) :
    (ShadowedBase.mk ix (some suppressed)).superclassOf className = rx.superclassOf className ↔
      SparesSuperclass suppressed (ix.topLevelByName.bucket className)
        (ix.superclassByName.bucket className) := by
  have hright : rx.superclassOf className =
      ((ix.superclassByName.bucket className).filter (fun e => e.1 ∉ suppressed)).getLast?.map
        Prod.snd := by
    rw [WorkspaceIndex.superclassOf, h.superclass]
  have hleft : (ShadowedBase.mk ix (some suppressed)).superclassOf className =
      if (preferNonState (ix.topLevelByName.bucket className)).any (unsuppressed suppressed) then
        (ix.superclassByName.bucket className).getLast?.map Prod.snd
      else none := by
    simp only [ShadowedBase.superclassOf, ShadowedBase.findTopLevel, WorkspaceIndex.findTopLevel,
      defVisible_eq]
    cases preferNonState (ix.topLevelByName.bucket className) with
    | none => rfl
    | some d =>
      cases hd : unsuppressed suppressed d with
      | true => simp [Option.filter, hd, WorkspaceIndex.superclassOf]
      | false => simp [Option.filter, hd]
  rw [hleft, hright, SparesSuperclass]
  split_ifs with hvisible
  · exact Iff.rfl
  · rw [eq_comm, Option.map_eq_none_iff, List.getLast?_eq_none_iff, List.filter_eq_nil_iff]
    simp

lemma annotatedMembers_eq (h : Restricts suppressed ix rx) (container name : String) :
    (ShadowedBase.mk ix (some suppressed)).annotatedMembers container name =
      rx.annotatedMembers container name :=
  (h.annotated container name).symm

lemma fullParametersOf_eq (h : Restricts suppressed ix rx) (uri : String)
    (callableId : SymbolId) :
    (ShadowedBase.mk ix (some suppressed)).fullParametersOf uri callableId =
      rx.fullParametersOf uri callableId := by
  simp only [ShadowedBase.fullParametersOf, ShadowedBase.uriVisible,
    WorkspaceIndex.fullParametersOf, h.documents]
  by_cases hu : uri ∈ suppressed <;> simp [hu]

end Picks

section Listings

variable {suppressed : Finset String} {ix rx : WorkspaceIndex}

lemma toList_perm_iff (o o' : Option Definition) : o.toList.Perm o'.toList ↔ o = o' := by
  cases o <;> cases o' <;> simp

/-- The last entry of every bucket, filtered. -/
lemma filter_filterMap_getLast (m : BucketMap String Definition) (p : Definition → Bool) :
    (m.entries.filterMap (fun s => s.2.getLast?)).filter p =
      m.entries.flatMap (fun s => (s.2.getLast?.filter p).toList) := by
  rw [List.filterMap_eq_flatMap_toList, List.filter_flatMap]
  refine List.flatMap_congr fun s _ => ?_
  cases s.2.getLast? with
  | none => rfl
  | some d => cases hd : p d <;> simp [Option.filter, hd]

lemma mem_of_mem_getLast_filter {l : List Definition} {p : Definition → Bool} {d : Definition}
    (h : d ∈ (l.getLast?.filter p).toList) : d ∈ l := by
  exact List.mem_of_getLast? (Option.mem_filter_iff.mp (Option.mem_toList.mp h)).1

lemma name_of_mem_member (hkey : ∀ σ, ∀ e ∈ ix.bucket σ, σ.KeyedBy e) {container name : String}
    {d : Definition} (h : d ∈ ix.memberByType.bucket container name) : d.symbol.name = name :=
  hkey (.member container name) (.decl d) (List.mem_map_of_mem h)

lemma name_of_mem_annotated (hkey : ∀ σ, ∀ e ∈ ix.bucket σ, σ.KeyedBy e)
    {target name : String} {d : Definition}
    (h : d ∈ ix.annotatedMembersByType.bucket target name) : d.symbol.name = name :=
  hkey (.annotated target name) (.decl d) (List.mem_map_of_mem h)

lemma name_of_mem_enumMember (hkey : ∀ σ, ∀ e ∈ ix.bucket σ, σ.KeyedBy e) {name : String}
    {d : Definition} (h : d ∈ ix.enumMemberByName.bucket name) : d.symbol.name = name :=
  hkey (.enumMember name) (.decl d) (List.mem_map_of_mem h)

lemma typeName_of_mem_topLevel (hkey : ∀ σ, ∀ e ∈ ix.bucket σ, σ.KeyedBy e) {name : String}
    {d : Definition} (h : d ∈ ix.topLevelByName.bucket name) : d.symbol.typeName = name :=
  hkey (.topLevel name) (.decl d) (List.mem_map_of_mem h)

lemma classBodyMembersOf_iff (h : Restricts suppressed ix rx)
    (hix : ∀ σ, ∀ e ∈ ix.bucket σ, σ.KeyedBy e) (hrx : ∀ σ, ∀ e ∈ rx.bucket σ, σ.KeyedBy e)
    (container : String) :
    ((ShadowedBase.mk ix (some suppressed)).classBodyMembersOf container).Perm
        (rx.classBodyMembersOf container) ↔
      ∀ name, Spares .last suppressed anyDefinition (ix.memberByType.bucket container name) := by
  have hright : rx.classBodyMembersOf container =
      (rx.memberByType.inner container).entries.flatMap (fun s => s.2.getLast?.toList) := by
    rw [WorkspaceIndex.classBodyMembersOf, List.filterMap_eq_flatMap_toList]
  rw [ShadowedBase.classBodyMembersOf, WorkspaceIndex.classBodyMembersOf,
    filter_filterMap_getLast, hright,
    perm_flatMap_entries_iff _ _ (fun l => (l.getLast?.filter _).toList)
      (fun l => l.getLast?.toList) rfl rfl (fun d => d.symbol.name)
      (fun k d hd => name_of_mem_member hix (mem_of_mem_getLast_filter hd))
      (fun k d hd => name_of_mem_member hrx (List.mem_of_getLast? (Option.mem_toList.mp hd)))]
  refine forall_congr' fun name => ?_
  rw [toList_perm_iff, ← classBodyMemberOf_iff h]
  rfl

/-- Class-body members and injected ones, name by name. -/
lemma directMembersOf_iff (h : Restricts suppressed ix rx)
    (hix : ∀ σ, ∀ e ∈ ix.bucket σ, σ.KeyedBy e) (hrx : ∀ σ, ∀ e ∈ rx.bucket σ, σ.KeyedBy e)
    (container : String) (minAccess : AccessLevel) :
    ((ShadowedBase.mk ix (some suppressed)).directMembersOf container minAccess).Perm
        (rx.directMembersOf container minAccess) ↔
      ∀ name, Spares .last suppressed (fun d => minAccess ≤ d.symbol.access)
        (ix.memberByType.bucket container name) := by
  let accessible : Definition → Bool := fun d => minAccess ≤ d.symbol.access
  have hleft : (ShadowedBase.mk ix (some suppressed)).directMembersOf container minAccess =
      (ix.memberByType.inner container).entries.flatMap (fun s =>
        (s.2.getLast?.filter (fun d => accessible d && unsuppressed suppressed d)).toList) ++
      (ix.annotatedMembersByType.inner container).entries.flatMap (fun s =>
        s.2.filter (fun d => accessible d && unsuppressed suppressed d)) := by
    rw [ShadowedBase.directMembersOf, WorkspaceIndex.directMembersOf, List.filter_filter,
      List.filter_append, filter_filterMap_getLast, List.filter_flatMap]
    simp only [defVisible_eq, Bool.and_comm, accessible]
  have hright : rx.directMembersOf container minAccess =
      (rx.memberByType.inner container).entries.flatMap (fun s =>
        (s.2.getLast?.filter accessible).toList) ++
      (rx.annotatedMembersByType.inner container).entries.flatMap (fun s =>
        s.2.filter accessible) := by
    rw [WorkspaceIndex.directMembersOf, List.filter_append, filter_filterMap_getLast,
      List.filter_flatMap]
  rw [hleft, hright, perm_iff_filter_key (fun d => d.symbol.name)]
  refine forall_congr' fun name => ?_
  rw [List.filter_append, List.filter_append,
    filter_key_flatMap_entries _ (fun l => (l.getLast?.filter _).toList) rfl
      (fun d => d.symbol.name)
      (fun k d hd => name_of_mem_member hix (mem_of_mem_getLast_filter hd)),
    filter_key_flatMap_entries _ (fun l => l.filter _) rfl (fun d => d.symbol.name)
      (fun k d hd => name_of_mem_annotated hix (List.mem_of_mem_filter hd)),
    filter_key_flatMap_entries _ (fun l => (l.getLast?.filter _).toList) rfl
      (fun d => d.symbol.name)
      (fun k d hd => name_of_mem_member hrx (mem_of_mem_getLast_filter hd)),
    filter_key_flatMap_entries _ (fun l => l.filter _) rfl (fun d => d.symbol.name)
      (fun k d hd => name_of_mem_annotated hrx (List.mem_of_mem_filter hd))]
  -- The injected members of a name agree, so the class-body picks decide.
  have hannotated : ((rx.annotatedMembersByType.inner container).bucket name).filter accessible =
      ((ix.annotatedMembersByType.inner container).bucket name).filter
        (fun d => accessible d && unsuppressed suppressed d) := by
    rw [show (rx.annotatedMembersByType.inner container).bucket name = _ from
      h.annotated container name, List.filter_filter]
    rfl
  rw [hannotated, List.perm_append_right_iff, toList_perm_iff]
  unfold Spares
  rw [← Choice.filter_pick_eq_iff, Option.filter_filter]
  have hmember := h.member container name
  unfold NestedBucketMap.bucket at hmember ⊢
  rw [hmember]
  rfl

end Listings

section Catalogs

variable (H : Hasher) (ops : List IndexOp) (suppressed : Finset String)

lemma filterCatalog_some (catalog : List Definition) :
    ShadowedBase.filterCatalog catalog (some suppressed) =
      catalog.filter (unsuppressed suppressed) := by
  unfold ShadowedBase.filterCatalog
  dsimp only
  split_ifs with h
  · subst h
    exact (List.filter_eq_self.mpr fun d _ => by simp [unsuppressed]).symm
  · rfl

/-- Callables and types are a filter of all top-level declarations. -/
lemma topLevelCatalog_iff (ops' : List IndexOp) (wanted : Definition → Bool) :
    ((((runIndex H ops).topLevelByName.entries.flatMap (·.2)).filter wanted).filter
        (unsuppressed suppressed)).Perm
      (((runIndex H ops').topLevelByName.entries.flatMap (·.2)).filter wanted) ↔
      ∀ name, (((runIndex H ops).topLevelByName.bucket name).filter
          (fun d => wanted d && unsuppressed suppressed d)).Perm
        (((runIndex H ops').topLevelByName.bucket name).filter wanted) := by
  rw [List.filter_filter, List.filter_flatMap, List.filter_flatMap]
  simp only [Bool.and_comm (unsuppressed suppressed _)]
  exact perm_flatMap_entries_iff _ _ (fun l => l.filter _) (fun l => l.filter wanted) rfl rfl
    (fun d => d.symbol.typeName)
    (fun k d hd => typeName_of_mem_topLevel (keyedBy_runIndex H ops) (List.mem_of_mem_filter hd))
    (fun k d hd => typeName_of_mem_topLevel (keyedBy_runIndex H ops') (List.mem_of_mem_filter hd))

lemma enumMembersCatalog_iff (ops' : List IndexOp) :
    ((buildEnumMembers (runIndex H ops).enumMemberByName).filter (unsuppressed suppressed)).Perm
        (buildEnumMembers (runIndex H ops').enumMemberByName) ↔
      ∀ name, ((runIndex H ops).enumMemberByName.bucket name).getLast?.filter
          (unsuppressed suppressed) =
        ((runIndex H ops').enumMemberByName.bucket name).getLast? := by
  rw [buildEnumMembers, filter_filterMap_getLast, buildEnumMembers,
    List.filterMap_eq_flatMap_toList,
    perm_flatMap_entries_iff _ _ (fun l => (l.getLast?.filter _).toList)
      (fun l => l.getLast?.toList) rfl rfl (fun d => d.symbol.name)
      (fun k d hd => name_of_mem_enumMember (keyedBy_runIndex H ops)
        (mem_of_mem_getLast_filter hd))
      (fun k d hd => name_of_mem_enumMember (keyedBy_runIndex H ops')
        (List.mem_of_getLast? (Option.mem_toList.mp hd)))]
  exact forall_congr' fun name => toList_perm_iff _ _

end Catalogs

/-- A lookup behind the suppression answers as on the index built without the suppressed
documents exactly when no suppressed pick hides an unsuppressed candidate and, for catalogs, the
last rebuild of each run saw the same unsuppressed candidates. -/
theorem shadowedBase_agrees_iff_unhidden (H : Hasher) (ops : List IndexOp)
    (suppressed : Finset String) (q : BaseLookup) :
    q.onShadowed ⟨runIndex H ops, some suppressed⟩ =
        q.onIndex (runIndex H (restrictOps suppressed ops)) ↔
      q.Unhidden H ops suppressed := by
  have h := restricts_runIndex H suppressed ops
  have hix := keyedBy_runIndex H ops
  have hrx := keyedBy_runIndex H (restrictOps suppressed ops)
  cases q with
  | findTopLevel name =>
    simp only [BaseLookup.onShadowed, BaseLookup.onIndex, BaseAnswer.definition.injEq]
    exact findTopLevel_iff h name
  | findTopLevelFiltered name ctx =>
    simp only [BaseLookup.onShadowed, BaseLookup.onIndex, BaseLookup.Unhidden,
      findTopLevelFiltered_eq h]
  | findStateInOwner owner name =>
    simp only [BaseLookup.onShadowed, BaseLookup.onIndex, BaseAnswer.definition.injEq]
    exact findStateInOwner_iff h owner name
  | findEnumMember name =>
    simp only [BaseLookup.onShadowed, BaseLookup.onIndex, BaseAnswer.definition.injEq]
    exact findEnumMember_iff h name
  | superclassOf className =>
    simp only [BaseLookup.onShadowed, BaseLookup.onIndex, BaseAnswer.name.injEq]
    exact superclassOf_iff h className
  | directMemberOf container name minAccess =>
    simp only [BaseLookup.onShadowed, BaseLookup.onIndex, BaseAnswer.definition.injEq]
    exact directMemberOf_iff h container name minAccess
  | classBodyMemberOf container name =>
    simp only [BaseLookup.onShadowed, BaseLookup.onIndex, BaseAnswer.definition.injEq]
    exact classBodyMemberOf_iff h container name
  | classBodyMembersOf container =>
    simp only [BaseLookup.onShadowed, BaseLookup.onIndex, BaseAnswer.anyOrder.injEq,
      Multiset.coe_eq_coe]
    exact classBodyMembersOf_iff h hix hrx container
  | directMembersOf container minAccess =>
    simp only [BaseLookup.onShadowed, BaseLookup.onIndex, BaseAnswer.anyOrder.injEq,
      Multiset.coe_eq_coe]
    exact directMembersOf_iff h hix hrx container minAccess
  | annotatedMembers container name =>
    simp only [BaseLookup.onShadowed, BaseLookup.onIndex, BaseLookup.Unhidden,
      annotatedMembers_eq h]
  | callablesCatalog =>
    simp only [BaseLookup.onShadowed, BaseLookup.onIndex, BaseAnswer.anyOrder.injEq,
      Multiset.coe_eq_coe, ShadowedBase.callablesCatalog, filterCatalog_some, catalog_runIndex]
    exact topLevelCatalog_iff H _ suppressed _ isCatalogCallable
  | typesCatalog =>
    simp only [BaseLookup.onShadowed, BaseLookup.onIndex, BaseAnswer.anyOrder.injEq,
      Multiset.coe_eq_coe, ShadowedBase.typesCatalog, filterCatalog_some, catalog_runIndex]
    exact topLevelCatalog_iff H _ suppressed _ (fun d => d.symbol.kind.isType)
  | enumMembersCatalog =>
    simp only [BaseLookup.onShadowed, BaseLookup.onIndex, BaseAnswer.anyOrder.injEq,
      Multiset.coe_eq_coe, ShadowedBase.enumMembersCatalog, filterCatalog_some, catalog_runIndex]
    exact enumMembersCatalog_iff H _ suppressed _
  | fullParametersOf uri callableId =>
    simp only [BaseLookup.onShadowed, BaseLookup.onIndex, BaseLookup.Unhidden,
      fullParametersOf_eq h]

/-- The symbol table of `class C {}`. -/
def classCDocument : ParsedDocument where
  source := "class C {}"
  symbols := [
    { id := ⟨0⟩, name := "C", kind := .class, byteRange := ⟨0, 10⟩, selectionByteRange := ⟨6, 7⟩ }]
  identLeaves := [("C", ⟨6, 7⟩)]

/-- Two documents declare `C`; suppressing the first hides the second. -/
theorem suppressed_first_candidate_hides_second :
    ¬∀ (H : Hasher) (ops : List IndexOp) (suppressed : Finset String) (q : BaseLookup),
      q.onShadowed ⟨runIndex H ops, some suppressed⟩ =
        q.onIndex (runIndex H (restrictOps suppressed ops)) := by
  intro h
  let H : Hasher := ⟨fun _ => 0, fun _ _ => 0, fun _ _ => 0⟩
  have hanswer := h H [.update "file:///a.ws" classCDocument, .update "file:///b.ws" classCDocument]
    {"file:///a.ws"} (.findTopLevel "C")
  simp only [BaseLookup.onShadowed, BaseLookup.onIndex, BaseAnswer.definition.injEq] at hanswer
  revert hanswer
  decide

end WitcherScriptLanguage
