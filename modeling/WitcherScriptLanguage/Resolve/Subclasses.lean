import WitcherScriptLanguage.Library.Worklists
import WitcherScriptLanguage.Resolve.MemberPurity

/-!
# Subclasses

The descendants of a class, for a call that the runtime type of the owner decides
(`resolve/symbol_db/lookup.rs`). They are found over the edges of all indexes, whichever base the
database takes for a class.
-/

namespace WitcherScriptLanguage

open Library Relation

namespace SymbolDb

variable (db : SymbolDb)

/-- All classes with a base that an index has. -/
def derivedNames : List String :=
  db.layers.flatMap fun ix => ix.subclassesByName.entries.flatMap fun s => s.2.map Prod.snd

/-- The loop makes at most one step for each name, and one for the owner. -/
def transitiveSubclasses (owner : String) : Option (List String) :=
  searchFrom db.directSubclasses (db.derivedNames.length + 1) owner

def virtualParentMemberOverrides (owner name : String) : Option (List Definition) :=
  (db.transitiveSubclasses owner).map fun subclasses =>
    subclasses.filterMap fun subclass => db.directMember subclass name

/-- An index has the class with the base. -/
def IndexedBase (className base : String) : Prop := className ∈ db.directSubclasses base

/-- The database takes the base for the one that the class declares. -/
def DeclaredBase (className base : String) : Prop := db.declaredSuperclass className = some base

/-- The name's declaration spells a base out, and a state's one is found. -/
def SpellsBase (callDepth : Nat) (name : String) : Prop :=
  (db.declaredSuperclass name).isSome ∨ ∃ d owner base found, db.topLevel name = some d ∧
    d.symbol.kind = .state ∧ d.symbol.ownerClass = some owner ∧ d.symbol.baseClass = some base ∧
      (db.findStateInOwnerChain callDepth owner base).value = some (some found)

/-- A step of the superclass chain to a base that is spelled out, by a class or by a state. -/
def ExplicitBase (name base : String) : Prop :=
  ∃ callDepth, (db.superclassOf (callDepth + 1) name).value = some (some base) ∧
    db.SpellsBase callDepth name

variable {db}

lemma mem_directSubclasses {base className : String} : className ∈ db.directSubclasses base ↔
    ∃ ix ∈ db.layers, className ∈ ix.directSubclassesOf base := by
  rw [directSubclasses, layers]
  cases db.builtins with
  | none => simp
  | some b => simp

lemma mem_derivedNames {base className : String} (h : className ∈ db.directSubclasses base) :
    className ∈ db.derivedNames := by
  obtain ⟨ix, hix, hmem⟩ := mem_directSubclasses.mp h
  refine List.mem_flatMap.mpr ⟨ix, hix, List.mem_flatMap.mpr ?_⟩
  rw [WorkspaceIndex.directSubclassesOf, BucketMap.bucket] at hmem
  cases hlookup : ix.subclassesByName.lookup base with
  | none =>
    rw [hlookup] at hmem
    cases hmem
  | some entries =>
    rw [hlookup] at hmem
    exact ⟨⟨base, entries⟩, AList.mem_lookup_iff.mp hlookup, hmem⟩

/-- The enumeration ends with everything that the indexes lead to the owner, each name once. -/
theorem exists_transitiveSubclasses (db : SymbolDb) (owner : String) :
    ∃ subclasses, db.transitiveSubclasses owner = some subclasses ∧ subclasses.Nodup ∧
      ∀ n, n ∈ subclasses ↔ TransGen db.IndexedBase n owner := by
  obtain ⟨subclasses, hsearch, hnodup, hmem⟩ := exists_searchFrom
    (fun _ _ h => mem_derivedNames h : ∀ a, ∀ b ∈ db.directSubclasses a, b ∈ db.derivedNames) owner
    (Nat.lt_succ_self _)
  refine ⟨subclasses, hsearch, hnodup, fun n => ?_⟩
  rw [hmem, ← transGen_swap]
  rfl

end SymbolDb

/-- A class that is filed under the base it declares. -/
structure Symbol.Derives (sym : Symbol) (base : String) : Prop where
  script : sym.requiresImport = false
  global : sym.container.isNone
  plain : sym.annotationTargetClassSafe = none
  byName : sym.kind.extendsByTypeName
  base : sym.baseClass = some base

lemma Indices.superclass_mem_insertedAt {uri n : String} {sym : Symbol} {e : IndexEntry} :
    (Slot.superclass n, e) ∈ insertedAt uri sym ↔
      ∃ base, sym.Derives base ∧ sym.name = n ∧ e = .edge uri base := by
  constructor
  · intro h
    unfold insertedAt at h
    grind [Symbol.Derives]
  · rintro ⟨base, ⟨himport, hglobal, hplain, hkind, hbase⟩, rfl, rfl⟩
    simp [insertedAt, himport, hplain, hglobal, hkind, hbase]

lemma Indices.subclass_mem_insertedAt {uri base : String} {sym : Symbol} {e : IndexEntry} :
    (Slot.subclass base, e) ∈ insertedAt uri sym ↔
      sym.Derives base ∧ e = .edge uri sym.name := by
  constructor
  · intro h
    unfold insertedAt at h
    grind [Symbol.Derives]
  · rintro ⟨⟨himport, hglobal, hplain, hkind, hbase⟩, rfl⟩
    simp [insertedAt, himport, hplain, hglobal, hkind, hbase]

lemma Symbol.Derives.superclass_mem_visitedByRemoval {sym : Symbol} {base : String}
    (h : sym.Derives base) : Slot.superclass sym.name ∈ Indices.visitedByRemoval sym := by
  simp [Indices.visitedByRemoval, h.script, h.global, h.byName]

/-- The edges to a base come from the symbols of their documents, and the symbols of every document
have edges back. -/
structure EdgesFiled (ix : WorkspaceIndex) : Prop where
  superclass : ∀ n uri base, IndexEntry.edge uri base ∈ ix.bucket (.superclass n) →
    ∃ symbols sym, ix.documents.lookup uri = some symbols ∧ sym ∈ symbols ∧ sym.Derives base ∧
      sym.name = n
  subclass : ∀ uri symbols sym base, ix.documents.lookup uri = some symbols → sym ∈ symbols →
    sym.Derives base → IndexEntry.edge uri sym.name ∈ ix.bucket (.subclass base)

namespace EdgesFiled

variable {ix ix' : WorkspaceIndex}

lemma of_forgetCatalog (h : EdgesFiled ix) (heq : ix'.forgetCatalog = ix.forgetCatalog) :
    EdgesFiled ix' := by
  have hforget : EdgesFiled ix'.forgetCatalog := by
    rw [heq]
    exact ⟨h.superclass, h.subclass⟩
  exact ⟨hforget.superclass, hforget.subclass⟩

lemma superclass_removeFromIndices (h : EdgesFiled ix) (uri : String) {n u base : String}
    (he : IndexEntry.edge u base ∈ (ix.removeFromIndices uri).bucket (.superclass n)) :
    u ≠ uri ∧ IndexEntry.edge u base ∈ ix.bucket (.superclass n) := by
  have hmem := WorkspaceIndex.mem_of_mem_removeFromIndices he
  refine ⟨?_, hmem⟩
  rintro rfl
  obtain ⟨symbols, sym, hlookup, hsym, hderives, rfl⟩ := h.superclass n u base hmem
  exact WorkspaceIndex.notMem_removeFromIndices hlookup hsym
    hderives.superclass_mem_visitedByRemoval (by simp [Indices.ownedBy, IndexEntry.uri]) he

lemma subclass_removeFromIndices (uri : String) {u n base : String} (hne : u ≠ uri)
    (he : IndexEntry.edge u n ∈ ix.bucket (.subclass base)) :
    IndexEntry.edge u n ∈ (ix.removeFromIndices uri).bucket (.subclass base) := by
  rw [WorkspaceIndex.bucket_removeFromIndices]
  refine List.mem_filter.mpr ⟨he, ?_⟩
  rw [Bool.not_eq_true', List.any_eq_false]
  intro sym _
  simp [Indices.ownedBy, IndexEntry.uri, hne]

lemma applyContribution (h : EdgesFiled ix) (uri : String) (c : DocContribution) :
    EdgesFiled (ix.applyContribution uri c).2 where
  superclass n u base he := by
    rw [WorkspaceIndex.documents_applyContribution]
    rw [bucket_applyContribution, List.mem_append] at he
    rcases he with hold | hnew
    · obtain ⟨hne, hmem⟩ := h.superclass_removeFromIndices uri hold
      obtain ⟨symbols, sym, hlookup, hrest⟩ := h.superclass n u base hmem
      exact ⟨symbols, sym, (AList.lookup_insert_ne hne).trans hlookup, hrest⟩
    · obtain ⟨sym, hsym, hinserted⟩ := List.mem_flatMap.mp (mem_contributed.mp hnew)
      obtain ⟨base', hderives, hname, heq⟩ := Indices.superclass_mem_insertedAt.mp hinserted
      cases heq
      exact ⟨c.symbols, sym, AList.lookup_insert _, hsym, hderives, hname⟩
  subclass u symbols sym base hlookup hsym hderives := by
    rw [WorkspaceIndex.documents_applyContribution] at hlookup
    rw [bucket_applyContribution, List.mem_append]
    by_cases hu : u = uri
    · subst hu
      rw [AList.lookup_insert] at hlookup
      cases hlookup
      exact .inr (mem_contributed.mpr (List.mem_flatMap.mpr
        ⟨sym, hsym, Indices.subclass_mem_insertedAt.mpr ⟨hderives, rfl⟩⟩))
    · rw [AList.lookup_insert_ne hu] at hlookup
      exact .inl (subclass_removeFromIndices uri hu
        (h.subclass u symbols sym base hlookup hsym hderives))

lemma removeDocument (h : EdgesFiled ix) (uri : String) :
    EdgesFiled (ix.removeDocument uri).2 where
  superclass n u base he := by
    rw [WorkspaceIndex.documents_removeDocument]
    rw [bucket_removeDocument] at he
    obtain ⟨hne, hmem⟩ := h.superclass_removeFromIndices uri he
    obtain ⟨symbols, sym, hlookup, hrest⟩ := h.superclass n u base hmem
    exact ⟨symbols, sym, (AList.lookup_erase_ne hne).trans hlookup, hrest⟩
  subclass u symbols sym base hlookup hsym hderives := by
    rw [WorkspaceIndex.documents_removeDocument] at hlookup
    rw [bucket_removeDocument]
    by_cases hu : u = uri
    · subst hu
      rw [AList.lookup_erase] at hlookup
      cases hlookup
    · rw [AList.lookup_erase_ne hu] at hlookup
      exact subclass_removeFromIndices uri hu
        (h.subclass u symbols sym base hlookup hsym hderives)

/-- A base that an index has for a class leads back to the class. -/
lemma mem_directSubclassesOf (h : EdgesFiled ix) {n base : String}
    (hbase : ix.superclassOf n = some base) : n ∈ ix.directSubclassesOf base := by
  obtain ⟨⟨uri, base'⟩, hlast, rfl⟩ := Option.map_eq_some_iff.mp hbase
  have hedge : IndexEntry.edge uri base' ∈ ix.bucket (.superclass n) :=
    List.mem_map_of_mem (List.mem_of_getLast? hlast)
  obtain ⟨symbols, sym, hlookup, hsym, hderives, rfl⟩ := h.superclass n uri base' hedge
  obtain ⟨⟨uri', name⟩, he, heq⟩ :=
    List.mem_map.mp (h.subclass uri symbols sym base' hlookup hsym hderives)
  obtain ⟨-, hname⟩ := IndexEntry.edge.inj heq
  exact List.mem_map.mpr ⟨(uri', name), he, hname⟩

end EdgesFiled

lemma edgesFiled_runIndex (H : Hasher) (ops : List IndexOp) : EdgesFiled (runIndex H ops) := by
  apply runIndex_invariant H
  · refine ⟨fun n uri base he => ?_, fun uri symbols sym base hlookup => ?_⟩
    · rw [bucket_runIndex_nil] at he
      cases he
    · cases hlookup
  · exact EdgesFiled.of_forgetCatalog
  · exact fun uri document h _ => h.applyContribution uri _
  · exact fun uri c h _ => h.applyContribution uri c
  · exact fun uri h => h.removeDocument uri

namespace SymbolDb

variable {db : SymbolDb} {n base : String}

/-- A class's own base is one that an index has. -/
lemma DeclaredBase.indexedBase {H : Hasher} (hlayers : ∀ ix ∈ db.layers, ∃ ops, ix = runIndex H ops)
    (h : db.DeclaredBase n base) : db.IndexedBase n base := by
  have hlayer : ∃ ix ∈ db.layers, ix.superclassOf n = some base := by
    rcases Option.or_eq_some_iff.mp h with hworkspace | ⟨-, h⟩
    · exact ⟨db.workspace, List.mem_cons_self, hworkspace⟩
    · rcases Option.or_eq_some_iff.mp h with hbase | ⟨-, hbuiltins⟩
      · have hindex : db.base.superclassOf n = some base := by
          dsimp only [ShadowedBase.superclassOf, shadowedBase] at hbase
          split at hbase
          · cases hbase
          · exact hbase
        exact ⟨db.base, List.mem_cons_of_mem _ List.mem_cons_self, hindex⟩
      · obtain ⟨b, hb, hindex⟩ := Option.bind_eq_some_iff.mp hbuiltins
        exact ⟨b, List.mem_cons_of_mem _ (List.mem_cons_of_mem _ (Option.mem_toList.mpr hb)),
          hindex⟩
  obtain ⟨ix, hix, hsuperclass⟩ := hlayer
  obtain ⟨ops, rfl⟩ := hlayers ix hix
  exact mem_directSubclasses.mpr
    ⟨_, hix, (edgesFiled_runIndex H ops).mem_directSubclassesOf hsuperclass⟩

lemma DeclaredBase.explicitBase (h : db.DeclaredBase n base) : db.ExplicitBase n base := by
  have hvalue : (db.superclassOf 1 n).value = some (some base) := by
    rw [superclassOf, Observed.value_bind, Observed.value_record, Option.bind_some, h]
    rfl
  exact ⟨0, hvalue, .inl (by rw [h]; rfl)⟩

/-- The enumeration is what the bases lead to the owner, as the database takes them, exactly when
every indexed edge to the owner, or to what these bases lead there, comes from a class that they
lead there as well. With the bases of states it must also have what these lead there. The overrides
are those of the enumerated names, each name once. -/
theorem transitiveSubclasses_iff {H : Hasher}
    (hlayers : ∀ ix ∈ db.layers, ∃ ops, ix = runIndex H ops) (owner : String) :
    ∃ subclasses, db.transitiveSubclasses owner = some subclasses ∧ subclasses.Nodup ∧
      ((∀ n, n ∈ subclasses ↔ TransGen db.DeclaredBase n owner) ↔
        PathCovers db.DeclaredBase db.IndexedBase owner) ∧
      ((∀ n, n ∈ subclasses ↔ TransGen db.ExplicitBase n owner) ↔
        PathCovers db.ExplicitBase db.IndexedBase owner ∧
          PathCovers db.IndexedBase db.ExplicitBase owner) ∧
      ∀ name, db.virtualParentMemberOverrides owner name =
        some (subclasses.filterMap fun subclass => db.directMember subclass name) := by
  obtain ⟨subclasses, hsearch, hnodup, hmem⟩ := exists_transitiveSubclasses db owner
  refine ⟨subclasses, hsearch, hnodup, ?_, ?_, fun name => ?_⟩
  · simp only [hmem]
    rw [transGen_iff_iff_covers]
    exact and_iff_left (covers_of_le fun _ _ h => h.indexedBase hlayers)
  · simp only [hmem]
    exact transGen_iff_iff_covers
  · rw [virtualParentMemberOverrides, hsearch]
    rfl

/-- A class with a method `f`. -/
def derivedClass (name base : String) : SyntaxNode :=
  let text := "class " ++ name ++ " extends " ++ base ++ " { function f() {} }"
  let baseStart := 6 + name.toList.length + 9
  let bodyStart := baseStart + base.toList.length + 3
  branch .other text 0
    [branch .classDecl text 0 [leaf .ident name 6, leaf .ident base baseStart,
      branch .funcDecl "function f() {}" bodyStart [leaf .ident "f" (bodyStart + 9)]]]

/-- The workspace gives the class `N` of the base scripts another base. -/
def rebasedN : SymbolDb where
  workspace := runIndex zeroHasher
    [.update "file:///workspace.ws" (extractedDocument (derivedClass "N" "P"))]
  base := runIndex zeroHasher [.update "file:///base.ws" (extractedDocument (derivedClass "N" "O"))]

lemma rebasedN_layers : ∀ ix ∈ rebasedN.layers, ∃ ops, ix = runIndex zeroHasher ops := by
  intro ix hix
  rcases List.mem_pair.mp hix with rfl | rfl
  · exact ⟨_, rfl⟩
  · exact ⟨_, rfl⟩

lemma declaredSuperclass_rebasedN : rebasedN.declaredSuperclass "N" = some "P" := by
  decide +kernel

theorem transitiveSubclasses_iff_rebasedN : ∃ subclasses,
    rebasedN.transitiveSubclasses "P" = some subclasses ∧
      ∀ n, n ∈ subclasses ↔ TransGen rebasedN.DeclaredBase n "P" := by
  obtain ⟨subclasses, hsearch, -, hiff, -⟩ := transitiveSubclasses_iff rebasedN_layers "P"
  refine ⟨subclasses, hsearch, hiff.mpr ?_⟩
  intro a b hedge _
  have hnames : rebasedN.derivedNames = ["N", "N"] := by decide +kernel
  have ha : a ∈ rebasedN.derivedNames := mem_derivedNames hedge
  have hN : a = "N" := by simpa [hnames] using ha
  exact hN ▸ .single declaredSuperclass_rebasedN

lemma explicitBase_rebasedN (h : rebasedN.ExplicitBase "N" base) : base = "P" := by
  obtain ⟨callDepth, hvalue, -⟩ := h
  rw [superclassOf, Observed.value_bind, Observed.value_record, Option.bind_some,
    declaredSuperclass_rebasedN] at hvalue
  exact (Option.some.inj (Option.some.inj hvalue)).symm

lemma not_explicitBase_rebasedN : ¬rebasedN.ExplicitBase "P" base := by
  rintro ⟨callDepth, hvalue, -⟩
  have hdeclared : rebasedN.declaredSuperclass "P" = none := by decide +kernel
  have htop : rebasedN.topLevel "P" = none := by decide +kernel
  rw [superclassOf, Observed.value_bind, Observed.value_record, Option.bind_some, hdeclared] at hvalue
  dsimp only [implicitSuperclassWith, findTopLevel] at hvalue
  rw [htop] at hvalue
  cases hvalue

/-- `N` is enumerated for its base in the scripts that the workspace shadows, with the method that
the workspace gives it. -/
theorem not_transitiveSubclasses_rebasedN :
    (∀ ix ∈ rebasedN.layers, ∃ ops, ix = runIndex zeroHasher ops) ∧
      rebasedN.transitiveSubclasses "O" = some ["N"] ∧
      ¬TransGen rebasedN.DeclaredBase "N" "O" ∧ ¬TransGen rebasedN.ExplicitBase "N" "O" ∧
      ((rebasedN.virtualParentMemberOverrides "O" "f").map fun overrides =>
        overrides.map fun d => (d.uri, d.symbol.containerName)) =
          some [("file:///workspace.ws", some "N")] := by
  have hexplicit : ¬TransGen rebasedN.ExplicitBase "N" "O" := by
    intro hpath
    obtain ⟨b, hedge, hrest⟩ := TransGen.head'_iff.mp hpath
    rw [explicitBase_rebasedN hedge] at hrest
    rcases ReflTransGen.cases_head hrest with heq | ⟨c, hedge', -⟩
    · exact absurd heq (by decide)
    · exact not_explicitBase_rebasedN hedge'
  refine ⟨rebasedN_layers, by decide +kernel, fun hpath => ?_, hexplicit, by decide +kernel⟩
  exact hexplicit (TransGen.mono (fun _ _ h => h.explicitBase) _ _ hpath)

end SymbolDb

end WitcherScriptLanguage
