import WitcherScriptLanguage.Resolve.References

/-!
# The declarations of one member

All declarations of a member should yield the same set of declarations, so that a search or a
rename does not depend on the one it starts from. The set is computed from the container of the
starting declaration: it contains what the lookup of the member finds there and the declarations
that are injected there. It is the same for all of them when the lookup finds a member of that
very container, and leaves no declaration of the member out.
-/

namespace WitcherScriptLanguage

open Library

/-- The definition is among the definitions; identity is the key. -/
def Lists (decls : List Definition) (d : Definition) : Prop :=
  definitionKey d ∈ decls.map definitionKey

instance (decls : List Definition) (d : Definition) : Decidable (Lists decls d) :=
  inferInstanceAs (Decidable (definitionKey d ∈ decls.map definitionKey))

namespace SymbolDb

/-- The symbols of all indexed documents, the suppressed base scripts included. -/
def definitions (db : SymbolDb) : List Definition :=
  db.layers.flatMap fun ix =>
    ix.documents.entries.flatMap fun s => s.2.map fun symbol => ⟨s.1, symbol⟩

lemma mem_definitions {db : SymbolDb} {d : Definition} :
    d ∈ db.definitions ↔
      ∃ ix ∈ db.layers, ∃ symbols, ix.documents.lookup d.uri = some symbols ∧
        d.symbol ∈ symbols := by
  simp only [definitions, List.mem_flatMap, List.mem_map]
  refine exists_congr fun ix => and_congr_right fun _ => ?_
  constructor
  · rintro ⟨s, hs, symbol, hsymbol, rfl⟩
    exact ⟨s.2, AList.mem_lookup_iff.mpr hs, hsymbol⟩
  · rintro ⟨symbols, hlookup, hsymbol⟩
    exact ⟨⟨d.uri, symbols⟩, AList.mem_lookup_iff.mp hlookup, d.symbol, hsymbol, rfl⟩

/-- The declarations of a member form an equivalence class. -/
structure DeclarationsAgree (db : SymbolDb) (callDepth : Nat) : Prop where
  total : ∀ d ∈ db.definitions, ∃ decls, (db.allDeclarationsOf callDepth d).value = some decls
  symm : ∀ d ∈ db.definitions, ∀ e ∈ db.definitions, ∀ decls decls',
    (db.allDeclarationsOf callDepth d).value = some decls →
    (db.allDeclarationsOf callDepth e).value = some decls' → (Lists decls e ↔ Lists decls' d)
  same : ∀ d ∈ db.definitions, ∀ e ∈ db.definitions, ∀ decls decls',
    (db.allDeclarationsOf callDepth d).value = some decls →
    (db.allDeclarationsOf callDepth e).value = some decls' → Lists decls e →
      ∀ x, Lists decls x ↔ Lists decls' x

/-- A search finds the same references whichever declaration of the member it starts from. -/
def ReferencesAgree (db : SymbolDb) (callDepth : Nat) : Prop :=
  ∀ d ∈ db.definitions, ∀ e ∈ db.definitions, ∀ decls,
    (db.allDeclarationsOf callDepth d).value = some decls → Lists decls e →
      ∀ (R : NameResolution) (documentOf : String → ParsedDocument)
        (searchDocuments : List (String × ParsedDocument)) (includeDeclaration : Bool),
        (db.findReferences callDepth R d (documentOf d.uri) searchDocuments
            includeDeclaration).value =
          (db.findReferences callDepth R e (documentOf e.uri) searchDocuments
            includeDeclaration).value

/-- A key stands for one declaration. -/
def KeysIdentify (db : SymbolDb) : Prop :=
  ∀ d ∈ db.definitions, ∀ e ∈ db.definitions, definitionKey d = definitionKey e → d = e

instance (db : SymbolDb) : Decidable db.KeysIdentify :=
  inferInstanceAs (Decidable (∀ d ∈ db.definitions, ∀ e ∈ db.definitions,
    definitionKey d = definitionKey e → d = e))

/-- What the lookup finds for a member and what is injected for it. -/
def memberGroup (db : SymbolDb) (classBody : Option Definition) (m : String × String) :
    List Definition :=
  classBody.toList ++ db.annotatedMembers m.1 m.2

/-- The lookup of every declared member ends; the member it finds in a class body, and all that is
injected there, belong to the very container of the declaration; and they leave the declaration
out only when there are none. -/
structure MembersFiledTogether (db : SymbolDb) (callDepth : Nat) : Prop where
  keysIdentify : db.KeysIdentify
  filed : ∀ d ∈ db.definitions, ∀ m ∈ logicalMember d.symbol,
    ∃ classBody ∈ (db.findClassBodyMember callDepth m.1 m.2).value,
      (Lists (db.memberGroup classBody m) d ∨ db.memberGroup classBody m = []) ∧
      ∀ e ∈ db.definitions, Lists (db.memberGroup classBody m) e →
        logicalMember e.symbol = some m

/-- The declarations of a member are searched for by the same names and in the same way: none of
them stands in the file whose top-level declaration of that name replaces a base script's. -/
def SearchedAlike (db : SymbolDb) : Prop :=
  ∀ d ∈ db.definitions, ∀ e ∈ db.definitions, ∀ m ∈ logicalMember d.symbol,
    logicalMember e.symbol = some m → d.symbol.typeName = e.symbol.typeName ∧
      db.pairedSuppressedBaseUri d = db.pairedSuppressedBaseUri e

instance (db : SymbolDb) : Decidable db.SearchedAlike :=
  inferInstanceAs (Decidable (∀ d ∈ db.definitions, ∀ e ∈ db.definitions,
    ∀ m ∈ logicalMember d.symbol, logicalMember e.symbol = some m →
      d.symbol.typeName = e.symbol.typeName ∧
        db.pairedSuppressedBaseUri d = db.pairedSuppressedBaseUri e))

/-! ### Members filed together agree -/

variable {db : SymbolDb} {callDepth : Nat} {d e : Definition} {container name : String}

@[simp] lemma lists_dedupDefinitions {decls : List Definition} :
    Lists (dedupDefinitions decls) d ↔ Lists decls d :=
  mem_keys_dedupOn

lemma value_allDeclarationsOf_filed {m : String × String} {classBody : Option Definition}
    (hmember : logicalMember d.symbol = some m)
    (hbody : (db.findClassBodyMember callDepth m.1 m.2).value = some classBody) :
    (db.allDeclarationsOf callDepth d).value =
      some (if Lists (db.memberGroup classBody m) d then
        dedupDefinitions (db.memberGroup classBody m)
      else dedupDefinitions (db.memberGroup classBody m) ++ [d]) := by
  rw [value_allDeclarationsOf_some hmember, value_allMemberDeclarations, hbody]
  simp only [Option.map_some]
  rw [← memberGroup]
  exact congrArg some (if_congr lists_dedupDefinitions rfl rfl)

/-- The declarations of two members of one set are the same list. -/
theorem MembersFiledTogether.value_eq (h : db.MembersFiledTogether callDepth)
    (hd : d ∈ db.definitions) (he : e ∈ db.definitions) {decls : List Definition}
    (hdecls : (db.allDeclarationsOf callDepth d).value = some decls) (hlists : Lists decls e) :
    (db.allDeclarationsOf callDepth e).value = some decls ∧ Lists decls d ∧
      (d = e ∨ ∃ m ∈ logicalMember d.symbol, logicalMember e.symbol = some m) := by
  cases hmember : logicalMember d.symbol with
  | none =>
    rw [value_allDeclarationsOf_none hmember] at hdecls
    cases hdecls
    have hkey : definitionKey e = definitionKey d := List.mem_singleton.mp hlists
    have heq := h.keysIdentify d hd e he hkey.symm
    subst heq
    exact ⟨value_allDeclarationsOf_none hmember, hlists, .inl rfl⟩
  | some m =>
    obtain ⟨classBody, hbody, hfiled, htogether⟩ := h.filed d hd m hmember
    have hvalue := hdecls
    rw [value_allDeclarationsOf_filed hmember hbody] at hvalue
    by_cases hlisted : Lists (db.memberGroup classBody m) d
    · rw [if_pos hlisted] at hvalue
      cases hvalue
      have hgroup : Lists (db.memberGroup classBody m) e := lists_dedupDefinitions.mp hlists
      have heMember := htogether e he hgroup
      refine ⟨?_, lists_dedupDefinitions.mpr hlisted, .inr ⟨m, rfl, heMember⟩⟩
      rw [value_allDeclarationsOf_filed heMember hbody, if_pos hgroup]
    · have hempty := hfiled.resolve_left hlisted
      rw [if_neg hlisted, hempty] at hvalue
      cases hvalue
      have hkey : definitionKey e = definitionKey d := List.mem_singleton.mp hlists
      have heq := h.keysIdentify d hd e he hkey.symm
      subst heq
      exact ⟨hdecls, hlists, .inl rfl⟩

theorem MembersFiledTogether.declarationsAgree (h : db.MembersFiledTogether callDepth) :
    db.DeclarationsAgree callDepth where
  total d hd := by
    cases hmember : logicalMember d.symbol with
    | none => exact ⟨_, value_allDeclarationsOf_none hmember⟩
    | some m =>
      obtain ⟨classBody, hbody, -⟩ := h.filed d hd m hmember
      exact ⟨_, value_allDeclarationsOf_filed hmember hbody⟩
  symm d hd e he decls decls' hdecls hdecls' := by
    constructor
    · intro hlists
      obtain ⟨hsame, hself, -⟩ := h.value_eq hd he hdecls hlists
      cases hsame.symm.trans hdecls'
      exact hself
    · intro hlists
      obtain ⟨hsame, hself, -⟩ := h.value_eq he hd hdecls' hlists
      cases hsame.symm.trans hdecls
      exact hself
  same d hd e he decls decls' hdecls hdecls' hlists x := by
    obtain ⟨hsame, -⟩ := h.value_eq hd he hdecls hlists
    cases hsame.symm.trans hdecls'
    rfl

lemma one_lt_length_of_lists {decls : List Definition} (hd : Lists decls d) (he : Lists decls e)
    (hne : definitionKey d ≠ definitionKey e) : 1 < decls.length := by
  rw [← List.length_map definitionKey]
  have hnodup : [definitionKey d, definitionKey e].Nodup := by simp [hne]
  have hsubset : [definitionKey d, definitionKey e] ⊆ decls.map definitionKey := by
    intro k hk
    rcases List.mem_cons.mp hk with rfl | hk
    · exact hd
    · exact List.mem_singleton.mp hk ▸ he
  exact (hnodup.subperm hsubset).length_le

lemma searchDocument_congr (R : NameResolution) (hname : d.symbol.name = e.symbol.name)
    (htypeName : d.symbol.typeName = e.symbol.typeName)
    (hpaired : db.pairedSuppressedBaseUri d = db.pairedSuppressedBaseUri e) (uri : String)
    (document : ParsedDocument) (filter : OccurrenceFilter) :
    db.searchDocument R d .allDocuments uri document filter =
      db.searchDocument R e .allDocuments uri document filter := by
  simp only [searchDocument, scanRangeOf, candidatesIn, searchNames, pairedBaseTopKey, hname,
    htypeName, hpaired]

theorem MembersFiledTogether.referencesAgree (h : db.MembersFiledTogether callDepth)
    (halike : db.SearchedAlike) : db.ReferencesAgree callDepth := by
  intro d hd e he decls hdecls hlists R documentOf searchDocuments includeDeclaration
  obtain ⟨hsame, hself, heq | ⟨m, hdMember, heMember⟩⟩ := h.value_eq hd he hdecls hlists
  · rw [heq]
  · by_cases heq : d = e
    · rw [heq]
    have hkeys : definitionKey d ≠ definitionKey e := fun hkey =>
      heq (h.keysIdentify d hd e he hkey)
    have hlength := one_lt_length_of_lists hself hlists hkeys
    obtain ⟨htypeName, hpaired⟩ := halike d hd e he m hdMember heMember
    have hname : d.symbol.name = e.symbol.name :=
      (logicalMember_name hdMember).trans (logicalMember_name heMember).symm
    have hsearch := funext fun uri => funext fun document => funext fun filter =>
      searchDocument_congr R hname htypeName hpaired uri document filter
    rw [findReferences, findReferences, Observed.value_bind, Observed.value_bind, hdecls, hsame]
    simp only [Option.bind_some, Observed.value_pure, findReferencesAmong, searchScope,
      if_pos hlength, hsearch]

/-- The layer holds what its documents contribute, no class body injects a member into a class,
and containers are named by identifiers, not by instances of a generic class. -/
structure BuiltFromDocuments (H : Hasher) (ix : WorkspaceIndex) : Prop where
  built : ∃ ops, ix = runIndex H ops ∧ CleanRun H ops
  notInjected : ∀ uri symbols, ix.documents.lookup uri = some symbols →
    ∀ s ∈ symbols, s.injectedInBody = false
  plainContainers : ∀ uri symbols, ix.documents.lookup uri = some symbols →
    ∀ s ∈ symbols, ∀ cn ∈ s.containerName, lookupCtor cn = cn

end SymbolDb

/-- Every entry of a settled index comes from a symbol of an indexed document. -/
lemma Settled.exists_insertedAt {ix : WorkspaceIndex} {docs : CurrentDocuments}
    (h : Settled ix docs) {σ : Slot} {entry : IndexEntry} (hentry : entry ∈ ix.bucket σ) :
    ∃ symbols, ix.documents.lookup entry.uri = some symbols ∧
      ∃ s ∈ symbols, (σ, entry) ∈ Indices.insertedAt entry.uri s := by
  have hown : entry ∈ (ix.bucket σ).filter fun e => e.uri = entry.uri :=
    List.mem_filter.mpr ⟨hentry, by simp⟩
  rw [h.buckets] at hown
  cases hdoc : docs.lookup entry.uri with
  | none =>
    rw [hdoc] at hown
    cases hown
  | some c =>
    rw [hdoc] at hown
    obtain ⟨s, hs, hinserted⟩ := List.mem_flatMap.mp (mem_contributed.mp hown)
    exact ⟨c.symbols, by rw [h.documents, hdoc]; rfl, s, hs, hinserted⟩

lemma Indices.named_of_insertedAt {uri t k : String} {sym : Symbol} {entry : IndexEntry}
    (h : (Slot.annotated t k, entry) ∈ insertedAt uri sym) :
    sym.requiresImport = false ∧ sym.name = k := by
  grind [insertedAt]

/-- An injected top-level declaration belongs to the member of its target. -/
lemma logicalMember_of_injected {s : Symbol} {target : String}
    (htarget : s.annotationTargetClassSafe = some target) (htop : s.container.isNone) :
    logicalMember s = some (target, s.name) := by
  unfold Symbol.annotationTargetClassSafe at htarget
  unfold logicalMember
  cases hkind : s.kind <;> rw [hkind] at htarget <;> simp_all

/-- A field or method of a container belongs to the member of that container. -/
lemma logicalMember_of_contained {s : Symbol} {cn : String} {m : String × String}
    (hcontainer : s.container.isNone = false) (hname : s.containerName = some cn)
    (h : logicalMember s = some m) : m = (cn, s.name) := by
  have hnot : ¬s.container.isNone := by simp [hcontainer]
  unfold logicalMember at h
  cases hkind : s.kind <;>
    simp only [hkind, hname, if_neg hnot, Option.map_some, Option.some.injEq, reduceCtorEq] at h <;>
    exact h.symm

namespace SymbolDb.BuiltFromDocuments

variable {H : Hasher} {ix : WorkspaceIndex} {container name : String} {d : Definition}

lemma exists_insertedAt (h : BuiltFromDocuments H ix) {σ : Slot}
    (hentry : IndexEntry.decl d ∈ ix.bucket σ) :
    ∃ symbols, ix.documents.lookup d.uri = some symbols ∧
      ∃ s ∈ symbols, (σ, IndexEntry.decl d) ∈ Indices.insertedAt d.uri s := by
  obtain ⟨ops, rfl, hclean⟩ := h.built
  exact (settled_of_cleanRun H hclean).exists_insertedAt hentry

/-- An injected declaration is a declaration of the member it is injected as. -/
lemma annotated (h : BuiltFromDocuments H ix) (hd : d ∈ ix.annotatedMembers container name) :
    (∃ symbols, ix.documents.lookup d.uri = some symbols ∧ d.symbol ∈ symbols) ∧
      logicalMember d.symbol = some (container, name) := by
  have hentry : IndexEntry.decl d ∈ ix.bucket (.annotated container name) :=
    List.mem_map_of_mem hd
  obtain ⟨symbols, hlookup, s, hs, hinserted⟩ := h.exists_insertedAt hentry
  obtain ⟨heq, htarget⟩ := Indices.annotated_of_insertedAt hinserted
  obtain ⟨himport, hname⟩ := Indices.named_of_insertedAt hinserted
  have hsymbol : d.symbol = s := congrArg Definition.symbol (IndexEntry.decl.inj heq)
  have hnot := h.notInjected _ symbols hlookup s hs
  have htop : s.container.isNone := by
    simpa [Symbol.injectedInBody, himport, htarget] using hnot
  rw [hsymbol, ← hname]
  exact ⟨⟨symbols, hlookup, hs⟩, logicalMember_of_injected htarget htop⟩

/-- What is found in a class body is declared in a container of that name. -/
lemma classBody (h : BuiltFromDocuments H ix) (hd : ix.classBodyMemberOf container name = some d) :
    (∃ symbols, ix.documents.lookup d.uri = some symbols ∧ d.symbol ∈ symbols) ∧
      d.symbol.container.isNone = false ∧ d.symbol.containerName = some container ∧
      d.symbol.name = name ∧ lookupCtor container = container := by
  have hentry : IndexEntry.decl d ∈ ix.bucket (.member container name) :=
    List.mem_map_of_mem (List.mem_of_getLast? hd)
  obtain ⟨symbols, hlookup, s, hs, hinserted⟩ := h.exists_insertedAt hentry
  obtain ⟨heq, -, -, hcontainer, hcontainerName, hname⟩ := Indices.member_of_insertedAt hinserted
  have hsymbol : d.symbol = s := congrArg Definition.symbol (IndexEntry.decl.inj heq)
  rw [hsymbol]
  exact ⟨⟨symbols, hlookup, hs⟩, hcontainer, hcontainerName, hname,
    h.plainContainers _ symbols hlookup s hs container hcontainerName⟩

end SymbolDb.BuiltFromDocuments

namespace SymbolDb

variable {db : SymbolDb} {callDepth : Nat} {d e : Definition} {container name : String}

/-- What the walk finds, some visit returned. -/
lemma tryInChain_found {T : Type} {superclass : String → Observed (Option String)}
    {visit : String → Nat → Observed (Option T)} {start : String} {t : T}
    (h : (tryInChain superclass visit start).value = some (some t)) :
    ∃ current depth, (visit current depth).value = some (some t) := by
  have hwalk : ∀ remaining depth current acc,
      (walkChain superclass (fun current depth (_ : Unit) => do
        return (← visit current depth, ())) remaining depth current acc).value =
          some (some t, acc) → ∃ current depth, (visit current depth).value = some (some t) := by
    intro remaining
    induction remaining with
    | zero =>
      intro depth current acc hvalue
      cases hvalue
    | succ remaining ih =>
      intro depth current acc hvalue
      rw [value_walkChain_succ] at hvalue
      obtain ⟨r, hr, hrest⟩ := Option.bind_eq_some_iff.mp hvalue
      rw [Observed.value_bind] at hr
      obtain ⟨found, hvisit, hfound⟩ := Option.bind_eq_some_iff.mp hr
      cases hfound
      cases found with
      | some t' =>
        cases hrest
        exact ⟨current, depth, hvisit⟩
      | none =>
        obtain ⟨parent, -, hrest⟩ := Option.bind_eq_some_iff.mp hrest
        cases parent with
        | none => cases hrest
        | some parent => exact ih (depth + 1) parent _ hrest
  rw [value_tryInChain] at h
  obtain ⟨⟨found, acc⟩, hvalue, rfl⟩ := Option.map_eq_some_iff.mp h
  exact hwalk _ _ _ _ hvalue

lemma exists_layer_of_classBodyMemberAt (h : db.classBodyMemberAt container name = some d) :
    ∃ ix ∈ db.layers, ix.classBodyMemberOf container name = some d :=
  exists_layer_of_some h

lemma exists_layer_of_annotatedMembers (h : d ∈ db.annotatedMembers container name) :
    ∃ ix ∈ db.layers, d ∈ ix.annotatedMembers container name :=
  exists_layer_of_mem h

/-- A class-body member is what some class of the chain declares. -/
lemma exists_of_findClassBodyMember
    (h : (db.findClassBodyMember callDepth container name).value = some (some d)) :
    ∃ current found, db.classBodyMemberAt current name = some found ∧
      definitionKey found = definitionKey d := by
  rw [findClassBodyMember, Observed.value_bind] at h
  obtain ⟨found, hchain, hfound⟩ := Option.bind_eq_some_iff.mp h
  obtain ⟨raw, rfl, hd⟩ := Option.map_eq_some_iff.mp (Option.some.inj hfound)
  obtain ⟨current, depth, hvisit⟩ := tryInChain_found hchain
  exact ⟨current, raw, Option.some.inj hvisit, by rw [← hd, definitionKey_instantiate]⟩

/-- A class finds its own member first. -/
lemma findClassBodyMember_of_classBodyMemberAt (hplain : lookupCtor container = container)
    (h : db.classBodyMemberAt container name = some d) :
    (db.findClassBodyMember callDepth container name).value =
      some (some (instantiate container d)) := by
  simp only [findClassBodyMember, tryInChain, walkChain, Observed.value_bind,
    Observed.value_record, Observed.value_pure, Option.bind_some, hplain, h, Option.map_some]

section Converse

variable {H : Hasher} (hbuilt : ∀ ix ∈ db.layers, BuiltFromDocuments H ix)
include hbuilt

lemma mem_definitions_of_annotated (h : d ∈ db.annotatedMembers container name) :
    d ∈ db.definitions ∧ logicalMember d.symbol = some (container, name) := by
  obtain ⟨ix, hix, hd⟩ := exists_layer_of_annotatedMembers h
  obtain ⟨⟨symbols, hlookup, hsymbol⟩, hmember⟩ := (hbuilt ix hix).annotated hd
  exact ⟨mem_definitions.mpr ⟨ix, hix, symbols, hlookup, hsymbol⟩, hmember⟩

lemma mem_definitions_of_classBody (h : db.classBodyMemberAt container name = some d) :
    d ∈ db.definitions ∧ lookupCtor container = container ∧
      ∀ m, logicalMember d.symbol = some m → m = (container, name) := by
  obtain ⟨ix, hix, hd⟩ := exists_layer_of_classBodyMemberAt h
  obtain ⟨⟨symbols, hlookup, hsymbol⟩, hcontainer, hcontainerName, hname, hplain⟩ :=
    (hbuilt ix hix).classBody hd
  refine ⟨mem_definitions.mpr ⟨ix, hix, symbols, hlookup, hsymbol⟩, hplain, fun m hm => ?_⟩
  rw [← hname]
  exact logicalMember_of_contained hcontainer hcontainerName hm

/-- Whatever a lookup lists is declared in an indexed document. -/
lemma exists_mem_definitions {m : String × String} {classBody : Option Definition}
    (hbody : (db.findClassBodyMember callDepth m.1 m.2).value = some classBody)
    (he : e ∈ db.memberGroup classBody m) :
    ∃ d ∈ db.definitions, definitionKey d = definitionKey e := by
  rcases List.mem_append.mp he with he | he
  · rw [Option.mem_toList] at he
    cases he
    obtain ⟨current, found, hfound, hkey⟩ := exists_of_findClassBodyMember hbody
    exact ⟨found, (mem_definitions_of_classBody hbuilt hfound).1, hkey⟩
  · exact ⟨e, (mem_definitions_of_annotated hbuilt he).1, rfl⟩

/-- A listed declaration belongs to the member, or some class of the chain declares it. -/
lemma of_lists_memberGroup (hkeys : db.KeysIdentify) {m : String × String}
    {classBody : Option Definition}
    (hbody : (db.findClassBodyMember callDepth m.1 m.2).value = some classBody)
    (he : e ∈ db.definitions) (hlists : Lists (db.memberGroup classBody m) e) :
    logicalMember e.symbol = some m ∨
      (classBody.map definitionKey = some (definitionKey e) ∧
        ∃ current, db.classBodyMemberAt current m.2 = some e) := by
  obtain ⟨x, hx, hkey⟩ := List.mem_map.mp hlists
  rcases List.mem_append.mp hx with hx | hx
  · rw [Option.mem_toList] at hx
    cases hx
    obtain ⟨current, found, hfound, hfoundKey⟩ := exists_of_findClassBodyMember hbody
    obtain ⟨hfoundDef, -⟩ := mem_definitions_of_classBody hbuilt hfound
    have heq := hkeys found hfoundDef e he (hfoundKey.trans hkey)
    subst heq
    exact .inr ⟨congrArg some hkey, current, hfound⟩
  · obtain ⟨hxDef, hxMember⟩ := mem_definitions_of_annotated hbuilt hx
    rw [← hkeys x hxDef e he hkey]
    exact .inl hxMember

end Converse

lemma lists_allDeclarationsOf {m : String × String} {classBody : Option Definition}
    {decls : List Definition} (hmember : logicalMember d.symbol = some m)
    (hbody : (db.findClassBodyMember callDepth m.1 m.2).value = some classBody)
    (hdecls : (db.allDeclarationsOf callDepth d).value = some decls) :
    Lists decls e ↔ Lists (db.memberGroup classBody m) e ∨ definitionKey e = definitionKey d := by
  rw [value_allDeclarationsOf_filed hmember hbody] at hdecls
  cases hdecls
  split_ifs with hlisted
  · rw [lists_dedupDefinitions]
    refine ⟨.inl, fun h => h.elim id fun hkey => ?_⟩
    rw [Lists, hkey]
    exact hlisted
  · rw [Lists, List.map_append, List.mem_append, List.map_singleton, List.mem_singleton]
    exact or_congr_left lists_dedupDefinitions

lemma exists_classBody_of_value {m : String × String} {decls : List Definition}
    (hmember : logicalMember d.symbol = some m)
    (hdecls : (db.allDeclarationsOf callDepth d).value = some decls) :
    ∃ classBody, (db.findClassBodyMember callDepth m.1 m.2).value = some classBody := by
  rw [value_allDeclarationsOf_some hmember, value_allMemberDeclarations, Option.map_map] at hdecls
  obtain ⟨classBody, hbody, -⟩ := Option.map_eq_some_iff.mp hdecls
  exact ⟨classBody, hbody⟩

section Converse

variable {H : Hasher} (hbuilt : ∀ ix ∈ db.layers, BuiltFromDocuments H ix)
include hbuilt

/-- Where all sets agree, whatever a lookup lists for a member belongs to that member. -/
lemma DeclarationsAgree.logicalMember_of_lists (h : db.DeclarationsAgree callDepth)
    (hkeys : db.KeysIdentify) (hd : d ∈ db.definitions) {m : String × String}
    (hmember : logicalMember d.symbol = some m) {classBody : Option Definition}
    (hbody : (db.findClassBodyMember callDepth m.1 m.2).value = some classBody)
    (he : e ∈ db.definitions) (hlists : Lists (db.memberGroup classBody m) e) :
    logicalMember e.symbol = some m := by
  rcases of_lists_memberGroup hbuilt hkeys hbody he hlists with hown | ⟨hkey, current, hfound⟩
  · exact hown
  by_contra hother
  have hne : d ≠ e := by
    rintro rfl
    exact hother hmember
  obtain ⟨decls, hdecls⟩ := h.total d hd
  obtain ⟨decls', hdecls'⟩ := h.total e he
  have hback : Lists decls' d := by
    refine (h.symm d hd e he decls decls' hdecls hdecls').mp ?_
    exact (lists_allDeclarationsOf hmember hbody hdecls).mpr (.inl hlists)
  cases heMember : logicalMember e.symbol with
  | none =>
    rw [value_allDeclarationsOf_none heMember] at hdecls'
    cases hdecls'
    exact hne (hkeys d hd e he (List.mem_singleton.mp hback))
  | some m' =>
    obtain ⟨-, -, hm'⟩ := mem_definitions_of_classBody hbuilt hfound
    obtain ⟨classBody', hbody'⟩ := exists_classBody_of_value heMember hdecls'
    have hlists' := ((lists_allDeclarationsOf heMember hbody' hdecls').mp hback).resolve_right
      fun hkey => hne (hkeys d hd e he hkey)
    rcases of_lists_memberGroup hbuilt hkeys hbody' hd hlists' with hown | ⟨-, current', hfound'⟩
    · exact hother (heMember.trans (hown.symm.trans hmember))
    -- the chain of the other container reaches the one of `d`, where the lookup finds `d` itself
    · obtain ⟨-, hplain, hm⟩ := mem_definitions_of_classBody hbuilt hfound'
      have hcurrent : m = (current', m'.2) := hm m hmember
      have hat : db.classBodyMemberAt m.1 m.2 = some d := by
        rw [hcurrent]
        exact hfound'
      have hplain' : lookupCtor m.1 = m.1 := by
        rw [hcurrent]
        exact hplain
      rw [findClassBodyMember_of_classBodyMemberAt hplain' hat] at hbody
      cases hbody
      rw [Option.map_some, definitionKey_instantiate, Option.some_inj] at hkey
      exact hne (hkeys d hd e he hkey)

theorem DeclarationsAgree.membersFiledTogether (h : db.DeclarationsAgree callDepth)
    (hkeys : db.KeysIdentify) : db.MembersFiledTogether callDepth where
  keysIdentify := hkeys
  filed d hd m hmember := by
    obtain ⟨decls, hdecls⟩ := h.total d hd
    obtain ⟨classBody, hbody⟩ := exists_classBody_of_value hmember hdecls
    refine ⟨classBody, hbody, ?_, fun e he hlists =>
      h.logicalMember_of_lists hbuilt hkeys hd hmember hbody he hlists⟩
    rcases (db.memberGroup classBody m).eq_nil_or_concat with hempty | ⟨_, x, hgroup⟩
    · exact .inr hempty
    left
    have hx : x ∈ db.memberGroup classBody m := by simp [hgroup]
    obtain ⟨e, he, hkey⟩ := exists_mem_definitions hbuilt hbody hx
    have hlists : Lists (db.memberGroup classBody m) e := by
      rw [Lists, hkey]
      exact List.mem_map_of_mem hx
    have heMember := h.logicalMember_of_lists hbuilt hkeys hd hmember hbody he hlists
    obtain ⟨decls', hdecls'⟩ := h.total e he
    have hback : Lists decls' d := by
      refine (h.symm d hd e he decls decls' hdecls hdecls').mp ?_
      exact (lists_allDeclarationsOf hmember hbody hdecls).mpr (.inl hlists)
    rcases (lists_allDeclarationsOf heMember hbody hdecls').mp hback with hlisted | hsame
    · exact hlisted
    · rw [Lists, hsame]
      exact hlists

end Converse

/-- The sets of declarations agree, and searches with them, when all members are filed together
and searched alike; where indexes hold what their documents declare, that is the only way for the
sets to agree. -/
theorem declarationsAgree_iff (db : SymbolDb) (callDepth : Nat) :
    (db.MembersFiledTogether callDepth → db.DeclarationsAgree callDepth ∧
      (db.SearchedAlike → db.ReferencesAgree callDepth)) ∧
    ∀ H, (∀ ix ∈ db.layers, BuiltFromDocuments H ix) → db.KeysIdentify →
      (db.DeclarationsAgree callDepth ↔ db.MembersFiledTogether callDepth) :=
  ⟨fun h => ⟨h.declarationsAgree, h.referencesAgree⟩,
    fun _ hbuilt hkeys => ⟨fun h => h.membersFiledTogether hbuilt hkeys,
      fun h => h.declarationsAgree⟩⟩

end SymbolDb

/-- `class C { function m() {} } class D extends C {}` -/
def inheritingDocument : ParsedDocument where
  source := "class C { function m() {} } class D extends C {}"
  symbols := [
    { id := ⟨0⟩, name := "C", kind := .class, byteRange := ⟨0, 27⟩, selectionByteRange := ⟨6, 7⟩ },
    { id := ⟨1⟩, name := "m", kind := .method, byteRange := ⟨10, 25⟩,
      selectionByteRange := ⟨19, 20⟩, container := some ⟨0⟩, containerName := some "C" },
    { id := ⟨2⟩, name := "D", kind := .class, byteRange := ⟨28, 48⟩,
      selectionByteRange := ⟨34, 35⟩, baseClass := some "C" }]
  identLeaves := [("C", ⟨6, 7⟩), ("m", ⟨19, 20⟩), ("D", ⟨34, 35⟩), ("C", ⟨44, 45⟩)]

/-- `@wrapMethod(D) function m() {}`, for a target of one letter. -/
def wrapDocument (target : String) : ParsedDocument where
  source := "@wrapMethod(" ++ target ++ ") function m() {}"
  symbols := [
    { id := ⟨0⟩, name := "m", kind := .function, byteRange := ⟨0, 30⟩,
      selectionByteRange := ⟨24, 25⟩, annotations := [⟨"wrapMethod", some target⟩] }]
  identLeaves := [(target, ⟨12, 13⟩), ("m", ⟨24, 25⟩)]

/-- The classes in one file and a wrapper of the method in another. -/
def wrappedMethodDb (target : String) : SymbolDb :=
  workspaceOf [.update "file:///a.ws" inheritingDocument,
    .update "file:///b.ws" (wrapDocument target)]

theorem declarationsAgree_wrapInDeclaringClass :
    (wrappedMethodDb "C").DeclarationsAgree 1 ∧ (wrappedMethodDb "C").ReferencesAgree 1 := by
  have hfiled : (wrappedMethodDb "C").MembersFiledTogether 1 := ⟨by decide, by decide⟩
  have halike : (wrappedMethodDb "C").SearchedAlike := by decide
  obtain ⟨hdeclarations, hreferences⟩ :=
    (SymbolDb.declarationsAgree_iff (wrappedMethodDb "C") 1).1 hfiled
  exact ⟨hdeclarations, hreferences halike⟩

/-- A wrapper in a class that inherits the method lists it, and is not listed by it. -/
theorem not_declarationsAgree_wrapInSubclass :
    ¬ ∀ (H : Hasher) (db : SymbolDb),
      (∀ ix ∈ db.layers, ∃ ops : List IndexOp, ix = runIndex H ops) →
        ∃ callDepth, db.DeclarationsAgree callDepth := by
  intro h
  obtain ⟨callDepth, hagree⟩ := h zeroHasher (wrappedMethodDb "D") fun ix hix => by
    rcases mem_layers_workspaceOf hix with rfl | rfl
    · exact ⟨_, rfl⟩
    · exact ⟨[], rfl⟩
  let method : Definition := ⟨"file:///a.ws", inheritingDocument.symbols[1]⟩
  let wrapper : Definition := ⟨"file:///b.ws", (wrapDocument "D").symbols[0]⟩
  have hmethod : method ∈ (wrappedMethodDb "D").definitions := by decide
  have hwrapper : wrapper ∈ (wrappedMethodDb "D").definitions := by decide
  cases callDepth with
  | zero =>
    obtain ⟨decls, hdecls⟩ := hagree.total wrapper hwrapper
    cases hdecls
  | succ n =>
    have hsymm := hagree.symm wrapper hwrapper method hmethod [method, wrapper] [method] rfl rfl
    revert hsymm
    decide

end WitcherScriptLanguage
