import WitcherScriptLanguage.Resolve.ShadowedBase
import WitcherScriptLanguage.Resolve.SymbolDb
import WitcherScriptLanguage.Symbols.Extraction

/-!
# Purity of the member index

The member map files a symbol under the name of whatever contains it, and callables take their
names from the same strings as types. What is filed under a name are the members of the types of
that name, as long as no indexed document has a callable of that name with anything in it.
-/

namespace WitcherScriptLanguage

open Library

namespace SymbolKind

def isMember : SymbolKind → Bool
  | .field | .method | .event | .enumMember => true
  | _ => false

end SymbolKind

/-- The symbol that contains another one of the same document. -/
def containerOf (symbols : List Symbol) (s : Symbol) : Option Symbol :=
  s.container.bind fun id => symbols[id.val]?

/-- A field, method, event or enum member of a type of the name, or an annotated function or field
that is injected into it. -/
def IsMemberOf (ix : WorkspaceIndex) (typeName : String) (d : Definition) : Prop :=
  (d.symbol.kind.isMember ∧ ∃ symbols t, ix.documents.lookup d.uri = some symbols ∧
      containerOf symbols d.symbol = some t ∧ t.kind.isType ∧ t.typeName = typeName) ∨
    ((d.symbol.kind = .function ∨ d.symbol.kind = .field) ∧
      d.symbol.annotationTargetClass = some typeName)

/-- A symbol in a container of the name that is no member of a type: a parameter or a local of a
callable, or what broken code nests there. -/
def misfiled (symbols : List Symbol) (name : String) (s : Symbol) : Bool :=
  s.annotationTargetClassSafe.isNone && (containerOf symbols s).any fun t =>
    t.typeName == name && !(s.kind.isMember && t.kind.isType)

namespace IndexOp

/-- The symbol table that the operation indexes. -/
def symbols : IndexOp → Option (List Symbol)
  | update _ document => some document.symbols
  | apply _ contribution => some contribution.symbols
  | _ => none

/-- The symbol table is extracted from a syntax tree. -/
def Extracted (op : IndexOp) : Prop := ∀ symbols ∈ op.symbols, ∃ root, extractSymbols root = symbols

/-- The document has nothing in a container of the name but the members of types. -/
def FilesMembers (name : String) (op : IndexOp) : Prop :=
  ∀ symbols ∈ op.symbols, ∀ s ∈ symbols, misfiled symbols name s = false

end IndexOp

/-- What is filed as a member is no native declaration and no injected one. -/
lemma Indices.member_of_insertedAt {uri c k : String} {sym : Symbol} {e : IndexEntry}
    (h : (Slot.member c k, e) ∈ insertedAt uri sym) :
    e = .decl ⟨uri, sym⟩ ∧ sym.requiresImport = false ∧ sym.annotationTargetClassSafe = none ∧
      sym.container.isNone = false ∧ sym.containerName = some c ∧ sym.name = k := by
  unfold insertedAt at h
  dsimp only at h
  cases himport : sym.requiresImport with
  | true => cases hname : sym.containerName <;> simp [himport, hname] at h
  | false =>
    cases htarget : sym.annotationTargetClassSafe with
    | some target => simp [himport, htarget] at h
    | none =>
      cases hcontainer : sym.container.isNone with
      | true =>
        simp only [himport, htarget, hcontainer, if_true, Bool.false_eq_true, if_false,
          List.mem_cons, List.mem_append] at h
        rcases h with htop | hbases | hstate
        · cases htop
        · split at hbases <;> simp at hbases
        · split at hstate <;> simp at hstate
      | false =>
        cases hname : sym.containerName with
        | none => simp [himport, htarget, hcontainer, hname] at h
        | some cn =>
          simp only [himport, htarget, hcontainer, hname, Bool.false_eq_true, if_false,
            List.mem_cons] at h
          rcases h with hmember | henum
          · cases hmember
            exact ⟨rfl, rfl, rfl, rfl, rfl, rfl⟩
          · split_ifs at henum <;> simp at henum

lemma Indices.member_visitedByRemoval {uri c k : String} {sym : Symbol} {e : IndexEntry}
    (h : (Slot.member c k, e) ∈ insertedAt uri sym) : Slot.member c k ∈ visitedByRemoval sym := by
  obtain ⟨-, himport, -, hcontainer, hname, hk⟩ := member_of_insertedAt h
  simp [visitedByRemoval, himport, hcontainer, hname, hk]

lemma Indices.annotated_of_insertedAt {uri t k : String} {sym : Symbol} {e : IndexEntry}
    (h : (Slot.annotated t k, e) ∈ insertedAt uri sym) :
    e = .decl ⟨uri, sym⟩ ∧ sym.annotationTargetClassSafe = some t := by
  grind [insertedAt]

/-- Every entry of the member map comes from the current symbols of its document, which satisfy
`P`, and every annotated entry is injected into the class it is filed under. -/
structure Filed (P : List Symbol → Prop) (ix : WorkspaceIndex) : Prop where
  documents : ∀ uri symbols, ix.documents.lookup uri = some symbols → P symbols
  member : ∀ c k, ∀ e ∈ ix.bucket (.member c k), ∃ d symbols, e = .decl d ∧
    ix.documents.lookup d.uri = some symbols ∧ d.symbol ∈ symbols ∧
    (Slot.member c k, IndexEntry.decl d) ∈ Indices.insertedAt d.uri d.symbol
  annotated : ∀ t k, ∀ e ∈ ix.bucket (.annotated t k), ∃ d, e = .decl d ∧
    d.symbol.annotationTargetClassSafe = some t

namespace Filed

variable {P : List Symbol → Prop} {ix ix' : WorkspaceIndex}

lemma of_forgetCatalog (h : Filed P ix) (heq : ix'.forgetCatalog = ix.forgetCatalog) :
    Filed P ix' := by
  have hforget : Filed P ix'.forgetCatalog := by
    rw [heq]
    exact ⟨h.documents, h.member, h.annotated⟩
  exact ⟨hforget.documents, hforget.member, hforget.annotated⟩

/-- Removal leaves no member of the document behind. -/
lemma member_removeFromIndices (h : Filed P ix) (uri c k : String) :
    ∀ e ∈ (ix.removeFromIndices uri).bucket (.member c k), e.uri ≠ uri ∧
      e ∈ ix.bucket (.member c k) := by
  intro e he
  have hmem := WorkspaceIndex.mem_of_mem_removeFromIndices he
  refine ⟨fun huri => ?_, hmem⟩
  obtain ⟨d, symbols, rfl, hlookup, hsymbol, hinserted⟩ := h.member c k e hmem
  have huri : d.uri = uri := huri
  subst huri
  exact WorkspaceIndex.notMem_removeFromIndices hlookup hsymbol
    (Indices.member_visitedByRemoval hinserted) (by simp [Indices.ownedBy, IndexEntry.uri]) he

lemma annotated_removeFromIndices (h : Filed P ix) (uri t k : String) :
    ∀ e ∈ (ix.removeFromIndices uri).bucket (.annotated t k), ∃ d, e = .decl d ∧
      d.symbol.annotationTargetClassSafe = some t := by
  intro e he
  exact h.annotated t k e (WorkspaceIndex.mem_of_mem_removeFromIndices he)

lemma applyContribution (h : Filed P ix) (uri : String) (c : DocContribution)
    (hsymbols : P c.symbols) : Filed P (ix.applyContribution uri c).2 where
  documents u symbols hlookup := by
    rw [WorkspaceIndex.documents_applyContribution] at hlookup
    by_cases hu : u = uri
    · subst hu
      rw [AList.lookup_insert] at hlookup
      cases hlookup
      exact hsymbols
    · rw [AList.lookup_insert_ne hu] at hlookup
      exact h.documents u symbols hlookup
  member cn k e he := by
    rw [WorkspaceIndex.documents_applyContribution]
    rw [bucket_applyContribution, List.mem_append] at he
    rcases he with hold | hnew
    · obtain ⟨huri, hmem⟩ := h.member_removeFromIndices uri cn k e hold
      obtain ⟨d, symbols, rfl, hlookup, hrest⟩ := h.member cn k e hmem
      have huri : d.uri ≠ uri := huri
      exact ⟨d, symbols, rfl, (AList.lookup_insert_ne huri).trans hlookup, hrest⟩
    · obtain ⟨sym, hsym, hinserted⟩ := List.mem_flatMap.mp (mem_contributed.mp hnew)
      have he := (Indices.member_of_insertedAt hinserted).1
      subst he
      exact ⟨⟨uri, sym⟩, c.symbols, rfl, AList.lookup_insert _, hsym, hinserted⟩
  annotated t k e he := by
    rw [bucket_applyContribution, List.mem_append] at he
    rcases he with hold | hnew
    · exact h.annotated_removeFromIndices uri t k e hold
    · obtain ⟨sym, -, hinserted⟩ := List.mem_flatMap.mp (mem_contributed.mp hnew)
      obtain ⟨he, htarget⟩ := Indices.annotated_of_insertedAt hinserted
      exact ⟨⟨uri, sym⟩, he, htarget⟩

lemma removeDocument (h : Filed P ix) (uri : String) : Filed P (ix.removeDocument uri).2 where
  documents u symbols hlookup := by
    rw [WorkspaceIndex.documents_removeDocument] at hlookup
    by_cases hu : u = uri
    · subst hu
      rw [AList.lookup_erase] at hlookup
      cases hlookup
    · rw [AList.lookup_erase_ne hu] at hlookup
      exact h.documents u symbols hlookup
  member cn k e he := by
    rw [WorkspaceIndex.documents_removeDocument]
    rw [bucket_removeDocument] at he
    obtain ⟨huri, hmem⟩ := h.member_removeFromIndices uri cn k e he
    obtain ⟨d, symbols, rfl, hlookup, hrest⟩ := h.member cn k e hmem
    have huri : d.uri ≠ uri := huri
    exact ⟨d, symbols, rfl, (AList.lookup_erase_ne huri).trans hlookup, hrest⟩
  annotated t k e he := by
    rw [bucket_removeDocument] at he
    exact h.annotated_removeFromIndices uri t k e he

end Filed

theorem filed_runIndex (H : Hasher) {P : List Symbol → Prop} {ops : List IndexOp}
    (hops : ∀ op ∈ ops, ∀ symbols ∈ op.symbols, P symbols) : Filed P (runIndex H ops) := by
  apply runIndex_invariant H
  · refine ⟨fun uri symbols hlookup => ?_, fun c k e he => ?_, fun t k e he => ?_⟩
    · cases hlookup
    · rw [bucket_runIndex_nil] at he
      cases he
    · rw [bucket_runIndex_nil] at he
      cases he
  · exact Filed.of_forgetCatalog
  · exact fun uri document h hop => h.applyContribution uri _ (hops _ hop _ rfl)
  · exact fun uri c h hop => h.applyContribution uri c (hops _ hop _ rfl)
  · exact fun uri h => h.removeDocument uri

/-- Extracted, and clean of what is no member. -/
def FilesOnlyMembers (name : String) (symbols : List Symbol) : Prop :=
  Contained symbols ∧ ∀ s ∈ symbols, misfiled symbols name s = false

variable {ix : WorkspaceIndex} {name : String}

lemma isMemberOf_of_annotated (h : Filed (FilesOnlyMembers name) ix) {k : String} {d : Definition}
    (hd : d ∈ ix.annotatedMembersByType.bucket name k) : IsMemberOf ix name d := by
  have hmem : IndexEntry.decl d ∈ ix.bucket (.annotated name k) := List.mem_map_of_mem hd
  obtain ⟨d', heq, htarget⟩ := h.annotated name k _ hmem
  cases heq
  unfold Symbol.annotationTargetClassSafe at htarget
  cases hkind : d.symbol.kind <;> rw [hkind] at htarget <;>
    first
    | exact .inr ⟨.inl hkind, htarget⟩
    | exact .inr ⟨.inr hkind, htarget⟩
    | cases htarget

lemma isMemberOf_of_member (h : Filed (FilesOnlyMembers name) ix) {k : String} {d : Definition}
    (hd : d ∈ ix.memberByType.bucket name k) : IsMemberOf ix name d := by
  have hmem : IndexEntry.decl d ∈ ix.bucket (.member name k) := List.mem_map_of_mem hd
  obtain ⟨d', symbols, heq, hlookup, hsymbol, hinserted⟩ := h.member name k _ hmem
  cases heq
  obtain ⟨hcontained, hclean⟩ := h.documents _ _ hlookup
  obtain ⟨-, -, htarget, hcontainer, hname, -⟩ := Indices.member_of_insertedAt hinserted
  rw [Option.isNone_eq_false_iff, Option.isSome_iff_exists] at hcontainer
  obtain ⟨id, hid⟩ := hcontainer
  obtain ⟨t, ht, htname⟩ := (hcontained _ hsymbol).2 id hid
  have htype : t.typeName = name := Option.some.inj (htname.symm.trans hname)
  have hof : containerOf symbols d.symbol = some t := by
    rw [containerOf, hid]
    exact ht
  have hpure := hclean _ hsymbol
  simp only [misfiled, htarget, hof, htype, Option.isNone_none, Option.any_some, beq_self_eq_true,
    Bool.true_and, Bool.not_eq_false', Bool.and_eq_true] at hpure
  exact .inl ⟨hpure.1, symbols, t, hlookup, hof, hpure.2, htype⟩

lemma isMemberOf_of_directMemberOf (h : Filed (FilesOnlyMembers name) ix) {k : String}
    {minAccess : AccessLevel} {d : Definition}
    (hd : ix.directMemberOf name k minAccess = some d) : IsMemberOf ix name d := by
  have hfound := (Option.filter_eq_some_iff.mp hd).1
  rcases Option.or_eq_some_iff.mp hfound with hmember | ⟨-, hannotated⟩
  · exact isMemberOf_of_member h (List.mem_of_getLast? hmember)
  · exact isMemberOf_of_annotated h (List.mem_of_head? hannotated)

lemma isMemberOf_of_directMembersOf (h : Filed (FilesOnlyMembers name) ix)
    {minAccess : AccessLevel} {d : Definition} (hd : d ∈ ix.directMembersOf name minAccess) :
    IsMemberOf ix name d := by
  have hbucket : ∀ (m : NestedBucketMap String String Definition) s,
      s ∈ (m.inner name).entries → m.bucket name s.1 = s.2 := by
    intro m s hs
    have hlookup : (m.inner name).lookup s.1 = some s.2 := AList.mem_lookup_iff.mpr hs
    rw [NestedBucketMap.bucket, BucketMap.bucket, hlookup]
    rfl
  rcases List.mem_append.mp (List.mem_of_mem_filter hd) with hmember | hannotated
  · obtain ⟨s, hs, hlast⟩ := List.mem_filterMap.mp hmember
    refine @isMemberOf_of_member ix name h s.1 d ?_
    rw [hbucket _ s hs]
    exact List.mem_of_getLast? hlast
  · obtain ⟨s, hs, hmem⟩ := List.mem_flatMap.mp hannotated
    refine @isMemberOf_of_annotated ix name h s.1 d ?_
    rw [hbucket _ s hs]
    exact hmem

section Chain

variable {T σ : Type} {superclass : String → Observed (Option String)}
  {visit : String → Nat → σ → Observed (Option T × σ)}

/-- What every visit keeps of the state, the walk keeps. -/
lemma walkChain_invariant (start : String) {Q : σ → Prop}
    (hvisit : ∀ current depth acc r, (depth = 0 → current = start) → Q acc →
      (visit current depth acc).value = some r → Q r.2) {remaining depth : Nat} {current : String}
    {acc : σ} {r : Option T × σ} (hstart : depth = 0 → current = start) (hacc : Q acc)
    (hr : (SymbolDb.walkChain superclass visit remaining depth current acc).value = some r) :
    Q r.2 := by
  induction remaining generalizing depth current acc with
  | zero =>
    cases hr
    exact hacc
  | succ remaining ih =>
    simp only [SymbolDb.walkChain, Observed.value_bind, Observed.value_record,
      Option.bind_some] at hr
    obtain ⟨⟨found, acc'⟩, hvisited, hrest⟩ := Option.bind_eq_some_iff.mp hr
    have hacc' : Q acc' := hvisit current depth acc _ hstart hacc hvisited
    cases found with
    | some t =>
      cases hrest
      exact hacc'
    | none =>
      simp only [Observed.value_bind] at hrest
      obtain ⟨parent, -, hrest⟩ := Option.bind_eq_some_iff.mp hrest
      cases parent with
      | none =>
        cases hrest
        exact hacc'
      | some parent => exact ih (fun h => absurd h (Nat.succ_ne_zero depth)) hacc' hrest

end Chain

namespace SymbolDb

variable {db : SymbolDb} {callDepth : Nat} {container : String} {minAccess : AccessLevel}

/-- The indexes that the database looks into. -/
def layers (db : SymbolDb) : List WorkspaceIndex := db.workspace :: db.base :: db.builtins.toList

/-- What a search through the layers finds, one of them has. -/
lemma exists_layer_of_some {find : WorkspaceIndex → Option Definition} {visible : Definition → Bool}
    {d : Definition} (h : (find db.workspace).or
      (((find db.base).filter visible).or (db.builtins.bind find)) = some d) :
    ∃ ix ∈ db.layers, find ix = some d := by
  rcases Option.or_eq_some_iff.mp h with hws | ⟨-, h⟩
  · exact ⟨db.workspace, by simp [layers], hws⟩
  · rcases Option.or_eq_some_iff.mp h with hbase | ⟨-, h⟩
    · exact ⟨db.base, by simp [layers], (Option.filter_eq_some_iff.mp hbase).1⟩
    · obtain ⟨builtins, hbuiltins, h⟩ := Option.bind_eq_some_iff.mp h
      exact ⟨builtins, by simp [layers, hbuiltins], h⟩

/-- What the layers list together, one of them lists. -/
lemma exists_layer_of_mem {list : WorkspaceIndex → List Definition} {visible : Definition → Bool}
    {d : Definition} (h : d ∈ list db.workspace ++ (list db.base).filter visible ++
      (db.builtins.map list).getD []) : ∃ ix ∈ db.layers, d ∈ list ix := by
  rcases List.mem_append.mp h with h | h
  · rcases List.mem_append.mp h with hws | hbase
    · exact ⟨db.workspace, by simp [layers], hws⟩
    · exact ⟨db.base, by simp [layers], List.mem_of_mem_filter hbase⟩
  · cases hbuiltins : db.builtins with
    | none =>
      rw [hbuiltins] at h
      cases h
    | some builtins =>
      rw [hbuiltins] at h
      exact ⟨builtins, by simp [layers, hbuiltins], h⟩

lemma exists_layer_of_memberAt {k : String} {d : Definition} (h : db.memberAt name k = some d) :
    ∃ ix ∈ db.layers, ix.directMemberOf name k .private = some d :=
  exists_layer_of_some h

lemma exists_layer_of_membersAt {d : Definition} (h : d ∈ db.membersAt name) :
    ∃ ix ∈ db.layers, d ∈ ix.directMembersOf name .private :=
  exists_layer_of_mem h

/-- What the class itself has is found there. -/
lemma findMember_of_memberAt {k : String} {d : Definition}
    (h : db.memberAt (lookupCtor container) k = some d) :
    (db.findMember callDepth container k minAccess).value =
      some (((some d).filter fun d => minAccess ≤ d.symbol.access).map (instantiate container)) := by
  simp only [findMember, tryInChain, walkChain, Observed.value_bind, Observed.value_record,
    Observed.value_pure, Option.bind_some, h]

lemma mem_entries_seeMembers {tier : Nat} {defs : List Definition}
    {seen : AList (fun _ : String => Nat × Definition)} {entry : Nat × Definition} {k : String}
    (h : (seeMembers tier defs seen).lookup k = some entry) :
    seen.lookup k = some entry ∨ entry.1 = tier ∧ entry.2 ∈ defs := by
  induction defs generalizing seen with
  | nil => exact .inl h
  | cons d defs ih =>
    rw [seeMembers, List.foldl_cons, ← seeMembers] at h
    rcases ih h with hseen | ⟨htier, hmem⟩
    · split_ifs at hseen with hname
      · exact .inl hseen
      · by_cases hk : k = d.symbol.name
        · subst hk
          rw [AList.lookup_insert] at hseen
          cases hseen
          exact .inr ⟨rfl, List.mem_cons_self⟩
        · rw [AList.lookup_insert_ne hk] at hseen
          exact .inl hseen
    · exact .inr ⟨htier, List.mem_cons_of_mem _ hmem⟩

/-- The members of tier 0 are those of the class itself. -/
lemma mem_membersAt_of_tier_zero {entries : List (Nat × Definition)} {entry : Nat × Definition}
    (h : (db.membersOfTiered callDepth container minAccess).value = some entries)
    (hmem : entry ∈ entries) (htier : entry.1 = 0) :
    ∃ d ∈ db.membersAt (lookupCtor container), entry.2 = instantiate container d := by
  rw [membersOfTiered, Observed.value_bind] at h
  obtain ⟨⟨found, seen⟩, hwalk, hentries⟩ := Option.bind_eq_some_iff.mp h
  have hseen : ∀ k e, seen.lookup k = some e → e.1 = 0 →
      e.2 ∈ db.membersAt (lookupCtor container) := by
    refine walkChain_invariant (lookupCtor container)
      (Q := fun seen => ∀ k e, seen.lookup k = some e → e.1 = 0 →
        e.2 ∈ db.membersAt (lookupCtor container))
      (fun current depth acc r hstart hacc hr k e he hzero => ?_) (fun _ => rfl)
      (fun k e he => by cases he) hwalk
    cases hr
    rcases mem_entries_seeMembers he with hold | ⟨hdepth, hnew⟩
    · exact hacc k e hold hzero
    · rw [hdepth] at hzero
      split_ifs at hzero with h0
      rw [hstart (not_not.mp h0)] at hnew
      exact hnew
  cases hentries
  obtain ⟨e, he, rfl⟩ := List.mem_map.mp hmem
  obtain ⟨s, hs, rfl⟩ := List.mem_map.mp (List.mem_of_mem_filter he)
  exact ⟨s.2.2, hseen s.1 s.2 (AList.mem_lookup_iff.mpr hs) htier, rfl⟩

/-- Whatever a lookup yields for a type itself is a member of a type of that name. -/
structure YieldsMembers (db : SymbolDb) (callDepth : Nat) (container : String) : Prop where
  directMemberOf : ∀ ix ∈ db.layers, ∀ k minAccess d,
    ix.directMemberOf (lookupCtor container) k minAccess = some d →
      IsMemberOf ix (lookupCtor container) d
  directMembersOf : ∀ ix ∈ db.layers, ∀ minAccess,
    ∀ d ∈ ix.directMembersOf (lookupCtor container) minAccess,
      IsMemberOf ix (lookupCtor container) d
  findMember : ∀ k minAccess d d', db.memberAt (lookupCtor container) k = some d →
    (db.findMember callDepth container k minAccess).value = some (some d') →
      d' = instantiate container d ∧ ∃ ix ∈ db.layers, IsMemberOf ix (lookupCtor container) d
  membersOf : ∀ minAccess entries,
    (db.membersOfTiered callDepth container minAccess).value = some entries →
      ∀ entry ∈ entries, entry.1 = 0 → ∃ d, entry.2 = instantiate container d ∧
        ∃ ix ∈ db.layers, IsMemberOf ix (lookupCtor container) d

/-- The layer was built from extracted documents that have nothing but the members of types in
containers of the name. -/
def BuiltClean (H : Hasher) (name : String) (ix : WorkspaceIndex) : Prop :=
  ∃ ops : List IndexOp, ix = runIndex H ops ∧ ∀ op ∈ ops, op.Extracted ∧ op.FilesMembers name

lemma BuiltClean.filed {H : Hasher} (h : BuiltClean H name ix) :
    Filed (FilesOnlyMembers name) ix := by
  obtain ⟨ops, rfl, hops⟩ := h
  refine filed_runIndex H fun op hop symbols hsymbols => ?_
  obtain ⟨hextracted, hfiles⟩ := hops op hop
  obtain ⟨root, hroot⟩ := hextracted symbols hsymbols
  exact ⟨hroot ▸ contained_extractSymbols root, hfiles symbols hsymbols⟩

/-- In a database whose layers were built by runs over documents that have nothing but the
members of types in containers of the name, every lookup yields members of the type only. -/
theorem yieldsMembers_of_builtClean (H : Hasher) (db : SymbolDb) (callDepth : Nat)
    (container : String)
    (hlayers : ∀ ix ∈ db.layers, BuiltClean H (lookupCtor container) ix) :
    db.YieldsMembers callDepth container where
  directMemberOf ix hix _ _ _ hd := isMemberOf_of_directMemberOf (hlayers ix hix).filed hd
  directMembersOf ix hix _ _ hd := isMemberOf_of_directMembersOf (hlayers ix hix).filed hd
  findMember k minAccess d d' hat hfound := by
    rw [findMember_of_memberAt hat] at hfound
    obtain ⟨d'', hd'', rfl⟩ := Option.map_eq_some_iff.mp (Option.some.inj hfound)
    cases (Option.filter_eq_some_iff.mp hd'').1
    obtain ⟨ix, hix, hd⟩ := exists_layer_of_memberAt hat
    exact ⟨rfl, ix, hix, isMemberOf_of_directMemberOf (hlayers ix hix).filed hd⟩
  membersOf minAccess entries hentries entry hmem htier := by
    obtain ⟨d, hd, heq⟩ := mem_membersAt_of_tier_zero hentries hmem htier
    obtain ⟨ix, hix, hd⟩ := exists_layer_of_membersAt hd
    exact ⟨d, heq, ix, hix, isMemberOf_of_directMembersOf (hlayers ix hix).filed hd⟩

end SymbolDb

/-- A leaf of the syntax tree of a text of one line. -/
def leaf (kind : NodeKind) (text : String) (start : Nat) (field : Option FieldName := none) :
    SyntaxNode :=
  let range : ByteRange := ⟨start, start + text.toList.length⟩
  .mk kind true field text range range.inFirstLine []

/-- An inner node of the same tree. -/
def branch (kind : NodeKind) (text : String) (start : Nat) (children : List SyntaxNode) :
    SyntaxNode :=
  let range : ByteRange := ⟨start, start + text.toList.length⟩
  .mk kind true none text range range.inFirstLine children

/-- `class Foo { var x : int; }` -/
def classFoo : SyntaxNode :=
  branch .other "class Foo { var x : int; }" 0
    [branch .classDecl "class Foo { var x : int; }" 0
      [leaf .ident "Foo" 6,
        branch .other "{ var x : int; }" 10
          [branch .memberVarDecl "var x : int;" 12
            [leaf .ident "x" 16 (some .names), leaf .typeAnnot "int" 20]]]]

/-- `function Foo(x : int) {}` -/
def functionFoo : SyntaxNode :=
  branch .other "function Foo(x : int) {}" 0
    [branch .funcDecl "function Foo(x : int) {}" 0
      [leaf .ident "Foo" 9,
        branch .funcParams "(x : int)" 12
          [branch .funcParamGroup "x : int" 13
            [leaf .ident "x" 13 (some .names), leaf .typeAnnot "int" 17]],
        branch .funcBlock "{}" 22 []]]

/-- The document of a syntax tree. -/
def extractedDocument (root : SyntaxNode) : ParsedDocument where
  source := root.text
  symbols := extractSymbols root

def zeroHasher : Hasher := ⟨fun _ => 0, fun _ _ => 0, fun _ _ => 0⟩

/-- A workspace of these documents over an empty base. -/
def workspaceOf (ops : List IndexOp) : SymbolDb where
  workspace := runIndex zeroHasher ops
  base := runIndex zeroHasher []

lemma mem_layers_workspaceOf {ops : List IndexOp} (hix : ix ∈ (workspaceOf ops).layers) :
    ix = runIndex zeroHasher ops ∨ ix = runIndex zeroHasher [] := by
  simpa [SymbolDb.layers, workspaceOf] using hix

theorem yieldsMembers_classFoo :
    (workspaceOf [.update "file:///a.ws" (extractedDocument classFoo)]).YieldsMembers 1 "Foo" := by
  refine SymbolDb.yieldsMembers_of_builtClean zeroHasher _ 1 "Foo" fun ix hix => ?_
  rcases mem_layers_workspaceOf hix with rfl | rfl
  · refine ⟨_, rfl, fun op hop => ?_⟩
    rw [List.mem_singleton.mp hop]
    constructor
    · rintro symbols ⟨⟩
      exact ⟨classFoo, rfl⟩
    · rintro symbols ⟨⟩
      decide
  · exact ⟨[], rfl, fun _ hop => absurd hop List.not_mem_nil⟩

/-- The parameter of the function `Foo` is found as a member of the class `Foo`. -/
theorem not_yieldsMembers_functionFoo :
    ¬ ∀ (H : Hasher) (db : SymbolDb) (callDepth : Nat) (container : String),
      (∀ ix ∈ db.layers, ∃ ops : List IndexOp, ix = runIndex H ops ∧ ∀ op ∈ ops, op.Extracted) →
        db.YieldsMembers callDepth container := by
  intro h
  let ops : List IndexOp := [.update "file:///a.ws" (extractedDocument classFoo),
    .update "file:///b.ws" (extractedDocument functionFoo)]
  have hyields := h zeroHasher (workspaceOf ops) 1 "Foo" fun ix hix => by
    rcases mem_layers_workspaceOf hix with rfl | rfl
    · refine ⟨ops, rfl, fun op hop => ?_⟩
      rcases List.mem_cons.mp hop with rfl | hop
      · rintro symbols ⟨⟩
        exact ⟨classFoo, rfl⟩
      · rw [List.mem_singleton.mp hop]
        rintro symbols ⟨⟩
        exact ⟨functionFoo, rfl⟩
    · exact ⟨[], rfl, fun _ hop => absurd hop List.not_mem_nil⟩
  have hfound : ((workspaceOf ops).workspace.directMemberOf (lookupCtor "Foo") "x" .private).map
      (·.symbol.kind) = some .parameter := by
    decide
  obtain ⟨d, hd, hkind⟩ := Option.map_eq_some_iff.mp hfound
  have hws : (workspaceOf ops).workspace ∈ (workspaceOf ops).layers := List.mem_cons_self
  rcases hyields.directMemberOf _ hws "x" .private d hd with ⟨hmember, -⟩ | ⟨hkinds, -⟩
  · rw [hkind] at hmember
    cases hmember
  · rw [hkind] at hkinds
    rcases hkinds with hkinds | hkinds <;> cases hkinds

end WitcherScriptLanguage
