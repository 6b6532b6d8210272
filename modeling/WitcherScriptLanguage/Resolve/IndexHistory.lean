import Mathlib.Data.List.Induction
import WitcherScriptLanguage.Resolve.WorkspaceIndex

/-!
# History independence of the workspace index

A run is any sequence of updates and removals. The index is compared with the documents that
are indexed at its end: every bucket must hold what inserting those documents alone would put
there. Removal inverts insertion for every symbol except an injected member written inside a
class body, whose annotated entry no branch of `remove_from_indices` visits.
-/

namespace WitcherScriptLanguage

open Library

inductive IndexOp
  | update (uri : String) (document : ParsedDocument)
  | apply (uri : String) (contribution : DocContribution)
  | remove (uri : String)
  | beginBulk
  | endBulk

/-- Documents currently indexed, each with its last contribution. -/
abbrev CurrentDocuments := AList (fun _ : String => DocContribution)

namespace IndexOp

def step (H : Hasher) (ix : WorkspaceIndex) : IndexOp → WorkspaceIndex
  | update uri document => (ix.updateDocument H uri document).2
  | apply uri contribution => (ix.applyContribution uri contribution).2
  | remove uri => (ix.removeDocument uri).2
  | beginBulk => ix.beginBulkCatalogUpdate
  | endBulk => ix.endBulkCatalogUpdate

def track (H : Hasher) (docs : CurrentDocuments) : IndexOp → CurrentDocuments
  | update uri document => docs.insert uri (WorkspaceIndex.computeContribution H uri document)
  | apply uri contribution => docs.insert uri contribution
  | remove uri => docs.erase uri
  | beginBulk => docs
  | endBulk => docs

/-- The document whose previous contribution the operation takes out of the index. -/
def target : IndexOp → Option String
  | update uri _ => some uri
  | apply uri _ => some uri
  | remove uri => some uri
  | beginBulk => none
  | endBulk => none

end IndexOp

def runIndex (H : Hasher) (ops : List IndexOp) : WorkspaceIndex := ops.foldl (IndexOp.step H) {}

def currentAfter (H : Hasher) (ops : List IndexOp) : CurrentDocuments :=
  ops.foldl (IndexOp.track H) ∅

lemma runIndex_concat (H : Hasher) (ops : List IndexOp) (op : IndexOp) :
    runIndex H (ops ++ [op]) = op.step H (runIndex H ops) := by
  simp [runIndex]

lemma currentAfter_concat (H : Hasher) (ops : List IndexOp) (op : IndexOp) :
    currentAfter H (ops ++ [op]) = op.track H (currentAfter H ops) := by
  simp [currentAfter]

lemma bucket_runIndex_nil (H : Hasher) (σ : Slot) : (runIndex H []).bucket σ = [] :=
  Indices.bucket_empty σ

/-- What the empty index has, what does not depend on the catalog, and what contributions and
removals keep, holds after every run. -/
theorem runIndex_invariant (H : Hasher) {I : WorkspaceIndex → Prop} {ops : List IndexOp}
    (hempty : I (runIndex H []))
    (hforget : ∀ {ix ix'}, I ix → ix'.forgetCatalog = ix.forgetCatalog → I ix')
    (hupdate : ∀ {ix} uri document, I ix → .update uri document ∈ ops →
      I (ix.applyContribution uri (WorkspaceIndex.computeContribution H uri document)).2)
    (happly : ∀ {ix} uri c, I ix → .apply uri c ∈ ops → I (ix.applyContribution uri c).2)
    (hremove : ∀ {ix} uri, I ix → I (ix.removeDocument uri).2) : I (runIndex H ops) := by
  induction ops using List.reverseRecOn with
  | nil => exact hempty
  | append_singleton pre op ih =>
    have hpre := ih (fun uri document h hop => hupdate uri document h (List.mem_append_left _ hop))
      (fun uri c h hop => happly uri c h (List.mem_append_left _ hop))
    have hlast : op ∈ pre ++ [op] := List.mem_append_right _ List.mem_cons_self
    rw [runIndex_concat]
    cases op with
    | update uri document => exact hupdate uri document hpre hlast
    | apply uri c => exact happly uri c hpre hlast
    | remove uri => exact hremove uri hpre
    | beginBulk => exact hforget hpre (WorkspaceIndex.forgetCatalog_beginBulk _)
    | endBulk => exact hforget hpre (WorkspaceIndex.forgetCatalog_endBulk _)

/-- What a document alone puts into a slot. -/
def contributed (uri : String) (symbols : List Symbol) (σ : Slot) : List IndexEntry :=
  (({} : Indices).insertIntoIndices uri symbols).bucket σ

def xorAll (hashes : List UInt64) : UInt64 := hashes.foldr (· ^^^ ·) 0

/-- The index holds exactly what its current documents contribute. -/
structure Exact (ix : WorkspaceIndex) (docs : CurrentDocuments) : Prop where
  buckets : ∀ σ, (ix.bucket σ : Multiset IndexEntry) =
    (docs.entries.map fun s => (contributed s.1 s.2.symbols σ : Multiset IndexEntry)).sum
  owners : ∀ σ, ∀ e ∈ ix.bucket σ, e.uri ∈ docs
  pruned : ix.toIndices.Pruned
  surface : ix.surfaceHash = xorAll (docs.entries.map fun s => s.2.surfaceHash)

/-- A member with an injecting annotation inside a class body, such as
`class C { @addField(D) var x : int; }`. -/
def Symbol.injectedInBody (sym : Symbol) : Bool :=
  !sym.requiresImport && sym.container.isSome && sym.annotationTargetClassSafe.isSome

/-- A declaration whose removal prunes the annotated entries of `sym`'s target and name. -/
def Symbol.clearsEntryOf (other sym : Symbol) : Bool :=
  !other.requiresImport && other.container.isNone &&
    other.annotationTargetClassSafe == sym.annotationTargetClassSafe && other.name == sym.name

/-- Taking the symbols out of the index leaves none of their entries behind: every injected
member of a class body shares its target and name with an injected top-level declaration. -/
def RemovalComplete (symbols : List Symbol) : Prop :=
  ∀ sym ∈ symbols, sym.injectedInBody → ∃ other ∈ symbols, other.clearsEntryOf sym

instance (symbols : List Symbol) : Decidable (RemovalComplete symbols) :=
  inferInstanceAs (Decidable (∀ sym ∈ symbols, sym.injectedInBody →
    ∃ other ∈ symbols, other.clearsEntryOf sym))

/-- The step takes out only documents whose removal is complete. -/
def CleanStep (docs : CurrentDocuments) (op : IndexOp) : Prop :=
  ∀ uri ∈ op.target, ∀ c ∈ docs.lookup uri, RemovalComplete c.symbols

namespace Indices

lemma insertedAt_uri (uri : String) (sym : Symbol) :
    ∀ p ∈ insertedAt uri sym, p.2.uri = uri := by
  intro p hp
  grind [insertedAt, IndexEntry.uri]

lemma insertedBy_uri (uri : String) (symbols : List Symbol) :
    ∀ p ∈ insertedBy uri symbols, p.2.uri = uri := by
  intro p hp
  obtain ⟨sym, -, hsym⟩ := List.mem_flatMap.mp hp
  exact insertedAt_uri uri sym p hsym

lemma mem_appended {pushes : List (Slot × IndexEntry)} {σ : Slot} {e : IndexEntry} :
    e ∈ appended pushes σ ↔ (σ, e) ∈ pushes := by
  simp [appended]

lemma insertedAt_of_injectedInBody (uri : String) {sym : Symbol} (h : sym.injectedInBody) :
    ∃ target, sym.annotationTargetClassSafe = some target ∧
      insertedAt uri sym = [(.annotated target sym.name, .decl ⟨uri, sym⟩)] := by
  simp only [Symbol.injectedInBody, Bool.and_eq_true, Bool.not_eq_true'] at h
  obtain ⟨target, ht⟩ := Option.isSome_iff_exists.mp h.2
  exact ⟨target, ht, by simp [insertedAt, h.1.1, ht]⟩

/-- Removal visits every slot that insertion filled, unless the symbol is an injected member of
a class body. -/
lemma visited_of_insertedAt (uri : String) {sym : Symbol} (h : sym.injectedInBody = false) :
    ∀ p ∈ insertedAt uri sym, p.1 ∈ visitedByRemoval sym ∧ ownedBy uri sym p.1 p.2 := by
  intro p hp
  grind [insertedAt, IndexEntry.uri, visitedByRemoval, ownedBy, IndexEntry.edgeName?,
    Symbol.injectedInBody]

/-- Only an injected top-level declaration makes removal visit an annotated slot. -/
lemma annotated_mem_visitedByRemoval {other : Symbol} {target name : String} :
    .annotated target name ∈ visitedByRemoval other ↔
      other.requiresImport = false ∧ other.container = none ∧
        other.annotationTargetClassSafe = some target ∧ other.name = name := by
  cases himport : other.requiresImport with
  | true => grind [visitedByRemoval]
  | false =>
    cases hcontainer : other.container with
    | some c => grind [visitedByRemoval]
    | none =>
      have hbases : .annotated target name ∉ (if other.kind.extendsByTypeName then
          Slot.superclass other.name :: (other.baseClass.map Slot.subclass).toList else []) := by
        split_ifs <;> simp
      simp only [visitedByRemoval, himport, hcontainer, Bool.false_eq_true, if_false,
        Option.isNone_none, if_true, List.mem_cons, List.mem_append, hbases, reduceCtorEq,
        false_or, true_and, Option.mem_toList, Option.map_eq_some_iff, Slot.annotated.injEq]
      constructor
      · rintro (hstate | ⟨t, ht, rfl, hname⟩)
        · split at hstate <;> simp at hstate
        · exact ⟨ht, hname⟩
      · exact fun h => .inr ⟨target, h.1, rfl, h.2⟩

/-- After a complete removal nothing that the symbols inserted survives. -/
lemma removed_of_insertedBy (uri : String) {symbols : List Symbol}
    (h : RemovalComplete symbols) {σ : Slot} {e : IndexEntry}
    (he : (σ, e) ∈ insertedBy uri symbols) :
    symbols.any (fun sym => decide (σ ∈ visitedByRemoval sym) && ownedBy uri sym σ e) := by
  obtain ⟨sym, hmem, hins⟩ := List.mem_flatMap.mp he
  simp only [List.any_eq_true, Bool.and_eq_true, decide_eq_true_eq]
  cases hin : sym.injectedInBody with
  | false => exact ⟨sym, hmem, visited_of_insertedAt uri hin _ hins⟩
  | true =>
    obtain ⟨target, ht, heq⟩ := insertedAt_of_injectedInBody uri hin
    obtain ⟨other, hother, hclears⟩ := h sym hmem hin
    rw [heq, List.mem_singleton, Prod.mk.injEq] at hins
    obtain ⟨rfl, rfl⟩ := hins
    simp only [Symbol.clearsEntryOf, ht, Bool.and_eq_true, Bool.not_eq_true', beq_iff_eq,
      Option.isNone_iff_eq_none] at hclears
    refine ⟨other, hother, annotated_mem_visitedByRemoval.mpr
      ⟨hclears.1.1.1, hclears.1.1.2, hclears.1.2, hclears.2⟩, ?_⟩
    simp [ownedBy, IndexEntry.uri]

/-- An incomplete removal leaves an annotated entry in place. -/
lemma exists_survivor (uri : String) {symbols : List Symbol} (h : ¬RemovalComplete symbols) :
    ∃ σ e, (σ, e) ∈ insertedBy uri symbols ∧
      symbols.any (fun sym => decide (σ ∈ visitedByRemoval sym) && ownedBy uri sym σ e) =
        false := by
  simp only [RemovalComplete, not_forall, not_exists, not_and] at h
  obtain ⟨sym, hmem, hin, hall⟩ := h
  obtain ⟨target, ht, heq⟩ := insertedAt_of_injectedInBody uri hin
  refine ⟨.annotated target sym.name, .decl ⟨uri, sym⟩,
    List.mem_flatMap.mpr ⟨sym, hmem, by simp [heq]⟩, ?_⟩
  rw [List.any_eq_false]
  intro other hother hvisited
  simp only [Bool.and_eq_true, decide_eq_true_eq] at hvisited
  obtain ⟨himport, hcontainer, htarget, hname⟩ := annotated_mem_visitedByRemoval.mp hvisited.1
  exact hall other hother (by simp [Symbol.clearsEntryOf, himport, hcontainer, htarget, hname, ht])

end Indices

/-! ### The invariant of clean runs -/

/-- The bucket entries of every document are its contribution, in order. -/
structure Settled (ix : WorkspaceIndex) (docs : CurrentDocuments) : Prop where
  documents : ∀ u, ix.documents.lookup u = (docs.lookup u).map (·.symbols)
  surfaces : ∀ u, ix.docSurfaceHashes.lookup u = (docs.lookup u).map (·.surfaceHash)
  buckets : ∀ σ u, (ix.bucket σ).filter (fun e => e.uri = u) =
    ((docs.lookup u).map (fun c => contributed u c.symbols σ)).getD []
  pruned : ix.toIndices.Pruned
  surface : ix.surfaceHash = xorAll (docs.entries.map fun s => s.2.surfaceHash)

lemma contributed_eq (uri : String) (symbols : List Symbol) (σ : Slot) :
    contributed uri symbols σ = Indices.appended (Indices.insertedBy uri symbols) σ := by
  rw [contributed, Indices.bucket_insertIntoIndices, Indices.bucket_empty, List.nil_append]

lemma mem_contributed {uri : String} {symbols : List Symbol} {σ : Slot} {e : IndexEntry} :
    e ∈ contributed uri symbols σ ↔ (σ, e) ∈ Indices.insertedBy uri symbols := by
  rw [contributed_eq, Indices.mem_appended]

lemma contributed_uri {uri : String} {symbols : List Symbol} {σ : Slot} {e : IndexEntry}
    (h : e ∈ contributed uri symbols σ) : e.uri = uri :=
  Indices.insertedBy_uri uri symbols _ (mem_contributed.mp h)

lemma bucket_applyContribution (ix : WorkspaceIndex) (uri : String) (c : DocContribution)
    (σ : Slot) : (ix.applyContribution uri c).2.bucket σ =
      (ix.removeFromIndices uri).bucket σ ++ contributed uri c.symbols σ := by
  rw [contributed_eq, ← Indices.bucket_insertIntoIndices]
  exact congrArg (fun i => i.bucket σ) (WorkspaceIndex.toIndices_noteChangedKeys _ _)

lemma bucket_removeDocument (ix : WorkspaceIndex) (uri : String) (σ : Slot) :
    (ix.removeDocument uri).2.bucket σ = (ix.removeFromIndices uri).bucket σ :=
  congrArg (fun i => i.bucket σ) (WorkspaceIndex.toIndices_noteChangedKeys _ _)

lemma filter_contributed (uri u : String) (symbols : List Symbol) (σ : Slot) :
    (contributed uri symbols σ).filter (fun e => e.uri = u) =
      if u = uri then contributed uri symbols σ else [] := by
  split_ifs with h
  · exact List.filter_eq_self.mpr (fun e he => by simp [contributed_uri he, h])
  · exact List.filter_eq_nil_iff.mpr (fun e he => by simp [contributed_uri he, Ne.symm h])

lemma xorAll_cons (h : UInt64) (hs : List UInt64) : xorAll (h :: hs) = h ^^^ xorAll hs := rfl

lemma xorAll_perm {hashes hashes' : List UInt64} (h : hashes.Perm hashes') :
    xorAll hashes = xorAll hashes' := by
  refine h.foldr_eq' (fun x _ y _ z => ?_) 0
  rw [← UInt64.xor_assoc, ← UInt64.xor_assoc, UInt64.xor_comm x y]

section Sums

variable {β : Type} (hash : β → UInt64)

/-- Erasing a key takes its hash out of the sum. -/
lemma xorAll_erase (docs : AList (fun _ : String => β)) (uri : String) :
    xorAll ((docs.erase uri).entries.map fun s => hash s.2) =
      (match docs.lookup uri with
        | some c => xorAll (docs.entries.map fun s => hash s.2) ^^^ hash c
        | none => xorAll (docs.entries.map fun s => hash s.2)) := by
  obtain ⟨entries, hnodup⟩ := docs
  have herase : (AList.erase uri ⟨entries, hnodup⟩).entries = entries.kerase uri := rfl
  have hlookup : AList.lookup uri ⟨entries, hnodup⟩ = entries.dlookup uri := rfl
  rw [herase, hlookup]
  dsimp only
  clear hnodup herase hlookup
  induction entries with
  | nil => rfl
  | cons s rest ih =>
    by_cases hs : uri = s.1
    · subst hs
      rw [List.kerase_cons_eq rfl, List.dlookup_cons_eq, List.map_cons, xorAll_cons]
      dsimp only
      rw [UInt64.xor_comm (hash s.2), UInt64.xor_assoc, UInt64.xor_self, UInt64.xor_zero]
    · rw [List.kerase_cons_ne hs, List.dlookup_cons_ne _ _ hs, List.map_cons, List.map_cons,
        xorAll_cons, xorAll_cons, ih]
      cases rest.dlookup uri with
      | none => rfl
      | some c => exact (UInt64.xor_assoc ..).symm

lemma xorAll_insert (docs : AList (fun _ : String => β)) (uri : String) (c : β) :
    xorAll ((docs.insert uri c).entries.map fun s => hash s.2) =
      xorAll ((docs.erase uri).entries.map fun s => hash s.2) ^^^ hash c := by
  rw [AList.entries_insert, List.map_cons, xorAll_cons, UInt64.xor_comm]
  rfl

end Sums

lemma Settled.of_forgetCatalog {ix ix' : WorkspaceIndex} {docs : CurrentDocuments}
    (h : Settled ix docs) (heq : ix'.forgetCatalog = ix.forgetCatalog) : Settled ix' docs := by
  have hs : Settled ix'.forgetCatalog docs := by
    rw [heq]
    exact ⟨h.documents, h.surfaces, h.buckets, h.pruned, h.surface⟩
  exact ⟨hs.documents, hs.surfaces, hs.buckets, hs.pruned, hs.surface⟩

lemma uri_of_any_owned {uri : String} {symbols : List Symbol} {σ : Slot} {e : IndexEntry}
    (h : symbols.any (fun sym =>
      decide (σ ∈ Indices.visitedByRemoval sym) && Indices.ownedBy uri sym σ e)) :
    e.uri = uri := by
  obtain ⟨sym, -, hsym⟩ := List.any_eq_true.mp h
  have howned := (Bool.and_eq_true _ _ ▸ hsym).2
  cases σ <;> simp [Indices.ownedBy] at howned <;> simp [howned]

/-- A complete removal takes out exactly the entries of the document. -/
lemma Settled.bucket_removeFromIndices {ix : WorkspaceIndex} {docs : CurrentDocuments}
    (h : Settled ix docs) {uri : String} (hc : ∀ c ∈ docs.lookup uri, RemovalComplete c.symbols)
    (σ : Slot) :
    (ix.removeFromIndices uri).bucket σ = (ix.bucket σ).filter (fun e => e.uri ≠ uri) := by
  rw [WorkspaceIndex.bucket_removeFromIndices]
  apply List.filter_congr
  intro e he
  by_cases hu : e.uri = uri
  · have hmem : e ∈ (ix.bucket σ).filter (fun e => e.uri = uri) := by simp [he, hu]
    rw [h.buckets] at hmem
    cases hl : docs.lookup uri with
    | none => simp [hl] at hmem
    | some c =>
      rw [hl] at hmem
      have hany := Indices.removed_of_insertedBy uri (hc c hl) (mem_contributed.mp hmem)
      simp [h.documents, hl, hany, hu]
  · have hany : ((ix.documents.lookup uri).getD []).any (fun sym =>
        decide (σ ∈ Indices.visitedByRemoval sym) && Indices.ownedBy uri sym σ e) = false := by
      rw [Bool.eq_false_iff]
      exact fun hany => hu (uri_of_any_owned hany)
    simp [hany, hu]

lemma Settled.pruned_removeFromIndices {ix : WorkspaceIndex} {docs : CurrentDocuments}
    (h : Settled ix docs) (uri : String) : (ix.removeFromIndices uri).toIndices.Pruned := by
  unfold WorkspaceIndex.removeFromIndices
  cases ix.documents.lookup uri with
  | none => exact h.pruned
  | some old => exact h.pruned.removeSymbols uri old

lemma filter_filter_ne (uri u : String) (l : List IndexEntry) :
    (l.filter (fun e => e.uri ≠ uri)).filter (fun e => e.uri = u) =
      if u = uri then [] else l.filter (fun e => e.uri = u) := by
  rw [List.filter_filter]
  split_ifs with h
  · subst h
    exact List.filter_eq_nil_iff.mpr (fun e _ => by simp)
  · apply List.filter_congr
    intro e _
    by_cases he : e.uri = u <;> simp [he, h]

theorem Settled.applyContribution {ix : WorkspaceIndex} {docs : CurrentDocuments}
    (h : Settled ix docs) {uri : String} (hc : ∀ c ∈ docs.lookup uri, RemovalComplete c.symbols)
    (c : DocContribution) : Settled (ix.applyContribution uri c).2 (docs.insert uri c) := by
  refine Settled.of_forgetCatalog ?_ (WorkspaceIndex.forgetCatalog_noteChangedKeys _ _)
  rw [WorkspaceIndex.removeFromIndices_eq]
  constructor
  · intro u
    by_cases hu : u = uri
    · subst hu
      simp
    · simp [AList.lookup_insert_ne hu, h.documents]
  · intro u
    by_cases hu : u = uri
    · subst hu
      simp
    · simp [AList.lookup_insert_ne hu, h.surfaces]
  · intro σ u
    dsimp only
    rw [Indices.bucket_insertIntoIndices, ← contributed_eq, h.bucket_removeFromIndices hc,
      List.filter_append, filter_filter_ne, filter_contributed]
    by_cases hu : u = uri
    · subst hu
      simp
    · simp [hu, AList.lookup_insert_ne hu, h.buckets]
  · exact (h.pruned_removeFromIndices uri).insertIntoIndices uri c.symbols
  · dsimp only
    rw [xorAll_insert DocContribution.surfaceHash, xorAll_erase DocContribution.surfaceHash,
      h.surfaces, ← h.surface]
    cases docs.lookup uri <;> rfl

theorem Settled.removeDocument {ix : WorkspaceIndex} {docs : CurrentDocuments}
    (h : Settled ix docs) {uri : String}
    (hc : ∀ c ∈ docs.lookup uri, RemovalComplete c.symbols) :
    Settled (ix.removeDocument uri).2 (docs.erase uri) := by
  refine Settled.of_forgetCatalog ?_ (WorkspaceIndex.forgetCatalog_noteChangedKeys _ _)
  rw [WorkspaceIndex.removeFromIndices_eq]
  constructor
  · intro u
    by_cases hu : u = uri
    · subst hu
      simp
    · simp [AList.lookup_erase_ne hu, h.documents]
  · intro u
    by_cases hu : u = uri
    · subst hu
      simp
    · simp [AList.lookup_erase_ne hu, h.surfaces]
  · intro σ u
    dsimp only
    rw [h.bucket_removeFromIndices hc, filter_filter_ne]
    by_cases hu : u = uri
    · subst hu
      simp
    · simp [hu, AList.lookup_erase_ne hu, h.buckets]
  · exact h.pruned_removeFromIndices uri
  · dsimp only
    rw [xorAll_erase DocContribution.surfaceHash, h.surfaces, ← h.surface]
    cases docs.lookup uri <;> rfl

theorem Settled.step {ix : WorkspaceIndex} {docs : CurrentDocuments} (H : Hasher)
    (h : Settled ix docs) (op : IndexOp) (hop : CleanStep docs op) :
    Settled (op.step H ix) (op.track H docs) := by
  cases op with
  | update uri document => exact h.applyContribution (hop uri rfl) _
  | apply uri c => exact h.applyContribution (hop uri rfl) c
  | remove uri => exact h.removeDocument (hop uri rfl)
  | beginBulk => exact h.of_forgetCatalog (WorkspaceIndex.forgetCatalog_beginBulk ix)
  | endBulk => exact h.of_forgetCatalog (WorkspaceIndex.forgetCatalog_endBulk ix)

theorem Settled.exact {ix : WorkspaceIndex} {docs : CurrentDocuments} (h : Settled ix docs) :
    Exact ix docs where
  buckets σ := coe_eq_sum_contributions IndexEntry.uri (fun u c => contributed u c.symbols σ) docs
    (ix.bucket σ) (h.buckets σ)
  owners σ e he := by
    have hmem : e ∈ (ix.bucket σ).filter (fun e' => e'.uri = e.uri) := by simp [he]
    rw [h.buckets] at hmem
    rw [← AList.lookup_isSome]
    cases hl : docs.lookup e.uri with
    | none => simp [hl] at hmem
    | some c => rfl
  pruned := h.pruned
  surface := h.surface

lemma survivor_stays (ix : WorkspaceIndex) {uri : String} {symbols : List Symbol}
    (hl : ix.documents.lookup uri = some symbols) {σ : Slot} {e : IndexEntry}
    (hany : symbols.any (fun sym =>
      decide (σ ∈ Indices.visitedByRemoval sym) && Indices.ownedBy uri sym σ e) = false) :
    ((ix.removeFromIndices uri).bucket σ).count e = (ix.bucket σ).count e := by
  rw [WorkspaceIndex.bucket_removeFromIndices, hl]
  exact List.count_filter (by simp [hany])

lemma mem_sum_map {α E : Type} (f : α → Multiset E) (l : List α) (e : E) :
    e ∈ (l.map f).sum ↔ ∃ a ∈ l, e ∈ f a := by
  induction l with
  | nil => simp
  | cons a rest ih => simp [ih]

/-- The other documents contribute no entry of `uri`. -/
lemma notMem_sum_erase (docs : CurrentDocuments) {uri : String} {σ : Slot} {e : IndexEntry}
    (he : e.uri = uri) :
    e ∉ ((docs.erase uri).entries.map
      fun s => (contributed s.1 s.2.symbols σ : Multiset IndexEntry)).sum := by
  rw [mem_sum_map]
  rintro ⟨s, hs, hmem⟩
  have hkey : s.1 = uri := (contributed_uri (Multiset.mem_coe.mp hmem)).symm.trans he
  have hin : uri ∈ docs.erase uri := by
    rw [← hkey, AList.mem_keys]
    exact List.mem_keys_of_mem (hkey ▸ hs)
  exact (AList.mem_erase.mp hin).1 rfl

/-- The entry that an incomplete removal leaves behind is one too many. -/
theorem Settled.not_exact_step {ix : WorkspaceIndex} {docs : CurrentDocuments} (H : Hasher)
    (h : Settled ix docs) (op : IndexOp) (hop : ¬CleanStep docs op) :
    ¬Exact (op.step H ix) (op.track H docs) := by
  simp only [CleanStep, not_forall] at hop
  obtain ⟨uri, htarget, c, hc, hincomplete⟩ := hop
  obtain ⟨σ, e, hins, hany⟩ := Indices.exists_survivor uri hincomplete
  have heuri : e.uri = uri := Indices.insertedBy_uri uri _ _ hins
  have hdoc : ix.documents.lookup uri = some c.symbols := by
    rw [h.documents, Option.mem_def.mp hc]
    rfl
  -- The entry is in the bucket before the step, and removal keeps it.
  have hpos : 0 < ((ix.removeFromIndices uri).bucket σ).count e := by
    rw [survivor_stays ix hdoc hany, List.count_pos_iff]
    have hmem : e ∈ (ix.bucket σ).filter (fun e => e.uri = uri) := by
      rw [h.buckets, Option.mem_def.mp hc]
      exact mem_contributed.mpr hins
    exact List.mem_of_mem_filter hmem
  have happly : ∀ c' : DocContribution,
      ¬Exact (ix.applyContribution uri c').2 (docs.insert uri c') := by
    intro c' hexact
    have hb := congrArg (Multiset.count e) (hexact.buckets σ)
    rw [bucket_applyContribution, AList.entries_insert, List.map_cons, List.sum_cons,
      Multiset.count_add, Multiset.coe_count, Multiset.coe_count, List.count_append] at hb
    have hrest := Multiset.count_eq_zero.mpr (notMem_sum_erase docs (σ := σ) heuri)
    have herase : (docs.erase uri).entries = docs.entries.kerase uri := rfl
    rw [herase] at hrest
    dsimp only at hb
    omega
  cases op with
  | update u document =>
    cases htarget
    exact happly _
  | apply u c' =>
    cases htarget
    exact happly c'
  | remove u =>
    cases htarget
    intro hexact
    have hb := congrArg (Multiset.count e) (hexact.buckets σ)
    simp only [IndexOp.step, IndexOp.track] at hb
    rw [bucket_removeDocument, Multiset.count_eq_zero.mpr (notMem_sum_erase docs heuri),
      Multiset.coe_count] at hb
    omega
  | beginBulk => cases htarget
  | endBulk => cases htarget

lemma settled_nil (H : Hasher) : Settled (runIndex H []) (currentAfter H []) where
  documents u := rfl
  surfaces u := rfl
  buckets σ u := by
    rw [bucket_runIndex_nil]
    rfl
  pruned := Indices.pruned_empty
  surface := rfl

/-- The run so far has only taken out documents whose removal is complete. -/
def CleanRun (H : Hasher) (ops : List IndexOp) : Prop :=
  ∀ pre op, pre ++ [op] <+: ops → CleanStep (currentAfter H pre) op

theorem settled_of_cleanRun (H : Hasher) {ops : List IndexOp} (h : CleanRun H ops) :
    Settled (runIndex H ops) (currentAfter H ops) := by
  induction ops using List.reverseRecOn with
  | nil => exact settled_nil H
  | append_singleton pre op ih =>
    have hpre : CleanRun H pre := fun q o hq => h q o (hq.trans (List.prefix_append pre [op]))
    rw [runIndex_concat, currentAfter_concat]
    exact (ih hpre).step H op (h pre op List.prefix_rfl)

/-- The index is exact after every prefix of a run just when no step of the run takes out a
document that declares an injected member inside a class body (unless the same document injects
the same name into the same class at top level, whose removal prunes the entry). -/
theorem index_exact_iff_cleanRun (H : Hasher) (ops : List IndexOp) :
    (∀ pre, pre <+: ops → Exact (runIndex H pre) (currentAfter H pre)) ↔ CleanRun H ops := by
  constructor
  · intro hexact
    induction ops using List.reverseRecOn with
    | nil =>
      intro pre op hpre
      simp at hpre
    | append_singleton ops last ih =>
      have hclean := ih (fun pre hpre => hexact pre (hpre.trans (List.prefix_append ops [last])))
      intro pre op hpre
      rcases List.prefix_concat_iff.mp hpre with heq | hshorter
      · obtain ⟨rfl, hop⟩ := List.append_inj' heq rfl
        cases hop
        by_contra hnot
        refine (settled_of_cleanRun H hclean).not_exact_step H last hnot ?_
        rw [← runIndex_concat, ← currentAfter_concat]
        exact hexact _ List.prefix_rfl
      · exact hclean pre op hshorter
  · intro hclean pre hpre
    exact (settled_of_cleanRun H (fun q o hq => hclean q o (hq.trans hpre))).exact

/-- The symbol table of `class C { @addField(D) var x : int; }`. -/
def injectedInBodyDocument : ParsedDocument where
  source := "class C { @addField(D) var x : int; }"
  symbols := [
    { id := ⟨0⟩, name := "C", kind := .class, byteRange := ⟨0, 37⟩, selectionByteRange := ⟨6, 7⟩ },
    { id := ⟨1⟩, name := "x", kind := .field, byteRange := ⟨10, 35⟩,
      selectionByteRange := ⟨27, 28⟩, container := some ⟨0⟩, containerName := some "C",
      typeAnnotation := some (.primitive .int),
      annotations := [⟨"addField", some "D"⟩] }]
  identLeaves := [("C", ⟨6, 7⟩), ("D", ⟨20, 21⟩), ("x", ⟨27, 28⟩), ("int", ⟨31, 34⟩)]

/-- Indexing that document and removing it again leaves `x` among the annotated members of `D`. -/
theorem not_exact_after_removing_injectedInBody :
    ¬∀ (H : Hasher) (ops : List IndexOp), Exact (runIndex H ops) (currentAfter H ops) := by
  intro h
  let H : Hasher := ⟨fun _ => 0, fun _ _ => 0, fun _ _ => 0⟩
  have hexact := h H [.update "file:///a.ws" injectedInBodyDocument, .remove "file:///a.ws"]
  have hstale : IndexEntry.decl ⟨"file:///a.ws", injectedInBodyDocument.symbols[1]⟩ ∈
      (runIndex H [.update "file:///a.ws" injectedInBodyDocument,
        .remove "file:///a.ws"]).bucket (.annotated "D" "x") := by
    decide
  have howner := hexact.owners _ _ hstale
  revert howner
  decide

end WitcherScriptLanguage
