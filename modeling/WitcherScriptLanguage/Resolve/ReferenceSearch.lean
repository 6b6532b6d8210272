import WitcherScriptLanguage.Resolve.References

/-!
# Exactness of a reference search

A search should report every identifier that resolution takes to one of the declarations, wherever
it is, each once. What it looks at is less: the files and ranges that the symbol can be seen from,
the identifiers that are spelled like it, and for an indexed file the ranges that the index has
listed, which may be those of another text.
-/

namespace WitcherScriptLanguage

open Library

namespace ParsedDocument

def InsideText (document : ParsedDocument) (range : ByteRange) : Prop :=
  range.start ≤ range.stop ∧ range.stop ≤ document.source.utf8ByteSize

/-- What the parser guarantees of the identifiers of a tree. -/
structure WellFormed (document : ParsedDocument) : Prop where
  distinct : (document.identLeaves.map Prod.snd).Nodup
  inside : ∀ leaf ∈ document.identLeaves, document.InsideText leaf.2

lemma WellFormed.eq_of_range {document : ParsedDocument} (h : document.WellFormed)
    {a b : String × ByteRange} (ha : a ∈ document.identLeaves) (hb : b ∈ document.identLeaves)
    (hrange : a.2 = b.2) : a = b :=
  List.inj_on_of_nodup_map h.distinct ha hb hrange

end ParsedDocument

section Loops

variable {uri : String} {accept report : ByteRange → Bool}

/-- The candidates that are reported. -/
def reportedCandidates (uri : String) (accept report : ByteRange → Bool)
    (filter : OccurrenceFilter) (candidates : List (ByteRange × Nat)) : List (ByteRange × Nat) :=
  candidates.filter fun c =>
    accept c.1 && report c.1 && (filter.includeDeclaration || (uri, c.1) ∉ filter.equivKeys)

/-- The declarations that are found among the candidates, the last one first. -/
def markedKeys (uri : String) (accept : ByteRange → Bool) (equivKeys : List OccurrenceKey)
    (candidates : List (ByteRange × Nat)) : List OccurrenceKey :=
  ((candidates.map fun c => (uri, c.1)).filter fun k => accept k.2 && k ∈ equivKeys).reverse

lemma reportCandidate_eq (results : List Reference) (filter : OccurrenceFilter)
    (c : ByteRange × Nat) :
    reportCandidate uri accept report (results, filter) c =
      (results ++ (reportedCandidates uri accept report filter [c]).map
          fun c => Reference.inDocument uri c.1 c.2,
        { filter with
          declFound := markedKeys uri accept filter.equivKeys [c] ++ filter.declFound }) := by
  cases haccept : accept c.1 with
  | false => simp [reportCandidate, reportedCandidates, markedKeys, haccept]
  | true =>
    obtain ⟨equivKeys, declFound, includeDeclaration⟩ := filter
    by_cases hmem : (uri, c.1) ∈ equivKeys <;> cases includeDeclaration <;>
      cases hreport : report c.1 <;>
      simp [reportCandidate, reportedCandidates, markedKeys, OccurrenceFilter.shouldReport,
        haccept, hmem, hreport]

lemma reportedCandidates_append (filter : OccurrenceFilter) (cs cs' : List (ByteRange × Nat)) :
    reportedCandidates uri accept report filter (cs ++ cs') =
      reportedCandidates uri accept report filter cs ++
        reportedCandidates uri accept report filter cs' :=
  List.filter_append ..

lemma markedKeys_append (equivKeys : List OccurrenceKey) (cs cs' : List (ByteRange × Nat)) :
    markedKeys uri accept equivKeys (cs ++ cs') =
      markedKeys uri accept equivKeys cs' ++ markedKeys uri accept equivKeys cs := by
  simp [markedKeys]

lemma reportCandidates_eq (candidates : List (ByteRange × Nat)) (filter : OccurrenceFilter) :
    reportCandidates uri accept report candidates filter =
      ((reportedCandidates uri accept report filter candidates).map
          fun c => Reference.inDocument uri c.1 c.2,
        { filter with
          declFound := markedKeys uri accept filter.equivKeys candidates ++ filter.declFound }) := by
  induction candidates using List.reverseRecOn with
  | nil => rfl
  | append_singleton cs c ih =>
    rw [reportCandidates, List.foldl_append, List.foldl_cons, List.foldl_nil, ← reportCandidates,
      ih, reportCandidate_eq, reportedCandidates_append, markedKeys_append, List.map_append,
      List.append_assoc]
    rfl

lemma mem_markedKeys {equivKeys : List OccurrenceKey} {candidates : List (ByteRange × Nat)}
    {k : OccurrenceKey} : k ∈ markedKeys uri accept equivKeys candidates ↔
      k.1 = uri ∧ k ∈ equivKeys ∧ accept k.2 ∧ k.2 ∈ candidates.map Prod.fst := by
  simp only [markedKeys, List.mem_reverse, List.mem_filter, List.mem_map, Bool.and_eq_true,
    decide_eq_true_eq]
  constructor
  · rintro ⟨⟨c, hc, rfl⟩, haccept, hmem⟩
    exact ⟨rfl, hmem, haccept, c, hc, rfl⟩
  · rintro ⟨rfl, hmem, haccept, c, hc, hrange⟩
    exact ⟨⟨c, hc, by rw [hrange]⟩, haccept, hmem⟩

end Loops

/-- A search for a definition whose equivalent declarations are known. The documents are those of
a map from URIs, as every handler collects them. -/
structure ReferenceSearch where
  db : SymbolDb
  resolution : NameResolution
  definition : Definition
  definitionDocument : ParsedDocument
  documents : AList (fun _ : String => ParsedDocument)
  includeDeclaration : Bool
  equiv : List Definition

namespace ReferenceSearch

variable (S : ReferenceSearch)

def equivKeys : List OccurrenceKey := S.equiv.map definitionKey

def searchDocuments : List (String × ParsedDocument) := S.documents.entries.map fun s => (s.1, s.2)

def references : List Reference :=
  S.db.findReferencesAmong S.resolution S.equiv S.definition S.definitionDocument
    S.searchDocuments S.includeDeclaration

/-- The suppressed base file that the definition's file replaces a declaration of. -/
def Paired (uri : String) : Prop := S.db.pairedSuppressedBaseUri S.definition = some uri

instance (uri : String) : Decidable (S.Paired uri) :=
  inferInstanceAs (Decidable (S.db.pairedSuppressedBaseUri S.definition = some uri))

/-- Resolution takes an identifier at the range to one of the declarations. -/
def Resolves (uri : String) (document : ParsedDocument) (range : ByteRange) : Prop :=
  verifies S.resolution uri document S.equivKeys range = true

instance (uri : String) (document : ParsedDocument) (range : ByteRange) :
    Decidable (S.Resolves uri document range) :=
  inferInstanceAs (Decidable (verifies S.resolution uri document S.equivKeys range = true))

def scanRange (uri : String) : Option (Option ByteRange) :=
  SymbolDb.scanRangeOf (SymbolDb.searchScope S.equiv S.definition S.definitionDocument)
    S.definition uri

/-- The ranges that the search looks at in a document. -/
def candidates (uri : String) (document : ParsedDocument) : List (ByteRange × Nat) :=
  ((S.scanRange uri).map (S.db.candidatesIn S.definition uri document)).getD []

/-- An identifier of a searched document that resolves to one of the declarations. -/
def IsOccurrence (k : OccurrenceKey) : Prop :=
  ∃ document, S.documents.lookup k.1 = some document ∧
    k.2 ∈ document.identLeaves.map Prod.snd ∧ S.Resolves k.1 document k.2

/-- Outside the paired base file: the declarations are reported as asked, of other identifiers
just those that resolve to a declaration, nothing twice, and only ranges of the text are looked
at. -/
structure Exact (references : List Reference) : Prop where
  declarations : ∀ k ∈ S.equivKeys, ¬S.Paired k.1 →
    (k ∈ references.map Reference.location ↔ S.includeDeclaration)
  occurrences : ∀ k ∉ S.equivKeys, ¬S.Paired k.1 →
    (k ∈ references.map Reference.location ↔ S.IsOccurrence k)
  once : ((references.map Reference.location).filter fun k => ¬S.Paired k.1).Nodup
  inside : ∀ uri document, S.documents.lookup uri = some document → ¬S.Paired uri →
    ∀ c ∈ S.candidates uri document, document.InsideText c.1

/-! ### What the search reports -/

/-- The references and the found declarations of one document. -/
def documentReport (uri : String) (document : ParsedDocument) :
    List Reference × List OccurrenceKey :=
  let (results, filter) := S.db.searchDocument S.resolution S.definition
    (SymbolDb.searchScope S.equiv S.definition S.definitionDocument) uri document
    ⟨S.equivKeys, [], S.includeDeclaration⟩
  (results, filter.declFound)

lemma searchDocument_eq (uri : String) (document : ParsedDocument) (found : List OccurrenceKey) :
    S.db.searchDocument S.resolution S.definition
        (SymbolDb.searchScope S.equiv S.definition S.definitionDocument) uri document
        ⟨S.equivKeys, found, S.includeDeclaration⟩ =
      ((S.documentReport uri document).1,
        ⟨S.equivKeys, (S.documentReport uri document).2 ++ found, S.includeDeclaration⟩) := by
  unfold documentReport SymbolDb.searchDocument
  split_ifs with hpaired
  · simp only [SymbolDb.pairedBaseReferences, reportCandidates_eq, reportedCandidates,
      List.append_nil]
  · cases SymbolDb.scanRangeOf _ S.definition uri with
    | none => rfl
    | some scanRange =>
      simp only [reportCandidates_eq, reportedCandidates, List.append_nil]

/-- The documents are searched one by one. -/
lemma foldl_searchDocument (entries : List (String × ParsedDocument)) :
    ∃ found, entries.foldl (fun (acc : List Reference × OccurrenceFilter) entry =>
        let (found, filter) := S.db.searchDocument S.resolution S.definition
          (SymbolDb.searchScope S.equiv S.definition S.definitionDocument) entry.1 entry.2 acc.2
        (acc.1 ++ found, filter)) ([], ⟨S.equivKeys, [], S.includeDeclaration⟩) =
      (entries.flatMap fun entry => (S.documentReport entry.1 entry.2).1,
        ⟨S.equivKeys, found, S.includeDeclaration⟩) ∧
      ∀ k, k ∈ found ↔ ∃ entry ∈ entries, k ∈ (S.documentReport entry.1 entry.2).2 := by
  induction entries using List.reverseRecOn with
  | nil => exact ⟨[], rfl, fun k => by simp⟩
  | append_singleton entries entry ih =>
    obtain ⟨found, hfold, hfound⟩ := ih
    refine ⟨(S.documentReport entry.1 entry.2).2 ++ found, ?_, fun k => ?_⟩
    · rw [List.foldl_append, hfold, List.foldl_cons, List.foldl_nil]
      simp only [searchDocument_eq, List.flatMap_append, List.flatMap_singleton]
    · simp only [List.mem_append, hfound, List.mem_singleton, or_and_right, exists_or,
        exists_eq_left, or_comm]

/-- The references of all documents, and then the declarations that were not found in any. -/
theorem references_eq :
    ∃ found : List OccurrenceKey, S.references = (S.searchDocuments.flatMap fun entry =>
        (S.documentReport entry.1 entry.2).1) ++
          (if S.includeDeclaration then
            (S.equiv.filter fun e => definitionKey e ∉ found).map Reference.ofDeclaration
          else []) ∧
      ∀ k, k ∈ found ↔
        ∃ entry ∈ S.searchDocuments, k ∈ (S.documentReport entry.1 entry.2).2 := by
  obtain ⟨found, hfold, hfound⟩ := S.foldl_searchDocument S.searchDocuments
  refine ⟨found, ?_, hfound⟩
  unfold references SymbolDb.findReferencesAmong
  dsimp only
  rw [← equivKeys, hfold]

/-- The candidate ranges that are reported for a document. -/
def reportedRanges (uri : String) (document : ParsedDocument) : List ByteRange :=
  ((S.candidates uri document).map Prod.fst).filter fun range =>
    S.Resolves uri document range ∧ (S.includeDeclaration ∨ (uri, range) ∉ S.equivKeys)

variable {S} {uri : String} {document : ParsedDocument}

/-- Every document goes through the loop over candidates; only a paired file has its own test. -/
lemma documentReport_eq (uri : String) (document : ParsedDocument) :
    ∃ accept report candidates, S.documentReport uri document =
      ((reportedCandidates uri accept report ⟨S.equivKeys, [], S.includeDeclaration⟩ candidates).map
          fun c => Reference.inDocument uri c.1 c.2,
        markedKeys uri accept S.equivKeys candidates) ∧
      (¬S.Paired uri → accept = verifies S.resolution uri document S.equivKeys ∧
        report = (fun _ => true) ∧ candidates = S.candidates uri document) := by
  unfold documentReport SymbolDb.searchDocument candidates scanRange Paired
  split_ifs with hpaired
  · simp only [SymbolDb.pairedBaseReferences, reportCandidates_eq, List.append_nil]
    exact ⟨_, _, _, rfl, fun h => absurd hpaired h⟩
  · cases SymbolDb.scanRangeOf _ S.definition uri with
    | none => exact ⟨_, _, [], rfl, fun _ => ⟨rfl, rfl, rfl⟩⟩
    | some scanRange =>
      simp only [reportCandidates_eq, List.append_nil]
      exact ⟨_, _, _, rfl, fun _ => ⟨rfl, rfl, rfl⟩⟩

lemma location_documentReport (hpaired : ¬S.Paired uri) :
    (S.documentReport uri document).1.map Reference.location =
      (S.reportedRanges uri document).map (uri, ·) := by
  obtain ⟨accept, report, candidates, heq, hunpaired⟩ := S.documentReport_eq uri document
  obtain ⟨rfl, rfl, rfl⟩ := hunpaired hpaired
  rw [heq, reportedRanges, List.filter_map, List.map_map, List.map_map]
  refine congrArg _ (List.filter_congr fun c _ => ?_)
  rw [Bool.eq_iff_iff, Function.comp_apply, decide_eq_true_iff]
  simp [Resolves]

lemma mem_marks_documentReport (hpaired : ¬S.Paired uri) {k : OccurrenceKey} :
    k ∈ (S.documentReport uri document).2 ↔ k.1 = uri ∧ k ∈ S.equivKeys ∧
      S.Resolves uri document k.2 ∧ k.2 ∈ (S.candidates uri document).map Prod.fst := by
  obtain ⟨accept, report, candidates, heq, hunpaired⟩ := S.documentReport_eq uri document
  obtain ⟨rfl, rfl, rfl⟩ := hunpaired hpaired
  rw [heq]
  exact mem_markedKeys

/-- A document's report is about that document. -/
lemma fst_eq_of_location {k : OccurrenceKey}
    (hk : k ∈ (S.documentReport uri document).1.map Reference.location) : k.1 = uri := by
  obtain ⟨accept, report, candidates, heq, -⟩ := S.documentReport_eq uri document
  rw [heq, List.map_map] at hk
  obtain ⟨c, -, rfl⟩ := List.mem_map.mp hk
  rfl

lemma fst_eq_of_mark {k : OccurrenceKey} (hk : k ∈ (S.documentReport uri document).2) :
    k.1 = uri := by
  obtain ⟨accept, report, candidates, heq, -⟩ := S.documentReport_eq uri document
  rw [heq] at hk
  exact (mem_markedKeys.mp hk).1

lemma mem_searchDocuments {entry : String × ParsedDocument} :
    entry ∈ S.searchDocuments ↔ S.documents.lookup entry.1 = some entry.2 := by
  simp only [searchDocuments, List.mem_map, AList.mem_lookup_iff, ← Option.mem_def]
  constructor
  · rintro ⟨s, hs, rfl⟩
    exact hs
  · exact fun h => ⟨⟨entry.1, entry.2⟩, h, rfl⟩

lemma mem_reportedRanges {range : ByteRange} : range ∈ S.reportedRanges uri document ↔
    range ∈ (S.candidates uri document).map Prod.fst ∧ S.Resolves uri document range ∧
      (S.includeDeclaration ∨ (uri, range) ∉ S.equivKeys) := by
  simp [reportedRanges]

lemma mem_documentLocations {k : OccurrenceKey} (hpaired : ¬S.Paired k.1) :
    k ∈ (S.searchDocuments.flatMap fun entry =>
        (S.documentReport entry.1 entry.2).1).map Reference.location ↔
      ∃ document, S.documents.lookup k.1 = some document ∧
        k.2 ∈ S.reportedRanges k.1 document := by
  rw [List.map_flatMap, List.mem_flatMap]
  constructor
  · rintro ⟨entry, hentry, hk⟩
    have huri := fst_eq_of_location hk
    rw [location_documentReport (huri ▸ hpaired)] at hk
    obtain ⟨range, hrange, rfl⟩ := List.mem_map.mp hk
    exact ⟨entry.2, mem_searchDocuments.mp hentry, hrange⟩
  · rintro ⟨document, hlookup, hrange⟩
    refine ⟨(k.1, document), mem_searchDocuments.mpr hlookup, ?_⟩
    rw [location_documentReport hpaired]
    exact List.mem_map.mpr ⟨k.2, hrange, rfl⟩

lemma mem_documentMarks {k : OccurrenceKey} (hpaired : ¬S.Paired k.1) :
    (∃ entry ∈ S.searchDocuments, k ∈ (S.documentReport entry.1 entry.2).2) ↔
      k ∈ S.equivKeys ∧ ∃ document, S.documents.lookup k.1 = some document ∧
        S.Resolves k.1 document k.2 ∧ k.2 ∈ (S.candidates k.1 document).map Prod.fst := by
  constructor
  · rintro ⟨entry, hentry, hk⟩
    have huri := fst_eq_of_mark hk
    obtain ⟨-, hmem, hresolves, hcandidate⟩ :=
      (mem_marks_documentReport (huri ▸ hpaired)).mp hk
    rw [huri]
    exact ⟨hmem, entry.2, mem_searchDocuments.mp hentry, hresolves, hcandidate⟩
  · rintro ⟨hmem, document, hlookup, hresolves, hcandidate⟩
    exact ⟨(k.1, document), mem_searchDocuments.mpr hlookup,
      (mem_marks_documentReport hpaired).mpr ⟨rfl, hmem, hresolves, hcandidate⟩⟩

lemma location_missing (found : List OccurrenceKey) :
    ((S.equiv.filter fun e => definitionKey e ∉ found).map Reference.ofDeclaration).map
      Reference.location = S.equivKeys.filter fun k => k ∉ found := by
  rw [equivKeys, List.filter_map, List.map_map]
  rfl

/-- A key outside the paired file is reported where its document reports it, and as a declaration
that was found nowhere. -/
lemma mem_locations {k : OccurrenceKey} (hpaired : ¬S.Paired k.1) :
    k ∈ S.references.map Reference.location ↔
      (∃ document, S.documents.lookup k.1 = some document ∧
        k.2 ∈ S.reportedRanges k.1 document) ∨
      (S.includeDeclaration ∧ k ∈ S.equivKeys ∧
        ¬∃ document, S.documents.lookup k.1 = some document ∧ S.Resolves k.1 document k.2 ∧
          k.2 ∈ (S.candidates k.1 document).map Prod.fst) := by
  obtain ⟨found, heq, hfound⟩ := S.references_eq
  rw [heq, List.map_append, List.mem_append, mem_documentLocations hpaired]
  refine or_congr_right ?_
  cases hinclude : S.includeDeclaration with
  | false => simp
  | true =>
    rw [if_pos rfl, location_missing, List.mem_filter, decide_eq_true_iff, hfound,
      mem_documentMarks hpaired]
    exact ⟨fun h => ⟨rfl, h.1, fun hfound => h.2 ⟨h.1, hfound⟩⟩,
      fun h => ⟨h.2.1, fun hfound => h.2.2 hfound.2⟩⟩

/-- The unpaired keys that one document reports. -/
lemma unpaired_documentReport (entry : String × ParsedDocument) :
    ((S.documentReport entry.1 entry.2).1.map Reference.location).filter (fun k => ¬S.Paired k.1) =
      if S.Paired entry.1 then [] else (S.reportedRanges entry.1 entry.2).map (entry.1, ·) := by
  split_ifs with hpaired
  · refine List.filter_eq_nil_iff.mpr fun k hk => ?_
    simpa [fst_eq_of_location hk] using hpaired
  · rw [location_documentReport hpaired]
    refine List.filter_eq_self.mpr fun k hk => ?_
    obtain ⟨range, -, rfl⟩ := List.mem_map.mp hk
    simpa using hpaired

lemma nodup_uris : (S.searchDocuments.map Prod.fst).Nodup := by
  have hkeys : S.searchDocuments.map Prod.fst = S.documents.keys := by
    simp [searchDocuments, AList.keys, List.keys]
  rw [hkeys]
  exact S.documents.keys_nodup

lemma nodup_documentReports :
    (S.searchDocuments.flatMap fun entry => if S.Paired entry.1 then [] else
      (S.reportedRanges entry.1 entry.2).map (entry.1, ·)).Nodup ↔
    ∀ uri document, S.documents.lookup uri = some document → ¬S.Paired uri →
      (S.reportedRanges uri document).Nodup := by
  have hpairwise : S.searchDocuments.Pairwise fun a b => a.1 ≠ b.1 :=
    List.pairwise_map.mp S.nodup_uris
  rw [List.nodup_flatMap, and_iff_left]
  · constructor
    · intro h uri document hlookup hpaired
      have hdocument := h (uri, document) (mem_searchDocuments.mpr hlookup)
      rw [if_neg hpaired] at hdocument
      exact hdocument.of_map _
    · intro h entry hentry
      split_ifs with hpaired
      · exact List.nodup_nil
      · exact (h entry.1 entry.2 (mem_searchDocuments.mp hentry) hpaired).map
          fun _ _ heq => (Prod.mk.inj heq).2
  · refine hpairwise.imp fun {a b} hne => ?_
    simp only [Function.onFun, List.disjoint_left]
    intro k ha hb
    split_ifs at ha hb
    all_goals first
      | cases ha
      | cases hb
      | skip
    obtain ⟨_, -, rfl⟩ := List.mem_map.mp ha
    obtain ⟨_, -, heq⟩ := List.mem_map.mp hb
    exact hne (Prod.mk.inj heq).1.symm

theorem nodup_locations (hequiv : S.equivKeys.Nodup) :
    ((S.references.map Reference.location).filter fun k => ¬S.Paired k.1).Nodup ↔
      ∀ uri document, S.documents.lookup uri = some document → ¬S.Paired uri →
        (S.reportedRanges uri document).Nodup := by
  obtain ⟨found, heq, hfound⟩ := S.references_eq
  rw [← nodup_documentReports, heq, List.map_append, List.filter_append, List.map_flatMap,
    List.filter_flatMap]
  simp only [unpaired_documentReport]
  refine ⟨fun h => h.of_append_left, fun h => h.append ?_ (List.disjoint_left.mpr ?_)⟩
  · split_ifs
    · rw [location_missing]
      exact (hequiv.filter _).filter _
    · exact List.nodup_nil
  · intro k hdocuments hmissing
    obtain ⟨hmissing, hpaired⟩ := List.mem_filter.mp hmissing
    rw [decide_eq_true_iff] at hpaired
    split_ifs at hmissing
    · rw [location_missing, List.mem_filter, decide_eq_true_iff, hfound,
        mem_documentMarks hpaired] at hmissing
      refine hmissing.2 ⟨hmissing.1, ?_⟩
      obtain ⟨entry, hentry, hk⟩ := List.mem_flatMap.mp hdocuments
      split_ifs at hk
      · cases hk
      obtain ⟨range, hrange, rfl⟩ := List.mem_map.mp hk
      obtain ⟨hcandidate, hresolves, -⟩ := mem_reportedRanges.mp hrange
      exact ⟨entry.2, mem_searchDocuments.mp hentry, hresolves, hcandidate⟩
    · cases hmissing

/-! ### When a search is exact -/

variable (S)

/-- An occurrence to report, other than a declaration. -/
def Hit (uri : String) (document : ParsedDocument) (range : ByteRange) : Prop :=
  S.Resolves uri document range ∧ (uri, range) ∉ S.equivKeys

instance (uri : String) (document : ParsedDocument) (range : ByteRange) :
    Decidable (S.Hit uri document range) :=
  inferInstanceAs (Decidable (S.Resolves uri document range ∧ (uri, range) ∉ S.equivKeys))

/-- The ranges that the identifier index lists for the search names. -/
def indexedRanges (uri : String) : List ByteRange :=
  (searchNames S.definition.symbol).flatMap fun n => S.db.indexedRanges uri n.1

/-- The index lists ranges of the text only, and of these just the occurrences. -/
structure IndexFits (uri : String) (document : ParsedDocument) : Prop where
  inside : ∀ range ∈ S.indexedRanges uri, document.InsideText range
  once : ((S.indexedRanges uri).filter fun range => S.Resolves uri document range ∧
    (S.includeDeclaration ∨ (uri, range) ∉ S.equivKeys)).Nodup
  occurrences : ∀ range, S.Hit uri document range →
    (range ∈ S.indexedRanges uri ↔ range ∈ document.identLeaves.map Prod.snd)

/-- No occurrence escapes the search in this document: there is none in a file that is left out;
in a scanned file all are spelled like the symbol and in the scanned range; and where the index
stands in for the text, it lists them. -/
def Covers (uri : String) (document : ParsedDocument) : Prop :=
  match S.scanRange uri with
  | none => ∀ leaf ∈ document.identLeaves, ¬S.Hit uri document leaf.2
  | some scanRange =>
    if scanRange.isNone && S.db.identsIndexed uri then S.IndexFits uri document
    else ∀ leaf ∈ document.identLeaves, S.Hit uri document leaf.2 →
      leaf.1 ∈ (searchNames S.definition.symbol).map Prod.fst ∧ scanRange.all leaf.2.meets

/-- What exactness asks of one document. -/
structure ExactIn (uri : String) (document : ParsedDocument) : Prop where
  inside : ∀ range ∈ (S.candidates uri document).map Prod.fst, document.InsideText range
  once : (S.reportedRanges uri document).Nodup
  occurrences : ∀ range, S.Hit uri document range →
    (range ∈ (S.candidates uri document).map Prod.fst ↔
      range ∈ document.identLeaves.map Prod.snd)

variable {S}

theorem exact_iff_exactIn (hequiv : S.equivKeys.Nodup) :
    S.Exact S.references ↔ ∀ uri document, S.documents.lookup uri = some document → ¬S.Paired uri →
      S.ExactIn uri document := by
  constructor
  · intro h uri document hlookup hpaired
    refine ⟨fun range hrange => ?_, (nodup_locations hequiv).mp h.once uri document hlookup hpaired,
      fun range hhit => ?_⟩
    · obtain ⟨c, hc, rfl⟩ := List.mem_map.mp hrange
      exact h.inside uri document hlookup hpaired c hc
    · have hreported := h.occurrences (uri, range) hhit.2 hpaired
      rw [mem_locations hpaired] at hreported
      constructor
      · intro hcandidate
        obtain ⟨document', hlookup', hleaf, -⟩ := hreported.mp (.inl ⟨document, hlookup,
          mem_reportedRanges.mpr ⟨hcandidate, hhit.1, .inr hhit.2⟩⟩)
        cases hlookup.symm.trans hlookup'
        exact hleaf
      · intro hleaf
        rcases hreported.mpr ⟨document, hlookup, hleaf, hhit.1⟩ with hrange | ⟨-, hmem, -⟩
        · obtain ⟨document', hlookup', hrange⟩ := hrange
          cases hlookup.symm.trans hlookup'
          exact (mem_reportedRanges.mp hrange).1
        · exact absurd hmem hhit.2
  · intro h
    refine ⟨fun k hk hpaired => ?_, fun k hk hpaired => ?_,
      (nodup_locations hequiv).mpr fun uri document hlookup hpaired =>
        (h uri document hlookup hpaired).once,
      fun uri document hlookup hpaired c hc =>
        (h uri document hlookup hpaired).inside c.1 (List.mem_map_of_mem hc)⟩
    · rw [mem_locations hpaired]
      constructor
      · rintro (⟨document, -, hrange⟩ | ⟨hinclude, -⟩)
        · exact (mem_reportedRanges.mp hrange).2.2.resolve_right (not_not.mpr hk)
        · exact hinclude
      · intro hinclude
        by_cases hfound : ∃ document, S.documents.lookup k.1 = some document ∧
            S.Resolves k.1 document k.2 ∧ k.2 ∈ (S.candidates k.1 document).map Prod.fst
        · obtain ⟨document, hlookup, hresolves, hcandidate⟩ := hfound
          exact .inl ⟨document, hlookup,
            mem_reportedRanges.mpr ⟨hcandidate, hresolves, .inl hinclude⟩⟩
        · exact .inr ⟨hinclude, hk, hfound⟩
    · rw [mem_locations hpaired, or_iff_left fun hmissing => hk hmissing.2.1]
      refine exists_congr fun document => and_congr_right fun hlookup => ?_
      rw [mem_reportedRanges]
      constructor
      · rintro ⟨hcandidate, hresolves, -⟩
        exact ⟨((h k.1 document hlookup hpaired).occurrences k.2 ⟨hresolves, hk⟩).mp hcandidate,
          hresolves⟩
      · rintro ⟨hleaf, hresolves⟩
        exact ⟨((h k.1 document hlookup hpaired).occurrences k.2 ⟨hresolves, hk⟩).mpr hleaf,
          hresolves, .inr hk⟩

lemma nodup_searchNames (s : Symbol) : ((searchNames s).map Prod.fst).Nodup := by
  unfold searchNames
  split_ifs with h
  · exact List.nodup_singleton _
  · simpa using Ne.symm h

/-- Sorting aside, the candidates are those of every name. -/
lemma candidates_perm {scanRange : Option ByteRange} (hscan : S.scanRange uri = some scanRange) :
    ((S.candidates uri document).map Prod.fst).Perm
      ((searchNames S.definition.symbol).flatMap fun n =>
        S.db.collectCandidateRanges uri document n.1 scanRange) := by
  rw [candidates, hscan, Option.map_some, Option.getD_some, SymbolDb.candidatesIn]
  refine ((List.perm_insertionSort _ _).map Prod.fst).trans (.of_eq ?_)
  simp only [List.map_flatMap, List.map_map, Function.comp_def, List.map_id']

/-- A scan finds the identifiers that are spelled like the symbol and meet the range. -/
lemma mem_scanned {scanRange : Option ByteRange} {range : ByteRange} :
    range ∈ ((searchNames S.definition.symbol).flatMap fun n =>
        collectIdentOccurrences document n.1 scanRange) ↔
      ∃ leaf ∈ document.identLeaves, leaf.2 = range ∧
        leaf.1 ∈ (searchNames S.definition.symbol).map Prod.fst ∧ scanRange.all leaf.2.meets := by
  simp only [List.mem_flatMap, collectIdentOccurrences, List.mem_map, List.mem_filter,
    Bool.and_eq_true, decide_eq_true_eq]
  constructor
  · rintro ⟨n, hn, leaf, ⟨hleaf, hname, hmeets⟩, hrange⟩
    exact ⟨leaf, hleaf, hrange, ⟨n, hn, hname.symm⟩, hmeets⟩
  · rintro ⟨leaf, hleaf, hrange, ⟨n, hn, hname⟩, hmeets⟩
    exact ⟨n, hn, leaf, ⟨hleaf, hname.symm, hmeets⟩, hrange⟩

lemma nodup_scanned (h : document.WellFormed) (scanRange : Option ByteRange) :
    ((searchNames S.definition.symbol).flatMap fun n =>
      collectIdentOccurrences document n.1 scanRange).Nodup := by
  have hpairwise : (searchNames S.definition.symbol).Pairwise fun a b => a.1 ≠ b.1 :=
    List.pairwise_map.mp (nodup_searchNames _)
  refine List.nodup_flatMap.mpr ⟨fun n _ => ?_, hpairwise.imp fun {a b} hne => ?_⟩
  · exact h.distinct.sublist (List.filter_sublist.map Prod.snd)
  · refine List.disjoint_left.mpr fun range ha hb => hne ?_
    obtain ⟨leaf, hleaf, hrange⟩ := List.mem_map.mp ha
    obtain ⟨leaf', hleaf', hrange'⟩ := List.mem_map.mp hb
    rw [List.mem_filter, Bool.and_eq_true, decide_eq_true_eq] at hleaf hleaf'
    rw [← hleaf.2.1, ← hleaf'.2.1,
      h.eq_of_range hleaf.1 hleaf'.1 (hrange.trans hrange'.symm)]

lemma exactIn_iff_of_leftOut (hscan : S.scanRange uri = none) :
    S.ExactIn uri document ↔ ∀ leaf ∈ document.identLeaves, ¬S.Hit uri document leaf.2 := by
  have hcandidates : S.candidates uri document = [] := by
    rw [candidates, hscan]
    rfl
  constructor
  · intro hexact leaf hleaf hhit
    have hmem := (hexact.occurrences leaf.2 hhit).mpr (List.mem_map_of_mem hleaf)
    rw [hcandidates] at hmem
    cases hmem
  · intro hnone
    refine ⟨fun range hrange => ?_, ?_, fun range hhit => ?_⟩
    · rw [hcandidates] at hrange
      cases hrange
    · rw [reportedRanges, hcandidates]
      exact List.nodup_nil
    · rw [hcandidates]
      refine iff_of_false List.not_mem_nil fun hrange => ?_
      obtain ⟨leaf, hleaf, rfl⟩ := List.mem_map.mp hrange
      exact hnone leaf hleaf hhit

lemma exactIn_iff_of_indexed {scanRange : Option ByteRange}
    (hscan : S.scanRange uri = some scanRange)
    (hindexed : scanRange.isNone && S.db.identsIndexed uri) :
    S.ExactIn uri document ↔ S.IndexFits uri document := by
  have hperm := @candidates_perm S uri document _ hscan
  simp only [SymbolDb.collectCandidateRanges, if_pos hindexed] at hperm
  constructor
  · intro hexact
    refine ⟨fun range hrange => hexact.inside range (hperm.mem_iff.mpr hrange), ?_,
      fun range hhit => ?_⟩
    · exact (hperm.filter _).nodup_iff.mp hexact.once
    · rw [← hexact.occurrences range hhit, hperm.mem_iff, indexedRanges]
  · intro hfits
    refine ⟨fun range hrange => hfits.inside range (hperm.mem_iff.mp hrange), ?_,
      fun range hhit => ?_⟩
    · exact (hperm.filter _).nodup_iff.mpr hfits.once
    · rw [← hfits.occurrences range hhit, hperm.mem_iff, indexedRanges]

/-- A search through the text, or through an index that lists what the text has. -/
lemma exactIn_iff_of_text (h : document.WellFormed) {scanRange : Option ByteRange}
    (hscan : S.scanRange uri = some scanRange)
    (htext : ∀ name, S.db.collectCandidateRanges uri document name scanRange =
      collectIdentOccurrences document name scanRange) :
    S.ExactIn uri document ↔ ∀ leaf ∈ document.identLeaves, S.Hit uri document leaf.2 →
      leaf.1 ∈ (searchNames S.definition.symbol).map Prod.fst ∧ scanRange.all leaf.2.meets := by
  have hperm := @candidates_perm S uri document _ hscan
  simp only [htext] at hperm
  have hmem : ∀ range, range ∈ (S.candidates uri document).map Prod.fst ↔ _ :=
    fun range => hperm.mem_iff.trans mem_scanned
  constructor
  · intro hexact leaf hleaf hhit
    have hcandidate := (hexact.occurrences leaf.2 hhit).mpr (List.mem_map_of_mem hleaf)
    obtain ⟨leaf', hleaf', hrange, hspelled⟩ := (hmem leaf.2).mp hcandidate
    rwa [h.eq_of_range hleaf' hleaf hrange] at hspelled
  · intro hscanned
    refine ⟨fun range hrange => ?_, ?_, fun range hhit => ?_⟩
    · obtain ⟨leaf, hleaf, rfl, -⟩ := (hmem range).mp hrange
      exact h.inside leaf hleaf
    · exact (hperm.nodup_iff.mpr (nodup_scanned h scanRange)).filter _
    · rw [hmem]
      constructor
      · rintro ⟨leaf, hleaf, rfl, -⟩
        exact List.mem_map_of_mem hleaf
      · intro hrange
        obtain ⟨leaf, hleaf, rfl⟩ := List.mem_map.mp hrange
        exact ⟨leaf, hleaf, rfl, hscanned leaf hleaf hhit⟩

theorem exactIn_iff_covers (h : document.WellFormed) :
    S.ExactIn uri document ↔ S.Covers uri document := by
  unfold Covers
  cases hscan : S.scanRange uri with
  | none => exact exactIn_iff_of_leftOut hscan
  | some scanRange =>
    dsimp only
    split_ifs with hindexed
    · exact exactIn_iff_of_indexed hscan hindexed
    · exact exactIn_iff_of_text h hscan fun name => if_neg hindexed

end ReferenceSearch

/-- The identifier index has the document from this very text, in one of its layers only. -/
def SymbolDb.IndexedFrom (db : SymbolDb) (uri : String) (document : ParsedDocument) : Prop :=
  (db.workspace.docIdents.lookup uri = some (scanIdentOccurrences document) ∧
      db.base.docIdents.lookup uri = none) ∨
    (db.workspace.docIdents.lookup uri = none ∧
      db.base.docIdents.lookup uri = some (scanIdentOccurrences document))

lemma bucket_scanIdentOccurrences (document : ParsedDocument) (name : String) :
    (scanIdentOccurrences document).bucket name = collectIdentOccurrences document name none := by
  unfold scanIdentOccurrences collectIdentOccurrences
  induction document.identLeaves using List.reverseRecOn with
  | nil => rfl
  | append_singleton leaves leaf ih =>
    rw [List.foldl_append, List.foldl_cons, List.foldl_nil, BucketMap.bucket_push, ih,
      List.filter_append, List.map_append]
    by_cases hname : leaf.1 = name
    · simp [hname]
    · simp [hname, Ne.symm hname]

lemma SymbolDb.IndexedFrom.collectCandidateRanges {db : SymbolDb} {uri : String}
    {document : ParsedDocument} (h : db.IndexedFrom uri document) (name : String) :
    db.collectCandidateRanges uri document name none =
      collectIdentOccurrences document name none := by
  have hindexed : db.identsIndexed uri = true := by
    rcases h with ⟨hws, -⟩ | ⟨-, hbase⟩
    · simp [SymbolDb.identsIndexed, WorkspaceIndex.isIndexed, ← AList.lookup_isSome, hws]
    · simp [SymbolDb.identsIndexed, WorkspaceIndex.isIndexed, ← AList.lookup_isSome, hbase]
  rw [SymbolDb.collectCandidateRanges, hindexed, if_pos (by rfl), ← bucket_scanIdentOccurrences,
    SymbolDb.indexedRanges, BucketMap.bucket, WorkspaceIndex.identRangesInDoc,
    WorkspaceIndex.identRangesInDoc]
  rcases h with ⟨hws, hbase⟩ | ⟨hws, hbase⟩
  · rw [hws, hbase, Option.bind_some, Option.bind_none, Option.or_none]
  · rw [hws, hbase, Option.bind_some, Option.bind_none, Option.none_or]

namespace ReferenceSearch

variable {S : ReferenceSearch} {uri : String} {document : ParsedDocument}

/-- When the index has the text searched, only the narrowing can lose an occurrence. -/
theorem covers_iff_of_indexedFrom (h : document.WellFormed)
    (hindexed : S.db.identsIndexed uri → S.db.IndexedFrom uri document) :
    S.Covers uri document ↔ ∀ leaf ∈ document.identLeaves, S.Hit uri document leaf.2 →
      leaf.1 ∈ (searchNames S.definition.symbol).map Prod.fst ∧
        ∃ scanRange ∈ S.scanRange uri, scanRange.all leaf.2.meets := by
  rw [← exactIn_iff_covers h]
  cases hscan : S.scanRange uri with
  | none =>
    rw [exactIn_iff_of_leftOut hscan]
    simp
  | some scanRange =>
    have htext : ∀ name, S.db.collectCandidateRanges uri document name scanRange =
        collectIdentOccurrences document name scanRange := by
      intro name
      by_cases hfast : scanRange.isNone && S.db.identsIndexed uri
      · rw [Bool.and_eq_true, Option.isNone_iff_eq_none] at hfast
        rw [hfast.1]
        exact (hindexed hfast.2).collectCandidateRanges name
      · exact if_neg hfast
    rw [exactIn_iff_of_text h hscan htext]
    simp

end ReferenceSearch

namespace SymbolDb

variable {db : SymbolDb} {callDepth : Nat} {d : Definition} {decls : List Definition}

lemma nodup_allDeclarationsOf (h : (db.allDeclarationsOf callDepth d).value = some decls) :
    (decls.map definitionKey).Nodup := by
  cases hmember : logicalMember d.symbol with
  | none =>
    rw [value_allDeclarationsOf_none hmember] at h
    cases h
    exact List.nodup_singleton _
  | some m =>
    rw [value_allDeclarationsOf_some hmember, value_allMemberDeclarations, Option.map_map] at h
    obtain ⟨classBody, -, hdecls⟩ := Option.map_eq_some_iff.mp h
    have hnodup := nodup_keys_dedupDefinitions
      (classBody.toList ++ db.annotatedMembers m.1 m.2)
    rw [Function.comp_apply] at hdecls
    split_ifs at hdecls with hmem
    · rw [← hdecls]
      exact hnodup
    · rw [← hdecls, List.map_append, List.map_singleton]
      exact hnodup.append (List.nodup_singleton _) (List.disjoint_singleton.mpr hmem)

/-- The search from a definition whose declarations are known. -/
def search (db : SymbolDb) (R : NameResolution) (d : Definition)
    (definitionDocument : ParsedDocument) (documents : AList (fun _ : String => ParsedDocument))
    (includeDeclaration : Bool) (equiv : List Definition) : ReferenceSearch :=
  ⟨db, R, d, definitionDocument, documents, includeDeclaration, equiv⟩

/-- The search ends and is exact. -/
def FindsExactly (db : SymbolDb) (callDepth : Nat) (R : NameResolution) (d : Definition)
    (definitionDocument : ParsedDocument) (documents : AList (fun _ : String => ParsedDocument))
    (includeDeclaration : Bool) : Prop :=
  ∃ equiv references, (db.allDeclarationsOf callDepth d).value = some equiv ∧
    (db.findReferences callDepth R d definitionDocument
      (documents.entries.map fun s => (s.1, s.2)) includeDeclaration).value = some references ∧
    (db.search R d definitionDocument documents includeDeclaration equiv).Exact references

end SymbolDb

end WitcherScriptLanguage
