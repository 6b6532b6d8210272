import Mathlib.Data.Finset.Basic
import Mathlib.Data.List.Perm.Basic
import WitcherScriptLanguage.Library.TextSearch
import WitcherScriptLanguage.Resolve.WorkspaceIndex
import WitcherScriptLanguage.Types.Annotation

/-!
# Workspace symbol search

`workspace_symbols` (`resolve/workspace_symbols.rs`) scores the document symbols of several
indexes against a query, sorts them and keeps the best ones. Names and queries are compared as
UTF-8 bytes, with ASCII letters folded to lower case. What the search is for is said first: the
symbols that match, by rank, tier and name.
-/

namespace WitcherScriptLanguage

open Library

def SymbolKind.isOutline (k : SymbolKind) : Bool := !(k = .variable || k = .parameter)

namespace SymbolSearch

def utf8Bytes (text : List Char) : List UInt8 := text.flatMap String.utf8EncodeChar

def toAsciiLowercase (b : UInt8) : UInt8 := if 65 ≤ b && b ≤ 90 then b + 32 else b

def eqIgnoreAsciiCase (a b : List UInt8) : Bool :=
  a.map toAsciiLowercase == b.map toAsciiLowercase

inductive MatchRank
  | subsequenceMatch
  | substringMatch
  | prefixMatch
  | exactMatch
  deriving DecidableEq, Repr

/-- The order in which the ranks are declared. -/
def MatchRank.level : MatchRank → Nat
  | .subsequenceMatch => 0
  | .substringMatch => 1
  | .prefixMatch => 2
  | .exactMatch => 3

def asciiContainsCi (haystack needle : List UInt8) : Bool :=
  needle.length ≤ haystack.length &&
    (TextSearch.windows needle.length haystack).any (eqIgnoreAsciiCase · needle)

def asciiSubsequenceCi (haystack needle : List UInt8) : Bool :=
  TextSearch.matchedFrom toAsciiLowercase needle 0 haystack == needle.length

def matchRank (name query : List UInt8) : Option MatchRank :=
  if eqIgnoreAsciiCase name query then some .exactMatch
  else if query.length ≤ name.length && eqIgnoreAsciiCase (name.take query.length) query then
    some .prefixMatch
  else if asciiContainsCi name query then some .substringMatch
  else if asciiSubsequenceCi name query then some .subsequenceMatch
  else none

/-- A document symbol with the place of its index in the order of priority. -/
structure Candidate where
  tier : Nat
  uri : String
  symbol : Symbol

def Candidate.definition (c : Candidate) : Definition := ⟨c.uri, c.symbol⟩

def Candidate.name (c : Candidate) : List UInt8 := utf8Bytes c.symbol.name.toList

def scoreSymbol (query : List UInt8) (tier : Nat) (uri : String) (symbol : Symbol) :
    Option (MatchRank × Candidate) :=
  if !symbol.kind.isOutline || symbol.name.toList.isEmpty then none
  else (matchRank (utf8Bytes symbol.name.toList) query).map fun rank => (rank, ⟨tier, uri, symbol⟩)

def isSuppressed (suppressed : Option (Finset String)) (uri : String) : Bool :=
  suppressed.any fun uris => uri ∈ uris

def scoredSymbols (indexes : List WorkspaceIndex) (query : List UInt8)
    (suppressed : Option (Finset String)) : List (MatchRank × Candidate) :=
  indexes.zipIdx.flatMap fun i => i.1.documents.entries.flatMap fun d =>
    if isSuppressed suppressed d.1 then [] else d.2.filterMap (scoreSymbol query i.2 d.1)

def compareScored (a b : MatchRank × Candidate) : Ordering :=
  (((compare b.1.level a.1.level).then (compare a.2.tier b.2.tier)).then
    (compare a.2.name.length b.2.name.length)).then (compare a.2.name b.2.name)

def workspaceSymbols (indexes : List WorkspaceIndex) (query : String) (limit : Nat)
    (suppressed : Option (Finset String)) : List Definition :=
  let query := trim query.toList
  if query.isEmpty then []
  else
    let scored := (scoredSymbols indexes (utf8Bytes query) suppressed).mergeSort
      fun a b => (compareScored a b).isLE
    (scored.take limit).map fun entry => entry.2.definition

/-- A text with its ASCII letters in lower case. -/
def folded (text : List Char) : List UInt8 := (utf8Bytes text).map toAsciiLowercase

/-- The trimmed query is no empty text, and a subsequence of the name. -/
def Matches (query name : String) : Prop :=
  trim query.toList ≠ [] ∧ (folded (trim query.toList)).Sublist (folded name.toList)

instance (query name : String) : Decidable (Matches query name) :=
  inferInstanceAs (Decidable (_ ∧ _))

def rankOf (query name : String) : MatchRank :=
  if folded name.toList = folded (trim query.toList) then .exactMatch
  else if folded (trim query.toList) <+: folded name.toList then .prefixMatch
  else if folded (trim query.toList) <:+: folded name.toList then .substringMatch
  else .subsequenceMatch

/-- The document symbols of the files that are not suppressed. -/
def outlineSymbols (indexes : List WorkspaceIndex) (suppressed : Option (Finset String)) :
    List Candidate :=
  indexes.zipIdx.flatMap fun i => i.1.documents.entries.flatMap fun d =>
    if isSuppressed suppressed d.1 then []
    else (d.2.filter (·.kind.isOutline)).map fun symbol => ⟨i.2, d.1, symbol⟩

def matchingSymbols (indexes : List WorkspaceIndex) (query : String)
    (suppressed : Option (Finset String)) : List Candidate :=
  (outlineSymbols indexes suppressed).filter fun c => Matches query c.symbol.name

/-- What the order of the results looks at. -/
structure SortKey where
  rank : MatchRank
  tier : Nat
  name : List UInt8

def sortKey (query : String) (c : Candidate) : SortKey :=
  ⟨rankOf query c.symbol.name, c.tier, c.name⟩

/-- Better ranks first, then earlier indexes, then shorter names, then names in byte order. -/
def SortKey.NotAfter (a b : SortKey) : Prop :=
  b.rank.level < a.rank.level ∨ b.rank.level = a.rank.level ∧
    (a.tier < b.tier ∨ a.tier = b.tier ∧
      (a.name.length < b.name.length ∨ a.name.length = b.name.length ∧
        (compare a.name b.name).isLE))

lemma utf8Bytes_ne_nil {text : List Char} (h : text ≠ []) : utf8Bytes text ≠ [] := by
  cases text with
  | nil => exact absurd rfl h
  | cons c rest =>
    have hpos := c.utf8Size_pos
    rw [← String.length_utf8EncodeChar, List.length_pos_iff] at hpos
    simp [utf8Bytes, hpos]

lemma eqIgnoreAsciiCase_iff {a b : List UInt8} :
    eqIgnoreAsciiCase a b = true ↔ a.map toAsciiLowercase = b.map toAsciiLowercase :=
  beq_iff_eq

lemma prefix_iff {name query : List UInt8} :
    (query.length ≤ name.length && eqIgnoreAsciiCase (name.take query.length) query) = true ↔
      query.map toAsciiLowercase <+: name.map toAsciiLowercase := by
  rw [Bool.and_eq_true, decide_eq_true_iff, eqIgnoreAsciiCase_iff, List.prefix_iff_eq_take,
    List.length_map, ← List.map_take]
  constructor
  · exact fun h => h.2.symm
  · intro h
    have hlength := congrArg List.length h
    rw [List.length_map, List.length_map, List.length_take] at hlength
    exact ⟨by omega, h.symm⟩

lemma asciiContainsCi_iff {name query : List UInt8} (hne : query ≠ []) :
    asciiContainsCi name query = true ↔
      query.map toAsciiLowercase <:+: name.map toAsciiLowercase := by
  rw [asciiContainsCi, Bool.and_eq_true, List.any_eq_true]
  simp only [eqIgnoreAsciiCase_iff]
  rw [TextSearch.exists_window_iff toAsciiLowercase hne, decide_eq_true_iff]
  refine and_iff_right_of_imp fun h => ?_
  have hlength := h.length_le
  rwa [List.length_map, List.length_map] at hlength

lemma asciiSubsequenceCi_iff {name query : List UInt8} :
    asciiSubsequenceCi name query = true ↔
      (query.map toAsciiLowercase).Sublist (name.map toAsciiLowercase) := by
  rw [asciiSubsequenceCi, beq_iff_eq,
    TextSearch.matchedFrom_eq_length_iff _ _ (Nat.zero_le _), List.drop_zero]

/-- The classification loops agree with the declared notions. -/
lemma matchRank_eq {query : String} (hne : trim query.toList ≠ []) (name : String) :
    matchRank (utf8Bytes name.toList) (utf8Bytes (trim query.toList)) =
      if Matches query name then some (rankOf query name) else none := by
  have hbytes := utf8Bytes_ne_nil hne
  unfold matchRank
  simp only [eqIgnoreAsciiCase_iff, prefix_iff, asciiContainsCi_iff hbytes,
    asciiSubsequenceCi_iff]
  rw [← folded, ← folded]
  unfold rankOf
  by_cases hsublist : (folded (trim query.toList)).Sublist (folded name.toList)
  · have hmatches : Matches query name := ⟨hne, hsublist⟩
    rw [if_pos hmatches]
    split_ifs <;> rfl
  · have hmatches : ¬ Matches query name := fun h => hsublist h.2
    have hexact : folded name.toList ≠ folded (trim query.toList) := fun h =>
      hsublist (h ▸ List.Sublist.refl _)
    have hbegins : ¬ folded (trim query.toList) <+: folded name.toList := fun h =>
      hsublist h.sublist
    have hinfix : ¬ folded (trim query.toList) <:+: folded name.toList := fun h =>
      hsublist h.sublist
    rw [if_neg hmatches, if_neg hexact, if_neg hbegins, if_neg hinfix, if_neg hsublist]

lemma not_matches_of_isEmpty {query : String} {name : String} (h : name.toList.isEmpty = true) :
    ¬ Matches query name := by
  rintro ⟨hne, hsublist⟩
  rw [List.isEmpty_iff.mp h] at hsublist
  have hnil : folded (trim query.toList) = [] := List.sublist_nil.mp hsublist
  exact utf8Bytes_ne_nil hne (List.map_eq_nil_iff.mp hnil)

lemma scoreSymbol_eq {query : String} (hne : trim query.toList ≠ []) (tier : Nat) (uri : String)
    (symbol : Symbol) : scoreSymbol (utf8Bytes (trim query.toList)) tier uri symbol =
      if symbol.kind.isOutline ∧ Matches query symbol.name then
        some (rankOf query symbol.name, ⟨tier, uri, symbol⟩)
      else none := by
  rw [scoreSymbol, matchRank_eq hne]
  by_cases houtline : symbol.kind.isOutline = true
  · by_cases hempty : symbol.name.toList.isEmpty = true
    · simp [hempty, not_matches_of_isEmpty hempty]
    · by_cases hmatches : Matches query symbol.name
      · simp [houtline, hempty, hmatches]
      · simp [hmatches]
  · simp [houtline]

/-- The scored symbols are the matching ones, with their ranks. -/
lemma scoredSymbols_eq {query : String} (hne : trim query.toList ≠ [])
    (indexes : List WorkspaceIndex) (suppressed : Option (Finset String)) :
    scoredSymbols indexes (utf8Bytes (trim query.toList)) suppressed =
      (matchingSymbols indexes query suppressed).map
        fun c => (rankOf query c.symbol.name, c) := by
  have hdocument : ∀ (tier : Nat) (uri : String) (symbols : List Symbol),
      symbols.filterMap (scoreSymbol (utf8Bytes (trim query.toList)) tier uri) =
        ((((symbols.filter (·.kind.isOutline)).map fun symbol =>
          (⟨tier, uri, symbol⟩ : Candidate)).filter fun c => Matches query c.symbol.name).map
            fun c => (rankOf query c.symbol.name, c)) := by
    intro tier uri symbols
    induction symbols with
    | nil => rfl
    | cons symbol symbols ih =>
      rw [List.filterMap_cons, scoreSymbol_eq hne, ih]
      by_cases houtline : symbol.kind.isOutline = true
      · by_cases hmatches : Matches query symbol.name
        · simp [houtline, hmatches]
        · simp [houtline, hmatches]
      · simp [houtline]
  unfold scoredSymbols matchingSymbols outlineSymbols
  rw [List.filter_flatMap, List.map_flatMap]
  refine congrArg (List.flatMap · _) (funext fun i => ?_)
  rw [List.filter_flatMap, List.map_flatMap]
  refine congrArg (List.flatMap · _) (funext fun d => ?_)
  split_ifs
  · rfl
  · exact hdocument i.2 d.1 d.2

/-- The comparison of the source, on the keys. -/
def SortKey.cmp (a b : SortKey) : Ordering :=
  (((compare b.rank.level a.rank.level).then (compare a.tier b.tier)).then
    (compare a.name.length b.name.length)).then (compare a.name b.name)

instance : Std.TransCmp SortKey.cmp :=
  inferInstanceAs (Std.TransCmp (compareLex (compareLex (compareLex
    (fun a b : SortKey => compareOn (fun k : SortKey => k.rank.level) b a)
    (compareOn SortKey.tier)) (compareOn fun k => k.name.length)) (compareOn SortKey.name)))

lemma SortKey.isLE_cmp_iff (a b : SortKey) : (a.cmp b).isLE = true ↔ a.NotAfter b := by
  unfold SortKey.cmp SortKey.NotAfter
  simp only [Ordering.isLE_then_iff_or, Ordering.then_eq_lt, Ordering.then_eq_eq,
    Nat.compare_eq_lt, Nat.compare_eq_eq]
  tauto

lemma MatchRank.eq_of_level_eq {a b : MatchRank} (h : a.level = b.level) : a = b := by
  cases a <;> cases b <;> first | rfl | cases h

/-- Keys that come neither before nor after each other are equal. -/
lemma SortKey.eq_of_notAfter {a b : SortKey} (hab : a.NotAfter b) (hba : b.NotAfter a) : a = b := by
  rw [← SortKey.isLE_cmp_iff] at hab hba
  have heq := Std.OrientedCmp.isLE_antisymm hab hba
  unfold SortKey.cmp at heq
  simp only [Ordering.then_eq_eq, Std.compare_eq_iff_eq] at heq
  obtain ⟨⟨⟨hrank, htier⟩, -⟩, hname⟩ := heq
  cases a
  cases b
  simp only [SortKey.mk.injEq]
  exact ⟨MatchRank.eq_of_level_eq hrank.symm, htier, hname⟩

/-- The sorted scores are sorted by the keys. -/
lemma sortedScores (query : String) (candidates : List Candidate) :
    ∃ sorted : List Candidate, sorted.Perm candidates ∧
      sorted.Pairwise (fun a b => (sortKey query a).NotAfter (sortKey query b)) ∧
      ((candidates.map fun c => (rankOf query c.symbol.name, c)).mergeSort
        fun a b => (compareScored a b).isLE).map Prod.snd = sorted := by
  let scored := candidates.map fun c => (rankOf query c.symbol.name, c)
  let le := fun a b : MatchRank × Candidate => (compareScored a b).isLE
  have hperm : (scored.mergeSort le).Perm scored := List.mergeSort_perm scored le
  -- the comparison is that of the keys which the ranks and candidates make up
  let key : MatchRank × Candidate → SortKey := fun e => ⟨e.1, e.2.tier, e.2.name⟩
  have hkey : ∀ a b, compareScored a b = (key a).cmp (key b) := fun _ _ => rfl
  have hpairwise : (scored.mergeSort le).Pairwise fun a b => le a b = true := by
    refine List.pairwise_mergeSort (fun a b c hab hbc => ?_) (fun a b => ?_) scored
    · simp only [le, hkey] at hab hbc ⊢
      exact Std.TransCmp.isLE_trans hab hbc
    · simp only [le, hkey, Bool.or_eq_true]
      cases h : ((key a).cmp (key b)).isLE with
      | true => exact .inl rfl
      | false =>
        have hswap : (key b).cmp (key a) = ((key a).cmp (key b)).swap :=
          Std.OrientedCmp.eq_swap
        right
        rw [hswap]
        cases hcmp : (key a).cmp (key b) <;> simp [hcmp] at h ⊢
  have hmem : ∀ e ∈ scored.mergeSort le, key e = sortKey query e.2 := by
    intro e he
    obtain ⟨c, -, rfl⟩ := List.mem_map.mp (hperm.mem_iff.mp he)
    rfl
  refine ⟨_, ?_, ?_, rfl⟩
  · have h := hperm.map Prod.snd
    rwa [List.map_map, show (Prod.snd ∘ fun c : Candidate => (rankOf query c.symbol.name, c)) = id
      from rfl, List.map_id] at h
  · rw [List.pairwise_map]
    refine hpairwise.imp_of_mem fun {a b} ha hb hab => ?_
    rw [← hmem a ha, ← hmem b hb, ← SortKey.isLE_cmp_iff]
    exact hab

/-- The keys of two sorted arrangements of the same candidates agree position by position. -/
lemma sortKeys_unique {query : String} {l l' : List Candidate} (hperm : l.Perm l')
    (hl : l.Pairwise fun a b => (sortKey query a).NotAfter (sortKey query b))
    (hl' : l'.Pairwise fun a b => (sortKey query a).NotAfter (sortKey query b)) :
    l.map (sortKey query) = l'.map (sortKey query) :=
  List.Perm.eq_of_pairwise (fun _ _ _ _ => SortKey.eq_of_notAfter)
    (List.pairwise_map.mpr hl) (List.pairwise_map.mpr hl') (hperm.map _)

/-- The search returns the first symbols of a sorted arrangement of all the matching ones, and
every sorted arrangement has the same ranks, tiers and names in the same places. A symbol is
ranked just when the trimmed query is a subsequence of its name. -/
theorem workspaceSymbols_exact (indexes : List WorkspaceIndex) (query : String) (limit : Nat)
    (suppressed : Option (Finset String)) :
    (∃ sorted : List Candidate, sorted.Perm (matchingSymbols indexes query suppressed) ∧
      sorted.Pairwise (fun a b => (sortKey query a).NotAfter (sortKey query b)) ∧
      workspaceSymbols indexes query limit suppressed =
        (sorted.take limit).map Candidate.definition ∧
      ∀ other : List Candidate, other.Perm (matchingSymbols indexes query suppressed) →
        other.Pairwise (fun a b => (sortKey query a).NotAfter (sortKey query b)) →
        (other.take limit).map (sortKey query) = (sorted.take limit).map (sortKey query)) ∧
    ∀ name : String, trim query.toList ≠ [] →
      matchRank (utf8Bytes name.toList) (utf8Bytes (trim query.toList)) =
        if (folded (trim query.toList)).Sublist (folded name.toList) then
          some (rankOf query name) else none := by
  constructor
  · obtain ⟨sorted, hperm, hpairwise, hscores⟩ :=
      sortedScores query (matchingSymbols indexes query suppressed)
    refine ⟨sorted, hperm, hpairwise, ?_, fun other hother hpairwise' => ?_⟩
    · unfold workspaceSymbols
      dsimp only
      split_ifs with hempty
      · have hnone : matchingSymbols indexes query suppressed = [] := by
          refine List.filter_eq_nil_iff.mpr fun c _ => ?_
          simp [Matches, List.isEmpty_iff.mp hempty]
        rw [hnone] at hperm
        rw [hperm.eq_nil, List.take_nil, List.map_nil]
      · rw [scoredSymbols_eq (mt List.isEmpty_iff.mpr hempty), ← hscores, ← List.map_take,
          List.map_map]
        rfl
    · have hkeys := sortKeys_unique (hother.trans hperm.symm) hpairwise' hpairwise
      rw [List.map_take, List.map_take, hkeys]
  · intro name hne
    rw [matchRank_eq hne]
    simp [Matches, hne]

/-- The symbol table of `class A {}`. -/
def classADocument : ParsedDocument where
  source := "class A \x7b\x7d"
  symbols := [
    { id := ⟨0⟩, name := "A", kind := .class, byteRange := ⟨0, 10⟩, selectionByteRange := ⟨6, 7⟩ }]
  identLeaves := [("A", ⟨6, 7⟩)]

/-- The empty query is a subsequence of every name, and finds nothing. -/
theorem not_found_emptyQuery :
    ¬ ∀ (indexes : List WorkspaceIndex) (query : String) (limit : Nat)
        (suppressed : Option (Finset String)),
      ∃ sorted : List Candidate, sorted.Perm ((outlineSymbols indexes suppressed).filter fun c =>
          (folded query.toList).Sublist (folded c.symbol.name.toList)) ∧
        workspaceSymbols indexes query limit suppressed =
          (sorted.take limit).map Candidate.definition := by
  intro h
  let H : Hasher := ⟨fun _ => 0, fun _ _ => 0, fun _ _ => 0⟩
  let index := (({} : WorkspaceIndex).updateDocument H "file:///a.ws" classADocument).2
  obtain ⟨sorted, hperm, hresult⟩ := h [index] "" 1 none
  have hempty : workspaceSymbols [index] "" 1 none = [] := rfl
  have hone : ((outlineSymbols [index] none).filter fun c =>
      (folded "".toList).Sublist (folded c.symbol.name.toList)).length = 1 := by decide
  have hlength := congrArg List.length hresult
  rw [hempty, List.length_map, List.length_take, hperm.length_eq, hone] at hlength
  exact absurd hlength (by decide)

end SymbolSearch

end WitcherScriptLanguage
