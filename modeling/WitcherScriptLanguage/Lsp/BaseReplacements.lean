import WitcherScriptLanguage.Library.BucketMap
import WitcherScriptLanguage.Lsp.BaseScripts

/-!
# Replacements of base scripts

`legacy_base_replacements` (`indexing/helpers.rs`) compares a legacy script with the base scripts
of the same file name only, which it finds in buckets. A legacy URI that ends in the relative path
of a base script has its file name, so the buckets lose no pair, and they keep the order of the
base scripts, so that the last base script that matches still wins.
-/

namespace WitcherScriptLanguage.BaseReplacements

open Library

variable (parseUrl : String → Option Url) (urls : FileUrls)

/-- The canonical form of a URI, or the URI itself where it cannot be parsed. -/
def canonicalOf (uri : String) : String :=
  match parseUrl uri with
  | some url => urls.canonicalUri url
  | none => uri

def baseByBasename (baseUris : List String) : BucketMap String String :=
  baseUris.foldl (fun m baseUri => match basenameOf baseUri with
    | some name => m.push name baseUri
    | none => m) ∅

/-- The suppressed base URIs, and the relative path that each legacy script replaces. -/
abbrev Replacements := Finset String × AList (fun _ : Url => String)

def compareWith (legacyUri : String) (acc : Replacements) (baseUri : String) : Replacements :=
  if legacyReplacesBase baseUri legacyUri then
    (insert baseUri acc.1, match relativeFromScripts baseUri with
      | some rel => acc.2.insert (canonicalOf parseUrl urls legacyUri) (String.ofList rel)
      | none => acc.2)
  else acc

def legacyBaseReplacements (baseUris legacyUris : List String) : Replacements :=
  legacyUris.foldl (fun acc legacyUri =>
    match (basenameOf legacyUri).bind (baseByBasename baseUris).lookup with
    | none => acc
    | some candidates => candidates.foldl (compareWith parseUrl urls legacyUri) acc) (∅, ∅)

lemma bucket_baseByBasename (baseUris : List String) (name : String) :
    (baseByBasename baseUris).bucket name =
      baseUris.filter fun baseUri => basenameOf baseUri = some name := by
  induction baseUris using List.reverseRecOn with
  | nil => rfl
  | append_singleton baseUris baseUri ih =>
    rw [baseByBasename, List.foldl_append, List.filter_append, ← ih]
    rw [List.foldl_cons, List.foldl_nil, ← baseByBasename]
    cases hname : basenameOf baseUri with
    | none => simp [hname]
    | some name' =>
      dsimp only
      rw [BucketMap.bucket_push]
      by_cases h : name = name'
      · simp [hname, h]
      · simp [hname, h, Ne.symm h]

lemma eq_append_of_afterLast {segment : List Char} : ∀ {l t : List Char},
    afterLast segment l = some t → ∃ pre, l = pre ++ (segment ++ t) := by
  intro l
  induction l with
  | nil =>
    intro t h
    cases h
  | cons c rest ih =>
    intro t h
    rw [afterLast, Option.or_eq_some_iff] at h
    obtain h | ⟨-, h⟩ := h
    · obtain ⟨pre, hpre⟩ := ih h
      exact ⟨c :: pre, by rw [hpre, List.cons_append]⟩
    · split_ifs at h with hbegins
      obtain ⟨t', ht'⟩ := List.isPrefixOf_iff_prefix.mp hbegins
      rw [← ht', List.drop_left] at h
      exact ⟨[], by rw [← ht', Option.some.inj h, List.nil_append]⟩

/-- The file name of a URI is read from what follows any of its slashes. -/
lemma basenameOf_of_toList {uri : String} {x t : List Char} (h : uri.toList = x ++ '/' :: t) :
    basenameOf uri = if (t.reverse.takeWhile (· ≠ '/')).isEmpty then none
      else some (String.ofList (t.reverse.takeWhile (· ≠ '/')).reverse) := by
  have hname : uri.toList.reverse.takeWhile (· ≠ '/') = t.reverse.takeWhile (· ≠ '/') := by
    rw [h, List.reverse_append, List.reverse_cons, List.append_assoc, List.singleton_append,
      List.takeWhile_append]
    split_ifs with hall
    · rw [(List.takeWhile_prefix _).eq_of_length hall]
      simp
    · rfl
  rw [basenameOf]
  simp only [hname, List.isEmpty_reverse]

lemma exists_relativeFromScripts {baseUri legacyUri : String}
    (h : legacyReplacesBase baseUri legacyUri = true) :
    ∃ tail, relativeFromScripts baseUri = some tail := by
  unfold legacyReplacesBase at h
  cases hrel : relativeFromScripts baseUri with
  | none => simp [hrel] at h
  | some tail => exact ⟨tail, rfl⟩

/-- A legacy script that replaces a base script has its file name. -/
lemma basenameOf_eq_of_replaces {baseUri legacyUri : String}
    (h : legacyReplacesBase baseUri legacyUri = true)
    (hlast : legacyUri.toList.getLast? ≠ some '/') :
    ∃ name, basenameOf baseUri = some name ∧ basenameOf legacyUri = some name := by
  obtain ⟨tail, hrel⟩ := exists_relativeFromScripts h
  rw [legacyReplacesBase, hrel] at h
  obtain ⟨pre, hlegacy⟩ := List.isSuffixOf_iff_suffix.mp h
  obtain ⟨pre', hbase⟩ := eq_append_of_afterLast hrel
  have hbase' : baseUri.toList = (pre' ++ "/scripts".toList) ++ '/' :: tail := by
    rw [hbase]
    simp
  -- the last character of the path is that of the legacy URI
  have hne : (tail.reverse.takeWhile (· ≠ '/')).isEmpty = false := by
    cases tail using List.reverseRecOn with
    | nil => exact absurd (by rw [← hlegacy, List.getLast?_concat]) hlast
    | append_singleton tail c =>
      have hc : c ≠ '/' := by
        rintro rfl
        exact hlast (by rw [← hlegacy, ← List.cons_append, ← List.append_assoc,
          List.getLast?_concat])
      simp [hc]
  rw [basenameOf_of_toList hbase', basenameOf_of_toList hlegacy.symm, hne]
  exact ⟨_, rfl, rfl⟩

/-- The last base script that a legacy script replaces. -/
def lastMatch (baseUris : List String) (legacyUri : String) : Option String :=
  (baseUris.filter (legacyReplacesBase · legacyUri)).getLast?

def relativePath (baseUri : String) : Option String :=
  (relativeFromScripts baseUri).map String.ofList

variable {parseUrl urls}

lemma mem_foldl_compareWith (legacyUri baseUri : String) (candidates : List String)
    (acc : Replacements) :
    baseUri ∈ (candidates.foldl (compareWith parseUrl urls legacyUri) acc).1 ↔
      baseUri ∈ acc.1 ∨ baseUri ∈ candidates.filter (legacyReplacesBase · legacyUri) := by
  induction candidates generalizing acc with
  | nil => simp
  | cons candidate candidates ih =>
    rw [List.foldl_cons, ih, compareWith]
    by_cases h : legacyReplacesBase candidate legacyUri = true
    · simp [h, or_assoc, or_left_comm]
    · simp [h]

lemma lookup_foldl_compareWith (legacyUri key : String) (candidates : List String)
    (acc : Replacements) :
    (candidates.foldl (compareWith parseUrl urls legacyUri) acc).2.lookup key =
      if canonicalOf parseUrl urls legacyUri = key then
        ((lastMatch candidates legacyUri).bind relativePath).or (acc.2.lookup key)
      else acc.2.lookup key := by
  induction candidates using List.reverseRecOn with
  | nil => simp [lastMatch]
  | append_singleton candidates candidate ih =>
    rw [List.foldl_append, List.foldl_cons, List.foldl_nil, compareWith]
    by_cases h : legacyReplacesBase candidate legacyUri = true
    · have hlast : lastMatch (candidates ++ [candidate]) legacyUri = some candidate := by
        simp [lastMatch, List.filter_append, h]
      obtain ⟨rel, hrel⟩ := exists_relativeFromScripts h
      rw [if_pos h, hlast, Option.bind_some, relativePath, hrel]
      dsimp only
      by_cases hkey : canonicalOf parseUrl urls legacyUri = key
      · rw [if_pos hkey, hkey, AList.lookup_insert]
        rfl
      · rw [if_neg hkey, AList.lookup_insert_ne (Ne.symm hkey), ih, if_neg hkey]
    · have hlast : lastMatch (candidates ++ [candidate]) legacyUri =
          lastMatch candidates legacyUri := by
        simp [lastMatch, List.filter_append, h]
      rw [if_neg h, ih, hlast]

/-- The candidates of the bucket, none where there is no bucket. -/
lemma foldl_candidates (baseUris : List String) (legacyUri : String) (acc : Replacements) :
    (match (basenameOf legacyUri).bind (baseByBasename baseUris).lookup with
      | none => acc
      | some candidates => candidates.foldl (compareWith parseUrl urls legacyUri) acc) =
    (baseUris.filter fun baseUri => (basenameOf baseUri).isSome &&
      basenameOf baseUri == basenameOf legacyUri).foldl
        (compareWith parseUrl urls legacyUri) acc := by
  cases hname : basenameOf legacyUri with
  | none =>
    have hnone : (baseUris.filter fun baseUri => (basenameOf baseUri).isSome &&
        basenameOf baseUri == none) = [] := by
      rw [List.filter_eq_nil_iff]
      intro baseUri _
      cases basenameOf baseUri <;> simp
    rw [hnone]
    rfl
  | some name =>
    have hfilter : (baseUris.filter fun baseUri => (basenameOf baseUri).isSome &&
        basenameOf baseUri == some name) = (baseByBasename baseUris).bucket name := by
      rw [bucket_baseByBasename]
      refine List.filter_congr fun baseUri _ => ?_
      cases basenameOf baseUri <;> simp [Bool.beq_eq_decide_eq]
    rw [hfilter, BucketMap.bucket, Option.bind_some]
    cases (baseByBasename baseUris).lookup name <;> rfl

/-- Among the candidates of the bucket a legacy script replaces all that it replaces. -/
lemma filter_candidates (baseUris : List String) {legacyUri : String}
    (hlast : legacyUri.toList.getLast? ≠ some '/') :
    (baseUris.filter fun baseUri => (basenameOf baseUri).isSome &&
      basenameOf baseUri == basenameOf legacyUri).filter (legacyReplacesBase · legacyUri) =
    baseUris.filter (legacyReplacesBase · legacyUri) := by
  rw [List.filter_filter]
  refine List.filter_congr fun baseUri _ => ?_
  by_cases h : legacyReplacesBase baseUri legacyUri = true
  · obtain ⟨name, hbase, hlegacy⟩ := basenameOf_eq_of_replaces h hlast
    simp [h, hbase, hlegacy]
  · simp [h]

/-- The buckets find what a comparison of every legacy script with every base script finds: a
base script is suppressed when some legacy script replaces it, and the path of a legacy script
is that of the last base script that it replaces. Legacy scripts of one canonical URI overwrite
each other. -/
theorem legacyBaseReplacements_eq_allPairs (baseUris legacyUris : List String)
    (hlast : ∀ legacyUri ∈ legacyUris, legacyUri.toList.getLast? ≠ some '/') :
    (∀ baseUri, baseUri ∈ (legacyBaseReplacements parseUrl urls baseUris legacyUris).1 ↔
      baseUri ∈ baseUris ∧
        ∃ legacyUri ∈ legacyUris, legacyReplacesBase baseUri legacyUri = true) ∧
    ∀ key, (legacyBaseReplacements parseUrl urls baseUris legacyUris).2.lookup key =
      (legacyUris.reverse.findSome? fun legacyUri =>
        if canonicalOf parseUrl urls legacyUri = key then lastMatch baseUris legacyUri
        else none).bind relativePath := by
  induction legacyUris using List.reverseRecOn with
  | nil => simp [legacyBaseReplacements]
  | append_singleton legacyUris legacyUri ih =>
    obtain ⟨ihskip, ihpath⟩ := ih fun uri huri => hlast uri (by simp [huri])
    have hcandidates := filter_candidates baseUris (hlast legacyUri (by simp))
    have hlastMatch : lastMatch (baseUris.filter fun baseUri => (basenameOf baseUri).isSome &&
        basenameOf baseUri == basenameOf legacyUri) legacyUri = lastMatch baseUris legacyUri := by
      rw [lastMatch, hcandidates, lastMatch]
    rw [legacyBaseReplacements, List.foldl_append, ← legacyBaseReplacements, List.foldl_cons,
      List.foldl_nil, foldl_candidates]
    constructor
    · intro baseUri
      rw [mem_foldl_compareWith, ihskip, hcandidates]
      simp only [List.mem_filter, List.mem_append, List.mem_singleton]
      constructor
      · rintro (⟨hbase, uri, huri, h⟩ | ⟨hbase, h⟩)
        · exact ⟨hbase, uri, .inl huri, h⟩
        · exact ⟨hbase, legacyUri, .inr rfl, h⟩
      · rintro ⟨hbase, uri, huri | rfl, h⟩
        · exact .inl ⟨hbase, uri, huri, h⟩
        · exact .inr ⟨hbase, h⟩
    · intro key
      rw [lookup_foldl_compareWith, ihpath, hlastMatch, List.reverse_append, List.reverse_singleton,
        List.singleton_append, List.findSome?_cons]
      by_cases hkey : canonicalOf parseUrl urls legacyUri = key
      · rw [if_pos hkey, if_pos hkey]
        cases hmatch : lastMatch baseUris legacyUri with
        | none => rfl
        | some baseUri =>
          have hreplaces := (List.mem_filter.mp (List.mem_of_getLast? hmatch)).2
          obtain ⟨rel, hrel⟩ := exists_relativeFromScripts hreplaces
          simp [relativePath, hrel]
      · rw [if_neg hkey, if_neg hkey]

/-- URIs that name no file. -/
def plainUrls : FileUrls := ⟨fun _ => none, fun _ => none, fun _ _ h => by cases h⟩

/-- Of two base scripts with the same relative path the last one gives the replacement. -/
theorem legacyBaseReplacements_twoBases :
    (legacyBaseReplacements some plainUrls
      ["file:///g/scripts/a.ws", "file:///g/scripts/game/a.ws", "file:///h/scripts/a.ws"]
      ["file:///m/scripts/game/a.ws"]).2.lookup "file:///m/scripts/game/a.ws" = some "a.ws" :=
  ((legacyBaseReplacements_eq_allPairs _ _ (by decide)).2 _).trans (by decide)

/-- The pairing of the indexing machine suppresses the same base scripts. -/
theorem fst_legacyBaseReplacements (baseUris legacyUris : List String) :
    (legacyBaseReplacements parseUrl urls baseUris legacyUris).1 =
      WitcherScriptLanguage.legacyBaseReplacements baseUris legacyUris := by
  induction legacyUris using List.reverseRecOn with
  | nil => rfl
  | append_singleton legacyUris legacyUri ih =>
    rw [legacyBaseReplacements, List.foldl_append, ← legacyBaseReplacements, List.foldl_cons,
      List.foldl_nil, foldl_candidates]
    ext baseUri
    rw [mem_foldl_compareWith, ih, List.filter_filter]
    simp [WitcherScriptLanguage.legacyBaseReplacements, Bool.and_comm]

end WitcherScriptLanguage.BaseReplacements
