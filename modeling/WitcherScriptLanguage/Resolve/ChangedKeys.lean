import WitcherScriptLanguage.Resolve.IndexHistory

/-!
# The changed keys of a document

`apply_contribution` reports the outward keys whose hash differs between the last contribution of
a document and the next one (`resolve/workspace_index/subscribers.rs`). The hash of a key is the
exclusive or over its symbols and their parameters. Equal hashes cancel, so a change under a key
goes unreported exactly when it leaves the exclusive or as it was.
-/

namespace WitcherScriptLanguage

open Library

/-- The parameters of a symbol in their order. -/
def parametersOf (symbols : List Symbol) (id : SymbolId) : List Symbol :=
  symbols.filter fun s => s.kind = .parameter && s.container == some id

/-- The outward symbols of a key, each with its parameter list. -/
def surfaceUnder (symbols : List Symbol) (key : ObservedKey) :
    Multiset (SymbolFields × List SymbolFields) :=
  ((symbols.filter fun s => isOutwardVisible s && outwardKeyFor s == key).map
    fun s => (s.fields, (parametersOf symbols s.id).map Symbol.fields) : List _)

/-- What is hashed into the entry of a key. -/
inductive HashedEntry
  | symbol (fields : SymbolFields)
  | parameter (ordinal : UInt64) (fields : SymbolFields)
  deriving DecidableEq

def HashedEntry.hash (H : Hasher) : HashedEntry → UInt64
  | symbol fields => H.symbol fields
  | parameter ordinal fields => H.parameter ordinal fields

/-- The parameters with the keys of their callables; `seen` counts those of each callable. -/
def parameterEntries (symbols : List Symbol) :
    AList (fun _ : SymbolId => UInt64) → List Symbol → List (ObservedKey × HashedEntry)
  | _, [] => []
  | seen, s :: rest =>
    match s.container.bind (fun id => symbols[id.val]?) with
    | none => parameterEntries symbols seen rest
    | some callable =>
      let ordinal := (seen.lookup callable.id).getD 0
      (outwardKeyFor callable, .parameter ordinal s.fields) ::
        parameterEntries symbols (seen.insert callable.id (ordinal + 1)) rest

def hashedEntries (symbols : List Symbol) : List (ObservedKey × HashedEntry) :=
  ((symbols.filter isOutwardVisible).map fun s => (outwardKeyFor s, .symbol s.fields)) ++
    parameterEntries symbols ∅ (symbols.filter fun s => s.kind = .parameter)

def entriesUnder (symbols : List Symbol) (key : ObservedKey) : List HashedEntry :=
  ((hashedEntries symbols).filter fun e => e.1 = key).map Prod.snd

/-- The entry of a key after hashes were folded into it. -/
def foldedHash (before : Option UInt64) (hashes : List UInt64) : Option UInt64 :=
  match before, hashes with
  | none, [] => none
  | none, hashes => some (xorAll hashes)
  | some h, hashes => some (h ^^^ xorAll hashes)

lemma foldedHash_cons (before : Option UInt64) (hash : UInt64) (hashes : List UInt64) :
    foldedHash (some (match before with
      | some h => h ^^^ hash
      | none => hash)) hashes = foldedHash before (hash :: hashes) := by
  cases before with
  | none => rfl
  | some h =>
    rw [foldedHash, foldedHash, xorAll_cons, UInt64.xor_assoc]

lemma lookup_foldEntries (H : Hasher) (key : ObservedKey)
    (entries : List (ObservedKey × HashedEntry)) (out : OutwardHashes) :
    (entries.foldl (fun out e => OutwardHashes.fold out e.1 (e.2.hash H)) out).lookup key =
      foldedHash (out.lookup key)
        (((entries.filter fun e => e.1 = key).map Prod.snd).map (HashedEntry.hash H)) := by
  induction entries generalizing out with
  | nil =>
    cases hout : out.lookup key with
    | none => simp [foldedHash, hout]
    | some h => simp [foldedHash, hout, xorAll]
  | cons e rest ih =>
    rw [List.foldl_cons, ih]
    by_cases he : e.1 = key
    · have hhead : (OutwardHashes.fold out e.1 (e.2.hash H)).lookup key =
          some (match out.lookup key with
            | some h => h ^^^ e.2.hash H
            | none => e.2.hash H) := by
        unfold OutwardHashes.fold
        rw [he]
        refine (AList.lookup_insert _).trans ?_
        cases out.lookup key with
        | none => exact rfl
        | some h => exact rfl
      rw [hhead, foldedHash_cons, List.filter_cons_of_pos (by simpa using he), List.map_cons,
        List.map_cons]
    · rw [List.filter_cons_of_neg (by simpa using he), OutwardHashes.fold,
        AList.lookup_insert_ne (Ne.symm he)]

lemma fst_foldl_foldParameter (H : Hasher) (symbols params : List Symbol) (out : OutwardHashes)
    (seen : AList (fun _ : SymbolId => UInt64)) :
    (params.foldl (foldParameter H symbols) (out, seen)).1 =
      (parameterEntries symbols seen params).foldl
        (fun out e => OutwardHashes.fold out e.1 (e.2.hash H)) out := by
  induction params generalizing out seen with
  | nil => rfl
  | cons s rest ih =>
    rw [List.foldl_cons, foldParameter, parameterEntries]
    cases s.container.bind (fun id => symbols[id.val]?) with
    | none => exact ih out seen
    | some callable => exact ih _ _

lemma outwardHashMap_eq (H : Hasher) (symbols : List Symbol) : outwardHashMap H symbols =
    (hashedEntries symbols).foldl (fun out e => OutwardHashes.fold out e.1 (e.2.hash H)) ∅ := by
  have hsymbols : (symbols.filter isOutwardVisible).foldl
      (fun out s => OutwardHashes.fold out (outwardKeyFor s) (H.symbol s.fields)) ∅ =
      ((symbols.filter isOutwardVisible).map
        fun s => (outwardKeyFor s, HashedEntry.symbol s.fields)).foldl
          (fun out e => OutwardHashes.fold out e.1 (e.2.hash H)) ∅ := by
    rw [List.foldl_map]
    rfl
  rw [outwardHashMap, hsymbols, fst_foldl_foldParameter, ← List.foldl_append, hashedEntries]

/-- The hash of a key is the exclusive or over its entries. -/
theorem lookup_outwardHashMap (H : Hasher) (symbols : List Symbol) (key : ObservedKey) :
    (outwardHashMap H symbols).lookup key =
      foldedHash none ((entriesUnder symbols key).map (HashedEntry.hash H)) := by
  rw [outwardHashMap_eq, lookup_foldEntries, AList.lookup_empty]
  rfl

lemma lookup_eq_none_iff (H : Hasher) (symbols : List Symbol) (key : ObservedKey) :
    (outwardHashMap H symbols).lookup key = none ↔ entriesUnder symbols key = [] := by
  rw [lookup_outwardHashMap]
  cases entriesUnder symbols key with
  | nil => simp [foldedHash]
  | cons e rest => simp [foldedHash]

/-- Every outward symbol has an entry under its key. -/
lemma surfaceUnder_eq_zero {symbols : List Symbol} {key : ObservedKey}
    (h : entriesUnder symbols key = []) : surfaceUnder symbols key = 0 := by
  have hnone : (symbols.filter fun s => isOutwardVisible s && outwardKeyFor s == key) = [] := by
    rw [List.filter_eq_nil_iff]
    intro s hs hkey
    obtain ⟨hvisible, hkey⟩ := (Bool.and_eq_true _ _).mp hkey
    have hmem : (outwardKeyFor s, HashedEntry.symbol s.fields) ∈ hashedEntries symbols :=
      List.mem_append_left _ (List.mem_map_of_mem (List.mem_filter.mpr ⟨hs, hvisible⟩))
    have hunder : HashedEntry.symbol s.fields ∈ entriesUnder symbols key :=
      List.mem_map.mpr ⟨_, List.mem_filter.mpr ⟨hmem, by simpa using hkey⟩, rfl⟩
    rw [h] at hunder
    cases hunder
  rw [surfaceUnder, hnone]
  rfl

lemma mem_diffOutwardKeys {prev next : OutwardHashes} {key : ObservedKey} :
    key ∈ diffOutwardKeys (some prev) next ↔ prev.lookup key ≠ next.lookup key := by
  rw [diffOutwardKeys, List.mem_append, List.mem_filter, List.mem_filter, decide_eq_true_iff,
    decide_eq_true_iff]
  constructor
  · rintro (⟨-, hne⟩ | ⟨hprev, hnext⟩)
    · exact hne
    · intro heq
      have hsome := AList.lookup_isSome.mpr (AList.mem_keys.mpr hprev)
      rw [heq] at hsome
      exact hnext (AList.mem_keys.mp (AList.lookup_isSome.mp hsome))
  · intro hne
    by_cases hnext : key ∈ next.keys
    · exact Or.inl ⟨hnext, hne⟩
    · refine Or.inr ⟨?_, hnext⟩
      have hnone : next.lookup key = none :=
        AList.lookup_eq_none.mpr (fun h => hnext (AList.mem_keys.mp h))
      rw [hnone] at hne
      exact AList.mem_keys.mp (AList.lookup_isSome.mp (Option.isSome_iff_ne_none.mpr hne))

/-- Under the key both contributions have symbols, whose hashes add up to the same value. -/
structure Cancels (H : Hasher) (old new : List Symbol) (key : ObservedKey) : Prop where
  old_ne : entriesUnder old key ≠ []
  new_ne : entriesUnder new key ≠ []
  same : xorAll ((entriesUnder old key).map (HashedEntry.hash H)) =
    xorAll ((entriesUnder new key).map (HashedEntry.hash H))

lemma lookup_eq_iff (H : Hasher) {old new : List Symbol} {key : ObservedKey}
    (hdiffers : surfaceUnder old key ≠ surfaceUnder new key) :
    (outwardHashMap H old).lookup key = (outwardHashMap H new).lookup key ↔
      Cancels H old new key := by
  by_cases hold : entriesUnder old key = []
  · have hnew : entriesUnder new key ≠ [] := fun hnew =>
      hdiffers ((surfaceUnder_eq_zero hold).trans (surfaceUnder_eq_zero hnew).symm)
    rw [(lookup_eq_none_iff H old key).mpr hold]
    exact ⟨fun h => absurd ((lookup_eq_none_iff H new key).mp h.symm) hnew,
      fun h => absurd hold h.old_ne⟩
  · by_cases hnew : entriesUnder new key = []
    · rw [(lookup_eq_none_iff H new key).mpr hnew]
      exact ⟨fun h => absurd ((lookup_eq_none_iff H old key).mp h) hold,
        fun h => absurd hnew h.new_ne⟩
    · have hfolded : ∀ entries : List HashedEntry, entries ≠ [] →
          foldedHash none (entries.map (HashedEntry.hash H)) =
            some (xorAll (entries.map (HashedEntry.hash H))) := by
        intro entries hentries
        cases entries with
        | nil => exact absurd rfl hentries
        | cons e rest => rfl
      rw [lookup_outwardHashMap, lookup_outwardHashMap, hfolded _ hold, hfolded _ hnew,
        Option.some.injEq]
      exact ⟨fun h => ⟨hold, hnew, h⟩, fun h => h.same⟩

/-- A change under a key is reported unless the hashes cancel. -/
theorem mem_diffOutwardKeys_iff (H : Hasher) {old new : List Symbol} {key : ObservedKey}
    (hdiffers : surfaceUnder old key ≠ surfaceUnder new key) :
    key ∈ diffOutwardKeys (some (outwardHashMap H old)) (outwardHashMap H new) ↔
      ¬Cancels H old new key := by
  rw [mem_diffOutwardKeys, Ne, lookup_eq_iff H hdiffers]

/-- Two more equal entries leave the hash of a key as it was, whatever the hasher is. -/
theorem cancels_of_twice (H : Hasher) {old new : List Symbol} {key : ObservedKey}
    {e : HashedEntry} (hold : entriesUnder old key ≠ [])
    (hnew : (entriesUnder new key).Perm (e :: e :: entriesUnder old key)) :
    Cancels H old new key where
  old_ne := hold
  new_ne := fun hnil => by
    rw [hnil] at hnew
    exact List.cons_ne_nil _ _ hnew.nil_eq.symm
  same := by
    rw [xorAll_perm (hnew.map (HashedEntry.hash H)), List.map_cons, List.map_cons, xorAll_cons,
      xorAll_cons, ← UInt64.xor_assoc, UInt64.xor_self, UInt64.zero_xor]

/-- Single entries cancel only where the hasher does not tell them apart. -/
theorem not_cancels_of_single (H : Hasher) {old new : List Symbol} {key : ObservedKey}
    {e e' : HashedEntry} (hold : entriesUnder old key = [e]) (hnew : entriesUnder new key = [e'])
    (hne : e.hash H ≠ e'.hash H) : ¬Cancels H old new key := by
  intro hcancels
  have hsame := hcancels.same
  rw [hold, hnew] at hsame
  simp only [List.map_cons, List.map_nil, xorAll_cons] at hsame
  rw [show xorAll [] = 0 from rfl, UInt64.xor_zero, UInt64.xor_zero] at hsame
  exact hne hsame

/-- The contribution is that of a document. -/
def IndexOp.Computed (H : Hasher) : IndexOp → Prop
  | .apply uri c => ∃ document, c = WorkspaceIndex.computeContribution H uri document
  | _ => True

lemma docOutwardHashes_noteChangedKeys (ix : WorkspaceIndex) (keys : List ObservedKey) :
    (ix.noteChangedKeys keys).docOutwardHashes = ix.docOutwardHashes := by
  have h := congrArg WorkspaceIndex.docOutwardHashes
    (WorkspaceIndex.forgetCatalog_noteChangedKeys ix keys)
  exact h

lemma docOutwardHashes_removeFromIndices (ix : WorkspaceIndex) (uri : String) :
    (ix.removeFromIndices uri).docOutwardHashes = ix.docOutwardHashes := by
  rw [WorkspaceIndex.removeFromIndices_eq]

/-- The index remembers the outward hashes of the last contribution of every document. -/
theorem lookup_docOutwardHashes (H : Hasher) (ops : List IndexOp) (uri : String) :
    (runIndex H ops).docOutwardHashes.lookup uri =
      ((currentAfter H ops).lookup uri).map DocContribution.outward := by
  induction ops using List.reverseRecOn with
  | nil => rfl
  | append_singleton pre op ih =>
    rw [runIndex_concat, currentAfter_concat]
    have happly : ∀ u c, ((runIndex H pre).applyContribution u c).2.docOutwardHashes.lookup uri =
        (((currentAfter H pre).insert u c).lookup uri).map DocContribution.outward := by
      intro u c
      rw [WorkspaceIndex.applyContribution]
      dsimp only
      rw [docOutwardHashes_noteChangedKeys]
      dsimp only
      rw [docOutwardHashes_removeFromIndices]
      by_cases hu : uri = u
      · subst hu
        rw [AList.lookup_insert, AList.lookup_insert]
        rfl
      · rw [AList.lookup_insert_ne hu, AList.lookup_insert_ne hu, ih]
    cases op with
    | update u document => exact happly u _
    | apply u c => exact happly u c
    | remove u =>
      rw [IndexOp.step, IndexOp.track, WorkspaceIndex.removeDocument]
      dsimp only
      rw [docOutwardHashes_noteChangedKeys]
      dsimp only
      rw [docOutwardHashes_removeFromIndices]
      by_cases hu : uri = u
      · subst hu
        rw [AList.lookup_erase, AList.lookup_erase]
        rfl
      · rw [AList.lookup_erase_ne hu, AList.lookup_erase_ne hu, ih]
    | beginBulk => exact ih
    | endBulk =>
      have h := congrArg WorkspaceIndex.docOutwardHashes
        (WorkspaceIndex.forgetCatalog_endBulk (runIndex H pre))
      exact (congrArg (AList.lookup uri) h).trans ih

lemma exists_document_of_computed (H : Hasher) {ops : List IndexOp}
    (hops : ∀ op ∈ ops, op.Computed H) {uri : String} {c : DocContribution}
    (hc : (currentAfter H ops).lookup uri = some c) :
    ∃ document, c = WorkspaceIndex.computeContribution H uri document := by
  induction ops using List.reverseRecOn with
  | nil => cases hc
  | append_singleton pre op ih =>
    have hpre := ih fun o ho => hops o (List.mem_append_left _ ho)
    have hop := hops op (List.mem_append_right _ (List.mem_singleton_self op))
    rw [currentAfter_concat] at hc
    have hinsert : ∀ u c', (∃ document, c' = WorkspaceIndex.computeContribution H u document) →
        ((currentAfter H pre).insert u c').lookup uri = some c →
        ∃ document, c = WorkspaceIndex.computeContribution H uri document := by
      intro u c' hc' hlookup
      by_cases hu : uri = u
      · subst hu
        rw [AList.lookup_insert] at hlookup
        cases hlookup
        exact hc'
      · rw [AList.lookup_insert_ne hu] at hlookup
        exact hpre hlookup
    cases op with
    | update u document => exact hinsert u _ ⟨document, rfl⟩ hc
    | apply u c' => exact hinsert u c' hop hc
    | remove u =>
      rw [IndexOp.track] at hc
      by_cases hu : uri = u
      · subst hu
        rw [AList.lookup_erase] at hc
        cases hc
      · rw [AList.lookup_erase_ne hu] at hc
        exact hpre hc
    | beginBulk => exact hpre hc
    | endBulk => exact hpre hc

/-- Every key under which the two symbol tables differ is among the reported ones. -/
def ReportsChanges (old new : List Symbol) (reported : List ObservedKey) : Prop :=
  ∀ key, surfaceUnder old key ≠ surfaceUnder new key → key ∈ reported

/-- After any run, the next contribution of an indexed document reports all changed keys exactly
when the hashes cancel under none of them. -/
theorem updateDocument_reportsChanges_iff (H : Hasher) (ops : List IndexOp)
    (hops : ∀ op ∈ ops, op.Computed H) {uri : String} {c : DocContribution}
    (hc : (currentAfter H ops).lookup uri = some c) (document : ParsedDocument) :
    ReportsChanges c.symbols document.symbols
        ((runIndex H ops).updateDocument H uri document).1 ↔
      ∀ key, surfaceUnder c.symbols key ≠ surfaceUnder document.symbols key →
        ¬Cancels H c.symbols document.symbols key := by
  obtain ⟨previous, rfl⟩ := exists_document_of_computed H hops hc
  have hreported : ((runIndex H ops).updateDocument H uri document).1 =
      diffOutwardKeys (some (outwardHashMap H previous.symbols))
        (outwardHashMap H document.symbols) := by
    rw [WorkspaceIndex.updateDocument, WorkspaceIndex.applyContribution]
    dsimp only
    rw [docOutwardHashes_removeFromIndices, lookup_docOutwardHashes, hc]
    rfl
  rw [hreported, ReportsChanges]
  exact forall_congr' fun key => forall_congr' fun hdiffers => mem_diffOutwardKeys_iff H hdiffers

/-- The symbol table of `function f() {}`, declared `count` times. -/
def functionFDocument (count : Nat) : ParsedDocument where
  source := String.join (List.replicate count "function f() {}")
  symbols := (List.range count).map fun i =>
    { id := ⟨i⟩, name := "f", kind := .function, byteRange := ⟨15 * i, 15 * i + 15⟩,
      selectionByteRange := ⟨15 * i + 9, 15 * i + 10⟩ }
  identLeaves := (List.range count).map fun i => ("f", ⟨15 * i + 9, 15 * i + 10⟩)

/-- Different outward surfaces of the two tables have different hashes. -/
def Hasher.SeparatesIn (H : Hasher) (old new : List Symbol) : Prop :=
  ∀ s ∈ old ++ new, ∀ s' ∈ old ++ new, H.symbol s.fields = H.symbol s'.fields →
    s.fields = s'.fields

/-- Two more declarations of `f` cancel, so that the key of `f` goes unreported. -/
theorem not_reportsChanges_tripledFunction :
    ¬∀ (H : Hasher) (uri : String) (old new : ParsedDocument),
      H.SeparatesIn old.symbols new.symbols →
        ReportsChanges old.symbols new.symbols
          ((runIndex H [.update uri old]).updateDocument H uri new).1 := by
  intro h
  have hall := h ⟨fun _ => 7, fun _ _ => 0, fun _ _ => 0⟩ "file:///a.ws" (functionFDocument 1)
    (functionFDocument 3) (by unfold Hasher.SeparatesIn; decide) (.topLevel "f") (by decide)
  revert hall
  decide

/-- The removal of the only declaration of `f` is reported. -/
theorem updateDocument_reportsChanges_removedFunction :
    ReportsChanges (functionFDocument 1).symbols (functionFDocument 0).symbols
      ((runIndex ⟨fun _ => 7, fun _ _ => 0, fun _ _ => 0⟩
        [.update "file:///a.ws" (functionFDocument 1)]).updateDocument
          ⟨fun _ => 7, fun _ _ => 0, fun _ _ => 0⟩ "file:///a.ws" (functionFDocument 0)).1 :=
  (updateDocument_reportsChanges_iff _ [.update "file:///a.ws" (functionFDocument 1)]
    (by simp [IndexOp.Computed]) (c := WorkspaceIndex.computeContribution _ _ (functionFDocument 1))
    (AList.lookup_insert _) (functionFDocument 0)).mpr fun _ _ hcancels => hcancels.new_ne rfl

end WitcherScriptLanguage
