import WitcherScriptLanguage.Lsp.CstCache

/-!
# When the cache is fresh

An entry of the cache that a pull can hit is what the rules say on the present snapshot, or a
publication on its way evicts it. A publication keeps what the rules have read or reports a key of
it; the subscribers of that key include the entry, because the pull that committed the entry has
registered what it carried. A commit brings a result of an older snapshot, whose reads have to be
alike on the present one.
-/

namespace WitcherScriptLanguage

open Library

/-- The database behind edits of its checked index. -/
def RuleDb.edited (db : RuleDb) (edits : List IndexEdit) : RuleDb :=
  { db with symbols := { db.symbols with
      workspace := (applyIndexEdits edits db.symbols.workspace).2 } }

lemma RuleDb.edited_cons (db : RuleDb) (e : IndexEdit) (rest : List IndexEdit) :
    db.edited (e :: rest) = (db.change e.change).edited rest := by
  unfold edited
  rw [applyIndexEdits_cons]
  rfl

namespace Checker

variable {c : Checker} {db db' : RuleDb} {key : String} {document : ParsedDocument}
  {o : List WorkspaceDiagnostic × List ObservedKey}

/-- Each edit in turn tells what the rules read for the document before it. -/
def EditsTold (c : Checker) (key : String) (document : ParsedDocument) :
    RuleDb → List IndexEdit → Prop
  | _, [] => True
  | db, e :: rest => (∀ r ∈ c.asked db key document, r.Told db e.change e.collected) ∧
    EditsTold c key document (db.change e.change) rest

lemma collect_of_alike (halike : ∀ r ∈ c.asked db key document, r.Alike db db')
    (ho : collectCstDiagnostics c.rules c.callDepth db key document = some o) :
    collectCstDiagnostics c.rules c.callDepth db' key document = some o :=
  ReadTree.run_eq_of_covered (fun r hr => (halike r hr).covered c.callDepth) ho
    fun _ _ => List.not_mem_nil

/-- Edits that report no recorded key keep the diagnostics and the recorded keys. -/
lemma collect_of_editsTold {edits : List IndexEdit} (htold : c.EditsTold key document db edits)
    (ho : collectCstDiagnostics c.rules c.callDepth db key document = some o)
    (hunreported : ∀ k ∈ o.2, k ∉ (applyIndexEdits edits db.symbols.workspace).1) :
    collectCstDiagnostics c.rules c.callDepth (db.edited edits) key document = some o := by
  induction edits generalizing db with
  | nil => exact ho
  | cons e rest ih =>
    obtain ⟨hreads, hrest⟩ := htold
    rw [applyIndexEdits_cons] at hunreported
    rw [RuleDb.edited_cons]
    have hchanged := ReadTree.run_eq_of_covered (fun r hr => (hreads r hr).covered c.callDepth) ho
      fun k hk hreported => hunreported k hk (List.mem_append_left _ hreported)
    exact ih hrest hchanged fun k hk hreported =>
      hunreported k hk (List.mem_append_right _ hreported)

lemma presentDb_apply (edit : SnapshotEdit) (s : Snapshot) (key : String) :
    c.presentDb (edit.apply s) key =
      (c.ruleDb s (edit.rest s).baseLayer key).edited (edit.ofChecked (c.isLoose key)) := by
  unfold presentDb ruleDb RuleDb.edited checkedIndex SnapshotEdit.ofChecked
  cases c.isLoose key <;> rfl

lemma changedKeys_concerning (edit : SnapshotEdit) (s : Snapshot) (key : String) :
    (edit.changedKeys s).concerning (c.isLoose key) =
      (applyIndexEdits (edit.ofChecked (c.isLoose key)) (c.checkedIndex s key)).1 := by
  unfold ChangedKeys.concerning SnapshotEdit.changedKeys SnapshotEdit.ofChecked checkedIndex
  cases c.isLoose key <;> rfl

/-- A publication tells what the rules have read for the document: what it does to the base layer
leaves their reads alike, and each edit of the checked index keeps them or reports a key. -/
structure SwapTold (c : Checker) (s : Snapshot) (edit : SnapshotEdit) (key : String)
    (document : ParsedDocument) : Prop where
  base : ∀ r ∈ c.asked (c.presentDb s key) key document,
    r.Alike (c.presentDb s key) (c.ruleDb s (edit.rest s).baseLayer key)
  edits : c.EditsTold key document (c.ruleDb s (edit.rest s).baseLayer key)
    (edit.ofChecked (c.isLoose key))

lemma SwapTold.diagnose_apply {s : Snapshot} {edit : SnapshotEdit}
    (h : c.SwapTold s edit key document) (ho : c.diagnose s key document = some o)
    (hunreported : ∀ k ∈ o.2, k ∉ (edit.changedKeys s).concerning (c.isLoose key)) :
    c.diagnose (edit.apply s) key document = some o := by
  rw [changedKeys_concerning] at hunreported
  rw [diagnose, presentDb_apply]
  exact collect_of_editsTold h.edits (collect_of_alike h.base ho) hunreported

end Checker

/-- The publication evicts a document with these observations, or will find it among the
subscribers of a key that it has reported. -/
def Publish.Condemns (p : Publish) (c : Checker) (key : String)
    (observations : List ObservedKey) : Prop :=
  match p.stage with
  | .found uris => key ∈ uris
  | _ => ∃ k ∈ observations, k ∈ p.changed.concerning (c.isLoose key)

namespace CstServer

variable {c : Checker} {s s' : CstServer} {parsed : UInt64 → ParsedDocument}

lemma lookup_evictCacheEntries {cache : CstCache} {uris : List String} {key : String}
    {entry : CstCacheEntry} (h : (evictCacheEntries cache uris).lookup key = some entry) :
    key ∉ uris ∧ cache.lookup key = some entry := by
  induction uris generalizing cache with
  | nil => exact ⟨List.not_mem_nil, h⟩
  | cons uri uris ih =>
    obtain ⟨hnotMem, hlookup⟩ := ih h
    have hne : key ≠ uri := by
      rintro rfl
      rw [AList.lookup_erase] at hlookup
      cases hlookup
    rw [AList.lookup_erase_ne hne] at hlookup
    exact ⟨List.not_mem_cons_of_ne_of_not_mem hne hnotMem, hlookup⟩

lemma lookup_insertEntries_of_notMem {cache : CstCache} {entries : List (String × CstCacheEntry)}
    {key : String} (h : key ∉ entries.map (·.1)) :
    (insertEntries cache entries).lookup key = cache.lookup key := by
  induction entries generalizing cache with
  | nil => rfl
  | cons e entries ih =>
    rw [List.map_cons, List.mem_cons, not_or] at h
    exact (ih h.2).trans (AList.lookup_insert_ne h.1)

lemma lookup_insertEntries_of_mem {cache : CstCache} {entries : List (String × CstCacheEntry)}
    (hnodup : (entries.map (·.1)).Nodup) {e : String × CstCacheEntry} (h : e ∈ entries) :
    (insertEntries cache entries).lookup e.1 = some e.2 := by
  induction entries generalizing cache with
  | nil => cases h
  | cons e' entries ih =>
    rw [List.map_cons, List.nodup_cons] at hnodup
    rcases List.mem_cons.mp h with rfl | hmem
    · exact (lookup_insertEntries_of_notMem hnodup.1).trans (AList.lookup_insert _)
    · exact ih hnodup.2 hmem

/-- The cache has the entry for the document, under the fingerprint. -/
lemma isHit_iff {fingerprint : DbFingerprint} {e : String × ParsedDocument} :
    s.isHit fingerprint e ↔ ∃ entry, s.cache.lookup e.1 = some entry ∧
      entry.parseVersion = e.2.parseVersion ∧ entry.dbFingerprint = fingerprint := by
  unfold isHit
  cases s.cache.lookup e.1 with
  | none => simp
  | some entry => simp

/-- The registered keys of a document. -/
def subscription (c : Checker) (s : CstServer) (key : String) : Option (List ObservedKey) :=
  (if c.isLoose key then s.looseSubscriptions else s.workspaceSubscriptions).lookup key

lemma registerCstSubscriptions_frame (newSubscriptions : List (String × List ObservedKey)) :
    ∃ workspace loose, s.registerCstSubscriptions c newSubscriptions =
      { s with workspaceSubscriptions := workspace, looseSubscriptions := loose } := by
  induction newSubscriptions generalizing s with
  | nil => exact ⟨_, _, rfl⟩
  | cons e newSubscriptions ih =>
    rw [registerCstSubscriptions, List.foldl_cons]
    split_ifs
    · exact ih (s := { s with looseSubscriptions := s.looseSubscriptions.register e.1 e.2 })
    · exact ih (s := { s with
        workspaceSubscriptions := s.workspaceSubscriptions.register e.1 e.2 })

/-- The state behind the registration of one document. -/
lemma subscription_register (e : String × List ObservedKey) (key : String) :
    (s.registerCstSubscriptions c [e]).subscription c key =
      if key = e.1 then some e.2 else s.subscription c key := by
  unfold registerCstSubscriptions subscription
  simp only [List.foldl_cons, List.foldl_nil]
  by_cases hkey : key = e.1
  · subst hkey
    rw [if_pos rfl]
    cases c.isLoose e.1 <;> exact AList.lookup_insert _
  · rw [if_neg hkey]
    cases c.isLoose e.1 <;> cases c.isLoose key
    all_goals first | exact AList.lookup_insert_ne hkey | rfl

lemma subscription_registerCst_of_notMem {newSubscriptions : List (String × List ObservedKey)}
    {key : String} (h : key ∉ newSubscriptions.map (·.1)) :
    (s.registerCstSubscriptions c newSubscriptions).subscription c key =
      s.subscription c key := by
  induction newSubscriptions generalizing s with
  | nil => rfl
  | cons e newSubscriptions ih =>
    rw [List.map_cons, List.mem_cons, not_or] at h
    have hhead := subscription_register (c := c) (s := s) e key
    rw [if_neg h.1] at hhead
    exact (ih (s := s.registerCstSubscriptions c [e]) h.2).trans hhead

lemma subscription_registerCst_of_mem {newSubscriptions : List (String × List ObservedKey)}
    (hnodup : (newSubscriptions.map (·.1)).Nodup) {e : String × List ObservedKey}
    (h : e ∈ newSubscriptions) :
    (s.registerCstSubscriptions c newSubscriptions).subscription c e.1 = some e.2 := by
  induction newSubscriptions generalizing s with
  | nil => cases h
  | cons e' newSubscriptions ih =>
    rw [List.map_cons, List.nodup_cons] at hnodup
    rcases List.mem_cons.mp h with rfl | hmem
    · have hhead := subscription_register (c := c) (s := s) e e.1
      rw [if_pos rfl] at hhead
      exact (subscription_registerCst_of_notMem (s := s.registerCstSubscriptions c [e])
        hnodup.1).trans hhead
    · exact ih (s := s.registerCstSubscriptions c [e']) hnodup.2 hmem

lemma mem_subscribersOf {subscriptions : SubscriptionRegistry} {key : String}
    {observations keys : List ObservedKey} (h : subscriptions.lookup key = some observations)
    (hmeets : ∃ k ∈ observations, k ∈ keys) : key ∈ subscriptions.subscribersOf keys := by
  obtain ⟨k, hk, hkeys⟩ := hmeets
  refine List.mem_map.mpr ⟨⟨key, observations⟩, List.mem_filter.mpr
    ⟨AList.mem_lookup_iff.mp h, ?_⟩, rfl⟩
  exact List.any_eq_true.mpr ⟨k, hk, List.contains_iff_mem.mpr hkeys⟩

/-- A subscriber of a reported key is found. -/
lemma mem_invalidated {key : String} {observations : List ObservedKey} {changed : ChangedKeys}
    (h : s.subscription c key = some observations)
    (hmeets : ∃ k ∈ observations, k ∈ changed.concerning (c.isLoose key)) :
    key ∈ s.invalidated changed := by
  unfold subscription at h
  unfold ChangedKeys.concerning at hmeets
  cases hloose : c.isLoose key with
  | true =>
    rw [hloose] at h hmeets
    exact List.mem_append_right _ (mem_subscribersOf h hmeets)
  | false =>
    rw [hloose] at h hmeets
    exact List.mem_append_left _ (mem_subscribersOf h hmeets)

/-- A hit for a document of the snapshot is what the rules say of it now. -/
def NeverStale (c : Checker) (s : CstServer) : Prop :=
  ∀ e ∈ c.diagnosedDocuments s.snapshot, ∀ entry, s.cache.lookup e.1 = some entry →
    entry.parseVersion = e.2.parseVersion → entry.dbFingerprint = s.dbFingerprint s.snapshot →
    (c.diagnose s.snapshot e.1 e.2).map Prod.fst = some entry.diagnostics

/-- What a publication brings is parsed under versions of its own, and a document that the cache
answers for behind it was answered for before, and is told. -/
structure SwapSound (c : Checker) (parsed : UInt64 → ParsedDocument) (s : CstServer)
    (edit : SnapshotEdit) : Prop where
  parsed : ∀ e ∈ c.diagnosedDocuments (edit.apply s.snapshot), parsed e.2.parseVersion = e.2
  told : ∀ e ∈ c.diagnosedDocuments (edit.apply s.snapshot),
    s.isHit (s.dbFingerprint (edit.apply s.snapshot)) e →
      e ∈ c.diagnosedDocuments s.snapshot ∧
        s.dbFingerprint (edit.apply s.snapshot) = s.dbFingerprint s.snapshot ∧
        c.SwapTold s.snapshot edit e.1 e.2

/-- The pull has computed all that it missed, or nothing; no other pull has one of the documents
still to register; and on the present snapshot the rules read alike what they have read. -/
structure CommitSound (c : Checker) (s : CstServer) (computed : List String)
    (misses : List (String × ParsedDocument)) (snapshot : Snapshot) (fingerprint : DbFingerprint) :
    Prop where
  complete : (∀ e ∈ misses, e.1 ∈ computed) ∨ ∀ e ∈ misses, e.1 ∉ computed
  alone : ∀ p ∈ s.pulls, ∀ e ∈ misses, e.1 ∉ p.carried.map (·.1)
  alike : fingerprint = s.dbFingerprint s.snapshot →
    ∀ e ∈ misses, e ∈ c.diagnosedDocuments s.snapshot →
      ∀ r ∈ c.asked (c.presentDb snapshot e.1) e.1 e.2,
        r.Alike (c.presentDb snapshot e.1) (c.presentDb s.snapshot e.1)

/-- `parsed` is the document that was parsed under each version. -/
def Sound (c : Checker) (parsed : UInt64 → ParsedDocument) (s : CstServer) : Event → Prop
  | .swap edit _ => SwapSound c parsed s edit
  | .lookUpSubscribers _ => ∀ p ∈ s.pulls, p.carried = []
  | .rebuilt => ∀ key entry, s.cache.lookup key = some entry → entry.dbFingerprint ≠
    { s.dbFingerprint s.snapshot with legacyDbGeneration := s.legacyDbGeneration + 1 }
  | .commit i computed => ∀ p ∈ s.pulls[i]?, match p with
    | .missing _ misses snapshot fingerprint =>
      CommitSound c s computed misses snapshot fingerprint
    | _ => True
  | _ => True

/-! ### The invariant -/

/-- What the rules say of the document on the snapshot is what the entry holds. -/
def Current (c : Checker) (snapshot : Snapshot) (e : String × ParsedDocument)
    (entry : CstCacheEntry) : Prop :=
  c.diagnose snapshot e.1 e.2 = some (entry.diagnostics, entry.observations)

def Doomed (c : Checker) (publishes : List Publish) (key : String) (entry : CstCacheEntry) : Prop :=
  ∃ p ∈ publishes, p.Condemns c key entry.observations

/-- The documents of a pull, as its hash map holds them. -/
structure PullOk (parsed : UInt64 → ParsedDocument) (p : Pull) : Prop where
  keys : (p.documents.map (·.1)).Nodup
  parsed : ∀ e ∈ p.documents, parsed e.2.parseVersion = e.2

structure FreshInv (c : Checker) (parsed : UInt64 → ParsedDocument) (s : CstServer) : Prop where
  documents : ∀ e ∈ c.diagnosedDocuments s.snapshot, parsed e.2.parseVersion = e.2
  pulls : ∀ p ∈ s.pulls, PullOk parsed p
  fresh : ∀ e ∈ c.diagnosedDocuments s.snapshot, ∀ entry, s.cache.lookup e.1 = some entry →
    entry.parseVersion = e.2.parseVersion → entry.dbFingerprint = s.dbFingerprint s.snapshot →
    Current c s.snapshot e entry ∨ Doomed c s.publishes e.1 entry
  /-- The registry has the observations of each entry, or a pull carries them there. -/
  subscribed : ∀ key entry, s.cache.lookup key = some entry →
    s.subscription c key = some entry.observations ∨
      ∃ p ∈ s.pulls, (key, entry.observations) ∈ p.carried
  carriedKeys : ∀ p ∈ s.pulls, (p.carried.map (·.1)).Nodup
  /-- What a pull carries is what the entry in the cache observed. -/
  carried : ∀ p ∈ s.pulls, ∀ e ∈ p.carried, ∀ entry, s.cache.lookup e.1 = some entry →
    entry.observations = e.2

lemma FreshInv.initial {snapshot : Snapshot}
    (hparsed : ∀ e ∈ c.diagnosedDocuments snapshot, parsed e.2.parseVersion = e.2) :
    FreshInv c parsed { snapshot } where
  documents := hparsed
  pulls p hp := by cases hp
  fresh e he entry h := by cases h
  subscribed key entry h := by cases h
  carriedKeys p hp := by cases hp
  carried p hp := by cases hp

/-- Without a publication on its way, the invariant leaves no stale entry. -/
lemma FreshInv.neverStale (h : FreshInv c parsed s) (hquiet : s.publishes = []) :
    NeverStale c s := by
  intro e he entry hentry hversion hfingerprint
  rcases h.fresh e he entry hentry hversion hfingerprint with hcurrent | ⟨p, hp, -⟩
  · rw [show c.diagnose s.snapshot e.1 e.2 = _ from hcurrent, Option.map_some]
  · rw [hquiet] at hp
    cases hp

/-- Pulls that carry nothing may come, go on and end. -/
lemma FreshInv.withPulls (h : FreshInv c parsed s) {pulls : List Pull}
    (hok : ∀ p ∈ pulls, PullOk parsed p) (hold : ∀ p ∈ pulls, p.carried = [] ∨ p ∈ s.pulls)
    (hkept : ∀ p ∈ s.pulls, p.carried = [] ∨ p ∈ pulls) :
    FreshInv c parsed { s with pulls } where
  documents := h.documents
  pulls := hok
  fresh := h.fresh
  subscribed key entry hentry := by
    refine (h.subscribed key entry hentry).imp id ?_
    rintro ⟨p, hp, hcarried⟩
    rcases hkept p hp with hnone | hp'
    · rw [hnone] at hcarried
      cases hcarried
    · exact ⟨p, hp', hcarried⟩
  carriedKeys p hp := by
    rcases hold p hp with hnone | hp'
    · rw [hnone]
      exact List.nodup_nil
    · exact h.carriedKeys p hp'
  carried p hp e he := by
    rcases hold p hp with hnone | hp'
    · rw [hnone] at he
      cases he
    · exact h.carried p hp' e he

/-- A pull that carries nothing goes on with some of its documents. -/
lemma FreshInv.withPull (h : FreshInv c parsed s) {i : Nat} {p p' : Pull}
    (hp : s.pulls[i]? = some p) (hnone : p.carried = []) (hnone' : p'.carried = [])
    (hsub : p'.documents.Sublist p.documents) :
    FreshInv c parsed { s with pulls := s.pulls.set i p' } := by
  have hok := h.pulls p (List.mem_of_getElem? hp)
  refine h.withPulls (fun q hq => ?_) (fun q hq => ?_) fun q hq => ?_
  · rcases List.mem_or_eq_of_mem_set hq with hmem | rfl
    · exact h.pulls q hmem
    · exact ⟨hok.keys.sublist (hsub.map _), fun e he => hok.parsed e (hsub.subset he)⟩
  · rcases List.mem_or_eq_of_mem_set hq with hmem | rfl
    · exact .inr hmem
    · exact .inl hnone'
  · by_cases hqp : q = p
    · exact .inl (hqp ▸ hnone)
    · exact .inr (mem_set_of_ne p' hq hp hqp)

lemma FreshInv.withoutPull (h : FreshInv c parsed s) {i : Nat} {p : Pull}
    (hp : s.pulls[i]? = some p) (hnone : p.carried = []) :
    FreshInv c parsed { s with pulls := s.pulls.eraseIdx i } := by
  refine h.withPulls (fun q hq => h.pulls q (List.mem_of_mem_eraseIdx hq))
    (fun q hq => .inr (List.mem_of_mem_eraseIdx hq)) fun q hq => ?_
  by_cases hqp : q = p
  · exact .inl (hqp ▸ hnone)
  · exact .inr (mem_eraseIdx_of_ne hq hp hqp)

lemma FreshInv.startPull (h : FreshInv c parsed s) {version : Nat}
    {documents : List (String × ParsedDocument)} (hkeys : (documents.map (·.1)).Nodup)
    (hdocuments : documents ⊆ c.diagnosedDocuments s.snapshot) :
    FreshInv c parsed { s with pulls := s.pulls ++ [.started version documents] } := by
  refine h.withPulls (fun p hp => ?_) (fun p hp => ?_) fun p hp =>
    .inr (List.mem_append_left _ hp)
  · rcases List.mem_append.mp hp with hold | hnew
    · exact h.pulls p hold
    · rw [List.mem_singleton.mp hnew]
      exact ⟨hkeys, fun e he => h.documents e (hdocuments he)⟩
  · rcases List.mem_append.mp hp with hold | hnew
    · exact .inr hold
    · rw [List.mem_singleton.mp hnew]
      exact .inl rfl

/-- Entries may disappear, and with them publications that condemn none of the others. -/
lemma FreshInv.withCache (h : FreshInv c parsed s) {cache : CstCache} {publishes : List Publish}
    (hcache : ∀ key entry, cache.lookup key = some entry → s.cache.lookup key = some entry ∧
      (Doomed c s.publishes key entry → Doomed c publishes key entry)) :
    FreshInv c parsed { s with cache, publishes } where
  documents := h.documents
  pulls := h.pulls
  fresh e he entry hentry hversion hfingerprint :=
    (h.fresh e he entry (hcache e.1 entry hentry).1 hversion hfingerprint).imp id
      (hcache e.1 entry hentry).2
  subscribed key entry hentry := h.subscribed key entry (hcache key entry hentry).1
  carriedKeys := h.carriedKeys
  carried p hp e he entry hentry := h.carried p hp e he entry (hcache e.1 entry hentry).1

/-- A publication goes on: whatever it was to evict it still is. -/
lemma FreshInv.withPublish (h : FreshInv c parsed s) {i : Nat} {p p' : Publish}
    (hp : s.publishes[i]? = some p)
    (hcondemns : ∀ key entry, s.cache.lookup key = some entry →
      p.Condemns c key entry.observations → p'.Condemns c key entry.observations) :
    FreshInv c parsed { s with publishes := s.publishes.set i p' } := by
  refine FreshInv.withCache h fun key entry hentry => ⟨hentry, ?_⟩
  rintro ⟨q, hq, hcondemned⟩
  by_cases hqp : q = p
  · subst hqp
    exact ⟨p', List.mem_set (List.getElem?_eq_some_iff.mp hp).1 p',
      hcondemns key entry hentry hcondemned⟩
  · exact ⟨q, mem_set_of_ne p' hq hp hqp, hcondemned⟩

lemma FreshInv.evict (h : FreshInv c parsed s) {i : Nat} {changed : ChangedKeys}
    {uris : List String} (hp : s.publishes[i]? = some ⟨changed, .found uris⟩) :
    FreshInv c parsed { s with
      cache := evictCacheEntries s.cache uris
      publishes := s.publishes.eraseIdx i } := by
  refine h.withCache fun key entry hentry => ?_
  obtain ⟨hkept, hcached⟩ := lookup_evictCacheEntries hentry
  refine ⟨hcached, ?_⟩
  rintro ⟨q, hq, hcondemned⟩
  have hqp : q ≠ ⟨changed, .found uris⟩ := by
    rintro rfl
    exact hkept hcondemned
  exact ⟨q, mem_eraseIdx_of_ne hq hp hqp, hcondemned⟩

/-- While no pull has keys to register, the subscribers of a reported key are found. -/
lemma FreshInv.lookUpSubscribers (h : FreshInv c parsed s) {i : Nat} {changed : ChangedKeys}
    (hp : s.publishes[i]? = some ⟨changed, .raised⟩) (hnone : ∀ p ∈ s.pulls, p.carried = []) :
    FreshInv c parsed { s with
      publishes := s.publishes.set i ⟨changed, .found (s.invalidated changed)⟩ } := by
  refine h.withPublish hp fun key entry hentry hcondemned => ?_
  have hsubscribed : s.subscription c key = some entry.observations := by
    refine (h.subscribed key entry hentry).resolve_right ?_
    rintro ⟨p, hp, hcarried⟩
    rw [hnone p hp] at hcarried
    cases hcarried
  exact mem_invalidated hsubscribed hcondemned

lemma FreshInv.rebuilt (h : FreshInv c parsed s)
    (hnew : ∀ key entry, s.cache.lookup key = some entry → entry.dbFingerprint ≠
      { s.dbFingerprint s.snapshot with legacyDbGeneration := s.legacyDbGeneration + 1 }) :
    FreshInv c parsed { s with legacyDbGeneration := s.legacyDbGeneration + 1 } where
  documents := h.documents
  pulls := h.pulls
  fresh e _ entry hentry _ hfingerprint := absurd hfingerprint (hnew e.1 entry hentry)
  subscribed := h.subscribed
  carriedKeys := h.carriedKeys
  carried := h.carried

/-- A swap dooms what observed a reported key and keeps what did not. -/
lemma FreshInv.swap (h : FreshInv c parsed s) {edit : SnapshotEdit} (changesViews : Bool)
    (hsound : SwapSound c parsed s edit) :
    FreshInv c parsed { s with
      snapshot := edit.apply s.snapshot
      publishes := s.publishes ++
        [⟨edit.changedKeys s.snapshot, .swapped changesViews⟩] } where
  documents := hsound.parsed
  pulls := h.pulls
  subscribed := h.subscribed
  carriedKeys := h.carriedKeys
  carried := h.carried
  fresh e he entry hentry hversion hfingerprint := by
    obtain ⟨hbefore, hsame, htold⟩ :=
      hsound.told e he (isHit_iff.mpr ⟨entry, hentry, hversion, hfingerprint⟩)
    rcases h.fresh e hbefore entry hentry hversion (hfingerprint.trans hsame) with
      hcurrent | ⟨p, hp, hcondemned⟩
    · by_cases hmeets : ∃ k ∈ entry.observations,
          k ∈ (edit.changedKeys s.snapshot).concerning (c.isLoose e.1)
      · exact .inr ⟨_, List.mem_append_right _ (List.mem_singleton.mpr rfl), hmeets⟩
      · refine .inl (htold.diagnose_apply hcurrent fun k hk hreported => ?_)
        exact hmeets ⟨k, hk, hreported⟩
    · exact .inr ⟨p, List.mem_append_left _ hp, hcondemned⟩

/-- What a pull carried is registered, and another pull may carry the rest. -/
lemma FreshInv.register (h : FreshInv c parsed s) {i : Nat}
    {newSubscriptions : List (String × List ObservedKey)}
    (hp : s.pulls[i]? = some (.committed newSubscriptions)) :
    FreshInv c parsed
      { s.registerCstSubscriptions c newSubscriptions with pulls := s.pulls.eraseIdx i } := by
  have hnodup := h.carriedKeys _ (List.mem_of_getElem? hp)
  have hmatches := h.carried _ (List.mem_of_getElem? hp)
  have hsubscribed : ∀ key entry, s.cache.lookup key = some entry →
      (s.registerCstSubscriptions c newSubscriptions).subscription c key =
        some entry.observations ∨
      ∃ p ∈ s.pulls.eraseIdx i, (key, entry.observations) ∈ p.carried := by
    intro key entry hentry
    by_cases hkey : key ∈ newSubscriptions.map (·.1)
    · obtain ⟨e, he, rfl⟩ := List.mem_map.mp hkey
      rw [hmatches e he entry hentry]
      exact .inl (subscription_registerCst_of_mem hnodup he)
    · rw [subscription_registerCst_of_notMem hkey]
      refine (h.subscribed key entry hentry).imp id ?_
      rintro ⟨p, hmem, hcarried⟩
      have hne : p ≠ .committed newSubscriptions := by
        rintro rfl
        exact hkey (List.mem_map_of_mem hcarried)
      exact ⟨p, mem_eraseIdx_of_ne hmem hp hne, hcarried⟩
  obtain ⟨workspace, loose, hregister⟩ :=
    registerCstSubscriptions_frame (c := c) (s := s) newSubscriptions
  rw [hregister] at hsubscribed ⊢
  exact {
    documents := h.documents
    pulls := fun p hp => h.pulls p (List.mem_of_mem_eraseIdx hp)
    fresh := h.fresh
    subscribed := hsubscribed
    carriedKeys := fun p hp => h.carriedKeys p (List.mem_of_mem_eraseIdx hp)
    carried := fun p hp => h.carried p (List.mem_of_mem_eraseIdx hp) }

lemma map_fst_of_computeEntries {snapshot : Snapshot} {fingerprint : DbFingerprint}
    {reached : List (String × ParsedDocument)} {entries : List (String × CstCacheEntry)}
    (h : reached.mapM (computeEntry c snapshot fingerprint) = some entries) :
    entries.map (·.1) = reached.map (·.1) := by
  induction reached generalizing entries with
  | nil =>
    cases h
    rfl
  | cons e reached ih =>
    rw [List.mapM_cons] at h
    obtain ⟨computed, hcomputed, hrest⟩ := Option.bind_eq_some_iff.mp h
    obtain ⟨entries', hentries', hcons⟩ := Option.bind_eq_some_iff.mp hrest
    cases hcons
    obtain ⟨o, -, rfl⟩ := Option.map_eq_some_iff.mp hcomputed
    rw [List.map_cons, List.map_cons, ih hentries']

lemma mem_of_computeEntries {snapshot : Snapshot} {fingerprint : DbFingerprint}
    {reached : List (String × ParsedDocument)} {entries : List (String × CstCacheEntry)}
    (h : reached.mapM (computeEntry c snapshot fingerprint) = some entries)
    {key : String} {entry : CstCacheEntry} (hmem : (key, entry) ∈ entries) :
    ∃ document o, (key, document) ∈ reached ∧ c.diagnose snapshot key document = some o ∧
      entry = ⟨document.parseVersion, fingerprint, o.1, o.2⟩ := by
  induction reached generalizing entries with
  | nil =>
    cases h
    cases hmem
  | cons e reached ih =>
    rw [List.mapM_cons] at h
    obtain ⟨computed, hcomputed, hrest⟩ := Option.bind_eq_some_iff.mp h
    obtain ⟨entries', hentries', hcons⟩ := Option.bind_eq_some_iff.mp hrest
    cases hcons
    rcases List.mem_cons.mp hmem with rfl | hmem
    · obtain ⟨o, ho, hentry⟩ := Option.map_eq_some_iff.mp hcomputed
      obtain ⟨rfl, rfl⟩ := Prod.mk.inj hentry
      exact ⟨e.2, o, List.mem_cons_self, ho, rfl⟩
    · obtain ⟨document, o, hdocument, ho⟩ := ih hentries' hmem
      exact ⟨document, o, List.mem_cons_of_mem _ hdocument, ho⟩

/-- All misses of a pull enter the cache: each is what the rules say now, and the pull carries
what they have observed. -/
lemma FreshInv.commit (h : FreshInv c parsed s) {i version : Nat}
    {misses : List (String × ParsedDocument)} {snapshot : Snapshot} {fingerprint : DbFingerprint}
    {computed : List String}
    (hp : s.pulls[i]? = some (.missing version misses snapshot fingerprint))
    (hsound : CommitSound c s computed misses snapshot fingerprint)
    {entries : List (String × CstCacheEntry)}
    (hentries : misses.mapM (computeEntry c snapshot fingerprint) = some entries) :
    FreshInv c parsed { s with
      cache := insertEntries s.cache entries
      pulls := s.pulls.set i (.committed (entries.map fun e => (e.1, e.2.observations))) } := by
  have hok := h.pulls _ (List.mem_of_getElem? hp)
  have hkeys := map_fst_of_computeEntries hentries
  have hnodup : (entries.map (·.1)).Nodup := hkeys ▸ hok.keys
  have hcarries : ((entries.map fun e => (e.1, e.2.observations)).map (·.1)) =
      entries.map (·.1) := by
    rw [List.map_map]
    rfl
  -- what the cache holds for a key behind the commit
  have hcases : ∀ key entry, (insertEntries s.cache entries).lookup key = some entry →
      (key, entry) ∈ entries ∨ key ∉ entries.map (·.1) ∧ s.cache.lookup key = some entry := by
    intro key entry hentry
    by_cases hkey : key ∈ entries.map (·.1)
    · obtain ⟨e, he, rfl⟩ := List.mem_map.mp hkey
      rw [lookup_insertEntries_of_mem hnodup he] at hentry
      exact .inl (Option.some.inj hentry ▸ he)
    · exact .inr ⟨hkey, (lookup_insertEntries_of_notMem hkey).symm.trans hentry⟩
  have hnew : ∀ e ∈ entries, (e.1, e.2.observations) ∈
      entries.map fun e => (e.1, e.2.observations) :=
    fun e he => List.mem_map_of_mem (f := fun e => (e.1, e.2.observations)) he
  refine ⟨h.documents, ?_, ?_, ?_, ?_, ?_⟩
  · intro p hmem
    rcases List.mem_or_eq_of_mem_set hmem with hold | rfl
    · exact h.pulls p hold
    · exact ⟨List.nodup_nil, fun e he => by cases he⟩
  · intro e he entry hentry hversion hfingerprint
    rcases hcases e.1 entry hentry with hmem | ⟨-, hcached⟩
    · obtain ⟨document, o, hmiss, ho, rfl⟩ := mem_of_computeEntries hentries hmem
      have hdocument : document = e.2 :=
        calc document = parsed document.parseVersion := (hok.parsed _ hmiss).symm
          _ = parsed e.2.parseVersion := congrArg parsed hversion
          _ = e.2 := h.documents e he
      subst hdocument
      exact .inl (Checker.collect_of_alike (hsound.alike hfingerprint e hmiss he) ho)
    · exact h.fresh e he entry hcached hversion hfingerprint
  · intro key entry hentry
    rcases hcases key entry hentry with hmem | ⟨-, hcached⟩
    · exact .inr ⟨_, List.mem_set (List.getElem?_eq_some_iff.mp hp).1 _, hnew _ hmem⟩
    · refine (h.subscribed key entry hcached).imp id ?_
      rintro ⟨p, hmem, hcarried⟩
      have hne : p ≠ .missing version misses snapshot fingerprint := by
        rintro rfl
        cases hcarried
      exact ⟨p, mem_set_of_ne _ hmem hp hne, hcarried⟩
  · intro p hmem
    rcases List.mem_or_eq_of_mem_set hmem with hold | rfl
    · exact h.carriedKeys p hold
    · exact hcarries ▸ hnodup
  · intro p hmem e he entry hentry
    rcases List.mem_or_eq_of_mem_set hmem with hold | rfl
    · rcases hcases e.1 entry hentry with hin | ⟨-, hcached⟩
      · obtain ⟨document, o, hmiss, -, -⟩ := mem_of_computeEntries hentries hin
        exact absurd (List.mem_map_of_mem he) (hsound.alone p hold _ hmiss)
      · exact h.carried p hold e he entry hcached
    · obtain ⟨e', he', rfl⟩ := List.mem_map.mp he
      rw [lookup_insertEntries_of_mem hnodup he'] at hentry
      exact congrArg CstCacheEntry.observations (Option.some.inj hentry).symm

/-- A commit of all misses, or of none of them when the pull is cancelled. -/
lemma FreshInv.commitStep {i : Nat} {computed : List String} (h : FreshInv c parsed s)
    (hsound : Sound c parsed s (.commit i computed))
    (hstep : s.step c (.commit i computed) = some s') : FreshInv c parsed s' := by
  simp only [CstServer.step] at hstep
  split at hstep
  · rename_i version misses snapshot fingerprint hp
    have hcommit := hsound _ hp
    split_ifs at hstep with hidle hcancelled
    all_goals obtain ⟨entries, hentries, rfl⟩ := Option.map_eq_some_iff.mp hstep
    · -- a cancelled pull has computed nothing
      have hnone : misses.filter (fun e => computed.contains e.1) = [] := by
        rcases hcommit.complete with hall | hnone
        · refine absurd ?_ hcancelled
          rw [List.filter_eq_self.mpr fun e he => List.contains_iff_mem.mpr (hall e he)]
        · refine List.filter_eq_nil_iff.mpr fun e he hcontains => hnone e he ?_
          exact List.contains_iff_mem.mp hcontains
      rw [hnone] at hentries
      cases hentries
      exact h.withoutPull hp rfl
    · have hall : misses.filter (fun e => computed.contains e.1) = misses :=
        List.filter_sublist.eq_of_length (not_not.mp hcancelled)
      rw [hall] at hentries
      exact h.commit hp hcommit hentries
  · cases hstep

/-- One sound step keeps the invariant. -/
lemma FreshInv.step {e : Event} (h : FreshInv c parsed s) (hsound : Sound c parsed s e)
    (hstep : s.step c e = some s') : FreshInv c parsed s' := by
  cases e with
  | swap edit changesViews =>
    cases hstep
    exact h.swap changesViews hsound
  | raiseVersion i =>
    simp only [CstServer.step] at hstep
    split at hstep
    · rename_i changed changesViews hp
      cases hstep
      have hraised : FreshInv c parsed { s with
          publishes := s.publishes.set i ⟨changed, .raised⟩ } :=
        h.withPublish hp fun _ _ _ hcondemned => hcondemned
      exact ⟨hraised.documents, hraised.pulls, hraised.fresh, hraised.subscribed,
        hraised.carriedKeys, hraised.carried⟩
    · cases hstep
  | lookUpSubscribers i =>
    simp only [CstServer.step] at hstep
    split at hstep
    · rename_i changed hp
      cases hstep
      exact h.lookUpSubscribers hp hsound
    · cases hstep
  | evict i =>
    simp only [CstServer.step] at hstep
    split at hstep
    · rename_i changed uris hp
      cases hstep
      exact h.evict hp
    · cases hstep
  | rebuilt =>
    cases hstep
    exact h.rebuilt hsound
  | startPull documents =>
    simp only [CstServer.step] at hstep
    split_ifs at hstep with hdocuments
    cases hstep
    exact h.startPull hdocuments.1 hdocuments.2
  | loadSnapshot i =>
    simp only [CstServer.step] at hstep
    split at hstep
    · rename_i version documents hp
      cases hstep
      exact h.withPull hp rfl rfl (List.Sublist.refl _)
    · cases hstep
  | readFingerprint i =>
    simp only [CstServer.step] at hstep
    split at hstep
    · rename_i version documents snapshot hp
      split_ifs at hstep
      cases hstep
      exact h.withPull hp rfl rfl (List.Sublist.refl _)
    · cases hstep
  | readCache i =>
    simp only [CstServer.step] at hstep
    split at hstep
    · rename_i version documents snapshot fingerprint hp
      cases hstep
      exact h.withPull hp rfl rfl List.filter_sublist
    · cases hstep
  | commit i computed => exact h.commitStep hsound hstep
  | register i =>
    simp only [CstServer.step] at hstep
    split at hstep
    · rename_i newSubscriptions hp
      cases hstep
      exact h.register hp
    · cases hstep
  | abandon i =>
    simp only [CstServer.step] at hstep
    split at hstep
    · cases hstep
    · cases hstep
    · rename_i p hcommitted hp
      cases hstep
      refine h.withoutPull hp ?_
      cases p with
      | committed newSubscriptions => exact absurd rfl (hcommitted newSubscriptions)
      | _ => rfl
  | retain keys =>
    cases hstep
    exact h.withCache fun key entry hentry => ⟨(lookup_evictCacheEntries hentry).2, id⟩

/-- In every run whose publications tell what the rules have read and look up subscribers while no
pull has keys to register, and whose commits are complete, alone and on reads that are alike on
the present snapshot, no hit is stale when no publication is on its way. -/
theorem cache_never_stale (c : Checker) (parsed : UInt64 → ParsedDocument) (snapshot : Snapshot)
    (hparsed : ∀ e ∈ c.diagnosedDocuments snapshot, parsed e.2.parseVersion = e.2)
    {es : List Event}
    (hsound : AllSteps (step c) (Sound c parsed) { snapshot } es)
    {s : CstServer} (hrun : run (step c) { snapshot } es = some s) (hquiet : s.publishes = []) :
    NeverStale c s :=
  (run_invariant (fun _ _ _ hinv hgood hstep => hinv.step hgood hstep) (FreshInv.initial hparsed)
    hsound hrun).neverStale hquiet

/-! ### A state and its owner -/

/-- The diagnostic of `state_owner` for a resolved owner. -/
def checkStateOwner (ownerName : String) (range : SourceRange) (owner : OutwardView) :
    List WorkspaceDiagnostic :=
  let isClass := owner.fields.kind = .class
  if isClass ∧ owner.fields.specifiers.contains .statemachine then []
  else [{
    kind := if isClass then "state_owner_not_statemachine" else "state_owner_not_class"
    message :=
      if isClass then "'" ++ ownerName ++ "' is not a state machine, so it cannot host a state. " ++
        "Did you forget the 'statemachine' keyword?"
      else "'" ++ ownerName ++ "' is not a class; a state can only be declared in a state " ++
        "machine class."
    severity := if isClass then .warning else .error
    range
    related := (owner.place.map fun place =>
      ⟨owner.uri, place.selectionRange, "'" ++ ownerName ++ "' declared here"⟩).toList }]

/-- `state_owner` on documents of one line with at most one state. -/
def stateOwnerRule : CstRules := fun _ document =>
  match document.symbols.findSome? (·.ownerClass) with
  | none => .done []
  | some ownerName => .ask (.lookup .everywhere (.findTopLevel ownerName)) fun answer => .done <|
    match answer, document.identLeaves.lookup ownerName with
    | .seen (.definition (some owner)), some range =>
      checkStateOwner ownerName range.inFirstLine owner
    | _, _ => []

/-- `class Foo {}` -/
def plainFoo : ParsedDocument where
  source := "class Foo {}"
  symbols := [
    { id := ⟨0⟩, name := "Foo", kind := .class, byteRange := ⟨0, 12⟩,
      selectionByteRange := ⟨6, 9⟩ }]
  identLeaves := [("Foo", ⟨6, 9⟩)]

def machineFoo : ParsedDocument := { statemachineDocument with parseVersion := 2 }
def stateOfFoo : ParsedDocument := { stateDocument with parseVersion := 1 }

/-- A hasher that tells plain classes from the rest. -/
def specifierHasher : Hasher where
  symbol f := if f.specifiers = .empty then 1 else 2
  parameter ordinal _ := ordinal
  document _ fields := fields.length.toUInt64

def stateOwnerChecker : Checker where
  env := { flatEnv { noDirs with workspaceRoots := [[]] } with hasher := specifierHasher }
  rules := stateOwnerRule
  builtins := {}
  callDepth := 1

/-- A publication of an open document up to its eviction, while nothing else is published. -/
def publishing (uri : Url) (document : ParsedDocument) : List Event :=
  [.swap (stateOwnerChecker.openEdit uri document) false, .raiseVersion 0,
    .lookUpSubscribers 0, .evict 0]

/-- The pull of a document that the cache does not answer for. -/
def pulling (key : String) (document : ParsedDocument) : List Event :=
  [.startPull [(key, document)], .loadSnapshot 0, .readFingerprint 0, .readCache 0]

def parsedFoos : UInt64 → ParsedDocument
  | 0 => plainFoo
  | 1 => stateOfFoo
  | _ => machineFoo

/-- A state of the class is pulled before and behind the publication that makes the class a state
machine. -/
def machineBetweenPulls : List Event :=
  publishing "a.ws" plainFoo ++ publishing "b.ws" stateOfFoo ++
    pulling "b.ws" stateOfFoo ++ [.commit 0 ["b.ws"], .register 0] ++
    publishing "a.ws" machineFoo ++ pulling "b.ws" stateOfFoo ++ [.commit 0 ["b.ws"], .register 0]

/-- While the cache is empty, a publication has nothing to tell. -/
lemma swapSound_of_empty {s : CstServer} {edit : SnapshotEdit} (hcache : s.cache = ∅)
    (hparsed : ∀ e ∈ c.diagnosedDocuments (edit.apply s.snapshot), parsed e.2.parseVersion = e.2) :
    SwapSound c parsed s edit where
  parsed := hparsed
  told e _ hhit := by
    obtain ⟨entry, hentry, -⟩ := isHit_iff.mp hhit
    rw [hcache] at hentry
    cases hentry

/-- While nothing is published during a pull, its commit is sound. -/
lemma commitSound_of_present {computed : List String} {misses : List (String × ParsedDocument)}
    {fingerprint : DbFingerprint} (hcomplete : ∀ e ∈ misses, e.1 ∈ computed)
    (halone : ∀ p ∈ s.pulls, p.carried = []) :
    CommitSound c s computed misses s.snapshot fingerprint where
  complete := .inl hcomplete
  alone p hp e _ := by
    rw [halone p hp]
    exact List.not_mem_nil
  alike _ e _ _ r _ := RuleRead.Alike.refl _ r

/-- The publication that makes the class a state machine tells the state of it. -/
lemma swapTold_machineFoo {t : Snapshot} {base : WorkspaceIndex}
    (hbase : (stateOwnerChecker.env.removeDocumentAllSpellings t.baseScriptsIndex "a.ws").2 = base)
    (hindices : base.toIndices = t.baseScriptsIndex.toIndices)
    (hdocuments : base.documents = t.baseScriptsIndex.documents)
    (hidents : base.docIdents = t.baseScriptsIndex.docIdents)
    (htells : DocumentChange.TellsKey
      (.apply "a.ws" (stateOwnerChecker.env.contribution "a.ws" machineFoo)) t.workspaceIndex
      (.topLevel "Foo")) :
    stateOwnerChecker.SwapTold t (stateOwnerChecker.openEdit "a.ws" machineFoo) "b.ws"
      stateOfFoo := by
  subst hbase
  have hasked (db : RuleDb) : stateOwnerChecker.asked db "b.ws" stateOfFoo =
      [.lookup .everywhere (.findTopLevel "Foo")] := ReadTree.asked_ask_done _ _ _
  refine ⟨fun r _ => RuleRead.alike_base r hindices hdocuments hidents, fun r hr => ?_, trivial⟩
  rw [hasked, List.mem_singleton] at hr
  subst hr
  intro σ hσ
  cases hσ
  exact .inr ⟨rfl, _, List.mem_singleton.mpr rfl, htells⟩

/-- The cache answers for the state alone. -/
lemma swapSound_machineFoo {t : CstServer}
    (hbehind : stateOwnerChecker.diagnosedDocuments
      ((stateOwnerChecker.openEdit "a.ws" machineFoo).apply t.snapshot) =
        [("a.ws", machineFoo), ("b.ws", stateOfFoo)])
    (hbefore : ("b.ws", stateOfFoo) ∈ stateOwnerChecker.diagnosedDocuments t.snapshot)
    (hmiss : t.cache.lookup "a.ws" = none)
    (hfingerprint : t.dbFingerprint
      ((stateOwnerChecker.openEdit "a.ws" machineFoo).apply t.snapshot) =
        t.dbFingerprint t.snapshot)
    (htold : stateOwnerChecker.SwapTold t.snapshot (stateOwnerChecker.openEdit "a.ws" machineFoo)
      "b.ws" stateOfFoo) :
    SwapSound stateOwnerChecker parsedFoos t (stateOwnerChecker.openEdit "a.ws" machineFoo) where
  parsed := by
    rw [hbehind]
    decide
  told e he hhit := by
    rw [hbehind] at he
    rcases List.mem_pair.mp he with rfl | rfl
    · obtain ⟨entry, hentry, -⟩ := isHit_iff.mp hhit
      rw [hmiss] at hentry
      cases hentry
    · exact ⟨hbefore, hfingerprint, htold⟩

theorem cache_never_stale_machineBetweenPulls :
    ∃ s, run (step stateOwnerChecker) { snapshot := {} } machineBetweenPulls = some s ∧
      s.isHit (s.dbFingerprint s.snapshot) ("b.ws", stateOfFoo) ∧
      NeverStale stateOwnerChecker s := by
  have hsound : AllSteps (step stateOwnerChecker) (Sound stateOwnerChecker parsedFoos)
      { snapshot := {} } machineBetweenPulls := by
    refine ⟨swapSound_of_empty rfl (by decide), trivial,
      fun _ hp => absurd hp List.not_mem_nil, trivial,
      swapSound_of_empty rfl (by decide), trivial,
      fun _ hp => absurd hp List.not_mem_nil, trivial,
      trivial, trivial, trivial, trivial, ?_, trivial,
      swapSound_machineFoo (by decide) (by decide) (by decide) (by decide)
        (swapTold_machineFoo rfl rfl rfl rfl (by decide)), trivial,
      fun _ hp => absurd hp List.not_mem_nil, trivial,
      trivial, trivial, trivial, trivial, ?_, trivial, trivial⟩
    all_goals
      rintro p ⟨⟩
      refine commitSound_of_present (by decide) fun q hq => ?_
      rw [List.mem_singleton.mp hq]
      rfl
  have hend : (run (step stateOwnerChecker) { snapshot := {} } machineBetweenPulls).map (fun s =>
      (s.publishes.isEmpty, s.isHit (s.dbFingerprint s.snapshot) ("b.ws", stateOfFoo))) =
      some (true, true) := by
    decide
  obtain ⟨s, hrun, hs⟩ := Option.map_eq_some_iff.mp hend
  obtain ⟨hquiet, hhit⟩ := Prod.mk.inj hs
  exact ⟨s, hrun, hhit, cache_never_stale stateOwnerChecker parsedFoos {} (by decide) hsound hrun
    (List.isEmpty_iff.mp hquiet)⟩

/-- The class becomes a state machine while a pull computes the document of its state. -/
def machineDuringPull : List Event :=
  publishing "a.ws" plainFoo ++ publishing "b.ws" stateOfFoo ++ pulling "b.ws" stateOfFoo ++
    publishing "a.ws" machineFoo ++ [.commit 0 ["b.ws"]]

/-- The publications of a run are those of open documents. -/
def PublishesDocuments (c : Checker) (parsed : UInt64 → ParsedDocument) : Event → Prop
  | .swap edit _ => ∃ uri document, edit = c.openEdit uri document ∧
    parsed document.parseVersion = document
  | _ => True

lemma NeverStale.of_isHit (h : NeverStale c s) {e : String × ParsedDocument}
    (he : e ∈ c.diagnosedDocuments s.snapshot)
    (hhit : s.isHit (s.dbFingerprint s.snapshot) e) :
    (s.cache.lookup e.1).map (·.diagnostics) =
      (c.diagnose s.snapshot e.1 e.2).map Prod.fst := by
  obtain ⟨entry, hentry, hversion, hfingerprint⟩ := isHit_iff.mp hhit
  rw [h e he entry hentry hversion hfingerprint, hentry, Option.map_some]

theorem not_cache_never_stale_machineDuringPull :
    ¬∀ (c : Checker) (parsed : UInt64 → ParsedDocument) (es : List Event) (s : CstServer),
      (∀ e ∈ es, PublishesDocuments c parsed e) → run (step c) { snapshot := {} } es = some s →
      s.publishes = [] → NeverStale c s := by
  intro h
  have hpublishes : ∀ e ∈ machineDuringPull, PublishesDocuments stateOwnerChecker parsedFoos e := by
    intro e he
    simp only [machineDuringPull, publishing, pulling, List.mem_append, List.mem_cons,
      List.not_mem_nil, or_false] at he
    rcases he with ((((rfl | rfl | rfl | rfl) | (rfl | rfl | rfl | rfl)) |
      (rfl | rfl | rfl | rfl)) | (rfl | rfl | rfl | rfl)) | rfl
    all_goals first | trivial | exact ⟨_, _, rfl, rfl⟩
  have hend : (run (step stateOwnerChecker) { snapshot := {} } machineDuringPull).map (fun s =>
      (s.publishes.isEmpty,
        (stateOwnerChecker.diagnosedDocuments s.snapshot).contains ("b.ws", stateOfFoo),
        s.isHit (s.dbFingerprint s.snapshot) ("b.ws", stateOfFoo),
        (s.cache.lookup "b.ws").map fun entry => entry.diagnostics.length,
        (stateOwnerChecker.diagnose s.snapshot "b.ws" stateOfFoo).map fun o => o.1.length)) =
      some (true, true, true, some 1, some 0) := by
    decide
  obtain ⟨s, hrun, hs⟩ := Option.map_eq_some_iff.mp hend
  simp only [Prod.mk.injEq] at hs
  obtain ⟨hquiet, hdocument, hhit, hcached, hfresh⟩ := hs
  have hstored := (h stateOwnerChecker parsedFoos machineDuringPull s hpublishes hrun
    (List.isEmpty_iff.mp hquiet)).of_isHit (List.contains_iff_mem.mp hdocument) hhit
  have hlengths := congrArg (Option.map List.length) hstored
  rw [Option.map_map, Option.map_map] at hlengths
  exact absurd (hcached.symm.trans (hlengths.trans hfresh)) (by decide)

end CstServer

end WitcherScriptLanguage
