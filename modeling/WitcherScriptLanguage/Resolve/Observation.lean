import WitcherScriptLanguage.Resolve.ChangedKeys
import WitcherScriptLanguage.Resolve.SymbolDb

/-!
# Invalidation by observed keys

A diagnostic run records the keys its lookups depend on; a document change reports the keys
whose outward surface changed. A lookup reads the buckets of the names on its path. It keeps its
answer when the document files the same under each of them, at the same place, or the hash of a
key recorded with it differs between the old and the new symbols. A relation between two observed
computations carries this through the walks over superclasses.
-/

namespace WitcherScriptLanguage

open Library

namespace Observed

variable {α α' β β' : Type} {changed : List ObservedKey}

/-- Whenever `x` returns without recording a changed key, `x'` returns a related result and
records the same keys. -/
def Follows (changed : List ObservedKey) (R : α → α' → Prop) (x : Observed α)
    (x' : Observed α') : Prop :=
  ∀ a keys, x = some (a, keys) → (∀ k ∈ keys, k ∉ changed) → ∃ a', x' = some (a', keys) ∧ R a a'

lemma follows_pure {R : α → α' → Prop} {a : α} {a' : α'} (h : R a a') :
    Follows changed R (Pure.pure a) (Pure.pure a') := by
  intro b keys hb _
  cases hb
  exact ⟨a', rfl, h⟩

lemma follows_outOfDepth {R : α → α' → Prop} (x' : Observed α') :
    Follows changed R outOfDepth x' := fun _ _ h => nomatch h

lemma bind_of_eq_some {x : Observed α} {f : α → Observed β} {a : α} {b : β}
    {k₁ k₂ : List ObservedKey} (hx : x = some (a, k₁)) (hf : f a = some (b, k₂)) :
    x >>= f = some (b, k₁ ++ k₂) := by
  subst hx
  change (f a).map _ = _
  rw [hf]
  rfl

lemma bind_eq_some {x : Observed α} {f : α → Observed β} {b : β} {keys : List ObservedKey}
    (h : x >>= f = some (b, keys)) : ∃ a k₁ k₂, x = some (a, k₁) ∧ f a = some (b, k₂) ∧
      keys = k₁ ++ k₂ := by
  change Option.bind x _ = _ at h
  obtain ⟨⟨a, k₁⟩, hx, hmap⟩ := Option.bind_eq_some_iff.mp h
  obtain ⟨⟨b', k₂⟩, hf, hpair⟩ := Option.map_eq_some_iff.mp hmap
  cases hpair
  exact ⟨a, k₁, k₂, hx, hf, rfl⟩

lemma follows_bind {R : α → α' → Prop} {S : β → β' → Prop} {x : Observed α} {x' : Observed α'}
    {f : α → Observed β} {f' : α' → Observed β'} (hx : Follows changed R x x')
    (hf : ∀ a a', R a a' → Follows changed S (f a) (f' a')) :
    Follows changed S (x >>= f) (x' >>= f') := by
  intro b keys hb hkeys
  obtain ⟨a, k₁, k₂, hxa, hfb, rfl⟩ := bind_eq_some hb
  obtain ⟨a', ha', hR⟩ := hx a k₁ hxa (fun k hk => hkeys k (List.mem_append_left _ hk))
  obtain ⟨b', hb', hS⟩ := hf a a' hR b k₂ hfb (fun k hk => hkeys k (List.mem_append_right _ hk))
  exact ⟨b', bind_of_eq_some ha' hb', hS⟩

/-- Behind a recorded key the rest may rely on the key being unchanged. -/
lemma follows_record {S : β → β' → Prop} (k : ObservedKey) {f : Unit → Observed β}
    {f' : Unit → Observed β'} (hf : k ∉ changed → Follows changed S (f ()) (f' ())) :
    Follows changed S (record k >>= f) (record k >>= f') := by
  intro b keys hb hkeys
  obtain ⟨a, k₁, k₂, hxa, hfb, rfl⟩ := bind_eq_some hb
  cases hxa
  obtain ⟨b', hb', hS⟩ := hf (hkeys k (by simp)) b k₂ hfb
    (fun k hk => hkeys k (List.mem_append_right _ hk))
  exact ⟨b', bind_of_eq_some rfl hb', hS⟩

/-- The value that the first computation returns may be remembered. -/
lemma Follows.with_value {R : α → α' → Prop} {x : Observed α} {x' : Observed α'}
    (h : Follows changed R x x') :
    Follows changed (fun a a' => R a a' ∧ x.value = some a) x x' := by
  intro a keys hx hkeys
  obtain ⟨a', ha', hR⟩ := h a keys hx hkeys
  exact ⟨a', ha', hR, by rw [hx]; rfl⟩

lemma Follows.weaken {R S : α → α' → Prop} {x : Observed α} {x' : Observed α'}
    (h : Follows changed R x x') (hRS : ∀ a a', R a a' → S a a') : Follows changed S x x' := by
  intro a keys hx hkeys
  obtain ⟨a', ha', hR⟩ := h a keys hx hkeys
  exact ⟨a', ha', hRS a a' hR⟩

end Observed

/-- What `hash_symbol_fields` leaves out of a symbol. -/
structure Placement where
  id : SymbolId
  byteRange : ByteRange
  selectionByteRange : ByteRange
  selectionRange : SourceRange
  container : Option SymbolId
  stateClass : Option String
  origin : SymbolOrigin
  deriving DecidableEq, Repr

def Symbol.placement (s : Symbol) : Placement where
  id := s.id
  byteRange := s.byteRange
  selectionByteRange := s.selectionByteRange
  selectionRange := s.selectionRange
  container := s.container
  stateClass := s.stateClass
  origin := s.origin

lemma Symbol.eq_of_fields_of_placement {s t : Symbol} (hfields : s.fields = t.fields)
    (hplacement : s.placement = t.placement) : s = t := by
  cases s
  cases t
  simp only [Symbol.fields, SymbolFields.mk.injEq] at hfields
  simp only [Symbol.placement, Placement.mk.injEq] at hplacement
  simp [hfields, hplacement]

/-- The documents whose declarations a reader asks for their places. -/
abbrev Placed := String → Bool

namespace Placed

def everywhere : Placed := fun _ => true
def nowhere : Placed := fun _ => false

end Placed

structure OutwardView where
  uri : String
  /-- The base scripts may show the document. -/
  visible : Bool
  fields : SymbolFields
  typeName : String
  parameters : List SymbolFields
  place : Option Placement
  deriving DecidableEq, Repr

def SymbolDb.outward (db : SymbolDb) (placed : Placed) (d : Definition) : OutwardView where
  uri := d.uri
  visible := db.shadowedBase.uriVisible d.uri
  fields := d.symbol.fields
  typeName := d.symbol.typeName
  parameters := (db.fullParametersOf d.uri d.symbol.id).map Symbol.fields
  place := if placed d.uri then some d.symbol.placement else none

def SymbolDb.outwardEntry (db : SymbolDb) (placed : Placed) :
    IndexEntry → OutwardView ⊕ (String × String)
  | .decl d => .inl (db.outward placed d)
  | .edge uri name => .inr (uri, name)

/-- Two index states that list the same outward entries under a slot. -/
def SameBucket (placed : Placed) (db db' : SymbolDb) (ix ix' : WorkspaceIndex) (σ : Slot) : Prop :=
  (ix.bucket σ).map (db.outwardEntry placed) = (ix'.bucket σ).map (db'.outwardEntry placed)

/-- Two databases whose layers list the same outward entries under a slot. -/
structure SameOutward (placed : Placed) (db db' : SymbolDb) (σ : Slot) : Prop where
  workspace : SameBucket placed db db' db.workspace db'.workspace σ
  base : SameBucket placed db db' db.base db'.base σ
  builtins : ∀ b ∈ db.builtins, SameBucket placed db db' b b σ

lemma SameOutward.refl (placed : Placed) (db : SymbolDb) (σ : Slot) : SameOutward placed db db σ :=
  ⟨rfl, rfl, fun _ _ => rfl⟩

lemma eq_of_outwardEntry_eq {db db' : SymbolDb} {e e' : IndexEntry}
    (h : db.outwardEntry .everywhere e = db'.outwardEntry .everywhere e') : e = e' := by
  cases e with
  | decl d =>
    cases e' with
    | decl d' =>
      have hview : db.outward .everywhere d = db'.outward .everywhere d' := Sum.inl_injective h
      have huri : d.uri = d'.uri := congrArg OutwardView.uri hview
      have hfields : d.symbol.fields = d'.symbol.fields := congrArg OutwardView.fields hview
      have hplace : d.symbol.placement = d'.symbol.placement :=
        Option.some_injective _ (congrArg OutwardView.place hview)
      obtain ⟨uri, sym⟩ := d
      obtain ⟨uri', sym'⟩ := d'
      obtain rfl : uri = uri' := huri
      obtain rfl : sym = sym' := Symbol.eq_of_fields_of_placement hfields hplace
      rfl
    | edge uri' name' => cases h
  | edge uri name =>
    cases e' with
    | decl d' => cases h
    | edge uri' name' =>
      obtain ⟨rfl, rfl⟩ := Prod.mk.inj (Sum.inr_injective h)
      rfl

/-- With the places in view, the entries themselves are the same. -/
lemma SameBucket.bucket_eq {db db' : SymbolDb} {ix ix' : WorkspaceIndex} {σ : Slot}
    (h : SameBucket .everywhere db db' ix ix' σ) : ix.bucket σ = ix'.bucket σ := by
  unfold SameBucket at h
  generalize ix.bucket σ = l at h ⊢
  generalize ix'.bucket σ = l' at h ⊢
  induction l generalizing l' with
  | nil => exact (List.map_eq_nil_iff.mp h.symm).symm
  | cons e l ih =>
    cases l' with
    | nil => cases h
    | cons e' l' =>
      obtain ⟨hhead, htail⟩ := List.cons.inj h
      rw [eq_of_outwardEntry_eq hhead, ih l' htail]

def SameBuiltins (db db' : SymbolDb) : Prop := db'.builtins = db.builtins

section Picks

variable {o o' : Definition → OutwardView} {l l' : List Definition}

lemma getLast_outward (h : l.map o = l'.map o') : l.getLast?.map o = l'.getLast?.map o' := by
  rw [← List.getLast?_map, ← List.getLast?_map, h]

lemma head_outward (h : l.map o = l'.map o') : l.head?.map o = l'.head?.map o' := by
  rw [← List.head?_map, ← List.head?_map, h]

/-- A search by a predicate that only looks at the outward view. -/
lemma find_outward (p : OutwardView → Bool) (h : l.map o = l'.map o') :
    (l.find? (fun d => p (o d))).map o = (l'.find? (fun d => p (o' d))).map o' := by
  have hl : ∀ (f : Definition → OutwardView) (m : List Definition),
      (m.find? (fun d => p (f d))).map f = (m.map f).find? p := by
    intro f m
    rw [List.find?_map]
    rfl
  rw [hl, hl, h]

lemma filter_outward (p : OutwardView → Bool) {a a' : Option Definition}
    (h : a.map o = a'.map o') :
    (a.filter (fun d => p (o d))).map o = (a'.filter (fun d => p (o' d))).map o' := by
  have ha : ∀ (f : Definition → OutwardView) (b : Option Definition),
      (b.filter (fun d => p (f d))).map f = (b.map f).filter p := by
    intro f b
    cases b with
    | none => rfl
    | some d => cases hp : p (f d) <;> simp [Option.filter, hp]
  rw [ha, ha, h]

lemma or_outward {a a' b b' : Option Definition} (ha : a.map o = a'.map o')
    (hb : b.map o = b'.map o') : (a.or b).map o = (a'.or b').map o' := by
  cases a with
  | none =>
    cases a' with
    | none => exact hb
    | some d' => simp at ha
  | some d =>
    cases a' with
    | none => simp at ha
    | some d' => simpa using ha

end Picks

section Reads

variable {placed : Placed} {db db' : SymbolDb}

lemma decl_bucket {l l' : List Definition}
    (h : (l.map IndexEntry.decl).map (db.outwardEntry placed) =
      (l'.map IndexEntry.decl).map (db'.outwardEntry placed)) :
    l.map (db.outward placed) = l'.map (db'.outward placed) := by
  have hinl : ∀ (d : SymbolDb) (m : List Definition),
      (m.map IndexEntry.decl).map (d.outwardEntry placed) =
        (m.map (d.outward placed)).map Sum.inl := by
    intro d m
    rw [List.map_map, List.map_map]
    rfl
  rw [hinl, hinl] at h
  exact List.map_injective_iff.mpr Sum.inl_injective h

lemma edge_bucket {l l' : List (String × String)}
    (h : (l.map IndexEntry.ofEdge).map (db.outwardEntry placed) =
      (l'.map IndexEntry.ofEdge).map (db'.outwardEntry placed)) : l = l' := by
  have hinr : ∀ (d : SymbolDb) (m : List (String × String)),
      (m.map IndexEntry.ofEdge).map (d.outwardEntry placed) = m.map Sum.inr := by
    intro d m
    rw [List.map_map]
    rfl
  rw [hinr, hinr] at h
  exact List.map_injective_iff.mpr Sum.inr_injective h

/-- Answers of the layers that look the same combine to answers that look the same. -/
lemma layered_outward {α V : Type} {o o' : α → V} (hbuilt : SameBuiltins db db')
    {w : WorkspaceIndex → Option α} {s : ShadowedBase → Option α}
    (hworkspace : (w db.workspace).map o = (w db'.workspace).map o')
    (hbase : (s db.shadowedBase).map o = (s db'.shadowedBase).map o')
    (hbuiltins : ∀ b ∈ db.builtins, (w b).map o = (w b).map o') :
    (db.layered w s w).map o = (db'.layered w s w).map o' := by
  have hlast : (db.builtins.bind w).map o = (db'.builtins.bind w).map o' := by
    rw [show db'.builtins = db.builtins from hbuilt]
    cases hb : db.builtins with
    | none => rfl
    | some b => exact hbuiltins b hb
  simp only [SymbolDb.layered, Option.map_or, hworkspace, hbase, hlast]

/-- A read that picks from one index and hides the pick behind the suppression. -/
lemma layered_filter_outward (hbuilt : SameBuiltins db db')
    {read : WorkspaceIndex → Option Definition}
    (hworkspace : (read db.workspace).map (db.outward placed) =
      (read db'.workspace).map (db'.outward placed))
    (hbase : (read db.base).map (db.outward placed) = (read db'.base).map (db'.outward placed))
    (hbuiltins : ∀ b ∈ db.builtins,
      (read b).map (db.outward placed) = (read b).map (db'.outward placed)) :
    (db.layered read (fun b => (read b.index).filter b.defVisible) read).map (db.outward placed) =
      (db'.layered read (fun b => (read b.index).filter b.defVisible) read).map
        (db'.outward placed) := by
  exact layered_outward hbuilt hworkspace (filter_outward OutwardView.visible hbase) hbuiltins

lemma findTopLevel_outward {ix ix' : WorkspaceIndex} {name : String}
    (h : SameBucket placed db db' ix ix' (.topLevel name)) :
    (ix.findTopLevel name).map (db.outward placed) =
      (ix'.findTopLevel name).map (db'.outward placed) := by
  have hl := decl_bucket h
  exact or_outward (find_outward (fun v => v.fields.kind ≠ .state) hl) (head_outward hl)

lemma topLevel_outward (hbuilt : SameBuiltins db db') {name : String}
    (h : SameOutward placed db db' (.topLevel name)) :
    (db.topLevel name).map (db.outward placed) = (db'.topLevel name).map (db'.outward placed) :=
  layered_filter_outward hbuilt (findTopLevel_outward h.workspace) (findTopLevel_outward h.base)
    (fun b hb => findTopLevel_outward (h.builtins b hb))

lemma findTopLevelFiltered_outward (hbuilt : SameBuiltins db db') {name : String}
    (ctx : NameContext) (h : SameOutward placed db db' (.topLevel name)) :
    (db.layered (·.findTopLevelFiltered name ctx) (·.findTopLevelFiltered name ctx)
        (·.findTopLevelFiltered name ctx)).map (db.outward placed) =
      (db'.layered (·.findTopLevelFiltered name ctx) (·.findTopLevelFiltered name ctx)
        (·.findTopLevelFiltered name ctx)).map (db'.outward placed) := by
  have hread : ∀ {ix ix' : WorkspaceIndex}, SameBucket placed db db' ix ix' (.topLevel name) →
      (ix.findTopLevelFiltered name ctx).map (db.outward placed) =
        (ix'.findTopLevelFiltered name ctx).map (db'.outward placed) := fun hb =>
    find_outward (fun v => ctx.accepts v.fields.kind) (decl_bucket hb)
  refine layered_outward hbuilt (hread h.workspace) ?_ (fun b hb => hread (h.builtins b hb))
  exact find_outward (fun v => ctx.accepts v.fields.kind && v.visible) (decl_bucket h.base)

lemma stateInOwner_outward (hbuilt : SameBuiltins db db') {owner name : String}
    (h : SameOutward placed db db' (.state owner name)) :
    (db.stateInOwner owner name).map (db.outward placed) =
      (db'.stateInOwner owner name).map (db'.outward placed) :=
  layered_filter_outward hbuilt (getLast_outward (decl_bucket h.workspace))
    (getLast_outward (decl_bucket h.base))
    (fun b hb => getLast_outward (decl_bucket (h.builtins b hb)))

lemma enumMember_outward (hbuilt : SameBuiltins db db') {name : String}
    (h : SameOutward placed db db' (.enumMember name)) :
    (db.layered (·.findEnumMember name) (·.findEnumMember name)
        (·.findEnumMember name)).map (db.outward placed) =
      (db'.layered (·.findEnumMember name) (·.findEnumMember name)
        (·.findEnumMember name)).map (db'.outward placed) :=
  layered_filter_outward hbuilt (getLast_outward (decl_bucket h.workspace))
    (getLast_outward (decl_bucket h.base))
    (fun b hb => getLast_outward (decl_bucket (h.builtins b hb)))

lemma classBodyMemberAt_outward (hbuilt : SameBuiltins db db') {container name : String}
    (h : SameOutward placed db db' (.member container name)) :
    (db.classBodyMemberAt container name).map (db.outward placed) =
      (db'.classBodyMemberAt container name).map (db'.outward placed) :=
  layered_filter_outward hbuilt (getLast_outward (decl_bucket h.workspace))
    (getLast_outward (decl_bucket h.base))
    (fun b hb => getLast_outward (decl_bucket (h.builtins b hb)))

lemma memberAt_outward (hbuilt : SameBuiltins db db') {container name : String}
    (hmember : SameOutward placed db db' (.member container name))
    (hannotated : SameOutward placed db db' (.annotated container name)) :
    (db.memberAt container name).map (db.outward placed) =
      (db'.memberAt container name).map (db'.outward placed) := by
  have hread : ∀ {ix ix' : WorkspaceIndex},
      SameBucket placed db db' ix ix' (.member container name) →
      SameBucket placed db db' ix ix' (.annotated container name) →
      (ix.directMemberOf container name .private).map (db.outward placed) =
        (ix'.directMemberOf container name .private).map (db'.outward placed) := fun hm ha =>
    filter_outward (fun v => AccessLevel.private ≤ v.fields.access)
      (or_outward (getLast_outward (decl_bucket hm)) (head_outward (decl_bucket ha)))
  exact layered_filter_outward hbuilt (hread hmember.workspace hannotated.workspace)
    (hread hmember.base hannotated.base)
    (fun b hb => hread (hmember.builtins b hb) (hannotated.builtins b hb))

lemma declaredSuperclass_eq (hbuilt : SameBuiltins db db') {className : String}
    (htop : SameOutward placed db db' (.topLevel className))
    (h : SameOutward placed db db' (.superclass className)) :
    db.declaredSuperclass className = db'.declaredSuperclass className := by
  have hread : ∀ {ix ix' : WorkspaceIndex},
      SameBucket placed db db' ix ix' (.superclass className) →
      ix.superclassOf className = ix'.superclassOf className := by
    intro ix ix' hb
    rw [WorkspaceIndex.superclassOf, WorkspaceIndex.superclassOf, edge_bucket hb]
  have hbase : db.shadowedBase.superclassOf className =
      db'.shadowedBase.superclassOf className := by
    have hfind : (db.shadowedBase.findTopLevel className).map (db.outward placed) =
        (db'.shadowedBase.findTopLevel className).map (db'.outward placed) :=
      filter_outward OutwardView.visible (findTopLevel_outward htop.base)
    rw [ShadowedBase.superclassOf, ShadowedBase.superclassOf]
    cases hdb : db.shadowedBase.findTopLevel className with
    | none =>
      cases hdb' : db'.shadowedBase.findTopLevel className with
      | none => rfl
      | some d' => simp [hdb, hdb'] at hfind
    | some d =>
      cases hdb' : db'.shadowedBase.findTopLevel className with
      | none => simp [hdb, hdb'] at hfind
      | some d' => exact hread h.base
  have hall : (db.layered (·.superclassOf className) (·.superclassOf className)
        (·.superclassOf className)).map id = (db'.layered (·.superclassOf className)
          (·.superclassOf className) (·.superclassOf className)).map id :=
    layered_outward hbuilt (by rw [hread h.workspace]) (by rw [hbase]) fun b hb => rfl
  rw [Option.map_id] at hall
  exact hall

end Reads

/-! ### Lookups under an observer -/

/-- The lookups that the diagnostic rules make. -/
inductive ObservedLookup
  | findTopLevel (name : String)
  | findTopLevelFiltered (name : String) (ctx : NameContext)
  | findEnumMember (name : String)
  | superclassOf (className : String)
  | inheritsFrom (className ancestor : String)
  | findStateInOwnerChain (startOwner name : String)
  | findMember (container name : String) (minAccess : AccessLevel)
  | findClassBodyMember (container name : String)
  | findNativeMember (container name : String)

inductive LookupResult
  | definition (d : Option Definition)
  | className (name : Option String)
  | holds (b : Bool)

/-- A result as another document sees it; a definition is seen with its parameters. -/
inductive OutwardResult
  | definition (d : Option OutwardView)
  | className (name : Option String)
  | holds (b : Bool)

def LookupResult.outward (placed : Placed) (db : SymbolDb) : LookupResult → OutwardResult
  | definition d => .definition (d.map (db.outward placed))
  | className name => .className name
  | holds b => .holds b

namespace ObservedLookup

def run (db : SymbolDb) (callDepth : Nat) : ObservedLookup → Observed LookupResult
  | findTopLevel name => do return .definition (← db.findTopLevel name)
  | findTopLevelFiltered name ctx => do return .definition (← db.findTopLevelFiltered name ctx)
  | findEnumMember name => do return .definition (← db.findEnumMember name)
  | superclassOf c => do return .className (← db.superclassOf callDepth c)
  | inheritsFrom c ancestor => do return .holds (← db.inheritsFrom callDepth c ancestor)
  | findStateInOwnerChain owner name => do
    return .definition (← db.findStateInOwnerChain callDepth owner name)
  | findMember c name minAccess => do
    return .definition (← db.findMember callDepth c name minAccess)
  | findClassBodyMember c name => do
    return .definition (← db.findClassBodyMember callDepth c name)
  | findNativeMember c name => do
    return .definition (← db.findNativeMember callDepth c name)

/-- The keys that the lookup records with a bucket that it reads. -/
def keysAt (q : ObservedLookup) : Slot → List ObservedKey
  | .topLevel name => [.topLevel name]
  | .superclass name => [.topLevel name]
  | .state owner name => [.topLevel owner, .topLevel (stateClassName owner name)]
  | .enumMember name => [.enumMember name]
  | .member c name =>
    match q with
    | findClassBodyMember _ _ => [.topLevel c]
    | _ => [.topLevel c, .member c name]
  | .annotated c name => [.topLevel c, .member c name]
  | _ => []

end ObservedLookup

namespace SymbolDb

/-- The classes that a walk over superclasses comes to when it ends at the classes in `stops`. -/
inductive WalksTo (db : SymbolDb) (stops : String → Prop) (start : String) : String → Prop
  | here : WalksTo db stops start start
  | up {c parent : String} {callDepth : Nat} : WalksTo db stops start c → ¬stops c →
      (db.superclassOf callDepth c).value = some (some parent) → WalksTo db stops start parent

/-- The owners under which the state `name` is looked for from `start` on. -/
def OwnerWalk (db : SymbolDb) (name start : String) : String → Prop :=
  db.WalksTo (fun owner => (db.stateInOwner owner name).isSome) start

/-- The superclass of `c` is the state `base` of `owner` or of one of its ancestors. -/
structure SearchesBase (db : SymbolDb) (c owner base : String) : Prop where
  undeclared : db.declaredSuperclass c = none
  state : ∃ d, db.topLevel c = some d ∧ d.symbol.kind = .state ∧
    d.symbol.ownerClass = some owner ∧ d.symbol.baseClass = some base

/-- The classes whose superclass is asked for: by the lookup itself, and on the way to the base of
a state. -/
inductive Asked (db : SymbolDb) (first : String → Prop) : String → Prop
  | first {c : String} : first c → Asked db first c
  | owner {c owner base current : String} : Asked db first c → db.SearchesBase c owner base →
      db.OwnerWalk base owner current → ¬(db.stateInOwner current base).isSome →
      Asked db first current

/-- The buckets that the questions for superclasses read. -/
inductive ChainReads (db : SymbolDb) (first : String → Prop) : Slot → Prop
  | topLevel {c : String} : db.Asked first c → ChainReads db first (.topLevel c)
  | superclass {c : String} : db.Asked first c → ChainReads db first (.superclass c)
  | state {c owner base current : String} : db.Asked first c → db.SearchesBase c owner base →
      db.OwnerWalk base owner current → ChainReads db first (.state current base)

/-- The buckets that a walk over superclasses reads to go on. -/
def WalkReads (db : SymbolDb) (stops : String → Prop) (start : String) : Slot → Prop :=
  db.ChainReads fun c => db.WalksTo stops start c ∧ ¬stops c

end SymbolDb

/-- The buckets that the lookup reads. -/
def ObservedLookup.Reads (db : SymbolDb) : ObservedLookup → Slot → Prop
  | findTopLevel name, σ => σ = .topLevel name
  | findTopLevelFiltered name _, σ => σ = .topLevel name
  | findEnumMember name, σ => σ = .enumMember name
  | superclassOf c, σ => db.ChainReads (· = c) σ
  | inheritsFrom c ancestor, σ => db.WalkReads (· = ancestor) c σ
  | findStateInOwnerChain owner name, σ =>
    (∃ c, db.OwnerWalk name owner c ∧ σ = .state c name) ∨
      db.WalkReads (fun c => (db.stateInOwner c name).isSome) owner σ
  | findMember container name _, σ =>
    (∃ c, db.WalksTo (fun c => (db.memberAt c name).isSome) (lookupCtor container) c ∧
        (σ = .member c name ∨ σ = .annotated c name)) ∨
      db.WalkReads (fun c => (db.memberAt c name).isSome) (lookupCtor container) σ
  | findClassBodyMember container name, σ =>
    (∃ c, db.WalksTo (fun c => (db.classBodyMemberAt c name).isSome) (lookupCtor container) c ∧
        σ = .member c name) ∨
      db.WalkReads (fun c => (db.classBodyMemberAt c name).isSome) (lookupCtor container) σ
  | findNativeMember container name, σ => ∃ b ∈ db.builtins,
    (∃ c, db.WalksTo (fun c => (b.directNativeMemberOf c name).isSome) container c ∧
        σ = .nativeMember c name) ∨
      db.WalkReads (fun c => (b.directNativeMemberOf c name).isSome) container σ

/-- One of the keys is reported as changed, or the bucket looks the same in both databases. -/
def Covered (placed : Placed) (db db' : SymbolDb) (changed keys : List ObservedKey) (σ : Slot) :
    Prop :=
  (∃ k ∈ keys, k ∈ changed) ∨ SameOutward placed db db' σ

lemma Covered.same {placed : Placed} {db db' : SymbolDb} {changed keys : List ObservedKey}
    {σ : Slot} (h : Covered placed db db' changed keys σ) (hkeys : ∀ k ∈ keys, k ∉ changed) :
    SameOutward placed db db' σ := by
  rcases h with ⟨k, hk, hin⟩ | hsame
  · exact absurd hin (hkeys k hk)
  · exact hsame

/-! ### The walks follow each other -/

section Follows

variable {placed : Placed} {db db' : SymbolDb} {changed : List ObservedKey}
  {first : String → Prop}

/-- Coverage of the buckets that the questions for superclasses read. -/
structure ChainCovered (placed : Placed) (db db' : SymbolDb) (changed : List ObservedKey)
    (first : String → Prop) : Prop where
  topLevel : ∀ {c}, db.Asked first c → ObservedKey.topLevel c ∉ changed →
    SameOutward placed db db' (.topLevel c)
  superclass : ∀ {c}, db.Asked first c → ObservedKey.topLevel c ∉ changed →
    SameOutward placed db db' (.superclass c)
  state : ∀ {c owner base current}, db.Asked first c → db.SearchesBase c owner base →
    db.OwnerWalk base owner current → ObservedKey.topLevel current ∉ changed →
    ObservedKey.topLevel (stateClassName current base) ∉ changed →
    SameOutward placed db db' (.state current base)

/-- A walk follows another as long as their superclasses and their visitors do on the classes
that the first one comes to. -/
lemma walkChain_follows {T V : Type} {f g : T → V} (reached asked : String → Prop)
    {superclass superclass' : String → Observed (Option String)}
    (hsuper : ∀ c, reached c → asked c → (superclass c).Follows changed
      (fun s s' => s = s' ∧ ∀ parent, s = some parent → reached parent) (superclass' c))
    {visit visit' : String → Nat → Observed (Option T)}
    (hvisit : ∀ c depth, reached c → ObservedKey.topLevel c ∉ changed →
      (visit c depth).Follows changed
        (fun a a' => a.map f = a'.map g ∧ (a = none → asked c)) (visit' c depth))
    (n : Nat) : ∀ depth current, reached current → Observed.Follows changed
      (fun r r' => r.1.map f = r'.1.map g)
      (SymbolDb.walkChain superclass (fun c d (_ : Unit) => do return (← visit c d, ()))
        n depth current ())
      (SymbolDb.walkChain superclass' (fun c d (_ : Unit) => do return (← visit' c d, ()))
        n depth current ()) := by
  induction n with
  | zero => exact fun _ _ _ => Observed.follows_pure rfl
  | succ n ih =>
    intro depth current hreached
    rw [SymbolDb.walkChain, SymbolDb.walkChain]
    refine Observed.follows_record _ fun hkey => ?_
    refine Observed.follows_bind
      (R := fun a a' => a.1.map f = a'.1.map g ∧ (a.1 = none → asked current))
      (Observed.follows_bind (hvisit current depth hreached hkey)
        (fun a a' haa => Observed.follows_pure haa)) ?_
    rintro ⟨found, ⟨⟩⟩ ⟨found', ⟨⟩⟩ ⟨hfound, hasked⟩
    cases found with
    | some t =>
      cases found' with
      | none => simp at hfound
      | some t' => exact Observed.follows_pure hfound
    | none =>
      cases found' with
      | some t' => simp at hfound
      | none =>
        refine Observed.follows_bind (hsuper current hreached (hasked rfl)) ?_
        rintro s _ ⟨rfl, hparent⟩
        cases s with
        | none => exact Observed.follows_pure rfl
        | some parent => exact ih (depth + 1) parent (hparent parent rfl)

lemma tryInChain_follows {T V : Type} {f g : T → V} {stops : String → Prop} {n : Nat}
    {start : String}
    (hsuper : ∀ c, db.WalksTo stops start c → ¬stops c →
      (db.superclassOf n c).Follows changed Eq (db'.superclassOf n c))
    {visit visit' : String → Nat → Observed (Option T)}
    (hvisit : ∀ c depth, db.WalksTo stops start c → ObservedKey.topLevel c ∉ changed →
      (visit c depth).Follows changed
        (fun a a' => a.map f = a'.map g ∧ (a = none → ¬stops c)) (visit' c depth)) :
    Observed.Follows changed (fun a a' => a.map f = a'.map g)
      (SymbolDb.tryInChain (db.superclassOf n) visit start)
      (SymbolDb.tryInChain (db'.superclassOf n) visit' start) := by
  refine Observed.follows_bind (walkChain_follows (db.WalksTo stops start) (fun c => ¬stops c) ?_
    hvisit _ 0 start .here) (fun _ _ hr => Observed.follows_pure hr)
  intro c hwalk hgoes
  refine (hsuper c hwalk hgoes).with_value.weaken fun s s' hs => ⟨hs.1, fun parent hparent => ?_⟩
  subst hparent
  exact .up hwalk hgoes hs.2

lemma findStateInOwnerChain_follows (hbuilt : SameBuiltins db db') {n : Nat} {owner name : String}
    (hstate : ∀ c, db.OwnerWalk name owner c → ObservedKey.topLevel c ∉ changed →
      ObservedKey.topLevel (stateClassName c name) ∉ changed →
      SameOutward placed db db' (.state c name))
    (hsuper : ∀ c, db.OwnerWalk name owner c → ¬(db.stateInOwner c name).isSome →
      (db.superclassOf n c).Follows changed Eq (db'.superclassOf n c)) :
    Observed.Follows changed (fun a a' => a.map (db.outward placed) = a'.map (db'.outward placed))
      (db.findStateInOwnerChainWith (db.superclassOf n) owner name)
      (db'.findStateInOwnerChainWith (db'.superclassOf n) owner name) := by
  refine tryInChain_follows hsuper (fun c _ hwalk howner => ?_)
  refine Observed.follows_record _ fun hclass => ?_
  apply Observed.follows_pure
  exact ⟨stateInOwner_outward hbuilt (hstate c hwalk howner hclass), fun h => by simp [h]⟩

lemma implicitSuperclassWith_follows (hbuilt : SameBuiltins db db')
    (hcovered : ChainCovered placed db db' changed first) {n : Nat}
    (hsuper : ∀ c, db.Asked first c →
      (db.superclassOf n c).Follows changed Eq (db'.superclassOf n c))
    {c : String} (hasked : db.Asked first c) (hundeclared : db.declaredSuperclass c = none) :
    Observed.Follows changed Eq (db.implicitSuperclassWith (db.superclassOf n) c)
      (db'.implicitSuperclassWith (db'.superclassOf n) c) := by
  refine Observed.follows_bind
    (R := fun a a' => a.map (db.outward placed) = a'.map (db'.outward placed) ∧ a = db.topLevel c)
    (Observed.follows_record _ fun hkey =>
      Observed.follows_pure ⟨topLevel_outward hbuilt (hcovered.topLevel hasked hkey), rfl⟩) ?_
  rintro d d' ⟨hd, hfound⟩
  cases d with
  | none =>
    cases d' with
    | none => exact Observed.follows_pure rfl
    | some d' => simp at hd
  | some d =>
    cases d' with
    | none => simp at hd
    | some d' =>
      have hview : db.outward placed d = db'.outward placed d' := by simpa using hd
      have hfields : d.symbol.fields = d'.symbol.fields := congrArg OutwardView.fields hview
      have hkind : d.symbol.kind = d'.symbol.kind := congrArg SymbolFields.kind hfields
      have howner : d.symbol.ownerClass = d'.symbol.ownerClass :=
        congrArg SymbolFields.ownerClass hfields
      have hbase : d.symbol.baseClass = d'.symbol.baseClass :=
        congrArg SymbolFields.baseClass hfields
      dsimp only
      rw [← hkind]
      cases hstate : d.symbol.kind with
      | state =>
        refine Observed.follows_bind (R := Eq) ?_
          (by rintro s _ rfl; exact Observed.follows_pure rfl)
        simp only [SymbolDb.stateSuperclassWith, ← howner, ← hbase]
        cases howner' : d.symbol.ownerClass with
        | none => exact Observed.follows_pure rfl
        | some owner =>
          cases hbase' : d.symbol.baseClass with
          | none => exact Observed.follows_pure rfl
          | some base =>
            have hsearch : db.SearchesBase c owner base :=
              ⟨hundeclared, d, hfound.symm, hstate, howner', hbase'⟩
            refine Observed.follows_bind (findStateInOwnerChain_follows hbuilt
              (fun current hwalk => hcovered.state hasked hsearch hwalk)
              (fun current hwalk hnone => hsuper current (.owner hasked hsearch hwalk hnone))) ?_
            intro found found' hfound
            refine Observed.follows_pure ?_
            -- The state's class name is part of its outward view.
            have htypeName := congrArg (Option.map OutwardView.typeName) hfound
            rw [Option.map_map, Option.map_map] at htypeName
            exact congrArg (fun o => o.getD stateBaseClass) htypeName
      | _ => exact Observed.follows_pure rfl

theorem superclassOf_follows (hbuilt : SameBuiltins db db')
    (hcovered : ChainCovered placed db db' changed first) (n : Nat) :
    ∀ c, db.Asked first c → (db.superclassOf n c).Follows changed Eq (db'.superclassOf n c) := by
  induction n with
  | zero => exact fun c _ => Observed.follows_outOfDepth _
  | succ n ih =>
    intro c hasked
    rw [SymbolDb.superclassOf, SymbolDb.superclassOf]
    refine Observed.follows_record _ fun hkey => ?_
    rw [← declaredSuperclass_eq hbuilt (hcovered.topLevel hasked hkey)
      (hcovered.superclass hasked hkey)]
    cases hdeclared : db.declaredSuperclass c with
    | some base => exact Observed.follows_pure rfl
    | none => exact implicitSuperclassWith_follows hbuilt hcovered ih hasked hdeclared

/-- What `instantiate` does to the outward view. -/
def instantiateView (container : String) (v : OutwardView) : OutwardView :=
  match parseGenericInstance container with
  | some generic => { v with
      fields := { v.fields with
        typeAnnotation := v.fields.typeAnnotation.map (substituteGenerics generic)
        containerName := v.fields.containerName.map (fun _ => container) } }
  | none => v

/-- A member of a generic instance looks the same when its declaration does. -/
lemma instantiate_outward (container : String) {a a' : Option Definition}
    (h : a.map (db.outward placed) = a'.map (db'.outward placed)) :
    (a.map (SymbolDb.instantiate container)).map (db.outward placed) =
      (a'.map (SymbolDb.instantiate container)).map (db'.outward placed) := by
  have hview : ∀ (e : SymbolDb) (d : Definition),
      e.outward placed (SymbolDb.instantiate container d) =
        instantiateView container (e.outward placed d) := by
    intro e d
    rw [SymbolDb.instantiate, instantiateView]
    cases parseGenericInstance container <;> rfl
  have hcomp : ∀ (e : SymbolDb) (b : Option Definition),
      (b.map (SymbolDb.instantiate container)).map (e.outward placed) =
        (b.map (e.outward placed)).map (instantiateView container) := by
    intro e b
    cases b with
    | none => rfl
    | some d => exact congrArg some (hview e d)
  rw [hcomp, hcomp, h]

end Follows

section Lookups

variable {placed : Placed} {db db' : SymbolDb} {changed : List ObservedKey}

lemma ChainCovered.of_reads {first : String → Prop} {q : ObservedLookup}
    (h : ∀ σ, db.ChainReads first σ → Covered placed db db' changed (q.keysAt σ) σ) :
    ChainCovered placed db db' changed first where
  topLevel hasked hkey :=
    (h _ (.topLevel hasked)).same (by simpa [ObservedLookup.keysAt] using hkey)
  superclass hasked hkey :=
    (h _ (.superclass hasked)).same (by simpa [ObservedLookup.keysAt] using hkey)
  state hasked hsearch hwalk hcurrent hclass :=
    (h _ (.state hasked hsearch hwalk)).same (by
      simpa [ObservedLookup.keysAt] using ⟨hcurrent, hclass⟩)

/-- The superclasses of the classes at which a walk does not end follow each other. -/
lemma walkReads_follows (hbuilt : SameBuiltins db db') {q : ObservedLookup} {stops : String → Prop}
    {start : String}
    (h : ∀ σ, db.WalkReads stops start σ → Covered placed db db' changed (q.keysAt σ) σ) (n : Nat)
    (c : String) (hwalk : db.WalksTo stops start c) (hgoes : ¬stops c) :
    (db.superclassOf n c).Follows changed Eq (db'.superclassOf n c) :=
  superclassOf_follows hbuilt (.of_reads h) n c (.first ⟨hwalk, hgoes⟩)

lemma findMember_follows (hbuilt : SameBuiltins db db') (container name : String)
    (minAccess : AccessLevel)
    (hcovered : ∀ σ, (ObservedLookup.findMember container name minAccess).Reads db σ →
      Covered placed db db' changed
        ((ObservedLookup.findMember container name minAccess).keysAt σ) σ)
    (n : Nat) : Observed.Follows changed
      (fun a a' => a.map (db.outward placed) = a'.map (db'.outward placed))
      (db.findMember n container name minAccess) (db'.findMember n container name minAccess) := by
  refine Observed.follows_bind
    (tryInChain_follows (f := db.outward placed) (g := db'.outward placed)
    (walkReads_follows hbuilt (fun σ hσ => hcovered σ (.inr hσ)) n)
    (fun c _ hwalk htop => ?_)) ?_
  · refine Observed.follows_record _ fun hmember => ?_
    apply Observed.follows_pure
    have hslot : ∀ σ, σ = .member c name ∨ σ = .annotated c name → SameOutward placed db db' σ := by
      intro σ hσ
      apply (hcovered σ (.inl ⟨c, hwalk, hσ⟩)).same
      rcases hσ with rfl | rfl
      all_goals simpa [ObservedLookup.keysAt] using ⟨htop, hmember⟩
    exact ⟨memberAt_outward hbuilt (hslot _ (.inl rfl)) (hslot _ (.inr rfl)), fun h => by simp [h]⟩
  · intro found found' hfound
    apply Observed.follows_pure
    exact instantiate_outward container
      (filter_outward (fun v => minAccess ≤ v.fields.access) hfound)

lemma findClassBodyMember_follows (hbuilt : SameBuiltins db db') (container name : String)
    (hcovered : ∀ σ, (ObservedLookup.findClassBodyMember container name).Reads db σ →
      Covered placed db db' changed
        ((ObservedLookup.findClassBodyMember container name).keysAt σ) σ)
    (n : Nat) : Observed.Follows changed
      (fun a a' => a.map (db.outward placed) = a'.map (db'.outward placed))
      (db.findClassBodyMember n container name) (db'.findClassBodyMember n container name) := by
  refine Observed.follows_bind
    (tryInChain_follows (f := db.outward placed) (g := db'.outward placed)
    (walkReads_follows hbuilt (fun σ hσ => hcovered σ (.inr hσ)) n)
    (fun c _ hwalk htop => ?_)) ?_
  · apply Observed.follows_pure
    have hsame : SameOutward placed db db' (.member c name) :=
      (hcovered _ (.inl ⟨c, hwalk, rfl⟩)).same (by simpa [ObservedLookup.keysAt] using htop)
    exact ⟨classBodyMemberAt_outward hbuilt hsame, fun h => by simp [h]⟩
  · intro found found' hfound
    apply Observed.follows_pure
    exact instantiate_outward container hfound

lemma findNativeMember_follows (hbuilt : SameBuiltins db db') (container name : String)
    (hcovered : ∀ σ, (ObservedLookup.findNativeMember container name).Reads db σ →
      Covered placed db db' changed ((ObservedLookup.findNativeMember container name).keysAt σ) σ)
    (n : Nat) : Observed.Follows changed
      (fun a a' => a.map (db.outward placed) = a'.map (db'.outward placed))
      (db.findNativeMember n container name) (db'.findNativeMember n container name) := by
  unfold SymbolDb.findNativeMember
  rw [show db'.builtins = db.builtins from hbuilt]
  cases hb : db.builtins with
  | none => exact Observed.follows_pure rfl
  | some b =>
    refine tryInChain_follows
      (walkReads_follows hbuilt (fun σ hσ => hcovered σ ⟨b, hb, .inr hσ⟩) n) (fun c _ hwalk _ => ?_)
    apply Observed.follows_pure
    have hsame : SameOutward placed db db' (.nativeMember c name) :=
      (hcovered _ ⟨b, hb, .inl ⟨c, hwalk, rfl⟩⟩).same (by simp [ObservedLookup.keysAt])
    exact ⟨getLast_outward (decl_bucket (hsame.builtins b hb)), fun h => by simp [h]⟩

lemma inheritsFrom_follows (hbuilt : SameBuiltins db db') (className ancestor : String)
    (hcovered : ∀ σ, (ObservedLookup.inheritsFrom className ancestor).Reads db σ →
      Covered placed db db' changed ((ObservedLookup.inheritsFrom className ancestor).keysAt σ) σ)
    (n : Nat) : Observed.Follows changed Eq
      (db.inheritsFrom n className ancestor) (db'.inheritsFrom n className ancestor) := by
  refine Observed.follows_bind (tryInChain_follows (f := id) (g := id)
    (walkReads_follows hbuilt hcovered n)
    (fun c _ _ _ => Observed.follows_pure ⟨rfl, fun hnone heq => ?_⟩)) ?_
  · rw [if_pos heq] at hnone
    cases hnone
  · intro found found' hfound
    rw [Option.map_id] at hfound
    rw [show found = found' from hfound]
    exact Observed.follows_pure rfl

/-- A covered lookup that records no reported key answers the same on the other database. -/
theorem ObservedLookup.run_follows (hbuilt : SameBuiltins db db') (q : ObservedLookup)
    (hcovered : ∀ σ, q.Reads db σ → Covered placed db db' changed (q.keysAt σ) σ) (n : Nat) :
    Observed.Follows changed (fun r r' => r.outward placed db = r'.outward placed db')
      (q.run db n) (q.run db' n) := by
  have hdefinition : ∀ {x x' : Observed (Option Definition)},
      Observed.Follows changed
        (fun a a' => a.map (db.outward placed) = a'.map (db'.outward placed)) x x' →
      Observed.Follows changed (fun r r' => r.outward placed db = r'.outward placed db')
        (do return LookupResult.definition (← x)) (do return LookupResult.definition (← x')) :=
    fun hx => Observed.follows_bind hx fun a a' h =>
      Observed.follows_pure (congrArg OutwardResult.definition h)
  cases q with
  | findTopLevel name =>
    refine hdefinition (Observed.follows_record _ fun hkey => ?_)
    apply Observed.follows_pure
    exact topLevel_outward hbuilt ((hcovered _ rfl).same (by simpa [keysAt] using hkey))
  | findTopLevelFiltered name ctx =>
    refine hdefinition (Observed.follows_record _ fun hkey => ?_)
    apply Observed.follows_pure
    exact findTopLevelFiltered_outward hbuilt ctx
      ((hcovered _ rfl).same (by simpa [keysAt] using hkey))
  | findEnumMember name =>
    refine hdefinition (Observed.follows_record _ fun hkey => ?_)
    apply Observed.follows_pure
    exact enumMember_outward hbuilt ((hcovered _ rfl).same (by simpa [keysAt] using hkey))
  | superclassOf c =>
    refine Observed.follows_bind
      (superclassOf_follows hbuilt (.of_reads hcovered) n c (.first rfl)) ?_
    rintro s _ rfl
    exact Observed.follows_pure rfl
  | inheritsFrom c ancestor =>
    refine Observed.follows_bind (inheritsFrom_follows hbuilt c ancestor hcovered n) ?_
    rintro b _ rfl
    exact Observed.follows_pure rfl
  | findStateInOwnerChain owner name =>
    apply hdefinition
    refine findStateInOwnerChain_follows hbuilt (fun c hwalk howner hclass => ?_)
      (walkReads_follows hbuilt (fun σ hσ => hcovered σ (.inr hσ)) n)
    exact (hcovered _ (.inl ⟨c, hwalk, rfl⟩)).same (by simpa [keysAt] using ⟨howner, hclass⟩)
  | findMember c name minAccess =>
    exact hdefinition (findMember_follows hbuilt c name minAccess hcovered n)
  | findClassBodyMember c name =>
    exact hdefinition (findClassBodyMember_follows hbuilt c name hcovered n)
  | findNativeMember c name =>
    exact hdefinition (findNativeMember_follows hbuilt c name hcovered n)

end Lookups

/-! ### The two key vocabularies -/

/-- A declaration whose reported key is one that lookups of its buckets record: no state, no
injected member, no enum member. -/
def Symbol.plainlyKeyed (sym : Symbol) : Bool :=
  sym.stateClass.isNone && sym.kind != .state && sym.kind != .enumMember &&
    sym.annotationTargetClassSafe.isNone && !sym.requiresImport

lemma Symbol.plainlyKeyed_slot {uri : String} {sym : Symbol} (hplain : sym.plainlyKeyed)
    {σ : Slot} {e : IndexEntry} (hins : (σ, e) ∈ Indices.insertedAt uri sym) :
    (outwardKeyFor sym = .topLevel sym.name ∧ (σ = .topLevel sym.name ∨ σ = .superclass sym.name ∨
      ∃ base, σ = .subclass base)) ∨
    ∃ c, outwardKeyFor sym = .member c sym.name ∧ σ = .member c sym.name := by
  simp only [Symbol.plainlyKeyed, Bool.and_eq_true, bne_iff_ne, Bool.not_eq_true',
    Option.isNone_iff_eq_none] at hplain
  obtain ⟨⟨⟨⟨hstate, hkind⟩, henum⟩, hannotation⟩, himport⟩ := hplain
  have htypeName : sym.typeName = sym.name := by rw [Symbol.typeName, hstate]; rfl
  cases hcontainer : sym.container with
  | none =>
    have hkey : outwardKeyFor sym = .topLevel sym.name := by simp [outwardKeyFor, hcontainer]
    refine .inl ⟨hkey, ?_⟩
    simp only [Indices.insertedAt, himport, hannotation, hcontainer, hkind, decide_false,
      htypeName, Option.isNone_none, Bool.false_eq_true, if_true, if_false, List.append_nil] at hins
    rcases List.mem_cons.mp hins with h | h
    · exact .inl (congrArg Prod.fst h)
    · split at h
      · rcases List.mem_cons.mp h with h | h
        · exact .inr (.inl (congrArg Prod.fst h))
        · exact .inr (.inr ⟨_, congrArg Prod.fst (List.mem_singleton.mp h)⟩)
      · cases h
  | some id =>
    have hkey : outwardKeyFor sym = .member (sym.containerName.getD "") sym.name := by
      simp [outwardKeyFor, hcontainer, henum]
    cases hname : sym.containerName with
    | none => simp [Indices.insertedAt, himport, hannotation, hcontainer, hname] at hins
    | some cn =>
      refine .inr ⟨cn, by rw [hkey, hname]; rfl, ?_⟩
      simp only [Indices.insertedAt, himport, hannotation, hcontainer, hname, henum,
        Option.isNone_some, Bool.false_eq_true, if_false, List.mem_singleton] at hins
      exact congrArg Prod.fst hins

lemma ObservedLookup.not_reads_subclass {db : SymbolDb} (q : ObservedLookup) (base : String) :
    ¬q.Reads db (.subclass base) := by
  intro h
  cases q with
  | findTopLevel _ | findTopLevelFiltered _ _ | findEnumMember _ => cases h
  | superclassOf _ | inheritsFrom _ _ => cases h
  | findStateInOwnerChain _ _ | findClassBodyMember _ _ =>
    rcases h with ⟨_, _, h⟩ | h
    · cases h
    · cases h
  | findMember _ _ _ =>
    rcases h with ⟨_, _, h | h⟩ | h
    · cases h
    · cases h
    · cases h
  | findNativeMember _ _ =>
    rcases h with ⟨_, _, ⟨_, _, h⟩ | h⟩
    · cases h
    · cases h

/-- Every lookup that reads a bucket of a plainly keyed declaration records the key under which
its changes are reported; only class-body lookups of members record their class alone. -/
theorem outwardKeyFor_mem_keysAt {db : SymbolDb} {uri : String} {sym : Symbol}
    (hplain : sym.plainlyKeyed) {σ : Slot} {e : IndexEntry}
    (hins : (σ, e) ∈ Indices.insertedAt uri sym) {q : ObservedLookup}
    (hq : ∀ c name, q ≠ .findClassBodyMember c name) (hreads : q.Reads db σ) :
    outwardKeyFor sym ∈ q.keysAt σ := by
  rcases sym.plainlyKeyed_slot hplain hins with
    ⟨hkey, rfl | rfl | ⟨base, rfl⟩⟩ | ⟨c, hkey, rfl⟩
  · simp [hkey, ObservedLookup.keysAt]
  · simp [hkey, ObservedLookup.keysAt]
  · exact absurd hreads (q.not_reads_subclass base)
  · rw [hkey]
    cases q with
    | findClassBodyMember c' name' => exact absurd rfl (hq c' name')
    | _ => simp [ObservedLookup.keysAt]

/-! ### Changes of one document -/

inductive DocumentChange
  | apply (uri : String) (contribution : DocContribution)
  | remove (uri : String)

/-- The index that holds the changed document. -/
inductive ChangedLayer
  | workspace
  | base
  deriving DecidableEq

namespace DocumentChange

def uri : DocumentChange → String
  | apply uri _ => uri
  | remove uri => uri

/-- The symbols of the document from now on. -/
def symbols : DocumentChange → List Symbol
  | apply _ contribution => contribution.symbols
  | remove _ => []

/-- The hash of a key in the document from now on. -/
def hashOf (k : ObservedKey) : DocumentChange → Option UInt64
  | apply _ contribution => contribution.outward.lookup k
  | remove _ => none

def onIndex (ix : WorkspaceIndex) : DocumentChange → List ObservedKey × WorkspaceIndex
  | apply uri contribution => ix.applyContribution uri contribution
  | remove uri => ix.removeDocument uri

/-- The symbol tables with that of the document in place. -/
def onDocuments (documents : AList (fun _ : String => List Symbol)) :
    DocumentChange → AList (fun _ : String => List Symbol)
  | apply uri contribution => documents.insert uri contribution.symbols
  | remove uri => documents.erase uri

/-- One of the document's old symbols owns the entry in a slot that its removal visits. -/
def TakesOut (change : DocumentChange) (ix : WorkspaceIndex) (σ : Slot) (e : IndexEntry) : Prop :=
  ∃ sym ∈ (ix.documents.lookup change.uri).getD [],
    σ ∈ Indices.visitedByRemoval sym ∧ Indices.ownedBy change.uri sym σ e

/-- The old and the new symbols give the key different hashes. -/
def TellsKey (change : DocumentChange) (ix : WorkspaceIndex) (k : ObservedKey) : Prop :=
  (ix.docOutwardHashes.lookup change.uri).bind (fun hashes => hashes.lookup k) ≠ change.hashOf k

instance (change : DocumentChange) (ix : WorkspaceIndex) (k : ObservedKey) :
    Decidable (change.TellsKey ix k) := inferInstanceAs (Decidable (_ ≠ _))

end DocumentChange

namespace SymbolDb

def changedIndex (db : SymbolDb) : ChangedLayer → WorkspaceIndex
  | .workspace => db.workspace
  | .base => db.base

/-- The entries of a slot in the layers whose documents stay as they are. -/
def unchangedEntries (db : SymbolDb) (layer : ChangedLayer) (σ : Slot) : List IndexEntry :=
  (match layer with
    | .workspace => db.base.bucket σ
    | .base => db.workspace.bucket σ) ++ (db.builtins.map (fun b => b.bucket σ)).getD []

/-- The reported keys and the updated database. -/
def change (db : SymbolDb) (layer : ChangedLayer) (change : DocumentChange) :
    List ObservedKey × SymbolDb :=
  match layer with
  | .workspace =>
    ((change.onIndex db.workspace).1, { db with workspace := (change.onIndex db.workspace).2 })
  | .base => ((change.onIndex db.base).1, { db with base := (change.onIndex db.base).2 })

/-- The database with the document's symbol table in place, every name bucket as it was. -/
def withSymbols (db : SymbolDb) (layer : ChangedLayer) (change : DocumentChange) : SymbolDb :=
  match layer with
  | .workspace => { db with workspace := { db.workspace with
      documents := change.onDocuments db.workspace.documents } }
  | .base => { db with base := { db.base with
      documents := change.onDocuments db.base.documents } }

/-- From outside, the old and the new symbols of a document mean the same for a bucket. -/
structure KeepsBucket (placed : Placed) (db : SymbolDb) (layer : ChangedLayer)
    (change : DocumentChange) (σ : Slot) : Prop where
  /-- What the old symbols have filed stands at the end, where the new ones file what looks the
  same. -/
  own : ∃ others former, (db.changedIndex layer).bucket σ = others ++ former ∧
    (∀ e ∈ others, ¬change.TakesOut (db.changedIndex layer) σ e ∧
      db.outwardEntry placed e = (db.withSymbols layer change).outwardEntry placed e) ∧
    (∀ e ∈ former, change.TakesOut (db.changedIndex layer) σ e) ∧
    former.map (db.outwardEntry placed) =
      (contributed change.uri change.symbols σ).map
        ((db.withSymbols layer change).outwardEntry placed)
  /-- The other layers have no entry of the document whose parameters differ. -/
  unchanged : ∀ e ∈ db.unchangedEntries layer σ,
    db.outwardEntry placed e = (db.withSymbols layer change).outwardEntry placed e

end SymbolDb

lemma sameBuiltins_change (db : SymbolDb) (layer : ChangedLayer) (change : DocumentChange) :
    SameBuiltins db (db.change layer change).2 := by
  cases layer <;> exact rfl

lemma documents_onIndex (ix : WorkspaceIndex) (change : DocumentChange) :
    (change.onIndex ix).2.documents = change.onDocuments ix.documents := by
  cases change with
  | apply uri contribution => exact ix.documents_applyContribution uri contribution
  | remove uri => exact ix.documents_removeDocument uri

lemma bucket_onIndex (ix : WorkspaceIndex) (change : DocumentChange) (σ : Slot) :
    (change.onIndex ix).2.bucket σ = (ix.removeFromIndices change.uri).bucket σ ++
      contributed change.uri change.symbols σ := by
  cases change with
  | apply uri contribution => exact bucket_applyContribution ix uri contribution σ
  | remove uri =>
    have hnone : contributed uri [] σ = [] := Indices.bucket_empty σ
    exact (bucket_removeDocument ix uri σ).trans (by simp [DocumentChange.symbols, hnone,
      DocumentChange.uri])

/-- What a declaration looks like depends on the symbol tables alone. -/
lemma outwardEntry_change (placed : Placed) (db : SymbolDb) (layer : ChangedLayer)
    (change : DocumentChange) (e : IndexEntry) : (db.change layer change).2.outwardEntry placed e =
      (db.withSymbols layer change).outwardEntry placed e := by
  have hparams : ∀ ix : WorkspaceIndex, (change.onIndex ix).2.fullParametersOf =
      ({ ix with documents := change.onDocuments ix.documents } :
        WorkspaceIndex).fullParametersOf := by
    intro ix
    funext uri callableId
    simp only [WorkspaceIndex.fullParametersOf, documents_onIndex]
  cases e with
  | edge uri name => rfl
  | decl d =>
    cases layer with
    | workspace =>
      simp only [SymbolDb.outwardEntry, SymbolDb.outward, SymbolDb.fullParametersOf,
        SymbolDb.change, SymbolDb.withSymbols, hparams]
      rfl
    | base =>
      simp only [SymbolDb.outwardEntry, SymbolDb.outward, SymbolDb.fullParametersOf,
        SymbolDb.change, SymbolDb.withSymbols, SymbolDb.shadowedBase, ShadowedBase.fullParametersOf,
        ShadowedBase.uriVisible, hparams]
      rfl

lemma removeFromIndices_append {change : DocumentChange} {ix : WorkspaceIndex} {σ : Slot}
    {others former : List IndexEntry} (hbucket : ix.bucket σ = others ++ former)
    (hothers : ∀ e ∈ others, ¬change.TakesOut ix σ e)
    (hformer : ∀ e ∈ former, change.TakesOut ix σ e) :
    (ix.removeFromIndices change.uri).bucket σ = others := by
  have htakes : ∀ e, (((ix.documents.lookup change.uri).getD []).any (fun sym =>
      decide (σ ∈ Indices.visitedByRemoval sym) && Indices.ownedBy change.uri sym σ e)) = true ↔
        change.TakesOut ix σ e := by
    intro e
    simp [DocumentChange.TakesOut]
  rw [WorkspaceIndex.bucket_removeFromIndices, hbucket, List.filter_append,
    List.filter_eq_self.mpr, List.filter_eq_nil_iff.mpr, List.append_nil]
  · intro e he
    rw [Bool.not_eq_true', Bool.not_eq_false]
    exact (htakes e).mpr (hformer e he)
  · intro e he
    rw [Bool.not_eq_true', ← Bool.not_eq_true]
    exact fun h => hothers e he ((htakes e).mp h)

/-- A bucket for which the old and the new symbols mean the same looks the same afterwards. -/
lemma SymbolDb.KeepsBucket.sameOutward {placed : Placed} {db : SymbolDb} {layer : ChangedLayer}
    {change : DocumentChange} {σ : Slot} (h : db.KeepsBucket placed layer change σ) :
    SameOutward placed db (db.change layer change).2 σ := by
  have hview : (db.change layer change).2.outwardEntry placed =
      (db.withSymbols layer change).outwardEntry placed :=
    funext (outwardEntry_change placed db layer change)
  have hunchanged : ∀ {ix : WorkspaceIndex},
      (∀ e ∈ ix.bucket σ, e ∈ db.unchangedEntries layer σ) →
      SameBucket placed db (db.change layer change).2 ix ix σ := by
    intro ix hix
    unfold SameBucket
    rw [hview]
    exact List.map_congr_left fun e he => h.unchanged e (hix e he)
  have hown : SameBucket placed db (db.change layer change).2 (db.changedIndex layer)
      (change.onIndex (db.changedIndex layer)).2 σ := by
    obtain ⟨others, former, hbucket, hothers, hformer, hsame⟩ := h.own
    have hrest := removeFromIndices_append hbucket (fun e he => (hothers e he).1) hformer
    unfold SameBucket
    rw [hview, bucket_onIndex, hrest, hbucket, List.map_append, List.map_append, hsame,
      List.map_congr_left fun e he => (hothers e he).2]
  have hbuiltins : ∀ b ∈ db.builtins, SameBucket placed db (db.change layer change).2 b b σ := by
    intro b hb
    apply hunchanged
    intro e he
    have hb : db.builtins = some b := hb
    simp [SymbolDb.unchangedEntries, hb, he]
  cases layer with
  | workspace =>
    exact ⟨hown, hunchanged fun e he => by simp [SymbolDb.unchangedEntries, he], hbuiltins⟩
  | base =>
    exact ⟨hunchanged fun e he => by simp [SymbolDb.unchangedEntries, he], hown, hbuiltins⟩

/-- A key with different hashes is reported. -/
lemma mem_change_of_tellsKey {db : SymbolDb} {layer : ChangedLayer} {change : DocumentChange}
    {k : ObservedKey} (h : change.TellsKey (db.changedIndex layer) k) :
    k ∈ (db.change layer change).1 := by
  have hreported : ∀ ix : WorkspaceIndex, change.TellsKey ix k → k ∈ (change.onIndex ix).1 := by
    intro ix htells
    cases change with
    | apply uri contribution =>
      simp only [DocumentChange.TellsKey, DocumentChange.uri, DocumentChange.hashOf] at htells
      simp only [DocumentChange.onIndex, WorkspaceIndex.applyContribution,
        docOutwardHashes_removeFromIndices]
      cases hprev : ix.docOutwardHashes.lookup uri with
      | none =>
        rw [hprev] at htells
        exact AList.mem_keys.mp (AList.lookup_isSome.mp (Option.isSome_iff_ne_none.mpr htells.symm))
      | some prev =>
        rw [hprev] at htells
        exact mem_diffOutwardKeys.mpr htells
    | remove uri =>
      simp only [DocumentChange.TellsKey, DocumentChange.uri, DocumentChange.hashOf] at htells
      simp only [DocumentChange.onIndex, WorkspaceIndex.removeDocument,
        docOutwardHashes_removeFromIndices]
      cases hprev : ix.docOutwardHashes.lookup uri with
      | none => simp [hprev] at htells
      | some prev =>
        rw [hprev] at htells
        exact AList.mem_keys.mp (AList.lookup_isSome.mp (Option.isSome_iff_ne_none.mpr htells))
  cases layer with
  | workspace => exact hreported db.workspace h
  | base => exact hreported db.base h

/-- The symbol table of `class Foo extends Base {}`. -/
def classDocument : ParsedDocument where
  source := "class Foo extends Base {}"
  symbols := [
    { id := ⟨0⟩, name := "Foo", kind := .class, byteRange := ⟨0, 25⟩,
      selectionByteRange := ⟨6, 9⟩, baseClass := some "Base" }]
  identLeaves := [("Foo", ⟨6, 9⟩), ("Base", ⟨18, 22⟩)]

/-- The symbol table of `statemachine class Foo {}`. -/
def statemachineDocument : ParsedDocument where
  source := "statemachine class Foo {}"
  symbols := [
    { id := ⟨0⟩, name := "Foo", kind := .class, byteRange := ⟨0, 25⟩,
      selectionByteRange := ⟨19, 22⟩, specifiers := Specifiers.empty.insert .statemachine }]
  identLeaves := [("Foo", ⟨19, 22⟩)]

/-- The symbol table of `state Bar in Foo {}`. -/
def stateDocument : ParsedDocument where
  source := "state Bar in Foo {}"
  symbols := [
    { id := ⟨0⟩, name := "Bar", kind := .state, byteRange := ⟨0, 19⟩,
      selectionByteRange := ⟨6, 9⟩, ownerClass := some "Foo", stateClass := some "FooStateBar" }]
  identLeaves := [("Bar", ⟨6, 9⟩), ("Foo", ⟨13, 16⟩)]

/-- A hasher for concrete runs; it tells classes from the rest. -/
def kindHasher : Hasher where
  symbol f := if f.kind = .class then 1 else 2
  parameter ordinal _ := ordinal
  document _ fields := fields.length.toUInt64

end WitcherScriptLanguage
