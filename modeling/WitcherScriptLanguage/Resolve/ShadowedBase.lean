import Mathlib.Data.Finset.Insert
import WitcherScriptLanguage.Library.Choice
import WitcherScriptLanguage.Resolve.IndexHistory
import WitcherScriptLanguage.Resolve.Lookup

/-!
# The shadowed base index

`ShadowedBase` hides the documents that legacy scripts replace (`resolve/shadowed_base.rs`). Its
purpose is to answer as if the suppressed documents had never been indexed. Lookups that filter
a bucket and then pick do so; lookups that pick first lose every unsuppressed declaration behind
a suppressed candidate.
-/

namespace WitcherScriptLanguage

open Library

structure ShadowedBase where
  index : WorkspaceIndex
  suppressed : Option (Finset String)

namespace ShadowedBase

variable (b : ShadowedBase)

def uriVisible (uri : String) : Bool :=
  match b.suppressed with
  | some sup => uri ∉ sup
  | none => true

def defVisible (d : Definition) : Bool := b.uriVisible d.uri

def findTopLevel (name : String) : Option Definition :=
  (b.index.findTopLevel name).filter b.defVisible

def findTopLevelFiltered (name : String) (ctx : NameContext) : Option Definition :=
  (b.index.allTopLevelWithName name).find? (fun d => ctx.accepts d.symbol.kind && b.defVisible d)

def findStateInOwner (owner name : String) : Option Definition :=
  (b.index.findStateInOwner owner name).filter b.defVisible

def findEnumMember (name : String) : Option Definition :=
  (b.index.findEnumMember name).filter b.defVisible

def superclassOf (className : String) : Option String :=
  match b.findTopLevel className with
  | none => none
  | some _ => b.index.superclassOf className

def directMemberOf (container name : String) (minAccess : AccessLevel) : Option Definition :=
  (b.index.directMemberOf container name minAccess).filter b.defVisible

def classBodyMemberOf (container name : String) : Option Definition :=
  (b.index.classBodyMemberOf container name).filter b.defVisible

def classBodyMembersOf (container : String) : List Definition :=
  (b.index.classBodyMembersOf container).filter b.defVisible

def directMembersOf (container : String) (minAccess : AccessLevel) : List Definition :=
  (b.index.directMembersOf container minAccess).filter b.defVisible

def annotatedMembers (container name : String) : List Definition :=
  (b.index.annotatedMembers container name).filter b.defVisible

def filterCatalog (catalog : List Definition) (suppressed : Option (Finset String)) :
    List Definition :=
  match suppressed with
  | none => catalog
  | some sup => if sup = ∅ then catalog else catalog.filter (fun d => d.uri ∉ sup)

def callablesCatalog : List Definition :=
  filterCatalog b.index.completionCatalog.callables b.suppressed

def typesCatalog : List Definition :=
  filterCatalog b.index.completionCatalog.types b.suppressed

def enumMembersCatalog : List Definition :=
  filterCatalog b.index.completionCatalog.enumMembers b.suppressed

def fullParametersOf (uri : String) (callableId : SymbolId) : List Symbol :=
  if b.uriVisible uri then b.index.fullParametersOf uri callableId else []

end ShadowedBase

def IndexOp.visibleTo (suppressed : Finset String) (op : IndexOp) : Bool :=
  match op.target with
  | some uri => uri ∉ suppressed
  | none => true

/-- The same updates without those of suppressed documents. -/
def restrictOps (suppressed : Finset String) (ops : List IndexOp) : List IndexOp :=
  ops.filter (IndexOp.visibleTo suppressed)

/-- The index `rx` is `ix` without the entries of suppressed documents. -/
structure Restricts (suppressed : Finset String) (ix rx : WorkspaceIndex) : Prop where
  documents : ∀ u, rx.documents.lookup u = if u ∈ suppressed then none else ix.documents.lookup u
  buckets : ∀ σ, rx.bucket σ = (ix.bucket σ).filter (fun e => e.uri ∉ suppressed)

namespace Restricts

variable {suppressed : Finset String} {ix rx ix' rx' : WorkspaceIndex}

lemma of_forgetCatalog (h : Restricts suppressed ix rx)
    (hix : ix'.forgetCatalog = ix.forgetCatalog) (hrx : rx'.forgetCatalog = rx.forgetCatalog) :
    Restricts suppressed ix' rx' := by
  have hs : Restricts suppressed ix'.forgetCatalog rx'.forgetCatalog := by
    rw [hix, hrx]
    exact ⟨h.documents, h.buckets⟩
  exact ⟨hs.documents, hs.buckets⟩

/-- Removing an unsuppressed document removes the same entries on both sides. -/
lemma bucket_removeFromIndices (h : Restricts suppressed ix rx) {uri : String}
    (hu : uri ∉ suppressed) (σ : Slot) :
    (rx.removeFromIndices uri).bucket σ =
      ((ix.removeFromIndices uri).bucket σ).filter (fun e => e.uri ∉ suppressed) := by
  rw [WorkspaceIndex.bucket_removeFromIndices, WorkspaceIndex.bucket_removeFromIndices,
    h.documents, if_neg hu, h.buckets, List.filter_filter, List.filter_filter]
  simp only [Bool.and_comm]

/-- Removing a suppressed document touches suppressed entries only. -/
lemma bucket_removeFromIndices_of_mem (h : Restricts suppressed ix rx) {uri : String}
    (hu : uri ∈ suppressed) (σ : Slot) :
    rx.bucket σ =
      ((ix.removeFromIndices uri).bucket σ).filter (fun e => e.uri ∉ suppressed) := by
  rw [WorkspaceIndex.bucket_removeFromIndices, h.buckets, List.filter_filter]
  apply List.filter_congr
  intro e _
  by_cases he : e.uri ∈ suppressed
  · simp [he]
  · have hany : ((ix.documents.lookup uri).getD []).any (fun sym =>
        decide (σ ∈ Indices.visitedByRemoval sym) && Indices.ownedBy uri sym σ e) = false := by
      rw [Bool.eq_false_iff]
      exact fun hany => he (uri_of_any_owned hany ▸ hu)
    simp [he, hany]

lemma filter_contributed_visible {uri : String} (symbols : List Symbol) (σ : Slot) :
    (contributed uri symbols σ).filter (fun e => e.uri ∉ suppressed) =
      if uri ∈ suppressed then [] else contributed uri symbols σ := by
  split_ifs with h
  · exact List.filter_eq_nil_iff.mpr (fun e he => by simp [contributed_uri he, h])
  · exact List.filter_eq_self.mpr (fun e he => by simp [contributed_uri he, h])

theorem step (H : Hasher) (h : Restricts suppressed ix rx) (op : IndexOp)
    (hv : op.visibleTo suppressed) : Restricts suppressed (op.step H ix) (op.step H rx) := by
  have happly : ∀ uri c, uri ∉ suppressed → Restricts suppressed
      (ix.applyContribution uri c).2 (rx.applyContribution uri c).2 := by
    intro uri c hu
    constructor
    · intro u
      rw [WorkspaceIndex.documents_applyContribution, WorkspaceIndex.documents_applyContribution]
      by_cases hne : u = uri
      · subst hne
        simp [hu]
      · simp [AList.lookup_insert_ne hne, h.documents]
    · intro σ
      rw [bucket_applyContribution, bucket_applyContribution, h.bucket_removeFromIndices hu,
        List.filter_append, filter_contributed_visible, if_neg hu]
  cases op with
  | update uri document => exact happly uri _ (of_decide_eq_true hv)
  | apply uri c => exact happly uri c (of_decide_eq_true hv)
  | remove uri =>
    have hu : uri ∉ suppressed := of_decide_eq_true hv
    constructor
    · intro u
      simp only [IndexOp.step]
      rw [WorkspaceIndex.documents_removeDocument, WorkspaceIndex.documents_removeDocument]
      by_cases hne : u = uri
      · subst hne
        simp
      · simp [AList.lookup_erase_ne hne, h.documents]
    · intro σ
      simp only [IndexOp.step]
      rw [bucket_removeDocument, bucket_removeDocument, h.bucket_removeFromIndices hu]
  | beginBulk => exact h.of_forgetCatalog (by simp [IndexOp.step]) (by simp [IndexOp.step])
  | endBulk => exact h.of_forgetCatalog (by simp [IndexOp.step]) (by simp [IndexOp.step])

theorem step_hidden (H : Hasher) (h : Restricts suppressed ix rx) (op : IndexOp)
    (hv : op.visibleTo suppressed = false) : Restricts suppressed (op.step H ix) rx := by
  have happly : ∀ uri c, uri ∈ suppressed →
      Restricts suppressed (ix.applyContribution uri c).2 rx := by
    intro uri c hu
    constructor
    · intro u
      rw [WorkspaceIndex.documents_applyContribution]
      by_cases hne : u = uri
      · subst hne
        simp [h.documents, hu]
      · simp [AList.lookup_insert_ne hne, h.documents]
    · intro σ
      rw [bucket_applyContribution, List.filter_append, filter_contributed_visible, if_pos hu,
        List.append_nil]
      exact h.bucket_removeFromIndices_of_mem hu σ
  cases op with
  | update uri document => exact happly uri _ (by simpa [IndexOp.visibleTo, IndexOp.target] using hv)
  | apply uri c => exact happly uri c (by simpa [IndexOp.visibleTo, IndexOp.target] using hv)
  | remove uri =>
    have hu : uri ∈ suppressed := by simpa [IndexOp.visibleTo, IndexOp.target] using hv
    constructor
    · intro u
      simp only [IndexOp.step]
      rw [WorkspaceIndex.documents_removeDocument]
      by_cases hne : u = uri
      · subst hne
        simp [h.documents, hu]
      · simp [AList.lookup_erase_ne hne, h.documents]
    · intro σ
      simp only [IndexOp.step]
      rw [bucket_removeDocument]
      exact h.bucket_removeFromIndices_of_mem hu σ
  | beginBulk => exact absurd hv (by simp [IndexOp.visibleTo, IndexOp.target])
  | endBulk => exact absurd hv (by simp [IndexOp.visibleTo, IndexOp.target])

end Restricts

lemma restrictOps_concat (suppressed : Finset String) (ops : List IndexOp) (op : IndexOp) :
    restrictOps suppressed (ops ++ [op]) =
      restrictOps suppressed ops ++ if op.visibleTo suppressed then [op] else [] := by
  rw [restrictOps, List.filter_append, List.filter_singleton]
  cases op.visibleTo suppressed <;> rfl

/-- Every run restricts to the run without the suppressed documents. -/
theorem restricts_runIndex (H : Hasher) (suppressed : Finset String) (ops : List IndexOp) :
    Restricts suppressed (runIndex H ops) (runIndex H (restrictOps suppressed ops)) := by
  induction ops using List.reverseRecOn with
  | nil =>
    constructor
    · intro u
      simp [runIndex, restrictOps]
    · intro σ
      rw [bucket_runIndex_nil]
      exact bucket_runIndex_nil H σ
  | append_singleton pre op ih =>
    rw [restrictOps_concat, runIndex_concat]
    cases hv : op.visibleTo suppressed with
    | true =>
      rw [if_pos rfl, runIndex_concat]
      exact ih.step H op hv
    | false =>
      rw [if_neg Bool.false_ne_true, List.append_nil]
      exact ih.step_hidden H op hv

/-- A declaration sits under its own name in every map whose values are listed by key. -/
def Slot.KeyedBy : Slot → IndexEntry → Prop
  | .topLevel k, .decl d => d.symbol.typeName = k
  | .enumMember k, .decl d => d.symbol.name = k
  | .member _ k, .decl d => d.symbol.name = k
  | .annotated _ k, .decl d => d.symbol.name = k
  | _, _ => True

lemma Indices.insertedAt_keyedBy (uri : String) (sym : Symbol) :
    ∀ p ∈ Indices.insertedAt uri sym, p.1.KeyedBy p.2 := by
  intro p hp
  grind [Indices.insertedAt, Slot.KeyedBy]

/-- What holds of all that insertion files holds of all entries after a run. -/
theorem forall_bucket_runIndex {P : Slot → IndexEntry → Prop}
    (hP : ∀ uri sym, ∀ p ∈ Indices.insertedAt uri sym, P p.1 p.2) (H : Hasher)
    (ops : List IndexOp) : ∀ σ, ∀ e ∈ (runIndex H ops).bucket σ, P σ e := by
  have happly : ∀ {ix : WorkspaceIndex} uri c, (∀ σ, ∀ e ∈ ix.bucket σ, P σ e) →
      ∀ σ, ∀ e ∈ (ix.applyContribution uri c).2.bucket σ, P σ e := by
    intro ix uri c h σ e he
    rw [bucket_applyContribution, List.mem_append] at he
    rcases he with hold | hnew
    · exact h σ e (WorkspaceIndex.mem_of_mem_removeFromIndices hold)
    · obtain ⟨sym, -, hsym⟩ := List.mem_flatMap.mp (mem_contributed.mp hnew)
      exact hP uri sym _ hsym
  apply runIndex_invariant H (I := fun ix => ∀ σ, ∀ e ∈ ix.bucket σ, P σ e)
  · intro σ e he
    rw [bucket_runIndex_nil] at he
    cases he
  · intro ix ix' h heq σ e he
    have hbucket := congrArg (fun ix : WorkspaceIndex => ix.bucket σ) heq
    exact h σ e (hbucket ▸ he)
  · exact fun uri document h _ => happly uri _ h
  · exact fun uri c h _ => happly uri c h
  · intro ix uri h σ e he
    rw [bucket_removeDocument] at he
    exact h σ e (WorkspaceIndex.mem_of_mem_removeFromIndices he)

theorem keyedBy_runIndex (H : Hasher) (ops : List IndexOp) :
    ∀ σ, ∀ e ∈ (runIndex H ops).bucket σ, σ.KeyedBy e :=
  forall_bucket_runIndex Indices.insertedAt_keyedBy H ops

/-- Whether a declaration comes from a document outside `suppressed`. -/
def unsuppressed (suppressed : Finset String) (d : Definition) : Bool := d.uri ∉ suppressed

namespace Restricts

variable {suppressed : Finset String} {ix rx : WorkspaceIndex}

lemma eq_filter_of_map {α : Type} {f : α → IndexEntry} (hf : Function.Injective f)
    {l l' : List α} {p : IndexEntry → Bool} (h : l.map f = (l'.map f).filter p) :
    l = l'.filter (fun a => p (f a)) := by
  rw [List.filter_map] at h
  exact List.map_injective_iff.mpr hf h

lemma decl_injective : Function.Injective IndexEntry.decl := fun _ _ h => by cases h; rfl

lemma ofEdge_injective : Function.Injective IndexEntry.ofEdge := by
  rintro ⟨u, n⟩ ⟨u', n'⟩ h
  cases h
  rfl

lemma topLevel (h : Restricts suppressed ix rx) (k : String) :
    rx.topLevelByName.bucket k = (ix.topLevelByName.bucket k).filter (unsuppressed suppressed) :=
  eq_filter_of_map decl_injective (h.buckets (.topLevel k))

lemma enumMember (h : Restricts suppressed ix rx) (k : String) :
    rx.enumMemberByName.bucket k =
      (ix.enumMemberByName.bucket k).filter (unsuppressed suppressed) :=
  eq_filter_of_map decl_injective (h.buckets (.enumMember k))

lemma superclass (h : Restricts suppressed ix rx) (k : String) :
    rx.superclassByName.bucket k =
      (ix.superclassByName.bucket k).filter (fun e => e.1 ∉ suppressed) :=
  eq_filter_of_map ofEdge_injective (h.buckets (.superclass k))

lemma state (h : Restricts suppressed ix rx) (o k : String) :
    rx.statesByOwner.bucket o k =
      (ix.statesByOwner.bucket o k).filter (unsuppressed suppressed) :=
  eq_filter_of_map decl_injective (h.buckets (.state o k))

lemma member (h : Restricts suppressed ix rx) (c k : String) :
    rx.memberByType.bucket c k = (ix.memberByType.bucket c k).filter (unsuppressed suppressed) :=
  eq_filter_of_map decl_injective (h.buckets (.member c k))

lemma annotated (h : Restricts suppressed ix rx) (t k : String) :
    rx.annotatedMembersByType.bucket t k =
      (ix.annotatedMembersByType.bucket t k).filter (unsuppressed suppressed) :=
  eq_filter_of_map decl_injective (h.buckets (.annotated t k))

end Restricts

end WitcherScriptLanguage
