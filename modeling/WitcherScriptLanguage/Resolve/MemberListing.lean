import WitcherScriptLanguage.Resolve.MemberPurity
import WitcherScriptLanguage.Resolve.Suppression
import WitcherScriptLanguage.Resolve.Termination

/-!
# Member listings against member lookups

`members_of` walks the same superclasses as `find_member` and keeps the first declaration of every
name, so a class's own listing decides. The two pick alike in the workspace and the builtins; in
the base index the lookup picks before it drops suppressed documents and the listing after.
-/

namespace WitcherScriptLanguage

open Library

lemma private_le (access : AccessLevel) : AccessLevel.private ≤ access := Nat.zero_le _

/-- The members of a name in the order in which a class's listing has them: the last class-body
declaration, then the injected ones. -/
def WorkspaceIndex.listedMembers (ix : WorkspaceIndex) (container name : String) :
    List Definition :=
  (ix.memberByType.bucket container name).getLast?.toList ++
    ix.annotatedMembersByType.bucket container name

lemma WorkspaceIndex.filter_directMembersOf {ix : WorkspaceIndex}
    (hkey : ∀ σ, ∀ e ∈ ix.bucket σ, σ.KeyedBy e) (container name : String) :
    (ix.directMembersOf container .private).filter (fun d => d.symbol.name = name) =
      ix.listedMembers container name := by
  have hall : ix.directMembersOf container .private =
      (ix.memberByType.inner container).entries.flatMap (fun s => s.2.getLast?.toList) ++
        (ix.annotatedMembersByType.inner container).entries.flatMap (fun s => s.2) := by
    rw [directMembersOf, List.filterMap_eq_flatMap_toList]
    exact List.filter_eq_self.mpr fun d _ => by simp [private_le]
  rw [hall, List.filter_append,
    filter_key_flatMap_entries _ (fun l => l.getLast?.toList) rfl (fun d => d.symbol.name)
      (fun k d hd => name_of_mem_member hkey (List.mem_of_getLast? (Option.mem_toList.mp hd))),
    filter_key_flatMap_entries _ (fun l => l) rfl (fun d => d.symbol.name)
      (fun k d hd => name_of_mem_annotated hkey hd)]
  rfl

lemma WorkspaceIndex.head?_listedMembers (ix : WorkspaceIndex) (container name : String) :
    (ix.listedMembers container name).head? = ix.directMemberOf container name .private := by
  have hall : ∀ o : Option Definition,
      o.filter (fun d => AccessLevel.private ≤ d.symbol.access) = o := by
    intro o
    cases o <;> simp [Option.filter, private_le]
  rw [listedMembers, directMemberOf, hall, List.head?_append]
  cases (ix.memberByType.bucket container name).getLast? <;> rfl

/-- The first unsuppressed member of a name. -/
def ShadowedBase.listedMemberOf (b : ShadowedBase) (container name : String) :
    Option Definition :=
  (b.index.listedMembers container name).find? b.defVisible

/-- The pick of the lookup is suppressed, and the listing goes on to another declaration. -/
def ShadowedBase.HidesMember (b : ShadowedBase) (container name : String) : Prop :=
  b.directMemberOf container name .private = none ∧ (b.listedMemberOf container name).isSome

lemma ShadowedBase.directMemberOf_eq_head (b : ShadowedBase) (container name : String) :
    b.directMemberOf container name .private =
      (b.index.listedMembers container name).head?.filter b.defVisible := by
  rw [directMemberOf, WorkspaceIndex.head?_listedMembers]

lemma ShadowedBase.listedMemberOf_of_directMemberOf {b : ShadowedBase} {container name : String}
    {d : Definition} (h : b.directMemberOf container name .private = some d) :
    b.listedMemberOf container name = some d := by
  rw [directMemberOf_eq_head] at h
  obtain ⟨hhead, hvisible⟩ := Option.filter_eq_some_iff.mp h
  rw [listedMemberOf]
  cases hlist : b.index.listedMembers container name with
  | nil =>
    rw [hlist] at hhead
    cases hhead
  | cons d' rest =>
    rw [hlist] at hhead
    cases hhead
    exact List.find?_cons_of_pos hvisible

namespace SymbolDb

variable {db : SymbolDb}

/-- The declaration of a name that the listing of a class shows. -/
def listedAt (db : SymbolDb) (container name : String) : Option Definition :=
  db.layered (·.directMemberOf container name .private) (·.listedMemberOf container name)
    (·.directMemberOf container name .private)

/-- Every layer is the index of a run. -/
def Built (H : Hasher) (db : SymbolDb) : Prop := ∀ ix ∈ db.layers, ∃ ops, ix = runIndex H ops

lemma Built.keyed {H : Hasher} (h : db.Built H) {ix : WorkspaceIndex} (hix : ix ∈ db.layers) :
    ∀ σ, ∀ e ∈ ix.bucket σ, σ.KeyedBy e := by
  obtain ⟨ops, rfl⟩ := h ix hix
  exact keyedBy_runIndex H ops

lemma find?_membersAt {H : Hasher} (h : db.Built H) (container name : String) :
    (db.membersAt container).find? (fun d => d.symbol.name = name) =
      db.listedAt container name := by
  have hindex : ∀ ix ∈ db.layers, (ix.directMembersOf container .private).find?
      (fun d => d.symbol.name = name) = ix.directMemberOf container name .private := by
    intro ix hix
    rw [← List.head?_filter, ix.filter_directMembersOf (h.keyed hix),
      WorkspaceIndex.head?_listedMembers]
  have hbase : (db.shadowedBase.directMembersOf container .private).find?
      (fun d => d.symbol.name = name) = db.shadowedBase.listedMemberOf container name := by
    rw [← List.head?_filter, ShadowedBase.directMembersOf, List.filter_comm,
      db.shadowedBase.index.filter_directMembersOf (h.keyed (by simp [layers, shadowedBase])),
      List.head?_filter]
    rfl
  rw [membersAt, List.find?_append, List.find?_append, hindex _ (by simp [layers]), hbase,
    listedAt, layered]
  cases hbuiltins : db.builtins with
  | none => simp
  | some builtins =>
    rw [Option.map_some, Option.getD_some, hindex builtins (by simp [layers, hbuiltins])]
    simp [Option.or_assoc]

lemma memberAt_eq (db : SymbolDb) (container name : String) : db.memberAt container name =
    (db.workspace.directMemberOf container name .private).or
      ((db.shadowedBase.directMemberOf container name .private).or
        (db.builtins.bind fun b => b.directMemberOf container name .private)) := rfl

lemma listedAt_eq (db : SymbolDb) (container name : String) : db.listedAt container name =
    (db.workspace.directMemberOf container name .private).or
      ((db.shadowedBase.listedMemberOf container name).or
        (db.builtins.bind fun b => b.directMemberOf container name .private)) := rfl

lemma memberAt_of_listedAt_eq_none {container name : String}
    (h : db.listedAt container name = none) : db.memberAt container name = none := by
  rw [listedAt_eq, Option.or_eq_none_iff, Option.or_eq_none_iff] at h
  obtain ⟨hws, hbase, hbuiltins⟩ := h
  rw [memberAt_eq, hws, hbuiltins]
  cases hpick : db.shadowedBase.directMemberOf container name .private with
  | none => rfl
  | some d =>
    rw [ShadowedBase.listedMemberOf_of_directMemberOf hpick] at hbase
    cases hbase

/-- The listing shows a declaration of the base index where the lookup has dropped its own pick. -/
def HiddenAt (db : SymbolDb) (container name : String) : Prop :=
  db.workspace.directMemberOf container name .private = none ∧
    db.shadowedBase.HidesMember container name

lemma memberAt_eq_listedAt {container name : String} (h : ¬db.HiddenAt container name) :
    db.memberAt container name = db.listedAt container name := by
  rw [memberAt_eq, listedAt_eq]
  cases hws : db.workspace.directMemberOf container name .private with
  | some d => rfl
  | none =>
    cases hpick : db.shadowedBase.directMemberOf container name .private with
    | some d => rw [ShadowedBase.listedMemberOf_of_directMemberOf hpick]
    | none =>
      cases hlisted : db.shadowedBase.listedMemberOf container name with
      | none => rfl
      | some d => exact absurd ⟨hws, hpick, by rw [hlisted]; rfl⟩ h

/-- The classes that a walk visits while its visitor finds nothing. -/
def visited (superclass : String → Observed (Option String)) : Nat → String → List String
  | 0, _ => []
  | remaining + 1, current =>
    current :: match (superclass current).value with
      | some (some parent) => visited superclass remaining parent
      | _ => []

lemma lookup_seeMembers (tier : Nat) (defs : List Definition) (name : String)
    (seen : AList (fun _ : String => Nat × Definition)) :
    (seeMembers tier defs seen).lookup name = (seen.lookup name).or
      ((defs.find? fun d => d.symbol.name = name).map fun d => (tier, d)) := by
  induction defs generalizing seen with
  | nil => simp [seeMembers]
  | cons d rest ih =>
    have hstep : seeMembers tier (d :: rest) seen = seeMembers tier rest
        (if d.symbol.name ∈ seen then seen else seen.insert d.symbol.name (tier, d)) := rfl
    rw [hstep, ih]
    by_cases hname : d.symbol.name = name
    · rw [List.find?_cons_of_pos (by simpa using hname)]
      subst hname
      split_ifs with hseen
      · obtain ⟨e, he⟩ := Option.isSome_iff_exists.mp (AList.lookup_isSome.mpr hseen)
        rw [he]
        rfl
      · rw [AList.lookup_insert, AList.lookup_eq_none.mpr hseen]
        rfl
    · rw [List.find?_cons_of_neg (by simpa using hname)]
      split_ifs with hseen
      · rfl
      · rw [AList.lookup_insert_ne (Ne.symm hname)]

section Walk

variable {superclass : String → Observed (Option String)}

/-- The listing's walk ends with the first declaration of every name on the way. -/
lemma lookup_walkChain_listing (remaining depth : Nat) (current : String)
    (seen seen' : AList (fun _ : String => Nat × Definition)) (found : Option Unit)
    (h : (walkChain superclass (fun current depth seen =>
      return (none, seeMembers (if depth ≠ 0 then 1 else 0) (db.membersAt current) seen))
        remaining depth current seen).value = some (found, seen')) (name : String) :
    (seen'.lookup name).map Prod.snd = ((seen.lookup name).map Prod.snd).or
      ((visited superclass remaining current).findSome? fun c =>
        (db.membersAt c).find? fun d => d.symbol.name = name) := by
  induction remaining generalizing depth current seen with
  | zero =>
    cases h
    simp [visited]
  | succ remaining ih =>
    rw [value_walkChain_succ] at h
    simp only [Observed.value_pure, Option.bind_some] at h
    have hseen := lookup_seeMembers (if depth ≠ 0 then 1 else 0) (db.membersAt current) name seen
    have hmap : ((seeMembers (if depth ≠ 0 then 1 else 0) (db.membersAt current) seen).lookup
        name).map Prod.snd = ((seen.lookup name).map Prod.snd).or
          ((db.membersAt current).find? fun d => d.symbol.name = name) := by
      rw [hseen]
      cases seen.lookup name with
      | some e => rfl
      | none =>
        cases (db.membersAt current).find? fun d => d.symbol.name = name <;> rfl
    obtain ⟨s, hs, hrest⟩ := Option.bind_eq_some_iff.mp h
    rw [visited, hs, List.findSome?_cons]
    cases s with
    | none =>
      cases hrest
      rw [hmap]
      cases (db.membersAt current).find? fun d => d.symbol.name = name <;> rfl
    | some parent =>
      rw [ih (depth + 1) parent _ hrest, hmap, Option.or_assoc]
      cases (db.membersAt current).find? fun d => d.symbol.name = name <;> rfl

/-- Wherever the listing's walk ends, the lookup's walk ends with the first member found. -/
lemma value_walkChain_lookup (pick : String → Option Definition)
    (remaining depth depth' : Nat) (current : String)
    (seen : AList (fun _ : String => Nat × Definition)) (record : String → ObservedKey)
    (h : (walkChain (T := Unit) superclass (fun current depth seen =>
      return (none, seeMembers (if depth ≠ 0 then 1 else 0) (db.membersAt current) seen))
        remaining depth current seen).value.isSome) :
    (walkChain superclass (fun current _ (_ : Unit) => do
      return (← (do
        Observed.record (record current)
        return pick current : Observed (Option Definition)), ()))
        remaining depth' current ()).value =
      some ((visited superclass remaining current).findSome? pick, ()) := by
  induction remaining generalizing depth depth' current seen with
  | zero => rfl
  | succ remaining ih =>
    rw [value_walkChain_succ] at h ⊢
    simp only [Observed.value_pure, Observed.value_bind, Observed.value_record,
      Option.bind_some] at h ⊢
    rw [visited, List.findSome?_cons]
    cases hpick : pick current with
    | some d => rfl
    | none =>
      obtain ⟨r, hr⟩ := Option.isSome_iff_exists.mp h
      obtain ⟨s, hs, hrest⟩ := Option.bind_eq_some_iff.mp hr
      rw [hs]
      cases s with
      | none => rfl
      | some parent =>
        exact ih (depth + 1) (depth' + 1) parent _ (Option.isSome_iff_exists.mpr ⟨r, hrest⟩)

end Walk

/-! ### Listings and lookups -/

/-- What is returned of a declaration: nothing without access, and a generic instance's own
types. -/
def answerFor (container : String) (minAccess : AccessLevel) (found : Option Definition) :
    Option Definition :=
  (found.filter fun d => minAccess ≤ d.symbol.access).map (instantiate container)

/-- The classes on which the members of a class are looked for. -/
def memberClasses (db : SymbolDb) (callDepth : Nat) (container : String) : List String :=
  visited (db.superclassOf callDepth) (maxInheritanceDepth + 1) (lookupCtor container)

lemma name_instantiate (container : String) (d : Definition) :
    (instantiate container d).symbol.name = d.symbol.name := by
  unfold instantiate
  cases parseGenericInstance container <;> rfl

section Members

variable {callDepth : Nat} {container : String} {minAccess : AccessLevel} {defs : List Definition}

lemma exists_seen (h : (db.membersOf callDepth container minAccess).value = some defs) :
    ∃ found seen, (walkChain (T := Unit) (db.superclassOf callDepth) (fun current depth seen =>
      return (none, seeMembers (if depth ≠ 0 then 1 else 0) (db.membersAt current) seen))
        (maxInheritanceDepth + 1) 0 (lookupCtor container) ∅).value = some (found, seen) ∧
      defs = (((seen.entries.map (·.2)).filter
        (fun e => minAccess ≤ e.2.symbol.access)).map fun e => instantiate container e.2) := by
  rw [membersOf, Observed.value_bind, membersOfTiered, Observed.value_bind] at h
  obtain ⟨tiered, htiered, hdefs⟩ := Option.bind_eq_some_iff.mp h
  obtain ⟨⟨found, seen⟩, hwalk, hpure⟩ := Option.bind_eq_some_iff.mp htiered
  refine ⟨found, seen, hwalk, ?_⟩
  cases hpure
  cases hdefs
  rw [List.map_map]
  rfl

/-- The listing keeps every declaration under its own name. -/
lemma name_of_lookup_seen {H : Hasher} (hbuilt : db.Built H) {found : Option Unit}
    {seen : AList (fun _ : String => Nat × Definition)}
    (h : (walkChain (db.superclassOf callDepth) (fun current depth seen =>
      return (none, seeMembers (if depth ≠ 0 then 1 else 0) (db.membersAt current) seen))
        (maxInheritanceDepth + 1) 0 (lookupCtor container) ∅).value = some (found, seen))
    (name : String) : (seen.lookup name).map Prod.snd =
      (db.memberClasses callDepth container).findSome? (db.listedAt · name) := by
  rw [lookup_walkChain_listing _ _ _ _ _ _ h name, AList.lookup_empty]
  simp only [find?_membersAt hbuilt]
  rfl

lemma name_of_listed {H : Hasher} (hbuilt : db.Built H) {classes : List String} {name : String}
    {d : Definition} (h : classes.findSome? (db.listedAt · name) = some d) :
    d.symbol.name = name := by
  obtain ⟨c, -, hc⟩ := List.exists_of_findSome?_eq_some h
  rw [← find?_membersAt hbuilt] at hc
  have hname := List.find?_some (p := fun d : Definition => decide (d.symbol.name = name)) hc
  exact of_decide_eq_true hname

lemma mem_seen_iff {H : Hasher} (hbuilt : db.Built H) {found : Option Unit}
    {seen : AList (fun _ : String => Nat × Definition)}
    (h : (walkChain (db.superclassOf callDepth) (fun current depth seen =>
      return (none, seeMembers (if depth ≠ 0 then 1 else 0) (db.membersAt current) seen))
        (maxInheritanceDepth + 1) 0 (lookupCtor container) ∅).value = some (found, seen))
    (d : Definition) : (∃ tier, (tier, d) ∈ seen.entries.map (·.2)) ↔
      (db.memberClasses callDepth container).findSome? (db.listedAt · d.symbol.name) = some d := by
  constructor
  · rintro ⟨tier, hmem⟩
    obtain ⟨⟨name, e⟩, hentry, rfl⟩ := List.mem_map.mp hmem
    have hlookup : seen.lookup name = some (tier, d) := AList.mem_lookup_iff.mpr hentry
    have hlisted := name_of_lookup_seen hbuilt h name
    rw [hlookup] at hlisted
    have hname := name_of_listed hbuilt hlisted.symm
    rw [hname]
    exact hlisted.symm
  · intro hlisted
    have hlookup := name_of_lookup_seen hbuilt h d.symbol.name
    rw [hlisted] at hlookup
    obtain ⟨⟨tier, d'⟩, he, rfl⟩ := Option.map_eq_some_iff.mp hlookup
    exact ⟨tier, List.mem_map_of_mem (AList.mem_lookup_iff.mp he)⟩

/-- The listing has, of every name, what the first class that lists it shows. -/
theorem mem_membersOf_iff {H : Hasher} (hbuilt : db.Built H)
    (h : (db.membersOf callDepth container minAccess).value = some defs) (name : String)
    (d : Definition) : d ∈ defs ∧ d.symbol.name = name ↔
      answerFor container minAccess
        ((db.memberClasses callDepth container).findSome? (db.listedAt · name)) = some d := by
  obtain ⟨found, seen, hwalk, rfl⟩ := exists_seen h
  have hseen := mem_seen_iff hbuilt hwalk
  rw [answerFor, Option.map_eq_some_iff, List.mem_map]
  constructor
  · rintro ⟨⟨⟨tier, e⟩, he, rfl⟩, rfl⟩
    obtain ⟨hmem, haccess⟩ := List.mem_filter.mp he
    refine ⟨e, ?_, rfl⟩
    rw [name_instantiate, (hseen e).mp ⟨tier, hmem⟩]
    exact Option.filter_eq_some_iff.mpr ⟨rfl, haccess⟩
  · rintro ⟨e, he, rfl⟩
    obtain ⟨hlisted, haccess⟩ := Option.filter_eq_some_iff.mp he
    have hname := name_of_listed hbuilt hlisted
    rw [← hname] at hlisted
    obtain ⟨tier, hmem⟩ := (hseen e).mpr hlisted
    exact ⟨⟨(tier, e), List.mem_filter.mpr ⟨hmem, haccess⟩, rfl⟩, by rw [name_instantiate, hname]⟩

lemma nodup_names_membersOf {H : Hasher} (hbuilt : db.Built H)
    (h : (db.membersOf callDepth container minAccess).value = some defs) :
    (defs.map fun d => d.symbol.name).Nodup := by
  obtain ⟨found, seen, hwalk, rfl⟩ := exists_seen h
  have hnames : (seen.entries.map (·.2)).map (fun e => e.2.symbol.name) = seen.keys := by
    rw [List.map_map]
    refine List.map_congr_left fun s hs => ?_
    have hlookup : seen.lookup s.1 = some s.2 := AList.mem_lookup_iff.mpr hs
    have hlisted := name_of_lookup_seen hbuilt hwalk s.1
    rw [hlookup] at hlisted
    exact name_of_listed hbuilt hlisted.symm
  rw [List.map_map]
  refine List.Nodup.sublist (List.Sublist.map _ List.filter_sublist) ?_
  rw [List.map_congr_left (g := fun e => e.2.symbol.name)
    fun e _ => name_instantiate container e.2, hnames]
  exact seen.nodupKeys

/-- The lookup finds what the first class that has the name picks. -/
theorem value_findMember (h : (db.membersOf callDepth container minAccess).value.isSome)
    (name : String) : (db.findMember callDepth container name minAccess).value =
      some (answerFor container minAccess
        ((db.memberClasses callDepth container).findSome? (db.memberAt · name))) := by
  obtain ⟨defs, hdefs⟩ := Option.isSome_iff_exists.mp h
  obtain ⟨found, seen, hwalk, -⟩ := exists_seen hdefs
  have hlookup := value_walkChain_lookup (db.memberAt · name) (maxInheritanceDepth + 1) 0 0
    (lookupCtor container) ∅ (fun current => .member current name)
    (Option.isSome_iff_exists.mpr ⟨_, hwalk⟩)
  rw [findMember, Observed.value_bind, value_tryInChain, hlookup]
  rfl

end Members

/-- The listing returns, and shows under every name just what the lookup finds. -/
def MembersAgree (db : SymbolDb) (container : String) (minAccess : AccessLevel) : Prop :=
  ∃ callDepth defs, (db.membersOf callDepth container minAccess).value = some defs ∧
    (defs.map fun d => d.symbol.name).Nodup ∧
    ∀ name d, d ∈ defs ∧ d.symbol.name = name ↔
      (db.findMember callDepth container name minAccess).value = some (some d)

/-- Where the first class that lists the name does so behind a suppressed pick, the listed
declaration and the one that the lookup goes on to answer alike. -/
def SparesMember (db : SymbolDb) (container : String) (minAccess : AccessLevel)
    (classes : List String) (name : String) : Prop :=
  ∀ before c after, classes = before ++ c :: after →
    (∀ b ∈ before, db.listedAt b name = none) → db.HiddenAt c name →
      answerFor container minAccess (db.listedAt c name) = answerFor container minAccess
        ((db.memberAt c name).or (after.findSome? (db.memberAt · name)))

lemma findSome?_split {f : String → Option Definition} {before after : List String} {c : String}
    (hbefore : ∀ b ∈ before, f b = none) :
    (before ++ c :: after).findSome? f = (f c).or (after.findSome? f) := by
  rw [List.findSome?_append, List.findSome?_eq_none_iff.mpr hbefore, Option.none_or,
    List.findSome?_cons]
  cases f c <;> rfl

lemma sparesMember_iff {container : String} {minAccess : AccessLevel} {classes : List String}
    {name : String} : db.SparesMember container minAccess classes name ↔
      answerFor container minAccess (classes.findSome? (db.listedAt · name)) =
        answerFor container minAccess (classes.findSome? (db.memberAt · name)) := by
  have hsplit : ∀ before c after, classes = before ++ c :: after →
      (∀ b ∈ before, db.listedAt b name = none) → (db.listedAt c name).isSome →
        classes.findSome? (db.listedAt · name) = db.listedAt c name ∧
        classes.findSome? (db.memberAt · name) =
          (db.memberAt c name).or (after.findSome? (db.memberAt · name)) := by
    rintro before c after rfl hbefore hlisted
    obtain ⟨d, hd⟩ := Option.isSome_iff_exists.mp hlisted
    rw [findSome?_split hbefore, findSome?_split fun b hb =>
      memberAt_of_listedAt_eq_none (hbefore b hb), hd]
    exact ⟨rfl, rfl⟩
  have hhidden : ∀ c, db.HiddenAt c name → (db.listedAt c name).isSome := by
    intro c hc
    obtain ⟨d, hd⟩ := Option.isSome_iff_exists.mp hc.2.2
    rw [listedAt_eq, hc.1, hd]
    rfl
  constructor
  · intro hspares
    cases hfound : classes.findSome? (db.listedAt · name) with
    | none =>
      rw [List.findSome?_eq_none_iff.mpr fun c hc =>
        memberAt_of_listedAt_eq_none (List.findSome?_eq_none_iff.mp hfound c hc)]
    | some d =>
      obtain ⟨before, c, after, hclasses, hc, hbefore⟩ := List.findSome?_eq_some_iff.mp hfound
      have hlisted : (db.listedAt c name).isSome := Option.isSome_iff_exists.mpr ⟨d, hc⟩
      obtain ⟨hfirst, hpicked⟩ := hsplit before c after hclasses hbefore hlisted
      rw [hpicked, ← hc]
      by_cases hhide : db.HiddenAt c name
      · exact hspares before c after hclasses hbefore hhide
      · rw [memberAt_eq_listedAt hhide, hc]
        rfl
  · intro hsame before c after hclasses hbefore hhide
    obtain ⟨hfirst, hpicked⟩ := hsplit before c after hclasses hbefore (hhidden c hhide)
    rw [← hfirst, ← hpicked]
    exact hsame

/-- Listing and lookup agree exactly when the walk up the superclasses ends and suppression hides
no pick that decides. -/
theorem membersAgree_iff (H : Hasher) (db : SymbolDb) (hbuilt : db.Built H) (container : String)
    (minAccess : AccessLevel) : db.MembersAgree container minAccess ↔
      ∃ callDepth, (db.membersOf callDepth container minAccess).value.isSome ∧
        ∀ name, db.SparesMember container minAccess (db.memberClasses callDepth container) name := by
  have hagree : ∀ callDepth defs, (db.membersOf callDepth container minAccess).value = some defs →
      ((∀ name d, d ∈ defs ∧ d.symbol.name = name ↔
        (db.findMember callDepth container name minAccess).value = some (some d)) ↔
      ∀ name, db.SparesMember container minAccess (db.memberClasses callDepth container) name) := by
    intro callDepth defs hdefs
    refine forall_congr' fun name => ?_
    rw [sparesMember_iff, value_findMember (by rw [hdefs]; rfl) name]
    simp only [mem_membersOf_iff hbuilt hdefs name, Option.some.injEq]
    exact ⟨fun h => Option.ext fun d => h d, fun h d => by rw [h]⟩
  constructor
  · rintro ⟨callDepth, defs, hdefs, -, hall⟩
    exact ⟨callDepth, by rw [hdefs]; rfl, (hagree callDepth defs hdefs).mp hall⟩
  · rintro ⟨callDepth, hsome, hspares⟩
    obtain ⟨defs, hdefs⟩ := Option.isSome_iff_exists.mp hsome
    exact ⟨callDepth, defs, hdefs, nodup_names_membersOf hbuilt hdefs,
      (hagree callDepth defs hdefs).mpr hspares⟩

/-- Without suppressed documents the base index picks alike. -/
lemma sparesMember_of_unsuppressed (h : db.suppressedBaseUris = none) (container : String)
    (minAccess : AccessLevel) (classes : List String) (name : String) :
    db.SparesMember container minAccess classes name := by
  intro before c after _ _ hhidden
  obtain ⟨-, hpick, hlisted⟩ := hhidden
  have hvisible : ∀ d, db.shadowedBase.defVisible d := by
    intro d
    simp [ShadowedBase.defVisible, ShadowedBase.uriVisible, shadowedBase, h]
  rw [ShadowedBase.directMemberOf_eq_head] at hpick
  rw [ShadowedBase.listedMemberOf] at hlisted
  cases hmembers : db.shadowedBase.index.listedMembers c name with
  | nil =>
    rw [hmembers] at hlisted
    cases hlisted
  | cons d rest =>
    rw [hmembers, List.head?_cons, Option.filter_some, if_pos (hvisible d)] at hpick
    cases hpick

end SymbolDb

/-- `@addMethod(C) function m() {}` -/
def addMethodDocument : ParsedDocument where
  source := "@addMethod(C) function m() {}"
  symbols := [
    { id := ⟨0⟩, name := "m", kind := .function, byteRange := ⟨0, 29⟩,
      selectionByteRange := ⟨23, 24⟩, annotations := [⟨"addMethod", some "C"⟩] }]
  identLeaves := [("C", ⟨11, 12⟩), ("m", ⟨23, 24⟩)]

/-- Base scripts that add the method to the class twice, the first of them suppressed. -/
def addedTwiceDb : SymbolDb where
  workspace := runIndex zeroHasher []
  base := runIndex zeroHasher [.update "file:///a.ws" addMethodDocument,
    .update "file:///b.ws" addMethodDocument, .update "file:///c.ws" classCDocument]
  suppressedBaseUris := some {"file:///a.ws"}

lemma built_addedTwiceDb : addedTwiceDb.Built zeroHasher := by
  intro ix hix
  rcases List.mem_cons.mp hix with rfl | hix
  · exact ⟨[], rfl⟩
  · rw [List.mem_singleton.mp hix]
    exact ⟨_, rfl⟩

lemma memberClasses_addedTwiceDb (callDepth : Nat) :
    addedTwiceDb.memberClasses callDepth "C" = ["C"] ∨
      addedTwiceDb.memberClasses callDepth "C" = ["C", "CObject"] := by
  cases callDepth with
  | zero => exact Or.inl rfl
  | succ n => exact Or.inr rfl

/-- The method of the second file is listed, and a lookup does not find it. -/
theorem not_membersAgree_addedTwice :
    ¬∀ (H : Hasher) (db : SymbolDb) (container : String) (minAccess : AccessLevel),
      db.Built H → db.MembersAgree container minAccess := by
  intro h
  obtain ⟨callDepth, defs, hdefs, -, hall⟩ := h _ _ "C" .private built_addedTwiceDb
  have hagree := hall "m" ⟨"file:///b.ws", addMethodDocument.symbols[0]⟩
  rw [SymbolDb.mem_membersOf_iff built_addedTwiceDb hdefs,
    SymbolDb.value_findMember (by rw [hdefs]; rfl)] at hagree
  rcases memberClasses_addedTwiceDb callDepth with hclasses | hclasses
  · rw [hclasses] at hagree
    revert hagree
    decide
  · rw [hclasses] at hagree
    revert hagree
    decide

/-- With nothing suppressed, the members of the class are listed as they are found. -/
theorem membersAgree_classFoo :
    (workspaceOf [.update "file:///a.ws" (extractedDocument classFoo)]).MembersAgree "Foo"
      .private :=
  (SymbolDb.membersAgree_iff zeroHasher _ (fun ix hix => by
    rcases mem_layers_workspaceOf hix with rfl | rfl
    · exact ⟨_, rfl⟩
    · exact ⟨[], rfl⟩) "Foo" .private).mpr
    ⟨2, by decide, SymbolDb.sparesMember_of_unsuppressed rfl "Foo" .private _⟩

end WitcherScriptLanguage
