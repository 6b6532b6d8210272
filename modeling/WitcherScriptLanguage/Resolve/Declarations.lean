import WitcherScriptLanguage.Library.KeyedDedup
import WitcherScriptLanguage.Resolve.Termination

/-!
# Declarations of a logical member

A member of a class may have several declarations: the one of the class body and the annotated
ones that other files inject (`all_declarations_of` in `resolve/definition.rs`).
-/

namespace WitcherScriptLanguage

open Library

abbrev OccurrenceKey := String × ByteRange

instance : LawfulBEq OccurrenceKey := inferInstance

def definitionKey (d : Definition) : OccurrenceKey := (d.uri, d.symbol.selectionByteRange)

/-- `Definition` has no equality; identity is the URI with the selection range. -/
def dedupDefinitions (defs : List Definition) : List Definition := dedupOn definitionKey defs

/-- The container and the name that the declarations of one member share. -/
def logicalMember (s : Symbol) : Option (String × String) :=
  match s.kind with
  | .field =>
    if s.container.isNone then s.annotationTargetClass.map (·, s.name)
    else s.containerName.map (·, s.name)
  | .method => s.containerName.map (·, s.name)
  | .function => if s.container.isNone then s.annotationTargetClass.map (·, s.name) else none
  | _ => none

namespace SymbolDb

variable (db : SymbolDb) (callDepth : Nat)

/-- The declarations that annotations inject into the class, in all layers. -/
def annotatedMembers (container name : String) : List Definition :=
  db.workspace.annotatedMembers container name ++
    db.shadowedBase.annotatedMembers container name ++
    (db.builtins.map (fun b => b.annotatedMembers container name)).getD []

/-- Class-body declaration first, then annotation declarations. -/
def allMemberDeclarations (container name : String) : Observed (List Definition) := do
  let classBody ← db.findClassBodyMember callDepth container name
  return dedupDefinitions (classBody.toList ++ db.annotatedMembers container name)

def allDeclarationsOf (d : Definition) : Observed (List Definition) :=
  match logicalMember d.symbol with
  | none => return [d]
  | some (container, name) => do
    let decls ← db.allMemberDeclarations callDepth container name
    return dedupDefinitions
      (if decls.any (fun e => definitionKey e = definitionKey d) then decls else decls ++ [d])

end SymbolDb

@[simp] lemma definitionKey_instantiate (container : String) (d : Definition) :
    definitionKey (SymbolDb.instantiate container d) = definitionKey d := by
  unfold SymbolDb.instantiate
  cases parseGenericInstance container <;> rfl

lemma logicalMember_name {s : Symbol} {container name : String}
    (h : logicalMember s = some (container, name)) : s.name = name := by
  unfold logicalMember at h
  split at h
  · split_ifs at h
    all_goals
      obtain ⟨c, -, heq⟩ := Option.map_eq_some_iff.mp h
      exact (Prod.mk.inj heq).2
  · obtain ⟨c, -, heq⟩ := Option.map_eq_some_iff.mp h
    exact (Prod.mk.inj heq).2
  · split_ifs at h
    obtain ⟨c, -, heq⟩ := Option.map_eq_some_iff.mp h
    exact (Prod.mk.inj heq).2
  · cases h

lemma nodup_keys_dedupDefinitions (defs : List Definition) :
    ((dedupDefinitions defs).map definitionKey).Nodup :=
  nodup_keys_dedupOn defs

namespace SymbolDb

variable {db : SymbolDb} {callDepth : Nat} {d : Definition} {container name : String}

lemma value_allMemberDeclarations (container name : String) :
    (db.allMemberDeclarations callDepth container name).value =
      (db.findClassBodyMember callDepth container name).value.map fun classBody =>
        dedupDefinitions (classBody.toList ++ db.annotatedMembers container name) := by
  rw [allMemberDeclarations, Observed.value_bind, Option.map_eq_bind]
  rfl

lemma value_allDeclarationsOf_none (h : logicalMember d.symbol = none) :
    (db.allDeclarationsOf callDepth d).value = some [d] := by
  rw [allDeclarationsOf, h]
  rfl

/-- A declaration that is missing from its own group is added to it. -/
lemma value_allDeclarationsOf_some (h : logicalMember d.symbol = some (container, name)) :
    (db.allDeclarationsOf callDepth d).value =
      (db.allMemberDeclarations callDepth container name).value.map fun decls =>
        if definitionKey d ∈ decls.map definitionKey then decls else decls ++ [d] := by
  rw [allDeclarationsOf, h]
  simp only [Observed.value_bind, value_allMemberDeclarations]
  cases (db.findClassBodyMember callDepth container name).value with
  | none => rfl
  | some classBody =>
    simp only [Option.map_some, Option.bind_some, Observed.value_pure, Option.some_inj]
    generalize hgroup : dedupDefinitions (classBody.toList ++ db.annotatedMembers container name) =
      group
    have hnodup : (group.map definitionKey).Nodup := hgroup ▸ nodup_keys_dedupDefinitions _
    have hany : (group.any fun e => definitionKey e = definitionKey d) = true ↔
        definitionKey d ∈ group.map definitionKey := by
      rw [List.any_eq_true, List.mem_map]
      simp only [decide_eq_true_eq]
    by_cases hmem : definitionKey d ∈ group.map definitionKey
    · rw [if_pos (hany.mpr hmem), if_pos hmem]
      exact dedupOn_of_nodup hnodup
    · rw [if_neg (mt hany.mp hmem), if_neg hmem]
      refine dedupOn_of_nodup ?_
      rw [List.map_append, List.map_singleton]
      exact hnodup.append (List.nodup_singleton _) (List.disjoint_singleton.mpr hmem)

end SymbolDb

end WitcherScriptLanguage
