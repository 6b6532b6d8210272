import WitcherScriptLanguage.Resolve.SymbolDb

/-!
# Merged catalogs

The completion catalogs of a database (`completion_catalog.rs`, `symbol_db/lookup.rs`): those of
the workspace, then the base declarations that they do not shadow, then the builtins. The base
part can be filtered by the suppressed files beforehand.
-/

namespace WitcherScriptLanguage

structure ScriptEnvironment where
  /-- The INI file and the symbol of each script global. -/
  globals : List Definition := []
  /-- A number that no other environment has. -/
  version : Nat := 0
  deriving DecidableEq

/-- The catalogs of the base index without the declarations of suppressed files. -/
structure FilteredBaseCatalogs where
  callables : List Definition
  types : List Definition
  enumMembers : List Definition
  deriving DecidableEq

def FilteredBaseCatalogs.build (base : WorkspaceIndex) (suppressed : Finset String) :
    FilteredBaseCatalogs where
  callables := ShadowedBase.filterCatalog base.completionCatalog.callables (some suppressed)
  types := ShadowedBase.filterCatalog base.completionCatalog.types (some suppressed)
  enumMembers := ShadowedBase.filterCatalog base.completionCatalog.enumMembers (some suppressed)

def mergeWsBase (ws base : List Definition) : List Definition :=
  if base.isEmpty then ws
  else if ws.isEmpty then base
  else
    let shadowed := ws.map (·.symbol.typeName)
    ws ++ base.filter (fun d => !shadowed.contains d.symbol.typeName)

/-- A base declaration or a builtin joins unless its name is taken. -/
def mergeUnshadowed (acc : List String × List Definition) (d : Definition) :
    List String × List Definition :=
  if acc.1.contains d.symbol.typeName then acc
  else (d.symbol.typeName :: acc.1, acc.2 ++ [d])

def mergeWsBaseThree (ws base builtins : List Definition) : List Definition :=
  ((base ++ builtins).foldl mergeUnshadowed (ws.map (·.symbol.typeName), ws)).2

/-- `array` and `map` are not types without arguments. -/
def isNonTypeBuiltin (uri : String) : Bool :=
  ["witcherscript-builtin:/array.ws", "witcherscript-builtin:/map.ws"].contains uri

/-- `builtins::types_completion_catalog` -/
def builtinTypesCatalog (builtins : WorkspaceIndex) : List Definition :=
  builtins.completionCatalog.types.filter (fun d => !isNonTypeBuiltin d.uri)

/-- What a request keeps of the compilation it started on. -/
structure DbHandles where
  workspace : WorkspaceIndex
  base : WorkspaceIndex
  scriptEnv : ScriptEnvironment
  builtins : WorkspaceIndex
  suppressedBaseUris : Finset String
  filteredBaseCatalogs : Option FilteredBaseCatalogs

namespace DbHandles

variable (h : DbHandles)

def db : SymbolDb where
  workspace := h.workspace
  base := h.base
  builtins := some h.builtins
  suppressedBaseUris := some h.suppressedBaseUris

def baseCallablesForMerge : List Definition :=
  match h.filteredBaseCatalogs with
  | some prefiltered => prefiltered.callables
  | none => h.db.shadowedBase.callablesCatalog

def baseTypesForMerge : List Definition :=
  match h.filteredBaseCatalogs with
  | some prefiltered => prefiltered.types
  | none => h.db.shadowedBase.typesCatalog

def baseEnumMembersForMerge : List Definition :=
  match h.filteredBaseCatalogs with
  | some prefiltered => prefiltered.enumMembers
  | none => h.db.shadowedBase.enumMembersCatalog

def mergedCallablesCatalog : List Definition :=
  mergeWsBase h.workspace.completionCatalog.callables h.baseCallablesForMerge

def mergedTypesCatalog : List Definition :=
  mergeWsBaseThree h.workspace.completionCatalog.types h.baseTypesForMerge
    (builtinTypesCatalog h.builtins)

def mergedEnumMembersCatalog : List Definition :=
  mergeWsBaseThree h.workspace.completionCatalog.enumMembers h.baseEnumMembersForMerge
    h.builtins.completionCatalog.enumMembers

def allScriptGlobals : List Definition := h.scriptEnv.globals

def mergedGlobalCompletions : List Definition :=
  h.mergedCallablesCatalog ++ h.allScriptGlobals ++ h.mergedEnumMembersCatalog

end DbHandles

/-- Whatever filtered them, catalogs that were built from the base index and the suppressed set
of the same handles change nothing. -/
theorem baseForMerge_of_build (h : DbHandles)
    (hbuild : h.filteredBaseCatalogs = some (.build h.base h.suppressedBaseUris)) :
    h.baseCallablesForMerge = h.db.shadowedBase.callablesCatalog ∧
      h.baseTypesForMerge = h.db.shadowedBase.typesCatalog ∧
      h.baseEnumMembersForMerge = h.db.shadowedBase.enumMembersCatalog := by
  unfold DbHandles.baseCallablesForMerge DbHandles.baseTypesForMerge
    DbHandles.baseEnumMembersForMerge
  rw [hbuild]
  exact ⟨rfl, rfl, rfl⟩

end WitcherScriptLanguage
