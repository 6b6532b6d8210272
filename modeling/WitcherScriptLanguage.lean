import WitcherScriptLanguage.Builtins.NativeTables
import WitcherScriptLanguage.Diagnostics.CstWalker
import WitcherScriptLanguage.Diagnostics.OverrideConsistency
import WitcherScriptLanguage.Diagnostics.RemoveUnused
import WitcherScriptLanguage.Diagnostics.UnknownMember
import WitcherScriptLanguage.Diagnostics.UnusedSymbol
import WitcherScriptLanguage.Formatter.ClassBody
import WitcherScriptLanguage.Formatter.FunctionBlocks
import WitcherScriptLanguage.Formatter.IfLayout
import WitcherScriptLanguage.Formatter.SwitchLayout
import WitcherScriptLanguage.Lsp.BaseReplacements
import WitcherScriptLanguage.Lsp.ClosedDocuments
import WitcherScriptLanguage.Lsp.CompletionCache
import WitcherScriptLanguage.Lsp.ContentChanges
import WitcherScriptLanguage.Lsp.CstFreshness
import WitcherScriptLanguage.Lsp.EditFold
import WitcherScriptLanguage.Lsp.EditWriter
import WitcherScriptLanguage.Lsp.InitialIndex
import WitcherScriptLanguage.Lsp.OpenBuffers
import WitcherScriptLanguage.Lsp.RangeTokens
import WitcherScriptLanguage.Lsp.ReferencesRename
import WitcherScriptLanguage.Lsp.ResultIds
import WitcherScriptLanguage.Lsp.ScriptGlobals
import WitcherScriptLanguage.Lsp.Subscriptions
import WitcherScriptLanguage.Lsp.TokenDeltas
import WitcherScriptLanguage.Lsp.ViewRefresher
import WitcherScriptLanguage.Lsp.WatchedCatalogs
import WitcherScriptLanguage.Refactor.InlineOperand
import WitcherScriptLanguage.Refactor.JoinDeclaration
import WitcherScriptLanguage.Refactor.SimultaneousEdits
import WitcherScriptLanguage.Resolve.Assignability
import WitcherScriptLanguage.Resolve.CatalogIds
import WitcherScriptLanguage.Resolve.EnclosingSymbol
import WitcherScriptLanguage.Resolve.MemberListing
import WitcherScriptLanguage.Resolve.ReachingSound
import WitcherScriptLanguage.Resolve.Subclasses
import WitcherScriptLanguage.Resolve.WorkspaceSymbols
