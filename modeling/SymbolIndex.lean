import SymbolIndex.Text.Blank
import SymbolIndex.Text.Casing
import SymbolIndex.Text.Search
import SymbolIndex.Symbol.Kind
import SymbolIndex.Symbol.Modifiers
import SymbolIndex.Symbol.Name
import SymbolIndex.Symbol.Basic
import SymbolIndex.Position
import SymbolIndex.TypeExpr
import SymbolIndex.Digest
import SymbolIndex.Text.Hex
import SymbolIndex.Tree.Basic
import SymbolIndex.Tree.Kind
import SymbolIndex.SourceText
import SymbolIndex.Document
import SymbolIndex.Reference
import SymbolIndex.SymbolTable
import SymbolIndex.Tree.Layout
import SymbolIndex.Text.Numeral
import SymbolIndex.Tree.Snippet
import SymbolIndex.Exchange.Datum
import SymbolIndex.Exchange.Json
import SymbolIndex.Exchange.MessagePack
import SymbolIndex.Exchange.Record
import SymbolIndex.Exchange.Forms
import SymbolIndex.Fault
import SymbolIndex.Config
import SymbolIndex.NameResolver
import SymbolIndex.VariableTable
import SymbolIndex.DocComment
import SymbolIndex.NameIndex
import SymbolIndex.Symbol.Declared
import SymbolIndex.Hierarchy
import SymbolIndex.SymbolStore
import SymbolIndex.Reading.Walk
import SymbolIndex.Reading.Names
import SymbolIndex.Reading.Declarations
import SymbolIndex.Reading.Uses
import SymbolIndex.KeyedList
import SymbolIndex.Cache.Basic
import SymbolIndex.Cache.Memory
import SymbolIndex.Cache.Guarded
import SymbolIndex.Cache.Directory
import SymbolIndex.SavedState
import SymbolIndex.Cache.Stored
import SymbolIndex.Cache.Bucket
import SymbolIndex.Cache.Files
import SymbolIndex.Cache.Choice
import SymbolIndex.Debouncer
import SymbolIndex.ReferenceStore
import SymbolIndex.Workspace.Basic
import SymbolIndex.Workspace.Query
import SymbolIndex.Proofs.Filing
import SymbolIndex.Proofs.Position
import SymbolIndex.Proofs.KeyedList
import SymbolIndex.Proofs.Debouncer
import SymbolIndex.Proofs.Debouncer.Handing
import SymbolIndex.Proofs.Debouncer.Worker
import SymbolIndex.Proofs.Hierarchy.Merging
import SymbolIndex.Proofs.NameIndex
import SymbolIndex.Proofs.Symbol.Declared
import SymbolIndex.Proofs.SymbolStore.Soundness
import SymbolIndex.Proofs.Text.Casing
import SymbolIndex.Proofs.SymbolStore.Search
import SymbolIndex.Proofs.ReferenceStore.Search
import SymbolIndex.Proofs.Workspace.Soundness
import SymbolIndex.Proofs.Cache.Faithful
import SymbolIndex.Proofs.Workspace.Reflection
import SymbolIndex.Proofs.Workspace.Transparency
import SymbolIndex.Proofs.Workspace.Freshness
import SymbolIndex.Proofs.Workspace.Uses
import SymbolIndex.Proofs.SymbolStore.Resolution
import SymbolIndex.Proofs.Workspace.Agreement
import SymbolIndex.Proofs.Reading.Locations
import SymbolIndex.Proofs.SymbolStore.Places
import SymbolIndex.Proofs.Workspace.Provenance
import SymbolIndex.Proofs.Workspace.Completeness
import SymbolIndex.Proofs.Hierarchy.Reachability
import SymbolIndex.Proofs.VariableTable.Levels
import SymbolIndex.Proofs.Reading.Stacks
import SymbolIndex.Proofs.TypeExpr.Union
import SymbolIndex.Proofs.VariableTable.Conditional
import SymbolIndex.Proofs.Reading.Mirror
import SymbolIndex.Proofs.Reading.Comments
import SymbolIndex.Proofs.Reading.Scopes
import SymbolIndex.Proofs.Reading.Enclosing
import SymbolIndex.Proofs.Reading.Contexts
import SymbolIndex.Proofs.Reading.Building
import SymbolIndex.Proofs.Reading.Lookups
import SymbolIndex.Proofs.Reading.Sealed
import SymbolIndex.Proofs.Reading.Errors
import SymbolIndex.Proofs.Exchange.Json
import SymbolIndex.Proofs.Exchange.Record
import SymbolIndex.Proofs.Exchange.MessagePack
import SymbolIndex.Proofs.Exchange.Trees
import SymbolIndex.Proofs.Exchange.References
import SymbolIndex.Proofs.Cache.Stored
import SymbolIndex.Proofs.Cache.Names
import SymbolIndex.Proofs.Cache.Directory
import SymbolIndex.Proofs.Cache.Calls
import SymbolIndex.Proofs.Cache.Files
import SymbolIndex.Proofs.TypeExpr.Laws
import SymbolIndex.Proofs.Cache.Drafts
import SymbolIndex.Proofs.Cache.FailedChanges
import SymbolIndex.Proofs.ReferenceStore.Failures
import SymbolIndex.Proofs.Reading.Written
import SymbolIndex.Proofs.Reading.Sources
import SymbolIndex.Proofs.Workspace.Orders
import SymbolIndex.Proofs.Cache.Resilient
import SymbolIndex.Proofs.Workspace.Restoring
import SymbolIndex.Proofs.Workspace.Operations
import SymbolIndex.Proofs.Workspace.Discovery
import SymbolIndex.Proofs.TypeExpr.Balanced
import SymbolIndex.Proofs.TypeExpr.Shapes
import SymbolIndex.Proofs.TypeExpr.Resolving
import SymbolIndex.Proofs.TypeExpr.Rebinding
import SymbolIndex.Proofs.Hierarchy.Binding
import SymbolIndex.Proofs.VariableTable.Arms
import SymbolIndex.Proofs.Reading.Retyping
import SymbolIndex.Proofs.Reading.Assigned
import SymbolIndex.Proofs.Reading.Awaited
import SymbolIndex.Proofs.Reading.Inherited
import SymbolIndex.Proofs.Hierarchy.Named
import SymbolIndex.Proofs.Reading.DeclaredTypes
import SymbolIndex.Proofs.DocComment.Writing
import SymbolIndex.Proofs.DocComment.MethodTags
import SymbolIndex.Proofs.SourceText.LineStarts
import SymbolIndex.Proofs.Reference.Innermost
import SymbolIndex.Proofs.NameIndex.History
import SymbolIndex.Proofs.Symbol.SearchKeys
import SymbolIndex.Proofs.Tree.Layout
