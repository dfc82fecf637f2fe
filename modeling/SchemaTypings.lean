import SchemaTypings.FileTree
import SchemaTypings.Main
import SchemaTypings.Proofs.Computation
import SchemaTypings.Proofs.Tables
import SchemaTypings.Proofs.Drafts
import SchemaTypings.Proofs.Consistency
import SchemaTypings.Proofs.Reachability
import SchemaTypings.Proofs.Lookups
import SchemaTypings.Proofs.Needs
import SchemaTypings.Proofs.Outcome
import SchemaTypings.Proofs.Grouping
import SchemaTypings.Proofs.ImportGroups
import SchemaTypings.Proofs.Identifiers
import SchemaTypings.Proofs.Closure
import SchemaTypings.Proofs.AbstractTypes
import SchemaTypings.Proofs.Bindings
import SchemaTypings.Proofs.Agreement
import SchemaTypings.Proofs.Mentions
import SchemaTypings.Proofs.Readability
import SchemaTypings.Proofs.Declarations
import SchemaTypings.Proofs.FileTrees
import SchemaTypings.Proofs.Places
import SchemaTypings.Proofs.Names
import SchemaTypings.Proofs.Writing
import SchemaTypings.Proofs.Preservation
import SchemaTypings.Proofs.UnitPaths
import SchemaTypings.Proofs.Formatting
import SchemaTypings.Proofs.Linking
import SchemaTypings.Proofs.Switches
import SchemaTypings.Proofs.Scopes
import SchemaTypings.Proofs.Reordering
import SchemaTypings.Proofs.Dependence
import SchemaTypings.Proofs.Models
import SchemaTypings.Proofs.Additions
import SchemaTypings.Proofs.Idempotence
import SchemaTypings.Proofs.Runs
import SchemaTypings.Proofs.Traversal
import SchemaTypings.Proofs.Modifiers
import SchemaTypings.Proofs.Indices
import SchemaTypings.Proofs.Clashes
import SchemaTypings.Proofs.Signatures
import SchemaTypings.Proofs.UnusedImports
import SchemaTypings.Proofs.Legibility
import SchemaTypings.Proofs.Normalisation
import SchemaTypings.Proofs.Listings
import SchemaTypings.Proofs.Defaults
import SchemaTypings.Proofs.Specifiers
