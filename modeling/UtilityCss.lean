import UtilityCss.Catalogue.Basic
import UtilityCss.Config.Json
import UtilityCss.Engine.Intake
import UtilityCss.Style.Json
import UtilityCss.Style.Merge
import UtilityCss.Proofs.Run
import UtilityCss.Proofs.Cache.Coherence
import UtilityCss.Proofs.Cache.Entries
import UtilityCss.Proofs.Cache.Refinement
import UtilityCss.Proofs.Cache.Places
import UtilityCss.Proofs.Engine.Transparency
import UtilityCss.Proofs.Engine.Attempts
import UtilityCss.Proofs.Engine.Requests
import UtilityCss.Proofs.Engine.Bursts
import UtilityCss.Proofs.Style.Merging
import UtilityCss.Proofs.Selector.Anchors
import UtilityCss.Proofs.Sheet.Flattening
import UtilityCss.Proofs.Selector.Reading
import UtilityCss.Proofs.Selector.Substitution
import UtilityCss.Proofs.Selector.Composition
import UtilityCss.Proofs.Selector.NormalForm
import UtilityCss.Proofs.Selector.Chains
import UtilityCss.Proofs.Selector.Product
import UtilityCss.Proofs.Sheet.ClassName
import UtilityCss.Proofs.Selector.Template
import UtilityCss.Proofs.Sheet.Folding
import UtilityCss.Proofs.Selector.Ending
import UtilityCss.Proofs.Sheet.Resolution
import UtilityCss.Proofs.Sheet.Scoping
import UtilityCss.Proofs.Engine.Outputs
import UtilityCss.Proofs.Engine.BatchSize
import UtilityCss.Proofs.Engine.Debounce
import UtilityCss.Proofs.ClassName.Tokens
import UtilityCss.Proofs.ClassName.Runs
import UtilityCss.Proofs.ClassName.Direction
import UtilityCss.Proofs.ClassName.ArbitraryValue
import UtilityCss.Proofs.ClassName.Roles
import UtilityCss.Proofs.Rule.Order
import UtilityCss.Proofs.Rule.Dispatch
import UtilityCss.Proofs.Rule.FixedUtility
import UtilityCss.Proofs.Rule.Prefilter
import UtilityCss.Proofs.Rule.Importance
import UtilityCss.Proofs.Catalogue.LiteralValues
import UtilityCss.Proofs.Sheet.Identifier
import UtilityCss.Proofs.Sheet.Naming
import UtilityCss.Proofs.Selector.Associativity
import UtilityCss.Proofs.Sheet.Emission
import UtilityCss.Proofs.Style.Batching
import UtilityCss.Proofs.Selector.RoundTrip
import UtilityCss.Proofs.Sheet.Layouts
import UtilityCss.Proofs.Style.Levels
import UtilityCss.Proofs.Selector.Carrying
import UtilityCss.Proofs.Selector.Filling
import UtilityCss.Proofs.Sheet.Anchorless
import UtilityCss.Proofs.Sheet.Losses
import UtilityCss.Proofs.Selector.Descendants
import UtilityCss.Proofs.Selector.Lexemes
import UtilityCss.Proofs.Selector.TopLevel
import UtilityCss.Proofs.Selector.Acceptance
import UtilityCss.Proofs.Selector.AnchorLexemes
import UtilityCss.Proofs.Selector.Strings
import UtilityCss.Proofs.Selector.NameRuns
import UtilityCss.Proofs.Selector.Names
import UtilityCss.Proofs.Selector.Derivation
import UtilityCss.Proofs.Selector.Escapes
import UtilityCss.Proofs.Bytes.Slice
import UtilityCss.Proofs.Bytes.Loop
import UtilityCss.Proofs.Bytes.Cutting
import UtilityCss.Proofs.Bytes.ClassName
import UtilityCss.Proofs.Bytes.Template
import UtilityCss.Proofs.Bytes.Selector
import UtilityCss.Proofs.Bytes.Nesting
