import PathQuery.Engine
import PathQuery.Query
import PathQuery.Proofs.Path.RoundTrip
import PathQuery.Proofs.Path.Canonical
import PathQuery.Proofs.Cache.Runs
import PathQuery.Proofs.Engine.Transparency
import PathQuery.Proofs.Path.MaxDepth
import PathQuery.Proofs.Path.Safety
import PathQuery.Proofs.Path.Grammar
import PathQuery.Proofs.Pattern.Guard
import PathQuery.Proofs.Cache.Ledger
import PathQuery.Proofs.Path.Composition
import PathQuery.Proofs.Token.Lexemes
import PathQuery.Proofs.Engine.Reuse
import PathQuery.Proofs.Path.Descent
import PathQuery.Proofs.Path.Levels
import PathQuery.Proofs.Path.Ceilings
import PathQuery.Proofs.Engine.Accepted
import PathQuery.Proofs.Path.Partial
import PathQuery.Proofs.Filter.Values
import PathQuery.Proofs.Engine.Failures
import PathQuery.Proofs.Path.Slices
import PathQuery.Proofs.Path.Builtins
import PathQuery.Proofs.Token.Texts
import PathQuery.Proofs.Path.Validated
import PathQuery.Proofs.Path.Parentheses
import PathQuery.Proofs.Cache.Statistics
import PathQuery.Proofs.Cache.Inclusion
import PathQuery.Proofs.Path.FirstFault
import PathQuery.Proofs.Token.Flaws
import PathQuery.Proofs.Token.Names
import PathQuery.Proofs.Filter.Connectives
