import PhpTypes.Main
import PhpTypes.Proofs.Session.Transfer
import PhpTypes.Proofs.Registry.Describe
import PhpTypes.Proofs.Registry.Growth
import PhpTypes.Proofs.Session.Reading
import PhpTypes.Proofs.Registry.Renumber
import PhpTypes.Proofs.Signature.Requests
import PhpTypes.Proofs.Session.Answers
import PhpTypes.Proofs.Session.Operation
import PhpTypes.Proofs.Session.History
import PhpTypes.Proofs.Report.Scan
import PhpTypes.Proofs.TypeExpr.Alternatives
import PhpTypes.Proofs.TypeExpr.ClassName
import PhpTypes.Proofs.Registry.Legible
import PhpTypes.Proofs.TypeExpr.Rendered
import PhpTypes.Proofs.TypeExpr.Naming
import PhpTypes.Proofs.TypeExpr.Interned
import PhpTypes.Proofs.Session.RoundTrip
import PhpTypes.Proofs.Name.Case
import PhpTypes.Proofs.TypeExpr.Case
import PhpTypes.Proofs.Session.Case
import PhpTypes.Proofs.CommandLine.Scan
import PhpTypes.Proofs.Session.Totality
import PhpTypes.Proofs.TypeExpr.Layers
import PhpTypes.Proofs.Mask.Union
import PhpTypes.Proofs.Name.Segments
import PhpTypes.Proofs.Name.Resolution
import PhpTypes.Proofs.TypeExpr.Resolved
import PhpTypes.Proofs.TypeExpr.LostBlank
import PhpTypes.Proofs.TypeExpr.Balance
import PhpTypes.Proofs.TypeExpr.Union
import PhpTypes.Proofs.Session.ClassNames
import PhpTypes.Proofs.TypeExpr.Indivisible
import PhpTypes.Proofs.DocComment.Lookup
import PhpTypes.Proofs.Php.Hint
import PhpTypes.Proofs.DocComment.ReturnType
import PhpTypes.Proofs.Signature.Entries
import PhpTypes.Proofs.DocComment.Composition
import PhpTypes.Proofs.DocComment.TagLine
import PhpTypes.Proofs.DocComment.Decoration
import PhpTypes.Proofs.CommandLine.Scope
import PhpTypes.Proofs.Php.Scan
import PhpTypes.Proofs.Session.Writing
