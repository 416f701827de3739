import LicenseAudit.Main
import LicenseAudit.Proofs.Expr.Grammar
import LicenseAudit.Proofs.Expr.Meaning
import LicenseAudit.Proofs.Review
import LicenseAudit.Proofs.Verdict
import LicenseAudit.Proofs.Expr.Levels
import LicenseAudit.Proofs.Expr.Operands
import LicenseAudit.Proofs.Resolution
import LicenseAudit.Proofs.Listing
import LicenseAudit.Proofs.Check
import LicenseAudit.Proofs.Expr.Names
import LicenseAudit.Proofs.Expr.Rendering
import LicenseAudit.Proofs.Depth
import LicenseAudit.Proofs.DecisionFile
import LicenseAudit.Proofs.Session
import LicenseAudit.Proofs.Effects
import LicenseAudit.Proofs.Agreement
import LicenseAudit.Proofs.Report.History
import LicenseAudit.Proofs.Json.RoundTrip
import LicenseAudit.Proofs.Report.Rows
import LicenseAudit.Proofs.Ordered
import LicenseAudit.Proofs.CommandLine
import LicenseAudit.Proofs.Presentation
import LicenseAudit.Proofs.Report.Json
import LicenseAudit.Proofs.Quiet
import LicenseAudit.Proofs.Expr.Balance
import LicenseAudit.Proofs.Expr.Places
import LicenseAudit.Proofs.Text.Lines
import LicenseAudit.Proofs.Listing.Records
import LicenseAudit.Proofs.Listing.RoundTrip
import LicenseAudit.Proofs.Atomic
import LicenseAudit.Proofs.Report.Invariant
import LicenseAudit.Proofs.Expr.Polarity
import LicenseAudit.Proofs.Monotone
import LicenseAudit.Proofs.Report.Layout
import LicenseAudit.Proofs.Expr.Decomposition
import LicenseAudit.Proofs.Blank
import LicenseAudit.Proofs.CommandLine.Arguments
import LicenseAudit.Proofs.Precedence
import LicenseAudit.Proofs.Expr.Octets
import LicenseAudit.Proofs.Expr.Limit
import LicenseAudit.Proofs.Expr.Occurrences
