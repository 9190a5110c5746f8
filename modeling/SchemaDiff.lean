import SchemaDiff.CommandLine.Perform
import SchemaDiff.Proofs.Token.Printing
import SchemaDiff.Proofs.Parser.Yields
import SchemaDiff.Proofs.Name
import SchemaDiff.Proofs.Expr
import SchemaDiff.Proofs.Migration.Convergence
import SchemaDiff.Proofs.Migration.Dependencies
import SchemaDiff.Proofs.Migration.Rereading
import SchemaDiff.Proofs.Migration.Untouched
import SchemaDiff.Proofs.Completion
import SchemaDiff.Proofs.Migration.Agreement
import SchemaDiff.Proofs.Migration.Sheltered
import SchemaDiff.Proofs.Migration.Renaming
import SchemaDiff.Proofs.Migration.Handover
import SchemaDiff.Proofs.Migration.Minimality
import SchemaDiff.Proofs.Migration.RenamedTables
import SchemaDiff.Proofs.Migration.Respelling
import SchemaDiff.Proofs.Migration.PureRename
import SchemaDiff.Proofs.Layout
import SchemaDiff.Proofs.Migration.Refused
import SchemaDiff.Proofs.Migration.DialectForms
import SchemaDiff.Proofs.Migration.Unrelated
import SchemaDiff.Proofs.Migration.AlikeSchemas
import SchemaDiff.Proofs.WellFormed
import SchemaDiff.Proofs.Resumption
import SchemaDiff.Proofs.Expr.Tokens
import SchemaDiff.Proofs.Nesting
import SchemaDiff.Proofs.Migration.NotValid
import SchemaDiff.Proofs.Token.Coverage
import SchemaDiff.Proofs.ColumnPlace
import SchemaDiff.Proofs.OptionPlace
import SchemaDiff.Proofs.DerivedName
import SchemaDiff.Proofs.Quoting
import SchemaDiff.Proofs.ErrorPlace
import SchemaDiff.Proofs.CommandLine
