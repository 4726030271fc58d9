import SqlBridge.CommandLine.Run
import SqlBridge.Main
import SqlBridge.Proofs.CommandLine.Comment
import SqlBridge.Proofs.Condition.TokenKind
import SqlBridge.Proofs.Descriptor.Groups
import SqlBridge.Proofs.Descriptor.Rereading
import SqlBridge.Proofs.Descriptor.RoundTrip
import SqlBridge.Proofs.Display
import SqlBridge.Proofs.Document.Distinct
import SqlBridge.Proofs.Document.Filter
import SqlBridge.Proofs.Document.Find
import SqlBridge.Proofs.Document.Grouping
import SqlBridge.Proofs.Document.Pipeline
import SqlBridge.Proofs.Document.Projection
import SqlBridge.Proofs.Document.Sort
import SqlBridge.Proofs.Like
import SqlBridge.Proofs.Predicate.Grouping
import SqlBridge.Proofs.Settings.File
import SqlBridge.Proofs.Sql.Name
import SqlBridge.Proofs.Sql.RoundTrip
import SqlBridge.Proofs.Sql.Scope
import SqlBridge.Proofs.Sql.SelectList
import SqlBridge.Proofs.Statement.Call
import SqlBridge.Proofs.Statement.Error
import SqlBridge.Proofs.Statement.Insertion
import SqlBridge.Proofs.Statement.Lookup
import SqlBridge.Proofs.Statement.Naming
import SqlBridge.Proofs.Statement.Parentheses
import SqlBridge.Proofs.Statement.Selection
import SqlBridge.Proofs.Statement.Separation
import SqlBridge.Proofs.Statement.Settings
import SqlBridge.Proofs.Statement.Substitution

