import TypeLattice.Table
import TypeLattice.Text.Blank
import TypeLattice.Text.Quoted
import TypeLattice.Text.Qualified
import TypeLattice.Text.Printable
import TypeLattice.Text.Escaped
import TypeLattice.Text.Bytes
import TypeLattice.Decimal.Binary64
import TypeLattice.Decimal.Reader
import TypeLattice.Decimal.Shortest
import TypeLattice.Decimal.Layout
import TypeLattice.Ty
import TypeLattice.Value
import TypeLattice.Error
import TypeLattice.Store
import TypeLattice.Relation.Guard
import TypeLattice.Relation.Equality
import TypeLattice.Relation.Assignable
import TypeLattice.Relation.Instance
import TypeLattice.Render
import TypeLattice.Expr
import TypeLattice.Expr.Token
import TypeLattice.Expr.Parse
import TypeLattice.Expr.Resolve
import TypeLattice.Object.Resolve
import TypeLattice.Object.Create
import TypeLattice.Object.Construct
import TypeLattice.TypeSet.Build
import TypeLattice.TypeSet.Json
import TypeLattice.Registry
import TypeLattice.Json.Basic
import TypeLattice.Json.Number
import TypeLattice.Json.Reader
import TypeLattice.Json.Printer
import TypeLattice.Json.Value
import TypeLattice.Iterator.Loop
import TypeLattice.Iterator.World
import TypeLattice.Iterator.Drive
import TypeLattice.Iterator.Script
import TypeLattice.New
import TypeLattice.Proofs.Line
import TypeLattice.Proofs.Inheritance
import TypeLattice.Proofs.Built
import TypeLattice.Proofs.Alike
import TypeLattice.Proofs.Comparing
import TypeLattice.Proofs.Equality
import TypeLattice.Proofs.Assignability
import TypeLattice.Proofs.Numerals
import TypeLattice.Proofs.Spelling
import TypeLattice.Proofs.Words
import TypeLattice.Proofs.Grammar
import TypeLattice.Proofs.Reading
import TypeLattice.Proofs.Parsing
import TypeLattice.Proofs.Literals
import TypeLattice.Proofs.Written
import TypeLattice.Proofs.ReadingTypes
import TypeLattice.Proofs.Rendering
import TypeLattice.Proofs.Extension
import TypeLattice.Proofs.RoundTrip
import TypeLattice.Proofs.Instances
import TypeLattice.Proofs.Runs
import TypeLattice.Proofs.Filters
import TypeLattice.Proofs.Frames
import TypeLattice.Proofs.Persistence
import TypeLattice.Proofs.Registration
import TypeLattice.Proofs.Reported
import TypeLattice.Proofs.Reproducible
import TypeLattice.Proofs.Pipelines
import TypeLattice.Proofs.Denotation
import TypeLattice.Proofs.Resolving
import TypeLattice.Proofs.Members
import TypeLattice.Proofs.Declared
import TypeLattice.Proofs.Meaning
import TypeLattice.Proofs.Names
import TypeLattice.Proofs.Cursors
import TypeLattice.Proofs.Describers
import TypeLattice.Proofs.Independent
import TypeLattice.Proofs.Interchange
import TypeLattice.Proofs.Recording
import TypeLattice.Proofs.Interleaving
import TypeLattice.Proofs.JsonText
import TypeLattice.Proofs.Collecting
import TypeLattice.Proofs.FiniteText
import TypeLattice.Proofs.Creating
import TypeLattice.Proofs.EqualValues
import TypeLattice.Proofs.Positional
import TypeLattice.Proofs.Lookups
import TypeLattice.Proofs.QualifiedNames
import TypeLattice.Proofs.AttributeOrder
import TypeLattice.Proofs.SharedGuard
import TypeLattice.Proofs.Searching
import TypeLattice.Proofs.Scripts
import TypeLattice.Proofs.Partition
import TypeLattice.Proofs.BuiltinNames
import TypeLattice.Proofs.Conversion
import TypeLattice.Proofs.Loops
import TypeLattice.Proofs.Positions
import TypeLattice.Proofs.Defaults
