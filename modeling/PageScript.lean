import PageScript.Code.Assembler
import PageScript.Code.Bytecode
import PageScript.Code.Instr
import PageScript.Code.Listing
import PageScript.Code.Mnemonic
import PageScript.Code.OfNode
import PageScript.CommandLine
import PageScript.Decimal.Fixed
import PageScript.Decimal.Reading
import PageScript.Decimal.Shortest
import PageScript.Double.Parts
import PageScript.Entries
import PageScript.Fault
import PageScript.Literal.Escape
import PageScript.Literal.Quote
import PageScript.Literal.Variables
import PageScript.Machine.Alone
import PageScript.Machine.Frame
import PageScript.Machine.Native
import PageScript.Machine.Run
import PageScript.Machine.State
import PageScript.Machine.Step
import PageScript.Main
import PageScript.Node
import PageScript.Node.Equality
import PageScript.Node.OfTree
import PageScript.Node.Text
import PageScript.Page
import PageScript.Sample.Grammar
import PageScript.Proofs.Actions
import PageScript.Proofs.Instructions
import PageScript.Scope
import PageScript.Store
import PageScript.SymbolMap
import PageScript.Text.Blank
import PageScript.Text.Digit
import PageScript.Text.Printable
import PageScript.Text.Quoted
import PageScript.Text.Split
import PageScript.Tree
import PageScript.Value
import PageScript.Value.Access
import PageScript.Value.Arithmetic
import PageScript.Value.Compare
import PageScript.Value.Template
import PageScript.Value.Text
import PageScript.Web.Folder
import PageScript.Web.Path
import PageScript.Web.Request
import PageScript.Web.Response
import PageScript.Web.Server
import PageScript.Proofs.Layout
import PageScript.Proofs.Emission
import PageScript.Proofs.Evaluation
import PageScript.Proofs.Course
import PageScript.Proofs.Simulation
import PageScript.Proofs.Effect
import PageScript.Proofs.Heights
import PageScript.Proofs.Spacing
import PageScript.Proofs.Levels
import PageScript.Proofs.StackBound
import PageScript.Proofs.Shape
import PageScript.Proofs.Accepted
import PageScript.Proofs.Grammar
import PageScript.Proofs.Reading
import PageScript.Proofs.Estimate
import PageScript.Proofs.Returns
import PageScript.Proofs.Loops
import PageScript.Proofs.Policy
import PageScript.Proofs.Compliance
import PageScript.Proofs.Texts
import PageScript.Proofs.Kinds
import PageScript.Proofs.Fitting
import PageScript.Proofs.Places
import PageScript.Proofs.Depth
import PageScript.Proofs.Renumbering
import PageScript.Proofs.Transport
import PageScript.Proofs.Relocation
import PageScript.Proofs.Isolation
import PageScript.Proofs.Sessions
import PageScript.Proofs.Observance
import PageScript.Proofs.References
import PageScript.Proofs.Calls
import PageScript.Proofs.Globals
import PageScript.Proofs.FullTexts
import PageScript.Proofs.Copies
import PageScript.Proofs.Arguments
import PageScript.Proofs.Output
import PageScript.Proofs.Transcript
import PageScript.Proofs.Diversion
import PageScript.Proofs.Arrays
import PageScript.Proofs.Custody
import PageScript.Proofs.Foreach
import PageScript.Proofs.Containment
import PageScript.Proofs.Framing
import PageScript.Proofs.Answering
import PageScript.Proofs.Placement
import PageScript.Proofs.Heading
import PageScript.Proofs.Hoisting
import PageScript.Proofs.Rearranging
import PageScript.Proofs.DeclarationOrder
import PageScript.Proofs.Labels
import PageScript.Proofs.Elements
import PageScript.Proofs.Paths
import PageScript.Proofs.Passing
import PageScript.Proofs.Scopes
import PageScript.Proofs.Counting
import PageScript.Proofs.Natives
import PageScript.Proofs.Results
import PageScript.Proofs.Binding
import PageScript.Proofs.Escaping
import PageScript.Proofs.Templates
import PageScript.Proofs.Interpolating
import PageScript.Proofs.Rounding
import PageScript.Proofs.Numerals
import PageScript.Proofs.Splitting
import PageScript.Proofs.Nesting
import PageScript.Proofs.Sharing
import PageScript.Proofs.LoopLabels
import PageScript.Proofs.Boxing
