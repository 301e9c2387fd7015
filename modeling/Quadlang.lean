import Quadlang.Command.Session
import Quadlang.Main
import Quadlang.Quad.Wire
import Quadlang.Proofs.Source.Reading
import Quadlang.Proofs.Generator.Actions
import Quadlang.Proofs.Generator.Code
import Quadlang.Proofs.Generator.Expressions
import Quadlang.Proofs.Generator.Generation
import Quadlang.Proofs.Memory.Allocation
import Quadlang.Proofs.Generator.Dimensions
import Quadlang.Proofs.Value.Types
import Quadlang.Proofs.Generator.Placement
import Quadlang.Proofs.Generator.Declarations
import Quadlang.Proofs.Generator.World
import Quadlang.Proofs.Generator.Reach
import Quadlang.Proofs.Source.Interpreter
import Quadlang.Proofs.Source.Literals
import Quadlang.Proofs.Generator.Bodies
import Quadlang.Proofs.Generator.Growth
import Quadlang.Proofs.Generator.Outline
import Quadlang.Proofs.Program.Sources
import Quadlang.Proofs.Program.Chart
import Quadlang.Proofs.Program.Fitting
import Quadlang.Proofs.Program.Charted
import Quadlang.Proofs.Program.Constants
import Quadlang.Proofs.Program.CallSites
import Quadlang.Proofs.Program.Operations
import Quadlang.Proofs.Program.Spans
import Quadlang.Proofs.Machine.Typing
import Quadlang.Proofs.Machine.Reads
import Quadlang.Proofs.Machine.Effects
import Quadlang.Proofs.Machine.Soundness
import Quadlang.Proofs.Machine.Safety
import Quadlang.Proofs.Machine.Journal
import Quadlang.Proofs.Machine.Activations
import Quadlang.Proofs.Machine.Arguments
import Quadlang.Proofs.Machine.Calls
import Quadlang.Proofs.Machine.Containment
import Quadlang.Proofs.Machine.Defined
import Quadlang.Proofs.Machine.Operations
import Quadlang.Proofs.Value.Floats
import Quadlang.Proofs.Value.Operators
import Quadlang.Proofs.Source.Beginnings
import Quadlang.Proofs.Source.Acceptance
import Quadlang.Proofs.Source.Printing
import Quadlang.Proofs.Generator.Orderly
import Quadlang.Proofs.Generator.Changes
import Quadlang.Proofs.Program.Failures
import Quadlang.Proofs.Memory.Blocks
import Quadlang.Proofs.Generator.Aliasing
import Quadlang.Proofs.Generator.Patching
import Quadlang.Proofs.Program.Meaning
import Quadlang.Proofs.Machine.Evaluation
import Quadlang.Proofs.Machine.Simulation
import Quadlang.Proofs.Machine.Frames
import Quadlang.Proofs.Source.Statements
import Quadlang.Proofs.Generator.Performing
import Quadlang.Proofs.Generator.Directories
import Quadlang.Proofs.Generator.Rules
import Quadlang.Proofs.Generator.Checking
import Quadlang.Proofs.Program.Elements
import Quadlang.Proofs.Machine.Indices
import Quadlang.Proofs.Machine.Elements
import Quadlang.Proofs.Generator.Neutrality
import Quadlang.Proofs.Source.Places
import Quadlang.Proofs.Source.Tokens
import Quadlang.Proofs.Source.Blame
import Quadlang.Proofs.Generator.Instances
import Quadlang.Proofs.Generator.Outcomes
import Quadlang.Proofs.Generator.Classes
import Quadlang.Proofs.Generator.Refusals
import Quadlang.Proofs.Generator.Operands
import Quadlang.Proofs.Generator.Scoping
import Quadlang.Proofs.Memory.Ledger
import Quadlang.Proofs.Memory.Lookup
import Quadlang.Proofs.Text.Numbers
import Quadlang.Proofs.Text.Characters
import Quadlang.Proofs.Machine.Lines
import Quadlang.Proofs.Program.Listing
import Quadlang.Proofs.Program.Labels
import Quadlang.Proofs.Source.Progress
