import DialogueFlow.Main
import DialogueFlow.Proofs.Partition
import DialogueFlow.Proofs.Exits
import DialogueFlow.Proofs.Graph
import DialogueFlow.Proofs.Link
import DialogueFlow.Proofs.Descendants
import DialogueFlow.Proofs.Tiling
import DialogueFlow.Proofs.Control
import DialogueFlow.Proofs.Acceptance
import DialogueFlow.Proofs.Pairing
import DialogueFlow.Proofs.Walk
import DialogueFlow.Proofs.LineCount
import DialogueFlow.Proofs.OptionLines
import DialogueFlow.Proofs.Names
import DialogueFlow.Proofs.Reading
import DialogueFlow.Proofs.Rounding
import DialogueFlow.Proofs.Isolation
import DialogueFlow.Proofs.RoundTrip
import DialogueFlow.Proofs.Schema
import DialogueFlow.Proofs.Dangling
import DialogueFlow.Proofs.Connections
import DialogueFlow.Proofs.OptionTargets
import DialogueFlow.Proofs.DotReading
import DialogueFlow.Proofs.ExitCode
import DialogueFlow.Proofs.Search
import DialogueFlow.Proofs.ChartIdentifiers
import DialogueFlow.Proofs.Overflow
import DialogueFlow.Proofs.Loading
import DialogueFlow.Proofs.ReaderBounds
import DialogueFlow.Proofs.Mute
import DialogueFlow.Proofs.Escapes
import DialogueFlow.Proofs.Distance
import DialogueFlow.Proofs.Relinking
import DialogueFlow.Proofs.Cutting
import DialogueFlow.Proofs.Coarsest
import DialogueFlow.Proofs.Content
import DialogueFlow.Proofs.OptionEdges
import DialogueFlow.Proofs.Nesting
import DialogueFlow.Proofs.RunShapes
import DialogueFlow.Proofs.Coupling
import DialogueFlow.Proofs.Reports
import DialogueFlow.Proofs.DotLabels
import DialogueFlow.Proofs.NodeForms
import DialogueFlow.Proofs.UnknownNode
import DialogueFlow.Proofs.NodeLines
import DialogueFlow.Proofs.NumberText
import DialogueFlow.Proofs.InstructionText
