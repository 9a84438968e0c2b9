import ControlStore.Allocation
import ControlStore.Compile
import ControlStore.ControlUnit
import ControlStore.Files
import ControlStore.Image
import ControlStore.Main
import ControlStore.Output
import ControlStore.Proofs.Agreement
import ControlStore.Proofs.Allocation
import ControlStore.Proofs.Assembly
import ControlStore.Proofs.Checks
import ControlStore.Proofs.CommandLine
import ControlStore.Proofs.Compile
import ControlStore.Proofs.Defects
import ControlStore.Proofs.Dispatch
import ControlStore.Proofs.Editing
import ControlStore.Proofs.Encoding
import ControlStore.Proofs.Failures
import ControlStore.Proofs.Files.Operations
import ControlStore.Proofs.Files.Reach
import ControlStore.Proofs.Files.Siblings
import ControlStore.Proofs.Files.Tree
import ControlStore.Proofs.Files.Walk
import ControlStore.Proofs.Image
import ControlStore.Proofs.Image.Format
import ControlStore.Proofs.Listing
import ControlStore.Proofs.Output.Artifacts
import ControlStore.Proofs.Output.Batch
import ControlStore.Proofs.Output.Commit
import ControlStore.Proofs.Output.Guard
import ControlStore.Proofs.Output.Occupied
import ControlStore.Proofs.Output.Staging
import ControlStore.Proofs.Output.Steps
import ControlStore.Proofs.Output.Swap
import ControlStore.Proofs.Rearrangement
import ControlStore.Proofs.Refusal
import ControlStore.Proofs.Registration
import ControlStore.Proofs.Sequencer
import ControlStore.Proofs.Source.Feeding
import ControlStore.Proofs.Source.Grammar
import ControlStore.Proofs.Source.History
import ControlStore.Proofs.Source.Interleaving
import ControlStore.Proofs.Source.Meaning
import ControlStore.Proofs.Source.Moves
import ControlStore.Proofs.Source.Offences
import ControlStore.Proofs.Source.Stopping
import ControlStore.Proofs.Table.Contents
import ControlStore.Proofs.Table.Layout
import ControlStore.Proofs.Table.Lines
import ControlStore.Proofs.Table.Port
import ControlStore.Proofs.Table.Repetition
import ControlStore.Proofs.Table.RoundTrip
import ControlStore.Proofs.Text.Layout
import ControlStore.Proofs.Text.Numeral
import ControlStore.Proofs.Text.Pieces
import ControlStore.Proofs.Warnings
import ControlStore.Report
import ControlStore.Run
import ControlStore.Rv32i
import ControlStore.Source
import ControlStore.Table
import ControlStore.Text
