import BlockScript.Main
import BlockScript.Proofs.Graph.Acyclic
import BlockScript.Proofs.Text.Indentation
import BlockScript.Proofs.Script.Arguments
import BlockScript.Proofs.Layout.Printer
import BlockScript.Proofs.Graph.WellFormed
import BlockScript.Proofs.Disk.Changes
import BlockScript.Proofs.Command.Runs
import BlockScript.Proofs.Command.Writes
import BlockScript.Proofs.Command.Containment
import BlockScript.Proofs.Command.Preservation
import BlockScript.Proofs.Command.Course
import BlockScript.Proofs.Script.Comparison
import BlockScript.Proofs.Text.Brackets
import BlockScript.Proofs.Script.Separation
import BlockScript.Proofs.Layout.Braces
import BlockScript.Proofs.Graph.Shape
import BlockScript.Proofs.Layout.Outline
import BlockScript.Proofs.Text.Delimited
import BlockScript.Proofs.Script.Content
import BlockScript.Proofs.Script.Locality
import BlockScript.Proofs.Script.Renaming
import BlockScript.Proofs.Graph.Blame
import BlockScript.Proofs.Command.Unpacking
import BlockScript.Proofs.Command.Extraction
import BlockScript.Proofs.Script.Chains
import BlockScript.Proofs.Script.Occurrences
import BlockScript.Proofs.Script.Kinds
import BlockScript.Proofs.Layout.LineBreaks
import BlockScript.Proofs.Script.Signatures
import BlockScript.Proofs.Graph.Termination
import BlockScript.Proofs.Project.Acceptance
import BlockScript.Proofs.Number.Rounding
import BlockScript.Proofs.Number.Shortest
import BlockScript.Proofs.Json.Numerals
import BlockScript.Proofs.Number.Layout
import BlockScript.Proofs.Json.ReadBack
import BlockScript.Proofs.Command.Enclosure
import BlockScript.Proofs.Disk.Tree
import BlockScript.Proofs.Command.Preparation
import BlockScript.Proofs.Text.ByteOrder
import BlockScript.Proofs.Command.Search
import BlockScript.Proofs.Levels.Exactness
