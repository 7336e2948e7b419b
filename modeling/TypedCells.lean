import TypedCells.Bits
import TypedCells.Cell.Basic
import TypedCells.Cell.Builder
import TypedCells.Cell.Slice
import TypedCells.Gen.Basic
import TypedCells.Gen.Error
import TypedCells.Gen.Message
import TypedCells.Gen.Packing
import TypedCells.Gen.Read
import TypedCells.Gen.Write
import TypedCells.Interface.Format
import TypedCells.Interface.Headers
import TypedCells.Interface.Param
import TypedCells.Interface.Signature
import TypedCells.Machine.Instr
import TypedCells.Machine.Listing
import TypedCells.Machine.Run
import TypedCells.Machine.Value
import TypedCells.Patch.Basic
import TypedCells.Patch.Unpack
import TypedCells.Patch.Update
import TypedCells.Proofs.Admitted
import TypedCells.Proofs.Alike
import TypedCells.Proofs.Bits
import TypedCells.Proofs.Bodies
import TypedCells.Proofs.Canonical
import TypedCells.Proofs.CellContents
import TypedCells.Proofs.Chains
import TypedCells.Proofs.Conditions
import TypedCells.Proofs.Consistency
import TypedCells.Proofs.Content
import TypedCells.Proofs.Decoders
import TypedCells.Proofs.Described
import TypedCells.Proofs.Emission
import TypedCells.Proofs.Extent
import TypedCells.Proofs.Flattening
import TypedCells.Proofs.Followed
import TypedCells.Proofs.FunctionIds
import TypedCells.Proofs.Gather
import TypedCells.Proofs.Generators
import TypedCells.Proofs.Grammar
import TypedCells.Proofs.Heights
import TypedCells.Proofs.Held
import TypedCells.Proofs.Images
import TypedCells.Proofs.Indistinct
import TypedCells.Proofs.Jumps
import TypedCells.Proofs.Leaves
import TypedCells.Proofs.Leftovers
import TypedCells.Proofs.Locality
import TypedCells.Proofs.Machine
import TypedCells.Proofs.Marks
import TypedCells.Proofs.MessageRoom
import TypedCells.Proofs.Messages
import TypedCells.Proofs.Neutral
import TypedCells.Proofs.Ordinals
import TypedCells.Proofs.Origins
import TypedCells.Proofs.Outlines
import TypedCells.Proofs.Pairs
import TypedCells.Proofs.Partitions
import TypedCells.Proofs.Passing
import TypedCells.Proofs.Pieces
import TypedCells.Proofs.Quiet
import TypedCells.Proofs.Reached
import TypedCells.Proofs.Reader
import TypedCells.Proofs.Reading
import TypedCells.Proofs.Records
import TypedCells.Proofs.Related
import TypedCells.Proofs.Rewrite
import TypedCells.Proofs.RoundTrip
import TypedCells.Proofs.RunEnds
import TypedCells.Proofs.Spelled
import TypedCells.Proofs.Spelling
import TypedCells.Proofs.Storable
import TypedCells.Proofs.Supplied
import TypedCells.Proofs.Taking
import TypedCells.Proofs.Thinned
import TypedCells.Proofs.Unpack
import TypedCells.Proofs.Untouched
import TypedCells.Proofs.Update
import TypedCells.Proofs.Values
import TypedCells.Proofs.VarIntegers
import TypedCells.Proofs.WellFormed
import TypedCells.Proofs.Windows
import TypedCells.Proofs.WordPackings
import TypedCells.Proofs.WordSizes
import TypedCells.Proofs.Writer
import TypedCells.Proofs.Writing
import TypedCells.Proofs.Yields
import TypedCells.Script.Bench
import TypedCells.Script.Step
import TypedCells.Script.Walk
import TypedCells.Text.Grammar
import TypedCells.Text.Json
import TypedCells.Text.Sha256
import TypedCells.Trap
import TypedCells.Ty.Basic
import TypedCells.Ty.Name
import TypedCells.Ty.Size
import TypedCells.Wire.Load
import TypedCells.Wire.Store
import TypedCells.Word
