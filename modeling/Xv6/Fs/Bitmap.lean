/-
**The bitmap, bit by bit.**

`balloc` and `bfree` compute the sector and the bit of a block in two ways, from the variables of
the scan and from the block number, and address the same bit.
-/

import Xv6.Fs.Alloc

namespace Xv6

open Lib Function

namespace Block

end Block

namespace Fs

/-- The bit of block `b` in the bitmap, where `bfree` looks for it. -/
def marked (s : Fs) (b : Nat) : Bool := (s.blk (BBLOCK b s.readsb.ninodes.toNat)).bit (b % BPB)

variable {s s' : Fs} {b : Nat}

end Fs

end Xv6
