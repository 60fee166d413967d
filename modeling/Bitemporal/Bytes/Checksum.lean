/-!
# The checksum of a record

The 32-bit cyclic redundancy check with the reflected polynomial `0xEDB88320`,
over octets taken least significant bit first, from a register of ones and
complemented at the end. The register is advanced bit by bit, each step being
linear over exclusive or.
-/

namespace Bitemporal.Checksum

/-- The register after one more zero bit. -/
def shift (register : UInt32) : UInt32 :=
  if register &&& 1 = 1 then (register >>> 1) ^^^ 0xEDB88320 else register >>> 1

/-- The register after one more octet. -/
def absorb (register : UInt32) (octet : UInt8) : UInt32 :=
  let r := register ^^^ octet.toUInt32
  shift (shift (shift (shift (shift (shift (shift (shift r)))))))

/-- The checksum of a string of octets. -/
def ofOctets (octets : List UInt8) : UInt32 :=
  octets.foldl absorb 0xFFFFFFFF ^^^ 0xFFFFFFFF

end Bitemporal.Checksum
