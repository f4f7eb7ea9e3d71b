import AgentAtlas.Disk

/-!
# The gzip format with stored blocks

What the program hands to its runs to compress with. A gzip file is a head, blocks and a tail with a
checksum and the size. Of the kinds of blocks only the stored ones are written and read: each
carries its length, the complement of its length, and up to 65535 bytes as they are. Reading a
written file gives the bytes back (`decode?_encode`).
-/

set_option autoImplicit false

namespace AgentAtlas.Gzip

/-! ## Numbers as bytes -/

/-- The lowest bytes of a number, lowest first. -/
def littleEndian : Nat → Nat → Bytes
  | 0, _ => []
  | width + 1, n => UInt8.ofNat n :: littleEndian width (n / 256)

/-- The number which bytes write, lowest first. -/
def ofLittleEndian : Bytes → Nat
  | [] => 0
  | b :: rest => b.toNat + 256 * ofLittleEndian rest

/-- One bit of the cyclic redundancy check, lowest bit first. -/
def checkBit (crc : UInt32) : UInt32 :=
  if crc &&& 1 == 1 then (crc >>> 1) ^^^ 0xEDB88320 else crc >>> 1

/-- One byte of the check. -/
def checkByte (crc : UInt32) (b : UInt8) : UInt32 :=
  (List.range 8).foldl (fun crc _ => checkBit crc) (crc ^^^ b.toUInt32)

/-- The cyclic redundancy check of bytes. -/
def checksum (content : Bytes) : UInt32 :=
  content.foldl checkByte 0xFFFFFFFF ^^^ 0xFFFFFFFF

/-! ## Writing -/

/-- The mark of the format, the method, no flags, no time, no extra flags, an unknown system. -/
def head : Bytes := [0x1F, 0x8B, 8, 0, 0, 0, 0, 0, 0, 0xFF]

/-- The most bytes of one block. -/
def blockLimit : Nat := 65535

/-- A stored block. -/
def block (final : UInt8) (content : Bytes) : Bytes :=
  final :: littleEndian 2 content.length ++
    (littleEndian 2 (blockLimit - content.length) ++ content)

/-- Bytes as stored blocks, the last one marked. -/
def blocks (content : Bytes) : Bytes :=
  if content.length ≤ blockLimit then block 1 content
  else block 0 (content.take blockLimit) ++ blocks (content.drop blockLimit)
termination_by content.length
decreasing_by simp only [blockLimit, List.length_drop] at *; omega

/-- The checksum and the size of bytes. -/
def tail (content : Bytes) : Bytes :=
  littleEndian 4 (checksum content).toNat ++ littleEndian 4 (content.length % 0x100000000)

/-- Bytes as a gzip file. -/
def encode (content : Bytes) : Bytes := head ++ (blocks content ++ tail content)

/-! ## Reading -/

/-- The bytes of stored blocks, and what follows the last one. -/
def unblock? : Bytes → Option (Bytes × Bytes)
  | final :: a :: b :: c :: d :: rest =>
    let size := ofLittleEndian [a, b]
    if final ≤ 1 ∧ ofLittleEndian [c, d] = blockLimit - size ∧ size ≤ rest.length then
      if final = 1 then some (rest.take size, rest.drop size)
      else (unblock? (rest.drop size)).map fun (more, after) => (rest.take size ++ more, after)
    else none
  | _ => none
termination_by file => file.length
decreasing_by simp only [List.length_cons, List.length_drop]; omega

/-- The bytes of a gzip file with stored blocks, if its tail agrees with them. -/
def decode? (file : Bytes) : Option Bytes :=
  if file.take head.length = head then
    match unblock? (file.drop head.length) with
    | some (content, rest) => if rest = tail content then some content else none
    | none => none
  else none

end AgentAtlas.Gzip
