/-
  Bytes, nibbles and the node encoding of `eth-sparse-mpt/src/utils.rs`.

  `keccak256` is a parameter `keccak` of the development: nothing below looks inside it.
  Leaf and extension nodes are encoded by `alloy_trie` (hex-prefix path, RLP
  list), branch nodes by `encode_branch_node`.
-/
import Rbuilder.Patricia.Merkle
import Mathlib.Data.Nat.Digits.Defs

namespace SparseMpt

abbrev Bytes := List UInt8

/-- A nibble. `Nibbles` values only ever hold bytes below 16. -/
abbrev Nibble := Fin 16

abbrev Nibbles := List Nibble

instance nibbleBase : NeZero 16 := ⟨by decide⟩

/-- 32 bytes. -/
abbrev B256 := Vector UInt8 32

def B256.zero : B256 := Vector.replicate 32 0

/-- `Nibbles::unpack`: high nibble first. -/
def unpack : Bytes → Nibbles
  | [] => []
  | b :: bs => Fin.ofNat 16 (b.toNat / 16) :: Fin.ofNat 16 (b.toNat % 16) :: unpack bs

/-! ## RLP -/

def emptyStringCode : UInt8 := 0x80

/-- Big-endian bytes of a number, without leading zeros. -/
def toBeBytes (n : Nat) : Bytes := (Nat.digits 256 n).reverse.map UInt8.ofNat

/-- `alloy_rlp::Header::encode`. -/
def encodeHeader (list : Bool) (payloadLength : Nat) : Bytes :=
  let code : Nat := if list then 0xC0 else 0x80
  if payloadLength < 56 then [UInt8.ofNat (code + payloadLength)]
  else
    let lenBe := toBeBytes payloadLength
    UInt8.ofNat (code + 55 + lenBe.length) :: lenBe

/-- RLP of a byte string. -/
def encodeString : Bytes → Bytes
  | [b] => if b < emptyStringCode then [b] else encodeHeader false 1 ++ [b]
  | s => encodeHeader false s.length ++ s

/-- Two nibbles a byte. -/
def pack : Nibbles → Bytes
  | a :: b :: k => UInt8.ofNat (16 * a.val + b.val) :: pack k
  | _ => []

/-- `alloy_trie::nodes::encode_path_leaf`, the hex-prefix encoding. -/
def encodePathLeaf (key : Nibbles) (isLeaf : Bool) : Bytes :=
  let flag : Nat := if isLeaf then 0x20 else 0x00
  if key.length % 2 = 1 then
    match key with
    | [] => []
    | a :: k => UInt8.ofNat (flag + 0x10 + a.val) :: pack k
  else UInt8.ofNat flag :: pack key

def encodeLeaf (key : Nibbles) (value : Bytes) : Bytes :=
  let payload := encodeString (encodePathLeaf key true) ++ encodeString value
  encodeHeader true payload.length ++ payload

def encodeExtension (key : Nibbles) (childRlpPointer : Bytes) : Bytes :=
  let payload := encodeString (encodePathLeaf key false) ++ childRlpPointer
  encodeHeader true payload.length ++ payload

def encodeBranchNode (childRlpPointers : Nibble → Option Bytes) : Bytes :=
  let item (i : Nibble) : Bytes := (childRlpPointers i).getD [emptyStringCode]
  let payloadLength := 1 + ((List.finRange 16).map fun i => (item i).length).sum
  encodeHeader true payloadLength ++ (List.finRange 16).flatMap item ++ [emptyStringCode]

section

variable (keccak : Bytes → B256)

/-- The pointer to an encoded node: the encoding itself when it is shorter than a
    hash, else the RLP of its hash (`Trie::calculate_rlp_pointer_node`). -/
def rlpPointer (rlp : Bytes) : Bytes :=
  if rlp.length < 32 then rlp else (emptyStringCode + 32) :: (keccak rlp).toList

def nodeCodec : Patricia.Codec Nibble Bytes Bytes where
  encodeNull := [emptyStringCode]
  encodeLeaf := encodeLeaf
  encodeExt := encodeExtension
  encodeBranch := encodeBranchNode
  pointer := rlpPointer keccak

/-- A Patricia node over nibbles and byte strings. -/
abbrev MptNode := Patricia.Node Nibble Bytes

/-- A map from nibble keys to byte strings. -/
abbrev MptMap := Patricia.KeyMap Nibble Bytes

/-- The root hash of a node. -/
def rootOf (n : MptNode) : B256 := keccak (n.encode (nodeCodec keccak))

/-- The reference root: the hash of the composed node of a map. -/
def mptRoot (m : MptMap) : B256 := rootOf keccak (Patricia.ofMap m)

end

end SparseMpt
