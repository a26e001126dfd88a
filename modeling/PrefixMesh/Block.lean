import Mathlib.Algebra.Group.Nat.Defs

/-! Blocks, as the stores hold them and as they travel, and the errors of the calls. -/

namespace PrefixMesh

def hashSize : Nat := 32

/-- `chain.BlockID`, an array of 32 bytes. -/
abbrev BlockID := {b : List UInt8 // b.length = hashSize}

/-- A `[]byte`, whose length is an `int`. -/
abbrev ByteSlice := {b : List UInt8 // b.length < 2 ^ 63}

structure Block where
  id : BlockID
  parentID : BlockID
  modelID : String
  payload : ByteSlice
  tokenCount : UInt32
  costUS : UInt64
  deriving DecidableEq

/-- The `Block` message of `common.proto`. -/
structure WireBlock where
  blockId : List UInt8
  parentId : List UInt8
  modelId : String
  payload : ByteSlice
  tokenCount : UInt32
  costUs : UInt64
  deriving DecidableEq

/-- The gRPC codes that the code looks at or sets. -/
inductive Code where
  | invalidArgument
  | failedPrecondition
  | internal
  | unavailable
  | other (code : Nat)
  deriving DecidableEq

structure Status where
  code : Code
  message : String
  deriving DecidableEq

end PrefixMesh
