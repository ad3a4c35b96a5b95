/-
This file models the errors of the field compression codec: what was broken, where, and the code
and text each failure is reported with.
-/

import ZeroServer.Qpack.Huffman
import ZeroServer.Qpack.Integer

namespace ZeroServer.Qpack

open Huffman (HuffmanError)

/-- Where a failure happened, which picks its code. -/
inductive Place where
  | fieldSection
  | encoderStream
  | decoderStream
  deriving DecidableEq

/-- What went wrong. -/
inductive Fault where
  | truncated
  | integer (error : IntegerError)
  | huffman (error : HuffmanError)
  | requiredInsertCount
  | negativeBase
  | dynamicReference
  | invalidStaticIndex
  | capacityExceeded
  | entryTooLarge
  | instructionAtCapacityZero
  | unexpectedAcknowledgment
  | invalidIncrement
  deriving DecidableEq

structure Error where
  place : Place
  fault : Fault
  deriving DecidableEq

end ZeroServer.Qpack
