import Mathlib.Tactic.Common
import SmoothlyPool.Library.Checked

namespace SmoothlyPool

/-- These are the reasons for which a call reverts. -/
inductive Revert where
  | rootNotFound
  | invalidProof
  | inactiveValidator
  | lengthMismatch
  | invalidWithdrawalAddr
  | emptyPool
  | correctFeeRecipient
  | notOwner
  | unregistered
  | alreadyRegistered
  | withdrawalsDisabled
  | bondNotSatisfied
  | invalidBlockTimestamp
  | updateNotAvailable
  /-- `Log2Undefined()` of the logarithm. -/
  | log2Undefined
  /-- `require(sent, "Failed to send ether")`. -/
  | failedToSendEther
  /-- `require(arr.length > 0, "Empty Array")`. -/
  | emptyArray
  /-- A second entry into a `nonReentrant` function. -/
  | reentrantCall
  /-- `Panic(0x11)`: a checked operation over- or underflows. -/
  | arithmetic
  /-- `Panic(0x12)`: a division by zero. -/
  | divisionByZero
  /-- ETH sent to a function that is not payable. -/
  | notPayable
  | outOfGas
deriving DecidableEq, Repr

end SmoothlyPool
