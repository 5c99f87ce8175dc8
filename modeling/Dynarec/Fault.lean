import Dynarec.Template.Key
import Dynarec.Template.Slot
import Dynarec.Text.Radix

/-!
Everything that can stop an operation. An `Error` is a problem of configuration that callers are
told about; a `Violation` is a broken contract between the parts, after which nothing is promised.
-/
namespace Dynarec

inductive ConfigProblem where
  | zeroCodeBuffer
  | codeBufferBeyondJumps
  | zeroBlockLimit
  | emptyWindow
  | zeroMapping
  deriving DecidableEq, Repr

def ConfigProblem.message : ConfigProblem → String
  | .zeroCodeBuffer => "code_buffer_size must be non-zero"
  | .codeBufferBeyondJumps => "code_buffer_size exceeds the rel32 jump range"
  | .zeroBlockLimit => "max_block_insns must be non-zero"
  | .emptyWindow => "kernel_window must not be empty"
  | .zeroMapping => "code buffer size must be non-zero"

inductive Error where
  | missingTemplate (key : TemplateKey)
  /-- Neither region base reaches the host address. -/
  | regionsNotColocated (target : UInt64) (width : Width)
  | displacementOutOfRange (origin target : UInt64) (width : Width)
  | blockTooLarge (requested usable : Nat)
  | emptyBlock (pc : UInt32)
  | invalidConfig (problem : ConfigProblem)
  | mappingFailed
  deriving DecidableEq, Repr

def Error.message : Error → String
  | .missingTemplate key => "no template registered for " ++ key.describe
  | .regionsNotColocated target width =>
    "host address " ++ Text.hex target.toNat ++
      " is not reachable from either data region with a " ++ width.name ++ " displacement"
  | .displacementOutOfRange origin target width =>
    "displacement from " ++ Text.hex origin.toNat ++ " to " ++ Text.hex target.toNat ++
      " does not fit in " ++ width.name
  | .blockTooLarge requested usable =>
    "block needs " ++ toString requested ++ " bytes but the code buffer only has " ++
      toString usable ++ " usable bytes"
  | .emptyBlock pc => "translator produced no instructions at pc " ++ Text.paddedHex 8 pc.toNat
  | .invalidConfig problem => "invalid configuration: " ++ problem.message
  | .mappingFailed => "code buffer allocation failed: Cannot allocate memory (os error 12)"

inductive Violation where
  | arithmeticOverflow
  | indexOutOfBounds
  | assertionFailed
  | bufferOverflow (length offset : Nat)
  | patchPastCursor
  | readPastCursor
  | filledTwice (slot : Nat) (template : String) (offset : Nat)
  | notBranch (slot : Nat) (template : String) (kind : SlotKind)
  | unfilled (template : String) (offset : Nat) (mask : Nat)
  | slotCount (template : String) (slots planned : Nat)
  | crFieldRange (field : UInt8)
  | crBitRange (bit : UInt8)
  | discardPublished
  | discardNotEmitting
  | publishedTwice (block : Nat)
  | labelNeverPlaced
  | unknownExitCode (code : UInt32)
  | undefinedHostCode (offset : Nat)
  deriving DecidableEq, Repr

def Violation.message : Violation → String
  | .arithmeticOverflow => "arithmetic overflow"
  | .indexOutOfBounds => "index out of bounds"
  | .assertionFailed => "assertion failed"
  | .bufferOverflow length offset =>
    "code buffer overflow: " ++ toString length ++ " bytes at " ++ Text.hex offset
  | .patchPastCursor => "patch past the cursor"
  | .readPastCursor => "read past the cursor"
  | .filledTwice slot template offset =>
    "slot " ++ toString slot ++ " of `" ++ template ++ "` at " ++ Text.hex offset ++
      " patched twice"
  | .notBranch slot template kind =>
    "slot " ++ toString slot ++ " of `" ++ template ++ "` is " ++ kind.describe ++
      ", not a branch"
  | .unfilled template offset mask =>
    "`" ++ template ++ "` at " ++ Text.hex offset ++ " published with unpatched slots " ++
      Text.binary mask
  | .slotCount template slots planned =>
    unequal ++ ": `" ++ template ++ "` has " ++ toString slots ++ " slots, planned " ++
      toString planned
  | .crFieldRange field => "cr field " ++ toString field.toNat ++ " out of range"
  | .crBitRange bit => "cr bit " ++ toString bit.toNat ++ " out of range"
  | .discardPublished => unequal ++ ": discarding a published block"
  | .discardNotEmitting => unequal
  | .publishedTwice block =>
    unequal ++ ": block BlockId(" ++ toString block ++ ") published twice"
  | .labelNeverPlaced => "label 0 used but never placed"
  | .unknownExitCode code =>
    "internal error: entered unreachable code: translated code returned unknown exit code " ++
      toString code.toNat
  | .undefinedHostCode offset => "host code without a meaning at " ++ Text.hex offset
where
  unequal : String := "assertion `left == right` failed"

inductive Fault where
  | error (cause : Error)
  | violation (cause : Violation)
  deriving DecidableEq, Repr

def Fault.message : Fault → String
  | .error cause => cause.message
  | .violation cause => cause.message

/-- Fails with a violation. -/
def breach {α : Type} (cause : Violation) : Except Fault α := .error (.violation cause)

/-- Fails with a violation unless the condition holds. -/
def demand (condition : Prop) [Decidable condition] (cause : Violation) : Except Fault Unit :=
  if condition then .ok () else breach cause

/-- Host words hold sizes and offsets below this bound. -/
def wordBound : Nat := 0x10000000000000000

/-- A sum of sizes or offsets, which has to stay a host word. -/
def addSizes (m n : Nat) : Except Fault Nat :=
  if m + n < wordBound then .ok (m + n) else breach .arithmeticOverflow

end Dynarec
