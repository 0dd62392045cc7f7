/-
Moruna/Kernel/Abi.lean

What the kernel publishes to its programs: the errors a call returns, the bounds it
enforces, and what it charges an account for each thing it keeps.  The modules over
the kernel's parts share these and nothing else.
-/
import Mathlib.Tactic

namespace Moruna.Kernel

/-- Every error a call returns. -/
inductive Error where
  | badHandle
  | wrongType
  | accessDenied
  | invalidArgs
  | noMemory
  | shouldWait
  | peerClosed
  | timedOut
  | bufferTooSmall
  | outOfRange
  | badSyscall
  | limit
  | badState
  | fault
  | quotaExceeded
  deriving DecidableEq

/-- The page size every length and offset is a multiple of. -/
def PAGE_SIZE : ℕ := 4096

/-- `len` rounded up to whole pages: clearing the low bits rounds down. -/
@[irreducible] def pages (len : ℕ) : Except Error ℕ :=
  if len + (PAGE_SIZE - 1) < 2 ^ 64 then .ok ((len + (PAGE_SIZE - 1)) / PAGE_SIZE * PAGE_SIZE)
  else .error .outOfRange

/-! ### Bounds -/

namespace Limits

def CHANNEL_MAX_BYTES : ℕ := 64 * 1024

def CHANNEL_MAX_HANDLES : ℕ := 64

def CHANNEL_DEPTH : ℕ := 64

def HANDLES_PER_PROCESS : ℕ := 4096

def NAME_MAX : ℕ := 32

/-- The most memory objects one slot of the data plane holds at once. -/
def SLOT_DEPTH : ℕ := 64

end Limits

/-! ### Charges -/

namespace Charges

def PAGE : ℕ := PAGE_SIZE

def OBJECT : ℕ := 256

/-- A zero page, once first touched: the page and the kernel's record of it. -/
def ZERO_PAGE : ℕ := PAGE + 32

def AREA : ℕ := 96

/-- The page tables of an address space: one page for each 2 MiB, 1 GiB and 512 GiB
region of it an area touches. -/
def TABLE_REGIONS : List ℕ := [1 <<< 21, 1 <<< 30, 1 <<< 39]

end Charges

/-! ### Rights -/

/-- The rights of a handle, as bits. -/
abbrev Rights := UInt32

namespace Rights

def READ : Rights := 1
def WRITE : Rights := 2
def MAP : Rights := 4
def DUPLICATE : Rights := 8
def TRANSFER : Rights := 16
def WAIT : Rights := 32
def ALL : Rights := 0x3f

def fromBits (bits : ℕ) : Option Rights :=
  if bits < 2 ^ 32 ∧ UInt32.ofNat bits &&& ~~~ALL = 0 then some (UInt32.ofNat bits) else none

def contains (r other : Rights) : Bool := r &&& other == other

def channel : Rights := DUPLICATE ||| TRANSFER ||| READ ||| WRITE ||| WAIT

end Rights

/-! ### Names -/

/-- Whether `name` is a valid process or slot name: 1 to 32 bytes of `[a-z0-9._-]`. -/
def validName (name : List UInt8) : Bool :=
  !name.isEmpty && name.length ≤ Limits.NAME_MAX &&
    name.all fun b => (97 ≤ b && b ≤ 122) || (48 ≤ b && b ≤ 57) || b == 46 || b == 95 || b == 45

end Moruna.Kernel
