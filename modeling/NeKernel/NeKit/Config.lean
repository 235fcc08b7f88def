import Mathlib.Algebra.Order.Ring.Int

/-!
# Machine integers and status codes

The kernel's integer types are fixed-width. Addresses, sizes and counters are natural numbers
here and every sum or difference that can leave the width is cut back by `u64`; the signed
`ProcessID` is an integer cut back by `int64`.
-/

namespace NeKernel

/-- `UInt64`, `SizeT`, `UIntPtr`, `Lba`: arithmetic modulo `2 ^ 64`. -/
def u64 (x : Nat) : Nat := x % 2 ^ 64

/-- `Int64`: two's complement in 64 bits. -/
def int64 (x : Int) : Int := (x + 2 ^ 63) % 2 ^ 64 - 2 ^ 63

/-- `Int32`: two's complement in 32 bits. -/
def int32 (x : Int) : Int := (x + 2 ^ 31) % 2 ^ 32 - 2 ^ 31

theorem u64_of_lt {x : Nat} (h : x < 2 ^ 64) : u64 x = x := Nat.mod_eq_of_lt h

theorem u64_lt (x : Nat) : u64 x < 2 ^ 64 := Nat.mod_lt _ (by decide)

theorem int64_of_small {x : Int} (h₁ : -2 ^ 63 ≤ x) (h₂ : x < 2 ^ 63) : int64 x = x := by
  unfold int64
  omega

/-! ## `KPCError` -/

def kErrorSuccess : Int := 0
def kErrorExecutable : Int := 33
def kErrorFileNotFound : Int := 35
def kErrorDirectoryNotFound : Int := 36
def kErrorDiskReadOnly : Int := 37
def kErrorDiskIsFull : Int := 38
def kErrorProcessFault : Int := 39
def kErrorHeapOutOfMemory : Int := 44
def kErrorNoSuchDisk : Int := 45
def kErrorHeapNotPresent : Int := 52
def kErrorDiskIsCorrupted : Int := 54
def kErrorDisk : Int := 55
def kErrorInvalidData : Int := 56
def kErrorDmaExhausted : Int := 66

end NeKernel
