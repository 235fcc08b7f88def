import NeKernel.Lib.Records
import NeKernel.NeKit.Config
import Mathlib.Data.Set.Lattice
import Mathlib.Order.CompletePartialOrder
import Mathlib.Order.Interval.Set.Basic

/-!
# PEF containers

The layout of a PEF container and of the headers behind it, and the window of addresses its sections
live in, over the identity map. Strings are the lists of their characters.
-/

namespace NeKernel

open ByteStore

/-! ## The image window -/

def kPefBaseOrigin : Nat := 0x40000000

/-- The largest image an untrusted container may describe. -/
def kPefMaxImageSz : Nat := 0x4000000

/-- The addresses images live at. -/
def imageWindow : Set Nat := Set.Ico kPefBaseOrigin (kPefBaseOrigin + kPefMaxImageSz)

/-! ## Constants -/

/-- `"Open"`. -/
def kPefMagic : List UInt8 := [0x4F, 0x70, 0x65, 0x6E]

/-- `"nepO"`. -/
def kPefMagicFat : List UInt8 := [0x6E, 0x65, 0x70, 0x4F]

def kPefMagicLen : Nat := 5
def kPefNameLen : Nat := 256
def kPefAbi : Nat := 0x5046
def kPefMaxSections : Nat := 64
def kPefArchAMD64 : Nat := 1
def kPefCode : Nat := 0xC
def kPefData : Nat := 0xD
def kPefZero : Nat := 0xE

/-- `".code64"`. -/
def kCodePrefix : List UInt8 := [0x2E, 0x63, 0x6F, 0x64, 0x65, 0x36, 0x34]

/-- `".data64"`. -/
def kDataPrefix : List UInt8 := [0x2E, 0x64, 0x61, 0x74, 0x61, 0x36, 0x34]

/-- `".zero64"`. -/
def kZeroPrefix : List UInt8 := [0x2E, 0x7A, 0x65, 0x72, 0x6F, 0x36, 0x34]

/-- `"__ImageStart"`. -/
def kPefStart : List UInt8 :=
  [0x5F, 0x5F, 0x49, 0x6D, 0x61, 0x67, 0x65, 0x53, 0x74, 0x61, 0x72, 0x74]

/-- `"__PEFProgramName"`. -/
def kPefNameSymbol : List UInt8 :=
  [0x5F, 0x5F, 0x50, 0x45, 0x46, 0x50, 0x72, 0x6F, 0x67, 0x72, 0x61, 0x6D, 0x4E, 0x61, 0x6D, 0x65]

/-- `"__PEFSizeOfReserveStack"`. -/
def kPefStackSizeSymbol : List UInt8 :=
  [0x5F, 0x5F, 0x50, 0x45, 0x46, 0x53, 0x69, 0x7A, 0x65, 0x4F, 0x66, 0x52, 0x65, 0x73, 0x65, 0x72,
    0x76, 0x65, 0x53, 0x74, 0x61, 0x63, 0x6B]

/-! ## Layout

The `Magic` of a container and the `Name` of a header are at 0. -/

namespace PEFContainer

def size : Nat := 64
def abi : Field := ⟨17, 4⟩
def cpu : Field := ⟨21, 4⟩
def count : Field := ⟨45, 8⟩

end PEFContainer

namespace PEFCommandHeader

def size : Nat := 304
def cpu : Field := ⟨256, 4⟩
def kind : Field := ⟨268, 2⟩
def offset : Field := ⟨270, 8⟩
def offsetSize : Field := ⟨278, 8⟩
def vmAddress : Field := ⟨286, 8⟩
def vmSize : Field := ⟨294, 8⟩

end PEFCommandHeader

end NeKernel
