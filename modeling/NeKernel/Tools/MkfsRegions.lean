import NeKernel.Tools.MkfsHefs
import Mathlib

/-!
# The regions of a volume

The bounds of the regions that `mkfs.hefs` writes into the boot node are options of its command line.
`main` compares each start with its end and each end with the size of the disk. It adds the size of the
boot node to the start of the directories after that, it multiplies the end of the blocks by the sector
size without asking whether the product fits, and it does not compare the regions with each other.
-/

namespace NeKernel.Tools

/-- A number of the command line, as `main` has it after `parse_signed` or `parse_decimal`. -/
def signedOption (argv : List (List UInt8)) (key : List Char) : Nat :=
  (parseSigned (getOption (buildArgs argv) (chars key))).getD 0
def decimalOption (argv : List (List UInt8)) (key : List Char) : Nat :=
  (parseDecimal (getOption (buildArgs argv) (chars key))).getD 0

/-- The bytes of the boot node, of the directories, of the index nodes and of the blocks, as the kernel
takes the fields: addresses of bytes. -/
def regions (v : Volume) : List (Set Nat) :=
  [Set.Ico v.start (v.start + BootNode.size),
    Set.Ico v.bootNode.startIND.toNat v.bootNode.endIND.toNat,
    Set.Ico v.bootNode.startIN.toNat v.bootNode.endIN.toNat,
    Set.Ico v.bootNode.startBlock.toNat v.bootNode.endBlock.toNat]

/-- The products and the sum of `main` fit in 64 bits. -/
structure NoWrap (argv : List (List UInt8)) : Prop where
  size : decimalOption argv ['S'] * 1024 * 1024 * 1024 < 2 ^ 64
  blocks : signedOption argv ['b', 'e'] * signedOption argv ['s'] < 2 ^ 64
  start : signedOption argv ['b'] + BootNode.size < 2 ^ 64

/-- The regions have a start before their end, lie apart from each other and on the disk. -/
structure RegionsSound (argv : List (List UInt8)) (v : Volume) : Prop where
  directories : v.bootNode.startIND < v.bootNode.endIND
  indexNodes : v.bootNode.startIN < v.bootNode.endIN
  blocks : v.bootNode.startBlock < v.bootNode.endBlock
  apart : (regions v).Pairwise Disjoint
  inside : v.bootNode.endIND.toNat ≤ v.diskSize ∧ v.bootNode.endIN.toNat ≤ v.diskSize ∧
    v.bootNode.endBlock.toNat ≤ v.diskSize
  noWrap : NoWrap argv

variable {argv : List (List UInt8)} {v : Volume} {opt : List UInt8} {n a b c d : Nat}

/-! ## What is accepted -/

theorem unsigned_lt (neg : Bool) (n : Nat) : unsigned neg n < 2 ^ 64 := by
  rw [unsigned]
  split <;> exact u64_lt _

theorem parseSigned_lt (h : parseSigned opt = some n) : n < 2 ^ 64 := by
  rw [parseSigned] at h
  split at h
  · cases h
    decide
  · obtain ⟨r, -, hr⟩ := Option.bind_eq_some_iff.mp h
    have hn := (Option.ite_none_left_eq_some.mp hr).2
    rw [← Option.some.inj hn]
    exact unsigned_lt _ _

theorem signedOption_lt (argv : List (List UInt8)) (key : List Char) : signedOption argv key < 2 ^ 64 := by
  rw [signedOption]
  cases h : parseSigned (getOption (buildArgs argv) (chars key)) with
  | none => exact Nat.two_pow_pos 64
  | some n => exact parseSigned_lt h

/-- What `main` has tested when it writes the volume, and the numbers it writes. -/
structure Accepted (argv : List (List UInt8)) (v : Volume) : Prop where
  sector : signedOption argv ['s'] ≠ 0
  gb : decimalOption argv ['S'] ≤ (2 ^ 64 - 1) / (1024 * 1024 * 1024)
  ind : signedOption argv ['b'] < signedOption argv ['e']
  block : signedOption argv ['b', 's'] < signedOption argv ['b', 'e']
  indexNode : signedOption argv ['i', 's'] < signedOption argv ['i', 'e']
  endBlock : u64 (signedOption argv ['b', 'e'] * signedOption argv ['s']) ≤ v.diskSize
  endInd : signedOption argv ['e'] ≤ v.diskSize
  endIn : signedOption argv ['i', 'e'] ≤ v.diskSize
  seek : signedOption argv ['b'] < 2 ^ 63
  start : v.start = signedOption argv ['b']
  startIND : v.bootNode.startIND = (signedOption argv ['b'] + BootNode.size).toUInt64
  endIND : v.bootNode.endIND = (signedOption argv ['e']).toUInt64
  startIN : v.bootNode.startIN = (signedOption argv ['i', 's']).toUInt64
  endIN : v.bootNode.endIN = (signedOption argv ['i', 'e']).toUInt64
  startBlock : v.bootNode.startBlock = (signedOption argv ['b', 's']).toUInt64
  endBlockNode : v.bootNode.endBlock = (signedOption argv ['b', 'e']).toUInt64

theorem main_accepted (h : main argv = some v) : Accepted argv v := by
  simp only [main, Option.bind_eq_bind, Option.bind_eq_some_iff, Option.guard_eq_some', Option.pure_def,
    Option.some.injEq] at h
  obtain ⟨-, -, -, -, sectorSz, hs, -, hs0, -, -, gb, hgb, -, -, -, hgbMax, startInd, hb, endInd, he, -, hbe,
    startBlock, hbs, endBlock, hbb, -, hblock, startIn, his, endIn, hie, -, hin, -, hfit, -, hseek, rfl⟩ := h
  have hget : ∀ {key n}, parseSigned (getOption (buildArgs argv) (chars key)) = some n →
      signedOption argv key = n := fun hn => by rw [signedOption, hn, Option.getD_some]
  have hS : decimalOption argv ['S'] = gb := by rw [decimalOption, hgb, Option.getD_some]
  refine ⟨?_, ?_, ?_, ?_, ?_, ?_, ?_, ?_, ?_, ?_, ?_, ?_, ?_, ?_, ?_, ?_⟩ <;>
    simp only [hget hs, hget hb, hget he, hget hbs, hget hbb, hget his, hget hie, hS]
  · exact hs0
  · exact hgbMax
  · exact hbe
  · exact hblock
  · exact hin
  · exact hfit.1
  · exact hfit.2.1
  · exact hfit.2.2
  · exact hseek.1
  · rfl
  · rfl
  · rfl
  · rfl
  · rfl
  · rfl

/-! ## When the regions are sound -/

/-- Two ranges with a start before their end lie apart exactly when one ends before the other starts. -/
theorem disjoint_iff (hab : a < b) (hcd : c < d) : Disjoint (Set.Ico a b) (Set.Ico c d) ↔ b ≤ c ∨ d ≤ a := by
  rw [Set.Ico_disjoint_Ico, min_le_iff, le_max_iff, le_max_iff]
  omega

theorem Accepted.toNat (h : Accepted argv v) :
    v.bootNode.startIND.toNat = signedOption argv ['b'] + BootNode.size ∧
    v.bootNode.endIND.toNat = signedOption argv ['e'] ∧
    v.bootNode.startIN.toNat = signedOption argv ['i', 's'] ∧
    v.bootNode.endIN.toNat = signedOption argv ['i', 'e'] ∧
    v.bootNode.startBlock.toNat = signedOption argv ['b', 's'] ∧
    v.bootNode.endBlock.toNat = signedOption argv ['b', 'e'] := by
  have fits : ∀ {n : Nat}, n < 2 ^ 64 → n.toUInt64.toNat = n := fun hn => Nat.mod_eq_of_lt hn
  have hsize : BootNode.size = 513 := rfl
  have hseek := h.seek
  rw [h.startIND, h.endIND, h.startIN, h.endIN, h.startBlock, h.endBlockNode]
  exact ⟨fits (by omega), fits (signedOption_lt _ _), fits (signedOption_lt _ _),
    fits (signedOption_lt _ _), fits (signedOption_lt _ _), fits (signedOption_lt _ _)⟩

/-- Once the directories have room, the four regions lie apart exactly when no two of the three that the
command line names overlap, the boot node counted to the directories. -/
theorem Accepted.apart_iff (h : Accepted argv v)
    (hroom : signedOption argv ['b'] + 513 < signedOption argv ['e']) :
    (regions v).Pairwise Disjoint ↔
      (signedOption argv ['e'] ≤ signedOption argv ['i', 's'] ∨
        signedOption argv ['i', 'e'] ≤ signedOption argv ['b']) ∧
      (signedOption argv ['e'] ≤ signedOption argv ['b', 's'] ∨
        signedOption argv ['b', 'e'] ≤ signedOption argv ['b']) ∧
      (signedOption argv ['i', 'e'] ≤ signedOption argv ['b', 's'] ∨
        signedOption argv ['b', 'e'] ≤ signedOption argv ['i', 's']) := by
  obtain ⟨hb, he, his, hie, hbs, hbe⟩ := h.toNat
  have hsize : BootNode.size = 513 := rfl
  have hblock := h.block
  have hnode := h.indexNode
  rw [hsize] at hb
  rw [regions, h.start, hb, he, his, hie, hbs, hbe, hsize]
  simp only [List.pairwise_cons, List.mem_cons, List.not_mem_nil, or_false, forall_eq_or_imp, forall_eq]
  rw [disjoint_iff (by omega) hnode, disjoint_iff (by omega) hblock, disjoint_iff hroom hnode,
    disjoint_iff hroom hblock, disjoint_iff hnode hblock]
  constructor
  · rintro ⟨⟨-, h₁, h₂⟩, ⟨h₃, h₄⟩, h₅, -⟩
    exact ⟨by omega, by omega, h₅⟩
  · rintro ⟨hin, hbl, hib⟩
    refine ⟨⟨Set.Ico_disjoint_Ico_same, ?_, ?_⟩, ⟨?_, ?_⟩, hib, ?_⟩
    · omega
    · omega
    · omega
    · omega
    · simp only [List.Pairwise.nil, false_implies, implies_true, and_self]

/-- **The regions of an accepted command line are sound** exactly when the directories have room behind the
boot node, no two of the three regions overlap (the boot node counted to the directories), and the end of
the blocks times the sector size fits in 64 bits. -/
theorem mkfs_regions_iff (h : main argv = some v) :
    RegionsSound argv v ↔
      signedOption argv ['b'] + 513 < signedOption argv ['e'] ∧
      (signedOption argv ['e'] ≤ signedOption argv ['i', 's'] ∨
        signedOption argv ['i', 'e'] ≤ signedOption argv ['b']) ∧
      (signedOption argv ['e'] ≤ signedOption argv ['b', 's'] ∨
        signedOption argv ['b', 'e'] ≤ signedOption argv ['b']) ∧
      (signedOption argv ['i', 'e'] ≤ signedOption argv ['b', 's'] ∨
        signedOption argv ['b', 'e'] ≤ signedOption argv ['i', 's']) ∧
      signedOption argv ['b', 'e'] * signedOption argv ['s'] < 2 ^ 64 := by
  have hacc := main_accepted h
  obtain ⟨hb, he, his, hie, hbs, hbe⟩ := hacc.toNat
  constructor
  · intro hs
    have hroom : signedOption argv ['b'] + 513 < signedOption argv ['e'] := by
      have hlt := UInt64.lt_iff_toNat_lt.mp hs.directories
      rwa [hb, he] at hlt
    obtain ⟨hin, hbl, hib⟩ := (hacc.apart_iff hroom).mp hs.apart
    exact ⟨hroom, hin, hbl, hib, hs.noWrap.blocks⟩
  · rintro ⟨hroom, hin, hbl, hib, hwrap⟩
    have hapart := (hacc.apart_iff hroom).mpr ⟨hin, hbl, hib⟩
    refine ⟨?_, ?_, ?_, hapart, ⟨?_, ?_, ?_⟩, ⟨?_, hwrap, ?_⟩⟩
    · rwa [UInt64.lt_iff_toNat_lt, hb, he]
    · rw [UInt64.lt_iff_toNat_lt, his, hie]
      exact hacc.indexNode
    · rw [UInt64.lt_iff_toNat_lt, hbs, hbe]
      exact hacc.block
    · rw [he]
      exact hacc.endInd
    · rw [hie]
      exact hacc.endIn
    · -- a sector has at least one byte
      have hfit := hacc.endBlock
      rw [u64_of_lt hwrap] at hfit
      rw [hbe]
      exact (Nat.le_mul_of_pos_right _ (Nat.pos_of_ne_zero hacc.sector)).trans hfit
    · have hgb := hacc.gb
      omega
    · have hsize : BootNode.size = 513 := rfl
      have hseek := hacc.seek
      omega

theorem mkfs_regions_iff_sample : ∃ v, main sampleArgv = some v ∧ RegionsSound sampleArgv v := by
  obtain ⟨v, hv⟩ := Option.isSome_iff_exists.mp (show (main sampleArgv).isSome = true by decide +kernel)
  exact ⟨v, hv, (mkfs_regions_iff hv).mpr (by decide +kernel)⟩

/-- `mkfs.hefs -s=512 -b=1024 -e=1100 -bs=32 -be=64 -is=4096 -ie=8192 -S=1 -o=x`. -/
def narrowArgv : List (List UInt8) :=
  [chars ['m', 'k', 'f', 's', '.', 'h', 'e', 'f', 's'], chars ['-', 's', '=', '5', '1', '2'],
    chars ['-', 'b', '=', '1', '0', '2', '4'], chars ['-', 'e', '=', '1', '1', '0', '0'],
    chars ['-', 'b', 's', '=', '3', '2'], chars ['-', 'b', 'e', '=', '6', '4'],
    chars ['-', 'i', 's', '=', '4', '0', '9', '6'], chars ['-', 'i', 'e', '=', '8', '1', '9', '2'],
    chars ['-', 'S', '=', '1'], chars ['-', 'o', '=', 'x']]

/-- The directories start behind their end. -/
theorem directories_turned : ∃ v, main narrowArgv = some v ∧ v.bootNode.startIND = 1537 ∧
    v.bootNode.endIND = 1100 ∧ ¬ RegionsSound narrowArgv v := by
  obtain ⟨v, hv⟩ := Option.isSome_iff_exists.mp (show (main narrowArgv).isSome = true by decide +kernel)
  have hstart : (main narrowArgv).map (fun v => v.bootNode.startIND) = some 1537 := by decide +kernel
  have hend : (main narrowArgv).map (fun v => v.bootNode.endIND) = some 1100 := by decide +kernel
  rw [hv] at hstart hend
  have hstart : v.bootNode.startIND = 1537 := Option.some.inj hstart
  have hend : v.bootNode.endIND = 1100 := Option.some.inj hend
  refine ⟨v, hv, hstart, hend, fun hs => ?_⟩
  have hlt := hs.directories
  rw [hstart, hend] at hlt
  exact absurd hlt (by decide)

end NeKernel.Tools
