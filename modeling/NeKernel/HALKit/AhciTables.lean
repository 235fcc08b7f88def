import NeKernel.HALKit.AhciCommand
import NeKernel.HALKit.HalKernelMain
import NeKernel.Lib.Runs

/-!
# The tables of the AHCI driver

The entries of a command describe its buffer in chunks of 32 KiB, one after the other from offset 0x80
of the slot's command table, a block of 4 KiB. It has room for 248 of them.
-/

namespace NeKernel.Ahci

open DmaKit

/-! ## The entries of a buffer -/

/-- The address and the byte count an entry stands for. -/
def HbaPrdtEntry.addr (e : HbaPrdtEntry) : UInt64 := (e.dbau.toUInt64 <<< 32) ||| e.dba.toUInt64
def HbaPrdtEntry.count (e : HbaPrdtEntry) : UInt64 := e.dbc.toUInt64 + 1

/-- The entries are for the `n` bytes from `addr` on, each byte once and in order, and each entry for one
byte at least and a chunk at most. -/
def Covers (addr n : UInt64) : List HbaPrdtEntry → Prop
  | [] => n = 0
  | e :: es => e.addr = addr ∧ 0 < e.count ∧ e.count ≤ kChunk ∧ e.count ≤ n ∧
      Covers (addr + e.count) (n - e.count) es

variable {ptr n addr : UInt64} {es : List HbaPrdtEntry}

/-- Two halves of an address are the address. -/
theorem join_halves (x : UInt64) :
    ((x >>> 32).toUInt32.toUInt64 <<< 32) ||| x.toUInt32.toUInt64 = x := by
  have hx := UInt64.toNat_lt x
  have hhigh : ((x >>> 32).toUInt32.toUInt64 <<< 32).toNat = x.toNat / 2 ^ 32 * 2 ^ 32 := by
    simp only [UInt64.toNat_shiftLeft, UInt32.toNat_toUInt64, UInt64.toNat_toUInt32,
      UInt64.toNat_shiftRight, Nat.shiftRight_eq_div_pow, Nat.shiftLeft_eq, UInt64.reduceToNat,
      Nat.reduceMod, Nat.reducePow]
    omega
  have hlow : x.toUInt32.toUInt64.toNat = x.toNat % 2 ^ 32 := by
    simp only [UInt32.toNat_toUInt64, UInt64.toNat_toUInt32]
  apply UInt64.toNat_inj.mp
  rw [UInt64.toNat_or, hhigh, hlow, BitMask.or_eq_add (n := 32)]
  · omega
  · omega
  · omega

/-- The byte count of a chunk fits in its field. -/
theorem count_chunk {chunk : UInt64} (hpos : 0 < chunk) (hle : chunk ≤ kChunk) :
    ((chunk - 1).toUInt32 &&& 0x3FFFFF).toUInt64 + 1 = chunk := by
  have hpos' : 0 < chunk.toNat := UInt64.lt_iff_toNat_lt.mp hpos
  have hle' : chunk.toNat ≤ 32768 := UInt64.le_iff_toNat_le.mp hle
  have hsub : (chunk - 1).toNat = chunk.toNat - 1 :=
    UInt64.toNat_sub_of_le _ _ (UInt64.le_iff_toNat_le.mpr hpos')
  have hfield : ((chunk - 1).toUInt32 &&& 0x3FFFFF).toUInt64.toNat = chunk.toNat - 1 := by
    rw [UInt32.toNat_toUInt64, UInt32.toNat_and, UInt64.toNat_toUInt32, hsub]
    show (chunk.toNat - 1) % 2 ^ 32 &&& (2 ^ 22 - 1) = _
    rw [BitMask.and_low]
    omega
  apply UInt64.toNat_inj.mp
  rw [UInt64.toNat_add, hfield]
  show (chunk.toNat - 1 + 1) % 2 ^ 64 = _
  omega

theorem chunkSize_pos (h : 0 < n) : 0 < chunkSize n := by
  rw [chunkSize]
  split
  · decide
  · exact h

theorem chunkSize_le : chunkSize n ≤ kChunk := by
  rw [chunkSize]
  split
  · exact UInt64.le_refl _
  · next h => exact UInt64.not_lt.mp h

theorem chunkSize_le_self : chunkSize n ≤ n := by
  rw [chunkSize]
  split
  · next h => exact UInt64.le_of_lt h
  · exact UInt64.le_refl _

/-- **The loop describes the buffer.** -/
theorem prdLoop_covers (ptr n : UInt64) : Covers ptr n (prdLoop ptr n).1 := by
  induction ptr, n using prdLoop.induct with
  | case1 ptr n hpos chunk ih =>
      rw [prdLoop, if_pos hpos]
      have hchunk : 0 < chunkSize n := chunkSize_pos hpos
      simp only [Covers, HbaPrdtEntry.addr, HbaPrdtEntry.count, join_halves,
        count_chunk hchunk chunkSize_le]
      exact ⟨trivial, hchunk, chunkSize_le, chunkSize_le_self, ih⟩
  | case2 ptr n hzero =>
      rw [prdLoop, if_neg hzero]
      apply UInt64.toNat_inj.mp
      exact Nat.eq_zero_of_not_pos fun hpos => hzero (UInt64.lt_iff_toNat_lt.mpr hpos)

/-- An entry for every chunk, and one for what is left. -/
theorem prdLoop_length (ptr n : UInt64) :
    (prdLoop ptr n).1.length = (n.toNat + (kChunk.toNat - 1)) / kChunk.toNat := by
  have hchunk : kChunk.toNat = 32768 := rfl
  induction ptr, n using prdLoop.induct with
  | case1 ptr n hpos chunk ih =>
      have hpos' : 0 < n.toNat := UInt64.lt_iff_toNat_lt.mp hpos
      rw [prdLoop, if_pos hpos]
      simp only [List.length_cons]
      rw [ih, sub_chunkSize_toNat, hchunk]
      omega
  | case2 ptr n hzero =>
      have hzero' : n.toNat = 0 :=
        Nat.eq_zero_of_not_pos fun hpos => hzero (UInt64.lt_iff_toNat_lt.mpr hpos)
      rw [prdLoop, if_neg hzero, hzero', hchunk]
      rfl

theorem markLast_length : (markLast es).length = es.length := by
  induction es using markLast.induct with
  | case1 => rfl
  | case2 e => rfl
  | case3 e es hne ih => rw [markLast, List.length_cons, ih, List.length_cons]; exact hne

/-- The interrupt does not change what an entry is for. -/
theorem markLast_covers (h : Covers addr n es) : Covers addr n (markLast es) := by
  induction es using markLast.induct generalizing addr n with
  | case1 => exact h
  | case2 e => exact h
  | case3 e es hne ih =>
      rw [markLast]
      · exact ⟨h.1, h.2.1, h.2.2.1, h.2.2.2.1, ih h.2.2.2.2⟩
      · exact hne

/-! ## The command tables -/

/-- The pool when the command list and `i` tables have been taken. -/
def tablePool (p : DmaPool) : Nat → DmaPool
  | 0 => (rtlDmaAlloc 4096 1024 p).2
  | i + 1 => (rtlDmaAlloc 4096 128 (tablePool p i)).2

/-- The memory of the command list, and of the `i`-th table. -/
def clbMem (p : DmaPool) : UInt64 := (rtlDmaAlloc 4096 1024 p).1
def ctMem (p : DmaPool) (i : Nat) : UInt64 := (rtlDmaAlloc 4096 128 (tablePool p i)).1

variable {p : DmaPool} {size align c a : UInt64} {h h' h₀ h₁ : Hba} {i j left k : Nat}
  {mmGetPageAddr : UInt64 → UInt64}

/-- An allocation leaves the cursor in front of the end. -/
theorem rtlDmaAlloc_inside (hp : p.kDmaPoolPtr ≤ kDmaPoolEnd) :
    (rtlDmaAlloc size align p).2.kDmaPoolPtr ≤ kDmaPoolEnd := by
  by_cases href : Refuses p size align
  · rw [(rtlDmaAlloc_refused href).2]
    exact hp
  · rw [rtlDmaAlloc_granted href]
    exact UInt64.not_lt.mp fun hgt => href (.inr (.inr hgt))

/-- A small block that is granted from a cursor in front of the end lies in front of it, too. -/
theorem rtlDmaAlloc_room (hp : p.kDmaPoolPtr ≤ kDmaPoolEnd) (hk : k ≤ 12)
    (halign : (align - 1).toNat = 2 ^ k - 1) (hne : (rtlDmaAlloc 4096 align p).1 ≠ 0) :
    (rtlDmaAlloc 4096 align p).1.toNat + 4096 ≤ kDmaPoolEnd.toNat := by
  have hcursor := UInt64.le_iff_toNat_le.mp hp
  have hpow : 2 ^ k ≤ 2 ^ 12 := Nat.pow_le_pow_right (by decide) hk
  by_cases href : Refuses p 4096 align
  · exact absurd (rtlDmaAlloc_refused href).1 hne
  · have haddr := alignedAddr_toNat (c := p.kDmaPoolPtr) (by omega) halign
    have hend : kDmaPoolEnd.toNat = 2 ^ 25 := rfl
    have hsum : (alignedAddr p.kDmaPoolPtr align + 4096).toNat =
        (alignedAddr p.kDmaPoolPtr align).toNat + 4096 := by
      rw [UInt64.toNat_add]
      show (_ + 4096) % 2 ^ 64 = _
      rw [Nat.mod_eq_of_lt (by omega)]
    rw [rtlDmaAlloc_granted href, ← hsum]
    exact UInt64.le_iff_toNat_le.mp (UInt64.not_lt.mp fun hgt => href (.inr (.inr hgt)))

theorem tablePool_inside (hp : p.kDmaPoolPtr ≤ kDmaPoolEnd) (i : Nat) :
    (tablePool p i).kDmaPoolPtr ≤ kDmaPoolEnd := by
  induction i with
  | zero =>
      rw [tablePool]
      exact rtlDmaAlloc_inside hp
  | succ i ih =>
      rw [tablePool]
      exact rtlDmaAlloc_inside ih

/-- Two headers of a list are two. -/
theorem header_ne (hi : i < kSATAPortCnt) (hj : j < kSATAPortCnt) (hne : i ≠ j) :
    c + sizeofHbaCmdHeader * UInt64.ofNat i ≠ c + sizeofHbaCmdHeader * UInt64.ofNat j := by
  have hcnt : kSATAPortCnt = 32 := rfl
  have hoffset : ∀ x < kSATAPortCnt, (sizeofHbaCmdHeader * UInt64.ofNat x).toNat = 32 * x := by
    intro x hx
    rw [UInt64.toNat_mul, UInt64.toNat_ofNat', Nat.mod_eq_of_lt (a := x) (by omega)]
    show 32 * x % 2 ^ 64 = _
    omega
  intro heq
  have hnat := congrArg UInt64.toNat ((UInt64.add_right_inj c).mp heq)
  rw [hoffset i hi, hoffset j hj] at hnat
  omega

/-- **The loop over the tables** gives every header its own. -/
theorem initTables_spec (hinit : initTables mmGetPageAddr c left i h = (true, h'))
    (hpool : h.pool = tablePool p i) (hlast : i + left ≤ kSATAPortCnt) :
    h'.clb = h.clb ∧
    (∀ j < i, h'.headers (c + sizeofHbaCmdHeader * UInt64.ofNat j) =
      h.headers (c + sizeofHbaCmdHeader * UInt64.ofNat j)) ∧
    ∀ j, i ≤ j → j < i + left → ctMem p j ≠ 0 ∧
      (h'.headers (c + sizeofHbaCmdHeader * UInt64.ofNat j)).table = mmGetPageAddr (ctMem p j) := by
  induction left generalizing i h with
  | zero =>
      cases hinit
      exact ⟨rfl, fun _ _ => rfl, fun j hle hlt => absurd hlt (Nat.not_lt.mpr hle)⟩
  | succ left ih =>
      rw [initTables, hpool] at hinit
      dsimp only at hinit
      split at hinit
      · cases hinit
      · next hne =>
          obtain ⟨hclb, hbefore, hnamed⟩ := ih hinit (by rw [tablePool]) (by omega)
          refine ⟨hclb, fun j hj => ?_, fun j hle hlt => ?_⟩
          · rw [hbefore j (by omega)]
            exact Function.update_of_ne (header_ne (by omega) (by omega) (by omega)) _ _
          · by_cases hj : j = i
            · subst hj
              refine ⟨hne, ?_⟩
              rw [hbefore j (Nat.lt_succ_self j)]
              dsimp only
              rw [Function.update_self]
              exact join_halves _
            · exact hnamed j (by omega) (by omega)

/-- The headers name the tables, and the tables lie in the pool. -/
structure Ready (p : DmaPool) (h : Hba) : Prop where
  named : ∀ j < kSATAPortCnt,
    (h.headers (h.clb.toUInt64 + sizeofHbaCmdHeader * UInt64.ofNat j)).table = ctMem p j
  room : ∀ j < kSATAPortCnt, (ctMem p j).toNat + 4096 ≤ kDmaPoolEnd.toNat

/-- **The command structures are ready** when the driver says so, if the pool is mapped to itself. -/
theorem init_ready (hend : h₀.pool.kDmaPoolPtr ≤ kDmaPoolEnd)
    (hid : ∀ a < kDmaPoolEnd, mmGetPageAddr a = a)
    (hinit : drvInitCommandStructuresAhci mmGetPageAddr h₀ = (true, h₁)) : Ready h₀.pool h₁ := by
  have hbelow : ∀ {x : UInt64}, x.toNat + 4096 ≤ kDmaPoolEnd.toNat → x < kDmaPoolEnd := fun hx =>
    UInt64.lt_iff_toNat_lt.mpr (by omega)
  unfold drvInitCommandStructuresAhci at hinit
  dsimp only at hinit
  split at hinit
  · cases hinit
  · next hne =>
      have hlist : (clbMem h₀.pool).toNat + 4096 ≤ kDmaPoolEnd.toNat :=
        rtlDmaAlloc_room (k := 10) hend (by decide) (by decide) hne
      obtain ⟨hclb, -, hnamed⟩ := initTables_spec (p := h₀.pool) hinit (by rw [tablePool]) (Nat.le_refl _)
      have hroom : ∀ j < kSATAPortCnt, (ctMem h₀.pool j).toNat + 4096 ≤ kDmaPoolEnd.toNat :=
        fun j hj => rtlDmaAlloc_room (k := 7) (tablePool_inside hend j) (by decide) (by decide)
          (hnamed j (Nat.zero_le j) (by omega)).1
      refine ⟨fun j hj => ?_, hroom⟩
      -- the list is below 4 GiB, so its register names it
      have hreg : h₁.clb.toUInt64 = clbMem h₀.pool := by
        rw [hclb]
        show (mmGetPageAddr (clbMem h₀.pool)).toUInt32.toUInt64 = _
        rw [hid _ (hbelow hlist)]
        apply UInt64.toNat_inj.mp
        have hend25 : kDmaPoolEnd.toNat = 2 ^ 25 := rfl
        rw [UInt32.toNat_toUInt64, UInt64.toNat_toUInt32, Nat.mod_eq_of_lt (by omega)]
      rw [hreg, ← hid _ (hbelow (hroom j hj))]
      exact (hnamed j (Nat.zero_le j) (by omega)).2

/-- The tables the kernel builds for itself map the pool to itself, if their limit is not in it. -/
theorem init_ready_kernelTables {q q' : HALKit.Phys} {limit root : Nat} (hlimit : limit ≤ 2 ^ 47)
    (hA : HALKit.InitAnswers q.answers) (hroot : root ≠ 0) (hpool : kDmaPoolEnd.toNat ≤ limit)
    (htables : HALKit.mmInitKernelTables q limit = some (root, q'))
    (hend : h₀.pool.kDmaPoolPtr ≤ kDmaPoolEnd)
    (hinit : drvInitCommandStructuresAhci
      (fun a => UInt64.ofNat (HALKit.mmGetPageAddr q'.mem root a.toNat)) h₀ = (true, h₁)) :
    Ready h₀.pool h₁ := by
  refine init_ready hend (fun a ha => ?_) hinit
  have hlt : a.toNat < limit := Nat.lt_of_lt_of_le (UInt64.lt_iff_toNat_lt.mp ha) hpool
  rw [(HALKit.mmInitKernelTables_spec hlimit hA htables hroot).read,
    HALKit.identityMap_addr hlimit hlt]
  exact UInt64.ofNat_toNat

/-! ## Calls -/

variable {dm : DataModel} {rq : IoRequest} {dev : AhciDevice} {fuel : Nat} {slot : UInt64}
  {call : IoCall} {cmd : IssuedCommand}

theorem copyBack_headers : (copyBack rq ptr h).clb = h.clb ∧ (copyBack rq ptr h).headers = h.headers := by
  unfold copyBack
  split <;> exact ⟨rfl, rfl⟩

theorem complete_headers : (complete rq dev fuel slot ptr h).1.clb = h.clb ∧
    (complete rq dev fuel slot ptr h).1.headers = h.headers := by
  unfold complete
  dsimp only
  split
  · exact ⟨rfl, rfl⟩
  · split
    · exact ⟨rfl, rfl⟩
    · split <;> exact copyBack_headers

/-- **A call leaves the headers their tables.** -/
theorem io_tables : (drvStdInputOutputAhci dm rq dev fuel h).hba.clb = h.clb ∧
    ∀ a, ((drvStdInputOutputAhci dm rq dev fuel h).hba.headers a).table = (h.headers a).table := by
  by_cases hskip : Skips dm rq dev
  · rw [io_skips hskip]
    exact ⟨rfl, fun _ => rfl⟩
  · obtain ⟨slot, -, hcall⟩ := io_issues fuel h hskip
    rw [hcall]
    dsimp only
    rw [complete_headers.1, complete_headers.2]
    refine ⟨rfl, fun a => ?_⟩
    by_cases ha : a = h.clb.toUInt64 + sizeofHbaCmdHeader * slot
    · subst ha
      simp only [issuing, Function.update_self]
      rfl
    · simp only [issuing, Function.update_of_ne ha]
      rfl

theorem Ready.io (hr : Ready p h) : Ready p (drvStdInputOutputAhci dm rq dev fuel h).hba := by
  refine ⟨fun j hj => ?_, hr.room⟩
  rw [io_tables.2, io_tables.1]
  exact hr.named j hj

/-- A call that comes back. -/
def CallStep (dm : DataModel) (h : Hba) (l : IoRequest × AhciDevice × Nat) (h' : Hba) : Prop :=
  (drvStdInputOutputAhci dm l.1 l.2.1 l.2.2 h).returned = true ∧
    h' = (drvStdInputOutputAhci dm l.1 l.2.1 l.2.2 h).hba

/-- The entries a table of 4 KiB has room for. -/
def kTableEntries : Nat := 248

/-- Where the driver writes an entry. -/
def prdtAddr (table : UInt64) (i : Nat) : UInt64 :=
  table + prdtOffset + sizeofHbaPrdtEntry * UInt64.ofNat i

/-- The command describes the `n` bytes of the buffer at `ptr`, in the table its slot was given when the
pool was `p`. -/
structure Described (p : DmaPool) (ptr n : UInt64) (cmd : IssuedCommand) : Prop where
  taken : ptr ≠ 0
  covers : Covers ptr n cmd.table.prdt
  inside : ∃ j < kSATAPortCnt, cmd.slot = UInt64.ofNat j ∧ ∀ i < cmd.table.prdt.length,
    (ctMem p j).toNat ≤ (prdtAddr cmd.header.table i).toNat ∧
      (prdtAddr cmd.header.table i).toNat + sizeofHbaPrdtEntry.toNat ≤ (ctMem p j).toNat + 4096
  prdtl : cmd.header.prdtl.toNat = cmd.table.prdt.length

/-- The entries of a call are right, and a buffer that needs more than a table holds is refused. -/
structure PrdRight (p : DmaPool) (rq : IoRequest) (h : Hba) (call : IoCall) : Prop where
  described : ∀ cmd, call.issued = some cmd → Described p (bufferPtr rq h) rq.sizeBuffer cmd
  refused : kTableEntries * kChunk.toNat < rq.sizeBuffer.toNat →
    call.issued = none ∧ call.hba.pool.err ≠ kErrorSuccess

/-- A slot of the port is found. -/
def FindsSlot (dm : DataModel) (dev : AhciDevice) : Prop :=
  ∃ j < kSATAPortCnt, waitSlot dm dev = some (UInt64.ofNat j)

theorem command_length : (command rq slot ptr (h.headers a)).table.prdt.length =
    (rq.sizeBuffer.toNat + (kChunk.toNat - 1)) / kChunk.toNat := by
  show (markLast (prdLoop ptr rq.sizeBuffer).1).length = _
  rw [markLast_length, prdLoop_length]

theorem command_prdtl {header : HbaCmdHeader} : (command rq slot ptr header).header.prdtl.toNat =
    (command rq slot ptr header).table.prdt.length % 2 ^ 16 := UInt16.toNat_ofNat'

theorem length_le_iff : (n.toNat + (kChunk.toNat - 1)) / kChunk.toNat ≤ kTableEntries ↔
    n.toNat ≤ kTableEntries * kChunk.toNat := by
  have hchunk : kChunk.toNat = 32768 := rfl
  rw [hchunk, kTableEntries]
  omega

theorem prdtAddr_toNat {table : UInt64} (htable : table.toNat + 4096 ≤ kDmaPoolEnd.toNat)
    (hi : i ≤ kTableEntries) : (prdtAddr table i).toNat = table.toNat + 0x80 + 16 * i := by
  have hend : kDmaPoolEnd.toNat = 2 ^ 25 := rfl
  have hsmall : i ≤ 248 := hi
  rw [prdtAddr, UInt64.toNat_add, UInt64.toNat_add, UInt64.toNat_mul, UInt64.toNat_ofNat',
    Nat.mod_eq_of_lt (a := i) (by omega)]
  show ((table.toNat + 128) % 2 ^ 64 + 16 * i % 2 ^ 64) % 2 ^ 64 = _
  omega

/-- **The entries are right** exactly when a slot is found, the pool grants the buffer and the table has
room for its entries. -/
theorem Ready.prd_right (hr : Ready p h) (dm : DataModel) (rq : IoRequest) (dev : AhciDevice)
    (fuel : Nat) : PrdRight p rq h (drvStdInputOutputAhci dm rq dev fuel h) ↔
      Skips dm rq dev ∨ FindsSlot dm dev ∧ Granted h.pool rq.sizeBuffer ∧
        rq.sizeBuffer.toNat ≤ kTableEntries * kChunk.toNat := by
  by_cases hskip : Skips dm rq dev
  · rw [io_skips hskip]
    have herr : kErrorDisk ≠ kErrorSuccess := by decide
    refine ⟨fun _ => .inl hskip, fun _ => ⟨fun _ hnone => ?_, fun _ => ⟨rfl, herr⟩⟩⟩
    exact absurd hnone (Option.some_ne_none _).symm
  · obtain ⟨slot, hslot, hcall⟩ := io_issues fuel h hskip
    rw [hcall]
    constructor
    · intro hright
      have hfits : rq.sizeBuffer.toNat ≤ kTableEntries * kChunk.toNat :=
        Nat.not_lt.mp fun hlarge => absurd (hright.refused hlarge).1 (Option.some_ne_none _)
      have hdesc := hright.described _ rfl
      obtain ⟨j, hj, hcmd, -⟩ := hdesc.inside
      exact .inr ⟨⟨j, hj, hslot.trans (congrArg some hcmd)⟩, granted_iff.mpr hdesc.taken, hfits⟩
    · rintro (habs | ⟨⟨j, hj, hfound⟩, hg, hfits⟩)
      · exact absurd habs hskip
      · refine ⟨fun cmd hcmd => ?_, fun hlarge => absurd hfits (Nat.not_le.mpr hlarge)⟩
        cases hcmd
        cases hslot.symm.trans hfound
        have hlen := length_le_iff.mpr hfits
        refine ⟨granted_iff.mp hg, markLast_covers (prdLoop_covers _ _), ⟨j, hj, rfl, ?_⟩, ?_⟩
        · intro i hi
          rw [command_length] at hi
          have htable : (command rq (UInt64.ofNat j) (bufferPtr rq h)
              (h.headers (h.clb.toUInt64 + sizeofHbaCmdHeader * UInt64.ofNat j))).header.table =
                ctMem p j := hr.named j hj
          have hentries : kTableEntries = 248 := rfl
          have hentry : sizeofHbaPrdtEntry.toNat = 16 := rfl
          rw [htable, prdtAddr_toNat (hr.room j hj) (by omega), hentry]
          omega
        · have hentries : kTableEntries = 248 := rfl
          rw [command_prdtl, command_length]
          exact Nat.mod_eq_of_lt (by omega)

/-- **The entries of every call** are right under the same condition, in every state that the
initialisation and calls lead to. -/
theorem prd_right_iff {dm : DataModel} (hend : h₀.pool.kDmaPoolPtr ≤ kDmaPoolEnd)
    (hid : ∀ a < kDmaPoolEnd, mmGetPageAddr a = a)
    (hinit : drvInitCommandStructuresAhci mmGetPageAddr h₀ = (true, h₁))
    (hreach : Runs.Reachable (CallStep dm) h₁ h) (rq : IoRequest) (dev : AhciDevice)
    (fuel : Nat) : PrdRight h₀.pool rq h (drvStdInputOutputAhci dm rq dev fuel h) ↔
      Skips dm rq dev ∨ FindsSlot dm dev ∧ Granted h.pool rq.sizeBuffer ∧
        rq.sizeBuffer.toNat ≤ kTableEntries * kChunk.toNat := by
  have hready : Ready h₀.pool h := hreach.inv (init_ready hend hid hinit)
    fun _ _ _ hr _ hstep => hstep.2 ▸ hr.io
  exact hready.prd_right dm rq dev fuel

/-- The driver at boot, and when it has its command structures. -/
def bootHba : Hba := ⟨⟨kNeDMAPoolStart, kErrorSuccess⟩, 0, 0, fun _ => blankHeader, fun _ => 0⟩
def startedHba : Hba := (drvInitCommandStructuresAhci id bootHba).2

theorem bootHba_starts : drvInitCommandStructuresAhci id bootHba = (true, startedHba) :=
  Prod.ext (by decide) rfl

/-- A read of one byte more than a table has entries for. -/
def readOneMore : IoRequest := ⟨false, true, false, 0, 0x5000, 512, 248 * 0x8000 + 1⟩

/-- A sector is described. -/
theorem prd_right_iff_sector :
    PrdRight bootHba.pool ⟨false, true, false, 0, 0x5000, 512, 512⟩ startedHba
      (drvStdInputOutputAhci .llp64 ⟨false, true, false, 0, 0x5000, 512, 512⟩ idleDevice 1 startedHba) := by
  refine (prd_right_iff (by decide) ?_ bootHba_starts .init _ _ _).mpr
    (.inr ⟨⟨0, by decide, by decide⟩, by decide, by decide⟩)
  exact fun _ _ => rfl

/-- The command is issued, with its last entry behind the table. -/
theorem entry_behind_table : ∃ call,
    call = drvStdInputOutputAhci .llp64 readOneMore idleDevice 1 startedHba ∧
      call.issued ≠ none ∧ ¬ PrdRight bootHba.pool readOneMore startedHba call := by
  have hready : Ready bootHba.pool startedHba :=
    init_ready (by decide) (fun a (_ : a < kDmaPoolEnd) => (rfl : id a = a)) bootHba_starts
  have hskip : ¬ Skips .llp64 readOneMore idleDevice := by
    simp only [Skips, not_or]
    exact ⟨by decide, by decide, by decide, by decide⟩
  refine ⟨_, rfl, ?_, fun hright => ?_⟩
  · obtain ⟨slot, -, hcall⟩ := io_issues 1 startedHba hskip
    rw [hcall]
    exact Option.some_ne_none _
  · obtain ⟨-, -, hfits⟩ := ((hready.prd_right _ _ _ _).mp hright).resolve_left hskip
    exact absurd hfits (by decide)

end NeKernel.Ahci
