import NeKernel.HALKit.AhciTables

/-!
# An AHCI command as a transfer

The model in which the three drivers are compared has numbers for words, and a device that leaves its data
in the buffer. A call of the AHCI driver that is granted its buffer is such a transfer, as long as no sum
wraps: the frame, the entries of the table and the caller's memory are the same.
-/

namespace NeKernel.Ahci

open ByteStore Polls DmaKit WordCopy
open NeKit (rtCopyMemory)

variable {dm : DataModel} {rq : IoRequest} {dev : AhciDevice} {fuel : Nat} {h : Hba}
  {slot ptr n : UInt64} {es : List HbaPrdtEntry} {p : DmaPool} {header : HbaCmdHeader} {data m : Store}

/-- An entry, as numbers. -/
def HbaPrdtEntry.numbers (e : HbaPrdtEntry) : HALKit.HbaPrdtEntry := ⟨e.dba.toNat, e.dbau.toNat, e.dbc.toNat⟩

theorem markLast_numbers : (markLast es).map HbaPrdtEntry.numbers = es.map HbaPrdtEntry.numbers := by
  induction es using markLast.induct with
  | case1 => rfl
  | case2 e => rfl
  | case3 e es hne ih =>
      rw [markLast, List.map_cons, ih, List.map_cons]
      exact hne

/-- The entry of a chunk. -/
theorem entry_numbers {chunk : UInt64} (hpos : 0 < chunk) (hle : chunk ≤ kChunk) :
    (HbaPrdtEntry.mk ptr.toUInt32 (ptr >>> 32).toUInt32 ((chunk - 1).toUInt32 &&& 0x3FFFFF) false).numbers =
      ⟨ptr.toNat &&& 0xFFFFFFFF, ptr.toNat >>> 32, chunk.toNat - 1⟩ := by
  have hptr := UInt64.toNat_lt ptr
  have hcount := congrArg UInt64.toNat (count_chunk hpos hle)
  have hfield := ((chunk - 1).toUInt32 &&& 0x3FFFFF).toNat_lt
  rw [UInt64.toNat_add, UInt32.toNat_toUInt64] at hcount
  unfold HbaPrdtEntry.numbers
  congr 1
  · rw [UInt64.toNat_toUInt32]
    exact (BitMask.and_low _ 32).symm
  · rw [UInt64.toNat_toUInt32, UInt64.toNat_shiftRight]
    show ptr.toNat >>> 32 % 2 ^ 32 = _
    rw [Nat.shiftRight_eq_div_pow]
    omega
  · have hone : (1 : UInt64).toNat = 1 := rfl
    show ((chunk - 1).toUInt32 &&& 0x3FFFFF).toNat = _
    rw [hone] at hcount
    omega

/-- The loop builds the same table, where the buffer does not wrap. -/
theorem prdLoop_numbers (ptr n : UInt64) (hfit : ptr.toNat + n.toNat < 2 ^ 64) : ∀ fuel ≥ n.toNat,
    (prdLoop ptr n).1.map HbaPrdtEntry.numbers = HALKit.prdTable fuel ptr.toNat n.toNat := by
  induction ptr, n using prdLoop.induct with
  | case1 ptr n hpos chunk ih =>
      intro fuel hfuel
      have hpos' : 0 < n.toNat := UInt64.lt_iff_toNat_lt.mp hpos
      obtain ⟨fuel, rfl⟩ : ∃ k, fuel = k + 1 := ⟨fuel - 1, by omega⟩
      have hchunk : (chunkSize n).toNat = if n.toNat > HALKit.kibCast 32 then HALKit.kibCast 32 else n.toNat := by
        rw [chunkSize_toNat]
        show min n.toNat 32768 = if n.toNat > 32768 then 32768 else n.toNat
        split <;> omega
      have hchunkPos : 0 < (chunkSize n).toNat := UInt64.lt_iff_toNat_lt.mp (chunkSize_pos hpos)
      have hchunkLe : (chunkSize n).toNat ≤ n.toNat := UInt64.le_iff_toNat_le.mp chunkSize_le_self
      have hnext : (ptr + chunkSize n).toNat = ptr.toNat + (chunkSize n).toNat := by
        rw [UInt64.toNat_add, Nat.mod_eq_of_lt (by omega)]
      have hleft : (n - chunkSize n).toNat = n.toNat - (chunkSize n).toNat :=
        UInt64.toNat_sub_of_le _ _ chunkSize_le_self
      have hrest := ih (by rw [hnext, hleft]; omega) fuel (by rw [hleft]; omega)
      rw [hnext, hleft] at hrest
      rw [prdLoop, if_pos hpos, HALKit.prdTable, if_pos hpos', ← hchunk]
      simp only [List.map_cons]
      rw [entry_numbers (chunkSize_pos hpos) chunkSize_le, hrest]
  | case2 ptr n hzero =>
      intro fuel _
      have hzero' : n.toNat = 0 :=
        Nat.eq_zero_of_not_pos fun hpos => hzero (UInt64.lt_iff_toNat_lt.mpr hpos)
      rw [prdLoop, if_neg hzero, hzero']
      cases fuel <;> rfl

/-- The pool grants the same address, where the sums do not wrap. -/
theorem rtlDmaAlloc_numbers (hroom : p.kDmaPoolPtr.toNat + 4095 + n.toNat < 2 ^ 64) :
    (rtlDmaAlloc n kPage p).1.toNat =
      HALKit.rtlDmaAlloc p.kDmaPoolPtr.toNat n.toNat (HALKit.kibCast 4) := by
  have haddr : (alignedAddr p.kDmaPoolPtr kPage).toNat = (p.kDmaPoolPtr.toNat + 4095) / 4096 * 4096 := by
    rw [alignedAddr_toNat (n := 12) (by decide) (by decide), Nat.mod_eq_of_lt (by omega)]
    omega
  have hsum : (alignedAddr p.kDmaPoolPtr kPage + n).toNat =
      (p.kDmaPoolPtr.toNat + 4095) / 4096 * 4096 + n.toNat := by
    rw [UInt64.toNat_add, haddr, Nat.mod_eq_of_lt (by omega)]
  have hzero : n = 0 ↔ n.toNat = 0 := UInt64.toNat_inj.symm
  have hend : alignedAddr p.kDmaPoolPtr kPage + n > kDmaPoolEnd ↔
      (p.kDmaPoolPtr.toNat + 4095) / 4096 * 4096 + n.toNat > HALKit.kNeDMAPoolEnd := by
    rw [gt_iff_lt, UInt64.lt_iff_toNat_lt, hsum]
    rfl
  have halign : ¬ kPage % kNeDMABestAlign ≠ 0 := by decide
  unfold rtlDmaAlloc HALKit.rtlDmaAlloc
  rw [if_neg halign]
  simp only [hzero, hend]
  show _ = if n.toNat = 0 then 0 else
    if (p.kDmaPoolPtr.toNat + 4095) / 4096 * 4096 + n.toNat > HALKit.kNeDMAPoolEnd then 0
    else (p.kDmaPoolPtr.toNat + 4095) / 4096 * 4096
  split
  · rfl
  · split
    · rfl
    · exact haddr

/-- A copy between places that are apart. -/
theorem rtCopyMemory_apart {src dst len : Nat} (hsrc : src ≠ 0) (hdst : dst ≠ 0)
    (hapart : dst ≤ src ∨ src + len ≤ dst) :
    (rtCopyMemory m src dst len).2 = blit m dst len (slice m src) := by
  have hloop : (rtCopyMemory m src dst len).2 = copyUp 1 dst src len m := by
    rw [rtCopyMemory, if_neg (by omega)]
    exact forLoop_congr fun i _ m' => by rw [Nat.one_mul]
  rw [hloop, copyUp_eq (by omega), Nat.one_mul]

/-- The device does the command in `slot` without an error, and leaves `data` in the buffer of a read. -/
structure Fills (rq : IoRequest) (dev : AhciDevice) (h : Hba) (slot : UInt64) (data : Store) : Prop where
  done : (poll (fun k => dev.ciIssued k &&& (1 <<< slot.toUInt32) = 0) (kTimeout + 1) 0).isSome = true
  fine : dev.is &&& kSATAErrTaskFile = 0
  data : ∀ i < rq.sizeBuffer.toNat, dev.transfer (takeBuffer rq h).2.mem ((bufferPtr rq h).toNat + i) = data i

/-- The memory behind a command that has been done. -/
theorem complete_mem (hf : Fills rq dev h slot data) : (complete rq dev fuel slot ptr (issuing rq slot h)).1.mem =
    if rq.write then dev.transfer (takeBuffer rq h).2.mem
    else (rtCopyMemory (dev.transfer (takeBuffer rq h).2.mem) ptr.toNat rq.buffer.toNat
      rq.sizeBuffer.toNat).2 := by
  have hmem : (issuing rq slot h).mem = (takeBuffer rq h).2.mem := rfl
  obtain ⟨k, hdone⟩ := Option.isSome_iff_exists.mp hf.done
  unfold complete
  simp only [hdone, hf.fine, ne_eq, not_true_eq_false, if_false, hmem]
  unfold copyBack giveBuffer Hba.fail
  split <;> split <;> rfl

/-- What a transfer that is made consists of. -/
theorem transfer_of_ne {write identify : Bool} {kDmaPoolPtr lba buffer sectorSz size : Nat}
    (hsector : sectorSz ≠ 0) (hbuffer : buffer ≠ 0) (hsize : size ≠ 0) :
    ∃ t, HALKit.drvStdInputOutputAhci write identify kDmaPoolPtr lba buffer sectorSz size data m = some t ∧
      t.fis = HALKit.ahciFis write identify (lba / sectorSz) size ∧
      t.prdt = HALKit.prdTable size (HALKit.rtlDmaAlloc kDmaPoolPtr size (HALKit.kibCast 4)) size ∧
      t.mem = if write then m else
        HALKit.rtCopyMemory (HALKit.rtlDmaAlloc kDmaPoolPtr size (HALKit.kibCast 4)) data buffer size m := by
  rw [HALKit.drvStdInputOutputAhci, if_neg hsector, if_neg (not_or.mpr ⟨hbuffer, hsize⟩)]
  exact ⟨_, rfl, rfl, rfl, rfl⟩

/-- **A command is such a transfer**, where the pool grants the buffer and no sum wraps. -/
theorem io_transfer (hskip : ¬ Skips dm rq dev) (hg : Granted h.pool rq.sizeBuffer)
    (hroom : h.pool.kDmaPoolPtr.toNat + 4095 + rq.sizeBuffer.toNat < 2 ^ 64)
    (hapart : rq.buffer.toNat ≤ (bufferPtr rq h).toNat ∨
      (bufferPtr rq h).toNat + rq.sizeBuffer.toNat ≤ rq.buffer.toNat)
    (hfills : ∀ slot, waitSlot dm dev = some slot → Fills rq dev h slot data) :
    ∃ cmd t, (drvStdInputOutputAhci dm rq dev fuel h).issued = some cmd ∧
      HALKit.drvStdInputOutputAhci rq.write rq.identify h.pool.kDmaPoolPtr.toNat rq.lba.toNat rq.buffer.toNat
        rq.sectorSz.toNat rq.sizeBuffer.toNat data (dev.transfer (takeBuffer rq h).2.mem) = some t ∧
      cmd.table.fis = t.fis ∧ cmd.table.prdt.map HbaPrdtEntry.numbers = t.prdt ∧
      (drvStdInputOutputAhci dm rq dev fuel h).hba.mem = t.mem := by
  obtain ⟨slot, hslot, hcall⟩ := io_issues fuel h hskip
  have hf := hfills slot hslot
  simp only [Skips, not_or] at hskip
  obtain ⟨hsector, hbuffer, hsize, -⟩ := hskip
  have hzero : ∀ {x : UInt64}, x ≠ 0 → x.toNat ≠ 0 := fun hne h0 => hne (UInt64.toNat_inj.mp h0)
  have hptr : (bufferPtr rq h).toNat = HALKit.rtlDmaAlloc h.pool.kDmaPoolPtr.toNat rq.sizeBuffer.toNat
    (HALKit.kibCast 4) := rtlDmaAlloc_numbers hroom
  have hgranted : (bufferPtr rq h).toNat ≠ 0 := hzero (granted_iff.mp hg)
  have hin : (bufferPtr rq h).toNat + rq.sizeBuffer.toNat < 2 ^ 64 := by
    rw [hptr]
    unfold HALKit.rtlDmaAlloc HALKit.kibCast
    dsimp only
    split
    · omega
    · split <;> omega
  obtain ⟨t, ht, hfis, hprdt, hmem⟩ := transfer_of_ne (hzero hsector) (hzero hbuffer) (hzero hsize)
  refine ⟨_, t, by rw [hcall], ht, ?_, ?_, ?_⟩
  · rw [hfis, ← UInt64.toNat_div]
    rfl
  · show (markLast (prdLoop _ _).1).map _ = _
    rw [markLast_numbers, prdLoop_numbers _ _ hin _ (Nat.le_refl _), hptr, hprdt]
  · rw [hcall, hmem]
    show (complete rq dev fuel slot _ (issuing rq slot h)).1.mem = _
    rw [complete_mem hf]
    cases rq.write with
    | true => rfl
    | false =>
        have hcopy : HALKit.rtCopyMemory (bufferPtr rq h).toNat data rq.buffer.toNat rq.sizeBuffer.toNat
            (dev.transfer (takeBuffer rq h).2.mem) =
              blit (dev.transfer (takeBuffer rq h).2.mem) rq.buffer.toNat rq.sizeBuffer.toNat data :=
          if_neg (not_or.mpr ⟨hgranted, hzero hbuffer⟩)
        have hblit := rtCopyMemory_apart (m := dev.transfer (takeBuffer rq h).2.mem) hgranted (hzero hbuffer)
          hapart
        simp only [Bool.false_eq_true, if_false, ← hptr, hcopy]
        refine hblit.trans (blit_congr fun i hi => ?_)
        rw [slice_apply]
        exact hf.data i hi

end NeKernel.Ahci
