import NeKernel.HALKit.ACPIFactoryInterface

/-!
# The processors of a machine

`mp_init_cores` walks the records of the MADT, from one to the next by the length that each record has in
its second byte, and notes the enabled local APICs in two arrays. It does not ask whether the length is
zero, whether a record lies inside the table, or whether the arrays are full.

    | header | Address | Flags | record | record | ... |
    0        36        40      44                        Length

The walk is settled by the records there are on its way (`walk_iff_records`). `Find` never comes back with
a table (`find_error`), so in this kernel the walk is not reached at all (`mpInitCores_no_table`).
-/

namespace NeKernel.HALKit.ACPI

open ByteStore

/-! ## The walk -/

def kMaxAPInsideSched : Nat := 8
def kCPSProcessLimitPerTeam : Nat := 32

/-- `offsetof(HAL_APIC_MADT, List)`. -/
def madtList : Nat := 44

/-- `sizeof(struct LAPIC)`. -/
def sizeofLAPIC : Nat := 8

def lapicProcessorID : Field := ⟨2, 1⟩
def lapicFlags : Field := ⟨4, 4⟩

/-- What the kernel knows of its processors. -/
structure Smp where
  kSMPAware : Bool
  kSMPInterrupt : Nat
  kSMPCount : Nat
  kAPICLocales : Nat → Nat
  kHWThread : Nat → Nat

/-- The state of the walk. `entry_ptr` is an offset in the table; the offsets that are read are noted, and
the indices of the two arrays that are written. -/
structure Walk where
  entryPtr : Nat
  smp : Smp
  reads : List Nat
  stores : List Nat

variable {m : Store} {stop p fuel : Nat} {w s : Walk} {recs : List Nat}

/-- The record at `p` is taken for a local APIC. -/
def IsLapic (m : Store) (p : Nat) : Prop := m p = 0 ∧ (m (p + 1)).toNat = sizeofLAPIC

instance (m : Store) (p : Nat) : Decidable (IsLapic m p) := inferInstanceAs (Decidable (_ ∧ _))

/-- Its processor is enabled. -/
def FlagSet (m : Store) (p : Nat) : Prop := lapicFlags.get (slice m p) % 2 = 1

instance (m : Store) (p : Nat) : Decidable (FlagSet m p) := inferInstanceAs (Decidable (_ = _))

/-- The processor of a record is put into the arrays. -/
def Smp.add (smp : Smp) (processorID : Nat) : Smp :=
  { smp with
    kAPICLocales := Function.update smp.kAPICLocales smp.kSMPCount processorID
    kHWThread := Function.update smp.kHWThread smp.kSMPCount processorID
    kSMPCount := smp.kSMPCount + 1 }

/-- The body of the loop. -/
def Walk.visit (m : Store) (w : Walk) : Walk :=
  let p := w.entryPtr
  let w := { w with entryPtr := p + (m (p + 1)).toNat, reads := w.reads ++ [p, p + 1] }
  if IsLapic m p then
    let w := { w with reads := w.reads ++ [p + 4, p + 5, p + 6, p + 7] }
    if FlagSet m p then
      { w with
        smp := w.smp.add (lapicProcessorID.get (slice m p))
        reads := w.reads ++ [p + 2]
        stores := w.stores ++ [w.smp.kSMPCount] }
    else w
  else w

/-- The loop of `mp_init_cores`, for at most `fuel` turns. -/
def walk (m : Store) (stop : Nat) : Nat → Walk → Option Walk
  | 0, _ => none
  | fuel + 1, w => if w.entryPtr < stop then walk m stop fuel (w.visit m) else some w

/-- The walk starts with no processor. -/
def walkStart (smp : Smp) : Walk :=
  ⟨madtList, { smp with kSMPAware := false, kSMPInterrupt := 0, kSMPCount := 0 }, [], []⟩

/-- `kSMPBlock->Length`. -/
def madtLength (m : Store) : Nat := sdtLength.get m

/-- The local APIC of the processor that starts: the value of `APIC_BASE_MSR`, where its registers are, and
what is written to them. -/
structure LocalApic where
  baseMsr : Nat
  kApicBaseAddress : Nat
  writes : List (Nat × Nat)

/-- The registers that `mp_init_cores` sets before the walk, each with its value. -/
def lapicSetup : List (Nat × Nat) :=
  [(0x80, 0), (0xF0, 0x1FF), (0x3E0, 0b0011), (0x320, 0x20 ||| 1 <<< 17), (0x380, 1000000)]

def LocalApic.enable (apic : LocalApic) : LocalApic :=
  let apicBase := apic.baseMsr ||| 0x800
  ⟨apicBase, apicBase &&& 0xFFFFF000, apic.writes ++ lapicSetup⟩

/-- `mp_init_cores`, for at most `fuel` turns of the walk. -/
def mpInitCores (fuel : Nat) (mem : Store) (vendorPtr : Nat) (smp : Smp) (apic : LocalApic) :
    Option (Smp × LocalApic) :=
  if vendorPtr = 0 then some (smp, apic)
  else
    match (find mem vendorPtr (some apicMag)).1 with
    | .error _ => some ({ smp with kSMPAware := false }, apic)
    | .ok madt =>
        if madt = 0 then some ({ smp with kSMPAware := false }, apic)
        else
          (walk (slice mem madt) (madtLength (slice mem madt)) fuel (walkStart smp)).map fun w =>
            (w.smp, apic.enable)

/-- With `Find` as it is no table is ever walked. -/
theorem mpInitCores_no_table (fuel : Nat) (mem : Store) (vendorPtr : Nat) (smp : Smp) (apic : LocalApic) :
    mpInitCores fuel mem vendorPtr smp apic =
      some (if vendorPtr = 0 then smp else { smp with kSMPAware := false }, apic) := by
  rw [mpInitCores, find_error]
  split
  · rfl
  · rfl

/-! ## The records on the way -/

/-- The records from offset `p` on, each where the length of the one before it says, up to `stop`. -/
inductive Records (m : Store) (stop : Nat) : Nat → List Nat → Prop
  | done {p : Nat} : stop ≤ p → Records m stop p []
  | next {p : Nat} {recs : List Nat} : p < stop → (m (p + 1)).toNat ≠ 0 →
      Records m stop (p + (m (p + 1)).toNat) recs → Records m stop p (p :: recs)

/-- An enabled local APIC. -/
def Enabled (m : Store) (p : Nat) : Prop := IsLapic m p ∧ FlagSet m p

instance (m : Store) (p : Nat) : Decidable (Enabled m p) := inferInstanceAs (Decidable (_ ∧ _))

/-- What the visit of a record reads. -/
def readsOf (m : Store) (p : Nat) : List Nat :=
  [p, p + 1] ++ (if IsLapic m p then [p + 4, p + 5, p + 6, p + 7] else []) ++
    if Enabled m p then [p + 2] else []

/-- **What a visit does.** -/
theorem visit_spec (m : Store) (w : Walk) :
    (w.visit m).entryPtr = w.entryPtr + (m (w.entryPtr + 1)).toNat ∧
    (w.visit m).reads = w.reads ++ readsOf m w.entryPtr ∧
    (w.visit m).stores = w.stores ++ (if Enabled m w.entryPtr then [w.smp.kSMPCount] else []) ∧
    (w.visit m).smp.kSMPCount = w.smp.kSMPCount + if Enabled m w.entryPtr then 1 else 0 := by
  unfold Walk.visit readsOf Enabled
  by_cases hlapic : IsLapic m w.entryPtr
  · by_cases hflag : FlagSet m w.entryPtr
    · simp [hlapic, hflag, Smp.add]
    · simp [hlapic, hflag]
  · simp [hlapic]

/-- The walk along records comes to its end. -/
theorem walk_of_records (h : Records m stop p recs) (hw : w.entryPtr = p) :
    ∃ s, walk m stop (recs.length + 1) w = some s ∧
      s.reads = w.reads ++ recs.flatMap (readsOf m) ∧
      s.stores = w.stores ++ List.range' w.smp.kSMPCount (recs.countP (Enabled m)) ∧
      s.smp.kSMPCount = w.smp.kSMPCount + recs.countP (Enabled m) := by
  induction h generalizing w with
  | done hstop =>
      refine ⟨w, ?_, by simp, by simp, by simp⟩
      rw [walk, if_neg (by omega)]
  | @next p recs hp _ _ ih =>
      obtain ⟨hptr, hreads, hstores, hcount⟩ := visit_spec m w
      rw [hw] at hptr hreads hstores hcount
      obtain ⟨s, hs, hsreads, hsstores, hscount⟩ := ih hptr
      refine ⟨s, ?_, ?_, ?_, ?_⟩
      · rw [walk, if_pos (by omega)]
        exact hs
      · rw [hsreads, hreads, List.flatMap_cons, List.append_assoc]
      · rw [hsstores, hstores, hcount, List.countP_cons]
        by_cases hen : Enabled m p
        · simp [hen, List.range'_succ, List.append_assoc]
        · simp [hen]
      · rw [hscount, hcount, List.countP_cons]
        by_cases hen : Enabled m p
        · simp [hen]
          omega
        · simp [hen]

/-- A record without a length keeps the walk where it is. -/
theorem walk_stuck (hlt : w.entryPtr < stop) (hzero : (m (w.entryPtr + 1)).toNat = 0) :
    walk m stop fuel w = none := by
  induction fuel generalizing w with
  | zero => rfl
  | succ fuel ih =>
      have hptr : (w.visit m).entryPtr = w.entryPtr := by
        rw [(visit_spec m w).1, hzero, Nat.add_zero]
      rw [walk, if_pos hlt]
      exact ih (by rw [hptr]; exact hlt) (by rw [hptr]; exact hzero)

/-- A walk that comes to its end has gone along records. -/
theorem records_of_walk (h : walk m stop fuel w = some s) : ∃ recs, Records m stop w.entryPtr recs := by
  induction fuel generalizing w with
  | zero => cases h
  | succ fuel ih =>
      by_cases hlt : w.entryPtr < stop
      · by_cases hzero : (m (w.entryPtr + 1)).toNat = 0
        · rw [walk_stuck hlt hzero] at h
          cases h
        · rw [walk, if_pos hlt] at h
          obtain ⟨recs, hrecs⟩ := ih h
          rw [(visit_spec m w).1] at hrecs
          exact ⟨_, .next hlt hzero hrecs⟩
      · exact ⟨[], .done (Nat.le_of_not_lt hlt)⟩

/-- The end of a walk does not depend on the bound of its turns. -/
theorem walk_unique {fuel' : Nat} {s' : Walk} (h : walk m stop fuel w = some s)
    (h' : walk m stop fuel' w = some s') : s = s' := by
  induction fuel generalizing w fuel' with
  | zero => cases h
  | succ fuel ih =>
      cases fuel' with
      | zero => cases h'
      | succ fuel' =>
          rw [walk] at h h'
          by_cases hlt : w.entryPtr < stop
          · rw [if_pos hlt] at h h'
            exact ih h h'
          · rw [if_neg hlt] at h h'
            exact Option.some.inj (h.symm.trans h')

/-- There is one row of records. -/
theorem Records.unique {recs' : List Nat} (h : Records m stop p recs) (h' : Records m stop p recs') :
    recs = recs' := by
  induction h generalizing recs' with
  | done hstop =>
      cases h' with
      | done _ => rfl
      | next hlt _ _ => omega
  | next hlt _ _ ih =>
      cases h' with
      | done hstop => omega
      | next _ _ hrest => rw [ih hrest]

/-! ## When the walk is right -/

/-- A well-formed table: each record has a type and a length and lies inside the table, and those of type 0
have the length of a local APIC. -/
structure WellFormed (m : Store) (recs : List Nat) : Prop where
  records : Records m (madtLength m) madtList recs
  inside : ∀ p ∈ recs, 2 ≤ (m (p + 1)).toNat ∧ p + (m (p + 1)).toNat ≤ madtLength m
  lapic : ∀ p ∈ recs, m p = 0 → (m (p + 1)).toNat = sizeofLAPIC

/-- The walk ends, reads inside the table, writes inside the arrays, and on a well-formed table counts the
enabled local APICs, up to what the arrays hold. -/
def WalkRight (m : Store) (smp : Smp) : Prop :=
  ∃ fuel s, walk m (madtLength m) fuel (walkStart smp) = some s ∧
    (∀ a ∈ s.reads, a < madtLength m) ∧
    (∀ i ∈ s.stores, i < kMaxAPInsideSched ∧ i < kCPSProcessLimitPerTeam) ∧
    ∀ recs, WellFormed m recs → s.smp.kSMPCount =
      min (recs.countP fun p => m p = 0 ∧ FlagSet m p) (min kMaxAPInsideSched kCPSProcessLimitPerTeam)

/-- What is read of the records lies inside the table. -/
theorem walk_reads_iff : (∀ a ∈ recs.flatMap (readsOf m), a < stop) ↔
    ∀ p ∈ recs, p + 1 < stop ∧ (IsLapic m p → p + sizeofLAPIC ≤ stop) := by
  rw [List.forall_mem_flatMap]
  refine forall₂_congr fun p _ => ?_
  unfold readsOf Enabled sizeofLAPIC
  by_cases hlapic : IsLapic m p
  · by_cases hflag : FlagSet m p
    · simp [hlapic, hflag]
      omega
    · simp [hlapic, hflag]
      omega
  · simp [hlapic]
    omega

/-- **The walk over a MADT is right** exactly when its records come to the end of the table, their first two
bytes lie inside it and so do local APICs as a whole, and at most eight of these are enabled. -/
theorem walk_right_iff (m : Store) (smp : Smp) :
    WalkRight m smp ↔ ∃ recs, Records m (madtLength m) madtList recs ∧
      (∀ p ∈ recs, p + 1 < madtLength m ∧ (IsLapic m p → p + sizeofLAPIC ≤ madtLength m)) ∧
      recs.countP (Enabled m) ≤ kMaxAPInsideSched := by
  constructor
  · rintro ⟨fuel, s, hwalk, hreads, hstores, -⟩
    obtain ⟨recs, hrecs⟩ := records_of_walk hwalk
    obtain ⟨s', hs', hsreads, hsstores, -⟩ := walk_of_records hrecs rfl
    obtain rfl := walk_unique hwalk hs'
    refine ⟨recs, hrecs, ?_, ?_⟩
    · rw [← walk_reads_iff]
      rw [hsreads] at hreads
      exact hreads
    · by_contra hmany
      have hlast : kMaxAPInsideSched ∈ s.stores := by
        rw [hsstores]
        refine List.mem_append_right _ (List.mem_range'_1.mpr ⟨Nat.zero_le _, ?_⟩)
        show kMaxAPInsideSched < 0 + _
        omega
      exact Nat.lt_irrefl _ (hstores _ hlast).1
  · rintro ⟨recs, hrecs, hinside, hfew⟩
    obtain ⟨s, hs, hsreads, hsstores, hscount⟩ := walk_of_records hrecs (w := walkStart smp) rfl
    refine ⟨_, s, hs, ?_, ?_, ?_⟩
    · rw [hsreads]
      exact walk_reads_iff.mpr hinside
    · rw [hsstores]
      intro i hi
      have hi : i < recs.countP (Enabled m) := by
        have := (List.mem_range'_1.mp hi).2
        rwa [show (walkStart smp).smp.kSMPCount = 0 from rfl, Nat.zero_add] at this
      exact ⟨Nat.lt_of_lt_of_le hi hfew, Nat.lt_of_lt_of_le hi (Nat.le_trans hfew (by decide))⟩
    · intro recs' hwell
      obtain rfl := hrecs.unique hwell.records
      have hsame : recs.countP (fun p => m p = 0 ∧ FlagSet m p) = recs.countP (Enabled m) := by
        refine List.countP_congr fun p hp => ?_
        rw [decide_eq_true_iff, decide_eq_true_iff, Enabled, IsLapic]
        exact ⟨fun h => ⟨⟨h.1, hwell.lapic p hp h.1⟩, h.2⟩, fun h => ⟨h.1.1, h.2⟩⟩
      rw [hscount, hsame, Nat.min_eq_left (Nat.le_trans hfew (by decide))]
      exact Nat.zero_add _

/-- A MADT of 46 bytes whose only record has the length 0. -/
def zeroLengthMadt : Store := putLE zeros 4 4 46

/-- The arrays of a kernel that has just started. -/
def coldSmp : Smp := ⟨false, 0, 0, fun _ => 0, fun _ => 0⟩

/-- The walk does not come to its end. -/
theorem walk_never_ends : ¬ WalkRight zeroLengthMadt coldSmp := by
  rintro ⟨fuel, s, hwalk, -⟩
  have hlength : madtLength zeroLengthMadt = 46 := by decide +kernel
  have hzero : (zeroLengthMadt (madtList + 1)).toNat = 0 := by decide +kernel
  rw [hlength, walk_stuck (w := walkStart coldSmp) (show madtList < 46 by decide) hzero] at hwalk
  cases hwalk

end NeKernel.HALKit.ACPI
