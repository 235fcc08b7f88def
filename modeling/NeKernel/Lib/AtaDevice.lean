import Mathlib.Logic.Basic
import NeKernel.Lib.WordCopy

/-!
# A drive behind a data port

A drive that is told a run of sectors and then hands out, or takes, their bytes two at a time through a data
port. A status byte says whether it is busy, whether it waits for the next word and whether it has failed.
How long it is busy is up to the drive, and so is what becomes of a command that comes in the middle of a
transfer: some drives begin anew, some take no notice.

What a drive hands out from here on is one store, its `stream`, which a word read moves on by two bytes
(`readData_stream`). What it takes is not on the disk before the sector is full (`feed_disk`).
-/

namespace AtaDevice

open ByteStore WordCopy

/-! ## Drives -/

/-- What a drive is about. Places are in bytes: the next word is at `pos` and the transfer ends before `stop`.
A drive that takes words keeps them in `image`, which is the disk as it will be. -/
inductive Phase where
  | idle
  | failed
  | dataIn (pos stop : Nat)
  | dataOut (pos stop : Nat) (image : Store)

structure Drive where
  disk : Store
  /-- In sectors of 512 bytes. -/
  capacity : Nat
  phase : Phase
  /-- For how many more looks at the status it is busy. -/
  busy : Nat
  /-- How long it is busy after each event. -/
  delay : Nat → Nat
  events : Nat
  /-- A byte of the data port when there is nothing to hand out. -/
  stray : UInt8
  /-- Whether a command in the middle of a transfer is dropped. -/
  drops : Bool

/-- The drive waits for the host to move a word. -/
def Drive.waits (d : Drive) : Bool :=
  match d.phase with
  | .dataIn _ _ | .dataOut _ _ _ => true
  | .idle | .failed => false

def Drive.hasFailed (d : Drive) : Bool :=
  match d.phase with
  | .failed => true
  | _ => false

/-- One look at the status: busy (`0x80`), or else ready (`0x40`), with a word to move (`0x08`) or an error
(`0x01`). -/
def Drive.status (d : Drive) : Nat × Drive :=
  if 0 < d.busy then (0x80, { d with busy := d.busy - 1 })
  else (0x40 + (if d.waits then 0x08 else 0) + (if d.hasFailed then 0x01 else 0), d)

/-- The drive once it is not busy any more. -/
def Drive.settled (d : Drive) : Drive := { d with busy := 0 }

/-- At the edge of a sector: the transfer is over, or goes on in `phase` if the sector exists. -/
def Drive.enter (d : Drive) (phase : Phase) (pos stop : Nat) : Drive :=
  if stop ≤ pos then { d with phase := .idle }
  else
    { d with
      phase := if pos / 512 < d.capacity then phase else .failed
      busy := d.delay d.events
      events := d.events + 1 }

/-- A command to read or write `sectors` sectors from `first` on. -/
def Drive.command (d : Drive) (write : Bool) (first sectors : Nat) : Drive :=
  if 0 < d.busy ∨ d.drops = true ∧ d.waits = true then d
  else
    let pos := 512 * first
    let stop := pos + 512 * sectors
    d.enter (if write then .dataOut pos stop d.disk else .dataIn pos stop) pos stop

/-- A word is read from the data port. -/
def Drive.readData (d : Drive) : Nat × Drive :=
  match d.phase with
  | .dataIn pos stop =>
      (getLE d.disk pos 2,
        if (pos + 2) % 512 = 0 then d.enter (.dataIn (pos + 2) stop) (pos + 2) stop
        else { d with phase := .dataIn (pos + 2) stop })
  | _ => (getLE (fun _ => d.stray) 0 2, d)

/-- The sector in front of `pos` goes to the disk. -/
def Drive.store (d : Drive) (pos : Nat) (image : Store) : Drive :=
  { d with disk := blit d.disk (pos - 512) 512 (slice image (pos - 512)) }

/-- A word is written to the data port. -/
def Drive.writeData (d : Drive) (w : Nat) : Drive :=
  match d.phase with
  | .dataOut pos stop image =>
      let image := putLE image pos 2 w
      if (pos + 2) % 512 = 0 then
        (d.store (pos + 2) image).enter (.dataOut (pos + 2) stop image) (pos + 2) stop
      else { d with phase := .dataOut (pos + 2) stop image }
  | _ => d

/-- A word is read as soon as the drive is not busy, `k` times. -/
def Drive.skip (d : Drive) : Nat → Drive
  | 0 => d.settled
  | k + 1 => d.settled.readData.2.skip k

/-- Words are written, each as soon as the drive is not busy. -/
def Drive.feed (d : Drive) : List Nat → Drive
  | [] => d.settled
  | w :: ws => (d.settled.writeData w).feed ws

variable {d : Drive} {phase : Phase} {pos stop first sectors k w : Nat} {image b : Store} {ws : List Nat}

/-! ## Places -/

/-- The place where a transfer ends: with its last sector, or with the drive. -/
def last (capacity stop : Nat) : Nat := min stop (512 * capacity)

/-- A transfer is between words, in front of its end. -/
structure Within (capacity pos stop : Nat) : Prop where
  word : pos % 2 = 0
  sector : stop % 512 = 0
  lt : pos < last capacity stop

/-- The transfer of a drive, if it is about one, is under way. -/
def Drive.Sound (d : Drive) : Prop :=
  match d.phase with
  | .dataIn pos stop | .dataOut pos stop _ => Within d.capacity pos stop
  | .idle | .failed => True

/-- How many bytes of the transfer are left. -/
def Drive.left (d : Drive) : Nat :=
  match d.phase with
  | .dataIn pos stop | .dataOut pos stop _ => last d.capacity stop - pos
  | .idle | .failed => 0

theorem Drive.Sound.of_dataIn (h : d.Sound) (hphase : d.phase = .dataIn pos stop) :
    Within d.capacity pos stop := by
  rw [Drive.Sound, hphase] at h
  exact h

theorem Drive.Sound.of_dataOut (h : d.Sound) (hphase : d.phase = .dataOut pos stop image) :
    Within d.capacity pos stop := by
  rw [Drive.Sound, hphase] at h
  exact h

/-- A drive waits exactly for what is left. -/
theorem Drive.Sound.waits_iff (h : d.Sound) : d.waits = true ↔ 0 < d.left := by
  cases hphase : d.phase with
  | idle => simp [Drive.waits, Drive.left, hphase]
  | failed => simp [Drive.waits, Drive.left, hphase]
  | dataIn pos stop =>
      have hlt : pos < last d.capacity stop := by
        rw [Drive.Sound, hphase] at h
        exact h.lt
      simp [Drive.waits, Drive.left, hphase, hlt]
  | dataOut pos stop image =>
      have hlt : pos < last d.capacity stop := by
        rw [Drive.Sound, hphase] at h
        exact h.lt
      simp [Drive.waits, Drive.left, hphase, hlt]

@[simp] theorem settled_disk : d.settled.disk = d.disk := rfl
@[simp] theorem settled_capacity : d.settled.capacity = d.capacity := rfl
@[simp] theorem settled_phase : d.settled.phase = d.phase := rfl
@[simp] theorem settled_settled : d.settled.settled = d.settled := rfl
@[simp] theorem settled_left : d.settled.left = d.left := rfl
@[simp] theorem settled_waits : d.settled.waits = d.waits := rfl

theorem Drive.Sound.settled (h : d.Sound) : d.settled.Sound := h

theorem settled_of_busy (h : d.busy = 0) : d.settled = d := by
  cases d
  cases h
  rfl

/-! ## The edge of a sector -/

variable {disk : Store}

theorem enter_disk : (d.enter phase pos stop).disk = d.disk := by
  rw [Drive.enter]
  split <;> rfl

/-- The data of a drive that no step changes. -/
def Drive.Alike (d d' : Drive) : Prop :=
  d'.capacity = d.capacity ∧ d'.delay = d.delay ∧ d'.stray = d.stray ∧ d'.drops = d.drops

theorem Drive.Alike.trans {d d' d'' : Drive} (h : d.Alike d') (h' : d'.Alike d'') : d.Alike d'' :=
  ⟨h'.1.trans h.1, h'.2.1.trans h.2.1, h'.2.2.1.trans h.2.2.1, h'.2.2.2.trans h.2.2.2⟩

theorem enter_alike : d.Alike (d.enter phase pos stop) := by
  rw [Drive.enter]
  split <;> exact ⟨rfl, rfl, rfl, rfl⟩

/-- A drive at the edge of a sector is done, has failed, or is about the next sector. -/
theorem enter_cases (phase : Phase) (hpos : pos % 512 = 0) (hstop : stop % 512 = 0) :
    Within d.capacity pos stop ∧ (d.enter phase pos stop).phase = phase ∨
      last d.capacity stop ≤ pos ∧
        ((d.enter phase pos stop).phase = .idle ∨ (d.enter phase pos stop).phase = .failed) := by
  rw [Drive.enter]
  split
  · next hle => exact .inr ⟨(Nat.min_le_left _ _).trans hle, .inl rfl⟩
  · next hlt =>
      by_cases hcap : pos / 512 < d.capacity
      · refine .inl ⟨⟨by omega, hstop, ?_⟩, if_pos hcap⟩
        rw [last, lt_min_iff]
        omega
      · refine .inr ⟨?_, .inr (if_neg hcap)⟩
        rw [last, min_le_iff]
        omega

/-- A busy time is one of the drive's own. -/
theorem enter_busy {bound : Nat} (hdelay : ∀ i, d.delay i < bound) (hbusy : d.busy < bound) :
    (d.enter phase pos stop).busy < bound := by
  rw [Drive.enter]
  split
  · exact hbusy
  · exact hdelay _

/-! ## Commands -/

/-- A drive takes a command unless it is in the middle of a transfer and drops what comes then. -/
def Drive.Listens (d : Drive) : Prop := d.drops = true → d.waits = false

theorem command_of_listens (hbusy : d.busy = 0) (h : d.Listens) {write : Bool} :
    d.command write first sectors =
      d.enter (if write then .dataOut (512 * first) (512 * first + 512 * sectors) d.disk
        else .dataIn (512 * first) (512 * first + 512 * sectors)) (512 * first) (512 * first + 512 * sectors) := by
  rw [Drive.command, if_neg]
  rintro (hpos | ⟨hdrops, hwaits⟩)
  · omega
  · rw [h hdrops] at hwaits
    cases hwaits

/-- A command for a sector the drive has. -/
theorem command_phase (hbusy : d.busy = 0) (h : d.Listens) (hsectors : 0 < sectors)
    (hfirst : first < d.capacity)
    {write : Bool} : Within d.capacity (512 * first) (512 * first + 512 * sectors) ∧
      (d.command write first sectors).phase =
        if write then .dataOut (512 * first) (512 * first + 512 * sectors) d.disk
        else .dataIn (512 * first) (512 * first + 512 * sectors) := by
  rw [command_of_listens hbusy h]
  refine (enter_cases _ (by omega) (by omega)).resolve_right fun hend => ?_
  have hle := hend.1
  rw [last, min_le_iff] at hle
  omega

/-- A command for one it does not have. -/
theorem command_beyond (hbusy : d.busy = 0) (h : d.Listens) (hsectors : 0 < sectors)
    (hfirst : d.capacity ≤ first) {write : Bool} : (d.command write first sectors).phase = .failed := by
  rw [command_of_listens hbusy h, Drive.enter, if_neg (by omega)]
  exact if_neg (by omega)

/-- A drive in the middle of a transfer that drops commands takes no notice. -/
theorem command_dropped (hdrops : d.drops = true) (hwaits : d.waits = true) {write : Bool} :
    d.command write first sectors = d := if_pos (.inr ⟨hdrops, hwaits⟩)

theorem command_disk {write : Bool} : (d.command write first sectors).disk = d.disk := by
  rw [Drive.command]
  split
  · rfl
  · exact enter_disk

theorem command_alike {write : Bool} : d.Alike (d.command write first sectors) := by
  rw [Drive.command]
  split
  · exact ⟨rfl, rfl, rfl, rfl⟩
  · exact enter_alike

theorem command_sound (h : d.Sound) {write : Bool} : (d.command write first sectors).Sound := by
  rw [Drive.command]
  split
  · exact h
  · have hedge : 512 * first % 512 = 0 := by omega
    have hend : (512 * first + 512 * sectors) % 512 = 0 := by omega
    dsimp only
    rcases enter_cases (d := d) (if write then .dataOut (512 * first) (512 * first + 512 * sectors) d.disk
      else .dataIn (512 * first) (512 * first + 512 * sectors)) hedge hend with
      ⟨hin, hphase⟩ | ⟨-, hphase | hphase⟩
    · rw [Drive.Sound, hphase, enter_alike.1]
      cases write <;> exact hin
    · rw [Drive.Sound, hphase]
      trivial
    · rw [Drive.Sound, hphase]
      trivial

theorem command_busy {bound : Nat} (hdelay : ∀ i, d.delay i < bound) (hbusy : d.busy < bound) {write : Bool} :
    (d.command write first sectors).busy < bound := by
  rw [Drive.command]
  split
  · exact hbusy
  · exact enter_busy hdelay hbusy

/-! ## Reading -/

/-- All the bytes a drive will hand out. -/
def Drive.stream (d : Drive) : Store :=
  match d.phase with
  | .dataIn pos stop => fun j => if pos + j < last d.capacity stop then d.disk (pos + j) else d.stray
  | _ => fun _ => d.stray

/-- A drive hands out words, or it does not. -/
theorem dataIn_or (d : Drive) :
    (∃ pos stop, d.phase = .dataIn pos stop) ∨ ∀ pos stop, d.phase ≠ .dataIn pos stop := by
  by_cases h : ∃ pos stop, d.phase = .dataIn pos stop
  · exact .inl h
  · exact .inr fun pos stop hphase => h ⟨pos, stop, hphase⟩

theorem stream_of_dataIn (h : d.phase = .dataIn pos stop) :
    d.stream = fun j => if pos + j < last d.capacity stop then d.disk (pos + j) else d.stray := by
  rw [Drive.stream, h]

theorem stream_of_not_in (h : ∀ pos stop, d.phase ≠ .dataIn pos stop) : d.stream = fun _ => d.stray := by
  rw [Drive.stream]
  split
  · next pos stop hphase => exact absurd hphase (h pos stop)
  · rfl

theorem settled_stream : d.settled.stream = d.stream := rfl

theorem readData_of_dataIn (h : d.phase = .dataIn pos stop) : d.readData = (getLE d.disk pos 2,
    if (pos + 2) % 512 = 0 then d.enter (.dataIn (pos + 2) stop) (pos + 2) stop
    else { d with phase := .dataIn (pos + 2) stop }) := by
  rw [Drive.readData, h]

theorem readData_of_not_in (h : ∀ pos stop, d.phase ≠ .dataIn pos stop) :
    d.readData = (getLE (fun _ => d.stray) 0 2, d) := by
  rw [Drive.readData]
  split
  · next pos stop hphase => exact absurd hphase (h pos stop)
  · rfl

/-- Reading a word moves the transfer on by one word, or ends it. -/
theorem readData_cases (h : d.phase = .dataIn pos stop) (hin : Within d.capacity pos stop) :
    Within d.capacity (pos + 2) stop ∧ d.readData.2.phase = .dataIn (pos + 2) stop ∨
      last d.capacity stop ≤ pos + 2 ∧ (d.readData.2.phase = .idle ∨ d.readData.2.phase = .failed) := by
  obtain ⟨hword, hsector, hlt⟩ := hin
  rw [readData_of_dataIn h]
  split
  · next hedge => exact enter_cases _ hedge hsector
  · next hedge =>
      refine .inl ⟨⟨by omega, hsector, ?_⟩, rfl⟩
      rw [last, lt_min_iff] at hlt ⊢
      omega

theorem readData_disk : d.readData.2.disk = d.disk := by
  rcases dataIn_or d with ⟨pos, stop, hphase⟩ | hnot
  · rw [readData_of_dataIn hphase]
    split
    · exact enter_disk
    · rfl
  · rw [readData_of_not_in hnot]

theorem readData_alike : d.Alike d.readData.2 := by
  rcases dataIn_or d with ⟨pos, stop, hphase⟩ | hnot
  · rw [readData_of_dataIn hphase]
    split
    · exact enter_alike
    · exact ⟨rfl, rfl, rfl, rfl⟩
  · rw [readData_of_not_in hnot]
    exact ⟨rfl, rfl, rfl, rfl⟩

theorem readData_busy {bound : Nat} (hdelay : ∀ i, d.delay i < bound) (hbusy : d.busy < bound) :
    d.readData.2.busy < bound := by
  rcases dataIn_or d with ⟨pos, stop, hphase⟩ | hnot
  · rw [readData_of_dataIn hphase]
    split
    · exact enter_busy hdelay hbusy
    · exact hbusy
  · rw [readData_of_not_in hnot]
    exact hbusy

theorem readData_sound (h : d.Sound) : d.readData.2.Sound := by
  rcases dataIn_or d with ⟨pos, stop, hphase⟩ | hnot
  · rcases readData_cases hphase (h.of_dataIn hphase) with ⟨hin, hnext⟩ | ⟨-, hnext | hnext⟩
    · rw [Drive.Sound, hnext]
      rwa [readData_alike.1]
    · rw [Drive.Sound, hnext]
      trivial
    · rw [Drive.Sound, hnext]
      trivial
  · rwa [readData_of_not_in hnot]

/-- **A word is the next two bytes of the stream**, and the rest of the stream comes after it. -/
theorem readData_stream (h : d.Sound) :
    d.readData.1 = getLE d.stream 0 2 ∧ d.readData.2.stream = slice d.stream 2 := by
  rcases dataIn_or d with ⟨pos, stop, hphase⟩ | hnot
  · have hin := h.of_dataIn hphase
    rw [stream_of_dataIn hphase]
    constructor
    · rw [readData_of_dataIn hphase]
      apply getLE_congr
      intro i hi
      have hlt := hin.lt
      have hword := hin.word
      have hsector := hin.sector
      rw [Nat.zero_add, if_pos]
      rw [last, lt_min_iff] at hlt ⊢
      omega
    · have hdone : last d.capacity stop ≤ pos + 2 →
          slice (fun j => if pos + j < last d.capacity stop then d.disk (pos + j) else d.stray) 2 =
            fun _ => d.stray :=
        fun hle => funext fun j => if_neg (by omega)
      rcases readData_cases hphase hin with ⟨-, hnext⟩ | ⟨hle, hnext | hnext⟩
      · rw [stream_of_dataIn hnext, readData_alike.1, readData_disk, readData_alike.2.2.1]
        funext j
        rw [slice_apply, Nat.add_assoc]
      · rw [hdone hle, Drive.stream, hnext, readData_alike.2.2.1]
      · rw [hdone hle, Drive.stream, hnext, readData_alike.2.2.1]
  · have hstream := stream_of_not_in hnot
    rw [readData_of_not_in hnot]
    refine ⟨by rw [hstream], ?_⟩
    rw [hstream]
    rfl

/-- A drive that hands out words, or does nothing. -/
def Drive.Gives (d : Drive) : Prop := ∀ pos stop image, d.phase ≠ .dataOut pos stop image

theorem skip_settled : d.settled.skip k = d.skip k := by
  cases k <;> rfl

theorem skip_disk : (d.skip k).disk = d.disk := by
  induction k generalizing d with
  | zero => rfl
  | succ k ih => rw [Drive.skip, ih, readData_disk, settled_disk]

theorem skip_alike : d.Alike (d.skip k) := by
  induction k generalizing d with
  | zero => exact ⟨rfl, rfl, rfl, rfl⟩
  | succ k ih => exact .trans (readData_alike (d := d.settled)) ih

/-! ## Writing -/

/-- `k` words of two bytes each. -/
def words (b : Store) : Nat → List Nat
  | 0 => []
  | k + 1 => getLE b 0 2 :: words (slice b 2) k

/-- A drive takes words, or it does not. -/
theorem dataOut_or (d : Drive) : (∃ pos stop image, d.phase = .dataOut pos stop image) ∨ d.Gives := by
  by_cases h : ∃ pos stop image, d.phase = .dataOut pos stop image
  · exact .inl h
  · exact .inr fun pos stop image hphase => h ⟨pos, stop, image, hphase⟩

theorem writeData_of_dataOut (h : d.phase = .dataOut pos stop image) : d.writeData w =
    if (pos + 2) % 512 = 0 then
      (d.store (pos + 2) (putLE image pos 2 w)).enter (.dataOut (pos + 2) stop (putLE image pos 2 w)) (pos + 2) stop
    else { d with phase := .dataOut (pos + 2) stop (putLE image pos 2 w) } := by
  rw [Drive.writeData, h]

theorem writeData_of_gives (h : d.Gives) : d.writeData w = d := by
  rw [Drive.writeData]
  split
  · next pos stop image hphase => exact absurd hphase (h pos stop image)
  · rfl

theorem store_disk :
    (d.store pos image).disk = blit d.disk (pos - 512) 512 (slice image (pos - 512)) := by
  rw [Drive.store]

theorem store_busy : (d.store pos image).busy = d.busy := by rw [Drive.store]

theorem store_alike : d.Alike (d.store pos image) := by
  refine ⟨?_, ?_, ?_, ?_⟩ <;> rw [Drive.store]

/-- Writing a word moves the transfer on by one word, or ends it. -/
theorem writeData_cases (h : d.phase = .dataOut pos stop image) (hin : Within d.capacity pos stop) :
    Within d.capacity (pos + 2) stop ∧ (d.writeData w).phase = .dataOut (pos + 2) stop (putLE image pos 2 w) ∨
      last d.capacity stop ≤ pos + 2 ∧ ((d.writeData w).phase = .idle ∨ (d.writeData w).phase = .failed) := by
  obtain ⟨hword, hsector, hlt⟩ := hin
  rw [writeData_of_dataOut h]
  split
  · next hedge =>
      rw [← (store_alike : d.Alike (d.store (pos + 2) (putLE image pos 2 w))).1]
      exact enter_cases _ hedge hsector
  · next hedge =>
      refine .inl ⟨⟨by omega, hsector, ?_⟩, rfl⟩
      rw [last, lt_min_iff] at hlt ⊢
      omega

/-- A word that does not fill a sector stays off the disk. -/
theorem writeData_disk (h : d.phase = .dataOut pos stop image) : (d.writeData w).disk =
    if (pos + 2) % 512 = 0 then (d.store (pos + 2) (putLE image pos 2 w)).disk else d.disk := by
  rw [writeData_of_dataOut h]
  split
  · rw [enter_disk]
  · rfl

theorem writeData_alike : d.Alike (d.writeData w) := by
  rcases dataOut_or d with ⟨pos, stop, image, hphase⟩ | hgives
  · rw [writeData_of_dataOut hphase]
    split
    · exact store_alike.trans enter_alike
    · exact ⟨rfl, rfl, rfl, rfl⟩
  · rw [writeData_of_gives hgives]
    exact ⟨rfl, rfl, rfl, rfl⟩

theorem writeData_busy {bound : Nat} (hdelay : ∀ i, d.delay i < bound) (hbusy : d.busy < bound) :
    (d.writeData w).busy < bound := by
  rcases dataOut_or d with ⟨pos, stop, image, hphase⟩ | hgives
  · rw [writeData_of_dataOut hphase]
    split
    · apply enter_busy
      · rwa [store_alike.2.1]
      · rwa [store_busy]
    · exact hbusy
  · rw [writeData_of_gives hgives]
    exact hbusy

theorem writeData_sound (h : d.Sound) : (d.writeData w).Sound := by
  rcases dataOut_or d with ⟨pos, stop, image, hphase⟩ | hgives
  · rcases writeData_cases (w := w) hphase (h.of_dataOut hphase) with ⟨hin, hnext⟩ | ⟨-, hnext | hnext⟩
    · rw [Drive.Sound, hnext]
      rwa [writeData_alike.1]
    · rw [Drive.Sound, hnext]
      trivial
    · rw [Drive.Sound, hnext]
      trivial
  · rwa [writeData_of_gives hgives]

theorem feed_cons : d.feed (w :: ws) = (d.settled.writeData w).feed ws := rfl

theorem feed_settled : d.settled.feed ws = d.feed ws := by
  cases ws <;> rfl

theorem feed_alike : d.Alike (d.feed ws) := by
  induction ws generalizing d with
  | nil => exact ⟨rfl, rfl, rfl, rfl⟩
  | cons w ws ih => exact .trans (writeData_alike (d := d.settled)) ih

/-- A drive that takes no words is left as it is. -/
theorem feed_of_gives (h : d.Gives) : (d.feed ws).disk = d.disk ∧ (d.feed ws).phase = d.phase := by
  induction ws generalizing d with
  | nil => exact ⟨rfl, rfl⟩
  | cons w ws ih =>
      rw [feed_cons, writeData_of_gives (d := d.settled) h]
      exact ih (d := d.settled) h

theorem putLE_word : putLE image pos 2 (getLE b 0 2) = blit image pos 2 b := by
  rw [putLE_getLE]
  exact blit_congr fun i _ => by rw [slice_apply, Nat.zero_add]

theorem blit_words :
    blit (blit image pos 2 b) (pos + 2) (2 * k) (slice b 2) = blit image pos (2 * (k + 1)) b := by
  rw [blit_append rfl fun i _ => slice_apply i, Nat.mul_succ, Nat.add_comm]

/-- **The words that fill a sector are on the disk**, those after the last full sector are not. -/
theorem feed_disk (h : d.phase = .dataOut pos stop image) (hin : Within d.capacity pos stop) :
    (d.feed (words b k)).disk = fun x =>
      if 512 * (pos / 512) ≤ x ∧ x < 512 * (min (pos + 2 * k) (last d.capacity stop) / 512) then
        blit image pos (2 * k) b x
      else d.disk x := by
  induction k generalizing d pos image b with
  | zero =>
      have hlt := hin.lt
      funext x
      rw [if_neg (by omega)]
      rfl
  | succ k ih =>
      have hword := hin.word
      have hsector := hin.sector
      have hlt := hin.lt
      have hlast : last d.capacity stop % 512 = 0 := by
        rw [last]
        omega
      have hput : putLE image pos 2 (getLE b 0 2) = blit image pos 2 b := putLE_word
      have himage : blit (blit image pos 2 b) (pos + 2) (2 * k) (slice b 2) = blit image pos (2 * (k + 1)) b :=
        blit_words
      have hfirst : ∀ x, x < pos + 2 → blit image pos 2 b x = blit image pos (2 * (k + 1)) b x := by
        intro x hx
        rw [← himage, blit_apply_of_notMem (.inl hx)]
      have hdisk := writeData_disk (d := d.settled) (w := getLE b 0 2) h
      rw [hput, settled_disk] at hdisk
      -- a byte of the sector that has just been filled, and one of any other
      have hstore : (pos + 2) % 512 = 0 → ∀ x, (d.settled.store (pos + 2) (blit image pos 2 b)).disk x =
          if pos + 2 - 512 ≤ x ∧ x < pos + 2 then blit image pos (2 * (k + 1)) b x else d.disk x := by
        intro hedge x
        rw [store_disk, settled_disk]
        by_cases hx : pos + 2 - 512 ≤ x ∧ x < pos + 2
        · rw [if_pos hx, ← hfirst x hx.2]
          rw [blit_apply_of_mem hx.1 (by omega), slice_apply, Nat.add_sub_cancel' hx.1]
        · rw [if_neg hx]
          exact blit_apply_of_notMem (by omega)
      rw [words, feed_cons]
      funext x
      rcases writeData_cases (d := d.settled) (w := getLE b 0 2) h hin with ⟨hin', hnext⟩ | ⟨hle, hnext⟩
      · have hlt' : pos + 2 < last d.capacity stop := hin'.lt
        have hcap : (d.settled.writeData (getLE b 0 2)).capacity = d.capacity := writeData_alike.1
        rw [hput] at hnext
        rw [ih hnext (hcap ▸ hin'), hcap, himage, hdisk]
        dsimp only
        by_cases hedge : (pos + 2) % 512 = 0
        · rw [if_pos hedge, hstore hedge, ← ite_or]
          apply if_congr _ rfl rfl
          omega
        · rw [if_neg hedge]
          apply if_congr _ rfl rfl
          omega
      · have hend : last d.capacity stop = pos + 2 := by
          have hle' : last d.capacity stop ≤ pos + 2 := hle
          omega
        have hgives : (d.settled.writeData (getLE b 0 2)).Gives := by
          rintro p s i hout
          rcases hnext with hnext | hnext <;> simp [hnext] at hout
        rw [(feed_of_gives hgives).1, hdisk, if_pos (by omega), hstore (by omega)]
        apply if_congr _ rfl rfl
        omega

/-- A transfer goes on after the words until its last sector is full. -/
theorem feed_phase (h : d.phase = .dataOut pos stop image) (hin : Within d.capacity pos stop) :
    (pos + 2 * k < last d.capacity stop →
        (d.feed (words b k)).phase = .dataOut (pos + 2 * k) stop (blit image pos (2 * k) b)) ∧
      (last d.capacity stop ≤ pos + 2 * k → (d.feed (words b k)).Gives) := by
  induction k generalizing d pos image b with
  | zero =>
      rw [Nat.mul_zero, Nat.add_zero, blit_zero]
      exact ⟨fun _ => h, fun hle => absurd hin.lt (Nat.not_lt.mpr hle)⟩
  | succ k ih =>
      have hput : putLE image pos 2 (getLE b 0 2) = blit image pos 2 b := putLE_word
      have himage : blit (blit image pos 2 b) (pos + 2) (2 * k) (slice b 2) = blit image pos (2 * (k + 1)) b :=
        blit_words
      have hcap : (d.settled.writeData (getLE b 0 2)).capacity = d.capacity := writeData_alike.1
      rw [words, feed_cons, show pos + 2 * (k + 1) = pos + 2 + 2 * k by omega]
      rcases writeData_cases (d := d.settled) (w := getLE b 0 2) h hin with ⟨hin', hnext⟩ | ⟨hle, hnext⟩
      · rw [hput] at hnext
        have hrest := ih (b := slice b 2) hnext (hcap ▸ hin')
        rwa [hcap, himage] at hrest
      · have hgives : (d.settled.writeData (getLE b 0 2)).Gives := by
          rintro p s i hout
          rcases hnext with hnext | hnext <;> simp [hnext] at hout
        have hle' : last d.capacity stop ≤ pos + 2 := hle
        refine ⟨fun hlt => absurd hlt (by omega), fun _ p s i => ?_⟩
        rw [(feed_of_gives hgives).2]
        exact hgives p s i

end AtaDevice
