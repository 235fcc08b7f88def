import NeKernel.FS.NeFSRows
import NeKernel.FS.NeFSWalks

/-!
# Names and the memory they are in

What `FindCatalog` and `CreateCatalog` do with the characters of paths and names: they cut the path of the
parent out of a buffer, measure the names of the records they read, compare them with the end of the path,
and copy the last component to a record. Every such access is noted, and the notes are safe exactly when
the path is short enough for the buffer and no record carries a name that is not terminated or longer than
the path.
-/

namespace NeKernel.NeFS

open ByteStore Scan

variable {drv : DriveTrait} {m buf stack heap r : Store} {name parent path component : CString}
  {hidden localSearch alloc : Bool} {i j lba room nameLen kind flags outLba : Nat}

/-! ## Accesses -/

/-- `Name` has a zero inside of it. -/
def Terminated (r : Store) : Prop := ∃ i < kNeFSCatalogNameLen, r (NefsCatalogStruct.name + i) = 0

instance : Decidable (Terminated r) := inferInstanceAs (Decidable (∃ i < kNeFSCatalogNameLen, _))

/-- What is done with a name: a byte of a parent's name is read or written, in a buffer of `size` bytes; the
name of a record is measured; a pointer is set `offset` bytes behind the beginning of a path; a name has been
copied to a record. -/
inductive Access where
  | parentName (size index : Nat)
  | measure (record : Store)
  | pointer (pathLen offset : Nat)
  | stored (component : CString) (record : Store)

/-- The byte is one of the buffer's, the name ends in its field, the pointer is not before the path (in
unsigned arithmetic: not behind its end), the name that was copied is in its field with its zero. -/
def Access.Safe : Access → Prop
  | parentName size index => index < size
  | measure record => Terminated record
  | pointer pathLen offset => offset ≤ pathLen
  | stored component record =>
      stringAt record NefsCatalogStruct.name kNeFSCatalogNameLen = component ∧ Terminated record

instance (a : Access) : Decidable a.Safe :=
  match a with
  | .parentName size index => inferInstanceAs (Decidable (index < size))
  | .measure record => inferInstanceAs (Decidable (Terminated record))
  | .pointer pathLen offset => inferInstanceAs (Decidable (offset ≤ pathLen))
  | .stored component record => inferInstanceAs (Decidable (stringAt record NefsCatalogStruct.name
      kNeFSCatalogNameLen = component ∧ Terminated record))

/-- A run that notes its accesses, for as many turns of its loops as it is given, notes safe ones only. -/
def Safe (log : Nat → List Access) : Prop := ∀ fuel, ∀ a ∈ log fuel, a.Safe

theorem safe_append {log log' : Nat → List Access} :
    Safe (fun fuel => log fuel ++ log' fuel) ↔ Safe log ∧ Safe log' := by
  unfold Safe
  simp only [List.mem_append, or_imp, forall_and]

theorem safe_const {l : List Access} : Safe (fun _ => l) ↔ ∀ a ∈ l, a.Safe := by
  unfold Safe
  exact forall_const Nat

theorem safe_nil : Safe (fun _ => []) := fun _ _ ha => by cases ha

/-! ## The name of the parent -/

/-- `while (i > 0 && parent_name[i] != '/') { parent_name[i] = 0; --i; }`: the indices it uses, the index it
stops at, and the buffer. -/
def cutBack : Nat → Store → List Nat × Nat × Store
  | 0, buf => ([], 0, buf)
  | i + 1, buf =>
      if buf (i + 1) ≠ kNeFSSeparator then
        let r := cutBack i (fill buf (i + 1) 1 0)
        ([i + 1, i + 1] ++ r.1, r.2)
      else ([i + 1], i + 1, buf)

/-- The test for a separator at the very end, and the loop. The index `last` is not zero where there is one: a
path that is only a separator does not come here. -/
def cutLast (buf : Store) (last : Nat) : List Nat × Nat × Store :=
  if buf last = kNeFSSeparator then
    let r := cutBack (last - 1) (fill buf last 1 0)
    ([last, last] ++ r.1, r.2)
  else
    let r := cutBack last buf
    ([last] ++ r.1, r.2)

/-- The path in the buffer is cut back to that of its parent: the indices that are used, and the buffer if
there is a parent. The path has a character, so `nameLen - 1` does not wrap. -/
def cutParent (buf : Store) (nameLen : Nat) : List Nat × Option Store :=
  let r := cutLast buf (nameLen - 1)
  if r.2.1 = 0 then (r.1 ++ [0], if r.2.2 0 ≠ kNeFSSeparator then none else some r.2.2)
  else (r.1, some r.2.2)

/-- The buffer holds the path with its zero. -/
def HoldsPath (buf : Store) (path : CString) : Prop := ∀ i ≤ path.length, buf i = path.bytes i

theorem cutBack_touched : ∀ j ∈ (cutBack i buf).1, j ≤ i := by
  induction i generalizing buf with
  | zero => exact fun j hj => absurd hj List.not_mem_nil
  | succ i ih =>
      rw [cutBack]
      split
      · intro j hj
        rcases List.mem_append.mp hj with hj | hj
        · simp only [List.mem_cons, List.not_mem_nil, or_false, or_self] at hj
          exact Nat.le_of_eq hj
        · exact Nat.le_succ_of_le (ih j hj)
      · intro j hj
        exact Nat.le_of_eq (List.mem_singleton.mp hj)

/-- The loop stops at the last separator. -/
theorem cutBack_index (h : ∀ j ≤ i, buf j = path.bytes j) (hi : i < path.length) :
    (cutBack i buf).2.1 = lastSeparator path i := by
  induction i generalizing buf with
  | zero => rfl
  | succ i ih =>
      have hchar : path.chars[i + 1]? = some (buf (i + 1)) := by
        rw [h _ (Nat.le_refl _), List.getElem?_eq_getElem hi]
        simp only [CString.bytes, List.getD_eq_getElem?_getD, List.getElem?_eq_getElem hi, Option.getD_some]
      rw [cutBack, lastSeparator, hchar]
      by_cases hsep : buf (i + 1) = kNeFSSeparator
      · simp [hsep]
      · rw [if_pos hsep, if_neg (by simpa using hsep)]
        apply ih _ (by omega)
        intro j hj
        rw [fill, blit_apply_of_notMem (by omega)]
        exact h j (by omega)

theorem cutBack_le : (cutBack i buf).2.1 ≤ i := by
  induction i generalizing buf with
  | zero => exact Nat.le_refl _
  | succ i ih =>
      rw [cutBack]
      split
      · exact Nat.le_succ_of_le ih
      · exact Nat.le_refl _

/-- What is left in the buffer: zeros from where the loop stopped to where it began, and what was there else. -/
theorem cutBack_buffer : (cutBack i buf).2.2 j =
    if (cutBack i buf).2.1 < j ∧ j ≤ i then 0 else buf j := by
  induction i generalizing buf with
  | zero =>
      rw [if_neg (by omega)]
      rfl
  | succ i ih =>
      rw [cutBack]
      split
      · have hle : (cutBack i (fill buf (i + 1) 1 0)).2.1 ≤ i := cutBack_le
        show (cutBack i (fill buf (i + 1) 1 0)).2.2 j =
          if (cutBack i (fill buf (i + 1) 1 0)).2.1 < j ∧ j ≤ i + 1 then 0 else buf j
        rw [ih]
        by_cases hj : j = i + 1
        · subst hj
          rw [if_neg (by omega), if_pos (by omega), fill, blit_apply_of_mem (by omega) (by omega)]
        · have hfill : fill buf (i + 1) 1 0 j = buf j := blit_apply_of_notMem (by omega)
          rw [hfill]
          congr 1
          apply propext
          omega
      · show buf j = if i + 1 < j ∧ j ≤ i + 1 then 0 else buf j
        rw [if_neg (by omega)]

/-- Where it stops there is a separator, or the buffer begins. -/
theorem cutBack_stop : (cutBack i buf).2.1 = 0 ∨ buf (cutBack i buf).2.1 = kNeFSSeparator := by
  induction i generalizing buf with
  | zero => exact .inl rfl
  | succ i ih =>
      rw [cutBack]
      split
      · have hle : (cutBack i (fill buf (i + 1) 1 0)).2.1 ≤ i := cutBack_le
        have hother : fill buf (i + 1) 1 0 (cutBack i (fill buf (i + 1) 1 0)).2.1 =
            buf (cutBack i (fill buf (i + 1) 1 0)).2.1 := blit_apply_of_notMem (by omega)
        refine ih.imp_right fun hsep => ?_
        rwa [hother] at hsep
      · next hsep => exact .inr (not_not.mp hsep)

theorem lastSeparator_le {i : Nat} : lastSeparator path i ≤ i := by
  induction i with
  | zero => exact Nat.le_refl _
  | succ i ih =>
      rw [lastSeparator]
      split
      · exact Nat.le_refl _
      · exact Nat.le_succ_of_le ih

theorem bytes_length : path.bytes path.length = 0 := by
  simp [CString.bytes, CString.length, List.getD_eq_getElem?_getD]

theorem chars_getElem? (hi : i < path.length) : path.chars[i]? = some (path.bytes i) := by
  rw [List.getElem?_eq_getElem hi]
  simp only [CString.bytes, List.getD_eq_getElem?_getD, List.getElem?_eq_getElem hi, Option.getD_some]

/-- What the loop leaves when it begins at `i` in a buffer that holds the path up to there and zeros from
there on: the path up to the last separator. -/
theorem cutBack_string (hi : i < path.length) (hbuf : ∀ j ≤ i, buf j = path.bytes j)
    (hzero : ∀ j, i < j → j ≤ path.length → buf j = 0) (hroom : path.length < room) :
    (cutBack i buf).2.2 0 = path.bytes 0 ∧
      stringAt (cutBack i buf).2.2 0 room = path.take (lastSeparator path i + 1) := by
  have hindex := cutBack_index hbuf hi
  have hle : lastSeparator path i ≤ i := lastSeparator_le
  have hkept : ∀ j ≤ lastSeparator path i, (cutBack i buf).2.2 j = path.bytes j := by
    intro j hj
    rw [cutBack_buffer, hindex, if_neg (by omega)]
    exact hbuf j (by omega)
  have hcut : (cutBack i buf).2.2 (lastSeparator path i + 1) = 0 := by
    rw [cutBack_buffer, hindex]
    split
    · rfl
    · exact hzero _ (by omega) (by omega)
  have hlength : (path.chars.take (lastSeparator path i + 1)).length = lastSeparator path i + 1 := by
    rw [List.length_take]
    exact Nat.min_eq_left (by show _ ≤ path.length; omega)
  refine ⟨hkept 0 (Nat.zero_le _), ?_⟩
  unfold stringAt CString.take
  simp only [CString.mk.injEq]
  apply charsAt_eq (by omega) (fun c hc => path.noNul c (List.mem_of_mem_take hc))
  · intro j hj
    rw [hlength] at hj
    rw [Nat.zero_add, hkept j (by omega), List.getD_eq_getElem?_getD, List.getElem?_take_of_lt (by omega),
      chars_getElem? (by omega)]
    rfl
  · rw [hlength, Nat.zero_add]
    exact hcut

theorem cutLast_touched {last : Nat} : ∀ j ∈ (cutLast buf last).1, j ≤ last := by
  intro j hj
  unfold cutLast at hj
  split at hj
  · rcases List.mem_append.mp hj with hj | hj
    · simp only [List.mem_cons, List.not_mem_nil, or_false, or_self] at hj
      exact Nat.le_of_eq hj
    · exact Nat.le_trans (cutBack_touched j hj) (Nat.sub_le _ _)
  · rcases List.mem_append.mp hj with hj | hj
    · exact Nat.le_of_eq (List.mem_singleton.mp hj)
    · exact cutBack_touched j hj

/-- No byte behind the last character of the path is used. -/
theorem cutParent_touched (hlen : 0 < nameLen) : ∀ j ∈ (cutParent buf nameLen).1, j < nameLen := by
  intro j hj
  unfold cutParent at hj
  simp only at hj
  split at hj
  · rcases List.mem_append.mp hj with hj | hj
    · have := cutLast_touched j hj
      omega
    · have := List.mem_singleton.mp hj
      omega
  · have := cutLast_touched j hj
    omega

/-- The byte of the last character is. -/
theorem mem_cutParent : nameLen - 1 ∈ (cutParent buf nameLen).1 := by
  have hmem : nameLen - 1 ∈ (cutLast buf (nameLen - 1)).1 := by
    unfold cutLast
    split <;> simp
  unfold cutParent
  simp only
  split
  · exact List.mem_append_left _ hmem
  · exact hmem

/-- **What is cut out of the buffer** is the path of the parent. -/
theorem cutParent_parent (h : HoldsPath buf path) (hn : path.chars ≠ [])
    (hlast : endsInSeparator path = true → 2 ≤ path.length) (hroom : path.length < room) :
    (cutParent buf path.length).2.map (stringAt · 0 room) = parentName path := by
  have hpos : 0 < path.length := List.length_pos_iff.mpr hn
  have hends : endsInSeparator path = true ↔ buf (path.length - 1) = kNeFSSeparator := by
    unfold endsInSeparator
    rw [chars_getElem? (by omega), h _ (by omega)]
    simp
  have hcut : (cutLast buf (path.length - 1)).2.1 = componentIndex path ∧
      (cutLast buf (path.length - 1)).2.2 0 = path.bytes 0 ∧
      stringAt (cutLast buf (path.length - 1)).2.2 0 room = path.take (componentIndex path + 1) := by
    unfold cutLast componentIndex
    by_cases hsep : buf (path.length - 1) = kNeFSSeparator
    · have hsep' := hends.mpr hsep
      have hlen := hlast hsep'
      rw [if_pos hsep, if_pos hsep']
      have hbuf : ∀ j ≤ path.length - 1 - 1, fill buf (path.length - 1) 1 0 j = path.bytes j := by
        intro j hj
        rw [fill, blit_apply_of_notMem (by omega)]
        exact h j (by omega)
      refine ⟨cutBack_index hbuf (by omega), cutBack_string (by omega) hbuf (fun j hj hj' => ?_) hroom⟩
      by_cases hj'' : j = path.length - 1
      · rw [hj'', fill, blit_apply_of_mem (by omega) (by omega)]
      · rw [fill, blit_apply_of_notMem (by omega), h j hj', show j = path.length by omega, bytes_length]
    · rw [if_neg hsep, if_neg (fun hsep' => hsep (hends.mp hsep'))]
      have hbuf : ∀ j ≤ path.length - 1, buf j = path.bytes j := fun j hj => h j (by omega)
      refine ⟨cutBack_index hbuf (by omega), cutBack_string (by omega) hbuf (fun j hj hj' => ?_) hroom⟩
      rw [h j hj', show j = path.length by omega, bytes_length]
  obtain ⟨hindex, hfirst, hstring⟩ := hcut
  unfold cutParent parentName
  simp only [hindex, hfirst]
  rw [chars_getElem? hpos]
  by_cases hzero : componentIndex path = 0
  · by_cases hsep : path.bytes 0 = kNeFSSeparator
    · simp [hzero, hsep, hstring]
    · simp [hzero, hsep]
  · simp [hzero, ← hstring]

/-! ## `FindCatalog` -/

/-- What a turn of `scan_from` does with the name of the record. -/
def recordAccesses (drv : DriveTrait) (m : Store) (path : CString) (cursor : Nat) : List Access :=
  let tmp := slice m (drv.fAddress cursor)
  [.measure tmp,
    .pointer path.length (u64 (path.length + 2 ^ 64 - (NefsCatalogStruct.nameOf tmp).length))]

/-- `scan_from`. -/
def scanAccesses (drv : DriveTrait) (m : Store) (path : CString) (hidden : Bool) (lbaStart fuel : Nat) :
    List Access :=
  if lbaStart < startOf drv m then []
  else Trail.log (recordAccesses drv m path) fuel (catalogWalk drv m path hidden lbaStart)

/-- `FindCatalog` without `local_search`. -/
def anyAccesses (drv : DriveTrait) (m : Store) (path : CString) (hidden : Bool) (fuel : Nat) : List Access :=
  if path.chars = [] then [] else scanAccesses drv m path hidden (startOf drv m) fuel

/-- The records behind the parent's, then all of them. -/
def behindAccesses (drv : DriveTrait) (m : Store) (path : CString) (hidden : Bool)
    (parentCatalog : Option (Nat × Store)) (fuel : Nat) : List Access :=
  match parentCatalog with
  | none => scanAccesses drv m path hidden (startOf drv m) fuel
  | some hit =>
      let start := NefsCatalogStruct.nextSibling.get hit.2
      scanAccesses drv m path hidden start fuel ++
        match scanFrom drv (partBlock drv m) m path hidden start with
        | some none => scanAccesses drv m path hidden (startOf drv m) fuel
        | _ => []

/-- The string in a buffer is read up to its zero. -/
def readName (size : Nat) (parent : CString) : List Access :=
  (List.range (parent.length + 1)).map (.parentName size)

/-- `FindCatalog` with `local_search`; `stack` is what `parent_name` and the memory behind it hold before. -/
def localAccesses (drv : DriveTrait) (m stack : Store) (path : CString) (hidden : Bool) (fuel : Nat) :
    List Access :=
  let buf := rtCopyMemorySafe path.bytes (fill stack 0 kNeFSCatalogNameLen 0) 0 (path.length + 1)
    kNeFSCatalogNameLen
  let r := cutParent buf path.length
  r.1.map (.parentName kNeFSCatalogNameLen) ++
    match r.2.map (stringAt · 0 kNeFSCatalogNameLen) with
    | none => []
    | some parent =>
        readName kNeFSCatalogNameLen parent ++ (anyAccesses drv m parent hidden fuel ++
          match lookup drv m parent hidden false with
          | none => []
          | some parentCatalog => behindAccesses drv m path hidden parentCatalog fuel)

/-- `FindCatalog`. -/
def findAccesses (drv : DriveTrait) (m stack : Store) (path : CString) (hidden localSearch : Bool)
    (fuel : Nat) : List Access :=
  if path.chars = [] then []
  else if SearchesLocal path localSearch then localAccesses drv m stack path hidden fuel
  else anyAccesses drv m path hidden fuel

/-- The name in the record ends in its field and is not longer than the path. -/
def NameFits (path : CString) (r : Store) : Prop :=
  Terminated r ∧ (NefsCatalogStruct.nameOf r).length ≤ path.length

/-- So do the names of all records the walk comes to. -/
def WalkFits {α : Type*} (drv : DriveTrait) (m : Store) (path : CString) (w : Trail α) : Prop :=
  ∀ x, w.ComesTo x → NameFits path (slice m (drv.fAddress x))

/-- The local search comes to the walk over all catalogs: the parent's walk ends, and the one behind the
parent, if it is made, ends without a record. -/
def SearchesAll (drv : DriveTrait) (m : Store) (path parent : CString) (hidden : Bool) : Prop :=
  FindEnds drv m parent hidden false ∧ ∀ hit, FindFinds drv m parent hidden false hit →
    startOf drv m ≤ NefsCatalogStruct.nextSibling.get hit.2 →
      ¬ (catalogWalk drv m path hidden (NefsCatalogStruct.nextSibling.get hit.2)).Circles ∧
        ∀ r, ¬ (catalogWalk drv m path hidden (NefsCatalogStruct.nextSibling.get hit.2)).Finds r

/-- The walks of a local search come to no name that does not fit. -/
structure LocalFits (drv : DriveTrait) (m : Store) (path parent : CString) (hidden : Bool) : Prop where
  toParent : WalkFits drv m parent (allWalk drv m parent hidden)
  behind : ∀ hit, FindFinds drv m parent hidden false hit →
    startOf drv m ≤ NefsCatalogStruct.nextSibling.get hit.2 →
      WalkFits drv m path (catalogWalk drv m path hidden (NefsCatalogStruct.nextSibling.get hit.2))
  all : SearchesAll drv m path parent hidden → WalkFits drv m path (allWalk drv m path hidden)

/-- The path fits the buffer, and the walks come to no name that does not fit. -/
def FindFits (drv : DriveTrait) (m : Store) (path : CString) (hidden localSearch : Bool) : Prop :=
  path.chars ≠ [] →
    if SearchesLocal path localSearch then
      path.length ≤ kNeFSCatalogNameLen ∧ (path.length < kNeFSCatalogNameLen →
        ∀ parent, parentName path = some parent → LocalFits drv m path parent hidden)
    else WalkFits drv m path (allWalk drv m path hidden)

theorem charsAt_length_le {off : Nat} : (charsAt r off room).length ≤ room := by
  induction room generalizing off with
  | zero => exact Nat.le_refl _
  | succ room ih =>
      rw [charsAt]
      split
      · exact Nat.zero_le _
      · exact Nat.succ_le_succ ih

theorem nameOf_length_lt : (NefsCatalogStruct.nameOf r).length < 2 ^ 64 := by
  have hle : (NefsCatalogStruct.nameOf r).length ≤ 534 := charsAt_length_le
  omega

/-- The difference of the lengths wraps exactly when the name is longer. -/
theorem pointer_safe_iff : (Access.pointer path.length
    (u64 (path.length + 2 ^ 64 - (NefsCatalogStruct.nameOf r).length))).Safe ↔
      (NefsCatalogStruct.nameOf r).length ≤ path.length := by
  have hlt := nameOf_length_lt (r := r)
  show u64 _ ≤ _ ↔ _
  unfold u64
  omega

theorem recordAccesses_safe_iff : (∀ a ∈ recordAccesses drv m path i, a.Safe) ↔
    NameFits path (slice m (drv.fAddress i)) := by
  unfold recordAccesses NameFits
  simp only [List.forall_mem_cons, List.not_mem_nil, false_implies, implies_true, and_true, pointer_safe_iff]
  exact Iff.rfl

theorem scanAccesses_safe_iff : Safe (scanAccesses drv m path hidden lba) ↔
    (startOf drv m ≤ lba → WalkFits drv m path (catalogWalk drv m path hidden lba)) := by
  unfold scanAccesses
  by_cases hout : lba < startOf drv m
  · simp only [hout, if_true]
    exact iff_of_true safe_nil fun h => absurd h (Nat.not_le.mpr hout)
  · simp only [hout, if_false]
    rw [imp_iff_right (Nat.le_of_not_lt hout)]
    unfold Safe WalkFits
    rw [Trail.forall_log_iff]
    simp only [recordAccesses_safe_iff]

theorem anyAccesses_safe_iff : Safe (anyAccesses drv m path hidden) ↔
    (path.chars ≠ [] → WalkFits drv m path (allWalk drv m path hidden)) := by
  unfold anyAccesses
  by_cases hn : path.chars = []
  · simp only [hn, if_true]
    exact iff_of_true safe_nil fun h => absurd rfl h
  · simp only [hn, if_false]
    rw [imp_iff_right hn]
    exact scanAccesses_safe_iff.trans (imp_iff_right (Nat.le_refl _))

/-- A scan that ends without a record. -/
theorem scanFrom_empty_iff (hlba : lba < 2 ^ 64) :
    scanFrom drv (partBlock drv m) m path hidden lba = some none ↔
      (startOf drv m ≤ lba → ¬ (catalogWalk drv m path hidden lba).Circles ∧
        ∀ r, ¬ (catalogWalk drv m path hidden lba).Finds r) := by
  have hnone : scanFrom drv (partBlock drv m) m path hidden lba = none ↔
      startOf drv m ≤ lba ∧ (catalogWalk drv m path hidden lba).Circles := scanFrom_none_iff hlba
  have hfound (r) : scanFrom drv (partBlock drv m) m path hidden lba = some (some r) ↔
      startOf drv m ≤ lba ∧ (catalogWalk drv m path hidden lba).Finds r := scanFrom_found_iff hlba
  cases hscan : scanFrom drv (partBlock drv m) m path hidden lba with
  | none =>
      obtain ⟨hstart, hcircle⟩ := hnone.mp hscan
      exact iff_of_false (by simp) fun h => (h hstart).1 hcircle
  | some found =>
      cases found with
      | none =>
          refine iff_of_true rfl fun hstart => ⟨fun hcircle => ?_, fun r hr => ?_⟩
          · cases hscan.symm.trans (hnone.mpr ⟨hstart, hcircle⟩)
          · cases hscan.symm.trans ((hfound r).mpr ⟨hstart, hr⟩)
      | some r =>
          obtain ⟨hstart, hr⟩ := (hfound r).mp hscan
          exact iff_of_false (by simp) fun h => (h hstart).2 r hr

theorem behindAccesses_safe_iff {hit : Nat × Store} :
    Safe (behindAccesses drv m path hidden (some hit)) ↔
      (startOf drv m ≤ NefsCatalogStruct.nextSibling.get hit.2 →
        WalkFits drv m path (catalogWalk drv m path hidden (NefsCatalogStruct.nextSibling.get hit.2))) ∧
      ((startOf drv m ≤ NefsCatalogStruct.nextSibling.get hit.2 →
          ¬ (catalogWalk drv m path hidden (NefsCatalogStruct.nextSibling.get hit.2)).Circles ∧
            ∀ r, ¬ (catalogWalk drv m path hidden (NefsCatalogStruct.nextSibling.get hit.2)).Finds r) →
        WalkFits drv m path (allWalk drv m path hidden)) := by
  have hall : Safe (scanAccesses drv m path hidden (startOf drv m)) ↔
      WalkFits drv m path (allWalk drv m path hidden) :=
    scanAccesses_safe_iff.trans (imp_iff_right (Nat.le_refl _))
  rw [← scanFrom_empty_iff (word_lt rfl), ← scanAccesses_safe_iff]
  unfold behindAccesses
  rw [safe_append]
  apply and_congr_right
  intro _
  cases scanFrom drv (partBlock drv m) m path hidden (NefsCatalogStruct.nextSibling.get hit.2) with
  | none => exact iff_of_true safe_nil fun h => by cases h
  | some found =>
      cases found with
      | none => exact hall.trans (imp_iff_right rfl).symm
      | some r => exact iff_of_true safe_nil fun h => by cases h

/-- What a local search does once the name of the parent is cut out of the buffer. -/
theorem localWalks_safe_iff (hn : parent.chars ≠ []) :
    (Safe (anyAccesses drv m parent hidden) ∧ Safe (fun fuel =>
      match lookup drv m parent hidden false with
      | none => []
      | some parentCatalog => behindAccesses drv m path hidden parentCatalog fuel)) ↔
      LocalFits drv m path parent hidden := by
  have hsplit : LocalFits drv m path parent hidden ↔
      WalkFits drv m parent (allWalk drv m parent hidden) ∧
        (∀ hit, FindFinds drv m parent hidden false hit →
          startOf drv m ≤ NefsCatalogStruct.nextSibling.get hit.2 →
            WalkFits drv m path (catalogWalk drv m path hidden (NefsCatalogStruct.nextSibling.get hit.2))) ∧
        (SearchesAll drv m path parent hidden → WalkFits drv m path (allWalk drv m path hidden)) :=
    ⟨fun h => ⟨h.toParent, h.behind, h.all⟩, fun h => ⟨h.1, h.2.1, h.2.2⟩⟩
  rw [hsplit, anyAccesses_safe_iff, imp_iff_right hn]
  apply and_congr_right
  intro _
  unfold SearchesAll
  simp only [← lookup_found_iff]
  rw [← not_not (a := FindEnds drv m parent hidden false), ← lookup_none_iff]
  cases hlookup : lookup drv m parent hidden false with
  | none => exact iff_of_true safe_nil ⟨fun _ h => (by cases h), fun h => absurd rfl h.1⟩
  | some found =>
      cases found with
      | none =>
          have hall : Safe (scanAccesses drv m path hidden (startOf drv m)) ↔
              WalkFits drv m path (allWalk drv m path hidden) :=
            scanAccesses_safe_iff.trans (imp_iff_right (Nat.le_refl _))
          simp only [behindAccesses]
          simpa using hall
      | some hit =>
          simp only
          rw [behindAccesses_safe_iff]
          simp

theorem CString.eq_of_chars {a b : CString} (h : a.chars = b.chars) : a = b := by
  cases a
  cases b
  cases h
  rfl

theorem parentName_length_le (h : parentName path = some parent) : parent.length ≤ path.length := by
  unfold parentName at h
  split at h
  · cases h
  · cases h
    exact List.length_take_le' _ _

/-- A path of one character that is a separator is the root. -/
theorem two_le_of_endsInSeparator (hn : path.chars ≠ []) (hroot : path ≠ kNeFSRoot)
    (h : endsInSeparator path = true) : 2 ≤ path.length := by
  have hpos : 0 < path.length := List.length_pos_iff.mpr hn
  by_contra hshort
  obtain ⟨c, hc⟩ : ∃ c, path.chars = [c] := List.length_eq_one_iff.mp (show path.length = 1 by omega)
  have hsep : c = kNeFSSeparator := by simpa [endsInSeparator, CString.length, hc] using h
  have hchars : path.chars = kNeFSRoot.chars := by
    rw [hc, hsep]
    rfl
  exact hroot (CString.eq_of_chars hchars)

theorem readName_safe_iff : (∀ a ∈ readName room parent, a.Safe) ↔ parent.length < room := by
  unfold readName
  simp only [List.forall_mem_map, List.mem_range, Access.Safe]
  exact ⟨fun h => h _ (Nat.lt_succ_self _), fun h j hj => by omega⟩

/-- Where the path is cut in a buffer that has room for it, only bytes of the buffer are used. -/
theorem cutParent_safe (hlen : 0 < nameLen) (hroom : nameLen ≤ room) :
    ∀ a ∈ (cutParent buf nameLen).1.map (Access.parentName room), a.Safe := by
  simp only [List.forall_mem_map]
  intro j hj
  exact Nat.lt_of_lt_of_le (cutParent_touched hlen j hj) hroom

/-- Nothing is cut out of a buffer that the path was not copied to. -/
theorem cutParent_zeros (hlen : 0 < nameLen) (h : ∀ j < nameLen, buf j = 0) :
    (cutParent buf nameLen).2 = none := by
  have hsep : ∀ j < nameLen, buf j ≠ kNeFSSeparator := by
    intro j hj
    rw [h j hj]
    decide
  have hle : (cutBack (nameLen - 1) buf).2.1 ≤ nameLen - 1 := cutBack_le
  have hindex : (cutBack (nameLen - 1) buf).2.1 = 0 :=
    cutBack_stop.resolve_right (hsep _ (by omega))
  have hfirst : (cutBack (nameLen - 1) buf).2.2 0 = buf 0 := by
    rw [cutBack_buffer, if_neg (by omega)]
  unfold cutParent cutLast
  rw [if_neg (hsep _ (by omega))]
  simp only [hindex, hfirst, if_true]
  rw [if_pos (hsep 0 hlen)]

theorem localAccesses_safe_iff (hn : path.chars ≠ []) (hroot : path ≠ kNeFSRoot) :
    Safe (localAccesses drv m stack path hidden) ↔
      path.length ≤ kNeFSCatalogNameLen ∧ (path.length < kNeFSCatalogNameLen →
        ∀ parent, parentName path = some parent → LocalFits drv m path parent hidden) := by
  have hpos : 0 < path.length := List.length_pos_iff.mpr hn
  unfold localAccesses
  simp only
  rw [safe_append, safe_const]
  rcases Nat.lt_trichotomy path.length kNeFSCatalogNameLen with hlt | heq | hgt
  · rw [and_iff_right (cutParent_safe hpos (Nat.le_of_lt hlt)), and_iff_right (Nat.le_of_lt hlt),
      imp_iff_right hlt]
    have hbuf : HoldsPath (rtCopyMemorySafe path.bytes (fill stack 0 kNeFSCatalogNameLen 0) 0
        (path.length + 1) kNeFSCatalogNameLen) path := by
      intro j hj
      rw [rtCopyMemorySafe, if_neg (by omega), blit_apply_of_mem (Nat.zero_le _) (by omega), Nat.sub_zero]
    rw [cutParent_parent hbuf hn (two_le_of_endsInSeparator hn hroot) hlt]
    cases hp : parentName path with
    | none => exact iff_of_true safe_nil fun _ h => by cases h
    | some parent =>
        have hfits : ∀ a ∈ readName kNeFSCatalogNameLen parent, a.Safe :=
          readName_safe_iff.mpr (Nat.lt_of_le_of_lt (parentName_length_le hp) hlt)
        simp only [Option.some.injEq, forall_eq']
        rw [safe_append, safe_const, and_iff_right hfits, safe_append]
        exact localWalks_safe_iff (parentName_ne hp hn)
  · -- the copy is one byte too long: the buffer is cleared, and no parent is found in it
    have hzeros : ∀ j < path.length, rtCopyMemorySafe path.bytes (fill stack 0 kNeFSCatalogNameLen 0) 0
        (path.length + 1) kNeFSCatalogNameLen j = 0 := by
      intro j hj
      rw [rtCopyMemorySafe, if_pos (by omega), fill, blit_apply_of_mem (Nat.zero_le _) (by omega)]
    rw [cutParent_zeros hpos hzeros]
    exact iff_of_true ⟨cutParent_safe hpos (Nat.le_of_eq heq), safe_nil⟩
      ⟨Nat.le_of_eq heq, fun hlt => absurd heq (Nat.ne_of_lt hlt)⟩
  · refine iff_of_false (fun h => ?_) fun h => absurd h.1 (Nat.not_le.mpr hgt)
    have hlast : path.length - 1 < kNeFSCatalogNameLen := h.1 _ (List.mem_map_of_mem mem_cutParent)
    omega

/-- **`FindCatalog` keeps to the memory of its names** exactly when the path fits the buffer and its walks
come to no name that does not fit. -/
theorem findAccesses_safe_iff : Safe (findAccesses drv m stack path hidden localSearch) ↔
    FindFits drv m path hidden localSearch := by
  unfold findAccesses FindFits
  by_cases hn : path.chars = []
  · simp only [hn, if_true]
    exact iff_of_true safe_nil fun h => absurd rfl h
  simp only [hn, if_false]
  rw [imp_iff_right hn]
  by_cases hlocal : SearchesLocal path localSearch
  · simp only [hlocal, if_true]
    exact localAccesses_safe_iff hn hlocal.2
  · simp only [hlocal, if_false]
    exact anyAccesses_safe_iff.trans (imp_iff_right hn)

/-! ## `CreateCatalog` -/

/-- The walk of the slot loop. -/
def slotWalk (drv : DriveTrait) (m : Store) (name : CString) (outLba : Nat) : Trail Slot where
  move startFree := u64 (startFree + catalogSectors drv.fSectorSz)
  leave startFree := slotLimit drv (partBlock drv m) ≤ startFree
  visit := slotVisit drv m name
  start := outLba

/-- What a turn of the slot loop does with the name of the record: it is compared when the slot is taken. -/
def slotAccesses (drv : DriveTrait) (m : Store) (startFree : Nat) : List Access :=
  let temporaryCatalog := slice m (drv.fAddress startFree)
  if created (NefsCatalogStruct.flags.get temporaryCatalog) then [.measure temporaryCatalog] else []

/-- The slot loop is entered. -/
def EntersSlots (drv : DriveTrait) (m : Store) (outLba : Nat) : Prop :=
  1 ≤ NefsRootPartitionBlock.freeCatalog.get (partBlock drv m) ∧ drv.fSectorSz ≠ 0 ∧
    outLba < slotLimit drv (partBlock drv m)

instance : Decidable (EntersSlots drv m outLba) := inferInstanceAs (Decidable (_ ∧ _))

/-- The record of the new catalog is made, and a slot is looked for. -/
def storeAccesses (drv : DriveTrait) (m : Store) (name : CString) (flags kind outLba fuel : Nat) :
    List Access :=
  [.stored (name.drop (componentIndex name)) (childCatalog name flags kind outLba)] ++
    if EntersSlots drv m outLba then Trail.log (slotAccesses drv m) fuel (slotWalk drv m name outLba) else []

/-- The catalog of the parent has been looked for. -/
def placeAccesses (drv : DriveTrait) (m : Store) (name : CString) (flags kind : Nat)
    (catalog : Option (Option (Nat × Store))) (fuel : Nat) : List Access :=
  match catalog with
  | none => []
  | some none => storeAccesses drv m name flags kind (startOf drv m) fuel
  | some (some (outLba, r)) =>
      if NefsCatalogStruct.kind.get r = kNeFSCatalogKindFile then []
      else storeAccesses drv m name flags kind outLba fuel

/-- No catalog of the path has been found: the path of the parent is cut out of a buffer on the heap, which
has `nameLen + 1` bytes if `mm_alloc_ptr` has returned one, and none else. -/
def absentAccesses (drv : DriveTrait) (m stack heap : Store) (alloc : Bool) (name : CString)
    (flags kind fuel : Nat) : List Access :=
  let size := if alloc then name.length + 1 else 0
  let r := cutParent (rtCopyMemorySafe name.bytes heap 0 (name.length + 1) (name.length + 1)) name.length
  r.1.map (.parentName size) ++
    match r.2.map (stringAt · 0 (name.length + 1)) with
    | none => []
    | some parent =>
        readName size parent ++ (findAccesses drv m stack parent true false fuel ++
          placeAccesses drv m name flags kind (lookup drv m parent true false) fuel)

/-- `CreateCatalog`. -/
def createAccesses (drv : DriveTrait) (m stack heap : Store) (alloc : Bool) (name : CString)
    (flags kind fuel : Nat) : List Access :=
  if !nameAllowed name kind then []
  else
    findAccesses drv m stack name true false fuel ++
      match lookup drv m name true false with
      | some none =>
          if name.length < 2 then [] else absentAccesses drv m stack heap alloc name flags kind fuel
      | _ => []

/-- A lookup ends without a record. -/
def Absent (drv : DriveTrait) (m : Store) (name : CString) : Prop :=
  FindEnds drv m name true false ∧ ∀ r, ¬ FindFinds drv m name true false r

/-- Where the new catalog is put: behind a parent that is no file, or, without one, at the first catalog. -/
def ParentAt (drv : DriveTrait) (m : Store) (parent : CString) (outLba : Nat) : Prop :=
  (∃ r, FindFinds drv m parent true false (outLba, r) ∧
      NefsCatalogStruct.kind.get r ≠ kNeFSCatalogKindFile) ∨
    (Absent drv m parent ∧ outLba = startOf drv m)

/-- The last component leaves a byte for its zero, and the records in the slots carry names that end. -/
structure StoreFits (drv : DriveTrait) (m : Store) (name : CString) (outLba : Nat) : Prop where
  component : (name.drop (componentIndex name)).length < kNeFSCatalogNameLen
  slots : EntersSlots drv m outLba → ∀ x, (slotWalk drv m name outLba).ComesTo x →
    created (NefsCatalogStruct.flags.get (slice m (drv.fAddress x))) = true →
      Terminated (slice m (drv.fAddress x))

/-- Both lookups come to no name that does not fit, there is memory for the parent's name, and what is stored
fits. -/
def CreateFits (drv : DriveTrait) (m : Store) (alloc : Bool) (name : CString) (kind : Nat) : Prop :=
  nameAllowed name kind = true → FindFits drv m name true false ∧
    (Absent drv m name → 2 ≤ name.length → alloc = true ∧
      ∀ parent, parentName name = some parent → FindFits drv m parent true false ∧
        ∀ outLba, ParentAt drv m parent outLba → StoreFits drv m name outLba)

theorem lookup_absent_iff : lookup drv m name true false = some none ↔ Absent drv m name := by
  unfold Absent
  simp only [← lookup_found_iff]
  rw [← not_not (a := FindEnds drv m name true false), ← lookup_none_iff]
  rcases lookup drv m name true false with _ | _ | hit <;> simp

/-- The copy of a component to a record leaves it there with its zero when it is shorter than the field. -/
theorem stored_safe_iff : (Access.stored (name.drop (componentIndex name))
    (childCatalog name flags kind outLba)).Safe ↔
      (name.drop (componentIndex name)).length < kNeFSCatalogNameLen := by
  have hbyte : ∀ i < 457, childCatalog name flags kind outLba i =
      rtCopyMemorySafe (name.drop (componentIndex name)).bytes zeros 1
        (name.drop (componentIndex name)).length 256 i := fun i hi => childCatalog_apply hi
  generalize childCatalog name flags kind outLba = child at hbyte ⊢
  generalize name.drop (componentIndex name) = component at hbyte ⊢
  show stringAt child 1 256 = component ∧ (∃ i < 256, child (1 + i) = 0) ↔ component.length < 256
  have hcopied : component.length ≤ 256 → ∀ i < component.length, child (1 + i) = component.bytes i := by
    intro hlen i hi
    rw [hbyte _ (by omega), rtCopyMemorySafe, if_neg (by omega), blit_apply_of_mem (by omega) (by omega),
      Nat.add_sub_cancel_left]
  rcases Nat.lt_trichotomy component.length 256 with hlt | heq | hgt
  · have hend : child (1 + component.length) = 0 := by
      rw [hbyte _ (by omega), rtCopyMemorySafe, if_neg (by omega), blit_apply_of_notMem (by omega)]
      rfl
    refine iff_of_true ⟨CString.eq_of_chars ?_, component.length, hlt, hend⟩ hlt
    exact charsAt_eq hlt component.noNul (hcopied (Nat.le_of_lt hlt)) hend
  · -- the field is full, and its zero is missing
    refine iff_of_false ?_ (Nat.not_lt.mpr (Nat.le_of_eq heq.symm))
    rintro ⟨-, i, hi, hzero⟩
    rw [hcopied (Nat.le_of_eq heq) i (by omega)] at hzero
    have hchar : component.chars[i]? = some (component.bytes i) := chars_getElem? (by omega)
    exact component.noNul _ (List.mem_of_getElem? hchar) hzero
  · -- the copy is refused, and the field cleared
    refine iff_of_false ?_ (Nat.not_lt.mpr (Nat.le_of_lt hgt))
    rintro ⟨hstring, -⟩
    have hfirst : child 1 = 0 := by
      rw [hbyte _ (by decide), rtCopyMemorySafe, if_pos hgt]
      rfl
    rw [← hstring] at hgt
    have hempty : charsAt child 1 256 = [] := by rw [charsAt, if_pos hfirst]
    have hlen : (stringAt child 1 256).length = (charsAt child 1 256).length := rfl
    rw [hlen, hempty] at hgt
    cases hgt

theorem slotAccesses_safe_iff : (∀ a ∈ slotAccesses drv m i, a.Safe) ↔
    (created (NefsCatalogStruct.flags.get (slice m (drv.fAddress i))) = true →
      Terminated (slice m (drv.fAddress i))) := by
  unfold slotAccesses
  by_cases hcreated : created (NefsCatalogStruct.flags.get (slice m (drv.fAddress i))) = true
  · simp only [hcreated, if_true, List.forall_mem_singleton, true_implies]
    exact Iff.rfl
  · simp [hcreated]

theorem storeAccesses_safe_iff : Safe (storeAccesses drv m name flags kind outLba) ↔
    StoreFits drv m name outLba := by
  have hsplit : StoreFits drv m name outLba ↔
      (name.drop (componentIndex name)).length < kNeFSCatalogNameLen ∧
        (EntersSlots drv m outLba → ∀ x, (slotWalk drv m name outLba).ComesTo x →
          created (NefsCatalogStruct.flags.get (slice m (drv.fAddress x))) = true →
            Terminated (slice m (drv.fAddress x))) :=
    ⟨fun h => ⟨h.component, h.slots⟩, fun h => ⟨h.1, h.2⟩⟩
  unfold storeAccesses
  rw [hsplit, safe_append, safe_const, List.forall_mem_singleton, stored_safe_iff]
  apply and_congr_right
  intro _
  by_cases henter : EntersSlots drv m outLba
  · simp only [henter, if_true, true_implies]
    unfold Safe
    rw [Trail.forall_log_iff]
    simp only [slotAccesses_safe_iff]
  · simp only [henter, if_false, false_implies]
    exact iff_of_true safe_nil trivial

theorem placeAccesses_safe_iff :
    Safe (placeAccesses drv m name flags kind (lookup drv m parent true false)) ↔
      ∀ outLba, ParentAt drv m parent outLba → StoreFits drv m name outLba := by
  unfold ParentAt
  simp only [← lookup_absent_iff, ← lookup_found_iff]
  rcases lookup drv m parent true false with _ | _ | ⟨outLba, r⟩
  · unfold placeAccesses
    exact iff_of_true safe_nil fun _ h => by simp at h
  · unfold placeAccesses
    simp only
    rw [storeAccesses_safe_iff]
    simp
  · unfold placeAccesses
    simp only
    by_cases hfile : NefsCatalogStruct.kind.get r = kNeFSCatalogKindFile
    · simp only [hfile, if_true]
      refine iff_of_true safe_nil fun _ h => ?_
      rcases h with ⟨r', hr', hkind⟩ | ⟨habs, -⟩
      · cases hr'
        exact absurd hfile hkind
      · cases habs
    · simp only [hfile, if_false]
      rw [storeAccesses_safe_iff]
      constructor
      · intro h outLba' hparent
        rcases hparent with ⟨r', hr', -⟩ | ⟨habs, -⟩
        · cases hr'
          exact h
        · cases habs
      · exact fun h => h outLba (.inl ⟨r, rfl, hfile⟩)

theorem absentAccesses_safe_iff (hlen : 2 ≤ name.length) :
    Safe (absentAccesses drv m stack heap alloc name flags kind) ↔
      alloc = true ∧ ∀ parent, parentName name = some parent → FindFits drv m parent true false ∧
        ∀ outLba, ParentAt drv m parent outLba → StoreFits drv m name outLba := by
  have hn : name.chars ≠ [] := List.length_pos_iff.mp (show 0 < name.length by omega)
  unfold absentAccesses
  simp only
  rw [safe_append, safe_const]
  cases alloc with
  | false =>
      refine iff_of_false (fun h => ?_) fun h => Bool.false_ne_true h.1
      exact absurd (h.1 _ (List.mem_map_of_mem mem_cutParent)) (Nat.not_lt_zero _)
  | true =>
      simp only [if_true, true_and]
      rw [and_iff_right (cutParent_safe (by omega) (Nat.le_succ _))]
      have hbuf : HoldsPath (rtCopyMemorySafe name.bytes heap 0 (name.length + 1) (name.length + 1)) name := by
        intro j hj
        rw [rtCopyMemorySafe, if_neg (Nat.lt_irrefl _), blit_apply_of_mem (Nat.zero_le _) (by omega),
          Nat.sub_zero]
      rw [cutParent_parent hbuf hn (fun _ => hlen) (Nat.lt_succ_self _)]
      cases hp : parentName name with
      | none => exact iff_of_true safe_nil fun _ h => by cases h
      | some parent =>
          have hfits : ∀ a ∈ readName (name.length + 1) parent, a.Safe :=
            readName_safe_iff.mpr (Nat.lt_succ_of_le (parentName_length_le hp))
          simp only [Option.some.injEq, forall_eq']
          rw [safe_append, safe_const, and_iff_right hfits, safe_append, findAccesses_safe_iff,
            placeAccesses_safe_iff]

/-- **`CreateCatalog` keeps to the memory of its names** exactly when its lookups do, the parent's name gets
its memory, and what is stored fits. -/
theorem createAccesses_safe_iff : Safe (createAccesses drv m stack heap alloc name flags kind) ↔
    CreateFits drv m alloc name kind := by
  unfold createAccesses CreateFits
  by_cases hallowed : nameAllowed name kind = true
  · simp only [hallowed, Bool.not_true, Bool.false_eq_true, if_false, true_implies]
    rw [safe_append, findAccesses_safe_iff]
    apply and_congr_right
    intro _
    rw [← lookup_absent_iff]
    rcases lookup drv m name true false with _ | _ | hit
    · exact iff_of_true safe_nil fun h => by cases h
    · simp only [true_implies]
      by_cases hlen : name.length < 2
      · simp only [hlen, if_true]
        exact iff_of_true safe_nil fun h => absurd h (Nat.not_le.mpr hlen)
      · simp only [hlen, if_false]
        rw [imp_iff_right (Nat.le_of_not_lt hlen)]
        exact absentAccesses_safe_iff (Nat.le_of_not_lt hlen)
    · exact iff_of_true safe_nil fun h => by cases h
  · rw [Bool.not_eq_true] at hallowed
    simp only [hallowed, Bool.not_false, if_true]
    exact iff_of_true safe_nil fun h => absurd h Bool.false_ne_true

/-- **The names of paths and records** are kept to the memory they are in exactly when they fit: for every
path and every content of the drive, whatever the memory holds before. -/
theorem names_safe_iff (drv : DriveTrait) (m stack heap : Store) (alloc : Bool) (path : CString) :
    (∀ hidden localSearch, Safe (findAccesses drv m stack path hidden localSearch) ↔
      FindFits drv m path hidden localSearch) ∧
    (∀ flags kind, Safe (createAccesses drv m stack heap alloc path flags kind) ↔
      CreateFits drv m alloc path kind) :=
  ⟨fun _ _ => findAccesses_safe_iff, fun _ _ => createAccesses_safe_iff⟩

/-- A path of 257 characters. -/
def longPath : CString := ⟨List.replicate 257 kNeFSSeparator, fun c hc => by
  rw [List.eq_of_mem_replicate hc]
  decide⟩

/-- Behind a catalog `/x` the creation of `/y` looks for `/`, which is shorter than `/x`; and a local search
for a path of 257 characters begins behind its buffer. -/
theorem names_unsafe :
    (∃ c d', createCatalog (smallDrive 1024) pathX 0 1 (smallDisk 1024) = some (some c, d') ∧
      ¬ Safe (createAccesses (smallDrive 1024) d'.bytes zeros zeros true pathY 0 1)) ∧
    ¬ Safe (findAccesses (smallDrive 1024) (smallDisk 1024).bytes zeros longPath true true) := by
  constructor
  · have hrun : (createCatalog (smallDrive 1024) pathX 0 1 (smallDisk 1024)).bind (fun x =>
        if x.1.isSome ∧ ∃ a ∈ createAccesses (smallDrive 1024) x.2.bytes zeros zeros true pathY 0 1 3, ¬ a.Safe
        then some () else none) = some () := by decide +kernel
    obtain ⟨⟨c, d'⟩, hcall, hunsafe⟩ := Option.bind_eq_some_iff.mp hrun
    split at hunsafe
    · next h =>
        obtain ⟨hsome, a, ha, hbad⟩ := h
        obtain ⟨c, rfl⟩ := Option.isSome_iff_exists.mp hsome
        exact ⟨c, d', hcall, fun hsafe => hbad (hsafe 3 a ha)⟩
    · cases hunsafe
  · rw [findAccesses_safe_iff]
    intro hfits
    have hlocal : SearchesLocal longPath true := by decide +kernel
    have hbound := hfits (by decide +kernel)
    rw [if_pos hlocal] at hbound
    exact absurd hbound.1 (by decide +kernel)

end NeKernel.NeFS
