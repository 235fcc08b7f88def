import NeKernel.FSKit.NeFS
import NeKernel.NeKit.AsciiUtils

/-!
# Internet addresses

`IPFactory::IpCheckVersion4` keeps the number of digits since the last dot and the number of dots. It
takes no digit above 5, lets a fourth digit pass, and never asks whether there is a digit between two
dots or what the digits are worth. What it accepts is settled first (`ipCheckVersion4_iff`), then where
that is what an address is (`checkRight_iff`).
-/

namespace NeKernel.NetworkKit

open NeKit
open NeFS (CString)

def kIP4DotCharacter : UInt8 := 0x2E

/-- The loop of `IpCheckVersion4`, from the characters that are left on. The counters are `Int32`. -/
def ipCheckFrom : List UInt8 → Int → Int → Bool
  | [], _, dotCnter => dotCnter = 3
  | c :: cs, cnter, dotCnter =>
      if c = kIP4DotCharacter then ipCheckFrom cs 0 (int32 (dotCnter + 1))
      else if charValue c > 0x35 ∨ charValue c < 0x30 then false
      else if !rtIsAlnum (charValue c) then false
      else if cnter > 3 then false
      else ipCheckFrom cs (int32 (cnter + 1)) dotCnter

/-- `IPFactory::IpCheckVersion4`. -/
def ipCheckVersion4 : Option CString → Bool
  | none => false
  | some ip => ipCheckFrom ip.chars 0 0

/-! ## What an address is -/

/-- The value of a group of digits. -/
def decimal (group : List UInt8) : Nat := group.foldl (fun n c => 10 * n + (c.toNat - 0x30)) 0

/-- One to three digits that are worth at most 255. -/
structure IsGroup (group : List UInt8) : Prop where
  some_digit : group ≠ []
  three : group.length ≤ 3
  digits : ∀ c ∈ group, 0x30 ≤ c ∧ c ≤ 0x39
  value : decimal group ≤ 255

/-- Four such groups with single dots between them. -/
structure IsAddress (ip : List UInt8) : Prop where
  four : (ip.splitOn kIP4DotCharacter).length = 4
  groups : ∀ group ∈ ip.splitOn kIP4DotCharacter, IsGroup group

/-! ## What the check accepts -/

/-- A group as the loop lets it pass. -/
def PassesGroup (group : List UInt8) : Prop := group.length ≤ 4 ∧ ∀ c ∈ group, 0x30 ≤ c ∧ c ≤ 0x35

/-- Groups that pass, and three dots as an `Int32` counts them. -/
structure Passes (ip : List UInt8) : Prop where
  groups : ∀ group ∈ ip.splitOn kIP4DotCharacter, PassesGroup group
  dots : int32 ((ip.splitOn kIP4DotCharacter).length - 1) = 3

variable {c : UInt8} {cs group ip : List UInt8} {cnter dots : Int}

/-- The characters that the loop counts. -/
theorem counted_iff : (¬ (charValue c > 0x35 ∨ charValue c < 0x30) ∧ rtIsAlnum (charValue c) = true) ↔
    0x30 ≤ c ∧ c ≤ 0x35 := by
  have hall : ∀ i : Fin 256, (¬ (charValue (UInt8.ofFin i) > 0x35 ∨ charValue (UInt8.ofFin i) < 0x30) ∧
      rtIsAlnum (charValue (UInt8.ofFin i)) = true) ↔ 0x30 ≤ UInt8.ofFin i ∧ UInt8.ofFin i ≤ 0x35 := by
    decide +kernel
  exact hall c.toFin

theorem splitOn_dot (cs : List UInt8) : (kIP4DotCharacter :: cs).splitOn kIP4DotCharacter =
    [] :: cs.splitOn kIP4DotCharacter := by
  rw [List.splitOn, List.splitOnP_cons_eq_if_modifyHead, if_pos (beq_self_eq_true _)]
  rfl

theorem splitOn_digit (hc : c ≠ kIP4DotCharacter) (cs : List UInt8) :
    (c :: cs).splitOn kIP4DotCharacter = (cs.splitOn kIP4DotCharacter).modifyHead (List.cons c) := by
  rw [List.splitOn, List.splitOnP_cons_eq_if_modifyHead, if_neg (by simpa using hc)]
  rfl

/-- A string in groups: the first one, and the others. -/
theorem exists_groups (cs : List UInt8) : ∃ group groups, cs.splitOn kIP4DotCharacter = group :: groups :=
  List.exists_cons_of_ne_nil (List.splitOnP_ne_nil _ cs)

/-- What the loop accepts when it has counted `cnter` digits and `dots` dots. -/
theorem ipCheckFrom_iff {groups : List (List UInt8)} (hg : cs.splitOn kIP4DotCharacter = group :: groups)
    (hcnter : 0 ≤ cnter ∧ cnter ≤ 4) (hdots : int32 dots = dots) :
    ipCheckFrom cs cnter dots = true ↔
      (group.length + cnter ≤ 4 ∧ ∀ c ∈ group, 0x30 ≤ c ∧ c ≤ 0x35) ∧
      (∀ g ∈ groups, PassesGroup g) ∧ int32 (dots + groups.length) = 3 := by
  induction cs generalizing cnter dots group groups with
  | nil =>
      obtain ⟨rfl, rfl⟩ := List.cons.inj hg
      rw [ipCheckFrom, decide_eq_true_iff]
      simp [hdots, hcnter.2]
  | cons c cs ih =>
      obtain ⟨group', groups', hg'⟩ := exists_groups cs
      rw [ipCheckFrom]
      by_cases hdot : c = kIP4DotCharacter
      · subst hdot
        rw [splitOn_dot, hg'] at hg
        obtain ⟨rfl, rfl⟩ := List.cons.inj hg
        rw [if_pos rfl, ih hg' ⟨Int.le_refl 0, by omega⟩ (by unfold int32; omega)]
        have hsum : int32 (int32 (dots + 1) + groups'.length) =
            int32 (dots + (group' :: groups').length) := by
          rw [List.length_cons]
          unfold int32
          omega
        rw [hsum, List.forall_mem_cons, Int.add_zero, PassesGroup]
        simp [hcnter.2, and_assoc]
      · rw [splitOn_digit hdot, hg', List.modifyHead_cons] at hg
        obtain ⟨rfl, rfl⟩ := List.cons.inj hg
        rw [if_neg hdot]
        by_cases hcount : 0x30 ≤ c ∧ c ≤ 0x35
        · obtain ⟨hlow, halnum⟩ := counted_iff.mpr hcount
          rw [if_neg hlow, if_neg (by simp [halnum])]
          by_cases hfull : cnter > 3
          · rw [if_pos hfull]
            refine iff_of_false Bool.false_ne_true fun h => ?_
            have hlen := h.1.1
            rw [List.length_cons] at hlen
            omega
          · have hstep : int32 (cnter + 1) = cnter + 1 := by
              unfold int32
              omega
            rw [if_neg hfull, hstep, ih hg' ⟨by omega, by omega⟩ hdots, List.forall_mem_cons,
              List.length_cons]
            simp only [hcount, true_and]
            have hlen : (group'.length : Int) + (cnter + 1) ≤ 4 ↔
                ((group'.length + 1 : Nat) : Int) + cnter ≤ 4 := by omega
            rw [hlen]
        · refine iff_of_false ?_ fun h => hcount (h.1.2 c List.mem_cons_self)
          intro hyes
          split at hyes
          · cases hyes
          · next hlow =>
              split at hyes
              · cases hyes
              · next halnum => exact hcount (counted_iff.mp ⟨hlow, by simpa using halnum⟩)

/-- What the check accepts. -/
theorem ipCheckVersion4_iff (ip : CString) : ipCheckVersion4 (some ip) = true ↔ Passes ip.chars := by
  obtain ⟨group, groups, hg⟩ := exists_groups ip.chars
  have hdots : int32 ((group :: groups).length - 1) = int32 (0 + groups.length) := by
    rw [List.length_cons]
    congr 1
    omega
  rw [ipCheckVersion4, ipCheckFrom_iff hg ⟨Int.le_refl 0, by decide⟩ rfl]
  constructor
  · rintro ⟨⟨hlen, hfirst⟩, hrest, hthree⟩
    refine ⟨?_, ?_⟩
    · rw [hg, List.forall_mem_cons]
      exact ⟨⟨by omega, hfirst⟩, hrest⟩
    · rw [hg, hdots]
      exact hthree
  · rintro ⟨hgroups, hthree⟩
    rw [hg, List.forall_mem_cons] at hgroups
    rw [hg, hdots] at hthree
    exact ⟨⟨by have := hgroups.1.1; omega, hgroups.1.2⟩, hgroups.2, hthree⟩

/-! ## Where that is an address -/

/-- The check says what the string is. -/
def CheckRight (ip : CString) : Prop := ipCheckVersion4 (some ip) = true ↔ IsAddress ip.chars

/-- The characters of the groups are those that are no dots. -/
theorem forall_mem_groups {P : UInt8 → Prop} (cs : List UInt8) :
    (∀ g ∈ cs.splitOn kIP4DotCharacter, ∀ c ∈ g, P c) ↔ ∀ c ∈ cs, c ≠ kIP4DotCharacter → P c := by
  induction cs with
  | nil => simp
  | cons c cs ih =>
      obtain ⟨group, groups, hg⟩ := exists_groups cs
      rw [List.forall_mem_cons, ← ih]
      by_cases hdot : c = kIP4DotCharacter
      · subst hdot
        rw [splitOn_dot, List.forall_mem_cons]
        simp
      · rw [splitOn_digit hdot, hg, List.modifyHead_cons, List.forall_mem_cons, List.forall_mem_cons,
          List.forall_mem_cons, and_assoc]
        simp [hdot]

/-- An address passes when it has no digit above 5. -/
theorem IsAddress.passes_iff (h : IsAddress ip) : Passes ip ↔ ∀ c ∈ ip, c ≤ 0x35 := by
  constructor
  · intro hp c hc
    by_cases hdot : c = kIP4DotCharacter
    · subst hdot
      decide
    · exact (forall_mem_groups (P := fun c => c ≤ 0x35) ip).mp
        (fun g hg c hc => ((hp.groups g hg).2 c hc).2) c hc hdot
  · intro hlow
    refine ⟨fun g hg => ⟨by have := (h.groups g hg).three; omega, fun c hc => ?_⟩, ?_⟩
    · exact ⟨((h.groups g hg).digits c hc).1, (forall_mem_groups (P := fun c => c ≤ 0x35) ip).mpr
        (fun c hc _ => hlow c hc) g hg c hc⟩
    · rw [h.four]
      decide

/-- What passes is an address when there are three dots, and between them one to three digits each that
are worth at most 255. -/
theorem Passes.isAddress_iff (h : Passes ip) :
    IsAddress ip ↔ (ip.splitOn kIP4DotCharacter).length = 4 ∧
      ∀ g ∈ ip.splitOn kIP4DotCharacter, g ≠ [] ∧ g.length ≤ 3 ∧ decimal g ≤ 255 := by
  constructor
  · exact fun ha => ⟨ha.four, fun g hg =>
      ⟨(ha.groups g hg).some_digit, (ha.groups g hg).three, (ha.groups g hg).value⟩⟩
  · rintro ⟨hfour, hgroups⟩
    refine ⟨hfour, fun g hg => ?_⟩
    obtain ⟨hne, hthree, hvalue⟩ := hgroups g hg
    exact ⟨hne, hthree, fun c hc =>
      ⟨((h.groups g hg).2 c hc).1, UInt8.le_trans ((h.groups g hg).2 c hc).2 (by decide)⟩, hvalue⟩

/-- **The check is right** on a string exactly when it is no address with a digit above 5, and no string
of digits up to 5 in groups of at most four, with three dots as an `Int32` counts them, of which a group is
empty, has four digits or is worth more than 255 or which has more than three dots. -/
theorem checkRight_iff (ip : CString) :
    CheckRight ip ↔
      (IsAddress ip.chars → ∀ c ∈ ip.chars, c ≤ 0x35) ∧
      (Passes ip.chars → (ip.chars.splitOn kIP4DotCharacter).length = 4 ∧
        ∀ g ∈ ip.chars.splitOn kIP4DotCharacter, g ≠ [] ∧ g.length ≤ 3 ∧ decimal g ≤ 255) := by
  rw [CheckRight, ipCheckVersion4_iff]
  constructor
  · intro h
    exact ⟨fun ha => ha.passes_iff.mp (h.mpr ha), fun hp => hp.isAddress_iff.mp (h.mp hp)⟩
  · rintro ⟨hlow, hgroups⟩
    exact ⟨fun hp => hp.isAddress_iff.mpr (hgroups hp), fun ha => ha.passes_iff.mpr (hlow ha)⟩

/-- `"192.168.0.1"`. -/
def homeAddress : CString :=
  ⟨[0x31, 0x39, 0x32, 0x2E, 0x31, 0x36, 0x38, 0x2E, 0x30, 0x2E, 0x31], by simp⟩

/-- An address with a nine is refused. -/
theorem home_refused :
    IsAddress homeAddress.chars ∧ ipCheckVersion4 (some homeAddress) = false ∧ ¬ CheckRight homeAddress := by
  have haddress : IsAddress homeAddress.chars := by
    refine ⟨by decide, fun g hg => ?_⟩
    have hgroups : ∀ g ∈ homeAddress.chars.splitOn kIP4DotCharacter,
        g ≠ [] ∧ g.length ≤ 3 ∧ (∀ c ∈ g, 0x30 ≤ c ∧ c ≤ 0x39) ∧ decimal g ≤ 255 := by decide +kernel
    obtain ⟨hne, hthree, hdigits, hvalue⟩ := hgroups g hg
    exact ⟨hne, hthree, hdigits, hvalue⟩
  have hno : ipCheckVersion4 (some homeAddress) = false := by decide
  refine ⟨haddress, hno, fun h => ?_⟩
  rw [h.mpr haddress] at hno
  cases hno

end NeKernel.NetworkKit
