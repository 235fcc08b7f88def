import NeKernel.Tools.MkfsHefs

/-!
# The options of the tools

The tools join their arguments into one string and look for the marker of an option, `-key=`, in it
(`build_args`, `get_option`). As long as no argument has a blank in it, the search comes to the same as a
search in one argument after the other: what is found is what stands behind the marker in the first
argument that has it anywhere (`getOption_eq`), at its start or in the middle of its value.
-/

namespace NeKernel.Tools

/-- `-key=`. -/
def marker (key : List UInt8) : List UInt8 := chars ['-'] ++ key ++ chars ['=']

/-- At most one argument starts with the marker. -/
def OccursOnce (argv : List (List UInt8)) (key : List UInt8) : Prop :=
  ((argv.drop 1).filter (marker key).isPrefixOf).length ≤ 1

instance {argv : List (List UInt8)} {key : List UInt8} : Decidable (OccursOnce argv key) :=
  inferInstanceAs (Decidable (_ ≤ _))

/-- The text behind the marker of the argument that starts with it; without such an argument, nothing. -/
structure ReadsOption (argv : List (List UInt8)) (key : List UInt8) : Prop where
  there : ∀ arg ∈ argv.drop 1, marker key <+: arg →
    getOption (buildArgs argv) key = arg.drop (marker key).length
  missing : (∀ arg ∈ argv.drop 1, ¬ marker key <+: arg) → getOption (buildArgs argv) key = []

/-- The first argument that has the marker anywhere. -/
def firstMarked (argv : List (List UInt8)) (key : List UInt8) : Option (List UInt8) :=
  (argv.drop 1).find? fun arg => (behind (marker key) arg).isSome

/-- The text that is meant: behind the marker of the first argument that starts with it. -/
def optionText (argv : List (List UInt8)) (key : List UInt8) : List UInt8 :=
  match (argv.drop 1).find? (marker key).isPrefixOf with
  | some arg => arg.drop (marker key).length
  | none => []

variable {pat s rest key arg : List UInt8} {args argv : List (List UInt8)}

/-! ## The search in one argument after the other -/

/-- A marker without a blank does not reach over one. -/
theorem prefix_blank_iff (hpat : 0x20 ∉ pat) : pat <+: s ++ 0x20 :: rest ↔ pat <+: s := by
  constructor
  · intro h
    have hblank : s ++ [0x20] <+: s ++ 0x20 :: rest :=
      (List.prefix_append_right_inj s).mpr ⟨rest, rfl⟩
    rcases List.prefix_or_prefix_of_prefix h hblank with hshort | hlong
    · rcases List.prefix_concat_iff.mp hshort with rfl | hs
      · exact absurd (List.mem_append_right _ List.mem_cons_self) hpat
      · exact hs
    · exact absurd (hlong.subset (List.mem_append_right _ List.mem_cons_self)) hpat
  · exact fun h => h.trans (List.prefix_append _ _)

/-- Up to a blank the search goes as if nothing stood behind it. -/
theorem behind_blank (hpat : 0x20 ∉ pat) (hne : pat ≠ []) :
    behind pat (s ++ 0x20 :: rest) =
      match behind pat s with
      | some r => some (r ++ 0x20 :: rest)
      | none => behind pat rest := by
  induction s with
  | nil =>
      have hno : pat.isPrefixOf (0x20 :: rest) = false := by
        rw [Bool.eq_false_iff]
        intro h
        have hnil := (prefix_blank_iff (s := []) hpat).mp (List.isPrefixOf_iff_prefix.mp h)
        exact hne (List.prefix_nil.mp hnil)
      have hempty : pat.isEmpty = false := by
        rw [Bool.eq_false_iff]
        exact fun h => hne (List.isEmpty_iff.mp h)
      simp only [List.nil_append, behind, hno, hempty, Bool.false_eq_true, if_false]
  | cons c s ih =>
      have hiff : pat <+: c :: s ++ 0x20 :: rest ↔ pat <+: c :: s := prefix_blank_iff hpat
      rw [List.cons_append] at hiff ⊢
      rw [behind, behind]
      by_cases hpre : pat <+: c :: s
      · rw [if_pos (List.isPrefixOf_iff_prefix.mpr (hiff.mpr hpre)),
          if_pos (List.isPrefixOf_iff_prefix.mpr hpre), ← List.cons_append,
          List.drop_append_of_le_length hpre.length_le]
      · rw [if_neg fun h => hpre (hiff.mp (List.isPrefixOf_iff_prefix.mp h)),
          if_neg fun h => hpre (List.isPrefixOf_iff_prefix.mp h)]
        exact ih

/-- What is found is an end of the string. -/
theorem behind_suffix {r : List UInt8} (h : behind pat s = some r) : r <:+ s := by
  induction s with
  | nil =>
      rw [behind] at h
      split at h
      · cases h
        exact List.suffix_refl []
      · cases h
  | cons c s ih =>
      rw [behind] at h
      split at h
      · cases h
        exact List.drop_suffix _ _
      · exact (ih h).trans (List.suffix_cons c s)

/-- A string that starts with the marker is found by its start. -/
theorem behind_split (h : pat <+: s) : behind pat s = some (s.drop pat.length) := by
  cases s with
  | nil => rw [List.prefix_nil.mp h, behind, List.isEmpty_nil, if_pos rfl, List.drop_nil]
  | cons c s => rw [behind, if_pos (List.isPrefixOf_iff_prefix.mpr h)]

/-- In the joined arguments the first one that has the marker decides. -/
theorem behind_join (hpat : 0x20 ∉ pat) (hne : pat ≠ []) (args : List (List UInt8)) :
    (∃ r rest, args.findSome? (behind pat) = some r ∧
      behind pat (args.flatMap fun arg => arg ++ chars [' ']) = some (r ++ 0x20 :: rest)) ∨
    (args.findSome? (behind pat) = none ∧
      behind pat (args.flatMap fun arg => arg ++ chars [' ']) = none) := by
  induction args with
  | nil =>
      refine .inr ⟨rfl, ?_⟩
      rw [List.flatMap_nil, behind, if_neg fun h => hne (List.isEmpty_iff.mp h)]
  | cons arg args ih =>
      have hblank : chars [' '] = [0x20] := rfl
      rw [List.findSome?_cons, List.flatMap_cons, hblank, List.append_assoc, List.singleton_append,
        behind_blank hpat hne]
      cases behind pat arg with
      | some r => exact .inl ⟨r, _, rfl, rfl⟩
      | none => exact ih

section
variable (hkey : 0x20 ∉ key) (hargs : ∀ arg ∈ argv.drop 1, 0x20 ∉ arg)
include hkey

theorem marker_noBlank : 0x20 ∉ marker key := by
  intro h
  rcases List.mem_append.mp h with h | h
  · rcases List.mem_append.mp h with h | h
    · exact absurd h (by decide)
    · exact hkey h
  · exact absurd h (by decide)

include hargs

/-- **The search** finds what stands behind the marker in the first argument that has it anywhere. -/
theorem getOption_eq : getOption (buildArgs argv) key =
    ((argv.drop 1).findSome? (behind (marker key))).getD [] := by
  have hne : marker key ≠ [] := List.append_ne_nil_of_right_ne_nil _ (by decide)
  rw [getOption, buildArgs, ← marker]
  rcases behind_join (marker_noBlank hkey) hne (argv.drop 1) with ⟨r, rest, hfirst, hfound⟩ | ⟨hfirst, hfound⟩
  · obtain ⟨arg, harg, hr⟩ := List.exists_of_findSome?_eq_some hfirst
    have hblank : ∀ c ∈ r, (c != 0x20) = true := fun c hc => by
      rw [bne_iff_ne]
      rintro rfl
      exact hargs arg harg ((behind_suffix hr).subset hc)
    have hany : (r ++ 0x20 :: rest).any (· == 0x20) = true :=
      List.any_eq_true.mpr ⟨0x20, List.mem_append_right _ List.mem_cons_self, rfl⟩
    rw [hfound, hfirst]
    show (if _ then _ else _) = r
    rw [if_pos hany, List.takeWhile_append_of_pos hblank, List.takeWhile_cons_of_neg (by decide),
      List.append_nil]
  · rw [hfound, hfirst]
    rfl

end

/-! ## When it is right -/

/-- The argument that decides, and what is read from it. -/
theorem findSome?_firstMarked : (argv.drop 1).findSome? (behind (marker key)) =
    (firstMarked argv key).bind (behind (marker key)) := by
  rw [firstMarked]
  induction argv.drop 1 with
  | nil => rfl
  | cons arg args ih =>
      rw [List.findSome?_cons, List.find?_cons]
      cases h : behind (marker key) arg with
      | some r => simp only [Option.isSome_some, Option.bind_some, h]
      | none => exact ih

/-- With one argument at most that starts with the marker, the text that is meant is what is to be read. -/
theorem readsOption_iff (hone : OccursOnce argv key) :
    ReadsOption argv key ↔ getOption (buildArgs argv) key = optionText argv key := by
  cases hfind : (argv.drop 1).find? (marker key).isPrefixOf with
  | none =>
      have hmissing : ∀ arg ∈ argv.drop 1, ¬ marker key <+: arg := fun arg harg hpre =>
        absurd (List.isPrefixOf_iff_prefix.mpr hpre) (List.find?_eq_none.mp hfind arg harg)
      rw [optionText, hfind]
      exact ⟨fun h => h.missing hmissing, fun h => ⟨fun arg harg hpre =>
        absurd hpre (hmissing arg harg), fun _ => h⟩⟩
  | some first =>
      have hfirst := List.mem_of_find?_eq_some hfind
      have hpre : marker key <+: first := List.isPrefixOf_iff_prefix.mp (List.find?_some hfind)
      have honly : ∀ arg ∈ argv.drop 1, marker key <+: arg → arg = first := by
        intro arg harg hpre'
        have hin := List.mem_filter.mpr ⟨harg, List.isPrefixOf_iff_prefix.mpr hpre'⟩
        have hin' := List.mem_filter.mpr ⟨hfirst, List.isPrefixOf_iff_prefix.mpr hpre⟩
        rw [OccursOnce] at hone
        rcases hl : (argv.drop 1).filter (marker key).isPrefixOf with _ | ⟨one, _ | ⟨two, rest⟩⟩
        · rw [hl] at hin
          cases hin
        · rw [hl, List.mem_singleton] at hin hin'
          rw [hin, hin']
        · rw [hl, List.length_cons, List.length_cons] at hone
          omega
      rw [optionText, hfind]
      constructor
      · exact fun h => h.there first hfirst hpre
      · intro h
        refine ⟨fun arg harg hpre' => ?_, fun hmissing => absurd hpre (hmissing first hfirst)⟩
        rw [honly arg harg hpre']
        exact h

/-- The first argument with the marker in it, when it starts with the marker, is the first that does. -/
theorem optionText_of_firstMarked (hfirst : firstMarked argv key = some arg) (hpre : marker key <+: arg) :
    optionText argv key = arg.drop (marker key).length := by
  have hfind : (argv.drop 1).find? (marker key).isPrefixOf = some arg := by
    obtain ⟨-, before, after, hsplit, hbefore⟩ := List.find?_eq_some_iff_append.mp hfirst
    refine List.find?_eq_some_iff_append.mpr
      ⟨List.isPrefixOf_iff_prefix.mpr hpre, before, after, hsplit, fun other hother => ?_⟩
    rw [Bool.not_eq_true', Bool.eq_false_iff]
    intro hother'
    have hmarked := hbefore other hother
    rw [behind_split (List.isPrefixOf_iff_prefix.mp hother')] at hmarked
    cases hmarked
  rw [optionText, hfind]

/-- **An option is read** as it is meant exactly when the first argument with its marker in it starts with
the marker, or has the text that is meant behind it anyway. -/
theorem getOption_right_iff (hkey : 0x20 ∉ key) (hargs : ∀ arg ∈ argv.drop 1, 0x20 ∉ arg)
    (hone : OccursOnce argv key) :
    ReadsOption argv key ↔ ∀ arg, firstMarked argv key = some arg →
      marker key <+: arg ∨ behind (marker key) arg = some (optionText argv key) := by
  rw [readsOption_iff hone, getOption_eq hkey hargs, findSome?_firstMarked]
  cases hfirst : firstMarked argv key with
  | none =>
      have hmissing : (argv.drop 1).find? (marker key).isPrefixOf = none := by
        rw [List.find?_eq_none]
        intro arg harg hpre
        have hno := List.find?_eq_none.mp hfirst arg harg
        rw [behind_split (List.isPrefixOf_iff_prefix.mp hpre)] at hno
        exact hno rfl
      rw [optionText, hmissing]
      exact ⟨fun _ arg habs => absurd habs (Option.some_ne_none arg).symm, fun _ => rfl⟩
  | some arg =>
      have hfind := hfirst
      rw [firstMarked] at hfind
      have hmarked := List.find?_some hfind
      obtain ⟨r, hr⟩ := Option.isSome_iff_exists.mp hmarked
      rw [Option.bind_some, hr]
      show r = optionText argv key ↔ _
      constructor
      · rintro hr' arg' harg'
        cases harg'
        exact .inr (hr.trans (congrArg some hr'))
      · intro h
        rcases h arg rfl with hpre | htext
        · rw [optionText_of_firstMarked hfirst hpre]
          exact Option.some.inj (hr.symm.trans (behind_split hpre))
        · exact Option.some.inj (hr.symm.trans htext)

/-- The sector size of the sample command line is read. -/
theorem getOption_right_iff_sample : ReadsOption sampleArgv (chars ['s']) :=
  (getOption_right_iff (by decide) (by decide) (by decide)).mpr fun arg harg => by
    have hfirst : firstMarked sampleArgv (chars ['s']) = some (chars ['-', 's', '=', '5', '1', '2']) := by
      decide
    cases hfirst.symm.trans harg
    exact .inl (by decide)

/-- `mkfs.hefs -L=my-b=4096 -b=1024`. -/
def labelArgv : List (List UInt8) :=
  [chars ['m', 'k', 'f', 's', '.', 'h', 'e', 'f', 's'],
    chars ['-', 'L', '=', 'm', 'y', '-', 'b', '=', '4', '0', '9', '6'],
    chars ['-', 'b', '=', '1', '0', '2', '4']]

/-- The value of another option has the marker in it. -/
theorem label_taken_for_start : OccursOnce labelArgv (chars ['b']) ∧
    (∀ arg ∈ labelArgv.drop 1, 0x20 ∉ arg) ∧
    getOption (buildArgs labelArgv) (chars ['b']) = chars ['4', '0', '9', '6'] ∧
    ¬ ReadsOption labelArgv (chars ['b']) := by
  refine ⟨by decide, by decide, by decide, fun h => ?_⟩
  have hread := h.there (chars ['-', 'b', '=', '1', '0', '2', '4']) (by decide) (by decide)
  exact absurd hread (by decide)

end NeKernel.Tools
