import Mathlib
import RoundRobin.Formulation.Frame
import RoundRobin.Proofs.Written.Legible

/-! The statements of frames are legible. -/

namespace RoundRobin

open Zimpl Written

namespace Frame

variable {vars : List String}

theorem legible_heading (t : Tournament) : ∀ s ∈ heading t, s.legible vars = true := by
  unfold heading
  cases t.name <;> simp [Statement.legible]

theorem legible_resources (hvars : ApartFromSymbols vars) (t : Tournament) :
    ∀ s ∈ resources t, s.legible vars = true := by
  simp +decide [resources, pairSet, times, hvars.notMem]

theorem legible_sharedArray (t : Tournament) (options : Options) (kind : Kind) :
    ∀ s ∈ sharedArray t options kind, s.legible vars = true := by
  unfold sharedArray
  split
  · simp
  · split <;> simp +decide [VarDecl.nonnegative, isName_tag, isName_sharedArray]

theorem legible_sharedArrays (t : Tournament) (options : Options) :
    ∀ s ∈ sharedArrays t options, s.legible vars = true := by
  unfold sharedArrays
  dsimp only
  split
  · simp
  · refine List.forall_mem_cons.mpr ⟨rfl, List.forall_mem_flatMap.mpr fun kind _ => ?_⟩
    exact legible_sharedArray t options kind

theorem legible_gameVariables (t : Tournament) : ∀ s ∈ gameVariables t, s.legible vars = true := by
  unfold gameVariables
  split <;> simp +decide [VarDecl.binary, times]

theorem legible_schedule (hvars : ApartFromSymbols vars) (options : Options) :
    ∀ s ∈ schedule options, s.legible vars = true := by
  simp +decide [schedule, titled, playedIn, one, Index.over, hvars.notMem, Linear.plus,
    Linear.summands]

theorem legible_fixedCount (hvars : ApartFromSymbols vars) (options : Options) :
    ∀ s ∈ fixedCount options, s.legible vars = true := by
  unfold fixedCount
  split <;> simp +decide [titled, playedIn, times, Index.over, hvars.notMem]

/-- The names of the constraints on odd sets are names. -/
theorem isName_of_mem_oddFamilies {t : Tournament} {options : Options} {family : String × Nat}
    (h : family ∈ oddFamilies t options) : isName family.1 = true := by
  unfold oddFamilies at h
  split at h
  · nomatch h
  · obtain rfl := List.mem_singleton.mp h
    decide
  · obtain ⟨size, -, rfl⟩ := List.mem_map.mp h
    exact isName_append (by decide) (all_isWordChar_toString size) (by decide)

theorem legible_oddFamily (hvars : ApartFromSymbols vars) {name : String}
    (hname : isName name = true)
    (size : Nat) : ∀ s ∈ oddFamily name size, s.legible vars = true := by
  have hsets : isName ("K" ++ toString size) = true :=
    isName_append (by decide) (all_isWordChar_toString size) (by decide)
  have hindices : isName ("I" ++ toString size) = true :=
    isName_append (by decide) (all_isWordChar_toString size) (by decide)
  unfold oddFamily
  dsimp only
  generalize "K" ++ toString size = sets at hsets ⊢
  generalize "I" ++ toString size = indices at hindices ⊢
  simp +decide [titled, eitherWay, playedIn, times, one, Index.over, hvars.notMem, Linear.plus,
    Linear.summands, hname, hsets, hindices]

theorem legible_breakCount (hvars : ApartFromSymbols vars) (t : Tournament) :
    ∀ s ∈ breakCount t, s.legible vars = true := by
  unfold breakCount
  dsimp only
  split <;> simp +decide [titled, playedIn, othersThan, SetTerm.single, one, Index.over,
    hvars.notMem, Linear.plus, Linear.summands]

theorem legible_halves (hvars : ApartFromSymbols vars) (t : Tournament) (options : Options) :
    ∀ s ∈ halves t options, s.legible vars = true := by
  unfold halves
  split <;> simp +decide [titled, eitherWay, playedIn, one, Index.over, hvars.notMem, Linear.plus,
    Linear.summands]

theorem legible_homeGames (hvars : ApartFromSymbols vars) (t : Tournament) :
    ∀ s ∈ homeGames t, s.legible vars = true := by
  unfold homeGames
  dsimp only
  split
  · split <;> simp +decide [titled, playedIn, othersThan, SetTerm.single, times,
      Index.over, hvars.notMem]
  · simp

theorem legible_mirror (hvars : ApartFromSymbols vars) (options : Options) :
    ∀ s ∈ mirror options, s.legible vars = true := by
  unfold mirror
  split <;> simp +decide [titled, playedIn, Index.over, hvars.notMem]

/-- All statements of a frame are legible where none of its symbols is a variable. -/
theorem legible_statements (hvars : ApartFromSymbols vars) (t : Tournament) (options : Options) :
    ∀ s ∈ statements t options, s.legible vars = true := by
  have hodd : ∀ s ∈ (oddFamilies t options).flatMap (fun family => oddFamily family.1 family.2),
      s.legible vars = true := List.forall_mem_flatMap.mpr fun family hfamily =>
    legible_oddFamily hvars (isName_of_mem_oddFamilies hfamily) family.2
  simp only [statements, List.forall_mem_append]
  exact ⟨⟨⟨⟨⟨⟨⟨⟨⟨⟨legible_heading t, legible_resources hvars t⟩, legible_sharedArrays t options⟩,
    legible_gameVariables t⟩, legible_schedule hvars options⟩, legible_fixedCount hvars options⟩,
    hodd⟩,
    legible_breakCount hvars t⟩, legible_halves hvars t options⟩, legible_homeGames hvars t⟩,
    legible_mirror hvars options⟩

end Frame

end RoundRobin
