import Mathlib
import RoundRobin.Proofs.Numbering.Behind
import RoundRobin.Proofs.Written.Legible

/-! The fragments of rules are legible. A violation without subscripts has to be a declared
variable; whatever else a rule writes is told from variables by its subscripts or is a symbol. -/

namespace RoundRobin

open Zimpl Written

variable {vars : List String} {strength : Strength} {rule : Numbered}

namespace Violation

theorem legible_scalar {name : String} (hname : isName name = true) (hmem : name ∈ vars) :
    (Violation.scalar name).Legible vars where
  declarations := by simp [scalar, VarDecl.nonnegative, hname]
  inRow := by simp [scalar, hname, hmem]
  inRow_isTight := rfl
  total := by simp [scalar, hname, hmem]
  total_isTerm := rfl

theorem legible_member {array : String} (harray : isName array = true) (place : Nat) :
    (Violation.member array place).Legible vars where
  declarations := nofun
  inRow := by simp [member, harray]
  inRow_isTight := rfl
  total := by simp [member, harray]
  total_isTerm := rfl

theorem legible_array (hvars : ApartFromSymbols vars) {name : String} (hname : isName name = true)
    {declared : VarIndex} (hdeclared : declared.exact vars = true) {symbols : List String}
    (hne : symbols ≠ []) (hsymbols : symbols ⊆ symbolNames) {index : Index}
    (hindex : index.legible vars = true) :
    (Violation.array name declared symbols index).Legible vars := by
  have hterm : (Linear.var name (symbols.map .name)).legible vars = true := by
    have hall : ∀ symbol ∈ symbols, isName symbol = true ∧ symbol ∉ vars := fun symbol hsymbol =>
      ⟨isName_of_mem_symbolNames (hsymbols hsymbol), hvars.notMem (hsymbols hsymbol)⟩
    simpa [hname, hne] using hall
  refine ⟨?_, hterm, rfl, ?_, rfl⟩
  · simp [array, VarDecl.nonnegative, hname, hdeclared, -VarIndex.exact]
  · rw [array, Linear.legible, hindex, hterm]
    rfl

end Violation

section Games

variable (hvars : ApartFromSymbols vars)
include hvars

/-- The games of two bound teams in the bound slot, as a side counts them. -/
theorem isSum_games {a b : String} (ha : a ∈ symbolNames) (hb : b ∈ symbolNames) (side : Side)
    {slot : Arith} (hslot : slot.legible vars = true) :
    (onSide side (playedIn a b slot) (playedIn b a slot)).IsSum vars :=
  isSum_onSide side (isSum_playedIn (hvars.legible ha) (hvars.legible hb) hslot)
    (isSum_playedIn (hvars.legible hb) (hvars.legible ha) hslot)

theorem SideCap.legible_fragment (cap : SideCap) : (cap.fragment strength rule).Legible vars := by
  have hviolation : (Violation.member "ca1_viol" rule.softPlace).Legible vars :=
    Violation.legible_member (by decide) _
  rw [SideCap.fragment]
  refine Strength.legible_relax (fun _ => hviolation) fun violation h => ?_
  cases hside : cap.side <;>
    simp +decide [rule.isName_name, legible_atMost cap.max h, Index.over, othersThan,
      SetTerm.single, playedIn, hvars.notMem]

theorem OpponentCap.legible_fragment (cap : OpponentCap) :
    (cap.fragment strength rule).Legible vars := by
  have hviolation : (Violation.member "ca2_viol" rule.softPlace).Legible vars :=
    Violation.legible_member (by decide) _
  have hgames : (onSide cap.side (playedIn "t" "m" "s") (playedIn "m" "t" "s")).IsSum vars :=
    isSum_games hvars (by decide) (by decide) cap.side (hvars.legible (by decide))
  rw [OpponentCap.fragment]
  refine Strength.legible_relax (fun _ => hviolation) fun violation h => ?_
  simp +decide [rule.isName_name, legible_atMost cap.max h, Index.over, times, hvars.notMem,
    hgames.legible, hgames.isTight]

theorem legible_slotBack (back : Nat) : (slotBack back).legible vars = true := by
  unfold slotBack
  split <;> simp +decide [hvars.notMem]

/-- A window has a slot, and a side counts games in it. -/
theorem WindowCap.legible_fragment {cap : WindowCap} (hwindow : cap.window ≠ 0) :
    (cap.fragment strength rule).Legible vars := by
  have hends :
      VarIndex.exact vars (.over (.minus "S" (.range 0 (.int (cap.window - 2 : Nat))))) = true := by
    simp +decide
  have hviolation : (Violation.array rule.violationName
      (.over (.minus "S" (.range 0 (.int (cap.window - 2 : Nat))))) ["s"]
      (.over ["s"] (.minus "S" (.range 0 (.int (cap.window - 2 : Nat)))))).Legible vars :=
    Violation.legible_array hvars rule.isName_violationName hends (by decide) (by decide)
      (by simp +decide)
  have hgames : (Linear.plus ((List.range cap.window).map fun back =>
      onSide cap.side (playedIn "t" "m" (slotBack back)) (playedIn "m" "t" (slotBack back)))).IsSum
        vars := by
    refine Linear.IsSum.plus (by simpa using hwindow) fun term hterm => ?_
    obtain ⟨back, -, rfl⟩ := List.mem_map.mp hterm
    exact isSum_games hvars (by decide) (by decide) cap.side (legible_slotBack hvars back)
  rw [WindowCap.fragment]
  refine Strength.legible_relax (fun _ => hviolation) fun violation h => ?_
  simp +decide [rule.isName_name, legible_atMost cap.max h, Index.over, SetTerm.single,
    hvars.notMem, hgames.legible, hgames.isTight]

/-- The violation of a bound on all listed slots together is a variable without subscripts. -/
theorem GroupCap.legible_fragment {cap : GroupCap}
    (hdeclared : cap.scope = .global → strength.isSoft = true → rule.violationName ∈ vars) :
    (cap.fragment strength rule).Legible vars := by
  have hgames : (onSide cap.side (playedIn "m" "n" "s") (playedIn "n" "m" "s")).IsSum vars :=
    isSum_games hvars (by decide) (by decide) cap.side (hvars.legible (by decide))
  unfold GroupCap.fragment
  dsimp only
  split
  · rename_i hscope
    have hviolation : strength.isSoft = true → (Violation.scalar rule.violationName).Legible vars :=
      fun hsoft => Violation.legible_scalar rule.isName_violationName (hdeclared hscope hsoft)
    refine Strength.legible_relax hviolation fun violation h => ?_
    simp +decide [rule.isName_name, legible_atMost cap.max h, hvars.notMem, hgames.legible,
      hgames.isTight]
  · have hviolation : (Violation.array rule.violationName (.over (.ids cap.slots)) ["s"]
        (.over ["s"] (.ids cap.slots))).Legible vars :=
      Violation.legible_array hvars rule.isName_violationName (by simp) (by decide) (by decide)
        (by simp +decide)
    refine Strength.legible_relax (fun _ => hviolation) fun violation h => ?_
    simp +decide [rule.isName_name, legible_atMost cap.max h, Index.over, times, hvars.notMem,
      hgames.legible, hgames.isTight]

/-- Both bounds count the listed meetings, of which there is one. -/
theorem MeetingBound.legible_fragment {bound : MeetingBound} (hmeetings : bound.meetings ≠ [])
    (options : Options) : (bound.fragment options strength rule).Legible vars := by
  have habove : (Violation.member "ga1_viol" rule.softPlace).Legible vars :=
    Violation.legible_member (by decide) _
  have hbelow : (Violation.member "ga1_min_viol" rule.softPlace).Legible vars :=
    Violation.legible_member (by decide) _
  have hgames : (Linear.plus (bound.meetings.map fun game =>
      playedIn (.int game.home) (.int game.away) "s")).IsSum vars := by
    refine Linear.IsSum.plus (by simpa using hmeetings) fun term hterm => ?_
    obtain ⟨game, -, rfl⟩ := List.mem_map.mp hterm
    exact isSum_playedIn rfl rfl (hvars.legible (by decide))
  have hsum : bound.counted.legible vars = true := by
    simp +decide [MeetingBound.counted, Index.over, hgames.legible, hgames.isTight]
  have hmost : (bound.most strength rule).Legible vars :=
    Strength.legible_relax (fun _ => habove) fun violation h => by
      simp [rule.isName_name, hsum, legible_atMost bound.max h]
  have hleast : ∀ violation, Relaxes vars violation → ∀ block ∈
      [Subto.mk (Numbered.nameWith .ga1 (rule.number + 1)) []
        [⟨bound.counted, .ge, atLeast bound.min violation⟩]], block.legible vars = true :=
    fun violation h => by
      simp [Numbered.isName_nameWith, hsum, legible_atLeast bound.min h]
  unfold MeetingBound.fragment MeetingBound.least
  split
  · exact hmost
  · split
    · exact hmost.append (Strength.legible_relax (fun _ => habove) hleast).uncharged
    · exact hmost.append (Strength.legible_relax (fun _ => hbelow) hleast)

/-- The indices of pairs of listed teams read back as they stand. -/
theorem exact_pairsOf (teams : List Int) : (pairsOf teams).exact vars = true := by
  simp +decide [pairsOf, times, hvars.notMem]

theorem Separation.legible_fragment (separation : Separation) :
    (separation.fragment strength rule).Legible vars := by
  have hpairs := exact_pairsOf hvars separation.teams
  have hbound : VarIndex.exact vars (.bound (pairsOf separation.teams)) = true := hpairs
  have hviolation :
      (Violation.array rule.violationName (.bound (pairsOf separation.teams)) ["m", "n"]
      (pairsOf separation.teams)).Legible vars :=
    Violation.legible_array hvars rule.isName_violationName hbound (by decide) (by decide)
      (Bool.and_eq_true_iff.mp hpairs).1
  rw [Separation.fragment]
  refine Strength.legible_relax (fun _ => hviolation) fun violation h => ?_
  simp +decide [rule.isName_name, legible_atLeast (separation.min + 1) h, hpairs, Index.over,
    playedIn, hvars.notMem, -Index.exact]

theorem HomeBalance.legible_fragment (balance : HomeBalance) :
    (balance.fragment strength rule).Legible vars := by
  have hpairs : (SetTerm.builder (pairsOf balance.teams)).exact vars = true := by
    simp +decide [pairsOf, times, hvars.notMem]
  have hset : isName ("FA2_" ++ toString rule.number) = true := rule.isName_pairSet
  unfold HomeBalance.fragment
  dsimp only
  generalize "FA2_" ++ toString rule.number = pairs at hset ⊢
  have hviolation : (Violation.array rule.violationName (.over pairs) ["m", "n"]
      (.over ["m", "n"] pairs)).Legible vars :=
    Violation.legible_array hvars rule.isName_violationName (by simp [hset]) (by decide) (by decide)
      (by simp +decide [hset])
  have hrelaxed : (strength.relax (.array rule.violationName (.over pairs) ["m", "n"]
      (.over ["m", "n"] pairs))
        fun violation => [⟨rule.name, [.over ["m", "n"] pairs, .over ["s"] (.ids balance.slots)],
        [⟨.diff (.var "hg" [.name "m", "s"]) (.var "hg" [.name "n", "s"]), .le,
          atMost balance.limit violation⟩,
          ⟨.diff (.var "hg" [.name "n", "s"]) (.var "hg" [.name "m", "s"]), .le,
            atMost balance.limit violation⟩]⟩]).Legible vars := by
    refine Strength.legible_relax (fun _ => hviolation) fun violation h => ?_
    simp +decide [rule.isName_name, legible_atMost balance.limit h, hset, Index.over, hvars.notMem]
  refine ⟨List.forall_mem_cons.mpr ⟨?_, hrelaxed.declarations⟩, hrelaxed.rows, hrelaxed.charges⟩
  exact Bool.and_eq_true_iff.mpr ⟨hset, hpairs⟩

end Games

theorem isSum_breakOn (hvars : ApartFromSymbols vars) (side : Side) : (breakOn side).IsSum vars :=
  isSum_onSide side (Linear.isSum_of_isTerm (by simp +decide [hvars.notMem]) rfl)
    (Linear.isSum_of_isTerm (by simp +decide [hvars.notMem]) rfl)

theorem TeamBreaks.legible_fragment (hvars : ApartFromSymbols vars) {breaks : TeamBreaks}
    (hdeclared : breaks.countedSlots ≠ [] → strength.isSoft = true → rule.violationName ∈ vars) :
    (breaks.fragment strength rule).Legible vars := by
  have hbreaks := isSum_breakOn hvars breaks.side
  unfold TeamBreaks.fragment
  split
  · exact Fragment.legible_empty vars
  · rename_i hcounted
    have hviolation : strength.isSoft = true → (Violation.scalar rule.violationName).Legible vars :=
      fun hsoft => Violation.legible_scalar rule.isName_violationName (hdeclared hcounted hsoft)
    refine Strength.legible_relax hviolation fun violation h => ?_
    simp +decide [rule.isName_name, legible_atMost breaks.limit h, Index.over, hbreaks.legible,
      hbreaks.isTight]

theorem GroupBreaks.legible_fragment (hvars : ApartFromSymbols vars) {breaks : GroupBreaks}
    (hdeclared : breaks.countedSlots ≠ [] → strength.isSoft = true → rule.violationName ∈ vars) :
    (breaks.fragment strength rule).Legible vars := by
  have hbreaks := isSum_breakOn hvars .both
  unfold GroupBreaks.fragment
  split
  · exact Fragment.legible_empty vars
  · rename_i hcounted
    have hviolation : strength.isSoft = true → (Violation.scalar rule.violationName).Legible vars :=
      fun hsoft => Violation.legible_scalar rule.isName_violationName (hdeclared hcounted hsoft)
    refine Strength.legible_relax hviolation fun violation h => ?_
    simp +decide [rule.isName_name, legible_atMost breaks.limit h, Index.over, times,
      hbreaks.legible, hbreaks.isTight]

end RoundRobin
