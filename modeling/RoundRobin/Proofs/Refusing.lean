import RoundRobin.Proofs.Meaning.Blocks
import RoundRobin.Proofs.Numbering.Locality

/-! Tournaments that cannot be formulated. Some rules have no form in a program: capacities with a
lower bound, windows of less than two slots, blocks with gaps, and bounds on meetings that list
none. The first such rule is the failure. Where soft rules are passed over they are refused as well,
but for those on meetings. -/

namespace RoundRobin

/-- The least number of games that a capacity rule asks for. -/
def Demand.minGames? : Demand → Option Nat
  | .ca1 cap => some cap.min
  | .ca2 cap => some cap.min
  | .ca3 cap => some cap.min
  | .ca4 cap => some cap.min
  | _ => none

/-- Whether a rule cannot be formulated, with soft rules or without. -/
def Rule.IsRefused (soft : Bool) (rule : Rule) : Prop :=
  match rule.demand with
  | .ca1 cap => cap.min ≠ 0
  | .ca2 cap => cap.min ≠ 0
  | .ca3 cap => cap.min ≠ 0 ∨ cap.window < 2
  | .ca4 cap => cap.min ≠ 0
  | .ga1 bound => bound.meetings = [] ∧ ¬ (rule.strength.isSoft = true ∧ soft = false)
  | .br2 breaks => ¬ IsInterval breaks.slots
  | .se1 _ | .br1 _ | .fa2 _ => False

/-- The failure of a rule behind others that cannot be formulated, and how it reads. -/
inductive Rule.Refused (soft : Bool) (earlier : List Rule) (rule : Rule) : Failure → String → Prop
  | min {min : Nat} (hmin : rule.demand.minGames? = some min) (h : min ≠ 0) :
    Refused soft earlier rule (.unsupportedAttribute rule.kind "min" (toString min))
      ("unhandled min=\"" ++ toString min ++ "\" in " ++ rule.kind.tag)
  | window {cap : WindowCap} (hdemand : rule.demand = .ca3 cap) (hmin : cap.min = 0)
    (h : cap.window < 2) :
    Refused soft earlier rule (.unsupportedAttribute .ca3 "intp" (toString cap.window))
      ("unhandled intp=\"" ++ toString cap.window ++ "\" in CA3")
  | gaps {breaks : GroupBreaks} {block : List Int} (hdemand : rule.demand = .br2 breaks)
    (h : ¬ IsInterval breaks.slots) (hsorted : block.Pairwise (· < ·))
    (hmem : ∀ slot, slot ∈ block ↔ slot ∈ breaks.slots) :
    Refused soft earlier rule (.structural (.slotsWithGaps .br2 block))
      ("invalid instance structure: BR2 slots " ++ idsText block ++ " are not consecutive")
  | noMeetings {bound : MeetingBound} (hdemand : rule.demand = .ga1 bound) (h : bound.meetings = [])
    (hkept : rule.strength.isSoft = true → soft = true) :
    Refused soft earlier rule (.structural (.noMeetings .ga1 (numberBehind earlier rule)))
      ("invalid instance structure: GA1 #" ++ toString (numberBehind earlier rule)
        ++ " lists no meetings")

namespace Rule

variable {soft : Bool} {earlier : List Rule} {rule : Rule} {failure : Failure} {message : String}

/-- The failure of a refused rule reads as said. -/
theorem Refused.message_eq (h : rule.Refused soft earlier failure message) :
    failure.message = message := by
  cases h with
  | min hmin hpos =>
    unfold Failure.message
    simp only [String.reduceAppend]
  | window hdemand hmin hwindow =>
    unfold Failure.message Kind.tag
    simp only [String.reduceAppend, String.append_assoc]
  | gaps hdemand hgaps hsorted hmem =>
    unfold Failure.message Defect.message Kind.tag
    simp only [String.reduceAppend, ← String.append_assoc]
  | noMeetings hdemand hnone hkept =>
    unfold Failure.message Defect.message Kind.tag
    simp only [String.reduceAppend, ← String.append_assoc]

theorem IsRefused.exists_refused (h : rule.IsRefused soft) (earlier : List Rule) :
    ∃ failure message, rule.Refused soft earlier failure message := by
  have hleast : ∀ min, rule.demand.minGames? = some min → min ≠ 0 →
      ∃ failure message, rule.Refused soft earlier failure message :=
    fun _ hmin hpos => ⟨_, _, .min hmin hpos⟩
  unfold IsRefused at h
  cases hdemand : rule.demand with
  | ca1 cap | ca2 cap | ca4 cap =>
    rw [hdemand] at h
    exact hleast cap.min (by rw [hdemand]; rfl) h
  | ca3 cap =>
    rw [hdemand] at h
    by_cases hmin : cap.min = 0
    · exact ⟨_, _, .window hdemand hmin (h.resolve_left (not_not.mpr hmin))⟩
    · exact hleast cap.min (by rw [hdemand]; rfl) hmin
  | ga1 bound =>
    rw [hdemand] at h
    refine ⟨_, _, .noMeetings hdemand h.1 fun hsoft => ?_⟩
    exact (Bool.not_eq_false _).mp fun hleft => h.2 ⟨hsoft, hleft⟩
  | br2 breaks =>
    rw [hdemand] at h
    exact ⟨_, _, .gaps hdemand h breaks.pairwise_block fun _ => breaks.mem_block⟩
  | se1 separation | br1 breaks | fa2 balance =>
    rw [hdemand] at h
    exact h.elim

end Rule

section Checks

variable {failure : Failure}

theorem checkMin_eq_ok_iff (kind : Kind) {min : Nat} : checkMin kind min = .ok () ↔ ¬ min ≠ 0 := by
  rw [checkMin, not_not]
  split <;> simp_all

theorem checkMin_eq_error_iff {kind : Kind} {min : Nat} : checkMin kind min = .error failure ↔
    min ≠ 0 ∧ failure = .unsupportedAttribute kind "min" (toString min) := by
  rw [checkMin]
  split <;> simp_all [eq_comm]

theorem WindowCap.check_eq_ok_iff {cap : WindowCap} :
    cap.check = .ok () ↔ ¬ (cap.min ≠ 0 ∨ cap.window < 2) := by
  rw [check, bind_eq_ok_iff, not_or, ← checkMin_eq_ok_iff .ca3]
  constructor
  · rintro ⟨⟨⟩, hmin, hwindow⟩
    exact ⟨hmin, fun hsmall => by rw [if_pos hsmall] at hwindow; cases hwindow⟩
  · exact fun ⟨hmin, hwindow⟩ => ⟨(), hmin, if_neg hwindow⟩

/-- The lower bound is looked at before the window. -/
theorem WindowCap.check_of_min {cap : WindowCap} (h : cap.min ≠ 0) :
    cap.check = .error (.unsupportedAttribute .ca3 "min" (toString cap.min)) := by
  rw [check, checkMin, if_neg h]
  rfl

theorem WindowCap.check_of_window {cap : WindowCap} (hmin : cap.min = 0) (h : cap.window < 2) :
    cap.check = .error (.unsupportedAttribute .ca3 "intp" (toString cap.window)) := by
  rw [check, checkMin, if_pos hmin, if_pos h]
  rfl

theorem GroupBreaks.check_eq_ok_iff {breaks : GroupBreaks} :
    breaks.check = .ok () ↔ IsInterval breaks.slots := by
  rw [check, ← breaks.isConsecutive_block]
  split <;> simp_all

end Checks

namespace Numbered

variable {options : Options} {earlier : List Rule} {rule : Rule} {failure : Failure}
  {message : String}

theorem isSkipped_behind (earlier : List Rule) : (behind earlier rule).isSkipped options = true ↔
    rule.strength.isSoft = true ∧ options.soft = false := by
  simp [isSkipped, Rule.isSkipped, behind]

theorem check_behind_eq_ok_iff :
    (behind earlier rule).check options = .ok () ↔ ¬ rule.IsRefused options.soft := by
  have hrule : (behind earlier rule).rule = rule := rfl
  unfold check Rule.IsRefused
  rw [hrule]
  cases rule.demand with
  | ca1 cap | ca2 cap | ca4 cap => exact checkMin_eq_ok_iff _
  | ca3 cap => exact cap.check_eq_ok_iff
  | ga1 bound =>
    dsimp only
    rw [← isSkipped_behind earlier]
    split <;> simp_all
  | br2 breaks => exact breaks.check_eq_ok_iff.trans not_not.symm
  | se1 separation | br1 breaks | fa2 balance => simp

/-- The lower bound of a capacity is looked at before anything else. -/
theorem check_behind_of_min {min : Nat} (hmin : rule.demand.minGames? = some min) (h : min ≠ 0) :
    (behind earlier rule).check options =
      .error (.unsupportedAttribute rule.kind "min" (toString min)) := by
  have hrule : (behind earlier rule).rule = rule := rfl
  have hfails : ∀ kind,
      checkMin kind min = .error (.unsupportedAttribute kind "min" (toString min)) :=
    fun kind => checkMin_eq_error_iff.mpr ⟨h, rfl⟩
  rw [check, hrule, Rule.kind]
  cases hdemand : rule.demand with
  | ca1 cap | ca2 cap | ca4 cap =>
    rw [hdemand] at hmin
    obtain rfl := Option.some.inj hmin
    exact hfails _
  | ca3 cap =>
    rw [hdemand] at hmin
    obtain rfl := Option.some.inj hmin
    exact cap.check_of_min h
  | _ =>
    rw [hdemand] at hmin
    cases hmin

/-- A rule that is refused has no form in the program. -/
theorem check_behind_of_refused (h : rule.Refused options.soft earlier failure message) :
    (behind earlier rule).check options = .error failure := by
  have hrule : (behind earlier rule).rule = rule := rfl
  cases h with
  | min hmin hpos => exact check_behind_of_min hmin hpos
  | window hdemand hmin hwindow =>
    rw [check, hrule, hdemand]
    exact WindowCap.check_of_window hmin hwindow
  | @gaps breaks block hdemand hgaps hsorted hmem =>
    have hblock : breaks.block = block :=
      eq_of_pairwise_of_mem_iff breaks.pairwise_block hsorted fun slot =>
        breaks.mem_block.trans (hmem slot).symm
    rw [check, hrule, hdemand]
    dsimp only
    rw [GroupBreaks.check, if_neg (mt breaks.isConsecutive_block.mp hgaps), hblock]
  | noMeetings hdemand hnone hkept =>
    rw [check, hrule, hdemand]
    dsimp only
    rw [number_behind]
    refine if_pos ⟨hnone, ?_⟩
    rw [Bool.not_eq_true', Bool.eq_false_iff, Ne, isSkipped_behind]
    rintro ⟨hsoft, hleft⟩
    rw [hkept hsoft] at hleft
    cases hleft

theorem check_behind_eq_error_iff : (behind earlier rule).check options = .error failure ↔
    rule.Refused options.soft earlier failure failure.message := by
  refine ⟨fun h => ?_, check_behind_of_refused⟩
  have hrefused : rule.IsRefused options.soft := by
    by_contra hform
    rw [check_behind_eq_ok_iff.mpr hform] at h
    exact nomatch h
  -- The check gives one failure, so it is the one that the rule is refused with.
  obtain ⟨other, message, hother⟩ := hrefused.exists_refused earlier
  obtain rfl : other = failure := Except.error.inj ((check_behind_of_refused hother).symm.trans h)
  rwa [hother.message_eq]

/-- The first rule that is refused is the failure. -/
theorem forM_check_allBehind_eq_error_iff {rules : List Rule} :
    (allBehind earlier rules).forM (check options) = .error failure ↔
      ∃ before rule after, rules = before ++ rule :: after ∧
        (∀ other ∈ before, ¬ other.IsRefused options.soft) ∧
        rule.Refused options.soft (earlier ++ before) failure failure.message := by
  induction rules generalizing earlier with
  | nil => exact iff_of_false nofun fun ⟨before, rule, after, h, _⟩ => by simp at h
  | cons first rules ih =>
    show (check options (behind earlier first) >>= fun _ =>
      (allBehind (earlier ++ [first]) rules).forM (check options)) = .error failure ↔ _
    rw [bind_eq_error_iff, check_behind_eq_error_iff]
    constructor
    · rintro (hfirst | ⟨⟨⟩, hfirst, hrest⟩)
      · exact ⟨[], first, rules, rfl, nofun, by rwa [List.append_nil]⟩
      · obtain ⟨before, rule, after, rfl, hbefore, hrule⟩ := ih.mp hrest
        refine ⟨first :: before, rule, after, rfl, List.forall_mem_cons.mpr
          ⟨check_behind_eq_ok_iff.mp hfirst, hbefore⟩, ?_⟩
        rwa [List.append_assoc] at hrule
    · rintro ⟨before, rule, after, hrules, hbefore, hrule⟩
      cases before with
      | nil =>
        obtain ⟨rfl, rfl⟩ := List.cons.inj hrules
        rw [List.append_nil] at hrule
        exact .inl hrule
      | cons other before =>
        obtain ⟨rfl, rfl⟩ := List.cons.inj hrules
        obtain ⟨hfirst, hbefore⟩ := List.forall_mem_cons.mp hbefore
        refine .inr ⟨(), check_behind_eq_ok_iff.mpr hfirst, ih.mpr
          ⟨before, rule, after, rfl, hbefore, ?_⟩⟩
        rwa [List.append_assoc]

end Numbered

/-- Rules that differ at most in strength, and only if they are refused whatever their strength. -/
def Rule.Restrengthened (a b : Rule) : Prop :=
  a.demand = b.demand ∧ (a.strength = b.strength ∨ a.kind ∈ [.ca1, .ca2, .ca3, .ca4, .br2])

namespace Numbered

variable {options : Options}

theorem check_restrengthened {earlier others : List Rule} {a b : Rule} (h : a.Restrengthened b)
    (hunits : unitsOf a.kind earlier = unitsOf a.kind others) :
    (behind earlier a).check options = (behind others b).check options := by
  obtain ⟨hdemand, hstrength⟩ := h
  have hfirst : (behind earlier a).rule.demand = b.demand := hdemand
  have hsecond : (behind others b).rule.demand = b.demand := rfl
  have hkind : a.kind = b.kind := congrArg Demand.kind hdemand
  have hnumber : (behind earlier a).number = (behind others b).number := by
    rw [behind, behind, hunits, hkind]
  unfold check
  rw [hfirst, hsecond, hnumber]
  cases hcase : b.demand with
  | ga1 bound =>
    have hga1 : a.kind = .ga1 := hkind.trans (congrArg Demand.kind hcase)
    have hsame : a.strength = b.strength := hstrength.resolve_right (by rw [hga1]; decide)
    have hskip : (behind earlier a).isSkipped options = (behind others b).isSkipped options := by
      rw [isSkipped, isSkipped]
      exact congrArg (fun strength => strength.isSoft && !options.soft) hsame
    rw [hskip]
  | _ => rfl

theorem forM_check_restrengthened {rules rules' : List Rule}
    (h : List.Forall₂ Rule.Restrengthened rules rules') {earlier others : List Rule}
    (hunits : ∀ kind, unitsOf kind earlier = unitsOf kind others) :
    (allBehind earlier rules).forM (check options) =
      (allBehind others rules').forM (check options) := by
  induction h generalizing earlier others with
  | nil => rfl
  | @cons a b rules rules' hab _ ih =>
    have hsame : ∀ kind,
        unitsOf kind (earlier ++ [a]) = unitsOf kind (others ++ [b]) := fun kind => by
      have hkind : a.kind = b.kind := congrArg Demand.kind hab.1
      rw [unitsOf_append, unitsOf_append, hunits, unitsOf, unitsOf, hkind, hab.1]
      rfl
    show (check options (behind earlier a) >>= fun _ => _) =
      check options (behind others b) >>= fun _ => _
    rw [check_restrengthened hab (hunits _), ih hsame]

end Numbered

namespace Tournament

variable {t : Tournament} {options : Options} {failure : Failure}

theorem exists_formulate_iff : (∃ program, t.formulate options = .ok program) ↔
    ∀ rule ∈ t.rules, ¬ rule.IsRefused options.soft := by
  have hcheck : ∀ rule ∈ t.numbered,
      (rule.check options = .ok () ↔ ¬ rule.rule.IsRefused options.soft) := fun rule hmem => by
    obtain ⟨before, after, -, hrule⟩ := Numbered.mem_allBehind hmem
    rw [hrule]
    exact Numbered.check_behind_eq_ok_iff
  rw [← t.map_rule_numbered, List.forall_mem_map, ← forall₂_congr hcheck]
  exact ⟨fun ⟨_, h⟩ => (of_formulate h).2, fun h => ⟨_, formulate_eq_ok h⟩⟩

/-- When a tournament cannot be formulated, with which failure, and what that does not depend on. -/
structure FailsAtFirst (t : Tournament) (options : Options) : Prop where
  fails : (∃ failure, t.formulate options = .error failure) ↔
    ∃ rule ∈ t.rules, rule.IsRefused options.soft
  first : ∀ failure, t.formulate options = .error failure ↔
    ∃ earlier rule later, t.rules = earlier ++ rule :: later ∧
      (∀ other ∈ earlier, ¬ other.IsRefused options.soft) ∧
      rule.Refused options.soft earlier failure failure.message
  /-- No other option has any influence. -/
  softOnly : ∀ other : Options, other.soft = options.soft → ∀ failure,
    t.formulate other = .error failure ↔ t.formulate options = .error failure
  /-- But for rules on meetings, strength has no influence, nor whether the rule is passed over. -/
  strength : ∀ rules, List.Forall₂ Rule.Restrengthened t.rules rules → ∀ failure,
    (t.withRules rules).formulate options = .error failure ↔ t.formulate options = .error failure

/-- A tournament is refused for the first of its rules that has no form in a program. -/
theorem fails_at_first (t : Tournament) (options : Options) : t.FailsAtFirst options := by
  refine ⟨?_, fun failure => ?_, fun other hsoft failure => ?_, fun rules hrules failure => ?_⟩
  · rw [exists_error_iff, exists_formulate_iff]
    simp only [not_forall, not_not, exists_prop]
  · rw [formulate_eq_error_iff]
    exact Numbered.forM_check_allBehind_eq_error_iff
  · rw [formulate_eq_error_iff, formulate_eq_error_iff, Numbered.check_eq_of_soft hsoft]
  · rw [formulate_eq_error_iff, formulate_eq_error_iff]
    exact iff_of_eq (congrArg (· = _) (Numbered.forM_check_restrengthened hrules fun _ => rfl).symm)

/-- A rule that is passed over keeps its two numbers, and the rule behind it fails by the third. -/
example : (Tournament.mk none [0, 1] [0, 1] false
      [⟨.soft 1, .ga1 ⟨1, 1, [0], []⟩⟩, ⟨.hard, .ga1 ⟨0, 1, [0], []⟩⟩]).formulate
        { soft := false } =
    .error (.structural (.noMeetings .ga1 3)) := rfl

end Tournament

end RoundRobin
