import RoundRobin.Proofs.Numbering.Behind
import RoundRobin.Proofs.Meaning.Breaks
import RoundRobin.Proofs.Meaning.Caps
import RoundRobin.Proofs.Meaning.Meetings
import RoundRobin.Proofs.Meaning.Pairs
import RoundRobin.Proofs.Season.Slack

/-! The rows of a numbered rule hold if and only if the rule is kept with the slack that its
violation gives. Which variable that is depends on the kind: some kinds share an array among their
soft rules, the others have a variable for each rule. -/

namespace RoundRobin

open Zimpl

/-- What the rows of a rule ask, with some slack at each place: that it is kept, except that those
of a separation rule weigh each game with its slot. -/
def Demand.AskedWithin (t : Tournament) (tally : Tally) (options : Options) (demand : Demand)
    (slack : Place → Rat) : Prop :=
  match demand with
  | .se1 separation => ∀ pair ∈ unorderedPairs separation.teams,
      separation.min + 1 - slack (.pair pair) ≤ Separation.span t tally pair
  | demand => demand.KeptWithin t tally options slack

theorem Demand.askedWithin_iff {t : Tournament} {tally : Tally} {options : Options}
    {demand : Demand} {slack : Place → Rat} (hteams : ∀ id ∈ demand.teamIds, id ∈ t.teamSet)
    (honce : demand.kind = .se1 →
      ∀ p ∈ t.teamSet.offDiag, ∑ slot ∈ t.slotSet, tally.game p.1 p.2 slot = 1) :
    demand.AskedWithin t tally options slack ↔ demand.KeptWithin t tally options slack := by
  cases demand with
  | se1 separation =>
    refine forall₂_congr fun pair hpair => ?_
    rw [Separation.span_eq_distance (honce rfl) (mem_offDiag_of_mem_unorderedPairs hteams hpair)]
  | _ => exact Iff.rfl

namespace Numbered

/-- A rule on breaks that counts no slot with a break has neither rows nor a violation. -/
def isVoid (rule : Numbered) : Bool :=
  match rule.rule.demand with
  | .br1 breaks => breaks.countedSlots = []
  | .br2 breaks => breaks.countedSlots = []
  | _ => false

/-- The variable that is the violation at a place. -/
def violation (rule : Numbered) : Place → String × Tuple
  | .whole => match rule.rule.demand with
    | .ca1 _ => ("ca1_viol", Tuple.one rule.softPlace)
    | .ca2 _ => ("ca2_viol", Tuple.one rule.softPlace)
    | .ga1 _ => ("ga1_viol", Tuple.one rule.softPlace)
    | _ => (rule.violationName, [])
  | .below => ("ga1_min_viol", Tuple.one rule.softPlace)
  | .slot slot => (rule.violationName, Tuple.one slot)
  | .pair pair => (rule.violationName, Tuple.two pair)

/-- By how much an assignment lets a rule be violated at a place. -/
def slack (rule : Numbered) (values : Assignment) (place : Place) : Rat :=
  match rule.rule.strength with
  | .hard => 0
  | .soft _ =>
    if rule.isVoid then 0 else values (rule.violation place).1 (rule.violation place).2

/-- What the names that a rule declares stand for. -/
def Known (rule : Numbered) (t : Tournament) (env : Env) : Prop :=
  match rule.rule.demand with
  | .ca1 _ | .ca2 _ | .ga1 _ => True
  | .ca3 cap => rule.rule.strength.isSoft = true →
      env.Ranges rule.violationName Tuple.one (cap.ends t)
  | .ca4 cap => rule.rule.strength.isSoft = true →
    match cap.scope with
    | .global => env.Ranges rule.violationName (fun _ : Unit => []) Finset.univ
    | .every => env.Ranges rule.violationName Tuple.one cap.slots.toFinset
  | .se1 separation => rule.rule.strength.isSoft = true →
      env.Ranges rule.violationName Tuple.two (unorderedPairs separation.teams)
  | .br1 _ | .br2 _ => rule.rule.strength.isSoft = true → rule.isVoid = false →
      env.Ranges rule.violationName (fun _ : Unit => []) Finset.univ
  | .fa2 balance =>
      (SetTerm.name rule.pairSet).Lists env Tuple.two (unorderedPairs balance.teams) ∧
      (rule.rule.strength.isSoft = true →
        env.Ranges rule.violationName Tuple.two (unorderedPairs balance.teams))

variable {t : Tournament} {options : Options} {env : Env} {values : Assignment} {tally : Tally}
  {rule : Numbered}

theorem slack_eq_ite (place : Place) : rule.slack values place = if rule.isVoid then 0 else
    rule.rule.strength.slack values (rule.violation place).1 (rule.violation place).2 := by
  unfold slack Strength.slack
  cases rule.rule.strength with
  | hard => exact (ite_self 0).symm
  | soft penalty => rfl

theorem slack_eq (hvoid : rule.isVoid = false) (place : Place) :
    rule.slack values place = rule.rule.strength.slack values (rule.violation place).1
      (rule.violation place).2 := by
  rw [slack_eq_ite, hvoid]
  rfl

theorem slack_eq_zero (hvoid : rule.isVoid = true) (place : Place) :
    rule.slack values place = 0 := by
  rw [slack_eq_ite, hvoid]
  rfl

/-- The soft rules of a kind that shares its violations have a place in them. -/
theorem shared_of_soft (scene : Scene t options env) (hmem : rule ∈ t.numbered) {kind : Kind}
    (hkind : rule.rule.kind = kind) (hshared : kind ∈ [Kind.ca1, .ca2, .ga1])
    (hskip : rule.isSkipped options = false) (hsoft : rule.rule.strength.isSoft = true) :
    env.Ranges (kind.stem ++ "_viol") Tuple.one (t.softPlaces kind) ∧
      (rule.softPlace : Int) ∈ t.softPlaces kind := by
  have hplace := Tournament.softPlace_le hmem hsoft
  rw [hkind] at hplace
  have hoptions : options.soft = true := by simpa [isSkipped, Rule.isSkipped, hsoft] using hskip
  refine ⟨(scene.shared hoptions kind hshared (by omega)).2, ?_⟩
  rw [Tournament.softPlaces, mem_places]
  omega

theorem ga1_min_of_soft (scene : Scene t options env) (hmem : rule ∈ t.numbered)
    (hkind : rule.rule.kind = .ga1) (hskip : rule.isSkipped options = false)
    (hsoft : rule.rule.strength.isSoft = true) (hseparate : options.minPenalty = .separate) :
    env.Ranges "ga1_min_viol" Tuple.one (t.softPlaces .ga1) := by
  have hplace := Tournament.softPlace_le hmem hsoft
  rw [hkind] at hplace
  exact scene.sharedMin (by simpa [isSkipped, Rule.isSkipped, hsoft] using hskip)
    hseparate (by omega)

theorem hasBreaks_of_mem (hmem : rule ∈ t.numbered)
    (hkind : rule.rule.kind = .br1 ∨ rule.rule.kind = .br2) : t.hasBreaks = true :=
  List.any_eq_true.mpr ⟨rule.rule, Tournament.rule_mem hmem, by simpa using hkind⟩

theorem hasBalance_of_mem (hmem : rule ∈ t.numbered) (hkind : rule.rule.kind = .fa2) :
    t.hasBalance = true :=
  List.any_eq_true.mpr ⟨rule.rule, Tournament.rule_mem hmem, by simpa using hkind⟩

theorem slack_eq_of_violation (hvoid : rule.isVoid = false) {place : Place} {name : String}
    {subscripts : Tuple} (h : rule.violation place = (name, subscripts)) :
    rule.slack values place = rule.rule.strength.slack values name subscripts := by
  rw [slack_eq hvoid, h]

theorem two_le_window {cap : WindowCap} (hdemand : rule.rule.demand = .ca3 cap)
    (hcheck : rule.check options = .ok ()) : 2 ≤ cap.window := by
  rw [check, hdemand] at hcheck
  obtain ⟨_, -, hcheck⟩ := bind_eq_ok hcheck
  by_contra hwindow
  rw [if_pos (by omega)] at hcheck
  cases hcheck

/-- What the rows of a rule ask, and that they refer to no subscript that is not declared. -/
theorem subtos_mean (scene : Scene t options env) (shows : values.Shows t tally)
    (hsymbols : env.symbols = []) (hwell : t.WellFormed) (hmem : rule ∈ t.numbered)
    (hcheck : rule.check options = .ok ()) (hskip : rule.isSkipped options = false)
    (known : rule.Known t env) : Subto.AllMean env values (rule.fragment options).subtos
      (rule.rule.demand.AskedWithin t tally options (rule.slack values)) := by
  have hrule := Tournament.rule_mem hmem
  have hteams := hwell.teamIds rule.rule hrule
  have hslots := hwell.slotIds rule.rule hrule
  have hfragment : rule.fragment options = _ := if_neg (by rw [hskip]; decide)
  rw [hfragment]
  rw [Known] at known
  cases hdemand : rule.rule.demand with
  | ca1 cap =>
    rw [hdemand] at hteams hslots
    have hkind : rule.rule.kind = .ca1 := congrArg Demand.kind hdemand
    have hslack : rule.slack values .whole = _ :=
      slack_eq_of_violation (by rw [isVoid, hdemand]) (by rw [violation, hdemand])
    simp only [Demand.AskedWithin, Demand.KeptWithin, hslack]
    exact cap.subtos_mean scene shows hsymbols (hwell.oneSided _ hrule cap hdemand) hteams hslots
      (shared_of_soft scene hmem hkind (by decide) hskip)
  | ca2 cap =>
    rw [hdemand] at hteams hslots
    have hkind : rule.rule.kind = .ca2 := congrArg Demand.kind hdemand
    have hslack : rule.slack values .whole = _ :=
      slack_eq_of_violation (by rw [isVoid, hdemand]) (by rw [violation, hdemand])
    simp only [Demand.AskedWithin, Demand.KeptWithin, hslack]
    exact cap.subtos_mean scene shows hsymbols
      (fun id hid => hteams id (List.mem_append_left _ hid))
      (fun id hid => hteams id (List.mem_append_right _ hid)) hslots
      (shared_of_soft scene hmem hkind (by decide) hskip)
  | ca3 cap =>
    rw [hdemand] at hteams known
    have hslack : ∀ slot, rule.slack values (.slot slot) = _ := fun slot =>
      slack_eq_of_violation (by rw [isVoid, hdemand]) rfl
    simp only [Demand.AskedWithin, Demand.KeptWithin, hslack]
    exact cap.subtos_mean scene shows hsymbols (two_le_window hdemand hcheck)
      (fun id hid => hteams id (List.mem_append_left _ hid))
      (fun id hid => hteams id (List.mem_append_right _ hid)) known
  | ca4 cap =>
    rw [hdemand] at hteams hslots known
    have hwhole : rule.slack values .whole = _ :=
      slack_eq_of_violation (by rw [isVoid, hdemand]) (by rw [violation, hdemand])
    have hslot : ∀ slot, rule.slack values (.slot slot) = _ := fun slot =>
      slack_eq_of_violation (by rw [isVoid, hdemand]) rfl
    simp only [Demand.AskedWithin, Demand.KeptWithin, hwhole, hslot]
    refine cap.subtos_mean scene shows hsymbols
      (fun id hid => hteams id (List.mem_append_left _ hid))
      (fun id hid => hteams id (List.mem_append_right _ hid)) hslots ?_ ?_
    · intro hscope hsoft
      have known := known hsoft
      rwa [hscope] at known
    · intro hscope hsoft
      have known := known hsoft
      rwa [hscope] at known
  | ga1 bound =>
    rw [hdemand] at hteams hslots
    have hkind : rule.rule.kind = .ga1 := congrArg Demand.kind hdemand
    have hwhole : rule.slack values .whole = _ :=
      slack_eq_of_violation (by rw [isVoid, hdemand]) (by rw [violation, hdemand])
    have hplace : rule.slack values options.minPenalty.place = rule.rule.strength.slack values
        options.minPenalty.violation (Tuple.one rule.softPlace) := by
      refine slack_eq_of_violation (by rw [isVoid, hdemand]) ?_
      cases options.minPenalty
      · rw [MinPenalty.place, violation, hdemand]
        rfl
      · rfl
    have hgames := bound.value?_games scene shows hsymbols hslots fun game hgame =>
      ⟨hteams _ (List.mem_flatMap.mpr ⟨game, hgame, .head _⟩),
        hteams _ (List.mem_flatMap.mpr ⟨game, hgame, .tail _ (.head _)⟩)⟩
    simp only [Demand.AskedWithin, Demand.KeptWithin, hwhole, hplace]
    exact bound.subtos_mean_of_games hgames (shared_of_soft scene hmem hkind (by decide) hskip)
      (ga1_min_of_soft scene hmem hkind hskip)
  | se1 separation =>
    rw [hdemand] at hteams known
    have hslack : ∀ pair, rule.slack values (.pair pair) = _ := fun pair =>
      slack_eq_of_violation (by rw [isVoid, hdemand]) rfl
    simp only [Demand.AskedWithin, hslack]
    exact separation.subtos_mean scene shows hsymbols hteams known
  | br1 breaks =>
    rw [hdemand] at hteams hslots known
    have hkind : rule.rule.kind = .br1 := congrArg Demand.kind hdemand
    have hslack : rule.slack values .whole = if breaks.countedSlots = [] then 0 else
        rule.rule.strength.slack values rule.violationName [] := by
      simp only [slack_eq_ite, isVoid, violation, hdemand, decide_eq_true_eq]
    simp only [Demand.AskedWithin, Demand.KeptWithin, hslack]
    exact breaks.subtos_mean scene shows hsymbols (hasBreaks_of_mem hmem (.inl hkind)) hteams hslots
      fun hsoft hcounted => known hsoft (by rw [isVoid, hdemand]; exact decide_eq_false hcounted)
  | br2 breaks =>
    rw [hdemand] at hteams hslots known
    have hkind : rule.rule.kind = .br2 := congrArg Demand.kind hdemand
    have hslack : rule.slack values .whole = if breaks.countedSlots = [] then 0 else
        rule.rule.strength.slack values rule.violationName [] := by
      simp only [slack_eq_ite, isVoid, violation, hdemand, decide_eq_true_eq]
    simp only [Demand.AskedWithin, Demand.KeptWithin, hslack]
    exact breaks.subtos_mean scene shows hsymbols (hasBreaks_of_mem hmem (.inr hkind)) hteams hslots
      fun hsoft hcounted => known hsoft (by rw [isVoid, hdemand]; exact decide_eq_false hcounted)
  | fa2 balance =>
    rw [hdemand] at hteams hslots known
    have hkind : rule.rule.kind = .fa2 := congrArg Demand.kind hdemand
    have hslack : ∀ pair, rule.slack values (.pair pair) = _ := fun pair =>
      slack_eq_of_violation (by rw [isVoid, hdemand]) rfl
    simp only [Demand.AskedWithin, Demand.KeptWithin, hslack]
    exact balance.subtos_mean scene shows hsymbols (hasBalance_of_mem hmem hkind) hteams hslots
      known.1 known.2

/-- No row of a rule refers to subscripts that are not declared. -/
theorem subtos_within (scene : Scene t options env) (shows : values.Shows t tally)
    (hsymbols : env.symbols = []) (hwell : t.WellFormed) (hmem : rule ∈ t.numbered)
    (hcheck : rule.check options = .ok ()) (hskip : rule.isSkipped options = false)
    (known : rule.Known t env) : ∀ block ∈ (rule.fragment options).subtos, block.Within env :=
  (subtos_mean scene shows hsymbols hwell hmem hcheck hskip known).within

/-- The rows of a rule hold if and only if it is kept, in case of a separation rule where each game
takes place once. -/
theorem subtos_hold (scene : Scene t options env) (shows : values.Shows t tally)
    (hsymbols : env.symbols = []) (hwell : t.WellFormed) (hmem : rule ∈ t.numbered)
    (hcheck : rule.check options = .ok ()) (hskip : rule.isSkipped options = false)
    (honce : rule.rule.kind = .se1 →
      ∀ p ∈ t.teamSet.offDiag, ∑ slot ∈ t.slotSet, tally.game p.1 p.2 slot = 1)
    (known : rule.Known t env) :
    (∀ block ∈ (rule.fragment options).subtos, block.Holds env values) ↔
      rule.rule.demand.KeptWithin t tally options (rule.slack values) :=
  (subtos_mean scene shows hsymbols hwell hmem hcheck hskip known).holds_iff.trans
    (Demand.askedWithin_iff (hwell.teamIds _ (Tournament.rule_mem hmem)) honce)

end Numbered

end RoundRobin
