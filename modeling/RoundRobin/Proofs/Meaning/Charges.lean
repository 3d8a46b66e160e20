import RoundRobin.Proofs.Meaning.Declarations

/-! What a rule costs, and what its violations may be. The charges of a rule add up to its penalty
for each unit of what its places give way by, and the variables that it declares are not
negative. -/

namespace RoundRobin

open Zimpl

namespace Numbered

/-- A rule gives way by a variable of its own, with a member for each of its places. -/
structure Owns (rule : Numbered) (t : Tournament) (options : Options) (env : Env) {α : Type}
    (violation : Violation) (tuple : α → Tuple) (members : Finset α)
    (place : α → Place) : Prop where
  relaxes : ∃ subtos,
    (rule.fragment options).charges = (rule.rule.strength.relax violation subtos).charges ∧
    Program.varDecls (rule.fragment options).declarations =
      Program.varDecls (rule.rule.strength.relax violation subtos).declarations
  spans : violation.Spans env rule.violationName tuple members
  ranges : rule.rule.strength.isSoft = true → env.Ranges rule.violationName tuple members
  injective : Function.Injective place
  places : rule.rule.demand.places t options = members.image place
  violation : ∀ a, rule.violation (place a) = (rule.violationName, tuple a)

variable {t : Tournament} {options : Options} {env : Env} {values : Assignment} {rule : Numbered}

theorem relaxes_of_declare {fragment : Fragment} {strength : Strength} {violation : Violation}
    {subtos : Option Linear → List Subto} {sets : List Statement}
    (h : fragment = (strength.relax violation subtos).declare sets)
    (hsets : Program.varDecls sets = []) :
    ∃ subtos, fragment.charges = (strength.relax violation subtos).charges ∧
      Program.varDecls fragment.declarations =
        Program.varDecls (strength.relax violation subtos).declarations := by
  refine ⟨subtos, by rw [h]; rfl, ?_⟩
  rw [h, Fragment.declare, Program.varDecls_append, hsets, List.nil_append]

theorem relaxes_of_eq {fragment : Fragment} {strength : Strength} {violation : Violation}
    {subtos : Option Linear → List Subto} (h : fragment = strength.relax violation subtos) :
    ∃ subtos, fragment.charges = (strength.relax violation subtos).charges ∧
      Program.varDecls fragment.declarations =
        Program.varDecls (strength.relax violation subtos).declarations :=
  ⟨subtos, by rw [h], by rw [h]⟩

theorem exists_owns (scene : Scene t options env) (hsymbols : env.symbols = [])
    (hcheck : rule.check options = .ok ()) (hskip : rule.isSkipped options = false)
    (hvoid : rule.isVoid = false) (hkind : rule.rule.kind ∉ [Kind.ca1, .ca2, .ga1])
    (known : rule.Known t env) : ∃ (α : Type) (violation : Violation) (tuple : α → Tuple)
      (members : Finset α) (place : α → Place),
      rule.Owns t options env violation tuple members place := by
  have hslot : env.symbols.lookup "s" = none := by simp [hsymbols]
  have hslots : Function.Injective Place.slot := fun _ _ => Place.slot.inj
  have hpairs : Function.Injective Place.pair := fun _ _ => Place.pair.inj
  have hwhole : Function.Injective fun _ : Unit => Place.whole := fun _ _ _ => rfl
  have hfragment := fragment_of_not_skipped hskip
  rw [Known] at known
  rw [isVoid] at hvoid
  cases hdemand : rule.rule.demand with
  | ca1 _ | ca2 _ | ga1 _ => exact absurd (by simp [Rule.kind, hdemand, Demand.kind]) hkind
  | ca3 cap =>
    rw [hdemand] at hfragment known
    dsimp only at hfragment
    unfold WindowCap.fragment at hfragment
    exact ⟨_, _, _, _, _, relaxes_of_eq hfragment,
      Violation.spans_slots (WindowCap.lists_ends scene (two_le_window hdemand hcheck)) hslot,
      known, hslots, by rw [hdemand]; rfl, fun _ => rfl⟩
  | ca4 cap =>
    rw [hdemand] at hfragment known
    dsimp only at hfragment known
    unfold GroupCap.fragment at hfragment
    cases hscope : cap.scope with
    | global =>
      rw [hscope] at hfragment known
      exact ⟨_, _, _, _, _, relaxes_of_eq hfragment, Violation.spans_scalar _ env, known, hwhole,
        by simp [hdemand, Demand.places, hscope], fun _ => by rw [violation, hdemand]⟩
    | every =>
      rw [hscope] at hfragment known
      exact ⟨_, _, _, _, _, relaxes_of_eq hfragment,
        Violation.spans_slots (SetTerm.lists_ids env cap.slots) hslot, known, hslots,
        by simp [hdemand, Demand.places, hscope], fun _ => rfl⟩
  | se1 separation =>
    rw [hdemand] at hfragment known
    dsimp only at hfragment
    unfold Separation.fragment at hfragment
    have hruns := runs_pairsOf hsymbols separation.teams
    obtain ⟨order, horder, hselect⟩ := runs_pairsOf hsymbols separation.teams
    have hdeclared : VarIndex.select? env (.bound (pairsOf separation.teams)) = _ := hselect
    exact ⟨_, _, _, _, _, relaxes_of_eq hfragment, Violation.spans_pairs horder hdeclared hruns,
      known, hpairs, by rw [hdemand]; rfl, fun _ => rfl⟩
  | br1 breaks =>
    rw [hdemand] at hfragment known hvoid
    have hcounted : breaks.countedSlots ≠ [] := of_decide_eq_false hvoid
    dsimp only at hfragment
    rw [TeamBreaks.fragment, if_neg hcounted] at hfragment
    exact ⟨_, _, _, _, _, relaxes_of_eq hfragment, Violation.spans_scalar _ env,
      fun hsoft => known hsoft (by rw [isVoid, hdemand]; exact hvoid), hwhole,
      by simp [hdemand, Demand.places], fun _ => by rw [violation, hdemand]⟩
  | br2 breaks =>
    rw [hdemand] at hfragment known hvoid
    have hcounted : breaks.countedSlots ≠ [] := of_decide_eq_false hvoid
    dsimp only at hfragment
    rw [GroupBreaks.fragment, if_neg hcounted] at hfragment
    exact ⟨_, _, _, _, _, relaxes_of_eq hfragment, Violation.spans_scalar _ env,
      fun hsoft => known hsoft (by rw [isVoid, hdemand]; exact hvoid), hwhole,
      by simp [hdemand, Demand.places], fun _ => by rw [violation, hdemand]⟩
  | fa2 balance =>
    rw [hdemand] at hfragment known
    dsimp only at hfragment
    unfold HomeBalance.fragment at hfragment
    have hruns : (Index.over ["m", "n"] (SetTerm.name rule.pairSet)).Runs env Tuple.two
        (fun q => (env.bind "m" q.1).bind "n" q.2) (unorderedPairs balance.teams) :=
      Index.runs_two known.1 (by simp [hsymbols]) (by simp [hsymbols]) (by decide)
    obtain ⟨order, horder, hselect⟩ := known.1.select?_over
    exact ⟨_, _, _, _, _, relaxes_of_declare hfragment rfl,
      Violation.spans_pairs horder hselect hruns, known.2, hpairs, by rw [hdemand]; rfl,
      fun _ => rfl⟩

/-- What a rule pays for is what it gives way by, whether it is hard or soft. -/
theorem penalty_mul_slack (hvoid : rule.isVoid = false) {place : Place} {name : String}
    {subscripts : Tuple} (h : rule.violation place = (name, subscripts)) :
    (rule.rule.strength.penalty * rule.slack values place : Rat) =
      rule.rule.strength.penalty * values name subscripts := by
  rw [slack_eq_of_violation hvoid h]
  cases rule.rule.strength with
  | hard => simp [Strength.penalty]
  | soft penalty => rfl

theorem value?_member {array : String} {place : Nat} {members : Finset Int}
    (h : env.Ranges array Tuple.one members ∧ (place : Int) ∈ members) :
    (Violation.member array place).total.value? env values =
      some (values array (Tuple.one place)) :=
  h.1.value? h.2 rfl

theorem charges_member {array : String} {subtos : Option Linear → List Subto}
    {members : Finset Int} (hvoid : rule.isVoid = false) (hfragment : rule.fragment options =
      rule.rule.strength.relax (.member array rule.softPlace) subtos)
    (hviolation : rule.violation .whole = (array, Tuple.one rule.softPlace))
    (hplaces : rule.rule.demand.places t options = {.whole})
    (hshared : rule.rule.strength.isSoft = true →
      env.Ranges array Tuple.one members ∧ (rule.softPlace : Int) ∈ members) :
    Linear.sumOf? env values (rule.fragment options).charges = some (rule.rule.strength.penalty
      * ∑ place ∈ rule.rule.demand.places t options, rule.slack values place) := by
  rw [hfragment, Strength.sumOf?_charges fun hsoft => value?_member (hshared hsoft), hplaces,
    Finset.sum_singleton, penalty_mul_slack hvoid hviolation]

theorem Owns.charges_value {α : Type} {violation : Violation} {tuple : α → Tuple}
    {members : Finset α} {place : α → Place} (hvoid : rule.isVoid = false)
    (owns : rule.Owns t options env violation tuple members place) :
    Linear.sumOf? env values (rule.fragment options).charges = some (rule.rule.strength.penalty
      * ∑ place ∈ rule.rule.demand.places t options, rule.slack values place) := by
  obtain ⟨subtos, hcharges, -⟩ := owns.relaxes
  rw [hcharges, Strength.sumOf?_charges fun hsoft => owns.spans.total (owns.ranges hsoft) values,
    owns.places, Finset.sum_image owns.injective.injOn, Finset.mul_sum, Finset.mul_sum]
  exact congrArg some (Finset.sum_congr rfl fun a _ =>
    (penalty_mul_slack hvoid (owns.violation a)).symm)

/-- The charges of a rule that counts no slot with a break, and its declarations. -/
theorem fragment_of_isVoid (hskip : rule.isSkipped options = false) (hvoid : rule.isVoid = true) :
    rule.fragment options = {} := by
  rw [fragment_of_not_skipped hskip]
  unfold isVoid at hvoid
  cases hdemand : rule.rule.demand with
  | br1 breaks =>
    rw [hdemand] at hvoid
    exact if_pos (of_decide_eq_true hvoid)
  | br2 breaks =>
    rw [hdemand] at hvoid
    exact if_pos (of_decide_eq_true hvoid)
  | _ =>
    rw [hdemand] at hvoid
    exact nomatch hvoid

theorem charges_meetingBound {bound : MeetingBound} {strength : Strength}
    (habove : strength.isSoft = true → env.Ranges "ga1_viol" Tuple.one (t.softPlaces .ga1) ∧
      (rule.softPlace : Int) ∈ t.softPlaces .ga1)
    (hbelow : strength.isSoft = true → options.minPenalty = .separate →
      env.Ranges "ga1_min_viol" Tuple.one (t.softPlaces .ga1)) :
    Linear.sumOf? env values (bound.fragment options strength rule).charges =
      some (strength.penalty * ∑ place ∈ (Demand.ga1 bound).places t options,
        values (if place = .below then "ga1_min_viol" else "ga1_viol")
          (Tuple.one rule.softPlace)) := by
  have hmost : ∀ subtos, Linear.sumOf? env values
      (strength.relax (.member "ga1_viol" rule.softPlace) subtos).charges =
        some (strength.penalty * values "ga1_viol" (Tuple.one rule.softPlace)) := fun subtos =>
    Strength.sumOf?_charges fun hsoft => value?_member (habove hsoft)
  unfold MeetingBound.fragment MeetingBound.most MeetingBound.least Demand.places
  by_cases hmin : bound.min = 0
  · rw [if_pos hmin, hmost]
    cases options.minPenalty <;> simp [hmin]
  · rw [if_neg hmin]
    cases hpenalty : options.minPenalty with
    | shared =>
      show Linear.sumOf? env values ((strength.relax _ _).charges ++ []) = _
      rw [List.append_nil, hmost]
      simp
    | separate =>
      have hleast : ∀ subtos, Linear.sumOf? env values
          (strength.relax (.member "ga1_min_viol" rule.softPlace) subtos).charges =
            some (strength.penalty * values "ga1_min_viol" (Tuple.one rule.softPlace)) :=
        fun subtos => Strength.sumOf?_charges fun hsoft =>
          value?_member ⟨hbelow hsoft hpenalty, (habove hsoft).2⟩
      show Linear.sumOf? env values
        ((strength.relax _ _).charges ++ (strength.relax _ _).charges) = _
      rw [Linear.sumOf?_append, hmost, hleast]
      simp [hmin, mul_add]

theorem violation_ga1 {bound : MeetingBound} (hdemand : rule.rule.demand = .ga1 bound)
    {place : Place} (hplace : place ∈ (Demand.ga1 bound).places t options) :
    rule.violation place =
      (if place = .below then "ga1_min_viol" else "ga1_viol", Tuple.one rule.softPlace) := by
  rcases whole_or_below hplace with rfl | rfl
  · rw [violation, hdemand]
    rfl
  · rfl

/-- The violations of a rule that shares them. -/
theorem violation_shared (hkind : rule.rule.kind ∈ [Kind.ca1, .ca2, .ga1]) {place : Place}
    (hplace : place ∈ rule.rule.demand.places t options) :
    rule.violation place = (rule.rule.kind.stem ++ "_viol", Tuple.one rule.softPlace) ∨
    rule.rule.kind = .ga1 ∧ options.minPenalty = .separate ∧
      rule.violation place = ("ga1_min_viol", Tuple.one rule.softPlace) := by
  cases hdemand : rule.rule.demand with
  | ca1 cap =>
    rw [hdemand] at hplace
    obtain rfl := Finset.mem_singleton.mp hplace
    rw [violation, hdemand, Rule.kind, hdemand]
    exact .inl rfl
  | ca2 cap =>
    rw [hdemand] at hplace
    obtain rfl := Finset.mem_singleton.mp hplace
    rw [violation, hdemand, Rule.kind, hdemand]
    exact .inl rfl
  | ga1 bound =>
    rw [hdemand] at hplace
    rw [violation_ga1 hdemand hplace, Rule.kind, hdemand]
    split
    · rename_i hbelow
      exact .inr ⟨rfl, separate_of_below (hbelow ▸ hplace), rfl⟩
    · exact .inl rfl
  | _ => exact absurd hkind (by simp [Rule.kind, hdemand, Demand.kind])

/-- The charges of a rule add up to its penalty for each unit that it gives way by. -/
theorem charges_value (scene : Scene t options env) (hsymbols : env.symbols = [])
    (hmem : rule ∈ t.numbered) (hcheck : rule.check options = .ok ())
    (hskip : rule.isSkipped options = false) (known : rule.Known t env) :
    Linear.sumOf? env values (rule.fragment options).charges = some (rule.rule.strength.penalty
      * ∑ place ∈ rule.rule.demand.places t options, rule.slack values place) := by
  cases hvoid : rule.isVoid with
  | true =>
    rw [fragment_of_isVoid hskip hvoid, Finset.sum_eq_zero fun place _ => slack_eq_zero hvoid place,
      mul_zero]
    rfl
  | false =>
    by_cases hkind : rule.rule.kind ∈ [Kind.ca1, .ca2, .ga1]
    · have hshared := shared_of_soft scene hmem rfl hkind hskip
      have hfragment := fragment_of_not_skipped hskip
      cases hdemand : rule.rule.demand with
      | ca1 cap =>
        rw [hdemand] at hfragment
        dsimp only at hfragment
        unfold SideCap.fragment at hfragment
        have hviolation : rule.violation .whole = ("ca1_viol", Tuple.one rule.softPlace) := by
          rw [violation, hdemand]
        rw [show rule.rule.kind = .ca1 from congrArg Demand.kind hdemand] at hshared
        rw [← hdemand]
        exact charges_member hvoid hfragment hviolation (by rw [hdemand]; rfl) hshared
      | ca2 cap =>
        rw [hdemand] at hfragment
        dsimp only at hfragment
        unfold OpponentCap.fragment at hfragment
        have hviolation : rule.violation .whole = ("ca2_viol", Tuple.one rule.softPlace) := by
          rw [violation, hdemand]
        rw [show rule.rule.kind = .ca2 from congrArg Demand.kind hdemand] at hshared
        rw [← hdemand]
        exact charges_member hvoid hfragment hviolation (by rw [hdemand]; rfl) hshared
      | ga1 bound =>
        have hga1 : rule.rule.kind = .ga1 := congrArg Demand.kind hdemand
        rw [hdemand] at hfragment
        rw [hga1] at hshared
        rw [hfragment, charges_meetingBound hshared (ga1_min_of_soft scene hmem hga1 hskip),
          Finset.mul_sum, Finset.mul_sum]
        refine congrArg some (Finset.sum_congr rfl fun place hplace => ?_)
        rw [penalty_mul_slack hvoid (violation_ga1 hdemand hplace)]
      | _ => exact absurd hkind (by simp [Rule.kind, hdemand, Demand.kind])
    · obtain ⟨_, _, _, _, _, owns⟩ := exists_owns scene hsymbols hcheck hskip hvoid hkind known
      exact owns.charges_value hvoid

theorem varDecls_shared (hskip : rule.isSkipped options = false)
    (hkind : rule.rule.kind ∈ [Kind.ca1, .ca2, .ga1]) :
    (rule.fragment options).declarations = [] := by
  rw [fragment_of_not_skipped hskip]
  cases hdemand : rule.rule.demand with
  | ca1 cap | ca2 cap => exact declarations_relax_member _ _ _ _
  | ga1 bound => exact declarations_meetingBound _ _ _ _
  | _ => exact absurd hkind (by simp [Rule.kind, hdemand, Demand.kind])

/-- The variables that belong to a rule alone are those by which it gives way at its places. -/
theorem varDecls_hold (scene : Scene t options env) (hsymbols : env.symbols = [])
    (hcheck : rule.check options = .ok ()) (hskip : rule.isSkipped options = false)
    (hkind : rule.rule.kind ∉ [Kind.ca1, .ca2, .ga1]) (known : rule.Known t env) :
    (∀ decl ∈ Program.varDecls (rule.fragment options).declarations, decl.Holds env values) ↔
      ∀ place ∈ rule.rule.demand.places t options, 0 ≤ rule.slack values place := by
  cases hvoid : rule.isVoid with
  | true =>
    rw [fragment_of_isVoid hskip hvoid]
    simp only [slack_eq_zero hvoid]
    exact iff_of_true (fun _ h => nomatch h) fun _ _ => le_rfl
  | false =>
    obtain ⟨_, _, _, _, _, owns⟩ := exists_owns scene hsymbols hcheck hskip hvoid hkind known
    obtain ⟨subtos, -, hdecls⟩ := owns.relaxes
    rw [hdecls, owns.places, Finset.forall_mem_image]
    simp only [slack_eq_of_violation hvoid (owns.violation _)]
    cases rule.rule.strength with
    | hard => exact iff_of_true (fun _ h => nomatch h) fun _ _ => le_rfl
    | soft penalty => exact owns.spans.holds values

end Numbered

end RoundRobin
