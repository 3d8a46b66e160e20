import RoundRobin.Proofs.Meaning.Indicators

/-! Deviations from the bounds on meetings. The lower bound of a soft rule gives way by the
violation of the upper bound or by one of its own. No number of games is off both bounds of a range
that is not empty, so that either way its distance from the range is charged; where the bounds
cross, one violation costs the larger deviation and two cost both. A lower bound of zero has no row:
only a number of games that is negative would be off it. -/

namespace RoundRobin

open Zimpl

/-- By how much a number is more than another. -/
def overrun (a b : Rat) : Rat := max 0 (a - b)

section Overrun

variable {a b c : Rat}

theorem overrun_nonneg (a b : Rat) : 0 ≤ overrun a b := le_max_left _ _

theorem overrun_eq_zero (h : a ≤ b) : overrun a b = 0 := max_eq_left (sub_nonpos.mpr h)

theorem overrun_eq_sub (h : b ≤ a) : overrun a b = a - b := max_eq_right (sub_nonneg.mpr h)

theorem le_add_overrun (a b : Rat) : a ≤ b + overrun a b :=
  sub_le_iff_le_add'.mp (le_max_right _ _)

theorem overrun_le (hzero : 0 ≤ c) (h : a ≤ b + c) : overrun a b ≤ c :=
  max_le hzero (sub_le_iff_le_add'.mpr h)

end Overrun

/-- By how much a number of games is less than a lower bound. A bound of zero is none. -/
def shortfall (low : Nat) (games : Rat) : Rat := if low = 0 then 0 else overrun low games

section Shortfall

variable {low : Nat} {games c : Rat}

@[simp] theorem shortfall_zero (games : Rat) : shortfall 0 games = 0 := rfl

theorem shortfall_of_pos (h : 0 < low) : shortfall low games = overrun low games :=
  if_neg (Nat.ne_of_gt h)

/-- Zero is a lower bound like another if there are games that take place or not. -/
theorem shortfall_eq_overrun (h : low = 0 → 0 ≤ games) :
    shortfall low games = overrun low games := by
  rcases Nat.eq_zero_or_pos low with rfl | hlow
  · exact (overrun_eq_zero (by exact_mod_cast h rfl)).symm
  · exact shortfall_of_pos hlow

theorem shortfall_nonneg (low : Nat) (games : Rat) : 0 ≤ shortfall low games := by
  unfold shortfall
  split
  · exact le_rfl
  · exact overrun_nonneg _ _

theorem shortfall_eq_zero (h : low ≤ games) : shortfall low games = 0 := by
  unfold shortfall
  split
  · rfl
  · exact overrun_eq_zero h

theorem le_add_shortfall (h : 0 < low) : low ≤ games + shortfall low games := by
  rw [shortfall_of_pos h]
  exact le_add_overrun _ _

theorem shortfall_le (hzero : 0 ≤ c) (h : 0 < low → low ≤ games + c) : shortfall low games ≤ c := by
  rcases Nat.eq_zero_or_pos low with rfl | hlow
  · exact hzero
  · rw [shortfall_of_pos hlow]
    exact overrun_le hzero (h hlow)

end Shortfall

namespace MinPenalty

/-- The violations by which the bounds of a soft rule on meetings give way. -/
def violations : MinPenalty → List String
  | .shared => ["ga1_viol"]
  | .separate => ["ga1_viol", "ga1_min_viol"]

/-- What two deviations cost together: the larger of them, or both. -/
def total : MinPenalty → Rat → Rat → Rat
  | .shared, above, below => max above below
  | .separate, above, below => above + below

/-- The violation that the lower bound gives way by, of that of the upper bound and one of its
own. -/
def slackBelow : MinPenalty → Rat → Rat → Rat
  | .shared, whole, _ => whole
  | .separate, _, own => own

/-- What the two violations cost. One of its own costs something where there is a lower bound. -/
def paid (mode : MinPenalty) (low : Nat) (whole own : Rat) : Rat :=
  match mode with
  | .shared => whole
  | .separate => if low = 0 then whole else whole + own

/-- What violations may cost by which a number of games is within bounds. -/
def payments (mode : MinPenalty) (low high : Nat) (games : Rat) : Set Rat :=
  {cost | ∃ whole own, 0 ≤ whole ∧ 0 ≤ own ∧ games ≤ high + whole ∧
    (0 < low → low - mode.slackBelow whole own ≤ games) ∧ mode.paid low whole own = cost}

theorem isLeast_payments (mode : MinPenalty) (low high : Nat) (games : Rat) :
    IsLeast (mode.payments low high games)
      (mode.total (overrun games high) (shortfall low games)) := by
  have hmost := le_add_overrun games high
  have hleast : 0 < low → low - shortfall low games ≤ games := fun hlow =>
    sub_le_iff_le_add.mpr (le_add_shortfall hlow)
  -- the least violations are the deviations themselves
  cases mode with
  | shared =>
    constructor
    · refine ⟨max (overrun games high) (shortfall low games), 0, ?_, le_rfl, ?_,
        fun hlow => ?_, rfl⟩
      · exact le_max_of_le_left (overrun_nonneg _ _)
      · exact hmost.trans (add_le_add_right (le_max_left _ _) _)
      · exact (sub_le_sub_left (le_max_right _ _) _).trans (hleast hlow)
    · rintro _ ⟨whole, _, hwhole, -, habove, hbelow, rfl⟩
      exact max_le (overrun_le hwhole habove)
        (shortfall_le hwhole fun hlow => sub_le_iff_le_add.mp (hbelow hlow))
  | separate =>
    constructor
    · refine ⟨overrun games high, shortfall low games, overrun_nonneg _ _, shortfall_nonneg _ _,
        hmost, hleast, ?_⟩
      rw [paid, total]
      split
      · rename_i hlow
        rw [hlow, shortfall_zero, add_zero]
      · rfl
    · rintro _ ⟨whole, own, hwhole, hown, habove, hbelow, rfl⟩
      rw [paid, total]
      split
      · rename_i hlow
        rw [hlow, shortfall_zero, add_zero]
        exact overrun_le hwhole habove
      · exact add_le_add (overrun_le hwhole habove)
          (shortfall_le hown fun hlow => sub_le_iff_le_add.mp (hbelow hlow))

theorem total_zero_left (mode : MinPenalty) {below : Rat} (h : 0 ≤ below) :
    mode.total 0 below = below := by
  cases mode with
  | shared => exact max_eq_right h
  | separate => exact zero_add below

theorem total_zero_right (mode : MinPenalty) {above : Rat} (h : 0 ≤ above) :
    mode.total above 0 = above := by
  cases mode with
  | shared => exact max_eq_left h
  | separate => exact add_zero above

/-- No number of games is off both bounds of a range that is not empty. -/
theorem total_of_range (mode : MinPenalty) {low high : Nat} (hrange : low ≤ high) (games : Rat) :
    mode.total (overrun games high) (shortfall low games) =
      overrun games high + shortfall low games := by
  rcases le_total games high with hhigh | hhigh
  · rw [overrun_eq_zero hhigh, mode.total_zero_left (shortfall_nonneg _ _), zero_add]
  · have hlow : (low : Rat) ≤ games := (Nat.cast_le.mpr hrange).trans hhigh
    rw [shortfall_eq_zero hlow, mode.total_zero_right (overrun_nonneg _ _), add_zero]

/-- The deviations from both bounds of a range that is not empty are the distance from it. -/
theorem isLeast_distance (mode : MinPenalty) {low high : Rat} (hrange : low ≤ high) (games : Rat) :
    IsLeast ((fun within => |games - within|) '' Set.Icc low high)
      (mode.total (overrun games high) (overrun low games)) := by
  rcases le_total games low with hlow | hlow
  · have hnear := sub_nonneg.mpr hlow
    rw [overrun_eq_zero (hlow.trans hrange), overrun_eq_sub hlow, mode.total_zero_left hnear]
    constructor
    · exact ⟨low, ⟨le_rfl, hrange⟩, (abs_sub_comm games low).trans (abs_of_nonneg hnear)⟩
    · rintro _ ⟨within, hwithin, rfl⟩
      exact (sub_le_sub_right hwithin.1 games).trans (neg_sub games within ▸ neg_le_abs _)
  · rcases le_total games high with hhigh | hhigh
    · rw [overrun_eq_zero hhigh, overrun_eq_zero hlow, mode.total_zero_left le_rfl]
      constructor
      · exact ⟨games, ⟨hlow, hhigh⟩, abs_eq_zero.mpr (sub_self games)⟩
      · rintro _ ⟨within, -, rfl⟩
        exact abs_nonneg _
    · have hnear := sub_nonneg.mpr hhigh
      rw [overrun_eq_sub hhigh, overrun_eq_zero hlow, mode.total_zero_right hnear]
      constructor
      · exact ⟨high, ⟨hrange, le_rfl⟩, abs_of_nonneg hnear⟩
      · rintro _ ⟨within, hwithin, rfl⟩
        exact (sub_le_sub_left hwithin.2 games).trans (le_abs_self _)

end MinPenalty

/-- What some charges may add up to, where some variables are free and the rows of some names
hold. -/
def Zimpl.Program.costs (program : Program) (free rows : List String) (charges : List Linear)
    (env : Env) (values : Assignment) : Set Rat :=
  {cost | ∃ after, program.Completes free rows env values after ∧
    Linear.sumOf? env after charges = some cost}

namespace MeetingBound

/-- The listed meetings are games of the tournament, in every slot that is listed. -/
def InSeason (bound : MeetingBound) (t : Tournament) : Prop :=
  ∀ slot ∈ bound.slots, slot ∈ t.slotSet ∧
    ∀ game ∈ bound.meetings, game.home ∈ t.teamSet ∧ game.away ∈ t.teamSet

instance (bound : MeetingBound) (t : Tournament) : Decidable (bound.InSeason t) := by
  unfold InSeason
  infer_instance

/-- The names of the rows of a rule. There is none for a lower bound of zero. -/
def rowNames (bound : MeetingBound) (rule : Numbered) : List String :=
  if bound.min = 0 then [rule.name] else [rule.name, Numbered.nameWith .ga1 (rule.number + 1)]

/-- The rows of a rule on meetings keep the number of games within bounds that give way, and at
least the penalty of the deviations from them is charged for that. -/
structure ChargesDeviations (bound : MeetingBound) (t : Tournament) (options : Options)
    (rule : Numbered) (program : Program) (env : Env) : Prop where
  rows : (rule.fragment options).subtos.map (·.name) = bound.rowNames rule
  holds_iff : ∀ values, program.HoldsOn (bound.rowNames rule) env values ↔ bound.InSeason t ∧
    bound.games values.tally ≤
      bound.max + rule.rule.strength.slack values "ga1_viol" (Tuple.one rule.softPlace) ∧
    (0 < bound.min → bound.min - rule.rule.strength.slack values options.minPenalty.violation
      (Tuple.one rule.softPlace) ≤ bound.games values.tally)
  /-- The larger of the two deviations is charged, or both, as the mode has it. -/
  least : ∀ penalty, rule.rule.strength = .soft penalty → bound.InSeason t → ∀ values,
    IsLeast (program.costs options.minPenalty.violations (bound.rowNames rule)
      (rule.fragment options).charges env values)
      (penalty * options.minPenalty.total (overrun (bound.games values.tally) bound.max)
        (shortfall bound.min (bound.games values.tally)))
  /-- Off a range that is not empty, the mode does not matter. -/
  either : ∀ penalty, rule.rule.strength = .soft penalty → bound.InSeason t →
    bound.min ≤ bound.max → ∀ values,
      IsLeast (program.costs options.minPenalty.violations (bound.rowNames rule)
        (rule.fragment options).charges env values)
        (penalty * (overrun (bound.games values.tally) bound.max +
          shortfall bound.min (bound.games values.tally)))
  /-- That is the distance from the range, unless it starts at zero and the number of games is
  negative. -/
  distance : ∀ penalty, rule.rule.strength = .soft penalty → bound.InSeason t →
    bound.min ≤ bound.max → ∀ values, (bound.min = 0 → 0 ≤ bound.games values.tally) →
      ∃ distance, IsLeast ((fun within : Rat => |bound.games values.tally - within|) ''
        Set.Icc (bound.min : Rat) bound.max) distance ∧
      IsLeast (program.costs options.minPenalty.violations (bound.rowNames rule)
        (rule.fragment options).charges env values) (penalty * distance)
  /-- The number of games is not negative if each of them takes place or not, as declared. -/
  nonneg : bound.InSeason t → ∀ values, program.AdmitsOn ["x"] env values →
    0 ≤ bound.games values.tally

end MeetingBound

/-- Two violations in place of those that some values show. -/
def Zimpl.Assignment.withViolations (values : Assignment) (mode : MinPenalty) (whole own : Rat) :
    Assignment := fun name =>
  if name ∈ mode.violations then fun _ => if name = "ga1_viol" then whole else own else values name

theorem Zimpl.Assignment.withViolations_whole (values : Assignment) (mode : MinPenalty)
    (whole own : Rat)
    (place : Tuple) : values.withViolations mode whole own "ga1_viol" place = whole := by
  cases mode <;> rfl

theorem Zimpl.Assignment.withViolations_below (values : Assignment) (mode : MinPenalty)
    (whole own : Rat) (place : Tuple) :
    values.withViolations mode whole own mode.violation place = mode.slackBelow whole own := by
  cases mode <;> rfl

theorem MinPenalty.slackBelow_violation (mode : MinPenalty) (values : Assignment) (place : Tuple) :
    mode.slackBelow (values "ga1_viol" place) (values mode.violation place) =
      values mode.violation place := by
  cases mode <;> rfl

theorem MinPenalty.paid_slackBelow (mode : MinPenalty) (low : Nat) (whole own : Rat) :
    mode.paid low whole (mode.slackBelow whole own) = mode.paid low whole own := by
  cases mode <;> rfl

section Games

variable {t : Tournament} {options : Options} {env : Env} {values after : Assignment}
  {bound : MeetingBound}

/-- A term for a game has a value only where there is such a game. -/
theorem Scene.mem_of_playedIn (scene : Scene t options env) {a b c : Arith} {m n s : Int}
    (ha : a.value? env = some (m : Rat)) (hb : b.value? env = some (n : Rat))
    (hc : c.value? env = some (s : Rat)) {value : Rat}
    (h : (playedIn a b c).value? env values = some value) :
    ((m, n), s) ∈ t.teamSet.offDiag ×ˢ t.slotSet := by
  have hplace : Arith.values? env [a, b, c] = some (Tuple.three ((m, n), s)) := by
    simp [Arith.values?, ha, hb, hc, Tuple.three]
  obtain ⟨found, hfound, hhas⟩ := Linear.has_of_value? _ h
  rw [playedIn, Linear.occurrences?, hplace] at hfound
  obtain rfl := Option.some.inj hfound
  obtain ⟨q, hq, heq⟩ := scene.games.exists_of_has (hhas _ (.head _))
  rwa [Tuple.three_injective heq]

namespace MeetingBound

theorem games_congr (hagree : after "x" = values "x") :
    bound.games after.tally = bound.games values.tally := by
  simp only [games, Assignment.tally, hagree]

theorem games_nonneg (hseason : bound.InSeason t)
    (hbinary : ∀ q ∈ t.teamSet.offDiag ×ˢ t.slotSet,
      values "x" (Tuple.three q) = 0 ∨ values "x" (Tuple.three q) = 1) :
    0 ≤ bound.games values.tally := by
  refine Finset.sum_nonneg fun slot hslot => List.sum_nonneg fun value hvalue => ?_
  obtain ⟨game, hgame, rfl⟩ := List.mem_map.mp hvalue
  obtain ⟨hslot, hteams⟩ := hseason slot (List.mem_toFinset.mp hslot)
  obtain ⟨hhome, haway⟩ := hteams game hgame
  exact nonneg_of_binary (hbinary ((game.home, game.away), slot)
    (Finset.mem_product.mpr ⟨Finset.mem_offDiag.mpr ⟨hhome, haway, game.home_ne_away⟩, hslot⟩))

variable (scene : Scene t options env) (hsymbols : env.symbols = [])
include scene hsymbols

theorem value?_games_of_inSeason (values : Assignment) (hseason : bound.InSeason t) :
    bound.counted.value? env values = some (bound.games values.tally) := by
  by_cases hnone : bound.slots = []
  · -- there need not be any of the games
    rw [counted, games, hnone]
    exact Linear.value?_sumOver (Index.runs_one (SetTerm.lists_ids env []) (by simp [hsymbols]))
      (by simp)
  · obtain ⟨slot, hslot⟩ := List.exists_mem_of_ne_nil _ hnone
    exact value?_games scene (values.shows_tally t) hsymbols
      (fun slot hslot => (hseason slot hslot).1) (hseason slot hslot).2

theorem inSeason_of_value? (hmeetings : bound.meetings ≠ []) {games : Rat}
    (h : bound.counted.value? env values = some games) :
    bound.InSeason t := by
  have hgame : ∀ slot ∈ bound.slots, ∀ game ∈ bound.meetings,
      ((game.home, game.away), slot) ∈ t.teamSet.offDiag ×ˢ t.slotSet := by
    intro slot hslot game hgame
    have hruns := Index.runs_one (SetTerm.lists_ids env bound.slots)
      (show env.symbols.lookup "s" = none by simp [hsymbols])
    obtain ⟨total, htotal⟩ := hruns.exists_value? h slot (List.mem_toFinset.mpr hslot)
    rw [Linear.value?_plus] at htotal
    obtain ⟨value, hvalue⟩ := Linear.exists_value?_of_sumOf? htotal _ (List.mem_map_of_mem hgame)
    exact (scene.bind "s" slot).mem_of_playedIn (Arith.value?_int _ _) (Arith.value?_int _ _)
      (by simp) hvalue
  obtain ⟨first, hfirst⟩ := List.exists_mem_of_ne_nil _ hmeetings
  intro slot hslot
  refine ⟨(Finset.mem_product.mp (hgame slot hslot first hfirst)).2, fun game hmem => ?_⟩
  have hteams := Finset.mem_offDiag.mp (Finset.mem_product.mp (hgame slot hslot game hmem)).1
  exact ⟨hteams.1, hteams.2.1⟩

end MeetingBound

end Games

section Rows

variable {t : Tournament} {options : Options} {env : Env} {values : Assignment} {rule : Numbered}
  {bound : MeetingBound}

theorem MeetingBound.map_name_subtos (bound : MeetingBound) (options : Options)
    (strength : Strength) (rule : Numbered) :
    (bound.fragment options strength rule).subtos.map (·.name) = bound.rowNames rule := by
  rw [Numbered.subtos_meetingBound, rowNames]
  split <;> rfl

/-- The upper bound has a row wherever there is a rule. -/
theorem MeetingBound.upper_mem_subtos (bound : MeetingBound) (options : Options)
    (strength : Strength) (rule : Numbered) : ⟨rule.name, [], [⟨bound.counted, .le,
      atMost bound.max (strength.inRow? (.member "ga1_viol" rule.softPlace))⟩]⟩ ∈
        (bound.fragment options strength rule).subtos := by
  rw [Numbered.subtos_meetingBound]
  exact .head _

section Emitted

variable (stage : Stage t options env) (hmem : rule ∈ t.numbered)
  (hdemand : rule.rule.demand = .ga1 bound) (hskip : rule.isSkipped options = false)
  (hcheck : ∀ rule ∈ t.numbered, rule.check options = .ok ())
include stage hmem hdemand hskip

theorem MeetingBound.charges_value (values : Assignment) :
    Linear.sumOf? env values (rule.fragment options).charges = some (rule.rule.strength.penalty *
      options.minPenalty.paid bound.min (values "ga1_viol" (Tuple.one rule.softPlace))
        (values options.minPenalty.violation (Tuple.one rule.softPlace))) := by
  have hkind : rule.rule.kind = .ga1 := congrArg Demand.kind hdemand
  rw [Numbered.fragment_of_not_skipped hskip, hdemand]
  dsimp only
  rw [Numbered.charges_meetingBound
    (Numbered.shared_of_soft stage.toScene hmem hkind (by decide) hskip)
    (Numbered.ga1_min_of_soft stage.toScene hmem hkind hskip)]
  unfold Demand.places MinPenalty.paid
  dsimp only
  cases options.minPenalty with
  | shared => simp
  | separate =>
    by_cases hmin : bound.min = 0
    · simp [hmin]
    · simp [hmin, MinPenalty.violation]

/-- The violations by which the bounds give way are declared not to be negative. -/
theorem Stage.admitsOn_violations (hsoft : rule.rule.strength.isSoft = true) (values : Assignment) :
    (t.program options).AdmitsOn options.minPenalty.violations env values ↔
      Frame.Shares t options values .ga1 := by
  have hnames := t.names_apart options
  have hkind : rule.rule.kind = .ga1 := congrArg Demand.kind hdemand
  have hoptions : options.soft = true := by
    simpa [Numbered.isSkipped, Rule.isSkipped, hsoft] using hskip
  have hsome : t.softCount .ga1 ≠ 0 := by
    have hplace := Tournament.softPlace_le hmem hsoft
    rw [hkind] at hplace
    omega
  have harray : Program.varDecls (Frame.sharedArray t options .ga1) ⊆
      Program.varDecls (t.program options) := by
    intro decl hdecl
    refine Frame.mem_varDecls_program (Frame.mem_varDecls.mpr (.inl ?_))
    rw [Frame.varDecls_sharedArrays hoptions, Program.varDecls, List.filterMap_flatMap]
    exact List.mem_flatMap.mpr ⟨.ga1, by decide, hdecl⟩
  have hmap : (Program.varDecls (Frame.sharedArray t options .ga1)).map (·.name) =
      options.minPenalty.violations := by
    rw [Frame.sharedArray, if_neg hsome]
    cases options.minPenalty <;> rfl
  rw [← hmap, hnames.admitsOn_map harray, stage.toScene.sharedArray_holds hoptions (by decide)]

include hcheck

theorem MeetingBound.holdsOn_iff (values : Assignment) :
    (t.program options).HoldsOn (bound.rowNames rule) env values ↔ bound.InSeason t ∧
      bound.games values.tally ≤
        bound.max + rule.rule.strength.slack values "ga1_viol" (Tuple.one rule.softPlace) ∧
      (0 < bound.min → bound.min - rule.rule.strength.slack values options.minPenalty.violation
        (Tuple.one rule.softPlace) ≤ bound.games values.tally) := by
  have hnames := t.names_apart options
  have hkind : rule.rule.kind = .ga1 := congrArg Demand.kind hdemand
  have hfragment : rule.fragment options = bound.fragment options rule.rule.strength rule := by
    rw [Numbered.fragment_of_not_skipped hskip, hdemand]
  have hmeetings : bound.meetings ≠ [] := fun hnone => by
    have hfails := hcheck rule hmem
    rw [Numbered.check, hdemand] at hfails
    simp [hnone, hskip] at hfails
  have hiff := fun (hseason : bound.InSeason t) => (subtos_mean_of_games
    (value?_games_of_inSeason stage.toScene stage.symbols values hseason)
    (Numbered.shared_of_soft stage.toScene hmem hkind (by decide) hskip)
    (Numbered.ga1_min_of_soft stage.toScene hmem hkind hskip)).holds_iff
  have hsubset : (bound.fragment options rule.rule.strength rule).subtos ⊆
      Program.subtos (t.program options) := fun block hblock =>
    Numbered.mem_subtos_program hmem (hfragment ▸ hblock)
  rw [← bound.map_name_subtos options rule.rule.strength, hnames.holdsOn_map hsubset]
  simp only [Nat.pos_iff_ne_zero]
  constructor
  · intro h
    obtain ⟨games, hgames, -⟩ :=
      Subto.holds_row.mp (h _ (bound.upper_mem_subtos options rule.rule.strength rule))
    have hseason := inSeason_of_value? stage.toScene stage.symbols hmeetings hgames
    exact ⟨hseason, (hiff hseason).mp h⟩
  · rintro ⟨hseason, h⟩
    exact (hiff hseason).mpr h

/-- What the violations of a soft rule may cost depends on nothing but the number of games. -/
theorem MeetingBound.costs_eq {penalty : Nat} (hstrength : rule.rule.strength = .soft penalty)
    (hseason : bound.InSeason t) (values : Assignment) :
    (t.program options).costs options.minPenalty.violations (bound.rowNames rule)
        (rule.fragment options).charges env values =
      ((penalty : Rat) * ·) '' options.minPenalty.payments bound.min bound.max
        (bound.games values.tally) := by
  have hsoft : rule.rule.strength.isSoft = true := by rw [hstrength]; rfl
  have hadmits := stage.admitsOn_violations hmem hdemand hskip hsoft
  have hrows := holdsOn_iff stage hmem hdemand hskip hcheck
  have hcharges := charges_value stage hmem hdemand hskip
  simp only [hstrength] at hrows hcharges
  have hkind : rule.rule.kind = .ga1 := congrArg Demand.kind hdemand
  have hplace := (Numbered.shared_of_soft stage.toScene hmem hkind (by decide) hskip hsoft).2
  ext cost
  constructor
  · rintro ⟨after, hafter, hcost⟩
    have hgames : bound.games after.tally = bound.games values.tally :=
      games_congr (hafter.agree "x" (by cases options.minPenalty <;> decide))
    have hshares := (hadmits after).mp hafter.admits
    have hwhole : 0 ≤ after "ga1_viol" (Tuple.one rule.softPlace) := hshares.whole _ hplace
    have hbelow : 0 ≤ after options.minPenalty.violation (Tuple.one rule.softPlace) := by
      cases hmode : options.minPenalty with
      | shared => exact hwhole
      | separate => exact hshares.below rfl hmode _ hplace
    obtain ⟨-, hmost, hleast⟩ := (hrows after).mp hafter.holds
    rw [hgames] at hmost hleast
    refine ⟨_, ⟨_, _, hwhole, hbelow, hmost, fun hlow => ?_, rfl⟩,
      Option.some.inj ((hcharges after).symm.trans hcost)⟩
    rw [MinPenalty.slackBelow_violation]
    exact hleast hlow
  · rintro ⟨_, ⟨whole, own, hwhole, hown, hmost, hleast, rfl⟩, rfl⟩
    have hgames : bound.games (values.withViolations options.minPenalty whole own).tally =
        bound.games values.tally :=
      games_congr (if_neg (by cases options.minPenalty <;> decide))
    refine ⟨values.withViolations options.minPenalty whole own,
      ⟨fun name hname => if_neg hname, ?_, ?_⟩, ?_⟩
    · refine (hadmits _).mpr ⟨fun place _ => ?_, fun _ hmode place _ => ?_⟩
      · exact hwhole.trans_eq (values.withViolations_whole _ _ _ _).symm
      · rw [hmode]
        exact hown.trans_eq (values.withViolations_below .separate whole own _).symm
    · refine (hrows _).mpr ⟨hseason, ?_, fun hlow => ?_⟩
      · rw [hgames]
        exact hmost.trans_eq (congrArg _ (values.withViolations_whole _ _ _ _).symm)
      · rw [hgames]
        refine le_of_eq_of_le (congrArg _ ?_) (hleast hlow)
        exact values.withViolations_below _ _ _ _
    · rw [hcharges, values.withViolations_whole, values.withViolations_below,
        MinPenalty.paid_slackBelow]
      rfl

theorem MeetingBound.isLeast_costs {penalty : Nat} (hstrength : rule.rule.strength = .soft penalty)
    (hseason : bound.InSeason t) (values : Assignment) :
    IsLeast ((t.program options).costs options.minPenalty.violations (bound.rowNames rule)
      (rule.fragment options).charges env values)
      (penalty * options.minPenalty.total (overrun (bound.games values.tally) bound.max)
        (shortfall bound.min (bound.games values.tally))) := by
  rw [MeetingBound.costs_eq stage hmem hdemand hskip hcheck hstrength hseason]
  exact (monotone_mul_left_of_nonneg (Nat.cast_nonneg penalty)).map_isLeast
    (options.minPenalty.isLeast_payments bound.min bound.max _)

end Emitted

end Rows

/-- An emitted rule on meetings keeps the number of its games within bounds that give way, and the
least that is charged for that is the penalty for each unit of deviation from them. -/
theorem Tournament.chargesDeviations {t : Tournament} {options : Options} {program : Program}
    (hprogram : t.formulate options = .ok program) :
    ∃ env, program.env? = some env ∧ ∀ rule ∈ t.numbered, ∀ bound, rule.rule.demand = .ga1 bound →
      rule.isEmitted options = true → bound.ChargesDeviations t options rule program env := by
  obtain ⟨rfl, hcheck⟩ := Tournament.of_formulate hprogram
  have hnames := t.names_apart options
  obtain ⟨env, henv, stage⟩ := Tournament.stage hcheck
  refine ⟨env, henv, fun rule hmem bound hdemand hemitted => ?_⟩
  have hskip := (Numbered.isEmitted_iff.mp hemitted).1
  have hleast := fun (penalty : Nat) (hstrength : rule.rule.strength = .soft penalty) =>
    MeetingBound.isLeast_costs stage hmem hdemand hskip hcheck hstrength
  constructor
  case rows =>
    rw [Numbered.fragment_of_not_skipped hskip, hdemand]
    exact bound.map_name_subtos options rule.rule.strength rule
  case holds_iff => exact MeetingBound.holdsOn_iff stage hmem hdemand hskip hcheck
  case least => exact hleast
  case either =>
    intro penalty hstrength hseason hrange values
    rw [← options.minPenalty.total_of_range hrange]
    exact hleast penalty hstrength hseason values
  case distance =>
    intro penalty hstrength hseason hrange values hcounted
    have hcosts := hleast penalty hstrength hseason values
    rw [shortfall_eq_overrun hcounted] at hcosts
    exact ⟨_, options.minPenalty.isLeast_distance (Nat.cast_le.mpr hrange) _, hcosts⟩
  case nonneg =>
    intro hseason values hbinary
    exact bound.games_nonneg hseason ((Frame.admitsOn_games hnames stage.toScene).mp hbinary)

/-- Two teams, of which the first is to play the other at home at least twice and at most once in
the season, where each game counts twice. -/
def crossedPairTournament : Tournament where
  name := none
  teams := [0, 1]
  slots := [0, 1]
  phased := false
  rules := [⟨.soft 3, .ga1 ⟨4, 1, [0, 1], [⟨0, 1, by decide⟩, ⟨0, 1, by decide⟩]⟩⟩]

/-- A single game counts one more than the upper bound and two less than the lower one. -/
theorem chargesDeviations_crossedPair :
    let bound : MeetingBound := ⟨4, 1, [0, 1], [⟨0, 1, by decide⟩, ⟨0, 1, by decide⟩]⟩
    let rule : Numbered := ⟨⟨.soft 3, .ga1 bound⟩, 1, 1⟩
    let once : Assignment := fun _ place => if place = [0, 1, 0] then 1 else 0
    ∀ mode, let options : Options := { minPenalty := mode }
      let program := crossedPairTournament.program options
      ∃ env, program.env? = some env ∧
        IsLeast
          (program.costs mode.violations ["ga1_1", "ga1_2"]
            (rule.fragment options).charges env once)
          (3 * mode.total 1 2) := by
  intro bound rule once mode options program
  have hprogram : crossedPairTournament.formulate options = .ok program := rfl
  obtain ⟨env, henv, hrules⟩ := Tournament.chargesDeviations hprogram
  have hcharges := hrules rule (.head _) bound rfl (by cases mode <;> rfl)
  have hleast := hcharges.least 3 rfl (by decide) once
  have hrows : bound.rowNames rule = ["ga1_1", "ga1_2"] := by decide
  have hgames : bound.games once.tally = 2 := by
    norm_num [MeetingBound.games, Assignment.tally, bound, once, Tuple.three]
  have habove : overrun 2 (1 : Nat) = 1 := by norm_num [overrun]
  have hbelow : shortfall 4 2 = 2 := by norm_num [shortfall, overrun]
  rw [hrows, hgames, habove, hbelow, Nat.cast_ofNat] at hleast
  exact ⟨env, henv, hleast⟩

/-- Two teams, of which the first is to play the other at home in no slot. There is no lower
bound. -/
def apartPairTournament : Tournament where
  name := none
  teams := [0, 1]
  slots := [0, 1]
  phased := false
  rules := [⟨.soft 3, .ga1 ⟨0, 0, [0, 1], [⟨0, 1, by decide⟩]⟩⟩]

/-- With a game that counts minus one the number of games is one off the range, which costs
nothing. -/
theorem costs_lt_distance_apartPair :
    let bound : MeetingBound := ⟨0, 0, [0, 1], [⟨0, 1, by decide⟩]⟩
    let rule : Numbered := ⟨⟨.soft 3, .ga1 bound⟩, 1, 1⟩
    let fewer : Assignment := fun _ place => if place = [0, 1, 0] then -1 else 0
    ∃ program env, apartPairTournament.formulate {} = .ok program ∧ program.env? = some env ∧
      rule ∈ apartPairTournament.numbered ∧ rule.isEmitted {} = true ∧
      IsLeast ((fun within : Rat => |bound.games fewer.tally - within|) ''
        Set.Icc (bound.min : Rat) bound.max) 1 ∧
      IsLeast (program.costs ["ga1_viol"] ["ga1_1"] (rule.fragment {}).charges env fewer) 0 := by
  intro bound rule fewer
  have hprogram : apartPairTournament.formulate {} = .ok (apartPairTournament.program {}) := rfl
  obtain ⟨-, hcheck⟩ := Tournament.of_formulate hprogram
  obtain ⟨env, henv, stage⟩ := Tournament.stage hcheck
  have hgames : bound.games fewer.tally = -1 := by
    norm_num [MeetingBound.games, Assignment.tally, bound, fewer, Tuple.three]
  have hmem : rule ∈ apartPairTournament.numbered := .head _
  have hleast := bound.isLeast_costs stage hmem rfl rfl hcheck rfl (by decide) fewer
  have habove : overrun (-1) 0 = 0 := by norm_num [overrun]
  have hrows : bound.rowNames rule = ["ga1_1"] := by decide
  rw [hgames, hrows] at hleast
  refine ⟨_, env, hprogram, henv, hmem, rfl, ?_, ?_⟩
  · rw [hgames]
    simp [bound]
  · simpa [bound, habove, MinPenalty.total, MinPenalty.violations] using hleast

end RoundRobin
