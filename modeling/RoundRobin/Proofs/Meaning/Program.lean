import RoundRobin.Proofs.Meaning.Stage

/-! What a whole program asks of an assignment: the rows of its frame, and at each place of a rule a
violation that is not less than what the rule is short of there. -/

namespace RoundRobin

open Zimpl

/-- The bounds of the variables of a frame, but for the violations. -/
structure Frame.Admits (t : Tournament) (tally : Tally) : Prop where
  games : ∀ q ∈ t.teamSet.offDiag ×ˢ t.slotSet,
    tally.game q.1.1 q.1.2 q.2 = 0 ∨ tally.game q.1.1 q.1.2 q.2 = 1
  breaks : t.hasBreaks = true → ∀ q ∈ t.teamSet ×ˢ t.slotSet.erase 0,
    (tally.homeBreak q.1 q.2 = 0 ∨ tally.homeBreak q.1 q.2 = 1) ∧
    (tally.awayBreak q.1 q.2 = 0 ∨ tally.awayBreak q.1 q.2 = 1)
  homeGames : t.hasBalance = true → ∀ q ∈ t.teamSet ×ˢ t.slotSet,
    (tally.homeGames q.1 q.2).isInt = true ∧ 0 ≤ tally.homeGames q.1 q.2 ∧
    tally.homeGames q.1 q.2 ≤ if t.phased then min (q.2 + 1 : Rat) (t.slotCount / 2) else q.2 + 1

/-- The violations that the soft rules of a kind share are not negative. -/
structure Frame.Shares (t : Tournament) (options : Options) (values : Assignment) (kind : Kind) :
    Prop where
  whole : ∀ place ∈ t.softPlaces kind, 0 ≤ values (kind.stem ++ "_viol") (Tuple.one place)
  below : kind = .ga1 → options.minPenalty = .separate →
    ∀ place ∈ t.softPlaces kind, 0 ≤ values "ga1_min_viol" (Tuple.one place)

section Shared

variable {t : Tournament} {options : Options} {env : Env} {values : Assignment}

theorem Scene.sharedArray_holds (scene : Scene t options env) (hsoft : options.soft = true)
    {kind : Kind} (hkind : kind ∈ [Kind.ca1, .ca2, .ga1]) :
    (∀ decl ∈ Program.varDecls (Frame.sharedArray t options kind), decl.Holds env values) ↔
      Frame.Shares t options values kind := by
  unfold Frame.sharedArray
  split
  · rename_i hnone
    have hplaces : ∀ place, place ∉ t.softPlaces kind := fun place hplace => by
      rw [Tournament.softPlaces, hnone, mem_places] at hplace
      omega
    exact iff_of_true (List.forall_mem_nil _)
      ⟨fun place h => absurd h (hplaces place), fun _ _ place h => absurd h (hplaces place)⟩
  · rename_i hsome
    have hlists := (scene.shared hsoft kind hkind hsome).1
    rw [Program.varDecls_append, List.forall_mem_append]
    show (∀ decl ∈ [_], VarDecl.Holds env values decl) ∧ _ ↔ _
    rw [List.forall_mem_singleton, VarDecl.nonnegative_holds hlists]
    split
    · rename_i hmin
      obtain ⟨rfl, hseparate⟩ := hmin
      have hmembers : (SetTerm.name "GA1").Lists env Tuple.one (t.softPlaces .ga1) := hlists
      show _ ∧ (∀ decl ∈ [_], VarDecl.Holds env values decl) ↔ _
      rw [List.forall_mem_singleton, VarDecl.nonnegative_holds hmembers]
      exact ⟨fun h => ⟨h.1, fun _ _ => h.2⟩, fun h => ⟨h.whole, h.below rfl hseparate⟩⟩
    · rename_i hmin
      exact ⟨fun h => ⟨h.1, fun hkind hseparate => absurd ⟨hkind, hseparate⟩ hmin⟩,
        fun h => ⟨h.whole, List.forall_mem_nil _⟩⟩

theorem Frame.varDecls_sharedArrays (hsoft : options.soft = true) :
    Program.varDecls (Frame.sharedArrays t options) =
      Program.varDecls ([Kind.ca1, .ca2, .ga1].flatMap (Frame.sharedArray t options)) := by
  unfold Frame.sharedArrays
  dsimp only
  split
  · rename_i hnone
    rw [hsoft, Bool.not_true, Bool.false_or, List.isEmpty_iff] at hnone
    rw [hnone]
  · rfl

theorem Scene.sharedArrays_hold (scene : Scene t options env) :
    (∀ decl ∈ Program.varDecls (Frame.sharedArrays t options), decl.Holds env values) ↔
      (options.soft = true → ∀ kind ∈ [Kind.ca1, .ca2, .ga1],
        Frame.Shares t options values kind) := by
  cases hsoft : options.soft with
  | false => simp [Frame.sharedArrays, hsoft, Program.varDecls]
  | true =>
    rw [Frame.varDecls_sharedArrays hsoft]
    simp only [forall_const]
    constructor
    · intro h kind hkind
      refine (scene.sharedArray_holds hsoft hkind).mp fun decl hdecl => h decl ?_
      obtain ⟨statement, hstatement, hvar⟩ := List.mem_filterMap.mp hdecl
      exact List.mem_filterMap.mpr ⟨statement, List.mem_flatMap.mpr ⟨kind, hkind, hstatement⟩, hvar⟩
    · intro h decl hdecl
      obtain ⟨statement, hstatement, hvar⟩ := List.mem_filterMap.mp hdecl
      obtain ⟨kind, hkind, hstatement⟩ := List.mem_flatMap.mp hstatement
      exact (scene.sharedArray_holds hsoft hkind).mpr (h kind hkind) decl
        (List.mem_filterMap.mpr ⟨statement, hstatement, hvar⟩)

end Shared

/-- Whether a statement declares a set or a variable. -/
def Zimpl.Statement.isDeclaration : Statement → Bool
  | .set _ _ | .var _ => true
  | _ => false

namespace Numbered

theorem declares_relax (strength : Strength) {violation : Violation}
    (h : ∀ statement ∈ violation.declarations, statement.isDeclaration = true)
    (subtos : Option Linear → List Subto) :
    ∀ statement ∈ (strength.relax violation subtos).declarations,
      statement.isDeclaration = true := by
  cases strength with
  | hard => exact fun _ h => nomatch h
  | soft penalty => exact h

/-- In front of its rows a rule only declares sets and variables. -/
theorem declares (options : Options) (rule : Numbered) :
    ∀ statement ∈ (rule.fragment options).declarations, statement.isDeclaration = true := by
  have hvariable : ∀ decl, ∀ statement ∈ [Statement.var decl], statement.isDeclaration = true :=
    fun decl => List.forall_mem_singleton.mpr rfl
  cases hskip : rule.isSkipped options with
  | true =>
    rw [fragment, if_pos hskip]
    exact List.forall_mem_nil _
  | false =>
    rw [fragment_of_not_skipped hskip]
    cases rule.rule.demand with
    | ca1 cap | ca2 cap =>
      refine declares_relax _ ?_ _
      exact List.forall_mem_nil _
    | ca3 cap | se1 separation => exact declares_relax _ (hvariable _) _
    | ca4 cap =>
      dsimp only
      unfold GroupCap.fragment
      split <;> exact declares_relax _ (hvariable _) _
    | ga1 bound =>
      dsimp only
      rw [declarations_meetingBound]
      exact List.forall_mem_nil _
    | br1 breaks =>
      dsimp only
      unfold TeamBreaks.fragment
      split
      · exact List.forall_mem_nil _
      · exact declares_relax _ (hvariable _) _
    | br2 breaks =>
      dsimp only
      unfold GroupBreaks.fragment
      split
      · exact List.forall_mem_nil _
      · exact declares_relax _ (hvariable _) _
    | fa2 balance => exact List.forall_mem_cons.mpr ⟨rfl, declares_relax _ (hvariable _) _⟩

theorem isPreliminary_declarations (options : Options) (rule : Numbered) :
    ∀ statement ∈ (rule.fragment options).declarations, statement.isPreliminary = true :=
  fun statement h => by
    have hdeclares := rule.declares options statement h
    cases statement with
    | subto block | objective goal => exact nomatch hdeclares
    | _ => rfl

theorem subtos_statements (options : Options) (rule : Numbered) :
    Program.subtos (rule.statements options) = (rule.fragment options).subtos := by
  have hnone := Program.subtos_of_isPreliminary (rule.isPreliminary_declarations options)
  have hrows : Program.subtos ((rule.fragment options).subtos.map Statement.subto) =
      (rule.fragment options).subtos := by
    rw [Program.subtos, List.filterMap_map]
    exact List.filterMap_some
  show Program.subtos ((rule.fragment options).declarations ++ _) = _
  rw [Program.subtos_append, hnone, hrows, List.nil_append]

theorem varDecls_statements (options : Options) (rule : Numbered) :
    Program.varDecls (rule.statements options) =
      Program.varDecls (rule.fragment options).declarations := by
  have hrows : Program.varDecls ((rule.fragment options).subtos.map Statement.subto) = [] := by
    rw [Program.varDecls, List.filterMap_map]
    exact List.filterMap_eq_nil_iff.mpr fun _ _ => rfl
  show Program.varDecls ((rule.fragment options).declarations ++ _) = _
  rw [Program.varDecls_append, hrows, List.append_nil]

theorem objectives_statements (options : Options) (rule : Numbered) :
    Program.objectives (rule.statements options) = [] := by
  have hnone := Program.objectives_of_isPreliminary (rule.isPreliminary_declarations options)
  have hrows : Program.objectives ((rule.fragment options).subtos.map Statement.subto) = [] := by
    rw [Program.objectives, List.filterMap_map]
    exact List.filterMap_eq_nil_iff.mpr fun _ _ => rfl
  show Program.objectives ((rule.fragment options).declarations ++ _) = _
  rw [Program.objectives_append, hnone, hrows, List.append_nil]

end Numbered

/-- The goal declares no variable. -/
theorem varDecls_goal (options : Options) (charges : List Linear) :
    Program.varDecls (goal options charges) = [] := by
  refine List.filterMap_eq_nil_iff.mpr fun statement hmem => ?_
  rcases mem_goal hmem with rfl | rfl | ⟨-, ⟨cutoff, -, -, rfl⟩ | ⟨-, rfl⟩⟩ <;> rfl

/-- The only row of a goal bounds the charges of soft rules behind the first ones. -/
theorem exists_cutoff_of_mem_subtos {options : Options} {charges : List Linear} {block : Subto}
    (h : block ∈ Program.subtos (goal options charges)) : options.soft = true ∧
      ∃ cutoff, options.cutoff = some cutoff ∧ block =
        ⟨"oc1", [], [⟨.plus (cutoff.bounded charges), .le, .const (.int cutoff.value)⟩]⟩ := by
  obtain ⟨statement, hmem, hblock⟩ := List.mem_filterMap.mp h
  rcases mem_goal hmem with rfl | rfl | ⟨hsoft, ⟨cutoff, hcutoff, -, rfl⟩ | ⟨-, rfl⟩⟩
  case inr.inr.inl => exact ⟨hsoft, cutoff, hcutoff, (Option.some.inj hblock).symm⟩
  all_goals exact nomatch hblock

theorem subtos_goal_of_no_cutoff {options : Options}
    (hcutoff : options.soft = true → options.cutoff = none) (charges : List Linear) :
    Program.subtos (goal options charges) = [] :=
  List.eq_nil_iff_forall_not_mem.mpr fun _ h => by
    obtain ⟨hsoft, cutoff, hsome, -⟩ := exists_cutoff_of_mem_subtos h
    exact nomatch (hcutoff hsoft).symm.trans hsome

section Meaning

variable {t : Tournament} {options : Options} {env : Env} {values : Assignment} {tally : Tally}

theorem Tournament.subtos_program (t : Tournament) (options : Options) :
    Program.subtos (t.program options) = Program.subtos (Frame.statements t options)
      ++ t.numbered.flatMap (fun rule => (rule.fragment options).subtos)
      ++ Program.subtos (goal options (t.charges options)) := by
  have hrules : Program.subtos (t.numbered.flatMap (Numbered.statements options)) =
      t.numbered.flatMap fun rule => (rule.fragment options).subtos := by
    rw [Program.subtos, List.filterMap_flatMap]
    exact congrArg (t.numbered.flatMap ·) (funext fun rule => rule.subtos_statements options)
  rw [Tournament.program, Program.subtos_append, Program.subtos_append, hrules]

theorem Frame.mem_subtos_program {block : Subto}
    (h : block ∈ Program.subtos (Frame.statements t options)) :
    block ∈ Program.subtos (t.program options) := by
  rw [t.subtos_program, List.append_assoc]
  exact List.mem_append_left _ h

theorem Numbered.mem_subtos_program {rule : Numbered} (hmem : rule ∈ t.numbered) {block : Subto}
    (hblock : block ∈ (rule.fragment options).subtos) :
    block ∈ Program.subtos (t.program options) := by
  rw [t.subtos_program]
  exact List.mem_append_left _ (List.mem_append_right _ (List.mem_flatMap.mpr ⟨rule, hmem, hblock⟩))

theorem Tournament.varDecls_program (t : Tournament) (options : Options) :
    Program.varDecls (t.program options) = Program.varDecls (Frame.statements t options)
      ++ t.numbered.flatMap
        (fun rule => Program.varDecls (rule.fragment options).declarations) := by
  have hrules : Program.varDecls (t.numbered.flatMap (Numbered.statements options)) =
      t.numbered.flatMap fun rule => Program.varDecls (rule.fragment options).declarations := by
    rw [Program.varDecls, List.filterMap_flatMap]
    exact congrArg (t.numbered.flatMap ·) (funext fun rule => rule.varDecls_statements options)
  rw [Tournament.program, Program.varDecls_append, Program.varDecls_append, hrules,
    varDecls_goal, List.append_nil]

theorem Frame.mem_varDecls_program {decl : VarDecl}
    (h : decl ∈ Program.varDecls (Frame.statements t options)) :
    decl ∈ Program.varDecls (t.program options) := by
  rw [t.varDecls_program]
  exact List.mem_append_left _ h

theorem Tournament.forall_subtos_iff (t : Tournament) {options : Options} {p : Subto → Prop} :
    (∀ block ∈ Program.subtos (t.program options), p block) ↔
      ((∀ block ∈ Program.subtos (Frame.statements t options), p block) ∧
        ∀ rule ∈ t.numbered, ∀ block ∈ (rule.fragment options).subtos, p block) ∧
      ∀ block ∈ Program.subtos (goal options (t.charges options)), p block := by
  rw [t.subtos_program, List.forall_mem_append, List.forall_mem_append]
  simp only [List.forall_mem_flatMap]

theorem Tournament.forall_varDecls_iff (t : Tournament) {options : Options} {p : VarDecl → Prop} :
    (∀ decl ∈ Program.varDecls (t.program options), p decl) ↔
      (∀ decl ∈ Program.varDecls (Frame.statements t options), p decl) ∧
      ∀ rule ∈ t.numbered, ∀ decl ∈ Program.varDecls (rule.fragment options).declarations,
        p decl := by
  rw [t.varDecls_program, List.forall_mem_append]
  simp only [List.forall_mem_flatMap]

theorem Scene.frameRows_hold (scene : Scene t options env) (shows : values.Shows t tally)
    (hsymbols : env.symbols = []) (hfull : options.feasibility = false) (htwo : 2 ≤ t.teamCount) :
    (∀ block ∈ Program.subtos (Frame.statements t options), block.Holds env values) ↔
      Frame.GamesMet t options tally.game ∧ Frame.CountsMet t tally := by
  have hgames := scene.gameBlocks_hold shows hsymbols hfull htwo
  have hbreaks := (scene.breakCount_mean shows hsymbols).holds_iff
  have hhome := (scene.homeGames_mean shows hsymbols).holds_iff
  simp only [Frame.mem_subtos, or_imp, forall_and]
  rw [hgames, hbreaks, hhome]
  constructor
  · rintro ⟨hmet, hbreaks, hhome⟩
    exact ⟨hmet, fun h team hteam slot hslot => (hbreaks h team hteam slot hslot).1,
      fun h team hteam slot hslot => (hbreaks h team hteam slot hslot).2, hhome⟩
  · rintro ⟨hmet, hcounts⟩
    exact ⟨hmet, fun h team hteam slot hslot => ⟨hcounts.homeBreaks h team hteam slot hslot,
      hcounts.awayBreaks h team hteam slot hslot⟩, hcounts.homeGames⟩

theorem Scene.frameVariables_hold (scene : Scene t options env) (shows : values.Shows t tally)
    (hsymbols : env.symbols = []) :
    (∀ decl ∈ Program.varDecls (Frame.statements t options), decl.Holds env values) ↔
      (options.soft = true → ∀ kind ∈ [Kind.ca1, .ca2, .ga1],
        Frame.Shares t options values kind) ∧ Frame.Admits t tally := by
  have hshared : (∀ decl ∈ Program.varDecls (Frame.sharedArrays t options),
      decl.Holds env values) ↔ _ := scene.sharedArrays_hold
  simp only [Frame.mem_varDecls, or_imp, forall_and]
  rw [hshared, scene.gameVariables_hold shows, scene.homeGames_admitted shows hsymbols]
  exact and_congr_right fun _ => ⟨fun h => ⟨h.1.1, h.1.2, h.2⟩,
    fun h => ⟨⟨h.games, h.breaks⟩, h.homeGames⟩⟩

theorem nonneg_of_binary {value : Rat} (h : value = 0 ∨ value = 1) : 0 ≤ value := by
  rcases h with rfl | rfl
  · exact le_rfl
  · exact zero_le_one

/-- No tally of a program counts a negative number of games. -/
theorem Demand.counted_of_admits (hadmits : Frame.Admits t tally) {demand : Demand}
    (hteams : ∀ id ∈ demand.teamIds, id ∈ t.teamSet)
    (hslots : ∀ id ∈ demand.slotIds, id ∈ t.slotSet) : demand.Counted tally := by
  cases demand with
  | ga1 bound =>
    refine Finset.sum_nonneg fun slot hslot => List.sum_nonneg fun value hvalue => ?_
    obtain ⟨game, hgame, rfl⟩ := List.mem_map.mp hvalue
    have hhome := hteams game.home (List.mem_flatMap.mpr ⟨game, hgame, .head _⟩)
    have haway := hteams game.away (List.mem_flatMap.mpr ⟨game, hgame, .tail _ (.head _)⟩)
    have hmem : ((game.home, game.away), slot) ∈ t.teamSet.offDiag ×ˢ t.slotSet :=
      Finset.mem_product.mpr ⟨Finset.mem_offDiag.mpr ⟨hhome, haway, game.home_ne_away⟩,
        hslots slot (List.mem_toFinset.mp hslot)⟩
    exact nonneg_of_binary (hadmits.games _ hmem)
  | _ => trivial

namespace Numbered

variable {rule : Numbered}

/-- A hard rule gives way nowhere, and a soft one by no negative amount where its violation is not
negative. -/
theorem slack_nonneg {place : Place}
    (h : rule.rule.strength.isSoft = true → rule.isVoid = false →
      0 ≤ values (rule.violation place).1 (rule.violation place).2) :
    0 ≤ rule.slack values place := by
  cases hvoid : rule.isVoid with
  | true => exact (slack_eq_zero hvoid place).ge
  | false =>
    rw [slack_eq hvoid]
    cases hstrength : rule.rule.strength with
    | hard => exact le_rfl
    | soft penalty => exact h (by rw [hstrength]; rfl) hvoid

theorem slack_nonneg_of_shares (hmem : rule ∈ t.numbered)
    (hskip : rule.isSkipped options = false) (hkind : rule.rule.kind ∈ [Kind.ca1, .ca2, .ga1])
    (hshares : options.soft = true → ∀ kind ∈ [Kind.ca1, .ca2, .ga1],
      Frame.Shares t options values kind) :
    ∀ place ∈ rule.rule.demand.places t options, 0 ≤ rule.slack values place := by
  refine fun place hplace => slack_nonneg fun hsoft _ => ?_
  have hnumber := Tournament.softPlace_le hmem hsoft
  have hmember : (rule.softPlace : Int) ∈ t.softPlaces rule.rule.kind := by
    rw [Tournament.softPlaces, mem_places]
    omega
  have hshared := hshares (by simpa [isSkipped, Rule.isSkipped, hsoft] using hskip) _ hkind
  rcases violation_shared hkind hplace with hwhole | ⟨hga1, hseparate, hbelow⟩
  · rw [hwhole]
    exact hshared.whole _ hmember
  · rw [hbelow]
    exact hshared.below hga1 hseparate _ hmember

/-- What a rule adds to a program holds if and only if no violation is less than the rule is short
of. -/
theorem holds_iff (stage : Stage t options env) (shows : values.Shows t tally)
    (hwell : t.WellFormed) (hmem : rule ∈ t.numbered) (hcheck : rule.check options = .ok ())
    (hmet : Frame.GamesMet t options tally.game) (hadmits : Frame.Admits t tally)
    (hshares : options.soft = true → ∀ kind ∈ [Kind.ca1, .ca2, .ga1],
      Frame.Shares t options values kind) :
    ((∀ decl ∈ Program.varDecls (rule.fragment options).declarations, decl.Holds env values) ∧
      ∀ block ∈ (rule.fragment options).subtos, block.Holds env values) ↔
    (rule.isSkipped options = false → ∀ place ∈ rule.rule.demand.places t options,
      rule.rule.demand.short t tally options place ≤ rule.slack values place) := by
  cases hskip : rule.isSkipped options with
  | true =>
    rw [fragment, if_pos hskip]
    exact iff_of_true ⟨List.forall_mem_nil _, List.forall_mem_nil _⟩ fun h => absurd h (by decide)
  | false =>
    have known := stage.known rule hmem hskip
    have hrule := Tournament.rule_mem hmem
    have hcounted := Demand.counted_of_admits hadmits (hwell.teamIds _ hrule)
      (hwell.slotIds _ hrule)
    rw [subtos_hold stage.toScene shows stage.symbols hwell hmem hcheck hskip (fun _ => hmet.once)
      known, Demand.short_le_iff hcounted]
    simp only [forall_const]
    refine and_congr_left fun _ => ?_
    by_cases hkind : rule.rule.kind ∈ [Kind.ca1, .ca2, .ga1]
    · rw [varDecls_shared hskip hkind]
      exact iff_of_true (List.forall_mem_nil _) (slack_nonneg_of_shares hmem hskip hkind hshares)
    · exact varDecls_hold stage.toScene stage.symbols hcheck hskip hkind known

end Numbered

/-- What a program asks of an assignment. -/
structure Tournament.Met (t : Tournament) (options : Options) (values : Assignment)
    (tally : Tally) : Prop where
  games : Frame.GamesMet t options tally.game
  counts : Frame.CountsMet t tally
  admits : Frame.Admits t tally
  shares : options.soft = true → ∀ kind ∈ [Kind.ca1, .ca2, .ga1], Frame.Shares t options values kind
  rules : ∀ rule ∈ t.numbered, rule.isSkipped options = false →
    ∀ place ∈ rule.rule.demand.places t options,
      rule.rule.demand.short t tally options place ≤ rule.slack values place

/-- A program holds if and only if its frame is met, no violation is less than its rule is short of,
and the row of a cutoff holds. -/
theorem Stage.holds_iff (stage : Stage t options env)
    (henv : (t.program options).env? = some env) (shows : values.Shows t tally)
    (hwell : t.WellFormed) (hcheck : ∀ rule ∈ t.numbered, rule.check options = .ok ())
    (hfull : options.feasibility = false) :
    (t.program options).Holds values ↔ t.Met options values tally ∧
      ∀ block ∈ Program.subtos (goal options (t.charges options)), block.Holds env values := by
  have hrows := stage.toScene.frameRows_hold shows stage.symbols hfull hwell.two_le
  have hvariables := stage.toScene.frameVariables_hold shows stage.symbols
  have hholds : (t.program options).Holds values ↔
      (∀ decl ∈ Program.varDecls (t.program options), decl.Holds env values) ∧
        ∀ block ∈ Program.subtos (t.program options), block.Holds env values := by
    rw [Program.Holds, henv]
    simp
  rw [hholds, t.forall_subtos_iff, t.forall_varDecls_iff, hrows, hvariables, ← and_assoc]
  refine and_congr_left fun _ => ?_
  constructor
  · rintro ⟨⟨⟨hshares, hadmits⟩, hdecls⟩, ⟨hmet, hcounts⟩, hblocks⟩
    exact ⟨hmet, hcounts, hadmits, hshares, fun rule hmem => (Numbered.holds_iff stage shows hwell
      hmem (hcheck rule hmem) hmet hadmits hshares).mp ⟨hdecls rule hmem, hblocks rule hmem⟩⟩
  · intro met
    have hrules := fun rule hmem => (Numbered.holds_iff stage shows hwell hmem (hcheck rule hmem)
      met.games met.admits met.shares).mpr (met.rules rule hmem)
    exact ⟨⟨⟨met.shares, met.admits⟩, fun rule hmem => (hrules rule hmem).1⟩,
      ⟨met.games, met.counts⟩, fun rule hmem => (hrules rule hmem).2⟩

/-- A program without a cutoff holds if and only if its frame is met and no violation is less than
its rule is short of. -/
theorem Tournament.holds_iff_met (shows : values.Shows t tally) (hwell : t.WellFormed)
    (hcheck : ∀ rule ∈ t.numbered, rule.check options = .ok ())
    (hfull : options.feasibility = false) (hcutoff : options.soft = true → options.cutoff = none) :
    (t.program options).Holds values ↔ t.Met options values tally := by
  obtain ⟨env, henv, stage⟩ := Tournament.stage hcheck
  rw [stage.holds_iff henv shows hwell hcheck hfull, subtos_goal_of_no_cutoff hcutoff]
  exact and_iff_left (List.forall_mem_nil _)

end Meaning

end RoundRobin
