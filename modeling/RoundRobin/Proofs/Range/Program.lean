import RoundRobin.Proofs.Meaning.Hard
import RoundRobin.Proofs.Meaning.Soft
import RoundRobin.Proofs.Scoping.Program
import RoundRobin.Proofs.Zimpl.Mention

/-! The subscripts in a whole program. With all indices expanded, every row and objective refers to
games of two different teams, to breaks in slots but the first, and otherwise to what is
declared. -/

namespace RoundRobin

open Zimpl

/-- A variable of a program at subscripts that it has: games of two different teams in a slot,
breaks in a slot but the first, home games of a team up to a slot, and violations as they are
declared. -/
structure Tournament.InRange (t : Tournament) (program : Program)
    (occurrence : Occurrence) : Prop where
  declared : program.Declares occurrence
  game : occurrence.1 = "x" → ∃ home away slot : Int,
    occurrence.2 = [(home : Rat), (away : Rat), (slot : Rat)] ∧ home ≠ away ∧
      (0 ≤ home ∧ home < t.teamCount) ∧ (0 ≤ away ∧ away < t.teamCount) ∧
      0 ≤ slot ∧ slot < t.slotCount
  breaks : occurrence.1 ∈ ["bh", "ba"] → ∃ team slot : Int,
    occurrence.2 = [(team : Rat), (slot : Rat)] ∧ (0 ≤ team ∧ team < t.teamCount) ∧
      1 ≤ slot ∧ slot < t.slotCount
  homeGames : occurrence.1 = "hg" → ∃ team slot : Int,
    occurrence.2 = [(team : Rat), (slot : Rat)] ∧ (0 ≤ team ∧ team < t.teamCount) ∧
      0 ≤ slot ∧ slot < t.slotCount

variable {t : Tournament} {options : Options} {env : Env} {values : Assignment}

theorem Zimpl.Env.Ranges.exists_of_has {α : Type} {tuple : α → Tuple} {members : Finset α}
    {name : String}
    {place : Tuple} (h : env.Ranges name tuple members) (hhas : env.Has (name, place)) :
    ∃ a ∈ members, place = tuple a := by
  obtain ⟨order, horder, hlookup⟩ := h
  rw [Env.Has, hlookup, Option.getD_some] at hhas
  obtain ⟨a, ha, rfl⟩ := List.mem_map.mp hhas
  exact ⟨a, (horder.mem_iff a).mp ha, rfl⟩

/-- Breaks and home games are declared only where a rule counts them. -/
theorem Tournament.mem_of_mem_entities {name : String} (hname : name ∈ ["bh", "ba", "hg"])
    (h : name ∈ (t.entities options).map Prod.fst) :
    name ∈ (Frame.gameEntities t ++ Frame.balanceEntities t).map Prod.fst := by
  have hnames : ∀ name ∈ ["bh", "ba", "hg"], name ∈ Frame.fixedNames ∧
      name ∉ Frame.resourceEntities.map Prod.fst ++
        ["CA1", "ca1_viol", "CA2", "ca2_viol", "GA1", "ga1_viol", "ga1_min_viol"] := by
    decide
  obtain ⟨hfixed, hother⟩ := hnames name hname
  have h := Tournament.mem_fixedEntities hfixed h
  simp only [List.mem_append, not_or] at hother
  simp only [Frame.fixedEntities, List.map_append, List.mem_append] at h ⊢
  rcases h with ((hresource | hshared) | hgame) | hbalance
  · exact absurd hresource hother.1
  · exact absurd ((Frame.sublist_sharedEntities t options).subset hshared) hother.2
  · exact .inl hgame
  · exact .inr hbalance

theorem Tournament.hasBreaks_of_mem_entities {name : String} (hname : name ∈ ["bh", "ba"])
    (h : name ∈ (t.entities options).map Prod.fst) : t.hasBreaks = true := by
  have hmem := Tournament.mem_of_mem_entities
    ((show ∀ name ∈ ["bh", "ba"], name ∈ ["bh", "ba", "hg"] by decide) name hname) h
  have hnone : ∀ name ∈ ["bh", "ba"], name ≠ "x" ∧ name ≠ "hg" := by decide
  by_contra hbreaks
  simp only [Frame.gameEntities, hbreaks, Frame.balanceEntities] at hmem
  cases t.hasBalance <;> simp [hnone name hname] at hmem

theorem Tournament.hasBalance_of_mem_entities
    (h : "hg" ∈ (t.entities options).map Prod.fst) : t.hasBalance = true := by
  have hmem := Tournament.mem_of_mem_entities (by decide) h
  by_contra hbalance
  simp only [Frame.gameEntities, Frame.balanceEntities, hbalance] at hmem
  cases t.hasBreaks <;> simp at hmem

/-- What a program declares is in range. -/
theorem Stage.inRange (stage : Stage t options env) (henv : (t.program options).env? = some env)
    {occurrence : Occurrence} (hhas : env.Has occurrence) :
    t.InRange (t.program options) occurrence := by
  obtain ⟨name, place⟩ := occurrence
  have hdeclares := Program.declares_of_has henv hhas
  have hname : name ∈ (t.entities options).map Prod.fst := by
    obtain ⟨before, decl, after, hprogram, rfl, -⟩ := hdeclares
    rw [Program.map_fst_declared (t.declared?_program options)]
    exact List.mem_filterMap.mpr ⟨.var decl, hprogram ▸ List.mem_append_right _ (.head _), rfl⟩
  refine ⟨hdeclares, ?_, ?_, ?_⟩
  · rintro rfl
    obtain ⟨q, hq, rfl⟩ := stage.games.exists_of_has hhas
    obtain ⟨hteams, hslot⟩ := Finset.mem_product.mp hq
    obtain ⟨hhome, haway, hne⟩ := Finset.mem_offDiag.mp hteams
    exact ⟨q.1.1, q.1.2, q.2, rfl, hne, Tournament.mem_teamSet.mp hhome,
      Tournament.mem_teamSet.mp haway, Tournament.mem_slotSet.mp hslot⟩
  · intro hbreak
    have hbreaks := Tournament.hasBreaks_of_mem_entities hbreak hname
    have hranges : env.Ranges name Tuple.two (t.teamSet ×ˢ t.slotSet.erase 0) := by
      simp only [List.mem_cons, List.not_mem_nil, or_false] at hbreak
      rcases hbreak with rfl | rfl
      · exact stage.homeBreaks hbreaks
      · exact stage.awayBreaks hbreaks
    obtain ⟨q, hq, rfl⟩ := hranges.exists_of_has hhas
    obtain ⟨hteam, hslot⟩ := Finset.mem_product.mp hq
    obtain ⟨hne, hslot⟩ := Finset.mem_erase.mp hslot
    have hslot := Tournament.mem_slotSet.mp hslot
    exact ⟨q.1, q.2, rfl, Tournament.mem_teamSet.mp hteam, by omega, hslot.2⟩
  · rintro rfl
    obtain ⟨q, hq, rfl⟩ :=
      (stage.homeGames (Tournament.hasBalance_of_mem_entities hname)).exists_of_has hhas
    obtain ⟨hteam, hslot⟩ := Finset.mem_product.mp hq
    exact ⟨q.1, q.2, rfl, Tournament.mem_teamSet.mp hteam, Tournament.mem_slotSet.mp hslot⟩

/-- The charges that a cutoff bounds have a value where all charges have. -/
theorem Zimpl.Linear.exists_sumOf?_drop {terms : List Linear} {total : Rat}
    (h : Linear.sumOf? env values terms = some total) (count : Nat) :
    ∃ rest, Linear.sumOf? env values (terms.drop count) = some rest := by
  rw [← List.take_append_drop count terms, Linear.sumOf?_append] at h
  obtain ⟨_, -, h⟩ := Option.bind_eq_some_iff.mp h
  obtain ⟨rest, hrest, -⟩ := Option.map_eq_some_iff.mp h
  exact ⟨rest, hrest⟩

theorem goal_of_mem_objectives {options : Options} {charges : List Linear} {goal : Objective}
    (h : goal ∈ Program.objectives (RoundRobin.goal options charges)) :
    goal = mostGames ∨ options.soft = true ∧ goal = leastViolation charges := by
  obtain ⟨statement, hmem, hgoal⟩ := List.mem_filterMap.mp h
  rcases mem_goal hmem with rfl | rfl | ⟨hsoft, ⟨cutoff, -, -, rfl⟩ | ⟨-, rfl⟩⟩
  · exact nomatch hgoal
  · exact .inl (Option.some.inj hgoal).symm
  · exact nomatch hgoal
  · exact .inr ⟨hsoft, (Option.some.inj hgoal).symm⟩

namespace Stage

variable (stage : Stage t options env) (hcheck : ∀ rule ∈ t.numbered, rule.check options = .ok ())
include stage hcheck

theorem blocks_within (hwell : t.WellFormed)
    (heven : options.symmetric = true → t.slotCount % 2 = 0) :
    ∀ block ∈ Program.subtos (t.program options), block.Within env := by
  have shows := Assignment.shows_tally (fun _ _ => 0) t
  rw [t.subtos_program, List.forall_mem_append, List.forall_mem_append]
  refine ⟨⟨stage.frame_within shows stage.symbols heven, ?_⟩, fun block hblock => ?_⟩
  · refine List.forall_mem_flatMap.mpr fun rule hmem => ?_
    cases hskip : rule.isSkipped options with
    | true =>
      rw [Numbered.fragment, if_pos hskip]
      exact List.forall_mem_nil _
    | false =>
      exact rule.subtos_within stage.toScene shows stage.symbols hwell hmem (hcheck rule hmem) hskip
        (stage.known rule hmem hskip)
  · obtain ⟨hsoft, cutoff, -, rfl⟩ := exists_cutoff_of_mem_subtos hblock
    have hcharges : Linear.sumOf? env (fun _ _ => 0) (t.charges options) = _ :=
      stage.charges_value hsoft hcheck
    obtain ⟨rest, hrest⟩ := Linear.exists_sumOf?_drop hcharges cutoff.skip
    exact Subto.within_row ((Linear.value?_plus env _ _).trans hrest) (Arith.value?_int env _)

theorem goals_within : ∀ goal ∈ Program.objectives (t.program options),
    Everywhere env.Has (goal.occurrences? env) := by
  rw [t.objectives_program]
  intro goal hgoal
  rcases goal_of_mem_objectives hgoal with rfl | ⟨hsoft, rfl⟩
  · have hvalue := stage.value?_allGames (Assignment.shows_tally (fun _ _ => 0) t) stage.symbols
    exact Linear.has_of_sumOf? _ ((Linear.sumOf?_singleton env _ _).trans hvalue)
  · have hcharges : Linear.sumOf? env (fun _ _ => 0) (t.charges options) = _ :=
      stage.charges_value hsoft hcheck
    exact Linear.has_of_sumOf? _ hcharges

end Stage

/-- With all indices expanded, the rows and the objective of a program refer to games of two
different teams, to breaks in slots but the first, and to violations where they are declared, unless
the season is to be mirrored and has an odd number of slots. -/
theorem Tournament.everywhere_inRange {read? : Markup.Reader} {text : String} {program : Program}
    (hread : Tournament.readBy read? text = .ok t) (h : t.formulate options = .ok program)
    (heven : options.symmetric = true → t.slotCount % 2 = 0) :
    Everywhere (t.InRange program) program.occurrences? := by
  obtain ⟨rfl, hcheck⟩ := Tournament.of_formulate h
  obtain ⟨env, henv, stage⟩ := Tournament.stage hcheck
  have hwell := Tournament.wellFormed_of_readBy hread
  exact (Program.everywhere_occurrences? henv (stage.blocks_within hcheck hwell heven)
    (stage.goals_within hcheck)).mono fun _ hhas => stage.inRange henv hhas

/-- Two teams that play in turn, of which the first is to have at most one home game in each window
of two slots and no break. -/
def windowPairText : String :=
  "<Instance><team id=\"0\"/><team id=\"1\"/><slot id=\"0\"/><slot id=\"1\"/><Constraints>"
    ++ "<CA3 intp=\"2\" max=\"1\" min=\"0\" mode1=\"H\" mode2=\"SLOTS\" penalty=\"2\" teams1=\"0\" "
    ++ "teams2=\"1\" type=\"SOFT\"/>"
    ++ "<BR1 intp=\"0\" mode1=\"LEQ\" mode2=\"HA\" penalty=\"1\" slots=\"0;1\" teams=\"0\" "
    ++ "type=\"HARD\"/>"
    ++ "</Constraints></Instance>"

def windowPairTournament : Tournament where
  name := none
  teams := [0, 1]
  slots := [0, 1]
  phased := false
  rules := [⟨.soft 2, .ca3 ⟨0, 1, 2, .home, [0], [1]⟩⟩, ⟨.hard, .br1 ⟨0, .both, [0], [0, 1]⟩⟩]

theorem read_windowPairText : Tournament.read windowPairText = .ok windowPairTournament :=
  Tournament.read_eq_ok (toList_append_ofList (toList_append_ofList (toList_append_ofList
    (toList_append_ofList (toList_append_ofList String.toList_ofList))))) (by decide +kernel)

/-- The second half mirrors the first, and the two slots make one window and allow one break. -/
theorem everywhere_inRange_windowPair :
    Everywhere (windowPairTournament.InRange (windowPairTournament.program { symmetric := true }))
      (windowPairTournament.program { symmetric := true }).occurrences? := by
  have hprogram : windowPairTournament.formulate { symmetric := true } =
      .ok (windowPairTournament.program { symmetric := true }) := rfl
  exact Tournament.everywhere_inRange read_windowPairText hprogram fun _ => rfl

end RoundRobin
