import RoundRobin.Proofs.Meaning.Stage

/-! The games of a tournament and the sets of its program. The list of games has each ordered pair
of different teams once, in ascending order. The set of pairs that a program declares has the same
pairs, so the number of games in all slots is the number of game variables. -/

namespace RoundRobin

open Zimpl

/-- The two teams of a game, the home team first. -/
def Match.pair (game : Match) : Int × Int := (game.home, game.away)

theorem Match.of?_eq_some_iff {home away : Int} {game : Match} :
    Match.of? home away = some game ↔ game.pair = (home, away) := by
  unfold Match.of?
  constructor
  · intro h
    split at h <;> cases h
    rfl
  · intro h
    obtain ⟨rfl, rfl⟩ := Prod.mk.inj h
    rw [dif_neg game.home_ne_away]

namespace Tournament

theorem pairwise_firstIds (count : Nat) : (firstIds count).Pairwise (· < ·) := by
  rw [firstIds, List.pairwise_map]
  exact List.pairwise_lt_range.imp Int.ofNat_lt.mpr

/-- Games are listed by home team, and those of one home team by away team. -/
theorem pairwise_games (t : Tournament) :
    t.games.Pairwise fun a b => toLex a.pair < toLex b.pair := by
  simp only [Prod.Lex.toLex_lt_toLex]
  refine List.pairwise_flatMap.mpr ⟨fun home _ => ?_, ?_⟩
  · refine (pairwise_firstIds _).filterMap _ fun away away' hlt game hgame game' hgame' => ?_
    rw [Match.of?_eq_some_iff.mp hgame, Match.of?_eq_some_iff.mp hgame']
    exact .inr ⟨rfl, hlt⟩
  · refine (pairwise_firstIds _).imp fun {home home'} hlt game hgame game' hgame' => ?_
    obtain ⟨away, -, hgame⟩ := List.mem_filterMap.mp hgame
    obtain ⟨away', -, hgame'⟩ := List.mem_filterMap.mp hgame'
    rw [Match.of?_eq_some_iff.mp hgame, Match.of?_eq_some_iff.mp hgame']
    exact .inl hlt

theorem mem_games {t : Tournament} {game : Match} :
    game ∈ t.games ↔ game.home ∈ t.teamSet ∧ game.away ∈ t.teamSet := by
  simp only [games, List.mem_flatMap, List.mem_filterMap, Match.of?_eq_some_iff, Match.pair,
    Prod.mk.injEq, teamSet, List.mem_toFinset]
  constructor
  · rintro ⟨home, hhome, away, haway, rfl, rfl⟩
    exact ⟨hhome, haway⟩
  · exact fun h => ⟨_, h.1, _, h.2, rfl, rfl⟩

/-- The pairs of the games are those of different teams, each once. -/
theorem listing_games (t : Tournament) : Listing (t.games.map Match.pair) t.teamSet.offDiag where
  nodup := by
    have hne : t.games.Pairwise fun a b => a.pair ≠ b.pair :=
      t.pairwise_games.imp fun {a b} hlt heq => (heq ▸ hlt).false
    exact List.pairwise_map.mpr hne
  mem_iff pair := by
    rw [List.mem_map, Finset.mem_offDiag]
    constructor
    · rintro ⟨game, hgame, rfl⟩
      exact ⟨(mem_games.mp hgame).1, (mem_games.mp hgame).2, game.home_ne_away⟩
    · rintro ⟨hhome, haway, hne⟩
      exact ⟨⟨pair.1, pair.2, hne⟩, mem_games.mpr ⟨hhome, haway⟩, rfl⟩

theorem length_games (t : Tournament) : t.games.length = t.teamCount * (t.teamCount - 1) := by
  rw [← List.length_map Match.pair, t.listing_games.length_eq, Finset.offDiag_card, t.card_teamSet,
    Nat.mul_sub_one]

theorem gameSlotCount_eq (t : Tournament) :
    t.gameSlotCount = t.teamCount * (t.teamCount - 1) * t.slotCount := by
  rw [gameSlotCount, length_games]

/-- Some tuples are known, each once, and there are as many as there are games in all slots. -/
def CountsGames (t : Tournament) (found : Option (List Tuple)) : Prop :=
  ∃ places, found = some places ∧ places.Nodup ∧ places.length = t.gameSlotCount

/-- A program enumerates the games of a tournament: over the number of its teams, the set of pairs
that it declares has the pair of each game, and the set over which it declares the game variables
has a member for each game in each slot. -/
structure EnumeratedIn (t : Tournament) (program : Program) (env : Env) : Prop where
  names : program.env? = some env
  teams : env.value? "teams" = some (t.teamCount : Rat)
  declared : .set "M" (Frame.pairSet (.ne "m" "n")) ∈ program ∧
    .var (.binary "x" (times "M" "S")) ∈ program
  pairs : ∃ pairs, (SetTerm.name "M").tuples? env = some pairs ∧ pairs.Nodup ∧
    ∀ tuple, tuple ∈ pairs ↔ ∃ game ∈ t.games, tuple = Tuple.two game.pair
  places : t.CountsGames ((times "M" "S").tuples? env)
  gameVariables : t.CountsGames (env.subscripts.lookup "x")

variable {t : Tournament} {options : Options} {env : Env}

theorem countsGames_of_listing {order : List ((Int × Int) × Int)}
    (h : Listing order (t.teamSet.offDiag ×ˢ t.slotSet)) :
    t.CountsGames (some (order.map Tuple.three)) := by
  refine ⟨_, rfl, h.nodup.map Tuple.three_injective, ?_⟩
  rw [List.length_map, h.length_eq, Finset.card_product, t.card_slotSet,
    ← t.listing_games.length_eq, List.length_map, gameSlotCount]

/-- Whatever is declared behind the frame, the names of the frame keep what they stand for. -/
theorem enumeratedIn_of_scene {program : Program} (scene : Scene t options env)
    (hsymbols : env.symbols = []) (hnames : program.env? = some env)
    (hframe : Frame.statements t options ⊆ program) : t.EnumeratedIn program env where
  names := hnames
  teams := by rw [Env.value?, hsymbols, scene.teams]; rfl
  declared := by
    constructor <;> apply hframe
    · simp [Frame.statements, Frame.resources]
    · simp [Frame.statements, Frame.gameVariables]
  pairs := by
    obtain ⟨order, horder, htuples⟩ := scene.pairs
    refine ⟨_, htuples, horder.nodup.map Tuple.two_injective, fun tuple => ?_⟩
    rw [List.mem_map]
    constructor
    · rintro ⟨pair, hpair, rfl⟩
      rw [horder.mem_iff, ← t.listing_games.mem_iff] at hpair
      obtain ⟨game, hgame, rfl⟩ := List.mem_map.mp hpair
      exact ⟨game, hgame, rfl⟩
    · rintro ⟨game, hgame, rfl⟩
      have hpair : game.pair ∈ t.games.map Match.pair := List.mem_map_of_mem hgame
      rw [t.listing_games.mem_iff, ← horder.mem_iff] at hpair
      exact ⟨game.pair, hpair, rfl⟩
  places := by
    obtain ⟨order, horder, htuples⟩ := SetTerm.lists_pairs_one scene.pairs scene.slotSet
    exact htuples ▸ countsGames_of_listing horder
  gameVariables := by
    obtain ⟨order, horder, hlookup⟩ := scene.games
    exact hlookup ▸ countsGames_of_listing horder

/-- The games are the ordered pairs of different teams, each once and in ascending order. Their
number is known, and both the frame of a tournament, whatever its rules, and each program that is
formulated enumerate them. -/
theorem enumeratesGames (t : Tournament) (options : Options) :
    (t.games.Pairwise fun a b => toLex a.pair < toLex b.pair) ∧
      (∀ home away, (t.games.map Match.pair).count (home, away) =
        if (0 ≤ home ∧ home < t.teamCount) ∧ (0 ≤ away ∧ away < t.teamCount) ∧ home ≠ away then 1
        else 0) ∧
      t.gameSlotCount = t.teamCount * (t.teamCount - 1) * t.slotCount ∧
      (∃ env, t.EnumeratedIn (Frame.statements t options) env) ∧
      ∀ program, t.formulate options = .ok program → ∃ env, t.EnumeratedIn program env := by
  refine ⟨t.pairwise_games, fun home away => ?_, t.gameSlotCount_eq, ?_, fun program hprogram => ?_⟩
  · rw [t.listing_games.nodup.count]
    refine if_congr ?_ rfl rfl
    rw [t.listing_games.mem_iff, Finset.mem_offDiag, mem_teamSet, mem_teamSet]
  · obtain ⟨env, hnames, hsymbols, scene⟩ := Frame.scene t options
    exact ⟨env, enumeratedIn_of_scene scene hsymbols hnames (List.Subset.refl _)⟩
  · obtain ⟨rfl, hcheck⟩ := of_formulate hprogram
    obtain ⟨env, hnames, stage⟩ := stage hcheck
    refine ⟨env, enumeratedIn_of_scene stage.toScene stage.symbols hnames fun statement h => ?_⟩
    exact List.mem_append_left _ (List.mem_append_left _ h)

end Tournament

/-- Two teams have two games, each once at home. -/
theorem enumeratesGames_pairTournament :
    pairTournament.formulate {} = .ok (pairTournament.program {}) ∧
      pairTournament.games.map Match.pair = [(0, 1), (1, 0)] ∧
      ∃ env, pairTournament.EnumeratedIn (pairTournament.program {}) env :=
  ⟨rfl, rfl, (pairTournament.enumeratesGames {}).2.2.2.2 _ rfl⟩

end RoundRobin
