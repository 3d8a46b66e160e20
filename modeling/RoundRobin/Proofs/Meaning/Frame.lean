import RoundRobin.Proofs.Meaning.Cuts
import RoundRobin.Proofs.Zimpl.Blocks

/-! What the rows of a frame say, block by block, as statements about the numbers that its variables
count. -/

namespace RoundRobin

open Zimpl

/-- What the rows on games alone ask. -/
structure Frame.GamesMet (t : Tournament) (options : Options) (game : Int → Int → Int → Rat) :
    Prop where
  once : ∀ p ∈ t.teamSet.offDiag, ∑ slot ∈ t.slotSet, game p.1 p.2 slot = 1
  full : ∀ slot ∈ t.slotSet, ∑ p ∈ t.teamSet.offDiag, game p.1 p.2 slot = t.teamCount / 2
  daily : ∀ slot ∈ t.slotSet, ∀ team ∈ t.teamSet,
    ∑ other ∈ t.teamSet.erase team, game team other slot
      + ∑ other ∈ t.teamSet.erase team, game other team slot = 1
  fixed : options.fixGameCount = true →
    ∑ q ∈ t.teamSet.offDiag ×ˢ t.slotSet, game q.1.1 q.1.2 q.2 = t.slotCount * t.teamCount / 2
  odd : ∀ family ∈ Frame.oddFamilies t options, ∀ slot ∈ t.slotSet,
    ∀ set ∈ t.teamSet.powersetCard family.2,
      1 ≤ ∑ p ∈ set ×ˢ (t.teamSet \ set), (game p.1 p.2 slot + game p.2 p.1 slot)
  halves : t.phased = true → options.symmetric = false →
    ∀ p ∈ t.teamSet ×ˢ t.teamSet, p.1 < p.2 →
      ∑ slot ∈ t.firstHalf, (game p.1 p.2 slot + game p.2 p.1 slot) = 1
  mirror : options.symmetric = true → t.slotCount % 2 = 0 ∧
    ∀ p ∈ t.teamSet.offDiag, ∀ slot ∈ t.firstHalf,
      game p.1 p.2 slot = game p.2 p.1 (slot + (t.slotCount / 2 : Nat))

/-- What the rows on breaks and home games ask. -/
structure Frame.CountsMet (t : Tournament) (tally : Tally) : Prop where
  homeBreaks : t.hasBreaks = true → ∀ team ∈ t.teamSet, ∀ slot ∈ t.slotSet.erase 0,
    ∑ other ∈ t.teamSet.erase team, tally.game team other (slot - 1)
      + ∑ other ∈ t.teamSet.erase team, tally.game team other slot - 1
        ≤ tally.homeBreak team slot
  awayBreaks : t.hasBreaks = true → ∀ team ∈ t.teamSet, ∀ slot ∈ t.slotSet.erase 0,
    ∑ other ∈ t.teamSet.erase team, tally.game other team (slot - 1)
      + ∑ other ∈ t.teamSet.erase team, tally.game other team slot - 1
        ≤ tally.awayBreak team slot
  homeGames : t.hasBalance = true → ∀ team ∈ t.teamSet, ∀ slot ∈ t.slotSet,
    ∑ game ∈ t.teamSet.erase team ×ˢ {played ∈ t.slotSet | played ≤ slot},
      tally.game team game.1 game.2 = tally.homeGames team slot

theorem Frame.exactly_of_full {options : Options} (hfull : options.feasibility = false) :
    Frame.exactly options = .eq := by
  rw [Frame.exactly, hfull]
  rfl

/-- The blocks of a frame on games alone. -/
def Frame.gameBlocks (t : Tournament) (options : Options) : List Subto :=
  Program.subtos (Frame.schedule options) ++ Program.subtos (Frame.fixedCount options)
    ++ Program.subtos ((Frame.oddFamilies t options).flatMap
        fun (name, size) => Frame.oddFamily name size)
    ++ Program.subtos (Frame.halves t options) ++ Program.subtos (Frame.mirror options)

theorem Frame.subtos_oddFamilies (families : List (String × Nat)) :
    Program.subtos (families.flatMap fun (name, size) => Frame.oddFamily name size) =
      families.flatMap fun family => Program.subtos (Frame.oddFamily family.1 family.2) :=
  List.filterMap_flatMap

theorem Frame.mem_subtos_oddFamilies {families : List (String × Nat)} {block : Subto} :
    block ∈ Program.subtos (families.flatMap fun (name, size) => Frame.oddFamily name size) ↔
      ∃ family ∈ families, block ∈ Program.subtos (Frame.oddFamily family.1 family.2) := by
  rw [Frame.subtos_oddFamilies, List.mem_flatMap]

/-- The blocks of a frame, in order. -/
theorem Frame.subtos_statements (t : Tournament) (options : Options) :
    Program.subtos (Frame.statements t options) =
      Program.subtos (Frame.schedule options) ++ Program.subtos (Frame.fixedCount options)
        ++ Program.subtos ((Frame.oddFamilies t options).flatMap
            fun (name, size) => Frame.oddFamily name size)
        ++ Program.subtos (Frame.breakCount t) ++ Program.subtos (Frame.halves t options)
        ++ Program.subtos (Frame.homeGames t) ++ Program.subtos (Frame.mirror options) := by
  have hnone := fun part hpart =>
    Program.subtos_of_isPreliminary (Frame.isPreliminary_parts t options part hpart)
  simp only [List.forall_mem_cons] at hnone
  obtain ⟨hheading, hresources, harrays, hvariables, -⟩ := hnone
  simp only [Frame.statements, Program.subtos_append, hheading, hresources, harrays, hvariables,
    List.nil_append]

theorem Frame.mem_subtos {t : Tournament} {options : Options} {block : Subto} :
    block ∈ Program.subtos (Frame.statements t options) ↔ block ∈ Frame.gameBlocks t options ∨
      block ∈ Program.subtos (Frame.breakCount t) ∨ block ∈ Program.subtos (Frame.homeGames t) := by
  simp only [Frame.subtos_statements, Frame.gameBlocks, List.mem_append]
  tauto

theorem Frame.mem_varDecls {t : Tournament} {options : Options} {decl : VarDecl} :
    decl ∈ Program.varDecls (Frame.statements t options) ↔
      decl ∈ Program.varDecls (Frame.sharedArrays t options) ∨
      decl ∈ Program.varDecls (Frame.gameVariables t) ∨
      decl ∈ Program.varDecls (Frame.homeGames t) := by
  have hnone := fun part hpart =>
    Program.varDecls_of_isSilent (Frame.isSilent_parts t options part hpart)
  simp only [List.forall_mem_cons] at hnone
  obtain ⟨hheading, hschedule, hfixed, hcount, hhalves, hmirror, -⟩ := hnone
  have hresources : Program.varDecls (Frame.resources t) = [] := rfl
  have hodd : Program.varDecls ((Frame.oddFamilies t options).flatMap
      fun (name, size) => Frame.oddFamily name size) = [] := by
    rw [Program.varDecls, List.filterMap_flatMap, List.flatMap_eq_nil_iff]
    exact fun _ _ => rfl
  simp only [Frame.statements, Program.varDecls_append, hheading, hresources, hschedule, hfixed,
    hodd, hcount, hhalves, hmirror, List.nil_append, List.append_nil, List.mem_append, or_assoc]

theorem sum_filter_fst_offDiag {teams : Finset Int} {team : Int} (hteam : team ∈ teams)
    (f : Int × Int → Rat) :
    ∑ p ∈ teams.offDiag with team = p.1, f p = ∑ other ∈ teams.erase team, f (team, other) := by
  rw [← Finset.sum_singleton (fun a => ∑ other ∈ teams.erase a, f (a, other)) team]
  refine Finset.sum_finset_product _ _ _ fun p => ?_
  simp only [Finset.mem_filter, Finset.mem_offDiag, Finset.mem_singleton, Finset.mem_erase]
  constructor
  · rintro ⟨⟨-, h2, hne⟩, h⟩
    exact ⟨h.symm, hne.symm, h2⟩
  · rintro ⟨rfl, hne, h2⟩
    exact ⟨⟨hteam, h2, hne.symm⟩, rfl⟩

theorem sum_filter_snd_offDiag {teams : Finset Int} {team : Int} (hteam : team ∈ teams)
    (f : Int × Int → Rat) :
    ∑ p ∈ teams.offDiag with team = p.2, f p = ∑ other ∈ teams.erase team, f (other, team) := by
  rw [← Finset.sum_singleton (fun a => ∑ other ∈ teams.erase a, f (other, a)) team]
  refine Finset.sum_finset_product_right _ _ _ fun p => ?_
  simp only [Finset.mem_filter, Finset.mem_offDiag, Finset.mem_singleton, Finset.mem_erase]
  constructor
  · rintro ⟨⟨h1, -, hne⟩, h⟩
    exact ⟨h.symm, hne, h1⟩
  · rintro ⟨rfl, hne, h1⟩
    exact ⟨⟨h1, hteam, hne⟩, rfl⟩

/-- A slot but the first, and the slot before it. -/
theorem Tournament.mem_slotSet_of_mem_erase (t : Tournament) {s : Int}
    (hs : s ∈ t.slotSet.erase 0) : s ∈ t.slotSet ∧ s - 1 ∈ t.slotSet := by
  rw [Finset.mem_erase, Tournament.mem_slotSet] at hs
  rw [Tournament.mem_slotSet, Tournament.mem_slotSet]
  omega

/-- The slots from which the rows that mirror a season start. -/
def Tournament.mirrored (t : Tournament) : Finset Int :=
  {slot ∈ t.slotSet | 2 * slot + 1 ≤ t.slotCount}

theorem Tournament.mem_mirrored {t : Tournament} {slot : Int} :
    slot ∈ t.mirrored ↔ 0 ≤ slot ∧ 2 * slot + 1 ≤ t.slotCount := by
  rw [mirrored, Finset.mem_filter, mem_slotSet]
  omega

theorem Tournament.mirrored_eq_firstHalf (t : Tournament) (heven : t.slotCount % 2 = 0) :
    t.mirrored = t.firstHalf := by
  ext slot
  rw [mem_mirrored, mem_firstHalf]
  omega

namespace Scene

variable {t : Tournament} {options : Options} {env : Env} {values : Assignment} {tally : Tally}

/-- Where the team is bound already, the sum runs over the pairs with the team in first place. -/
theorem value?_homeOf (scene : Scene t options env) (shows : values.Shows t tally)
    {team s : Int}
    (hteam : env.symbols.lookup "t" = some (team : Rat)) (hother : env.symbols.lookup "n" = none)
    (hslot : env.value? "s" = some (s : Rat)) (hmem : team ∈ t.teamSet) (hs : s ∈ t.slotSet) :
    (Linear.sumOver (.over ["t", "n"] "M") (playedIn "t" "n" "s")).value? env values =
      some (∑ other ∈ t.teamSet.erase team, tally.game team other s) := by
  have hvalue : env.value? "t" = some (team : Rat) := by simp [Env.value?, hteam]
  have hbody : ∀ p ∈ t.teamSet.offDiag.filter (team = ·.1),
      (playedIn "t" "n" "s").value? (env.bind "n" p.2) values =
        some (tally.game p.1 p.2 s) := fun p hp => by
    obtain ⟨hpair, rfl⟩ := Finset.mem_filter.mp hp
    exact (scene.bind "n" p.2).value?_playedIn shows (by simp [hvalue]) (by simp)
      (by simp [hslot]) hpair hs
  rw [Linear.value?_sumOver (Index.runs_first_bound scene.pairs hteam hother) hbody,
    sum_filter_fst_offDiag hmem]

theorem value?_awayOf (scene : Scene t options env) (shows : values.Shows t tally)
    {team s : Int}
    (hteam : env.symbols.lookup "t" = some (team : Rat)) (hother : env.symbols.lookup "m" = none)
    (hslot : env.value? "s" = some (s : Rat)) (hmem : team ∈ t.teamSet) (hs : s ∈ t.slotSet) :
    (Linear.sumOver (.over ["m", "t"] "M") (playedIn "m" "t" "s")).value? env values =
      some (∑ other ∈ t.teamSet.erase team, tally.game other team s) := by
  have hvalue : env.value? "t" = some (team : Rat) := by simp [Env.value?, hteam]
  have hbody : ∀ p ∈ t.teamSet.offDiag.filter (team = ·.2),
      (playedIn "m" "t" "s").value? (env.bind "m" p.1) values =
        some (tally.game p.1 p.2 s) := fun p hp => by
    obtain ⟨hpair, rfl⟩ := Finset.mem_filter.mp hp
    exact (scene.bind "m" p.1).value?_playedIn shows (by simp) (by simp [hvalue])
      (by simp [hslot]) hpair hs
  rw [Linear.value?_sumOver (Index.runs_second_bound scene.pairs hother hteam (by decide)) hbody,
    sum_filter_snd_offDiag hmem]

theorem value?_onceOver (scene : Scene t options env) (shows : values.Shows t tally)
    (hsymbols : env.symbols = []) {p : Int × Int} (hp : p ∈ t.teamSet.offDiag) :
    (Linear.sumOver (.over ["s"] "S") (playedIn "m" "n" "s")).value?
      ((env.bind "m" p.1).bind "n" p.2) values =
        some (∑ slot ∈ t.slotSet, tally.game p.1 p.2 slot) := by
  have inner := (scene.bind "m" p.1).bind "n" p.2
  exact Linear.value?_sumOver (Index.runs_one inner.slotSet (by simp [hsymbols])) fun s hs =>
    (inner.bind "s" s).value?_playedIn shows (by simp) (by simp) (by simp) hp hs

theorem value?_slotGames (scene : Scene t options env) (shows : values.Shows t tally)
    (hsymbols : env.symbols = []) {s : Int} (hs : s ∈ t.slotSet) :
    (Linear.sumOver (.over ["m", "n"] "M") (playedIn "m" "n" "s")).value? (env.bind "s" s) values =
      some (∑ p ∈ t.teamSet.offDiag, tally.game p.1 p.2 s) := by
  have inner := scene.bind "s" s
  exact Linear.value?_sumOver (Index.runs_two inner.pairs (by simp [hsymbols]) (by simp [hsymbols])
    (by decide)) fun p hp =>
      ((inner.bind "m" p.1).bind "n" p.2).value?_playedIn shows (by simp) (by simp) (by simp) hp hs

theorem value?_perSlot (scene : Scene t options env) (hsymbols : env.symbols = []) (s : Int) :
    (Linear.const "matches_per_slot").value? (env.bind "s" s) values =
      some (t.teamCount / 2 : Rat) := by
  simp [Linear.value?, Env.value?, hsymbols, scene.perSlot]

theorem value?_allGames (scene : Scene t options env) (shows : values.Shows t tally)
    (hsymbols : env.symbols = []) :
    (Linear.sumOver (.over ["m", "n", "s"] (times "M" "S")) (playedIn "m" "n" "s")).value? env
      values = some (∑ q ∈ t.teamSet.offDiag ×ˢ t.slotSet, tally.game q.1.1 q.1.2 q.2) :=
  Linear.value?_sumOver (Index.runs_three (SetTerm.lists_pairs_one scene.pairs scene.slotSet)
    (by simp [hsymbols]) (by simp [hsymbols]) (by simp [hsymbols]) (by decide) (by decide)
    (by decide)) fun q hq =>
      (((scene.bind "m" q.1.1).bind "n" q.1.2).bind "s" q.2).value?_playedIn shows (by simp)
        (by simp) (by simp) (Finset.mem_product.mp hq).1 (Finset.mem_product.mp hq).2

theorem value?_gameTotal (scene : Scene t options env) (hsymbols : env.symbols = []) :
    (Linear.const ("slots" * "teams" / 2)).value? env values =
      some (t.slotCount * t.teamCount / 2 : Rat) := by
  have hparam : ∀ name : String,
      (Arith.name name).value? env = env.params.lookup name := fun name => by
    simp [Env.value?, hsymbols]
  exact Arith.value?_half (Arith.value?_mul ((hparam "slots").trans scene.slots)
    ((hparam "teams").trans scene.teams))

theorem value?_firstHalf (scene : Scene t options env) (shows : values.Shows t tally)
    (hsymbols : env.symbols = []) {p : Int × Int} (hp : p ∈ t.teamSet.offDiag) :
    (Linear.sumOver (.over ["s"] "S1") (eitherWay "m" "n" "s")).value?
      ((env.bind "m" p.1).bind "n" p.2) values =
        some (∑ slot ∈ t.firstHalf, (tally.game p.1 p.2 slot + tally.game p.2 p.1 slot)) := by
  have inner := (scene.bind "m" p.1).bind "n" p.2
  exact Linear.value?_sumOver (Index.runs_one inner.firstHalf (by simp [hsymbols])) fun s hs =>
    (inner.bind "s" s).value?_eitherWay shows (by simp) (by simp) (by simp) hp
      (t.mem_slotSet_of_mem_firstHalf hs)

/-- How often each game takes place. -/
theorem once_means (scene : Scene t options env) (shows : values.Shows t tally)
    (hsymbols : env.symbols = []) (relation : Relation) :
    Subto.Means env values ⟨"c1", [.over ["m", "n"] "M"],
        [⟨.sumOver (.over ["s"] "S") (playedIn "m" "n" "s"), relation, one⟩]⟩
      (∀ p ∈ t.teamSet.offDiag,
        relation.Holds (∑ slot ∈ t.slotSet, tally.game p.1 p.2 slot) 1) := by
  refine Subto.means_forall (Index.runs_two scene.pairs (by simp [hsymbols]) (by simp [hsymbols])
    (by decide)) fun p hp => Subto.means_row ?_
  exact Row.means (scene.value?_onceOver shows hsymbols hp) (value?_oneTerm _ _)

/-- How many games a slot has. -/
theorem full_means (scene : Scene t options env) (shows : values.Shows t tally)
    (hsymbols : env.symbols = []) (relation : Relation) :
    Subto.Means env values ⟨"c2", [.over ["s"] "S"],
        [⟨.sumOver (.over ["m", "n"] "M") (playedIn "m" "n" "s"), relation,
          .const "matches_per_slot"⟩]⟩
      (∀ slot ∈ t.slotSet,
        relation.Holds (∑ p ∈ t.teamSet.offDiag, tally.game p.1 p.2 slot) (t.teamCount / 2)) := by
  refine Subto.means_forall (Index.runs_one scene.slotSet (by simp [hsymbols])) fun s hs =>
    Subto.means_row ?_
  exact Row.means (scene.value?_slotGames shows hsymbols hs) (scene.value?_perSlot hsymbols s)

/-- How often a team plays in a slot. -/
theorem daily_means (scene : Scene t options env) (shows : values.Shows t tally)
    (hsymbols : env.symbols = []) (relation : Relation) :
    Subto.Means env values ⟨"c3", [.over ["s"] "S", .over ["t"] "T"],
        [⟨.plus [.sumOver (.over ["t", "n"] "M") (playedIn "t" "n" "s"),
          .sumOver (.over ["m", "t"] "M") (playedIn "m" "t" "s")], relation, one⟩]⟩
      (∀ slot ∈ t.slotSet, ∀ team ∈ t.teamSet,
        relation.Holds (∑ other ∈ t.teamSet.erase team, tally.game team other slot
          + ∑ other ∈ t.teamSet.erase team, tally.game other team slot) 1) := by
  refine Subto.means_forall (Index.runs_one scene.slotSet (by simp [hsymbols])) fun s hs => ?_
  refine Subto.means_forall (Index.runs_one (scene.bind "s" s).teamSet (by simp [hsymbols]))
    fun team hteam => Subto.means_row ?_
  have inner := (scene.bind "s" s).bind "t" team
  exact Row.means (Linear.value?_plus_pair
    (inner.value?_homeOf shows (by simp) (by simp [hsymbols]) (by simp) hteam hs)
    (inner.value?_awayOf shows (by simp) (by simp [hsymbols]) (by simp) hteam hs))
      (value?_oneTerm _ _)

theorem schedule_mean (scene : Scene t options env) (shows : values.Shows t tally)
    (hsymbols : env.symbols = []) :
    Subto.AllMean env values (Program.subtos (Frame.schedule options))
      ((∀ p ∈ t.teamSet.offDiag,
        (Frame.exactly options).Holds (∑ slot ∈ t.slotSet, tally.game p.1 p.2 slot) 1) ∧
      (∀ slot ∈ t.slotSet, (Frame.exactly options).Holds
        (∑ p ∈ t.teamSet.offDiag, tally.game p.1 p.2 slot) (t.teamCount / 2)) ∧
      ∀ slot ∈ t.slotSet, ∀ team ∈ t.teamSet,
        (Frame.exactly options).Holds (∑ other ∈ t.teamSet.erase team, tally.game team other slot
          + ∑ other ∈ t.teamSet.erase team, tally.game other team slot) 1) := by
  show Subto.AllMean env values [_, _, _] _
  exact .cons (scene.once_means shows hsymbols _) (.cons (scene.full_means shows hsymbols _)
    (.single (scene.daily_means shows hsymbols _)))

theorem fixedCount_mean (scene : Scene t options env) (shows : values.Shows t tally)
    (hsymbols : env.symbols = []) :
    Subto.AllMean env values (Program.subtos (Frame.fixedCount options))
      (options.fixGameCount = true →
        ∑ q ∈ t.teamSet.offDiag ×ˢ t.slotSet, tally.game q.1.1 q.1.2 q.2 =
          t.slotCount * t.teamCount / 2) := by
  unfold Frame.fixedCount
  refine .emitted fun _ => .single (Subto.means_row ?_)
  exact Row.means (scene.value?_allGames shows hsymbols) (scene.value?_gameTotal hsymbols)

/-- How often each pairing takes place in the first half. -/
theorem pairing_means (scene : Scene t options env) (shows : values.Shows t tally)
    (hsymbols : env.symbols = []) (relation : Relation) :
    Subto.Means env values ⟨"c4", [.over ["m", "n"] "MR"],
        [⟨.sumOver (.over ["s"] "S1") (eitherWay "m" "n" "s"), relation, one⟩]⟩
      (∀ p ∈ t.teamSet ×ˢ t.teamSet, p.1 < p.2 → relation.Holds
        (∑ slot ∈ t.firstHalf, (tally.game p.1 p.2 slot + tally.game p.2 p.1 slot)) 1) := by
  have hpair : ∀ p ∈ {p ∈ t.teamSet ×ˢ t.teamSet | p.1 < p.2},
      p ∈ t.teamSet.offDiag := fun p hp => by
    obtain ⟨hteams, hlt⟩ := Finset.mem_filter.mp hp
    exact Finset.mem_offDiag.mpr
      ⟨(Finset.mem_product.mp hteams).1, (Finset.mem_product.mp hteams).2, hlt.ne⟩
  refine (Subto.means_forall (Index.runs_two scene.lesserPairs (by simp [hsymbols])
    (by simp [hsymbols]) (by decide)) fun p hp => Subto.means_row (Row.means
      (scene.value?_firstHalf shows hsymbols (hpair p hp)) (value?_oneTerm _ _))).congr ?_
  simp only [Finset.mem_filter, and_imp]

theorem halves_mean (scene : Scene t options env) (shows : values.Shows t tally)
    (hsymbols : env.symbols = []) :
    Subto.AllMean env values (Program.subtos (Frame.halves t options))
      (t.phased = true → options.symmetric = false →
        ∀ p ∈ t.teamSet ×ˢ t.teamSet, p.1 < p.2 → (Frame.exactly options).Holds
          (∑ slot ∈ t.firstHalf, (tally.game p.1 p.2 slot + tally.game p.2 p.1 slot)) 1) := by
  unfold Frame.halves
  refine (Subto.AllMean.emitted fun _ => .single (scene.pairing_means shows hsymbols _)).congr ?_
  simp only [Bool.and_eq_true, Bool.not_eq_true', and_imp]

theorem lists_mirrored (scene : Scene t options env) (hslots : env.symbols.lookup "slots" = none) :
    (SetTerm.range 0 (.floor (("slots" - 1) / 2))).Lists env Tuple.one t.mirrored := by
  have hparam : (Arith.name "slots").value? env = some (t.slotCount : Rat) := by
    simp [Env.value?, hslots, scene.slots]
  have hlast : (Arith.floor (("slots" - 1) / 2)).value? env =
      some (((t.slotCount - 1 : Rat) / 2).floor : Rat) := by
    rw [Arith.value?, Arith.value?_half (Arith.value?_sub hparam (Arith.value?_one env))]
    rfl
  refine SetTerm.lists_range (Arith.value?_zero env) hlast fun i => ?_
  have hhalf : (i : Rat) ≤ (t.slotCount - 1) / 2 ↔ 2 * i + 1 ≤ t.slotCount := by
    have h : (i : Rat) ≤ (t.slotCount - 1) / 2 ↔ (2 * i + 1 : Rat) ≤ t.slotCount := by
      constructor <;> intro h <;> linarith
    rw [h]
    exact_mod_cast Iff.rfl
  have hzero : (0 : Rat) ≤ i ↔ 0 ≤ i := by exact_mod_cast Iff.rfl
  rw [Int.cast_le, Rat.le_floor_iff, hhalf, hzero, Tournament.mem_mirrored]

theorem value?_halfSeasonLater (scene : Scene t options env) {slot : Int}
    (hslots : env.symbols.lookup "slots" = none) (hslot : env.value? "s" = some (slot : Rat)) :
    (Arith.name "s" + "slots" / 2).value? env = some (slot + t.slotCount / 2 : Rat) := by
  have hparam : (Arith.name "slots").value? env = some (t.slotCount : Rat) := by
    simp [Env.value?, hslots, scene.slots]
  exact Arith.value?_add hslot (Arith.value?_half hparam)

/-- With an odd number of slots the counterpart of a slot is none. -/
theorem value?_playedIn_odd (scene : Scene t options env) {a b : Arith} {slot : Int}
    (hodd : t.slotCount % 2 = 1) (hslots : env.symbols.lookup "slots" = none)
    (hslot : env.value? "s" = some (slot : Rat)) :
    (playedIn a b ("s" + "slots" / 2)).value? env values = none := by
  have hsum := scene.value?_halfSeasonLater hslots hslot
  obtain ⟨order, -, hgames⟩ := scene.games
  have hnone :
      ∀ x y, [x, y, (slot + t.slotCount / 2 : Rat)] ∉ order.map Tuple.three := fun x y h => by
    obtain ⟨q, -, hq⟩ := List.mem_map.mp h
    simp only [Tuple.three, List.cons.injEq, and_true] at hq
    have hdouble : 2 * q.2 = 2 * slot + t.slotCount := by
      have : (2 * q.2 : Rat) = 2 * slot + t.slotCount := by linarith [hq.2.2]
      exact_mod_cast this
    omega
  rw [playedIn, Linear.value?, hgames, Arith.values?, Arith.values?, Arith.values?, hsum]
  cases a.value? env with
  | none => rfl
  | some x =>
    cases b.value? env with
    | none => rfl
    | some y => exact if_neg (hnone x y)

theorem value?_counterpart (scene : Scene t options env) (shows : values.Shows t tally)
    {a b : Arith} {m n slot : Int}
    (heven : t.slotCount % 2 = 0) (ha : a.value? env = some (m : Rat))
    (hb : b.value? env = some (n : Rat)) (hslots : env.symbols.lookup "slots" = none)
    (hslot : env.value? "s" = some (slot : Rat)) (hteams : (m, n) ∈ t.teamSet.offDiag)
    (hmem : slot ∈ t.firstHalf) :
    (playedIn b a ("s" + "slots" / 2)).value? env values =
      some (tally.game n m (slot + (t.slotCount / 2 : Nat))) := by
  have hlater : (slot + (t.slotCount / 2 : Nat) : Int) ∈ t.slotSet := by
    rw [Tournament.mem_firstHalf] at hmem
    rw [Tournament.mem_slotSet]
    omega
  have hhalf : (t.slotCount / 2 : Rat) = ((t.slotCount / 2 : Nat) : Rat) := by
    rw [Nat.cast_div (Nat.dvd_of_mod_eq_zero heven) (by norm_num)]
    rfl
  have hplace : (Arith.name "s" + "slots" / 2).value? env =
      some ((slot + (t.slotCount / 2 : Nat) : Int) : Rat) := by
    rw [scene.value?_halfSeasonLater hslots hslot, hhalf]
    push_cast
    rfl
  exact scene.value?_playedIn shows hb ha hplace (swap_mem hteams) hlater

theorem mirror_mean (scene : Scene t options env) (shows : values.Shows t tally)
    (hsymbols : env.symbols = []) (heven : options.symmetric = true → t.slotCount % 2 = 0) :
    Subto.AllMean env values (Program.subtos (Frame.mirror options))
      (options.symmetric = true → ∀ p ∈ t.teamSet.offDiag, ∀ slot ∈ t.firstHalf,
        tally.game p.1 p.2 slot = tally.game p.2 p.1 (slot + (t.slotCount / 2 : Nat))) := by
  unfold Frame.mirror
  refine .emitted fun hsymmetric => .single ?_
  have heven := heven hsymmetric
  refine Subto.means_forall (Index.runs_two scene.pairs (by simp [hsymbols]) (by simp [hsymbols])
    (by decide)) fun p hp => ?_
  have outer := (scene.bind "m" p.1).bind "n" p.2
  have hmirrored := outer.lists_mirrored (by simp [hsymbols])
  rw [t.mirrored_eq_firstHalf heven] at hmirrored
  refine Subto.means_forall (Index.runs_one hmirrored (by simp [hsymbols])) fun slot hslot =>
    Subto.means_row ?_
  have inner := outer.bind "s" slot
  exact Row.means
    (inner.value?_playedIn shows (by simp) (by simp)
      (by simp) hp (t.mem_slotSet_of_mem_firstHalf hslot))
    (inner.value?_counterpart shows heven (by simp) (by simp) (by simp [hsymbols])
      (by simp) hp hslot)

/-- With an odd number of slots the first slot of a mirrored season has no counterpart. -/
theorem not_mirror_holds (scene : Scene t options env) (hsymbols : env.symbols = [])
    (htwo : 2 ≤ t.teamCount) (hodd : t.slotCount % 2 = 1) (hsymmetric : options.symmetric = true) :
    ¬ ∀ block ∈ Program.subtos (Frame.mirror options), block.Holds env values := by
  rw [Frame.mirror, if_pos hsymmetric]
  show ¬ ∀ block ∈ [_], _
  rw [List.forall_mem_singleton, Subto.holds_forall (Index.runs_two scene.pairs
    (by simp [hsymbols]) (by simp [hsymbols]) (by decide))]
  intro h
  have hpair : ((0, 1) : Int × Int) ∈ t.teamSet.offDiag := by
    rw [Finset.mem_offDiag, Tournament.mem_teamSet, Tournament.mem_teamSet]
    omega
  have hslot : (0 : Int) ∈ t.mirrored := by
    rw [Tournament.mem_mirrored]
    omega
  have outer := (scene.bind "m" (0 : Int)).bind "n" (1 : Int)
  have h := (Subto.holds_forall (Index.runs_one (outer.lists_mirrored (by simp [hsymbols]))
    (by simp [hsymbols]))).mp (h (0, 1) hpair) 0 hslot
  obtain ⟨_, -, b, hb, -⟩ := Subto.holds_row.mp h
  have hstart : (((env.bind "m" (0 : Int)).bind "n" (1 : Int)).bind "s" (0 : Int)).value? "s" =
      some ((0 : Int) : Rat) := by simp
  have hnone : (playedIn "n" "m" ("s" + "slots" / 2)).value? _ values = none :=
    (outer.bind "s" (0 : Int)).value?_playedIn_odd hodd (by simp [hsymbols]) hstart
  rw [hnone] at hb
  cases hb

theorem mirror_holds (scene : Scene t options env) (shows : values.Shows t tally)
    (hsymbols : env.symbols = []) (htwo : 2 ≤ t.teamCount) :
    (∀ block ∈ Program.subtos (Frame.mirror options), block.Holds env values) ↔
      (options.symmetric = true → t.slotCount % 2 = 0 ∧
        ∀ p ∈ t.teamSet.offDiag, ∀ slot ∈ t.firstHalf, tally.game p.1 p.2 slot =
          tally.game p.2 p.1 (slot + (t.slotCount / 2 : Nat))) := by
  constructor
  · intro h hsymmetric
    rcases Nat.mod_two_eq_zero_or_one t.slotCount with heven | hodd
    · exact ⟨heven, (scene.mirror_mean shows hsymbols fun _ => heven).holds_iff.mp h hsymmetric⟩
    · exact absurd h (scene.not_mirror_holds hsymbols htwo hodd hsymmetric)
  · exact fun h =>
      (scene.mirror_mean shows hsymbols fun hsymmetric => (h hsymmetric).1).holds_iff.mpr
      fun hsymmetric => (h hsymmetric).2

theorem cut_eq (shows : values.Shows t tally) {teams : Finset Int} {s : Int}
    (hsub : teams ⊆ t.teamSet) (hs : s ∈ t.slotSet) : t.cut values teams s =
      ∑ p ∈ teams ×ˢ (t.teamSet \ teams), (tally.game p.1 p.2 s + tally.game p.2 p.1 s) :=
  Finset.sum_congr rfl fun p hp => by
    obtain ⟨hfirst, hsecond⟩ := Finset.mem_product.mp hp
    obtain ⟨hsecond, hout⟩ := Finset.mem_sdiff.mp hsecond
    have hpair : p ∈ t.teamSet.offDiag :=
      Finset.mem_offDiag.mpr ⟨hsub hfirst, hsecond, fun heq => hout (heq ▸ hfirst)⟩
    rw [shows.game p hpair s hs, shows.game p.swap (swap_mem hpair) s hs, Prod.fst_swap,
      Prod.snd_swap]

theorem value?_memberCut (scene : Scene t options env) (shows : values.Shows t tally)
    (hsymbols : env.symbols = []) {s : Int} {family : String} {members : List (List Int)}
    (hnodup : ∀ member ∈ members, member.Nodup)
    (hsub : ∀ member ∈ members, member.toFinset ⊆ t.teamSet)
    (hlookup : env.families.lookup family = some (members.map (List.map Tuple.one)))
    (hs : s ∈ t.slotSet) {i : Nat} (hi : i < members.length) :
    (Linear.sumOver (.over ["m", "n"]
      (times (.member family "i") (.minus "T" (.member family "i"))))
        (eitherWay "m" "n" "s")).value? ((env.bind "s" s).bind "i" ((i + 1 : Nat) : Int)) values =
      some (∑ p ∈ members[i].toFinset ×ˢ (t.teamSet \ members[i].toFinset),
        (tally.game p.1 p.2 s + tally.game p.2 p.1 s)) := by
  rw [← Linear.valueIn?_rat, scene.valueIn?_memberCut hsymbols hnodup hsub hlookup hs hi,
    cut_eq shows (hsub _ (List.getElem_mem hi)) hs]

theorem oddFamily_mean (scene : Scene t options env) (shows : values.Shows t tally)
    (hsymbols : env.symbols = []) (name : String)
    {size : Nat} (hfamily : HasFamily env size t.teamSet) :
    Subto.AllMean env values (Program.subtos (Frame.oddFamily name size))
      (∀ slot ∈ t.slotSet, ∀ set ∈ t.teamSet.powersetCard size,
        1 ≤ ∑ p ∈ set ×ˢ (t.teamSet \ set),
          (tally.game p.1 p.2 slot + tally.game p.2 p.1 slot)) where
  within := by
    obtain ⟨members, hnodup, hmembers, hlookup, hindices⟩ := hfamily
    have hsub : ∀ member ∈ members, member.toFinset ⊆ t.teamSet := fun member hmember =>
      (Finset.mem_powersetCard.mp ((hmembers _).mp ⟨member, hmember, rfl⟩)).1
    refine List.forall_mem_singleton.mpr ?_
    refine Subto.within_forall (Index.runs_one scene.slotSet (by simp [hsymbols])) fun s hs => ?_
    refine Subto.within_forall (Index.runs_one (hindices.bind "s" s) (by simp [hsymbols]))
      (forall_mem_places.mpr fun i hi => ?_)
    exact Subto.within_row (scene.value?_memberCut shows hsymbols hnodup hsub hlookup hs hi)
      (value?_oneTerm _ _)
  holds_iff := by
    simp only [← Subto.holdsIn_rat]
    rw [scene.oddFamily_holdsIn hsymbols name hfamily]
    refine forall₂_congr fun slot hslot => forall₂_congr fun set hset => ?_
    rw [cut_eq shows (Finset.mem_powersetCard.mp hset).1 hslot]

theorem value?_homeIn (scene : Scene t options env) (shows : values.Shows t tally)
    {slot : Arith} {team s : Int}
    (hteam : env.value? "t" = some (team : Rat)) (hfree : env.symbols.lookup "a" = none)
    (hslot : ∀ other : Rat, slot.value? (env.bind "a" other) = some (s : Rat))
    (hmem : team ∈ t.teamSet) (hs : s ∈ t.slotSet) :
    (Linear.sumOver (.over ["a"] (othersThan "t")) (playedIn "t" "a" slot)).value? env values =
      some (∑ other ∈ t.teamSet.erase team, tally.game team other s) :=
  Linear.value?_sumOver (Index.runs_one (scene.lists_othersThan hteam) hfree) fun other hother =>
    (scene.bind "a" other).value?_playedIn shows (by simp [hteam]) (by simp) (hslot other)
      (Finset.mem_offDiag.mpr ⟨hmem, Finset.mem_of_mem_erase hother,
        (Finset.ne_of_mem_erase hother).symm⟩) hs

theorem value?_awayIn (scene : Scene t options env) (shows : values.Shows t tally)
    {slot : Arith} {team s : Int}
    (hteam : env.value? "t" = some (team : Rat)) (hfree : env.symbols.lookup "h" = none)
    (hslot : ∀ other : Rat, slot.value? (env.bind "h" other) = some (s : Rat))
    (hmem : team ∈ t.teamSet) (hs : s ∈ t.slotSet) :
    (Linear.sumOver (.over ["h"] (othersThan "t")) (playedIn "h" "t" slot)).value? env values =
      some (∑ other ∈ t.teamSet.erase team, tally.game other team s) :=
  Linear.value?_sumOver (Index.runs_one (scene.lists_othersThan hteam) hfree) fun other hother =>
    (scene.bind "h" other).value?_playedIn shows (by simp) (by simp [hteam]) (hslot other)
      (Finset.mem_offDiag.mpr ⟨Finset.mem_of_mem_erase hother, hmem,
        Finset.ne_of_mem_erase hother⟩) hs

theorem value?_slotBefore (env : Env) (team s : Int) {symbol : String} (hsymbol : symbol ≠ "s")
    (value : Rat) : (Arith.name "s" - 1).value?
      (((env.bind "t" team).bind "s" s).bind symbol value) = some ((s - 1 : Int) : Rat) := by
  rw [Arith.value?_sub (by rw [Arith.value?_name, Env.value?_bind, if_neg hsymbol.symm,
    Env.value?_bind, if_pos rfl]) (Arith.value?_one _)]
  push_cast
  rfl

/-- The term of a row that counts games in two slots running, less one. -/
theorem value?_twiceHome (scene : Scene t options env) (shows : values.Shows t tally)
    (hsymbols : env.symbols = []) {team s : Int} (hteam : team ∈ t.teamSet)
    (hs : s ∈ t.slotSet.erase 0) :
    (Linear.diff (.plus [.sumOver (.over ["a"] (othersThan "t")) (playedIn "t" "a" ("s" - 1)),
      .sumOver (.over ["a"] (othersThan "t")) (playedIn "t" "a" "s")]) one).value?
        ((env.bind "t" team).bind "s" s) values =
      some (∑ other ∈ t.teamSet.erase team, tally.game team other (s - 1)
        + ∑ other ∈ t.teamSet.erase team, tally.game team other s - 1) := by
  have inner := (scene.bind "t" team).bind "s" s
  exact Linear.value?_diff (Linear.value?_plus_pair
    (inner.value?_homeIn shows (by simp) (by simp [hsymbols])
      (value?_slotBefore env team s (by decide)) hteam (t.mem_slotSet_of_mem_erase hs).2)
    (inner.value?_homeIn shows (by simp) (by simp [hsymbols]) (by simp) hteam
      (t.mem_slotSet_of_mem_erase hs).1)) (value?_oneTerm _ _)

theorem value?_twiceAway (scene : Scene t options env) (shows : values.Shows t tally)
    (hsymbols : env.symbols = []) {team s : Int} (hteam : team ∈ t.teamSet)
    (hs : s ∈ t.slotSet.erase 0) :
    (Linear.diff (.plus [.sumOver (.over ["h"] (othersThan "t")) (playedIn "h" "t" ("s" - 1)),
      .sumOver (.over ["h"] (othersThan "t")) (playedIn "h" "t" "s")]) one).value?
        ((env.bind "t" team).bind "s" s) values =
      some (∑ other ∈ t.teamSet.erase team, tally.game other team (s - 1)
        + ∑ other ∈ t.teamSet.erase team, tally.game other team s - 1) := by
  have inner := (scene.bind "t" team).bind "s" s
  exact Linear.value?_diff (Linear.value?_plus_pair
    (inner.value?_awayIn shows (by simp) (by simp [hsymbols])
      (value?_slotBefore env team s (by decide)) hteam (t.mem_slotSet_of_mem_erase hs).2)
    (inner.value?_awayIn shows (by simp) (by simp [hsymbols]) (by simp) hteam
      (t.mem_slotSet_of_mem_erase hs).1)) (value?_oneTerm _ _)

theorem breakCount_mean (scene : Scene t options env) (shows : values.Shows t tally)
    (hsymbols : env.symbols = []) :
    Subto.AllMean env values (Program.subtos (Frame.breakCount t))
      (t.hasBreaks = true → ∀ team ∈ t.teamSet, ∀ slot ∈ t.slotSet.erase 0,
        (∑ other ∈ t.teamSet.erase team, tally.game team other (slot - 1)
          + ∑ other ∈ t.teamSet.erase team, tally.game team other slot - 1
            ≤ tally.homeBreak team slot) ∧
        (∑ other ∈ t.teamSet.erase team, tally.game other team (slot - 1)
          + ∑ other ∈ t.teamSet.erase team, tally.game other team slot - 1
            ≤ tally.awayBreak team slot)) := by
  unfold Frame.breakCount
  dsimp only
  refine .emitted fun hbreaks => .single ?_
  refine Subto.means_forall (Index.runs_one scene.teamSet (by simp [hsymbols])) fun team hteam => ?_
  refine Subto.means_forall (Index.runs_one (scene.laterSlots.bind "t" team) (by simp [hsymbols]))
    fun s hs => ?_
  have inner := (scene.bind "t" team).bind "s" s
  exact Subto.means_cons (Row.means (scene.value?_twiceHome shows hsymbols hteam hs)
    (inner.value?_homeBreak shows hbreaks (by simp) (by simp) hteam hs))
    (Subto.means_row (Row.means (scene.value?_twiceAway shows hsymbols hteam hs)
      (inner.value?_awayBreak shows hbreaks (by simp) (by simp) hteam hs)))

theorem value?_gamesUpTo (scene : Scene t options env) (shows : values.Shows t tally)
    (hsymbols : env.symbols = []) {team s : Int} (hteam : team ∈ t.teamSet) (hs : s ∈ t.slotSet) :
    (Linear.sumOver (.over ["a", "p"] (times (othersThan "t") (.range 0 "s")))
      (playedIn "t" "a" "p")).value? ((env.bind "t" team).bind "s" s) values =
        some (∑ game ∈ t.teamSet.erase team ×ˢ {played ∈ t.slotSet | played ≤ s},
          tally.game team game.1 game.2) := by
  have inner := (scene.bind "t" team).bind "s" s
  have hplayed : (SetTerm.range 0 "s").Lists ((env.bind "t" team).bind "s" s) Tuple.one
      {played ∈ t.slotSet | played ≤ s} := by
    refine SetTerm.lists_range (Arith.value?_zero _) (by simp : _ = some (s : Rat)) fun i => ?_
    have hzero : (0 : Rat) ≤ i ↔ 0 ≤ i := by exact_mod_cast Iff.rfl
    rw [Tournament.mem_slotSet] at hs
    rw [hzero, Int.cast_le, Finset.mem_filter, Tournament.mem_slotSet]
    omega
  refine Linear.value?_sumOver (Index.runs_two (SetTerm.lists_pairs
    (inner.lists_othersThan (by simp)) hplayed) (by simp [hsymbols]) (by simp [hsymbols])
    (by decide)) fun p hp => ?_
  obtain ⟨hother, hslot⟩ := Finset.mem_product.mp hp
  exact ((inner.bind "a" p.1).bind "p" p.2).value?_playedIn shows (by simp) (by simp) (by simp)
    (Finset.mem_offDiag.mpr ⟨hteam, Finset.mem_of_mem_erase hother,
      (Finset.ne_of_mem_erase hother).symm⟩) (Finset.mem_filter.mp hslot).1

theorem homeGames_mean (scene : Scene t options env) (shows : values.Shows t tally)
    (hsymbols : env.symbols = []) :
    Subto.AllMean env values (Program.subtos (Frame.homeGames t))
      (t.hasBalance = true → ∀ team ∈ t.teamSet, ∀ slot ∈ t.slotSet,
        ∑ game ∈ t.teamSet.erase team ×ˢ {played ∈ t.slotSet | played ≤ slot},
          tally.game team game.1 game.2 = tally.homeGames team slot) := by
  unfold Frame.homeGames
  dsimp only
  refine .emitted fun hbalance => .single ?_
  refine Subto.means_forall (Index.runs_one scene.teamSet (by simp [hsymbols])) fun team hteam => ?_
  refine Subto.means_forall (Index.runs_one (scene.slotSet.bind "t" team) (by simp [hsymbols]))
    fun s hs => Subto.means_row ?_
  have inner := (scene.bind "t" team).bind "s" s
  exact Row.means (scene.value?_gamesUpTo shows hsymbols hteam hs)
    (inner.value?_homeGames shows hbalance (by simp) (by simp) hteam hs)

theorem games_hold (scene : Scene t options env) (shows : values.Shows t tally) :
    (VarDecl.binary "x" (times "M" "S")).Holds env values ↔
      ∀ q ∈ t.teamSet.offDiag ×ˢ t.slotSet, tally.game q.1.1 q.1.2 q.2 = 0 ∨
        tally.game q.1.1 q.1.2 q.2 = 1 := by
  refine (VarDecl.holds_over (SetTerm.lists_pairs_one scene.pairs scene.slotSet)).trans
    (forall₂_congr fun q hq => VarDecl.admits_binary.trans ?_)
  obtain ⟨hteams, hslot⟩ := Finset.mem_product.mp hq
  rw [← shows.game q.1 hteams q.2 hslot]

theorem breaks_hold (scene : Scene t options env) {name : String} {breaks : Int → Int → Rat}
    (hname : ∀ team ∈ t.teamSet, ∀ slot ∈ t.slotSet.erase 0,
      values name (Tuple.two (team, slot)) = breaks team slot) :
    (VarDecl.binary name (times "T" "S0")).Holds env values ↔
      ∀ q ∈ t.teamSet ×ˢ t.slotSet.erase 0, breaks q.1 q.2 = 0 ∨ breaks q.1 q.2 = 1 := by
  refine (VarDecl.holds_over (SetTerm.lists_pairs scene.teamSet scene.laterSlots)).trans
    (forall₂_congr fun q hq => VarDecl.admits_binary.trans ?_)
  obtain ⟨hteam, hslot⟩ := Finset.mem_product.mp hq
  rw [← hname q.1 hteam q.2 hslot]

theorem gameVariables_hold (scene : Scene t options env) (shows : values.Shows t tally) :
    (∀ decl ∈ Program.varDecls (Frame.gameVariables t), decl.Holds env values) ↔
      (∀ q ∈ t.teamSet.offDiag ×ˢ t.slotSet, tally.game q.1.1 q.1.2 q.2 = 0 ∨
        tally.game q.1.1 q.1.2 q.2 = 1) ∧
      (t.hasBreaks = true → ∀ q ∈ t.teamSet ×ˢ t.slotSet.erase 0,
        (tally.homeBreak q.1 q.2 = 0 ∨ tally.homeBreak q.1 q.2 = 1) ∧
        (tally.awayBreak q.1 q.2 = 0 ∨ tally.awayBreak q.1 q.2 = 1)) := by
  cases hbreaks : t.hasBreaks with
  | false =>
    rw [Frame.gameVariables, hbreaks]
    show (∀ decl ∈ [_], _) ↔ _
    rw [List.forall_mem_singleton, scene.games_hold shows]
    simp
  | true =>
    rw [Frame.gameVariables, hbreaks]
    show (∀ decl ∈ [_, _, _], _) ↔ _
    simp only [forall_const]
    rw [List.forall_mem_cons, List.forall_mem_cons, List.forall_mem_singleton,
      scene.games_hold shows, scene.breaks_hold (shows.homeBreak hbreaks),
      scene.breaks_hold (shows.awayBreak hbreaks),
      ← forall₂_and]

/-- Home games are counted by whole numbers up to the number of slots so far, and up to half of them
all where the season is phased. -/
theorem homeGames_admitted (scene : Scene t options env) (shows : values.Shows t tally)
    (hsymbols : env.symbols = []) :
    (∀ decl ∈ Program.varDecls (Frame.homeGames t), decl.Holds env values) ↔
      (t.hasBalance = true → ∀ q ∈ t.teamSet ×ˢ t.slotSet,
        (tally.homeGames q.1 q.2).isInt = true ∧ 0 ≤ tally.homeGames q.1 q.2 ∧
        tally.homeGames q.1 q.2 ≤
          if t.phased then min (q.2 + 1 : Rat) (t.slotCount / 2) else q.2 + 1) := by
  cases hbalance : t.hasBalance with
  | false => simp [Frame.homeGames, hbalance, Program.varDecls]
  | true =>
    simp only [Frame.homeGames, hbalance, if_true]
    show (∀ decl ∈ [_], _) ↔ _
    simp only [forall_const]
    have hruns : (Index.over ["t", "s"] (times "T" "S")).Runs env Tuple.two
        (fun q => (env.bind "t" q.1).bind "s" q.2) (t.teamSet ×ˢ t.slotSet) :=
      Index.runs_two (SetTerm.lists_pairs scene.teamSet scene.slotSet) (by simp [hsymbols])
        (by simp [hsymbols]) (by decide)
    rw [List.forall_mem_singleton, VarDecl.holds_bound hruns]
    refine forall₂_congr fun q hq => ?_
    have inner := (scene.bind "t" q.1).bind "s" q.2
    have hnext : (Arith.name "s" + 1).value? ((env.bind "t" q.1).bind "s" q.2) =
        some (q.2 + 1 : Rat) :=
      Arith.value?_add (by simp) (Arith.value?_one _)
    have hhalf : (Arith.card "S" / 2).value? ((env.bind "t" q.1).bind "s" q.2) =
        some (t.slotCount / 2 : Rat) := by
      rw [Arith.value?_half (Arith.value?_card inner.slotSet), t.card_slotSet]
    have hupper : (if t.phased then Arith.min ("s" + 1) (.card "S" / 2) else "s" + 1).value?
        ((env.bind "t" q.1).bind "s" q.2) =
          some (if t.phased then min (q.2 + 1 : Rat) (t.slotCount / 2) else q.2 + 1) := by
      split
      · exact Arith.value?_min hnext hhalf
      · exact hnext
    obtain ⟨hteam, hslot⟩ := Finset.mem_product.mp hq
    rw [← shows.homeGames hbalance q.1 hteam q.2 hslot]
    exact VarDecl.admits_within (Arith.value?_zero _) hupper

theorem oddFamilies_mean (scene : Scene t options env) (shows : values.Shows t tally)
    (hsymbols : env.symbols = []) :
    Subto.AllMean env values (Program.subtos ((Frame.oddFamilies t options).flatMap
        fun (name, size) => Frame.oddFamily name size))
      (∀ family ∈ Frame.oddFamilies t options, ∀ slot ∈ t.slotSet,
        ∀ set ∈ t.teamSet.powersetCard family.2, 1 ≤ ∑ p ∈ set ×ˢ (t.teamSet \ set),
          (tally.game p.1 p.2 slot + tally.game p.2 p.1 slot)) := by
  rw [Frame.subtos_oddFamilies]
  exact .flatMap fun family hfamily =>
    scene.oddFamily_mean shows hsymbols family.1 (scene.families family hfamily)

/-- The blocks of a frame on games alone. -/
theorem gameBlocks_hold (scene : Scene t options env) (shows : values.Shows t tally)
    (hsymbols : env.symbols = []) (hfull : options.feasibility = false) (htwo : 2 ≤ t.teamCount) :
    (∀ block ∈ Frame.gameBlocks t options, block.Holds env values) ↔
      Frame.GamesMet t options tally.game := by
  simp only [Frame.gameBlocks, List.forall_mem_append]
  rw [(scene.schedule_mean shows hsymbols).holds_iff,
    (scene.fixedCount_mean shows hsymbols).holds_iff,
    (scene.oddFamilies_mean shows hsymbols).holds_iff, (scene.halves_mean shows hsymbols).holds_iff,
    scene.mirror_holds shows hsymbols htwo, Frame.exactly_of_full hfull]
  constructor
  · rintro ⟨⟨⟨⟨⟨honce, hslots, hdaily⟩, hfixed⟩, hodd⟩, hhalves⟩, hmirror⟩
    exact ⟨honce, hslots, hdaily, hfixed, hodd, hhalves, hmirror⟩
  · exact fun h => ⟨⟨⟨⟨⟨h.once, h.full, h.daily⟩, h.fixed⟩, h.odd⟩, h.halves⟩, h.mirror⟩

/-- Whatever the variables count, no row of a frame refers to subscripts that are not declared,
unless the season is to be mirrored and has an odd number of slots. -/
theorem frame_within (scene : Scene t options env) (shows : values.Shows t tally)
    (hsymbols : env.symbols = []) (heven : options.symmetric = true → t.slotCount % 2 = 0) :
    ∀ block ∈ Program.subtos (Frame.statements t options), block.Within env := by
  intro block hblock
  rcases Frame.mem_subtos.mp hblock with hgames | hbreaks | hhome
  · simp only [Frame.gameBlocks, List.mem_append, or_assoc] at hgames
    rcases hgames with h | h | h | h | h
    · exact (scene.schedule_mean shows hsymbols).within block h
    · exact (scene.fixedCount_mean shows hsymbols).within block h
    · exact (scene.oddFamilies_mean shows hsymbols).within block h
    · exact (scene.halves_mean shows hsymbols).within block h
    · exact (scene.mirror_mean shows hsymbols heven).within block h
  · exact (scene.breakCount_mean shows hsymbols).within block hbreaks
  · exact (scene.homeGames_mean shows hsymbols).within block hhome

end Scene

end RoundRobin
