import RoundRobin.Proofs.Meaning.Frame
import RoundRobin.Proofs.Season.Circle

/-! The rows of a frame on games alone hold of a timetable if and only if it is a season. Such a
timetable exists if and only if there are as many slots as a double round robin needs. -/

namespace RoundRobin

open Zimpl

namespace Frame

variable {t : Tournament} {options : Options}

theorem odd_of_mem_oddFamilies {family : String × Nat} (h : family ∈ oddFamilies t options) :
    family.2 % 2 = 1 := by
  unfold oddFamilies at h
  split at h
  · exact nomatch h
  · obtain rfl := List.mem_singleton.mp h
    rfl
  · obtain ⟨size, hsize, rfl⟩ := List.mem_map.mp h
    have := (List.mem_filter.mp hsize).2
    simp only [Bool.and_eq_true, decide_eq_true_eq] at this
    exact this.2

end Frame

namespace Timetable

variable {plays : Timetable} {t : Tournament} {options : Options}

theorem IsSeason.gamesMet (h : plays.IsSeason t options) (htwo : 2 ≤ t.teamCount) :
    Frame.GamesMet t options (plays.tally t).game where
  once := h.sum_once
  full := h.sum_slot
  daily := h.sum_daily
  fixed _ := sum_games_of_daily h.sum_daily
  odd family hfamily slot hslot set hset := by
    obtain ⟨hsub, hcard⟩ := Finset.mem_powersetCard.mp hset
    exact Timetable.one_le_cut_of_daily (h.sum_daily slot hslot) hsub
      (hcard ▸ Frame.odd_of_mem_oddFamilies hfamily)
  halves hphased hsymmetric p hp hlt := by
    obtain ⟨ha, hb⟩ := Finset.mem_product.mp hp
    rw [Finset.sum_add_distrib, plays.sum_game t (fun _ => p.1) (fun _ => p.2) (fun slot => slot),
      plays.sum_game t (fun _ => p.2) (fun _ => p.1) (fun slot => slot)]
    exact_mod_cast h.halves hphased hsymmetric p.1 ha p.2 hb hlt
  mirror hsymmetric := by
    have hslots := h.slotCount_eq (by omega)
    refine ⟨by omega, fun p hp slot hslot => ?_⟩
    obtain ⟨hhome, haway, hne⟩ := Finset.mem_offDiag.mp hp
    simp only [Timetable.tally, h.mirror hsymmetric p.1 hhome p.2 haway hne slot hslot]

theorem isSeason_of_gamesMet (h : Frame.GamesMet t options (plays.tally t).game) :
    plays.IsSeason t options where
  once := eachOnce_iff.mpr h.once
  daily slot hslot team hteam := by
    have hsum := h.daily slot hslot team hteam
    rw [plays.sum_game t (fun _ => team) (fun other => other) (fun _ => slot),
      plays.sum_game t (fun other => other) (fun _ => team) (fun _ => slot)] at hsum
    exact_mod_cast hsum
  halves hphased hsymmetric a ha b hb hlt := by
    have hsum := h.halves hphased hsymmetric (a, b) (Finset.mem_product.mpr ⟨ha, hb⟩) hlt
    rw [Finset.sum_add_distrib, plays.sum_game t (fun _ => a) (fun _ => b) (fun slot => slot),
      plays.sum_game t (fun _ => b) (fun _ => a) (fun slot => slot)] at hsum
    exact_mod_cast hsum
  mirror hsymmetric home hhome away haway hne slot hslot := by
    have heq := (h.mirror hsymmetric).2 (home, away) (Finset.mem_offDiag.mpr ⟨hhome, haway, hne⟩)
      slot hslot
    simp only [Timetable.tally] at heq
    cases hplays : plays home away slot <;>
      cases hreturn : plays away home (slot + (t.slotCount / 2 : Nat)) <;> simp_all

end Timetable

/-- The values of variables that count what a tally counts. -/
def Tally.assignment (tally : Tally) : Assignment
  | "x", [home, away, slot] => tally.game home.num away.num slot.num
  | "bh", [team, slot] => tally.homeBreak team.num slot.num
  | "ba", [team, slot] => tally.awayBreak team.num slot.num
  | "hg", [team, slot] => tally.homeGames team.num slot.num
  | _, _ => 0

theorem Tally.shows_assignment (tally : Tally) (t : Tournament) :
    tally.assignment.Shows t tally where
  game _ _ _ _ := rfl
  homeBreak _ _ _ _ _ := rfl
  awayBreak _ _ _ _ _ := rfl
  homeGames _ _ _ _ _ := rfl

/-- What the variables of a program count. -/
def Zimpl.Assignment.tally (values : Assignment) : Tally where
  game home away slot := values "x" (Tuple.three ((home, away), slot))
  homeBreak team slot := values "bh" (Tuple.two (team, slot))
  awayBreak team slot := values "ba" (Tuple.two (team, slot))
  homeGames team slot := values "hg" (Tuple.two (team, slot))

theorem Zimpl.Assignment.shows_tally (values : Assignment) (t : Tournament) :
    values.Shows t values.tally where
  game _ _ _ _ := rfl
  homeBreak _ _ _ _ _ := rfl
  awayBreak _ _ _ _ _ := rfl
  homeGames _ _ _ _ _ := rfl

/-- A block whose rows mention the games alone. -/
def Zimpl.Subto.onGames (block : Subto) : Bool :=
  block.rows.all fun row => (row.lhs.varNames ++ row.rhs.varNames).all (· == "x")

theorem Frame.onGames_of_mem_gameBlocks {t : Tournament} {options : Options} {block : Subto}
    (h : block ∈ Frame.gameBlocks t options) : block.onGames = true := by
  revert block
  simp only [Frame.gameBlocks, List.forall_mem_append]
  refine ⟨⟨⟨⟨?_, ?_⟩, ?_⟩, ?_⟩, ?_⟩
  · show ∀ block ∈ [_, _, _], _
    simp only [List.forall_mem_cons]
    exact ⟨rfl, rfl, rfl, List.forall_mem_nil _⟩
  · unfold Frame.fixedCount
    split
    · exact List.forall_mem_singleton.mpr rfl
    · exact List.forall_mem_nil _
  · intro block hblock
    obtain ⟨family, -, hblock⟩ := Frame.mem_subtos_oddFamilies.mp hblock
    obtain rfl := List.mem_singleton.mp hblock
    rfl
  · unfold Frame.halves
    split
    · exact List.forall_mem_singleton.mpr rfl
    · exact List.forall_mem_nil _
  · unfold Frame.mirror
    split
    · exact List.forall_mem_singleton.mpr rfl
    · exact List.forall_mem_nil _

theorem Frame.mem_gameBlocks_iff {t : Tournament} {options : Options} {block : Subto} :
    block ∈ Frame.gameBlocks t options ↔
      block ∈ Program.subtos (Frame.statements t options) ∧ block.onGames = true := by
  have hcount : ∀ block ∈ Program.subtos (Frame.breakCount t), block.onGames = false := by
    unfold Frame.breakCount
    dsimp only
    split
    · exact List.forall_mem_singleton.mpr rfl
    · exact fun _ h => nomatch h
  have hhome : ∀ block ∈ Program.subtos (Frame.homeGames t), block.onGames = false := by
    unfold Frame.homeGames
    dsimp only
    split
    · exact List.forall_mem_singleton.mpr rfl
    · exact fun _ h => nomatch h
  rw [Frame.mem_subtos]
  constructor
  · exact fun h => ⟨.inl h, Frame.onGames_of_mem_gameBlocks h⟩
  · rintro ⟨h | h | h, hgames⟩
    · exact h
    · exact absurd hgames (by simp [hcount block h])
    · exact absurd hgames (by simp [hhome block h])

/-- Some games of zero or one meet all rows of a frame on games alone. -/
def Frame.Feasible (t : Tournament) (options : Options) : Prop :=
  ∃ values env, (Frame.statements t options).env? = some env ∧
    (VarDecl.binary "x" (times "M" "S")).Holds env values ∧
    ∀ block ∈ Program.subtos (Frame.statements t options), block.onGames = true →
      block.Holds env values

theorem Frame.slotCount_of_feasible {t : Tournament} {options : Options} (htwo : 2 ≤ t.teamCount)
    (hfull : options.feasibility = false) (h : Frame.Feasible t options) :
    t.slotCount = 2 * (t.teamCount - 1) := by
  obtain ⟨values, env, henv, -, hblocks⟩ := h
  obtain ⟨scenery, hscenery, hsymbols, scene⟩ := Frame.scene t options
  obtain rfl : scenery = env := Option.some.inj (hscenery.symm.trans henv)
  have hmet :=
    (scene.gameBlocks_hold (values.shows_tally t) hsymbols hfull htwo).mp fun block hblock =>
    hblocks block (Frame.mem_gameBlocks_iff.mp hblock).1 (Frame.mem_gameBlocks_iff.mp hblock).2
  exact slotCount_eq_of_once_of_full (by omega) hmet.once hmet.full

theorem Frame.feasible_of_isSeason {t : Tournament} {options : Options} {plays : Timetable}
    (htwo : 2 ≤ t.teamCount) (hfull : options.feasibility = false) (h : plays.IsSeason t options) :
    Frame.Feasible t options := by
  obtain ⟨env, henv, hsymbols, scene⟩ := Frame.scene t options
  have shows := (plays.tally t).shows_assignment t
  have hgames : (VarDecl.binary "x" (times "M" "S")).Holds env (plays.tally t).assignment :=
    (scene.games_hold shows).mpr fun q _ => plays.game_eq_zero_or_one t q.1.1 q.1.2 q.2
  exact ⟨(plays.tally t).assignment, env, henv, hgames, fun block hblock hon =>
    (scene.gameBlocks_hold shows hsymbols hfull htwo).mpr (h.gamesMet htwo) block
      (Frame.mem_gameBlocks_iff.mpr ⟨hblock, hon⟩)⟩

/-- The rows on games alone can be met exactly where the loader has no warning about the number of
slots, which is where that number is that of a double round robin. -/
theorem Frame.feasible_iff {read? : Markup.Reader} {text : String} {t : Tournament}
    {options : Options} (hread : Tournament.readBy read? text = .ok t)
    (hfull : options.feasibility = false) :
    (Frame.Feasible t options ↔ t.slotCount = 2 * (t.teamCount - 1)) ∧
      (t.slotCount = 2 * (t.teamCount - 1) ↔ ∀ n k,
        Note.notCompact n k ∉ Tournament.readNotesBy read? text) := by
  have hwell := Tournament.wellFormed_of_readBy hread
  refine ⟨⟨Frame.slotCount_of_feasible hwell.two_le hfull, fun hslots => ?_⟩, ?_⟩
  · exact Frame.feasible_of_isSeason hwell.two_le hfull
      (Circle.isSeason hwell.two_le hwell.even hslots options)
  · have hwarning := Tournament.notCompact_mem_readNotes hread
    rw [← not_iff_not, ← Ne, ← hwarning]
    simp only [not_forall, not_not]

/-- Two teams and two slots. -/
def pairText : String :=
  "<Instance><team id=\"0\"/><team id=\"1\"/><slot id=\"0\"/><slot id=\"1\"/></Instance>"

def pairTournament : Tournament where
  name := none
  teams := [0, 1]
  slots := [0, 1]
  phased := false
  rules := []

theorem read_pairText : Tournament.read pairText = .ok pairTournament :=
  Tournament.read_eq_ok String.toList_ofList (by decide +kernel)

theorem feasible_pairTournament : Frame.Feasible pairTournament { symmetric := true } :=
  (Frame.feasible_iff read_pairText rfl).1.mpr rfl

end RoundRobin
