import RoundRobin.Formulation.Pairs
import RoundRobin.Proofs.Meaning.Names
import RoundRobin.Proofs.Meaning.Violation

/-! The rows of rules on pairs of teams. Where every game takes place once, the weighted sums of a
separation rule differ by the slots between the two games of a pair. -/

namespace RoundRobin

open Zimpl

variable {t : Tournament} {options : Options} {env : Env} {values : Assignment}
  {tally : Tally} {strength : Strength} {rule : Numbered}

theorem mem_unorderedPairs {teams : List Int} {p : Int × Int} :
    p ∈ unorderedPairs teams ↔ (p.1 ∈ teams ∧ p.2 ∈ teams) ∧ p.1 < p.2 := by
  rw [unorderedPairs, Finset.mem_filter, Finset.mem_product, List.mem_toFinset, List.mem_toFinset]

theorem runs_pairsOf (hsymbols : env.symbols = []) (teams : List Int) :
    (pairsOf teams).Runs env Tuple.two (fun q => (env.bind "m" q.1).bind "n" q.2)
      (unorderedPairs teams) :=
  Index.runs_two_where (SetTerm.lists_pairs (SetTerm.lists_ids _ _) (SetTerm.lists_ids _ _))
    (by simp [hsymbols]) (by simp [hsymbols]) (by decide) fun q => by simp [Condition.holds?]

theorem mem_offDiag_of_mem_unorderedPairs {teams : List Int} {p : Int × Int}
    (hteams : ∀ team ∈ teams, team ∈ t.teamSet) (h : p ∈ unorderedPairs teams) :
    p ∈ t.teamSet.offDiag := by
  obtain ⟨⟨hfirst, hsecond⟩, hlt⟩ := mem_unorderedPairs.mp h
  exact Finset.mem_offDiag.mpr ⟨hteams _ hfirst, hteams _ hsecond, hlt.ne⟩

/-- How far apart the two games of a pair are in the row of a separation rule, which weighs each
game with its slot. -/
def Separation.span (t : Tournament) (tally : Tally) (pair : Int × Int) : Rat :=
  |∑ slot ∈ t.slotSet, ((slot + 1) * tally.game pair.1 pair.2 slot
    - (slot + 1) * tally.game pair.2 pair.1 slot)|

/-- Where each game takes place once, that is by how many slots they differ. -/
theorem Separation.span_eq_distance
    (honce : ∀ p ∈ t.teamSet.offDiag, ∑ slot ∈ t.slotSet, tally.game p.1 p.2 slot = 1)
    {pair : Int × Int} (hpair : pair ∈ t.teamSet.offDiag) :
    Separation.span t tally pair = Separation.distance t tally pair := by
  have hweight : ∀ home away, ∑ slot ∈ t.slotSet, (slot + 1) * tally.game home away slot =
      tally.slotOf t home away + ∑ slot ∈ t.slotSet, tally.game home away
        slot := fun home away => by
    rw [Tally.slotOf, ← Finset.sum_add_distrib]
    exact Finset.sum_congr rfl fun slot _ => by ring
  rw [span, distance, Finset.sum_sub_distrib, hweight, hweight, honce pair hpair,
    honce (pair.2, pair.1) (Scene.swap_mem hpair), add_sub_add_right_eq_sub]

theorem Scene.value?_position (scene : Scene t options env) (shows : values.Shows t tally)
    {a b : Arith} {m n slot : Int}
    (ha : a.value? env = some (m : Rat)) (hb : b.value? env = some (n : Rat))
    (hslot : env.value? "s" = some (slot : Rat)) (hteams : (m, n) ∈ t.teamSet.offDiag)
    (hmem : slot ∈ t.slotSet) :
    (Linear.scaled ("s" + 1) (playedIn a b "s")).value? env values =
      some ((slot + 1) * tally.game m n slot) := by
  have hweight : (Arith.name "s" + 1).value? env = some (slot + 1 : Rat) :=
    Arith.value?_add hslot (Arith.value?_one env)
  have hgame : (playedIn a b "s").value? env values = some (tally.game m n slot) :=
    scene.value?_playedIn shows ha hb hslot hteams hmem
  rw [Linear.value?, hweight, hgame]
  rfl

theorem Separation.value?_span (scene : Scene t options env) (shows : values.Shows t tally)
    (hsymbols : env.symbols = []) {pair : Int × Int} (hteams : pair ∈ t.teamSet.offDiag) :
    (Linear.abs (.sumOver (.over ["s"] "S") (.diff (.scaled ("s" + 1) (playedIn "m" "n" "s"))
      (.scaled ("s" + 1) (playedIn "n" "m" "s"))))).value?
        ((env.bind "m" pair.1).bind "n" pair.2) values =
      some (Separation.span t tally pair) := by
  have inner := (scene.bind "m" pair.1).bind "n" pair.2
  rw [Linear.value?, Linear.value?_sumOver (Index.runs_one inner.slotSet (by simp [hsymbols]))
    fun slot hslot => Linear.value?_diff
      ((inner.bind "s" slot).value?_position shows (by simp) (by simp) (by simp) hteams hslot)
      ((inner.bind "s" slot).value?_position shows (by simp) (by simp) (by simp)
        (Scene.swap_mem hteams) hslot)]
  exact congrArg some (abs_eq_abs _)

theorem Separation.subtos_mean (scene : Scene t options env) (shows : values.Shows t tally)
    (hsymbols : env.symbols = [])
    {separation : Separation} (hteams : ∀ team ∈ separation.teams, team ∈ t.teamSet)
    (hviolation : strength.isSoft = true →
      env.Ranges rule.violationName Tuple.two (unorderedPairs separation.teams)) :
    Subto.AllMean env values (separation.fragment strength rule).subtos
      (∀ pair ∈ unorderedPairs separation.teams,
        separation.min + 1 - strength.slack values rule.violationName (Tuple.two pair) ≤
          Separation.span t tally pair) := by
  rw [Separation.fragment, Strength.subtos_relax]
  refine .single (Subto.means_forall (runs_pairsOf hsymbols separation.teams) fun pair hpair =>
    Subto.means_row ?_)
  have hspan := Separation.value?_span scene shows hsymbols
    (mem_offDiag_of_mem_unorderedPairs hteams hpair)
  refine (Row.means hspan (value?_atLeast (separation.min + 1) (givesWay_pair (fun hsoft =>
    ((hviolation hsoft).bind "m" pair.1).bind "n" pair.2) hpair (by simp) (by simp)))).congr ?_
  simp [Relation.Holds]

theorem HomeBalance.value?_limit (balance : HomeBalance) {declared : VarIndex} {index : Index}
    {pairs : Finset (Int × Int)} (hviolation : strength.isSoft = true →
      env.Ranges rule.violationName Tuple.two pairs) {pair : Int × Int} (hpair : pair ∈ pairs)
    (slot : Int) : (atMost balance.limit (strength.inRow?
      (.array rule.violationName declared ["m", "n"] index))).value?
        (((env.bind "m" pair.1).bind "n" pair.2).bind "s" slot) values =
      some (balance.limit + strength.slack values rule.violationName (Tuple.two pair)) :=
  value?_atMost balance.limit (givesWay_pair
    (fun hsoft => (((hviolation hsoft).bind "m" pair.1).bind "n" pair.2).bind "s" slot) hpair
    (by simp) (by simp))

/-- The rows of a balance rule under a pair of teams and a slot. -/
theorem HomeBalance.rows_mean (scene : Scene t options env) (shows : values.Shows t tally)
    (hbalance : t.hasBalance = true) {balance : HomeBalance}
    (hteams : ∀ team ∈ balance.teams, team ∈ t.teamSet) (hviolation : strength.isSoft = true →
      env.Ranges rule.violationName Tuple.two (unorderedPairs balance.teams))
    {declared : VarIndex} {index : Index} {pair : Int × Int} {slot : Int}
    (hpair : pair ∈ unorderedPairs balance.teams) (hslot : slot ∈ t.slotSet) (name : String) :
    Subto.Means (((env.bind "m" pair.1).bind "n" pair.2).bind "s" slot) values
      ⟨name, [], [⟨.diff (.var "hg" ["m", "s"]) (.var "hg" ["n", "s"]), .le, atMost balance.limit
          (strength.inRow? (.array rule.violationName declared ["m", "n"] index))⟩,
        ⟨.diff (.var "hg" ["n", "s"]) (.var "hg" ["m", "s"]), .le, atMost balance.limit
          (strength.inRow? (.array rule.violationName declared ["m", "n"] index))⟩]⟩
      (HomeBalance.lead tally pair slot ≤
        balance.limit + strength.slack values rule.violationName (Tuple.two pair)) := by
  obtain ⟨⟨hfirst, hsecond⟩, -⟩ := mem_unorderedPairs.mp hpair
  have inner := ((scene.bind "m" pair.1).bind "n" pair.2).bind "s" slot
  have hhome : ∀ {symbol : String} {team : Int}, team ∈ balance.teams →
      (((env.bind "m" pair.1).bind "n" pair.2).bind "s" slot).value? symbol = some (team : Rat) →
      (Linear.var "hg" [.name symbol, "s"]).value?
        (((env.bind "m" pair.1).bind "n" pair.2).bind "s" slot) values =
          some (tally.homeGames team slot) := fun hteam hsymbol =>
    inner.value?_homeGames shows hbalance hsymbol (by simp) (hteams _ hteam) hslot
  have hm := @hhome "m" _ hfirst (by simp)
  have hn := @hhome "n" _ hsecond (by simp)
  refine (Subto.means_cons
    (Row.means (Linear.value?_diff hm hn) (balance.value?_limit hviolation hpair slot))
      (Subto.means_row
      (Row.means (Linear.value?_diff hn hm) (balance.value?_limit hviolation hpair slot)))).congr ?_
  show _ ≤ _ ∧ _ ≤ _ ↔ |_| ≤ _
  rw [abs_le', neg_sub]

theorem HomeBalance.subtos_mean (scene : Scene t options env) (shows : values.Shows t tally)
    (hsymbols : env.symbols = []) (hbalance : t.hasBalance = true) {balance : HomeBalance}
    (hteams : ∀ team ∈ balance.teams, team ∈ t.teamSet)
    (hslots : ∀ slot ∈ balance.slots, slot ∈ t.slotSet)
    (hpairs : (SetTerm.name rule.pairSet).Lists env Tuple.two (unorderedPairs balance.teams))
    (hviolation : strength.isSoft = true →
      env.Ranges rule.violationName Tuple.two (unorderedPairs balance.teams)) :
    Subto.AllMean env values (balance.fragment strength rule).subtos
      (∀ pair ∈ unorderedPairs balance.teams, ∀ slot ∈ balance.slots,
        HomeBalance.lead tally pair slot ≤
          balance.limit + strength.slack values rule.violationName (Tuple.two pair)) := by
  have hruns : (Index.over ["m", "n"] (SetTerm.name ("FA2_" ++ toString rule.number))).Runs env
      Tuple.two (fun q => (env.bind "m" q.1).bind "n" q.2) (unorderedPairs balance.teams) :=
    Index.runs_two hpairs (by simp [hsymbols]) (by simp [hsymbols]) (by decide)
  show Subto.AllMean env values (strength.relax _ _).subtos _
  rw [Strength.subtos_relax]
  refine .single (Subto.means_forall hruns fun pair hpair => ?_)
  refine Subto.means_ids (by simp [hsymbols]) fun slot hslot => ?_
  exact balance.rows_mean scene shows hbalance hteams hviolation hpair (hslots slot hslot) _

end RoundRobin
