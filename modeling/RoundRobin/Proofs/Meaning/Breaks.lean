import RoundRobin.Formulation.Breaks
import RoundRobin.Proofs.Meaning.Violation
import RoundRobin.Proofs.Season.Slack

/-! The rows of rules on breaks. A rule that shows no slot in which a break can be has no row, and
no breaks to bound. -/

namespace RoundRobin

open Zimpl

variable {t : Tournament} {options : Options} {env : Env} {values : Assignment}
  {tally : Tally} {strength : Strength} {rule : Numbered}

theorem TeamBreaks.toFinset_countedSlots (breaks : TeamBreaks) :
    breaks.countedSlots.toFinset = breaks.slots.toFinset.erase 0 := by
  ext slot
  simp [TeamBreaks.countedSlots, and_comm]

theorem TeamBreaks.breaks_eq_zero {breaks : TeamBreaks} (h : breaks.countedSlots = [])
    (tally : Tally) (team : Int) : breaks.breaks tally team = 0 := by
  rw [TeamBreaks.breaks, ← breaks.toFinset_countedSlots, h]
  rfl

theorem TeamBreaks.value?_breaks (scene : Scene t options env) (shows : values.Shows t tally)
    (hsymbols : env.symbols = []) (hbreaks : t.hasBreaks = true) {breaks : TeamBreaks}
    (hslots : ∀ slot ∈ breaks.slots, slot ∈ t.slotSet) {team : Int} (hteam : team ∈ t.teamSet) :
    (Linear.sumOver (.over ["s"] (.ids breaks.countedSlots)) (breakOn breaks.side)).value?
      (env.bind "t" team) values = some (breaks.breaks tally team) := by
  rw [TeamBreaks.breaks, ← breaks.toFinset_countedSlots]
  refine Linear.value?_sumOver (Index.runs_one (SetTerm.lists_ids _ _) (by simp [hsymbols]))
    fun slot hslot => ?_
  rw [breaks.toFinset_countedSlots, Finset.mem_erase, List.mem_toFinset] at hslot
  exact ((scene.bind "t" team).bind "s" slot).value?_breakOn shows hbreaks breaks.side (by simp)
    (by simp) hteam (Finset.mem_erase.mpr ⟨hslot.1, hslots slot hslot.2⟩)

theorem TeamBreaks.subtos_mean (scene : Scene t options env) (shows : values.Shows t tally)
    (hsymbols : env.symbols = []) (hbreaks : t.hasBreaks = true) {breaks : TeamBreaks}
    (hteams : ∀ team ∈ breaks.teams, team ∈ t.teamSet)
    (hslots : ∀ slot ∈ breaks.slots, slot ∈ t.slotSet)
    (hviolation : strength.isSoft = true → breaks.countedSlots ≠ [] →
      env.Ranges rule.violationName (fun _ : Unit => []) Finset.univ) :
    Subto.AllMean env values (breaks.fragment strength rule).subtos
      (∀ team ∈ breaks.teams, breaks.breaks tally team ≤ breaks.limit +
        if breaks.countedSlots = [] then 0 else strength.slack values rule.violationName []) := by
  by_cases hcounted : breaks.countedSlots = []
  · simp only [fragment, if_pos hcounted, breaks.breaks_eq_zero hcounted]
    exact Subto.AllMean.nil.congr (iff_of_true trivial fun _ _ => by positivity)
  · rw [fragment, if_neg hcounted, if_neg hcounted, Strength.subtos_relax]
    refine .single (Subto.means_ids (by simp [hsymbols]) fun team hteam => Subto.means_row ?_)
    exact Row.means (breaks.value?_breaks scene shows hsymbols hbreaks hslots (hteams team hteam))
      (value?_atMost breaks.limit (givesWay_scalar fun hsoft =>
        (hviolation hsoft hcounted).bind "t" team))

/-- All members of an ascending list but the first have a lesser one before them. -/
theorem mem_tail_iff {ids : List Int} (h : ids.Pairwise (· < ·)) {id : Int} :
    id ∈ ids.tail ↔ id ∈ ids ∧ ∃ earlier ∈ ids, earlier < id := by
  cases ids with
  | nil => simp
  | cons first rest =>
    obtain ⟨hfirst, -⟩ := List.pairwise_cons.mp h
    rw [List.tail_cons]
    constructor
    · exact fun hid => ⟨.tail _ hid, first, .head _, hfirst id hid⟩
    · rintro ⟨hid, earlier, hearlier, hlt⟩
      rcases List.mem_cons.mp hid with rfl | hid
      · rcases List.mem_cons.mp hearlier with rfl | hearlier
        · exact absurd hlt (lt_irrefl _)
        · exact absurd (hfirst earlier hearlier) (lt_asymm hlt)
      · exact hid

theorem GroupBreaks.toFinset_countedSlots (breaks : GroupBreaks) :
    breaks.countedSlots.toFinset = breaks.inner := by
  ext slot
  rw [List.mem_toFinset, GroupBreaks.countedSlots, GroupBreaks.block,
    mem_tail_iff (pairwise_ascending _), GroupBreaks.inner, Finset.mem_filter]
  simp

theorem GroupBreaks.breaks_eq_zero {breaks : GroupBreaks} (h : breaks.countedSlots = [])
    (tally : Tally) : breaks.breaks tally = 0 := by
  rw [GroupBreaks.breaks, ← breaks.toFinset_countedSlots, h]
  exact Finset.sum_const_zero

theorem GroupBreaks.value?_breaks (scene : Scene t options env) (shows : values.Shows t tally)
    (hsymbols : env.symbols = []) (hbreaks : t.hasBreaks = true) {breaks : GroupBreaks}
    (hteams : ∀ team ∈ breaks.teams, team ∈ t.teamSet)
    (hslots : ∀ slot ∈ breaks.slots, slot ∈ t.slotSet) :
    (Linear.sumOver (.over ["t", "s"] (times (.ids breaks.teams) (.ids breaks.countedSlots)))
      (breakOn .both)).value? env values = some (breaks.breaks tally) := by
  have hsum : breaks.breaks tally =
      ∑ q ∈ breaks.teams.toFinset ×ˢ breaks.countedSlots.toFinset,
        tally.breaks .both q.1 q.2 := by
    rw [GroupBreaks.breaks, breaks.toFinset_countedSlots, Finset.sum_product]
  rw [hsum]
  refine Linear.value?_sumOver (Index.runs_two (SetTerm.lists_pairs (SetTerm.lists_ids _ _)
    (SetTerm.lists_ids _ _)) (by simp [hsymbols]) (by simp [hsymbols]) (by decide)) fun q hq => ?_
  rw [Finset.mem_product, List.mem_toFinset, breaks.toFinset_countedSlots] at hq
  exact ((scene.bind "t" q.1).bind "s" q.2).value?_breakOn shows hbreaks .both (by simp) (by simp)
    (hteams _ hq.1) (GroupBreaks.inner_subset hslots hq.2)

theorem GroupBreaks.subtos_mean (scene : Scene t options env) (shows : values.Shows t tally)
    (hsymbols : env.symbols = []) (hbreaks : t.hasBreaks = true) {breaks : GroupBreaks}
    (hteams : ∀ team ∈ breaks.teams, team ∈ t.teamSet)
    (hslots : ∀ slot ∈ breaks.slots, slot ∈ t.slotSet)
    (hviolation : strength.isSoft = true → breaks.countedSlots ≠ [] →
      env.Ranges rule.violationName (fun _ : Unit => []) Finset.univ) :
    Subto.AllMean env values (breaks.fragment strength rule).subtos
      (breaks.breaks tally ≤ breaks.limit +
        if breaks.countedSlots = [] then 0 else strength.slack values rule.violationName []) := by
  by_cases hcounted : breaks.countedSlots = []
  · simp only [fragment, if_pos hcounted, breaks.breaks_eq_zero hcounted]
    exact Subto.AllMean.nil.congr (iff_of_true trivial (by positivity))
  · rw [fragment, if_neg hcounted, if_neg hcounted, Strength.subtos_relax]
    exact .single (Subto.means_row (Row.means
      (breaks.value?_breaks scene shows hsymbols hbreaks hteams hslots)
      (value?_atMost breaks.limit (givesWay_scalar fun hsoft => hviolation hsoft hcounted))))

end RoundRobin
