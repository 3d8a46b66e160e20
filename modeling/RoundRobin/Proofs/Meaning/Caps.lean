import RoundRobin.Formulation.Caps
import RoundRobin.Proofs.Meaning.Violation

/-! The rows of capacity rules, as bounds on the games that an assignment counts. -/

namespace RoundRobin

open Zimpl

variable {t : Tournament} {options : Options} {env : Env} {values : Assignment}
  {tally : Tally} {strength : Strength} {rule : Numbered}

theorem mem_offDiag_of_mem_erase {teams : Finset Int} {a b : Int} (ha : a ∈ teams)
    (hb : b ∈ teams.erase a) : (a, b) ∈ teams.offDiag :=
  Finset.mem_offDiag.mpr ⟨ha, Finset.mem_of_mem_erase hb, (Finset.ne_of_mem_erase hb).symm⟩

theorem SideCap.value?_games (scene : Scene t options env) (shows : values.Shows t tally)
    (hsymbols : env.symbols = []) {cap : SideCap} (hside : cap.side ≠ .both)
    (hslots : ∀ slot ∈ cap.slots, slot ∈ t.slotSet) {team : Int} (hteam : team ∈ t.teamSet) :
    (Linear.sumOver (.over ["n"] (othersThan "t")) (.sumOver (.over ["s"] (.ids cap.slots))
      (match cap.side with
        | .away => playedIn "n" "t" "s"
        | _ => playedIn "t" "n" "s"))).value? (env.bind "t" team) values =
      some (cap.games t tally team) := by
  have inner := scene.bind "t" team
  refine Linear.value?_sumOver
    (Index.runs_one (inner.lists_othersThan (by simp)) (by simp [hsymbols])) fun other hother => ?_
  refine Linear.value?_sumOver (Index.runs_one (SetTerm.lists_ids _ _) (by simp [hsymbols]))
    fun slot hslot => ?_
  have hpair := mem_offDiag_of_mem_erase hteam hother
  have hs := hslots slot (List.mem_toFinset.mp hslot)
  have game := (inner.bind "n" other).bind "s" slot
  cases hcase : cap.side with
  | both => exact absurd hcase hside
  | home =>
    refine (game.value?_playedIn shows (by simp) (by simp) (by simp) hpair hs).trans ?_
    simp [Tally.meeting, Side.countsHome, Side.countsAway]
  | away =>
    refine (game.value?_playedIn shows (by simp) (by simp) (by simp)
      (Scene.swap_mem hpair) hs).trans ?_
    simp [Tally.meeting, Side.countsHome, Side.countsAway]

theorem SideCap.subtos_mean (scene : Scene t options env) (shows : values.Shows t tally)
    (hsymbols : env.symbols = [])
    {cap : SideCap} (hside : cap.side ≠ .both) (hteams : ∀ team ∈ cap.teams, team ∈ t.teamSet)
    (hslots : ∀ slot ∈ cap.slots, slot ∈ t.slotSet) (hviolation : strength.isSoft = true →
      env.Ranges "ca1_viol" Tuple.one (t.softPlaces .ca1) ∧
        (rule.softPlace : Int) ∈ t.softPlaces .ca1) :
    Subto.AllMean env values (cap.fragment strength rule).subtos
      (∀ team ∈ cap.teams, cap.games t tally team ≤
        cap.max + strength.slack values "ca1_viol" (Tuple.one rule.softPlace)) := by
  rw [SideCap.fragment, Strength.subtos_relax]
  refine .single (Subto.means_ids (by simp [hsymbols]) fun team hteam => Subto.means_row ?_)
  exact Row.means (cap.value?_games scene shows hsymbols hside hslots (hteams team hteam))
    (value?_atMost cap.max (givesWay_member fun hsoft =>
      ⟨(hviolation hsoft).1.bind "t" team, (hviolation hsoft).2⟩))

theorem OpponentCap.value?_games (scene : Scene t options env) (shows : values.Shows t tally)
    (hsymbols : env.symbols = []) {cap : OpponentCap}
    (hopponents : ∀ team ∈ cap.opponents, team ∈ t.teamSet)
    (hslots : ∀ slot ∈ cap.slots, slot ∈ t.slotSet) {team : Int} (hteam : team ∈ t.teamSet) :
    (Linear.sumOver (.mk ["s", "m"] (times (.ids cap.slots) (.ids cap.opponents)) (.ne "m" "t"))
      (onSide cap.side (playedIn "t" "m" "s") (playedIn "m" "t" "s"))).value?
        (env.bind "t" team) values = some (cap.games tally team) := by
  have inner := scene.bind "t" team
  have hruns :
      (Index.mk ["s", "m"] (times (.ids cap.slots) (.ids cap.opponents)) (.ne "m" "t")).Runs
      (env.bind "t" team) Tuple.two (fun q => ((env.bind "t" team).bind "s" q.1).bind "m" q.2)
      {q ∈ cap.slots.toFinset ×ˢ cap.opponents.toFinset | q.2 ≠ team} :=
    Index.runs_two_where (SetTerm.lists_pairs (SetTerm.lists_ids _ _) (SetTerm.lists_ids _ _))
      (by simp [hsymbols]) (by simp [hsymbols]) (by decide) fun q => by simp [Condition.holds?]
  have hsum : cap.games tally team =
      ∑ q ∈ cap.slots.toFinset ×ˢ cap.opponents.toFinset with q.2 ≠ team,
        tally.meeting cap.side team q.2 q.1 := by
    rw [Finset.sum_finset_product _ cap.slots.toFinset
      (fun _ => cap.opponents.toFinset.erase team) fun q => by simp [and_assoc, and_comm]]
    rfl
  rw [hsum]
  refine Linear.value?_sumOver hruns fun q hq => ?_
  obtain ⟨hmem, hne⟩ := Finset.mem_filter.mp hq
  obtain ⟨hslot, hother⟩ := Finset.mem_product.mp hmem
  exact ((inner.bind "s" q.1).bind "m" q.2).value?_meeting shows cap.side (by simp) (by simp)
    (by simp) (Finset.mem_offDiag.mpr ⟨hteam, hopponents _ (List.mem_toFinset.mp hother), hne.symm⟩)
    (hslots _ (List.mem_toFinset.mp hslot))

theorem OpponentCap.subtos_mean (scene : Scene t options env) (shows : values.Shows t tally)
    (hsymbols : env.symbols = [])
    {cap : OpponentCap} (hteams : ∀ team ∈ cap.teams, team ∈ t.teamSet)
    (hopponents : ∀ team ∈ cap.opponents, team ∈ t.teamSet)
    (hslots : ∀ slot ∈ cap.slots, slot ∈ t.slotSet) (hviolation : strength.isSoft = true →
      env.Ranges "ca2_viol" Tuple.one (t.softPlaces .ca2) ∧
        (rule.softPlace : Int) ∈ t.softPlaces .ca2) :
    Subto.AllMean env values (cap.fragment strength rule).subtos
      (∀ team ∈ cap.teams, cap.games tally team ≤
        cap.max + strength.slack values "ca2_viol" (Tuple.one rule.softPlace)) := by
  rw [OpponentCap.fragment, Strength.subtos_relax]
  refine .single (Subto.means_ids (by simp [hsymbols]) fun team hteam => Subto.means_row ?_)
  exact Row.means (cap.value?_games scene shows hsymbols hopponents hslots (hteams team hteam))
    (value?_atMost cap.max (givesWay_member fun hsoft =>
      ⟨(hviolation hsoft).1.bind "t" team, (hviolation hsoft).2⟩))

theorem WindowCap.lists_ends (scene : Scene t options env) {cap : WindowCap}
    (hwindow : 2 ≤ cap.window) :
    (SetTerm.minus "S" (.range 0 (.int (cap.window - 2 : Nat)))).Lists env Tuple.one
      (cap.ends t) := by
  have hearly : (SetTerm.range 0 (.int (cap.window - 2 : Nat))).Lists env Tuple.one
      (Tournament.firstIds (cap.window - 1)).toFinset := by
    refine SetTerm.lists_range (Arith.value?_zero env) (Arith.value?_int env _) fun i => ?_
    have hzero : (0 : Rat) ≤ i ↔ 0 ≤ i := by exact_mod_cast Iff.rfl
    rw [hzero, Int.cast_le, List.mem_toFinset, Tournament.mem_firstIds]
    omega
  have hends : cap.ends t = t.slotSet \ (Tournament.firstIds (cap.window - 1)).toFinset := by
    ext i
    rw [WindowCap.ends, Finset.mem_filter, Finset.mem_sdiff, Tournament.mem_slotSet,
      List.mem_toFinset, Tournament.mem_firstIds]
    omega
  exact hends ▸ SetTerm.lists_minus Tuple.one_injective scene.slotSet hearly

theorem value?_slotBack {last : Int} (h : env.value? "s" = some (last : Rat)) (back : Nat) :
    (slotBack back).value? env = some ((last - back : Int) : Rat) := by
  unfold slotBack
  split
  · rename_i hback
    rw [Arith.value?_name, h, hback]
    simp
  · have hsub : (Arith.name "s" - .int back).value? env = some (last - (back : Int) : Rat) :=
      Arith.value?_sub h (Arith.value?_int env back)
    rw [Int.cast_sub]
    exact hsub

/-- The slots of a window are those up to `window` places before its end. -/
theorem WindowCap.sum_back {cap : WindowCap} {last : Int} (hlast : last ∈ cap.ends t)
    (f : Int → Rat) : ((List.range cap.window).map fun back : Nat => f (last - back)).sum =
      ∑ slot ∈ t.slotSet with last - cap.window < slot ∧ slot ≤ last, f slot := by
  rw [(Listing.toFinset List.nodup_range).sum_eq]
  rw [WindowCap.ends, Finset.mem_filter, Tournament.mem_slotSet] at hlast
  refine Finset.sum_nbij' (fun back => last - back) (fun slot => (last - slot).toNat) ?_ ?_ ?_ ?_ ?_
  · intro back hback
    rw [List.mem_toFinset, List.mem_range] at hback
    rw [Finset.mem_filter, Tournament.mem_slotSet]
    omega
  · intro slot hslot
    rw [Finset.mem_filter, Tournament.mem_slotSet] at hslot
    rw [List.mem_toFinset, List.mem_range]
    omega
  · intro back _
    omega
  · intro slot hslot
    rw [Finset.mem_filter] at hslot
    omega
  · exact fun _ _ => rfl

theorem WindowCap.value?_games (scene : Scene t options env) (shows : values.Shows t tally)
    (hsymbols : env.symbols = []) {cap : WindowCap}
    (hopponents : ∀ team ∈ cap.opponents, team ∈ t.teamSet) {team last : Int}
    (hteam : team ∈ t.teamSet) (hlast : last ∈ cap.ends t) :
    (Linear.sumOver (.over ["m"] (.minus (.ids cap.opponents) (.single "t")))
      (.plus ((List.range cap.window).map fun back =>
        onSide cap.side (playedIn "t" "m" (slotBack back))
          (playedIn "m" "t" (slotBack back))))).value?
          ((env.bind "t" team).bind "s" last) values = some (cap.games t tally team last) := by
  have inner := (scene.bind "t" team).bind "s" last
  have hothers : (SetTerm.minus (.ids cap.opponents) (.single "t")).Lists
      ((env.bind "t" team).bind "s" last) Tuple.one (cap.opponents.toFinset.erase team) := by
    rw [Finset.erase_eq]
    exact SetTerm.lists_minus Tuple.one_injective (SetTerm.lists_ids _ _)
      (SetTerm.lists_single (by simp))
  refine Linear.value?_sumOver (Index.runs_one hothers (by simp [hsymbols])) fun other hother => ?_
  have hpair : (team, other) ∈ t.teamSet.offDiag := Finset.mem_offDiag.mpr ⟨hteam,
    hopponents other (List.mem_toFinset.mp (Finset.mem_of_mem_erase hother)),
    (Finset.ne_of_mem_erase hother).symm⟩
  rw [Linear.value?_plus, ← WindowCap.sum_back hlast (tally.meeting cap.side team other)]
  refine Linear.sumOf?_map fun back hback => ?_
  have hslot : last - back ∈ t.slotSet := by
    rw [WindowCap.ends, Finset.mem_filter, Tournament.mem_slotSet] at hlast
    rw [List.mem_range] at hback
    rw [Tournament.mem_slotSet]
    omega
  exact (inner.bind "m" other).value?_meeting shows cap.side (by simp) (by simp)
    (value?_slotBack (by simp) back) hpair hslot

/-- The row of a rule on windows under a team and the last slot of a window. -/
theorem WindowCap.row_means (scene : Scene t options env) (shows : values.Shows t tally)
    (hsymbols : env.symbols = []) {cap : WindowCap}
    (hopponents : ∀ team ∈ cap.opponents, team ∈ t.teamSet)
    (hviolation : strength.isSoft = true → env.Ranges rule.violationName Tuple.one (cap.ends t))
    {declared : VarIndex} {index : Index} {team last : Int} (hteam : team ∈ t.teamSet)
    (hlast : last ∈ cap.ends t) :
    Row.Means ((env.bind "t" team).bind "s" last) values
      ⟨.sumOver (.over ["m"] (.minus (.ids cap.opponents) (.single "t")))
        (.plus ((List.range cap.window).map fun back =>
          onSide cap.side (playedIn "t" "m" (slotBack back)) (playedIn "m" "t" (slotBack back)))),
        .le, atMost cap.max (strength.inRow? (.array rule.violationName declared ["s"] index))⟩
      (cap.games t tally team last ≤
        cap.max + strength.slack values rule.violationName (Tuple.one last)) :=
  Row.means (cap.value?_games scene shows hsymbols hopponents hteam hlast) (value?_atMost cap.max
    (givesWay_slot (fun hsoft => ((hviolation hsoft).bind "t" team).bind "s" last) hlast (by simp)))

theorem WindowCap.subtos_mean (scene : Scene t options env) (shows : values.Shows t tally)
    (hsymbols : env.symbols = [])
    {cap : WindowCap} (hwindow : 2 ≤ cap.window) (hteams : ∀ team ∈ cap.teams, team ∈ t.teamSet)
    (hopponents : ∀ team ∈ cap.opponents, team ∈ t.teamSet)
    (hviolation : strength.isSoft = true → env.Ranges rule.violationName Tuple.one (cap.ends t)) :
    Subto.AllMean env values (cap.fragment strength rule).subtos
      (∀ team ∈ cap.teams, ∀ last ∈ cap.ends t, cap.games t tally team last ≤
        cap.max + strength.slack values rule.violationName (Tuple.one last)) := by
  rw [WindowCap.fragment, Strength.subtos_relax]
  refine .single (Subto.means_ids (by simp [hsymbols]) fun team hteam => ?_)
  have hends := WindowCap.lists_ends (scene.bind "t" team) hwindow
  refine Subto.means_forall (Index.runs_one hends (by simp [hsymbols])) fun last hlast => ?_
  exact Subto.means_row (cap.row_means scene shows hsymbols hopponents hviolation
    (hteams team hteam) hlast)

theorem GroupCap.value?_games (scene : Scene t options env) (shows : values.Shows t tally)
    (hsymbols : env.symbols = []) {cap : GroupCap} (hteams : ∀ team ∈ cap.teams, team ∈ t.teamSet)
    (hopponents : ∀ team ∈ cap.opponents, team ∈ t.teamSet)
    (hslots : ∀ slot ∈ cap.slots, slot ∈ t.slotSet) :
    (Linear.sumOver (.mk ["m", "n", "s"]
      (.product [.ids cap.teams, .ids cap.opponents, .ids cap.slots]) (.ne "m" "n"))
        (onSide cap.side (playedIn "m" "n" "s") (playedIn "n" "m" "s"))).value? env values =
          some (cap.games tally) := by
  have hruns : (Index.mk ["m", "n", "s"]
      (.product [.ids cap.teams, .ids cap.opponents, .ids cap.slots]) (.ne "m" "n")).Runs env
        Tuple.three (fun q => ((env.bind "m" q.1.1).bind "n" q.1.2).bind "s" q.2)
        {q ∈ (cap.teams.toFinset ×ˢ cap.opponents.toFinset) ×ˢ cap.slots.toFinset |
          q.1.1 ≠ q.1.2} :=
    Index.runs_three_where (SetTerm.lists_triples (SetTerm.lists_ids _ _) (SetTerm.lists_ids _ _)
      (SetTerm.lists_ids _ _)) (by simp [hsymbols]) (by simp [hsymbols]) (by simp [hsymbols])
      (by decide) (by decide) (by decide) fun q => by simp [Condition.holds?]
  have hsum : cap.games tally =
      ∑ q ∈ (cap.teams.toFinset ×ˢ cap.opponents.toFinset) ×ˢ cap.slots.toFinset
        with q.1.1 ≠ q.1.2, tally.meeting cap.side q.1.1 q.1.2 q.2 := by
    rw [Finset.sum_finset_product_right _ cap.slots.toFinset
      (fun _ => {p ∈ cap.teams.toFinset ×ˢ cap.opponents.toFinset | p.1 ≠ p.2})
      fun q => by simp [and_comm, and_assoc]]
    rfl
  rw [hsum]
  refine Linear.value?_sumOver hruns fun q hq => ?_
  simp only [Finset.mem_filter, Finset.mem_product, List.mem_toFinset] at hq
  exact (((scene.bind "m" q.1.1).bind "n" q.1.2).bind "s" q.2).value?_meeting shows cap.side
    (by simp) (by simp) (by simp) (Finset.mem_offDiag.mpr
      ⟨hteams _ hq.1.1.1, hopponents _ hq.1.1.2, hq.2⟩) (hslots _ hq.1.2)

theorem GroupCap.value?_gamesIn (scene : Scene t options env) (shows : values.Shows t tally)
    (hsymbols : env.symbols = []) {cap : GroupCap} (hteams : ∀ team ∈ cap.teams, team ∈ t.teamSet)
    (hopponents : ∀ team ∈ cap.opponents, team ∈ t.teamSet) {slot : Int}
    (hslot : slot ∈ t.slotSet) :
    (Linear.sumOver (.mk ["m", "n"] (times (.ids cap.teams) (.ids cap.opponents)) (.ne "m" "n"))
      (onSide cap.side (playedIn "m" "n" "s") (playedIn "n" "m" "s"))).value?
        (env.bind "s" slot) values = some (cap.gamesIn tally slot) := by
  have inner := scene.bind "s" slot
  have hruns :
      (Index.mk ["m", "n"] (times (.ids cap.teams) (.ids cap.opponents)) (.ne "m" "n")).Runs
      (env.bind "s" slot) Tuple.two (fun q => ((env.bind "s" slot).bind "m" q.1).bind "n" q.2)
      {q ∈ cap.teams.toFinset ×ˢ cap.opponents.toFinset | q.1 ≠ q.2} :=
    Index.runs_two_where (SetTerm.lists_pairs (SetTerm.lists_ids _ _) (SetTerm.lists_ids _ _))
      (by simp [hsymbols]) (by simp [hsymbols]) (by decide) fun q => by simp [Condition.holds?]
  refine Linear.value?_sumOver hruns fun q hq => ?_
  simp only [Finset.mem_filter, Finset.mem_product, List.mem_toFinset] at hq
  exact ((inner.bind "m" q.1).bind "n" q.2).value?_meeting shows cap.side (by simp) (by simp)
    (by simp) (Finset.mem_offDiag.mpr ⟨hteams _ hq.1.1, hopponents _ hq.1.2, hq.2⟩) hslot

theorem GroupCap.subtos_mean (scene : Scene t options env) (shows : values.Shows t tally)
    (hsymbols : env.symbols = []) {cap : GroupCap} (hteams : ∀ team ∈ cap.teams, team ∈ t.teamSet)
    (hopponents : ∀ team ∈ cap.opponents, team ∈ t.teamSet)
    (hslots : ∀ slot ∈ cap.slots, slot ∈ t.slotSet)
    (hglobal : cap.scope = .global → strength.isSoft = true →
      env.Ranges rule.violationName (fun _ : Unit => []) Finset.univ)
    (hevery : cap.scope = .every → strength.isSoft = true →
      env.Ranges rule.violationName Tuple.one cap.slots.toFinset) :
    Subto.AllMean env values (cap.fragment strength rule).subtos
      (match cap.scope with
      | .global => cap.games tally ≤ cap.max + strength.slack values rule.violationName []
      | .every => ∀ slot ∈ cap.slots, cap.gamesIn tally slot ≤
          cap.max + strength.slack values rule.violationName (Tuple.one slot)) := by
  unfold GroupCap.fragment
  cases hscope : cap.scope with
  | global =>
    dsimp only
    rw [Strength.subtos_relax]
    exact .single (Subto.means_row (Row.means
      (cap.value?_games scene shows hsymbols hteams hopponents hslots)
      (value?_atMost cap.max (givesWay_scalar (hglobal hscope)))))
  | every =>
    dsimp only
    rw [Strength.subtos_relax]
    refine .single (Subto.means_ids (by simp [hsymbols]) fun slot hslot => Subto.means_row ?_)
    exact Row.means (cap.value?_gamesIn scene shows hsymbols hteams hopponents (hslots slot hslot))
      (value?_atMost cap.max (givesWay_slot (fun hsoft => (hevery hscope hsoft).bind "s" slot)
        (List.mem_toFinset.mpr hslot) (by simp)))

end RoundRobin
