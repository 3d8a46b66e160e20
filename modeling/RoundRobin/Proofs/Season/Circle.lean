import RoundRobin.Proofs.Season.Counting

/-! The circle method. All teams but the last stand on a circle of odd length; two of them meet in
the slot that their places add up to, and the last team meets each of them in the slot of twice its
place. The second half of the season repeats the first with the venues exchanged. -/

namespace RoundRobin

open Finset

namespace Circle

/-- A number below twice the length, as a place on the circle. -/
def wrap (length place : Int) : Int := if place < length then place else place - length

/-- The slot of the first half in which two teams meet. -/
def slot (last a b : Int) : Int :=
  wrap last (if a = last then b + b else if b = last then a + a else a + b)

/-- The team that meets a team in a slot of the first half. -/
def opponent (last team slot : Int) : Int :=
  if team = last then if slot % 2 = 0 then slot / 2 else (slot + last) / 2
  else if wrap last (slot - team + last) = team then last else wrap last (slot - team + last)

/-- In the first half of the season the lesser team is at home. -/
def timetable (last : Int) : Timetable := fun home away day =>
  (home < away && day = slot last home away) || (away < home && day = slot last away home + last)

variable {last a b s : Int}

theorem slot_range (ha : 0 ≤ a ∧ a ≤ last) (hb : 0 ≤ b ∧ b ≤ last) (hne : a ≠ b) :
    0 ≤ slot last a b ∧ slot last a b < last := by
  unfold slot wrap
  split_ifs <;> omega

theorem slot_comm : slot last a b = slot last b a := by
  unfold slot
  congr 1
  split_ifs <;> omega

theorem opponent_range (hodd : last % 2 = 1) (ha : 0 ≤ a ∧ a ≤ last) (hs : 0 ≤ s ∧ s < last) :
    0 ≤ opponent last a s ∧ opponent last a s ≤ last ∧ opponent last a s ≠ a := by
  unfold opponent wrap
  split_ifs <;> omega

/-- Each team meets exactly one other in each slot. -/
theorem slot_eq_iff (hodd : last % 2 = 1) (ha : 0 ≤ a ∧ a ≤ last) (hb : 0 ≤ b ∧ b ≤ last)
    (hne : b ≠ a) (hs : 0 ≤ s ∧ s < last) : slot last a b = s ↔ b = opponent last a s := by
  unfold slot opponent wrap
  split_ifs <;> omega

/-- A team is at home or away in a slot according to the order of the two teams and the half. -/
theorem timetable_iff (hodd : last % 2 = 1) (ha : 0 ≤ a ∧ a ≤ last) (hb : 0 ≤ b ∧ b ≤ last)
    (hne : b ≠ a) (hs : 0 ≤ s ∧ s < last) :
    (timetable last a b s = true ↔ b = opponent last a s ∧ a < opponent last a s) ∧
    (timetable last b a s = true ↔ b = opponent last a s ∧ opponent last a s < a) ∧
    (timetable last a b (s + last) = true ↔ b = opponent last a s ∧ opponent last a s < a) ∧
    (timetable last b a (s + last) = true ↔ b = opponent last a s ∧ a < opponent last a s) := by
  have hrange := slot_range ha hb hne.symm
  have hslot := slot_eq_iff hodd ha hb hne hs
  have hcomm : slot last b a = slot last a b := slot_comm
  simp only [timetable, Bool.or_eq_true, Bool.and_eq_true, decide_eq_true_eq, hcomm]
  omega

end Circle

theorem card_filter_eq_ite {set : Finset Int} {item : Int} {p : Int → Prop} [DecidablePred p]
    {c : Prop} [Decidable c] (hitem : item ∈ set) (h : ∀ i ∈ set, p i ↔ i = item ∧ c) :
    #{i ∈ set | p i} = if c then 1 else 0 := by
  rw [filter_congr h]
  by_cases hc : c
  · simp [hc, hitem, filter_eq']
  · simp [hc]

/-- For every even number of teams there is a season whose second half mirrors the first. -/
theorem Circle.isSeason {t : Tournament} (htwo : 2 ≤ t.teamCount) (heven : t.teamCount % 2 = 0)
    (hslots : t.slotCount = 2 * (t.teamCount - 1)) (options : Options) :
    (Circle.timetable (t.teamCount - 1)).IsSeason t options := by
  obtain ⟨last, hlast⟩ : ∃ last : Int, last = t.teamCount - 1 := ⟨_, rfl⟩
  have hodd : last % 2 = 1 := by omega
  have hhalf : ((t.slotCount / 2 : Nat) : Int) = last := by omega
  have hteam : ∀ team, team ∈ t.teamSet ↔ 0 ≤ team ∧ team ≤ last := fun team => by
    rw [Tournament.mem_teamSet]
    omega
  have hslot : ∀ slot, slot ∈ t.slotSet ↔ 0 ≤ slot ∧ slot < last + last := fun slot => by
    rw [Tournament.mem_slotSet]
    omega
  have hfirst : ∀ slot, slot ∈ t.firstHalf ↔ 0 ≤ slot ∧ slot < last := fun slot => by
    rw [Tournament.firstHalf, List.mem_toFinset, Tournament.mem_firstIds]
    omega
  rw [← hlast]
  refine ⟨fun home hhome away haway hne => ?_, fun slot hs team ht => ?_,
    fun _ _ a ha b hb hlt => ?_, fun _ home hhome away haway hne slot hs => ?_⟩
  · rw [hteam] at hhome haway
    have hrange := slot_range hhome haway hne
    have hcomm : slot last away home = slot last home away := slot_comm
    have hplace :
        (if home < away then slot last home away else slot last home away + last) ∈ t.slotSet := by
      rw [hslot]
      split_ifs <;> omega
    rw [card_filter_eq_ite (c := True) hplace fun i hi => ?_]
    · simp
    · simp only [timetable, Bool.or_eq_true, Bool.and_eq_true, decide_eq_true_eq, hcomm, and_true]
      split_ifs <;> omega
  · rw [hteam] at ht
    rw [hslot] at hs
    have hothers : ∀ other ∈ t.teamSet.erase team, (0 ≤ other ∧ other ≤ last) ∧ other ≠ team :=
      fun other hother => ⟨(hteam other).mp (mem_of_mem_erase hother), ne_of_mem_erase hother⟩
    by_cases hearly : slot < last
    · have hrange := opponent_range hodd ht ⟨hs.1, hearly⟩
      have hopponent : opponent last team slot ∈ t.teamSet.erase team :=
        mem_erase.mpr ⟨hrange.2.2, (hteam _).mpr ⟨hrange.1, hrange.2.1⟩⟩
      rw [card_filter_eq_ite hopponent fun other hother => (timetable_iff hodd ht
          (hothers other hother).1 (hothers other hother).2 ⟨hs.1, hearly⟩).1,
        card_filter_eq_ite hopponent fun other hother => (timetable_iff hodd ht
          (hothers other hother).1 (hothers other hother).2 ⟨hs.1, hearly⟩).2.1]
      split_ifs <;> omega
    · obtain ⟨early, rfl⟩ : ∃ early, slot = early + last := ⟨slot - last, by omega⟩
      have hearly : 0 ≤ early ∧ early < last := by omega
      have hrange := opponent_range hodd ht hearly
      have hopponent : opponent last team early ∈ t.teamSet.erase team :=
        mem_erase.mpr ⟨hrange.2.2, (hteam _).mpr ⟨hrange.1, hrange.2.1⟩⟩
      rw [card_filter_eq_ite hopponent fun other hother => (timetable_iff hodd ht
          (hothers other hother).1 (hothers other hother).2 hearly).2.2.1,
        card_filter_eq_ite hopponent fun other hother => (timetable_iff hodd ht
          (hothers other hother).1 (hothers other hother).2 hearly).2.2.2]
      split_ifs <;> omega
  · rw [hteam] at ha hb
    have hrange := Circle.slot_range ha hb hlt.ne
    have hplace : Circle.slot last a b ∈ t.firstHalf := (hfirst _).mpr hrange
    rw [card_filter_eq_ite (c := True) hplace fun i hi => ?_,
      card_filter_eq_ite (c := False) hplace fun i hi => ?_]
    · simp
    · rw [hfirst] at hi
      simp only [timetable, Bool.or_eq_true, Bool.and_eq_true, decide_eq_true_eq,
        and_false, iff_false]
      omega
    · simp only [timetable, Bool.or_eq_true, Bool.and_eq_true, decide_eq_true_eq, and_true]
      omega
  · rw [hteam] at hhome haway
    rw [hfirst] at hs
    rw [hhalf]
    have hrange := Circle.slot_range hhome haway hne
    have hcomm : Circle.slot last away home = Circle.slot last home away := slot_comm
    rw [Bool.eq_iff_iff]
    simp only [timetable, Bool.or_eq_true, Bool.and_eq_true, decide_eq_true_eq, hcomm]
    omega

end RoundRobin
