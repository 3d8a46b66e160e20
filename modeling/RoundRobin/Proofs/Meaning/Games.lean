import RoundRobin.Proofs.Meaning.Scene

/-! What the variables of a program count, and the terms by which the rows of a formulation refer to
them. Every row is made of these terms. -/

namespace RoundRobin

open Zimpl

/-- The variables of a program have the values that a tally counts, wherever they are declared. -/
structure Zimpl.Assignment.Shows (values : Assignment) (t : Tournament) (tally : Tally) : Prop where
  game : ∀ p ∈ t.teamSet.offDiag, ∀ slot ∈ t.slotSet,
    values "x" (Tuple.three (p, slot)) = tally.game p.1 p.2 slot
  homeBreak : t.hasBreaks = true → ∀ team ∈ t.teamSet, ∀ slot ∈ t.slotSet.erase 0,
    values "bh" (Tuple.two (team, slot)) = tally.homeBreak team slot
  awayBreak : t.hasBreaks = true → ∀ team ∈ t.teamSet, ∀ slot ∈ t.slotSet.erase 0,
    values "ba" (Tuple.two (team, slot)) = tally.awayBreak team slot
  homeGames : t.hasBalance = true → ∀ team ∈ t.teamSet, ∀ slot ∈ t.slotSet,
    values "hg" (Tuple.two (team, slot)) = tally.homeGames team slot

theorem value?_onSide {env : Env} {values : Assignment} (side : Side) {home away : Linear}
    {p q : Rat} (hhome : home.value? env values = some p)
    (haway : away.value? env values = some q) :
    (onSide side home away).value? env values =
      some ((if side.countsHome then p else 0) + if side.countsAway then q else 0) := by
  rw [onSide, Linear.value?_plus]
  cases side <;> simp [Side.countsHome, Side.countsAway, Linear.sumOf?, hhome, haway]

theorem value?_oneTerm (env : Env) (values : Assignment) : one.value? env values = some 1 := rfl

namespace Scene

variable {t : Tournament} {options : Options} {env : Env} {values : Assignment} {tally : Tally}

section Subscripts

variable {a b c : Arith} {m n s : Int}

theorem value?_playedIn (scene : Scene t options env) (shows : values.Shows t tally)
    (ha : a.value? env = some (m : Rat))
    (hb : b.value? env = some (n : Rat)) (hc : c.value? env = some (s : Rat))
    (hteams : (m, n) ∈ t.teamSet.offDiag) (hslot : s ∈ t.slotSet) :
    (playedIn a b c).value? env values = some (tally.game m n s) := by
  have hplace : Arith.values? env [a, b, c] = some (Tuple.three ((m, n), s)) := by
    simp [Arith.values?, ha, hb, hc, Tuple.three]
  rw [← shows.game (m, n) hteams s hslot]
  exact scene.games.value? (Finset.mem_product.mpr ⟨hteams, hslot⟩) hplace

theorem swap_mem (hteams : (m, n) ∈ t.teamSet.offDiag) : (n, m) ∈ t.teamSet.offDiag := by
  rw [Finset.mem_offDiag] at hteams ⊢
  exact ⟨hteams.2.1, hteams.1, hteams.2.2.symm⟩

theorem value?_eitherWay (scene : Scene t options env) (shows : values.Shows t tally)
    (ha : a.value? env = some (m : Rat))
    (hb : b.value? env = some (n : Rat)) (hc : c.value? env = some (s : Rat))
    (hteams : (m, n) ∈ t.teamSet.offDiag) (hslot : s ∈ t.slotSet) :
    (eitherWay a b c).value? env values =
      some (tally.game m n s + tally.game n m s) :=
  Linear.value?_plus_pair (scene.value?_playedIn shows ha hb hc hteams hslot)
    (scene.value?_playedIn shows hb ha hc (swap_mem hteams) hslot)

theorem value?_meeting (scene : Scene t options env) (shows : values.Shows t tally)
    (side : Side) (ha : a.value? env = some (m : Rat)) (hb : b.value? env = some (n : Rat))
    (hc : c.value? env = some (s : Rat)) (hteams : (m, n) ∈ t.teamSet.offDiag)
    (hslot : s ∈ t.slotSet) :
    (onSide side (playedIn a b c) (playedIn b a c)).value? env values =
      some (tally.meeting side m n s) :=
  value?_onSide side (scene.value?_playedIn shows ha hb hc hteams hslot)
    (scene.value?_playedIn shows hb ha hc (swap_mem hteams) hslot)

end Subscripts

section Breaks

variable {team s : Int}

theorem values?_teamSlot (hteam : env.value? "t" = some (team : Rat))
    (hslot : env.value? "s" = some (s : Rat)) :
    Arith.values? env [.name "t", .name "s"] = some (Tuple.two (team, s)) := by
  simp [Arith.values?, hteam, hslot, Tuple.two]

theorem value?_homeBreak (scene : Scene t options env) (shows : values.Shows t tally)
    (hbreaks : t.hasBreaks = true) (hteam : env.value? "t" = some (team : Rat))
    (hslot : env.value? "s" = some (s : Rat)) (hmem : team ∈ t.teamSet)
    (hmem' : s ∈ t.slotSet.erase 0) :
    (Linear.var "bh" ["t", "s"]).value? env values = some (tally.homeBreak team s) := by
  rw [← shows.homeBreak hbreaks team hmem s hmem']
  exact (scene.homeBreaks hbreaks).value? (Finset.mem_product.mpr ⟨hmem, hmem'⟩)
    (values?_teamSlot hteam hslot)

theorem value?_awayBreak (scene : Scene t options env) (shows : values.Shows t tally)
    (hbreaks : t.hasBreaks = true) (hteam : env.value? "t" = some (team : Rat))
    (hslot : env.value? "s" = some (s : Rat)) (hmem : team ∈ t.teamSet)
    (hmem' : s ∈ t.slotSet.erase 0) :
    (Linear.var "ba" ["t", "s"]).value? env values = some (tally.awayBreak team s) := by
  rw [← shows.awayBreak hbreaks team hmem s hmem']
  exact (scene.awayBreaks hbreaks).value? (Finset.mem_product.mpr ⟨hmem, hmem'⟩)
    (values?_teamSlot hteam hslot)

theorem value?_breakOn (scene : Scene t options env) (shows : values.Shows t tally)
    (hbreaks : t.hasBreaks = true) (side : Side) (hteam : env.value? "t" = some (team : Rat))
    (hslot : env.value? "s" = some (s : Rat)) (hmem : team ∈ t.teamSet)
    (hmem' : s ∈ t.slotSet.erase 0) :
    (breakOn side).value? env values = some (tally.breaks side team s) :=
  value?_onSide side (scene.value?_homeBreak shows hbreaks hteam hslot hmem hmem')
    (scene.value?_awayBreak shows hbreaks hteam hslot hmem hmem')

end Breaks

theorem value?_homeGames (scene : Scene t options env) (shows : values.Shows t tally)
    (hbalance : t.hasBalance = true) {symbol : String} {team s : Int}
    (hteam : env.value? symbol = some (team : Rat)) (hslot : env.value? "s" = some (s : Rat))
    (hmem : team ∈ t.teamSet) (hmem' : s ∈ t.slotSet) :
    (Linear.var "hg" [.name symbol, "s"]).value? env values = some (tally.homeGames team s) := by
  have hplace : Arith.values? env [.name symbol, .name "s"] = some (Tuple.two (team, s)) := by
    simp [Arith.values?, hteam, hslot, Tuple.two]
  rw [← shows.homeGames hbalance team hmem s hmem']
  exact (scene.homeGames hbalance).value? (Finset.mem_product.mpr ⟨hmem, hmem'⟩) hplace

theorem lists_othersThan (scene : Scene t options env) {symbol : String} {team : Int}
    (h : env.value? symbol = some (team : Rat)) :
    (othersThan symbol).Lists env Tuple.one (t.teamSet.erase team) := by
  rw [Finset.erase_eq]
  exact SetTerm.lists_minus Tuple.one_injective scene.teamSet (SetTerm.lists_single h)

end Scene

end RoundRobin
