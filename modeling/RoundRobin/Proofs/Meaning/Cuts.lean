import RoundRobin.Proofs.Meaning.Games
import RoundRobin.Proofs.Zimpl.Field

/-! Cuts between teams. The rows on odd sets of a size bound the games between each set of so many
teams and the others from below, whatever the field is that the games have their values in. -/

namespace RoundRobin

open Zimpl

/-- The games between some teams and the others in a slot, at either venue. -/
def Tournament.cut {K : Type} [AddCommMonoid K] (t : Tournament) (values : String → Tuple → K)
    (teams : Finset Int) (slot : Int) : K :=
  ∑ p ∈ teams ×ˢ (t.teamSet \ teams),
    (values "x" (Tuple.three (p, slot)) + values "x" (Tuple.three (p.swap, slot)))

namespace Scene

variable {K : Type} [Field K] [LinearOrder K] {t : Tournament} {options : Options} {env : Env}
  {values : String → Tuple → K} {s : Int}

theorem valueIn?_eitherWay (scene : Scene t options env) {a b c : Arith} {p : Int × Int}
    (ha : a.value? env = some (p.1 : Rat)) (hb : b.value? env = some (p.2 : Rat))
    (hc : c.value? env = some (s : Rat)) (hteams : p ∈ t.teamSet.offDiag) (hslot : s ∈ t.slotSet) :
    (eitherWay a b c).valueIn? env values =
      some (values "x" (Tuple.three (p, s)) + values "x" (Tuple.three (p.swap, s))) := by
  have hgame : ∀ {a b : Arith} {q : Int × Int}, a.value? env = some (q.1 : Rat) →
      b.value? env = some (q.2 : Rat) → q ∈ t.teamSet.offDiag →
        (playedIn a b c).valueIn? env values = some (values "x" (Tuple.three (q, s))) :=
    fun ha hb hq => scene.games.valueIn? (Finset.mem_product.mpr ⟨hq, hslot⟩)
      (by simp [Arith.values?, ha, hb, hc, Tuple.three])
  exact Linear.valueIn?_pair (hgame ha hb hteams) (hgame hb ha (swap_mem hteams))

/-- The games between a set of teams and the others. -/
theorem valueIn?_cut (scene : Scene t options env) {set : SetTerm} {members : Finset Int}
    (hset : set.Lists env Tuple.one members) (hsub : members ⊆ t.teamSet)
    (hm : env.symbols.lookup "m" = none) (hn : env.symbols.lookup "n" = none)
    (hslot : env.value? "s" = some (s : Rat)) (hs : s ∈ t.slotSet) :
    (Linear.sumOver (.over ["m", "n"] (times set (.minus "T" set)))
      (eitherWay "m" "n" "s")).valueIn? env values = some (t.cut values members s) := by
  have hothers := SetTerm.lists_minus Tuple.one_injective scene.teamSet hset
  refine Linear.valueIn?_sumOver
    (Index.runs_two (SetTerm.lists_pairs hset hothers) hm hn (by decide)) fun p hp => ?_
  obtain ⟨hfirst, hsecond⟩ := Finset.mem_product.mp hp
  obtain ⟨hsecond, hout⟩ := Finset.mem_sdiff.mp hsecond
  have hpair : p ∈ t.teamSet.offDiag :=
    Finset.mem_offDiag.mpr ⟨hsub hfirst, hsecond, fun heq => hout (heq ▸ hfirst)⟩
  exact ((scene.bind "m" p.1).bind "n" p.2).valueIn?_eitherWay (by simp) (by simp) (by simp [hslot])
    hpair hs

theorem valueIn?_memberCut (scene : Scene t options env) (hsymbols : env.symbols = [])
    {family : String} {members : List (List Int)} (hnodup : ∀ member ∈ members, member.Nodup)
    (hsub : ∀ member ∈ members, member.toFinset ⊆ t.teamSet)
    (hlookup : env.families.lookup family = some (members.map (List.map Tuple.one)))
    (hs : s ∈ t.slotSet) {i : Nat} (hi : i < members.length) :
    (Linear.sumOver (.over ["m", "n"]
      (times (.member family "i") (.minus "T" (.member family "i"))))
        (eitherWay "m" "n" "s")).valueIn? ((env.bind "s" s).bind "i" ((i + 1 : Nat) : Int)) values =
      some (t.cut values members[i].toFinset s) := by
  have inner := (scene.bind "s" s).bind "i" ((i + 1 : Nat) : Int)
  have hmember : (SetTerm.member family "i").Lists
      ((env.bind "s" s).bind "i" ((i + 1 : Nat) : Int)) Tuple.one members[i].toFinset := by
    refine SetTerm.lists_member (by simpa using hlookup) ?_ hi (hnodup _ (List.getElem_mem hi))
    rw [Arith.value?_name, Env.value?_bind, if_pos rfl]
  exact inner.valueIn?_cut hmember (hsub _ (List.getElem_mem hi)) (by simp [hsymbols])
    (by simp [hsymbols]) (by simp) hs

theorem oddFamily_holdsIn (scene : Scene t options env) (hsymbols : env.symbols = [])
    (name : String) {size : Nat} (hfamily : HasFamily env size t.teamSet) :
    (∀ block ∈ Program.subtos (Frame.oddFamily name size), block.HoldsIn env values) ↔
      ∀ slot ∈ t.slotSet, ∀ teams ∈ t.teamSet.powersetCard size, 1 ≤ t.cut values teams slot := by
  obtain ⟨members, hnodup, hmembers, hlookup, hindices⟩ := hfamily
  have hsub : ∀ member ∈ members, member.toFinset ⊆ t.teamSet := fun member hmember =>
    (Finset.mem_powersetCard.mp ((hmembers _).mp ⟨member, hmember, rfl⟩)).1
  show (∀ block ∈ [_], _) ↔ _
  rw [List.forall_mem_singleton,
    Subto.holdsIn_forall (Index.runs_one scene.slotSet (by simp [hsymbols]))]
  refine forall₂_congr fun s hs => ?_
  rw [Subto.holdsIn_forall (Index.runs_one (hindices.bind "s" s) (by simp [hsymbols])),
    forall_mem_places]
  simp only [Subto.holdsIn_row]
  have hone : ∀ inner, one.valueIn? inner values = some 1 := fun _ => congrArg some Rat.cast_one
  refine (forall₂_congr fun i hi => Row.holdsIn_iff
    (scene.valueIn?_memberCut hsymbols hnodup hsub hlookup hs hi) (hone _)).trans ?_
  constructor
  · intro h teams hteams
    obtain ⟨member, hmember, rfl⟩ := (hmembers teams).mpr hteams
    obtain ⟨i, hi, rfl⟩ := List.getElem_of_mem hmember
    exact h i hi
  · intro h i hi
    exact h _ ((hmembers _).mp ⟨_, List.getElem_mem hi, rfl⟩)

end Scene

end RoundRobin
