import RoundRobin.Formulation.Fragment
import RoundRobin.IdSet

/-! Rules on breaks. A team has a break in a slot if it plays at the same venue as in the slot
before; `bh[t,s]` and `ba[t,s]` indicate breaks at home and away. The first slot has none. -/

namespace RoundRobin

open Zimpl

/-- The breaks of the bound team in the bound slot that a side counts. -/
def breakOn (side : Side) : Linear := onSide side (.var "bh" ["t", "s"]) (.var "ba" ["t", "s"])

/-- The listed slots in which a break can be. -/
def TeamBreaks.countedSlots (breaks : TeamBreaks) : List Int := breaks.slots.filter (· ≠ 0)

/-- At most `limit` breaks of each listed team in the listed slots. -/
def TeamBreaks.fragment (breaks : TeamBreaks) (strength : Strength) (rule : Numbered) : Fragment :=
  if breaks.countedSlots = [] then {}
  else strength.relax (.scalar rule.violationName) fun violation =>
    [⟨rule.name, [.over ["t"] (.ids breaks.teams)],
      [⟨.sumOver (.over ["s"] (.ids breaks.countedSlots)) (breakOn breaks.side), .le,
        atMost breaks.limit violation⟩]⟩]

/-- Whether each id is the one before it plus one. -/
def isConsecutive : List Int → Bool
  | a :: b :: ids => b = a + 1 && isConsecutive (b :: ids)
  | _ => true

/-- The slots of the block in ascending order. -/
def GroupBreaks.block (breaks : GroupBreaks) : List Int := ascending breaks.slots

/-- The slots follow one another. -/
def GroupBreaks.check (breaks : GroupBreaks) : Except Failure Unit :=
  if isConsecutive breaks.block then .ok ()
  else .error (.structural (.slotsWithGaps .br2 breaks.block))

/-- A break counts in the second of its two slots, so the first slot of the block is left out. -/
def GroupBreaks.countedSlots (breaks : GroupBreaks) : List Int := breaks.block.tail

/-- At most `limit` breaks of the listed teams together within the block. -/
def GroupBreaks.fragment (breaks : GroupBreaks) (strength : Strength) (rule : Numbered) :
    Fragment :=
  if breaks.countedSlots = [] then {}
  else strength.relax (.scalar rule.violationName) fun violation =>
    [⟨rule.name, [],
      [⟨.sumOver (.over ["t", "s"] (times (.ids breaks.teams) (.ids breaks.countedSlots)))
        (breakOn .both), .le, atMost breaks.limit violation⟩]⟩]

end RoundRobin
