import RoundRobin.Proofs.Numbering.Run
import RoundRobin.Proofs.Meaning.Charges
import RoundRobin.Proofs.Zimpl.Mention

/-! The symbols that a formulated program binds. There are few of them: the frame and the rules bind
the same letters for teams, opponents and slots. -/

namespace RoundRobin

open Zimpl

/-- The symbols that indices bind. -/
def binders : List String := ["m", "n", "s", "t", "a", "h", "p", "i"]

/-- What these mentions bind are symbols that formulated programs bind. -/
def Plain (mentions : List Mention) : Prop := ∀ symbol, .bound symbol ∈ mentions → symbol ∈ binders

namespace Plain

theorem mem_binders {mentions : List Mention} {symbol : String} (h : Plain mentions)
    (hmem : .bound symbol ∈ mentions) : symbol ∈ binders :=
  h symbol hmem

@[simp] theorem nil : Plain [] := fun _ h => nomatch h

@[simp] theorem append_iff {a b : List Mention} : Plain (a ++ b) ↔ Plain a ∧ Plain b := by
  simp only [Plain, List.mem_append, or_imp, forall_and]

@[simp] theorem used_iff {name : String} {mentions : List Mention} :
    Plain (.used name :: mentions) ↔ Plain mentions := by
  simp [Plain]

@[simp] theorem bound_iff {symbol : String} {mentions : List Mention} :
    Plain (.bound symbol :: mentions) ↔ symbol ∈ binders ∧ Plain mentions := by
  simp [Plain]

@[simp] theorem flatMap_iff {f : α → List Mention} {items : List α} :
    Plain (items.flatMap f) ↔ ∀ item ∈ items, Plain (f item) := by
  simp only [Plain, List.mem_flatMap, forall_exists_index, and_imp]
  exact ⟨fun h item hitem symbol hbound => h symbol item hitem hbound,
    fun h symbol item hitem hbound => h item hitem symbol hbound⟩

end Plain

section Terms

@[simp] theorem mentions_playedIn (home away slot : Arith) : (playedIn home away slot).mentions =
    .used "x" :: (home.mentions ++ (away.mentions ++ slot.mentions)) := by
  simp [playedIn]

@[simp] theorem mentions_times (a b : SetTerm) :
    (times a b).mentions = a.mentions ++ b.mentions := by
  simp [times]

@[simp] theorem mentions_othersThan (team : String) :
    (othersThan team).mentions = [.used "T", .used team] := by
  simp [othersThan]

@[simp] theorem mentions_eitherWay (a b slot : Arith) : (eitherWay a b slot).mentions =
    (playedIn a b slot).mentions ++ (playedIn b a slot).mentions := by
  simp [eitherWay]

@[simp] theorem mentions_one : one.mentions = [] := rfl

@[simp] theorem mentions_onSide (side : Side) (home away : Linear) :
    (onSide side home away).mentions = (if side.countsHome then home.mentions else [])
      ++ if side.countsAway then away.mentions else [] := by
  cases side <;> simp [onSide, Side.countsHome, Side.countsAway]

theorem plain_onSide {side : Side} {home away : Linear} (hhome : Plain home.mentions)
    (haway : Plain away.mentions) : Plain (onSide side home away).mentions := by
  rw [mentions_onSide, Plain.append_iff]
  constructor
  · split
    · exact hhome
    · exact Plain.nil
  · split
    · exact haway
    · exact Plain.nil

/-- The mentions in what relaxes a row. -/
def mentionsIn : Option Linear → List Mention
  | none => []
  | some violation => violation.mentions

@[simp] theorem mentions_atMost (bound : Nat) (violation : Option Linear) :
    (atMost bound violation).mentions = mentionsIn violation := by
  cases violation <;> simp [atMost, mentionsIn]

@[simp] theorem mentions_atLeast (bound : Nat) (violation : Option Linear) :
    (atLeast bound violation).mentions = mentionsIn violation := by
  cases violation <;> simp [atLeast, mentionsIn]

end Terms

/-- What a rule adds binds symbols of formulated programs. -/
structure Fragment.Plain (fragment : Fragment) : Prop where
  declarations : RoundRobin.Plain (Program.mentions fragment.declarations)
  subtos : RoundRobin.Plain (fragment.subtos.flatMap Subto.mentions)
  charges : RoundRobin.Plain (fragment.charges.flatMap Linear.mentions)

namespace Fragment.Plain

theorem empty : Fragment.Plain {} := ⟨.nil, .nil, .nil⟩

theorem append {a b : Fragment} (ha : a.Plain) (hb : b.Plain) : (a ++ b).Plain := by
  constructor
  · show RoundRobin.Plain ((a.declarations ++ b.declarations).flatMap _)
    rw [List.flatMap_append, Plain.append_iff]
    exact ⟨ha.declarations, hb.declarations⟩
  · show RoundRobin.Plain ((a.subtos ++ b.subtos).flatMap _)
    rw [List.flatMap_append, Plain.append_iff]
    exact ⟨ha.subtos, hb.subtos⟩
  · show RoundRobin.Plain ((a.charges ++ b.charges).flatMap _)
    rw [List.flatMap_append, Plain.append_iff]
    exact ⟨ha.charges, hb.charges⟩

end Fragment.Plain

section Relax

variable {subtos : Option Linear → List Subto}

/-- Rows that bind symbols of formulated programs, apart from what relaxes them. -/
def PlainRows (subtos : Option Linear → List Subto) : Prop :=
  ∀ violation, Plain (mentionsIn violation) → Plain ((subtos violation).flatMap Subto.mentions)

theorem PlainRows.relax (h : PlainRows subtos) (strength : Strength) {violation : Violation}
    (hdeclared : Plain (Program.mentions violation.declarations))
    (hrow : Plain violation.inRow.mentions) (htotal : Plain violation.total.mentions) :
    (strength.relax violation subtos).Plain := by
  cases strength with
  | hard => exact ⟨.nil, h none .nil, .nil⟩
  | soft penalty =>
    refine ⟨hdeclared, h (some violation.inRow) hrow, ?_⟩
    show Plain ([Linear.weighted violation.total penalty].flatMap Linear.mentions)
    simpa using htotal

theorem PlainRows.scalar (h : PlainRows subtos) (strength : Strength) (name : String) :
    (strength.relax (.scalar name) subtos).Plain :=
  h.relax strength (by simp [Violation.scalar, Program.mentions, VarDecl.nonnegative])
    (by simp [Violation.scalar]) (by simp [Violation.scalar])

theorem PlainRows.member (h : PlainRows subtos) (strength : Strength) (array : String)
    (place : Nat) : (strength.relax (.member array place) subtos).Plain :=
  h.relax strength (by simp [Violation.member, Program.mentions]) (by simp [Violation.member])
    (by simp [Violation.member])

theorem PlainRows.array (h : PlainRows subtos) (strength : Strength) {name : String}
    {declared : VarIndex} {symbols : List String} {index : Index}
    (hdeclared : Plain declared.mentions) (hindex : Plain index.mentions) :
    (strength.relax (.array name declared symbols index) subtos).Plain := by
  have hterm : Plain (Linear.var name (symbols.map .name)).mentions := by simp
  refine h.relax strength ?_ hterm (Plain.append_iff.mpr ⟨hindex, hterm⟩)
  simpa [Violation.array, Program.mentions, VarDecl.nonnegative] using hdeclared

end Relax

section Kinds

variable (strength : Strength) (rule : Numbered)

theorem SideCap.plain_fragment (cap : SideCap) : (cap.fragment strength rule).Plain := by
  unfold SideCap.fragment
  refine PlainRows.member (fun violation hviolation => ?_) strength "ca1_viol" rule.softPlace
  cases cap.side <;> simp [binders, hviolation]

theorem OpponentCap.plain_fragment (cap : OpponentCap) : (cap.fragment strength rule).Plain := by
  have hgames : Plain (onSide cap.side (playedIn "t" "m" "s") (playedIn "m" "t" "s")).mentions :=
    plain_onSide (by simp) (by simp)
  unfold OpponentCap.fragment
  refine PlainRows.member (fun violation hviolation => ?_) strength "ca2_viol" rule.softPlace
  simp [-mentions_onSide, binders, hviolation, hgames]

theorem WindowCap.plain_fragment (cap : WindowCap) : (cap.fragment strength rule).Plain := by
  have hback (back : Nat) : Plain (slotBack back).mentions := by
    unfold slotBack
    split <;> simp
  have hgames (back : Nat) : Plain (onSide cap.side (playedIn "t" "m" (slotBack back))
      (playedIn "m" "t" (slotBack back))).mentions :=
    plain_onSide (by simp [hback]) (by simp [hback])
  unfold WindowCap.fragment
  refine PlainRows.array (fun violation hviolation => ?_) strength (by simp) (by simp [binders])
  simp [-mentions_onSide, binders, hviolation, hgames]

theorem GroupCap.plain_fragment (cap : GroupCap) : (cap.fragment strength rule).Plain := by
  have hgames : Plain (onSide cap.side (playedIn "m" "n" "s") (playedIn "n" "m" "s")).mentions :=
    plain_onSide (by simp) (by simp)
  unfold GroupCap.fragment
  cases cap.scope with
  | global =>
    refine PlainRows.scalar (fun violation hviolation => ?_) strength _
    simp [-mentions_onSide, binders, hviolation, hgames]
  | every =>
    refine PlainRows.array (fun violation hviolation => ?_) strength (by simp) (by simp [binders])
    simp [-mentions_onSide, binders, hviolation, hgames]

theorem MeetingBound.plain_fragment (bound : MeetingBound) (options : Options) :
    (bound.fragment options strength rule).Plain := by
  have hrow (name : String) (relation : Relation) {give : Option Linear → Linear}
      (hgive : ∀ violation, (give violation).mentions = mentionsIn violation) :
      PlainRows fun violation => [⟨name, [], [⟨bound.counted, relation, give violation⟩]⟩] :=
    fun violation hviolation => by
      simp [MeetingBound.counted, binders, hgive, hviolation]
  have hmost := (hrow rule.name .le (mentions_atMost bound.max)).member strength "ga1_viol"
    rule.softPlace
  have hleast (array : String) := (hrow (Numbered.nameWith .ga1 (rule.number + 1)) .ge
    (mentions_atLeast bound.min)).member strength array rule.softPlace
  unfold MeetingBound.fragment MeetingBound.most MeetingBound.least
  split
  · exact hmost
  · split
    · have hshared := hleast "ga1_viol"
      exact hmost.append ⟨hshared.declarations, hshared.subtos, .nil⟩
    · exact hmost.append (hleast "ga1_min_viol")

theorem plain_pairsOf (teams : List Int) : Plain (pairsOf teams).mentions := by
  simp [pairsOf, binders]

theorem Separation.plain_fragment (separation : Separation) :
    (separation.fragment strength rule).Plain := by
  have hpairs := plain_pairsOf separation.teams
  unfold Separation.fragment
  refine PlainRows.array (fun violation hviolation => ?_) strength hpairs hpairs
  simp [binders, hviolation, hpairs]

theorem HomeBalance.plain_fragment (balance : HomeBalance) :
    (balance.fragment strength rule).Plain := by
  have hpairs := plain_pairsOf balance.teams
  unfold HomeBalance.fragment
  dsimp only
  generalize "FA2_" ++ toString rule.number = pairSet
  have hbalance : (strength.relax
      (.array rule.violationName (.over pairSet) ["m", "n"] (.over ["m", "n"] pairSet))
        fun violation =>
        [⟨rule.name, [.over ["m", "n"] pairSet, .over ["s"] (.ids balance.slots)],
          [⟨.diff (.var "hg" [.name "m", "s"]) (.var "hg" [.name "n", "s"]), .le,
              atMost balance.limit violation⟩,
            ⟨.diff (.var "hg" [.name "n", "s"]) (.var "hg" [.name "m", "s"]), .le,
              atMost balance.limit violation⟩]⟩]).Plain :=
    PlainRows.array (fun violation hviolation => by simp [binders, hviolation]) strength (by simp)
      (by simp [binders])
  exact ⟨Plain.append_iff.mpr ⟨hpairs, hbalance.declarations⟩, hbalance.subtos, hbalance.charges⟩

theorem TeamBreaks.plain_fragment (breaks : TeamBreaks) :
    (breaks.fragment strength rule).Plain := by
  have hbreak : Plain (breakOn breaks.side).mentions := plain_onSide (by simp) (by simp)
  unfold TeamBreaks.fragment
  split
  · exact Fragment.Plain.empty
  · refine PlainRows.scalar (fun violation hviolation => ?_) strength _
    simp [binders, hviolation, hbreak]

theorem GroupBreaks.plain_fragment (breaks : GroupBreaks) :
    (breaks.fragment strength rule).Plain := by
  have hbreak : Plain (breakOn .both).mentions := plain_onSide (by simp) (by simp)
  unfold GroupBreaks.fragment
  split
  · exact Fragment.Plain.empty
  · refine PlainRows.scalar (fun violation hviolation => ?_) strength _
    simp [binders, hviolation, hbreak]

end Kinds

/-- What a rule adds binds no other symbols. -/
theorem Numbered.plain_fragment (options : Options) (rule : Numbered) :
    (rule.fragment options).Plain := by
  cases hskip : rule.isSkipped options with
  | true =>
    rw [fragment, if_pos hskip]
    exact Fragment.Plain.empty
  | false =>
    rw [fragment_of_not_skipped hskip]
    cases rule.rule.demand with
    | ca1 cap | ca2 cap | ca3 cap | ca4 cap => exact cap.plain_fragment _ rule
    | ga1 bound => exact bound.plain_fragment _ rule options
    | se1 separation => exact separation.plain_fragment _ rule
    | br1 breaks | br2 breaks => exact breaks.plain_fragment _ rule
    | fa2 balance => exact balance.plain_fragment _ rule

@[simp] theorem mentions_titled (title : String) (p : Program) :
    Program.mentions (titled title p) = Program.mentions p := rfl

namespace Frame

variable (t : Tournament) (options : Options)

theorem plain_heading : Plain (Program.mentions (heading t)) := by
  unfold heading
  cases t.name <;> simp

theorem plain_resources : Plain (Program.mentions (resources t)) := by
  simp [resources, pairSet, binders]

theorem plain_sharedArrays : Plain (Program.mentions (sharedArrays t options)) := by
  have harray (kind : Kind) : Plain (Program.mentions (sharedArray t options kind)) := by
    unfold sharedArray
    split
    · exact .nil
    · split <;> simp [VarDecl.nonnegative]
  unfold sharedArrays
  dsimp only
  split
  · exact .nil
  · show Plain (Program.mentions (sharedArray t options .ca1 ++ (sharedArray t options .ca2
      ++ (sharedArray t options .ga1 ++ []))))
    simp [harray]

theorem plain_gameVariables : Plain (Program.mentions (gameVariables t)) := by
  unfold gameVariables
  split <;> simp [VarDecl.binary]

theorem plain_schedule : Plain (Program.mentions (schedule options)) := by
  simp [schedule, binders]

theorem plain_fixedCount : Plain (Program.mentions (fixedCount options)) := by
  unfold fixedCount
  split <;> simp [binders]

theorem plain_oddFamily (name : String) (size : Nat) :
    Plain (Program.mentions (oddFamily name size)) := by
  simp [oddFamily, binders]

theorem plain_breakCount : Plain (Program.mentions (breakCount t)) := by
  unfold breakCount
  dsimp only
  split <;> simp [binders]

theorem plain_halves : Plain (Program.mentions (halves t options)) := by
  unfold halves
  split <;> simp [binders]

theorem plain_homeGames : Plain (Program.mentions (homeGames t)) := by
  unfold homeGames
  dsimp only
  split
  · split <;> simp [binders]
  · exact .nil

theorem plain_mirror : Plain (Program.mentions (mirror options)) := by
  unfold mirror
  split <;> simp [binders]

theorem plain_statements : Plain (Program.mentions (statements t options)) := by
  have hodd : Plain (Program.mentions ((oddFamilies t options).flatMap
      fun family => oddFamily family.1 family.2)) := by
    rw [Program.mentions, List.flatMap_assoc, Plain.flatMap_iff]
    exact fun family _ => plain_oddFamily family.1 family.2
  simp only [statements, Program.mentions_append, Plain.append_iff]
  exact ⟨⟨⟨⟨⟨⟨⟨⟨⟨⟨plain_heading t, plain_resources t⟩, plain_sharedArrays t options⟩,
    plain_gameVariables t⟩, plain_schedule options⟩, plain_fixedCount options⟩, hodd⟩,
    plain_breakCount t⟩, plain_halves t options⟩, plain_homeGames t⟩, plain_mirror options⟩

end Frame

theorem Numbered.plain_statements (options : Options) (rule : Numbered) :
    Plain (Program.mentions (rule.statements options)) := by
  obtain ⟨hdeclarations, hsubtos, -⟩ := rule.plain_fragment options
  have hblocks : Program.mentions ((rule.fragment options).subtos.map .subto) =
      (rule.fragment options).subtos.flatMap Subto.mentions := List.flatMap_map _ _ _
  rw [statements, mentions_titled, Fragment.statements, Program.mentions_append, hblocks,
    Plain.append_iff]
  exact ⟨hdeclarations, hsubtos⟩

theorem plain_goal (options : Options) {charges : List Linear}
    (h : Plain (charges.flatMap Linear.mentions)) :
    Plain (Program.mentions (goal options charges)) := by
  refine Plain.flatMap_iff.mpr fun statement hmem => ?_
  rcases mem_goal hmem with rfl | rfl | ⟨-, ⟨cutoff, -, -, rfl⟩ | ⟨-, rfl⟩⟩
  · exact .nil
  · simp [mostGames, binders]
  · have hbounded : ∀ charge ∈ cutoff.bounded charges, Plain charge.mentions :=
      fun charge hcharge => Plain.flatMap_iff.mp h charge (List.mem_of_mem_drop hcharge)
    simpa using hbounded
  · simpa [leastViolation] using h

/-- A formulated program binds few symbols. -/
theorem Tournament.plain_program (t : Tournament) (options : Options) :
    Plain (Program.mentions (t.program options)) := by
  have hrules : Plain (Program.mentions (t.numbered.flatMap (Numbered.statements options))) := by
    rw [Program.mentions, List.flatMap_assoc, Plain.flatMap_iff]
    exact fun rule _ => rule.plain_statements options
  have hcharges : Plain ((t.charges options).flatMap Linear.mentions) := by
    rw [Tournament.charges, List.flatMap_assoc, Plain.flatMap_iff]
    exact fun rule _ => (rule.plain_fragment options).charges
  rw [Tournament.program, Program.mentions_append, Program.mentions_append, Plain.append_iff,
    Plain.append_iff]
  exact ⟨⟨Frame.plain_statements t options, hrules⟩, plain_goal options hcharges⟩

end RoundRobin
