import RoundRobin.Proofs.Charging.Reference
import RoundRobin.Proofs.Meaning.Declarations
import RoundRobin.Proofs.Zimpl.Context

/-! What each rule charges. The rows of a soft rule each give way by one violation, and the rule has
a charge for each violation that its rows give way by. A hard rule refers to no violation. -/

namespace RoundRobin

open Zimpl

/-- An index runs over the set over which a variable is declared. -/
def Zimpl.VarIndex.IsOf (declared : VarIndex) (index : Index) : Prop :=
  declared = .bound index ∨ ∃ set, declared = .over set ∧ index = .over index.symbols set

namespace Fragment

/-- A term that charges the violation that a reference in the rows of a fragment is to: a scalar of
its own, a literal place of a shared array, or all of an array of its own, which is summed over the
index over which it is declared and used. -/
inductive Charge (fragment : Fragment) (penalty : Nat) : Reference → Linear → Prop where
  | scalar {name : String} (hdeclared : .var (.nonnegative name .scalar) ∈ fragment.declarations) :
      Charge fragment penalty (name, []) (.weighted (.var name []) penalty)
  | member (name : String) (place : Nat) :
      Charge fragment penalty (name, [.int place]) (.weighted (.var name [.int place]) penalty)
  | array {name : String} {index : Index} {declared : VarIndex}
      (hdeclared : .var (.nonnegative name declared) ∈ fragment.declarations)
      (hindex : declared.IsOf index) (hused : ∀ block ∈ fragment.subtos, index ∈ block.foralls) :
      Charge fragment penalty (name, index.symbols.map .name)
        (.weighted (.sumOver index (.var name (index.symbols.map .name))) penalty)

theorem Charge.references_eq {fragment : Fragment} {penalty : Nat} {reference : Reference}
    {term : Linear} (h : fragment.Charge penalty reference term) :
    term.references = [reference] := by
  cases h <;> rfl

/-- A fragment charges each violation that its rows give way by once, at the same penalty, and each
of its rows gives way by one of them. -/
structure ChargesOnce (fragment : Fragment) (penalty : Nat)
    (references : List Reference) : Prop where
  charges : List.Forall₂ (fragment.Charge penalty) references fragment.charges
  nonempty : ∀ block ∈ fragment.subtos, block.rows ≠ []
  rows : ∀ block ∈ fragment.subtos, ∀ row ∈ block.rows,
    ∃ reference ∈ references, row.violations = [reference]
  used : ∀ reference ∈ references, ∃ block ∈ fragment.subtos, reference ∈ block.violations

/-- A fragment charges nothing, and no row of it gives way. -/
structure ChargesNothing (fragment : Fragment) : Prop where
  charges : fragment.charges = []
  rows : ∀ block ∈ fragment.subtos, block.violations = []

/-- What a fragment of some strength charges. -/
def Fair (strength : Strength) (references : List Reference) (fragment : Fragment) : Prop :=
  match strength with
  | .hard => fragment.ChargesNothing
  | .soft penalty => fragment.ChargesOnce penalty references

theorem ChargesOnce.mem_of_mem_violations {fragment : Fragment} {penalty : Nat}
    {references : List Reference} (h : fragment.ChargesOnce penalty references) {block : Subto}
    (hblock : block ∈ fragment.subtos) {reference : Reference}
    (hreference : reference ∈ block.violations) : reference ∈ references := by
  obtain ⟨row, hrow, hreference⟩ := List.mem_flatMap.mp hreference
  obtain ⟨found, hfound, hviolations⟩ := h.rows block hblock row hrow
  rw [hviolations, List.mem_singleton] at hreference
  exact hreference ▸ hfound

/-- Each charge refers to the violation that it is for, and to no other. -/
theorem ChargesOnce.map_references {fragment : Fragment} {penalty : Nat}
    {references : List Reference} (h : fragment.ChargesOnce penalty references) :
    fragment.charges.map Linear.references = references.map fun reference => [reference] := by
  have hall : ∀ {references charges}, List.Forall₂ (fragment.Charge penalty) references charges →
      charges.map Linear.references = references.map fun reference => [reference] := by
    intro references charges hcharges
    induction hcharges with
    | nil => rfl
    | cons hcharge _ ih => rw [List.map_cons, List.map_cons, hcharge.references_eq, ih]
  exact hall h.charges

/-- A fragment without rows charges nothing. -/
theorem ChargesOnce.charges_eq_nil {fragment : Fragment} {penalty : Nat}
    {references : List Reference} (h : fragment.ChargesOnce penalty references)
    (hrows : fragment.subtos = []) : fragment.charges = [] := by
  have hnone : references = [] := List.eq_nil_iff_forall_not_mem.mpr fun reference href => by
    obtain ⟨block, hblock, -⟩ := h.used reference href
    rw [hrows] at hblock
    exact nomatch hblock
  have hcharges := h.charges
  rw [hnone] at hcharges
  exact List.forall₂_nil_left_iff.mp hcharges

theorem fair_empty (strength : Strength) : Fair strength [] {} := by
  cases strength with
  | hard => exact ⟨rfl, fun _ h => nomatch h⟩
  | soft penalty =>
    exact ⟨.nil, fun _ h => (nomatch h), fun _ h => (nomatch h), fun _ h => (nomatch h)⟩

/-- Declarations in front of a fragment change nothing about its charges. -/
theorem Fair.declare {strength : Strength} {references : List Reference} {fragment : Fragment}
    (h : Fair strength references fragment) (declarations : List Statement) :
    Fair strength references (fragment.declare declarations) := by
  cases strength with
  | hard => exact ⟨h.charges, h.rows⟩
  | soft penalty =>
    refine ⟨h.charges.imp fun reference term hcharge => ?_, h.nonempty, h.rows, h.used⟩
    cases hcharge with
    | scalar hdeclared => exact .scalar (List.mem_append_right _ hdeclared)
    | member name place => exact .member name place
    | array hdeclared hindex hused => exact .array (List.mem_append_right _ hdeclared) hindex hused

/-- A charge for a literal place does not depend on the fragment that it is for. -/
theorem Charge.eq_member {fragment : Fragment} {penalty : Nat} {name : String} {place : Nat}
    {term : Linear} (h : fragment.Charge penalty (name, [.int place]) term) :
    term = .weighted (.var name [.int place]) penalty := by
  generalize hreference : (name, [Arith.int place]) = reference at h
  cases h with
  | scalar hdeclared => simp at hreference
  | member other at_ =>
    obtain ⟨rfl, hplaces⟩ := Prod.mk.inj hreference
    rw [hplaces]
  | @array _ index _ hdeclared hindex hused =>
    have hplaces := (Prod.mk.inj hreference).2
    cases hsymbols : index.symbols <;> simp [hsymbols] at hplaces

/-- Whether a reference is to a literal place. -/
def IsMember (reference : Reference) : Prop := ∃ name, ∃ place : Nat,
    reference = (name, [.int place])

theorem Charge.members {a b : Fragment} {penalty : Nat} {references : List Reference}
    {terms : List Linear} (h : List.Forall₂ (a.Charge penalty) references terms)
    (hmembers : ∀ reference ∈ references, IsMember reference) :
    List.Forall₂ (b.Charge penalty) references terms := by
  induction h with
  | nil => exact .nil
  | cons hcharge _ ih =>
    obtain ⟨⟨name, place, rfl⟩, hrest⟩ := List.forall_mem_cons.mp hmembers
    rw [hcharge.eq_member]
    exact .cons (.member name place) (ih hrest)

theorem Fair.append {strength : Strength} {a b : Fragment} {first second : List Reference}
    (ha : a.Fair strength first) (hb : b.Fair strength second)
    (hmembers : ∀ reference ∈ first ++ second, IsMember reference) :
    (a ++ b).Fair strength (first ++ second) := by
  cases strength with
  | hard =>
    exact ⟨List.append_eq_nil_iff.mpr ⟨ha.charges, hb.charges⟩,
      List.forall_mem_append.mpr ⟨ha.rows, hb.rows⟩⟩
  | soft penalty =>
    obtain ⟨hfirst, hsecond⟩ := List.forall_mem_append.mp hmembers
    refine ⟨List.rel_append (Charge.members ha.charges hfirst)
        (Charge.members hb.charges hsecond), List.forall_mem_append.mpr ⟨ha.nonempty, hb.nonempty⟩,
      List.forall_mem_append.mpr ⟨fun block hblock row hrow => ?_, fun block hblock row hrow => ?_⟩,
      List.forall_mem_append.mpr ⟨fun reference h => ?_, fun reference h => ?_⟩⟩
    · exact (ha.rows block hblock row hrow).imp fun _ h => ⟨List.mem_append_left _ h.1, h.2⟩
    · exact (hb.rows block hblock row hrow).imp fun _ h => ⟨List.mem_append_right _ h.1, h.2⟩
    · exact (ha.used reference h).imp fun _ h => ⟨List.mem_append_left _ h.1, h.2⟩
    · exact (hb.used reference h).imp fun _ h => ⟨List.mem_append_right _ h.1, h.2⟩

/-- Further rows that give way by what is charged already. -/
theorem Fair.append_uncharged {strength : Strength} {a b : Fragment} {references : List Reference}
    (ha : a.Fair strength references) (hb : b.Fair strength references)
    (hmembers : ∀ reference ∈ references, IsMember reference) :
    (a ++ { b with charges := [] }).Fair strength references := by
  cases strength with
  | hard =>
    exact ⟨List.append_eq_nil_iff.mpr ⟨ha.charges, rfl⟩,
      List.forall_mem_append.mpr ⟨ha.rows, hb.rows⟩⟩
  | soft penalty =>
    refine ⟨?_, List.forall_mem_append.mpr ⟨ha.nonempty, hb.nonempty⟩,
      List.forall_mem_append.mpr ⟨ha.rows, hb.rows⟩, fun reference h => ?_⟩
    · show List.Forall₂ _ references (a.charges ++ [])
      rw [List.append_nil]
      exact Charge.members ha.charges hmembers
    · exact (ha.used reference h).imp fun _ h => ⟨List.mem_append_left _ h.1, h.2⟩

end Fragment

/-- Rows that give way by whatever violation they are given, and by no other. -/
structure Relaxed (subtos : Option Linear → List Subto) : Prop where
  nonempty : ∀ violation, subtos violation ≠ [] ∧ ∀ block ∈ subtos violation, block.rows ≠ []
  rows : ∀ violation, ∀ block ∈ subtos violation, ∀ row ∈ block.rows,
    row.violations = violationsIn violation

theorem relaxed_block {name : String} {foralls : List Index} {first : Option Linear → Row}
    {rows : Option Linear → List Row} (h : ∀ violation, ∀ row ∈ first violation :: rows violation,
      row.violations = violationsIn violation) :
    Relaxed fun violation => [⟨name, foralls, first violation :: rows violation⟩] :=
  ⟨fun _ => ⟨List.cons_ne_nil _ _, List.forall_mem_singleton.mpr (List.cons_ne_nil _ _)⟩,
    fun violation => List.forall_mem_singleton.mpr (h violation)⟩

theorem relaxed_row {name : String} {foralls : List Index} {row : Option Linear → Row}
    (h : ∀ violation, (row violation).violations = violationsIn violation) :
    Relaxed fun violation => [⟨name, foralls, [row violation]⟩] :=
  relaxed_block fun violation => List.forall_mem_singleton.mpr (h violation)

theorem isViolation_violationName (rule : Numbered) : isViolation rule.violationName = true := by
  have hheads : ∀ name ∈ ["x", "bh", "ba", "hg"],
      ¬ rule.rule.kind.stem.toList <+: name.toList := by
    cases rule.rule.kind <;> decide
  rw [isViolation, decide_eq_true_eq]
  intro hmem
  rw [rule.violationName_eq] at hmem
  exact ne_append (hheads _ hmem) rfl

section Relax

variable {subtos : Option Linear → List Subto} {name : String}

theorem Relaxed.fair (h : Relaxed subtos) (strength : Strength) {violation : Violation}
    {reference : Reference} (hviolation : violation.inRow.violations = [reference])
    (hcharge : ∀ penalty, ((Strength.soft penalty).relax violation subtos).Charge penalty reference
      (.weighted violation.total penalty)) :
    Fragment.Fair strength [reference] (strength.relax violation subtos) := by
  cases strength with
  | hard =>
    exact ⟨rfl, fun block hblock => List.flatMap_eq_nil_iff.mpr (h.rows none block hblock)⟩
  | soft penalty =>
    obtain ⟨hblocks, hnonempty⟩ := h.nonempty (some violation.inRow)
    refine ⟨.cons (hcharge penalty) .nil, hnonempty,
      fun block hblock row hrow => ⟨reference, .head _, ?_⟩, ?_⟩
    · rw [← hviolation]
      exact h.rows _ block hblock row hrow
    · obtain ⟨block, hblock⟩ := List.exists_mem_of_ne_nil _ hblocks
      obtain ⟨row, hrow⟩ := List.exists_mem_of_ne_nil _ (hnonempty block hblock)
      refine List.forall_mem_singleton.mpr ⟨block, hblock, List.mem_flatMap.mpr ⟨row, hrow, ?_⟩⟩
      rw [h.rows _ block hblock row hrow, violationsIn, hviolation]
      exact .head _

theorem Relaxed.fair_scalar (h : Relaxed subtos) (strength : Strength)
    (hname : isViolation name = true) :
    Fragment.Fair strength [(name, [])] (strength.relax (.scalar name) subtos) :=
  h.fair strength (by simp [Violation.scalar, hname]) fun _ => .scalar (.head _)

theorem Relaxed.fair_member (h : Relaxed subtos) (strength : Strength)
    (hname : isViolation name = true) (place : Nat) :
    Fragment.Fair strength [(name, [.int place])] (strength.relax (.member name place) subtos) :=
  h.fair strength (by simp [Violation.member, hname]) fun _ => .member name place

theorem Relaxed.fair_array (h : Relaxed subtos) (strength : Strength)
    (hname : isViolation name = true) {declared : VarIndex} {symbols : List String} {index : Index}
    {reference : Reference} (hreference : reference = (name, symbols.map .name))
    (hsymbols : index.symbols = symbols) (hindex : declared.IsOf index)
    (hused : ∀ violation, ∀ block ∈ subtos violation, index ∈ block.foralls) :
    Fragment.Fair strength [reference]
      (strength.relax (.array name declared symbols index) subtos) := by
  subst hsymbols hreference
  exact h.fair strength (by simp [Violation.array, hname]) fun _ =>
    .array (.head _) hindex (hused _)

end Relax

section Kinds

variable (strength : Strength) (rule : Numbered)

theorem SideCap.fair_fragment (cap : SideCap) :
    Fragment.Fair strength [("ca1_viol", [.int rule.softPlace])] (cap.fragment strength rule) := by
  unfold SideCap.fragment
  have hname : isViolation "ca1_viol" = true := by decide
  refine Relaxed.fair_member (relaxed_row fun violation => ?_) strength hname rule.softPlace
  cases cap.side <;> simp [Row.violations]

theorem OpponentCap.fair_fragment (cap : OpponentCap) :
    Fragment.Fair strength [("ca2_viol", [.int rule.softPlace])] (cap.fragment strength rule) := by
  unfold OpponentCap.fragment
  have hname : isViolation "ca2_viol" = true := by decide
  refine Relaxed.fair_member (relaxed_row fun violation => ?_) strength hname rule.softPlace
  simp [Row.violations]

theorem WindowCap.fair_fragment (cap : WindowCap) :
    Fragment.Fair strength [(rule.violationName, [.name "s"])] (cap.fragment strength rule) := by
  unfold WindowCap.fragment
  refine Relaxed.fair_array (relaxed_row fun violation => ?_) strength
    (isViolation_violationName rule) rfl rfl ?_ fun _ => ?_
  · simp [Row.violations]
  · exact .inr ⟨_, rfl, rfl⟩
  · exact List.forall_mem_singleton.mpr (.tail _ (.head _))

theorem GroupCap.fair_fragment (cap : GroupCap) :
    Fragment.Fair strength
      [(rule.violationName, match cap.scope with | .global => [] | .every => [.name "s"])]
      (cap.fragment strength rule) := by
  unfold GroupCap.fragment
  cases cap.scope with
  | global =>
    refine Relaxed.fair_scalar (relaxed_row fun violation => ?_) strength
      (isViolation_violationName rule)
    simp [Row.violations]
  | every =>
    refine Relaxed.fair_array (relaxed_row fun violation => ?_) strength
      (isViolation_violationName rule) rfl rfl ?_ fun _ => ?_
    · simp [Row.violations]
    · exact .inr ⟨_, rfl, rfl⟩
    · exact List.forall_mem_singleton.mpr (.head _)

theorem Separation.fair_fragment (separation : Separation) :
    Fragment.Fair strength [(rule.violationName, [.name "m", .name "n"])]
      (separation.fragment strength rule) := by
  unfold Separation.fragment
  refine Relaxed.fair_array (relaxed_row fun violation => ?_) strength
    (isViolation_violationName rule) rfl rfl ?_ fun _ => ?_
  · simp [Row.violations]
  · exact .inl rfl
  · exact List.forall_mem_singleton.mpr (.head _)

theorem HomeBalance.fair_fragment (balance : HomeBalance) :
    Fragment.Fair strength [(rule.violationName, [.name "m", .name "n"])]
      (balance.fragment strength rule) := by
  unfold HomeBalance.fragment
  have hcounter : isViolation "hg" = false := by decide
  refine Fragment.Fair.declare ?_ _
  refine Relaxed.fair_array (relaxed_block fun violation => ?_) strength
    (isViolation_violationName rule) rfl rfl ?_ fun _ => ?_
  · simp [Row.violations, hcounter]
  · exact .inr ⟨_, rfl, rfl⟩
  · exact List.forall_mem_singleton.mpr (.head _)

theorem TeamBreaks.fair_fragment (breaks : TeamBreaks) :
    Fragment.Fair strength
      (if breaks.countedSlots = [] then [] else [(rule.violationName, [])])
      (breaks.fragment strength rule) := by
  unfold TeamBreaks.fragment
  split
  · exact Fragment.fair_empty strength
  · refine Relaxed.fair_scalar (relaxed_row fun violation => ?_) strength
      (isViolation_violationName rule)
    simp [Row.violations]

theorem GroupBreaks.fair_fragment (breaks : GroupBreaks) :
    Fragment.Fair strength
      (if breaks.countedSlots = [] then [] else [(rule.violationName, [])])
      (breaks.fragment strength rule) := by
  unfold GroupBreaks.fragment
  split
  · exact Fragment.fair_empty strength
  · refine Relaxed.fair_scalar (relaxed_row fun violation => ?_) strength
      (isViolation_violationName rule)
    simp [Row.violations]

/-- The violations by which the rows of a rule on meetings give way. -/
def MeetingBound.charged (bound : MeetingBound) (options : Options) (rule : Numbered) :
    List Reference :=
  ("ga1_viol", [.int rule.softPlace])
    :: if bound.min ≠ 0 ∧ options.minPenalty = .separate then
      [("ga1_min_viol", [.int rule.softPlace])]
    else []

theorem MeetingBound.fair_fragment (bound : MeetingBound) (options : Options) :
    Fragment.Fair strength (bound.charged options rule) (bound.fragment options strength rule) := by
  have hrow (name : String) (relation : Relation) {give : Option Linear → Linear}
      (hgive : ∀ violation, (give violation).violations = violationsIn violation) :
      Relaxed fun violation => [⟨name, [], [⟨bound.counted, relation, give violation⟩]⟩] :=
    relaxed_row fun violation => by
      simp [Row.violations, MeetingBound.counted, List.flatMap_map, hgive]
  have habove : isViolation "ga1_viol" = true := by decide
  have hbelow : isViolation "ga1_min_viol" = true := by decide
  have hmost := (hrow rule.name .le (violations_atMost bound.max)).fair_member strength habove
    rule.softPlace
  have hleast {array : String} (harray : isViolation array = true) :=
    (hrow (Numbered.nameWith .ga1 (rule.number + 1)) .ge
      (violations_atLeast bound.min)).fair_member strength harray rule.softPlace
  unfold MeetingBound.fragment MeetingBound.most MeetingBound.least MeetingBound.charged
  by_cases hmin : bound.min = 0
  · rw [if_neg fun h => h.1 hmin, if_pos hmin]
    exact hmost
  · rw [if_neg hmin]
    cases options.minPenalty with
    | shared =>
      rw [if_neg fun h => nomatch h.2]
      exact hmost.append_uncharged (hleast habove) (List.forall_mem_singleton.mpr ⟨_, _, rfl⟩)
    | separate =>
      rw [if_pos ⟨hmin, rfl⟩]
      exact hmost.append (hleast hbelow) (by simp [Fragment.IsMember])

end Kinds

namespace Numbered

/-- The violations by which the rows of a soft rule give way. -/
def charged (options : Options) (rule : Numbered) : List Reference :=
  match rule.rule.demand with
  | .ca1 _ => [("ca1_viol", [.int rule.softPlace])]
  | .ca2 _ => [("ca2_viol", [.int rule.softPlace])]
  | .ga1 bound => bound.charged options rule
  | .ca3 _ => [(rule.violationName, [.name "s"])]
  | .ca4 cap => [(rule.violationName, match cap.scope with | .global => [] | .every => [.name "s"])]
  | .se1 _ | .fa2 _ => [(rule.violationName, [.name "m", .name "n"])]
  | .br1 _ | .br2 _ => if rule.isVoid then [] else [(rule.violationName, [])]

theorem fair_fragment {options : Options} {rule : Numbered}
    (hskip : rule.isSkipped options = false) :
    (rule.fragment options).Fair rule.rule.strength (rule.charged options) := by
  rw [fragment_of_not_skipped hskip]
  unfold charged isVoid
  cases rule.rule.demand with
  | ca1 cap => exact cap.fair_fragment _ rule
  | ca2 cap => exact cap.fair_fragment _ rule
  | ca3 cap => exact cap.fair_fragment _ rule
  | ca4 cap => exact cap.fair_fragment _ rule
  | ga1 bound => exact bound.fair_fragment _ rule options
  | se1 separation => exact separation.fair_fragment _ rule
  | br1 breaks => simpa using breaks.fair_fragment rule.rule.strength rule
  | br2 breaks => simpa using breaks.fair_fragment rule.rule.strength rule
  | fa2 balance => exact balance.fair_fragment _ rule

end Numbered

end RoundRobin
