import RoundRobin.Proofs.Meaning.Rules

/-! The declarations of rules. A rule declares names that no other rule and no frame declares, so
what they stand for is known behind all rules. -/

namespace RoundRobin

open Zimpl

theorem Kind.apart_tag {a b : Kind} (h : a ≠ b) : Apart a.tag b.tag := by
  cases a <;> cases b <;> first | exact absurd rfl h | decide

theorem Kind.apart_tag_stem (a b : Kind) : Apart a.tag b.stem := by
  cases a <;> cases b <;> decide

namespace Numbered

/-- The name of a set that belongs to the rule alone. -/
def setName (rule : Numbered) : String := rule.rule.kind.tag ++ ("_" ++ toString rule.number)

/-- The names that may be declared for a rule. -/
def ownNames (rule : Numbered) : List String :=
  match rule.rule.demand with
  | .ca1 _ | .ca2 _ | .ga1 _ => []
  | _ => [rule.setName, rule.violationName]

/-- Two rules differ in their kind or their number. -/
def Distinct (a b : Numbered) : Prop := a.rule.kind = b.rule.kind → a.number ≠ b.number

theorem setName_eq_pairSet {rule : Numbered} (h : rule.rule.kind = .fa2) :
    rule.setName = rule.pairSet := by
  rw [setName, h, pairSet, ← String.append_assoc]
  rfl

theorem violationName_eq (rule : Numbered) : rule.violationName =
    rule.rule.kind.stem ++ ("_" ++ toString rule.number ++ "_viol") := by
  rw [violationName, name, nameWith, String.append_assoc, String.append_assoc, String.append_assoc]

theorem setName_injective {a b : Numbered} (h : a.setName = b.setName) :
    a.rule.kind = b.rule.kind ∧ a.number = b.number := by
  by_cases hkind : a.rule.kind = b.rule.kind
  · refine ⟨hkind, ?_⟩
    rw [setName, setName, hkind] at h
    exact toString_injective (append_left_cancel (append_left_cancel h))
  · exact absurd h (Kind.apart_tag hkind).append_ne

theorem setName_ne_violationName (a b : Numbered) : a.setName ≠ b.violationName := by
  rw [violationName_eq]
  exact (Kind.apart_tag_stem _ _).append_ne

theorem mem_ownNames {rule : Numbered} {name : String} (h : name ∈ rule.ownNames) :
    rule.rule.kind ∉ [Kind.ca1, .ca2, .ga1] ∧
      (name = rule.setName ∨ name = rule.violationName) := by
  unfold ownNames at h
  cases hdemand : rule.rule.demand <;> rw [hdemand] at h <;>
    simp_all [Rule.kind, Demand.kind]

/-- A name that a rule declares starts with the tag or the stem of its kind. -/
theorem append_of_mem_ownNames {rule : Numbered} {name : String} (h : name ∈ rule.ownNames) :
    ∃ head ∈ [Kind.ca3, .ca4, .se1, .br1, .br2, .fa2].flatMap fun kind => [kind.tag, kind.stem],
      ∃ rest, name = head ++ rest := by
  obtain ⟨hkind, hname⟩ := mem_ownNames h
  have hkinds : rule.rule.kind ∈ [Kind.ca3, .ca4, .se1, .br1, .br2, .fa2] := by
    revert hkind
    cases rule.rule.kind <;> decide
  rcases hname with rfl | rfl
  · exact ⟨_, List.mem_flatMap.mpr ⟨_, hkinds, .head _⟩, _, rfl⟩
  · exact ⟨_, List.mem_flatMap.mpr ⟨_, hkinds, .tail _ (.head _)⟩, _, rule.violationName_eq⟩

theorem notMem_ownNames {a b : Numbered} (h : a.Distinct b) {name : String}
    (hname : name ∈ a.ownNames) : name ∉ b.ownNames := by
  intro hname'
  have hsame : a.rule.kind = b.rule.kind ∧ a.number = b.number := by
    rcases (mem_ownNames hname).2 with rfl | rfl <;> rcases (mem_ownNames hname').2 with heq | heq
    · exact setName_injective heq
    · exact absurd heq (setName_ne_violationName a b)
    · exact absurd heq.symm (setName_ne_violationName b a)
    · exact violationName_injective heq
  exact h hsame.1 hsame.2

variable {t : Tournament} {options : Options} {env after : Env} {rule : Numbered}

theorem Known.extend {others : List String} (known : rule.Known t env)
    (hext : env.Extends others after) (hnames : ∀ name ∈ rule.ownNames, name ∉ others) :
    rule.Known t after := by
  unfold ownNames at hnames
  unfold Known at known ⊢
  cases hdemand : rule.rule.demand with
  | ca1 cap | ca2 cap | ga1 bound => trivial
  | ca3 cap | se1 separation =>
    rw [hdemand] at known hnames
    exact fun hsoft => hext.ranges (hnames _ (.tail _ (.head _))) (known hsoft)
  | ca4 cap =>
    rw [hdemand] at known hnames
    dsimp only at known ⊢
    split <;> rename_i hscope <;> rw [hscope] at known <;>
      exact fun hsoft => hext.ranges (hnames _ (.tail _ (.head _))) (known hsoft)
  | br1 breaks | br2 breaks =>
    rw [hdemand] at known hnames
    exact fun hsoft hvoid => hext.ranges (hnames _ (.tail _ (.head _))) (known hsoft hvoid)
  | fa2 balance =>
    rw [hdemand] at known hnames
    have hkind : rule.rule.kind = .fa2 := congrArg Demand.kind hdemand
    have hset : rule.pairSet ∉ others := setName_eq_pairSet hkind ▸ hnames _ (.head _)
    exact ⟨hext.lists hset known.1,
      fun hsoft => hext.ranges (hnames _ (.tail _ (.head _))) (known.2 hsoft)⟩

theorem fragment_of_not_skipped (hskip : rule.isSkipped options = false) :
    rule.fragment options = match rule.rule.demand with
      | .ca1 cap => cap.fragment rule.rule.strength rule
      | .ca2 cap => cap.fragment rule.rule.strength rule
      | .ca3 cap => cap.fragment rule.rule.strength rule
      | .ca4 cap => cap.fragment rule.rule.strength rule
      | .ga1 bound => bound.fragment options rule.rule.strength rule
      | .se1 separation => separation.fragment rule.rule.strength rule
      | .br1 breaks => breaks.fragment rule.rule.strength rule
      | .br2 breaks => breaks.fragment rule.rule.strength rule
      | .fa2 balance => balance.fragment rule.rule.strength rule :=
  if_neg (by rw [hskip]; decide)

/-- A violation that is shared is declared in the frame. -/
theorem declarations_relax_member (strength : Strength) (array : String) (place : Nat)
    (subtos : Option Linear → List Subto) :
    (strength.relax (.member array place) subtos).declarations = [] := by
  cases strength <;> rfl

theorem declarations_meetingBound (bound : MeetingBound) (options : Options) (strength : Strength)
    (rule : Numbered) : (bound.fragment options strength rule).declarations = [] := by
  unfold MeetingBound.fragment MeetingBound.most MeetingBound.least
  split
  · exact declarations_relax_member _ _ _ _
  · split <;> exact List.append_eq_nil_iff.mpr
      ⟨declarations_relax_member _ _ _ _, declarations_relax_member _ _ _ _⟩

/-- A violation that belongs to a rule alone is declared with the rule, if it is soft. -/
theorem adds_ownViolation {α : Type} {violation : Violation} {tuple : α → Tuple}
    {members : Finset α}
    (h : violation.Spans env rule.violationName tuple members) (strength : Strength)
    (subtos : Option Linear → List Subto) :
    ∃ after, Program.Adds [rule.setName, rule.violationName]
        (strength.relax violation subtos).declarations env after ∧
      (strength.isSoft = true → after.Ranges rule.violationName tuple members) := by
  obtain ⟨after, hadds, hknown⟩ := Strength.adds_relax fun _ => h.adds
  exact ⟨after, hadds.mono (by simp), hknown⟩

/-- So is that of a rule on breaks, if it counts any slot. -/
theorem adds_breaks {counted : List Int} (hvoid : rule.isVoid = decide (counted = []))
    (strength : Strength) (subtos : Option Linear → List Subto) :
    ∃ after, Program.Adds [rule.setName, rule.violationName] (if counted = [] then {} else
        strength.relax (.scalar rule.violationName) subtos).declarations env after ∧
      (strength.isSoft = true → rule.isVoid = false →
        after.Ranges rule.violationName (fun _ : Unit => []) Finset.univ) := by
  split
  · rename_i hcounted
    have hvoid : rule.isVoid = true := hvoid.trans (decide_eq_true hcounted)
    exact ⟨env, (Program.adds_nil env).mono (List.nil_subset _), fun _ h => by simp [hvoid] at h⟩
  · obtain ⟨after, hadds, hknown⟩ :=
      adds_ownViolation (Violation.spans_scalar rule.violationName env) strength subtos
    exact ⟨after, hadds, fun hsoft _ => hknown hsoft⟩

/-- What a rule declares makes its names known. -/
theorem adds_declarations (scene : Scene t options env) (hsymbols : env.symbols = [])
    (hcheck : rule.check options = .ok ()) (hskip : rule.isSkipped options = false) :
    ∃ after, Program.Adds rule.ownNames (rule.fragment options).declarations env after ∧
      rule.Known t after := by
  have hslot : env.symbols.lookup "s" = none := by simp [hsymbols]
  rw [fragment_of_not_skipped hskip]
  unfold ownNames Known
  cases hdemand : rule.rule.demand with
  | ca1 cap =>
    refine ⟨env, ?_, trivial⟩
    dsimp only
    rw [SideCap.fragment, declarations_relax_member]
    exact Program.adds_nil env
  | ca2 cap =>
    refine ⟨env, ?_, trivial⟩
    dsimp only
    rw [OpponentCap.fragment, declarations_relax_member]
    exact Program.adds_nil env
  | ga1 bound =>
    refine ⟨env, ?_, trivial⟩
    dsimp only
    rw [declarations_meetingBound]
    exact Program.adds_nil env
  | ca3 cap =>
    have hends := WindowCap.lists_ends scene (two_le_window hdemand hcheck)
    exact adds_ownViolation (Violation.spans_slots hends hslot) _ _
  | ca4 cap =>
    dsimp only
    unfold GroupCap.fragment
    cases cap.scope with
    | global => exact adds_ownViolation (Violation.spans_scalar rule.violationName env) _ _
    | every =>
      exact adds_ownViolation (Violation.spans_slots (SetTerm.lists_ids env cap.slots) hslot) _ _
  | se1 separation =>
    have hpairs := runs_pairsOf hsymbols separation.teams
    obtain ⟨order, horder, hselect⟩ := runs_pairsOf hsymbols separation.teams
    have hdeclared : VarIndex.select? env (.bound (pairsOf separation.teams)) = _ := hselect
    exact adds_ownViolation (Violation.spans_pairs horder hdeclared hpairs) _ _
  | br1 breaks => exact adds_breaks (by rw [isVoid, hdemand]) _ _
  | br2 breaks => exact adds_breaks (by rw [isVoid, hdemand]) _ _
  | fa2 balance =>
    obtain ⟨e1, h1, hset⟩ := Program.adds_set rule.pairSet
      (runs_pairsOf hsymbols balance.teams).builder
    have hsymbols1 : e1.symbols = [] := h1.symbols.trans hsymbols
    have hpairs : (Index.over ["m", "n"] (SetTerm.name rule.pairSet)).Runs e1 Tuple.two
        (fun q => (e1.bind "m" q.1).bind "n" q.2) (unorderedPairs balance.teams) :=
      Index.runs_two hset (by simp [hsymbols1]) (by simp [hsymbols1]) (by decide)
    obtain ⟨order, horder, hselect⟩ := hset.select?_over
    obtain ⟨after, h2, hknown⟩ := Strength.adds_relax fun _ =>
      (Violation.spans_pairs horder hselect hpairs).adds
    have hname : rule.setName = rule.pairSet :=
      setName_eq_pairSet (congrArg Demand.kind hdemand)
    have hset2 : (SetTerm.name rule.pairSet).Lists after Tuple.two (unorderedPairs balance.teams) :=
      h2.lists (by simpa [← hname] using setName_ne_violationName rule rule) hset
    refine ⟨after, ?_, hset2, hknown⟩
    rw [hname]
    exact h1.append h2

end Numbered

end RoundRobin
