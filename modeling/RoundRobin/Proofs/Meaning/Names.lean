import Mathlib
import RoundRobin.Proofs.Numbering.Behind

/-! The names that rules give rise to. A rule is known by its kind and its number, and the names
that belong to it alone determine both. -/

namespace RoundRobin

theorem append_left_cancel {a b c : String} (h : a ++ b = a ++ c) : b = c := by
  have hlist := congrArg String.toList h
  rw [String.toList_append, String.toList_append] at hlist
  exact String.toList_inj.mp (List.append_cancel_left hlist)

theorem append_right_cancel {a b c : String} (h : a ++ c = b ++ c) : a = b := by
  have hlist := congrArg String.toList h
  rw [String.toList_append, String.toList_append] at hlist
  exact String.toList_inj.mp (List.append_cancel_right hlist)

theorem toString_injective {m n : Nat} (h : toString m = toString n) : m = n := Nat.repr_inj.mp h

/-- Neither text starts with the other. -/
def Apart (a b : String) : Prop := ¬ a.toList <+: b.toList ∧ ¬ b.toList <+: a.toList

instance (a b : String) : Decidable (Apart a b) := by
  unfold Apart
  infer_instance

theorem Apart.append_ne {a b c d : String} (h : Apart a c) : a ++ b ≠ c ++ d := by
  intro heq
  have hlist := congrArg String.toList heq
  rw [String.toList_append, String.toList_append] at hlist
  have hleft : a.toList <+: c.toList ++ d.toList := hlist ▸ List.prefix_append _ _
  rcases List.prefix_or_prefix_of_prefix hleft (List.prefix_append _ _) with hac | hca
  · exact h.1 hac
  · exact h.2 hca

theorem ne_append {name head rest : String} (h : ¬ head.toList <+: name.toList) :
    name ≠ head ++ rest := by
  rintro rfl
  exact h (String.toList_append ▸ List.prefix_append _ _)

theorem Apart.ne_append {name head rest : String} (h : Apart name head) : name ≠ head ++ rest :=
  RoundRobin.ne_append h.2

theorem Kind.apart_stem {a b : Kind} (h : a ≠ b) : Apart a.stem b.stem := by
  cases a <;> cases b <;> first | exact absurd rfl h | decide

namespace Numbered

theorem nameWith_eq (kind : Kind) (number : Nat) :
    nameWith kind number = kind.stem ++ ("_" ++ toString number) := by
  rw [nameWith, String.append_assoc]

theorem nameWith_injective {a b : Kind} {m n : Nat} (h : nameWith a m = nameWith b n) :
    a = b ∧ m = n := by
  rw [nameWith_eq, nameWith_eq] at h
  by_cases hab : a = b
  · subst hab
    exact ⟨rfl, toString_injective (append_left_cancel (append_left_cancel h))⟩
  · exact absurd h (Kind.apart_stem hab).append_ne

theorem violationName_injective {a b : Numbered} (h : a.violationName = b.violationName) :
    a.rule.kind = b.rule.kind ∧ a.number = b.number :=
  nameWith_injective (append_right_cancel h)

/-- The set of pairs of a rule on the balance of home games. -/
def pairSet (rule : Numbered) : String := "FA2_" ++ toString rule.number

theorem mem_allBehind {rule : Numbered} :
    {earlier rules : List Rule} → rule ∈ allBehind earlier rules →
      ∃ before after, rules = before ++ rule.rule :: after ∧
        rule = behind (earlier ++ before) rule.rule
  | _, [], h => nomatch h
  | earlier, first :: rules, h => by
    rcases List.mem_cons.mp h with rfl | h
    · exact ⟨[], rules, rfl, by rw [List.append_nil]; rfl⟩
    · obtain ⟨before, after, hrules, hrule⟩ := mem_allBehind h
      refine ⟨first :: before, after, by rw [hrules]; rfl, ?_⟩
      rwa [List.append_assoc] at hrule

end Numbered

theorem Demand.units_pos (demand : Demand) : 0 < demand.units := by
  unfold Demand.units
  split
  · split <;> decide
  · decide

theorem Tournament.softCount_eq (t : Tournament) (kind : Kind) :
    t.softCount kind = softOf kind t.rules := by
  rw [Tournament.softCount, Tournament.rulesOf, List.filter_filter, softOf]
  congr 1
  refine List.filter_congr fun rule _ => ?_
  simp [Bool.and_comm]

namespace Numbered

/-- A rule's own numbers grow within its kind. -/
theorem pairwise_allBehind :
    (earlier rules : List Rule) → (allBehind earlier rules).Pairwise fun a b =>
      a.rule.kind = b.rule.kind → a.number < b.number ∧
        (a.rule.strength.isSoft = true → a.softPlace < b.softPlace)
  | _, [] => List.Pairwise.nil
  | earlier, rule :: rules => by
    refine List.pairwise_cons.mpr ⟨fun later hlater hkind => ?_, pairwise_allBehind _ rules⟩
    obtain ⟨before, after, -, hlater⟩ := mem_allBehind hlater
    rw [hlater] at hkind ⊢
    have hkind : rule.kind = later.rule.kind := hkind
    have hunits : 0 < unitsOf rule.kind [rule] := by
      simpa [unitsOf] using rule.demand.units_pos
    constructor
    · show unitsOf rule.kind earlier + 1 < unitsOf later.rule.kind (earlier ++ [rule] ++ before) + 1
      rw [← hkind, unitsOf_append, unitsOf_append]
      omega
    · intro hsoft
      have hsoft : softOf rule.kind [rule] = 1 := by
        have : rule.strength.isSoft = true := hsoft
        simp [softOf, this]
      show softOf rule.kind earlier + 1 < softOf later.rule.kind (earlier ++ [rule] ++ before) + 1
      rw [← hkind, softOf_append, softOf_append]
      omega

end Numbered

namespace Tournament

variable {t : Tournament} {rule : Numbered}

theorem rule_mem (h : rule ∈ t.numbered) : rule.rule ∈ t.rules := by
  rw [← t.map_rule_numbered]
  exact List.mem_map_of_mem h

theorem softPlace_le (h : rule ∈ t.numbered) (hsoft : rule.rule.strength.isSoft = true) :
    1 ≤ rule.softPlace ∧ rule.softPlace ≤ t.softCount rule.rule.kind := by
  obtain ⟨before, after, hrules, hrule⟩ := Numbered.mem_allBehind h
  have hplace : rule.softPlace = softOf rule.rule.kind before + 1 :=
    congrArg Numbered.softPlace hrule
  have hcount : softOf rule.rule.kind (rule.rule :: after) =
      1 + softOf rule.rule.kind after := by
    rw [← List.singleton_append, softOf_append]
    simp [softOf, hsoft]
  rw [t.softCount_eq, hrules, softOf_append, hcount]
  omega

end Tournament

end RoundRobin
