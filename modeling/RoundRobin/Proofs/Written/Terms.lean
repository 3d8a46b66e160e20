import Mathlib
import RoundRobin.Proofs.Written.Linear

/-! Sets and terms over variables read back from their own texts. The writer encloses no operand of
a difference of sets, and of the operands of terms it encloses no arithmetic. A sum or difference
that stands there is read as if it had been written from the left. -/

namespace RoundRobin.Written

open Zimpl

/-- The set that all of a text is read as, where no name is a variable. -/
def readSet? (text : String) : Option SetTerm :=
  let tokens := tokensOf text.toList
  match (grammar [] (tokens.length + 1)).set tokens with
  | some (set, []) => some set
  | _ => none

/-- The term over some variables that all of a text is read as. -/
def readLinear? (vars : List String) (text : String) : Option Linear :=
  let tokens := tokensOf text.toList
  match (grammar vars (tokens.length + 1)).expr tokens with
  | some (term, []) => some term
  | _ => none

theorem readSet?_of_spells {text : String} {set : SetTerm} (hspells : Spells text set.tokens)
    (hset : SetTerm.Reads [] set) : readSet? text = some set.asRead := by
  have hread := hset.whole (Nat.lt_succ_self _) (avoids_nil _)
  rw [List.append_nil] at hread
  rw [readSet?, hspells.tokensOf_eq]
  simp only [hread]

theorem readLinear?_of_spells {vars : List String} {text : String} {term : Linear}
    (hspells : Spells text term.tokens) (hterm : Linear.Reads vars term) :
    ∃ read, readLinear? vars text = some read ∧ read.Alike term := by
  obtain ⟨read, halike, hread⟩ := hterm.expr.whole (Nat.lt_succ_self _) (avoids_nil _)
  rw [List.append_nil] at hread
  refine ⟨read, ?_, halike⟩
  rw [readLinear?, hspells.tokensOf_eq]
  simp only [hread]

end RoundRobin.Written

namespace RoundRobin.Zimpl

open Written

namespace SetTerm

variable {env : Env} {a b c : SetTerm}

theorem members?_asRead {members : List (List Tuple)} : {s : SetTerm} →
    s.members? env = some members → s.asRead.members? env = some members
  | .subsets set size, h => by simpa only [asRead, members?, set.tuples?_asRead env] using h

/-- The text of a set reads as a set of the same tuples, and as the same family where it is one,
unless the right operand of some difference in it is itself a difference. -/
theorem denotes_text (s : SetTerm) (h : s.legible [] = true) :
    ∃ read, readSet? s.text = some read ∧ ∀ env, read.tuples? env = s.tuples? env ∧
      ∀ members ∈ s.members? env, members ∈ read.members? env :=
  ⟨s.asRead, readSet?_of_spells (s.spells h) (s.reads h),
    fun env => ⟨s.tuples?_asRead env, fun _ hmembers => members?_asRead hmembers⟩⟩

/-- A product and a difference behind a difference, subsets of a set in braces, and a difference
whose left operand is one. -/
def tangledSet : SetTerm :=
  .minus (.minus (.product [.minus "T" (.list [.int (-1), "m"]), "S"])
      (.product ["S", .product ["T", .range 0 (.sub "n" (.add "m" 1))]]))
    (.builder (.mk ["p", "q"] (.product ["T", .minus (.minus "S" "R") "T"]) (.ne "p" (.card "K"))))

theorem denotes_text_tangled :
    ∃ read, readSet? ("(T \\ \x7b-1, m\x7d) * S \\ S * (T * \x7b 0 .. n - (m + 1) \x7d) \\ " ++
        "\x7b <p,q> in T * (S \\ R \\ T) with p != card(K) \x7d") = some read ∧
      ∀ env, read.tuples? env = tangledSet.tuples? env ∧
        ∀ members ∈ tangledSet.members? env, members ∈ read.members? env := by
  have htext : tangledSet.text =
      "(T \\ \x7b-1, m\x7d) * S \\ S * (T * \x7b 0 .. n - (m + 1) \x7d) \\ " ++
        "\x7b <p,q> in T * (S \\ R \\ T) with p != card(K) \x7d" := by decide
  exact htext ▸ denotes_text tangledSet (by decide)

/-- A difference of a difference is written as the difference from the left. -/
theorem text_minus_minus (a b c : SetTerm) :
    (minus a (minus b c)).text = (minus (minus a b) c).text := by
  simp only [text, String.append_assoc]

/-- What is read there has the tuples that were meant only if the first set and the last have none
in common. -/
theorem tuples?_minus_minus_iff {as bs cs : List Tuple} (ha : a.tuples? env = some as)
    (hb : b.tuples? env = some bs) (hc : c.tuples? env = some cs) :
    (minus (minus a b) c).tuples? env = (minus a (minus b c)).tuples? env ↔
      ∀ tuple ∈ as, tuple ∉ cs := by
  have hleft : (minus (minus a b) c).tuples? env =
      some ((as.filter (· ∉ bs)).filter (· ∉ cs)) := by simp [tuples?, ha, hb, hc]
  have hright : (minus a (minus b c)).tuples? env =
      some (as.filter (· ∉ bs.filter (· ∉ cs))) := by simp [tuples?, ha, hb, hc]
  rw [hleft, hright, Option.some_inj, List.filter_filter]
  constructor
  · intro heq tuple has hcs
    have hmem : tuple ∈ as.filter (· ∉ bs.filter (· ∉ cs)) := by simp [has, hcs]
    rw [← heq] at hmem
    simp [hcs] at hmem
  · intro hdisjoint
    refine List.filter_congr fun tuple has => ?_
    simp [hdisjoint tuple has]

/-- The same number in three sets: what is written is empty, what was meant is not. -/
theorem exists_misread_difference : ∃ read env,
    readSet? (minus "A" (minus "B" "C")).text = some read ∧
      read.tuples? env = some [] ∧ (minus "A" (minus "B" "C")).tuples? env = some [[1]] := by
  have hlegible : (minus (minus "A" "B") "C").legible [] = true := by decide
  have hread := readSet?_of_spells (spells _ hlegible) (reads _ hlegible)
  rw [← text_minus_minus] at hread
  exact ⟨_, { sets := [("A", [[1]]), ("B", [[1]]), ("C", [[1]])] }, hread, by decide, by decide⟩

end SetTerm

namespace Linear

/-- The text of a term reads as a term of the same value, unless a sum or difference of arithmetic
is the right operand of a difference, is multiplied by a factor or weight, or is the body of a sum
over an index, or a set in the term is one that the text of sets does not read back. -/
theorem valued_text (vars : List String) (term : Linear) (h : term.legible vars = true) :
    ∃ read, readLinear? vars term.text = some read ∧
      ∀ env values, read.value? env values = term.value? env values :=
  readLinear?_of_spells (term.spells h) (term.reads h)

/-- A weight behind a sum over an index, and a difference behind a minus. -/
def tangledTerm : Linear :=
  .diff
      (.sum [.scaled (.add "a" 1) (.sumOver (.over ["i"] "S") (.sum [.var "x" ["i"], .const "b"])),
      .var "v" []])
    (.diff (.abs (.diff (.var "v" []) (.const (.mul "a" (.sub "b" (.int (-3)))))))
      (.weighted (.sumOver (.over ["i"] "S") (.sumOver (.over ["j"] "T") (.var "y" ["i", "j"])))
        (-2)))

theorem valued_text_tangled :
    ∃ read, readLinear? ["v"] ("(a + 1) * sum <i> in S: (x[i] + b) + v - " ++
        "(vabs(v - a * (b - -3)) - sum <i> in S: sum <j> in T: y[i,j] * -2)") = some read ∧
      ∀ env values, read.value? env values = tangledTerm.value? env values := by
  have htext : tangledTerm.text = "(a + 1) * sum <i> in S: (x[i] + b) + v - " ++
      "(vabs(v - a * (b - -3)) - sum <i> in S: sum <j> in T: y[i,j] * -2)" := by decide
  exact htext ▸ valued_text ["v"] tangledTerm (by decide)

section Misread

variable {env : Env} {values : Assignment} (a : Linear) (b c factor : Arith) (index : Index)
    (weight : Int)

theorem textFor_const_add :
    (const (.add b c)).textFor .operand = (const b).textFor .operand ++ " + " ++ c.text := by
  show Arith.text (.add b c) = b.text ++ " + " ++ c.text
  rw [Arith.text, enclose_one, enclose_one]

/-- Behind a minus, only the first summand of arithmetic is taken off. -/
theorem text_diff_add :
    (diff a (const (.add b c))).text = (sum [diff a (const b), const c]).text := by
  show a.text ++ " - " ++ (const (.add b c)).textFor .operand =
    a.text ++ " - " ++ (const b).textFor .operand ++ " + " ++ c.text
  simp only [textFor_const_add, String.append_assoc]

/-- A factor reaches over the first summand of arithmetic. -/
theorem text_scaled_add :
    (scaled factor (const (.add b c))).text = (sum [scaled factor (const b), const c]).text := by
  show enclose 3 factor.level factor.text ++ " * " ++ (const (.add b c)).textFor .operand =
    enclose 3 factor.level factor.text ++ " * " ++ (const b).textFor .operand ++ " + " ++ c.text
  simp only [textFor_const_add, String.append_assoc]

/-- A weight reaches over the last summand of arithmetic. -/
theorem text_weighted_add :
    (weighted (const (.add b c)) weight).text =
      (sum [const b, weighted (const c) weight]).text := by
  show (const (.add b c)).textFor (.weighted weight) =
    (const b).textFor .operand ++ " + " ++ (const c).textFor (.weighted weight)
  simp only [textFor_weighted, textFor_const_add, String.append_assoc]
  rfl

/-- A sum over an index reaches over the first summand of arithmetic, and the second stands outside
the symbols that the index binds. -/
theorem text_sumOver_add :
    (sumOver index (const (.add b c))).text = (sum [sumOver index (const b), const c]).text := by
  show "sum " ++ index.text ++ ": " ++ (const (.add b c)).textFor .operand =
    "sum " ++ index.text ++ ": " ++ (const b).textFor .operand ++ " + " ++ c.text
  simp only [textFor_const_add, String.append_assoc]

variable {a b c} {p q r : Rat}

/-- What is read behind a minus has the value that was meant only if the second summand is zero. -/
theorem value?_diff_add_iff (ha : a.value? env values = some p) (hb : b.value? env = some q)
    (hc : c.value? env = some r) :
    (sum [diff a (const b), const c]).value? env values =
      (diff a (const (.add b c))).value? env values ↔ r = 0 := by
  have hread : (sum [diff a (const b), const c]).value? env values = some (p - q + r) := by
    simp [value?, sumOf?, ha, hb, hc]
  have hmeant : (diff a (const (.add b c))).value? env values = some (p - (q + r)) := by
    simp [value?, Arith.value?, ha, hb, hc]
  rw [hread, hmeant, Option.some_inj]
  constructor
  · intro heq
    linarith
  · rintro rfl
    ring

/-- One and one are taken off three: what is written is three, what was meant is one. -/
theorem exists_misread_subtrahend : ∃ read env values,
    readLinear? ["v"] (diff (var "v" []) (const (.add "a" "b"))).text = some read ∧
      read.value? env values = some 3 ∧
      (diff (var "v" []) (const (.add "a" "b"))).value? env values = some 1 := by
  let env : Env := { params := [("a", 1), ("b", 1)], subscripts := [("v", [[]])] }
  have hlegible : (sum [diff (var "v" []) (const "a"), const "b"]).legible ["v"] = true := by decide
  obtain ⟨read, hread, halike⟩ := readLinear?_of_spells (spells _ hlegible) (reads _ hlegible)
  rw [← text_diff_add] at hread
  refine ⟨read, env, fun _ _ => 3, hread, ?_, by decide +kernel⟩
  rw [halike]
  decide +kernel

end Misread

end Linear

end RoundRobin.Zimpl
