import Mathlib
import RoundRobin.Proofs.Naming.Program
import RoundRobin.Proofs.Range.Program
import RoundRobin.Proofs.Zimpl.Places

/-! The rows that mirror a season. They start from the slots up to the half of all slots, rounded
up, and relate each game there to its return game half a season later. Half a season later is a slot
only where the number of slots is even. -/

namespace RoundRobin

namespace Zimpl

/-- The variables to which the two sides of a row refer. -/
abbrev Sides := List Occurrence × List Occurrence

def Row.sides? (env : Env) (row : Row) : Option Sides := do
  return (← row.lhs.occurrences? env, ← row.rhs.occurrences? env)

/-- The sides of all rows of a block, with its indices expanded. -/
def Subto.sides? (env : Env) (block : Subto) : Option (List Sides) := do
  let found ← (← Index.expandAll? env block.foralls).mapM fun env =>
    block.rows.mapM fun row => row.sides? env
  return found.flatten

/-- The sides of all rows of the blocks of a name. -/
def Program.sides? (program : Program) (name : String) (env : Env) : Option (List Sides) := do
  let found ← (program.subtos.filter (·.name = name)).mapM fun block => block.sides? env
  return found.flatten

theorem Subto.sides?_of_covers {env : Env} {name : String} {foralls : List Index}
    {members : Finset α}
    {inner : α → Env} {row : Row} {sides : α → Sides} (h : Index.Covers env foralls members inner)
    (hrow : ∀ a ∈ members, row.sides? (inner a) = some (sides a)) :
    ∃ found, Subto.sides? env ⟨name, foralls, [row]⟩ = some found ∧
      ∀ side, side ∈ found ↔ ∃ a ∈ members, side = sides a := by
  obtain ⟨order, horder, hexpand⟩ := h
  have hrows : (order.map inner).mapM (fun env => [row].mapM fun row => row.sides? env) =
      some (order.map fun a => [sides a]) := by
    rw [List.mapM_map]
    refine mapM_total fun a ha => ?_
    simp [hrow a ((horder.mem_iff a).mp ha)]
  refine ⟨(order.map fun a => [sides a]).flatten, ?_, fun side => ?_⟩
  · rw [Subto.sides?, hexpand]
    show Option.bind (List.mapM _ _) _ = _
    rw [hrows]
    rfl
  · simp [horder.mem_iff, eq_comm]

/-- Of constraints whose names are told apart, one has the name of a constraint. -/
theorem Program.NamedApart.sides?_eq {program : Program} (h : program.NamedApart) {block : Subto}
    (hblock : block ∈ program.subtos) (env : Env) :
    program.sides? block.name env = block.sides? env := by
  have hnodup := List.Nodup.of_map _ h.constraints
  have hfilter : program.subtos.filter (·.name = block.name) = [block] := by
    refine List.perm_singleton.mp ((List.perm_ext_iff_of_nodup (hnodup.filter _)
      (List.nodup_singleton block)).mpr fun other => ?_)
    rw [List.mem_filter, List.mem_singleton, decide_eq_true_iff]
    constructor
    · exact fun hother => List.inj_on_of_nodup_map h.constraints hother.1 hblock hother.2
    · rintro rfl
      exact ⟨hblock, rfl⟩
  rw [Program.sides?, hfilter]
  cases hsides : block.sides? env <;> simp [hsides]

end Zimpl

open Zimpl

/-- Some rows relate each game to its return game half a season later, both of which there are, and
reach every slot for each ordered pair of teams. -/
structure Tournament.MirrorsInside (t : Tournament) (program : Program)
    (rows : List Sides) : Prop where
  inside : ∀ row ∈ rows, ∃ home away slot later : Int,
    row = ([("x", [(home : Rat), (away : Rat), (slot : Rat)])],
      [("x", [(away : Rat), (home : Rat), (later : Rat)])]) ∧
    (later : Rat) = slot + t.slotCount / 2 ∧
    t.InRange program ("x", [(home : Rat), (away : Rat), (slot : Rat)]) ∧
    t.InRange program ("x", [(away : Rat), (home : Rat), (later : Rat)])
  reached : ∀ p ∈ t.teamSet.offDiag, ∀ slot ∈ t.slotSet, ∃ row ∈ rows,
    ("x", [(p.1 : Rat), (p.2 : Rat), (slot : Rat)]) ∈ row.1 ∨
      ("x", [(p.2 : Rat), (p.1 : Rat), (slot : Rat)]) ∈ row.2

/-- The sides of the row that mirrors a game. -/
def Tournament.mirrorSides (t : Tournament) (q : (Int × Int) × Int) : Sides :=
  ([("x", [(q.1.1 : Rat), (q.1.2 : Rat), (q.2 : Rat)])],
    [("x", [(q.1.2 : Rat), (q.1.1 : Rat), q.2 + t.slotCount / 2])])

section Rows

variable {t : Tournament} {options : Options} {env : Env}

theorem occurrences?_playedIn {a b slot : Arith} {p q r : Rat} (ha : a.value? env = some p)
    (hb : b.value? env = some q) (hslot : slot.value? env = some r) :
    (playedIn a b slot).occurrences? env = some [("x", [p, q, r])] := by
  simp [playedIn, Linear.occurrences?, Arith.values?, ha, hb, hslot]

theorem Scene.sides?_mirrorRow (scene : Scene t options env)
    (hslots : env.symbols.lookup "slots" = none) {q : (Int × Int) × Int}
    (hhome : env.value? "m" = some (q.1.1 : Rat)) (haway : env.value? "n" = some (q.1.2 : Rat))
    (hslot : env.value? "s" = some (q.2 : Rat)) :
    Row.sides? env ⟨playedIn "m" "n" "s", .eq, playedIn "n" "m" ("s" + "slots" / 2)⟩ =
      some (t.mirrorSides q) := by
  have hfirst : (playedIn "m" "n" "s").occurrences? env = some (t.mirrorSides q).1 :=
    occurrences?_playedIn hhome haway hslot
  have hsecond : (playedIn "n" "m" ("s" + "slots" / 2)).occurrences? env =
      some (t.mirrorSides q).2 :=
    occurrences?_playedIn haway hhome (scene.value?_halfSeasonLater hslots hslot)
  rw [Row.sides?, hfirst, hsecond]
  rfl

/-- There is one such row for each ordered pair and each slot to start from, whether or not there is
a slot half a season later. -/
theorem Scene.exists_mirrorRows (scene : Scene t options env) (hsymbols : env.symbols = [])
    (hsymmetric : options.symmetric = true) :
    ∃ block ∈ Program.subtos (Frame.mirror options), block.name = "c5" ∧
      ∃ rows, block.sides? env = some rows ∧
        ∀ row, row ∈ rows ↔ ∃ q ∈ t.teamSet.offDiag ×ˢ t.mirrored, row = t.mirrorSides q := by
  have hmirror : Program.subtos (Frame.mirror options) = [⟨"c5",
      [.over ["m", "n"] "M", .over ["s"] (.range 0 (.floor (("slots" - 1) / 2)))],
      [⟨playedIn "m" "n" "s", .eq, playedIn "n" "m" ("s" + "slots" / 2)⟩]⟩] := by
    rw [Frame.mirror, if_pos hsymmetric]
    rfl
  refine ⟨_, hmirror ▸ List.mem_singleton_self _, rfl, ?_⟩
  have hcovers : Index.Covers env
      [.over ["m", "n"] "M", .over ["s"] (.range 0 (.floor (("slots" - 1) / 2)))]
      (t.teamSet.offDiag ×ˢ t.mirrored)
      fun q => ((env.bind "m" q.1.1).bind "n" q.1.2).bind "s" q.2 :=
    (Index.runs_two scene.pairs (by simp [hsymbols]) (by simp [hsymbols]) (by decide)).covers_cons
      fun p _ => (Index.runs_one
        (((scene.bind "m" p.1).bind "n" p.2).lists_mirrored (by simp [hsymbols]))
        (by simp [hsymbols])).covers
  refine Subto.sides?_of_covers hcovers fun q _ => ?_
  have inner := ((scene.bind "m" q.1.1).bind "n" q.1.2).bind "s" q.2
  exact inner.sides?_mirrorRow (by simp [hsymbols]) (by simp) (by simp) (by simp)

theorem Zimpl.Env.Ranges.has {tuple : α → Tuple} {members : Finset α} {name : String}
    (h : env.Ranges name tuple members) {a : α} (ha : a ∈ members) : env.Has (name, tuple a) := by
  obtain ⟨order, horder, hlookup⟩ := h
  rw [Env.Has, hlookup]
  exact List.mem_map_of_mem ((horder.mem_iff a).mpr ha)

/-- Rows that mirror each game stay inside the season if and only if half a season later is a
slot. -/
theorem Stage.mirrorsInside_iff (stage : Stage t options env)
    (henv : (t.program options).env? = some env) (htwo : 2 ≤ t.teamCount) {rows : List Sides}
    (hrows : ∀ row, row ∈ rows ↔ ∃ q ∈ t.teamSet.offDiag ×ˢ t.mirrored, row = t.mirrorSides q) :
    t.MirrorsInside (t.program options) rows ↔ t.slotCount % 2 = 0 := by
  have hinRange : ∀ q ∈ t.teamSet.offDiag ×ˢ t.slotSet,
      t.InRange (t.program options) ("x", Tuple.three q) := fun q hq =>
    stage.inRange henv (stage.games.has hq)
  constructor
  · intro h
    by_contra hodd
    -- the first row has no return game
    have hpair : ((0, 1) : Int × Int) ∈ t.teamSet.offDiag := by
      rw [Finset.mem_offDiag, Tournament.mem_teamSet, Tournament.mem_teamSet]
      omega
    have hstart : (0 : Int) ∈ t.mirrored := by
      rw [Tournament.mem_mirrored]
      omega
    obtain ⟨home, away, slot, later, -, hlater, -, -⟩ :=
      h.inside _ ((hrows _).mpr ⟨((0, 1), 0), Finset.mem_product.mpr ⟨hpair, hstart⟩, rfl⟩)
    have hdouble : (2 * later : Rat) = 2 * slot + t.slotCount := by linarith
    have hdouble : 2 * later = 2 * slot + t.slotCount := by exact_mod_cast hdouble
    omega
  · intro heven
    have hhalf : (t.slotCount / 2 : Rat) = ((t.slotCount / 2 : Nat) : Int) := by
      rw [Int.cast_natCast, Nat.cast_div (Nat.dvd_of_mod_eq_zero heven) (by norm_num)]
      rfl
    have hmirrored : ∀ slot, slot ∈ t.mirrored ↔ slot ∈ t.slotSet ∧
        slot + (t.slotCount / 2 : Nat) ∈ t.slotSet := by
      intro slot
      simp only [Tournament.mem_mirrored, Tournament.mem_slotSet]
      omega
    constructor
    case inside =>
      intro row hrow
      obtain ⟨q, hq, rfl⟩ := (hrows row).mp hrow
      obtain ⟨hpair, hslot⟩ := Finset.mem_product.mp hq
      obtain ⟨hfirst, hsecond⟩ := (hmirrored q.2).mp hslot
      have hlater : ((q.2 + (t.slotCount / 2 : Nat) : Int) : Rat) = q.2 + t.slotCount / 2 := by
        rw [hhalf, Int.cast_add]
      refine ⟨q.1.1, q.1.2, q.2, q.2 + (t.slotCount / 2 : Nat), ?_, hlater, ?_, ?_⟩
      · rw [hlater]
        rfl
      · exact hinRange q (Finset.mem_product.mpr ⟨hpair, hfirst⟩)
      · exact hinRange (q.1.swap, q.2 + (t.slotCount / 2 : Nat))
          (Finset.mem_product.mpr ⟨Scene.swap_mem hpair, hsecond⟩)
    case reached =>
      intro p hp slot hslot
      by_cases hfirst : slot ∈ t.mirrored
      · exact ⟨_, (hrows _).mpr ⟨(p, slot), Finset.mem_product.mpr ⟨hp, hfirst⟩, rfl⟩,
          .inl (.head _)⟩
      · have hstart : slot - (t.slotCount / 2 : Nat) ∈ t.mirrored := by
          simp only [Tournament.mem_mirrored, Tournament.mem_slotSet] at hfirst hslot ⊢
          omega
        refine ⟨_, (hrows _).mpr ⟨(p, slot - (t.slotCount / 2 : Nat)),
          Finset.mem_product.mpr ⟨hp, hstart⟩, rfl⟩, .inr ?_⟩
        rw [Tournament.mirrorSides, hhalf, Int.cast_sub, sub_add_cancel]
        exact .head _

/-- The rows of a program that mirror the season. -/
theorem Stage.exists_sides (stage : Stage t options env) (hsymmetric : options.symmetric = true) :
    ∃ rows, (t.program options).sides? "c5" env = some rows ∧
      ∀ row, row ∈ rows ↔ ∃ q ∈ t.teamSet.offDiag ×ˢ t.mirrored, row = t.mirrorSides q := by
  obtain ⟨block, hblock, hname, rows, hsides, hrows⟩ :=
    stage.toScene.exists_mirrorRows stage.symbols hsymmetric
  refine ⟨rows, ?_, hrows⟩
  rw [← hname,
    (t.names_apart options).sides?_eq (Frame.mem_subtos_program (Frame.mem_subtos.mpr (.inl
    (List.mem_append_right _ hblock)))), hsides]

end Rows

/-- The rows that mirror a season relate games that there are, and reach every slot for each ordered
pair of teams, if and only if the number of slots is even. -/
theorem Tournament.mirrors_inside_iff {read? : Markup.Reader} {text : String} {t : Tournament}
    {options : Options} {program : Program} (hread : Tournament.readBy read? text = .ok t)
    (hprogram : t.formulate options = .ok program) (hsymmetric : options.symmetric = true) :
    ∃ env rows, program.env? = some env ∧ program.sides? "c5" env = some rows ∧
      (t.MirrorsInside program rows ↔ t.slotCount % 2 = 0) := by
  obtain ⟨rfl, hcheck⟩ := Tournament.of_formulate hprogram
  obtain ⟨env, henv, stage⟩ := Tournament.stage hcheck
  obtain ⟨rows, hsides, hrows⟩ := stage.exists_sides hsymmetric
  exact ⟨env, rows, henv, hsides,
    stage.mirrorsInside_iff henv (Tournament.wellFormed_of_readBy hread).two_le hrows⟩

/-- Two slots mirror each other. -/
theorem mirrors_inside_pair :
    let program := pairTournament.program { symmetric := true }
    ∃ env rows, program.env? = some env ∧ program.sides? "c5" env = some rows ∧
      pairTournament.MirrorsInside program rows := by
  intro program
  have hprogram : pairTournament.formulate { symmetric := true } = .ok program := rfl
  obtain ⟨env, rows, henv, hsides, hiff⟩ := Tournament.mirrors_inside_iff read_pairText hprogram rfl
  exact ⟨env, rows, henv, hsides, hiff.mpr rfl⟩

/-- Two teams and three slots. -/
def oddPairText : String :=
  "<Instance><team id=\"0\"/><team id=\"1\"/><slot id=\"0\"/><slot id=\"1\"/><slot id=\"2\"/>"
    ++ "</Instance>"

def oddPairTournament : Tournament := { pairTournament with slots := [0, 1, 2] }

theorem read_oddPairText : Tournament.read oddPairText = .ok oddPairTournament :=
  Tournament.read_eq_ok (toList_append_ofList String.toList_ofList) (by decide +kernel)

/-- Half of three slots later is no slot. -/
theorem exists_not_mirrorsInside : ∃ text t, Tournament.read text = .ok t ∧
    ∃ program, t.formulate { symmetric := true } = .ok program ∧
      ∃ env rows, program.env? = some env ∧ program.sides? "c5" env = some rows ∧
        ¬ t.MirrorsInside program rows := by
  have hprogram : oddPairTournament.formulate { symmetric := true } =
      .ok (oddPairTournament.program { symmetric := true }) := rfl
  obtain ⟨env, henv, stage⟩ := Tournament.stage (Tournament.of_formulate hprogram).2
  obtain ⟨rows, hsides, hrows⟩ := stage.exists_sides rfl
  refine ⟨oddPairText, _, read_oddPairText, _, hprogram, env, rows, henv, hsides, ?_⟩
  rw [stage.mirrorsInside_iff henv (by decide) hrows]
  decide

end RoundRobin
