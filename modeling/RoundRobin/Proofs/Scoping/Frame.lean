import Mathlib
import RoundRobin.Formulation.Frame
import RoundRobin.Proofs.Zimpl.Context

/-! What a frame declares, and that it uses nothing else. The part that every frame declares comes
first; the games, the violations that soft rules share, the odd families and the counters of breaks
and home games follow where the rules and the options ask for them. -/

namespace RoundRobin

open Zimpl

namespace Frame

/-- What every frame declares first. -/
def resourceEntities : List (String × Entity) :=
  [("teams", .param), ("slots", .param), ("T", .set 1), ("S", .set 1), ("S0", .set 1),
    ("S1", .set 1), ("S2", .set 1), ("SZ", .set 1), ("M", .set 2), ("MR", .set 2),
    ("matches_per_slot", .param)]

/-- The violations that the soft rules of a kind share, and the set of their places. -/
def arrayEntities (t : Tournament) (options : Options) (kind : Kind) : List (String × Entity) :=
  if t.softCount kind = 0 then []
  else
    [(kind.tag, .set 1), (kind.stem ++ "_viol", .variable 1)]
    ++ if kind = .ga1 ∧ options.minPenalty = .separate then [("ga1_min_viol", .variable 1)] else []

def sharedEntities (t : Tournament) (options : Options) : List (String × Entity) :=
  if options.soft then [Kind.ca1, .ca2, .ga1].flatMap (arrayEntities t options) else []

def gameEntities (t : Tournament) : List (String × Entity) :=
  ("x", .variable 3)
    :: if t.hasBreaks then [("bh", .variable 2), ("ba", .variable 2)] else []

/-- A family of odd sets and its indices. -/
def familyEntities (family : String × Nat) : List (String × Entity) :=
  [("K" ++ toString family.2, .family 1), ("I" ++ toString family.2, .set 1)]

def balanceEntities (t : Tournament) : List (String × Entity) :=
  if t.hasBalance then [("hg", .variable 2)] else []

/-- All that a frame declares. -/
def entities (t : Tournament) (options : Options) : List (String × Entity) :=
  resourceEntities ++ sharedEntities t options ++ gameEntities t
    ++ (oddFamilies t options).flatMap familyEntities ++ balanceEntities t

/-- What the rows of a frame use but for the odd families and the home games. -/
def baseEntities (t : Tournament) : List (String × Entity) := resourceEntities ++ gameEntities t

variable {t : Tournament} {options : Options} {context : Context}

theorem declared?_heading (t : Tournament) (context : Context) :
    Program.declared? context (heading t) = some [] := by
  refine Program.declared?_silent ?_
  unfold heading
  cases t.name <;> simp

theorem declared?_resources (t : Tournament) :
    Program.declared? {} (resources t) = some resourceEntities := rfl

theorem declared?_sharedArray {kind : Kind}
    (hfresh : context.Fresh (arrayEntities t options kind)) :
    Program.declared? context (sharedArray t options kind) =
      some (arrayEntities t options kind) := by
  unfold sharedArray
  unfold arrayEntities at hfresh ⊢
  split
  · rfl
  · rename_i hcount
    rw [if_neg hcount] at hfresh
    have hset : (context.add [(kind.tag, .set 1)]).entity? kind.tag = some (.set 1) :=
      hfresh.first.head.declares _ (.head _)
    have harray : Program.declared? context [.set kind.tag (.range 1 (.int (t.softCount kind))),
        .var (.nonnegative (kind.stem ++ "_viol") (.over kind.tag))] =
          some [(kind.tag, .set 1), (kind.stem ++ "_viol", .variable 1)] :=
      Program.declared?_cons (by simp)
        (Program.declared?_cons (by simp [VarDecl.nonnegative, hset]) rfl)
    refine Program.declared?_append harray ?_
    split
    · rename_i hmin
      obtain ⟨rfl, -⟩ := hmin
      have hmembers : (context.add [(Kind.tag .ga1, .set 1),
          (Kind.stem .ga1 ++ "_viol", .variable 1)]).entity? "GA1" = some (.set 1) :=
        hfresh.first.declares _ (.head _)
      exact Program.declared?_cons (by simp [VarDecl.nonnegative, hmembers]) rfl
    · rfl

theorem declared?_sharedArrays (hfresh : context.Fresh (sharedEntities t options)) :
    Program.declared? context (sharedArrays t options) = some (sharedEntities t options) := by
  unfold sharedArrays
  unfold sharedEntities at hfresh ⊢
  dsimp only
  cases hsoft : options.soft with
  | false => rfl
  | true =>
    rw [hsoft, if_pos rfl] at hfresh
    have harrays : Program.declared? context ([Kind.ca1, .ca2, .ga1].flatMap
        (sharedArray t options)) = _ :=
      Program.declared?_flatMap (Context.declares_nil context) hfresh
        fun kind _ _ _ hkind => declared?_sharedArray hkind
    rw [Bool.not_true, Bool.false_or, if_pos rfl]
    split
    · rename_i hnone
      rw [List.isEmpty_iff.mp hnone] at harrays
      exact harrays
    · exact Program.declared?_quiet rfl harrays

theorem declared?_gameVariables (hbase : context.Declares resourceEntities) :
    Program.declared? context (gameVariables t) = some (gameEntities t) := by
  have hM : context.entity? "M" = some (.set 2) := hbase.entity? (by simp [resourceEntities])
  have hS : context.entity? "S" = some (.set 1) := hbase.entity? (by simp [resourceEntities])
  have hT : ∀ entities, (context.add entities).entity? "T" = some (.set 1) := fun entities =>
    (hbase.add entities).entity? (by simp [resourceEntities])
  have hS0 : ∀ entities, (context.add entities).entity? "S0" = some (.set 1) := fun entities =>
    (hbase.add entities).entity? (by simp [resourceEntities])
  have hx : Program.declared? context [.blank, .var (.binary "x" (times "M" "S"))] =
      some [("x", .variable 3)] :=
    Program.declared?_quiet rfl
      (Program.declared?_cons (by simp [VarDecl.binary, times, hM, hS]) rfl)
  unfold gameVariables gameEntities
  split
  · refine Program.declared?_append hx (Program.declared?_cons ?_ (Program.declared?_cons ?_ rfl))
    · simp [VarDecl.binary, times, hT, hS0]
    · rw [← Context.add_append]
      simp [VarDecl.binary, times, hT, hS0]
  · exact Program.declared?_append hx rfl

section Rows

variable (hbase : context.Declares (baseEntities t))
include hbase

theorem entity?_teams : context.entity? "T" = some (.set 1) :=
  hbase.entity? (by simp [baseEntities, resourceEntities])

theorem entity?_slots : context.entity? "S" = some (.set 1) :=
  hbase.entity? (by simp [baseEntities, resourceEntities])

theorem entity?_games : context.entity? "x" = some (.variable 3) :=
  hbase.entity? (by simp [baseEntities, gameEntities])

theorem entity?_breaks (hbreaks : t.hasBreaks = true) : context.entity? "bh" = some (.variable 2) ∧
    context.entity? "ba" = some (.variable 2) :=
  ⟨hbase.entity? (by simp [baseEntities, gameEntities, hbreaks]),
    hbase.entity? (by simp [baseEntities, gameEntities, hbreaks])⟩

theorem entity?_pairs : context.entity? "M" = some (.set 2) ∧
    context.entity? "MR" = some (.set 2) :=
  ⟨hbase.entity? (by simp [baseEntities, resourceEntities]),
    hbase.entity? (by simp [baseEntities, resourceEntities])⟩

theorem entity?_counts : context.entity? "slots" = some .param ∧
    context.entity? "teams" = some .param ∧ context.entity? "matches_per_slot" = some .param :=
  ⟨hbase.entity? (by simp [baseEntities, resourceEntities]),
    hbase.entity? (by simp [baseEntities, resourceEntities]),
    hbase.entity? (by simp [baseEntities, resourceEntities])⟩

theorem entity?_slotSets : context.entity? "S0" = some (.set 1) ∧
    context.entity? "S1" = some (.set 1) :=
  ⟨hbase.entity? (by simp [baseEntities, resourceEntities]),
    hbase.entity? (by simp [baseEntities, resourceEntities])⟩

theorem declared?_schedule : Program.declared? context (schedule options) = some [] := by
  refine Program.declared?_silent ?_
  simp [schedule, titled, playedIn, one, entity?_teams hbase, entity?_slots hbase,
    entity?_games hbase, entity?_pairs hbase, entity?_counts hbase]

theorem declared?_fixedCount : Program.declared? context (fixedCount options) = some [] := by
  refine Program.declared?_silent ?_
  unfold fixedCount
  split
  · simp [titled, playedIn, times, entity?_slots hbase, entity?_games hbase, entity?_pairs hbase,
      entity?_counts hbase]
  · exact List.forall_mem_nil _

theorem declared?_breakCount : Program.declared? context (breakCount t) = some [] := by
  refine Program.declared?_silent ?_
  unfold breakCount
  dsimp only
  split
  · rename_i hbreaks
    simp [titled, playedIn, othersThan, one, entity?_teams hbase, entity?_games hbase,
      entity?_slotSets hbase, entity?_breaks hbase hbreaks]
  · exact List.forall_mem_nil _

theorem declared?_halves : Program.declared? context (halves t options) = some [] := by
  refine Program.declared?_silent ?_
  unfold halves
  split
  · simp [titled, eitherWay, playedIn, one, entity?_games hbase, entity?_pairs hbase,
      entity?_slotSets hbase]
  · exact List.forall_mem_nil _

theorem declared?_mirror : Program.declared? context (mirror options) = some [] := by
  refine Program.declared?_silent ?_
  unfold mirror
  split
  · simp [titled, playedIn, entity?_games hbase, entity?_pairs hbase, entity?_counts hbase]
  · exact List.forall_mem_nil _

theorem declared?_oddFamily {family : String × Nat}
    (hfresh : context.Fresh (familyEntities family)) :
    Program.declared? context (oddFamily family.1 family.2) = some (familyEntities family) := by
  unfold oddFamily
  unfold familyEntities at hfresh ⊢
  dsimp only at hfresh ⊢
  generalize "K" ++ toString family.2 = sets at hfresh ⊢
  generalize "I" ++ toString family.2 = indices at hfresh ⊢
  have hsets : (context.add [(sets, .family 1)]).entity? sets = some (.family 1) :=
    hfresh.head.declares _ (.head _)
  have hmember : (context.add [(sets, .family 1), (indices, .set 1)]).entity? sets =
      some (.family 1) := hfresh.declares _ (.head _)
  have hindices : (context.add [(sets, .family 1), (indices, .set 1)]).entity? indices =
      some (.set 1) := hfresh.declares _ (.tail _ (.head _))
  have hbase' := hbase.add [(sets, .family 1), (indices, .set 1)]
  refine Program.declared?_quiet rfl (Program.declared?_quiet rfl (Program.declared?_cons ?_
    (Program.declared?_cons ?_ (Program.declared?_quiet ?_ rfl))))
  · simp [entity?_teams hbase]
  · simp [hsets]
  · rw [← Context.add_append]
    simp [eitherWay, playedIn, times, one, hmember, hindices, entity?_teams hbase',
      entity?_slots hbase', entity?_games hbase']

theorem declared?_homeGames (hfresh : context.Fresh (balanceEntities t)) :
    Program.declared? context (homeGames t) = some (balanceEntities t) := by
  unfold homeGames
  unfold balanceEntities at hfresh ⊢
  dsimp only
  split
  · rename_i hbalance
    rw [if_pos hbalance] at hfresh
    have hhg : (context.add [("hg", .variable 2)]).entity? "hg" = some (.variable 2) :=
      hfresh.declares _ (.head _)
    have hbase' := hbase.add [("hg", .variable 2)]
    have hvar : ∀ upper : Arith, upper.scoped (context.bind ["t", "s"]) = true →
        Statement.declared? context
          (.var ⟨"hg", .bound (.over ["t", "s"] (times "T" "S")), .integer,
          some 0, some upper⟩) = some [("hg", .variable 2)] := fun upper hupper => by
      simp [times, hupper, entity?_teams hbase, entity?_slots hbase]
    refine Program.declared?_quiet rfl (Program.declared?_quiet rfl
      (Program.declared?_cons (hvar _ ?_) (Program.declared?_quiet ?_ rfl)))
    · split <;> simp [entity?_slots hbase]
    · simp [playedIn, othersThan, times, hhg, entity?_teams hbase', entity?_slots hbase',
        entity?_games hbase']
  · rfl

end Rows

/-- A frame uses only what it declares. -/
theorem declared?_statements (hfresh : Context.Fresh {} (entities t options)) :
    Program.declared? {} (statements t options) = some (entities t options) := by
  have hshared : Program.declared? {} (heading t ++ resources t ++ sharedArrays t options) =
      some (resourceEntities ++ sharedEntities t options) := by
    rw [List.append_assoc]
    exact Program.declared?_append_nil (declared?_heading t {})
      (Program.declared?_append (declared?_resources t)
        (declared?_sharedArrays hfresh.first.first.first.rest))
  have hresources : Context.Declares (Context.add {} (resourceEntities ++ sharedEntities t options))
      resourceEntities :=
    hfresh.first.first.first.declares.mono (List.subset_append_left _ _)
  have hgames := Program.declared?_append hshared (declared?_gameVariables (t := t) hresources)
  have hbase : Context.Declares (Context.add {} (resourceEntities ++ sharedEntities t options
      ++ gameEntities t)) (baseEntities t) :=
    hfresh.first.first.declares.mono (by simp [baseEntities])
  have hfixed : Program.declared? {} (heading t ++ resources t ++ sharedArrays t options
      ++ gameVariables t ++ schedule options ++ fixedCount options) = _ :=
    Program.declared?_append_quiet (Program.declared?_append_quiet hgames
      (declared?_schedule hbase)) (declared?_fixedCount hbase)
  have hodd := Program.declared?_append hfixed (Program.declared?_flatMap hbase hfresh.first.rest
    fun _ _ _ hbase hfamily => declared?_oddFamily hbase hfamily)
  have hbase' := hbase.add ((oddFamilies t options).flatMap familyEntities)
  rw [← Context.add_append] at hbase'
  have hbreaks := Program.declared?_append_quiet hodd (declared?_breakCount hbase')
  have hhalves : Program.declared? _ (halves t options) = some [] := declared?_halves hbase'
  have hhome := Program.declared?_append (Program.declared?_append_quiet hbreaks hhalves)
    (declared?_homeGames hbase' hfresh.rest)
  have hbase'' := hbase'.add (balanceEntities t)
  rw [← Context.add_append] at hbase''
  exact Program.declared?_append_quiet hhome (declared?_mirror hbase'')

end Frame

end RoundRobin
