import Mathlib
import RoundRobin.Proofs.Steps
import RoundRobin.Zimpl.Meaning

/-! How sets and indices expand. A set lists the tuples of the members of a finite set, each once,
and an index runs over them with its symbols bound. A sum over an index is then the sum over the
finite set, and a block under an index holds when its rows hold at every member. -/

namespace RoundRobin.Zimpl

/-- What a failing map produces meets a condition throughout when each step succeeds and does. -/
theorem exists_mem_mapM_flatten {step : α → Option (List β)} {p : β → Prop} (items : List α) :
    (∃ results ∈ (items.mapM step).map List.flatten, ∀ b ∈ results, p b) ↔
      ∀ item ∈ items, ∃ results ∈ step item, ∀ b ∈ results, p b := by
  induction items with
  | nil => simp
  | cons item items ih =>
    rw [List.forall_mem_cons, ← ih, List.mapM_cons]
    cases hitem : step item with
    | none => simp
    | some first =>
      cases hitems : items.mapM step with
      | none => simp
      | some rest => simp [or_imp, forall_and]

theorem eraseDups_of_nodup [BEq α] [LawfulBEq α] {l : List α} (h : l.Nodup) :
    l.eraseDups = l := by
  induction l with
  | nil => rfl
  | cons a l ih =>
    obtain ⟨ha, hl⟩ := List.nodup_cons.mp h
    have hfilter : l.filter (fun b => !b == a) = l :=
      List.filter_eq_self.mpr fun b hb => by
        have : b ≠ a := fun hba => ha (hba ▸ hb)
        simpa using this
    rw [List.eraseDups_cons, hfilter, ih hl]

theorem abs_eq_abs (q : Rat) : q.abs = |q| := by
  rcases le_total 0 q with h | h
  · rw [Rat.abs_of_nonneg h, abs_of_nonneg h]
  · rw [Rat.abs_of_nonpos h, abs_of_nonpos h]

namespace Tuple

def one (i : Int) : Tuple := [(i : Rat)]

def two (p : Int × Int) : Tuple := [(p.1 : Rat), (p.2 : Rat)]

def three (p : (Int × Int) × Int) : Tuple := [(p.1.1 : Rat), (p.1.2 : Rat), (p.2 : Rat)]

theorem one_injective : Function.Injective one := fun i j h => by simpa [one] using h

theorem two_injective : Function.Injective two := fun p q h => by
  simp only [two, List.cons.injEq, Rat.intCast_inj, and_true] at h
  exact Prod.ext h.1 h.2

theorem three_injective : Function.Injective three := fun p q h => by
  simp only [three, List.cons.injEq, Rat.intCast_inj, and_true] at h
  exact Prod.ext (Prod.ext h.1 h.2.1) h.2.2

end Tuple

namespace Env

def bind (env : Env) (symbol : String) (value : Rat) : Env :=
  { env with symbols := (symbol, value) :: env.symbols }

@[simp] theorem params_bind (env : Env) (symbol : String) (value : Rat) :
    (env.bind symbol value).params = env.params := rfl

@[simp] theorem sets_bind (env : Env) (symbol : String) (value : Rat) :
    (env.bind symbol value).sets = env.sets := rfl

@[simp] theorem families_bind (env : Env) (symbol : String) (value : Rat) :
    (env.bind symbol value).families = env.families := rfl

@[simp] theorem subscripts_bind (env : Env) (symbol : String) (value : Rat) :
    (env.bind symbol value).subscripts = env.subscripts := rfl

@[simp] theorem lookup_symbols_bind (env : Env) (symbol name : String) (value : Rat) :
    (env.bind symbol value).symbols.lookup name =
      if name = symbol then some value else env.symbols.lookup name := by
  by_cases h : name = symbol
  · simp [bind, h]
  · rw [bind, List.lookup_cons, beq_eq_false_iff_ne.mpr h, if_neg h]

@[simp] theorem value?_bind (env : Env) (symbol name : String) (value : Rat) :
    (env.bind symbol value).value? name =
      if name = symbol then some value else env.value? name := by
  rw [value?, lookup_symbols_bind]
  split
  · rfl
  · rfl

theorem bind?_nil (env : Env) : env.bind? [] [] = some env := rfl

theorem bind?_free {env : Env} {symbol : String} {symbols : List String} {value : Rat}
    {values : Tuple} (h : env.symbols.lookup symbol = none) :
    env.bind? (symbol :: symbols) (value :: values) =
      (env.bind symbol value).bind? symbols values := by
  rw [bind?, h]
  rfl

theorem bind?_bound {env : Env} {symbol : String} {symbols : List String} {bound value : Rat}
    {values : Tuple} (h : env.symbols.lookup symbol = some bound) :
    env.bind? (symbol :: symbols) (value :: values) =
      if bound = value then env.bind? symbols values else none := by
  rw [bind?, h]

end Env

namespace Arith

variable {env : Env} {a b : Arith} {p q : Rat}

@[simp] theorem value?_name (env : Env) (symbol : String) :
    (Arith.name symbol).value? env = env.value? symbol := rfl

@[simp] theorem value?_int (env : Env) (i : Int) : (Arith.int i).value? env = some (i : Rat) := rfl

theorem value?_zero (env : Env) : (0 : Arith).value? env = some 0 := rfl

theorem value?_one (env : Env) : (1 : Arith).value? env = some 1 := rfl

theorem value?_add (ha : a.value? env = some p) (hb : b.value? env = some q) :
    (a + b).value? env = some (p + q) := by
  show (Arith.add a b).value? env = _
  rw [value?, ha, hb]
  rfl

theorem value?_sub (ha : a.value? env = some p) (hb : b.value? env = some q) :
    (a - b).value? env = some (p - q) := by
  show (Arith.sub a b).value? env = _
  rw [value?, ha, hb]
  rfl

theorem value?_mul (ha : a.value? env = some p) (hb : b.value? env = some q) :
    (a * b).value? env = some (p * q) := by
  show (Arith.mul a b).value? env = _
  rw [value?, ha, hb]
  rfl

theorem value?_min (ha : a.value? env = some p) (hb : b.value? env = some q) :
    (Arith.min a b).value? env = some (Min.min p q) := by
  rw [value?, ha, hb]
  rfl

theorem value?_half (ha : a.value? env = some p) : (a / 2).value? env = some (p / 2) := by
  show (Arith.div a (.int 2)).value? env = _
  rw [value?, ha]
  rfl

end Arith

/-- A list holds the members of a finite set, each once. -/
structure Listing (order : List α) (members : Finset α) : Prop where
  nodup : order.Nodup
  mem_iff : ∀ a, a ∈ order ↔ a ∈ members

namespace Listing

variable {order : List α} {members : Finset α}

theorem sum_eq [AddCommMonoid β] (h : Listing order members) (f : α → β) :
    (order.map f).sum = ∑ a ∈ members, f a := by
  have hperm : order.Perm members.toList :=
    (List.perm_ext_iff_of_nodup h.nodup members.nodup_toList).mpr fun a => by
      rw [h.mem_iff, Finset.mem_toList]
  rw [(hperm.map f).sum_eq, Finset.sum_map_toList]

theorem length_eq (h : Listing order members) : order.length = members.card := by
  have hperm : order.Perm members.toList :=
    (List.perm_ext_iff_of_nodup h.nodup members.nodup_toList).mpr fun a => by
      rw [h.mem_iff, Finset.mem_toList]
  rw [hperm.length_eq, Finset.length_toList]

theorem filter (h : Listing order members) (p : α → Prop) [DecidablePred p] :
    Listing (order.filter p) (members.filter p) :=
  ⟨h.nodup.filter _, fun a => by simp [h.mem_iff]⟩

theorem sdiff [DecidableEq α] (h : Listing order members) {taken : Finset α} :
    Listing (order.filter (· ∉ taken)) (members \ taken) :=
  ⟨h.nodup.filter _, fun a => by simp [h.mem_iff]⟩

theorem product {order' : List β} {members' : Finset β} (h : Listing order members)
    (h' : Listing order' members') : Listing (order.product order') (members ×ˢ members') :=
  ⟨h.nodup.product h'.nodup, fun ⟨a, b⟩ => by
    rw [List.pair_mem_product, Finset.mem_product, h.mem_iff, h'.mem_iff]⟩

theorem toFinset [DecidableEq α] (h : order.Nodup) : Listing order order.toFinset :=
  ⟨h, fun a => by simp⟩

end Listing

variable {env : Env} {tuple : α → Tuple} {members : Finset α}

/-- The tuples of a set are those of the members of a finite set, each once. -/
def SetTerm.Lists (env : Env) (set : SetTerm) (tuple : α → Tuple) (members : Finset α) : Prop :=
  ∃ order, Listing order members ∧ set.tuples? env = some (order.map tuple)

theorem Arith.value?_card {set : SetTerm} (h : set.Lists env tuple members) :
    (Arith.card set).value? env = some (members.card : Rat) := by
  obtain ⟨order, horder, htuples⟩ := h
  rw [Arith.value?, htuples, ← horder.length_eq, ← order.length_map tuple]
  rfl

namespace SetTerm

theorem lists_name {name : String} {order : List α} (h : Listing order members)
    (hname : env.sets.lookup name = some (order.map tuple)) :
    (SetTerm.name name).Lists env tuple members :=
  ⟨order, h, by rw [tuples?, hname]⟩

theorem Lists.bind {name : String} (h : (SetTerm.name name).Lists env tuple members)
    (symbol : String) (value : Rat) :
    (SetTerm.name name).Lists (env.bind symbol value) tuple members :=
  h

theorem tuples?_range {first last : Arith} {low high : Rat} (hfirst : first.value? env = some low)
    (hlast : last.value? env = some high) :
    (SetTerm.range first last).tuples? env = some (integersBetween low high) := by
  rw [tuples?, hfirst, hlast]
  rfl

theorem lists_range {first last : Arith} {members : Finset Int} {low high : Rat}
    (hfirst : first.value? env = some low) (hlast : last.value? env = some high)
    (hmembers : ∀ i : Int, i ∈ members ↔ low ≤ i ∧ i ≤ high) :
    (SetTerm.range first last).Lists env Tuple.one members := by
  let order := (List.range (high.floor - low.ceil + 1).toNat).map fun i : Nat =>
    low.ceil + (i : Int)
  have htuples : integersBetween low high = order.map Tuple.one := by
    simp [integersBetween, order, Tuple.one]
  refine ⟨order, ⟨?_, fun i => ?_⟩, ?_⟩
  · exact List.nodup_range.map fun i j h => by simpa using h
  · have hmem : i ∈ order ↔ Tuple.one i ∈ integersBetween low high := by
      rw [htuples, List.mem_map_of_injective Tuple.one_injective]
    rw [hmem, mem_integersBetween, hmembers]
    constructor
    · rintro ⟨j, hj, hlow, hhigh⟩
      rw [Tuple.one_injective hj]
      exact ⟨hlow, hhigh⟩
    · rintro ⟨hlow, hhigh⟩
      exact ⟨i, rfl, hlow, hhigh⟩
  · rw [tuples?_range hfirst hlast, htuples]

theorem values?_ints (env : Env) (ids : List Int) :
    Arith.values? env (ids.map .int) = some (ids.map (Int.cast : Int → Rat)) := by
  induction ids with
  | nil => rfl
  | cons i ids ih =>
    rw [List.map_cons, Arith.values?, ih]
    rfl

theorem lists_ids (env : Env) (ids : List Int) :
    (SetTerm.ids ids).Lists env Tuple.one ids.toFinset := by
  have hnodup : (ascending ids).Nodup := (pairwise_ascending ids).imp fun h => ne_of_lt h
  refine ⟨ascending ids, ⟨hnodup, fun i => by simp⟩, ?_⟩
  rw [SetTerm.ids, tuples?, values?_ints]
  show some (List.eraseDups _) = _
  rw [List.map_map]
  exact congrArg some (eraseDups_of_nodup (hnodup.map Tuple.one_injective))

theorem lists_single {symbol : String} {i : Int} (h : env.value? symbol = some (i : Rat)) :
    (SetTerm.single symbol).Lists env Tuple.one {i} := by
  refine ⟨[i], ⟨List.nodup_singleton i, fun a => by simp⟩, ?_⟩
  simp [SetTerm.single, tuples?, Arith.values?, Arith.value?, h, Tuple.one, List.eraseDups_cons]

theorem lists_minus {a b : SetTerm} {taken : Finset α} [DecidableEq α]
    (htuple : Function.Injective tuple) (ha : a.Lists env tuple members)
    (hb : b.Lists env tuple taken) : (SetTerm.minus a b).Lists env tuple (members \ taken) := by
  obtain ⟨as, has, hatuples⟩ := ha
  obtain ⟨bs, hbs, hbtuples⟩ := hb
  refine ⟨as.filter (· ∉ taken), has.sdiff, ?_⟩
  rw [tuples?, hatuples, hbtuples]
  show some (List.filter _ _) = _
  rw [List.filter_map]
  congr 2
  refine List.filter_congr fun x _ => ?_
  simp [htuple.eq_iff, hbs.mem_iff]

theorem joined_map {left : α → Tuple} {right : β → Tuple} (as : List α) (bs : List β) :
    joined (as.map left) (bs.map right) = (as.product bs).map fun p => left p.1 ++ right p.2 := by
  simp [joined, List.product, List.flatMap_map, List.map_flatMap, Function.comp_def]

theorem joined_nil (a : List Tuple) : joined a [[]] = a := by
  simp [joined]

theorem joined_assoc (a b c : List Tuple) : joined a (joined b c) = joined (joined a b) c := by
  simp [joined, List.flatMap_assoc, List.map_flatMap, List.flatMap_map, Function.comp_def]

theorem lists_product {a b : SetTerm} {left : α → Tuple} {right : β → Tuple}
    {others : Finset β} (ha : a.Lists env left members) (hb : b.Lists env right others) :
    (SetTerm.product [a, b]).Lists env (fun p => left p.1 ++ right p.2) (members ×ˢ others) := by
  obtain ⟨as, has, hatuples⟩ := ha
  obtain ⟨bs, hbs, hbtuples⟩ := hb
  refine ⟨as.product bs, has.product hbs, ?_⟩
  rw [tuples?, productTuples?, hatuples, productTuples?, hbtuples, productTuples?]
  show some (joined _ (joined _ _)) = _
  rw [joined_nil, joined_map]

theorem lists_pairs {a b : SetTerm} {p q : Finset Int} (ha : a.Lists env Tuple.one p)
    (hb : b.Lists env Tuple.one q) : (SetTerm.product [a, b]).Lists env Tuple.two (p ×ˢ q) :=
  lists_product ha hb

theorem lists_pairs_one {a b : SetTerm} {p : Finset (Int × Int)} {q : Finset Int}
    (ha : a.Lists env Tuple.two p) (hb : b.Lists env Tuple.one q) :
    (SetTerm.product [a, b]).Lists env Tuple.three (p ×ˢ q) :=
  lists_product ha hb

theorem lists_triples {a b c : SetTerm} {p q r : Finset Int} (ha : a.Lists env Tuple.one p)
    (hb : b.Lists env Tuple.one q) (hc : c.Lists env Tuple.one r) :
    (SetTerm.product [a, b, c]).Lists env Tuple.three ((p ×ˢ q) ×ˢ r) := by
  obtain ⟨as, has, hatuples⟩ := ha
  obtain ⟨bs, hbs, hbtuples⟩ := hb
  obtain ⟨cs, hcs, hctuples⟩ := hc
  refine ⟨(as.product bs).product cs, (has.product hbs).product hcs, ?_⟩
  rw [tuples?, productTuples?, hatuples, productTuples?, hbtuples, productTuples?, hctuples,
    productTuples?]
  show some (joined _ (joined _ (joined _ _))) = _
  rw [joined_nil, joined_assoc, joined_map, joined_map]
  rfl

end SetTerm

/-- An index runs over the members of a finite set, each once, with `inner` as what the names stand
for at a member. -/
def Index.Runs (env : Env) (index : Index) (tuple : α → Tuple) (inner : α → Env)
    (members : Finset α) : Prop :=
  ∃ order, Listing order members ∧
    index.select? env = some (order.map fun a => (tuple a, inner a))

namespace Index

variable {inner : α → Env}

/-- The members that fit the symbols that are bound already and meet the condition. -/
theorem runs_mk {symbols : List String} {domain : SetTerm} {condition : Condition}
    {fits holds : α → Prop} [DecidablePred fits] [DecidablePred holds]
    (hdomain : domain.Lists env tuple members)
    (hlength : ∀ a ∈ members, (tuple a).length = symbols.length)
    (hbind : ∀ a ∈ members, env.bind? symbols (tuple a) = if fits a then some (inner a) else none)
    (hcondition : ∀ a ∈ members, fits a → condition.holds? (inner a) = some (decide (holds a))) :
    (Index.mk symbols domain condition).Runs env tuple inner
      ((members.filter fits).filter holds) := by
  obtain ⟨order, horder, htuples⟩ := hdomain
  refine ⟨(order.filter fits).filter holds, (horder.filter fits).filter holds, ?_⟩
  have hany : (order.map tuple).any (fun t => decide (t.length ≠ symbols.length)) = false := by
    simp only [List.any_map, List.any_eq_false, Function.comp_apply, decide_eq_true_eq, not_not]
    exact fun a ha => hlength a ((horder.mem_iff a).mp ha)
  have hbound : (order.map tuple).filterMap (fun t => (env.bind? symbols t).map (t, ·)) =
      (order.filter fits).map fun a => (tuple a, inner a) := by
    rw [List.filterMap_map, ← List.filterMap_eq_map, List.filterMap_filter]
    refine List.filterMap_congr fun a ha => ?_
    rw [Function.comp_apply, hbind a ((horder.mem_iff a).mp ha)]
    by_cases h : fits a
    · simp [h]
    · simp [h]
  have hchosen : ((order.filter fits).map fun a => (tuple a, inner a)).mapM (fun x =>
      (condition.holds? x.2).map fun b => if b then some (x.1, x.2) else none) =
      some ((order.filter fits).map fun a =>
        if holds a then some (tuple a, inner a) else none) := by
    rw [List.mapM_map]
    refine mapM_total fun a ha => ?_
    obtain ⟨ha1, ha2⟩ := List.mem_filter.mp ha
    rw [Function.comp_apply, hcondition a ((horder.mem_iff a).mp ha1) (by simpa using ha2)]
    simp
  have hlast : ∀ l : List α, (l.map fun a =>
      if holds a then some (tuple a, inner a) else none).filterMap id =
      (l.filter holds).map fun a => (tuple a, inner a) := fun l => by
    rw [List.filterMap_map, ← List.filterMap_eq_map, List.filterMap_filter]
    refine List.filterMap_congr fun a _ => ?_
    by_cases h : holds a
    · simp [h]
    · simp [h]
  rw [select?, htuples]
  show (if (order.map tuple).any _ = true then _ else _) = _
  rw [hany]
  show Option.bind (List.mapM _ (List.filterMap _ _)) _ = _
  rw [hbound, hchosen]
  show some (List.filterMap id _) = _
  rw [hlast]

theorem runs_where {symbols : List String} {domain : SetTerm} {condition : Condition}
    {holds : α → Prop} [DecidablePred holds] (hdomain : domain.Lists env tuple members)
    (hlength : ∀ a ∈ members, (tuple a).length = symbols.length)
    (hbind : ∀ a, env.bind? symbols (tuple a) = some (inner a))
    (hcondition : ∀ a, condition.holds? (inner a) = some (decide (holds a))) :
    (Index.mk symbols domain condition).Runs env tuple inner (members.filter holds) := by
  have h : (Index.mk symbols domain condition).Runs env tuple inner
      ((members.filter fun _ => True).filter holds) :=
    runs_mk hdomain hlength (fun a _ => by rw [hbind, if_pos trivial]) fun a _ _ => hcondition a
  rwa [Finset.filter_true] at h

theorem runs_over {symbols : List String} {domain : SetTerm}
    (hdomain : domain.Lists env tuple members)
    (hlength : ∀ a ∈ members, (tuple a).length = symbols.length)
    (hbind : ∀ a, env.bind? symbols (tuple a) = some (inner a)) :
    (Index.over symbols domain).Runs env tuple inner members := by
  have h : (Index.over symbols domain).Runs env tuple inner (members.filter fun _ => True) :=
    runs_where hdomain hlength hbind fun a => rfl
  rwa [Finset.filter_true] at h

section Typed

variable {a b c : String} {domain : SetTerm} {condition : Condition}

theorem bind?_one (ha : env.symbols.lookup a = none) (i : Int) :
    env.bind? [a] (Tuple.one i) = some (env.bind a i) := by
  rw [Tuple.one, Env.bind?_free ha, Env.bind?_nil]

theorem bind?_two (ha : env.symbols.lookup a = none) (hb : env.symbols.lookup b = none)
    (hba : b ≠ a) (p : Int × Int) :
    env.bind? [a, b] (Tuple.two p) = some ((env.bind a p.1).bind b p.2) := by
  rw [Tuple.two, Env.bind?_free ha, Env.bind?_free (by simp [hb, hba]), Env.bind?_nil]

theorem bind?_three (ha : env.symbols.lookup a = none) (hb : env.symbols.lookup b = none)
    (hc : env.symbols.lookup c = none) (hba : b ≠ a) (hca : c ≠ a) (hcb : c ≠ b)
    (p : (Int × Int) × Int) :
    env.bind? [a, b, c] (Tuple.three p) =
      some (((env.bind a p.1.1).bind b p.1.2).bind c p.2) := by
  rw [Tuple.three, Env.bind?_free ha, Env.bind?_free (by simp [hb, hba]),
    Env.bind?_free (by simp [hc, hca, hcb]), Env.bind?_nil]

theorem runs_one {p : Finset Int} (hdomain : domain.Lists env Tuple.one p)
    (ha : env.symbols.lookup a = none) :
    (Index.over [a] domain).Runs env Tuple.one (fun i => env.bind a i) p :=
  runs_over hdomain (fun _ _ => rfl) (bind?_one ha)

theorem runs_two {p : Finset (Int × Int)} (hdomain : domain.Lists env Tuple.two p)
    (ha : env.symbols.lookup a = none) (hb : env.symbols.lookup b = none) (hba : b ≠ a) :
    (Index.over [a, b] domain).Runs env Tuple.two (fun q => (env.bind a q.1).bind b q.2) p :=
  runs_over hdomain (fun _ _ => rfl) (bind?_two ha hb hba)

theorem runs_two_where {p : Finset (Int × Int)} {holds : Int × Int → Prop} [DecidablePred holds]
    (hdomain : domain.Lists env Tuple.two p)
    (ha : env.symbols.lookup a = none) (hb : env.symbols.lookup b = none) (hba : b ≠ a)
    (hcondition : ∀ q : Int × Int,
      condition.holds? ((env.bind a q.1).bind b q.2) = some (decide (holds q))) :
    (Index.mk [a, b] domain condition).Runs env Tuple.two
      (fun q => (env.bind a q.1).bind b q.2) (p.filter holds) :=
  runs_where hdomain (fun _ _ => rfl) (bind?_two ha hb hba) hcondition

/-- A first symbol that is bound already picks the pairs that start with its value. -/
theorem runs_first_bound {p : Finset (Int × Int)} {i : Int}
    (hdomain : domain.Lists env Tuple.two p) (ha : env.symbols.lookup a = some (i : Rat))
    (hb : env.symbols.lookup b = none) :
    (Index.over [a, b] domain).Runs env Tuple.two (fun q => env.bind b q.2)
      (p.filter fun q => i = q.1) := by
  have hbind : ∀ q ∈ p, env.bind? [a, b] (Tuple.two q) =
      if i = q.1 then some (env.bind b q.2) else none := fun q _ => by
    rw [Tuple.two, Env.bind?_bound ha, Env.bind?_free hb, Env.bind?_nil]
    simp
  have h : (Index.over [a, b] domain).Runs env Tuple.two (fun q => env.bind b q.2)
      ((p.filter fun q => i = q.1).filter fun _ => True) :=
    runs_mk hdomain (fun _ _ => rfl) hbind fun _ _ _ => rfl
  rwa [Finset.filter_true] at h

/-- A second symbol that is bound already picks the pairs that end with its value. -/
theorem runs_second_bound {p : Finset (Int × Int)} {i : Int}
    (hdomain : domain.Lists env Tuple.two p) (ha : env.symbols.lookup a = none)
    (hb : env.symbols.lookup b = some (i : Rat)) (hba : b ≠ a) :
    (Index.over [a, b] domain).Runs env Tuple.two (fun q => env.bind a q.1)
      (p.filter fun q => i = q.2) := by
  have hbind : ∀ q ∈ p, env.bind? [a, b] (Tuple.two q) =
      if i = q.2 then some (env.bind a q.1) else none := fun q _ => by
    have hbound : (env.bind a q.1).symbols.lookup b = some (i : Rat) := by simp [hb, hba]
    rw [Tuple.two, Env.bind?_free ha, Env.bind?_bound hbound, Env.bind?_nil]
    simp
  have h : (Index.over [a, b] domain).Runs env Tuple.two (fun q => env.bind a q.1)
      ((p.filter fun q => i = q.2).filter fun _ => True) :=
    runs_mk hdomain (fun _ _ => rfl) hbind fun _ _ _ => rfl
  rwa [Finset.filter_true] at h

theorem runs_three {p : Finset ((Int × Int) × Int)} (hdomain : domain.Lists env Tuple.three p)
    (ha : env.symbols.lookup a = none) (hb : env.symbols.lookup b = none)
    (hc : env.symbols.lookup c = none) (hba : b ≠ a) (hca : c ≠ a) (hcb : c ≠ b) :
    (Index.over [a, b, c] domain).Runs env Tuple.three
      (fun q => ((env.bind a q.1.1).bind b q.1.2).bind c q.2) p :=
  runs_over hdomain (fun _ _ => rfl) (bind?_three ha hb hc hba hca hcb)

theorem runs_three_where {p : Finset ((Int × Int) × Int)} {holds : (Int × Int) × Int → Prop}
    [DecidablePred holds] (hdomain : domain.Lists env Tuple.three p)
    (ha : env.symbols.lookup a = none) (hb : env.symbols.lookup b = none)
    (hc : env.symbols.lookup c = none) (hba : b ≠ a) (hca : c ≠ a) (hcb : c ≠ b)
    (hcondition : ∀ q : (Int × Int) × Int,
      condition.holds? (((env.bind a q.1.1).bind b q.1.2).bind c q.2) = some (decide (holds q))) :
    (Index.mk [a, b, c] domain condition).Runs env Tuple.three
      (fun q => ((env.bind a q.1.1).bind b q.1.2).bind c q.2) (p.filter holds) :=
  runs_where hdomain (fun _ _ => rfl) (bind?_three ha hb hc hba hca hcb) hcondition

end Typed

variable {index : Index}

theorem Runs.builder (h : index.Runs env tuple inner members) :
    (SetTerm.builder index).Lists env tuple members := by
  obtain ⟨order, horder, hselect⟩ := h
  refine ⟨order, horder, ?_⟩
  rw [SetTerm.tuples?, hselect]
  show some (List.map _ _) = _
  rw [List.map_map]
  rfl

theorem Runs.expand? (h : index.Runs env tuple inner members) :
    ∃ order, Listing order members ∧ index.expand? env = some (order.map inner) := by
  obtain ⟨order, horder, hselect⟩ := h
  refine ⟨order, horder, ?_⟩
  rw [Index.expand?, hselect, Option.map_some, List.map_map]
  rfl

/-- What holds at all tuples of some indices, the first of which runs over the members of a finite
set. -/
theorem Runs.exists_mem_expandAll? {indices : List Index} {p : Env → Prop}
    (h : index.Runs env tuple inner members) :
    (∃ envs ∈ Index.expandAll? env (index :: indices), ∀ env ∈ envs, p env) ↔
      ∀ a ∈ members, ∃ envs ∈ Index.expandAll? (inner a) indices, ∀ env ∈ envs, p env := by
  obtain ⟨order, horder, hexpand⟩ := h.expand?
  have hall : Index.expandAll? env (index :: indices) =
      ((order.map inner).mapM fun env => Index.expandAll? env indices).map List.flatten := by
    rw [Index.expandAll?, hexpand, Option.map_eq_bind]
    rfl
  simp only [hall, exists_mem_mapM_flatten, List.forall_mem_map, horder.mem_iff]

end Index

namespace Linear

variable {values : Assignment}

theorem sumOf?_append (env : Env) (values : Assignment) (as bs : List Linear) :
    sumOf? env values (as ++ bs) =
      (sumOf? env values as).bind fun p => (sumOf? env values bs).map (p + ·) := by
  induction as with
  | nil => cases h : sumOf? env values bs <;> simp [sumOf?, h]
  | cons a as ih =>
    rw [List.cons_append, sumOf?, ih, sumOf?]
    cases a.value? env values <;> cases sumOf? env values as <;> cases sumOf? env values bs <;>
      simp [add_assoc]

theorem sumOf?_singleton (env : Env) (values : Assignment) (a : Linear) :
    sumOf? env values [a] = a.value? env values := by
  rw [sumOf?, sumOf?]
  cases a.value? env values <;> simp

/-- A sum has the same value in two environments in which its terms have. -/
theorem sumOf?_congr {a b : Env} {terms : List Linear}
    (h : ∀ term ∈ terms, term.value? a values = term.value? b values) :
    sumOf? a values terms = sumOf? b values terms := by
  induction terms with
  | nil => rfl
  | cons term terms ih =>
    rw [sumOf?, sumOf?, h term (.head _), ih fun other hother => h other (.tail _ hother)]

theorem sumOf?_summands (env : Env) (values : Assignment) (a : Linear) :
    sumOf? env values a.summands = a.value? env values := by
  cases a with
  | sum terms => rw [summands, value?]
  | _ => exact sumOf?_singleton env values _

theorem sumOf?_flatMap_summands (env : Env) (values : Assignment) (terms : List Linear) :
    sumOf? env values (terms.flatMap summands) = sumOf? env values terms := by
  induction terms with
  | nil => rfl
  | cons a terms ih =>
    rw [List.flatMap_cons, sumOf?_append, ih, sumOf?_summands, sumOf?]
    cases a.value? env values <;> cases sumOf? env values terms <;> rfl

/-- Opening the sums in a sum does not change its value. -/
theorem value?_plus (env : Env) (values : Assignment) (terms : List Linear) :
    (plus terms).value? env values = sumOf? env values terms := by
  rw [← sumOf?_flatMap_summands, plus]
  split
  · rename_i h
    rw [h, sumOf?_singleton]
  · rw [value?]

theorem sumOf?_map {items : List α} {term : α → Linear} {f : α → Rat}
    (h : ∀ a ∈ items, (term a).value? env values = some (f a)) :
    sumOf? env values (items.map term) = some (items.map f).sum := by
  induction items with
  | nil => rfl
  | cons a items ih =>
    rw [List.map_cons, sumOf?, h a (.head _), ih fun b hb => h b (.tail _ hb)]
    rfl

theorem sumOf?_flatMap {items : List α} {terms : α → List Linear} {f : α → Rat}
    (h : ∀ a ∈ items, sumOf? env values (terms a) = some (f a)) :
    sumOf? env values (items.flatMap terms) = some (items.map f).sum := by
  induction items with
  | nil => rfl
  | cons a items ih =>
    rw [List.flatMap_cons, sumOf?_append, h a (.head _), ih fun b hb => h b (.tail _ hb)]
    rfl

theorem value?_plus_pair {a b : Linear} {p q : Rat} (ha : a.value? env values = some p)
    (hb : b.value? env values = some q) : (plus [a, b]).value? env values = some (p + q) := by
  rw [value?_plus, sumOf?, ha, sumOf?_singleton, hb]
  rfl

theorem value?_diff {a b : Linear} {p q : Rat} (ha : a.value? env values = some p)
    (hb : b.value? env values = some q) : (Linear.diff a b).value? env values = some (p - q) := by
  rw [value?, ha, hb]
  rfl

end Linear

theorem Linear.value?_sumOver {values : Assignment} {index : Index} {body : Linear}
    {inner : α → Env} {f : α → Rat} (h : index.Runs env tuple inner members)
    (hbody : ∀ a ∈ members, body.value? (inner a) values = some (f a)) :
    (Linear.sumOver index body).value? env values = some (∑ a ∈ members, f a) := by
  obtain ⟨order, horder, hexpand⟩ := h.expand?
  have hterms : (order.map inner).mapM (fun env => body.value? env values) =
      some (order.map f) := by
    rw [List.mapM_map]
    exact mapM_total fun a ha => hbody a ((horder.mem_iff a).mp ha)
  rw [Linear.value?, hexpand, ← horder.sum_eq]
  show Option.bind (List.mapM _ _) _ = _
  rw [hterms]
  rfl

theorem Linear.value?_var {values : Assignment} {name : String} {subscripts : List Arith}
    {places : List Tuple} {place : Tuple} (hplace : Arith.values? env subscripts = some place)
    (hname : env.subscripts.lookup name = some places) (hmem : place ∈ places) :
    (Linear.var name subscripts).value? env values = some (values name place) := by
  rw [Linear.value?, hplace]
  show (if _ then _ else _) = _
  rw [if_pos (by rw [hname]; exact hmem)]
  rfl

/-- A variable has values for the tuples of the members of a finite set. -/
def Env.Ranges (env : Env) (name : String) (tuple : α → Tuple) (members : Finset α) : Prop :=
  ∃ order, Listing order members ∧ env.subscripts.lookup name = some (order.map tuple)

theorem Env.Ranges.bind {name : String} (h : env.Ranges name tuple members) (symbol : String)
    (value : Rat) : (env.bind symbol value).Ranges name tuple members :=
  h

theorem Env.Ranges.value? {values : Assignment} {name : String} {subscripts : List Arith} {a : α}
    (h : env.Ranges name tuple members) (ha : a ∈ members)
    (hplace : Arith.values? env subscripts = some (tuple a)) :
    (Linear.var name subscripts).value? env values = some (values name (tuple a)) := by
  obtain ⟨order, horder, hname⟩ := h
  exact Linear.value?_var hplace hname (List.mem_map_of_mem ((horder.mem_iff a).mpr ha))

/-- The subscripts of a variable that is declared over a set. -/
theorem SetTerm.Lists.select?_over {set : SetTerm} (h : set.Lists env tuple members) :
    ∃ order, Listing order members ∧
      VarIndex.select? env (.over set) = some (order.map fun a => (tuple a, env)) := by
  obtain ⟨order, horder, htuples⟩ := h
  refine ⟨order, horder, ?_⟩
  rw [VarIndex.select?, htuples, Option.map_some, List.map_map]
  rfl

namespace VarDecl

variable {values : Assignment} {name : String} {domain : VarDomain} {lower upper : Option Arith}

theorem holds_of_select? {decl : VarDecl} {order : List α} {inner : α → Env}
    (horder : Listing order members)
    (hselect : decl.index.select? env = some (order.map fun a => (tuple a, inner a))) :
    decl.Holds env values ↔
      ∀ a ∈ members, decl.Admits (inner a) (values decl.name (tuple a)) := by
  rw [VarDecl.Holds, hselect]
  simp only [Option.mem_some_iff, exists_eq_left', List.forall_mem_map, horder.mem_iff]

theorem holds_over {set : SetTerm} (h : set.Lists env tuple members) :
    VarDecl.Holds env values ⟨name, .over set, domain, lower, upper⟩ ↔
      ∀ a ∈ members,
        VarDecl.Admits env (values name (tuple a)) ⟨name, .over set, domain, lower, upper⟩ := by
  obtain ⟨order, horder, hselect⟩ := h.select?_over
  exact holds_of_select? horder hselect

theorem holds_bound {index : Index} {inner : α → Env} (h : index.Runs env tuple inner members) :
    VarDecl.Holds env values ⟨name, .bound index, domain, lower, upper⟩ ↔
      ∀ a ∈ members, VarDecl.Admits (inner a) (values name (tuple a))
        ⟨name, .bound index, domain, lower, upper⟩ := by
  obtain ⟨order, horder, hselect⟩ := h
  exact holds_of_select? horder hselect

theorem holds_scalar : VarDecl.Holds env values ⟨name, .scalar, domain, lower, upper⟩ ↔
    VarDecl.Admits env (values name []) ⟨name, .scalar, domain, lower, upper⟩ := by
  simp [VarDecl.Holds, VarIndex.select?]

theorem admits_binary {set : SetTerm} {value : Rat} :
    (VarDecl.binary name set).Admits env value ↔ value = 0 ∨ value = 1 := by
  constructor
  · exact fun h => h.1
  · intro h
    refine ⟨h, ⟨0, rfl, ?_⟩, fun bound hbound => nomatch hbound⟩
    rcases h with rfl | rfl
    · exact le_refl 0
    · exact zero_le_one

theorem admits_nonnegative {index : VarIndex} {value : Rat} :
    (VarDecl.nonnegative name index).Admits env value ↔ 0 ≤ value := by
  constructor
  · rintro ⟨-, ⟨low, hlow, hle⟩, -⟩
    obtain rfl : 0 = low := Option.some.inj hlow
    exact hle
  · exact fun h => ⟨trivial, ⟨0, rfl, h⟩, fun bound hbound => nomatch hbound⟩

theorem nonnegative_holds {set : SetTerm} (h : set.Lists env tuple members) :
    (VarDecl.nonnegative name (.over set)).Holds env values ↔
      ∀ a ∈ members, 0 ≤ values name (tuple a) :=
  (holds_over h).trans (forall₂_congr fun _ _ => admits_nonnegative)

theorem admits_within {index : VarIndex} {low high : Arith} {value p q : Rat}
    (hlow : low.value? env = some p) (hhigh : high.value? env = some q) :
    VarDecl.Admits env value ⟨name, index, domain, some low, some high⟩ ↔
      domain.Admits value ∧ p ≤ value ∧ value ≤ q := by
  simp [VarDecl.Admits, hlow, hhigh]

end VarDecl

theorem Row.holds_iff {values : Assignment} {row : Row} {a b : Rat}
    (ha : row.lhs.value? env values = some a) (hb : row.rhs.value? env values = some b) :
    row.Holds env values ↔ row.relation.Holds a b := by
  simp [Row.Holds, ha, hb]

namespace Subto

variable {values : Assignment} {name : String} {rows : List Row}

theorem holds_rows : Subto.Holds env values ⟨name, [], rows⟩ ↔
    ∀ row ∈ rows, row.Holds env values := by
  simp [Subto.Holds, Index.expandAll?]

theorem holds_row {row : Row} : Subto.Holds env values ⟨name, [], [row]⟩ ↔
    row.Holds env values := by
  simp [holds_rows]

theorem holds_forall {index : Index} {indices : List Index} {inner : α → Env}
    (h : index.Runs env tuple inner members) :
    Subto.Holds env values ⟨name, index :: indices, rows⟩ ↔
      ∀ a ∈ members, Subto.Holds (inner a) values ⟨name, indices, rows⟩ := by
  simp only [Subto.Holds, h.exists_mem_expandAll?]

end Subto

end RoundRobin.Zimpl
