import Mathlib
import RoundRobin.Proofs.Written.Chain

/-! Arithmetic, sets and indices read back. Sums and products associate to the left where they are
read, so the right operand of a sum or product that is one itself is opened; nothing else
changes. -/

namespace RoundRobin.Zimpl

open Written

/-- The sum of two terms as it is read: what the second adds is added one by one. -/
def Arith.plus : Arith → Arith → Arith
  | a, .add b c => (a.plus b).plus c
  | a, .sub b c => .sub (a.plus b) c
  | a, b => .add a b

/-- The product of two terms as it is read. -/
def Arith.times : Arith → Arith → Arith
  | a, .mul b c => (a.times b).times c
  | a, .div b c => .div (a.times b) c
  | a, b => .mul a b

mutual

/-- The term that is read from the text of a term. -/
def Arith.asRead : Arith → Arith
  | .int value => .int value
  | .name symbol => .name symbol
  | .add a b => a.asRead.plus b.asRead
  | .sub a b => .sub a.asRead b.asRead
  | .mul a b => a.asRead.times b.asRead
  | .div a b => .div a.asRead b.asRead
  | .floor a => .floor a.asRead
  | .min a b => .min a.asRead b.asRead
  | .card set => .card set.asRead

def Arith.allAsRead : List Arith → List Arith
  | [] => []
  | a :: as => a.asRead :: Arith.allAsRead as

def SetTerm.asRead : SetTerm → SetTerm
  | .name set => .name set
  | .member family index => .member family index.asRead
  | .range first last => .range first.asRead last.asRead
  | .list elements => .list (Arith.allAsRead elements)
  | .product factors => setProduct (SetTerm.allAsRead factors)
  | .minus a b => .minus a.asRead b.asRead
  | .builder index => .builder index.asRead
  | .subsets set size => .subsets set.asRead size
  | .indexset family => .indexset family

def SetTerm.allAsRead : List SetTerm → List SetTerm
  | [] => []
  | s :: ss => s.asRead :: SetTerm.allAsRead ss

def Index.asRead : Index → Index
  | .mk symbols domain condition => .mk symbols domain.asRead condition.asRead

def Condition.asRead : Condition → Condition
  | .always => .always
  | .ne a b => .ne a.asRead b.asRead
  | .lt a b => .lt a.asRead b.asRead

end

theorem Arith.allAsRead_eq_map (as : List Arith) : Arith.allAsRead as = as.map Arith.asRead := by
  induction as with
  | nil => rfl
  | cons a as ih => simp [Arith.allAsRead, ih]

theorem SetTerm.allAsRead_eq_map (ss : List SetTerm) :
    SetTerm.allAsRead ss = ss.map SetTerm.asRead := by
  induction ss with
  | nil => rfl
  | cons s ss ih => simp [SetTerm.allAsRead, ih]

theorem Arith.level_plus (a : Arith) : (b : Arith) → (a.plus b).level = 1
  | .add b c => (a.plus b).level_plus c
  | .sub _ _ | .int _ | .name _ | .mul _ _ | .div _ _ | .floor _ | .min _ _ | .card _ => rfl

theorem Arith.level_times (a : Arith) : (b : Arith) → (a.times b).level = 2
  | .mul b c => (a.times b).level_times c
  | .div _ _ | .int _ | .name _ | .add _ _ | .sub _ _ | .floor _ | .min _ _ | .card _ => rfl

theorem Arith.level_asRead (a : Arith) : a.asRead.level = a.level := by
  cases a with
  | add a b => exact a.asRead.level_plus b.asRead
  | mul a b => exact a.asRead.level_times b.asRead
  | _ => rfl

theorem Arith.times_times (a b : Arith) : (c : Arith) → a.times (b.times c) = (a.times b).times c
  | .mul c d => by
    rw [Arith.times, Arith.times_times a (b.times c) d, Arith.times_times a b c]
    rfl
  | .div c d => by
    rw [Arith.times, Arith.times, Arith.times_times a b c]
    rfl
  | .int _ | .name _ | .add _ _ | .sub _ _ | .floor _ | .min _ _ | .card _ => rfl

theorem Arith.plus_plus (a b : Arith) : (c : Arith) → a.plus (b.plus c) = (a.plus b).plus c
  | .add c d => by
    rw [Arith.plus, Arith.plus_plus a (b.plus c) d, Arith.plus_plus a b c]
    rfl
  | .sub c d => by
    rw [Arith.plus, Arith.plus, Arith.plus_plus a b c]
    rfl
  | .int _ | .name _ | .mul _ _ | .div _ _ | .floor _ | .min _ _ | .card _ => rfl

theorem Arith.plus_of_level {b : Arith} (h : b.level ≠ 1) (a : Arith) : a.plus b = .add a b := by
  cases b <;> first | rfl | exact absurd rfl h

theorem Arith.times_of_level {b : Arith} (h : b.level ≠ 2) (a : Arith) : a.times b = .mul a b := by
  cases b <;> first | rfl | exact absurd rfl h

/-- What is read behind a plus joins the terms to the left of it one by one. -/
def Linear.sumWith : Linear → Arith → Linear
  | left, .add a b => (left.sumWith a).sumWith b
  | left, .sub a b => differenceOf (left.sumWith a) (.const b)
  | left, a => sumOf left (.const a)

theorem Linear.sumWith_of_level {a : Arith} (h : a.level ≠ 1) (left : Linear) :
    left.sumWith a = sumOf left (.const a) := by
  cases a <;> first | rfl | exact absurd rfl h

theorem Linear.sumWith_plus (a : Arith) : (b : Arith) → (left : Linear) →
    left.sumWith (a.plus b) = (left.sumWith a).sumWith b
  | .add b c, left => by
    rw [Arith.plus, Linear.sumWith_plus (a.plus b) c, Linear.sumWith_plus a b]
    rfl
  | .sub b c, left => by
    rw [Arith.plus, Linear.sumWith, Linear.sumWith_plus a b]
    rfl
  | .int _, _ | .name _, _ | .mul _ _, _ | .div _ _, _ | .floor _, _ | .min _ _, _
  | .card _, _ => rfl

theorem Linear.sumWith_const : (b a : Arith) → (Linear.const a).sumWith b = .const (a.plus b)
  | .add b c, a => by
    rw [Linear.sumWith, Linear.sumWith_const b a, Linear.sumWith_const c]
    rfl
  | .sub b c, a => by
    rw [Linear.sumWith, Linear.sumWith_const b a]
    rfl
  | .int _, _ | .name _, _ | .mul _ _, _ | .div _ _, _ | .floor _, _ | .min _ _, _
  | .card _, _ => rfl

section Reads

variable (vars : List String)

/-- The sum that a term to the left goes on with. -/
def sums (level : Nat) (left : Linear) : Reader Linear :=
  chain (grammar vars (level + 1)).product sumOperator? left

def products (level : Nat) (left : Linear) : Reader Linear :=
  chain (grammar vars (level + 1)).operand productOperator? left

def differences (level : Nat) (left : SetTerm) : Reader SetTerm :=
  chain (grammar vars (level + 1)).factors setOperator? left

section Strengths

variable (tokens : List Token) (value : Arith)

/-- Some tokens read as a value that a sum may go on from, by any grammar of a level above their
number. -/
def ReadsExpr : Prop := ∀ (level : Nat) (rest : List Token), tokens.length ≤ level →
  Avoids ['[', '*', '/'] rest →
  (grammar vars (level + 1)).expr (tokens ++ rest) = sums vars level (.const value) rest

/-- Behind a plus, a sum goes on over some tokens and adds a value. -/
def ReadsSum : Prop := ∀ (left : Linear) (level : Nat) (rest : List Token), tokens.length ≤ level →
  Avoids ['[', '*', '/'] rest →
  sums vars level left (.symbol '+' :: (tokens ++ rest)) = sums vars level (left.sumWith value) rest

def ReadsProduct : Prop := ∀ (level : Nat) (rest : List Token), tokens.length ≤ level →
  Avoids ['['] rest →
  (grammar vars (level + 1)).product (tokens ++ rest) = products vars level (.const value) rest

def ReadsTimes : Prop := ∀ (left : Arith) (level : Nat) (rest : List Token), tokens.length ≤ level →
  Avoids ['['] rest →
  products vars level (.const left) (.symbol '*' :: (tokens ++ rest)) =
    products vars level (.const (left.times value)) rest

def ReadsOperand : Prop := ∀ (level : Nat) (rest : List Token), tokens.length ≤ level →
  Avoids ['['] rest →
  (grammar vars (level + 1)).operand (tokens ++ rest) = some (.const value, rest)

end Strengths

/-- How arithmetic reads back at each strength of binding. -/
structure Arith.Reads (a : Arith) : Prop where
  expr : ReadsExpr vars a.tokens a.asRead
  sum : ReadsSum vars a.tokens a.asRead
  product : ReadsProduct vars (encloseTokens 2 a.level a.tokens) a.asRead
  times : ReadsTimes vars (encloseTokens 2 a.level a.tokens) a.asRead
  operand : ReadsOperand vars (encloseTokens 3 a.level a.tokens) a.asRead

variable {vars} {level : Nat} {tokens rest : List Token}

theorem sums_stop (h : Avoids ['+', '-'] rest) (left : Linear) :
    sums vars level left rest = some (left, rest) := chain_stop h.sumOperator?

theorem products_stop (h : Avoids ['*', '/'] rest) (left : Linear) :
    products vars level left rest = some (left, rest) := chain_stop h.productOperator?

theorem differences_stop (h : Avoids ['\\'] rest) (left : SetTerm) :
    differences vars level left rest = some (left, rest) := chain_stop h.setOperator?

theorem expr_eq {first : Linear}
    (h : (grammar vars (level + 1)).product tokens = some (first, rest)) :
    (grammar vars (level + 1)).expr tokens = sums vars level first rest := chained_eq h

theorem product_eq {first : Linear}
    (h : (grammar vars (level + 1)).operand tokens = some (first, rest)) :
    (grammar vars (level + 1)).product tokens = products vars level first rest := chained_eq h

theorem set_eq {first : SetTerm}
    (h : (grammar vars (level + 1)).factors tokens = some (first, rest)) :
    (grammar vars (level + 1)).set tokens = differences vars level first rest := chained_eq h

theorem parenTokens_append (tokens rest : List Token) :
    parenTokens tokens ++ rest = .symbol '(' :: (tokens ++ .symbol ')' :: rest) := by
  simp [parenTokens]

theorem length_parenTokens (tokens : List Token) :
    (parenTokens tokens).length = tokens.length + 2 := by
  simp [parenTokens]

/-- A term in parentheses is an operand. -/
theorem operand_parenTokens {term : Linear}
    (h : (grammar vars level).expr (tokens ++ .symbol ')' :: rest) =
      some (term, .symbol ')' :: rest)) :
    (grammar vars (level + 1)).operand (parenTokens tokens ++ rest) = some (term, rest) := by
  rw [parenTokens_append]
  exact closing_eq h

section Strengths

variable {value : Arith}

/-- Some tokens read in front of what no sum goes on with. -/
theorem ReadsExpr.whole (h : ReadsExpr vars tokens value) (hlength : tokens.length < level)
    (hrest : Avoids ['[', '*', '/', '+', '-'] rest) :
    (grammar vars level).expr (tokens ++ rest) = some (.const value, rest) := by
  obtain ⟨level, rfl⟩ := Nat.exists_eq_add_one_of_ne_zero (Nat.ne_zero_of_lt hlength)
  rw [h _ _ (Nat.le_of_lt_succ hlength) (hrest.mono (by decide))]
  exact sums_stop (hrest.mono (by decide)) _

theorem ReadsExpr.arith (h : ReadsExpr vars tokens value) (hlength : tokens.length < level)
    (hrest : Avoids ['[', '*', '/', '+', '-'] rest) :
    (grammar vars level).arith (tokens ++ rest) = some (value, rest) := by
  rw [Grammar.arith, h.whole hlength hrest]

theorem ReadsExpr.paren (h : ReadsExpr vars tokens value) :
    ReadsOperand vars (parenTokens tokens) value := by
  intro level rest hlength _
  rw [length_parenTokens] at hlength
  exact operand_parenTokens (h.whole (by omega) (avoids_symbol (by decide) _))

theorem ReadsOperand.product (h : ReadsOperand vars tokens value) :
    ReadsProduct vars tokens value :=
  fun _ _ hlength hrest => product_eq (h _ _ hlength hrest)

theorem ReadsOperand.times (h : ReadsOperand vars tokens value) (hlevel : value.level ≠ 2) :
    ReadsTimes vars tokens value := by
  intro left level rest hlength hrest
  rw [Arith.times_of_level hlevel]
  exact chain_step rfl (h _ _ hlength hrest) (by simp) rfl

theorem ReadsProduct.whole (h : ReadsProduct vars tokens value) (hlength : tokens.length ≤ level)
    (hrest : Avoids ['[', '*', '/'] rest) :
    (grammar vars (level + 1)).product (tokens ++ rest) = some (.const value, rest) := by
  rw [h _ _ hlength (hrest.mono (by decide))]
  exact products_stop (hrest.mono (by decide)) _

theorem ReadsProduct.expr (h : ReadsProduct vars tokens value) : ReadsExpr vars tokens value :=
  fun _ _ hlength hrest => expr_eq (h.whole hlength hrest)

theorem ReadsProduct.sum (h : ReadsProduct vars tokens value) (hlevel : value.level ≠ 1) :
    ReadsSum vars tokens value := by
  intro left level rest hlength hrest
  rw [Linear.sumWith_of_level hlevel]
  exact chain_step rfl (h.whole hlength hrest) (by simp) rfl

end Strengths

theorem operand_int (value : Int) :
    (grammar vars (level + 1)).operand (intTokens value ++ rest) =
      some (.const (.int value), rest) :=
  read_intTokens (fun i => Linear.const (.int i)) (fun _ => rfl) (fun _ => rfl) value

namespace Arith.Reads

variable {a : Arith}

theorem of_sum (hlevel : a.level = 1) (hexpr : ReadsExpr vars a.tokens a.asRead)
    (hsum : ReadsSum vars a.tokens a.asRead) : Arith.Reads vars a := by
  have h2 : encloseTokens 2 a.level a.tokens = parenTokens a.tokens := if_pos (by omega)
  have h3 : encloseTokens 3 a.level a.tokens = parenTokens a.tokens := if_pos (by omega)
  have hread : a.asRead.level ≠ 2 := by rw [Arith.level_asRead]; omega
  exact ⟨hexpr, hsum, h2 ▸ hexpr.paren.product, h2 ▸ hexpr.paren.times hread, h3 ▸ hexpr.paren⟩

theorem of_product (hlevel : a.level = 2) (hproduct : ReadsProduct vars a.tokens a.asRead)
    (htimes : ReadsTimes vars a.tokens a.asRead) : Arith.Reads vars a := by
  have h2 : encloseTokens 2 a.level a.tokens = a.tokens := if_neg (by omega)
  have h3 : encloseTokens 3 a.level a.tokens = parenTokens a.tokens := if_pos (by omega)
  have hread : a.asRead.level ≠ 1 := by rw [Arith.level_asRead]; omega
  exact ⟨hproduct.expr, hproduct.sum hread, h2.symm ▸ hproduct, h2.symm ▸ htimes,
    h3 ▸ hproduct.expr.paren⟩

theorem of_operand (hlevel : a.level = 3) (hoperand : ReadsOperand vars a.tokens a.asRead) :
    Arith.Reads vars a := by
  have h2 : encloseTokens 2 a.level a.tokens = a.tokens := if_neg (by omega)
  have h3 : encloseTokens 3 a.level a.tokens = a.tokens := if_neg (by omega)
  have hread : a.asRead.level = 3 := by rw [Arith.level_asRead]; omega
  exact ⟨hoperand.product.expr, hoperand.product.sum (by omega), h2.symm ▸ hoperand.product,
    h2.symm ▸ hoperand.times (by omega), h3.symm ▸ hoperand⟩

theorem arith (h : Arith.Reads vars a) (hlength : a.tokens.length < level)
    (hrest : Avoids ['[', '*', '/', '+', '-'] rest) :
    (grammar vars level).arith (a.tokens ++ rest) = some (a.asRead, rest) :=
  h.expr.arith hlength hrest

variable {b : Arith}

theorem add (ha : Arith.Reads vars a) (hb : Arith.Reads vars b) : Arith.Reads vars (.add a b) := by
  refine of_sum rfl ?_ ?_
  · intro level rest hlength hrest
    have hlengths : a.tokens.length ≤ level ∧ b.tokens.length ≤ level := by
      simp only [Arith.tokens, List.length_append] at hlength
      omega
    calc (grammar vars (level + 1)).expr ((Arith.add a b).tokens ++ rest)
        = (grammar vars (level + 1)).expr (a.tokens ++ .symbol '+' :: (b.tokens ++ rest)) := by
          simp [Arith.tokens]
      _ = sums vars level (.const a.asRead) (.symbol '+' :: (b.tokens ++ rest)) :=
          ha.expr _ _ hlengths.1 (avoids_symbol (by decide) _)
      _ = sums vars level ((Linear.const a.asRead).sumWith b.asRead) rest :=
          hb.sum _ _ _ hlengths.2 hrest
      _ = sums vars level (.const (a.asRead.plus b.asRead)) rest := by
          rw [Linear.sumWith_const]
  · intro left level rest hlength hrest
    have hlengths : a.tokens.length ≤ level ∧ b.tokens.length ≤ level := by
      simp only [Arith.tokens, List.length_append] at hlength
      omega
    calc sums vars level left (.symbol '+' :: ((Arith.add a b).tokens ++ rest))
        =
          sums vars level left
            (.symbol '+' :: (a.tokens ++ .symbol '+' :: (b.tokens ++ rest))) := by
          simp [Arith.tokens]
      _ = sums vars level (left.sumWith a.asRead) (.symbol '+' :: (b.tokens ++ rest)) :=
          ha.sum left _ _ hlengths.1 (avoids_symbol (by decide) _)
      _ = sums vars level ((left.sumWith a.asRead).sumWith b.asRead) rest :=
          hb.sum _ _ _ hlengths.2 hrest
      _ = sums vars level (left.sumWith (a.asRead.plus b.asRead)) rest := by
          rw [Linear.sumWith_plus]

theorem sub (ha : Arith.Reads vars a) (hb : Arith.Reads vars b) : Arith.Reads vars (.sub a b) := by
  have htokens : ∀ rest, (Arith.sub a b).tokens ++ rest =
      a.tokens ++ .symbol '-' :: (encloseTokens 2 b.level b.tokens ++ rest) := by
    simp [Arith.tokens]
  have hlengths : ∀ {level}, (Arith.sub a b).tokens.length ≤ level →
      a.tokens.length ≤ level ∧ (encloseTokens 2 b.level b.tokens).length ≤ level := by
    intro level hlength
    simp only [Arith.tokens, List.length_append] at hlength
    omega
  have hminus : ∀ (left : Linear) (level : Nat) (rest : List Token),
      (encloseTokens 2 b.level b.tokens).length ≤ level → Avoids ['[', '*', '/'] rest →
      sums vars level left (.symbol '-' :: (encloseTokens 2 b.level b.tokens ++ rest)) =
        sums vars level (differenceOf left (.const b.asRead)) rest :=
    fun left level rest hlength hrest =>
      chain_step rfl (hb.product.whole hlength hrest) (by simp) rfl
  refine of_sum rfl ?_ ?_
  · intro level rest hlength hrest
    rw [htokens, ha.expr _ _ (hlengths hlength).1 (avoids_symbol (by decide) _),
      hminus _ _ _ (hlengths hlength).2 hrest]
    rfl
  · intro left level rest hlength hrest
    rw [htokens, ha.sum _ _ _ (hlengths hlength).1 (avoids_symbol (by decide) _),
      hminus _ _ _ (hlengths hlength).2 hrest]
    rfl

theorem mul (ha : Arith.Reads vars a) (hb : Arith.Reads vars b) : Arith.Reads vars (.mul a b) := by
  have htokens : ∀ rest, (Arith.mul a b).tokens ++ rest =
      encloseTokens 2 a.level a.tokens ++ .symbol '*' ::
        (encloseTokens 2 b.level b.tokens ++ rest) := by
    simp [Arith.tokens]
  have hlengths : ∀ {level}, (Arith.mul a b).tokens.length ≤ level →
      (encloseTokens 2 a.level a.tokens).length ≤ level ∧
        (encloseTokens 2 b.level b.tokens).length ≤ level := by
    intro level hlength
    simp only [Arith.tokens, List.length_append] at hlength
    omega
  refine of_product rfl ?_ ?_
  · intro level rest hlength hrest
    rw [htokens, ha.product _ _ (hlengths hlength).1 (avoids_symbol (by decide) _),
      hb.times _ _ _ (hlengths hlength).2 hrest]
    rfl
  · intro left level rest hlength hrest
    rw [htokens, ha.times _ _ _ (hlengths hlength).1 (avoids_symbol (by decide) _),
      hb.times _ _ _ (hlengths hlength).2 hrest, ← Arith.times_times]
    rfl

theorem div (ha : Arith.Reads vars a) (hb : Arith.Reads vars b) : Arith.Reads vars (.div a b) := by
  have htokens : ∀ rest, (Arith.div a b).tokens ++ rest =
      encloseTokens 2 a.level a.tokens ++ .symbol '/' ::
        (encloseTokens 3 b.level b.tokens ++ rest) := by
    simp [Arith.tokens]
  have hlengths : ∀ {level}, (Arith.div a b).tokens.length ≤ level →
      (encloseTokens 2 a.level a.tokens).length ≤ level ∧
        (encloseTokens 3 b.level b.tokens).length ≤ level := by
    intro level hlength
    simp only [Arith.tokens, List.length_append] at hlength
    omega
  have hover : ∀ (left : Arith) (level : Nat) (rest : List Token),
      (encloseTokens 3 b.level b.tokens).length ≤ level → Avoids ['['] rest →
      products vars level (.const left)
        (.symbol '/' :: (encloseTokens 3 b.level b.tokens ++ rest)) =
        products vars level (.const (.div left b.asRead)) rest :=
    fun left level rest hlength hrest =>
      chain_step rfl (hb.operand _ _ hlength hrest) (by simp) rfl
  refine of_product rfl ?_ ?_
  · intro level rest hlength hrest
    rw [htokens, ha.product _ _ (hlengths hlength).1 (avoids_symbol (by decide) _),
      hover _ _ _ (hlengths hlength).2 hrest]
    rfl
  · intro left level rest hlength hrest
    rw [htokens, ha.times _ _ _ (hlengths hlength).1 (avoids_symbol (by decide) _),
      hover _ _ _ (hlengths hlength).2 hrest]
    rfl

theorem int (value : Int) : Arith.Reads vars (.int value) :=
  of_operand rfl fun _ _ _ _ => operand_int value

theorem name {symbol : String} (hname : isName symbol = true) (hvars : symbol ∉ vars) :
    Arith.Reads vars (.name symbol) := by
  refine of_operand rfl fun level rest _ hrest => ?_
  have hreference : (grammar vars level).readOperand vars (.word symbol :: rest) = _ :=
    Grammar.readOperand_name hname rest
  rw [Grammar.reference_of_avoids hrest, if_neg hvars] at hreference
  exact hreference

theorem floor (ha : Arith.Reads vars a) : Arith.Reads vars (.floor a) := by
  refine of_operand rfl fun level rest hlength _ => ?_
  have hlength : a.tokens.length < level := by
    simp only [Arith.tokens, List.length_append, List.length_cons] at hlength
    omega
  have harith := ha.arith hlength (avoids_symbol (c := ')') (by decide) rest)
  have htokens : (Arith.floor a).tokens ++ rest =
      .word "floor" :: .symbol '(' :: (a.tokens ++ .symbol ')' :: rest) := by
    simp [Arith.tokens]
  rw [htokens]
  exact mapped_eq (enclosed_eq harith)

end Arith.Reads

theorem length_le_joinTokens {items : List (List Token)} {item : List Token} (h : item ∈ items)
    (mark : Token) : item.length ≤ (joinTokens mark items).length := by
  cases items with
  | nil => nomatch h
  | cons first items =>
    rw [joinTokens_cons, List.length_append]
    rcases List.mem_cons.mp h with rfl | h
    · omega
    · have hsub := (List.sublist_flatten_of_mem
        (List.mem_map_of_mem (f := (mark :: ·)) h)).length_le
      rw [List.flatMap_def]
      simp only [List.length_cons] at hsub
      omega

/-- No arithmetic goes on into some tokens. -/
abbrev AvoidsOperators : List Token → Prop := Avoids ['[', '*', '/', '+', '-']

/-- One or more terms with commas between them. -/
theorem ariths_eq {terms : List Arith} (hne : terms ≠ []) (h : ∀ a ∈ terms, Arith.Reads vars a)
    (hlength : (joinTokens (.symbol ',') (terms.map Arith.tokens)).length < level)
    (hrest : AvoidsOperators rest) (hstop : rest.head? ≠ some (.symbol ',')) :
    (grammar vars level).ariths (joinTokens (.symbol ',') (terms.map Arith.tokens) ++ rest) =
      some (terms.map Arith.asRead, rest) := by
  refine separated_eq AvoidsOperators (fun _ => avoids_symbol (by decide) _) hrest hstop hne ?_
  intro a ha rest hrest
  have hle := length_le_joinTokens (List.mem_map_of_mem (f := Arith.tokens) ha) (.symbol ',')
  exact (h a ha).arith (by omega) hrest

namespace Arith.Reads

variable {a b : Arith}

theorem min (ha : Arith.Reads vars a) (hb : Arith.Reads vars b) : Arith.Reads vars (.min a b) := by
  refine of_operand rfl fun level rest hlength _ => ?_
  have htokens : (Arith.min a b).tokens ++ rest = .word "min" :: .symbol '(' ::
      (joinTokens (.symbol ',') ([a, b].map Arith.tokens) ++ .symbol ')' :: rest) := by
    simp [Arith.tokens, joinTokens]
  have hlength : (joinTokens (.symbol ',') ([a, b].map Arith.tokens)).length < level := by
    simp [Arith.tokens, joinTokens] at hlength ⊢
    omega
  have hreads : ∀ c ∈ [a, b], Arith.Reads vars c := by simp [ha, hb]
  have hariths := ariths_eq (List.cons_ne_nil a [b]) hreads hlength
    (avoids_symbol (c := ')') (by decide) rest) (by simp)
  have hmin : (grammar vars level).minimum (.symbol '(' ::
      (joinTokens (.symbol ',') ([a, b].map Arith.tokens) ++ .symbol ')' :: rest)) =
        some (.const (.min a.asRead b.asRead), rest) := by
    rw [Grammar.minimum, enclosed_eq hariths]
    rfl
  rw [htokens]
  exact hmin

end Arith.Reads

end Reads

end RoundRobin.Zimpl
