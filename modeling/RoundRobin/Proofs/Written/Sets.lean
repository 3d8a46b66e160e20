import Mathlib
import RoundRobin.Proofs.Written.Arithmetic

/-! Sets and indices read back, and with them all legible arithmetic. -/

namespace RoundRobin.Zimpl

open Written

section Reads

variable (vars : List String)

section Strengths

variable (tokens : List Token) (value : SetTerm)

/-- Some tokens read as a set that a difference may go on from. -/
def ReadsSet : Prop := ∀ (level : Nat) (rest : List Token), tokens.length ≤ level →
  Avoids ['[', '*'] rest →
  (grammar vars (level + 1)).set (tokens ++ rest) = differences vars level value rest

def ReadsFactors : Prop := ∀ (level : Nat) (rest : List Token), tokens.length ≤ level →
  Avoids ['[', '*'] rest → (grammar vars (level + 1)).factors (tokens ++ rest) = some (value, rest)

def ReadsAtom : Prop := ∀ (level : Nat) (rest : List Token), tokens.length ≤ level →
  Avoids ['['] rest → (grammar vars (level + 1)).atom (tokens ++ rest) = some (value, rest)

end Strengths

/-- How a set reads back at each strength of binding. -/
structure SetTerm.Reads (s : SetTerm) : Prop where
  set : ReadsSet vars s.tokens s.asRead
  factors : s.isDifference = false → ReadsFactors vars s.tokens s.asRead
  atom : ReadsAtom vars s.factorToken s.asRead

/-- The signs behind an index: of a sum or a block, of brackets, or of a set in braces. -/
abbrev indexEnds : List Char := [':', ']', '\x7d']

def Index.Reads (index : Index) : Prop :=
  ∀ (level : Nat) (rest : List Token), index.tokens.length < level → ∀ c ∈ indexEnds,
    (grammar vars level).index (index.tokens ++ .symbol c :: rest) =
      some (index.asRead, .symbol c :: rest)

def Condition.Reads (condition : Condition) : Prop :=
  ∀ (level : Nat) (rest : List Token), condition.tokens.length < level → ∀ c ∈ indexEnds,
    (grammar vars level).condition (condition.tokens ++ .symbol c :: rest) =
      some (condition.asRead, .symbol c :: rest)

variable {vars} {level : Nat} {tokens rest : List Token}

theorem avoids_indexEnds {c : Char} (hc : c ∈ indexEnds) (rest : List Token) :
    Avoids ['[', '*', '/', '+', '-', '\\'] (.symbol c :: rest) := by
  have hc : c = ':' ∨ c = ']' ∨ c = '\x7d' := by simpa using hc
  rcases hc with rfl | rfl | rfl <;> exact avoids_symbol (by decide) rest

theorem separated_single {α : Type} {item : Reader α} {mark : Token} {value : α}
    (h : item tokens = some (value, rest)) (hstop : rest.head? ≠ some mark) :
    separated mark item tokens = some ([value], rest) := by
  have hnone : ∀ token ∈ rest.head?, (listing mark token : Option (List α → α → _)) = none :=
    fun token htoken => listing_of_ne fun heq => hstop (heq ▸ htoken)
  have hchain : chain item (listing mark) [value] rest = some ([value], rest) := chain_stop hnone
  simp [separated, h, hchain]

section Strengths

variable {value : SetTerm}

theorem ReadsSet.whole (h : ReadsSet vars tokens value) (hlength : tokens.length < level)
    (hrest : Avoids ['[', '*', '\\'] rest) :
    (grammar vars level).set (tokens ++ rest) = some (value, rest) := by
  obtain ⟨level, rfl⟩ := Nat.exists_eq_add_one_of_ne_zero (Nat.ne_zero_of_lt hlength)
  rw [h _ _ (Nat.le_of_lt_succ hlength) (hrest.mono (by decide))]
  exact differences_stop (hrest.mono (by decide)) _

theorem ReadsSet.paren (h : ReadsSet vars tokens value) :
    ReadsAtom vars (parenTokens tokens) value := by
  intro level rest hlength _
  rw [length_parenTokens] at hlength
  have hset : (grammar vars level).set (tokens ++ .symbol ')' :: rest) = _ :=
    h.whole (by omega) (avoids_symbol (by decide) _)
  rw [parenTokens_append]
  exact closing_eq hset

theorem ReadsAtom.factors (h : ReadsAtom vars tokens value) : ReadsFactors vars tokens value := by
  intro level rest hlength hrest
  have hatom := h level rest hlength (hrest.mono (by decide))
  have hstop : rest.head? ≠ some (.symbol '*') := hrest '*' (by decide)
  exact mapped_eq (separated_single hatom hstop)

theorem ReadsFactors.set (h : ReadsFactors vars tokens value) : ReadsSet vars tokens value :=
  fun _ _ hlength hrest => set_eq (h _ _ hlength hrest)

end Strengths

theorem atom_brace (tokens : List Token) :
    (grammar vars (level + 1)).atom (.symbol '\x7b' :: tokens) =
      (grammar vars level).braces tokens :=
  rfl

namespace SetTerm.Reads

variable {s t : SetTerm}

theorem of_atom (hcompound : s.isCompound = false) (hatom : ReadsAtom vars s.tokens s.asRead) :
    SetTerm.Reads vars s := by
  have hfactor : s.factorToken = s.tokens := if_neg (by simp [hcompound])
  exact ⟨hatom.factors.set, fun _ => hatom.factors, hfactor.symm ▸ hatom⟩

theorem of_factors (hcompound : s.isCompound = true)
    (hfactors : ReadsFactors vars s.tokens s.asRead) : SetTerm.Reads vars s := by
  have hfactor : s.factorToken = parenTokens s.tokens := if_pos hcompound
  exact ⟨hfactors.set, fun _ => hfactors, hfactor.symm ▸ hfactors.set.paren⟩

theorem whole (h : SetTerm.Reads vars s) (hlength : s.tokens.length < level)
    (hrest : Avoids ['[', '*', '\\'] rest) :
    (grammar vars level).set (s.tokens ++ rest) = some (s.asRead, rest) :=
  h.set.whole hlength hrest

theorem minus (hs : SetTerm.Reads vars s) (ht : SetTerm.Reads vars t)
    (hdifference : t.isDifference = false) : SetTerm.Reads vars (.minus s t) := by
  have hset : ReadsSet vars (SetTerm.minus s t).tokens (SetTerm.minus s t).asRead := by
    intro level rest hlength hrest
    have hlengths : s.tokens.length ≤ level ∧ t.tokens.length ≤ level := by
      simp only [SetTerm.tokens, List.length_append] at hlength
      omega
    calc (grammar vars (level + 1)).set ((SetTerm.minus s t).tokens ++ rest)
        = (grammar vars (level + 1)).set (s.tokens ++ .symbol '\\' :: (t.tokens ++ rest)) := by
          simp [SetTerm.tokens]
      _ = differences vars level s.asRead (.symbol '\\' :: (t.tokens ++ rest)) :=
          hs.set _ _ hlengths.1 (avoids_symbol (by decide) _)
      _ = differences vars level (.minus s.asRead t.asRead) rest :=
          chain_step rfl (ht.factors hdifference _ _ hlengths.2 hrest) (by simp) rfl
  have hfactor : (SetTerm.minus s t).factorToken = parenTokens (SetTerm.minus s t).tokens := rfl
  exact ⟨hset, nofun, hfactor ▸ hset.paren⟩

theorem product {factors : List SetTerm} (hne : factors ≠ [])
    (h : ∀ s ∈ factors, SetTerm.Reads vars s) : SetTerm.Reads vars (.product factors) := by
  have htokens : (SetTerm.product factors).tokens =
      joinTokens (.symbol '*') (factors.map SetTerm.factorToken) := by
    rw [SetTerm.tokens, SetTerm.factorTokens_eq_map]
  have hread : (SetTerm.product factors).asRead = setProduct (factors.map SetTerm.asRead) := by
    rw [SetTerm.asRead, SetTerm.allAsRead_eq_map]
  refine of_factors rfl fun level rest hlength hrest => ?_
  rw [htokens] at hlength ⊢
  rw [hread]
  refine mapped_eq (separated_eq (Avoids ['[']) (fun _ => avoids_symbol (by decide) _)
    (hrest.mono (by decide)) (hrest '*' (by decide)) hne fun s hs rest hrest => ?_)
  have hle := length_le_joinTokens (List.mem_map_of_mem (f := SetTerm.factorToken) hs) (.symbol '*')
  exact (h s hs).atom level rest (by omega) hrest

theorem name {name : String} (hname : isName name = true) : SetTerm.Reads vars (.name name) := by
  refine of_atom rfl fun level rest _ hrest => ?_
  have hatom : (grammar vars level).readAtom (.word name :: rest) = _ :=
    Grammar.readAtom_name hname rest
  rw [Grammar.setReference_of_avoids hrest] at hatom
  exact hatom

theorem member {family : String} {index : Arith} (hname : isName family = true)
    (hindex : Arith.Reads vars index) : SetTerm.Reads vars (.member family index) := by
  refine of_atom rfl fun level rest hlength _ => ?_
  have hlength : index.tokens.length < level := by
    simp only [SetTerm.tokens, List.length_append, List.length_cons] at hlength
    omega
  have hclosing := closing_eq (hindex.arith hlength (avoids_symbol (c := ']') (by decide) rest))
  have hatom : (grammar vars level).readAtom
      (.word family :: .symbol '[' :: (index.tokens ++ .symbol ']' :: rest)) = _ :=
    Grammar.readAtom_name hname _
  have htokens : (SetTerm.member family index).tokens ++ rest =
      .word family :: .symbol '[' :: (index.tokens ++ .symbol ']' :: rest) := by
    simp [SetTerm.tokens]
  rw [htokens]
  exact hatom.trans (mapped_eq hclosing)

/-- Neither a closing brace nor an angle starts a list of terms. -/
theorem braces_of_ariths {elements : List Arith}
    (h : (grammar vars level).ariths tokens = some (elements, rest)) :
    (grammar vars level).braces tokens = (grammar vars level).numbers tokens := by
  have hclose : ∀ tokens, (grammar vars level).ariths (.symbol '\x7d' :: tokens) = none := by
    intro tokens
    cases level <;> rfl
  have hangle : ∀ tokens, (grammar vars level).ariths (.symbol '<' :: tokens) = none := by
    intro tokens
    cases level <;> rfl
  unfold Grammar.braces
  split
  · rw [hclose] at h
    nomatch h
  · rw [hangle] at h
    nomatch h
  · rfl

theorem list {elements : List Arith} (h : ∀ a ∈ elements, Arith.Reads vars a) :
    SetTerm.Reads vars (.list elements) := by
  have htokens : (SetTerm.list elements).tokens =
      [.symbol '\x7b'] ++ joinTokens (.symbol ',')
      (elements.map Arith.tokens) ++ [.symbol '\x7d'] := by
    rw [SetTerm.tokens, Arith.tokensAll_eq_map]
  have hread : (SetTerm.list elements).asRead = .list (elements.map Arith.asRead) := by
    rw [SetTerm.asRead, Arith.allAsRead_eq_map]
  refine of_atom rfl fun level rest hlength _ => ?_
  rw [htokens] at hlength ⊢
  rw [hread]
  by_cases hne : elements = []
  · subst hne
    rfl
  · have hlength : (joinTokens (.symbol ',') (elements.map Arith.tokens)).length < level := by
      simp only [List.length_append, List.length_cons] at hlength
      omega
    have hariths := ariths_eq hne h hlength (avoids_symbol (c := '\x7d') (by decide) rest) (by simp)
    have hbraces : (grammar vars level).braces (joinTokens (.symbol ',') (elements.map Arith.tokens)
        ++ .symbol '\x7d' :: rest) = some (.list (elements.map Arith.asRead), rest) := by
      rw [braces_of_ariths hariths, Grammar.numbers, hariths]
      rfl
    simpa [atom_brace] using hbraces

theorem range {a b : Arith} (ha : Arith.Reads vars a) (hb : Arith.Reads vars b) :
    SetTerm.Reads vars (.range a b) := by
  refine of_atom rfl fun level rest hlength _ => ?_
  have hlengths : a.tokens.length < level ∧ b.tokens.length < level := by
    simp only [SetTerm.tokens, List.length_append, List.length_cons] at hlength
    omega
  have hfirst := ha.arith hlengths.1
    (avoids_symbol (c := '.') (by decide) (.symbol '.' :: (b.tokens ++ .symbol '\x7d' :: rest)))
  have hlast := closing_eq (hb.arith hlengths.2 (avoids_symbol (c := '\x7d') (by decide) rest))
  have hariths : (grammar vars level).ariths (a.tokens
      ++ .symbol '.' :: .symbol '.' :: (b.tokens ++ .symbol '\x7d' :: rest)) =
        some ([a.asRead], _) :=
    separated_single hfirst (by simp)
  have hbraces : (grammar vars level).braces (a.tokens
      ++ .symbol '.' :: .symbol '.' :: (b.tokens ++ .symbol '\x7d' :: rest)) =
        some (.range a.asRead b.asRead, rest) := by
    rw [braces_of_ariths hariths, Grammar.numbers, hariths]
    exact mapped_eq hlast
  simpa [SetTerm.tokens, SetTerm.asRead, atom_brace] using hbraces

theorem subsets {size : Nat} (hs : SetTerm.Reads vars s) :
    SetTerm.Reads vars (.subsets s size) := by
  refine of_atom rfl fun level rest hlength _ => ?_
  have hlength : s.tokens.length < level := by
    simp only [SetTerm.tokens, List.length_append, List.length_cons] at hlength
    omega
  have hset := hs.whole hlength
    (avoids_symbol (c := ',') (by decide) (.number size :: .symbol ')' :: rest))
  have hsubsets : (grammar vars level).subsets (.symbol '(' ::
      (s.tokens ++ .symbol ',' :: .number size :: .symbol ')' :: rest)) =
        some (.subsets s.asRead size, rest) :=
    enclosed_eq (by simp [hset, mapped, numberReader])
  have htokens : (SetTerm.subsets s size).tokens ++ rest = .word "subsets" :: .symbol '(' ::
      (s.tokens ++ .symbol ',' :: .number size :: .symbol ')' :: rest) := by
    simp [SetTerm.tokens]
  rw [htokens]
  exact hsubsets

theorem indexset {family : String} (hname : isName family = true) :
    SetTerm.Reads vars (.indexset family) := by
  refine of_atom rfl fun level rest _ _ => ?_
  exact mapped_eq (enclosed_eq (nameReader_word hname _))

theorem builder {index : Index} (h : Index.Reads vars index) :
    SetTerm.Reads vars (.builder index) := by
  refine of_atom rfl fun level rest hlength _ => ?_
  have hlength : index.tokens.length < level := by
    simp only [SetTerm.tokens, List.length_append, List.length_cons] at hlength
    omega
  have hindex := closing_eq (h level rest hlength '\x7d' (by decide))
  have hbuilder : (grammar vars level).braces (index.tokens ++ .symbol '\x7d' :: rest) =
      some (.builder index.asRead, rest) := by
    obtain ⟨symbols, domain, condition⟩ := index
    rw [Index.tokens] at hindex ⊢
    exact mapped_eq hindex
  simpa [SetTerm.tokens, SetTerm.asRead, atom_brace] using hbuilder

end SetTerm.Reads

theorem Arith.Reads.card {set : SetTerm} (h : SetTerm.Reads vars set) :
    Arith.Reads vars (.card set) := by
  refine of_operand rfl fun level rest hlength _ => ?_
  have hlength : set.tokens.length < level := by
    simp only [Arith.tokens, List.length_append, List.length_cons] at hlength
    omega
  have hset := h.whole hlength (avoids_symbol (c := ')') (by decide) rest)
  have htokens : (Arith.card set).tokens ++ rest =
      .word "card" :: .symbol '(' :: (set.tokens ++ .symbol ')' :: rest) := by
    simp [Arith.tokens]
  rw [htokens]
  exact mapped_eq (enclosed_eq hset)

namespace Condition.Reads

theorem always : Condition.Reads vars .always := fun _ _ _ _ _ => rfl

theorem ne {a b : Arith} (ha : Arith.Reads vars a) (hb : Arith.Reads vars b) :
    Condition.Reads vars (.ne a b) := by
  intro level rest hlength c hc
  have hlengths : a.tokens.length < level ∧ b.tokens.length < level := by
    simp only [Condition.tokens, List.length_append, List.length_cons] at hlength
    omega
  have hfirst := ha.arith hlengths.1
    (avoids_symbol (c := '!') (by decide) (.symbol '=' :: (b.tokens ++ .symbol c :: rest)))
  have hlast := hb.arith hlengths.2 ((avoids_indexEnds hc rest).mono (by decide))
  have htokens : (Condition.ne a b).tokens ++ .symbol c :: rest = .word "with" ::
      (a.tokens ++ .symbol '!' :: .symbol '=' :: (b.tokens ++ .symbol c :: rest)) := by
    simp [Condition.tokens]
  rw [htokens, Grammar.condition, hfirst]
  exact mapped_eq hlast

theorem lt {a b : Arith} (ha : Arith.Reads vars a) (hb : Arith.Reads vars b) :
    Condition.Reads vars (.lt a b) := by
  intro level rest hlength c hc
  have hlengths : a.tokens.length < level ∧ b.tokens.length < level := by
    simp only [Condition.tokens, List.length_append, List.length_cons] at hlength
    omega
  have hfirst := ha.arith hlengths.1
    (avoids_symbol (c := '<') (by decide) (b.tokens ++ .symbol c :: rest))
  have hlast := hb.arith hlengths.2 ((avoids_indexEnds hc rest).mono (by decide))
  have htokens : (Condition.lt a b).tokens ++ .symbol c :: rest = .word "with" ::
      (a.tokens ++ .symbol '<' :: (b.tokens ++ .symbol c :: rest)) := by
    simp [Condition.tokens]
  rw [htokens, Grammar.condition, hfirst]
  exact mapped_eq hlast

end Condition.Reads

/-- In front of a condition or of what ends an index, a domain is whole. -/
theorem Condition.avoids (condition : Condition) {c : Char} (hc : c ∈ indexEnds) :
    Avoids ['[', '*', '\\'] (condition.tokens ++ .symbol c :: rest) := by
  cases condition with
  | always => exact (avoids_indexEnds hc _).mono (by decide)
  | ne _ _ | lt _ _ => exact avoids_word _ _ _

theorem Index.Reads.mk {symbols : List String} {domain : SetTerm} {condition : Condition}
    (hne : symbols ≠ []) (hnames : symbols.all isName) (hdomain : SetTerm.Reads vars domain)
    (hcondition : Condition.Reads vars condition) :
    Index.Reads vars (.mk symbols domain condition) := by
  intro level rest hlength c hc
  have hlengths : domain.tokens.length < level ∧ condition.tokens.length < level := by
    simp only [Index.tokens, List.length_append, List.length_cons] at hlength
    omega
  have havoids : Avoids ['[', '*', '\\'] (condition.tokens ++ .symbol c :: rest) :=
    condition.avoids hc
  have hset := hdomain.whole hlengths.1 havoids
  have hbehind := hcondition level rest hlengths.2 c hc
  have hsymbols : ∀ rest,
      separated (.symbol ',') nameReader (wordTokens symbols ++ .symbol '>' :: rest) =
      some (symbols.map id, .symbol '>' :: rest) := fun rest =>
    separated_eq (fun _ => True) (fun _ => trivial) trivial (by simp) hne fun name hname _ _ =>
      nameReader_word (List.all_eq_true.mp hnames name hname) _
  have htokens : (Index.mk symbols domain condition).tokens ++ .symbol c :: rest =
      .symbol '<' :: (wordTokens symbols ++ .symbol '>' ::
        .word "in" :: (domain.tokens ++ (condition.tokens ++ .symbol c :: rest))) := by
    simp [Index.tokens]
  rw [htokens]
  simp [Grammar.index, hsymbols, hset, hbehind, Index.asRead]

mutual

/-- Legible arithmetic reads back. -/
theorem Arith.reads : (a : Arith) → a.legible vars = true → Arith.Reads vars a
  | .int value, _ => .int value
  | .name symbol, h => by
    rw [Arith.legible, Bool.and_eq_true, decide_eq_true_eq] at h
    exact .name h.1 h.2
  | .add a b, h => by
    rw [Arith.legible, Bool.and_eq_true] at h
    exact (a.reads h.1).add (b.reads h.2)
  | .sub a b, h => by
    rw [Arith.legible, Bool.and_eq_true] at h
    exact (a.reads h.1).sub (b.reads h.2)
  | .mul a b, h => by
    rw [Arith.legible, Bool.and_eq_true] at h
    exact (a.reads h.1).mul (b.reads h.2)
  | .div a b, h => by
    rw [Arith.legible, Bool.and_eq_true] at h
    exact (a.reads h.1).div (b.reads h.2)
  | .floor a, h => by
    rw [Arith.legible] at h
    exact (a.reads h).floor
  | .min a b, h => by
    rw [Arith.legible, Bool.and_eq_true] at h
    exact (a.reads h.1).min (b.reads h.2)
  | .card set, h => by
    rw [Arith.legible] at h
    exact .card (set.reads h)

theorem Arith.readsAll : (as : List Arith) → Arith.allLegible vars as = true →
    ∀ a ∈ as, Arith.Reads vars a
  | [], _, _, hmem => nomatch hmem
  | first :: as, h, a, hmem => by
    rw [Arith.allLegible, Bool.and_eq_true] at h
    rcases List.mem_cons.mp hmem with heq | hmem
    · exact heq ▸ first.reads h.1
    · exact Arith.readsAll as h.2 a hmem

/-- Legible sets read back. -/
theorem SetTerm.reads : (s : SetTerm) → s.legible vars = true → SetTerm.Reads vars s
  | .name _, h => .name h
  | .member family index, h => by
    rw [SetTerm.legible, Bool.and_eq_true] at h
    exact .member h.1 (index.reads h.2)
  | .range first last, h => by
    rw [SetTerm.legible, Bool.and_eq_true] at h
    exact .range (first.reads h.1) (last.reads h.2)
  | .list elements, h => by
    rw [SetTerm.legible] at h
    exact .list (Arith.readsAll elements h)
  | .product factors, h => by
    rw [SetTerm.legible, Bool.and_eq_true] at h
    exact .product (by simpa using h.1) (SetTerm.readsAll factors h.2)
  | .minus a b, h => by
    rw [SetTerm.legible, Bool.and_eq_true, Bool.and_eq_true] at h
    exact (a.reads h.1.1).minus (b.reads h.1.2) (by simpa using h.2)
  | .builder index, h => by
    rw [SetTerm.legible] at h
    exact .builder (index.reads h)
  | .subsets set size, h => by
    rw [SetTerm.legible] at h
    exact (set.reads h).subsets
  | .indexset _, h => .indexset h

theorem SetTerm.readsAll : (ss : List SetTerm) → SetTerm.allLegible vars ss = true →
    ∀ s ∈ ss, SetTerm.Reads vars s
  | [], _, _, hmem => nomatch hmem
  | first :: ss, h, s, hmem => by
    rw [SetTerm.allLegible, Bool.and_eq_true] at h
    rcases List.mem_cons.mp hmem with heq | hmem
    · exact heq ▸ first.reads h.1
    · exact SetTerm.readsAll ss h.2 s hmem

/-- Legible indices read back. -/
theorem Index.reads : (index : Index) → index.legible vars = true → Index.Reads vars index
  | .mk symbols domain condition, h => by
    rw [Index.legible, Bool.and_eq_true, Bool.and_eq_true, Bool.and_eq_true] at h
    exact .mk (by simpa using h.1.1.1) h.1.1.2 (domain.reads h.1.2) (condition.reads h.2)

theorem Condition.reads : (condition : Condition) → condition.legible vars = true →
    Condition.Reads vars condition
  | .always, _ => .always
  | .ne a b, h => by
    rw [Condition.legible, Bool.and_eq_true] at h
    exact .ne (a.reads h.1) (b.reads h.2)
  | .lt a b, h => by
    rw [Condition.legible, Bool.and_eq_true] at h
    exact .lt (a.reads h.1) (b.reads h.2)

end

end Reads

end RoundRobin.Zimpl
