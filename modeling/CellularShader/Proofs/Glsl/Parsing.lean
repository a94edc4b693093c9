/- # Reading tokens back into syntax

The tokens of a legible piece of syntax are read as that piece, and reading stops right behind them.
What follows an expression must not bind tighter than the level at which the expression is read.
-/

import CellularShader.Glsl.Reader
import CellularShader.Proofs.Glsl.Grammar
import CellularShader.Proofs.Text.Occurrence

namespace CellularShader

namespace Glsl

namespace Reader

variable {α β : Type} {rest : List Token}

/-! ## Steps of a reader -/

/-- A reader is followed by another on what it leaves. -/
theorem step {x : Reader α} {f : α → Reader β} {toks : List Token} {a : α}
    {result : Option (β × List Token)} (h : x toks = some (a, rest)) (hnext : f a rest = result) :
    (x >>= f) toks = result := by
  simp [Bind.bind, StateT.bind, h, hnext]

theorem accept_cons (t : Token) (rest : List Token) : accept t (t :: rest) = some (true, rest) := by
  simp [accept]

theorem accept_of_ne {t : Token} (h : rest.head? ≠ some t) :
    accept t rest = some (false, rest) := by
  cases rest with
  | nil => rfl
  | cons s rest =>
    have hne : s ≠ t := fun heq => h (congrArg some heq)
    simp [accept, hne]

theorem expect_cons (t : Token) (rest : List Token) : expect t (t :: rest) = some ((), rest) := by
  exact step (accept_cons t rest) rfl

theorem word_cons (w : List Char) (rest : List Token) :
    word (.word w :: rest) = some (String.ofList w, rest) := rfl

/-- What stands in front of the first semicolon is read on its own. -/
theorem terminated_append {toks : List Token} (h : .symbol [';'] ∉ toks) (rest : List Token) :
    terminated (toks ++ .symbol [';'] :: rest) = (wholeExpression toks).map (·, rest) := by
  have htaken : ∀ t ∈ toks, decide (t ≠ .symbol [';']) = true := by
    intro t ht
    exact decide_eq_true fun heq => h (heq ▸ ht)
  have hspan : (toks ++ .symbol [';'] :: rest).span (· ≠ .symbol [';']) =
      (toks, .symbol [';'] :: rest) := by
    rw [List.span_eq_takeWhile_dropWhile, List.takeWhile_append_of_pos htaken,
      List.dropWhile_append_of_pos htaken]
    simp
  rw [terminated, hspan]

/-- Tokens with the outline of an expression are one, if only as tokens. -/
theorem exists_wholeExpression {toks : List Token} (h : Token.outlineExpression toks = true) :
    ∃ e, wholeExpression toks = some e := by
  rw [wholeExpression]
  split
  · exact ⟨_, rfl⟩
  · exact ⟨_, if_pos h⟩

/-- Operators beyond the syntax do not matter to the outline. -/
example : Token.outlineExpression (tokens "1 != 0 ? -int(iColorIndex) / 2 : 0x1F") = true := by
  decide +kernel

theorem terminated_of_outline {toks : List Token} {e : Expr}
    (h : Token.outlineExpression toks = true) (hread : wholeExpression toks = some e)
    (rest : List Token) : terminated (toks ++ .symbol [';'] :: rest) = some (e, rest) := by
  have hsemicolon : .symbol [';'] ∉ toks := by
    intro hmem
    simp only [Token.outlineExpression, Bool.and_eq_true, List.all_eq_true] at h
    exact absurd (h.1.2 _ hmem) (by decide)
  rw [terminated_append hsemicolon, hread]
  rfl

/-! ## Sequences -/

theorem closedBy_close (item : Reader α) (steps : Nat) (rest : List Token) :
    closedBy "\x7d" item (steps + 1) (.symbol ['}'] :: rest) = some ([], rest) :=
  step (accept_cons _ _) rfl

theorem closedBy_cons {item : Reader α} {x : α} {xs : List α} {toks middle : List Token}
    {steps : Nat} (hopen : toks.head? ≠ some (.symbol ['}']))
    (hitem : item toks = some (x, middle))
    (hothers : closedBy "\x7d" item steps middle = some (xs, rest)) :
    closedBy "\x7d" item (steps + 1) toks = some (x :: xs, rest) := by
  rw [closedBy]
  refine step (accept_of_ne hopen) ?_
  rw [if_neg Bool.false_ne_true]
  exact step hitem (step hothers rfl)

/-- Items with a separator between them are read up to what is no separator. -/
theorem separated_intercalate {item : Reader α} (separator : String) {toks : α → List Token}
    {Follows : List Token → Prop} {items : List α} (hne : items ≠ [])
    (hitems : ∀ x ∈ items, ∀ rest, Follows rest → item (toks x ++ rest) = some (x, rest))
    (hseparator : ∀ rest, Follows (.symbol separator.toList :: rest)) (hrest : Follows rest)
    (hstop : rest.head? ≠ some (.symbol separator.toList)) {steps : Nat}
    (hsteps : items.length ≤ steps) :
    separated separator item steps
      ([.symbol separator.toList].intercalate (items.map toks) ++ rest) = some (items, rest) := by
  induction items generalizing steps with
  | nil => exact absurd rfl hne
  | cons x items ih =>
    obtain ⟨steps, rfl⟩ : ∃ n, steps = n + 1 := ⟨steps - 1, by simp at hsteps; omega⟩
    have hx := hitems x List.mem_cons_self
    cases items with
    | nil =>
      simp only [List.map_cons, List.map_nil, List.intercalate_singleton, separated]
      exact step (hx rest hrest) (step (accept_of_ne hstop) rfl)
    | cons y items =>
      have hrec := ih (by simp) (fun z hz => hitems z (List.mem_cons_of_mem _ hz))
        (Nat.le_of_succ_le_succ hsteps)
      simp only [List.map_cons, List.intercalate_cons_cons, List.append_assoc, separated,
        List.cons_append, List.nil_append] at hrec ⊢
      -- Behind an item, the separator decides that another one is read.
      refine step (hx _ (hseparator _)) (step (accept_cons _ _) ?_)
      rw [if_pos rfl]
      exact step hrec rfl

theorem length_le_length_intercalate (t : Token) (xs : List (List Token)) :
    xs.length ≤ ([t].intercalate xs).length + 1 := by
  induction xs with
  | nil => simp
  | cons x xs ih =>
    cases xs with
    | nil => simp
    | cons y xs =>
      rw [List.intercalate_cons_cons]
      simp only [List.length_append, List.length_cons, List.length_nil] at ih ⊢
      omega

theorem length_le_of_mem_intercalate {x : α} {xs : List α} (t : Token) (toks : α → List Token)
    (h : x ∈ xs) : (toks x).length ≤ ([t].intercalate (xs.map toks)).length := by
  induction xs with
  | nil => simp at h
  | cons y xs ih =>
    cases xs with
    | nil => simp_all
    | cons z xs =>
      rw [List.map_cons, List.map_cons, List.intercalate_cons_cons]
      simp only [List.length_append, List.map_cons] at ih ⊢
      rcases List.mem_cons.1 h with rfl | hmem
      · omega
      · have := ih hmem
        omega

/-- Pieces of a token or more are no more than their tokens. -/
theorem length_le_length_flatMap (xs : List α) {toks : α → List Token} (h : ∀ x, toks x ≠ []) :
    xs.length ≤ (xs.flatMap toks).length := by
  induction xs with
  | nil => simp
  | cons x xs ih =>
    have hpos := List.length_pos_iff.2 (h x)
    simp only [List.flatMap_cons, List.length_append, List.length_cons]
    omega

/-- A list in parentheses, none of whose items starts with the closing one. -/
theorem listed_intercalate {item : Reader α} {toks : α → List Token}
    (Follows : List Token → Prop) {items : List α}
    (hitems : ∀ x ∈ items, ∀ rest, Follows rest → item (toks x ++ rest) = some (x, rest))
    (hhead : ∀ x ∈ items, ∃ t ts, toks x = t :: ts ∧ t ≠ .symbol [')'])
    (hcomma : ∀ rest, Follows (.symbol [','] :: rest))
    (hclose : ∀ rest, Follows (.symbol [')'] :: rest)) :
    listed item ([.symbol [',']].intercalate (items.map toks) ++ .symbol [')'] :: rest) =
      some (items, rest) := by
  cases items with
  | nil =>
    simp only [List.map_nil, List.intercalate_nil, List.nil_append, listed]
    exact step (accept_cons _ rest) rfl
  | cons x items =>
    obtain ⟨t, ts, htoks, ht⟩ := hhead x List.mem_cons_self
    have hstart : ([.symbol [',']].intercalate ((x :: items).map toks) ++
        .symbol [')'] :: rest).head? ≠ some (.symbol [')']) := by
      cases items <;> simp [htoks, ht]
    have hlength := length_le_length_intercalate (.symbol [',']) ((x :: items).map toks)
    have hseparated : bounded (separated "," item)
        ([.symbol [',']].intercalate ((x :: items).map toks) ++ .symbol [')'] :: rest) =
          some (x :: items, .symbol [')'] :: rest) := by
      refine separated_intercalate "," (by simp) hitems hcomma (hclose _) (by simp) ?_
      simp only [List.length_map, List.length_append, List.length_cons] at hlength ⊢
      omega
    -- The closing parenthesis is tried first, so that an empty list needs no item.
    refine step (accept_of_ne hstart) ?_
    rw [if_neg Bool.false_ne_true]
    exact step hseparated (step (expect_cons _ _) rfl)

/-! ## Operations -/

section Operation

variable {operator? : Token → Option (Expr → Expr → Expr)} {operand : Reader Expr}
  {toks : List Token} {e : Expr}

/-- Reading operands has come to the given one, with steps enough left for what follows. -/
def Opens (operator? : Token → Option (Expr → Expr → Expr)) (operand : Reader Expr)
    (toks : List Token) (e : Expr) (rest : List Token) : Prop :=
  ∃ steps, rest.length < steps ∧
    operation operator? operand (toks ++ rest) = grouped operator? operand steps e rest

theorem opens_of_operand (h : operand (toks ++ rest) = some (e, rest)) :
    Opens operator? operand toks e rest :=
  ⟨rest.length + 1, Nat.lt_succ_self _, step h rfl⟩

/-- An operator and a right operand are taken in, and what was read is the left operand. -/
theorem Opens.extend {t : Token} {rightToks : List Token} {right : Expr}
    {combine : Expr → Expr → Expr} (h : Opens operator? operand toks e (t :: rightToks ++ rest))
    (ht : operator? t = some combine) (hright : operand (rightToks ++ rest) = some (right, rest)) :
    Opens operator? operand (toks ++ t :: rightToks) (combine e right) rest := by
  obtain ⟨steps, hsteps, hread⟩ := h
  obtain ⟨steps, rfl⟩ : ∃ n, steps = n + 1 := ⟨steps - 1, by omega⟩
  -- One of the steps left is spent on the operator.
  refine ⟨steps, by simp at hsteps; omega, ?_⟩
  rw [List.append_assoc, hread, grouped]
  refine step rfl ?_
  simp only [List.cons_append, List.head?_cons, Option.bind_some, ht]
  exact step rfl (step hright rfl)

theorem Opens.close (h : Opens operator? operand toks e rest)
    (hstop : ∀ t, rest.head? = some t → operator? t = none) :
    operation operator? operand (toks ++ rest) = some (e, rest) := by
  obtain ⟨steps, hsteps, hread⟩ := h
  obtain ⟨steps, rfl⟩ : ∃ n, steps = n + 1 := ⟨steps - 1, by omega⟩
  have hnone : rest.head?.bind operator? = none := by
    cases rest with
    | nil => rfl
    | cons t rest => exact hstop t rfl
  rw [hread, grouped]
  refine step rfl ?_
  simp only [hnone]
  rfl

end Operation

end Reader

/-! ## Expressions -/

namespace Token

/-- How tightly a token holds on to the operand before it. -/
def rank : Token → Nat
  | symbol ['('] | symbol ['.'] | symbol ['['] => 8
  | symbol ['*'] => 7
  | symbol ['+'] | symbol ['-'] => 6
  | symbol ['<'] | symbol ['<', '='] | symbol ['>'] | symbol ['>', '='] => 5
  | symbol ['=', '='] => 4
  | symbol ['&', '&'] => 3
  | symbol ['|', '|'] => 2
  | symbol ['?'] => 1
  | _ => 0

end Token

namespace Level

open Reader

/-- Tokens that do not go on with something that binds as tightly as the level. -/
def Ends (level : Level) (rest : List Token) : Prop :=
  ∀ t, rest.head? = some t → t.rank < level.rank

theorem Ends.mono {level looser : Level} {rest : List Token} (h : looser.Ends rest)
    (hrank : looser.rank ≤ level.rank) : level.Ends rest :=
  fun t ht => (h t ht).trans_le hrank

theorem ends_cons {level : Level} {t : Token} (ht : t.rank < level.rank) (rest : List Token) :
    level.Ends (t :: rest) := by
  intro s hs
  cases hs
  exact ht

/-- The next tighter level. -/
def tighter : Level → Level
  | choice => disjunction
  | disjunction => conjunction
  | conjunction => equality
  | equality => order
  | order => sum
  | sum => product
  | product | operand => operand

/-- The operators that make an operation of the level. -/
def operator? : Level → Token → Option (Expr → Expr → Expr)
  | product => product?
  | sum => sum?
  | order => order?
  | equality => equality?
  | _ => fun _ => none

/-- The reader of expressions of a level, with the bound on what they nest. -/
def reader (depth : Nat) : Level → Reader Expr
  | choice => nestedExpression (depth + 1)
  | disjunction => Reader.disjunction (nestedExpression depth)
  | conjunction =>
    connected "&&" .all <| operation equality? <| operation order? <| operation sum? <|
      operation product? <| Reader.operand (nestedExpression depth)
  | equality =>
    operation equality? <| operation order? <| operation sum? <| operation product? <|
      Reader.operand (nestedExpression depth)
  | order =>
    operation order? <| operation sum? <| operation product? <|
      Reader.operand (nestedExpression depth)
  | sum => operation sum? <| operation product? <| Reader.operand (nestedExpression depth)
  | product => operation product? <| Reader.operand (nestedExpression depth)
  | operand => Reader.operand (nestedExpression depth)

/-- The levels of left-grouping operators. -/
def IsOperation (level : Level) : Prop := level ∈ [equality, order, sum, product]

variable {level : Level}

theorem IsOperation.rank_lt (h : level.IsOperation) : conjunction.rank < level.rank := by
  simp only [IsOperation, List.mem_cons, List.not_mem_nil, or_false] at h
  rcases h with rfl | rfl | rfl | rfl <;> decide

theorem reader_of_isOperation (h : level.IsOperation) (depth : Nat) :
    level.reader depth = operation level.operator? (level.tighter.reader depth) := by
  simp only [IsOperation, List.mem_cons, List.not_mem_nil, or_false] at h
  rcases h with rfl | rfl | rfl | rfl <;> rfl

/-- A token that binds looser than a level is no operator of the level. -/
theorem operator?_of_rank_lt {t : Token} (h : t.rank < level.rank) : level.operator? t = none := by
  cases level with
  | product =>
    simp only [operator?, product?]
    split
    · exact absurd h (by decide)
    · rfl
  | sum =>
    simp only [operator?, sum?]
    split
    · exact absurd h (by decide)
    · exact absurd h (by decide)
    · rfl
  | order =>
    simp only [operator?, order?]
    split
    · exact absurd h (by decide)
    · exact absurd h (by decide)
    · exact absurd h (by decide)
    · exact absurd h (by decide)
    · rfl
  | equality =>
    simp only [operator?, equality?]
    split
    · exact absurd h (by decide)
    · rfl
  | choice | disjunction | conjunction | operand => rfl

/-- A symbol that binds as tightly as a level does not come next. -/
theorem Ends.head?_ne {rest : List Token} (h : level.Ends rest) {t : Token}
    (ht : level.rank ≤ t.rank) : rest.head? ≠ some t :=
  fun hhead => absurd (h t hhead) (Nat.not_lt.2 ht)

end Level

namespace Expr

open Reader

variable {level : Level} {e : Expr}

/-- The expression is read at a level when nothing that binds as tightly follows. -/
def Reads (level : Level) (e : Expr) : Prop :=
  ∀ depth rest, e.tokens.length ≤ depth + 1 → level.Ends rest →
    level.reader depth (e.tokens ++ rest) = some (e, rest)

/-- The expression is read as the left operand of what an operator of the level goes on with. -/
def ReadsLeft (level : Level) (e : Expr) : Prop :=
  ∀ depth rest, e.tokens.length ≤ depth + 1 → level.tighter.Ends rest →
    Opens level.operator? (level.tighter.reader depth) e.tokens e rest

theorem Reads.left (h : Reads level.tighter e) : ReadsLeft level e :=
  fun depth rest hdepth hrest => opens_of_operand (h depth rest hdepth hrest)

theorem ReadsLeft.reads (hlevel : level.IsOperation) (h : ReadsLeft level e) : Reads level e := by
  intro depth rest hdepth hrest
  have hrank : level.rank ≤ level.tighter.rank := by cases level <;> decide
  rw [Level.reader_of_isOperation hlevel]
  exact (h depth rest hdepth (hrest.mono hrank)).close fun t ht =>
    Level.operator?_of_rank_lt (hrest t ht)

/-- A single operand of a chain stands for itself. -/
theorem connected_single {symbol : String} {node : List Expr → Expr} {operand : Reader Expr}
    {toks rest : List Token} (h : operand (toks ++ rest) = some (e, rest))
    (hstop : rest.head? ≠ some (.symbol symbol.toList)) :
    connected symbol node operand (toks ++ rest) = some (e, rest) :=
  step (step h (step (accept_of_ne hstop) rfl)) rfl

/-- What is read at a level is read at the next looser one. -/
theorem Reads.loosen (h : Reads level.tighter e) : Reads level e := by
  cases level with
  | operand => exact h
  | equality | order | sum | product => exact h.left.reads (by simp [Level.IsOperation])
  | conjunction =>
    intro depth rest hdepth hrest
    exact connected_single (h depth rest hdepth (hrest.mono (by decide)))
      (hrest.head?_ne (by decide))
  | disjunction =>
    intro depth rest hdepth hrest
    exact connected_single (h depth rest hdepth (hrest.mono (by decide)))
      (hrest.head?_ne (by decide))
  | choice =>
    intro depth rest hdepth hrest
    -- Without a question mark behind it, a disjunction is the whole choice.
    refine step (h depth rest hdepth (hrest.mono (by decide))) ?_
    exact step (accept_of_ne (hrest.head?_ne (by decide))) rfl

theorem Reads.loosenTo {tight : Level} (h : Reads tight e) (hrank : level.rank ≤ tight.rank) :
    Reads level e := by
  -- Induction on the number of levels between the two.
  generalize hgap : tight.rank - level.rank = gap
  induction gap generalizing level with
  | zero =>
    have hsame : level = tight := by
      have : level.rank = tight.rank := by omega
      revert this
      cases level <;> cases tight <;> decide
    exact hsame ▸ h
  | succ gap ih =>
    have htighter : level.tighter.rank = level.rank + 1 := by
      have : level ≠ .operand := by
        rintro rfl
        cases tight <;> simp [Level.rank] at hgap
      cases level <;> simp_all [Level.tighter, Level.rank]
    exact (ih (by omega) (by omega)).loosen

/-- An operand is read at every level. -/
theorem Reads.anywhere (h : Reads .operand e) :
    Reads level e ∧ (level.IsOperation → ReadsLeft level e) :=
  ⟨h.loosenTo (by cases level <;> decide),
    fun _ => (h.loosenTo (by cases level <;> decide) : Reads level.tighter e).left⟩

/-- An operation is read at its level and at every looser one. -/
theorem ReadsLeft.loosenTo {tight : Level} (htight : tight.IsOperation) (h : ReadsLeft tight e)
    (hrank : level.rank ≤ tight.rank) :
    Reads level e ∧ (level.IsOperation → ReadsLeft level e) := by
  have hreads := h.reads htight
  refine ⟨hreads.loosenTo hrank, fun _ => ?_⟩
  -- At its own level the operation may be extended; at a looser one it is a whole operand.
  by_cases hsame : level = tight
  · exact hsame ▸ h
  · refine Reads.left (hreads.loosenTo ?_)
    revert hrank hsame
    cases level <;> cases tight <;> decide

/-- An operation is made of a left operand of its level and a right operand of the next one. -/
theorem ReadsLeft.extend {left right : Expr} {t : Token} {combine : Expr → Expr → Expr}
    (hleft : ReadsLeft level left) (hright : Reads level.tighter right)
    (ht : level.operator? t = some combine) (hrank : t.rank < level.tighter.rank)
    (htokens : (combine left right).tokens = left.tokens ++ t :: right.tokens) :
    ReadsLeft level (combine left right) := by
  intro depth rest hdepth hrest
  rw [htokens] at hdepth ⊢
  simp only [List.length_append, List.length_cons] at hdepth
  exact (hleft depth _ (by omega) (Level.ends_cons hrank _)).extend ht
    (hright depth rest (by omega) hrest)

/-! ### Operands -/

theorem selections_of_ends {rest : List Token} (h : Level.operand.Ends rest) (e : Expr) :
    selections e rest = (e, rest) := by
  unfold selections
  split
  · exact absurd (h _ rfl) (by decide)
  · exact absurd (h _ rfl) (by decide)
  · rfl

/-- An atom that nothing is selected from is an operand. -/
theorem operand_of_atom {nested : Reader Expr} {toks rest : List Token}
    (h : atom nested (toks ++ rest) = some (e, rest)) (hrest : Level.operand.Ends rest) :
    operand nested (toks ++ rest) = some (e, rest) :=
  step h (congrArg some (selections_of_ends hrest e))

theorem atom_name {nested : Reader Expr} {rest : List Token} (w : List Char)
    (h : rest.head? ≠ some (.symbol ['('])) :
    atom nested (.word w :: rest) = some (.name (String.ofList w), rest) := by
  unfold atom
  split
  case h_1 heq =>
    cases heq
    exact absurd rfl h
  case h_2 heq =>
    cases heq
    rfl
  all_goals simp_all

theorem reads_name {identifier : String} : Reads .operand (.name identifier) := by
  intro depth rest _ hrest
  refine operand_of_atom ?_ hrest
  have hhead : rest.head? ≠ some (.symbol ['(']) := hrest.head?_ne (by decide)
  have hname : atom (nestedExpression depth) (.word identifier.toList :: rest) =
      some (.name identifier, rest) := by
    rw [atom_name _ hhead, String.ofList_toList]
  exact hname

theorem reads_numeral {text : String} (h : IsSigned text.toList) :
    Reads .operand (.numeral text) := by
  intro depth rest _ hrest
  refine operand_of_atom ?_ hrest
  have htext : String.ofList text.toList = text := String.ofList_toList
  simp only [tokens]
  -- A minus sign is a token of its own, and the digits are the next one.
  generalize text.toList = cs at *
  cases h with
  | plain hdigits =>
    obtain ⟨c, cs, rfl, hc⟩ := hdigits.head
    have hminus : c ≠ '-' := by
      rintro rfl
      exact absurd hc (by decide)
    simp [numeralTokens, hminus, atom, htext]
  | minus hdigits => simp [numeralTokens, atom, htext]

theorem reads_component {identifier selector : String} :
    Reads .operand (.component (.name identifier) selector) := by
  intro depth rest _ hrest
  have hname : atom (nestedExpression depth)
      (.word identifier.toList :: .symbol ['.'] :: .word selector.toList :: rest) =
        some (.name identifier, .symbol ['.'] :: .word selector.toList :: rest) := by
    rw [atom_name _ (by simp), String.ofList_toList]
  refine step hname (congrArg some ?_)
  rw [selections, String.ofList_toList]
  exact selections_of_ends hrest _

theorem reads_element {identifier : String} {position : Nat} :
    Reads .operand (.element (.name identifier) position) := by
  intro depth rest _ hrest
  have hname : atom (nestedExpression depth)
      (.word identifier.toList :: .symbol ['['] :: .number (Nat.toDigits 10 position) ::
        .symbol [']'] :: rest) =
        some (.name identifier, .symbol ['['] :: .number (Nat.toDigits 10 position) ::
          .symbol [']'] :: rest) := by
    rw [atom_name _ (by simp), String.ofList_toList]
  refine step hname (congrArg some ?_)
  rw [selections, Literal.natOfDigits?_toDigits]
  exact selections_of_ends hrest _

/-- What is nested is read with one level of depth less. -/
theorem Reads.nested (h : Reads .choice e) {depth : Nat} {rest : List Token}
    (hdepth : e.tokens.length < depth) (hrest : Level.choice.Ends rest) :
    nestedExpression depth (e.tokens ++ rest) = some (e, rest) := by
  obtain ⟨depth, rfl⟩ : ∃ n, depth = n + 1 := ⟨depth - 1, by omega⟩
  exact h depth rest (by omega) hrest

theorem reads_paren {inner : Expr} (h : Reads .choice inner) : Reads .operand (.paren inner) := by
  intro depth rest hdepth hrest
  have hinner : nestedExpression depth (inner.tokens ++ .symbol [')'] :: rest) =
      some (inner, .symbol [')'] :: rest) := by
    refine h.nested ?_ (Level.ends_cons (by decide) _)
    simp only [tokens, List.length_append, List.length_cons] at hdepth
    omega
  refine operand_of_atom ?_ hrest
  simp only [tokens, List.cons_append, List.append_assoc, List.nil_append]
  exact step hinner (step (expect_cons _ _) rfl)

theorem reads_call {function : String} {arguments : List Expr}
    (heach : ∀ e ∈ arguments, Reads .choice e)
    (hhead : ∀ e ∈ arguments, ∃ t ts, e.tokens = t :: ts ∧ t ≠ .symbol [')']) :
    Reads .operand (.call function arguments) := by
  intro depth rest hdepth hrest
  have harguments : listed (nestedExpression depth)
      ([.symbol [',']].intercalate (arguments.map tokens) ++ .symbol [')'] :: rest) =
        some (arguments, rest) := by
    refine listed_intercalate Level.choice.Ends ?_ hhead
      (Level.ends_cons (by decide)) (Level.ends_cons (by decide))
    intro e he rest hrest
    -- Each argument has fewer tokens than the call, so the depth suffices for it.
    refine (heach e he).nested ?_ hrest
    have hlength := length_le_of_mem_intercalate (.symbol [',']) tokens he
    simp only [tokens, tokenLists_eq_map, List.length_append, List.length_cons] at hdepth
    omega
  refine operand_of_atom ?_ hrest
  simp only [tokens, tokenLists_eq_map, List.cons_append, List.append_assoc, List.nil_append]
  refine (step harguments rfl).trans ?_
  rw [String.ofList_toList]
  rfl

/-! ### Chains -/

/-- A chain of two operands or more. -/
theorem connected_intercalate {tight : Level} (symbol : String) {node : List Expr → Expr}
    {operands : List Expr} {depth : Nat} {rest : List Token} (hseveral : 2 ≤ operands.length)
    (heach : ∀ e ∈ operands, Reads tight e)
    (hdepth : ([.symbol symbol.toList].intercalate (operands.map tokens)).length ≤ depth + 1)
    (hrank : (Token.symbol symbol.toList).rank < tight.rank) (hrest : tight.Ends rest)
    (hstop : rest.head? ≠ some (.symbol symbol.toList)) :
    connected symbol node (tight.reader depth)
      ([.symbol symbol.toList].intercalate (operands.map tokens) ++ rest) =
        some (node operands, rest) := by
  have hitems : bounded (separated symbol (tight.reader depth))
      ([.symbol symbol.toList].intercalate (operands.map tokens) ++ rest) =
        some (operands, rest) := by
    refine separated_intercalate symbol ?_ ?_ (fun rest => Level.ends_cons hrank rest) hrest
      hstop ?_
    · rintro rfl
      simp at hseveral
    · intro e he rest hrest
      have hlength := length_le_of_mem_intercalate (.symbol symbol.toList) tokens he
      exact heach e he depth rest (hlength.trans hdepth) hrest
    · have hlength := length_le_length_intercalate (.symbol symbol.toList) (operands.map tokens)
      simp only [List.length_map, List.length_append] at hlength ⊢
      omega
  refine step hitems ?_
  -- A single operand would stand for itself; two or more keep their node.
  match operands, hseveral with
  | _ :: _ :: _, _ => rfl

theorem reads_all {operands : List Expr} (hseveral : 2 ≤ operands.length)
    (heach : ∀ e ∈ operands, Reads .equality e) : Reads .conjunction (.all operands) := by
  intro depth rest hdepth hrest
  simp only [tokens, tokenLists_eq_map] at hdepth ⊢
  exact connected_intercalate "&&" hseveral heach hdepth (by decide) (hrest.mono (by decide))
    (hrest.head?_ne (by decide))

theorem reads_any {operands : List Expr} (hseveral : 2 ≤ operands.length)
    (heach : ∀ e ∈ operands, Reads .conjunction e) : Reads .disjunction (.any operands) := by
  intro depth rest hdepth hrest
  simp only [tokens, tokenLists_eq_map] at hdepth ⊢
  exact connected_intercalate "||" hseveral heach hdepth (by decide) (hrest.mono (by decide))
    (hrest.head?_ne (by decide))

theorem reads_choice {condition yes no : Expr} (hcondition : Reads .disjunction condition)
    (hyes : Reads .choice yes) (hno : Reads .choice no) :
    Reads .choice (.choice condition yes no) := by
  intro depth rest hdepth hrest
  simp only [tokens, List.length_append, List.length_cons] at hdepth
  simp only [tokens, List.append_assoc, List.cons_append]
  refine step (hcondition depth _ (by omega) (Level.ends_cons (by decide) _)) ?_
  refine step (accept_cons _ _) ?_
  rw [if_pos rfl]
  refine step (hyes.nested (by omega) (Level.ends_cons (by decide) _)) ?_
  exact step (expect_cons _ _) (step (hno.nested (by omega) hrest) rfl)

/-! ### Whole expressions -/

theorem head_intercalate {t : Token} {operands : List Expr} (hne : operands ≠ [])
    (h : ∀ e ∈ operands, ∃ t ts, e.tokens = t :: ts ∧ t ≠ .symbol [')']) :
    ∃ s ts, [t].intercalate (tokenLists operands) = s :: ts ∧ s ≠ .symbol [')'] := by
  cases operands with
  | nil => exact absurd rfl hne
  | cons e operands =>
    obtain ⟨s, ts, htokens, hs⟩ := h e List.mem_cons_self
    cases operands <;> simp [tokenLists, htokens, hs]

/-- No expression starts with a closing parenthesis. -/
theorem Fits.head (h : Fits level e) : ∃ t ts, e.tokens = t :: ts ∧ t ≠ .symbol [')'] := by
  induction h with
  | @numeral level text signed =>
    simp only [tokens]
    generalize text.toList = cs at signed
    cases signed with
    | plain hdigits =>
      obtain ⟨c, cs, rfl, hc⟩ := hdigits.head
      have hminus : c ≠ '-' := by
        rintro rfl
        exact absurd hc (by decide)
      simp [numeralTokens, hminus]
    | minus hdigits => simp [numeralTokens]
  | arith _ _ _ hleft _ | compare _ _ _ hleft _ | choice _ _ _ hleft _ _ =>
    obtain ⟨t, ts, htokens, ht⟩ := hleft
    simp [tokens, htokens, ht]
  -- A chain starts like its first operand.
  | all _ several _ heach | any _ several _ heach =>
    refine head_intercalate ?_ heach
    rintro rfl
    simp at several
  | name | component | element | call | paren => simp [tokens]

/-- An expression that fits a level is read there. Only at the levels of left-grouping operators can
it be the left operand of what follows. -/
theorem Fits.readsLeft (h : Fits level e) :
    Reads level e ∧ (level.IsOperation → ReadsLeft level e) := by
  induction h with
  | name => exact reads_name.anywhere
  | numeral signed => exact (reads_numeral signed).anywhere
  | component => exact reads_component.anywhere
  | element => exact reads_element.anywhere
  | call _ each heach =>
    exact (reads_call (fun e he => (heach e he).1) fun e he => (each e he).head).anywhere
  | paren _ hinner => exact (reads_paren hinner.1).anywhere
  | @arith level operator left right loose _ _ hleft hright =>
    have hlevel : operator.level.IsOperation := by
      cases operator <;> simp [Level.IsOperation, Arith.level]
    have htighter : operator.rightLevel = operator.level.tighter := by cases operator <;> rfl
    refine ReadsLeft.loosenTo hlevel ?_ loose
    refine ReadsLeft.extend (hleft.2 hlevel) (htighter ▸ hright.1) ?_ ?_ rfl
    · cases operator <;> rfl
    · cases operator <;> decide
  | @compare level operator left right loose _ _ hleft hright =>
    have hlevel : operator.level.IsOperation := by
      cases operator <;> simp [Level.IsOperation, Comparison.level]
    have htighter : operator.rightLevel = operator.level.tighter := by cases operator <;> rfl
    refine ReadsLeft.loosenTo hlevel ?_ loose
    refine ReadsLeft.extend (hleft.2 hlevel) (htighter ▸ hright.1) ?_ ?_ rfl
    · cases operator <;> rfl
    · cases operator <;> decide
  -- Chains bind looser than every operator, so they are never the left operand of one.
  | all loose several _ heach =>
    exact ⟨(reads_all several fun e he => (heach e he).1).loosenTo loose,
      fun hlevel => absurd hlevel.rank_lt (Nat.not_lt.2 loose)⟩
  | any loose several _ heach =>
    exact ⟨(reads_any several fun e he => (heach e he).1).loosenTo loose,
      fun hlevel => absurd hlevel.rank_lt (Nat.not_lt.2 (loose.trans (by decide)))⟩
  | choice _ _ _ hcondition hyes hno =>
    exact ⟨reads_choice hcondition.1 hyes.1 hno.1, fun hlevel => absurd hlevel.rank_lt (by decide)⟩

/-- The tokens of an expression are read as the expression. -/
theorem Fits.expression (h : Fits .choice e) {rest : List Token} (hrest : Level.choice.Ends rest) :
    Reader.expression (e.tokens ++ rest) = some (e, rest) :=
  h.readsLeft.1 _ rest (by simp only [List.length_append]; omega) hrest

theorem Fits.expression_tokens (h : Fits .choice e) :
    Reader.expression e.tokens = some (e, []) := by
  have hends : Level.choice.Ends [] := nofun
  have hread := h.expression hends
  rwa [List.append_nil] at hread

theorem Fits.wholeExpression (h : Fits .choice e) :
    Reader.wholeExpression e.tokens = some e := by
  rw [Reader.wholeExpression, h.expression_tokens]

theorem not_mem_intercalate {t separator : Token} (hne : t ≠ separator) {operands : List Expr}
    (h : ∀ e ∈ operands, t ∉ e.tokens) : t ∉ [separator].intercalate (tokenLists operands) := by
  intro hmem
  rcases Text.mem_or_exists_of_mem_intercalate hmem with hmem | ⟨toks, htoks, hmem⟩
  · exact hne (List.mem_singleton.1 hmem)
  · rw [tokenLists_eq_map] at htoks
    obtain ⟨e, he, rfl⟩ := List.mem_map.1 htoks
    exact h e he hmem

/-- No expression contains a semicolon. -/
theorem Fits.semicolon_not_mem (h : Fits level e) : .symbol [';'] ∉ e.tokens := by
  -- Each form adds tokens of its own between those of its parts, and none is a semicolon.
  induction h with
  | @numeral level text signed =>
    simp only [tokens, numeralTokens]
    split <;> simp
  | @arith level operator left right _ _ _ hleft hright =>
    have hoperator : operator.token ≠ .symbol [';'] := by cases operator <;> decide
    simp [tokens, hleft, hright, hoperator.symm]
  | @compare level operator left right _ _ _ hleft hright =>
    have hoperator : operator.token ≠ .symbol [';'] := by cases operator <;> decide
    simp [tokens, hleft, hright, hoperator.symm]
  | choice _ _ _ hcondition hyes hno => simp [tokens, hcondition, hyes, hno]
  | paren _ hinner => simp [tokens, hinner]
  | @call level function arguments _ _ heach =>
    have harguments : .symbol [';'] ∉ [.symbol [',']].intercalate (tokenLists arguments) :=
      not_mem_intercalate (by decide) heach
    simp [tokens, harguments]
  | all _ _ _ heach | any _ _ _ heach => exact not_mem_intercalate (by decide) heach
  | name | component | element => simp [tokens]

theorem Fits.terminated (h : Fits .choice e) (rest : List Token) :
    Reader.terminated (e.tokens ++ .symbol [';'] :: rest) = some (e, rest) := by
  rw [Reader.terminated_append h.semicolon_not_mem, h.wholeExpression]
  rfl

end Expr

/-! ## Statements -/

open Reader

theorem block_of_terminated {value : Expr} {toks : List Token}
    (h : ∀ rest, terminated (toks ++ .symbol [';'] :: rest) = some (value, rest))
    (rest : List Token) :
    block (.symbol ['{'] :: .word "return".toList ::
      (toks ++ .symbol [';'] :: .symbol ['}'] :: rest)) = some (value, rest) := by
  refine step (expect_cons _ _) (step (expect_cons _ _) ?_)
  exact step (h _) (step (expect_cons _ _) rfl)

theorem block_tokens {value : Expr} (h : value.Fits .choice) (rest : List Token) :
    block (blockTokens value ++ rest) = some (value, rest) := by
  simpa [blockTokens] using block_of_terminated h.terminated rest

theorem arm_of_block {guard value : Expr} (h : guard.Fits .choice) {toks rest : List Token}
    (hblock : block toks = some (value, rest)) :
    Reader.arm (.symbol ['('] :: (guard.tokens ++ .symbol [')'] :: toks)) =
      some (⟨guard, value⟩, rest) := by
  refine step (expect_cons _ _) ?_
  refine step (h.expression (Level.ends_cons (by decide) _)) (step (expect_cons _ _) ?_)
  exact step hblock rfl

theorem Arm.Legible.reads {arm : Arm} (h : arm.Legible) (rest : List Token) :
    Reader.arm (arm.tokens ++ rest) = some (arm, rest) := by
  simpa [Arm.tokens] using arm_of_block h.1 (block_tokens h.2 rest)

namespace Stmt

/-- The arms behind the first one and the fallback are read up to what is no `else`. -/
theorem reads_otherwise {others : List Arm} {fallback : Option Expr} {rest : List Token}
    (hothers : ∀ arm ∈ others, arm.Legible) (hfallback : ∀ value ∈ fallback, value.Fits .choice)
    (hrest : rest.head? ≠ some (.word "else".toList)) {steps : Nat}
    (hsteps : others.length < steps) :
    otherwise steps
      (others.flatMap (fun arm => .word "else".toList :: .word "if".toList :: arm.tokens) ++
        fallbackTokens fallback ++ rest) = some ((others, fallback), rest) := by
  -- Every arm takes up one step, so the bound goes down with the arms.
  induction others generalizing steps with
  | nil =>
    obtain ⟨steps, rfl⟩ : ∃ n, steps = n + 1 := ⟨steps - 1, by simp at hsteps; omega⟩
    cases fallback with
    | none => exact step (accept_of_ne hrest) rfl
    | some value =>
      simp only [List.flatMap_nil, List.nil_append, fallbackTokens, List.cons_append, otherwise]
      refine step (accept_cons _ _) ?_
      rw [if_pos rfl]
      refine step (accept_of_ne (by simp [blockTokens])) ?_
      rw [if_neg Bool.false_ne_true]
      exact step (block_tokens (hfallback value rfl) rest) rfl
  | cons arm others ih =>
    obtain ⟨steps, rfl⟩ : ∃ n, steps = n + 1 := ⟨steps - 1, by simp at hsteps; omega⟩
    have hrec := ih (fun a ha => hothers a (List.mem_cons_of_mem _ ha))
      (Nat.lt_of_succ_lt_succ hsteps)
    simp only [List.flatMap_cons, List.cons_append, List.append_assoc, otherwise] at hrec ⊢
    refine step (accept_cons _ _) ?_
    rw [if_pos rfl]
    refine step (accept_cons _ _) ?_
    rw [if_pos rfl]
    exact step ((hothers arm List.mem_cons_self).reads _) (step hrec rfl)

theorem type?_text (type : Ty) : type? type.text = some type := by
  cases type <;> rfl

theorem type?_of_not_reserved {name : String} (h : name ∉ reserved) : type? name = none := by
  unfold type?
  split <;> simp_all [reserved]

/-- A chain is read once its first arm is. -/
theorem statement_of_arm {first : Arm} {others : List Arm} {fallback : Option Expr}
    {toks rest : List Token}
    (hfirst : Reader.arm toks = some (first,
      others.flatMap (fun arm => .word "else".toList :: .word "if".toList :: arm.tokens) ++
        (fallbackTokens fallback ++ rest)))
    (hothers : ∀ arm ∈ others, arm.Legible) (hfallback : ∀ value ∈ fallback, value.Fits .choice)
    (hrest : rest.head? ≠ some (.word "else".toList)) :
    statement (.word "if".toList :: toks) = some (.giveFirst first others fallback, rest) := by
  refine step (word_cons _ _) ?_
  rw [String.ofList_toList, if_neg (by decide), if_pos rfl]
  have hlength := length_le_length_flatMap others
    fun arm => List.cons_ne_nil (.word "else".toList) (.word "if".toList :: arm.tokens)
  have hotherwise := reads_otherwise hothers hfallback hrest (Nat.lt_succ_of_le (hlength.trans
    ((List.sublist_append_left _ (fallbackTokens fallback ++ rest)).length_le)))
  rw [List.append_assoc] at hotherwise
  exact step hfirst (step (a := (others, fallback)) hotherwise rfl)

/-- A legible statement is read up to what is no `else`. -/
theorem Legible.reads {s : Stmt} (h : s.Legible) {rest : List Token}
    (hrest : rest.head? ≠ some (.word "else".toList)) :
    statement (s.tokens ++ rest) = some (s, rest) := by
  cases s with
  | declare type name value =>
    simp only [tokens, List.cons_append, List.append_assoc, List.nil_append]
    refine step (word_cons _ _) ?_
    rw [String.ofList_toList, if_neg (by cases type <;> decide), if_neg (by cases type <;> decide),
      type?_text]
    refine step (word_cons _ _) (step (expect_cons _ _) (step (h.2.terminated rest) ?_))
    rw [String.ofList_toList]
    rfl
  | assign name value =>
    obtain ⟨_, hname, hvalue⟩ := h
    simp only [tokens, List.cons_append, List.append_assoc, List.nil_append]
    refine step (word_cons _ _) ?_
    -- The first word is no keyword and no type, so it is the name that is assigned to.
    rw [String.ofList_toList, if_neg (by rintro rfl; simp [reserved] at hname),
      if_neg (by rintro rfl; simp [reserved] at hname), type?_of_not_reserved hname]
    refine step (accept_cons _ _) ?_
    rw [if_pos rfl]
    exact step (hvalue.terminated rest) rfl
  | increase name value =>
    obtain ⟨_, hname, hvalue⟩ := h
    simp only [tokens, List.cons_append, List.append_assoc, List.nil_append]
    refine step (word_cons _ _) ?_
    rw [String.ofList_toList, if_neg (by rintro rfl; simp [reserved] at hname),
      if_neg (by rintro rfl; simp [reserved] at hname), type?_of_not_reserved hname]
    refine step (accept_of_ne (by simp)) ?_
    rw [if_neg Bool.false_ne_true]
    exact step (expect_cons _ _) (step (hvalue.terminated rest) rfl)
  | give value =>
    simp only [tokens, List.cons_append, List.append_assoc, List.nil_append]
    refine step (word_cons _ _) ?_
    rw [String.ofList_toList, if_pos rfl]
    exact step (Expr.Fits.terminated h rest) rfl
  | giveFirst first others fallback =>
    obtain ⟨hfirst, hothers, hfallback⟩ := h
    simp only [tokens, List.cons_append, List.append_assoc]
    exact statement_of_arm (hfirst.reads _) hothers hfallback hrest

theorem tokens_ne_nil (s : Stmt) : s.tokens ≠ [] := by
  cases s <;> simp [tokens]

/-- No statement starts with `else` or with a symbol. -/
theorem Legible.head {s : Stmt} (h : s.Legible) :
    ∃ w ts, s.tokens = .word w :: ts ∧ w ≠ "else".toList := by
  cases s with
  | declare type name value => cases type <;> simp [tokens, Ty.text]
  | assign name value | increase name value =>
    refine ⟨_, _, rfl, fun heq => h.2.1 ?_⟩
    rw [String.toList_inj.1 heq]
    simp [reserved]
  | give | giveFirst => simp [tokens]

end Stmt

/-- Statements are read up to the brace that closes them. -/
theorem reads_body {body : List Stmt} (h : ∀ s ∈ body, s.Legible) (rest : List Token) {steps : Nat}
    (hsteps : body.length < steps) :
    closedBy "\x7d" statement steps (body.flatMap Stmt.tokens ++ .symbol ['}'] :: rest) =
      some (body, rest) := by
  induction body generalizing steps with
  | nil =>
    obtain ⟨steps, rfl⟩ : ∃ n, steps = n + 1 := ⟨steps - 1, by simp at hsteps; omega⟩
    exact closedBy_close _ _ _
  | cons s body ih =>
    obtain ⟨steps, rfl⟩ : ∃ n, steps = n + 1 := ⟨steps - 1, by simp at hsteps; omega⟩
    have hs := h s List.mem_cons_self
    have hbody := fun t ht => h t (List.mem_cons_of_mem s ht)
    have hrec := ih hbody (Nat.lt_of_succ_lt_succ hsteps)
    -- Only an `else` could continue the statement, and no statement starts with one.
    have hnext : (body.flatMap Stmt.tokens ++ .symbol ['}'] :: rest).head? ≠
        some (.word "else".toList) := by
      cases body with
      | nil => simp
      | cons t body =>
        obtain ⟨w, ts, htokens, hw⟩ := (hbody t List.mem_cons_self).head
        simpa [htokens] using hw
    obtain ⟨w, ts, htokens, _⟩ := hs.head
    rw [List.flatMap_cons, List.append_assoc]
    exact closedBy_cons (by simp [htokens]) (hs.reads hnext) hrec

/-! ## Routines -/

theorem typeName_cons (type : Ty) (rest : List Token) :
    typeName (.word type.text.toList :: rest) = some (type, rest) := by
  refine step (word_cons _ _) ?_
  rw [String.ofList_toList, Stmt.type?_text]
  rfl

theorem Param.reads (p : Param) (rest : List Token) :
    Reader.param (p.tokens ++ rest) = some (p, rest) := by
  obtain ⟨fixed, type, name⟩ := p
  have hname : word (.word name.toList :: rest) = some (name, rest) := by
    rw [word_cons, String.ofList_toList]
  cases fixed with
  | true =>
    refine step (accept_cons _ _) (step (expect_cons _ _) ?_)
    exact step (typeName_cons type _) (step hname rfl)
  | false =>
    refine step (accept_of_ne ?_) (step (typeName_cons type _) (step hname rfl))
    cases type <;> simp [tokens, Ty.text]

theorem Param.head (p : Param) : ∃ t ts, p.tokens = t :: ts ∧ t ≠ .symbol [')'] := by
  obtain ⟨fixed, type, name⟩ := p
  cases fixed <;> simp [tokens]

namespace Routine

/-- A routine is read once its statements are. -/
theorem reads_of_body (r : Routine) {toks rest : List Token} {body : List Stmt}
    (hbody : bounded (closedBy "\x7d" statement) toks = some (body, rest)) :
    routine (.word r.result.text.toList :: .word r.name.toList :: .symbol ['('] ::
      ([.symbol [',']].intercalate (r.params.map Param.tokens) ++
        .symbol [')'] :: .symbol ['{'] :: toks)) =
      some ({ r with paragraphs := [body] }, rest) := by
  have hparams : listed param ([.symbol [',']].intercalate (r.params.map Param.tokens) ++
      .symbol [')'] :: .symbol ['{'] :: toks) = some (r.params, .symbol ['{'] :: toks) :=
    listed_intercalate (fun _ => True) (fun p _ rest _ => p.reads rest) (fun p _ => p.head)
      (fun _ => trivial) (fun _ => trivial)
  refine step (typeName_cons r.result _) (step (word_cons _ _) ?_)
  refine step (expect_cons _ _) (step hparams (step (expect_cons _ _) (step hbody ?_)))
  rw [String.ofList_toList]
  rfl

/-- A legible routine is read without its division into paragraphs. -/
theorem Legible.reads {r : Routine} (h : r.Legible) (rest : List Token) :
    routine (r.tokens ++ rest) = some (r.joined, rest) := by
  -- The bound is the number of tokens, and no statement is without one.
  have hbody : bounded (closedBy "\x7d" statement)
      (r.body.flatMap Stmt.tokens ++ .symbol ['}'] :: rest) = some (r.body, rest) := by
    refine reads_body h.body rest (Nat.lt_succ_of_le ?_)
    refine (length_le_length_flatMap r.body Stmt.tokens_ne_nil).trans ?_
    exact (List.sublist_append_left _ _).length_le
  simpa [tokens, joined] using r.reads_of_body hbody

theorem tokens_ne_nil (r : Routine) : r.tokens ≠ [] := by simp [tokens]

/-- The tokens of legible routines are read as these. -/
theorem reads_all {rs : List Routine} (h : ∀ r ∈ rs, r.Legible) {steps : Nat}
    (hsteps : rs.length < steps) :
    routines steps (rs.flatMap tokens) = some (rs.map joined, []) := by
  induction rs generalizing steps with
  | nil =>
    obtain ⟨steps, rfl⟩ : ∃ n, steps = n + 1 := ⟨steps - 1, by simp at hsteps; omega⟩
    exact step rfl rfl
  | cons r rs ih =>
    obtain ⟨steps, rfl⟩ : ∃ n, steps = n + 1 := ⟨steps - 1, by simp at hsteps; omega⟩
    have hrec := ih (fun t ht => h t (List.mem_cons_of_mem r ht)) (Nat.lt_of_succ_lt_succ hsteps)
    refine step rfl ?_
    rw [if_neg (by simp [tokens_ne_nil])]
    exact step ((h r List.mem_cons_self).reads _) (step hrec rfl)

end Routine

end Glsl

end CellularShader
