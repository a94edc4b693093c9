/- # What the tests of counts decide

The runs that cover a set of counts cover nothing else, so the test made of them holds for the
counts of the set. Joining counts with equal chances changes no outcome, and a run without a test is
one that never fires.
-/

import CellularShader.Automaton
import CellularShader.Proofs.Glsl.Evaluation
import CellularShader.Proofs.Glsl.Grammar

namespace CellularShader

open Glsl Glsl.Expr

namespace Run

/-- Whether a number lies in a run. -/
def covers (r : Run) (n : Int) : Bool := r.first.toInt ≤ n && n ≤ r.last.toInt

/-- A run that covers something. -/
def Ordered (r : Run) : Prop := r.first.toInt ≤ r.last.toInt

theorem ordered_single (count : Int32) : (single count).Ordered := le_refl _

theorem covers_single (count : Int32) (n : Int) :
    (single count).covers n = decide (count.toInt = n) := by
  rw [covers, ← Bool.decide_and, decide_eq_decide]
  exact le_antisymm_iff.symm

/-- A run that starts directly after a count covers one number more when it is extended. -/
theorem covers_extend {r : Run} (h : r.Ordered) {count : Int32} (hfollows : Follows r.first count)
    (n : Int) : (⟨count, r.last⟩ : Run).covers n = (decide (count.toInt = n) || r.covers n) := by
  simp only [Ordered, Follows] at h hfollows
  simp only [covers, ← Bool.decide_and, ← Bool.decide_or, decide_eq_decide]
  omega

theorem ordered_extend {r : Run} (h : r.Ordered) {count : Int32}
    (hfollows : Follows r.first count) : (⟨count, r.last⟩ : Run).Ordered := by
  simp only [Ordered, Follows] at h hfollows ⊢
  omega

theorem mem_insertCount {count c : Int32} {counts : List Int32} :
    c ∈ insertCount count counts ↔ c = count ∨ c ∈ counts := by
  fun_induction insertCount count counts with
  | case1 => simp
  | case2 => simp
  | case3 d rest _ _ ih =>
    rw [List.mem_cons, ih, List.mem_cons]
    exact or_left_comm
  | case4 d rest hlt hgt =>
    have heq : count = d := by
      rw [Int32.lt_iff_toInt_lt] at hlt hgt
      exact Int32.toInt_inj.1 (by omega)
    simp [heq]

theorem mem_distinct {c : Int32} {counts : List Int32} : c ∈ distinct counts ↔ c ∈ counts := by
  induction counts with
  | nil => rfl
  | cons d counts ih =>
    rw [distinct, List.foldr_cons, mem_insertCount, List.mem_cons]
    exact or_congr_right ih

/-- The runs of a list cover the counts of the list. -/
theorem group_spec (counts : List Int32) :
    (∀ r ∈ group counts, r.Ordered) ∧
      ∀ n, (group counts).any (·.covers n) = counts.any (·.toInt = n) := by
  induction counts with
  | nil => simp [group]
  | cons c counts ih =>
    rw [group, List.foldr_cons, ← group]
    -- Only what the induction says about the runs so far is needed from here on.
    generalize group counts = runs at ih
    obtain ⟨hordered, hcovers⟩ := ih
    unfold prepend
    split
    · exact ⟨by simp [ordered_single], by simp [covers_single, ← hcovers]⟩
    · rename_i r rest
      have hr := hordered r List.mem_cons_self
      split
      · rename_i hfollows
        -- The count is joined to the first run, which covers it and what it covered before.
        refine ⟨fun s hs => ?_, fun n => ?_⟩
        · rcases List.mem_cons.1 hs with rfl | hs
          · exact ordered_extend hr hfollows
          · exact hordered s (List.mem_cons_of_mem _ hs)
        · simp [covers_extend hr hfollows, ← hcovers, Bool.or_assoc]
      · refine ⟨fun s hs => ?_, fun n => ?_⟩
        · rcases List.mem_cons.1 hs with rfl | hs
          · exact ordered_single c
          · exact hordered s hs
        · simp [covers_single, ← hcovers]

theorem ordered_of_mem_cover {counts : List Int32} {r : Run} (h : r ∈ cover counts) : r.Ordered :=
  (group_spec (distinct counts)).1 r h

/-- The runs of a set of counts cover exactly these. -/
theorem any_covers_cover (counts : List Int32) (n : Int) :
    (cover counts).any (·.covers n) = counts.any (·.toInt = n) := by
  rw [cover, (group_spec _).2, Bool.eq_iff_iff]
  simp [mem_distinct]

/-! ## Their tests -/

variable {env : Environment} {F : Format} {counter : String} {n : Int}

/-- The comparisons of a run hold together for what it covers. -/
theorem bounds_decide {r : Run} (hr : r.Ordered) (hcounter : env.lookup counter = some (.int n)) :
    DecideTogether env F (r.bounds counter) (r.covers n) := by
  have hcompare (operator : Comparison) (k : Int) :
      Decides env F (.compare operator (.name counter) (.int k)) (operator.onInt n k) :=
    decides_compare operator hcounter (eval_int k)
  unfold bounds
  split
  · exact (hcompare .ge r.first.toInt).together.append (hcompare .le r.last.toInt).together
  · rename_i hrange
    -- A run that is no range is a single count, tested for equality.
    have hsame : r.first.toInt = r.last.toInt := by
      rw [isRange, decide_eq_true_eq, Int32.lt_iff_toInt_lt] at hrange
      exact le_antisymm hr (not_lt.1 hrange)
    have hcovers : r.covers n = Comparison.eq.onInt n r.first.toInt := by
      simp only [covers, Comparison.onInt, ← Bool.decide_and, decide_eq_decide]
      omega
    exact hcovers ▸ (hcompare .eq r.first.toInt).together

theorem decides_test {r : Run} (hr : r.Ordered) (hcounter : env.lookup counter = some (.int n)) :
    Decides env F (r.test counter) (r.covers n) := by
  have hbounds : DecideTogether env F (r.bounds counter) (r.covers n) := bounds_decide hr hcounter
  unfold test
  split
  · rename_i comparison heq
    obtain ⟨outcomes, hall, houtcome⟩ := hbounds
    rw [heq] at hall
    cases hall with
    | cons hhead htail =>
      -- A single comparison stands without parentheses.
      cases htail
      simpa [← houtcome] using hhead
  · exact hbounds.all.paren

theorem fits_bounds (r : Run) (hcounter : Token.isWord counter.toList = true) :
    ∀ e ∈ r.bounds counter, Fits .equality e := by
  have hcompare (operator : Comparison) (k : Int) :
      Fits .equality (.compare operator (.name counter) (.int k)) :=
    .compare (by cases operator <;> decide) (.name hcounter) (fits_int k)
  unfold bounds
  split <;> simp [hcompare]

theorem fits_test (r : Run) (hcounter : Token.isWord counter.toList = true) :
    Fits .equality (r.test counter) := by
  have hbounds := r.fits_bounds hcounter
  unfold test
  split
  · rename_i comparison heq
    exact hbounds comparison (by simp [heq])
  · rename_i hseveral
    refine .paren (.all (by decide) ?_ hbounds)
    revert hseveral
    unfold bounds
    split <;> simp

end Run

namespace Glsl.Expr

variable {env : Environment} {F : Format} {counter : String}

theorem decides_oneOf {clauses : List Expr} {outcomes : List Bool}
    (h : List.Forall₂ (Decides env F) clauses outcomes) :
    Decides env F (oneOf clauses) (outcomes.any id) := by
  match clauses, h with
  | [], .nil => rfl
  | [clause], .cons hclause .nil => simpa [oneOf] using hclause
  | _ :: _ :: _, h => exact (decides_any h).paren

theorem fits_oneOf {clauses : List Expr} (h : ∀ e ∈ clauses, Fits .equality e) :
    Fits .equality (oneOf clauses) := by
  match clauses with
  | [] => exact .name (by decide)
  | [clause] => exact h clause List.mem_cons_self
  | _ :: _ :: _ =>
    exact .paren (.any (by decide) (by simp) fun e he => (h e he).mono (by decide))

/-- The test of counts holds for these and for no other integer. -/
theorem decides_isCount_any (counts : List Int32) {n : Int}
    (hcounter : env.lookup counter = some (.int n)) :
    Decides env F (isCount counts counter) (counts.any (·.toInt = n)) := by
  have hclauses : List.Forall₂ (Decides env F) ((Run.cover counts).map (·.test counter))
      ((Run.cover counts).map (·.covers n)) := by
    rw [List.forall₂_map_left_iff, List.forall₂_map_right_iff, List.forall₂_same]
    exact fun r hr => Run.decides_test (Run.ordered_of_mem_cover hr) hcounter
  have h := decides_oneOf hclauses
  rwa [List.any_map, Function.id_comp, Run.any_covers_cover] at h

/-- The test of counts among the numbers of neighbours. -/
theorem decides_isCount (counts : List Int32) {n : Nat}
    (hcounter : env.lookup counter = some (.int n)) :
    Decides env F (isCount counts counter) (amongCounts counts n) :=
  decides_isCount_any counts hcounter

theorem fits_isCount (counts : List Int32) (hcounter : Token.isWord counter.toList = true) :
    Fits .equality (isCount counts counter) := by
  refine fits_oneOf fun e he => ?_
  obtain ⟨r, _, rfl⟩ := List.mem_map.1 he
  exact r.fits_test hcounter

end Glsl.Expr

namespace ChanceRun

/-- Whether a chance lets a count fire under a draw. -/
def admits (chance : Double) (draw : Rat) : Bool :=
  chance.equals certain || chance.isPositive && draw < chance.toRat

theorem admits_iff {chance : Double} {draw : Rat} : admits chance draw = true ↔
    chance.equals certain = true ∨ chance.isPositive = true ∧ draw < chance.toRat := by
  simp only [admits, Bool.or_eq_true, Bool.and_eq_true, decide_eq_true_eq]

theorem admits_of_equals {a b : Double} (h : a.equals b = true) (draw : Rat) :
    admits a draw = admits b draw := by
  obtain ⟨ha, hb, hvalue⟩ := Binary.equals_iff.1 h
  -- Equal numbers differ in the sign of zero at most, which no test looks at.
  have hequals : a.equals certain = b.equals certain := by simp [Binary.equals, ha, hb, hvalue]
  have hrat : a.toRat = b.toRat := by rw [Binary.toRat, Binary.toRat, hvalue]
  rw [admits, admits, hequals, Binary.isPositive_of_equals h, hrat]

/-- Whether a count fires by a run. -/
def firesAt (r : ChanceRun) (n : Int) (draw : Rat) : Bool := r.run.covers n && admits r.chance draw

/-- The runs of a list of chances fire where an entry does, and their chances are those of
entries. -/
theorem foldr_prepend_spec (entries : List (Int32 × Double)) :
    (∀ r ∈ entries.foldr prepend [], r.run.Ordered ∧ ∃ e ∈ entries, e.2 = r.chance) ∧
      ∀ n draw, (entries.foldr prepend []).any (·.firesAt n draw) =
        entries.any fun e => decide (e.1.toInt = n) && admits e.2 draw := by
  induction entries with
  | nil => simp
  | cons entry entries ih =>
    rw [List.foldr_cons]
    generalize entries.foldr prepend [] = runs at ih
    obtain ⟨hruns, hfires⟩ := ih
    have hsingle : (⟨.single entry.1, entry.2⟩ : ChanceRun).run.Ordered ∧
        ∃ e ∈ entry :: entries, e.2 = entry.2 :=
      ⟨Run.ordered_single _, entry, List.mem_cons_self, rfl⟩
    have hrest : ∀ r ∈ runs, r.run.Ordered ∧ ∃ e ∈ entry :: entries, e.2 = r.chance := by
      intro r hr
      obtain ⟨hordered, e, he, hchance⟩ := hruns r hr
      exact ⟨hordered, e, List.mem_cons_of_mem _ he, hchance⟩
    unfold prepend
    split
    · exact ⟨by simpa using hsingle, by simp [firesAt, Run.covers_single, ← hfires]⟩
    · rename_i r rest
      have hr := (hruns r List.mem_cons_self).1
      split
      · rename_i hjoin
        refine ⟨fun s hs => ?_, fun n draw => ?_⟩
        · rcases List.mem_cons.1 hs with rfl | hs
          · exact ⟨Run.ordered_extend hr hjoin.1, entry, List.mem_cons_self, rfl⟩
          · exact hrest s (List.mem_cons_of_mem _ hs)
        · simp only [List.any_cons, ← hfires, firesAt, Run.covers_extend hr hjoin.1,
            admits_of_equals hjoin.2, Bool.and_or_distrib_right, Bool.or_assoc]
      · refine ⟨fun s hs => ?_, fun n draw => ?_⟩
        · rcases List.mem_cons.1 hs with rfl | hs
          · exact hsingle
          · exact hrest s hs
        · simp only [List.any_cons, ← hfires, firesAt, Run.covers_single]

/-- The runs of chances fire where these do. -/
theorem any_firesAt_cover (chances : Chances) (n : Int) (draw : Rat) :
    (cover chances).any (·.firesAt n draw) =
      chances.entries.any fun e => decide (e.1.toInt = n) && admits e.2 draw :=
  (foldr_prepend_spec chances.entries).2 n draw

/-! ## Their tests -/

variable {env : Environment} {counter position : String} {n : Int} {u : Rat}

/-- The draw at a position is what the source of draws gives there. -/
theorem eval_draw {place : Glsl.Value} (hposition : env.lookup position = some place)
    (hdraw : env.call "rand" [place, .float 1] = some (.float u)) :
    (draw position).eval env .double = some (.float u) := by
  have hone : Value.ofNumeral? .double "1." = some (.float 1) := by decide +kernel
  simp [draw, eval, evalEach, literalFormat, hposition, hone, hdraw]

theorem isFinite_of_isPositive {x : Double} (hx : x.isFinite = true ∨ x.isNaN = true)
    (hpositive : x.isPositive = true) : x.isFinite = true := by
  refine hx.resolve_right fun hnan => ?_
  simp [Binary.isPositive, hnan] at hpositive

/-- A run that has a test fires when the test holds, and one that has none never fires. -/
theorem decides_test? {r : ChanceRun} (hr : r.run.Ordered)
    (hchance : r.chance.isFinite = true ∨ r.chance.isNaN = true)
    (hcounter : env.lookup counter = some (.int n))
    (hdraw : (draw position).eval env .double = some (.float u)) :
    match r.test? counter position with
    | some e => Decides env .double e (r.firesAt n u)
    | none => r.firesAt n u = false := by
  -- A certain count needs no draw, a positive chance is compared with it, others have no test.
  by_cases hcertain : r.chance.equals certain = true
  · rw [test?, if_pos hcertain]
    simpa [firesAt, admits, hcertain] using Run.decides_test (F := .double) hr hcounter
  by_cases hpositive : r.chance.isPositive = true
  · rw [test?, if_neg hcertain, if_pos hpositive]
    have hfinite := isFinite_of_isPositive hchance hpositive
    obtain ⟨v, hv, hvalue⟩ : ∃ v, (float r.chance).eval env .double = some v ∧
        v.toFloat? = some r.chance.toRat := eval_float hfinite
    have hbelow : Decides env .double (.compare .lt (draw position) (.float r.chance))
        (decide (u < r.chance.toRat)) := by
      simp [Decides, eval, hdraw, hv, hvalue, Comparison.holds]
    have hall := ((Run.bounds_decide hr hcounter).append hbelow.together).all.paren
    simpa [firesAt, admits, hcertain, hpositive] using hall
  · rw [test?, if_neg hcertain, if_neg hpositive]
    simp [firesAt, admits, hcertain, hpositive]

theorem fits_test? {r : ChanceRun} (hchance : r.chance.isFinite = true ∨ r.chance.isNaN = true)
    (hcounter : Token.isWord counter.toList = true)
    (hposition : Token.isWord position.toList = true) :
    ∀ e ∈ r.test? counter position, Fits .equality e := by
  intro e he
  unfold test? at he
  split at he
  · cases he
    exact r.run.fits_test hcounter
  split at he
  · rename_i hpositive
    cases he
    have hfinite := isFinite_of_isPositive hchance hpositive
    have hdraw : Fits .order (draw position) := by
      refine .call (by decide) fun e he => ?_
      simp only [List.mem_cons, List.not_mem_nil, or_false] at he
      rcases he with rfl | rfl
      · exact .name hposition
      · exact .numeral (.plain (by decide))
    have hbelow : Fits .equality (.compare .lt (draw position) (.float r.chance)) :=
      .compare (by decide) hdraw (fits_float hfinite)
    refine .paren (.all (by decide) ?_ fun e he => ?_)
    · have hne : r.run.bounds counter ≠ [] := by
        unfold Run.bounds
        split <;> simp
      simpa [Nat.succ_le_iff] using List.length_pos_iff.2 hne
    · rcases List.mem_append.1 he with he | he
      · exact r.run.fits_bounds hcounter e he
      · exact List.mem_singleton.1 he ▸ hbelow
  · cases he

end ChanceRun

namespace Glsl.Expr

variable {env : Environment} {counter position : String} {u : Rat} {chances : Chances}

/-- The test of chances holds where an entry fires. -/
theorem decides_fires_any
    (hchances : ∀ e ∈ chances.entries, e.2.isFinite = true ∨ e.2.isNaN = true) {n : Int}
    (hcounter : env.lookup counter = some (.int n))
    (hdraw : (ChanceRun.draw position).eval env .double = some (.float u)) :
    Decides env .double (fires chances counter position)
      (chances.entries.any fun e => decide (e.1.toInt = n) && ChanceRun.admits e.2 u) := by
  have hruns := (ChanceRun.foldr_prepend_spec chances.entries).1
  rw [← ChanceRun.any_firesAt_cover, fires]
  rw [← ChanceRun.cover] at hruns
  generalize ChanceRun.cover chances = runs at hruns
  -- Runs without a test are left out of the clauses, and they do not fire.
  have hclauses : ∃ outcomes, List.Forall₂ (Decides env .double)
      (runs.filterMap (·.test? counter position)) outcomes ∧
        outcomes.any id = runs.any (·.firesAt n u) := by
    induction runs with
    | nil => exact ⟨[], .nil, rfl⟩
    | cons r runs ih =>
      obtain ⟨outcomes, hclauses, houtcomes⟩ := ih fun s hs => hruns s (List.mem_cons_of_mem _ hs)
      obtain ⟨hordered, e, he, hchance⟩ := hruns r List.mem_cons_self
      have htest := ChanceRun.decides_test? hordered (hchance ▸ hchances e he) hcounter hdraw
      cases heq : r.test? counter position with
      | none =>
        rw [heq] at htest
        refine ⟨outcomes, ?_, ?_⟩
        · simpa [List.filterMap_cons, heq] using hclauses
        · simpa [htest] using houtcomes
      | some test =>
        rw [heq] at htest
        refine ⟨r.firesAt n u :: outcomes, ?_, by simp [houtcomes]⟩
        simpa [List.filterMap_cons, heq] using ⟨htest, hclauses⟩
  obtain ⟨outcomes, hclauses, houtcomes⟩ := hclauses
  exact houtcomes ▸ decides_oneOf hclauses

/-- The test of chances among the numbers of neighbours. -/
theorem decides_fires (hchances : ∀ e ∈ chances.entries, e.2.isFinite = true ∨ e.2.isNaN = true)
    {n : Nat} (hcounter : env.lookup counter = some (.int n))
    (hdraw : (ChanceRun.draw position).eval env .double = some (.float u)) :
    Decides env .double (fires chances counter position) (chances.fire n u) :=
  decides_fires_any hchances hcounter hdraw

theorem fits_fires (hchances : ∀ e ∈ chances.entries, e.2.isFinite = true ∨ e.2.isNaN = true)
    (hcounter : Token.isWord counter.toList = true)
    (hposition : Token.isWord position.toList = true) :
    Fits .equality (fires chances counter position) := by
  refine fits_oneOf fun e he => ?_
  obtain ⟨r, hr, htest⟩ := List.mem_filterMap.1 he
  obtain ⟨_, entry, hentry, hchance⟩ := (ChanceRun.foldr_prepend_spec chances.entries).1 r hr
  exact ChanceRun.fits_test? (hchance ▸ hchances entry hentry) hcounter hposition e htest

end Glsl.Expr

end CellularShader
