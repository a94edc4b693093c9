/- # States over whole runs

A shader with a cycle of states keeps a volume among the states of the cycle, and a voxel that
decays passes through its phases one step after the other, whatever happens around it. Both follow
from what one step does, by induction over the run.
-/

import CellularShader.Proofs.Shader

namespace CellularShader

namespace Volume

/-- Every voxel of the volume is in one of the given states. -/
def StatesIn (v : Volume) (states : Int → Prop) : Prop :=
  ∀ p : Point, v.contains p.toVec = true → states (v.state p)

end Volume

namespace Shader

/-- From its present state a voxel ascends by `stride` at every step and is dead after exactly
`steps` of them, whatever the host supplies. -/
def Fades (s : Shader) (v : Volume) (p : Point) (stride steps : Int) : Prop :=
  ∀ supplies : List Supply,
    (supplies.length < steps → (s.run supplies v).state p = v.state p + stride * supplies.length) ∧
      (supplies.length = steps → (s.run supplies v).state p = 0)

/-- Legible shaders of the families with a cycle of states. -/
structure Cycles (s : Shader) : Prop extends Legible s where
  tally : s.rule.tally = .matching
  modulus : s.rule.modulus ≠ 0

variable {s : Shader} {v : Volume} {p : Point}

/-! ## Steps and runs -/

/-- One step gives a voxel the next state of the rule. -/
theorem state_step (h : s.Cycles) (hp : v.contains p.toVec = true) (supply : Supply) :
    (s.step supply v).state p = s.rule.next (s.view v supply p) := by
  simp [step, next?_eq h.toLegible h.tally h.modulus hp]

theorem statesIn_step (h : s.Cycles) {states : Int → Prop}
    (hnext : ∀ w : View, states w.state → states (s.rule.next w)) (hv : v.StatesIn states)
    (supply : Supply) : (s.step supply v).StatesIn states := by
  intro p hp
  rw [state_step (v := v) h hp supply]
  exact hnext _ (hv p hp)

/-- States that the rule does not leave are not left in a run. -/
theorem statesIn_run (h : s.Cycles) {states : Int → Prop}
    (hnext : ∀ w : View, states w.state → states (s.rule.next w)) (hv : v.StatesIn states)
    (supplies : List Supply) : (s.run supplies v).StatesIn states := by
  induction supplies generalizing v with
  | nil => exact hv
  | cons supply supplies ih => exact ih (statesIn_step h hnext hv supply)

/-- A voxel fades that ascends to the length of the cycle. -/
theorem fades_of_next (h : s.Cycles) {low stride cycle : Int} (hlow : 0 ≤ low)
    (hstride : 0 < stride)
    (hnext : ∀ w : View, low ≤ w.state → s.rule.next w = Int.fmod (w.state + stride) cycle)
    {steps : Int} (hp : v.contains p.toVec = true) (hstate : low ≤ v.state p)
    (hcycle : v.state p + stride * steps = cycle) (hsteps : 0 < steps) :
    s.Fades v p stride steps := by
  intro supplies
  -- Each step leaves one phase less, so the volume and the number of steps change together.
  induction supplies generalizing v steps with
  | nil =>
    refine ⟨fun _ => by simp [run], fun hzero => ?_⟩
    simp only [List.length_nil] at hzero
    omega
  | cons supply supplies ih =>
    have hstep : (s.step supply v).state p = Int.fmod (v.state p + stride) cycle :=
      (state_step h hp supply).trans (hnext _ hstate)
    rw [show s.run (supply :: supplies) v = s.run supplies (s.step supply v) from rfl]
    simp only [List.length_cons]
    by_cases hlast : steps = 1
    · -- The last phase: the step reaches the length of the cycle, which is state zero again.
      subst hlast
      refine ⟨fun hshort => by omega, fun hlength => ?_⟩
      have hnil : supplies = [] := List.length_eq_zero_iff.1 (by omega)
      rw [hnil, show v.state p + stride = cycle by omega] at *
      simpa [run] using hstep
    · have hmany := mul_le_mul_of_nonneg_left (by omega : 2 ≤ steps) hstride.le
      rw [Int.fmod_eq_of_lt (by omega) (by omega)] at hstep
      have hcycle' : (s.step supply v).state p + stride * (steps - 1) = cycle := by
        rw [hstep, ← hcycle]
        ring
      have hrest := ih (v := s.step supply v) hp (by omega) hcycle' (by omega)
      rw [hstep] at hrest
      refine ⟨fun hshort => ?_, fun hlength => hrest.2 (by push_cast at hlength; omega)⟩
      rw [hrest.1 (by push_cast at hshort; omega)]
      push_cast
      ring

/-! ## The families -/

theorem generations_next {r : GenerationsRule} {w : View} (hstate : 2 ≤ w.state) :
    (Rule.generations r).next w = Int.fmod (w.state + 1) r.stateCount.toInt := by
  simp only [Rule.next]
  rw [if_neg (by omega), if_pos (by omega)]

theorem generations_next_mem {r : GenerationsRule} (hcount : 2 ≤ r.stateCount.toInt) (w : View) :
    0 ≤ (Rule.generations r).next w ∧ (Rule.generations r).next w < r.stateCount.toInt := by
  have hmod := Int.fmod_nonneg_of_pos (w.state + 1) (by omega : 0 < r.stateCount.toInt)
  have hmod' := Int.fmod_lt_of_pos (w.state + 1) (by omega : 0 < r.stateCount.toInt)
  simp only [Rule.next]
  split_ifs <;> omega

/-- The states of a decay in steps of two: dead, excited, and the phases. -/
def decayStates (phases state : Int) : Prop :=
  state = 1 ∨ ∃ j, 0 ≤ j ∧ j ≤ phases ∧ state = 2 * j

theorem nluky_next {r : NlukyRule} {w : View} (hstate : 2 ≤ w.state) :
    (Rule.nluky r).next w = Int.fmod (w.state + 2) (2 + 2 * r.stateCount.toInt) := by
  simp only [Rule.next]
  rw [if_neg (by omega), if_neg (by omega), if_pos hstate, NlukyRule.cycle]

theorem nluky_next_mem {r : NlukyRule} (hcount : 1 ≤ r.stateCount.toInt) (w : View)
    (hw : decayStates r.stateCount.toInt w.state) :
    decayStates r.stateCount.toInt ((Rule.nluky r).next w) := by
  by_cases hstate : 2 ≤ w.state
  · rw [nluky_next hstate]
    obtain hone | ⟨j, hj, hj', heq⟩ := hw
    · omega
    · rw [heq]
      -- The last phase is followed by the dead state.
      by_cases hlast : j = r.stateCount.toInt
      · refine .inr ⟨0, le_rfl, by omega, ?_⟩
        rw [show 2 * j + 2 = 2 + 2 * r.stateCount.toInt by omega, Int.fmod_self]
        rfl
      · refine .inr ⟨j + 1, by omega, by omega, ?_⟩
        rw [Int.fmod_eq_of_lt (by omega) (by omega)]
        ring
  · simp only [Rule.next]
    -- Below the decay a voxel is dead, excited or out of the cycle.
    split_ifs
    · exact .inl rfl
    · omega
    · exact .inr ⟨1, by omega, hcount, rfl⟩
    · exact .inr ⟨0, le_rfl, by omega, rfl⟩

theorem cyclic_next_mem {r : CyclicRule} (hcount : 1 ≤ r.stateCount.toInt) (w : View)
    (hw : 0 ≤ w.state ∧ w.state < r.stateCount.toInt) :
    0 ≤ (Rule.cyclic r).next w ∧ (Rule.cyclic r).next w < r.stateCount.toInt := by
  have hmod := Int.fmod_nonneg_of_pos (w.state + 1) (by omega : 0 < r.stateCount.toInt)
  have hmod' := Int.fmod_lt_of_pos (w.state + 1) (by omega : 0 < r.stateCount.toInt)
  simp only [Rule.next]
  split_ifs
  · exact ⟨hmod, hmod'⟩
  · exact hw

theorem cyclic_next {r : CyclicRule} (hmodel : r.greenbergHastings = true) {w : View}
    (hstate : 1 ≤ w.state) :
    (Rule.cyclic r).next w = Int.fmod (w.state + 1) r.stateCount.toInt := by
  simp only [Rule.next]
  rw [if_pos (Or.inr ⟨hmodel, by omega⟩)]

theorem generations_over_runs {r : GenerationsRule} (h : s.Legible)
    (hrule : s.rule = .generations r ∨ s.rule = .extendedGenerations r)
    (hcount : 2 ≤ r.stateCount.toInt) (v : Volume) :
    (v.StatesIn (fun k => 0 ≤ k ∧ k < r.stateCount.toInt) →
      ∀ supplies, (s.run supplies v).StatesIn fun k => 0 ≤ k ∧ k < r.stateCount.toInt) ∧
    ∀ p : Point, v.contains p.toVec = true → 2 ≤ v.state p → v.state p < r.stateCount.toInt →
      s.Fades v p 1 (r.stateCount.toInt - v.state p) := by
  -- Both families of generations have the same transition.
  have hnext (w : View) : s.rule.next w = (Rule.generations r).next w := by
    rcases hrule with hrule | hrule
    · rw [hrule]
    · rw [hrule]
      rfl
  have hcycles : s.Cycles := by
    rcases hrule with hrule | hrule <;>
      exact ⟨h, by rw [hrule]; rfl, by simp only [hrule, Rule.modulus]; omega⟩
  constructor
  · intro hv supplies
    refine statesIn_run hcycles (fun w _ => ?_) hv supplies
    rw [hnext]
    exact generations_next_mem hcount w
  · intro p hp hstate hbelow
    have hcycle : v.state p + 1 * (r.stateCount.toInt - v.state p) = r.stateCount.toInt := by ring
    exact fades_of_next hcycles (by decide) one_pos
      (fun w hw => (hnext w).trans (generations_next hw)) hp hstate hcycle (by omega)

theorem nluky_over_runs {r : NlukyRule} (h : s.Legible) (hrule : s.rule = .nluky r)
    (hcount : 1 ≤ r.stateCount.toInt) (v : Volume) :
    (v.StatesIn (decayStates r.stateCount.toInt) →
      ∀ supplies, (s.run supplies v).StatesIn (decayStates r.stateCount.toInt)) ∧
    ∀ p : Point, v.contains p.toVec = true → ∀ j, 1 ≤ j → j ≤ r.stateCount.toInt →
      v.state p = 2 * j → s.Fades v p 2 (r.stateCount.toInt + 1 - j) := by
  have hcycles : s.Cycles :=
    ⟨h, by rw [hrule]; rfl, by simp only [hrule, Rule.modulus, NlukyRule.cycle]; omega⟩
  constructor
  · intro hv supplies
    refine statesIn_run hcycles (fun w hw => ?_) hv supplies
    rw [hrule]
    exact nluky_next_mem hcount w hw
  · intro p hp j hj hj' hstate
    have hcycle : v.state p + 2 * (r.stateCount.toInt + 1 - j) = 2 + 2 * r.stateCount.toInt := by
      rw [hstate]
      ring
    refine fades_of_next hcycles (by decide) two_pos (fun w hw => ?_) hp
      (by omega : 2 ≤ v.state p) hcycle (by omega)
    rw [hrule]
    exact nluky_next hw

theorem cyclic_over_runs {r : CyclicRule} (h : s.Legible) (hrule : s.rule = .cyclic r)
    (hcount : 1 ≤ r.stateCount.toInt) (v : Volume) :
    (v.StatesIn (fun k => 0 ≤ k ∧ k < r.stateCount.toInt) →
      ∀ supplies, (s.run supplies v).StatesIn fun k => 0 ≤ k ∧ k < r.stateCount.toInt) ∧
    (r.greenbergHastings = true → ∀ p : Point, v.contains p.toVec = true → 0 < v.state p →
      v.state p < r.stateCount.toInt → s.Fades v p 1 (r.stateCount.toInt - v.state p)) := by
  have hcycles : s.Cycles :=
    ⟨h, by rw [hrule]; rfl, by simp only [hrule, Rule.modulus]; omega⟩
  constructor
  · intro hv supplies
    refine statesIn_run hcycles (fun w hw => ?_) hv supplies
    rw [hrule]
    exact cyclic_next_mem hcount w hw
  · intro hmodel p hp hstate hbelow
    have hcycle : v.state p + 1 * (r.stateCount.toInt - v.state p) = r.stateCount.toInt := by ring
    refine fades_of_next hcycles (by decide) one_pos (fun w hw => ?_) hp
      (by omega : 1 ≤ v.state p) hcycle (by omega)
    rw [hrule]
    exact cyclic_next hmodel hw

/-! ## Whole runs -/

/-- Over whole runs: states of a cycle stay in the cycle, and a voxel that has left the excited
state passes through the remaining phases in exactly as many steps, whatever its neighbours do. -/
theorem states_over_runs {s : Shader} (h : s.Legible) (v : Volume) :
    (∀ r, s.rule = .generations r ∨ s.rule = .extendedGenerations r → 2 ≤ r.stateCount.toInt →
      (v.StatesIn (fun k => 0 ≤ k ∧ k < r.stateCount.toInt) →
        ∀ supplies, (s.run supplies v).StatesIn fun k => 0 ≤ k ∧ k < r.stateCount.toInt) ∧
      ∀ p : Point, v.contains p.toVec = true → 2 ≤ v.state p → v.state p < r.stateCount.toInt →
        s.Fades v p 1 (r.stateCount.toInt - v.state p)) ∧
    (∀ r, s.rule = .nluky r → 1 ≤ r.stateCount.toInt →
      (v.StatesIn (decayStates r.stateCount.toInt) →
        ∀ supplies, (s.run supplies v).StatesIn (decayStates r.stateCount.toInt)) ∧
      ∀ p : Point, v.contains p.toVec = true → ∀ j, 1 ≤ j → j ≤ r.stateCount.toInt →
        v.state p = 2 * j → s.Fades v p 2 (r.stateCount.toInt + 1 - j)) ∧
    (∀ r, s.rule = .cyclic r → 1 ≤ r.stateCount.toInt →
      (v.StatesIn (fun k => 0 ≤ k ∧ k < r.stateCount.toInt) →
        ∀ supplies, (s.run supplies v).StatesIn fun k => 0 ≤ k ∧ k < r.stateCount.toInt) ∧
      (r.greenbergHastings = true → ∀ p : Point, v.contains p.toVec = true → 0 < v.state p →
        v.state p < r.stateCount.toInt → s.Fades v p 1 (r.stateCount.toInt - v.state p))) := by
  refine ⟨fun r hrule hcount => ?_, fun r hrule hcount => ?_, fun r hrule hcount => ?_⟩
  · exact generations_over_runs h hrule hcount v
  · exact nluky_over_runs h hrule hcount v
  · exact cyclic_over_runs h hrule hcount v

/-- A decay in three phases, with a state outside that no voxel has. -/
def ember : Shader where
  rule := .nluky { stateCount := 3, lowBirth := 1, highBirth := 2 }
  label := "3/0,0/1,2"
  neighbourhood := [.ofPoint ⟨1, 0, 0⟩, .ofPoint ⟨-1, 0, 0⟩]
  edge := .ofInt (-1)

theorem legible_ember : ember.Legible where
  offsets := by decide +kernel
  chances := trivial
  edge := .int (-1)
  label := by decide

/-- A host without arguments and draws. -/
def idleSupply : Supply := ⟨[], fun _ _ => 0⟩

/-- A voxel in the second phase is in the third after one step and dead after two. -/
theorem ember_dies :
    (ember.run [idleSupply] ⟨⟨2, 1, 1⟩, fun _ => 4⟩).state ⟨1, 0, 0⟩ = 6 ∧
      (ember.run [idleSupply, idleSupply] ⟨⟨2, 1, 1⟩, fun _ => 4⟩).state ⟨1, 0, 0⟩ = 0 := by
  have hfades := ((states_over_runs legible_ember ⟨⟨2, 1, 1⟩, fun _ => 4⟩).2.1 _ rfl (by decide)).2
    ⟨1, 0, 0⟩ (by decide +kernel) 2 (by decide) (by decide) rfl
  exact ⟨(hfades [idleSupply]).1 (by decide), (hfades [idleSupply, idleSupply]).2 (by decide)⟩

end Shader

end CellularShader
