import HetSim.Library.Runs

/-!
# Sleep and wake in the emulation library

`__sleep` counts itself and waits as long as its counter is positive; `__wake` counts down and
notifies. Both hold the mutex of the PE, so each is one step, and so is each test of the counter
by the waiting thread. The counts of calls and returns are history.
-/

namespace HetSim.Emulation
open Checked

structure PE where
  sleepCntr : ℤ
  waiting : Bool
  sleeps : ℕ
  returned : ℕ
  wakes : ℕ
  deriving DecidableEq

/-- `outOfRange` is the exception of `at`. `notThere` marks a call that the thread
of the PE cannot make where it is. -/
inductive Fault
  | outOfRange | notThere
  deriving DecidableEq

inductive Call
  | sleep (pe : ℕ)
  | resume (pe : ℕ)
  | wake (pe : ℕ)
  deriving DecidableEq

/-- `while (sleep_cntr > 0) wait`: one test of the condition. -/
def PE.test (p : PE) : PE :=
  if p.sleepCntr > 0 then { p with waiting := true }
  else { p with waiting := false, returned := p.returned + 1 }

def PE.sleep (p : PE) : PE :=
  { p with sleepCntr := p.sleepCntr + 1, sleeps := p.sleeps + 1 }.test

def PE.wake (p : PE) : PE := { p with sleepCntr := p.sleepCntr - 1, wakes := p.wakes + 1 }

def init (numPe : ℕ) : List PE := List.replicate numPe ⟨0, false, 0, 0, 0⟩

def step (s : List PE) : Call → Except Fault (List PE)
  | .sleep pe => do
    let p ← demand s[pe]? .outOfRange
    require (p.waiting = false) .notThere
    pure (s.set pe p.sleep)
  | .resume pe => do
    let p ← demand s[pe]? .outOfRange
    require (p.waiting = true) .notThere
    pure (s.set pe p.test)
  | .wake pe => do
    let p ← demand s[pe]? .outOfRange
    pure (s.set pe p.wake)

abbrev Reachable (numPe : ℕ) (s : List PE) : Prop := Runs.Reachable step (init numPe) s

/-- The counter is the difference of the calls, every call returned or still waits,
and a call returned only when as many WAKEs were executed. -/
structure PE.Lawful (p : PE) : Prop where
  counter : p.sleepCntr = p.sleeps - p.wakes
  calls : p.sleeps = p.returned + if p.waiting then 1 else 0
  returns : p.returned ≤ p.wakes

namespace PE.Lawful

variable {p : PE}

theorem wake (h : p.Lawful) : p.wake.Lawful := by
  obtain ⟨hc, hn, hr⟩ := h
  refine ⟨?_, hn, Nat.le_succ_of_le hr⟩
  simp only [PE.wake, hc]
  omega

theorem test (hc : p.sleepCntr = p.sleeps - p.wakes) (hn : p.sleeps = p.returned + 1)
    (hr : p.returned ≤ p.wakes) : p.test.Lawful := by
  unfold PE.test
  split_ifs with hpos
  · exact ⟨hc, hn, hr⟩
  · refine ⟨hc, hn, ?_⟩
    simp only
    omega

theorem sleep (h : p.Lawful) (hw : p.waiting = false) : p.sleep.Lawful := by
  obtain ⟨hc, hn, hr⟩ := h
  rw [hw] at hn
  refine test ?_ ?_ hr
  · simp only [hc]
    omega
  · simpa using hn

theorem resume (h : p.Lawful) (hw : p.waiting = true) : p.test.Lawful := by
  obtain ⟨hc, hn, hr⟩ := h
  rw [hw] at hn
  exact test hc hn hr

theorem sleep_returns (h : p.Lawful) (he : p.sleeps < p.wakes) : p.sleep.waiting = false := by
  have hc := h.counter
  have hle : ¬ (p.sleepCntr + 1 > 0) := by omega
  simp [PE.sleep, PE.test, hle]

theorem sleep_waits (h : p.Lawful) (he : p.sleeps = p.wakes) : p.sleep.waiting = true := by
  have hc := h.counter
  have hpos : p.sleepCntr + 1 > 0 := by omega
  simp [PE.sleep, PE.test, hpos]

theorem wake_returns (h : p.Lawful) (he : p.sleeps = p.wakes + 1) :
    p.wake.test.waiting = false := by
  have hc := h.counter
  have hle : ¬ (p.wake.sleepCntr > 0) := by
    simp only [PE.wake]
    omega
  rw [PE.test, if_neg hle]

end PE.Lawful

@[simp] theorem PE.test_calls (p : PE) : p.test.sleeps = p.sleeps ∧ p.test.wakes = p.wakes := by
  unfold PE.test
  split_ifs <;> exact ⟨rfl, rfl⟩

theorem step_sleep {s : List PE} {n : ℕ} {p : PE} (hp : s[n]? = some p) (hw : p.waiting = false) :
    step s (.sleep n) = .ok (s.set n p.sleep) := by
  simp [step, demand, require, hp, hw]

theorem run_wake {s : List PE} {n : ℕ} {p : PE} (hp : s[n]? = some p) (hw : p.waiting = true) :
    Runs.run step s [.wake n, .resume n] = .ok (s.set n p.wake.test) := by
  have hn : n < s.length := (List.getElem?_eq_some_iff.mp hp).1
  have hwake : step s (.wake n) = .ok (s.set n p.wake) := by simp [step, demand, hp]
  have hres : step (s.set n p.wake) (.resume n) = .ok (s.set n p.wake.test) := by
    have hw' : p.wake.waiting = true := hw
    simp [step, demand, require, List.getElem?_set_self hn, hw']
  rw [Runs.run_cons, hwake, ok_bind, Runs.run_cons, hres, ok_bind, Runs.run_nil]

theorem step_lawful {s t : List PE} {c : Call} (h : step s c = .ok t) (hs : ∀ p ∈ s, p.Lawful) :
    ∀ p ∈ t, p.Lawful := by
  intro q hq
  cases c with
  | sleep pe =>
    simp only [step, bind_eq_ok, demand_eq_ok, require_eq_ok, pure_eq_ok] at h
    obtain ⟨p, hp, -, hw, rfl⟩ := h
    rcases List.mem_or_eq_of_mem_set hq with hq | rfl
    · exact hs q hq
    · exact (hs p (List.mem_of_getElem? hp)).sleep hw
  | resume pe =>
    simp only [step, bind_eq_ok, demand_eq_ok, require_eq_ok, pure_eq_ok] at h
    obtain ⟨p, hp, -, hw, rfl⟩ := h
    rcases List.mem_or_eq_of_mem_set hq with hq | rfl
    · exact hs q hq
    · exact (hs p (List.mem_of_getElem? hp)).resume hw
  | wake pe =>
    simp only [step, bind_eq_ok, demand_eq_ok, pure_eq_ok] at h
    obtain ⟨p, hp, rfl⟩ := h
    rcases List.mem_or_eq_of_mem_set hq with hq | rfl
    · exact hs q hq
    · exact (hs p (List.mem_of_getElem? hp)).wake

theorem Reachable.lawful {numPe : ℕ} : ∀ s, Reachable numPe s → ∀ p ∈ s, p.Lawful := by
  apply Runs.Reachable.invariant
  · intro p hp
    rw [List.eq_of_mem_replicate hp]
    exact ⟨rfl, rfl, Nat.le_refl 0⟩
  · exact fun s c t _ hs h => step_lawful h hs

end HetSim.Emulation
