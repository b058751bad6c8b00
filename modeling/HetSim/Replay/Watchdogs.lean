import HetSim.Replay.Halting
import HetSim.Replay.Requests
import HetSim.Clock.Domains

/-!
# The two watchdogs

Time is added to the runs as far as the timeouts need it: a run says at which tick each event
happens, and a timeout is due a fixed number of cycles after it was armed. `halt` disarms neither:
the request timeout of a halted engine goes off when the others work on for long enough.
-/

namespace HetSim.Replay
open Checked

structure Clocks where
  period : TREId → ℕ+
  progressCheck : TREId → ℕ

structure Timed where
  world : World
  curTick : ℕ
  armed : TREId → Event → ℕ

def Clocks.clockEdge (c : Clocks) (i : TREId) (tick : ℕ) : ℕ :=
  Clock.divCeil tick (c.period i) * c.period i + c.progressCheck i * c.period i

def Timed.due (c : Clocks) (s : Timed) (i : TREId) (e : Event) : ℕ := c.clockEdge i (s.armed i e)

def Obs.response (i : TREId) : Obs → Bool
  | .completed j _ => j = i
  | _ => false

/-- `noRequestEvent` is pushed back where the port accepts a packet: by the tick that made
it, or by the retry. -/
def armsRequest (w : World) (x : Ev × Env) (w' : World) (i : TREId) : Bool :=
  match x.1 with
  | .fire j .tick => j = i ∧ requests i w'.log ≠ requests i w.log ∧ (w'.tre i).retryPkt = none
  | .recvReqRetry j => j = i ∧ x.2.accepts
  | _ => false

/-- `noResponseEvent` is scheduled with the first request that is outstanding, and pushed
back by a response when others are still to come. -/
def armsResponse (w w' : World) (i : TREId) : Bool :=
  (w'.tre i).scheduled .noResponse = true ∧ ((w.tre i).scheduled .noResponse = false ∨
    w'.log.countP (Obs.response i) ≠ w.log.countP (Obs.response i))

def rearm (s : Timed) (tick : ℕ) (x : Ev × Env) (w' : World) (i : TREId) : Event → ℕ
  | .noRequest => if armsRequest s.world x w' i then tick else s.armed i .noRequest
  | .noResponse => if armsResponse s.world w' i then tick else s.armed i .noResponse
  | e => s.armed i e

/-- Events are taken in the order of their time. `exitSimLoop` ends the simulation with the
current tick: what else is due in this tick still happens. -/
def Timed.inOrder (c : Clocks) (s : Timed) (tick : ℕ) : Prop :=
  s.curTick ≤ tick ∧ (exiters s.world.log ≠ [] → tick ≤ s.curTick) ∧ ∀ i ∈ s.world.allTREs,
    ((s.world.tre i).scheduled .noRequest = true → tick ≤ s.due c i .noRequest) ∧
    ((s.world.tre i).scheduled .noResponse = true → tick ≤ s.due c i .noResponse)

def Timed.onTime (c : Clocks) (s : Timed) (tick : ℕ) : Ev → Prop
  | .fire i .noRequest => s.due c i .noRequest = tick
  | .fire i .noResponse => s.due c i .noResponse = tick
  | _ => True

instance (c : Clocks) (s : Timed) (tick : ℕ) : Decidable (s.inOrder c tick) :=
  @instDecidableAnd _ _ _ (@instDecidableAnd _ _ _ (List.decidableBAll _ _))

instance (c : Clocks) (s : Timed) (tick : ℕ) : ∀ ev, Decidable (s.onTime c tick ev)
  | .fire _ .noRequest => inferInstanceAs (Decidable (_ = _))
  | .fire _ .noResponse => inferInstanceAs (Decidable (_ = _))
  | .fire _ .tick | .fire _ (.prim _) | .recvTimingResp .. | .recvReqRetry _ => .isTrue trivial

abbrev At := ℕ × Ev × Env

def timedStep (c : Clocks) (s : Timed) (x : At) : Except Fault Timed := do
  require (s.inOrder c x.1) .notQueued
  require (s.onTime c x.1 x.2.1) .notQueued
  let w ← step s.world x.2
  pure ⟨w, x.1, rearm s x.1 x.2 w⟩

def timedBoot (cfg : Config) : Timed := ⟨boot cfg, 0, fun _ _ => 0⟩

def Timed.after (c : Clocks) (s : Timed) (x : At) : Timed := (timedStep c s x).toOption.getD s

def World.AllHalted (w : World) : Prop := ∀ i ∈ w.allTREs, Obs.halted i ∈ w.log

instance (w : World) : Decidable w.AllHalted := List.decidableBAll _ _

/-- An event at the request deadline of an engine that has halted, before it or by it, finds all
engines halted; an event at its response deadline finds all its requests answered. -/
def Prompt (c : Clocks) (s : Timed) (x : At) : Prop :=
  ∀ i ∈ s.world.allTREs,
    (Obs.halted i ∈ (s.after c x).world.log → (s.after c x).due c i .noRequest ≤ x.1 →
      s.world.AllHalted) ∧
    (Obs.halted i ∈ s.world.log → s.due c i .noResponse ≤ x.1 →
      (s.world.tre i).outstandingAddrs = [])

variable {cfg : Config} {c : Clocks} {s t : Timed} {x : At} {i : TREId}

instance (c : Clocks) (s : Timed) (x : At) : Decidable (Prompt c s x) :=
  List.decidableBAll _ _

theorem timedStep_ok : timedStep c s x = .ok t ↔ s.inOrder c x.1 ∧ s.onTime c x.1 x.2.1 ∧
    ∃ w, step s.world x.2 = .ok w ∧ ⟨w, x.1, rearm s x.1 x.2 w⟩ = t := by
  simp only [timedStep, bind_eq_ok, require_eq_ok, pure_eq_ok, exists_const]

theorem timedStep_world (h : timedStep c s x = .ok t) : step s.world x.2 = .ok t.world := by
  obtain ⟨-, -, w, hw, rfl⟩ := timedStep_ok.mp h
  exact hw

theorem timed_reachable {xs : List At}
    (h : Runs.run (timedStep c) (timedBoot cfg) xs = .ok s) : Reachable cfg s.world := by
  refine Runs.run_keeps (P := fun t => Reachable cfg t.world) ?_ (.start _) h
  intro t x t' ht hstep
  exact Runs.Reachable.next ht (timedStep_world hstep)

theorem Reachable.halted_sound {w : World} (hq : cfg.Quiet) (hw : Reachable cfg w)
    (hi : Obs.halted i ∈ w.log) : Sound cfg w i .halted := by
  obtain ⟨loc, -, hpeace, -⟩ :=
    Reachable.with_sound (P := fun _ _ => True) hq trivial (fun _ _ _ _ _ _ _ => trivial) _ hw
  have hs := hpeace.sound i
  rw [hs.registered.halted.mp hi] at hs
  exact hs

/-- A halted engine neither ticks nor waits for a retry, so its request timeout stays. -/
theorem Sound.not_armsRequest {w w' : World} {y : Ev × Env} (hs : Sound cfg w i .halted)
    (h : step w y = .ok w') : armsRequest w y w' i = false := by
  obtain ⟨ev, env⟩ := y
  have hother : ∀ {j} {P : Prop} [Decidable P], j ≠ i → decide (j = i ∧ P) = false := by
    intro j P _ hj
    simp [hj]
  cases ev with
  | fire j e =>
    cases e with
    | tick =>
      refine hother ?_
      rintro rfl
      simp only [step, bind_eq_ok, require_eq_ok] at h
      obtain ⟨-, hsch, -⟩ := h
      exact absurd (hs.placed.tick.mp hsch) (by simp)
    | _ => rfl
  | recvTimingResp j k => rfl
  | recvReqRetry j =>
    refine hother ?_
    rintro rfl
    simp only [step, recvRetry, bind_eq_ok, demand_eq_ok] at h
    obtain ⟨pkt, hpkt, -⟩ := h
    exact absurd (hs.placed.retry.mp (by simp [hpkt])) (by simp)

/-- The simulation ends with the tick in which the last engine halts. -/
theorem Timed.inOrder.ended (hord : s.inOrder c x.1) (hq : cfg.Quiet) (hw : Reachable cfg s.world)
    (hi : i ∈ s.world.allTREs) (hall : s.world.AllHalted) :
    x.1 = s.curTick := by
  rw [World.AllHalted, hw.allTREs_eq] at hall
  rw [hw.allTREs_eq] at hi
  have hexit := (hw.finishes hq).ended.mpr ⟨List.ne_nil_of_mem hi, hall⟩
  have hne : exiters s.world.log ≠ [] := by
    intro h
    simp [h] at hexit
  exact le_antisymm (hord.2.1 hne) hord.1

def Ahead (c : Clocks) (s : Timed) : Prop :=
  ∀ i, Obs.halted i ∈ s.world.log → s.curTick < s.due c i .noRequest

theorem Prompt.ahead (hp : Prompt c s x) (ha : Ahead c s) (hq : cfg.Quiet)
    (hw : Reachable cfg s.world) (h : timedStep c s x = .ok t) : Ahead c t := by
  intro i hi
  by_contra hdue
  have hafter : s.after c x = t := by simp [Timed.after, h, Except.toOption]
  have hw' : Reachable cfg t.world := Runs.Reachable.next hw (timedStep_world h)
  have hmem : i ∈ s.world.allTREs := by
    rw [hw.allTREs_eq, ← hw'.allTREs_eq, (hw'.halted_sound hq hi).registered.present]
    simp
  obtain ⟨hord, -, w, hstep, rfl⟩ := timedStep_ok.mp h
  have hall := (hp i hmem).1 (by rw [hafter]; exact hi) (by rw [hafter]; exact not_lt.mp hdue)
  have hnow := hord.ended hq hw hmem hall
  have hlt := ha i (hall i hmem)
  have hkept := (hw.halted_sound hq (hall i hmem)).not_armsRequest hstep
  simp only [Timed.due, rearm, hkept, Bool.false_eq_true, if_false] at hdue hlt
  omega

theorem Prompt.not_due (hp : Prompt c s x) (ha : Ahead c s) (hq : cfg.Quiet)
    (hw : Reachable cfg s.world) (hi : Obs.halted i ∈ s.world.log)
    (hx : x.2.1 = .fire i .noRequest ∨ x.2.1 = .fire i .noResponse) :
    timedStep c s x = .error .notQueued := by
  have hs := hw.halted_sound hq hi
  have hmem : i ∈ s.world.allTREs := hs.registered.present.mpr (by simp)
  obtain ⟨tick, ev, env⟩ := x
  by_cases hord : s.inOrder c tick
  swap
  · simp [timedStep, require, hord, bind, Except.bind]
  by_cases hon : s.onTime c tick ev
  swap
  · simp [timedStep, require, hord, hon, bind, Except.bind]
  rcases hx with rfl | rfl
  · -- all engines have halted, so the simulation ended before the deadline
    have hafter : s.after c (tick, .fire i .noRequest, env) = s := by
      simp only [Timed.after, timedStep, require, hord, hon, step, process, ok_bind, if_true]
      split_ifs <;> rfl
    have hdue : s.due c i .noRequest = tick := hon
    have hall := (hp i hmem).1 (by rw [hafter]; exact hi) (by rw [hafter]; exact hdue.le)
    have hnow := hord.ended (x := (tick, .fire i .noRequest, env)) hq hw hmem hall
    have hlt := ha i hi
    simp only at hnow
    omega
  · -- nothing is outstanding, and the event is not in the queue
    have hdue : s.due c i .noResponse = tick := hon
    have hsch : ¬ (s.world.tre i).scheduled .noResponse = true := fun h =>
      hs.booked.watched.mp h ((hp i hmem).2 hi hdue.le)
    simp [timedStep, require, hord, hon, step, hsch, bind, Except.bind]

/-- In every run over traces without SLEEP and WAKE whose events are prompt, each engine halts at
most once, the last ends the simulation, and no timeout of a halted engine goes off. -/
theorem halted_engine_harmless {xs : List At} (hq : cfg.Quiet)
    (hmeets : Runs.Meets (timedStep c) (Prompt c) (timedBoot cfg) xs) :
    (∀ s, Runs.run (timedStep c) (timedBoot cfg) xs = .ok s → Finishes cfg s.world) ∧
    ∀ pre x post s, xs = pre ++ x :: post → Runs.run (timedStep c) (timedBoot cfg) pre = .ok s →
      ∀ i, Obs.halted i ∈ s.world.log →
        x.2.1 = .fire i .noRequest ∨ x.2.1 = .fire i .noResponse →
        timedStep c s x = .error .notQueued := by
  refine ⟨fun s hs => (timed_reachable hs).finishes hq, ?_⟩
  rintro pre x post s rfl hs i hi hx
  have hahead : Reachable cfg s.world ∧ Ahead c s := by
    refine Runs.Meets.invariant (P := fun s => Reachable cfg s.world ∧ Ahead c s) ?_ ?_
      hmeets.of_append hs
    · rintro s x t ⟨hw, ha⟩ hp h
      exact ⟨Runs.Reachable.next hw (timedStep_world h), hp.ahead ha hq hw h⟩
    · refine ⟨.start _, fun j hj => ?_⟩
      rw [timedBoot, (boot_fresh cfg).log] at hj
      cases hj
  exact (hmeets.cond hs).not_due hahead.2 hq hahead.1 hi hx

def quickClocks : Clocks := ⟨fun _ => 1, fun _ => 2⟩

def threeLoads : List String :=
  ["LD", "0x10", "(", ")", "LD", "0x20", "(", ")", "LD", "0x30", "(", ")", "EOF"]

def oneLoad : List String := ["LD", "0x10", "(", ")", "EOF"]

/-- An engine that halts at once stops the simulation while the other one makes a request in
every cycle and each request is answered in the cycle after it. -/
theorem halted_engine_panics :
    Runs.Ends (timedStep quickClocks) (timedBoot (pair 4 ["EOF"] threeLoads))
      [(0, .fire 0 .tick, {}), (0, .fire 1 .tick, {}), (1, .recvTimingResp 1 0, {}),
        (1, .fire 1 .tick, {})]
      (fun s => Obs.halted 0 ∈ s.world.log ∧ (s.world.tre 0).outstandingAddrs = [] ∧
        Runs.Stops (timedStep quickClocks) s [(2, .fire 0 .noRequest, {})] .noRequest) := by
  decide +kernel

def loadThenHalt : List At :=
  [(0, .fire 0 .tick, {}), (0, .fire 1 .tick, {}), (1, .fire 0 .tick, {}),
    (1, .recvTimingResp 0 0, {}), (1, .recvTimingResp 1 0, {}), (1, .fire 1 .tick, {})]

def requestTimeout : At := (2, .fire 0 .noRequest, {})

/-- Two engines load a word each; engine 0 halts before its response comes, and its timeouts do
not go off in tick 2, when both have halted. -/
theorem halted_engine_harmless_pair :
    ∃ s, Runs.run (timedStep quickClocks)
    (timedBoot (pair 4 oneLoad oneLoad)) loadThenHalt = .ok s ∧
      Obs.halted 0 ∈ s.world.log ∧ Obs.exitSimLoop 1 ∈ s.world.log ∧
      Finishes (pair 4 oneLoad oneLoad) s.world ∧
      timedStep quickClocks s requestTimeout = .error .notQueued := by
  have hrun : Runs.Ends (timedStep quickClocks) (timedBoot (pair 4 oneLoad oneLoad)) loadThenHalt
      (fun s => Obs.halted 0 ∈ s.world.log ∧ Obs.exitSimLoop 1 ∈ s.world.log) := by
    decide +kernel
  have hmeets : Runs.Meets (timedStep quickClocks) (Prompt quickClocks)
      (timedBoot (pair 4 oneLoad oneLoad)) (loadThenHalt ++ [requestTimeout]) := by
    decide +kernel
  obtain ⟨s, hs, hhalted, hexit⟩ := hrun
  have hq : (pair 4 oneLoad oneLoad).Quiet := by decide
  refine ⟨s, hs, hhalted, hexit, (halted_engine_harmless hq hmeets.of_append).1 s hs, ?_⟩
  exact (halted_engine_harmless hq hmeets).2 _ _ [] s rfl hs 0 hhalted (.inl rfl)

end HetSim.Replay
