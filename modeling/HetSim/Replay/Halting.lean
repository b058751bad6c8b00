import HetSim.Replay.Frames
import HetSim.Replay.WakeTarget

/-!
# The end of the simulation

The engine that brings the counter of halted engines to the number of engines with a trace ends
the simulation. Without SLEEP and WAKE each engine halts at most once.
-/

namespace HetSim.Replay
open Checked List

variable {cfg : Config} {w w' : World} {i j : TREId} {env : Env}

def Obs.halter : Obs → Option TREId
  | .halted i => some i
  | _ => none

def Obs.exiter : Obs → Option TREId
  | .exitSimLoop i => some i
  | _ => none

def halters (log : List Obs) : List TREId := log.filterMap Obs.halter

def exiters (log : List Obs) : List TREId := log.filterMap Obs.exiter

@[simp] theorem exiters_append (l l' : List Obs) : exiters (l ++ l') = exiters l ++ exiters l' :=
  filterMap_append

theorem mem_halters {log : List Obs} : i ∈ halters log ↔ Obs.halted i ∈ log := by
  simp only [halters, mem_filterMap]
  constructor
  · rintro ⟨o, ho, hi⟩
    cases o <;> cases hi
    exact ho
  · exact fun h => ⟨_, h, rfl⟩

structure Busy (w w' : World) : Prop where
  idle : w'.numIdleTREs = w.numIdleTREs
  allocator : w'.testerAllocator = w.testerAllocator
  halters : halters w'.log = halters w.log
  exiters : exiters w'.log = exiters w.log

namespace Busy

theorem refl (w : World) : Busy w w := ⟨rfl, rfl, rfl, rfl⟩

theorem trans {v : World} (h : Busy w v) (h' : Busy v w') : Busy w w' :=
  ⟨h'.idle.trans h.idle, h'.allocator.trans h.allocator, h'.halters.trans h.halters,
    h'.exiters.trans h.exiters⟩

theorem set (s : TRE) : Busy w (w.set j s) := ⟨rfl, rfl, rfl, rfl⟩

theorem emit {o : Obs} (h : o.halter = none) (h' : o.exiter = none) : Busy w (w.emit o) :=
  ⟨rfl, rfl, by simp [Replay.halters, h], by simp [Replay.exiters, h']⟩

theorem closed : Closed Busy where
  refl := refl
  trans := trans
  set _ _ := set _
  emit := by
    intro w o ho
    refine emit ?_ ?_ <;> cases o <;> first | rfl | cases ho
  setMutex _ _ _ := ⟨rfl, rfl, rfl, rfl⟩
  setBarrier _ _ _ := ⟨rfl, rfl, rfl, rfl⟩
  setQueue _ _ _ := ⟨rfl, rfl, rfl, rfl⟩

theorem execute {r : Req} (h : execute w i env r = .ok w') : Busy w w' := by
  unfold Replay.execute at h
  split_ifs at h
  · exact (Busy.emit rfl rfl).trans (closed.schedule h)
  · obtain ⟨cmd, v, -, rfl, hlater⟩ := closed.issue h
    exact (Busy.set _).trans ((Busy.emit rfl rfl).trans hlater)

theorem finishEntry {sr : TRE × Req} (h : finishEntry w i env sr = .ok w') : Busy w w' := by
  unfold Replay.finishEntry at h
  split_ifs at h
  · cases h
    exact .set _
  · exact (Busy.set _).trans (execute h)

end Busy

structure Halts (i : TREId) (w w' : World) : Prop where
  idle : w'.numIdleTREs = w.numIdleTREs + 1
  bound : w'.numIdleTREs ≤ w.testerAllocator
  allocator : w'.testerAllocator = w.testerAllocator
  halters : halters w'.log = halters w.log ++ [i]
  exiters : exiters w'.log = exiters w.log ++
    if w'.numIdleTREs = w.testerAllocator then [i] else []

theorem Halts.after {v : World} (h : Busy w v) (h' : Halts i v w') : Halts i w w' := by
  obtain ⟨h1, h2, h3, h4, h5⟩ := h'
  refine ⟨by rw [h1, h.idle], by rw [← h.allocator]; exact h2, h3.trans h.allocator,
    by rw [h4, h.halters], ?_⟩
  rw [h5, h.exiters, h.allocator]

theorem halt_halts (h : halt w i = .ok w') : Halts i w w' := by
  simp only [halt, bind_eq_ok, require_eq_ok, pure_eq_ok] at h
  obtain ⟨-, hb, rfl⟩ := h
  split_ifs with hc
  · refine ⟨rfl, hb, rfl, by simp [halters, Obs.halter], ?_⟩
    rw [World.emit_log, World.emit_log, exiters_append, exiters_append, append_assoc]
    exact congrArg _ (if_pos hc).symm
  · refine ⟨rfl, hb, rfl, by simp [halters, Obs.halter], ?_⟩
    rw [World.emit_log, exiters_append]
    exact congrArg _ (if_neg hc).symm

theorem tick_busy_or_halts (h : tick w i env = .ok w') : Busy w w' ∨ Halts i w w' := by
  simp only [tick, bind_eq_ok, require_eq_ok] at h
  obtain ⟨-, -, h⟩ := h
  split_ifs at h
  · simp only [tickBlocked] at h
    split_ifs at h
    · cases h
      exact .inl (.refl w)
    · exact .inl ((Busy.set _).trans (.execute h))
  simp only [tickNext] at h
  split_ifs at h
  · exact .inr (.after (.set _) (halt_halts h))
  · simp only [bind_eq_ok] at h
    obtain ⟨sr, -, h⟩ := h
    exact .inl (.finishEntry h)
  · simp only [bind_eq_ok] at h
    obtain ⟨sr, -, h⟩ := h
    exact .inl (.finishEntry h)
  · split at h
    · simp only [tickPrim, bind_eq_ok] at h
      obtain ⟨ops, -, c, -, h⟩ := h
      exact .inl ((Busy.set _).trans ((Busy.set _).trans (Busy.closed.dispatch h)))
    · cases h

theorem step_busy_or_halts {x : Ev × Env} (h : step w x = .ok w') :
    Busy w w' ∨ ∃ i, (w.tre i).scheduled .tick = true ∧ Halts i w w' := by
  obtain ⟨ev, env⟩ := x
  cases ev with
  | fire i e =>
    simp only [step, bind_eq_ok, require_eq_ok] at h
    obtain ⟨-, hs, h⟩ := h
    have hset : Busy w (w.set i ((w.tre i).setFlag e false)) := .set _
    cases e with
    | tick =>
      have hemit := hset.trans (Busy.emit (o := .ticked i) rfl rfl)
      rcases tick_busy_or_halts h with hb | hb
      · exact .inl (hemit.trans hb)
      · exact .inr ⟨i, hs, .after hemit hb⟩
    | noRequest => cases h
    | noResponse => cases h
    | prim p => exact .inl (hset.trans (Busy.closed.runPrim h))
  | recvTimingResp i k => exact .inl (Busy.closed.recvTimingResp h)
  | recvReqRetry i => exact .inl (Busy.closed.recvReqRetry h)

structure Tally (cfg : Config) (w : World) : Prop where
  allocator : w.testerAllocator = cfg.traced.length
  idle : w.numIdleTREs = (halters w.log).length
  bound : (halters w.log).length ≤ cfg.traced.length
  exiters : exiters w.log = if (halters w.log).length = cfg.traced.length
    then (halters w.log).getLast?.toList else []

theorem construct_tally (conns : List (TREId × TREId)) (w : World) (p : Params) :
    (construct conns w p).testerAllocator = w.testerAllocator +
      (if p.trace.isSome then [p.id] else []).length ∧
    (construct conns w p).numIdleTREs = w.numIdleTREs := by
  unfold construct
  cases p.trace with
  | none => simp
  | some trace =>
    simp only [Option.isSome_some, if_true]
    split_ifs <;> exact ⟨rfl, rfl⟩

theorem boot_tally (cfg : Config) : Tally cfg (boot cfg) := by
  have key : ∀ (l : List Params) (w : World),
      (l.foldl (construct cfg.connections) w).testerAllocator =
        w.testerAllocator + ((l.filter (·.trace.isSome)).map Params.id).length ∧
      (l.foldl (construct cfg.connections) w).numIdleTREs = w.numIdleTREs := by
    intro l
    induction l with
    | nil =>
      intro w
      simp
    | cons p l ih =>
      intro w
      obtain ⟨h1, h2⟩ := construct_tally cfg.connections w p
      rw [foldl_cons, (ih _).1, (ih _).2, h1, h2]
      by_cases hp : p.trace.isSome = true
      · simp [hp]
        omega
      · simp [hp]
  have hlog := (boot_fresh cfg).log
  obtain ⟨h1, h2⟩ := key cfg.engines (emptyWorld cfg.atomic)
  refine ⟨?_, ?_, ?_, ?_⟩
  · rw [boot, h1]
    simp [emptyWorld, Config.traced]
  · rw [hlog, boot, h2]
    rfl
  · simp [hlog, halters]
  · simp [hlog, halters, exiters]

theorem Tally.next (ht : Tally cfg w) {x : Ev × Env} (h : step w x = .ok w') : Tally cfg w' := by
  obtain ⟨h1, h2, h3, h4⟩ := ht
  rcases step_busy_or_halts h with hb | ⟨i, -, hb⟩
  · exact ⟨hb.allocator.trans h1, by rw [hb.idle, hb.halters, h2], by rw [hb.halters]; exact h3,
      by rw [hb.halters, hb.exiters, h4]⟩
  · have hidle := hb.idle
    have hbound := hb.bound
    have hlen : (halters w'.log).length = (halters w.log).length + 1 := by
      rw [hb.halters, length_append]
      rfl
    refine ⟨hb.allocator.trans h1, by omega, by omega, ?_⟩
    -- no engine ended the simulation before, since the counter was below the bound
    have hnot : (halters w.log).length ≠ cfg.traced.length := by omega
    rw [hb.exiters, h4, if_neg hnot, hlen, h1, hidle, h2, hb.halters, List.getLast?_concat]
    rfl

theorem Reachable.tally (hw : Reachable cfg w) : Tally cfg w :=
  Runs.Reachable.invariant (boot_tally cfg) (fun _ _ _ _ ht h => ht.next h) w hw

theorem Reachable.halters_nodup (hq : cfg.Quiet) (hw : Reachable cfg w) :
    (halters w.log).Nodup ∧ ∀ i ∈ halters w.log, i ∈ cfg.traced := by
  refine Runs.Reachable.invariant
    (P := fun w => (halters w.log).Nodup ∧ ∀ i ∈ halters w.log, i ∈ cfg.traced) ?_ ?_ w hw
  · simp [(boot_fresh cfg).log, halters]
  · rintro v x v' hv ⟨hnd, hmem⟩ hstep
    rcases step_busy_or_halts hstep with hb | ⟨i, hs, hb⟩
    · rw [hb.halters]
      exact ⟨hnd, hmem⟩
    obtain ⟨loc, -, hpeace, -⟩ :=
      Reachable.with_sound (P := fun _ _ => True) hq trivial (fun _ _ _ _ _ _ _ => trivial) v hv
    have hi := hpeace.sound i
    have hℓ := hi.placed.tick.mp hs
    have hnot : i ∉ halters v.log := by
      rw [mem_halters, hi.registered.halted, hℓ]
      exact nofun
    have htraced : i ∈ cfg.traced := by
      rw [← Reachable.allTREs_eq hv, hi.registered.present, hℓ]
      exact nofun
    rw [hb.halters]
    refine ⟨hnd.append (by simp) (by simpa using hnot), fun j hj => ?_⟩
    rcases mem_append.mp hj with hj | hj
    · exact hmem j hj
    · rw [mem_singleton.mp hj]
      exact htraced

/-- Each engine halts at most once; the simulation is ended once, when all engines with a
trace have halted, and by the last of them. -/
structure Finishes (cfg : Config) (w : World) : Prop where
  once : ∀ i, w.log.count (.halted i) ≤ 1
  exits : (exiters w.log).length ≤ 1
  ended : (exiters w.log).length = 1 ↔
    cfg.traced ≠ [] ∧ ∀ i ∈ cfg.traced, Obs.halted i ∈ w.log
  last : ∀ i, Obs.exitSimLoop i ∈ w.log → (halters w.log).getLast? = some i

theorem count_halted (log : List Obs) : log.count (.halted i) = (halters log).count i := by
  induction log with
  | nil => rfl
  | cons o log ih =>
    rw [count_cons, ih, halters, halters, filterMap_cons]
    cases o <;> simp [Obs.halter, count_cons]

theorem mem_exiters {log : List Obs} : i ∈ exiters log ↔ Obs.exitSimLoop i ∈ log := by
  simp only [exiters, mem_filterMap]
  constructor
  · rintro ⟨o, ho, hi⟩
    cases o <;> cases hi
    exact ho
  · exact fun h => ⟨_, h, rfl⟩

theorem Config.traced_nodup (cfg : Config) : cfg.traced.Nodup :=
  cfg.distinct.sublist (filter_sublist.map _)

theorem Reachable.finishes (hq : cfg.Quiet) (hw : Reachable cfg w) : Finishes cfg w := by
  obtain ⟨-, -, hbound, hexit⟩ := hw.tally
  obtain ⟨hnd, hmem⟩ := hw.halters_nodup hq
  have hall : (∀ i ∈ cfg.traced, Obs.halted i ∈ w.log) ↔
      (halters w.log).length = cfg.traced.length := by
    constructor
    · intro h
      refine le_antisymm hbound ((cfg.traced_nodup.subperm fun i hi => ?_).length_le)
      exact mem_halters.mpr (h i hi)
    · intro h i hi
      have hperm := (hnd.subperm hmem).perm_of_length_le h.ge
      exact mem_halters.mp (hperm.symm.subset hi)
  have hlen : (exiters w.log).length = 1 ↔
      cfg.traced ≠ [] ∧ (halters w.log).length = cfg.traced.length := by
    rw [hexit]
    constructor
    · intro h
      split_ifs at h with he
      refine ⟨?_, he⟩
      intro hnil
      rw [hnil, length_nil, length_eq_zero_iff] at he
      rw [he] at h
      cases h
    · rintro ⟨hne, he⟩
      have hnil : halters w.log ≠ [] := by
        intro h
        rw [h] at he
        exact hne (eq_nil_of_length_eq_zero he.symm)
      rw [if_pos he, List.getLast?_eq_some_getLast hnil, Option.toList_some, length_singleton]
  refine ⟨fun i => ?_, ?_, by rw [hlen, hall], fun i hi => ?_⟩
  · rw [count_halted]
    exact nodup_iff_count_le_one.mp hnd i
  · rw [hexit]
    split_ifs
    · exact Option.length_toList_le
    · simp
  · rw [← mem_exiters, hexit] at hi
    split_ifs at hi
    · simpa using hi
    · cases hi

end HetSim.Replay
