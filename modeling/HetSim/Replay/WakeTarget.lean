import HetSim.Replay.Actions

/-!
# The engine a WAKE reaches

A trace names engines by `id`, and `wake` takes the name as a position among the engines that have
a trace. The engine is reached exactly when it stands at this position.
-/

namespace HetSim.Replay
open Checked

variable {cfg : Config} {w w' : World} {i t k : TREId} {env : Env}

def Config.traced (cfg : Config) : List TREId :=
  (cfg.engines.filter (·.trace.isSome)).map Params.id

theorem construct_allTREs (conns : List (TREId × TREId)) (w : World) (p : Params) :
    (construct conns w p).allTREs = w.allTREs ++ if p.trace.isSome then [p.id] else [] := by
  unfold construct
  cases p.trace with
  | none => simp
  | some trace =>
    simp only [Option.isSome_some, if_true]
    split_ifs <;> rfl

theorem boot_allTREs (cfg : Config) : (boot cfg).allTREs = cfg.traced := by
  have key : ∀ (l : List Params) (w : World),
      (l.foldl (construct cfg.connections) w).allTREs =
        w.allTREs ++ (l.filter (·.trace.isSome)).map Params.id := by
    intro l
    induction l with
    | nil =>
      intro w
      simp
    | cons p l ih =>
      intro w
      rw [List.foldl_cons, ih, construct_allTREs]
      by_cases hp : p.trace.isSome = true
      · simp [hp]
      · simp [hp]
  rw [boot, key]
  rfl

theorem Reachable.allTREs_eq (hw : Reachable cfg w) : w.allTREs = cfg.traced := by
  rw [← boot_allTREs]
  refine Runs.Reachable.invariant (P := fun v => v.allTREs = (boot cfg).allTREs) rfl ?_ w hw
  intro v x v' _ hv hstep
  obtain ⟨loc, hm, -⟩ : Stepped v (fun _ => .absent) v' := step_moves hstep
  exact Moves.invariant (P := fun u _ => u.allTREs = (boot cfg).allTREs)
    (fun _ _ _ _ h hmove => hmove.allTREs_eq.trans h) hm hv

theorem wake_eq_ok :
    wake w i = .ok w' ↔ (w.tre i).data ≠ 0 ∧ ∃ t, w.allTREs[(w.tre i).data.toNat]? = some t ∧
      (w.tre t).scheduled .tick = false ∧ i ≠ t ∧ (w.tre i).scheduled .tick = false ∧
      w' = ((w.emit (.woke i (w.tre i).data t)).set t (w.tre t).ticking).set i
        (clearData (w.tre i).ticking) := by
  simp only [wake, bind_eq_ok, require_eq_ok, demand_eq_ok, World.schedule_eq_ok, proceed_eq_ok]
  constructor
  · rintro ⟨-, hd, t, hx, -, -, v, ⟨htt, rfl⟩, ht, rfl⟩
    have hne : i ≠ t := by
      rintro rfl
      simp at ht
    simp only [World.emit_tre, World.set_tre, Function.update_of_ne hne] at ht
    exact ⟨hd, t, hx, htt, hne, ht, by simp [hne, TRE.ticking]⟩
  · rintro ⟨hd, t, hx, htt, hne, ht, rfl⟩
    refine ⟨⟨⟩, hd, t, hx, ⟨⟩, htt, _, ⟨htt, rfl⟩, ?_, by simp [hne, TRE.ticking]⟩
    simpa [hne] using ht

def Reaches (w : World) (i k : TREId) (w' : World) : Prop :=
  (w'.tre k).scheduled .tick = true ∧
    ∀ j, j ≠ i → j ≠ k → (w'.tre j).scheduled .tick = (w.tre j).scheduled .tick

/-- `WAKE k` reaches the engine `k` and no other exactly when `k` is not zero, the engine `k` stands
at position `k` among the engines with a trace, it is neither the waker nor about to tick, and the
waker does not tick already. -/
theorem wake_reaches_iff {e : Event} {os : List Obs} {s : TRE} (hw : Reachable cfg w)
    (hx : Executes w i .wake e os s) (hd : s.data = k) :
    (∃ w', step w (.fire i e, env) = .ok w' ∧ Reaches w i k w') ↔
      k ≠ 0 ∧ cfg.traced[k.toNat]? = some k ∧ k ≠ i ∧ (w.tre k).scheduled .tick = false ∧
        (e = .tick ∨ (w.tre i).scheduled .tick = false) := by
  have hsi : (w.starting i os s).tre i = s := by simp [World.starting]
  have hsj : ∀ j, j ≠ i → (w.starting i os s).tre j = w.tre j := by
    intro j hj
    simp [World.starting, hj]
  have hall : (w.starting i os s).allTREs = cfg.traced := hw.allTREs_eq
  -- when the primitive starts, the tick that read it is over
  have hown : s.scheduled .tick = false ↔ e = .tick ∨ (w.tre i).scheduled .tick = false := by
    cases hx with
    | fire h => simp
    | read h hr hb he => simp [TRE.withPrim, TRE.advance]
  rw [hx.step_eq, ← hown]
  simp only [runPrim, wake_eq_ok, hsi, hall, hd]
  constructor
  · rintro ⟨w', ⟨hk, t, ht, htt, hne, hs, rfl⟩, hkt, hother⟩
    have htk : t = k := by
      by_contra hc
      have := hother t hne.symm hc
      rw [hsj t hne.symm] at htt
      simp [hne.symm, htt, TRE.ticking] at this
    subst htk
    rw [hsj t hne.symm] at htt
    exact ⟨hk, ht, hne.symm, htt, hs⟩
  · rintro ⟨hk, hpos, hne, htt, hs⟩
    refine ⟨_, ⟨hk, k, hpos, by rw [hsj k hne]; exact htt, hne.symm, hs, rfl⟩, ?_, ?_⟩
    · simp [hne, TRE.ticking]
    · intro j hj hjk
      simp [hj, hjk, hsj j hj]

def gapConfig : Config where
  engines := [⟨0, 0, 1, none⟩, ⟨1, 0, 1, some ["WAKE", "2", "0", "EOF"]⟩,
    ⟨2, 0, 1, some ["SLEEP", "0", "EOF"]⟩, ⟨3, 0, 1, some ["SLEEP", "0", "EOF"]⟩]
  atomic := false
  connections := []
  distinct := by decide

/-- Without a trace for the first engine `WAKE 2` wakes the third; `WAKE 0` never works. -/
theorem wake_misses :
    Runs.Ends step (boot gapConfig) [(.fire 2 .tick, {}), (.fire 3 .tick, {}), (.fire 1 .tick, {})]
      (fun w => 2 ∈ gapConfig.traced ∧ w.log.getLast? = some (.woke 1 2 3) ∧
        (w.tre 2).scheduled .tick = false ∧ (w.tre 3).scheduled .tick = true) ∧
    Runs.Stops step (boot (pair 1 ["SLEEP", "0", "EOF"] ["WAKE", "0", "0", "EOF"]))
      [(.fire 0 .tick, {}), (.fire 1 .tick, {})] .dataZero := by
  decide +kernel

theorem wake_reaches_second :
    ∃ w, Reachable (pair 1 ["WAKE", "1", "0", "EOF"] ["SLEEP", "0", "EOF"]) w ∧
      ∃ w', step w (.fire 0 .tick, {}) = .ok w' ∧ Reaches w 0 1 w' := by
  have hrun : Runs.Ends step (boot (pair 1 ["WAKE", "1", "0", "EOF"] ["SLEEP", "0", "EOF"]))
      [(.fire 1 .tick, {})] (fun w => (w.tre 0).scheduled .tick = true ∧
        (w.tre 1).scheduled .tick = false ∧ (w.tre 0).retryPkt = none ∧ (w.tre 0).blocked = false ∧
        readEntry (w.tre 0).traceFh = .ok (.prim .wake none (some 1) 0,
          ["EOF"])) := by decide +kernel
  obtain ⟨w, hw, ht, ht', hr, hb, he⟩ := hrun.reachable
  refine ⟨w, hw, (wake_reaches_iff (k := 1) hw (.read ht hr hb he) rfl).mpr ⟨?_, ?_, ?_,
    ht', .inl rfl⟩⟩
  · decide
  · decide
  · decide

end HetSim.Replay
