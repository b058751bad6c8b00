import HetSim.Library.Barrier
import HetSim.Replay.Actions

/-!
# The barriers refine the abstract barrier

The operations on one address of every quiet system are a history of the abstract barrier, and
`arrived` holds the threads that wait. A barrier that is not initialised has no arrivals.
-/

namespace HetSim.Replay
open Checked Histories Barriers List Function Obs World

variable {cfg : Config} {w w' : World} {loc loc' : TREId → Loc} {i j : TREId} {a : Addr} {n : ℕ}

def Obs.barrierOp (a : Addr) : Obs → Option (Op TREId)
  | .arrived i b => some (if b = a then .arrive i else .act i)
  | .released b batch => if b = a then some (.release batch) else none
  | o => o.actor.map .act

def barrierOps (a : Addr) (log : List Obs) : List (Op TREId) := log.filterMap (Obs.barrierOp a)

theorem barrierOps_append (a : Addr) (l l' : List Obs) :
    barrierOps a (l ++ l') = barrierOps a l ++ barrierOps a l' := filterMap_append

theorem barrierOps_cons {o : Obs} {op : Op TREId} (h : o.barrierOp a = some op) (l : List Obs) :
    barrierOps a (o :: l) = op :: barrierOps a l := by simp [barrierOps, h]

def arrivals (a : Addr) (log : List Obs) : List TREId :=
  log.filterMap fun
    | .arrived i b => if b = a then some i else none
    | _ => none

def batches (a : Addr) (log : List Obs) : List (List TREId) :=
  log.filterMap fun
    | .released b batch => if b = a then some batch else none
    | _ => none

theorem filterMap_arrival (a : Addr) (log : List Obs) :
    (barrierOps a log).filterMap Op.arrival = arrivals a log := by
  rw [barrierOps, filterMap_filterMap, arrivals]
  congr 1
  funext o
  cases o with
  | arrived i b =>
    by_cases hb : b = a <;> simp [barrierOp, Op.arrival, hb]
  | released b batch =>
    by_cases hb : b = a <;> simp [barrierOp, Op.arrival, hb]
  | _ => rfl

theorem filterMap_batch (a : Addr) (log : List Obs) :
    (barrierOps a log).filterMap Op.batch = batches a log := by
  rw [barrierOps, filterMap_filterMap, batches]
  congr 1
  funext o
  cases o with
  | arrived i b =>
    by_cases hb : b = a <;> simp [barrierOp, Op.batch, hb]
  | released b batch =>
    by_cases hb : b = a <;> simp [barrierOp, Op.batch, hb]
  | _ => rfl

structure BarrierAt (w : World) (a : Addr) (b : Barrier TREId n) : Prop where
  history : History Step .empty (barrierOps a w.log) b
  arrived : b.arrived = w.arrivedAt a

theorem BarrierAt.frame {b : Barrier TREId n} (hb : BarrierAt w a b) (h : Move w loc w' loc')
    (hs : ∀ j, Sound cfg w j (loc j)) (os : List Obs) (hlog : w'.log = w.log ++ os)
    (hops : ∀ o ∈ os, o.barrierOp a = o.actor.map .act) (hw : w'.arrivedAt a = w.arrivedAt a) :
    BarrierAt w' a b := by
  obtain ⟨os', hlog', hact⟩ := h.actors
  obtain rfl : os = os' := append_cancel_left (hlog.symm.trans hlog')
  refine ⟨?_, hb.arrived.trans hw.symm⟩
  rw [hlog, barrierOps_append]
  refine hb.history.stay fun op hop => ?_
  obtain ⟨o, hmem, hop⟩ := mem_filterMap.mp hop
  rw [hops o hmem, Option.map_eq_some_iff] at hop
  obtain ⟨k, hk, rfl⟩ := hop
  refine .act fun harr => ?_
  rw [hb.arrived] at harr
  have hd := hact k (hs k).placed o hmem hk
  rw [(hs k).registered.of_mem_arrivedAt harr] at hd
  cases hd

def World.SizeOf (w : World) (a : Addr) (n : ℕ) : Prop :=
  ∀ b, w.barrierMap a = some b → b.count.toNat = n

structure BarrierInv (w : World) (a : Addr) : Prop where
  refines : ∀ n, w.SizeOf a n → ∃ b : Barrier TREId n, BarrierAt w a b
  room : ∀ b, w.barrierMap a = some b → b.arrived.length < b.count.toNat

theorem BarrierInv.frame (hi : BarrierInv w a) (h : Move w loc w' loc')
    (hs : ∀ j, Sound cfg w j (loc j)) (os : List Obs) (hlog : w'.log = w.log ++ os)
    (hops : ∀ o ∈ os, o.barrierOp a = o.actor.map .act) (hmap : w'.barrierMap a = w.barrierMap a) :
    BarrierInv w' a := by
  refine ⟨fun n hn => ?_, fun b hb => hi.room b (hmap ▸ hb)⟩
  obtain ⟨b, hb⟩ := hi.refines n fun b hb => hn b (hmap.trans hb)
  exact ⟨b, hb.frame h hs os hlog hops (by simp [arrivedAt, hmap])⟩

theorem BarrierInv.exists_barrier {b : TREBarrier} (hi : BarrierInv w a)
    (hb : w.barrierMap a = some b) :
    ∃ β : Barrier TREId b.count.toNat, BarrierAt w a β ∧ β.arrived = b.arrived := by
  obtain ⟨β, hβ⟩ := hi.refines b.count.toNat fun b' hb' => by
    rw [hb] at hb'
    cases hb'
    rfl
  exact ⟨β, hβ, hβ.arrived.trans (arrivedAt_eq hb)⟩

theorem BarrierAt.inv {b : TREBarrier} {β : Barrier TREId b.count.toNat} (hβ : BarrierAt w a β)
    (hb : w.barrierMap a = some b) (hroom : b.arrived.length < b.count.toNat) :
    BarrierInv w a := by
  refine ⟨fun n hn => ?_, fun b' hb' => ?_⟩
  · obtain rfl := hn b hb
    exact ⟨β, hβ⟩
  · cases hb.symm.trans hb'
    exact hroom

theorem wakeSlot_barrierMap (slot : Option TREId) (p : Prim) :
    (wakeSlot w slot p).barrierMap = w.barrierMap := by
  cases slot <;> rfl

theorem barrierOp_arrived (i : TREId) (a : Addr) :
    (arrived i a).barrierOp a = some (.arrive i) := by
  simp [barrierOp]

theorem Move.barrierInv (h : Move w loc w' loc') (hs : ∀ j, Sound cfg w j (loc j))
    (hi : BarrierInv w a) : BarrierInv w' a := by
  have hm := h
  cases h with
  | engine k os h hos he =>
    refine hi.frame hm hs os rfl (fun o ho => ?_) rfl
    have hp := hos o ho
    cases o <;> first | rfl | cases hp
  | halt k n exit hx hℓ hb h =>
    refine hi.frame hm hs _ rfl (fun o ho => ?_) rfl
    rcases hx with rfl | rfl <;> simp at ho
    · rw [ho]
      rfl
    · rcases ho with rfl | rfl <;> rfl
  | initBarrier k hℓ hd hnone ht =>
    by_cases hb : (w.tre k).paddr = a
    · subst hb
      -- the barrier is new, so it was refined for every size
      refine ⟨fun n _ => ?_, fun b hb => ?_⟩
      · obtain ⟨b, hb⟩ := hi.refines n fun b hb => by simp [hnone] at hb
        refine ⟨b, hb.frame hm hs _ rfl (by simp [Obs.barrierOp]) ?_⟩
        simp [arrivedAt, hnone]
      · simp only [set_barrierMap, emit_barrierMap, setBarrier_barrierMap,
          update_self, Option.some.injEq] at hb
        rw [← hb]
        exact Nat.pos_of_ne_zero fun h0 => hd (UInt32.toNat_inj.mp h0)
    · exact hi.frame hm hs _ rfl (by simp [Obs.barrierOp]) (by simp [Ne.symm hb])
  | @arrive k b hℓ hmap hne =>
    by_cases hb : (w.tre k).paddr = a
    · subst hb
      have hroom := hi.room b hmap
      obtain ⟨β, hβ, harr⟩ := hi.exists_barrier hmap
      have hk : k ∉ β.arrived := by
        intro hk
        rw [hβ.arrived] at hk
        cases hℓ.symm.trans ((hs k).registered.of_mem_arrivedAt hk)
      have hlt : β.arrived.length < b.count.toNat := harr ▸ hroom
      refine BarrierAt.inv (b := ⟨b.count, b.arrived ++ [k]⟩) (β := β.join k hk hlt) ⟨?_, ?_⟩
        (update_self ..) ?_
      · rw [set_log, emit_log, setBarrier_log, barrierOps_append,
          barrierOps_cons (barrierOp_arrived k _)]
        exact hβ.history.snoc (.arrive hk hlt)
      · simp [Barrier.join, harr]
      · rw [length_append, length_singleton]
        exact lt_of_le_of_ne hroom hne
    · exact hi.frame hm hs _ rfl (by simp [Obs.barrierOp, Obs.actor, Obs.by?, hb])
        (by simp [Ne.symm hb])
  | @releaseBatch k b hℓ hmap hn hk ht =>
    by_cases hb : (w.tre k).paddr = a
    · subst hb
      obtain ⟨β, hβ, harr⟩ := hi.exists_barrier hmap
      have hlt : β.arrived.length < b.count.toNat := by
        rw [harr]
        omega
      have hk' : k ∉ β.arrived := harr ▸ hk
      have hops : barrierOps (w.tre k).paddr (w.log ++ [.arrived k (w.tre k).paddr] ++
          [.released (w.tre k).paddr (b.arrived ++ [k])]) =
          barrierOps (w.tre k).paddr w.log ++ [.arrive k] ++
            [.release (β.join k hk' hlt).arrived] := by
        simp [barrierOps, Obs.barrierOp, Barrier.join, harr]
      have hfull : (β.join k hk' hlt).arrived.length = b.count.toNat := by
        simp [Barrier.join, harr, hn]
      have hist := (hβ.history.snoc (.arrive hk' hlt)).snoc (.release hfull)
      rw [← hops] at hist
      refine BarrierAt.inv (b := ⟨b.count, []⟩) ⟨hist, ?_⟩ (update_self ..) ?_
      · simp [setAll, arrivedAt, Barrier.empty]
      · exact (Nat.zero_le _).trans_lt hlt
    · refine hi.frame hm hs _ (append_assoc _ _ _) ?_ (by simp [setAll, Ne.symm hb])
      simp [Obs.barrierOp, Obs.actor, Obs.by?, hb]
  | queueDone k side hℓ hq hz hs' ht =>
    refine hi.frame hm hs _ (by rw [set_log, emit_log, setQueue_log,
      wakeSlot_log]) (by cases side <;> simp [Obs.served, Obs.barrierOp]) ?_
    exact congrFun (wakeSlot_barrierMap _ _) a
  | queueWait k side =>
    exact hi.frame hm hs _ rfl (by cases side <;> simp [Obs.queued, Obs.barrierOp]) rfl
  | fireTick | initMutex | lockGrant | lockQueue | unlockFree | unlockHandoff | sleep | wake =>
    exact hi.frame hm hs _ rfl (by simp [Obs.barrierOp]) rfl

theorem boot_barrierInv (cfg : Config) (a : Addr) : BarrierInv (boot cfg) a := by
  obtain ⟨-, -, hb, -, hl⟩ := boot_fresh cfg
  refine ⟨fun n _ => ⟨.empty, ?_, ?_⟩, fun b h => by simp [hb] at h⟩
  · rw [hl]
    exact .nil
  · simp [arrivedAt, hb, Barrier.empty]

structure BarrierSafe (w : World) (a : Addr) (b : TREBarrier) : Prop where
  room : b.arrived.length < b.count.toNat
  nodup : b.arrived.Nodup
  count : (arrivals a w.log).length = b.count.toNat * (batches a w.log).length + b.arrived.length
  order : arrivals a w.log = (batches a w.log).flatten ++ b.arrived
  full : ∀ l₁ batch l₂, w.log = l₁ ++ .released a batch :: l₂ →
    batch.length = b.count.toNat ∧ batch.Nodup ∧ arrivals a l₁ = (batches a l₁).flatten ++ batch
  continues : ∀ i l₁ l₂ o l₃, w.log = l₁ ++ .arrived i a :: (l₂ ++ o :: l₃) → o.actor = some i →
    ∃ batch, .released a batch ∈ l₂ ∧ i ∈ batch

theorem release_mem_barrierOps {l : List Obs} {batch : List TREId}
    (h : .release batch ∈ barrierOps a l) : released a batch ∈ l := by
  obtain ⟨o, ho, hop⟩ := mem_filterMap.mp h
  cases o with
  | released b batch' =>
    simp only [barrierOp, Option.ite_none_right_eq_some, Option.some.injEq] at hop
    obtain ⟨rfl, he⟩ := hop
    cases he
    exact ho
  | arrived i b =>
    simp only [barrierOp, Option.some.injEq] at hop
    split_ifs at hop
  | _ => cases hop

theorem exists_barrierOp_of_actor {o : Obs} (h : o.actor = some i) :
    ∃ op, o.barrierOp a = some op ∧ op.actor = some i := by
  cases o with
  | arrived k b =>
    cases h
    refine ⟨_, rfl, ?_⟩
    split_ifs <;> rfl
  | _ =>
    cases h
    all_goals exact ⟨_, rfl, rfl⟩

theorem BarrierInv.safe {b : TREBarrier} (hi : BarrierInv w a) (hb : w.barrierMap a = some b) :
    BarrierSafe w a b := by
  obtain ⟨β, ⟨hist, -⟩, harr⟩ := hi.exists_barrier hb
  refine ⟨hi.room b hb, harr ▸ β.nodup, ?_, ?_, ?_, ?_⟩
  · rw [← filterMap_arrival, ← filterMap_batch, ← harr]
    exact arrivals_length hist
  · rw [← filterMap_arrival, ← filterMap_batch, ← harr]
    exact arrivals_eq hist
  · intro l₁ batch l₂ hlog
    have hop : (released a batch).barrierOp a = some (.release batch) := by simp [barrierOp]
    rw [hlog, barrierOps_append, barrierOps_cons hop] at hist
    rw [← filterMap_arrival, ← filterMap_batch]
    exact batch_full hist
  · intro i l₁ l₂ o l₃ hlog ho
    obtain ⟨op, hop, hact⟩ := exists_barrierOp_of_actor (a := a) ho
    rw [hlog, barrierOps_append, barrierOps_cons (barrierOp_arrived i a), barrierOps_append,
      barrierOps_cons hop] at hist
    obtain ⟨batch, hmem, hin⟩ := waits_for_release hist hact
    exact ⟨batch, release_mem_barrierOps hmem, hin⟩

theorem Executes.releases {e : Event} {os : List Obs} {s : TRE} {b : TREBarrier} {env : Env}
    (hx : Executes w i .waitAtBarrier e os s) (hpeace : Peaceful cfg w loc) (ha : s.paddr ≠ 0)
    (hb : w.barrierMap s.paddr = some b) (hn : b.arrived.length + 1 = b.count.toNat) :
    ∃ w', step w (.fire i e, env) = .ok w' ∧ ∀ j, (w'.tre j).scheduled .tick = true ↔
      j ∈ b.arrived ++ [i] ∨ (j ≠ i ∧ (w.tre j).scheduled .tick = true) := by
  have hcalm : ∀ j, Calm j w.log := fun j => .of_forall_ne fun k d => hpeace.woke k d j
  have hsound : ∀ j, Sound cfg (w.starting i os s) j (update loc i (.holding _) j) :=
    fun j => hx.sane hpeace.sane j (hx.calm (hcalm j))
  have hsi : (w.starting i os s).tre i = s := by simp [starting]
  have hbv : (w.starting i os s).barrierMap ((w.starting i os s).tre i).paddr = some b := by
    rw [hsi]
    exact hb
  obtain ⟨-, -, hbar, -, -⟩ := clear_of_sound (P := fun _ => False) hsound (update_self i _ _)
  obtain ⟨hnd, hfree⟩ := hbar b hbv
  have hidle : s.scheduled .tick = false := by
    have hpl := (hsound i).placed
    rw [update_self, hsi] at hpl
    exact (hpl.idle rfl).tick
  have hnodup : (b.arrived ++ [i]).Nodup := hnd.resolve_right id
  have htick : ∀ j ∈ b.arrived ++ [i], ((w.starting i os s).tre j).scheduled .tick = false := by
    intro j hj
    rcases mem_append.mp hj with hj | hj
    · exact Bool.eq_false_iff.mpr fun ht => hfree j hj ht
    · rw [mem_singleton.mp hj, hsi]
      exact hidle
  have hrel : releaseAll ((w.starting i os s).emit (.arrived i s.paddr)) (b.arrived ++ [i]) =
      .ok (((w.starting i os s).emit (.arrived i s.paddr)).setAll (b.arrived ++ [i])) :=
    releaseAll_eq_ok.mpr ⟨hnodup, htick, rfl⟩
  set v := ((((w.starting i os s).emit (.arrived i s.paddr)).setAll (b.arrived ++ [i])).setBarrier
    s.paddr { b with arrived := [] }).emit (.released s.paddr (b.arrived ++ [i])) with hv
  have hvtre : ∀ j, v.tre j =
      if j ∈ b.arrived ++ [i] then ((w.starting i os s).tre j).ticking
        else (w.starting i os s).tre j :=
    fun j => rfl
  refine ⟨v.set i (clearPaddr (v.tre i)), hx.step_eq.trans ?_, fun j => ?_⟩
  · rw [hsi] at hbv
    simp [runPrim, waitAtBarrier, require, hsi, ha, hbv, hn, hrel, hv]
  · by_cases hj : j = i
    · subst hj
      simp [hvtre, clearPaddr, TRE.ticking]
    · by_cases hmem : j ∈ b.arrived
      · simp [hj, hvtre, hmem, TRE.ticking]
      · simp [hj, hvtre, hmem, starting]

theorem barrier_replay (hq : cfg.Quiet) (hw : Reachable cfg w) :
    (∀ a b, w.barrierMap a = some b → BarrierSafe w a b) ∧
    (∀ i, ∃ done rest, entries (w.tre i).trace = done ++ rest ∧
      List.Forall₂ Realises (effects i w.log) done) ∧
    (∀ i e os s b env, Executes w i .waitAtBarrier e os s → s.paddr ≠ 0 →
      w.barrierMap s.paddr = some b → b.arrived.length + 1 = b.count.toNat →
      ∃ w', step w (.fire i e, env) = .ok w' ∧ ∀ j, (w'.tre j).scheduled .tick = true ↔
        j ∈ b.arrived ++ [i] ∨ (j ≠ i ∧ (w.tre j).scheduled .tick = true)) ∧
    ∀ i e os s env, Executes w i .waitAtBarrier e os s → s.paddr ≠ 0 →
      w.barrierMap s.paddr = none →
      ∃ w', step w (.fire i e, env) = .ok w' ∧ w'.barrierMap = w.barrierMap ∧
        (w'.tre i).scheduled .tick = true ∧ (w'.tre i).blocked = false ∧
        ∃ c rest,
          readEntry (w'.tre i).traceFh = .ok
            (.prim .waitAtBarrier (some s.paddr) none c, rest) := by
  obtain ⟨loc, -, hpeace, hbar⟩ :=
    Reachable.with_sound (P := fun w _ => ∀ a, BarrierInv w a) hq (boot_barrierInv cfg)
      (fun _ _ _ _ hs h hm a => hm.barrierInv hs (h a)) w hw
  refine ⟨fun a b hb => (hbar a).safe hb, fun i => ?_, fun i e os s b env hx ha hb hn => ?_, ?_⟩
  · obtain ⟨done, hd, hr⟩ := (hpeace.sound i).ordered.order
    exact ⟨done, _, hd, hr⟩
  · exact hx.releases hpeace ha hb hn
  · intro i e os s env hx ha hnone
    have hcalm : Calm i w.log := .of_forall_ne fun k d => hpeace.woke k d i
    have hrun : runPrim (w.starting i os s) i env .waitAtBarrier =
        rewind ((w.starting i os s).emit (.barrierRetry i s.paddr)) i := by
      simp [runPrim, waitAtBarrier, require, World.starting, ha, hnone]
    obtain ⟨w', hstep, -, hm, ht, hb, hread⟩ := hx.rewinds hpeace.sane hcalm (.inr rfl) hrun
    exact ⟨w', hstep, hm, ht, hb, hread⟩

theorem barrier_replay_twice :
    ∃ w, Reachable
      (pair 1 ["BARINIT", "0x8", "2", "0", "BARWAIT", "0x8", "0", "BARWAIT", "0x8", "0", "EOF"]
        ["BARWAIT", "0x8", "0", "BARWAIT", "0x8", "0", "EOF"]) w ∧
      batches 8 w.log = [[0, 1]] ∧ arrivals 8 w.log = [0, 1, 1] ∧
      (∀ a b, w.barrierMap a = some b → BarrierSafe w a b) ∧
      (∀ i, ∃ done rest, entries (w.tre i).trace = done ++ rest ∧
        List.Forall₂ Realises (effects i w.log) done) ∧
      (∀ i e os s b env, Executes w i .waitAtBarrier e os s → s.paddr ≠ 0 →
        w.barrierMap s.paddr = some b → b.arrived.length + 1 = b.count.toNat →
        ∃ w', step w (.fire i e, env) = .ok w' ∧ ∀ j, (w'.tre j).scheduled .tick = true ↔
          j ∈ b.arrived ++ [i] ∨ (j ≠ i ∧ (w.tre j).scheduled .tick = true)) ∧
      ∀ i e os s env, Executes w i .waitAtBarrier e os s → s.paddr ≠ 0 →
        w.barrierMap s.paddr = none →
        ∃ w', step w (.fire i e, env) = .ok w' ∧ w'.barrierMap = w.barrierMap ∧
          (w'.tre i).scheduled .tick = true ∧ (w'.tre i).blocked = false ∧
          ∃ c rest,
            readEntry (w'.tre i).traceFh = .ok
              (.prim .waitAtBarrier (some s.paddr) none c, rest) := by
  have hrun : Runs.Ends step (boot (pair 1
      ["BARINIT", "0x8", "2", "0", "BARWAIT", "0x8", "0", "BARWAIT", "0x8", "0", "EOF"]
      ["BARWAIT", "0x8", "0", "BARWAIT", "0x8", "0", "EOF"]))
      [(.fire 1 .tick, {}), (.fire 0 .tick, {}), (.fire 0 .tick, {}), (.fire 1 .tick, {}),
        (.fire 1 .tick, {})]
      (fun w => batches 8 w.log = [[0, 1]] ∧ arrivals 8 w.log = [0, 1, 1]) := by decide +kernel
  obtain ⟨w, hw, hbat, harr⟩ := hrun.reachable
  exact ⟨w, hw, hbat, harr, barrier_replay (by decide) hw⟩

end HetSim.Replay
