import HetSim.Replay.Faults

/-!
# Accesses of one engine

Over a whole run accesses are sent in program order and only when their dependencies returned,
and the vector of addresses in flight is exact.
-/

namespace HetSim.Replay
open Checked

variable {cfg : Config} {w : World} {i : TREId}

theorem Reachable.sane (hw : Reachable cfg w) : ∃ loc, Settled loc ∧ Sane cfg w loc := by
  obtain ⟨loc, hset, hsane, -⟩ :=
    Reachable.with_sane (P := fun _ _ => True) trivial (fun _ _ _ _ _ _ _ => trivial) w hw
  exact ⟨loc, hset, hsane⟩

theorem accesses_follow_trace (hw : Reachable cfg w) (hcalm : Calm i w.log)
    (hclean : CleanTrace (w.tre i).trace) :
    ∃ done rest, entries (w.tre i).trace = done ++ rest ∧
      List.Forall₂ Realises (effects i w.log) done ∧
      (∀ eff ∈ effects i w.log, ∀ q ∈ eff.out, q.blking = false) ∧
      (Obs.halted i ∈ w.log → rest = []) := by
  obtain ⟨loc, -, hsane⟩ := hw.sane
  have hs := hsane i hcalm
  obtain ⟨done, hd, hr⟩ := hs.ordered.order
  refine ⟨done, _, hd, hr, (hs.ordered.exclusive hclean).2, fun hh => ?_⟩
  have hℓ := hs.registered.halted.mp hh
  rw [hℓ]
  rfl

def dependentTrace : List String :=
  ["LDB", "0x10", "(", ")", "ST", "0x20", "(", "0x10", ")", "EOF"]

theorem accesses_follow_trace_dependent :
    ∃ w, Reachable (single 4 dependentTrace) w ∧ Calm 0 w.log ∧ CleanTrace (w.tre 0).trace ∧
      (effects 0 w.log).length = 2 ∧
      ∃ done rest, entries (w.tre 0).trace = done ++ rest ∧
        List.Forall₂ Realises (effects 0 w.log) done ∧
        (∀ eff ∈ effects 0 w.log, ∀ q ∈ eff.out, q.blking = false) ∧
        (Obs.halted 0 ∈ w.log → rest = []) := by
  have hrun : Runs.Ends step (boot (single 4 dependentTrace))
      [(.fire 0 .tick, {}), (.fire 0 .tick, {}), (.recvTimingResp 0 0, {}), (.fire 0 .tick, {})]
      (fun w => w.log = [.ticked 0, .sent 0 ⟨.readReq, 0x10, false, none, true⟩ [], .ticked 0,
        .completed 0 ⟨.readReq, 0x10, false, none, true⟩, .ticked 0,
        .sent 0 ⟨.writeReq, 0x20, false, none, false⟩ []] ∧ (w.tre 0).trace = dependentTrace) := by
    decide
  obtain ⟨w, hw, hlog, htrace⟩ := hrun.reachable
  have hcalm : Calm 0 w.log := by
    rw [hlog]
    exact .of_forall_ne (by simp)
  have hclean : CleanTrace (w.tre 0).trace := by
    rw [htrace]
    decide
  exact ⟨w, hw, hcalm, hclean, by rw [hlog]; rfl, accesses_follow_trace hw hcalm hclean⟩

def sentinelTrace : List String := ["LDB", "-1", "(", ")", "LDB", "-1", "(", ")", "EOF"]

def rewindTrace : List String :=
  ["ST", "0x10", "(", ")", "MTXLOCK", "0x99", "5", "LD", "0x20", "(", "0x10", ")", "EOF"]

def wakeTrace : List String := ["WAKE", "1", "0", "EOF"]

def Effect.addr? : Effect → Option Addr
  | .access pkt _ => some pkt.paddr
  | _ => none

def Entry.addr? : Entry → Option Addr
  | .access _ _ _ _ a _ => some a
  | _ => none

/-- A blocking access to the sentinel does not hold the next access back. A WAKE of an engine whose
lock is delayed lets the retry go back to the load read in between, which is sent twice. -/
theorem accesses_not_in_order :
    (∃ w, Reachable (single 4 sentinelTrace) w ∧ "SLEEP" ∉ sentinelTrace ∧ "WAKE" ∉ sentinelTrace ∧
      ∃ eff ∈ effects 0 w.log, ∃ q ∈ eff.out, q.blking = true) ∧
    ∃ w, Reachable (pair 4 wakeTrace rewindTrace) w ∧ "SLEEP" ∉ rewindTrace ∧ "WAKE" ∉ rewindTrace ∧
      (effects 1 w.log).filterMap Effect.addr? = [0x10, 0x20, 0x20] ∧
      (entries rewindTrace).filterMap Entry.addr? = [0x10, 0x20] := by
  have h₀ : Runs.Ends step (boot (single 4 sentinelTrace)) [(.fire 0 .tick, {}),
      (.fire 0 .tick, {})]
      (fun w => ∃ eff ∈ effects 0 w.log, ∃ q ∈ eff.out, q.blking = true) := by decide
  have h₁ : Runs.Ends step (boot (pair 4 wakeTrace rewindTrace))
      [(.fire 1 .tick, {}), (.fire 1 .tick, {}), (.fire 0 .tick, {}), (.fire 1 .tick, {}),
        (.fire 1 (.prim .lockMutex), {}), (.fire 1 .tick, {}), (.recvTimingResp 1 0, {}),
        (.fire 1 .tick, {}), (.fire 1 .tick, {})]
      (fun w => (effects 1 w.log).filterMap Effect.addr? = [0x10, 0x20, 0x20]) := by decide
  obtain ⟨w₀, hw₀, hp₀⟩ := h₀.reachable
  obtain ⟨w₁, hw₁, hp₁⟩ := h₁.reachable
  exact ⟨⟨w₀, hw₀, by decide, by decide, hp₀⟩, w₁, hw₁, by decide, by decide, hp₁, by decide⟩

theorem OnlyLast.count_le_one {l : List (Addr × Bool)} (h : OnlyLast l) :
    (l.filter (·.2)).length ≤ 1 := by
  induction l with
  | nil => simp
  | cons x l ih =>
    cases hx : x.2 with
    | false =>
      rw [List.filter_cons_of_neg (by simp [hx])]
      exact ih h.tail
    | true =>
      rw [h.eq_nil hx]
      simp [hx]

def Ev.engine : Ev → TREId
  | .fire i _ => i
  | .recvTimingResp i _ => i
  | .recvReqRetry i => i

theorem response_solicited
    (hb : ∀ pkt ∈ (w.tre i).inFlight, (w.tre i).inFlightAddr pkt.paddr = true) {ev : Ev}
    (hev : ev.engine = i) (env : Env) :
    Raises (step w (ev, env)) (fun f => f ≠ .eraseNotFound ∧ f ≠ .unsolicited) := by
  have hP : ∀ f : Fault, f.isInternal = false → f ≠ .eraseNotFound ∧ f ≠ .unsolicited := by
    intro f hf
    constructor <;> rintro rfl <;> cases hf
  have hall : ∀ e, Fault.alreadyScheduled e ≠ Fault.eraseNotFound ∧
      Fault.alreadyScheduled e ≠ Fault.unsolicited := fun e => (by simp)
  have hprim : ∀ (v : World) (p : Prim), Raises (runPrim v i env p)
      (fun f => f ≠ .eraseNotFound ∧ f ≠ .unsolicited) := fun v p =>
    runPrim_raises hP (.of_all hall) fun _ _ _ => ⟨fun _ => (by simp), fun _ => hall _⟩
  cases ev with
  | fire j e =>
    obtain rfl : j = i := hev
    refine .bind (.require fun _ => (by simp)) fun _ _ => ?_
    cases e with
    | tick =>
      refine tick_raises hP (fun _ => hall _) (fun _ => (by simp)) fun hnb => ?_
      refine tickNext_raises hP hnb (fun _ => hall _) (fun _ _ => (by simp))
        (fun _ _ _ _ _ _ _ => (by simp)) fun p pa da c rest _ => ?_
      exact .ite (fun _ => hprim _ p) (fun _ => schedule_raises fun _ => hall _)
    | noRequest | noResponse => exact .error (by simp)
    | prim p => exact hprim _ p
  | recvTimingResp j k =>
    obtain rfl : j = i := hev
    refine .bind (.demand fun _ => (by simp)) fun pkt hk => ?_
    rw [demand_eq_ok] at hk
    refine completeRequest_raises hP fun hc => ?_
    have hf := hb pkt (List.mem_of_getElem? hk)
    rw [TRE.inFlightAddr, addrInFlight_fst] at hf
    rw [addrInFlight_fst] at hc
    simp only [World.set_tre, Function.update_self] at hc
    cases hf.symm.trans hc
  | recvReqRetry j => exact recvRetry_raises hP fun _ _ => hall _

theorem outstanding_exact (hw : Reachable cfg w) (hcalm : Calm i w.log)
    (hmax : 1 ≤ (w.tre i).maxNumOutstandingAddrs) (hclean : CleanTrace (w.tre i).trace) :
    ((w.tre i).outstandingAddrs.map Prod.fst).Perm ((w.tre i).outstanding.map Packet.paddr) ∧
    (w.tre i).outstandingAddrs.length ≤ (w.tre i).maxNumOutstandingAddrs ∧
    ((w.tre i).outstandingAddrs.filter (·.2)).length ≤ 1 ∧
    ((w.tre i).outstandingAddrs ≠ [] ↔ (w.tre i).scheduled .noResponse = true) ∧
    ∀ ev env, ev.engine = i →
      step w (ev, env) ≠ .error .eraseNotFound ∧ step w (ev, env) ≠ .error .unsolicited := by
  obtain ⟨loc, -, hsane⟩ := hw.sane
  have hs := hsane i hcalm
  have hb := hs.booked
  refine ⟨hb.addrs, hb.room hmax, ((hs.ordered.exclusive hclean).1.last).count_le_one,
    hb.watched.symm, fun ev env hev => ?_⟩
  have hsol : ∀ pkt ∈ (w.tre i).inFlight, (w.tre i).inFlightAddr pkt.paddr = true := by
    intro pkt hpkt
    rw [TRE.inFlightAddr_iff]
    exact hb.addrs.symm.subset (List.mem_map_of_mem (List.mem_append_left _ hpkt))
  have hr := response_solicited hsol hev env
  exact ⟨fun hc => (hr _ hc).1 rfl, fun hc => (hr _ hc).2 rfl⟩

def twoLoads : List String := ["LD", "0x10", "(", ")", "LD", "0x20", "(", ")", "EOF"]

theorem outstanding_exact_twoLoads :
    ∃ w, Reachable (single 4 twoLoads) w ∧ Calm 0 w.log ∧
      1 ≤ (w.tre 0).maxNumOutstandingAddrs ∧ CleanTrace (w.tre 0).trace ∧
      (w.tre 0).outstandingAddrs.map Prod.fst = [0x10, 0x20] ∧
      ((w.tre 0).outstandingAddrs.map Prod.fst).Perm ((w.tre 0).outstanding.map Packet.paddr) ∧
      (w.tre 0).outstandingAddrs.length ≤ (w.tre 0).maxNumOutstandingAddrs ∧
      ((w.tre 0).outstandingAddrs.filter (·.2)).length ≤ 1 ∧
      ((w.tre 0).outstandingAddrs ≠ [] ↔ (w.tre 0).scheduled .noResponse = true) ∧
      ∀ ev env, ev.engine = 0 →
        step w (ev, env) ≠ .error .eraseNotFound ∧ step w (ev, env) ≠ .error .unsolicited := by
  have hrun : Runs.Ends step (boot (single 4 twoLoads)) [(.fire 0 .tick, {}), (.fire 0 .tick, {})]
      (fun w => w.log = [.ticked 0, .sent 0 ⟨.readReq, 0x10, false, none, false⟩ [], .ticked 0,
        .sent 0 ⟨.readReq, 0x20, false, none, false⟩ [⟨.readReq, 0x10, false, none, false⟩]] ∧
        (w.tre 0).trace = twoLoads ∧
        1 ≤ (w.tre 0).maxNumOutstandingAddrs ∧
        (w.tre 0).outstandingAddrs.map Prod.fst = [0x10, 0x20]) := by
    decide
  obtain ⟨w, hw, hlog, htrace, hmax, haddrs⟩ := hrun.reachable
  have hcalm : Calm 0 w.log := by
    rw [hlog]
    exact .of_forall_ne (by simp)
  have hclean : CleanTrace (w.tre 0).trace := by
    rw [htrace]
    decide
  exact ⟨w, hw, hcalm, hmax, hclean, haddrs, outstanding_exact hw hcalm hmax hclean⟩

/-- Two accesses to the sentinel both carry the blocking bit. A WAKE of an engine
that is parked because its vector is full lets it exceed the limit. -/
theorem outstanding_not_exact :
    (∃ w, Reachable (single 4 sentinelTrace) w ∧ "SLEEP" ∉ sentinelTrace ∧ "WAKE" ∉ sentinelTrace ∧
      ((w.tre 0).outstandingAddrs.filter (·.2)).length = 2) ∧
    ∃ w, Reachable (pair 1 wakeTrace twoLoads) w ∧ "SLEEP" ∉ twoLoads ∧ "WAKE" ∉ twoLoads ∧
      (w.tre 1).maxNumOutstandingAddrs = 1 ∧ (w.tre 1).outstandingAddrs.length = 2 := by
  have h₀ : Runs.Ends step (boot (single 4 sentinelTrace)) [(.fire 0 .tick, {}),
      (.fire 0 .tick, {})]
      (fun w => ((w.tre 0).outstandingAddrs.filter (·.2)).length = 2) := by decide
  have h₁ : Runs.Ends step (boot (pair 1 wakeTrace twoLoads))
      [(.fire 1 .tick, {}), (.fire 1 .tick, {}), (.fire 0 .tick, {}), (.fire 1 .tick, {})]
      (fun w => (w.tre 1).maxNumOutstandingAddrs = 1 ∧ (w.tre 1).outstandingAddrs.length = 2) := by
    decide
  obtain ⟨w₀, hw₀, hp₀⟩ := h₀.reachable
  obtain ⟨w₁, hw₁, hp₁⟩ := h₁.reachable
  exact ⟨⟨w₀, hw₀, by decide, by decide, hp₀⟩, w₁, hw₁, by decide, by decide, hp₁⟩

end HetSim.Replay
