import HetSim.Replay.Soundness

/-!
# How a handler can stop the simulation

Most faults are complaints about the trace, the program or the environment. The others are checks
of an engine on its own state. For each handler, the conditions under which one of those can
fail.
-/

namespace HetSim.Replay
open Checked TRE World
open Channels (Side)

variable {w : World} {i : TREId} {env : Env} {P : Fault → Prop}

def Fault.isInternal : Fault → Bool
  | .alreadyScheduled _ | .tickRetryPkt | .accessDepsEmpty | .stallDepsEmpty | .stallDepsNonempty
  | .eraseNotFound | .unsolicited | .alreadyAwake => true
  | _ => false

def Startable (P : Fault → Prop) (w : World) (i : TREId) (e : Event) : Prop :=
  (w.tre i).scheduled e = true → P (.alreadyScheduled e)

theorem schedule_raises {e : Event} (h : Startable P w i e) : Raises (w.schedule i e) P := by
  intro f hf
  obtain ⟨hs, rfl⟩ := schedule_eq_error.mp hf
  exact h hs

theorem proceed_raises {clear : TRE → TRE} (h : Startable P w i .tick) :
    Raises (proceed w i clear) P :=
  .bind (schedule_raises h) (fun _ _ => .pure _)

theorem rewind_raises (h : Startable P w i .tick) : Raises (rewind w i) P := by
  apply schedule_raises
  intro hs
  exact h (by simpa using hs)

theorem releaseAll_raises {batch : List TREId} (hn : batch.Nodup ∨ P (.alreadyScheduled .tick))
    (h : ∀ t ∈ batch, Startable P w t .tick) : Raises (releaseAll w batch) P := by
  induction batch generalizing w with
  | nil => exact .ok _
  | cons t batch ih =>
    have hcons :
        releaseAll w (t :: batch) = w.schedule t .tick >>= fun v => releaseAll v batch := rfl
    rw [hcons]
    refine .bind (schedule_raises (h t List.mem_cons_self)) fun v hv => ?_
    rw [schedule_eq_ok] at hv
    obtain ⟨-, rfl⟩ := hv
    rcases hn with hn | hn
    · rw [List.nodup_cons] at hn
      refine ih (.inl hn.2) fun j hj hs => ?_
      have hjt : j ≠ t := fun e => hn.1 (e ▸ hj)
      exact h j (List.mem_cons_of_mem _ hj) (by simpa [hjt] using hs)
    · exact ih (.inr hn) fun _ _ _ => hn

variable {p : Prim} {s : TRE} {ts : List String}

theorem release_raises {slot : Option TREId} (h : ∀ t ∈ slot, Startable P w t (.prim p)) :
    Raises (release w slot p) P := by
  cases slot with
  | none => exact .ok _
  | some t => exact schedule_raises (h t rfl)

structure Clear (P : Fault → Prop) (w : World) (i : TREId) : Prop where
  tick : Startable P w i .tick
  mutex : ∀ m, w.mutexMap (w.tre i).paddr = some m → ∀ t ∈ m.waiting,
    Startable P w t .tick ∧ (t = i → P (.alreadyScheduled .tick))
  barrier : ∀ b, w.barrierMap (w.tre i).paddr = some b →
    ((b.arrived ++ [i]).Nodup ∨ P (.alreadyScheduled .tick)) ∧
      ∀ t ∈ b.arrived, Startable P w t .tick
  push : ∀ q, w.queues (i, (w.tre i).data) = some q → ∀ t ∈ q.waitingToPop,
    Startable P w t (.prim .pop)
  pop : ∀ q, w.queues ((w.tre i).data, i) = some q → ∀ t ∈ q.waitingToPush,
    Startable P w t (.prim .push)

theorem Clear.of_all (h : ∀ e, P (.alreadyScheduled e)) : Clear P w i where
  tick _ := h _
  mutex _ _ _ _ := ⟨fun _ => h _, fun _ => h _⟩
  barrier _ _ := ⟨.inr (h _), fun _ _ _ => h _⟩
  push _ _ _ _ _ := h _
  pop _ _ _ _ _ := h _

theorem Clear.ticked {t : TREId} (h : Clear P w i) (ht : t = i → P (.alreadyScheduled .tick)) :
    Startable P (w.set t ((w.tre t).setFlag .tick true)) i .tick := by
  by_cases hti : t = i
  · exact fun _ => ht hti
  · intro hs
    exact h.tick (by simpa [Ne.symm hti] using hs)

section Primitives

variable (hP : ∀ f, f.isInternal = false → P f)
include hP

theorem initMutex_raises (h : Clear P w i) : Raises (initMutex w i) P := by
  refine .bind (.require fun _ => hP _ rfl) fun _ _ => ?_
  refine .bind (.require fun _ => hP _ rfl) fun _ _ => ?_
  exact proceed_raises h.tick

theorem lockMutex_raises (h : Clear P w i) : Raises (lockMutex w i) P := by
  refine .bind (.require fun _ => hP _ rfl) fun _ _ => ?_
  dsimp only
  split
  · exact rewind_raises h.tick
  · split
    · exact proceed_raises h.tick
    · exact .bind (.require fun _ => hP _ rfl) fun _ _ => .pure _

theorem unlockMutex_raises (h : Clear P w i) : Raises (unlockMutex w i env) P := by
  refine .bind (.require fun _ => hP _ rfl) fun _ _ => ?_
  refine .bind (.demand fun _ => hP _ rfl) fun m hm => ?_
  refine .bind (.require fun _ => hP _ rfl) fun _ _ => ?_
  rw [demand_eq_ok] at hm
  dsimp only
  split
  · exact proceed_raises h.tick
  · next t ht =>
    obtain ⟨hst, hti⟩ := h.mutex m hm t (List.mem_of_getElem? ht)
    refine .bind (schedule_raises hst) fun v hv => ?_
    rw [schedule_eq_ok] at hv
    obtain ⟨-, rfl⟩ := hv
    exact proceed_raises (h.ticked hti)

theorem initBarrier_raises (h : Clear P w i) : Raises (initBarrier w i) P := by
  refine .bind (.require fun _ => hP _ rfl) fun _ _ => ?_
  refine .bind (.require fun _ => hP _ rfl) fun _ _ => ?_
  refine .bind (.require fun _ => hP _ rfl) fun _ _ => ?_
  exact proceed_raises h.tick

theorem waitAtBarrier_raises (h : Clear P w i) : Raises (waitAtBarrier w i) P := by
  refine .bind (.require fun _ => hP _ rfl) fun _ _ => ?_
  dsimp only
  split
  · exact rewind_raises h.tick
  · next b hb =>
    obtain ⟨hn, ht⟩ := h.barrier b hb
    refine .ite (fun _ => ?_) (fun _ => .pure _)
    refine .bind (releaseAll_raises hn fun t hmem => ?_) fun _ _ => .pure _
    rcases List.mem_append.mp hmem with hmem | hmem
    · exact ht t hmem
    · rw [List.mem_singleton] at hmem
      rw [hmem]
      exact h.tick

theorem wake_raises (h : Clear P w i) (ht : ∀ t, w.allTREs[(w.tre i).data.toNat]? = some t →
    ((w.tre t).scheduled .tick = true → P .alreadyAwake) ∧ (t = i → P (.alreadyScheduled .tick))) :
    Raises (wake w i) P := by
  refine .bind (.require fun _ => hP _ rfl) fun _ _ => ?_
  refine .bind (.demand fun _ => hP _ rfl) fun t hx => ?_
  rw [demand_eq_ok] at hx
  obtain ⟨haw, hti⟩ := ht t hx
  refine .bind (.require fun hc => haw (by simpa using hc)) fun _ hr => ?_
  rw [require_eq_ok] at hr
  refine .bind (schedule_raises fun hs => absurd (hs.symm.trans hr) nofun) fun v hv => ?_
  rw [schedule_eq_ok] at hv
  obtain ⟨-, rfl⟩ := hv
  exact proceed_raises (h.ticked hti)

theorem queue_raises (side : Side) (h : Clear P w i) :
    Raises (runPrim w i env (queuePrim side)) P := by
  cases side <;>
  · refine .bind (.demand fun _ => hP _ rfl) fun q hq => ?_
    rw [demand_eq_ok] at hq
    refine .ite (fun _ => .pure _) (fun _ => ?_)
    refine .bind (release_raises ?_) fun v hv => ?_
    · first | exact h.push q hq | exact h.pop q hq
    · rw [release_eq_ok] at hv
      obtain ⟨-, rfl⟩ := hv
      apply proceed_raises
      intro hs
      exact h.tick (by simpa [wakeSlot_tick] using hs)

theorem runPrim_raises (h : Clear P w i)
    (hw : p = .wake → ∀ t, w.allTREs[(w.tre i).data.toNat]? = some t →
      ((w.tre t).scheduled .tick = true → P .alreadyAwake) ∧
        (t = i → P (.alreadyScheduled .tick))) :
    Raises (runPrim w i env p) P := by
  cases p with
  | initMutex => exact initMutex_raises hP h
  | lockMutex => exact lockMutex_raises hP h
  | unlockMutex => exact unlockMutex_raises hP h
  | initBarrier => exact initBarrier_raises hP h
  | waitAtBarrier => exact waitAtBarrier_raises hP h
  | sleep => exact .ok _
  | wake => exact wake_raises hP h (hw rfl)
  | push => exact queue_raises hP .push h
  | pop => exact queue_raises hP .pop h
  | dumpStats | resetStats | dumpResetStats => exact schedule_raises h.tick

end Primitives

section Reading

variable (hP : ∀ f, f.isInternal = false → P f)
include hP

theorem number_raises {r : Except Numerals.NumError ℤ} : Raises (number r) P := by
  intro f hf
  cases r with
  | ok v => cases hf
  | error e =>
    cases hf
    exact hP _ rfl

theorem readAddr_raises (word : String) : Raises (readAddr word) P :=
  .bind (number_raises hP) fun _ _ => .pure _

theorem readAccessHead_raises (ts : List String) : Raises (readAccessHead ts) P := by
  unfold readAccessHead
  split
  · refine .bind (number_raises hP) fun _ _ => ?_
    exact .bind (readAddr_raises hP _) fun _ _ => .pure _
  · exact .bind (readAddr_raises hP _) fun _ _ => .pure _

theorem readDeps_raises (ts : List String) : Raises (readDeps ts) P := by
  induction ts with
  | nil => exact .error (hP _ rfl)
  | cons word ts ih =>
    refine .ite (fun _ => .ok _) (fun _ => ?_)
    exact .bind (readAddr_raises hP _) fun _ _ => .bind ih fun _ _ => .pure _

theorem readDepList_raises {paren : Fault} (hp : paren.isInternal = false) (ts : List String) :
    Raises (readDepList paren ts) P :=
  .bind (.require fun _ => hP _ hp) fun _ _ => readDeps_raises hP _

theorem readOperands_raises (p : Prim) (ts : List String) : Raises (readOperands p ts) P := by
  cases p with
  | initMutex | lockMutex | unlockMutex | waitAtBarrier =>
    exact .bind (readAddr_raises hP _) fun _ _ => .pure _
  | initBarrier =>
    exact .bind (readAddr_raises hP _) fun _ _ => .bind (number_raises hP) fun _ _ => .pure _
  | wake | pop | push => exact .bind (number_raises hP) fun _ _ => .pure _
  | sleep | dumpStats | resetStats | dumpResetStats => exact .ok _

theorem readCycles_raises (ts : List String) : Raises (readCycles ts) P :=
  .bind (number_raises hP) fun _ _ => .pure _

end Reading

theorem sendPkt_tick {pkt : Packet} {v : Bool × World} (h : sendPkt w i env pkt = .ok v)
    (hb : (w.tre i).blocked = false) : (v.2.tre i).scheduled .tick = (w.tre i).scheduled .tick := by
  unfold sendPkt at h
  split_ifs at h
  · simp only [bind_eq_ok, pure_eq_ok] at h
    obtain ⟨u, hu, rfl⟩ := h
    obtain ⟨-, -, rfl⟩ := completeRequest_eq_ok hu
    simp [hb, received_tick]
  · cases h
    simp
  · cases h
    simp

def TRE.withPrim (s : TRE) (pa : Option Addr) (da : Option UInt32) (rest : List String) : TRE :=
  { s.advance rest with paddr := pa.getD s.paddr, data := da.getD s.data }

theorem TRE.waits_ne_empty {deps : List Addr} (h : s.hazard deps = true) : s.waits deps ≠ ∅ := by
  simp only [hazard, Bool.or_eq_true, decide_eq_true_eq, List.any_eq_true] at h
  rcases h with h | ⟨a, ha, hi⟩
  · rw [waits, if_neg h]
    simp
  · exact Finset.ne_empty_of_mem (mem_waits ha hi)

section Ticks

variable (hP : ∀ f, f.isInternal = false → P f)
include hP

theorem completeRequest_raises {pkt : Packet}
    (h : (addrInFlight pkt.paddr true (w.tre i).outstandingAddrs).1 = false → P .eraseNotFound) :
    Raises (completeRequest w i env pkt) P := by
  refine .bind (.require fun hc => h (by simpa using hc)) fun _ hf => ?_
  rw [require_eq_ok] at hf
  refine .bind (.require fun hc => absurd hf hc) fun _ _ => ?_
  refine .bind (.require fun _ => hP _ rfl) fun _ _ => ?_
  refine .bind (fun f hf => ?_) fun v _ => ?_
  · obtain ⟨⟨hs, -⟩, hs', -⟩ := scheduleIf_eq_error.mp hf
    exact absurd (hs'.symm.trans hs) nofun
  · refine .ite (fun _ => ?_) (fun _ => .pure _)
    intro f hf
    obtain ⟨-, rfl⟩ := reschedule_eq_error.mp hf
    exact hP _ rfl

theorem issue_raises {r : Req} (ht : Startable P w i .tick) (hb : (w.tre i).blocked = false) :
    Raises (issue w i env r) P := by
  refine .bind (.require fun _ => hP _ rfl) fun _ _ => ?_
  refine .bind ?_ fun cmd _ => ?_
  · cases r.cmd with
    | ld | st => exact .ok _
    | stall => exact .error (hP _ rfl)
  -- the address was put in flight just before, so an atomic access finds it
  refine .bind (P := P) ?_ fun v hv => ?_
  · refine .ite (fun _ => ?_) (fun _ => .ite (fun _ => .ok _) (fun _ => .ok _))
    refine .bind (completeRequest_raises hP fun hc => ?_) fun _ _ => .pure _
    rw [addrInFlight_fst] at hc
    simp at hc
  have hstart : Startable P v.2 i .tick := by
    intro hs
    rw [sendPkt_tick hv (by simpa using hb)] at hs
    exact ht (by simpa using hs)
  refine .bind ?_ fun u _ => ?_
  · cases v.1 with
    | true => exact .bind (schedule_raises hstart) fun _ _ => .pure _
    | false => exact .ok _
  · intro f hf
    obtain ⟨⟨hs, -⟩, hs', -⟩ := scheduleIf_eq_error.mp hf
    exact absurd (hs'.symm.trans hs) nofun

theorem execute_raises {r : Req} (ht : Startable P w i .tick) (hb : (w.tre i).blocked = false) :
    Raises (execute w i env r) P :=
  .ite (fun _ => schedule_raises ht) (fun _ => issue_raises hP ht hb)

theorem halt_raises : Raises (halt w i) P :=
  .bind (.require fun _ => hP _ rfl) fun _ _ => .pure _

theorem tickBlocked_raises (ht : Startable P w i .tick) : Raises (tickBlocked w i env) P := by
  refine .ite (fun _ => .ok _) (fun _ => execute_raises hP ?_ ?_)
  · intro hs
    exact ht (by simpa [unblock] using hs)
  · simp [unblock]

theorem tickAccess_raises {word : String}
    (h : s.blkingAccAddrInFlight ≠ invalidPaddr → s.blockedPkt.deps ≠ ∅ → P .accessDepsEmpty) :
    Raises (tickAccess s word ts) P := by
  refine .bind (readAccessHead_raises hP _) fun head _ => ?_
  refine .bind ?_ fun v _ => ?_
  · unfold noteBlking
    refine .ite (fun _ => .ok _) (fun hk => .bind (.require fun hd => ?_) fun _ _ => .pure _)
    refine h ?_ ?_
    · intro hc
      apply hk
      split_ifs <;> exact hc
    · intro hc
      apply hd
      split_ifs <;> exact hc
  · refine .bind (readDepList_raises hP rfl _) fun _ _ => ?_
    exact .ite (fun _ => .pure _) (fun _ => .pure _)

/-- The STALL branch collects its dependencies before it looks for a blocking
access, and then asserts that there is none. -/
theorem tickStall_raises {word : String} (hb : s.blocked = false)
    (h : ∀ n deps rest, readStall word ts = .ok (.stall (word = "STALLB") n deps, rest) →
      s.blkingAccAddrInFlight ≠ invalidPaddr →
      (deps.filter s.inFlightAddr).toFinset ∪ s.blockedPkt.deps ≠ ∅ → P .stallDepsEmpty) :
    Raises (tickStall s word ts) P := by
  refine .bind (number_raises hP) fun n hn => ?_
  refine .bind (readDepList_raises hP rfl _) fun deps hd => ?_
  have hread :
      readStall word ts = .ok (.stall (word = "STALLB") (UInt32.ofInt n) deps.1, deps.2) := by
    simp only [readStall, bind_eq_ok, pure_eq_ok]
    exact ⟨n, hn, deps, hd, rfl⟩
  refine .bind ?_ fun v hv => ?_
  · unfold noteBlking
    refine .ite (fun _ => .ok _) (fun hk => .bind (.require fun hc => ?_) fun _ _ => .pure _)
    rw [foldl_noteDep] at hk hc
    exact h _ _ _ hread hk hc
  · have hswap : { deps.1.foldl noteDep { s with data := UInt32.ofInt n } with
        traceFh := deps.2 } =
        deps.1.foldl noteDep { s with data := UInt32.ofInt n, traceFh := deps.2 } := by
      simp only [foldl_noteDep]
      rfl
    rw [hswap, noteBlking_eq_ok] at hv
    rw [hv.2]
    have hc := collect_stall (s := { s with data := UInt32.ofInt n, traceFh := deps.2 }) hb deps.1
    simp only at hc
    rw [hc]
    refine .ite (fun hz => .bind (.require fun hne => ?_) fun _ _ => .pure _) (fun _ => .pure _)
    exact absurd (not_not.mp hne) (waits_ne_empty hz)

theorem finishEntry_raises {sr : TRE × Req} (hs : sr.1.scheduled = (w.tre i).scheduled)
    (ht : Startable P w i .tick) : Raises (finishEntry w i env sr) P := by
  refine .ite (fun _ => .ok _) (fun hb => execute_raises hP ?_ (by simpa using hb))
  intro hf
  exact ht (by simpa [hs] using hf)

theorem tickPrim_raises
    (h : ∀ pa da c rest, readPrim p ts = .ok (.prim p pa da c, rest) →
      Raises (dispatch (w.set i { s with
        paddr := pa.getD s.paddr, data := da.getD s.data, traceFh := rest }) i env p c) P) :
    Raises (tickPrim (w.set i s) i env p ts) P := by
  refine .bind (readOperands_raises hP _ _) fun ops ho => ?_
  refine .bind (readCycles_raises hP _) fun c hc => ?_
  have hread : readPrim p ts = .ok (.prim p ops.1 ops.2.1 c.1, c.2) := by
    simp only [readPrim, bind_eq_ok, pure_eq_ok]
    exact ⟨ops, ho, c, hc, rfl⟩
  have := h _ _ _ _ hread
  simpa using this

theorem tickNext_raises (hb : (w.tre i).blocked = false) (ht : Startable P w i .tick)
    (hA : (w.tre i).blkingAccAddrInFlight ≠ invalidPaddr → (w.tre i).blockedPkt.deps ≠ ∅ →
      P .accessDepsEmpty)
    (hS : ∀ blk n deps rest, readEntry (w.tre i).traceFh = .ok (.stall blk n deps, rest) →
      (w.tre i).blkingAccAddrInFlight ≠ invalidPaddr →
      (deps.filter (w.tre i).inFlightAddr).toFinset ∪ (w.tre i).blockedPkt.deps ≠ ∅ →
      P .stallDepsEmpty)
    (hprim : ∀ p pa da c rest, readEntry (w.tre i).traceFh = .ok (.prim p pa da c, rest) →
      Raises (dispatch (w.set i ((w.tre i).withPrim pa da rest)) i env p c) P) :
    Raises (tickNext w i env) P := by
  unfold tickNext
  obtain ⟨⟨word, ts⟩, hr⟩ : ∃ r, readNextToken (w.tre i).traceFh = r := ⟨_, rfl⟩
  simp only [hr]
  refine .ite (fun _ => halt_raises hP) (fun _ => ?_)
  refine .ite (fun ha => ?_) (fun ha => .ite (fun hs => ?_) (fun hs => ?_))
  · refine .bind (tickAccess_raises hP hA) fun sr hsr => ?_
    refine finishEntry_raises hP ?_ ht
    obtain ⟨s', r⟩ := sr
    obtain ⟨pc, a, deps, rest, -, -, ⟨-, he⟩ | ⟨-, -, he⟩⟩ := tickAccess_eq_ok hsr hb
    all_goals rw [he]
  · have he : readEntry (w.tre i).traceFh = readStall word ts := by
      rw [readEntry_of_readNextToken hr (by rintro rfl; exact absurd hs (by decide)),
        readEntry_cons, if_neg ha, if_pos hs]
    refine .bind (tickStall_raises hP hb fun n deps rest hread => ?_) fun sr hsr => ?_
    · exact hS _ n deps rest (he.trans hread)
    · refine finishEntry_raises hP ?_ ht
      obtain ⟨s', r⟩ := sr
      obtain ⟨n, deps, rest, -, -, ⟨-, he⟩ | ⟨-, he⟩⟩ := tickStall_eq_ok hsr hb
      all_goals rw [he]
  · split
    · next p hp =>
      have he : readEntry (w.tre i).traceFh = readPrim p ts := by
        rw [readEntry_of_readNextToken hr (by rintro rfl; simp [primOf] at hp), readEntry_cons,
          if_neg ha, if_neg hs, hp]
      refine tickPrim_raises hP fun pa da c rest hread => ?_
      exact hprim p pa da c rest (he.trans hread)
    · exact .error (hP _ rfl)

theorem tick_raises (ht : Startable P w i .tick)
    (hR : (w.tre i).retryPkt ≠ none → P .tickRetryPkt)
    (hN : (w.tre i).blocked = false → Raises (tickNext w i env) P) : Raises (tick w i env) P := by
  refine .bind (.require fun hc => hR hc) fun _ _ => ?_
  exact .ite (fun _ => tickBlocked_raises hP ht) (fun hb => hN (by simpa using hb))

theorem recvRetry_raises (ht : (w.tre i).retryPkt ≠ none → Startable P w i .tick) :
    Raises (recvRetry w i env) P := by
  refine .bind (.demand fun _ => hP _ rfl) fun pkt hp => ?_
  rw [demand_eq_ok] at hp
  refine .ite (fun _ => .bind (fun f hf => ?_) fun _ _ => .pure _) (fun _ => .pure _)
  obtain ⟨-, hs, rfl⟩ := scheduleIf_eq_error.mp hf
  exact ht (by simp [hp]) (by simpa using hs)

end Ticks

end HetSim.Replay
