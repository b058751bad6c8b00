import HetSim.Replay.Soundness
import HetSim.Replay.Frames

/-!
# The request made for an access

An access is issued in the tick that reads it, or parked in `blockedPkt` and issued by a later
tick. The first request an engine creates after it read an access is the one for this access. The
program counter is the one field that does not survive the parking.
-/

namespace HetSim.Replay
open Checked

variable {w w' : World} {i j : TREId} {env : Env}

def pcField (ts : List String) : Option Addr :=
  match (readNextToken (readNextToken ts).2).1.toList with
  | '@' :: cs => (Numerals.stol 10 (String.ofList cs)).toOption.map UInt64.ofInt
  | _ => none

structure Carries (pkt : Packet) (cmd : TRECmd) (unc blk : Bool) (a : Addr) (pc : Option Addr) :
    Prop where
  cmd : memCmd cmd = .ok pkt.cmd
  paddr : pkt.paddr = a
  uncacheable : pkt.uncacheable = unc
  blking : pkt.blking = blk
  pc : ∀ v, pc = some v → pkt.pc = some v

def Obs.request (i : TREId) : Obs → Option Packet
  | .sent j pkt _ => if j = i then some pkt else none
  | _ => none

def requests (i : TREId) (log : List Obs) : List Packet := log.filterMap (Obs.request i)

@[simp] theorem requests_append (l l' : List Obs) :
    requests i (l ++ l') = requests i l ++ requests i l' := List.filterMap_append

theorem readEntry_pc {ts rest : List String} {cmd : TRECmd} {unc blk : Bool} {pc a : Addr}
    {deps : List Addr} (h : readEntry ts = .ok (.access cmd unc blk pc a deps, rest)) :
    pc = (pcField ts).getD (UInt64.ofInt (-1)) := by
  cases readEntry_reads h with
  | access _ hh =>
    simp only [pcField, readNextToken]
    unfold readAccessHead at hh
    split at hh
    · next cs hcs =>
      simp only [bind_eq_ok, pure_eq_ok, number, mapError_eq_ok] at hh
      obtain ⟨v, hv, b, -, rfl⟩ := hh
      simp only [readNextToken] at hcs
      rw [hcs]
      simp [hv, Except.toOption]
    · next hcs =>
      simp only [bind_eq_ok, pure_eq_ok] at hh
      obtain ⟨b, -, rfl⟩ := hh
      split
      · next cs hc => exact absurd hc (hcs cs)
      · rfl

structure Frame (i : TREId) (w w' : World) : Prop where
  blocked : (w'.tre i).blocked = (w.tre i).blocked
  pkt : (w'.tre i).blockedPkt = (w.tre i).blockedPkt
  requests : requests i w'.log = requests i w.log

namespace Frame

theorem refl (w : World) : Frame i w w := ⟨rfl, rfl, rfl⟩

theorem trans {v : World} (h : Frame i w v) (h' : Frame i v w') : Frame i w w' :=
  ⟨h'.blocked.trans h.blocked, h'.pkt.trans h.pkt, h'.requests.trans h.requests⟩

theorem set {s : TRE} (hb : s.blocked = (w.tre j).blocked)
    (hp : s.blockedPkt = (w.tre j).blockedPkt) :
    Frame i w (w.set j s) := by
  by_cases hij : i = j
  · subst hij
    exact ⟨by simpa using hb, by simpa using hp, rfl⟩
  · exact ⟨by simp [hij], by simp [hij], rfl⟩

theorem set_other (s : TRE) (hij : j ≠ i) : Frame i w (w.set j s) :=
  ⟨by simp [hij.symm], by simp [hij.symm], rfl⟩

theorem emit {o : Obs} (ho : o.request i = none) : Frame i w (w.emit o) := by
  refine ⟨rfl, rfl, ?_⟩
  simp [Replay.requests, ho]

theorem closed : Closed (Frame i) where
  refl := refl
  trans := trans
  set := set
  emit := by
    intro w o ho
    refine emit ?_
    cases o <;> first | rfl | cases ho
  setMutex _ _ _ := ⟨rfl, rfl, rfl⟩
  setBarrier _ _ _ := ⟨rfl, rfl, rfl⟩
  setQueue _ _ _ := ⟨rfl, rfl, rfl⟩

end Frame

variable {r : Req} {x : Ev × Env} {es : List (Ev × Env)}

theorem issue_request (h : issue w i env r = .ok w') :
    ∃ cmd, memCmd r.cmd = .ok cmd ∧
      requests i w'.log = requests i w.log ++ [(w.tre i).packet r cmd] := by
  obtain ⟨cmd, v, hc, rfl, hlater⟩ := Frame.closed.issue (R := Frame i) h
  refine ⟨cmd, hc, ?_⟩
  rw [hlater.requests]
  simp [requests, Obs.request]

theorem issue_frame (hij : j ≠ i) (h : issue w j env r = .ok w') : Frame i w w' := by
  obtain ⟨cmd, v, -, rfl, hlater⟩ := Frame.closed.issue (R := Frame i) h
  refine (Frame.set_other _ hij).trans (Frame.trans (.emit ?_) hlater)
  simp [Obs.request, hij]

theorem execute_frame (hij : j ≠ i) (h : execute w j env r = .ok w') : Frame i w w' := by
  unfold execute at h
  split_ifs at h
  · exact (Frame.emit rfl).trans (Frame.closed.schedule h)
  · exact issue_frame hij h

theorem halt_frame (h : halt w j = .ok w') : Frame i w w' := by
  simp only [halt, bind_eq_ok, require_eq_ok, pure_eq_ok] at h
  obtain ⟨-, -, rfl⟩ := h
  have hidle : Frame i w { w with numIdleTREs := w.numIdleTREs + 1 } := ⟨rfl, rfl, rfl⟩
  split_ifs
  · exact hidle.trans ((Frame.emit rfl).trans (.emit rfl))
  · exact hidle.trans (.emit rfl)

theorem tick_frame (hij : j ≠ i) (h : tick w j env = .ok w') : Frame i w w' := by
  simp only [tick, bind_eq_ok, require_eq_ok] at h
  obtain ⟨-, -, h⟩ := h
  split_ifs at h
  · simp only [tickBlocked] at h
    split_ifs at h
    · cases h
      exact .refl w
    · exact (Frame.set_other _ hij).trans (execute_frame hij h)
  have hfinish : ∀ sr, finishEntry w j env sr = .ok w' → Frame i w w' := by
    intro sr hf
    unfold finishEntry at hf
    split_ifs at hf
    · cases hf
      exact .set_other _ hij
    · exact (Frame.set_other _ hij).trans (execute_frame hij hf)
  simp only [tickNext] at h
  split_ifs at h
  · exact (Frame.set_other _ hij).trans (halt_frame h)
  · simp only [bind_eq_ok] at h
    obtain ⟨sr, -, h⟩ := h
    exact hfinish sr h
  · simp only [bind_eq_ok] at h
    obtain ⟨sr, -, h⟩ := h
    exact hfinish sr h
  · split at h
    · simp only [tickPrim, bind_eq_ok] at h
      obtain ⟨ops, -, c, -, h⟩ := h
      exact ((Frame.set_other _ hij).trans (.set_other _ hij)).trans (Frame.closed.dispatch h)
    · cases h

theorem step_frame (hx : x.1 ≠ .fire i .tick) (h : step w x = .ok w') : Frame i w w' := by
  obtain ⟨ev, env⟩ := x
  cases ev with
  | fire j e =>
    simp only [step, bind_eq_ok, require_eq_ok] at h
    obtain ⟨-, -, h⟩ := h
    refine Frame.trans (v := w.set j ((w.tre j).setFlag e false)) (.set rfl rfl) ?_
    cases e with
    | tick =>
      have hij : j ≠ i := by
        rintro rfl
        exact hx rfl
      exact (Frame.emit rfl).trans (tick_frame hij h)
    | noRequest => cases h
    | noResponse => cases h
    | prim p => exact Frame.closed.runPrim h
  | recvTimingResp j k => exact Frame.closed.recvTimingResp h
  | recvReqRetry j => exact Frame.closed.recvReqRetry h

structure Parked (s : TRE) (cmd : TRECmd) (unc blk : Bool) (a : Addr) : Prop where
  blocked : s.blocked = true
  addr : s.blockedPkt.addr = a
  cmd : s.blockedPkt.cmd = cmd
  uncacheable : s.blockedPkt.uncacheable = unc
  blking : s.blockedPkt.blking = blk

section Access

variable {cmd : TRECmd} {unc blk : Bool} {pc a : Addr} {deps : List Addr} {rest : List String}

theorem Parked.of_frame (h : Parked (w.tre i) cmd unc blk a) (hf : Frame i w w') :
    Parked (w'.tre i) cmd unc blk a := by
  obtain ⟨hb, h1, h2, h3, h4⟩ := h
  exact ⟨hf.blocked.trans hb, by rw [hf.pkt, h1], by rw [hf.pkt, h2], by rw [hf.pkt, h3],
    by rw [hf.pkt, h4]⟩

def parkedPacket (cmd : MemCmd) (unc blk : Bool) (a : Addr) : Packet := ⟨cmd, a, unc, none, blk⟩

theorem Parked.tick (h : Parked (w.tre i) cmd unc blk a) (hcmd : cmd ≠ .stall)
    (htick : tick w i env = .ok w') :
    (Parked (w'.tre i) cmd unc blk a ∧ requests i w'.log = requests i w.log) ∨
    ∃ c, memCmd cmd = .ok c ∧
      requests i w'.log = requests i w.log ++ [parkedPacket c unc blk a] := by
  simp only [Replay.tick, bind_eq_ok, require_eq_ok] at htick
  obtain ⟨-, -, htick⟩ := htick
  rw [if_pos h.blocked] at htick
  simp only [tickBlocked] at htick
  split_ifs at htick with hd
  · cases htick
    exact .inl ⟨h, rfl⟩
  · have hns : (w.tre i).blockedReq.cmd ≠ .stall := by
      rw [TRE.blockedReq, h.cmd]
      exact hcmd
    rw [execute, if_neg hns] at htick
    obtain ⟨c, hc, hr⟩ := issue_request htick
    refine .inr ⟨c, ?_, ?_⟩
    · rw [← h.cmd]
      exact hc
    · rw [hr, World.set_log]
      simp [TRE.packet, TRE.unblock, TRE.blockedReq, parkedPacket, h.addr, h.uncacheable, h.blking]

theorem Parked.step (h : Parked (w.tre i) cmd unc blk a) (hcmd : cmd ≠ .stall)
    (hstep : step w x = .ok w') :
    (Parked (w'.tre i) cmd unc blk a ∧ requests i w'.log = requests i w.log) ∨
    ∃ c, memCmd cmd = .ok c ∧
      requests i w'.log = requests i w.log ++ [parkedPacket c unc blk a] := by
  by_cases hx : x.1 = .fire i .tick
  · obtain ⟨ev, env⟩ := x
    obtain rfl : ev = .fire i .tick := hx
    simp only [Replay.step, bind_eq_ok, require_eq_ok] at hstep
    obtain ⟨-, -, hstep⟩ := hstep
    have hf : Frame i w ((w.set i ((w.tre i).setFlag .tick false)).emit (.ticked i)) :=
      .trans (.set (by rfl) (by rfl)) (.emit rfl)
    have hcase := (h.of_frame hf).tick hcmd hstep
    rwa [hf.requests] at hcase
  · have hf := step_frame hx hstep
    exact .inl ⟨h.of_frame hf, hf.requests⟩

theorem step_log (h : step w x = .ok w') : ∃ os, w'.log = w.log ++ os := by
  obtain ⟨loc, hm, -⟩ : Stepped w (fun _ => .absent) w' := step_moves h
  refine Moves.invariant (P := fun v _ => ∃ os, v.log = w.log ++ os) ?_ hm ⟨[], by simp⟩
  rintro v loc v' loc' ⟨os, hos⟩ hmove
  obtain ⟨os', hos'⟩ := hmove.log_append
  exact ⟨os ++ os', by rw [hos', hos, List.append_assoc]⟩

theorem run_log (h : Runs.run step w es = .ok w') : ∃ os, w'.log = w.log ++ os := by
  refine Runs.run_keeps (P := fun v => ∃ os, v.log = w.log ++ os) ?_ ⟨[], by simp⟩ h
  rintro v x v' ⟨os, hos⟩ hstep
  obtain ⟨os', hos'⟩ := step_log hstep
  exact ⟨os ++ os', by rw [hos', hos, List.append_assoc]⟩

theorem first_request {l : List Packet} {p pkt : Packet} {more : List Packet}
    (h : Runs.run step w es = .ok w') (hp : requests i w.log = l ++ [p])
    (hpkt : requests i w'.log = l ++ pkt :: more) : pkt = p := by
  obtain ⟨os, hos⟩ := run_log h
  rw [hos, requests_append, hp, List.append_assoc] at hpkt
  have := List.append_cancel_left hpkt
  simp only [List.singleton_append, List.cons.injEq] at this
  exact this.1.symm

theorem Parked.run {l more : List Packet} {pkt : Packet}
    (h : Parked (w.tre i) cmd unc blk a) (hcmd : cmd ≠ .stall) (hl : requests i w.log = l)
    (hrun : Runs.run Replay.step w es = .ok w') (hpkt : requests i w'.log = l ++ pkt :: more) :
    ∃ c, memCmd cmd = .ok c ∧ pkt = parkedPacket c unc blk a := by
  induction es generalizing w with
  | nil =>
    obtain rfl : w = w' := by simpa using hrun
    rw [hl] at hpkt
    simp at hpkt
  | cons x es ih =>
    rw [Runs.run_cons, bind_eq_ok] at hrun
    obtain ⟨v, hv, hrun⟩ := hrun
    rcases h.step hcmd hv with ⟨hp, hr⟩ | ⟨c, hc, hr⟩
    · exact ih hp (hr.trans hl) hrun
    · rw [hl] at hr
      exact ⟨c, hc, first_request hrun hr hpkt⟩

/-- An engine that takes an access either parks it or creates its request. -/
def Took (s s' : TRE) (l l' : List Packet) (cmd : TRECmd) (unc blk : Bool) (pc a : Addr)
    (deps : List Addr) : Prop :=
  ((s.full = true ∨ s.hazard deps = true) ∧ Parked s' cmd unc blk a ∧ l' = l) ∨
  (s.full = false ∧ s.hazard deps = false ∧ ∃ c, memCmd cmd = .ok c ∧
    l' = l ++ [⟨c, a, unc, if pc = UInt64.ofInt (-1) then none else some pc, blk⟩])

theorem tickNext_access
    (he : readEntry (w.tre i).traceFh = .ok (.access cmd unc blk pc a deps, rest))
    (hb : (w.tre i).blocked = false) (h : tickNext w i env = .ok w') :
    Took (w.tre i) (w'.tre i) (requests i w.log) (requests i w'.log) cmd unc blk pc a deps := by
  obtain ⟨word, ts, hts, hacc, hread⟩ := readEntry_isAccess he
  have hne : word ≠ "EOF" := by
    rintro rfl
    exact absurd hacc (by decide)
  simp only [tickNext, hts, readNextToken, if_neg hne, if_pos hacc, bind_eq_ok] at h
  obtain ⟨⟨s', r⟩, hsr, h⟩ := h
  obtain ⟨pc', a', deps', rest', hra, rfl, ⟨hz, rfl⟩ | ⟨hf, hz, rfl⟩⟩ := tickAccess_eq_ok hsr hb
  · cases hra.symm.trans hread
    rw [finishEntry, if_pos rfl] at h
    cases h
    refine .inl ⟨hz, ?_, rfl⟩
    rw [World.set_tre, Function.update_self]
    exact ⟨rfl, rfl, rfl, rfl, rfl⟩
  · cases hra.symm.trans hread
    have hns : accessCmd word ≠ .stall := readEntry_access he
    rw [finishEntry, if_neg (by simp [hb]), execute, if_neg hns] at h
    obtain ⟨c, hc, hreq⟩ := issue_request h
    refine .inr ⟨hf, hz, c, hc, ?_⟩
    rw [hreq]
    simp [TRE.packet]

theorem step_access (he : readEntry (w.tre i).traceFh = .ok (.access cmd unc blk pc a deps, rest))
    (hb : (w.tre i).blocked = false) (h : step w (.fire i .tick, env) = .ok w') :
    Took (w.tre i) (w'.tre i) (requests i w.log) (requests i w'.log) cmd unc blk pc a deps := by
  simp only [step, bind_eq_ok, require_eq_ok] at h
  obtain ⟨-, -, h⟩ := h
  have hlog : requests i (w.emit (.ticked i)).log = requests i w.log := (Frame.emit rfl).requests
  simp only [process, tick, World.set_emit, bind_eq_ok, require_eq_ok, World.set_tre,
    Function.update_self] at h
  obtain ⟨-, -, h⟩ := h
  rw [if_neg (by rw [← Bool.not_eq_false, not_not]; exact hb)] at h
  have hcase := tickNext_access
    (show readEntry _ = .ok (.access cmd unc blk pc a deps, rest) by simpa [TRE.setFlag] using he)
    (by simpa [TRE.setFlag] using hb) h
  simp only [World.set_tre, Function.update_self, World.set_log, hlog] at hcase
  exact hcase

/-- The first request an engine creates after it read an access has its command, address and flags;
it has its program counter exactly when the access was not parked and the program counter is not
the sentinel. -/
theorem request_carries_entry_iff {es : List (Ev × Env)} {pkt : Packet} {more : List Packet}
    (hb : (w.tre i).blocked = false)
    (he : readEntry (w.tre i).traceFh = .ok (.access cmd unc blk pc a deps, rest))
    (hrun : Runs.run step w ((.fire i .tick, env) :: es) = .ok w')
    (hpkt : requests i w'.log = requests i w.log ++ pkt :: more) :
    Carries pkt cmd unc blk a (pcField (w.tre i).traceFh) ↔
      pcField (w.tre i).traceFh = none ∨
      (pcField (w.tre i).traceFh ≠ some (UInt64.ofInt (-1)) ∧
        (w.tre i).full = false ∧ (w.tre i).hazard deps = false) := by
  have hcmd : cmd ≠ .stall := readEntry_access he
  have hpc := readEntry_pc he
  rw [Runs.run_cons, bind_eq_ok] at hrun
  obtain ⟨v, hv, hrun⟩ := hrun
  rcases step_access he hb hv with ⟨hz, hpark, hreq⟩ | ⟨hf, hz, c, hc, hreq⟩
  · -- parked: the first request comes from `blockedPkt`
    obtain ⟨c, hc, rfl⟩ := hpark.run hcmd hreq hrun hpkt
    constructor
    · intro h
      left
      by_contra hne
      obtain ⟨v, hv⟩ := Option.ne_none_iff_exists'.mp hne
      exact absurd (h.pc v hv) (by simp [parkedPacket])
    · rintro (hnone | ⟨-, hf, hz'⟩)
      · refine ⟨hc, rfl, rfl, rfl, fun v hv => ?_⟩
        rw [hnone] at hv
        cases hv
      · rcases hz with hz | hz
        · exact absurd (hf.symm.trans hz) (by simp)
        · exact absurd (hz'.symm.trans hz) (by simp)
  · obtain rfl := first_request hrun hreq hpkt
    constructor
    · intro h
      cases hfield : pcField (w.tre i).traceFh with
      | none => exact .inl rfl
      | some v =>
        refine .inr ⟨?_, hf, hz⟩
        rintro ⟨⟩
        rw [hfield] at hpc h
        have := h.pc _ rfl
        simp [hpc] at this
    · intro h
      refine ⟨hc, rfl, rfl, rfl, fun v hv => ?_⟩
      rw [hv] at hpc h
      obtain rfl : pc = v := by simpa using hpc
      have hne : pc ≠ UInt64.ofInt (-1) := by
        rcases h with h | ⟨h, -⟩
        · cases h
        · exact fun hc => h (by rw [hc])
      exact if_neg hne

end Access

def parkedTrace : List String :=
  ["LD", "@4092", "0x10", "(", ")", "LDU", "@4096", "0x20", "(", "0x10", ")", "EOF"]

theorem parked_loses_pc :
    ∃ w w' pkt, Reachable (single 4 parkedTrace) w ∧ (w.tre 0).blocked = false ∧
      readEntry (w.tre 0).traceFh = .ok (.access .ld true false 4096 0x20 [0x10], ["EOF"]) ∧
      pcField (w.tre 0).traceFh = some 4096 ∧
      Runs.run step w [(.fire 0 .tick, {}), (.recvTimingResp 0 0, {}), (.fire 0 .tick, {})] =
        .ok w' ∧
      requests 0 w'.log = requests 0 w.log ++ [pkt] ∧
      pkt.pc = none ∧ ¬ Carries pkt .ld true false 0x20 (pcField (w.tre 0).traceFh) := by
  have hrun : Runs.Ends step (boot (single 4 parkedTrace)) [(.fire 0 .tick, {})] (fun w =>
      (w.tre 0).blocked = false ∧
      readEntry (w.tre 0).traceFh = .ok (.access .ld true false 4096 0x20 [0x10], ["EOF"]) ∧
      pcField (w.tre 0).traceFh = some 4096 ∧
      Runs.Ends step w [(.fire 0 .tick, {}), (.recvTimingResp 0 0, {}), (.fire 0 .tick, {})]
        (fun w' => requests 0 w'.log = requests 0 w.log ++
          [⟨.readReq, 0x20, true, none, false⟩])) := by
    decide
  obtain ⟨w, hw, hb, he, hpc, w', hw', hreq⟩ := hrun.reachable
  refine ⟨w, w', _, hw, hb, he, hpc, hw', hreq, rfl, fun h => ?_⟩
  exact absurd (h.pc 4096 hpc) (by simp)

def parkedNoPcTrace : List String :=
  ["LD", "@4092", "0x10", "(", ")", "LDU", "0x20", "(", "0x10", ")", "EOF"]

/-- An entry without a program counter loses nothing when it is parked. -/
theorem request_carries_entry_parked :
    ∃ w w', Reachable (single 4 parkedNoPcTrace) w ∧ (w.tre 0).hazard [0x10] = true ∧
      Runs.run step w [(.fire 0 .tick, {}), (.recvTimingResp 0 0, {}), (.fire 0 .tick, {})] =
        .ok w' ∧
      requests 0 w'.log = requests 0 w.log ++ [⟨.readReq, 0x20, true, none, false⟩] ∧
      Carries ⟨.readReq, 0x20, true, none, false⟩ .ld true false 0x20 none := by
  have hrun : Runs.Ends step (boot (single 4 parkedNoPcTrace)) [(.fire 0 .tick, {})] (fun w =>
      (w.tre 0).blocked = false ∧ readEntry (w.tre 0).traceFh =
        .ok (.access .ld true false (UInt64.ofInt (-1)) 0x20 [0x10], ["EOF"]) ∧
      pcField (w.tre 0).traceFh = none ∧ (w.tre 0).hazard [0x10] = true ∧
      Runs.Ends step w [(.fire 0 .tick, {}), (.recvTimingResp 0 0, {}), (.fire 0 .tick, {})]
        (fun w' => requests 0 w'.log = requests 0 w.log ++
          [⟨.readReq, 0x20, true, none, false⟩])) := by
    decide
  obtain ⟨w, hw, hb, he, hpc, hz, w', hw', hreq⟩ := hrun.reachable
  have hiff := request_carries_entry_iff hb he hw' hreq
  rw [hpc] at hiff
  exact ⟨w, w', hw, hz, hw', hreq, hiff.mpr (.inl rfl)⟩

end HetSim.Replay
