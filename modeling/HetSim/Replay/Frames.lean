import HetSim.Replay.Handlers

/-!
# What the handlers leave alone

A relation between worlds that is kept by the elementary operations is kept by every primitive
and by the calls of the memory port.
-/

namespace HetSim.Replay
open Checked

variable {w w' : World} {i j : TREId} {env : Env} {R : World → World → Prop}

def Obs.isPlain : Obs → Bool
  | .sent .. | .halted _ | .exitSimLoop _ => false
  | _ => true

structure Closed (R : World → World → Prop) : Prop where
  refl : ∀ w, R w w
  trans : ∀ {u v w}, R u v → R v w → R u w
  set : ∀ {w : World} {j : TREId} {s : TRE}, s.blocked = (w.tre j).blocked →
    s.blockedPkt = (w.tre j).blockedPkt → R w (w.set j s)
  emit : ∀ {w : World} {o : Obs}, o.isPlain = true → R w (w.emit o)
  setMutex : ∀ w a m, R w (World.setMutex w a m)
  setBarrier : ∀ w a b, R w (World.setBarrier w a b)
  setQueue : ∀ w k q, R w (World.setQueue w k q)

namespace Closed

variable {e : Event} {clear : TRE → TRE} {p : Prim} {pkt : Packet} (hR : Closed R)
include hR

theorem schedule (h : w.schedule j e = .ok w') : R w w' := by
  rw [World.schedule_eq_ok] at h
  obtain ⟨-, rfl⟩ := h
  exact hR.set rfl rfl

theorem scheduleIf {c : Prop} [Decidable c]
    (h : w.scheduleIf c j e = .ok w') : R w w' := by
  unfold World.scheduleIf at h
  split_ifs at h
  · exact hR.schedule h
  · cases h
    exact hR.refl _

theorem proceed (h : proceed w j clear = .ok w')
    (hc : ∀ s, (clear s).blocked = s.blocked ∧ (clear s).blockedPkt = s.blockedPkt) : R w w' := by
  rw [proceed_eq_ok] at h
  obtain ⟨-, rfl⟩ := h
  exact hR.set (hc _).1 (hc _).2

theorem rewind (h : rewind w j = .ok w') : R w w' := by
  rw [rewind_eq_ok] at h
  obtain ⟨-, rfl⟩ := h
  exact hR.set rfl rfl

theorem releaseAll {batch : List TREId} (h : releaseAll w batch = .ok w') :
    R w w' := by
  induction batch generalizing w with
  | nil =>
    cases h
    exact hR.refl _
  | cons t batch ih =>
    obtain ⟨v, hv, h⟩ := bind_eq_ok.mp h
    exact hR.trans (hR.schedule hv) (ih h)

theorem release {slot : Option TREId} (h : release w slot p = .ok w') : R w w' := by
  cases slot with
  | none =>
    cases h
    exact hR.refl _
  | some t => exact hR.schedule h

theorem completeRequest (h : completeRequest w j env pkt = .ok w') : R w w' := by
  obtain ⟨-, -, rfl⟩ := completeRequest_eq_ok h
  refine hR.trans (hR.emit (by rfl)) (hR.set ?_ ?_)
  · split_ifs <;> rfl
  · split_ifs <;> rfl

theorem emit_proceed {v : World} {o : Obs} (hv : R w v)
    (ho : o.isPlain = true) (h : Replay.proceed (v.emit o) j clear = .ok w')
    (hc : ∀ s, (clear s).blocked = s.blocked ∧ (clear s).blockedPkt = s.blockedPkt) : R w w' :=
  hR.trans hv (hR.trans (hR.emit ho) (hR.proceed h hc))

theorem runPrim (h : runPrim w j env p = .ok w') : R w w' := by
  have hpaddr : ∀ s, (clearPaddr s).blocked = s.blocked ∧
      (clearPaddr s).blockedPkt = s.blockedPkt := fun s => ⟨rfl, rfl⟩
  have hdata : ∀ s, (clearData s).blocked = s.blocked ∧
      (clearData s).blockedPkt = s.blockedPkt := fun s => ⟨rfl, rfl⟩
  cases p with
  | initMutex =>
    simp only [Replay.runPrim, initMutex, bind_eq_ok, require_eq_ok] at h
    obtain ⟨-, -, -, -, h⟩ := h
    exact hR.emit_proceed (hR.setMutex _ _ _) rfl h hpaddr
  | lockMutex =>
    simp only [Replay.runPrim, lockMutex, bind_eq_ok, require_eq_ok] at h
    obtain ⟨-, -, h⟩ := h
    split at h
    · exact hR.trans (hR.emit rfl) (hR.rewind h)
    · split at h
      · exact hR.emit_proceed (hR.setMutex _ _ _) rfl h hpaddr
      · simp only [bind_eq_ok, require_eq_ok, pure_eq_ok] at h
        obtain ⟨-, -, rfl⟩ := h
        exact hR.trans (hR.setMutex _ _ _) (hR.trans (hR.emit rfl) (hR.set rfl rfl))
  | unlockMutex =>
    simp only [Replay.runPrim, unlockMutex, bind_eq_ok, require_eq_ok, demand_eq_ok] at h
    obtain ⟨-, -, m, -, -, -, h⟩ := h
    split at h
    · exact hR.emit_proceed (hR.setMutex _ _ _) rfl h hpaddr
    · simp only [bind_eq_ok] at h
      obtain ⟨v, hv, h⟩ := h
      exact hR.emit_proceed (hR.trans (hR.schedule hv) (hR.setMutex _ _ _)) rfl h hpaddr
  | initBarrier =>
    simp only [Replay.runPrim, initBarrier, bind_eq_ok, require_eq_ok] at h
    obtain ⟨-, -, -, -, -, -, h⟩ := h
    exact hR.emit_proceed (hR.setBarrier _ _ _) rfl h fun s => ⟨rfl, rfl⟩
  | waitAtBarrier =>
    simp only [Replay.runPrim, waitAtBarrier, bind_eq_ok, require_eq_ok] at h
    obtain ⟨-, -, h⟩ := h
    split at h
    · exact hR.trans (hR.emit rfl) (hR.rewind h)
    · split_ifs at h
      · simp only [bind_eq_ok, pure_eq_ok] at h
        obtain ⟨v, hv, rfl⟩ := h
        have hrel := hR.trans (hR.emit rfl) (hR.releaseAll hv)
        exact hR.trans hrel
          (hR.trans (hR.setBarrier _ _ _) (hR.trans (hR.emit rfl) (hR.set rfl rfl)))
      · cases h
        exact hR.trans (hR.emit rfl) (hR.trans (hR.setBarrier _ _ _) (hR.set rfl rfl))
  | sleep =>
    cases h
    exact hR.emit rfl
  | wake =>
    simp only [Replay.runPrim, wake, bind_eq_ok, require_eq_ok, demand_eq_ok] at h
    obtain ⟨-, -, t, -, -, -, v, hv, h⟩ := h
    exact hR.emit_proceed (hR.schedule hv) rfl h hdata
  | push | pop =>
    simp only [Replay.runPrim, push, pop, bind_eq_ok, demand_eq_ok] at h
    obtain ⟨q, -, h⟩ := h
    split_ifs at h
    · cases h
      exact hR.trans (hR.setQueue _ _ _) (hR.emit rfl)
    · simp only [bind_eq_ok] at h
      obtain ⟨v, hv, h⟩ := h
      exact hR.emit_proceed (hR.trans (hR.release hv) (hR.setQueue _ _ _)) rfl h hdata
  | dumpStats | resetStats | dumpResetStats => exact hR.trans (hR.emit rfl) (hR.schedule h)

theorem dispatch {cycles : UInt32}
    (h : dispatch w j env p cycles = .ok w') : R w w' := by
  unfold Replay.dispatch at h
  split_ifs at h
  · exact hR.runPrim h
  · exact hR.schedule h

theorem sendPkt {v : Bool × World} (h : sendPkt w j env pkt = .ok v) : R w v.2 := by
  unfold Replay.sendPkt at h
  split_ifs at h
  · simp only [bind_eq_ok, pure_eq_ok] at h
    obtain ⟨u, hu, rfl⟩ := h
    exact hR.completeRequest hu
  · cases h
    exact hR.set rfl rfl
  · cases h
    exact hR.set rfl rfl

theorem keepTicking {b : Bool} (h : keepTicking w j b = .ok w') : R w w' := by
  cases b with
  | false =>
    cases h
    exact hR.refl _
  | true =>
    simp only [Replay.keepTicking, bind_eq_ok, pure_eq_ok] at h
    obtain ⟨v, hv, rfl⟩ := h
    exact hR.trans (hR.schedule hv) (hR.set rfl rfl)

theorem recvTimingResp {k : ℕ} (h : step w (.recvTimingResp j k, env) = .ok w') :
    R w w' := by
  simp only [step, bind_eq_ok, demand_eq_ok] at h
  obtain ⟨pkt, -, h⟩ := h
  exact hR.trans (hR.set (by rfl) (by rfl)) (hR.completeRequest h)

theorem recvReqRetry (h : step w (.recvReqRetry j, env) = .ok w') : R w w' := by
  simp only [step, recvRetry, bind_eq_ok, demand_eq_ok] at h
  obtain ⟨pkt, -, h⟩ := h
  split_ifs at h
  · simp only [bind_eq_ok, pure_eq_ok] at h
    obtain ⟨v, hv, rfl⟩ := h
    exact hR.trans (hR.set (by rfl) (by rfl)) (hR.trans (hR.scheduleIf hv) (hR.set rfl rfl))
  · cases h
    exact hR.refl _

theorem issue {r : Req} (h : issue w j env r = .ok w') :
    ∃ cmd v, memCmd r.cmd = .ok cmd ∧
      v = (w.set j { w.tre j with
        outstandingAddrs := (w.tre j).outstandingAddrs ++ [((w.tre j).paddr, r.blking)] }).emit
        (.sent j ((w.tre j).packet r cmd) (w.tre j).outstanding) ∧ R v w' := by
  simp only [Replay.issue, bind_eq_ok, require_eq_ok] at h
  obtain ⟨-, -, cmd, hc, v, hv, u, hu, h⟩ := h
  exact ⟨cmd, _, hc, rfl,
    hR.trans (hR.sendPkt hv) (hR.trans (hR.keepTicking hu) (hR.scheduleIf h))⟩

end Closed

end HetSim.Replay
