import HetSim.Replay.Handlers

/-!
# Decomposition of the tick and of the port's calls into moves

The two reading branches of `tick` are compared with `readEntry` here, so from
this module on an entry is read in one piece.
-/

namespace HetSim.Replay
open Checked List Function Finset TRE World Handled

variable {w w' : World} {loc : TREId → Loc} {i : TREId} {env : Env} {s s' : TRE}

namespace TRE

@[simp] theorem waitFor_inFlightAddr (s : TRE) (dep : Addr) :
    (s.waitFor dep).inFlightAddr = s.inFlightAddr := rfl

theorem foldl_noteDep (deps : List Addr) (s : TRE) :
    deps.foldl noteDep s =
      { s with
        blocked := s.blocked || deps.any s.inFlightAddr
        blockedPkt := { s.blockedPkt with
          deps := (deps.filter s.inFlightAddr).toFinset ∪ s.blockedPkt.deps } } := by
  induction deps generalizing s with
  | nil => simp
  | cons dep deps ih =>
    rw [foldl_cons, ih]
    by_cases hd : s.inFlightAddr dep = true
    · rw [noteDep, if_pos hd, waitFor_inFlightAddr, List.filter_cons_of_pos hd, any_cons, hd,
        toFinset_cons, insert_union]
      simp [waitFor, union_insert]
    · rw [noteDep, if_neg hd, List.filter_cons_of_neg hd]
      simp [hd]

theorem noteBlking_eq_ok {f : Fault} :
    s.noteBlking f = .ok s' ↔
      (s.blkingAccAddrInFlight ≠ invalidPaddr → s.blockedPkt.deps = ∅) ∧
      s' = if s.blkingAccAddrInFlight = invalidPaddr then s
        else s.waitFor s.blkingAccAddrInFlight := by
  unfold noteBlking
  by_cases hb : s.blkingAccAddrInFlight = invalidPaddr
  · simp [hb, eq_comm (a := s)]
  · simp only [hb, if_false, bind_eq_ok, require_eq_ok, pure_eq_ok, not_false_eq_true, ne_eq,
      true_implies]
    constructor
    · rintro ⟨_, hd, rfl⟩
      exact ⟨hd, rfl⟩
    · rintro ⟨hd, rfl⟩
      exact ⟨⟨⟩, hd, rfl⟩

theorem waits_of_hazard_eq_false {deps : List Addr} (h : s.hazard deps = false) :
    s.waits deps = s.blockedPkt.deps := by
  simp only [hazard, Bool.or_eq_false_iff, decide_eq_false_iff_not, not_not, any_eq_false] at h
  obtain ⟨hk, ha⟩ := h
  rw [waits, if_pos hk, filter_eq_nil_iff.mpr ha]
  simp

theorem collect_access (hb : s.blocked = false) (deps : List Addr) :
    (deps.foldl noteDep
      (let v := if s.outstandingAddrs.length ≥ s.maxNumOutstandingAddrs
        then { s with blocked := true } else s
      if v.blkingAccAddrInFlight = invalidPaddr then v else v.waitFor v.blkingAccAddrInFlight)) =
    { s with
      blocked := s.full || s.hazard deps
      blockedPkt := { s.blockedPkt with deps := s.waits deps } } := by
  rw [foldl_noteDep]
  by_cases hf : s.outstandingAddrs.length ≥ s.maxNumOutstandingAddrs
  · have hk : { s with blocked := true }.blkingAccAddrInFlight = s.blkingAccAddrInFlight := rfl
    simp only [hf, if_true, hk]
    split_ifs with h <;> simp [full, hazard, waits, hf, h, waitFor] <;> rfl
  · simp only [hf, if_false]
    split_ifs with h <;> simp [full, hazard, waits, hf, h, hb, waitFor]
    rfl

theorem collect_stall (hb : s.blocked = false) (deps : List Addr) :
    (let v := deps.foldl noteDep s
      if v.blkingAccAddrInFlight = invalidPaddr then v else v.waitFor v.blkingAccAddrInFlight) =
    { s with
      blocked := s.hazard deps
      blockedPkt := { s.blockedPkt with deps := s.waits deps } } := by
  have hk : (deps.foldl noteDep s).blkingAccAddrInFlight = s.blkingAccAddrInFlight := by
    rw [foldl_noteDep]
    rfl
  simp only [hk]
  rw [foldl_noteDep]
  split_ifs with h <;> simp [hazard, waits, h, hb, waitFor, union_insert]

end TRE

variable {word : String} {ts : List String} {r : Req} {cmd : MemCmd}

theorem tickAccess_eq_ok (h : tickAccess s word ts = .ok (s', r)) (hb : s.blocked = false) :
    ∃ pc a deps rest,
      readAccess word ts = .ok (.access (accessCmd word) (isUncacheable word) (isBlking word)
        pc a deps, rest) ∧
      r = ⟨accessCmd word, isUncacheable word, isBlking word, pc⟩ ∧
      (((s.full = true ∨ s.hazard deps = true) ∧ s' = { s with
          traceFh := rest, paddr := a, blocked := true,
          blockedPkt := ⟨a, accessCmd word, s.blockedPkt.data, isUncacheable word, isBlking word,
            s.waits deps⟩ }) ∨
        (s.full = false ∧ s.hazard deps = false ∧
          s' = { s with traceFh := rest, paddr := a })) := by
  simp only [tickAccess, bind_eq_ok, noteBlking_eq_ok] at h
  obtain ⟨head, hh, v, ⟨-, rfl⟩, deps, hd, h⟩ := h
  refine ⟨head.1, head.2.1, deps.1, deps.2, ?_, ?_⟩
  · simp only [readAccess, bind_eq_ok, pure_eq_ok]
    exact ⟨head, hh, deps, hd, rfl⟩
  have hc := collect_access (s := { s with paddr := head.2.1 }) hb deps.1
  simp only at hc
  rw [hc] at h
  have hfull : { s with paddr := head.2.1 }.full = s.full := rfl
  have hhaz : { s with paddr := head.2.1 }.hazard deps.1 = s.hazard deps.1 := rfl
  have hwait : { s with paddr := head.2.1 }.waits deps.1 = s.waits deps.1 := rfl
  rw [hfull, hhaz, hwait] at h
  by_cases hz : (s.full || s.hazard deps.1) = true
  · rw [if_pos hz] at h
    cases h
    refine ⟨rfl, .inl ⟨by simpa using hz, ?_⟩⟩
    rw [hz]
  · rw [if_neg hz] at h
    cases h
    simp only [Bool.or_eq_true, not_or, Bool.not_eq_true] at hz
    refine ⟨rfl, .inr ⟨hz.1, hz.2, ?_⟩⟩
    rw [hz.1, hz.2, waits_of_hazard_eq_false hz.2, Bool.or_self, ← hb]

theorem tickStall_eq_ok (h : tickStall s word ts = .ok (s', r)) (hb : s.blocked = false) :
    ∃ n deps rest,
      readStall word ts = .ok (.stall (word = "STALLB") n deps, rest) ∧
      r = ⟨.stall, false, word = "STALLB", UInt64.ofInt (-1)⟩ ∧
      ((s.hazard deps = true ∧ s' = { s with
          traceFh := rest, data := n, blocked := true,
          blockedPkt := ⟨s.blockedPkt.addr, .stall, n, s.blockedPkt.uncacheable, word = "STALLB",
            s.waits deps⟩ }) ∨
        (s.hazard deps = false ∧ s' = { s with traceFh := rest, data := n })) := by
  simp only [tickStall, bind_eq_ok, noteBlking_eq_ok] at h
  obtain ⟨n, hn, deps, hd, v, ⟨-, rfl⟩, h⟩ := h
  refine ⟨UInt32.ofInt n, deps.1, deps.2, ?_, ?_⟩
  · simp only [readStall, bind_eq_ok, pure_eq_ok]
    exact ⟨n, hn, deps, hd, rfl⟩
  set v : TRE := { s with data := UInt32.ofInt n, traceFh := deps.2 } with hv
  have hswap : { deps.1.foldl noteDep { s with data := UInt32.ofInt n } with traceFh := deps.2 } =
      deps.1.foldl noteDep v := by
    simp only [foldl_noteDep]
    rfl
  have hc := collect_stall (s := v) hb deps.1
  simp only at hc
  rw [hswap, hc] at h
  have hhaz : v.hazard deps.1 = s.hazard deps.1 := rfl
  have hwait : v.waits deps.1 = s.waits deps.1 := rfl
  rw [hhaz, hwait] at h
  by_cases hz : s.hazard deps.1 = true
  · simp only [if_pos hz, bind_eq_ok, require_eq_ok] at h
    obtain ⟨-, -, h⟩ := h
    cases h
    exact ⟨rfl, .inl ⟨hz, by rw [hz]⟩⟩
  · rw [if_neg hz] at h
    cases h
    rw [Bool.not_eq_true] at hz
    refine ⟨rfl, .inr ⟨hz, ?_⟩⟩
    rw [hz, waits_of_hazard_eq_false hz, ← hb]

theorem watchResponse_eq_ok
    (h : w.scheduleIf ((w.tre i).scheduled .noResponse = false ∧ (w.tre i).outstandingAddrs ≠ []) i
      .noResponse = .ok w')
    (hn : (w.tre i).scheduled .noResponse = false → (w.tre i).outstandingAddrs ≠ []) :
    w' = w.set i ((w.tre i).setFlag .noResponse true) := by
  rw [scheduleIf_eq_ok] at h
  rw [h.2]
  by_cases hs : (w.tre i).scheduled .noResponse = false
  · rw [if_pos ⟨hs, hn hs⟩]
  · rw [if_neg (fun hc => hs hc.1), TRE.setFlag_of_eq (Bool.not_eq_false _ |>.mp hs)]
    simp [World.set]

theorem keepTicking_eq_ok :
    keepTicking w i true = .ok w' ↔ (w.tre i).scheduled .tick = false ∧
      w' = w.set i ((w.tre i).ticking.setFlag .noRequest true) := by
  simp only [keepTicking, bind_eq_ok, schedule_eq_ok, pure_eq_ok]
  constructor
  · rintro ⟨v, ⟨ht, rfl⟩, rfl⟩
    exact ⟨ht, by simp [ticking]⟩
  · rintro ⟨ht, rfl⟩
    exact ⟨_, ⟨ht, rfl⟩, by simp [ticking]⟩

namespace TRE

def enqueued (s : TRE) (r : Req) : TRE :=
  { s with outstandingAddrs := s.outstandingAddrs ++ [(s.paddr, r.blking)] }

theorem sent_received (s : TRE) (r : Req) (pkt : Packet) :
    (s.sent r).received pkt = (s.enqueued r).received pkt := by
  let l := (addrInFlight pkt.paddr true (s.enqueued r).outstandingAddrs).2
  exact setFlag_setFlag { s with outstandingAddrs := l } .noResponse true (l ≠ [])

theorem accepted_eq (s : TRE) (r : Req) (pkt : Packet) :
    ({ s.sent r with inFlight := s.inFlight ++ [pkt] }.ticking.setFlag .noRequest true) =
      ({ s.enqueued r with inFlight := s.inFlight ++ [pkt] }.ticking.setFlag .noRequest
        true).setFlag .noResponse true := by
  let v := { s.enqueued r with inFlight := s.inFlight ++ [pkt] }
  calc ((v.setFlag .noResponse true).setFlag .tick true).setFlag .noRequest true
      = ((v.setFlag .tick true).setFlag .noResponse true).setFlag .noRequest true := by
        rw [setFlag_comm v (by decide)]
    _ = ((v.setFlag .tick true).setFlag .noRequest true).setFlag .noResponse true :=
        setFlag_comm _ (by decide) _ _

theorem received_noResponse (s : TRE) (pkt : Packet) :
    (s.received pkt).scheduled .noResponse = decide ((s.received pkt).outstandingAddrs ≠ []) := by
  simp [received, setFlag]

theorem received_tick (s : TRE) (pkt : Packet) :
    (s.received pkt).scheduled .tick = s.scheduled .tick := by
  simp [received]

end TRE

theorem refused_moves (hc : memCmd r.cmd = .ok cmd) (hℓ : loc i = .ready r) :
    Handled i w loc ((w.emit (.sent i ((w.tre i).packet r cmd) (w.tre i).outstanding)).set i
      { (w.tre i).sent r with retryPkt := some ((w.tre i).packet r cmd) }) := by
  have hm : OwnMove (loc i) (w.tre i)
      (some (.access ((w.tre i).packet r cmd) (w.tre i).outstanding))
      .retry { (w.tre i).sent r with retryPkt := some ((w.tre i).packet r cmd) } :=
    hℓ ▸ .sendRefused hc
  refine .own (.engine i [.sent i _ _] hm (by simp [Obs.isPrivate]) ?_) rfl
  simp [effects, Obs.effect, Obs.by?]

theorem accepted_moves (hc : memCmd r.cmd = .ok cmd)
    (hℓ : loc i = .ready r) (ht : (w.tre i).scheduled .tick = false) :
    Handled i w loc ((w.emit (.sent i ((w.tre i).packet r cmd) (w.tre i).outstanding)).set i
      ({ (w.tre i).sent r with
        inFlight :=
          (w.tre i).inFlight ++ [(w.tre i).packet r cmd] }.ticking.setFlag .noRequest true)) := by
  have hm : OwnMove (loc i) (w.tre i)
      (some (.access ((w.tre i).packet r cmd) (w.tre i).outstanding))
      .tick ({ (w.tre i).sent r with
        inFlight :=
          (w.tre i).inFlight ++ [(w.tre i).packet r cmd] }.ticking.setFlag .noRequest true) :=
    hℓ ▸ .sendAccepted hc ht
  refine .own (.engine i [.sent i _ _] hm (by simp [Obs.isPrivate]) ?_) rfl
  simp [effects, Obs.effect, Obs.by?]

theorem atomic_moves (hc : memCmd r.cmd = .ok cmd)
    (hℓ : loc i = .ready r) (ht : (w.tre i).scheduled .tick = false) :
    Handled i w loc (((w.emit (.sent i ((w.tre i).packet r cmd) (w.tre i).outstanding)).emit
      (.completed i ((w.tre i).packet r cmd))).set i
      ((((w.tre i).enqueued r).received ((w.tre i).packet r cmd)).ticking.setFlag .noRequest
        true)) := by
  have hm : OwnMove (loc i) (w.tre i)
      (some (.access ((w.tre i).packet r cmd) (w.tre i).outstanding))
      .tick ((((w.tre i).enqueued r).received ((w.tre i).packet r cmd)).ticking.setFlag
        .noRequest true) := by
    rw [hℓ, ← sent_received]
    exact .sendAtomic hc ht
  let os : List Obs := [.sent i ((w.tre i).packet r cmd) (w.tre i).outstanding,
    .completed i ((w.tre i).packet r cmd)]
  have hos : { w with log := w.log ++ os } =
      (w.emit (.sent i ((w.tre i).packet r cmd) (w.tre i).outstanding)).emit
        (.completed i ((w.tre i).packet r cmd)) := by
    simp [emit, os]
  rw [← hos]
  refine .own (.engine i os hm (by simp [os, Obs.isPrivate]) ?_) rfl
  simp [os, effects, Obs.effect, Obs.by?]

theorem issue_moves (h : issue w i env r = .ok w') (hb : (w.tre i).blocked = false)
    (hℓ : loc i = .ready r) : Handled i w loc w' := by
  simp only [issue, bind_eq_ok, require_eq_ok] at h
  obtain ⟨-, -, cmd, hc, v, hv, u, hu, h⟩ := h
  change sendPkt ((w.set i ((w.tre i).enqueued r)).emit
    (.sent i ((w.tre i).packet r cmd) (w.tre i).outstanding)) i env ((w.tre i).packet r cmd) =
      .ok v at hv
  unfold sendPkt at hv
  split_ifs at hv with hat hacc
  · simp only [bind_eq_ok, pure_eq_ok] at hv
    obtain ⟨v₂, hv, rfl⟩ := hv
    obtain ⟨-, -, rfl⟩ := completeRequest_eq_ok hv
    rw [keepTicking_eq_ok] at hu
    have hb' : ((w.tre i).enqueued r).blocked = false := hb
    simp only [World.set_emit, World.set_tre, update_self, hb', Bool.false_eq_true, and_false,
      if_false, World.set_set, TRE.received_tick] at hu
    obtain ⟨ht, rfl⟩ := hu
    -- the response already settled whether the timeout runs
    have hn := TRE.received_noResponse ((w.tre i).enqueued r) ((w.tre i).packet r cmd)
    rw [World.scheduleIf_eq_ok, if_neg] at h
    · rw [h.2]
      exact atomic_moves hc hℓ ht
    · simp only [World.set_tre, update_self, TRE.setFlag_scheduled, TRE.ticking]
      rintro ⟨hf, hne⟩
      rw [update_of_ne (by decide), update_of_ne (by decide), hn,
        decide_eq_false_iff_not] at hf
      exact hf hne
  · cases hv
    rw [keepTicking_eq_ok] at hu
    obtain ⟨ht, rfl⟩ := hu
    have hw := watchResponse_eq_ok h (by simp [TRE.ticking, TRE.setFlag, TRE.enqueued])
    simp only [World.set_emit, World.set_set, World.set_tre, update_self] at hw ht
    have hm := accepted_moves hc hℓ ht
    rw [TRE.accepted_eq] at hm
    rw [hw]
    exact hm
  · cases hv
    cases hu
    have hw := watchResponse_eq_ok h (by simp [TRE.enqueued])
    simp only [World.set_emit, World.set_set, World.set_tre, update_self] at hw
    rw [hw]
    exact refused_moves hc hℓ

theorem execute_moves (h : execute w i env r = .ok w') (hb : (w.tre i).blocked = false)
    (hℓ : loc i = .ready r) : Handled i w loc w' := by
  unfold execute at h
  split_ifs at h with hc
  · simp only [schedule_eq_ok, emit_tre] at h
    obtain ⟨ht, rfl⟩ := h
    have hm : OwnMove (loc i) (w.tre i) (some (.stall (w.tre i).data (w.tre i).outstanding))
        .tick (w.tre i).ticking := hℓ ▸ .startStall hc ht
    refine .own (.engine i [.stalled i _ _] hm (by simp [Obs.isPrivate]) ?_) rfl
    simp [effects, Obs.effect, Obs.by?]
  · exact issue_moves h hb hℓ

theorem Handled.after_engine {ℓ₀ ℓ : Loc} (hℓ : loc i = ℓ₀) (h : OwnMove ℓ₀ (w.tre i) none ℓ s)
    (h' : Handled i (w.set i s) (update loc i ℓ) w') : Handled i w loc w' := by
  subst hℓ
  have hm := Move.engine i [] h (by simp) rfl
  simp only [append_nil] at hm
  exact .after hm (fun j => transient_update j) h'

theorem Handled.engine {ℓ₀ ℓ : Loc} (hℓ : loc i = ℓ₀) (h : OwnMove ℓ₀ (w.tre i) none ℓ s)
    (ht : ℓ.transient = false) : Handled i w loc (w.set i s) := by
  subst hℓ
  have hm := Move.engine i [] h (by simp) rfl
  simp only [append_nil] at hm
  exact .own hm ht

theorem tickBlocked_moves (h : tickBlocked w i env = .ok w') (hb : (w.tre i).blocked = true)
    (hℓ : loc i = .awake) : Handled i w loc w' := by
  simp only [tickBlocked] at h
  split_ifs at h with hd
  · cases h
    have hm := Handled.engine hℓ (.stayBlocked hb hd) rfl
    simpa [World.set] using hm
  · push Not at hd
    refine .after_engine hℓ (.unblock hb (by simpa using hd)) ?_
    exact execute_moves h (by simp [TRE.unblock]) (by simp)

theorem dispatch_moves {p : Prim} {cycles : UInt32} (h : dispatch w i env p cycles = .ok w')
    (hℓ : loc i = .holding p) : Handled i w loc w' := by
  unfold dispatch at h
  split_ifs at h
  · exact runPrim_moves h hℓ
  · simp only [schedule_eq_ok] at h
    obtain ⟨hs, rfl⟩ := h
    exact .engine hℓ (.delay p hs) rfl

theorem readEntry_of_readNextToken {rest : List String}
    (h : readNextToken ts = (word, rest)) (hw : word ≠ "") :
    readEntry ts = readEntry (word :: rest) := by
  cases ts with
  | nil =>
    cases h
    exact absurd rfl hw
  | cons v vs =>
    cases h
    rfl

theorem tickPrim_moves {p : Prim} {s : TRE}
    (h : tickPrim (w.set i { s with lastTokEntryPos := s.traceFh }) i env p ts = .ok w')
    (hs : w.tre i = s) (hb : s.blocked = false) (hr : readEntry s.traceFh = readPrim p ts)
    (hℓ : loc i = .awake) : Handled i w loc w' := by
  subst hs
  simp only [tickPrim, bind_eq_ok] at h
  obtain ⟨ops, ho, c, hc, h⟩ := h
  have he : readEntry (w.tre i).traceFh = .ok (.prim p ops.1 ops.2.1 c.1, c.2) := by
    rw [hr]
    simp only [readPrim, bind_eq_ok, pure_eq_ok]
    exact ⟨ops, ho, c, hc, rfl⟩
  refine .after_engine hℓ (.readPrim hb he) ?_
  simp only [World.set_tre, update_self, World.set_set] at h
  exact dispatch_moves h (by simp)

theorem halt_moves (h : halt (w.set i ((w.tre i).advance ts)) i = .ok w')
    (hb : (w.tre i).blocked = false) (hr : readNextToken (w.tre i).traceFh = ("EOF", ts))
    (hℓ : loc i = .awake) : Handled i w loc w' := by
  simp only [halt, bind_eq_ok, require_eq_ok, pure_eq_ok] at h
  obtain ⟨-, -, rfl⟩ := h
  refine .own (?_ : Move w loc _ (update loc i .halted)) rfl
  split_ifs
  · have hm := Move.halt i (w.numIdleTREs + 1) [.exitSimLoop i] (.inr rfl) hℓ hb hr
    simpa [World.emit, World.set] using hm
  · have hm := Move.halt i (w.numIdleTREs + 1) [] (.inl rfl) hℓ hb hr
    simpa [World.emit, World.set] using hm

theorem tickNext_moves (h : tickNext w i env = .ok w') (hb : (w.tre i).blocked = false)
    (hℓ : loc i = .awake) : Handled i w loc w' := by
  simp only [tickNext] at h
  obtain ⟨⟨word, ts⟩, hr⟩ : ∃ r, readNextToken (w.tre i).traceFh = r := ⟨_, rfl⟩
  rw [hr] at h
  simp only at h
  split_ifs at h with hw ha hs
  · subst hw
    exact halt_moves h hb hr hℓ
  · have he : readEntry (w.tre i).traceFh = readAccess word ts := by
      rw [readEntry_of_readNextToken hr (by rintro rfl; exact absurd ha (by decide)),
        readEntry_cons, if_pos ha]
    simp only [bind_eq_ok] at h
    obtain ⟨⟨s', r⟩, hsr, h⟩ := h
    obtain ⟨pc, a, deps, rest, hra, rfl, ⟨hz, rfl⟩ | ⟨hf, hz, rfl⟩⟩ := tickAccess_eq_ok hsr hb
    · rw [finishEntry, if_pos rfl] at h
      cases h
      exact .engine hℓ (.parkAccess hb (he.trans hra) hz) rfl
    · rw [finishEntry, if_neg (by simp [hb])] at h
      refine .after_engine hℓ (.readyAccess hb (he.trans hra) hf hz) ?_
      exact execute_moves h (by simpa [advance] using hb) (by simp)
  · have he : readEntry (w.tre i).traceFh = readStall word ts := by
      rw [readEntry_of_readNextToken hr (by rintro rfl; exact absurd hs (by decide)),
        readEntry_cons, if_neg ha, if_pos hs]
    simp only [bind_eq_ok] at h
    obtain ⟨⟨s', r⟩, hsr, h⟩ := h
    obtain ⟨n, deps, rest, hra, rfl, ⟨hz, rfl⟩ | ⟨hz, rfl⟩⟩ := tickStall_eq_ok hsr hb
    · rw [finishEntry, if_pos rfl] at h
      cases h
      exact .engine hℓ (.parkStall hb (he.trans hra) hz) rfl
    · rw [finishEntry, if_neg (by simp [hb])] at h
      refine .after_engine hℓ (.readyStall hb (he.trans hra) hz) ?_
      exact execute_moves h (by simpa [advance] using hb) (by simp)
  · split at h
    · next p hp =>
      refine tickPrim_moves h rfl hb ?_ hℓ
      rw [readEntry_of_readNextToken hr (by rintro rfl; simp [primOf] at hp), readEntry_cons,
        if_neg ha, if_neg hs, hp]
    · cases h

theorem tick_moves (h : tick w i env = .ok w') (hℓ : loc i = .awake) : Handled i w loc w' := by
  simp only [tick, bind_eq_ok, require_eq_ok] at h
  obtain ⟨-, -, h⟩ := h
  split_ifs at h with hb
  · exact tickBlocked_moves h hb hℓ
  · exact tickNext_moves h (by simpa using hb) hℓ

def Stepped (w : World) (loc : TREId → Loc) (w' : World) : Prop :=
  ∃ loc', Moves (w, loc) (w', loc') ∧ ∀ j, (loc' j).transient = true → (loc j).transient = true

theorem Handled.stepped (h : Handled i w loc w') : Stepped w loc w' := by
  obtain ⟨loc', hm, ht⟩ := h
  exact ⟨loc', hm, fun j hj => (ht j hj).2⟩

theorem fire_stepped {e : Event} (hs : (w.tre i).scheduled e = true)
    (h : process (w.set i ((w.tre i).setFlag e false)) i env e = .ok w') : Stepped w loc w' := by
  cases e with
  | tick =>
    refine stepped (i := i) (.after (.fireTick i hs) (fun j => transient_update j) ?_)
    exact tick_moves h (by simp)
  | noRequest => cases h
  | noResponse => cases h
  | prim p =>
    refine stepped (.after_engine rfl (.firePrim p hs) ?_)
    exact runPrim_moves h (by simp)

theorem recvTimingResp_stepped {k : ℕ} {pkt : Packet} (hk : (w.tre i).inFlight[k]? = some pkt)
    (h : completeRequest (w.set i { w.tre i with inFlight := (w.tre i).inFlight.eraseIdx k }) i env
      pkt = .ok w') : Stepped w loc w' := by
  obtain ⟨hf, hn, rfl⟩ := completeRequest_eq_ok h
  simp only [World.set_tre, update_self, World.set_emit, World.set_set] at hf hn ⊢
  split_ifs with hc
  · have hm := OwnMove.responseTick (ℓ := loc i) hk hf hn hc.1 hc.2
    refine Handled.stepped (i := i) (.done (.engine i [.completed i pkt] hm ?_ ?_) ?_
      (fun j => transient_update j))
    · simp [Obs.isPrivate]
    · rfl
    · simp [Loc.transient]
  · have hm := OwnMove.response (ℓ := loc i) hk hf hn hc
    refine ⟨update loc i (loc i), .single (.engine i [.completed i pkt] hm ?_ rfl), ?_⟩
    · simp [Obs.isPrivate]
    · intro j hj
      rwa [update_eq_self] at hj

theorem recvRetry_stepped (h : recvRetry w i env = .ok w') : Stepped w loc w' := by
  simp only [recvRetry, bind_eq_ok, demand_eq_ok] at h
  obtain ⟨pkt, hp, h⟩ := h
  split_ifs at h
  · simp only [bind_eq_ok, scheduleIf_eq_ok, pure_eq_ok] at h
    obtain ⟨v, ⟨ht, rfl⟩, rfl⟩ := h
    by_cases hb : (w.tre i).blocked = false
    · have hm := engine (w := w) rfl (.retried (ℓ := loc i) hp hb (by simpa using ht hb)) rfl
      exact stepped (by simpa [hb, ticking] using hm)
    · have hm := engine (w := w) rfl (.retriedBlocked (ℓ := loc i) hp (by simpa using hb)) rfl
      exact stepped (by simpa [hb] using hm)
  · cases h
    exact ⟨loc, .refl, fun j hj => hj⟩

theorem step_moves {x : Ev × Env} (h : step w x = .ok w') : Stepped w loc w' := by
  obtain ⟨ev, env⟩ := x
  cases ev with
  | fire i e =>
    simp only [step, bind_eq_ok, require_eq_ok] at h
    obtain ⟨-, hs, h⟩ := h
    exact fire_stepped hs h
  | recvTimingResp i k =>
    simp only [step, bind_eq_ok, demand_eq_ok] at h
    obtain ⟨pkt, hk, h⟩ := h
    exact recvTimingResp_stepped hk h
  | recvReqRetry i => exact recvRetry_stepped h

end HetSim.Replay
