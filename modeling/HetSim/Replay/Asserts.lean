import HetSim.Replay.Accesses

/-!
# The assertions of `tick`

`tick` asserts that no packet waits for a retry and what the set of recorded dependencies looks
like. The LD/ST branch looks for a blocking access before it reads the dependency list, the STALL
branch afterwards: its assertion fails when both find something.
-/

namespace HetSim.Replay
open Checked

variable {cfg : Config} {w : World} {i : TREId} {env : Env}

def Fault.isTickAssert : Fault → Bool
  | .tickRetryPkt | .accessDepsEmpty | .stallDepsEmpty | .stallDepsNonempty => true
  | _ => false

/-- The next entry is a stall that depends on a request in flight, and a blocking
access is in flight too. -/
def TRE.StallHazard (s : TRE) : Prop :=
  s.blocked = false ∧ ∃ blk n deps rest, readEntry s.traceFh = .ok (.stall blk n deps, rest) ∧
    s.blkingAccAddrInFlight ≠ invalidPaddr ∧ ∃ d ∈ deps, s.inFlightAddr d = true

theorem tick_asserts_only (hb : (w.tre i).retryPkt = none)
    (hd : (w.tre i).blocked = false → (w.tre i).blockedPkt.deps = ∅) :
    Raises (tick w i env) (fun f => f.isTickAssert = true → (w.tre i).StallHazard) := by
  have hP : ∀ f : Fault, f.isInternal = false → f.isTickAssert = true → (w.tre i).StallHazard := by
    intro f hf hc
    cases f <;> cases hf <;> cases hc
  have hsched : ∀ e, (Fault.alreadyScheduled e).isTickAssert = true → (w.tre i).StallHazard :=
    fun _ => nofun
  refine tick_raises hP (fun _ => hsched _) (fun hc => absurd hb hc) fun hnb => ?_
  refine tickNext_raises hP hnb (fun _ => hsched _) (fun _ hc => absurd (hd hnb) hc) ?_ ?_
  · intro blk n deps rest hread hk hne _
    rw [hd hnb, Finset.union_empty, ← Finset.nonempty_iff_ne_empty] at hne
    obtain ⟨d, hmem⟩ := hne
    rw [List.mem_toFinset, List.mem_filter] at hmem
    exact ⟨hnb, blk, n, deps, rest, hread, hk, d, hmem.1, hmem.2⟩
  · intro p pa da c rest _
    refine .ite (fun _ => ?_) (fun _ => schedule_raises fun _ => hsched _)
    exact runPrim_raises hP (.of_all hsched) fun _ _ _ => ⟨fun _ => nofun, fun _ => nofun⟩

variable {s : TRE} {ts rest : List String} {blk : Bool} {n : UInt32} {deps : List Addr}

theorem TRE.noteBlking_of_deps (f : Fault) (hk : s.blkingAccAddrInFlight ≠ invalidPaddr)
    (hd : s.blockedPkt.deps ≠ ∅) : s.noteBlking f = .error f := by
  rw [noteBlking, if_neg hk]
  exact bind_eq_error.mpr (.inl (require_eq_error.mpr ⟨hd, rfl⟩))

/-- At a hazard, the dependencies of the stall are recorded first and the assertion
on the blocking access finds them. -/
theorem tickStall_of_hazard {word : String}
    (hr : readStall word ts = .ok (.stall blk n deps, rest))
    (hk : s.blkingAccAddrInFlight ≠ invalidPaddr) (hd : ∃ d ∈ deps, s.inFlightAddr d = true) :
    tickStall s word ts = .error .stallDepsEmpty := by
  simp only [readStall, bind_eq_ok, pure_eq_ok] at hr
  obtain ⟨m, hm, l, hl, hr⟩ := hr
  cases hr
  have hne : (l.1.filter s.inFlightAddr).toFinset ∪ s.blockedPkt.deps ≠ ∅ := by
    obtain ⟨d, hmem, hin⟩ := hd
    exact Finset.ne_empty_of_mem
      (Finset.mem_union_left _ (List.mem_toFinset.mpr (List.mem_filter.mpr ⟨hmem, hin⟩)))
  refine bind_eq_error.mpr (.inr ⟨m, hm, bind_eq_error.mpr (.inr ⟨l, hl, ?_⟩)⟩)
  refine bind_eq_error.mpr (.inl ?_)
  rw [TRE.foldl_noteDep]
  exact TRE.noteBlking_of_deps _ hk hne

theorem readEntry_stall (h : readEntry ts = .ok (.stall blk n deps, rest)) :
    ∃ word ts', ts = word :: ts' ∧ isAccess word = false ∧ isStall word = true ∧
      readStall word ts' = .ok (.stall blk n deps, rest) := by
  cases readEntry_reads h with
  | stall haccess hstall =>
    exact ⟨_, _, rfl, haccess, hstall, by simpa [readEntry_cons, haccess, hstall] using h⟩

theorem tick_of_hazard (hr : (w.tre i).retryPkt = none) (h : (w.tre i).StallHazard) :
    tick w i env = .error .stallDepsEmpty := by
  obtain ⟨hb, blk, n, deps, rest, he, hk, hd⟩ := h
  obtain ⟨word, ts, hts, ha, hs, hread⟩ := readEntry_stall he
  have hw : word ≠ "EOF" := by
    rintro rfl
    exact absurd hs (by decide)
  refine bind_eq_error.mpr (.inr ⟨⟨⟩, require_eq_ok.mpr hr, ?_⟩)
  rw [hb, if_neg (by simp)]
  simp only [tickNext, hts, readNextToken, if_neg hw, ha, hs, Bool.false_eq_true, if_false, if_true]
  exact bind_eq_error.mpr (.inl (tickStall_of_hazard hread hk hd))

theorem tick_asserts_iff (hw : Reachable cfg w) (hcalm : Calm i w.log) (env : Env) :
    (∃ f, f.isTickAssert = true ∧ step w (.fire i .tick, env) = .error f) ↔
      (w.tre i).scheduled .tick = true ∧ (w.tre i).StallHazard := by
  obtain ⟨loc, -, hsane⟩ := hw.sane
  have hs := hsane i hcalm
  -- the engine when its handler starts
  set v := (w.set i ((w.tre i).setFlag .tick false)).emit (.ticked i) with hv
  have hvi : v.tre i = (w.tre i).setFlag .tick false := by simp [hv]
  have hretry : (w.tre i).scheduled .tick = true → (v.tre i).retryPkt = none := by
    intro ht
    rw [hvi]
    exact hs.placed.retry_none (by rw [hs.placed.tick.mp ht]; nofun)
  have hdeps : (v.tre i).blocked = false → (v.tre i).blockedPkt.deps = ∅ := by
    rw [hvi]
    exact hs.deps
  have hhaz : (v.tre i).StallHazard ↔ (w.tre i).StallHazard := by
    rw [hvi]
    exact Iff.rfl
  constructor
  · rintro ⟨f, hf, herr⟩
    rcases bind_eq_error.mp herr with hreq | ⟨u, hreq, herr⟩
    · obtain ⟨-, rfl⟩ := require_eq_error.mp hreq
      cases hf
    · have ht := require_eq_ok.mp hreq
      exact ⟨ht, hhaz.mp (tick_asserts_only (hretry ht) hdeps f herr hf)⟩
  · rintro ⟨ht, hz⟩
    refine ⟨.stallDepsEmpty, rfl, bind_eq_error.mpr (.inr ⟨⟨⟩, require_eq_ok.mpr ht, ?_⟩)⟩
    exact tick_of_hazard (hretry ht) (hhaz.mpr hz)

def hazardTrace : List String := ["LDB", "0x10", "(", ")", "STALL", "5", "(", "0x10", ")", "EOF"]

theorem stall_assert_fails :
    entries hazardTrace = [.access .ld false true (UInt64.ofInt (-1)) 0x10 [],
      .stall false 5 [0x10]] ∧
      Runs.run step (boot (single 1 hazardTrace)) [(.fire 0 .tick, {}), (.fire 0 .tick, {})] =
        .error .stallDepsEmpty := by
  refine ⟨by decide +kernel, ?_⟩
  have h : Runs.Stops step (boot (single 1 hazardTrace))
      [(.fire 0 .tick, {}), (.fire 0 .tick, {})] .stallDepsEmpty := by decide +kernel
  exact h

/-- The same stall read after the load returned. -/
theorem tick_asserts_iff_returned :
    ∃ w, Reachable (single 1 hazardTrace) w ∧ Calm 0 w.log ∧ (w.tre 0).scheduled .tick = true ∧
      ((∃ f, f.isTickAssert = true ∧ step w (.fire 0 .tick, {}) = .error f) ↔
        (w.tre 0).scheduled .tick = true ∧ (w.tre 0).StallHazard) := by
  have hrun : Runs.Ends step (boot (single 1 hazardTrace))
      [(.fire 0 .tick, {}), (.recvTimingResp 0 0, {})]
      (fun w => w.log = [.ticked 0, .sent 0 ⟨.readReq, 0x10, false, none, true⟩ [],
        .completed 0 ⟨.readReq, 0x10, false, none, true⟩] ∧ (w.tre 0).scheduled .tick = true) := by
    decide +kernel
  obtain ⟨w, hw, hlog, ht⟩ := hrun.reachable
  have hcalm : Calm 0 w.log := by
    rw [hlog]
    exact .of_forall_ne (by simp)
  exact ⟨w, hw, hcalm, ht, tick_asserts_iff hw hcalm {}⟩

end HetSim.Replay
