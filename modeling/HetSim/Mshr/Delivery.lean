import HetSim.Library.Runs
import HetSim.Mshr.Register

/-!
# Every target is handed out once and in order

A target is known by its source and the id of its packet. No operation changes these keys, and
the requests from the CPU side stay in one line that runs through both lists.
-/

namespace HetSim.Mshr
open Address Checked Memory Runs List TargetList MSHR

abbrev Key := Source × ℕ

def key (t : Target) : Key := (t.source, t.pkt.id)

def TargetList.keys (l : TargetList) : List Key := l.list.map key

def MSHR.savesSnoop (m : MSHR) (pkt : Packet) : Bool :=
  m.inService && !(pkt.expressSnoop && m.downstreamPending) && !m.postInvalidate &&
    !(m.targets.list.head?.any fun t => t.pkt.req.isCacheInvalidate) &&
    (m.pendingModified || pkt.isInvalidate)

def arrivals (m : MSHR) : Op → List Key
  | .allocateTarget pkt _ _ _ => [(.fromCPU, pkt.id)]
  | .handleSnoop pkt _ _ => if m.savesSnoop pkt then [(.fromSnoop, pkt.id)] else []
  | _ => []

namespace MSHR

def readable (t : Target) : Bool := !t.pkt.req.isCacheInvalidate && !t.pkt.needsWritable

def writable (t : Target) : Bool := !t.pkt.req.isCacheInvalidate

end MSHR

inductive Promotion (m : MSHR) : Op → (Target → Bool) → Bool → Prop
  | readable (hpost : ¬ m.postInvalidate) :
    Promotion m .promoteReadable MSHR.readable m.targets.needsWritable
  | writable (hneeds : m.deferredTargets.needsWritable) (hpost : ¬ m.postInvalidate)
      (hdown : ¬ m.postDowngrade) : Promotion m .promoteWritable MSHR.writable true

/-- `allocateTarget` defers the packet although nothing is deferred. -/
def MSHR.defers (m : MSHR) (pkt : Packet) : Bool :=
  pkt.req.isCacheMaintenance || m.targets.list.head?.any (·.pkt.req.isCacheMaintenance) ||
    m.responseTooWeak pkt = .ok true

inductive Applied (m : MSHR) : Op → MSHR → List Target → Prop
  | deferred {pkt pkt' : Packet} {readyTime : Tick} {order : ℕ} {allocOnFill : Bool}
      (hpkt : pkt' = pkt ∨ pkt' = replaceUpgrade pkt)
      (hdefers : m.deferredTargets.list = [] → m.defers pkt = true) :
    Applied m (.allocateTarget pkt readyTime order allocOnFill) { m with
      deferredTargets := m.deferredTargets.add pkt' readyTime order .fromCPU true allocOnFill } []
  | added {pkt : Packet} {readyTime : Tick} {order : ℕ} {allocOnFill : Bool}
      (htargets : m.targets.list ≠ []) (hdeferred : m.deferredTargets.list = []) :
    Applied m (.allocateTarget pkt readyTime order allocOnFill) { m with
      targets := m.targets.add pkt readyTime order .fromCPU (!m.inService) allocOnFill } []
  | snooped {pkt : Packet} {order : ℕ} {curTick : Tick} {targets deferredTargets : TargetList}
      {postInvalidate postDowngrade : Bool}
      (htargets : targets = m.targets ∨ targets = m.targets.replaceUpgrades)
      (hdeferred : deferredTargets = m.deferredTargets ∨
        deferredTargets = m.deferredTargets.replaceUpgrades) (hsaves : m.savesSnoop pkt = false) :
    Applied m (.handleSnoop pkt order curTick)
      { m with targets, deferredTargets, postInvalidate, postDowngrade } []
  | saved {pkt pkt' : Packet} {order : ℕ} {curTick : Tick} {deferredTargets : TargetList}
      {b postInvalidate postDowngrade : Bool}
      (hid : pkt'.id = pkt.id) (hdeferred : deferredTargets = m.deferredTargets ∨
        deferredTargets = m.deferredTargets.replaceUpgrades) (hsaves : m.savesSnoop pkt = true) :
    Applied m (.handleSnoop pkt order curTick) { m with
      targets := m.targets.add pkt' curTick order .fromSnoop b false
      deferredTargets
      postInvalidate
      postDowngrade } []
  | extracted {first : Target} {ts : List Target} (hlist : m.targets.list = first :: ts)
      (hfirst : first.source = .fromCPU ∨ first.source = .fromPrefetcher)
      (hsource : ∀ t ∈ ts, t.source ≠ .fromPrefetcher) :
    Applied m (.extractServiceableTargets .readRespWithInvalidate) { m with
      targets :=
        TargetList.populateFlags { m.targets with list := ts.filter (·.source = .fromCPU) } }
      (first :: ts.filter (·.source = .fromSnoop))
  | drained {cmd : MemCmd} : Applied m (.extractServiceableTargets cmd)
      { m with targets := (TargetList.init {} m.blkAddr m.blkSize).populateFlags } m.targets.list
  | idle {op : Op} (hop : arrivals m op = []) : Applied m op m []
  | spliced {curTick : Tick} {front : Target} :
    Applied m (.promoteDeferredTargets curTick) { m.splice m.promotable with
      deferredTargets := (m.splice m.promotable).deferredTargets.populateFlags
      targets := (m.splice m.promotable).targets.populateFlags
      order := front.order
      readyTime := max curTick front.readyTime } []
  | promoted {op : Op} {pred : Target → Bool} {b : Bool} {m' : MSHR} (hop : Promotion m op pred b)
      (h : MSHR.promoteIf { m with targets := { m.targets with needsWritable := b } } pred =
        .ok m') :
    Applied m op m' []
  | popped {t : Target} {ts : List Target} (hlist : m.targets.list = t :: ts) :
    Applied m .popTarget { m with targets := { m.targets with list := ts } } [t]
  | pending : Applied m .setDownstreamPending { m with downstreamPending := true } []
  | cleared : Applied m .clearDownstreamPending { m with
      downstreamPending := false
      targets := m.targets.clearDownstreamPending m.targets.list.length } []
  | forward {isForward : Bool} : Applied m (.setForward isForward) { m with isForward } []

variable {m m' : MSHR} {l : TargetList} {pkt pkt' : Packet} {source : Source} {n order : ℕ}
  {readyTime curTick : Tick} {b allocOnFill : Bool} {ts stay taken out : List Target}

theorem replaceUpgrade_id : (replaceUpgrade pkt).id = pkt.id := by
  simp only [replaceUpgrade]
  split_ifs
  all_goals rfl

theorem replaceUpgrades_keys : l.replaceUpgrades.keys = l.keys := by
  rw [replaceUpgrades]
  split_ifs
  · rfl
  · simp only [TargetList.keys, map_map]
    apply map_congr_left
    intro t _
    exact congrArg _ replaceUpgrade_id

theorem clearDownstreamPending_keys : (l.clearDownstreamPending n).keys = l.keys := by
  simp only [TargetList.keys, TargetList.clearDownstreamPending, map_append, map_map]
  rw [show key ∘ (fun t => { t with markedPending := false }) = key from rfl, ← map_append,
    take_append_drop]

theorem add_keys : (l.add pkt readyTime order source b allocOnFill).keys =
    l.keys ++ [(source, pkt.id)] := by
  simp only [TargetList.keys, TargetList.add_list, map_append]
  rfl

/-! ## What an operation does to the register -/

theorem allocateTarget_applied (h : m.allocateTarget pkt readyTime order allocOnFill = .ok m') :
    Applied m (.allocateTarget pkt readyTime order allocOnFill) m' [] := by
  simp only [allocateTarget, bind_eq_ok, require_eq_ok, demand_eq_ok] at h
  obtain ⟨⟨⟩, -, front, hfront, tooWeak, hweak, h⟩ := h
  split_ifs at h with hdefer hpost
  · cases h
    exact .deferred (Or.inr rfl) fun hnil => by simpa [defers, hfront, hweak, hnil] using hdefer
  · cases h
    exact .deferred (Or.inl rfl) fun hnil => by simpa [defers, hfront, hweak, hnil] using hdefer
  · cases h
    refine .added (fun hnil => ?_) ?_
    · rw [hnil] at hfront
      cases hfront
    · by_contra hne
      exact hdefer (by simp [hne])

theorem downgrade_eq (m : MSHR) (pkt : Packet) :
    ∃ postDowngrade, (m.downgrade pkt).1 = { m with postDowngrade } := by
  rw [downgrade]
  split_ifs
  · exact ⟨_, rfl⟩
  · exact ⟨_, rfl⟩

theorem snoopInService_applied {deferredTargets : TargetList}
    (hservice : (m.inService && !(pkt.expressSnoop && m.downstreamPending)) = true)
    (hdeferred : deferredTargets = m.deferredTargets ∨
      deferredTargets = m.deferredTargets.replaceUpgrades)
    (h : snoopInService { m with deferredTargets } pkt order curTick = .ok (m', pkt', b)) :
    Applied m (.handleSnoop pkt order curTick) m' [] := by
  simp only [snoopInService, hasPostInvalidate, isPendingModified, bind_eq_ok,
    demand_eq_ok, pure_eq_ok] at h
  obtain ⟨front, hfront, _, ⟨⟨⟩, -, rfl⟩, h⟩ := h
  have hsaves : m.savesSnoop pkt = (!(m.postInvalidate || front.pkt.req.isCacheInvalidate) &&
      (m.pendingModified || pkt.isInvalidate)) := by
    rw [savesSnoop, hservice, hfront, Option.any_some, Bool.true_and, ← Bool.not_or]
  split_ifs at h with hpost
  · cases h
    exact .snooped (Or.inl rfl) hdeferred (by rw [hsaves, hpost]; rfl)
  · simp only [bind_eq_ok, pure_eq_ok] at h
    obtain ⟨_, ⟨⟨⟩, -, rfl⟩, ⟨m₁, pkt₁⟩, hsave, h⟩ := h
    rw [Bool.eq_false_iff.mpr hpost, Bool.not_false, Bool.true_and] at hsaves
    obtain ⟨postDowngrade, hdown⟩ := downgrade_eq m₁ pkt₁
    cases h
    rw [hdown]
    rw [saveIfNeeded] at hsave
    split_ifs at hsave with hneeded
    · simp only [saveSnoop, bind_eq_ok] at hsave
      obtain ⟨_, -, hsave⟩ := hsave
      cases hsave
      exact .saved (by split_ifs <;> rfl) hdeferred (hsaves.trans hneeded)
    · cases hsave
      exact .snooped (Or.inl rfl) hdeferred (hsaves.trans (Bool.eq_false_iff.mpr hneeded))

theorem handleSnoop_applied (h : m.handleSnoop pkt order curTick = .ok (m', pkt', b)) :
    Applied m (.handleSnoop pkt order curTick) m' [] := by
  simp only [handleSnoop, bind_eq_ok] at h
  obtain ⟨⟨⟩, -, h⟩ := h
  have hnot : (m.inService && !(pkt.expressSnoop && m.downstreamPending)) =
      !(!m.inService || (pkt.expressSnoop && m.downstreamPending)) := by
    rw [Bool.not_or, Bool.not_not]
  by_cases hbefore : (!m.inService || (pkt.expressSnoop && m.downstreamPending)) = true
  · have hsaves : m.savesSnoop pkt = false := by
      rw [savesSnoop, hnot, hbefore]
      rfl
    rw [if_pos hbefore] at h
    split_ifs at h
    · cases h
      exact .snooped (Or.inr rfl) (Or.inr rfl) hsaves
    · cases h
      exact .snooped (Or.inl rfl) (Or.inl rfl) hsaves
  · have hservice := hnot.trans (congrArg not (Bool.eq_false_iff.mpr hbefore))
    rw [if_neg hbefore] at h
    split_ifs at h
    · exact snoopInService_applied hservice (Or.inr rfl) h
    · exact snoopInService_applied hservice (Or.inl rfl) h

theorem takeSnoops_spec (h : takeSnoops ts = .ok (stay, taken)) :
    stay = ts.filter (·.source = .fromCPU) ∧ taken = ts.filter (·.source = .fromSnoop) ∧
      ∀ t ∈ ts, t.source ≠ .fromPrefetcher := by
  induction ts generalizing stay taken with
  | nil =>
    cases h
    simp
  | cons t ts ih =>
    rw [takeSnoops] at h
    split_ifs at h with hcpu
    · simp only [bind_eq_ok] at h
      obtain ⟨⟨stay', taken'⟩, htake, h⟩ := h
      cases h
      obtain ⟨rfl, rfl, hsource⟩ := ih htake
      simpa [hcpu] using hsource
    · simp only [bind_eq_ok, require_eq_ok] at h
      obtain ⟨⟨⟩, hsnoop, ⟨stay', taken'⟩, htake, h⟩ := h
      cases h
      obtain ⟨rfl, rfl, hsource⟩ := ih htake
      simpa [hsnoop] using hsource

theorem extract_applied {cmd : MemCmd} {ready : TargetList}
    (h : m.extractServiceableTargets cmd = .ok (m', ready)) :
    Applied m (.extractServiceableTargets cmd) m' ready.list := by
  rw [extractServiceableTargets] at h
  split_ifs at h with hcmd
  · subst hcmd
    cases hlist : m.targets.list with
    | nil =>
      rw [hlist] at h
      cases h
    | cons first rest =>
      rw [hlist] at h
      simp only [bind_eq_ok, require_eq_ok] at h
      obtain ⟨⟨⟩, hfirst, ⟨stay, taken⟩, htake, h⟩ := h
      cases h
      obtain ⟨rfl, rfl, hsource⟩ := takeSnoops_spec htake
      rw [populateFlags_list]
      exact .extracted hlist hfirst hsource
  · cases h
    exact .drained

theorem promoteDeferredTargets_applied (h : m.promoteDeferredTargets curTick = .ok (m', b)) :
    Applied m (.promoteDeferredTargets curTick) m' [] := by
  rw [promoteDeferredTargets] at h
  split_ifs at h
  · cases h
    exact .idle rfl
  · simp only [bind_eq_ok] at h
    obtain ⟨front, -, h⟩ := h
    cases h
    exact .spliced

theorem promoteReadable_applied (h : m.promoteReadable = .ok m') :
    Applied m .promoteReadable m' [] := by
  rw [promoteReadable] at h
  split_ifs at h
  · cases h
    exact .idle rfl
  · simp only [hasPostInvalidate, bind_eq_ok, pure_eq_ok] at h
    obtain ⟨_, ⟨⟨⟩, -, rfl⟩, h⟩ := h
    split_ifs at h with hpost
    · cases h
      exact .idle rfl
    · exact .promoted (.readable hpost) h

theorem promoteWritable_applied (h : m.promoteWritable = .ok m') :
    Applied m .promoteWritable m' [] := by
  rw [promoteWritable] at h
  split_ifs at h with hneeds
  · cases h
    exact .idle rfl
  simp only [hasPostInvalidate, bind_eq_ok, pure_eq_ok] at h
  obtain ⟨_, ⟨⟨⟩, -, rfl⟩, h⟩ := h
  split_ifs at h with hpost
  · cases h
    exact .idle rfl
  simp only [hasPostDowngrade, bind_eq_ok, pure_eq_ok] at h
  obtain ⟨_, ⟨⟨⟩, -, rfl⟩, h⟩ := h
  split_ifs at h with hdown
  · cases h
    exact .idle rfl
  simp only [bind_eq_ok] at h
  obtain ⟨front, -, h⟩ := h
  split_ifs at h
  · cases h
    exact .idle rfl
  simp only [bind_eq_ok] at h
  obtain ⟨⟨⟩, -, h⟩ := h
  exact .promoted (.writable (by simpa using hneeds) hpost hdown) h

theorem popTarget_applied {t : Target} (h : m.popTarget = .ok (m', t)) :
    Applied m .popTarget m' [t] := by
  rw [popTarget] at h
  cases hlist : m.targets.list with
  | nil =>
    rw [hlist] at h
    cases h
  | cons first rest =>
    rw [hlist] at h
    cases h
    exact .popped hlist

theorem apply_applied {op : Op} (h : m.apply op = .ok (m', out)) : Applied m op m' out := by
  cases op with
  | allocateTarget pkt whenReady order allocOnFill =>
    simp only [apply, bind_eq_ok] at h
    obtain ⟨m₁, hop, h⟩ := h
    cases h
    exact allocateTarget_applied hop
  | handleSnoop pkt order curTick =>
    simp only [apply, bind_eq_ok] at h
    obtain ⟨⟨m₁, pkt₁, b⟩, hop, h⟩ := h
    cases h
    exact handleSnoop_applied hop
  | extractServiceableTargets cmd =>
    simp only [apply, bind_eq_ok] at h
    obtain ⟨⟨m₁, ready⟩, hop, h⟩ := h
    cases h
    exact extract_applied hop
  | promoteDeferredTargets curTick =>
    simp only [apply, bind_eq_ok] at h
    obtain ⟨⟨m₁, b⟩, hop, h⟩ := h
    cases h
    exact promoteDeferredTargets_applied hop
  | promoteReadable =>
    simp only [apply, bind_eq_ok] at h
    obtain ⟨m₁, hop, h⟩ := h
    cases h
    exact promoteReadable_applied hop
  | promoteWritable =>
    simp only [apply, bind_eq_ok] at h
    obtain ⟨m₁, hop, h⟩ := h
    cases h
    exact promoteWritable_applied hop
  | popTarget =>
    simp only [apply, bind_eq_ok] at h
    obtain ⟨⟨m₁, t⟩, hop, h⟩ := h
    cases h
    exact popTarget_applied hop
  | setDownstreamPending =>
    simp only [apply, setDownstreamPending, bind_eq_ok, pure_eq_ok] at h
    obtain ⟨m₁, ⟨⟨⟩, -, rfl⟩, h⟩ := h
    cases h
    exact .pending
  | clearDownstreamPending =>
    simp only [MSHR.apply, MSHR.clearDownstreamPending, bind_eq_ok, pure_eq_ok] at h
    obtain ⟨m₁, ⟨⟨⟩, -, rfl⟩, h⟩ := h
    cases h
    exact .cleared
  | setForward isForward =>
    cases h
    exact .forward

/-! ## The line of requests -/

theorem replaced_keys {l' : TargetList} (h : l' = l ∨ l' = l.replaceUpgrades) :
    l'.keys = l.keys := by
  rcases h with rfl | rfl
  · rfl
  · exact replaceUpgrades_keys

theorem splice_keys : (m.splice n).targets.keys = m.targets.keys ++ m.deferredTargets.keys.take n ∧
    (m.splice n).deferredTargets.keys = m.deferredTargets.keys.drop n := by
  simp only [MSHR.splice, TargetList.keys, map_append, map_take, map_drop, and_self]

def Promotes (m m' : MSHR) : Prop :=
  ∃ n, m'.targets.keys = m.targets.keys ++ m.deferredTargets.keys.take n ∧
    m'.deferredTargets.keys = m.deferredTargets.keys.drop n

theorem populateFlags_keys : l.populateFlags.keys = l.keys := by
  rw [TargetList.keys, TargetList.populateFlags_list, TargetList.keys]

theorem promoteIf_keys {pred : Target → Bool} (h : m.promoteIf pred = .ok m') : Promotes m m' := by
  simp only [promoteIf, bind_eq_ok, require_eq_ok] at h
  obtain ⟨⟨⟩, -, n, -, h⟩ := h
  cases h
  refine ⟨n, splice_keys.1.trans ?_, (populateFlags_keys.trans splice_keys.2).trans ?_⟩
  · rw [clearDownstreamPending_keys]
  · rw [clearDownstreamPending_keys]

def cpuSide (ks : List Key) : List Key := ks.filter (·.1 ≠ .fromSnoop)

def snoops (ks : List Key) : List Key := ks.filter (·.1 = .fromSnoop)

@[simp] theorem cpuSide_append (ks ks' : List Key) :
    cpuSide (ks ++ ks') = cpuSide ks ++ cpuSide ks' :=
  filter_append ..

@[simp] theorem snoops_append (ks ks' : List Key) : snoops (ks ++ ks') = snoops ks ++ snoops ks' :=
  filter_append ..

structure Delivers (m m' : MSHR) (arrived out : List Key) : Prop where
  line : cpuSide out ++ cpuSide (m'.targets.keys ++ m'.deferredTargets.keys) =
    cpuSide (m.targets.keys ++ m.deferredTargets.keys) ++ cpuSide arrived
  snoops : snoops out ++ snoops m'.targets.keys = snoops m.targets.keys ++ snoops arrived
  deferred : ∀ k ∈ m'.deferredTargets.keys, k.1 = .fromCPU

theorem cpuSide_map (ts : List Target) :
    cpuSide (ts.map key) = (ts.filter (·.source ≠ .fromSnoop)).map key := filter_map

theorem snoops_map (ts : List Target) :
    snoops (ts.map key) = (ts.filter (·.source = .fromSnoop)).map key := filter_map

theorem extract_line (h : ∀ t ∈ ts, t.source ≠ .fromPrefetcher) :
    cpuSide ((ts.filter (·.source = .fromSnoop)).map key) = [] ∧
      cpuSide ((ts.filter (·.source = .fromCPU)).map key) = cpuSide (ts.map key) ∧
      snoops ((ts.filter (·.source = .fromSnoop)).map key) = snoops (ts.map key) ∧
      snoops ((ts.filter (·.source = .fromCPU)).map key) = [] := by
  simp only [cpuSide_map, snoops_map, filter_filter, map_eq_nil_iff,
    filter_eq_nil_iff]
  refine ⟨by simp, congrArg _ (filter_congr fun t ht => ?_), by simp, fun t _ => ?_⟩
  · have := h t ht
    cases hs : t.source <;> simp_all
  · cases hs : t.source <;> simp

theorem Promotes.delivers (hdef : ∀ k ∈ m.deferredTargets.keys, k.1 = .fromCPU)
    (h : Promotes m m') : Delivers m m' [] [] := by
  obtain ⟨n, htargets, hdeferred⟩ := h
  have hnone : snoops (m.deferredTargets.keys.take n) = [] := by
    apply filter_eq_nil_iff.mpr
    intro k hk
    rw [hdef k (mem_of_mem_take hk)]
    decide
  refine ⟨?_, ?_, ?_⟩
  · rw [htargets, hdeferred, append_assoc, take_append_drop]
    exact (append_nil _).symm
  · rw [htargets, snoops_append, hnone]
    rfl
  · intro k hk
    rw [hdeferred] at hk
    exact hdef k (mem_of_mem_drop hk)

theorem Delivers.refl (hdef : ∀ k ∈ m.deferredTargets.keys, k.1 = .fromCPU)
    (htargets : m'.targets.keys = m.targets.keys)
    (hdeferred : m'.deferredTargets.keys = m.deferredTargets.keys) : Delivers m m' [] [] := by
  apply Promotes.delivers hdef
  exact ⟨0, by simpa using htargets, by simpa using hdeferred⟩

theorem Delivers.add_target {arrived : List Key}
    (hdef : ∀ k ∈ m'.deferredTargets.keys, k.1 = .fromCPU)
    (hdeferred : m'.deferredTargets.keys = m.deferredTargets.keys)
    (htargets : m'.targets.keys = m.targets.keys ++ arrived)
    (hlast : m.deferredTargets.keys = [] ∨ cpuSide arrived = []) : Delivers m m' arrived [] := by
  refine ⟨?_, ?_, hdef⟩
  · rw [htargets, hdeferred]
    rcases hlast with hnil | hnil
    · rw [hnil, append_nil, append_nil, cpuSide_append]
      rfl
    · rw [cpuSide_append, cpuSide_append, hnil, append_nil, append_nil, cpuSide_append]
      rfl
  · rw [htargets, snoops_append]
    rfl

theorem apply_delivers {op : Op} (hdef : ∀ k ∈ m.deferredTargets.keys, k.1 = .fromCPU)
    (h : m.apply op = .ok (m', out)) : Delivers m m' (arrivals m op) (out.map key) := by
  cases apply_applied h with
  | @deferred pkt pkt' readyTime order allocOnFill hpkt hdefers =>
    have hkeys : (m.deferredTargets.add pkt' readyTime order .fromCPU true allocOnFill).keys =
        m.deferredTargets.keys ++ [(.fromCPU, pkt.id)] := by
      rcases hpkt with rfl | rfl
      · exact add_keys
      · exact add_keys.trans (by rw [replaceUpgrade_id])
    refine ⟨?_, (append_nil _).symm, fun k hk => ?_⟩
    · rw [hkeys, ← append_assoc, cpuSide_append _ [_]]
      rfl
    · rw [hkeys, mem_append, mem_singleton] at hk
      rcases hk with hk | rfl
      · exact hdef k hk
      · rfl
  | added htargets hdeferred =>
    refine .add_target hdef rfl add_keys (Or.inl ?_)
    rw [TargetList.keys, hdeferred, map_nil]
  | snooped htargets hdeferred hsaves =>
    rw [arrivals, hsaves]
    exact .refl hdef (replaced_keys htargets) (replaced_keys hdeferred)
  | saved hid hdeferred hsaves =>
    have hkeys := replaced_keys hdeferred
    rw [arrivals, hsaves]
    exact .add_target (hkeys ▸ hdef) hkeys (add_keys.trans (by rw [hid]; rfl)) (Or.inr rfl)
  | @extracted first rest hlist hfirst hsource =>
    obtain ⟨hcpu, hcpu', hsnoops, hsnoops'⟩ := extract_line hsource
    have hkeys : m.targets.keys = [key first] ++ rest.map key := by
      rw [TargetList.keys, hlist]
      rfl
    have hsnoop : snoops [key first] = [] := by
      rcases hfirst with hs | hs <;> simp [snoops, key, hs]
    have hready : (first :: rest.filter (·.source = .fromSnoop)).map key =
        [key first] ++ (rest.filter (·.source = .fromSnoop)).map key := rfl
    have hleft : (populateFlags
        { m.targets with list := rest.filter (·.source = .fromCPU) }).keys =
        (rest.filter (·.source = .fromCPU)).map key := populateFlags_keys
    refine ⟨?_, ?_, hdef⟩
    · rw [hready, hleft, hkeys]
      simp only [cpuSide_append, hcpu, hcpu', append_nil, append_assoc]
      exact (append_nil _).symm ▸ rfl
    · rw [hready, hleft, hkeys]
      simp only [snoops_append, hsnoops, hsnoops', hsnoop, append_nil]
      exact (append_nil _).symm ▸ rfl
  | drained =>
    have hleft : (populateFlags (init {} m.blkAddr m.blkSize)).keys = [] :=
      populateFlags_keys
    refine ⟨?_, ?_, hdef⟩
    · rw [hleft, cpuSide_append, cpuSide_append]
      exact (append_nil _).symm
    · rw [hleft]
      rfl
  | idle hop =>
    rw [hop]
    exact .refl hdef rfl rfl
  | spliced =>
    apply Promotes.delivers hdef
    exact ⟨m.promotable, populateFlags_keys.trans splice_keys.1,
      populateFlags_keys.trans splice_keys.2⟩
  | promoted hop hpromote =>
    have hpromotes := promoteIf_keys hpromote
    have hnone : arrivals m op = [] := by cases hop <;> rfl
    rw [hnone]
    exact Promotes.delivers hdef hpromotes
  | @popped t rest hlist =>
    have hkeys : m.targets.keys = [key t] ++ rest.map key := by
      rw [TargetList.keys, hlist]
      rfl
    refine ⟨?_, ?_, hdef⟩
    · rw [hkeys, append_assoc, cpuSide_append [key t]]
      exact (append_nil _).symm
    · rw [hkeys, snoops_append]
      exact (append_nil _).symm
  | pending => exact .refl hdef rfl rfl
  | cleared => exact .refl hdef clearDownstreamPending_keys rfl
  | forward => exact .refl hdef rfl rfl

/-! ## From allocation to deallocation -/

structure Life where
  mshr : MSHR
  arrived : List Key
  handedOut : List Key
  deriving DecidableEq

inductive Event
  | does (op : Op)
  | markInService (pendingModifiedResp : Bool)
  | markPending
  | delay (curTick delayTicks : Tick)
  deriving DecidableEq

def step (s : Life) : Event → Except Fault Life
  | .does op => do
    let (mshr, out) ← s.mshr.apply op
    return ⟨mshr, s.arrived ++ arrivals s.mshr op, s.handedOut ++ out.map key⟩
  | .markInService pendingModifiedResp => do
    return { s with mshr := ← s.mshr.markInService pendingModifiedResp }
  | .markPending => do return { s with mshr := ← s.mshr.markPending }
  | .delay curTick delayTicks => do return { s with mshr := ← s.mshr.delay curTick delayTicks }

structure Delivered (s : Life) : Prop where
  line : cpuSide s.handedOut ++ cpuSide (s.mshr.targets.keys ++ s.mshr.deferredTargets.keys) =
    cpuSide s.arrived
  snoops : Mshr.snoops s.handedOut ++ Mshr.snoops s.mshr.targets.keys = Mshr.snoops s.arrived
  deferred : ∀ k ∈ s.mshr.deferredTargets.keys, k.1 = .fromCPU

theorem Delivered.next {s : Life} {arrived out : List Key} (hs : Delivered s)
    (h : Delivers s.mshr m' arrived out) :
    Delivered ⟨m', s.arrived ++ arrived, s.handedOut ++ out⟩ := by
  constructor
  · rw [cpuSide_append, append_assoc, h.line, ← append_assoc, hs.line, ← cpuSide_append]
  · rw [snoops_append, append_assoc, h.snoops, ← append_assoc, hs.snoops, ← snoops_append]
  · exact h.deferred

theorem Delivered.keep {s : Life} (hs : Delivered s)
    (htargets : m'.targets.keys = s.mshr.targets.keys)
    (hdeferred : m'.deferredTargets.keys = s.mshr.deferredTargets.keys) :
    Delivered { s with mshr := m' } := by
  have hnext := hs.next (Delivers.refl hs.deferred htargets hdeferred)
  rwa [append_nil, append_nil] at hnext

theorem step_delivered {s t : Life} {e : Event} (hs : Delivered s) (h : step s e = .ok t) :
    Delivered t := by
  cases e with
  | does op =>
    simp only [step, bind_eq_ok, pure_eq_ok] at h
    obtain ⟨⟨m₁, out⟩, hop, rfl⟩ := h
    exact hs.next (apply_delivers hs.deferred hop)
  | markInService pendingModifiedResp =>
    simp only [step, markInService, bind_eq_ok, pure_eq_ok] at h
    obtain ⟨m₁, ⟨⟨⟩, -, rfl⟩, rfl⟩ := h
    apply hs.keep
    · dsimp only
      split_ifs
      · exact clearDownstreamPending_keys
      · rfl
    · rfl
  | markPending =>
    simp only [step, markPending, bind_eq_ok, pure_eq_ok] at h
    obtain ⟨m₁, ⟨⟨⟩, -, rfl⟩, rfl⟩ := h
    exact hs.keep rfl rfl
  | delay curTick delayTicks =>
    simp only [step, delay, bind_eq_ok, pure_eq_ok] at h
    obtain ⟨m₁, ⟨⟨⟩, -, rfl⟩, rfl⟩ := h
    exact hs.keep rfl rfl

theorem splice_targets (hne : m.targets.list ≠ [] ∨ m.deferredTargets.list ≠ []) :
    (m.splice m.promotable).targets.list ≠ [] := by
  cases htargets : m.targets.list with
  | cons t ts => simp [splice, htargets]
  | nil =>
    have hdeferred := hne.resolve_left (fun h => h htargets)
    have hpos : m.promotable ≠ 0 := by
      simp only [promotable, htargets]
      split_ifs with hzero hempty
      · exact one_ne_zero
      · exact absurd rfl hempty
      · exact hzero
    simp [splice, htargets, hdeferred, hpos]

theorem promoteDeferredTargets_ok (m : MSHR) (curTick : Tick) :
    (m.targets.list = [] ∧ m.deferredTargets.list = [] ∧
        m.promoteDeferredTargets curTick = .ok (m, false)) ∨
      ∃ m', m.promoteDeferredTargets curTick = .ok (m', true) ∧ m'.targets.list ≠ [] := by
  by_cases hempty : m.targets.list = [] ∧ m.deferredTargets.list = []
  · refine Or.inl ⟨hempty.1, hempty.2, ?_⟩
    rw [promoteDeferredTargets, hempty.1, hempty.2]
    rfl
  · have hne := splice_targets (not_and_or.mp hempty)
    obtain ⟨front, hfront⟩ := Option.ne_none_iff_exists'.mp (mt List.head?_eq_none_iff.mp hne)
    have hif : ¬ (m.targets.list.isEmpty && m.deferredTargets.list.isEmpty) = true := by
      simpa using hempty
    rw [promoteDeferredTargets, if_neg hif]
    dsimp only
    rw [hfront]
    refine Or.inr ⟨_, rfl, ?_⟩
    rwa [populateFlags_list]

theorem allocate_delivered {m₀ : MSHR} {blkAddr : Addr} {blkSize : ℕ}
    (hfree : m₀.getNumTargets = 0)
    (h : m₀.allocate blkAddr blkSize pkt readyTime order allocOnFill = .ok m) :
    Delivered ⟨m, [(if pkt.cmd = .hardPFReq then .fromPrefetcher else .fromCPU, pkt.id)], []⟩ := by
  obtain ⟨htargets, hdeferred⟩ : m₀.targets.list = [] ∧ m₀.deferredTargets.list = [] := by
    simpa [getNumTargets] using hfree
  simp only [allocate, bind_eq_ok, pure_eq_ok] at h
  obtain ⟨front, -, ⟨⟩, -, rfl⟩ := h
  have hnone : (m₀.deferredTargets.init blkAddr blkSize).keys = [] := by
    rw [TargetList.keys, TargetList.init_list, hdeferred, map_nil]
  have hone : ((m₀.targets.init blkAddr blkSize).add pkt readyTime order
      (if pkt.cmd = .hardPFReq then .fromPrefetcher else .fromCPU) true allocOnFill).keys =
      [(if pkt.cmd = .hardPFReq then .fromPrefetcher else .fromCPU, pkt.id)] := by
    rw [add_keys, TargetList.keys, TargetList.init_list, htargets]
    rfl
  constructor
  · dsimp only
    rw [hone, hnone, append_nil]
    rfl
  · dsimp only
    rw [hone]
    rfl
  · dsimp only
    rw [hnone]
    simp

theorem targets_delivered {m₀ : MSHR} {blkAddr : Addr} {blkSize : ℕ}
    (hfree : m₀.getNumTargets = 0)
    (halloc : m₀.allocate blkAddr blkSize pkt readyTime order allocOnFill = .ok m) {s : Life}
    (h : Reachable step
      ⟨m, [(if pkt.cmd = .hardPFReq then .fromPrefetcher else .fromCPU, pkt.id)], []⟩ s) :
    cpuSide s.handedOut ++ cpuSide (s.mshr.targets.keys ++ s.mshr.deferredTargets.keys) =
        cpuSide s.arrived ∧
      snoops s.handedOut ++ snoops (s.mshr.targets.keys ++ s.mshr.deferredTargets.keys) =
        snoops s.arrived ∧
      ∀ curTick, ∃ m' promoted, s.mshr.promoteDeferredTargets curTick = .ok (m', promoted) ∧
        (promoted = true → m'.targets.list ≠ []) ∧
        (promoted = false → cpuSide s.handedOut = cpuSide s.arrived ∧
          snoops s.handedOut = snoops s.arrived) := by
  have hs : Delivered s := Reachable.invariant (allocate_delivered hfree halloc)
    (fun _ _ _ _ hs hstep => step_delivered hs hstep) s h
  have hnone : snoops s.mshr.deferredTargets.keys = [] := by
    apply filter_eq_nil_iff.mpr
    intro k hk
    rw [hs.deferred k hk]
    decide
  refine ⟨hs.line, ?_, fun curTick => ?_⟩
  · rw [snoops_append, hnone, append_nil, hs.snoops]
  · rcases promoteDeferredTargets_ok s.mshr curTick with
      ⟨htargets, hdeferred, hfalse⟩ | ⟨m', htrue, hne⟩
    · refine ⟨_, _, hfalse, nofun, fun _ => ?_⟩
      have hline := hs.line
      have hsnoops := hs.snoops
      rw [TargetList.keys, htargets] at hline hsnoops
      rw [TargetList.keys, hdeferred] at hline
      exact ⟨(append_nil _).symm.trans hline, (append_nil _).symm.trans hsnoops⟩
    · exact ⟨m', true, htrue, fun _ => hne, nofun⟩

theorem readReq_isRequest : MemCmd.testCmdAttrib .readReq .isRequest = true := rfl

def aRead : Packet :=
  { id := 1, cmd := .readReq, req := { paddr := 64 }, addr := 64, size := 4, isSecure := false
    isRequest := readReq_isRequest }

def aWrite : Packet :=
  { id := 2, cmd := .writeReq, req := { paddr := 68 }, addr := 68, size := 4, isSecure := false
    isRequest := rfl }

def aRegister : MSHR := (MSHR.allocate {} 64 64 aRead 0 0 true).toOption.getD {}

theorem targets_delivered_write : ∃ s, Reachable step ⟨aRegister, [(.fromCPU, 1)], []⟩ s ∧
    s.mshr.targets.keys = [(.fromCPU, 2)] ∧ cpuSide s.arrived = [(.fromCPU, 1), (.fromCPU, 2)] := by
  have halloc : allocate {} 64 64 aRead 0 0 true = .ok aRegister := by decide +kernel
  have hends : Ends step ⟨aRegister, [(.fromCPU, 1)], []⟩ [.markInService false,
      .does (.allocateTarget aWrite 0 1 true), .does (.extractServiceableTargets .readResp),
      .does (.promoteDeferredTargets 5)] (fun s => s.handedOut = [(.fromCPU, 1)] ∧
        s.mshr.targets.keys = [(.fromCPU, 2)] ∧ s.mshr.deferredTargets.keys = []) := by
    decide +kernel
  obtain ⟨s, hs, hout, htargets, hdeferred⟩ := hends.reachable
  have hline := (targets_delivered rfl halloc hs).1
  rw [hout, htargets, hdeferred] at hline
  exact ⟨s, hs, htargets, hline.symm⟩

end HetSim.Mshr
