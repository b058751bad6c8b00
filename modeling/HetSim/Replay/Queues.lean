import HetSim.Library.Channel
import HetSim.Replay.Actions

/-!
# The queues refine a bounded channel

As long as every WAKE of its two engines finds them asleep, the history of a queue is one of the
abstract channel, and the two slots of the queue hold the side that waits.
-/

namespace HetSim.Replay
open Checked Histories Channels List Obs Channel World Option TREQueue

variable {cfg : Config} {w w' : World} {loc loc' : TREId → Loc} {i : TREId} {src snk : TREId}
  {q : TREQueue}

def Obs.queueOp (src snk : TREId) : Obs → Option Op
  | .pushWait i sink => if i = src ∧ sink = snk then some (.wait .push) else none
  | .pushed i sink woken => if i = src ∧ sink = snk then some (.done .push woken.isSome) else none
  | .popWait i source => if i = snk ∧ source = src then some (.wait .pop) else none
  | .popped i source woken => if i = snk ∧ source = src then some (.done .pop woken.isSome)
      else none
  | _ => none

def queueOps (src snk : TREId) (log : List Obs) : List Op := log.filterMap (Obs.queueOp src snk)

theorem queueOps_append (src snk : TREId) (l l' : List Obs) :
    queueOps src snk (l ++ l') = queueOps src snk l ++ queueOps src snk l' := filterMap_append

variable {o : Obs} {op : Op} {p : Prim} {s : Side}

theorem queueOps_cons (h : o.queueOp src snk = some op) (l : List Obs) :
    queueOps src snk (o :: l) = op :: queueOps src snk l := by simp [queueOps, h]

/-- The engine on a side of the queue from `src` to `snk`. -/
def engineAt (src snk : TREId) : Side → TREId
  | .push => src
  | .pop => snk

def waitAt (src snk : TREId) (s : Side) : Obs :=
  .queued (engineAt src snk s) (engineAt src snk s.other) s

def doneAt (src snk : TREId) (woken : Option TREId) (s : Side) : Obs :=
  .served (engineAt src snk s) (engineAt src snk s.other) woken s

theorem queueOp_waitAt : (waitAt src snk s).queueOp src snk = some (.wait s) := by
  cases s <;> exact if_pos ⟨rfl, rfl⟩

theorem queueOp_doneAt (woken : Option TREId) :
    (doneAt src snk woken s).queueOp src snk = some (.done s woken.isSome) := by
  cases s <;> exact if_pos ⟨rfl, rfl⟩

theorem Obs.queueOp_cases (h : o.queueOp src snk = some op) :
    (∃ s, o = waitAt src snk s ∧ op = .wait s) ∨
    ∃ s t, o = doneAt src snk t s ∧ op = .done s t.isSome := by
  cases o with
  | pushWait i t | pushed i t =>
    simp only [queueOp, ite_none_right_eq_some, Option.some.injEq] at h
    obtain ⟨⟨rfl, rfl⟩, rfl⟩ := h
    first | exact .inl ⟨.push, rfl, rfl⟩ | exact .inr ⟨.push, _, rfl, rfl⟩
  | popWait i t | popped i t =>
    simp only [queueOp, ite_none_right_eq_some, Option.some.injEq] at h
    obtain ⟨⟨rfl, rfl⟩, rfl⟩ := h
    first | exact .inl ⟨.pop, rfl, rfl⟩ | exact .inr ⟨.pop, _, rfl, rfl⟩
  | _ => cases h

theorem Obs.eq_doneAt {woke : Bool} (h : o.queueOp src snk = some (.done s woke)) :
    ∃ t, o = doneAt src snk t s := by
  rcases queueOp_cases h with ⟨_, -, h⟩ | ⟨_, t, ho, h⟩ <;> cases h
  exact ⟨t, ho⟩

/-- The abstract channel that a queue stands for. The slots and the history name no
engine but the two of the queue. -/
structure ChannelAt (w : World) (src snk : TREId) (q : TREQueue) (c : Channel) : Prop where
  history : History Step (.empty q.size) (queueOps src snk w.log) c
  items : c.stock .pop = q.q.length
  free : c.stock .push + q.q.length = q.size
  waits : ∀ s, c.phase s = .waiting ↔ q.slot s ≠ none
  holds : ∀ s, ∀ t ∈ q.slot s, t = engineAt src snk s
  woken : ∀ s t, doneAt src snk (some t) s ∈ w.log → t = engineAt src snk s.other

structure QueueInv (w : World) (src snk : TREId) : Prop where
  depth : ∀ q, w.queues (src, snk) = some q → 1 ≤ q.size
  refines : ∀ q, w.queues (src, snk) = some q → ∃ c, ChannelAt w src snk q c

theorem QueueInv.frame (hi : QueueInv w src snk) (os : List Obs) (hlog : w'.log = w.log ++ os)
    (hops : ∀ o ∈ os, o.queueOp src snk = none)
    (hq : w'.queues (src, snk) = w.queues (src, snk)) : QueueInv w' src snk := by
  have hnone : queueOps src snk os = [] := filterMap_eq_nil_iff.mpr hops
  refine ⟨fun q h => hi.depth q (hq ▸ h), fun q h => ?_⟩
  obtain ⟨c, hc⟩ := hi.refines q (hq ▸ h)
  refine ⟨c, ?_, hc.items, hc.free, hc.waits, hc.holds, fun s t ht => ?_⟩
  · rw [hlog, queueOps_append, hnone, append_nil]
    exact hc.history
  · rw [hlog] at ht
    rcases mem_append.mp ht with ht | ht
    · exact hc.woken s t ht
    · exact nomatch (queueOp_doneAt _).symm.trans (hops _ ht)

namespace ChannelAt

variable {c : Channel}

theorem not_waiting (hc : ChannelAt w src snk q c) (hq : w.queues (src, snk) = some q)
    (hr : Registered w (engineAt src snk s) (loc (engineAt src snk s)))
    (hℓ : loc (engineAt src snk s) = .holding p) : c.phase s ≠ .waiting := by
  intro hw
  obtain ⟨t, ht⟩ := Option.ne_none_iff_exists'.mp ((hc.waits s).mp hw)
  obtain rfl := hc.holds s t ht
  obtain ⟨other, hs, -⟩ := (hr.slot s _).mp ((waiter_eq hq s).trans ht)
  exact nomatch hℓ.symm.trans hs

theorem idle_of_drained (hw : c.phase s ≠ .waiting) (hz : c.stock s = 0) : c.phase s = .idle := by
  cases h : c.phase s with
  | idle => rfl
  | waiting => exact absurd h hw
  | woken => exact absurd hz (c.served s h).ne'

theorem drained_iff (hc : ChannelAt w src snk q c) : q.Drained s ↔ c.stock s = 0 := by
  have hitems := hc.items
  have hfree := hc.free
  cases s with
  | push => exact ⟨fun h : q.q.length = q.size => by omega, fun h => show q.q.length = _ by omega⟩
  | pop => exact ⟨hitems.trans, hitems.symm.trans⟩

theorem wait (hc : ChannelAt w src snk q c) (hlog : w'.log = w.log ++ [waitAt src snk s])
    (hp : c.phase s ≠ .waiting) (hz : q.Drained s) :
    ∃ c', ChannelAt w' src snk (q.park (engineAt src snk s) s) c' := by
  have hz := hc.drained_iff.mp hz
  have hq : (q.park (engineAt src snk s) s).q = q.q ∧
      (q.park (engineAt src snk s) s).size = q.size := by cases s <;> exact ⟨rfl, rfl⟩
  refine ⟨c.wait s hz, ?_, ?_, ?_, fun s' => ?_, fun s' t ht => ?_, fun s' t ht => ?_⟩
  · rw [hlog, queueOps_append, queueOps_cons queueOp_waitAt, hq.2]
    exact hc.history.snoc (.wait hz (idle_of_drained hp hz))
  · rw [hq.1]
    exact hc.items
  · rw [hq.1, hq.2]
    exact hc.free
  · by_cases hs : s' = s
    · simp [hs, park_slot, Channel.wait]
    · simp [hs, park_slot, Channel.wait, hc.waits]
  · by_cases hs : s' = s
    · subst hs
      simpa [park_slot, eq_comm] using ht
    · exact hc.holds s' t (by simpa [park_slot, hs] using ht)
  · rw [hlog, mem_append, mem_singleton] at ht
    exact hc.woken s' t (ht.resolve_right
      (by cases s <;> cases s' <;> simp [waitAt, doneAt, queued, Obs.served]))

theorem done (hc : ChannelAt w src snk q c)
    (hlog : w'.log = w.log ++ [doneAt src snk (q.slot s.other) s]) (hp : c.phase s ≠ .waiting)
    (hz : ¬ q.Drained s) : ∃ c', ChannelAt w' src snk (q.serve s) c' := by
  have hfree := hc.free
  have hitems := hc.items
  have hz : 0 < c.stock s := Nat.pos_of_ne_zero fun h => hz (hc.drained_iff.mpr h)
  have hwoke : decide (c.phase s.other = .waiting) = (q.slot s.other).isSome := by
    rw [Bool.eq_iff_iff, decide_eq_true_iff, hc.waits, isSome_iff_ne_none]
  have hnone : q.slot s = none := by
    by_contra hc'
    exact hp ((hc.waits s).mpr hc')
  have hsize : (q.serve s).size = q.size := by cases s <;> rfl
  refine ⟨c.complete s, ?_, ?_, ?_, fun s' => ?_, fun s' t ht => ?_, fun s' t ht => ?_⟩
  · rw [hlog, queueOps_append, queueOps_cons (queueOp_doneAt _), ← hwoke, hsize]
    exact hc.history.snoc (.done hz hp)
  · cases s <;> simp [complete, serve, hitems]
  · rw [hsize]
    cases s <;> simp [complete, serve] <;> omega
  · by_cases hs : s' = s
    · simp [hs, complete, serve_slot, s.other_ne.symm, hnone]
    · obtain rfl := Side.eq_other (Ne.symm hs)
      by_cases hw : c.phase s.other = .waiting <;> simp [complete, serve_slot, s.other_ne, hw]
  · by_cases hs : s' = s.other
    · simp [hs, serve_slot] at ht
    · exact hc.holds s' t (by simpa [serve_slot, hs] using ht)
  · rw [hlog, mem_append, mem_singleton] at ht
    rcases ht with ht | ht
    · exact hc.woken s' t ht
    · obtain ⟨rfl, ht⟩ : s' = s ∧ some t = q.slot s.other := by
        cases s <;> cases s' <;> simp_all [doneAt, Obs.served]
      exact hc.holds _ t ht.symm

end ChannelAt

theorem wakeSlot_queues (slot : Option TREId) (p : Prim) :
    (wakeSlot w slot p).queues = w.queues := by
  cases slot <;> rfl

theorem QueueInv.update (hi : QueueInv w src snk) (hq : w.queues (src, snk) = some q)
    (q' : TREQueue) (hsize : q'.size = q.size) (hq' : w'.queues (src, snk) = some q')
    (hc : ∀ c, ChannelAt w src snk q c → ∃ c', ChannelAt w' src snk q' c') :
    QueueInv w' src snk := by
  refine ⟨fun r hr => ?_, fun r hr => ?_⟩
  · rw [hq'] at hr
    cases hr
    rw [hsize]
    exact hi.depth q hq
  · rw [hq'] at hr
    cases hr
    obtain ⟨c, h⟩ := hi.refines q hq
    exact hc c h

theorem Move.queueInv (h : Move w loc w' loc')
    (hr : ∀ s, Registered w (engineAt src snk s) (loc (engineAt src snk s)))
    (hi : QueueInv w src snk) : QueueInv w' src snk := by
  have hkey : ∀ {k other s}, queueKey k other s = (src, snk) →
      k = engineAt src snk s ∧ other = engineAt src snk s.other := by
    rintro k other (_ | _) ⟨⟩ <;> exact ⟨rfl, rfl⟩
  cases h with
  | engine k os h hos he =>
    refine hi.frame os rfl (fun o ho => ?_) rfl
    have hp := hos o ho
    cases o <;> first | rfl | cases hp
  | halt k n exit hx hℓ hb h =>
    refine hi.frame _ rfl (fun o ho => ?_) rfl
    rcases hx with rfl | rfl <;> simp at ho
    · rw [ho]
      rfl
    · rcases ho with rfl | rfl <;> rfl
  | releaseBatch k hℓ hb hn hk ht =>
    exact hi.frame _ (append_assoc _ _ _) (by simp [queueOp]) rfl
  | @queueWait k side q hℓ hq hz =>
    by_cases hk : queueKey k (w.tre k).data side = (src, snk)
    · obtain ⟨rfl, hd⟩ := hkey hk
      rw [hk] at hq
      refine hi.update hq (q.park (engineAt src snk side) side) (by cases side <;> rfl)
        (by simp [hk]) fun c hc => ?_
      exact hc.wait (by simp [waitAt, ← hd]) (hc.not_waiting hq (hr side) hℓ) hz
    · refine hi.frame _ rfl ?_ (by simp [Ne.symm hk])
      cases side <;> simpa [queued, queueOp, queueKey, and_comm] using hk
  | @queueDone k side q hℓ hq hz hs ht =>
    by_cases hk : queueKey k (w.tre k).data side = (src, snk)
    · obtain ⟨rfl, hd⟩ := hkey hk
      rw [hk] at hq
      refine hi.update hq (q.serve side) (by cases side <;> rfl) (by simp [hk]) fun c hc => ?_
      exact hc.done (by simp [doneAt, ← hd]) (hc.not_waiting hq (hr side) hℓ) hz
    · refine hi.frame [.served k (w.tre k).data (q.slot side.other) side] (by simp) ?_
        (by simp [Ne.symm hk, wakeSlot_queues])
      cases side <;> simpa [Obs.served, queueOp, queueKey, and_comm] using hk
  | fireTick | initMutex | lockGrant | lockQueue | unlockFree | unlockHandoff | initBarrier | arrive
  | sleep | wake =>
    exact hi.frame _ rfl (by simp [queueOp]) rfl

theorem boot_queueInv (cfg : Config) (src snk : TREId) : QueueInv (boot cfg) src snk := by
  obtain ⟨-, -, -, hq, hl⟩ := boot_fresh cfg
  refine ⟨fun q h => (hq _ q h).2.2.2, fun q h => ⟨.empty q.size, ?_⟩⟩
  obtain ⟨hnil, hpush, hpop, -⟩ := hq _ q h
  have hslot : ∀ s, q.slot s = none := fun s => by cases s <;> assumption
  refine ⟨?_, ?_, ?_, ?_, ?_, ?_⟩
  · rw [hl]
    exact .nil
  · simp [empty, hnil]
  · simp [empty, hnil]
  · simp [empty, hslot]
  · simp [hslot]
  · simp [hl]

theorem Reachable.queueInv (hw : Reachable cfg w) (src snk : TREId) : ∃ loc, Settled loc ∧
    Sane cfg w loc ∧ (Calm src w.log → Calm snk w.log → QueueInv w src snk) := by
  refine Reachable.with_sane
    (P := fun w _ => Calm src w.log → Calm snk w.log → QueueInv w src snk)
    (fun _ _ => boot_queueInv cfg src snk) ?_ w hw
  intro w loc w' loc' hs hi hm hsrc hsnk
  obtain ⟨os, hlog⟩ := hm.log_append
  rw [hlog] at hsrc hsnk
  have hsrc := hsrc.of_append
  have hsnk := hsnk.of_append
  refine hm.queueInv (fun s => ?_) (hi hsrc hsnk)
  cases s with
  | push => exact (hs src hsrc).registered
  | pop => exact (hs snk hsnk).registered

def Obs.isPush (src snk : TREId) : Obs → Bool
  | .pushed i sink _ => i = src ∧ sink = snk
  | _ => false

def Obs.isPop (src snk : TREId) : Obs → Bool
  | .popped i source _ => i = snk ∧ source = src
  | _ => false

def Obs.queueSide (src snk : TREId) (o : Obs) : Option Side := (o.queueOp src snk).map Op.side

theorem sum_completes {f : Obs → Bool}
    (hf : ∀ o, f o = true ↔ ∃ woke, o.queueOp src snk = some (.done s woke)) (l : List Obs) :
    ((queueOps src snk l).map (Op.completes s)).sum = l.countP f := by
  induction l with
  | nil => rfl
  | cons o l ih =>
    rw [countP_cons, ← ih]
    cases hop : o.queueOp src snk with
    | none =>
      have hno : f o = false := by
        rw [Bool.eq_false_iff, Ne, hf]
        simp [hop]
      simp [queueOps, hop, hno]
    | some op =>
      rw [queueOps_cons hop, map_cons, sum_cons, Nat.add_comm]
      congr 1
      by_cases ho : f o = true
      · obtain ⟨woke, he⟩ := (hf o).mp ho
        rw [hop] at he
        cases he
        simp [Op.completes, ho]
      · have hne : ∀ woke, op ≠ .done s woke := fun woke he => ho ((hf o).mpr ⟨woke, he ▸ hop⟩)
        cases op with
        | wait => simp [Op.completes, ho]
        | done t woke =>
          have hts : t ≠ s := fun he => hne woke (by rw [he])
          simp [Op.completes, ho, hts]

theorem isDone_iff (s : Side) (o : Obs) :
    (match s with
      | .push => o.isPush src snk
      | .pop => o.isPop src snk) = true ↔ ∃ woke, o.queueOp src snk = some (.done s woke) := by
  constructor
  · intro h
    cases s <;> cases o <;> first
      | exact ⟨_, if_pos (by simpa [isPush, isPop] using h)⟩
      | cases h
  · rintro ⟨woke, h⟩
    obtain ⟨t, rfl⟩ := eq_doneAt h
    cases s <;> simp [doneAt, Obs.served, engineAt, isPush, isPop, Side.other]

structure QueueSafe (w : World) (src snk : TREId) (q : TREQueue) : Prop where
  bound : q.q.length ≤ q.size
  count : q.q.length + w.log.countP (Obs.isPop src snk) = w.log.countP (Obs.isPush src snk)
  exclusive : q.waitingToPush = none ∨ q.waitingToPop = none
  full : q.waitingToPush ≠ none → q.q.length = q.size
  empty : q.waitingToPop ≠ none → q.q.length = 0
  pushWoken : ∀ l₁ l₂ woken l₃,
    w.log = l₁ ++ .pushWait src snk :: (l₂ ++ .popped snk src woken :: l₃) →
    (∀ t, .popped snk src t ∉ l₂) → woken = some src
  popWoken : ∀ l₁ l₂ woken l₃,
    w.log = l₁ ++ .popWait snk src :: (l₂ ++ .pushed src snk woken :: l₃) →
    (∀ t, .pushed src snk t ∉ l₂) → woken = some snk
  pushRetry : ∀ l₁ l₂ o l₃, w.log = l₁ ++ .popped snk src (some src) :: (l₂ ++ o :: l₃) →
    (∀ e ∈ l₂, e.queueSide src snk ≠ some .push) → o.queueSide src snk = some .push →
    ∃ t, o = .pushed src snk t
  popRetry : ∀ l₁ l₂ o l₃, w.log = l₁ ++ .pushed src snk (some snk) :: (l₂ ++ o :: l₃) →
    (∀ e ∈ l₂, e.queueSide src snk ≠ some .pop) → o.queueSide src snk = some .pop →
    ∃ t, o = .popped snk src t

theorem side_ne_of_mem {l : List Obs} (h : ∀ e ∈ l, e.queueSide src snk ≠ some s) :
    ∀ op ∈ queueOps src snk l, op.side ≠ s := by
  intro op hop hs
  obtain ⟨o, ho, hq⟩ := mem_filterMap.mp hop
  exact h o ho (by rw [queueSide, hq, map_some, hs])

namespace ChannelAt

variable {c : Channel} {l₁ l₂ l₃ : List Obs}

theorem wakes_next (hc : ChannelAt w src snk q c) (s : Side) {woken : Option TREId}
    (hlog : w.log = l₁ ++ waitAt src snk s :: (l₂ ++ doneAt src snk woken s.other :: l₃))
    (hno : ∀ t, doneAt src snk t s.other ∉ l₂) : woken = some (engineAt src snk s) := by
  have hist := hc.history
  rw [hlog, queueOps_append, queueOps_cons queueOp_waitAt, queueOps_append,
    queueOps_cons (queueOp_doneAt woken)] at hist
  have hsome := woken_next hist fun b hb => by
    obtain ⟨o, ho, hop⟩ := mem_filterMap.mp hb
    obtain ⟨t, rfl⟩ := eq_doneAt hop
    exact hno t ho
  obtain ⟨t, rfl⟩ := Option.isSome_iff_exists.mp hsome
  rw [hc.woken s.other t (by simp [hlog]), Side.other_other]

theorem retries (hc : ChannelAt w src snk q c) (s : Side)
    (hlog : w.log = l₁ ++ doneAt src snk (some (engineAt src snk s)) s.other :: (l₂ ++ o :: l₃))
    (hno : ∀ e ∈ l₂, e.queueSide src snk ≠ some s) (ho : o.queueSide src snk = some s) :
    ∃ t, o = doneAt src snk t s := by
  obtain ⟨op, hop, hside⟩ := map_eq_some_iff.mp ho
  have hist := hc.history
  rw [hlog, queueOps_append, queueOps_cons (queueOp_doneAt _), queueOps_append,
    queueOps_cons hop] at hist
  obtain ⟨woke, rfl⟩ := retry_completes hist (side_ne_of_mem hno) hside
  exact eq_doneAt hop

theorem safe (hc : ChannelAt w src snk q c) (hd : 1 ≤ q.size) : QueueSafe w src snk q := by
  have hitems := hc.items
  have hfree := hc.free
  refine ⟨by omega, ?_, ?_, fun hw => ?_, fun hw => ?_, fun _ _ _ _ => hc.wakes_next .push,
    fun _ _ _ _ => hc.wakes_next .pop, fun _ _ _ _ => hc.retries .push,
    fun _ _ _ _ => hc.retries .pop⟩
  · have hbal := items_eq hc.history
    rw [sum_completes (isDone_iff .pop), sum_completes (isDone_iff .push), hitems] at hbal
    simpa [Channel.empty] using hbal
  · have hnot := not_both_waiting (c := c) (by omega)
    rw [hc.waits, hc.waits] at hnot
    by_cases hp : q.waitingToPush = none
    · exact .inl hp
    · exact .inr (not_not.mp fun hq => hnot ⟨hp, hq⟩)
  · exact hc.drained_iff.mpr (c.drained .push ((hc.waits _).mpr hw))
  · exact hc.drained_iff.mpr (c.drained .pop ((hc.waits _).mpr hw))

end ChannelAt

theorem Executes.serve_wakes {e : Event} {os : List Obs} {s : TRE} {env : Env} (side : Side)
    (hx : Executes w i (queuePrim side) e os s) (hs : Sane cfg w loc) (hi : Calm i w.log)
    (hother : Calm s.data w.log) (hq : w.queues (queueKey i s.data side) = some q)
    (hz : ¬ q.Drained side) (hw : q.slot side.other = some s.data) :
    ∃ w', step w (.fire i e, env) = .ok w' ∧
      (w'.tre s.data).scheduled (.prim (queuePrim side.other)) = true ∧
      w'.waiter side.other (queueKey i s.data side) = none := by
  have hv := hx.sane hs _ (hx.calm hother)
  have hi := hx.sound hs hi
  have hslot : (w.starting i os s).waiter side.other (queueKey i s.data side) = some s.data :=
    (waiter_eq (w := w.starting i os s) hq _).trans hw
  obtain ⟨_, hℓ, -⟩ := (hv.registered.slot _ _).mp hslot
  have hne : s.data ≠ i := by
    intro he
    rw [he, Function.update_self] at hℓ
    cases hℓ
  have hprim :
      ((w.starting i os s).tre s.data).scheduled (.prim (queuePrim side.other)) = false := by
    rw [Bool.eq_false_iff]
    intro hc
    exact nomatch hℓ.symm.trans ((hv.placed.prim _).mp hc)
  have hsi : (w.starting i os s).tre i = s := by simp [starting]
  have htick : s.scheduled .tick = false := by
    have hpl := hi.placed
    rw [hsi] at hpl
    exact (hpl.idle rfl).tick
  set v := (((w.starting i os s).set s.data (((w.starting i os s).tre s.data).setFlag
    (.prim (queuePrim side.other)) true)).setQueue (queueKey i s.data side) (q.serve side)).emit
    (.served i s.data (some s.data) side) with hv'
  have hvi : v.tre i = s := by simp [hv', Ne.symm hne, hsi]
  refine ⟨v.set i (clearData (v.tre i).ticking), ?_, ?_, ?_⟩
  · rw [hx.step_eq]
    have hqv : (w.starting i os s).queues (queueKey i s.data side) = some q := hq
    cases side <;>
    · simp only [queuePrim, queueKey, TREQueue.slot, Side.other, Drained] at hqv hw hz hprim
      simp only [queuePrim, runPrim, push, pop, hsi, hqv, demand, ok_bind, if_neg hz, release, hw,
        schedule, hprim, Bool.false_eq_true, if_false]
      exact proceed_eq_ok.mpr ⟨by rw [← hvi] at htick; exact htick, rfl⟩
  · simp [hne, hv']
  · simp [hv', waiter, serve_slot]

theorem queue_replay (hw : Reachable cfg w) (hsrc : Calm src w.log) (hsnk : Calm snk w.log)
    (hq : w.queues (src, snk) = some q) :
    QueueSafe w src snk q ∧
    (∀ i, i = src ∨ i = snk → ∃ done rest, entries (w.tre i).trace = done ++ rest ∧
      List.Forall₂ Realises (effects i w.log) done ∧ (Obs.halted i ∈ w.log → rest = [])) ∧
    (∀ e os s env, Executes w snk .pop e os s → s.data = src → q.q.length ≠ 0 →
      q.waitingToPush = some src → ∃ w', step w (.fire snk e, env) = .ok w' ∧
        (w'.tre src).scheduled (.prim .push) = true ∧ w'.pushSlot (src, snk) = none) ∧
    ∀ e os s env, Executes w src .push e os s → s.data = snk → q.q.length ≠ q.size →
      q.waitingToPop = some snk → ∃ w', step w (.fire src e, env) = .ok w' ∧
        (w'.tre snk).scheduled (.prim .pop) = true ∧ w'.popSlot (src, snk) = none := by
  obtain ⟨loc, -, hsane, hinv⟩ := hw.queueInv src snk
  have hi := hinv hsrc hsnk
  obtain ⟨c, hc⟩ := hi.refines q hq
  refine ⟨hc.safe (hi.depth q hq), fun i hi => ?_, fun e os s env hx hd hne hwait => ?_,
    fun e os s env hx hd hne hwait => ?_⟩
  · have hcalm : Calm i w.log := by rcases hi with rfl | rfl <;> assumption
    have hs := hsane i hcalm
    obtain ⟨done, hd, hr⟩ := hs.ordered.order
    refine ⟨done, _, hd, hr, fun hh => ?_⟩
    rw [hs.registered.halted.mp hh]
    rfl
  · subst hd
    exact hx.serve_wakes .pop hsane hsnk hsrc hq hne hwait
  · subst hd
    exact hx.serve_wakes .push hsane hsrc hsnk hq hne hwait

def channelSystem (trace₀ trace₁ trace₂ : List String) : Config where
  engines := [⟨0, 1, 4, some trace₀⟩, ⟨1, 1, 4, some trace₁⟩, ⟨2, 1, 4, some trace₂⟩]
  atomic := false
  connections := [(1, 2)]
  distinct := by simp

def threePushes : List String := ["PUSH", "2", "0", "PUSH", "2", "0", "PUSH", "2", "0", "EOF"]

def twoPops : List String := ["POP", "1", "0", "POP", "1", "0", "EOF"]

/-- The source waits for a place until the sink pops. -/
theorem queue_replay_full :
    ∃ w q, Reachable (channelSystem ["EOF"] threePushes twoPops) w ∧ Calm 1 w.log ∧ Calm 2 w.log ∧
      w.queues (1, 2) = some q ∧ q.waitingToPush = some 1 ∧ QueueSafe w 1 2 q ∧
      (∀ i, i = 1 ∨ i = 2 → ∃ done rest, entries (w.tre i).trace = done ++ rest ∧
        List.Forall₂ Realises (effects i w.log) done ∧ (Obs.halted i ∈ w.log → rest = [])) ∧
      (∀ e os s env, Executes w 2 .pop e os s → s.data = 1 → q.q.length ≠ 0 →
        q.waitingToPush = some 1 → ∃ w', step w (.fire 2 e, env) = .ok w' ∧
          (w'.tre 1).scheduled (.prim .push) = true ∧ w'.pushSlot (1, 2) = none) ∧
      ∀ e os s env, Executes w 1 .push e os s → s.data = 2 → q.q.length ≠ q.size →
        q.waitingToPop = some 2 → ∃ w', step w (.fire 1 e, env) = .ok w' ∧
          (w'.tre 2).scheduled (.prim .pop) = true ∧ w'.popSlot (1, 2) = none := by
  have hrun : Runs.Ends step (boot (channelSystem ["EOF"] threePushes twoPops))
      [(.fire 1 .tick, {}), (.fire 1 .tick, {})]
      (fun w => w.log = [.ticked 1, .pushed 1 2 none, .ticked 1, .pushWait 1 2] ∧
        w.queues (1, 2) = some ⟨[0], 1, some 1, none⟩) := by decide +kernel
  obtain ⟨w, hw, hlog, hq⟩ := hrun.reachable
  have hcalm : ∀ j, Calm j w.log := fun j => .of_forall_ne (by simp [hlog])
  exact ⟨w, _, hw, hcalm 1, hcalm 2, hq, rfl, queue_replay hw (hcalm 1) (hcalm 2) hq⟩

/-- The third engine wakes the source out of its wait for a place. The source halts in the end, but
only two of its three PUSH entries were carried out and no retry is left. -/
theorem push_lost_by_wake :
    "SLEEP" ∉ threePushes ∧ "WAKE" ∉ threePushes ∧ "SLEEP" ∉ twoPops ∧ "WAKE" ∉ twoPops ∧
    (entries threePushes).length = 3 ∧
    ∃ w, Reachable (channelSystem wakeTrace threePushes twoPops) w ∧ Obs.halted 1 ∈ w.log ∧
      (effects 1 w.log).length = 2 ∧ w.log.countP (Obs.isPush 1 2) = 2 ∧
      w.pushSlot (1, 2) = none ∧ (w.tre 1).scheduled (.prim .push) = false := by
  refine ⟨by decide, by decide, by decide, by decide, by decide +kernel, ?_⟩
  have hrun : Runs.Ends step (boot (channelSystem wakeTrace threePushes twoPops))
      [(.fire 1 .tick, {}), (.fire 1 .tick, {}), (.fire 0 .tick, {}), (.fire 1 .tick, {}),
        (.fire 2 .tick, {}), (.fire 1 (.prim .push), {}), (.fire 1 .tick, {})]
      (fun w => halted 1 ∈ w.log ∧ (effects 1 w.log).length = 2 ∧
        w.log.countP (isPush 1 2) = 2 ∧ w.pushSlot (1, 2) = none ∧
        (w.tre 1).scheduled (.prim .push) = false) := by decide +kernel
  exact hrun.reachable

end HetSim.Replay
