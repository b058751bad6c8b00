import HetSim.Mshr.Delivery
import HetSim.Mshr.Queue

/-!
# The lists of the queue

Every entry is free or allocated; the allocated ones are in the ready list, at the iterator they
hold, or in service. A register without targets has flags that are reset.
-/

namespace HetSim.Mshr
open Address (Addr)
open Checked Handles Memory Runs List Function TargetList MSHRQueue Entry

variable {m m' : MSHR} {l : TargetList} {pkt pkt' : Packet} {order : ℕ}
  {readyTime curTick : Tick} {b allocOnFill : Bool} {out : List Target}

/-! ## Registers -/

def Tidy (l : TargetList) : Prop := l.list = [] → l.isReset = true

theorem tidy_add {source : Source} : Tidy (l.add pkt readyTime order source b allocOnFill) := by
  intro hnil
  rw [add_list] at hnil
  exact absurd hnil (by simp)

variable {blkAddr : Addr} {blkSize p : ℕ}

theorem tidy_init : Tidy (l.init blkAddr blkSize) := fun _ => rfl

theorem tidy_populateFlags : Tidy l.populateFlags := by
  intro hnil
  rw [populateFlags_list] at hnil
  rw [populateFlags, hnil]
  rfl

theorem Tidy.replaceUpgrades (h : Tidy l) : Tidy l.replaceUpgrades := by
  intro hnil
  have hkeys : l.replaceUpgrades.keys = [] := by rw [TargetList.keys, hnil, map_nil]
  have hlist : l.list = [] := by
    rwa [replaceUpgrades_keys, TargetList.keys, map_eq_nil_iff] at hkeys
  have hreset := h hlist
  rw [TargetList.replaceUpgrades]
  split_ifs
  · exact hreset
  · simp only [TargetList.isReset, Bool.and_eq_true, Bool.not_eq_true'] at hreset ⊢
    tauto

structure Keeps (m m' : MSHR) : Prop where
  inService : m'.inService = m.inService
  tidy : Tidy m.deferredTargets → Tidy m'.deferredTargets

theorem Applied.keeps {op : Op} (h : Applied m op m' out) : Keeps m m' := by
  cases h with
  | deferred => exact ⟨rfl, fun _ => tidy_add⟩
  | snooped _ hdeferred _ | saved _ hdeferred _ =>
    refine ⟨rfl, fun htidy => ?_⟩
    rcases hdeferred with rfl | rfl
    · exact htidy
    · exact htidy.replaceUpgrades
  | spliced => exact ⟨rfl, fun _ => tidy_populateFlags⟩
  | promoted _ hpromote =>
    simp only [MSHR.promoteIf, bind_eq_ok] at hpromote
    obtain ⟨⟨⟩, -, n, -, hpromote⟩ := hpromote
    cases hpromote
    exact ⟨rfl, fun _ => tidy_populateFlags⟩
  | added | extracted | drained | idle | popped | pending | cleared | forward => exact ⟨rfl, id⟩

theorem allocate_ok (h : m.allocate blkAddr blkSize pkt readyTime order allocOnFill = .ok m') :
    m'.inService = false ∧ Tidy m'.deferredTargets := by
  simp only [MSHR.allocate, bind_eq_ok, pure_eq_ok] at h
  obtain ⟨front, -, ⟨⟩, -, rfl⟩ := h
  exact ⟨rfl, tidy_init⟩

theorem markInService_ok (h : m.markInService b = .ok m') :
    m'.inService = true ∧ m'.deferredTargets = m.deferredTargets := by
  simp only [MSHR.markInService, bind_eq_ok, pure_eq_ok] at h
  obtain ⟨⟨⟩, -, rfl⟩ := h
  exact ⟨rfl, rfl⟩

theorem markPending_ok (h : m.markPending = .ok m') :
    m.inService = true ∧ m'.inService = false ∧ m'.deferredTargets = m.deferredTargets := by
  simp only [MSHR.markPending, bind_eq_ok, require_eq_ok, pure_eq_ok] at h
  obtain ⟨⟨⟩, hservice, rfl⟩ := h
  exact ⟨hservice, rfl, rfl⟩

theorem delay_ok {delayTicks : Tick} (h : m.delay curTick delayTicks = .ok m') :
    m'.inService = m.inService ∧ m'.deferredTargets = m.deferredTargets := by
  simp only [MSHR.delay, bind_eq_ok, pure_eq_ok] at h
  obtain ⟨⟨⟩, -, rfl⟩ := h
  exact ⟨rfl, rfl⟩

theorem deallocate_ok (h : m.deallocate = .ok m') :
    m'.inService = false ∧ m'.deferredTargets = m.deferredTargets := by
  simp only [MSHR.deallocate, bind_eq_ok, pure_eq_ok] at h
  obtain ⟨⟨⟩, -, ⟨⟩, -, rfl⟩ := h
  exact ⟨rfl, rfl⟩

/-! ## The queue -/

variable {numEntries : ℕ} {q q' : MSHRQueue numEntries} {e : Fin numEntries}

def MSHRQueue.serving (q : MSHRQueue numEntries) (e : Fin numEntries) : Bool :=
  (q.entries e).mshr.inService

structure ListsOk (q : MSHRQueue numEntries) : Prop where
  partition : (q.freeList ++ values q.allocatedList).Perm (List.finRange numEntries)
  allocated : q.allocated = q.allocatedList.length
  alloc : Linked q.fresh (Entry.allocIter ∘ q.entries) q.allocatedList
  ready : Linked q.fresh (Entry.readyIter ∘ q.entries) q.readyList
  inService : q.numInService = (values q.allocatedList).countP q.serving
  idle : ∀ e ∈ q.freeList, q.serving e = false
  tidy : ∀ e, Tidy (q.entries e).mshr.deferredTargets

structure QueueOk (q : MSHRQueue numEntries) : Prop extends ListsOk q where
  waiting : ∀ e, e ∈ values q.readyList ↔ e ∈ values q.allocatedList ∧ q.serving e = false

theorem queueOk_init (requested reserve : ℕ) : QueueOk (MSHRQueue.init requested reserve) where
  partition := by
    rw [MSHRQueue.init]
    exact (append_nil _).symm ▸ List.Perm.refl _
  allocated := rfl
  alloc := .nil fun _ => one_pos
  ready := .nil fun _ => one_pos
  waiting := fun e => by simp [MSHRQueue.init, values]
  inService := rfl
  idle := fun _ _ => rfl
  tidy := fun _ _ => rfl

section Parts

theorem setMshr_allocIter : allocIter ∘ (q.setMshr e m).entries = allocIter ∘ q.entries := by
  rw [setMshr, comp_update]
  exact update_eq_self e _

theorem setMshr_readyIter : readyIter ∘ (q.setMshr e m).entries = readyIter ∘ q.entries := by
  rw [setMshr, comp_update]
  exact update_eq_self e _

theorem setMshr_serving : (q.setMshr e m).serving = update q.serving e m.inService := by
  exact comp_update (fun x : Entry => x.mshr.inService) ..

theorem setMshr_tidy (h : ∀ x, Tidy (q.entries x).mshr.deferredTargets)
    (hm : Tidy m.deferredTargets) (x : Fin numEntries) :
    Tidy ((q.setMshr e m).entries x).mshr.deferredTargets := by
  by_cases hx : x = e
  · subst hx
    simpa [setMshr] using hm
  · simpa [setMshr, hx] using h x

theorem insertReady_serving : (q.insertReady p e).serving = q.serving := by
  have hserving := comp_update (fun x : Entry => x.mshr.inService) q.entries e
    { q.entries e with readyIter := q.fresh }
  exact hserving.trans (update_eq_self e q.serving)

theorem insertReady_values {x : Fin numEntries} :
    x ∈ values (q.insertReady p e).readyList ↔ x = e ∨ x ∈ values q.readyList := by
  have hperm : (q.readyList.take p ++ ⟨q.fresh, e⟩ :: q.readyList.drop p).Perm
      (⟨q.fresh, e⟩ :: q.readyList) := by
    conv_rhs => rw [← take_append_drop p q.readyList]
    exact perm_middle
  exact ((hperm.map Node.value).mem_iff).trans mem_cons

theorem ListsOk.insertReady (h : ListsOk q) (he : e ∉ values q.readyList) :
    ListsOk (q.insertReady p e) := by
  refine ⟨h.partition, h.allocated, ?_, ?_, ?_, ?_, ?_⟩
  · rw [MSHRQueue.insertReady, comp_update]
    exact (update_eq_self e (Entry.allocIter ∘ q.entries)).symm ▸ h.alloc.mono (Nat.le_succ _)
  · rw [MSHRQueue.insertReady, comp_update]
    apply Linked.insert
    · rw [take_append_drop]
      exact h.ready
    · rwa [take_append_drop]
  · rw [insertReady_serving]
    exact h.inService
  · rw [insertReady_serving]
    exact h.idle
  · intro x
    by_cases hx : x = e
    · subst hx
      simpa [MSHRQueue.insertReady] using h.tidy x
    · simpa [MSHRQueue.insertReady, hx] using h.tidy x

theorem eraseReady_ok (herase : q.eraseReady e = .ok q')
    (h : Linked q.fresh (readyIter ∘ q.entries) q.readyList) :
    e ∈ values q.readyList ∧ ∃ readyList, q' = { q with readyList } ∧
      Linked q.fresh (readyIter ∘ q.entries) readyList ∧
      values readyList = (values q.readyList).erase e := by
  simp only [eraseReady, bind_eq_ok, require_eq_ok, pure_eq_ok] at herase
  obtain ⟨⟨⟩, hmem, rfl⟩ := herase
  exact ⟨h.mem_ids.mp hmem, _, rfl, h.erase e, h.values_erase e⟩

theorem countP_update {f : Fin numEntries → Bool} {es : List (Fin numEntries)} (he : e ∉ es) :
    es.countP (update f e b) = es.countP f := by
  apply countP_congr
  intro x hx
  rw [update_of_ne]
  rintro rfl
  exact he hx

theorem countP_split {f : Fin numEntries → Bool} {es : List (Fin numEntries)} (he : e ∈ es) :
    es.countP f = (es.erase e).countP f + if f e then 1 else 0 := by
  rw [(perm_cons_erase he).countP_eq, countP_cons]

end Parts

theorem ListsOk.rearrange {readyList : List (Node (Fin numEntries))} (h : ListsOk q)
    (hready : Linked q.fresh (readyIter ∘ q.entries) readyList) :
    ListsOk { q with readyList } :=
  ⟨h.partition, h.allocated, h.alloc, hready, h.inService, h.idle, h.tidy⟩

theorem ListsOk.nodup (h : ListsOk q) : (values q.allocatedList).Nodup :=
  (nodup_append.mp (h.partition.nodup_iff.mpr (nodup_finRange _))).2.1

theorem ListsOk.mem_iff (h : ListsOk q) : e ∉ q.freeList ↔ e ∈ values q.allocatedList := by
  have hnodup := h.partition.nodup_iff.mpr (nodup_finRange _)
  have hmem := h.partition.mem_iff.mpr (mem_finRange e)
  rw [mem_append] at hmem
  constructor
  · exact hmem.resolve_left
  · intro halloc hfree
    exact (nodup_append.mp hnodup).2.2 e hfree e halloc rfl

theorem ListsOk.serve (h : ListsOk q) (halloc : e ∈ values q.allocatedList)
    (htidy : Tidy m.deferredTargets) {k : ℤ}
    (hk : k + (if q.serving e then 1 else 0) = q.numInService + if m.inService then 1 else 0) :
    ListsOk { q.setMshr e m with numInService := k } := by
  have hnotin : e ∉ (values q.allocatedList).erase e := h.nodup.not_mem_erase
  refine ⟨h.partition, h.allocated, ?_, ?_, ?_, ?_, setMshr_tidy h.tidy htidy⟩
  · change Linked _ (allocIter ∘ (q.setMshr e m).entries) _
    rw [setMshr_allocIter]
    exact h.alloc
  · change Linked _ (readyIter ∘ (q.setMshr e m).entries) _
    rw [setMshr_readyIter]
    exact h.ready
  · change k = ((values q.allocatedList).countP (q.setMshr e m).serving : ℕ)
    have hold := h.inService
    rw [countP_split halloc] at hold
    rw [setMshr_serving, countP_split halloc, countP_update hnotin, update_self]
    push_cast at hold ⊢
    omega
  · intro x hx
    have hne : x ≠ e := fun heq => h.mem_iff.mpr halloc (heq ▸ hx)
    change (q.setMshr e m).serving x = false
    rw [setMshr_serving, update_of_ne hne]
    exact h.idle x hx

namespace QueueOk

variable (h : QueueOk q)
include h

theorem setMshr (hservice : m.inService = q.serving e) (htidy : Tidy m.deferredTargets) :
    QueueOk (q.setMshr e m) := by
  have hserving : (q.setMshr e m).serving = q.serving := by
    rw [setMshr_serving, hservice, update_eq_self]
  refine ⟨⟨h.partition, h.allocated, ?_, ?_, ?_, ?_, setMshr_tidy h.tidy htidy⟩, ?_⟩
  · rw [setMshr_allocIter]
    exact h.alloc
  · rw [setMshr_readyIter]
    exact h.ready
  · rw [hserving]
    exact h.inService
  · rw [hserving]
    exact h.idle
  · rw [hserving]
    exact h.waiting

theorem moveToFront (hmove : q.moveToFront e = .ok q') : QueueOk q' := by
  rw [MSHRQueue.moveToFront] at hmove
  split_ifs at hmove
  · simp only [bind_eq_ok, pure_eq_ok] at hmove
    obtain ⟨node, -, ⟨⟩, -, q₁, herase, rfl⟩ := hmove
    obtain ⟨hmem, readyList, rfl, hready, hvalues⟩ := eraseReady_ok herase h.ready
    have hout : e ∉ values readyList := by
      rw [hvalues]
      exact h.ready.nodup.not_mem_erase
    refine ⟨(h.toListsOk.rearrange hready).insertReady hout, fun x => ?_⟩
    rw [insertReady_values, insertReady_serving]
    refine Iff.trans ?_ (h.waiting x)
    by_cases hx : x = e
    · simp [hx, hmem]
    · simp [hx, hvalues, mem_erase_of_ne hx]
  · cases hmove
    exact h

theorem delay {curTick delayTicks : Tick} (hdelay : q.delay e curTick delayTicks = .ok q') :
    QueueOk q' := by
  simp only [MSHRQueue.delay, bind_eq_ok] at hdelay
  obtain ⟨m₁, hm₁, hdelay⟩ := hdelay
  obtain ⟨hservice, hdeferred⟩ := delay_ok hm₁
  have hset : QueueOk (q.setMshr e m₁) := h.setMshr hservice (hdeferred ▸ h.tidy e)
  generalize q.setMshr e m₁ = q₁ at hset hdelay
  cases hdrop : q₁.readyList.dropWhile (·.id ≠ (q₁.entries e).readyIter) with
  | nil =>
    rw [hdrop] at hdelay
    cases hdelay
  | cons node rest =>
    rw [hdrop] at hdelay
    dsimp only at hdelay
    split_ifs at hdelay
    · cases hdelay
      exact hset
    · cases hdelay
      have hperm : ∀ n, (q₁.readyList.takeWhile (·.id ≠ (q₁.entries e).readyIter) ++ rest.take n ++
          node :: rest.drop n).Perm q₁.readyList := by
        intro n
        conv_rhs => rw [← takeWhile_append_dropWhile
          (p := (·.id ≠ (q₁.entries e).readyIter)) (l := q₁.readyList), hdrop,
          ← take_append_drop n rest]
        rw [append_assoc]
        exact List.Perm.append_left _ perm_middle
      refine ⟨hset.toListsOk.rearrange (hset.ready.perm (hperm _)), fun x => ?_⟩
      exact (((hperm _).map Node.value).mem_iff).trans (hset.waiting x)

theorem serving_of_mem (he : e ∈ values q.readyList) :
    e ∈ values q.allocatedList ∧ q.serving e = false := (h.waiting e).mp he

theorem markInService (hmark : q.markInService e b = .ok q') : QueueOk q' := by
  simp only [MSHRQueue.markInService, bind_eq_ok, pure_eq_ok] at hmark
  obtain ⟨m₁, hm₁, q₁, herase, rfl⟩ := hmark
  obtain ⟨hservice, hdeferred⟩ := markInService_ok hm₁
  obtain ⟨hmem, readyList, rfl, hready, hvalues⟩ := eraseReady_ok herase
    (by rw [setMshr_readyIter]; exact h.ready)
  obtain ⟨halloc, hidle⟩ := h.serving_of_mem hmem
  have hlists : ListsOk { q.setMshr e m₁ with numInService := q.numInService + 1 } :=
    h.toListsOk.serve halloc (hdeferred ▸ h.tidy e) (by rw [hidle, hservice]; simp)
  refine ⟨hlists.rearrange hready, fun x => ?_⟩
  change x ∈ values readyList ↔ x ∈ values q.allocatedList ∧ (q.setMshr e m₁).serving x = false
  rw [hvalues, setMshr_serving, hservice]
  by_cases hx : x = e
  · subst hx
    simp [h.ready.nodup.not_mem_erase, MSHRQueue.setMshr]
  · rw [mem_erase_of_ne hx, update_of_ne hx]
    exact h.waiting x

theorem markPending (hmark : q.markPending e = .ok q') : QueueOk q' := by
  simp only [MSHRQueue.markPending, bind_eq_ok, pure_eq_ok] at hmark
  obtain ⟨m₁, hm₁, rfl⟩ := hmark
  obtain ⟨hserve, hservice, hdeferred⟩ := markPending_ok hm₁
  have hserve : q.serving e = true := hserve
  have halloc : e ∈ values q.allocatedList := by
    rw [← h.mem_iff]
    intro hfree
    rw [h.idle e hfree] at hserve
    exact Bool.false_ne_true hserve
  have hout : e ∉ values q.readyList := by
    rw [h.waiting, hserve]
    exact fun hand => Bool.false_ne_true hand.2.symm
  have hlists : ListsOk { q.setMshr e m₁ with numInService := q.numInService - 1 } :=
    h.toListsOk.serve halloc (hdeferred ▸ h.tidy e) (by rw [hserve, hservice]; simp)
  refine ⟨hlists.insertReady hout, fun x => ?_⟩
  rw [addToReadyList, insertReady_values, insertReady_serving]
  change x = e ∨ x ∈ values q.readyList ↔
    x ∈ values q.allocatedList ∧ (q.setMshr e m₁).serving x = false
  rw [setMshr_serving, hservice]
  by_cases hx : x = e
  · simp [hx, halloc]
  · rw [update_of_ne hx, ← h.waiting]
    simp [hx]

theorem unlink (halloc : e ∈ values q.allocatedList) :
    (e :: q.freeList ++ (values q.allocatedList).erase e).Perm (List.finRange numEntries) ∧
      (q.allocated - 1 : ℤ) = (q.allocatedList.filter (·.id ≠ (q.entries e).allocIter)).length := by
  constructor
  · refine List.Perm.trans ?_ h.partition
    have hperm := (perm_cons_erase halloc).symm.append_left q.freeList
    exact perm_middle.symm.trans hperm
  · have hlength := congrArg List.length (h.alloc.values_erase e)
    rw [length_erase_of_mem halloc, values, values, length_map, length_map] at hlength
    have hpos : 0 < q.allocatedList.length := by
      have := length_pos_of_mem halloc
      rwa [values, length_map] at this
    have hfilter : (q.allocatedList.filter (·.id ≠ (q.entries e).allocIter)).length =
        q.allocatedList.length - 1 := hlength
    rw [h.allocated, hfilter]
    omega

theorem deallocate (hfree : q.deallocate e = .ok q') : QueueOk q' := by
  simp only [MSHRQueue.deallocate, bind_eq_ok, require_eq_ok, pure_eq_ok] at hfree
  obtain ⟨⟨⟩, hmem, q₁, hleave, m₁, hm₁, rfl⟩ := hfree
  obtain ⟨hservice, hdeferred⟩ := deallocate_ok hm₁
  have halloc : e ∈ values q.allocatedList := h.alloc.mem_ids.mp hmem
  obtain ⟨hpartition, hlength⟩ := h.unlink halloc
  have hvalues : values (q.allocatedList.filter (·.id ≠ (q.entries e).allocIter)) =
      (values q.allocatedList).erase e := h.alloc.values_erase e
  have hnotin : e ∉ (values q.allocatedList).erase e := h.nodup.not_mem_erase
  have hcount := h.inService
  rw [countP_split halloc] at hcount
  -- The entry is out of the ready list, or no longer counted.
  have hleft : ∃ readyList k, q₁ = { q with
        allocatedList := q.allocatedList.filter (·.id ≠ (q.entries e).allocIter)
        freeList := e :: q.freeList
        allocated := q.allocated - 1
        readyList
        numInService := k } ∧
      Linked q.fresh (readyIter ∘ q.entries) readyList ∧
      values readyList = (values q.readyList).erase e ∧
      k = ((values q.allocatedList).erase e).countP q.serving := by
    rw [leave] at hleave
    split_ifs at hleave with hserve
    · have hserve : q.serving e = true := hserve
      cases hleave
      refine ⟨q.readyList, _, rfl, h.ready, ?_, ?_⟩
      · rw [erase_of_not_mem]
        rw [h.waiting, hserve]
        exact fun hand => Bool.false_ne_true hand.2.symm
      · rw [hserve] at hcount
        simp at hcount ⊢
        omega
    · have hserve : q.serving e = false := Bool.eq_false_iff.mpr hserve
      obtain ⟨-, readyList, rfl, hready, hvalues⟩ := eraseReady_ok hleave h.ready
      refine ⟨readyList, q.numInService, rfl, hready, hvalues, ?_⟩
      rw [hserve] at hcount
      simpa using hcount
  obtain ⟨readyList, k, rfl, hready, hreadyValues, hk⟩ := hleft
  refine ⟨⟨?_, hlength, ?_, ?_, ?_, ?_, setMshr_tidy h.tidy (hdeferred ▸ h.tidy e)⟩, ?_⟩
  · exact hvalues.symm ▸ hpartition
  · rw [setMshr_allocIter]
    exact h.alloc.erase e
  · rw [setMshr_readyIter]
    exact hready
  · rw [setMshr_serving]
    change k = (((values (q.allocatedList.filter (·.id ≠ (q.entries e).allocIter))).countP
      (update q.serving e _) : ℕ) : ℤ)
    rw [hvalues, countP_update hnotin, hk]
  · intro x hx
    rw [setMshr_serving, hservice]
    change update q.serving e false x = false
    by_cases hxe : x = e
    · rw [hxe, update_self]
    · rw [update_of_ne hxe]
      exact h.idle x ((mem_cons.mp hx).resolve_left hxe)
  · intro x
    rw [setMshr_serving, hservice]
    change x ∈ values readyList ↔ x ∈ values (q.allocatedList.filter _) ∧
      update q.serving e false x = false
    rw [hreadyValues, hvalues]
    by_cases hx : x = e
    · subst hx
      simp [h.ready.nodup.not_mem_erase, hnotin]
    · rw [mem_erase_of_ne hx, mem_erase_of_ne hx, update_of_ne hx]
      exact h.waiting x

section Allocate

variable {freeList : List (Fin numEntries)} (hfree : q.freeList = e :: freeList)
  (hservice : m.inService = false)
include hfree

theorem not_mem_of_free : e ∉ values q.allocatedList ∧ e ∉ freeList := by
  have hnodup := h.partition.nodup_iff.mpr (nodup_finRange _)
  rw [hfree, cons_append, nodup_cons, mem_append, not_or] at hnodup
  exact ⟨hnodup.1.2, hnodup.1.1⟩

omit h hfree in
theorem takeFree_serving : (q.takeFree e freeList m).serving =
    update q.serving e m.inService :=
  comp_update (fun x : Entry => x.mshr.inService) ..

include hservice in
theorem takeFree (htidy : Tidy m.deferredTargets) :
    ListsOk { q.takeFree e freeList m with allocated := q.allocated + 1 } := by
  obtain ⟨hout, hnotfree⟩ := h.not_mem_of_free hfree
  have hserving : (q.takeFree e freeList m).serving = update q.serving e false :=
    hservice ▸ takeFree_serving
  refine ⟨?_, ?_, ?_, ?_, ?_, ?_, ?_⟩
  · refine List.Perm.trans ?_ (hfree ▸ h.partition)
    change (freeList ++ values (q.allocatedList ++ [Node.mk q.fresh e])).Perm _
    rw [values, map_append, ← append_assoc]
    exact perm_append_comm
  · change q.allocated + 1 = ((q.allocatedList ++ [Node.mk q.fresh e]).length : ℤ)
    rw [h.allocated, length_append]
    rfl
  · rw [MSHRQueue.takeFree, comp_update]
    exact Linked.insert ((append_nil _).symm ▸ h.alloc) ((append_nil _).symm ▸ hout)
  · rw [MSHRQueue.takeFree, comp_update]
    exact (update_eq_self e (Entry.readyIter ∘ q.entries)).symm ▸ h.ready.mono (Nat.le_succ _)
  · change q.numInService = (((values (q.allocatedList ++ [Node.mk q.fresh e])).countP
      (q.takeFree e freeList m).serving : ℕ) : ℤ)
    rw [hserving, values, map_append, countP_append, h.inService]
    change _ = ((_ + [e].countP _ : ℕ) : ℤ)
    rw [countP_singleton, update_self, ← values, countP_update hout]
    rfl
  · intro x hx
    have hne : x ≠ e := fun heq => hnotfree (heq ▸ hx)
    change (q.takeFree e freeList m).serving x = false
    rw [hserving, update_of_ne hne]
    exact h.idle x (hfree ▸ mem_cons_of_mem e hx)
  · intro x
    by_cases hx : x = e
    · subst hx
      simpa [MSHRQueue.takeFree] using htidy
    · simpa [MSHRQueue.takeFree, hx] using h.tidy x

end Allocate

theorem allocate
    (halloc : q.allocate blkAddr blkSize pkt readyTime order allocOnFill = .ok (q', e)) :
    QueueOk q' := by
  rw [MSHRQueue.allocate] at halloc
  cases hfree : q.freeList with
  | nil =>
    rw [hfree] at halloc
    cases halloc
  | cons e' freeList =>
    rw [hfree] at halloc
    simp only [bind_eq_ok, require_eq_ok] at halloc
    obtain ⟨⟨⟩, -, m₁, hm₁, halloc⟩ := halloc
    cases halloc
    obtain ⟨hservice, htidy⟩ := allocate_ok hm₁
    obtain ⟨hout, -⟩ := h.not_mem_of_free hfree
    have hnotready : e ∉ values q.readyList := fun hmem => hout (h.serving_of_mem hmem).1
    refine ⟨(h.takeFree hfree hservice htidy).insertReady hnotready, fun x => ?_⟩
    have hserving : ((q.takeFree e freeList m₁).addToReadyList e).serving =
        update q.serving e false :=
      insertReady_serving.trans (takeFree_serving.trans (by rw [hservice]))
    refine insertReady_values.trans ?_
    change x = e ∨ x ∈ values q.readyList ↔ x ∈ values (q.allocatedList ++ [Node.mk q.fresh e]) ∧
      ((q.takeFree e freeList m₁).addToReadyList e).serving x = false
    have hmem : x ∈ values (q.allocatedList ++ [Node.mk q.fresh e]) ↔
        x ∈ values q.allocatedList ∨ x = e := by
      rw [values, map_append, mem_append]
      exact or_congr Iff.rfl mem_singleton
    rw [hserving, hmem]
    by_cases hx : x = e
    · simp [hx]
    · rw [update_of_ne hx, h.waiting]
      simp [hx]

theorem forceDeallocateTarget (hforce : q.forceDeallocateTarget e curTick = .ok (q', b)) :
    QueueOk q' := by
  simp only [MSHRQueue.forceDeallocateTarget, bind_eq_ok, require_eq_ok] at hforce
  obtain ⟨⟨⟩, -, ⟨m₁, t⟩, hpop, hforce⟩ := hforce
  obtain ⟨hservice, htidy⟩ := (popTarget_applied hpop).keeps
  split_ifs at hforce
  · cases hforce
    exact h.setMshr hservice (htidy (h.tidy e))
  · simp only [bind_eq_ok] at hforce
    obtain ⟨⟨m₂, promoted⟩, hpromote, hforce⟩ := hforce
    obtain ⟨hservice', htidy'⟩ := (promoteDeferredTargets_applied hpromote).keeps
    have hset : QueueOk (q.setMshr e m₂) :=
      h.setMshr (hservice'.trans hservice) (htidy' (htidy (h.tidy e)))
    split_ifs at hforce
    · cases hforce
      exact hset
    · simp only [bind_eq_ok] at hforce
      obtain ⟨q₁, hdealloc, hforce⟩ := hforce
      cases hforce
      exact hset.deallocate hdealloc

end QueueOk

theorem call_ok {c : Call numEntries} (h : QueueOk q) (hcall : q.call c = .ok q') : QueueOk q' := by
  cases c with
  | allocate blkAddr blkSize pkt whenReady order allocOnFill =>
    simp only [call, bind_eq_ok, pure_eq_ok] at hcall
    obtain ⟨⟨q₁, e⟩, halloc, rfl⟩ := hcall
    exact h.allocate halloc
  | moveToFront e => exact h.moveToFront hcall
  | delay e curTick delayTicks => exact h.delay hcall
  | markInService e pendingModifiedResp => exact h.markInService hcall
  | markPending e => exact h.markPending hcall
  | forceDeallocateTarget e curTick =>
    simp only [call, bind_eq_ok, pure_eq_ok] at hcall
    obtain ⟨⟨q₁, b⟩, hforce, rfl⟩ := hcall
    exact h.forceDeallocateTarget hforce
  | deallocate e =>
    simp only [call, bind_eq_ok] at hcall
    obtain ⟨⟨⟩, -, hdealloc⟩ := hcall
    exact h.deallocate hdealloc
  | does e op =>
    simp only [call, bind_eq_ok, pure_eq_ok] at hcall
    obtain ⟨⟨⟩, -, ⟨m₁, out⟩, happly, rfl⟩ := hcall
    obtain ⟨hservice, htidy⟩ := (apply_applied happly).keeps
    exact h.setMshr hservice (htidy (h.tidy e))

theorem queueOk_of_reachable {requested reserve : ℕ} {q : MSHRQueue (requested + reserve)}
    (h : Reachable call (init requested reserve) q) : QueueOk q :=
  Reachable.invariant (queueOk_init requested reserve) (fun _ _ _ _ hq hcall =>
    call_ok hq hcall) q h

theorem QueueOk.isFull_iff (h : QueueOk q) : q.isFull ↔ q.freeList.length < q.numReserve + 1 := by
  have hlength := h.partition.length_eq
  rw [length_append, values, length_map, length_finRange] at hlength
  rw [isFull, decide_eq_true_iff, h.allocated]
  omega

theorem deallocate_after_promotion (htidy : Tidy m.deferredTargets)
    (h : m.promoteDeferredTargets curTick = .ok (m', false)) : ∃ m'', m'.deallocate = .ok m'' := by
  rcases promoteDeferredTargets_ok m curTick with ⟨htargets, hdeferred, hfalse⟩ | ⟨m₁, htrue, -⟩
  · rw [hfalse] at h
    cases h
    rw [MSHR.deallocate, htargets, htidy hdeferred]
    exact ⟨_, rfl⟩
  · rw [htrue] at h
    cases h

theorem QueueOk.deallocate_total (h : QueueOk q) (halloc : e ∈ values q.allocatedList)
    (hm : ∃ m, (q.entries e).mshr.deallocate = .ok m) : ∃ q', q.deallocate e = .ok q' := by
  obtain ⟨m, hm⟩ := hm
  have hiter : (q.entries e).allocIter ∈ ids q.allocatedList := h.alloc.mem_ids.mpr halloc
  rw [MSHRQueue.deallocate, require, if_pos hiter, ok_bind]
  dsimp only [MSHRQueue.leave]
  split_ifs with hserve
  · exact ⟨_, by simp only [pure_bind, hm]; rfl⟩
  · have hready : (q.entries e).readyIter ∈ ids q.readyList := by
      apply h.ready.mem_ids.mpr
      exact (h.waiting e).mpr ⟨halloc, Bool.eq_false_iff.mpr hserve⟩
    rw [eraseReady, require, if_pos hready]
    exact ⟨_, by simp only [ok_bind, pure_bind, hm]; rfl⟩

theorem QueueOk.forceDeallocateTarget_total (h : QueueOk q) (halloc : e ∈ values q.allocatedList)
    (htargets : (q.entries e).mshr.hasTargets) (curTick : Tick) :
    ∃ q' b, q.forceDeallocateTarget e curTick = .ok (q', b) := by
  obtain ⟨t, ts, hlist⟩ : ∃ t ts, (q.entries e).mshr.targets.list = t :: ts := by
    apply exists_cons_of_ne_nil
    simpa [MSHR.hasTargets] using htargets
  obtain ⟨m₁, hpop⟩ : ∃ m₁, (q.entries e).mshr.popTarget = .ok (m₁, t) := by
    rw [MSHR.popTarget, hlist]
    exact ⟨_, rfl⟩
  have hkeeps := (popTarget_applied hpop).keeps
  rw [MSHRQueue.forceDeallocateTarget, require, if_pos htargets, ok_bind, hpop, ok_bind]
  dsimp only
  split_ifs
  · exact ⟨_, _, rfl⟩
  · rcases promoteDeferredTargets_ok m₁ curTick with ⟨-, -, hpromote⟩ | ⟨m₂, hpromote, -⟩
    · have hset : QueueOk (q.setMshr e m₁) := h.setMshr hkeeps.inService (hkeeps.tidy (h.tidy e))
      have hmshr : ((q.setMshr e m₁).entries e).mshr = m₁ := by simp [MSHRQueue.setMshr]
      obtain ⟨q', hq'⟩ := hset.deallocate_total halloc (by
        rw [hmshr]
        exact deallocate_after_promotion (hkeeps.tidy (h.tidy e)) hpromote)
      rw [hpromote, ok_bind]
      dsimp only
      rw [if_neg Bool.false_ne_true, hq']
      exact ⟨_, _, rfl⟩
    · rw [hpromote]
      exact ⟨_, _, rfl⟩

/-- In every state the queue reaches, its lists and counts agree, and a register whose
targets are gone can be deallocated. -/
theorem queue_bookkeeping {requested reserve : ℕ} {q : MSHRQueue (requested + reserve)}
    (h : Reachable MSHRQueue.call (MSHRQueue.init requested reserve) q) :
    (q.freeList ++ values q.allocatedList).Perm (List.finRange (requested + reserve)) ∧
      q.allocated = q.allocatedList.length ∧
      (values q.readyList).Nodup ∧
      (∀ e, e ∈ values q.readyList ↔
        e ∈ values q.allocatedList ∧ (q.entries e).mshr.inService = false) ∧
      (∀ node ∈ q.readyList, (q.entries node.value).readyIter = node.id) ∧
      q.numInService = (values q.allocatedList).countP (fun e => (q.entries e).mshr.inService) ∧
      (q.isFull ↔ q.freeList.length < q.numReserve + 1) ∧
      (∀ e curTick m', (q.entries e).mshr.promoteDeferredTargets curTick = .ok (m', false) →
        ∃ m'', m'.deallocate = .ok m'') ∧
      ∀ e ∈ values q.allocatedList, (q.entries e).mshr.hasTargets → ∀ curTick, ∃ q' b,
        q.forceDeallocateTarget e curTick = .ok (q', b) := by
  have hq := queueOk_of_reachable h
  refine ⟨hq.partition, hq.allocated, hq.ready.nodup, hq.waiting, ?_, hq.inService, hq.isFull_iff,
    ?_, ?_⟩
  · intro node hnode
    exact (hq.ready.leads node hnode _).mpr rfl
  · intro e curTick m' hpromote
    exact deallocate_after_promotion (hq.tidy e) hpromote
  · intro e halloc htargets curTick
    exact hq.forceDeallocateTarget_total halloc htargets curTick

theorem queue_bookkeeping_full : ∃ q : MSHRQueue (2 + 0), Reachable MSHRQueue.call
      (MSHRQueue.init 2 0) q ∧ q.isFull ∧ q.freeList.length < 1 ∧ values q.readyList = [1] := by
  have hends : Ends call (init 2 0) [.allocate 64 64 aRead 3 0 true,
      .allocate 128 64 { aWrite with addr := 128 } 3 1 true, .markInService 0 false]
      (fun q => q.isFull ∧ q.numReserve = 0 ∧ values q.readyList = [1]) := by
    decide +kernel
  obtain ⟨q, hq, hfull, hreserve, hready⟩ := hends.reachable
  have hiff := (queue_bookkeeping hq).2.2.2.2.2.2.1
  rw [hreserve] at hiff
  exact ⟨q, hq, hfull, hiff.mp hfull, hready⟩

end HetSim.Mshr
