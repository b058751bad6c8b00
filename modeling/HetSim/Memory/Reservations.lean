import HetSim.Memory.AbstractMemory

/-!
# Load-locked and store-conditional

A locked address stands for a load-locked after which nobody wrote to the same 16 bytes. A store
looks for its first byte only, so this holds as long as no write crosses such a boundary.
-/

namespace HetSim.Memory
open Address (Addr AddrRange)
open Checked Runs List

namespace LockedAddr

variable {pkt : Access} {l : LockedAddr} {ls ls' : List LockedAddr}

theorem matchesContext_ok {b : Bool} : l.matchesContext pkt = .ok b ↔
    l.contextId ≠ InvalidContextID ∧ ∃ c, pkt.contextId = some c ∧ decide
      (l.contextId = c) = b := by
  simp only [matchesContext, bind_eq_ok, require_eq_ok, demand_eq_ok, pure_eq_ok, exists_const]

theorem modifyRecord_none (h : modifyRecord pkt ls = .ok none) (hl : l ∈ ls) :
    pkt.contextId ≠ some l.contextId := by
  induction ls with
  | nil => exact absurd hl not_mem_nil
  | cons k ls ih =>
    simp only [modifyRecord, bind_eq_ok, matchesContext_ok] at h
    obtain ⟨b, ⟨-, c, hc, hb⟩, h⟩ := h
    cases b with
    | true => cases h
    | false =>
      simp only [Bool.false_eq_true, if_false, bind_eq_ok, pure_eq_ok, Option.map_eq_none_iff] at h
      obtain ⟨_, h, rfl⟩ := h
      rcases mem_cons.mp hl with rfl | hl
      · rw [hc]
        exact fun heq => of_decide_eq_false hb (Option.some.inj heq).symm
      · exact ih h hl

theorem modifyRecord_some (h : modifyRecord pkt ls = .ok (some ls')) :
    ∃ c, pkt.contextId = some c ∧ ls'.map contextId = ls.map contextId ∧
      ((ls.map contextId).Nodup → ∀ l ∈ ls', l = ⟨mask pkt.addr, c⟩ ∨ l ∈ ls ∧
        l.contextId ≠ c) := by
  induction ls generalizing ls' with
  | nil => exact nomatch h
  | cons k ls ih =>
    simp only [modifyRecord, bind_eq_ok, matchesContext_ok] at h
    obtain ⟨b, ⟨-, c, hc, hb⟩, h⟩ := h
    cases b with
    | true =>
      obtain rfl : { k with addr := mask pkt.addr } :: ls = ls' := Option.some.inj (Except.ok.inj h)
      have hk : k.contextId = c := of_decide_eq_true hb
      refine ⟨c, hc, rfl, fun hnodup l hl => ?_⟩
      rcases mem_cons.mp hl with rfl | hl
      · left
        rw [hk]
      · right
        refine ⟨mem_cons_of_mem _ hl, fun heq => (nodup_cons.mp hnodup).1 ?_⟩
        rw [hk, ← heq]
        exact mem_map_of_mem hl
    | false =>
      simp only [Bool.false_eq_true, if_false, bind_eq_ok, pure_eq_ok, Option.map_eq_some_iff] at h
      obtain ⟨_, h, ls'', rfl, rfl⟩ := h
      obtain ⟨c', hc', hmap, hmem⟩ := ih h
      obtain rfl : c = c' := Option.some.inj (hc.symm.trans hc')
      refine ⟨c, hc, congrArg (k.contextId :: ·) hmap, fun hnodup l hl => ?_⟩
      rcases mem_cons.mp hl with rfl | hl
      · exact .inr ⟨mem_cons_self, of_decide_eq_false hb⟩
      · rcases hmem (nodup_cons.mp hnodup).2 l hl with heq | ⟨hl, hne⟩
        · exact .inl heq
        · exact .inr ⟨mem_cons_of_mem _ hl, hne⟩

theorem trackLoadLocked_ok (hnodup : (ls.map contextId).Nodup)
    (h : trackLoadLocked pkt ls = .ok ls') : ∃ c, pkt.contextId = some c ∧
      (ls'.map contextId).Nodup ∧ ∀ l ∈ ls', l = ⟨mask pkt.addr, c⟩ ∨ l ∈ ls ∧ l.contextId ≠ c := by
  simp only [trackLoadLocked, bind_eq_ok] at h
  obtain ⟨_ | ls'', hmodify, h⟩ := h
  · simp only [bind_eq_ok, demand_eq_ok, pure_eq_ok] at h
    obtain ⟨c, hc, rfl⟩ := h
    have hother : ∀ l ∈ ls, l.contextId ≠ c := fun l hl heq =>
      modifyRecord_none hmodify hl (by rw [hc, heq])
    refine ⟨c, hc, nodup_cons.mpr ⟨?_, hnodup⟩, fun l hl => ?_⟩
    · intro hmem
      obtain ⟨l, hl, heq⟩ := mem_map.mp hmem
      exact hother l hl heq
    · rcases mem_cons.mp hl with rfl | hl
      · exact .inl rfl
      · exact .inr ⟨hl, hother l hl⟩
  · obtain rfl : ls'' = ls' := Except.ok.inj h
    obtain ⟨c, hc, hmap, hmem⟩ := modifyRecord_some hmodify
    exact ⟨c, hc, hmap ▸ hnodup, hmem hnodup⟩

theorem findRecord_true (h : findRecord pkt ls = .ok true) :
    ∃ c, pkt.contextId = some c ∧ ⟨mask pkt.addr, c⟩ ∈ ls := by
  induction ls with
  | nil => exact nomatch h
  | cons k ls ih =>
    rw [findRecord] at h
    split_ifs at h with haddr
    · simp only [bind_eq_ok, matchesContext_ok] at h
      obtain ⟨b, ⟨-, c, hc, hb⟩, h⟩ := h
      cases b with
      | true =>
        obtain rfl : k.contextId = c := of_decide_eq_true hb
        exact ⟨k.contextId, hc, haddr ▸ mem_cons_self⟩
      | false =>
        obtain ⟨c, hc, hmem⟩ := ih h
        exact ⟨c, hc, mem_cons_of_mem _ hmem⟩
    · obtain ⟨c, hc, hmem⟩ := ih h
      exact ⟨c, hc, mem_cons_of_mem _ hmem⟩

variable {cleared : List ℤ} {r : Response} {s₀ : AbstractMemory} {es : List Access}

theorem eraseRecords_ok (h : eraseRecords pkt ls = .ok (ls', cleared)) :
    ls' = ls.filter fun l => l.addr ≠ mask pkt.addr := by
  induction ls generalizing ls' cleared with
  | nil =>
    cases h
    rfl
  | cons k ls ih =>
    rw [eraseRecords] at h
    split_ifs at h with haddr
    · simp only [bind_eq_ok, require_eq_ok] at h
      obtain ⟨-, -, ⟨ls'', cleared'⟩, hls, h⟩ := h
      obtain rfl : ls'' = ls' := congrArg Prod.fst (Except.ok.inj h)
      rw [ih hls, filter_cons_of_neg (by simpa using haddr)]
    · simp only [bind_eq_ok] at h
      obtain ⟨⟨ls'', cleared'⟩, hls, h⟩ := h
      obtain rfl : k :: ls'' = ls' := congrArg Prod.fst (Except.ok.inj h)
      rw [ih hls, filter_cons_of_pos (by simpa using haddr)]

theorem writeOK_ok {allowed : Bool} (h : writeOK pkt ls = .ok (allowed, ls', cleared)) :
    if allowed then ls' = ls.filter (fun l => l.addr ≠ mask pkt.addr) ∧
      (pkt.isLLSC = true → ∃ c, pkt.contextId = some c ∧ ⟨mask pkt.addr, c⟩ ∈ ls)
    else ls' = ls := by
  rw [writeOK] at h
  split_ifs at h with hempty
  · cases h
    subst hempty
    cases hllsc : pkt.isLLSC <;> simp
  · simp only [checkLockedAddrList, bind_eq_ok] at h
    obtain ⟨b, hallow, h⟩ := h
    cases b with
    | false =>
      cases h
      rfl
    | true =>
      simp only [if_true, bind_eq_ok] at h
      obtain ⟨⟨ls'', cleared'⟩, herase, h⟩ := h
      cases h
      refine ⟨eraseRecords_ok herase, fun hllsc => ?_⟩
      rw [allowStore, if_pos hllsc] at hallow
      exact findRecord_true hallow

end LockedAddr

open LockedAddr

namespace Access

variable (pkt : Access)

def handled : Bool := !pkt.cacheResponding && pkt.cmd ≠ .cleanEvict && pkt.cmd ≠ .writebackClean

def isLoadLocked : Bool := pkt.handled && pkt.cmd ≠ .swapReq && pkt.isRead && pkt.isLLSC

def isStore : Bool :=
  pkt.handled && pkt.cmd ≠ .swapReq && !pkt.isRead && !(pkt.isInvalidate || pkt.isClean) &&
    pkt.isWrite

end Access

namespace AbstractMemory

variable {s t : AbstractMemory} {pkt : Access}

def allows (s : AbstractMemory) (pkt : Access) : Bool :=
  pkt.isStore && match writeOK pkt s.lockedAddrList with
    | .ok (allowed, _) => allowed
    | .error _ => false

@[simp] theorem write_lockedAddrList (data : List Byte) :
    (s.write pkt data).lockedAddrList = s.lockedAddrList := by
  rw [write]
  split_ifs <;> rfl

theorem swap_locks (h : s.swap pkt = .ok (r, t)) : t.lockedAddrList = s.lockedAddrList := by
  simp only [swap, bind_eq_ok, pure_eq_ok, Prod.mk.injEq] at h
  obtain ⟨_, _, _, _, -, rfl⟩ := h
  exact write_lockedAddrList _

theorem accessRead_locks (h : s.accessRead pkt = .ok (r, t)) :
    if pkt.isLLSC then trackLoadLocked pkt s.lockedAddrList = .ok t.lockedAddrList
    else t.lockedAddrList = s.lockedAddrList := by
  simp only [accessRead, bind_eq_ok, require_eq_ok] at h
  obtain ⟨-, -, h⟩ := h
  split_ifs at h ⊢ with hllsc
  · simp only [bind_eq_ok, require_eq_ok, pure_eq_ok, Prod.mk.injEq] at h
    obtain ⟨-, -, ls, hls, -, rfl⟩ := h
    exact hls
  · obtain ⟨-, rfl⟩ := Prod.mk.inj (pure_eq_ok.mp h)
    rfl

theorem accessWrite_locks (h : s.accessWrite pkt = .ok (r, t)) :
    ∃ allowed cleared, writeOK pkt s.lockedAddrList = .ok (allowed, t.lockedAddrList, cleared) := by
  simp only [accessWrite, bind_eq_ok, require_eq_ok, pure_eq_ok, Prod.mk.injEq] at h
  obtain ⟨⟨allowed, ls, cleared⟩, hok, -, -, -, rfl⟩ := h
  refine ⟨allowed, cleared, ?_⟩
  split_ifs
  · rw [hok, write_lockedAddrList]
  · exact hok

theorem allows_of_writeOK {allowed : Bool} {ls : List LockedAddr}
    (hstore : pkt.isStore = true) (h : writeOK pkt s.lockedAddrList = .ok (allowed, ls, cleared)) :
    s.allows pkt = allowed := by
  rw [allows, hstore, h]
  rfl

theorem allows_of_not_isStore (h : pkt.isStore = false) : s.allows pkt = false := by
  rw [allows, h]
  rfl

theorem isStore_of_allows (h : s.allows pkt = true) : pkt.isStore = true := by
  rw [allows, Bool.and_eq_true] at h
  exact h.1

theorem isLoadLocked_of_allows (h : s.allows pkt = true) : pkt.isLoadLocked = false := by
  simp only [allows, Access.isStore, Bool.and_eq_true, Bool.not_eq_true'] at h
  simp only [Access.isLoadLocked, h.1.1.1.2, Bool.and_false, Bool.false_and]

/-- What a packet can do to the list: a load-locked enters its record, an allowed store erases the
records of its granule. -/
def Relocks (s : AbstractMemory) (pkt : Access) (t : AbstractMemory) : Prop :=
  pkt.isLoadLocked = true ∧ trackLoadLocked pkt s.lockedAddrList = .ok t.lockedAddrList ∨
  pkt.isLoadLocked = false ∧ t.lockedAddrList =
    if s.allows pkt then s.lockedAddrList.filter (fun l => l.addr ≠ mask pkt.addr)
    else s.lockedAddrList

theorem serve_locks (hhandled : pkt.handled = true) (h : s.serve pkt = .ok (r, t)) :
    s.Relocks pkt t := by
  rw [serve] at h
  split_ifs at h with hswap hread hclean hwrite
  · right
    rw [swap_locks h, allows_of_not_isStore (by simp [Access.isStore, hswap])]
    exact ⟨by simp [Access.isLoadLocked, hswap], rfl⟩
  · have hlocks := accessRead_locks h
    split_ifs at hlocks with hllsc
    · exact .inl ⟨by simp [Access.isLoadLocked, hhandled, hswap, hread, hllsc], hlocks⟩
    · right
      rw [hlocks, allows_of_not_isStore (by simp [Access.isStore, hread])]
      exact ⟨by simp [Access.isLoadLocked, hllsc], rfl⟩
  · simp only [bind_eq_ok, pure_eq_ok, Prod.mk.injEq] at h
    obtain ⟨-, -, -, rfl⟩ := h
    right
    rw [allows_of_not_isStore (by simp only [Access.isStore, hclean]; simp)]
    exact ⟨by simp [Access.isLoadLocked, hread], rfl⟩
  · obtain ⟨allowed, cleared, hok⟩ := accessWrite_locks h
    have hstore : pkt.isStore = true := by
      simp only [Access.isStore, hhandled, hread, hclean, hwrite]
      simpa using hswap
    right
    rw [allows_of_writeOK hstore hok]
    refine ⟨by simp [Access.isLoadLocked, hread], ?_⟩
    have hlocks := writeOK_ok hok
    split_ifs at hlocks ⊢ with hallowed
    · exact hlocks.1
    · exact hlocks

theorem next_locks (h : s.next pkt = .ok t) : s.Relocks pkt t := by
  simp only [next, bind_eq_ok, pure_eq_ok] at h
  obtain ⟨⟨r, _⟩, h, rfl⟩ := h
  rw [access] at h
  split_ifs at h with hhandled
  · have hnot : pkt.handled = false := by
      rcases hhandled with hc | hc | hc <;> simp [Access.handled, hc]
    obtain ⟨-, rfl⟩ := Prod.mk.inj (pure_eq_ok.mp h)
    right
    rw [allows_of_not_isStore (by simp [Access.isStore, hnot])]
    exact ⟨by simp [Access.isLoadLocked, hnot], rfl⟩
  · have hhandled : pkt.handled = true := by
      simpa [Access.handled, and_assoc] using hhandled
    simp only [bind_eq_ok, require_eq_ok] at h
    obtain ⟨-, -, -, -, h⟩ := h
    exact serve_locks hhandled h

/-- The bytes of a store are in the 16 bytes of its first one. -/
def Within (pkt : Access) : Prop :=
  pkt.isStore = true → ∀ i < pkt.size, enabled pkt i = true →
    mask (pkt.addr + BitVec.ofNat 64 i) = mask pkt.addr

def Avoids (granule : Addr) (s : AbstractMemory) (pkt : Access) : Prop :=
  s.allows pkt = true → ∀ i < pkt.size, enabled pkt i = true →
    mask (pkt.addr + BitVec.ofNat 64 i) ≠ granule

def Reserved (s₀ : AbstractMemory) (es : List Access) (c : ℤ) (granule : Addr) : Prop :=
  ∃ before loadLocked between r, es = before ++ loadLocked :: between ∧
    loadLocked.isLoadLocked = true ∧ loadLocked.contextId = some c ∧
    mask loadLocked.addr = granule ∧
    (∀ e ∈ between, e.isLoadLocked = true → e.contextId ≠ some c) ∧
    run next s₀ (before ++ [loadLocked]) = .ok r ∧ Meets next (Avoids granule) r between

theorem Reserved.concat {c : ℤ} {granule : Addr}
    (h : Reserved s₀ es c granule) (hrun : run next s₀ es = .ok s)
    (hother : pkt.isLoadLocked = true → pkt.contextId ≠ some c) (havoids : s.Avoids granule pkt) :
    Reserved s₀ (es ++ [pkt]) c granule := by
  obtain ⟨before, ll, between, r, rfl, hll, hc, hgranule, hbetween, hr, hmeets⟩ := h
  refine ⟨before, ll, between ++ [pkt], r, by simp, hll, hc, hgranule, ?_, hr, ?_⟩
  · intro e he
    rcases mem_append.mp he with he | he
    · exact hbetween e he
    · rw [mem_singleton.mp he]
      exact hother
  · refine meets_concat.mpr ⟨hmeets, fun t ht => ?_⟩
    have hsplit : run next s₀ (before ++ ll :: between) = .ok t := by
      rw [← singleton_append, ← append_assoc, run_append, hr]
      exact ht
    rw [hrun] at hsplit
    cases hsplit
    exact havoids

theorem locks_nodup (h₀ : s₀.lockedAddrList = [])
    (h : run next s₀ es = .ok s) : (s.lockedAddrList.map contextId).Nodup := by
  refine run_keeps (P := fun s => (s.lockedAddrList.map contextId).Nodup) ?_ (by simp [h₀]) h
  intro s pkt t hs hnext
  rcases next_locks hnext with ⟨-, hlocks⟩ | ⟨-, hlocks⟩
  · obtain ⟨c, -, hnodup, -⟩ := trackLoadLocked_ok hs hlocks
    exact hnodup
  · rw [hlocks]
    split_ifs
    · exact hs.sublist (filter_sublist.map _)
    · exact hs

theorem locks_reserved (h₀ : s₀.lockedAddrList = [])
    (h : run next s₀ es = .ok s) (hwithin : ∀ pkt ∈ es, Within pkt) :
    ∀ l ∈ s.lockedAddrList, Reserved s₀ es l.contextId l.addr := by
  induction es using List.reverseRecOn generalizing s with
  | nil =>
    obtain rfl : s₀ = s := by simpa using h
    simp [h₀]
  | append_singleton es pkt ih =>
    have hrun := h
    rw [run_concat, bind_eq_ok] at h
    obtain ⟨r, hr, hnext⟩ := h
    have ih := ih hr fun e he => hwithin e (mem_append_left _ he)
    have hwithin : Within pkt := hwithin pkt (by simp)
    intro l hl
    rcases next_locks hnext with ⟨hll, hlocks⟩ | ⟨hll, hlocks⟩
    · obtain ⟨c, hc, -, hmem⟩ := trackLoadLocked_ok (locks_nodup h₀ hr) hlocks
      rcases hmem l hl with rfl | ⟨hl, hne⟩
      · exact ⟨es, pkt, [], s, rfl, hll, hc, rfl, by simp, hrun, trivial⟩
      · refine (ih l hl).concat hr (fun _ heq => hne ?_) ?_
        · exact Option.some.inj (heq.symm.trans hc)
        · intro hallows
          exact absurd hll (by rw [isLoadLocked_of_allows hallows]; exact Bool.false_ne_true)
    · have hother : pkt.isLoadLocked = true → pkt.contextId ≠ some l.contextId := by
        rw [hll]
        exact nofun
      rw [hlocks] at hl
      split_ifs at hl with hallows
      · obtain ⟨hl, hne⟩ := mem_filter.mp hl
        refine (ih l hl).concat hr hother fun _ i hi henabled => ?_
        rw [hwithin (isStore_of_allows hallows) i hi henabled]
        exact (of_decide_eq_true hne).symm
      · exact (ih l hl).concat hr hother fun h => absurd h hallows

theorem record_of_allows (hllsc : pkt.isLLSC = true) (h : s.allows pkt = true) :
    ∃ c, pkt.contextId = some c ∧ ⟨mask pkt.addr, c⟩ ∈ s.lockedAddrList := by
  rw [allows, Bool.and_eq_true] at h
  cases hok : writeOK pkt s.lockedAddrList with
  | error f =>
    rw [hok] at h
    exact nomatch h.2
  | ok r =>
    obtain ⟨allowed, ls, cleared⟩ := r
    rw [hok] at h
    have hlocks := writeOK_ok hok
    rw [if_pos h.2] at hlocks
    exact hlocks.2 hllsc

instance (pkt : Access) : Decidable (Within pkt) :=
  inferInstanceAs (Decidable (_ → ∀ i < pkt.size, _ → _))

end AbstractMemory

open AbstractMemory

/-- Each context has at most one record. If every store stays within 16 bytes, a store conditional
is allowed only if the last load-locked of its context was to the same 16 bytes and no store
wrote to them since. -/
theorem store_conditional_atomic (range : AddrRange) (null : Bool) (pmem : Addr → Byte)
    {es : List Access} {s : AbstractMemory} (h : run next (create range null pmem) es = .ok s) :
    (s.lockedAddrList.map contextId).Nodup ∧
    ((∀ pkt ∈ es, Within pkt) → ∀ pkt c, pkt.isLLSC = true →
      pkt.contextId = some c → s.allows pkt = true →
        Reserved (create range null pmem) es c (mask pkt.addr)) := by
  refine ⟨locks_nodup rfl h, fun hwithin pkt c hllsc hc hallows => ?_⟩
  obtain ⟨c', hc', hmem⟩ := record_of_allows hllsc hallows
  obtain rfl : c = c' := Option.some.inj (hc.symm.trans hc')
  exact locks_reserved rfl h hwithin _ hmem

def smallMemory : AbstractMemory := create ⟨0, 256, [], 0⟩ false fun _ => 0

def lockedWrites : List Access :=
  [{ cmd := .loadLockedReq, addr := 20, size := 4, contextId := some 0 },
    { cmd := .writeReq, addr := 40, size := 8, contextId := some 1 }]

def storeCond : Access := { cmd := .storeCondReq, addr := 16, size := 4, contextId := some 0 }

theorem store_conditional_atomic_small : ∃ s, run next smallMemory lockedWrites = .ok s ∧
    s.allows storeCond = true ∧ Reserved smallMemory lockedWrites 0 16 := by
  have hends : Ends next smallMemory lockedWrites fun s => s.allows storeCond = true := by
    decide +kernel
  obtain ⟨s, hs, hallows⟩ := hends
  have hwithin : ∀ pkt ∈ lockedWrites, Within pkt := by decide +kernel
  exact ⟨s, hs, hallows, (store_conditional_atomic _ _ _ hs).2 hwithin _ _ rfl rfl hallows⟩

def straddlingWrites : List Access :=
  [{ cmd := .loadLockedReq, addr := 16, size := 4, contextId := some 0 },
    { cmd := .writeReq, addr := 8, size := 16, contextId := some 1, data := List.replicate 16 1 }]

theorem store_conditional_straddled : Ends next smallMemory straddlingWrites fun s =>
    s.allows storeCond = true ∧ smallMemory.pmem 16 = 0 ∧ s.pmem 16 = 1 := by
  decide +kernel

end HetSim.Memory
