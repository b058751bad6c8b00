import HetSim.Address.Bitfield
import HetSim.Library.Spans

/-!
# Load locks of a cache block

A load-locked takes the place of every lock it meets, a write removes the locks of the other
contexts, and a store-conditional uses up a lock of its context around its bytes; it removes the
locks of other contexts even when it fails. So the list holds the load-locked requests that
nothing has broken since, and no two of them meet.
-/

namespace HetSim.Tags
open Address Finset

abbrev ContextID := ℤ

/-- What a lock needs of a request. The bytes do not wrap around the address space. -/
structure LockRequest where
  paddr : Addr
  size : ℕ
  contextId : ContextID
  nonempty : 0 < size
  noWrap : paddr.toNat + size ≤ 2 ^ 64
  deriving DecidableEq

namespace LockRequest

variable (req : LockRequest)

def high : Addr := Spans.last req.paddr req.size

def bytes : Finset ℕ := Finset.Ico req.paddr.toNat (req.paddr.toNat + req.size)

end LockRequest

structure Lock where
  contextId : ContextID
  lowAddr : Addr
  highAddr : Addr
  deriving DecidableEq

namespace Lock

def ofRequest (req : LockRequest) : Lock := ⟨req.contextId, req.paddr, req.high⟩

variable (l : Lock) (req : LockRequest)

def «matches» : Bool :=
  l.contextId = req.contextId && l.lowAddr ≤ req.paddr && req.high ≤ l.highAddr

def intersects : Bool := req.paddr ≤ l.highAddr && l.lowAddr ≤ req.high

def bytes : Finset ℕ := Finset.Icc l.lowAddr.toNat l.highAddr.toNat

end Lock

/-! ## The operations of the block -/

def trackLoadLocked (lockList : List Lock) (req : LockRequest) : List Lock :=
  Lock.ofRequest req :: lockList.filter fun l => !l.intersects req

def clearLoadLocks (lockList : List Lock) (req : LockRequest) : List Lock :=
  lockList.filter fun l => !(l.intersects req && l.contextId ≠ req.contextId)

def checkWrite (lockList : List Lock) (isLLSC : Bool) (req : LockRequest) : Bool × List Lock :=
  if !isLLSC && lockList.isEmpty then (true, lockList)
  else if isLLSC then
    -- the loop stops at the first lock that matches, and erases it
    let success := lockList.any (·.matches req)
    (success, clearLoadLocks (lockList.eraseP (·.matches req)) req)
  else (true, clearLoadLocks lockList req)

inductive LockEvent
  | loadLocked (req : LockRequest)
  | write (req : LockRequest)
  | storeCond (req : LockRequest)
  | invalidate
  deriving DecidableEq

namespace LockEvent

def step (lockList : List Lock) : LockEvent → List Lock
  | .loadLocked req => trackLoadLocked lockList req
  | .write req => (checkWrite lockList false req).2
  | .storeCond req => (checkWrite lockList true req).2
  | .invalidate => []

end LockEvent

def locksAfter (es : List LockEvent) : List Lock := es.foldl LockEvent.step []

def succeeds (es : List LockEvent) (req : LockRequest) : Bool :=
  (checkWrite (locksAfter es) true req).1

/-! ## What is left of a load-locked -/

def Breaks (ll : LockRequest) (lockList : List Lock) : LockEvent → Prop
  | .loadLocked req => ¬ Disjoint ll.bytes req.bytes
  | .write req => req.contextId ≠ ll.contextId ∧ ¬ Disjoint ll.bytes req.bytes
  | .storeCond req =>
    req.contextId ≠ ll.contextId ∧ ¬ Disjoint ll.bytes req.bytes ∨
    req.contextId = ll.contextId ∧ req.bytes ⊆ ll.bytes ∧ (checkWrite lockList true req).1 = true
  | .invalidate => True

def Unbroken (es : List LockEvent) (i : ℕ) (ll : LockRequest) : Prop :=
  ∀ j e, i < j → es[j]? = some e → ¬ Breaks ll (locksAfter (es.take j)) e

structure LastCovering (es : List LockEvent) (i : ℕ) (ll req : LockRequest) : Prop where
  event : es[i]? = some (.loadLocked ll)
  context : ll.contextId = req.contextId
  covers : req.bytes ⊆ ll.bytes
  last : ∀ j ll', i < j → es[j]? = some (.loadLocked ll') → ll'.contextId = req.contextId →
    ¬ req.bytes ⊆ ll'.bytes

variable {l : Lock} {ls : List Lock} {req ll : LockRequest} {es : List LockEvent} {e : LockEvent}
  {i : ℕ}

section Ranges

theorem high_toNat : req.high.toNat = req.paddr.toNat + req.size - 1 :=
  Spans.toNat_last (Nat.add_pos_right _ req.nonempty) req.noWrap

theorem bytes_nonempty : req.bytes.Nonempty :=
  nonempty_Ico.mpr (Nat.lt_add_of_pos_right req.nonempty)

@[simp] theorem ofRequest_bytes : (Lock.ofRequest req).bytes = req.bytes := by
  have hpos := req.nonempty
  ext n
  simp only [Lock.bytes, Lock.ofRequest, LockRequest.bytes, high_toNat, mem_Icc,
    mem_Ico]
  omega

theorem ofRequest_injective : Function.Injective Lock.ofRequest := by
  intro req req' h
  simp only [Lock.ofRequest, Lock.mk.injEq] at h
  obtain ⟨hcontext, hpaddr, hhigh⟩ := h
  have hsize : req.size = req'.size := by
    have hnat := congrArg BitVec.toNat hhigh
    have hpos := req.nonempty
    have hpos' := req'.nonempty
    rw [high_toNat, high_toNat, hpaddr] at hnat
    omega
  cases req
  cases req'
  simp_all

theorem matches_iff : l.matches req = true ↔ l.contextId = req.contextId ∧ req.bytes ⊆ l.bytes := by
  have hpos := req.nonempty
  simp only [Lock.matches, Bool.and_eq_true, decide_eq_true_eq, and_assoc, BitVec.le_def,
    high_toNat]
  refine and_congr_right fun _ => ⟨fun h n hn => ?_, fun h => ?_⟩
  · simp only [LockRequest.bytes, Lock.bytes, mem_Ico, mem_Icc] at hn ⊢
    omega
  · have hlow := h (left_mem_Ico.mpr (by omega))
    have hlast : req.paddr.toNat + req.size - 1 ∈ req.bytes := mem_Ico.mpr (by omega)
    exact ⟨(mem_Icc.mp hlow).1, (mem_Icc.mp (h hlast)).2⟩

theorem disjoint_of_not_intersects (h : l.intersects req = false) : Disjoint l.bytes req.bytes := by
  rw [disjoint_left]
  intro n hl hreq
  simp only [Lock.bytes, LockRequest.bytes, mem_Icc, mem_Ico] at hl hreq
  simp only [Lock.intersects, Bool.and_eq_false_iff, decide_eq_false_iff_not, BitVec.le_def,
    high_toNat] at h
  omega

theorem intersects_ofRequest :
    (Lock.ofRequest ll).intersects req = true ↔ ¬ Disjoint ll.bytes req.bytes := by
  refine ⟨fun h => ?_, fun h => ?_⟩
  · have hpos := req.nonempty
    have hpos' := ll.nonempty
    simp only [Lock.intersects, Lock.ofRequest, Bool.and_eq_true, decide_eq_true_eq, BitVec.le_def,
      high_toNat] at h
    rw [not_disjoint_iff]
    refine ⟨max ll.paddr.toNat req.paddr.toNat, ?_, ?_⟩
    · rw [LockRequest.bytes, mem_Ico]
      omega
    · rw [LockRequest.bytes, mem_Ico]
      omega
  · by_contra hnot
    have hdisjoint := disjoint_of_not_intersects (Bool.eq_false_iff.mpr hnot)
    rw [ofRequest_bytes] at hdisjoint
    exact h hdisjoint

end Ranges

section Lists

theorem eraseP_eq_filter {α : Type*} {p : α → Bool} {xs : List α}
    (h : xs.Pairwise fun a b => ¬ (p a = true ∧ p b = true)) : xs.eraseP p = xs.filter (!p ·) := by
  induction xs with
  | nil => rfl
  | cons x xs ih =>
    rw [List.pairwise_cons] at h
    by_cases hx : p x = true
    · rw [List.eraseP_cons_of_pos hx, List.filter_cons_of_neg (by simp [hx])]
      refine (List.filter_eq_self.mpr fun y hy => ?_).symm
      have hy := h.1 y hy
      simpa [hx] using hy
    · rw [List.eraseP_cons_of_neg hx, List.filter_cons_of_pos (by simp [hx]), ih h.2]

def Separate (ls : List Lock) : Prop := ls.Pairwise fun a b => Disjoint a.bytes b.bytes

theorem Separate.erase (h : Separate ls) :
    ls.eraseP (·.matches req) = ls.filter fun l => !l.matches req := by
  apply eraseP_eq_filter
  refine List.Pairwise.imp (fun hdisjoint hboth => ?_) h
  obtain ⟨n, hn⟩ : req.bytes.Nonempty := bytes_nonempty
  have hleft := (matches_iff.mp hboth.1).2 hn
  have hright := (matches_iff.mp hboth.2).2 hn
  exact disjoint_left.mp hdisjoint hleft hright

theorem mem_clearLoadLocks : l ∈ clearLoadLocks ls req ↔
    l ∈ ls ∧ ¬ (l.intersects req = true ∧ l.contextId ≠ req.contextId) := by
  rw [clearLoadLocks, List.mem_filter, Bool.not_eq_true', ← Bool.not_eq_true, Bool.and_eq_true,
    decide_eq_true_eq]

theorem step_sublist (h : ∀ req, e ≠ .loadLocked req) : (e.step ls).Sublist ls := by
  cases e with
  | loadLocked req => exact absurd rfl (h req)
  | write req =>
    rw [LockEvent.step, checkWrite]
    split
    · exact List.Sublist.refl ls
    · exact List.filter_sublist
  | storeCond req => exact List.filter_sublist.trans List.eraseP_sublist
  | invalidate => exact List.nil_sublist ls

theorem Separate.step (h : Separate ls) : Separate (e.step ls) := by
  by_cases hll : ∃ req, e = .loadLocked req
  · obtain ⟨req, rfl⟩ := hll
    refine List.pairwise_cons.mpr ⟨fun l hl => ?_, List.Pairwise.sublist List.filter_sublist h⟩
    have hmiss := (List.mem_filter.mp hl).2
    rw [ofRequest_bytes]
    exact (disjoint_of_not_intersects (by simpa using hmiss)).symm
  · exact List.Pairwise.sublist (step_sublist fun req heq => hll ⟨req, heq⟩) h

theorem separate_locksAfter (es : List LockEvent) : Separate (locksAfter es) := by
  induction es using List.reverseRecOn with
  | nil => exact List.Pairwise.nil
  | append_singleton es e ih =>
    rw [locksAfter, List.foldl_append]
    exact ih.step

theorem success_iff : (checkWrite ls true req).1 = true ↔ ∃ l ∈ ls, l.matches req = true := by
  simp [checkWrite]

theorem mem_step_write : l ∈ LockEvent.step ls (.write req) ↔
    l ∈ ls ∧ ¬ (l.intersects req = true ∧ l.contextId ≠ req.contextId) := by
  cases ls with
  | nil => simp [LockEvent.step, checkWrite]
  | cons k ls => exact mem_clearLoadLocks

theorem Separate.mem_step_storeCond (h : Separate ls) : l ∈ LockEvent.step ls (.storeCond req) ↔
    (l ∈ ls ∧ ¬ l.matches req = true) ∧ ¬
      (l.intersects req = true ∧ l.contextId ≠ req.contextId) := by
  refine mem_clearLoadLocks.trans (and_congr_left fun _ => ?_)
  rw [h.erase, List.mem_filter]
  simp

theorem Separate.mem_step (h : Separate ls) : Lock.ofRequest ll ∈ e.step ls ↔
    e = .loadLocked ll ∨ Lock.ofRequest ll ∈ ls ∧ ¬ Breaks ll ls e := by
  cases e with
  | loadLocked req =>
    have hmiss : (!(Lock.ofRequest ll).intersects req) = true ↔ Disjoint ll.bytes req.bytes := by
      rw [Bool.not_eq_true', ← Bool.not_eq_true, intersects_ofRequest, not_not]
    rw [LockEvent.step, trackLoadLocked, List.mem_cons, List.mem_filter, hmiss,
      ofRequest_injective.eq_iff, LockEvent.loadLocked.injEq, Breaks, not_not, eq_comm]
  | write req =>
    rw [mem_step_write, intersects_ofRequest, Breaks, and_comm (a := _ ≠ _)]
    simp [Lock.ofRequest, eq_comm]
  | storeCond req =>
    -- while the lock is there, a store-conditional inside it succeeds
    have hsuccess (hmem : Lock.ofRequest ll ∈ ls) (hcontext : ll.contextId = req.contextId)
        (hcovers : req.bytes ⊆ ll.bytes) : (checkWrite ls true req).1 = true := by
      rw [success_iff]
      exact ⟨_, hmem, matches_iff.mpr ⟨hcontext, by rwa [ofRequest_bytes]⟩⟩
    have hcontext : (Lock.ofRequest ll).contextId = ll.contextId := rfl
    rw [h.mem_step_storeCond, intersects_ofRequest, matches_iff, ofRequest_bytes, hcontext, Breaks]
    have hno : LockEvent.storeCond req ≠ .loadLocked ll := nofun
    tauto
  | invalidate => simp [LockEvent.step, Breaks]

end Lists

section Runs

theorem locksAfter_concat : locksAfter (es ++ [e]) = e.step (locksAfter es) := by
  rw [locksAfter, List.foldl_append]
  rfl

theorem mem_locksAfter_ofRequest (h : l ∈ locksAfter es) : ∃ ll, l = Lock.ofRequest ll := by
  induction es using List.reverseRecOn with
  | nil => exact absurd h List.not_mem_nil
  | append_singleton es e ih =>
    rw [locksAfter_concat] at h
    by_cases hll : ∃ req, e = .loadLocked req
    · obtain ⟨req, rfl⟩ := hll
      rcases List.mem_cons.mp h with rfl | h
      · exact ⟨req, rfl⟩
      · exact ih (List.mem_of_mem_filter h)
    · exact ih ((step_sublist fun req heq => hll ⟨req, heq⟩).subset h)

theorem unbroken_concat (hi : i < es.length) :
    Unbroken (es ++ [e]) i ll ↔ Unbroken es i ll ∧ ¬ Breaks ll (locksAfter es) e := by
  refine ⟨fun h => ⟨fun j f hj hf => ?_, ?_⟩, fun h j f hj hf => ?_⟩
  · have hlt : j < es.length := (List.getElem?_eq_some_iff.mp hf).1
    have hbreaks := h j f hj (by rw [List.getElem?_append_left hlt, hf])
    rwa [List.take_append_of_le_length hlt.le] at hbreaks
  · have hbreaks := h es.length e hi List.getElem?_concat_length
    rwa [List.take_left] at hbreaks
  · rcases Nat.lt_trichotomy j es.length with hlt | rfl | hgt
    · rw [List.getElem?_append_left hlt] at hf
      rw [List.take_append_of_le_length hlt.le]
      exact h.1 j f hj hf
    · rw [List.getElem?_concat_length] at hf
      cases hf
      rw [List.take_left]
      exact h.2
    · rw [List.getElem?_eq_none (by simp; omega)] at hf
      exact nomatch hf

theorem mem_locksAfter : Lock.ofRequest ll ∈ locksAfter es ↔
    ∃ i, es[i]? = some (.loadLocked ll) ∧ Unbroken es i ll := by
  induction es using List.reverseRecOn with
  | nil => simp [locksAfter]
  | append_singleton es e ih =>
    rw [locksAfter_concat, (separate_locksAfter es).mem_step, ih]
    refine ⟨?_, ?_⟩
    · rintro (rfl | ⟨⟨i, hi, hunbroken⟩, hbreaks⟩)
      · refine ⟨es.length, List.getElem?_concat_length, fun j f hj hf => ?_⟩
        rw [List.getElem?_eq_none (by simp; omega)] at hf
        exact nomatch hf
      · have hlt : i < es.length := (List.getElem?_eq_some_iff.mp hi).1
        exact ⟨i, by rw [List.getElem?_append_left hlt, hi],
          (unbroken_concat hlt).mpr ⟨hunbroken, hbreaks⟩⟩
    · rintro ⟨i, hi, hunbroken⟩
      rcases Nat.lt_trichotomy i es.length with hlt | rfl | hgt
      · rw [List.getElem?_append_left hlt] at hi
        obtain ⟨hunbroken, hbreaks⟩ := (unbroken_concat hlt).mp hunbroken
        exact .inr ⟨⟨i, hi, hunbroken⟩, hbreaks⟩
      · rw [List.getElem?_concat_length] at hi
        exact .inl (Option.some.inj hi)
      · rw [List.getElem?_eq_none (by simp; omega)] at hi
        exact nomatch hi

theorem Unbroken.last {req' : LockRequest} {j : ℕ} (h : Unbroken es i ll) (hj : i < j)
    (hevent : es[j]? = some (.loadLocked req')) (hcovers : req.bytes ⊆ ll.bytes) :
    ¬ req.bytes ⊆ req'.bytes := by
  intro hcovers'
  obtain ⟨n, hn⟩ : req.bytes.Nonempty := bytes_nonempty
  exact h j _ hj hevent (not_disjoint_iff.mpr ⟨n, hcovers hn, hcovers' hn⟩)

theorem succeeds_iff : succeeds es req = true ↔
    ∃ i ll, LastCovering es i ll req ∧ Unbroken es i ll := by
  rw [succeeds, success_iff]
  refine ⟨?_, ?_⟩
  · rintro ⟨l, hl, hmatches⟩
    obtain ⟨ll, rfl⟩ := mem_locksAfter_ofRequest hl
    obtain ⟨i, hi, hunbroken⟩ := mem_locksAfter.mp hl
    rw [matches_iff, ofRequest_bytes] at hmatches
    exact ⟨i, ll, ⟨hi, hmatches.1, hmatches.2, fun j ll' hj hevent _ =>
      hunbroken.last hj hevent hmatches.2⟩, hunbroken⟩
  · rintro ⟨i, ll, hlast, hunbroken⟩
    refine ⟨_, mem_locksAfter.mpr ⟨i, hlast.event, hunbroken⟩, ?_⟩
    rw [matches_iff, ofRequest_bytes]
    exact ⟨hlast.context, hlast.covers⟩

theorem LastCovering.fails {ext : List LockEvent} {ll' : LockRequest} {j : ℕ}
    (h : LastCovering es i ll req) (hj : i < j) (hevent : es[j]? = some (.loadLocked ll'))
    (hmeet : ¬ Disjoint ll.bytes ll'.bytes)
    (hnew : ∀ r, .loadLocked r ∈ ext → r.contextId ≠ req.contextId) :
    succeeds (es ++ ext) req = false := by
  rw [Bool.eq_false_iff, ne_eq, succeeds_iff]
  rintro ⟨k, llk, hlast, hunbroken⟩
  have hi : i < es.length := (List.getElem?_eq_some_iff.mp h.event).1
  have hj' : j < es.length := (List.getElem?_eq_some_iff.mp hevent).1
  have hk : k < es.length := by
    by_contra hge
    have hevent := hlast.event
    rw [List.getElem?_append_right (not_lt.mp hge)] at hevent
    exact hnew llk (List.mem_of_getElem? hevent) hlast.context
  have hkevent := hlast.event
  rw [List.getElem?_append_left hk] at hkevent
  -- the load-locked it would use is the last one of the context in both lists
  have hsame : k = i := by
    rcases Nat.lt_trichotomy k i with hlt | heq | hgt
    · exact absurd h.covers
        (hlast.last i ll hlt (by rw [List.getElem?_append_left hi, h.event]) h.context)
    · exact heq
    · exact absurd hlast.covers (h.last k llk hgt hkevent hlast.context)
  subst hsame
  rw [h.event] at hkevent
  cases hkevent
  have hbreaks := hunbroken j (.loadLocked ll') hj (by rw [List.getElem?_append_left hj', hevent])
  exact hbreaks hmeet

/-- The locks of a block have no byte in common. A store-conditional succeeds exactly when nothing
has broken the last load-locked of its context around its bytes. Of two contexts whose
load-locked ranges meet, one needs a new load-locked. -/
theorem loadLocks_exclusive (es : List LockEvent) :
    Separate (locksAfter es) ∧
    (∀ req, succeeds es req = true ↔ ∃ i ll, LastCovering es i ll req ∧ Unbroken es i ll) ∧
    ∀ i j ll₁ ll₂ req₁ req₂, LastCovering es i ll₁ req₁ → LastCovering es j ll₂ req₂ →
      req₁.contextId ≠ req₂.contextId → ¬ Disjoint ll₁.bytes ll₂.bytes →
      (∀ ext, (∀ r, .loadLocked r ∈ ext → r.contextId ≠ req₁.contextId) →
        succeeds (es ++ ext) req₁ = false) ∨
      (∀ ext, (∀ r, .loadLocked r ∈ ext → r.contextId ≠ req₂.contextId) →
        succeeds (es ++ ext) req₂ = false) := by
  refine ⟨separate_locksAfter es, fun req => succeeds_iff, ?_⟩
  intro i j ll₁ ll₂ req₁ req₂ h₁ h₂ hcontext hmeet
  rcases Nat.lt_trichotomy i j with hlt | rfl | hgt
  · exact .inl fun ext hnew => h₁.fails hlt h₂.event hmeet hnew
  · have hevent := h₁.event
    rw [h₂.event] at hevent
    cases hevent
    exact absurd (h₁.context.symm.trans h₂.context) hcontext
  · exact .inr fun ext hnew => h₂.fails hgt h₁.event (fun hd => hmeet hd.symm) hnew

def wordAt (paddr : Fin 64) (contextId : ContextID) : LockRequest :=
  ⟨BitVec.ofNat 64 paddr, 4, contextId, by decide, by
    have := paddr.isLt
    rw [BitVec.toNat_ofNat]
    omega⟩

def twoLocks : List LockEvent := [.loadLocked (wordAt 0 0), .loadLocked (wordAt 2 1)]

theorem loadLocks_exclusive_two : succeeds twoLocks (wordAt 2 1) = true ∧
    ∀ ext, (∀ r, .loadLocked r ∈ ext → r.contextId ≠ 0) →
      succeeds (twoLocks ++ ext) (wordAt 0 0) = false := by
  have hsecond : succeeds twoLocks (wordAt 2 1) = true := by decide
  have hlast₁ : LastCovering twoLocks 0 (wordAt 0 0) (wordAt 0 0) := by
    refine ⟨rfl, rfl, Finset.Subset.refl _, ?_⟩
    rintro (_ | _ | j) ll' hj hevent hcontext
    · exact absurd hj (lt_irrefl 0)
    · cases hevent
      exact absurd hcontext (by decide)
    · exact nomatch hevent
  have hlast₂ : LastCovering twoLocks 1 (wordAt 2 1) (wordAt 2 1) := by
    refine ⟨rfl, rfl, Finset.Subset.refl _, ?_⟩
    rintro (_ | _ | j) ll' hj hevent hcontext
    · exact absurd hj (by decide)
    · exact absurd hj (lt_irrefl 1)
    · exact nomatch hevent
  refine ⟨hsecond, ?_⟩
  rcases (loadLocks_exclusive twoLocks).2.2 0 1 _ _ _ _ hlast₁ hlast₂ (by decide) (by decide) with
    h | h
  · exact h
  · have hfails := h [] (by simp)
    rw [List.append_nil, hsecond] at hfails
    exact nomatch hfails

/-- A store-conditional that fails still removes the lock of another context. -/
theorem failed_storeCond_breaks :
    succeeds [.loadLocked (wordAt 0 0)] (wordAt 0 0) = true ∧
    succeeds [.loadLocked (wordAt 0 0)] (wordAt 0 1) = false ∧
    succeeds [.loadLocked (wordAt 0 0), .storeCond (wordAt 0 1)] (wordAt 0 0) = false := by
  decide

end Runs

end HetSim.Tags
