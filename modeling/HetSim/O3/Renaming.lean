import HetSim.O3.Rename

/-!
# Renaming conserves registers and is undone exactly

A physical register is free, or mapped, or kept in the history, and only one of these. Reverting
the entries behind a sequence number gives the map that the last instruction up to it left, as
long as no older entry was committed away.
-/

namespace HetSim.O3
open Checked List Function Multiset RenameHistory

variable {A P : Type} [DecidableEq A] [DecidableEq P]

def RenameHistory.revert (e : RenameHistory A P) (m : A → P) : A → P :=
  if e.newPhysReg ≠ e.prevPhysReg then Function.update m e.archReg e.prevPhysReg else m

def revertAll : List (RenameHistory A P) → (A → P) → (A → P)
  | [], m => m
  | e :: es, m => revertAll es (e.revert m)

def revertTo (n : ℕ) : List (RenameHistory A P) → (A → P) → (A → P)
  | [], m => m
  | e :: es, m => if n < e.instSeqNum then revertTo n es (e.revert m) else m

def Current : List (RenameHistory A P) → (A → P) → Prop
  | [], _ => True
  | e :: es, m => (e.newPhysReg ≠ e.prevPhysReg → m e.archReg = e.newPhysReg) ∧
      Current es (e.revert m)

section Revert

variable {n n' : ℕ} {es es' : List (RenameHistory A P)} {m : A → P}

theorem revertTo_of_le (h : ∀ e ∈ es, e.instSeqNum ≤ n) : revertTo n es m = m := by
  cases es with
  | nil => rfl
  | cons e es => rw [revertTo, if_neg (not_lt.mpr (h e List.mem_cons_self))]

theorem revertTo_append_newer (h : ∀ e ∈ es, n < e.instSeqNum) :
    revertTo n (es ++ es') m = revertTo n es' (revertAll es m) := by
  induction es generalizing m with
  | nil => rfl
  | cons e es ih =>
    rw [cons_append, revertTo, if_pos (h e List.mem_cons_self), revertAll]
    exact ih fun e' he' => h e' (List.mem_cons_of_mem _ he')

theorem revertTo_append_older (h : ∀ e ∈ es', e.instSeqNum ≤ n) :
    revertTo n (es ++ es') m = revertTo n es m := by
  induction es generalizing m with
  | nil => exact revertTo_of_le h
  | cons e es ih =>
    rw [cons_append, revertTo, revertTo]
    split_ifs
    · exact ih
    · rfl

theorem revertTo_dropWhile (h : n ≤ n') :
    revertTo n (es.dropWhile fun e => n' < e.instSeqNum) (revertTo n' es m) = revertTo n es m := by
  induction es generalizing m with
  | nil => rfl
  | cons e es ih =>
    by_cases he : n' < e.instSeqNum
    · rw [dropWhile_cons_of_pos (by simpa using he), revertTo, if_pos he, revertTo,
        if_pos (h.trans_lt he)]
      exact ih
    · have hstop : revertTo n' (e :: es) m = m := by rw [revertTo, if_neg he]
      rw [dropWhile_cons_of_neg (by simpa using he), hstop]

theorem revertTo_of_head (h : ∀ e ∈ es.head?, e.instSeqNum ≤ n) : revertTo n es m = m := by
  cases es with
  | nil => rfl
  | cons e es => rw [revertTo, if_neg (not_lt.mpr (h e rfl))]

theorem Current.of_append (h : Current (es ++ es') m) : Current es m := by
  induction es generalizing m with
  | nil => trivial
  | cons e es ih => exact ⟨h.1, ih h.2⟩

end Revert

def prevs (es : List (RenameHistory A P)) : List P :=
  (es.filter fun e => e.newPhysReg ≠ e.prevPhysReg).map RenameHistory.prevPhysReg

variable [Fintype A]

def Rename.held (r : Rename A P) : Multiset P :=
  (r.freeRegs : Multiset P) + Finset.univ.val.map r.map + (prevs r.historyBuffer : Multiset P)

omit [DecidableEq P] in
theorem map_update (m : A → P) (a : A) (p : P) :
    Finset.univ.val.map (Function.update m a p) + {m a} = Finset.univ.val.map m + {p} := by
  have huniv : (Finset.univ : Finset A).val = a ::ₘ (Finset.univ.erase a).val := by
    rw [← Finset.insert_val_of_notMem (Finset.notMem_erase a _),
      Finset.insert_erase (Finset.mem_univ a)]
  have hrest : (Finset.univ.erase a).val.map (Function.update m a p) =
      (Finset.univ.erase a).val.map m := by
    refine Multiset.map_congr rfl fun b hb => ?_
    rw [update_of_ne (Finset.ne_of_mem_erase hb)]
  rw [huniv, Multiset.map_cons, Multiset.map_cons, hrest, update_self,
    ← singleton_add, ← singleton_add]
  ac_rfl

/-- What holds of the stage whatever was renamed, squashed and committed. `regs` are the
physical registers that can be renamed to. -/
structure Good (c : RegClass A P) (regs : Finset P) (r : Rename A P) : Prop where
  held : r.held = regs.val
  current : Current r.historyBuffer r.map
  unpinned : ∀ p, r.numPinnedWrites p = 0
  zero : ∀ z, c.zeroReg = some z → c.isZeroReg (r.map z) = true
  kept : ∀ e ∈ r.historyBuffer, e.newPhysReg ≠ e.prevPhysReg → c.zeroReg ≠ some e.archReg

namespace Good

variable {c : RegClass A P} {regs : Finset P} {r : Rename A P} {e : RenameHistory A P}
  {es : List (RenameHistory A P)}

variable {p : P} {ps : List P} {dests : List (A × ℕ)} {es : List (RenameHistory A P)}

theorem fresh (h : Good c regs r) (hf : r.freeRegs = p :: ps) (a : A) : p ≠ r.map a := by
  intro hp
  have hnd : r.held.Nodup := h.held ▸ regs.nodup
  have hdis := nodup_add.mp (nodup_add.mp hnd).1
  have hfree : p ∈ (r.freeRegs : Multiset P) := by
    rw [hf]
    exact List.mem_cons_self
  have hmap : p ∈ Finset.univ.val.map r.map := by
    rw [hp]
    exact Multiset.mem_map_of_mem _ (Finset.mem_univ_val a)
  exact (Multiset.disjoint_left.mp hdis.2.2) hfree hmap

theorem note (h : Good c regs r) (seqNum : ℕ) (a : A) :
    Good c regs { r with historyBuffer := ⟨seqNum, a, r.map a, r.map a⟩ :: r.historyBuffer } where
  held := by
    rw [← h.held]
    simp [Rename.held, prevs]
  current := ⟨fun hne => absurd rfl hne, by simpa [revert] using h.current⟩
  unpinned := h.unpinned
  zero := h.zero
  kept := by
    intro e he
    rcases List.mem_cons.mp he with rfl | he
    · exact fun hne => absurd rfl hne
    · exact h.kept e he

theorem take (h : Good c regs r) (hf : r.freeRegs = p :: ps) (seqNum : ℕ)
    {a : A} (ha : c.zeroReg ≠ some a) :
    Good c regs ⟨Function.update r.map a p, ps, Function.update r.numPinnedWrites p 0,
      ⟨seqNum, a, p, r.map a⟩ :: r.historyBuffer⟩ where
  held := by
    have hne := h.fresh hf a
    have hprev : prevs (⟨seqNum, a, p, r.map a⟩ :: r.historyBuffer) =
        r.map a :: prevs r.historyBuffer := by
      simp [prevs, hne]
    have hmap := map_update r.map a p
    rw [← h.held, Rename.held, Rename.held, hprev, hf, ← cons_coe, ← cons_coe,
      ← singleton_add, ← singleton_add]
    calc (ps : Multiset P) + Finset.univ.val.map (Function.update r.map a p) +
          ({r.map a} + (prevs r.historyBuffer : Multiset P))
        = (ps : Multiset P) + (Finset.univ.val.map (Function.update r.map a p) + {r.map a}) +
          (prevs r.historyBuffer : Multiset P) := by ac_rfl
      _ = {p} + (ps : Multiset P) + Finset.univ.val.map r.map +
          (prevs r.historyBuffer : Multiset P) := by
        rw [hmap]
        ac_rfl
  current := by
    have hne := h.fresh hf a
    refine ⟨fun _ => update_self .., ?_⟩
    rw [revert, if_pos hne, update_idem, update_eq_self]
    exact h.current
  unpinned q := by
    by_cases hq : q = p
    · rw [hq]
      exact update_self ..
    · exact (update_of_ne hq ..).trans (h.unpinned q)
  zero z hz := by
    have hza : z ≠ a := by
      rintro rfl
      exact ha hz
    exact (congrArg _ (update_of_ne hza ..)).trans (h.zero z hz)
  kept := by
    intro e he
    rcases List.mem_cons.mp he with rfl | he
    · exact fun _ => ha
    · exact h.kept e he

theorem undo (h : Good c regs { r with historyBuffer := e :: es }) :
    Good c regs { undo e r with historyBuffer := es } := by
  by_cases hne : e.newPhysReg = e.prevPhysReg
  · have hu : O3.undo e r = r := by rw [O3.undo, if_neg (not_not.mpr hne)]
    have hrev : e.revert r.map = r.map := by rw [revert, if_neg (not_not.mpr hne)]
    refine ⟨?_, ?_, ?_, ?_, fun e' he' => h.kept e' (List.mem_cons_of_mem _ he')⟩
    · rw [← h.held, hu]
      simp [Rename.held, prevs, hne]
    · rw [hu]
      exact hrev ▸ h.current.2
    · rw [hu]
      exact h.unpinned
    · rw [hu]
      exact h.zero
  · have hu : O3.undo e r = { r with
        map := Function.update r.map e.archReg e.prevPhysReg
        freeRegs := r.freeRegs ++ [e.newPhysReg] } := by rw [O3.undo, if_pos hne]
    have hcur : r.map e.archReg = e.newPhysReg := h.current.1 hne
    have hrev : e.revert r.map = Function.update r.map e.archReg e.prevPhysReg := by
      rw [revert, if_pos hne]
    rw [hu]
    refine ⟨?_, hrev ▸ h.current.2, h.unpinned, fun z hz => ?_,
      fun e' he' => h.kept e' (List.mem_cons_of_mem _ he')⟩
    · have hmap := map_update r.map e.archReg e.prevPhysReg
      have hprev : prevs (e :: es) = e.prevPhysReg :: prevs es := by simp [prevs, hne]
      rw [← h.held, Rename.held, Rename.held]
      simp only [hprev]
      rw [← cons_coe, ← singleton_add, ← coe_add,
        coe_singleton, ← hcur]
      calc (r.freeRegs : Multiset P) + {r.map e.archReg} +
            Finset.univ.val.map (Function.update r.map e.archReg e.prevPhysReg) +
            (prevs es : Multiset P)
          = (r.freeRegs : Multiset P) +
            (Finset.univ.val.map (Function.update r.map e.archReg e.prevPhysReg) +
              {r.map e.archReg}) + (prevs es : Multiset P) := by ac_rfl
        _ = (r.freeRegs : Multiset P) + Finset.univ.val.map r.map +
            ({e.prevPhysReg} + (prevs es : Multiset P)) := by
          rw [hmap]
          ac_rfl
    · have hza : z ≠ e.archReg := by
        rintro rfl
        exact h.kept e List.mem_cons_self hne hz
      exact (congrArg _ (update_of_ne hza ..)).trans (h.zero z hz)

theorem release (h : Good c regs { r with historyBuffer := es ++ [e] }) :
    Good c regs { release e r with historyBuffer := es } := by
  have hkept : ∀ e' ∈ es, e'.newPhysReg ≠ e'.prevPhysReg → c.zeroReg ≠ some e'.archReg :=
    fun e' he' => h.kept e' (mem_append_left _ he')
  by_cases hne : e.newPhysReg = e.prevPhysReg
  · have hu : O3.release e r = r := by rw [O3.release, if_neg (not_not.mpr hne)]
    rw [hu]
    refine ⟨?_, h.current.of_append, h.unpinned, h.zero, hkept⟩
    rw [← h.held]
    simp [Rename.held, prevs, hne]
  · have hu : O3.release e r = { r with freeRegs := r.freeRegs ++ [e.prevPhysReg] } := by
      rw [O3.release, if_pos hne]
    rw [hu]
    refine ⟨?_, h.current.of_append, h.unpinned, h.zero, hkept⟩
    have hprev : prevs (es ++ [e]) = prevs es ++ [e.prevPhysReg] := by simp [prevs, hne]
    rw [← h.held, Rename.held, Rename.held]
    simp only [hprev]
    rw [← coe_add, ← coe_add, coe_singleton]
    ac_rfl

end Good

section Loops

variable {c : RegClass A P} {regs : Finset P} {r : Rename A P} {n : ℕ}

def needed (c : RegClass A P) (dests : List (A × ℕ)) : ℕ :=
  dests.countP fun d => c.zeroReg ≠ some d.1

theorem renameDestReg_good (h : Good c regs r) {dest : A × ℕ} (hpin : dest.2 = 0)
    (hfree : needed c [dest] ≤ r.freeRegs.length) :
    ∃ r' e, renameDestReg c n r dest = .ok r' ∧ Good c regs r' ∧
      r'.historyBuffer = e :: r.historyBuffer ∧ e.instSeqNum = n ∧ e.revert r'.map = r.map ∧
      r.freeRegs.length = r'.freeRegs.length + needed c [dest] := by
  obtain ⟨a, k⟩ := dest
  obtain rfl : k = 0 := hpin
  by_cases hz : c.zeroReg = some a
  · have hneed : needed c [(a, 0)] = 0 := by simp [needed, hz]
    refine ⟨_, ⟨n, a, r.map a, r.map a⟩, ?_, h.note n a, rfl, rfl, ?_, by rw [hneed]; rfl⟩
    · simp only [renameDestReg, rename, if_pos hz, require, if_pos (h.zero a hz)]
      rfl
    · simp [revert]
  · have hneed : needed c [(a, 0)] = 1 := by simp [needed, hz]
    obtain ⟨p, ps, hps⟩ : ∃ p ps, r.freeRegs = p :: ps :=
      exists_cons_of_length_pos (by omega)
    have hpinned : ¬ 0 < r.numPinnedWrites (r.map a) := by simp [h.unpinned]
    refine ⟨_, ⟨n, a, p, r.map a⟩, ?_, h.take hps n hz, rfl, rfl, ?_, by rw [hneed, hps]; rfl⟩
    · simp only [renameDestReg, rename, if_neg hz, if_neg hpinned, hps]
      rfl
    · rw [revert, if_pos (h.fresh hps a)]
      simp

/-- The registers `ds` are still to be renamed; those that were from `r` on can be reverted. -/
def Unrenamed (c : RegClass A P) (regs : Finset P) (n : ℕ) (r : Rename A P) (ds : List (A × ℕ))
    (t : Rename A P) : Prop :=
  (∀ d ∈ ds, d.2 = 0) ∧ needed c ds ≤ t.freeRegs.length ∧ Good c regs t ∧
    ∃ es, t.historyBuffer = es ++ r.historyBuffer ∧ (∀ e ∈ es, e.instSeqNum = n) ∧
      revertAll es t.map = r.map

theorem renameDestRegs_good (h : Good c regs r)
    (hpin : ∀ d ∈ dests, d.2 = 0) (hfree : needed c dests ≤ r.freeRegs.length) :
    ∃ r' es, renameDestRegs c n r dests = .ok r' ∧ Good c regs r' ∧
      r'.historyBuffer = es ++ r.historyBuffer ∧ (∀ e ∈ es, e.instSeqNum = n) ∧
      revertAll es r'.map = r.map := by
  have hkeep : ∀ {t d ds}, Unrenamed c regs n r (d :: ds) t →
      ∃ t', renameDestReg c n t d = .ok t' ∧ Unrenamed c regs n r ds t' := by
    rintro t d ds ⟨hp, hf, hg, es, hhist, hseq, hrev⟩
    have hneed : needed c (d :: ds) = needed c ds + needed c [d] := by
      simp [needed, List.countP_cons]
    obtain ⟨t', e, ht', hg', hhist', hseq', hrev', hlen⟩ :=
      renameDestReg_good (n := n) hg (hp d List.mem_cons_self) (by omega)
    refine ⟨t', ht', fun d' hd' => hp d' (List.mem_cons_of_mem _ hd'), by omega, hg', e :: es, ?_,
      ?_, ?_⟩
    · rw [hhist', hhist]
      rfl
    · intro e' he'
      rcases List.mem_cons.mp he' with rfl | he'
      · exact hseq'
      · exact hseq e' he'
    · rw [revertAll, hrev', hrev]
  obtain ⟨r', hr', -, -, hg, es, hhist, hseq, hrev⟩ :=
    Runs.run_consumes hkeep ⟨hpin, hfree, h, [], rfl, by simp, rfl⟩
  exact ⟨r', es, hr', hg, hhist, hseq, hrev⟩

theorem squashLoop_good (h : Good c regs { r with historyBuffer := es }) :
    Good c regs (squashLoop n es r) ∧ (squashLoop n es r).map = revertTo n es r.map ∧
      (squashLoop n es r).historyBuffer = es.dropWhile fun e => n < e.instSeqNum := by
  induction es generalizing r with
  | nil => exact ⟨h, rfl, rfl⟩
  | cons e es ih =>
    by_cases he : n < e.instSeqNum
    · have hmap : (undo e r).map = e.revert r.map := by
        rw [undo, revert]
        split_ifs <;> rfl
      rw [squashLoop, if_pos he, revertTo, if_pos he,
        dropWhile_cons_of_pos (by simpa using he), ← hmap]
      exact ih h.undo
    · rw [squashLoop, if_neg he, revertTo, if_neg he,
        dropWhile_cons_of_neg (by simpa using he)]
      exact ⟨h, rfl, rfl⟩

theorem commitLoop_good (h : Good c regs { r with historyBuffer := es.reverse }) :
    Good c regs (commitLoop n es r) ∧ (commitLoop n es r).map = r.map ∧
      ∃ old, es.reverse = (commitLoop n es r).historyBuffer ++ old ∧
        ∀ e ∈ old, e.instSeqNum ≤ n := by
  induction es generalizing r with
  | nil => exact ⟨h, rfl, [], rfl, by simp⟩
  | cons e es ih =>
    by_cases he : e.instSeqNum ≤ n
    · have hmap : (release e r).map = r.map := by
        rw [release]
        split_ifs <;> rfl
      rw [reverse_cons] at h
      obtain ⟨hg, hm, old, hold, hle⟩ := ih h.release
      rw [commitLoop, if_pos he]
      refine ⟨hg, hm.trans hmap, old ++ [e], ?_, ?_⟩
      · rw [reverse_cons, hold, append_assoc]
      · intro e' he'
        rcases mem_append.mp he' with he' | he'
        · exact hle e' he'
        · exact List.mem_singleton.mp he' ▸ he
    · rw [commitLoop, if_neg he]
      exact ⟨h, rfl, [], (append_nil _).symm, by simp⟩

end Loops

def Respects (c : RegClass A P) (s : Stage A P) : Event A → Prop
  | .rename seqNum dests =>
    s.newest < seqNum ∧ (∀ d ∈ dests, d.2 = 0) ∧ needed c dests ≤ s.core.freeRegs.length
  | .squash seqNum => s.committed ≤ seqNum
  | .commit seqNum => s.committed ≤ seqNum

instance (c : RegClass A P) (s : Stage A P) (e : Event A) : Decidable (Respects c s e) := by
  cases e <;> unfold Respects <;> infer_instance

structure Undoable (c : RegClass A P) (regs : Finset P) (s : Stage A P) : Prop where
  good : Good c regs s.core
  newest : ∀ e ∈ s.core.historyBuffer, e.instSeqNum ≤ s.newest
  undone : ∀ n, s.committed ≤ n → revertTo n s.core.historyBuffer s.core.map = s.mapAfter n

section Stages

variable {c : RegClass A P} {regs : Finset P} {s : Stage A P} {n : ℕ}

variable {k : ℕ} {l : List (ℕ × (A → P))}

omit [DecidableEq A] [DecidableEq P] [Fintype A] in
theorem mapAfter_cons {m : A → P} (hl : s.renamed = (k, m) :: l) :
    s.mapAfter n = if k ≤ n then m else { s with renamed := l }.mapAfter n := by
  rw [Stage.mapAfter, hl, List.find?_cons]
  split_ifs with h
  · simp [h]
  · simp [h, Stage.mapAfter]

omit [DecidableEq A] [DecidableEq P] [Fintype A] in
theorem mapAfter_dropWhile :
    { s with renamed := l.dropWhile fun i => n < i.1 }.mapAfter k =
      { s with renamed := l }.mapAfter (min n k) := by
  induction l with
  | nil => rfl
  | cons i l ih =>
    have hcons (n : ℕ) := mapAfter_cons (s := { s with renamed := i :: l }) (n := n) (m := i.2)
      (k := i.1) rfl
    by_cases hi : n < i.1
    · rw [dropWhile_cons_of_pos (by simpa using hi), ih, hcons, if_neg (by omega)]
    · rw [dropWhile_cons_of_neg (by simpa using hi)]
      rcases le_total k n with hk | hk
      · rw [min_eq_right hk]
      · rw [hcons, hcons, if_pos (by omega), if_pos (by omega)]

theorem Undoable.rename (h : Undoable c regs s) (hc : Respects c s (.rename n dests)) :
    ∃ t, step c s (.rename n dests) = .ok t ∧ Undoable c regs t := by
  obtain ⟨hnew, hpin, hfree⟩ := hc
  obtain ⟨r, es, hr, hg, hhist, hseq, hrev⟩ := renameDestRegs_good (n := n) h.good hpin hfree
  refine ⟨_, by rw [step, hr]; rfl, hg, ?_, ?_⟩
  · intro e he
    rw [hhist] at he
    rcases mem_append.mp he with he | he
    · exact (hseq e he).le
    · exact (h.newest e he).trans hnew.le
  · intro k hk
    rw [mapAfter_cons rfl, hhist]
    split_ifs with hle
    · refine revertTo_of_le fun e he => ?_
      rcases mem_append.mp he with he | he
      · exact (hseq e he).le.trans hle
      · exact (h.newest e he).trans (hnew.le.trans hle)
    · rw [revertTo_append_newer fun e he => by rw [hseq e he]; omega, hrev]
      exact h.undone k hk

theorem Undoable.squash (h : Undoable c regs s) (hc : s.committed ≤ n) :
    ∃ t, step c s (.squash n) = .ok t ∧ t.core.map = s.mapAfter n ∧ Undoable c regs t := by
  obtain ⟨hg, hmap, hhist⟩ := squashLoop_good (n := n) h.good
  have hafter : (doSquash n s.core).map = s.mapAfter n := hmap.trans (h.undone n hc)
  refine ⟨_, rfl, hafter, hg, ?_, ?_⟩
  · intro e he
    rw [doSquash, hhist] at he
    exact h.newest e ((dropWhile_sublist _).subset he)
  · intro k hk
    show revertTo k (doSquash n s.core).historyBuffer (doSquash n s.core).map = _
    have hkept := mapAfter_dropWhile (s := s) (l := s.renamed) (n := n) (k := k)
    rcases le_total k n with hkn | hkn
    · rw [doSquash, hhist, hmap, revertTo_dropWhile hkn]
      rw [min_eq_right hkn] at hkept
      exact (h.undone k hk).trans hkept.symm
    · -- nothing is left behind the number of the squash
      rw [revertTo_of_head, hafter]
      · rw [min_eq_left hkn] at hkept
        exact hkept.symm
      · intro e he
        rw [doSquash, hhist] at he
        have hstop := List.head?_dropWhile_not (fun e : RenameHistory A P => n < e.instSeqNum)
          s.core.historyBuffer
        rw [Option.mem_def.mp he] at hstop
        simp only [decide_eq_false_iff_not, not_lt] at hstop
        omega

theorem Undoable.commit (h : Undoable c regs s) (hc : s.committed ≤ n) :
    ∃ t, step c s (.commit n) = .ok t ∧ Undoable c regs t := by
  have hgood : Good c regs { s.core with
      historyBuffer := s.core.historyBuffer.reverse.reverse } := by
    rw [reverse_reverse]
    exact h.good
  obtain ⟨hg, hmap, old, hold, hle⟩ := commitLoop_good (n := n) hgood
  rw [reverse_reverse] at hold
  refine ⟨_, rfl, hg, ?_, ?_⟩
  · intro e he
    refine h.newest e ?_
    rw [hold]
    exact mem_append_left _ he
  · intro k hk
    have hold' : revertTo k ((removeFromHistory n s.core).historyBuffer ++ old) s.core.map =
        revertTo k (removeFromHistory n s.core).historyBuffer s.core.map :=
      revertTo_append_older fun e he => (hle e he).trans hk
    show revertTo k (removeFromHistory n s.core).historyBuffer (removeFromHistory n s.core).map = _
    rw [removeFromHistory, hmap, ← removeFromHistory, ← hold', removeFromHistory, ← hold]
    exact h.undone k (hc.trans hk)

theorem Undoable.step (h : Undoable c regs s) {e : Event A} (hc : Respects c s e) :
    ∃ t, step c s e = .ok t ∧ Undoable c regs t := by
  cases e with
  | rename n dests => exact h.rename hc
  | squash n =>
    obtain ⟨t, ht, -, hu⟩ := h.squash hc
    exact ⟨t, ht, hu⟩
  | commit n => exact h.commit hc

end Stages

theorem boot_undoable {c : RegClass A P} {regs : Finset P} {map : A → P} {freeRegs : List P}
    (hregs : (freeRegs : Multiset P) + Finset.univ.val.map map = regs.val)
    (hzero : ∀ z, c.zeroReg = some z → c.isZeroReg (map z) = true) :
    Undoable c regs (boot map freeRegs) where
  good := {
    held := by
      rw [← hregs]
      simp [boot, Rename.held, prevs]
    current := trivial
    unpinned := fun _ => rfl
    zero := hzero
    kept := by simp [boot] }
  newest := by simp [boot]
  undone := fun _ _ => rfl

theorem rename_conserves (c : RegClass A P) (regs : Finset P) (map : A → P) (freeRegs : List P)
    (hregs : (freeRegs : Multiset P) + Finset.univ.val.map map = regs.val)
    (hzero : ∀ z, c.zeroReg = some z → c.isZeroReg (map z) = true) (es : List (Event A))
    (hes : Runs.Meets (step c) (Respects c) (boot map freeRegs) es) :
    ∃ s, Runs.run (step c) (boot map freeRegs) es = .ok s ∧
      (s.core.freeRegs : Multiset P) + Finset.univ.val.map s.core.map +
        (prevs s.core.historyBuffer : Multiset P) = regs.val ∧
      ∀ n, s.committed ≤ n →
        ∃ t, step c s (.squash n) = .ok t ∧ t.core.map = s.mapAfter n := by
  obtain ⟨s, hs, hu⟩ := hes.keeps (fun h hc => h.step hc) (boot_undoable hregs hzero)
  refine ⟨s, hs, hu.good.held, fun n hn => ?_⟩
  obtain ⟨t, ht, hmap, -⟩ := hu.squash hn
  exact ⟨t, ht, hmap⟩

def zeroSecond : RegClass (Fin 2) (Fin 5) := ⟨some (Fin.last 1), fun p => p.val == 1⟩

def twiceWritten : List (Event (Fin 2)) :=
  let first : Fin 2 := ⟨0, Nat.two_pos⟩
  let zero : Fin 2 := Fin.last 1
  [.rename 1 [(first, 0), (first, 0)], .rename 2 [(zero, 0), (first, 0)], .squash 1,
    .rename 3 [(zero, 0)], .commit 1, .rename 4 [(first, 0)], .squash 3]

theorem rename_conserves_twiceWritten :
    ∃ s, Runs.run (step zeroSecond) (boot (fun a => a.castLE (by decide)) [2, 3, 4]) twiceWritten =
        .ok s ∧
      (s.core.freeRegs : Multiset (Fin 5)) + Finset.univ.val.map s.core.map +
        (prevs s.core.historyBuffer : Multiset (Fin 5)) = (Finset.univ : Finset (Fin 5)).val ∧
      ∀ n, s.committed ≤ n →
        ∃ t, step zeroSecond s (.squash n) = .ok t ∧ t.core.map = s.mapAfter n :=
  rename_conserves zeroSecond Finset.univ _ [2, 3, 4] (by decide) (by decide) twiceWritten
    (by decide)

end HetSim.O3
