import HetSim.Branch.Tage
import HetSim.Library.Folding

/-!
# The folded histories follow the outcomes

A branch of the surviving path has its place in the buffer by its age. The outcomes behind a
branch in flight are still there as long as at most `d` branches follow it.
-/

namespace HetSim.Branch
open Checked Runs Folding List BitVec ThreadHistory FoldedHistory
open Address (Addr)

def cell (b : Bool) : BitVec 8 := if b then 1 else 0

theorem cell_setWidth (b : Bool) : (cell b).setWidth 32 = bit 32 b := by
  cases b <;> rfl

def out (path : List (Bool × Addr)) (i : ℕ) : Bool := (path[i]?.map Prod.fst).getD false

theorem out_cons (b : Bool) (pc : Addr) (path : List (Bool × Addr)) :
    out ((b, pc) :: path) = push b (out path) := by
  funext i
  cases i with
  | zero => rfl
  | succ i => rfl

theorem out_drop (path : List (Bool × Addr)) (k i : ℕ) :
    out (path.drop k) i = out path (k + i) := by
  rw [out, List.getElem?_drop]
  rfl

/-! ## One folded history -/

variable {c n k : ℕ} {b : Bool} {bi : BranchInfo} {t : ThreadHistory}

theorem rotate_eq {r : ℕ} (hc : 0 < c) (hc32 : c < 32) (hr : r < c) {x : BitVec 32}
    (hx : ∀ i, c ≤ i → x.getLsbD i = false) (b b' : Bool) :
    ((((x <<< 1) ||| bit 32 b) ^^^ (bit 32 b' <<< r)) ^^^
        ((((x <<< 1) ||| bit 32 b) ^^^ (bit 32 b' <<< r)) >>> c)) &&& mask 32 c =
      bit 32 b ^^^ rotate c x ^^^ bit 32 b' <<< r := by
  have hbit : ∀ i, (bit 32 b).getLsbD i = (decide (i < 32 ∧ i = 0) && b) := by
    intro i
    rw [← getLsbD_bit, shiftLeft_zero]
  have hshift := fun i => getLsbD_bit (w := 32) b' r i
  generalize bit 32 b' <<< r = y at hshift ⊢
  apply eq_of_getLsbD_eq
  intro i hi
  simp only [getLsbD_and, getLsbD_xor, getLsbD_ushiftRight, getLsbD_or,
    getLsbD_shiftLeft, hbit, hshift, getLsbD_mask hc32, getLsbD_rotate hc32]
  by_cases hic : i < c
  · by_cases h0 : i = 0
    · subst h0
      have hcr : c ≠ r := by omega
      have hc0 : c ≠ 0 := by omega
      simp [hc, hc32, hcr, hc0, Bool.xor_comm, Bool.xor_left_comm]
    · have hcir : c + i ≠ r := by omega
      have hxhigh : x.getLsbD (c + i - 1) = false := hx _ (by omega)
      simp [hic, h0, hi, hcir, hxhigh]
  · have h0 : i ≠ 0 := by omega
    have hir : i ≠ r := by omega
    simp [hic, h0, hir]

theorem mask_setWidth (hc : c < 32) : (((1 : BitVec 64) <<< c) - 1).setWidth 32 = mask 32 c := by
  apply eq_of_getLsbD_eq
  intro i hi
  have hmask : ((1 : BitVec 64) <<< c) - 1 = mask 64 c := rfl
  rw [hmask, getLsbD_setWidth, getLsbD_mask (by omega), getLsbD_mask hc]
  simp [hi]

def folded (compLength origLength : ℕ) (out : ℕ → Bool) : FoldedHistory :=
  ⟨fold 32 compLength out origLength, compLength, origLength, origLength % compLength⟩

theorem folded_update (hc : 0 < c) (hc32 : c < 32) {out : ℕ → Bool}
    {h : ℕ → BitVec 8} (h0 : h 0 = cell b) (hn : h n = cell (push b out n)) :
    (folded c n out).update h = folded c n (push b out) := by
  rw [update, folded, folded]
  congr 1
  rw [h0, hn, cell_setWidth, cell_setWidth, mask_setWidth hc32,
    rotate_eq hc hc32 (Nat.mod_lt n hc) (fun i hi => getLsbD_fold hc out n hi),
    ← fold_push_out hc hc32]

/-! ## The tables -/

section

variable {p : TageParams} {t : ThreadHistory} {cl : ℕ → ℕ} {tables : ℕ → FoldedHistory}
  {out out' : ℕ → Bool}

structure TageParams.Valid (p : TageParams) : Prop where
  histLengths : ∀ i, 1 ≤ i → i ≤ p.nHistoryTables → p.histLengths i ≤ p.maxHist
  indices : ∀ i, 1 ≤ i → i ≤ p.nHistoryTables → 0 < p.logTagTableSizes i ∧ p.logTagTableSizes i < 32
  tags : ∀ i, 1 ≤ i → i ≤ p.nHistoryTables →
    0 < p.tagTableTagWidths i - 1 ∧ p.tagTableTagWidths i < 32

def Folds (p : TageParams) (cl : ℕ → ℕ) (tables : ℕ → FoldedHistory) (out : ℕ → Bool) : Prop :=
  ∀ i, 1 ≤ i → i ≤ p.nHistoryTables → tables i = folded (cl i) (p.histLengths i) out

theorem Folds.update (h : Folds p cl tables out)
    (hlen : ∀ i, 1 ≤ i → i ≤ p.nHistoryTables → p.histLengths i ≤ p.maxHist)
    (hcl : ∀ i, 1 ≤ i → i ≤ p.nHistoryTables → 0 < cl i ∧ cl i < 32) {cells : ℕ → BitVec 8}
    (hcells : ∀ j ≤ p.maxHist, cells j = cell (push b out j)) :
    Folds p cl (forTables p (fun _ f => f.update cells) tables) (push b out) := by
  intro i h₁ hn
  obtain ⟨hc, hc32⟩ := hcl i h₁ hn
  rw [forTables, if_pos ⟨h₁, hn⟩, h i h₁ hn]
  exact folded_update hc hc32 (hcells 0 (Nat.zero_le _)) (hcells _ (hlen i h₁ hn))

theorem Folds.restore (h : Folds p cl tables out) {saved : ℕ → BitVec 32}
    (hsaved : ∀ i, 1 ≤ i → i ≤ p.nHistoryTables → saved i = fold 32 (cl i) out' (p.histLengths i)) :
    Folds p cl (forTables p (fun i f => { f with comp := saved i }) tables) out' := by
  intro i h₁ hn
  rw [forTables, if_pos ⟨h₁, hn⟩, h i h₁ hn, hsaved i h₁ hn]
  rfl

structure AllFolds (p : TageParams) (t : ThreadHistory) (out : ℕ → Bool) : Prop where
  indices : Folds p p.logTagTableSizes t.computeIndices out
  tags0 : Folds p p.tagTableTagWidths t.computeTags0 out
  tags1 : Folds p (fun i => p.tagTableTagWidths i - 1) t.computeTags1 out

theorem AllFolds.update (hp : p.Valid) (h : AllFolds p t out)
    (hcells : ∀ j ≤ p.maxHist, t.outcomes j = cell (push b out j)) :
    AllFolds p (t.updateFolded p) (push b out) where
  indices := h.indices.update hp.histLengths hp.indices hcells
  tags0 := h.tags0.update hp.histLengths
    (fun i h₁ hn => by have := hp.tags i h₁ hn; omega) hcells
  tags1 := h.tags1.update hp.histLengths
    (fun i h₁ hn => by have := hp.tags i h₁ hn; omega) hcells

structure Saves (p : TageParams) (bi : BranchInfo) (out : ℕ → Bool) : Prop where
  ci : ∀ i, 1 ≤ i → i ≤ p.nHistoryTables → bi.ci i = fold 32 (p.logTagTableSizes i) out
    (p.histLengths i)
  ct0 : ∀ i, 1 ≤ i → i ≤ p.nHistoryTables →
    bi.ct0 i = fold 32 (p.tagTableTagWidths i) out (p.histLengths i)
  ct1 : ∀ i, 1 ≤ i → i ≤ p.nHistoryTables →
    bi.ct1 i = fold 32 (p.tagTableTagWidths i - 1) out (p.histLengths i)

theorem AllFolds.restore (h : AllFolds p t out) (hbi : Saves p bi out') :
    AllFolds p (t.restoreFolded p bi) out' :=
  ⟨h.indices.restore hbi.ci, h.tags0.restore hbi.ct0, h.tags1.restore hbi.ct1⟩

end

/-! ## The buffer -/

def pathHistOf (p : TageParams) : List (Bool × Addr) → BitVec 32
  | [] => 0
  | (_, pc) :: path => ThreadHistory.nextPathHist p (pathHistOf p path) pc

theorem pathHistOf_correct (p : TageParams) (taken : Bool) (path : List (Bool × Addr)) :
    pathHistOf p (correct taken path) = pathHistOf p path := by
  cases path with
  | nil => rfl
  | cons x path => rfl

theorem length_correct (taken : Bool) (path : List (Bool × Addr)) :
    (correct taken path).length = path.length := by
  cases path with
  | nil => rfl
  | cons x path => rfl

theorem drop_correct (taken : Bool) (path : List (Bool × Addr)) (k : ℕ) :
    (correct taken path).drop (k + 1) = path.drop (k + 1) := by
  cases path with
  | nil => rfl
  | cons x path => rfl

def TageParams.places (p : TageParams) : ℕ := p.histBufferSize - p.maxHist

/-- The state of the histories along a path. A branch that is followed by `k` others has its
place `k` places on. -/
structure Tracks (p : TageParams) (d : ℕ) (s : Predictor) : Prop where
  gHist : s.history.gHist = s.history.ptGhist
  pt_lt : s.history.ptGhist < p.places
  pt_path : (s.history.ptGhist + s.path.length) % p.places = 0
  pathHist : s.history.pathHist = pathHistOf p s.path
  length_le : s.inFlight.length ≤ d + 1
  length_path : s.inFlight.length ≤ s.path.length
  cells : ∀ k, k = 0 ∨ k < s.inFlight.length → ∀ j ≤ p.maxHist,
    s.history.globalHistory ((s.history.ptGhist + k) % p.places + j) = cell (out s.path (k + j))
  folds : AllFolds p s.history (out s.path)
  saved : ∀ k bi, s.inFlight[k]? = some bi → bi.ptGhist = (s.history.ptGhist + k) % p.places ∧
    bi.pathHist = pathHistOf p (s.path.drop k) ∧ Saves p bi (out (s.path.drop (k + 1)))

section

variable {p : TageParams} {d : ℕ} {s : Predictor}

theorem mod_places {x : ℕ} (hx : x < n) (hk : k < n) :
    (x + k) % n = if x + k < n then x + k else x + k - n := by
  split_ifs with h
  · exact Nat.mod_eq_of_lt h
  · rw [Nat.mod_eq_sub_mod (by omega), Nat.mod_eq_of_lt (by omega)]

theorem updateGHist_ptGhist (t : ThreadHistory) (dir : Bool) : (t.updateGHist p dir).ptGhist =
    if t.ptGhist = 0 then p.places - 1 else t.ptGhist - 1 := by
  rw [updateGHist]
  split_ifs <;> rfl

theorem updateGHist_gHist (h : t.gHist = t.ptGhist) (dir : Bool) :
    (t.updateGHist p dir).gHist = (t.updateGHist p dir).ptGhist := by
  rw [updateGHist]
  split_ifs
  · rfl
  · exact congrArg (· - 1) h

theorem updateGHist_cells (h : t.gHist = t.ptGhist) (dir : Bool) (a : ℕ) :
    (t.updateGHist p dir).globalHistory a =
      if a = (t.updateGHist p dir).ptGhist then cell dir
      else if t.ptGhist = 0 ∧ p.places ≤ a ∧ a < p.histBufferSize then
        t.globalHistory (a - p.places)
      else t.globalHistory a := by
  have hset : ∀ t : ThreadHistory, t.gHist = t.ptGhist →
      (t.setNewest dir).globalHistory a = if a = t.ptGhist then cell dir
        else t.globalHistory a := by
    intro t ht
    rw [setNewest, ht]
    exact Function.update_apply _ _ _ _
  rw [updateGHist_ptGhist, updateGHist]
  by_cases hpt : t.ptGhist = 0
  · rw [if_pos hpt, hset _ rfl]
    simp only [hpt, true_and, if_true]
    rfl
  · rw [if_neg hpt, hset _ (congrArg (· - 1) h)]
    simp only [hpt, false_and, if_false]

theorem updateGHist_tracks (h : Tracks p d s) (hsize : 2 * p.maxHist + d < p.histBufferSize)
    (dir : Bool) (hk : k = 0 ∨ k ≤ d ∧ (k = 1 ∨ k - 1 < s.inFlight.length)) {j : ℕ}
    (hj : j ≤ p.maxHist) :
    (s.history.updateGHist p dir).globalHistory
        (((s.history.updateGHist p dir).ptGhist + k) % p.places + j) =
      cell (push dir (out s.path) (k + j)) := by
  have hpt := h.pt_lt
  have hplaces : p.places = p.histBufferSize - p.maxHist := rfl
  rw [updateGHist_cells h.gHist, updateGHist_ptGhist]
  by_cases hzero : k = 0
  · subst hzero
    have hnew : ((if s.history.ptGhist = 0 then p.places - 1 else s.history.ptGhist - 1) + 0) %
        p.places = if s.history.ptGhist = 0 then p.places - 1 else s.history.ptGhist - 1 := by
      rw [Nat.add_zero, Nat.mod_eq_of_lt]
      split_ifs <;> omega
    rw [hnew, Nat.zero_add]
    cases j with
    | zero => rw [Nat.add_zero, if_pos rfl]; rfl
    | succ j =>
      have hcells := h.cells 0 (.inl rfl) j (by omega)
      rw [Nat.add_zero, Nat.mod_eq_of_lt hpt, Nat.zero_add] at hcells
      rw [if_neg (by omega)]
      change _ = cell (out s.path j)
      rw [← hcells]
      by_cases hpt0 : s.history.ptGhist = 0
      · simp only [hpt0, if_true, true_and]
        rw [if_pos (by omega)]
        congr 1
        omega
      · simp only [hpt0, if_false, false_and]
        congr 1
        omega
  · obtain ⟨hkd, hk⟩ : k ≤ d ∧ (k = 1 ∨ k - 1 < s.inFlight.length) := by
      rcases hk with hk | hk
      · exact absurd hk hzero
      · exact hk
    have hcells := h.cells (k - 1) (by omega) j hj
    have hold := mod_places hpt (show k - 1 < p.places by omega)
    have hsame : ((if s.history.ptGhist = 0 then p.places - 1 else s.history.ptGhist - 1) + k) %
        p.places = (s.history.ptGhist + (k - 1)) % p.places := by
      split_ifs with hpt0
      · rw [hpt0, Nat.zero_add, show p.places - 1 + k = k - 1 + p.places by omega,
          Nat.add_mod_right]
      · congr 1
        omega
    have hpush : push dir (out s.path) (k + j) = out s.path (k - 1 + j) := by
      rw [show k + j = (k - 1 + j) + 1 by omega]
      rfl
    rw [hsame, hpush, ← hcells]
    rw [if_neg, if_neg]
    · rw [hold]
      split_ifs <;> omega
    · rw [hold]
      split_ifs <;> omega

theorem updateGHist_folds (h : Tracks p d s) (dir : Bool) :
    AllFolds p (s.history.updateGHist p dir) (out s.path) := by
  have hsame : (s.history.updateGHist p dir).computeIndices = s.history.computeIndices ∧
      (s.history.updateGHist p dir).computeTags0 = s.history.computeTags0 ∧
      (s.history.updateGHist p dir).computeTags1 = s.history.computeTags1 := by
    rw [updateGHist]
    split_ifs <;> exact ⟨rfl, rfl, rfl⟩
  obtain ⟨hi, h0, h1⟩ := hsame
  exact ⟨hi ▸ h.folds.indices, h0 ▸ h.folds.tags0, h1 ▸ h.folds.tags1⟩

theorem updateGHist_pathHist (t : ThreadHistory) (dir : Bool) :
    (t.updateGHist p dir).pathHist = t.pathHist := by
  rw [updateGHist]
  split_ifs <;> rfl

theorem predict_eq (hspec : p.speculativeHistUpdate = true) (h : Tracks p d s) (branchPc : Addr)
    (taken : Bool) : ∃ bi t, s.step p d (.predict branchPc taken) =
        .ok ⟨t, (bi :: s.inFlight).take (d + 1), (taken, branchPc) :: s.path⟩ ∧
      t = updateFolded p { s.history.updateGHist p taken with
        pathHist := pathHistOf p ((taken, branchPc) :: s.path) } ∧
      bi.ptGhist = t.ptGhist ∧ bi.pathHist = t.pathHist ∧ Saves p bi (out s.path) := by
  have hgHist := updateGHist_gHist (p := p) h.gHist taken
  have hpath : nextPathHist p (s.history.updateGHist p taken).pathHist branchPc =
      pathHistOf p ((taken, branchPc) :: s.path) := by
    rw [updateGHist_pathHist, h.pathHist]
    rfl
  have hfolds := updateGHist_folds h taken
  refine ⟨⟨(s.history.updateGHist p taken).ptGhist, pathHistOf p ((taken, branchPc) :: s.path),
    fun i => ((s.history.updateGHist p taken).computeIndices i).comp,
    fun i => ((s.history.updateGHist p taken).computeTags0 i).comp,
    fun i => ((s.history.updateGHist p taken).computeTags1 i).comp⟩, _, ?_, rfl, rfl, rfl, ?_⟩
  · rw [Predictor.step, updateHistories, if_neg (by rw [hspec]; exact not_not.mpr rfl)]
    dsimp only
    rw [hpath, require, if_pos (by exact hgHist)]
    rfl
  · constructor
    · exact fun i h₁ hn => congrArg comp (hfolds.indices i h₁ hn)
    · exact fun i h₁ hn => congrArg comp (hfolds.tags0 i h₁ hn)
    · exact fun i h₁ hn => congrArg comp (hfolds.tags1 i h₁ hn)

variable (hp : p.Valid) (hspec : p.speculativeHistUpdate = true)
  (hsize : 2 * p.maxHist + d < p.histBufferSize) (h : Tracks p d s)

include hp hspec hsize h in
theorem predict_tracks (branchPc : Addr) (taken : Bool) :
    ∃ t, s.step p d (.predict branchPc taken) = .ok t ∧ Tracks p d t := by
  obtain ⟨bi, t, hstep, rfl, hbipt, hbipath, hbi⟩ := predict_eq hspec h branchPc taken
  refine ⟨_, hstep, ?_⟩
  have hpt := h.pt_lt
  have hplaces : p.places = p.histBufferSize - p.maxHist := rfl
  have hgHist := updateGHist_gHist (p := p) h.gHist taken
  have hnext : ((s.history.updateGHist p taken).ptGhist + 1) % p.places = s.history.ptGhist := by
    rw [updateGHist_ptGhist]
    split_ifs with hzero
    · rw [hzero, Nat.sub_add_cancel (by omega), Nat.mod_self]
    · rw [Nat.sub_add_cancel (by omega), Nat.mod_eq_of_lt hpt]
  have holder : ∀ k, ((s.history.updateGHist p taken).ptGhist + (k + 1)) % p.places =
      (s.history.ptGhist + k) % p.places := by
    intro k
    rw [show (s.history.updateGHist p taken).ptGhist + (k + 1) =
      (s.history.updateGHist p taken).ptGhist + 1 + k by omega, Nat.add_mod, hnext,
      ← Nat.mod_eq_of_lt hpt, ← Nat.add_mod, Nat.mod_eq_of_lt hpt]
  have hlt : (s.history.updateGHist p taken).ptGhist < p.places := by
    rw [updateGHist_ptGhist]
    split_ifs <;> omega
  exact {
    gHist := hgHist
    pt_lt := hlt
    pt_path := by
      rw [length_cons]
      change ((s.history.updateGHist p taken).ptGhist + (s.path.length + 1)) % p.places = 0
      rw [holder, h.pt_path]
    pathHist := rfl
    length_le := by
      rw [length_take]
      omega
    length_path := by
      have := h.length_path
      simp only [length_take, length_cons]
      omega
    cells := by
      intro k hk j hj
      rw [out_cons]
      refine updateGHist_tracks h hsize taken ?_ hj
      have := h.length_le
      simp only [length_take, length_cons] at hk
      omega
    folds := by
      rw [out_cons]
      have hfolds := updateGHist_folds h taken
      refine AllFolds.update (t := { s.history.updateGHist p taken with
          pathHist := pathHistOf p ((taken, branchPc) :: s.path) }) hp
        ⟨hfolds.indices, hfolds.tags0, hfolds.tags1⟩ fun j hj => ?_
      have hcells := updateGHist_tracks h hsize taken (.inl rfl) hj
      rw [Nat.add_zero, Nat.mod_eq_of_lt hlt, Nat.zero_add] at hcells
      rw [← hcells, ← hgHist]
      rfl
    saved := by
      intro k bi' hk
      rw [List.getElem?_take] at hk
      split_ifs at hk with hkd
      cases k with
      | zero =>
        obtain rfl : bi = bi' := Option.some.inj hk
        refine ⟨?_, hbipath, hbi⟩
        rw [Nat.add_zero, hbipt]
        exact (Nat.mod_eq_of_lt hlt).symm
      | succ k =>
        obtain ⟨h₁, h₂, h₃⟩ := h.saved k bi' hk
        exact ⟨h₁.trans (holder k).symm, h₂, h₃⟩ }

include hp hspec hsize h in
theorem squash_tracks (hbi : s.inFlight[k]? = some bi) (taken : Bool) :
    Tracks p d ⟨s.history.squash p taken bi, s.inFlight.drop k, correct taken (s.path.drop k)⟩ := by
  obtain ⟨hpt, hpath, hsaved⟩ := h.saved k bi hbi
  obtain ⟨hk, -⟩ := List.getElem?_eq_some_iff.mp hbi
  have hlen := h.length_le
  have hlenPath := h.length_path
  have hplaces : p.places = p.histBufferSize - p.maxHist := rfl
  have hlt : bi.ptGhist < p.places := hpt ▸ Nat.mod_lt _ (by have := h.pt_lt; omega)
  obtain ⟨x, rest, hdrop⟩ : ∃ x rest, s.path.drop k = x :: rest :=
    exists_cons_of_ne_nil (by rw [Ne, drop_eq_nil_iff]; omega)
  have hrest : rest = s.path.drop (k + 1) := by
    rw [← drop_drop, hdrop]
    rfl
  have hout : out (correct taken (s.path.drop k)) = push taken (out (s.path.drop (k + 1))) := by
    rw [hdrop, ← hrest]
    exact out_cons taken x.2 rest
  have hnext : ∀ i, (bi.ptGhist + i) % p.places = (s.history.ptGhist + (k + i)) % p.places := by
    intro i
    rw [hpt, Nat.mod_add_mod, Nat.add_assoc]
  have hsquash : s.history.squash p taken bi = updateFolded p
      (restoreFolded p (setNewest { s.history with
        pathHist := bi.pathHist, ptGhist := bi.ptGhist, gHist := bi.ptGhist } taken) bi) := by
    rw [squash, if_pos hspec]
  -- The place of the branch is not among those behind it or behind an older branch.
  have hcells : ∀ i, i = 0 ∨ i < (s.inFlight.drop k).length → ∀ j ≤ p.maxHist,
      Function.update s.history.globalHistory bi.ptGhist (cell taken)
          ((bi.ptGhist + i) % p.places + j) =
        cell (push taken (out (s.path.drop (k + 1))) (i + j)) := by
    intro i hi j hj
    rw [length_drop] at hi
    have hmod := mod_places hlt (show i < p.places by omega)
    by_cases hzero : i = 0 ∧ j = 0
    · rw [hzero.1, hzero.2, Nat.add_zero, Nat.add_zero, Nat.mod_eq_of_lt hlt, Function.update_self]
      rfl
    · rw [Function.update_of_ne, hnext, h.cells (k + i) (by omega) j hj]
      · congr 1
        rw [show i + j = (i + j - 1) + 1 by omega]
        change _ = out (s.path.drop (k + 1)) (i + j - 1)
        rw [out_drop]
        congr 1
        omega
      · rw [hmod]
        split_ifs <;> omega
  rw [hsquash]
  exact {
    gHist := rfl
    pt_lt := hlt
    pt_path := by
      rw [length_correct, length_drop]
      change (bi.ptGhist + (s.path.length - k)) % p.places = 0
      rw [hnext, Nat.add_sub_cancel' (by omega), h.pt_path]
    pathHist := by
      rw [pathHistOf_correct]
      exact hpath
    length_le := by
      rw [length_drop]
      omega
    length_path := by
      rw [length_correct, length_drop, length_drop]
      omega
    cells := by
      intro i hi j hj
      rw [hout]
      exact hcells i hi j hj
    folds := by
      rw [hout]
      have hfolds : AllFolds p (setNewest { s.history with
          pathHist := bi.pathHist, ptGhist := bi.ptGhist, gHist := bi.ptGhist } taken)
          (out s.path) := ⟨h.folds.indices, h.folds.tags0, h.folds.tags1⟩
      refine AllFolds.update hp (hfolds.restore hsaved) fun j hj => ?_
      have hcell := hcells 0 (.inl rfl) j hj
      rw [Nat.add_zero, Nat.mod_eq_of_lt hlt, Nat.zero_add] at hcell
      exact hcell
    saved := by
      intro i bi' hi
      rw [List.getElem?_drop] at hi
      obtain ⟨h₁, h₂, h₃⟩ := h.saved (k + i) bi' hi
      refine ⟨h₁.trans (hnext i).symm, ?_, ?_⟩
      · cases i with
        | zero => exact h₂.trans (pathHistOf_correct p taken _).symm
        | succ i =>
          rw [drop_correct, drop_drop]
          exact h₂
      · rw [drop_correct, drop_drop]
        exact h₃ }

include hspec h in
theorem btbUpdate_eq (hbi : s.inFlight[0]? = some bi) :
    s.history.btbUpdate p bi = .ok (s.history.squash p false bi) := by
  obtain ⟨hpt, hpath, -⟩ := h.saved 0 bi hbi
  rw [Nat.add_zero, Nat.mod_eq_of_lt h.pt_lt] at hpt
  rw [drop_zero, ← h.pathHist] at hpath
  have hsame : { s.history with
      pathHist := bi.pathHist, ptGhist := bi.ptGhist, gHist := bi.ptGhist } = s.history := by
    rw [hpt, hpath]
    exact congrArg (fun g => { s.history with gHist := g }) h.gHist.symm
  rw [btbUpdate, if_pos hspec, require, if_pos h.gHist, squash,
    if_pos hspec, hsame]
  rfl

include hp hspec hsize h in
theorem step_tracks (e : BranchEvent) :
    Raises (s.step p d e) (· = .noSuchBranch) ∧ ∀ t, s.step p d e = .ok t → Tracks p d t := by
  cases e with
  | predict branchPc taken =>
    obtain ⟨t, ht, htracks⟩ := predict_tracks hp hspec hsize h branchPc taken
    rw [ht]
    refine ⟨.ok t, fun t' ht' => ?_⟩
    obtain rfl := Except.ok.inj ht'
    exact htracks
  | btbUpdate =>
    rw [Predictor.step]
    cases hbi : s.inFlight[0]? with
    | none =>
      rw [List.head?_eq_getElem?, hbi]
      exact ⟨.error rfl, (by simp)⟩
    | some bi =>
      rw [List.head?_eq_getElem?, hbi, demand, ok_bind, btbUpdate_eq hspec h hbi, ok_bind]
      refine ⟨.pure _, fun t ht => ?_⟩
      obtain rfl := pure_eq_ok.mp ht
      exact squash_tracks hp hspec hsize h hbi false
  | squash k taken =>
    rw [Predictor.step]
    cases hbi : s.inFlight[k]? with
    | none => exact ⟨.error rfl, by rintro _ ⟨⟩⟩
    | some bi =>
      rw [demand, ok_bind]
      refine ⟨.pure _, fun t ht => ?_⟩
      obtain rfl := pure_eq_ok.mp ht
      exact squash_tracks hp hspec hsize h hbi taken

theorem tracks_create (hcreate : create p = .ok t) : Tracks p d ⟨t, [], []⟩ := by
  simp only [create, bind_eq_ok, require_eq_ok, pure_eq_ok, exists_const] at hcreate
  obtain ⟨-, hsize, rfl⟩ := hcreate
  have hplaces : p.places = p.histBufferSize - p.maxHist := rfl
  have hfold : ∀ c n, fold 32 c (out []) n = 0 := by
    intro c n
    induction n with
    | zero => rfl
    | succ n ih =>
      have hbit : bit 32 (out [] n) = 0 := rfl
      rw [fold, ih, hbit]
      simp
  exact {
    gHist := rfl
    pt_lt := by
      change 0 < p.places
      omega
    pt_path := Nat.zero_mod _
    pathHist := rfl
    length_le := Nat.zero_le _
    length_path := le_rfl
    cells := fun k _ j _ => rfl
    folds := by
      refine ⟨fun i _ _ => ?_, fun i _ _ => ?_, fun i _ _ => ?_⟩
      all_goals
        rw [folded, hfold]
        rfl
    saved := fun k bi hk => by cases hk }

end

def foldOutcomes (h : ℕ → BitVec 8) (compLength : ℕ) : ℕ → BitVec 32
  | 0 => 0
  | n + 1 => foldOutcomes h compLength n ^^^ (h n).setWidth 32 <<< (n % compLength)

theorem foldOutcomes_eq {h : ℕ → BitVec 8} {o : ℕ → Bool} (hcells : ∀ i < n, h i = cell (o i)) :
    foldOutcomes h c n = fold 32 c o n := by
  induction n with
  | zero => rfl
  | succ n ih =>
    rw [foldOutcomes, fold, ih fun i hi => hcells i (by omega), hcells n (Nat.lt_succ_self n),
      cell_setWidth]

structure Consistent (p : TageParams) (t : ThreadHistory) : Prop where
  indices : ∀ i, 1 ≤ i → i ≤ p.nHistoryTables → (t.computeIndices i).comp =
    foldOutcomes t.outcomes (p.logTagTableSizes i) (p.histLengths i)
  tags0 : ∀ i, 1 ≤ i → i ≤ p.nHistoryTables → (t.computeTags0 i).comp =
    foldOutcomes t.outcomes (p.tagTableTagWidths i) (p.histLengths i)
  tags1 : ∀ i, 1 ≤ i → i ≤ p.nHistoryTables → (t.computeTags1 i).comp =
    foldOutcomes t.outcomes (p.tagTableTagWidths i - 1) (p.histLengths i)

structure Same (p : TageParams) (t t' : ThreadHistory) : Prop where
  pathHist : t.pathHist = t'.pathHist
  ptGhist : t.ptGhist = t'.ptGhist
  gHist : t.gHist = t'.gHist
  outcomes : ∀ i < p.maxHist, t.outcomes i = t'.outcomes i
  indices : ∀ i, 1 ≤ i → i ≤ p.nHistoryTables → t.computeIndices i = t'.computeIndices i
  tags0 : ∀ i, 1 ≤ i → i ≤ p.nHistoryTables → t.computeTags0 i = t'.computeTags0 i
  tags1 : ∀ i, 1 ≤ i → i ≤ p.nHistoryTables → t.computeTags1 i = t'.computeTags1 i

section

variable {p : TageParams} {d : ℕ} {s s' : Predictor}

theorem Tracks.outcomes (h : Tracks p d s) {i : ℕ} (hi : i ≤ p.maxHist) :
    s.history.outcomes i = cell (out s.path i) := by
  have hcells := h.cells 0 (.inl rfl) i hi
  rw [Nat.add_zero, Nat.mod_eq_of_lt h.pt_lt, Nat.zero_add] at hcells
  rw [ThreadHistory.outcomes, h.gHist, hcells]

theorem Tracks.consistent (hp : p.Valid) (h : Tracks p d s) : Consistent p s.history := by
  have heq : ∀ i, 1 ≤ i → i ≤ p.nHistoryTables → ∀ c,
      foldOutcomes s.history.outcomes c (p.histLengths i) = fold 32 c (out s.path)
        (p.histLengths i) :=
    fun i h₁ hn c => foldOutcomes_eq fun j hj =>
      h.outcomes (hj.le.trans (hp.histLengths i h₁ hn))
  constructor
  · intro i h₁ hn
    rw [h.folds.indices i h₁ hn, heq i h₁ hn, folded]
  · intro i h₁ hn
    rw [h.folds.tags0 i h₁ hn, heq i h₁ hn, folded]
  · intro i h₁ hn
    rw [h.folds.tags1 i h₁ hn, heq i h₁ hn, folded]

theorem Tracks.same (h : Tracks p d s) (h' : Tracks p d s') (hpath : s.path = s'.path) :
    Same p s.history s'.history := by
  have hpt : s.history.ptGhist = s'.history.ptGhist := by
    have hs := h.pt_path
    have hs' := h'.pt_path
    rw [hpath] at hs
    have hmod : s.history.ptGhist ≡ s'.history.ptGhist [MOD p.places] :=
      Nat.ModEq.add_right_cancel' s'.path.length (hs.trans hs'.symm)
    rw [Nat.ModEq, Nat.mod_eq_of_lt h.pt_lt, Nat.mod_eq_of_lt h'.pt_lt] at hmod
    exact hmod
  exact {
    pathHist := by rw [h.pathHist, h'.pathHist, hpath]
    ptGhist := hpt
    gHist := by rw [h.gHist, h'.gHist, hpt]
    outcomes := fun i hi => by rw [h.outcomes hi.le, h'.outcomes hi.le, hpath]
    indices := fun i h₁ hn => by rw [h.folds.indices i h₁ hn, h'.folds.indices i h₁ hn, hpath]
    tags0 := fun i h₁ hn => by rw [h.folds.tags0 i h₁ hn, h'.folds.tags0 i h₁ hn, hpath]
    tags1 := fun i h₁ hn => by rw [h.folds.tags1 i h₁ hn, h'.folds.tags1 i h₁ hn, hpath] }

end

/-- The newest outcomes in the buffer are those of the surviving path, the folded histories are
their folds, no assert fails, and after a squash the histories are as if the right direction
had been predicted. No branch that is squashed to is followed by more than `d` others. -/
theorem histories_fold {p : TageParams} {d : ℕ} (hp : p.Valid)
    (hspec : p.speculativeHistUpdate = true) (hsize : 2 * p.maxHist + d < p.histBufferSize)
    {t : ThreadHistory} (hcreate : ThreadHistory.create p = .ok t) {es : List BranchEvent}
    {s : Predictor} (h : run (Predictor.step p d) ⟨t, [], []⟩ es = .ok s) :
    (∀ i < p.maxHist, s.history.outcomes i = cell (out s.path i)) ∧ Consistent p s.history ∧
    (∀ e, Raises (s.step p d e) (· = .noSuchBranch)) ∧
    ∀ es' s', run (Predictor.step p d) ⟨t, [], []⟩ es' = .ok s' → s.path = s'.path →
      Same p s.history s'.history := by
  have htracks : ∀ {es s}, run (Predictor.step p d) ⟨t, [], []⟩ es = .ok s → Tracks p d s :=
    fun h => run_keeps (fun hs ht => (step_tracks hp hspec hsize hs _).2 _ ht)
      (tracks_create hcreate) h
  have hs := htracks h
  exact ⟨fun i hi => hs.outcomes hi.le, hs.consistent hp,
    fun e => (step_tracks hp hspec hsize hs e).1, fun es' s' h' hpath => hs.same (htracks h') hpath⟩

def oneTable : TageParams :=
  ⟨1, 12, 4, 16, 2, true, fun _ => 4, fun _ => 3, fun _ => 3⟩

def oneTableHistory : ThreadHistory :=
  (ThreadHistory.create oneTable).toOption.get (by decide +kernel)

def rolledBack : List BranchEvent :=
  [.predict 4 true, .predict 8 true, .btbUpdate, .predict 4 true, .predict 0 true, .predict 4 true,
    .predict 8 false, .predict 12 true, .predict 0 false, .predict 4 true, .squash 2 true]

theorem histories_fold_one : ∃ s,
    run (Predictor.step oneTable 2) ⟨oneTableHistory, [], []⟩ rolledBack = .ok s ∧
    s.history.outcomes 0 = cell true ∧ (s.history.computeIndices 1).comp =
      foldOutcomes s.history.outcomes 3 4 := by
  have hends : Ends (Predictor.step oneTable 2) ⟨oneTableHistory, [], []⟩ rolledBack fun s =>
      out s.path 0 = true := by
    decide +kernel
  obtain ⟨s, hs, hout⟩ := hends
  have hvalid : oneTable.Valid := by
    constructor
    · exact fun i _ _ => le_rfl
    · exact fun i _ _ => show 0 < 3 ∧ 3 < 32 by decide
    · exact fun i _ _ => show 0 < 3 - 1 ∧ 3 < 32 by decide
  have hfold := histories_fold hvalid rfl (by decide) (eq_ok_get (by decide +kernel)) hs
  refine ⟨s, hs, ?_, hfold.2.1.indices 1 le_rfl le_rfl⟩
  rw [← hout]
  exact hfold.1 0 (by decide)

def shortBuffer : TageParams :=
  ⟨1, 4, 1, 16, 2, true, fun _ => 1, fun _ => 1, fun _ => 2⟩

def shortHistory : ThreadHistory :=
  (ThreadHistory.create shortBuffer).toOption.get (by decide +kernel)

def squashedTwice : List BranchEvent :=
  [.predict 0 false, .predict 0 false, .predict 0 false, .predict 0 false, .predict 0 true,
    .squash 1 false, .squash 1 false]

theorem histories_fold_twice : 2 * shortBuffer.maxHist + 1 < shortBuffer.histBufferSize ∧
    Ends (Predictor.step shortBuffer 2) ⟨shortHistory, [], []⟩ squashedTwice fun s =>
      (s.history.computeIndices 1).comp ≠ foldOutcomes s.history.outcomes 1 1 := by
  constructor
  · decide
  · decide +kernel

end HetSim.Branch
