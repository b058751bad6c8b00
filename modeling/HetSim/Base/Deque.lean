import HetSim.Base.CircularQueue
import HetSim.Library.Histories

/-!
# The circular queue as a bounded list

Every push takes the next position, which its element keeps. An index and a round are a position
modulo and divided by the capacity, so comparisons of iterators are those of positions.
-/

namespace HetSim.Base
open Checked Runs Histories Iterator

universe u
variable {α : Type u}

variable {n x k : ℕ}

theorem u32_of_lt (h : n < 2 ^ 32) : u32 n = n := Nat.mod_eq_of_lt h

theorem u32Sub_of_le {m : ℕ} (hm : m < 2 ^ 32) (h : n ≤ m) : u32Sub m n = m - n := by
  rw [u32Sub, u32]
  omega

/-! ## Positions -/

section

variable {capacity x y : ℕ}

def Iterator.ofPos (capacity x : ℕ) : Iterator := ⟨x % capacity, u32 (x / capacity)⟩

theorem window_cases (h₁ : x ≤ y) (h₂ : y < x + capacity) :
    x / capacity = y / capacity ∧ x % capacity ≤ y % capacity ∨
    x / capacity + 1 = y / capacity ∧ y % capacity < x % capacity := by
  have hx := Nat.div_add_mod x capacity
  have hy := Nat.div_add_mod y capacity
  have hpos : 0 < capacity := by omega
  have hxlt := Nat.mod_lt x hpos
  have hylt := Nat.mod_lt y hpos
  have hle : x / capacity ≤ y / capacity := Nat.div_le_div_right h₁
  have hle' : y / capacity ≤ x / capacity + 1 := by
    rw [← Nat.add_div_right x hpos]
    exact Nat.div_le_div_right h₂.le
  rcases Nat.lt_or_ge (x / capacity) (y / capacity) with hlt | hge
  · have heq : y / capacity = x / capacity + 1 := by omega
    rw [heq, Nat.mul_add, Nat.mul_one] at hy
    right
    omega
  · have heq : y / capacity = x / capacity := by omega
    rw [heq] at hy
    left
    omega

theorem mod_eq_iff_of_window (h₁ : x ≤ y) (h₂ : y < x + capacity) :
    x % capacity = y % capacity ↔ x = y := by
  have hx := Nat.div_add_mod x capacity
  have hy := Nat.div_add_mod y capacity
  constructor
  · intro h
    rcases window_cases h₁ h₂ with ⟨hdiv, -⟩ | ⟨-, hlt⟩
    · rw [← hx, ← hy, hdiv, h]
    · omega
  · exact fun h => h ▸ rfl

theorem div_succ (x capacity : ℕ) :
    (x + 1) / capacity = if (x + 1) % capacity = 0 then x / capacity + 1 else x / capacity := by
  simp only [Nat.succ_div, Nat.dvd_iff_mod_eq_zero]
  split_ifs <;> rfl

theorem ofPos_inj (hx : x / capacity < 2 ^ 32) (hy : y / capacity < 2 ^ 32) :
    ofPos capacity x = .ofPos capacity y ↔ x = y := by
  constructor
  · intro h
    have hmod := congrArg idx h
    have hdiv := congrArg round h
    simp only [ofPos, u32_of_lt hx, u32_of_lt hy] at hmod hdiv
    rw [← Nat.div_add_mod x capacity, hdiv, hmod, Nat.div_add_mod]
  · exact fun h => h ▸ rfl

theorem ofPos_le (hx : x / capacity < 2 ^ 32) (hy : y / capacity < 2 ^ 32) :
    (ofPos capacity x).le (.ofPos capacity y) = true ↔ x ≤ y := by
  simp only [le, lt, ofPos, u32_of_lt hx, u32_of_lt hy, Bool.not_eq_true',
    Bool.or_eq_false_iff, Bool.and_eq_false_iff, decide_eq_false_iff_not, not_lt]
  have hxm := Nat.div_add_mod x capacity
  have hym := Nat.div_add_mod y capacity
  constructor
  · rintro ⟨hdiv, hmod⟩
    rcases Nat.lt_or_ge (x / capacity) (y / capacity) with hlt | hge
    · exact (Nat.lt_of_div_lt_div hlt).le
    · have heq : y / capacity = x / capacity := by omega
      rw [heq] at hym
      omega
  · intro hle
    have hdiv : x / capacity ≤ y / capacity := Nat.div_le_div_right hle
    refine ⟨hdiv, ?_⟩
    by_cases heq : y / capacity = x / capacity
    · rw [heq] at hym
      right
      omega
    · exact .inl heq

end

namespace CircularQueue

variable {q : CircularQueue α}

theorem increase_mod (hq : q.capacity < 2 ^ 32) (hpos : 0 < q.capacity) (x : ℕ) :
    q.increase (x % q.capacity) = (x + 1) % q.capacity := by
  have hlt := Nat.mod_lt x hpos
  rw [increase, moduloAdd, u32_of_lt (by omega), Nat.mod_add_mod]

theorem decrease_increase (hq : q.capacity < 2 ^ 32) {v : ℕ} (hv : v < q.capacity) :
    q.decrease (q.increase v) = v := by
  rw [increase, moduloAdd, u32_of_lt (by omega), decrease]
  rcases Nat.lt_or_ge (v + 1) q.capacity with hlt | hge
  · rw [Nat.mod_eq_of_lt hlt, if_pos (Nat.succ_ne_zero v), Nat.add_sub_cancel]
  · obtain heq : v + 1 = q.capacity := by omega
    rw [heq, Nat.mod_self, if_neg (not_not.mpr rfl), ← heq, Nat.add_sub_cancel]

theorem next_ofPos (hq : q.capacity < 2 ^ 32) (hpos : 0 < q.capacity) (x : ℕ) :
    q.next (.ofPos q.capacity x) = .ofPos q.capacity (x + 1) := by
  simp only [next, ofPos, increase_mod hq hpos, div_succ]
  split_ifs
  · rw [u32, u32, u32, Nat.mod_add_mod]
  · rfl

theorem add_ofPos {t : ℕ} (ht : x % q.capacity + t < 2 ^ 32) :
    q.add (.ofPos q.capacity x) t = .ofPos q.capacity (x + t) := by
  have hdiv : (x + t) / q.capacity = x / q.capacity + (t + x % q.capacity) / q.capacity := by
    rcases Nat.eq_zero_or_pos q.capacity with h | h
    · simp [h]
    · nth_rewrite 1 [← Nat.div_add_mod x q.capacity]
      rw [Nat.add_assoc, Nat.mul_add_div h, Nat.add_comm t]
  simp only [add, ofPos, moduloAdd, hdiv]
  rw [u32_of_lt (show t < 2 ^ 32 by omega), u32_of_lt ht, Nat.mod_add_mod, u32, u32, u32,
    Nat.mod_add_mod]

end CircularQueue

structure Represents (q : CircularQueue α) (p : ℕ) (l : List α) : Prop where
  two_le : 2 ≤ q.capacity
  capacity_lt : q.capacity < 2 ^ 32
  tail : q.tail = p % q.capacity
  round : q.round = p / q.capacity
  round_lt : p / q.capacity < 2 ^ 32
  length_le : l.length ≤ q.capacity
  length_le_pos : l.length ≤ p
  head : q.head = (p + 1 - l.length) % q.capacity
  empty : q.empty = l.isEmpty
  cells : ∀ i (h : i < l.length), q.cells ((p + 1 - l.length + i) % q.capacity) = l[i]

namespace Represents

open CircularQueue

variable {q : CircularQueue α} {p : ℕ} {l : List α}

theorem pos (h : Represents q p l) : 0 < q.capacity := by
  have := h.two_le
  omega

theorem end_eq (h : Represents q p l) : q.end_ = .ofPos q.capacity (p + 1) := by
  rw [← next_ofPos h.capacity_lt h.pos p]
  simp only [end_, next, increase, ofPos, u32_of_lt h.round_lt, h.tail, h.round]

theorem head_cases (h : Represents q p l) (hl : l ≠ []) :
    q.head ≤ q.tail ∧ (p + 1 - l.length) / q.capacity = q.round ∨
    q.tail < q.head ∧ (p + 1 - l.length) / q.capacity + 1 = q.round := by
  have hlen := List.length_pos_of_ne_nil hl
  have h₁ := h.length_le
  have h₂ := h.length_le_pos
  rw [h.head, h.tail, h.round]
  have hle : p + 1 - l.length ≤ p := by omega
  have hlt : p < p + 1 - l.length + q.capacity := by omega
  rcases window_cases hle hlt with hw | hw
  · exact .inl ⟨hw.2, hw.1⟩
  · exact .inr ⟨hw.2, hw.1⟩

theorem begin_eq (h : Represents q p l) : q.begin_ = .ofPos q.capacity (p + 1 - l.length) := by
  rw [begin_, h.empty]
  by_cases hl : l = []
  · rw [if_pos (by rw [hl]; rfl), h.end_eq, hl]
    rfl
  · rw [if_neg (by simpa using hl), ofPos, ← h.head]
    have hround : q.round < 2 ^ 32 := h.round ▸ h.round_lt
    rcases h.head_cases hl with ⟨hle, hdiv⟩ | ⟨hlt, hdiv⟩
    · rw [if_neg (by omega), hdiv, u32_of_lt hround]
    · have hone : 1 ≤ q.round := hdiv ▸ Nat.le_add_left 1 _
      have hlt' : (p + 1 - l.length) / q.capacity < 2 ^ 32 := by omega
      rw [if_pos hlt, u32Sub_of_le hround hone, u32_of_lt hlt', ← hdiv, Nat.add_sub_cancel]

theorem size_eq (h : Represents q p l) : q.size = l.length := by
  rw [size, h.empty]
  by_cases hl : l = []
  · rw [if_pos (by rw [hl]; rfl), hl]
    rfl
  · rw [if_neg (by simpa using hl)]
    have hlen := List.length_pos_of_ne_nil hl
    have h₁ := h.length_le
    have h₂ := h.length_le_pos
    have hcap := h.capacity_lt
    have hp := Nat.div_add_mod p q.capacity
    have hb := Nat.div_add_mod (p + 1 - l.length) q.capacity
    have htail := Nat.mod_lt p h.pos
    have hhead := Nat.mod_lt (p + 1 - l.length) h.pos
    rw [← h.tail] at hp htail
    rw [← h.head] at hb hhead
    rw [← h.round] at hp
    rcases h.head_cases hl with ⟨hle, hdiv⟩ | ⟨hlt, hdiv⟩
    · rw [hdiv] at hb
      rw [if_pos hle, u32Sub_of_le (by omega) hle, u32_of_lt (by omega)]
      omega
    · rw [← hdiv, Nat.mul_add, Nat.mul_one] at hp
      rw [if_neg (by omega), u32Sub_of_le hcap hhead.le, u32_of_lt (by omega)]
      omega

theorem full_iff (h : Represents q p l) : q.full = true ↔ l.length = q.capacity := by
  have h₁ := h.length_le
  have h₂ := h.length_le_pos
  have hcap := h.capacity_lt
  have htail : q.tail < q.capacity := h.tail ▸ Nat.mod_lt p h.pos
  have hpos := h.pos
  have hnext : (p + 1) % q.capacity = if q.tail + 1 = q.capacity then 0 else q.tail + 1 := by
    rw [← Nat.mod_add_mod, ← h.tail]
    split_ifs with heq
    · rw [heq, Nat.mod_self]
    · exact Nat.mod_eq_of_lt (by omega)
  have hfull : (q.tail + 1 = q.head ∨ q.tail + 1 = q.capacity ∧ q.head = 0) ↔
      (p + 1 - l.length) % q.capacity = (p + 1) % q.capacity := by
    have hhead : q.head < q.capacity := h.head ▸ Nat.mod_lt _ h.pos
    rw [← h.head, hnext]
    split_ifs <;> omega
  simp only [full, u32_of_lt (show q.tail + 1 < 2 ^ 32 by omega), Bool.and_eq_true, Bool.or_eq_true,
    decide_eq_true_eq, hfull, h.empty, Bool.not_eq_true', List.isEmpty_eq_false_iff]
  constructor
  · rintro ⟨hl, hmod⟩
    have hlen := List.length_pos_of_ne_nil hl
    by_contra hne
    have heq := (mod_eq_iff_of_window (by omega) (by omega)).mp hmod
    omega
  · intro hlen
    refine ⟨List.ne_nil_of_length_pos (by omega), ?_⟩
    rw [hlen, ← Nat.add_mod_right (p + 1 - q.capacity), Nat.sub_add_cancel (by omega)]

theorem isValid_iff (h : Represents q p l) (hx : x / q.capacity < 2 ^ 32) :
    q.dereferenceable (.ofPos q.capacity x) = true ↔ p + 1 - l.length ≤ x ∧ x ≤ p := by
  simp only [dereferenceable, isValidIdx, ofPos, u32_of_lt hx, Bool.and_eq_true,
    Bool.or_eq_true, decide_eq_true_eq, h.empty, Bool.not_eq_true', List.isEmpty_eq_false_iff]
  by_cases hl : l = []
  · simp only [hl, ne_eq, not_true_eq_false, false_and, List.length_nil, false_iff]
    omega
  · simp only [ne_eq, hl, not_false_eq_true, true_and]
    have hp := Nat.div_add_mod p q.capacity
    have hb := Nat.div_add_mod (p + 1 - l.length) q.capacity
    have hxm := Nat.div_add_mod x q.capacity
    have hxlt := Nat.mod_lt x h.pos
    have hhead := Nat.mod_lt (p + 1 - l.length) h.pos
    have hround : q.round < 2 ^ 32 := h.round ▸ h.round_lt
    -- A position between the first and the last is in a round between theirs.
    have hrounds : p + 1 - l.length ≤ x ∧ x ≤ p →
        (p + 1 - l.length) / q.capacity ≤ x / q.capacity ∧ x / q.capacity ≤ q.round := by
      rw [h.round]
      exact fun hx => ⟨Nat.div_le_div_right hx.1, Nat.div_le_div_right hx.2⟩
    have hcases := h.head_cases hl
    rw [← h.tail, ← h.round] at hp
    rw [← h.head] at hb hhead
    generalize p + 1 - l.length = b at hb hrounds hcases ⊢
    generalize b / q.capacity = bRound at hb hrounds hcases ⊢
    generalize x / q.capacity = xRound at hx hxm hrounds ⊢
    generalize x % q.capacity = idx at hxm hxlt ⊢
    rcases hcases with ⟨hle, rfl⟩ | ⟨hlt, hsucc⟩
    · by_cases heq : xRound = q.round
      · subst heq
        simp only [true_and]
        omega
      · omega
    · rw [← hsucc, Nat.mul_add, Nat.mul_one] at hp
      rw [u32]
      rcases eq_or_ne xRound q.round with heq | hne
      · rw [heq, ← hsucc, Nat.mul_add, Nat.mul_one] at hxm
        omega
      · rcases eq_or_ne (xRound + 1) q.round with heq | hne'
        · obtain rfl : xRound = bRound := by omega
          omega
        · omega

theorem create (capacity : ℕ) (cells : ℕ → α) (h₁ : 2 ≤ capacity) (h₂ : capacity < 2 ^ 32) :
    Represents (.create capacity cells) 0 ([] : List α) where
  two_le := h₁
  capacity_lt := h₂
  tail := (Nat.zero_mod _).symm
  round := (Nat.zero_div _).symm
  round_lt := by simp
  length_le := Nat.zero_le _
  length_le_pos := le_rfl
  head := (Nat.mod_eq_of_lt h₁).symm
  empty := rfl
  cells := nofun

theorem flush (h : Represents q p l) : Represents q.flush 0 ([] : List α) :=
  create q.capacity q.cells h.two_le h.capacity_lt

theorem round_succ_lt (h : Represents q p l)
    (hfits : q.tail + 1 = q.capacity → q.round + 1 < 2 ^ 32) :
    (p + 1) / q.capacity < 2 ^ 32 := by
  rw [div_succ, ← h.round]
  split_ifs with hmod
  · apply hfits
    have htail : q.tail < q.capacity := h.tail ▸ Nat.mod_lt p h.pos
    rw [← Nat.mod_add_mod, ← h.tail] at hmod
    by_contra hne
    rw [Nat.mod_eq_of_lt (by omega)] at hmod
    omega
  · exact h.round ▸ h.round_lt

end Represents

def kept (capacity : ℕ) (l : List α) : List α := if l.length = capacity then l.tail else l

def push (capacity : ℕ) (l : List α) (val : α) : List α := kept capacity l ++ [val]

theorem length_kept (capacity : ℕ) (l : List α) :
    (kept capacity l).length = if l.length = capacity then l.length - 1 else l.length := by
  rw [kept]
  split_ifs
  · exact List.length_tail
  · rfl

theorem advance_tail_eq (q : CircularQueue α) :
    q.advance_tail = q.push_back (q.cells (q.increase q.tail)) := by
  rw [CircularQueue.push_back]
  simp only [CircularQueue.advance_tail, Function.update_eq_self]

namespace Represents

open CircularQueue

variable {q : CircularQueue α} {p : ℕ} {l : List α} (h : Represents q p l)
include h

theorem push_head :
    (if (p + 1) % q.capacity = q.head ∧ (!q.empty) = true then q.increase q.head else q.head) =
      (p + 1 - if l.length = q.capacity then l.length - 1 else l.length) % q.capacity := by
  have h₁ := h.length_le
  have h₂ := h.length_le_pos
  have hpos := h.pos
  by_cases hl : l = []
  · rw [if_neg (by simp [h.empty, hl]), h.head, if_neg (by rw [hl, List.length_nil]; omega)]
  · have hlen := List.length_pos_of_ne_nil hl
    have hempty : (!q.empty) = true := by simpa [h.empty] using hl
    by_cases hfull : l.length = q.capacity
    · have hmod : (p + 1) % q.capacity = q.head := by
        rw [h.head, hfull, ← Nat.add_mod_right (p + 1 - q.capacity), Nat.sub_add_cancel (by omega)]
      rw [if_pos ⟨hmod, hempty⟩, h.head, increase_mod h.capacity_lt h.pos, if_pos hfull]
      congr 1
      omega
    · rw [if_neg ?_, h.head, if_neg hfull]
      rintro ⟨hmod, -⟩
      rw [h.head] at hmod
      have heq := (mod_eq_iff_of_window (x := p + 1 - l.length) (by omega) (by omega)).mp hmod.symm
      omega

theorem cells_kept (i : ℕ) (hi : i < (kept q.capacity l).length) :
    q.cells ((p + 1 - (kept q.capacity l).length + i) % q.capacity) = (kept q.capacity l)[i] := by
  have h₁ := h.length_le_pos
  have hlen := length_kept q.capacity l
  by_cases hfull : l.length = q.capacity
  · have hkept : kept q.capacity l = l.tail := if_pos hfull
    rw [if_pos hfull] at hlen
    have hcell := h.cells (i + 1) (by omega)
    simp only [hkept, List.getElem_tail]
    rw [← hcell, ← hkept, hlen]
    congr 2
    omega
  · have hkept : kept q.capacity l = l := if_neg hfull
    simp only [hkept] at hi ⊢
    exact h.cells i hi

theorem push_back (hfits : q.tail + 1 = q.capacity → q.round + 1 < 2 ^ 32)
    (val : α) : Represents (q.push_back val) (p + 1) (push q.capacity l val) := by
  have hround := h.round_succ_lt hfits
  have htail : q.increase q.tail = (p + 1) % q.capacity := by
    rw [h.tail, increase_mod h.capacity_lt h.pos]
  have h₁ := h.length_le
  have h₂ := h.length_le_pos
  have hpos := h.pos
  have hkept := length_kept q.capacity l
  have hle : (kept q.capacity l).length < q.capacity := by
    rw [hkept]
    split_ifs <;> omega
  have hlep : (kept q.capacity l).length ≤ p := by
    rw [hkept]
    split_ifs <;> omega
  have hlen : (push q.capacity l val).length = (kept q.capacity l).length + 1 := List.length_append
  have hbase : p + 1 + 1 - (push q.capacity l val).length = p + 1 - (kept q.capacity l).length := by
    rw [hlen]
    omega
  exact { h with
    tail := htail
    round := by
      change (if q.increase q.tail = 0 then u32 (q.round + 1) else q.round) = (p + 1) / q.capacity
      rw [htail, h.round, ← u32_of_lt hround, div_succ]
      split_ifs
      · rfl
      · exact (u32_of_lt h.round_lt).symm
    round_lt := hround
    length_le := by
      rw [hlen]
      exact hle
    length_le_pos := by
      rw [hlen]
      omega
    head := by
      change (if q.increase q.tail = q.head ∧ (!q.empty) = true then q.increase q.head
        else q.head) = _
      rw [htail, h.push_head, hbase, hkept]
      rfl
    empty := by
      rw [push]
      simp [CircularQueue.push_back, CircularQueue.advance_tail]
    cells := by
      intro i hi
      change Function.update q.cells (q.increase q.tail) val
        ((p + 1 + 1 - (push q.capacity l val).length + i) % q.capacity) = _
      rw [hlen] at hi
      rw [htail, hbase]
      rcases Nat.lt_or_ge i (kept q.capacity l).length with hlt | hge
      · rw [Function.update_of_ne ?_, h.cells_kept i hlt]
        · exact (List.getElem_append_left hlt).symm
        · intro hmod
          have heq := (mod_eq_iff_of_window (by omega) (by omega)).mp hmod
          omega
      · obtain rfl : i = (kept q.capacity l).length := by omega
        rw [Nat.sub_add_cancel (by omega), Function.update_self]
        exact (List.getElem_concat_length rfl _).symm }

theorem pop_front (hcap : q.capacity ≤ 2 ^ 31) (hn : n ≤ l.length)
    (hfits : q.tail + 1 = q.capacity → q.round + 1 < 2 ^ 32) :
    ∃ t, q.pop_front n = .ok t ∧ Represents t p (l.drop n) ∧ t.capacity = q.capacity := by
  have h₁ := h.length_le
  have h₂ := h.length_le_pos
  have hround := h.round_succ_lt hfits
  by_cases hzero : n = 0
  · subst hzero
    exact ⟨q, rfl, h, rfl⟩
  · have hadd : q.add q.begin_ n = .ofPos q.capacity (p + 1 - l.length + n) := by
      have hmod := Nat.mod_lt (p + 1 - l.length) h.pos
      rw [h.begin_eq, add_ofPos (by omega)]
    have hlt : (p + 1 - l.length + n) / q.capacity < 2 ^ 32 :=
      (Nat.div_le_div_right (by omega)).trans_lt hround
    have hle : (q.add q.begin_ n).le q.end_ = true := by
      rw [hadd, h.end_eq, ofPos_le hlt hround]
      omega
    refine ⟨{ q with empty := q.add q.begin_ n = q.end_, head := (q.add q.begin_ n).idx },
      ?_, ?_, rfl⟩
    · rw [CircularQueue.pop_front, if_neg hzero]
      exact bind_eq_ok.mpr ⟨⟨⟩, require_eq_ok.mpr hle, rfl⟩
    have hbase : p + 1 - (l.drop n).length = p + 1 - l.length + n := by
      rw [List.length_drop]
      omega
    exact { h with
      length_le := by
        rw [List.length_drop]
        exact (Nat.sub_le _ _).trans h₁
      length_le_pos := by
        rw [List.length_drop]
        omega
      head := by rw [hadd, hbase]; rfl
      empty := by
        change decide (q.add q.begin_ n = q.end_) = _
        rw [hadd, h.end_eq, Bool.eq_iff_iff, decide_eq_true_iff, ofPos_inj hlt hround,
          List.isEmpty_iff, List.drop_eq_nil_iff]
        omega
      cells := by
        intro i hi
        rw [List.length_drop] at hi
        rw [hbase, List.getElem_drop, ← h.cells (n + i) (by omega), Nat.add_assoc] }

theorem pop_back (hl : l ≠ []) : ∃ t, q.pop_back = .ok t ∧
    Represents t (p - 1) l.dropLast ∧ t.capacity = q.capacity := by
  have hlen := List.length_pos_of_ne_nil hl
  have h₁ := h.length_le
  have h₂ := h.length_le_pos
  have hpos := h.pos
  have hcap := h.capacity_lt
  have hempty : (!q.empty) = true := by simpa [h.empty] using hl
  have hp : p - 1 + 1 = p := by omega
  have hprev : q.increase ((p - 1) % q.capacity) = q.tail := by
    rw [increase_mod hcap hpos, hp, h.tail]
  have hdiv := div_succ (p - 1) q.capacity
  rw [hp, ← h.tail, ← h.round] at hdiv
  have hround : q.round < 2 ^ 32 := h.round ▸ h.round_lt
  have hbase : p - 1 + 1 - l.dropLast.length = p + 1 - l.length := by
    rw [List.length_dropLast]
    omega
  refine ⟨{ q with
    empty := q.head = q.tail
    round := if q.tail = 0 then u32Sub q.round 1 else q.round
    tail := q.decrease q.tail }, ?_, ?_, rfl⟩
  · exact bind_eq_ok.mpr ⟨⟨⟩, require_eq_ok.mpr hempty, rfl⟩
  · exact { h with
      tail := by
        change q.decrease q.tail = _
        rw [← hprev, decrease_increase hcap (Nat.mod_lt _ hpos)]
      round := by
        change (if q.tail = 0 then u32Sub q.round 1 else q.round) = _
        split_ifs at hdiv ⊢ with hzero
        · rw [u32Sub_of_le hround (hdiv ▸ Nat.le_add_left 1 _), hdiv, Nat.add_sub_cancel]
        · exact hdiv
      round_lt := (Nat.div_le_div_right (Nat.sub_le _ _)).trans_lt h.round_lt
      length_le := by
        rw [List.length_dropLast]
        exact (Nat.sub_le _ _).trans h₁
      length_le_pos := by
        rw [List.length_dropLast]
        omega
      head := by
        rw [hbase]
        exact h.head
      empty := by
        change decide (q.head = q.tail) = _
        rw [h.head, h.tail, Bool.eq_iff_iff, decide_eq_true_iff,
          mod_eq_iff_of_window (by omega) (by omega), List.isEmpty_iff, ← List.length_eq_zero_iff,
          List.length_dropLast]
        omega
      cells := by
        intro i hi
        rw [List.length_dropLast] at hi
        rw [hbase, List.getElem_dropLast]
        exact h.cells i (by omega) }

theorem ofPos_ne_end (hx : p + 1 - l.length ≤ x) (hxp : x ≤ p) :
    Iterator.ofPos q.capacity x ≠ q.end_ := by
  have h₂ := h.length_le_pos
  have hround : x / q.capacity < 2 ^ 32 := (Nat.div_le_div_right hxp).trans_lt h.round_lt
  rw [h.end_eq]
  intro heq
  by_cases hlt : (p + 1) / q.capacity < 2 ^ 32
  · have := (ofPos_inj hround hlt).mp heq
    omega
  · have hsucc := div_succ p q.capacity
    have hlast := h.round_lt
    split_ifs at hsucc with hmod
    · have hdiv : (p + 1) / q.capacity = 2 ^ 32 := by omega
      have hidx := congrArg Iterator.idx heq
      have hzero := congrArg Iterator.round heq
      simp only [Iterator.ofPos, hmod, hdiv] at hidx hzero
      rw [u32_of_lt hround, u32, Nat.mod_self] at hzero
      have := Nat.div_add_mod x q.capacity
      rw [hidx, hzero] at this
      omega
    · omega

theorem readFrom_eq (hk : k ≤ l.length) (hn : l.length ≤ k + n) :
    q.readFrom (.ofPos q.capacity (p + 1 - l.length + k)) n = l.drop k := by
  have h₂ := h.length_le_pos
  induction n generalizing k with
  | zero => exact (List.drop_eq_nil_of_le hn).symm
  | succ n ih =>
    rw [readFrom]
    by_cases hend : k = l.length
    · rw [if_pos, hend, List.drop_length]
      rw [h.end_eq]
      congr 1
      omega
    · rw [if_neg (h.ofPos_ne_end (by omega) (by omega)), next_ofPos h.capacity_lt h.pos,
        Nat.add_assoc, ih (by omega) (by omega),
        List.drop_eq_getElem_cons (show k < l.length by omega)]
      congr 1
      exact h.cells k (by omega)

theorem add_begin_eq (hcap : q.capacity ≤ 2 ^ 31) (hk : k ≤ l.length) :
    q.add q.begin_ k = .ofPos q.capacity (p + 1 - l.length + k) := by
  have h₁ := h.length_le
  have hmod := Nat.mod_lt (p + 1 - l.length) h.pos
  rw [h.begin_eq, add_ofPos (by omega)]

theorem dereferenceable_iff (hcap : q.capacity ≤ 2 ^ 31) {it : Iterator}
    (hidx : it.idx < q.capacity) (hround : it.round < 2 ^ 32) :
    q.dereferenceable it = true ↔ ∃ k < l.length, it = q.add q.begin_ k := by
  have h₂ := h.length_le_pos
  have hdiv : (q.capacity * it.round + it.idx) / q.capacity = it.round := by
    rw [Nat.mul_add_div h.pos, Nat.div_eq_of_lt hidx, Nat.add_zero]
  have hit : it = .ofPos q.capacity (q.capacity * it.round + it.idx) := by
    rw [ofPos, hdiv, u32_of_lt hround, Nat.mul_add_mod, Nat.mod_eq_of_lt hidx]
  rw [hit, h.isValid_iff (by rwa [hdiv])]
  constructor
  · rintro ⟨hfirst, hlast⟩
    refine ⟨q.capacity * it.round + it.idx - (p + 1 - l.length), by omega, ?_⟩
    rw [h.add_begin_eq hcap (by omega), Nat.add_sub_cancel' hfirst]
  · rintro ⟨k, hk, heq⟩
    rw [h.add_begin_eq hcap hk.le, ofPos_inj (by rwa [hdiv]) ?_] at heq
    · omega
    · exact (Nat.div_le_div_right (by omega)).trans_lt h.round_lt

end Represents

structure Agrees (q : CircularQueue α) (l : List α) : Prop where
  read : ∀ n, l.length ≤ n → q.readFrom q.begin_ n = l
  size : q.size = l.length
  empty : q.empty = true ↔ l = []
  full : q.full = true ↔ l.length = q.capacity
  front : ∀ hl : l ≠ [], q.front = l.head hl
  back : ∀ hl : l ≠ [], q.back = l.getLast hl
  dereferenceable : ∀ it : Iterator, it.idx < q.capacity → it.round < 2 ^ 32 →
    (q.dereferenceable it = true ↔ ∃ k < q.size, it = q.add q.begin_ k)

theorem Represents.agrees {q : CircularQueue α} {p : ℕ} {l : List α} (h : Represents q p l)
    (hcap : q.capacity ≤ 2 ^ 31) : Agrees q l where
  read n hn := by
    have hread := h.readFrom_eq (Nat.zero_le _) (n := n) (by omega)
    rwa [Nat.add_zero, ← h.begin_eq, List.drop_zero] at hread
  size := h.size_eq
  empty := by rw [h.empty, List.isEmpty_iff]
  full := h.full_iff
  front hl := by
    have hcell := h.cells 0 (List.length_pos_of_ne_nil hl)
    rw [Nat.add_zero, ← h.head] at hcell
    rw [List.head_eq_getElem]
    exact hcell
  back hl := by
    have hlen := List.length_pos_of_ne_nil hl
    have h₂ := h.length_le_pos
    have hcell := h.cells (l.length - 1) (by omega)
    have hp : p + 1 - l.length + (l.length - 1) = p := by omega
    rw [hp, ← h.tail] at hcell
    rw [List.getLast_eq_getElem]
    exact hcell
  dereferenceable it hidx hround := by
    rw [h.size_eq]
    exact h.dereferenceable_iff hcap hidx hround

/-! ## Runs -/

inductive ListStep (capacity : ℕ) : List α → QueueOp α → List α → Prop
  | push_back (l : List α) (val : α) : ListStep capacity l (.push_back val) (push capacity l val)
  | advance_tail (l : List α) (val : α) : ListStep capacity l .advance_tail (push capacity l val)
  | pop_front (l : List α) (n : ℕ) : ListStep capacity l (.pop_front n) (l.drop n)
  | pop_back (l : List α) : ListStep capacity l .pop_back l.dropLast
  | flush (l : List α) : ListStep capacity l .flush []

def QueueOp.follow (capacity : ℕ) : ℕ × ℕ → QueueOp α → Option (ℕ × ℕ)
  | (len, i), .push_back _ | (len, i), .advance_tail =>
    if len = capacity then if i = 0 then none else some (len, i - 1) else some (len + 1, i)
  | (len, i), .pop_front n => if n ≤ i then some (len - n, i - n) else none
  | (len, i), .pop_back => if i + 1 < len then some (len - 1, i) else none
  | _, .flush => none

/-- The call is allowed, and the rounds of the tail and of the end fit into their counter. -/
def Fits (q : CircularQueue α) : QueueOp α → Prop
  | .push_back _ | .advance_tail => q.tail + 1 = q.capacity → q.round + 1 < 2 ^ 32
  | .pop_front n => n ≤ q.size ∧ (q.tail + 1 = q.capacity → q.round + 1 < 2 ^ 32)
  | .pop_back => q.empty = false
  | .flush => True

instance (q : CircularQueue α) : ∀ op, Decidable (Fits q op)
  | .push_back _ | .advance_tail =>
    inferInstanceAs (Decidable (q.tail + 1 = q.capacity → q.round + 1 < 2 ^ 32))
  | .pop_front n =>
    inferInstanceAs (Decidable (n ≤ q.size ∧ (q.tail + 1 = q.capacity → q.round + 1 < 2 ^ 32)))
  | .pop_back => inferInstanceAs (Decidable (q.empty = false))
  | .flush => isTrue trivial

structure Keeps (p : ℕ) (l : List α) (i p' : ℕ) (l' : List α) (r : ℕ × ℕ) : Prop where
  length : r.1 = l'.length
  pos : p' + 1 - l'.length + r.2 = p + 1 - l.length + i
  val : l'[r.2]? = l[i]?

section

variable {q : CircularQueue α} {op : QueueOp α} {p i : ℕ} {l : List α} {r : ℕ × ℕ}

theorem Represents.push_keeps (h : Represents q p l) (hi : i < l.length) (val : α)
    (hr : QueueOp.follow q.capacity (l.length, i) (.push_back val) = some r) :
    Keeps p l i (p + 1) (push q.capacity l val) r := by
  have h₁ := h.length_le
  have h₂ := h.length_le_pos
  have hpos := h.pos
  have hkept := length_kept q.capacity l
  have hlen : (push q.capacity l val).length = (kept q.capacity l).length + 1 := List.length_append
  rw [QueueOp.follow] at hr
  by_cases hfull : l.length = q.capacity
  · rw [if_pos hfull] at hr hkept
    split_ifs at hr with hzero
    obtain rfl := Option.some.inj hr
    refine ⟨?_, ?_, ?_⟩
    · rw [hlen, hkept]
      omega
    · rw [hlen, hkept]
      dsimp only
      omega
    · rw [push, List.getElem?_append_left (by dsimp only; omega), kept, if_pos hfull,
        List.getElem?_tail]
      congr 1
      omega
  · rw [if_neg hfull] at hr hkept
    obtain rfl := Option.some.inj hr
    refine ⟨?_, ?_, ?_⟩
    · rw [hlen, hkept]
    · rw [hlen, hkept]
      dsimp only
      omega
    · rw [push, List.getElem?_append_left (by dsimp only; omega), kept, if_neg hfull]

theorem step_represents (h : Represents q p l) (hcap : q.capacity ≤ 2 ^ 31) (hfits : Fits q op) :
    ∃ t p' l', q.step op = .ok t ∧ Represents t p' l' ∧ t.capacity = q.capacity ∧
      ListStep q.capacity l op l' ∧ ∀ i < l.length, ∀ r,
        op.follow q.capacity (l.length, i) = some r → Keeps p l i p' l' r := by
  have h₂ := h.length_le_pos
  cases op with
  | push_back val =>
    exact ⟨_, _, _, rfl, h.push_back hfits val, rfl, .push_back l val,
      fun i hi r hr => h.push_keeps hi val hr⟩
  | advance_tail =>
    refine ⟨_, _, _, congrArg Except.ok (advance_tail_eq q), h.push_back hfits _, rfl,
      .advance_tail l _, fun i hi r hr => h.push_keeps hi _ hr⟩
  | pop_front n =>
    obtain ⟨hn, hround⟩ := hfits
    rw [h.size_eq] at hn
    obtain ⟨t, ht, hrep, hcapacity⟩ := h.pop_front hcap hn hround
    refine ⟨t, p, l.drop n, ht, hrep, hcapacity, .pop_front l n, fun i hi r hr => ?_⟩
    rw [QueueOp.follow] at hr
    split_ifs at hr with hle
    obtain rfl := Option.some.inj hr
    refine ⟨List.length_drop.symm, ?_, ?_⟩
    · rw [List.length_drop]
      dsimp only
      omega
    · rw [List.getElem?_drop, Nat.add_sub_cancel' hle]
  | pop_back =>
    have hl : l ≠ [] := by
      rintro rfl
      exact absurd (h.empty.symm.trans hfits) nofun
    obtain ⟨t, ht, hrep, hcapacity⟩ := h.pop_back hl
    refine ⟨t, p - 1, l.dropLast, ht, hrep, hcapacity, .pop_back l, fun i hi r hr => ?_⟩
    rw [QueueOp.follow] at hr
    split_ifs at hr with hlt
    obtain rfl := Option.some.inj hr
    refine ⟨List.length_dropLast.symm, ?_, ?_⟩
    · rw [List.length_dropLast]
      dsimp only
      omega
    · rw [List.getElem?_dropLast, if_pos (by dsimp only; omega)]
  | flush => exact ⟨_, _, _, rfl, h.flush, rfl, .flush l, fun i hi r hr => nomatch hr⟩

theorem run_keeps_element {es : List (QueueOp α)} (h : Represents q p l)
    (hcap : q.capacity ≤ 2 ^ 31) (hfits : Meets CircularQueue.step Fits q es) {val : α}
    (hval : l[i]? = some val) (hr : es.foldlM (QueueOp.follow q.capacity) (l.length, i) = some r) :
    ∃ t p' l', run CircularQueue.step q es = .ok t ∧ Represents t p' l' ∧
      t.capacity = q.capacity ∧ p' + 1 - l'.length + r.2 = p + 1 - l.length + i ∧
      l'[r.2]? = some val := by
  induction es generalizing q p l i with
  | nil =>
    obtain rfl : (l.length, i) = r := Option.some.inj hr
    exact ⟨q, p, l, rfl, h, rfl, rfl, hval⟩
  | cons op es ih =>
    rw [List.foldlM_cons, Option.bind_eq_bind, Option.bind_eq_some_iff] at hr
    obtain ⟨⟨len, j⟩, hop, hr⟩ := hr
    have hi : i < l.length := (List.getElem?_eq_some_iff.mp hval).1
    obtain ⟨t, p', l', hstep, hrep, hcapacity, -, hkeeps⟩ := step_represents h hcap hfits.1
    obtain ⟨hlen, hpos, hval'⟩ := hkeeps i hi _ hop
    dsimp only at hlen hpos hval'
    rw [hlen, ← hcapacity] at hr
    obtain ⟨t', p'', l'', hrun, hrep', hcapacity', hpos', hval''⟩ :=
      ih hrep (hcapacity ▸ hcap) (hfits.2 t hstep) (hval'.trans hval) hr
    refine ⟨t', p'', l'', ?_, hrep', hcapacity'.trans hcapacity, hpos'.trans hpos, hval''⟩
    rw [run_cons, hstep]
    exact hrun

end

theorem run_represents {capacity : ℕ} (cells : ℕ → α) (h₁ : 2 ≤ capacity) (h₂ : capacity ≤ 2 ^ 31)
    {ops : List (QueueOp α)} (hfits : Meets CircularQueue.step Fits (.create capacity cells) ops) :
    ∃ q p l, run CircularQueue.step (.create capacity cells) ops = .ok q ∧
      History (ListStep capacity) [] ops l ∧ Represents q p l ∧ q.capacity = capacity := by
  induction ops using List.reverseRecOn with
  | nil => exact ⟨_, 0, [], rfl, .nil, .create capacity cells h₁ (by omega), rfl⟩
  | append_singleton ops op ih =>
    obtain ⟨hprior, hlast⟩ := meets_concat.mp hfits
    obtain ⟨q, p, l, hrun, hlist, hrep, rfl⟩ := ih hprior
    obtain ⟨t, p', l', hstep, hrep', hcapacity, hl, -⟩ := step_represents hrep h₂ (hlast q hrun)
    refine ⟨t, p', l', ?_, hlist.snoc hl, hrep', hcapacity⟩
    rw [run_concat, hrun]
    exact hstep

theorem circularQueue_refines {capacity : ℕ} (cells : ℕ → α) (h₁ : 2 ≤ capacity)
    (h₂ : capacity ≤ 2 ^ 31) {ops : List (QueueOp α)}
    (hfits : Meets CircularQueue.step Fits (.create capacity cells) ops) :
    ∃ q l, run CircularQueue.step (.create capacity cells) ops = .ok q ∧
      History (ListStep capacity) [] ops l ∧ q.capacity = capacity ∧ Agrees q l ∧
      (∀ n t, q.pop_front n = .ok t → t.end_ = q.end_) ∧
      ∀ val es len j, Meets CircularQueue.step Fits q (.push_back val :: es) →
        es.foldlM (QueueOp.follow capacity)
          ((push capacity l val).length, (push capacity l val).length - 1) = some (len, j) →
        ∃ t, run CircularQueue.step q (.push_back val :: es) = .ok t ∧
          t.dereferenceable q.end_ = true ∧ q.end_ = t.add t.begin_ j ∧ t.deref q.end_ = val := by
  obtain ⟨q, p, l, hrun, hlist, hrep, rfl⟩ := run_represents cells h₁ h₂ hfits
  refine ⟨q, l, hrun, hlist, rfl, hrep.agrees h₂, fun n t ht => ?_,
    fun val es len j hmeets hfollow => ?_⟩
  · rw [CircularQueue.pop_front] at ht
    split_ifs at ht
    · obtain rfl : q = t := Except.ok.inj ht
      rfl
    · obtain ⟨-, -, ht⟩ := bind_eq_ok.mp ht
      obtain rfl := pure_eq_ok.mp ht
      rfl
  · have hpush := hrep.push_back hmeets.1 val
    have hlast : (push q.capacity l val)[(push q.capacity l val).length - 1]? = some val := by
      rw [push, List.length_append, List.length_singleton, Nat.add_sub_cancel]
      exact List.getElem?_concat_length
    obtain ⟨t, p', l', hes, hrep', hcapacity, hpos, hval⟩ :=
      run_keeps_element hpush h₂ (hmeets.2 _ rfl) hlast hfollow
    obtain ⟨hj, hval⟩ := List.getElem?_eq_some_iff.mp hval
    have hlen : 0 < (push q.capacity l val).length := by
      rw [push, List.length_append]
      exact Nat.succ_pos _
    have h₃ := hpush.length_le_pos
    have h₄ := hrep'.length_le_pos
    dsimp only at hj hval hpos
    have hx : p' + 1 - l'.length + j = p + 1 := by omega
    have hcapacity : t.capacity = q.capacity := hcapacity
    have hend : q.end_ = .ofPos t.capacity (p' + 1 - l'.length + j) := by
      rw [hx, hrep.end_eq, hcapacity]
    have hround : (p' + 1 - l'.length + j) / t.capacity < 2 ^ 32 :=
      (Nat.div_le_div_right (by omega)).trans_lt hrep'.round_lt
    refine ⟨t, hes, ?_, ?_, ?_⟩
    · rw [hend, hrep'.isValid_iff hround]
      omega
    · rw [hend, hrep'.add_begin_eq (hcapacity ▸ h₂) hj.le]
    · rw [hend, CircularQueue.deref, ← hval]
      exact hrep'.cells j hj

def threeOps : List (QueueOp ℕ) :=
  [.push_back 10, .push_back 11, .push_back 12, .push_back 13, .pop_front 1, .pop_back]

theorem circularQueue_refines_three :
    ∃ q, run CircularQueue.step (.create 3 fun _ => 0) threeOps = .ok q ∧
      Agrees q [12] ∧ q.begin_ = ⟨0, 1⟩ := by
  have hfits : Meets CircularQueue.step Fits (.create 3 fun _ => 0) threeOps := by decide +kernel
  have hends : Ends CircularQueue.step (.create 3 fun _ => 0) threeOps fun q =>
      q.begin_ = ⟨0, 1⟩ ∧ q.size = 1 ∧ q.readFrom q.begin_ 1 = [12] := by
    decide +kernel
  obtain ⟨q, hq, hbegin, hsize, hread⟩ := hends
  obtain ⟨q', l, hq', -, -, hagrees, -⟩ := circularQueue_refines _ (by decide) (by decide) hfits
  obtain rfl : q = q' := Except.ok.inj (hq.symm.trans hq')
  have hl : l = [12] := (hagrees.read 1 (hagrees.size ▸ hsize).le).symm.trans hread
  exact ⟨q, hq, hl ▸ hagrees, hbegin⟩

theorem run_pushes (capacity n : ℕ) (cells : ℕ → α) (val : α) (h₁ : 2 ≤ capacity)
    (h₂ : capacity < 2 ^ 32) (hn : n / capacity < 2 ^ 32) :
    ∃ q l, run CircularQueue.step (.create capacity cells) (.replicate n (.push_back val)) = .ok q ∧
      Represents q n l ∧ q.capacity = capacity ∧ l.length = min n capacity := by
  induction n with
  | zero => exact ⟨_, [], rfl, .create capacity cells h₁ h₂, rfl, (Nat.zero_min _).symm⟩
  | succ n ih =>
    have hlt : n / capacity < 2 ^ 32 := (Nat.div_le_div_right (Nat.le_succ n)).trans_lt hn
    obtain ⟨q, l, hrun, hrep, rfl, hlen⟩ := ih hlt
    have hfits : q.tail + 1 = q.capacity → q.round + 1 < 2 ^ 32 := by
      intro heq
      have hmod : (n + 1) % q.capacity = 0 := by
        rw [← Nat.mod_add_mod, ← hrep.tail, heq, Nat.mod_self]
      rwa [div_succ, if_pos hmod, ← hrep.round] at hn
    refine ⟨q.push_back val, push q.capacity l val, ?_, hrep.push_back hfits val, rfl, ?_⟩
    · rw [List.replicate_succ', run_concat, hrun]
      rfl
    · rw [push, List.length_append, length_kept, List.length_singleton]
      split_ifs <;> omega

/-- The index sum of `pop_front` overflows for a large capacity, so that an emptied queue is not
empty; after `2 ^ 32 - 1` rounds the end is before every element, and none can be popped. -/
theorem circularQueue_overflow :
    (Ends CircularQueue.step (.create (2 ^ 32 - 1) fun _ => ())
      (.replicate (2 ^ 32 - 1) (.push_back ()) ++ [.pop_front (2 ^ 32 - 1)]) fun q =>
        q.empty = false) ∧
    Stops CircularQueue.step (.create 2 fun _ => ())
      (.replicate (2 ^ 33 - 1) (.push_back ()) ++ [.pop_front 1]) .pastTheEnd := by
  constructor
  · obtain ⟨q, l, hrun, hrep, hcap, hlen⟩ := run_pushes (2 ^ 32 - 1) (2 ^ 32 - 1) (fun _ => ()) ()
      (by norm_num) (by norm_num) (by norm_num)
    have hbegin : q.begin_ = ⟨1, 0⟩ := by
      rw [hrep.begin_eq, hcap, hlen]
      rfl
    have hend : q.end_ = ⟨1, 1⟩ := by
      rw [hrep.end_eq, hcap]
      rfl
    have hadd : q.add q.begin_ (2 ^ 32 - 1) = ⟨0, 1⟩ := by
      rw [hbegin, CircularQueue.add, hcap]
      rfl
    refine ⟨{ q with empty := q.add q.begin_ (2 ^ 32 - 1) = q.end_,
                     head := (q.add q.begin_ (2 ^ 32 - 1)).idx }, ?_, ?_⟩
    · rw [run_concat, hrun, ok_bind, CircularQueue.step, CircularQueue.pop_front,
        if_neg (by norm_num)]
      refine bind_eq_ok.mpr ⟨⟨⟩, require_eq_ok.mpr ?_, rfl⟩
      rw [hadd, hend]
      rfl
    · rw [hadd, hend]
      rfl
  · obtain ⟨q, l, hrun, hrep, hcap, hlen⟩ := run_pushes 2 (2 ^ 33 - 1) (fun _ => ()) ()
      (by norm_num) (by norm_num) (by norm_num)
    have hbegin : q.begin_ = ⟨0, 2 ^ 32 - 1⟩ := by
      rw [hrep.begin_eq, hcap, hlen]
      rfl
    have hend : q.end_ = ⟨0, 0⟩ := by
      rw [hrep.end_eq, hcap]
      rfl
    have hadd : q.add q.begin_ 1 = ⟨1, 2 ^ 32 - 1⟩ := by
      rw [hbegin, CircularQueue.add, hcap]
      rfl
    rw [Stops, run_concat, hrun, ok_bind, CircularQueue.step, CircularQueue.pop_front,
      if_neg one_ne_zero]
    refine bind_eq_error.mpr (.inl (require_eq_error.mpr ⟨?_, rfl⟩))
    rw [hadd, hend]
    decide

end HetSim.Base
