import HetSim.Cache.Indexing

/-!
# The chunk generator

A region is cut at the multiples of a chunk size. The loop over a generator ends, and its chunks
tile the region, which may end at the top of the address space, where the next address is zero.
-/

namespace HetSim.Base
open Cache (isPowerOf2 isPowerOf2_eq)
open Checked List Nat

/-- Addresses are below `2 ^ 64` and sizes below `2 ^ 32`. -/
structure ChunkGenerator where
  startAddr : ℕ
  chunkSize : ℕ
  curAddr : ℕ
  nextAddr : ℕ
  curSize : ℕ
  sizeLeft : ℕ

inductive ChunkFault
  | notPowerOf2

def roundUp (val align : ℕ) : ℕ :=
  let mask := align - 1
  let sum := (val + mask) % 2 ^ 64
  -- `sum & ~mask`
  sum - (sum &&& mask)

namespace ChunkGenerator

/-- A difference of two addresses, as an `unsigned`. -/
def distance (addr base : ℕ) : ℕ := (addr + 2 ^ 64 - base) % 2 ^ 64 % 2 ^ 32

def create (startAddr totalSize chunkSize : ℕ) : Except ChunkFault ChunkGenerator := do
  require (chunkSize = 0 ∨ isPowerOf2 chunkSize) .notPowerOf2
  let nextAddr :=
    if chunkSize = 0 then (startAddr + totalSize) % 2 ^ 64
    else
      let nextAddr := roundUp startAddr chunkSize
      if startAddr = nextAddr then (nextAddr + chunkSize) % 2 ^ 64 else nextAddr
  let leftInChunk := distance nextAddr startAddr
  let curSize := min totalSize leftInChunk
  return ⟨startAddr, chunkSize, startAddr, nextAddr, curSize, totalSize - curSize⟩

variable (g : ChunkGenerator)

def complete : ℕ := distance g.curAddr g.startAddr

def done : Bool := g.curSize = 0

def next : Bool × ChunkGenerator :=
  if g.sizeLeft = 0 then (false, { g with curSize := 0 })
  else
    let curSize := min g.sizeLeft g.chunkSize
    (true, { g with curAddr := g.nextAddr, curSize, sizeLeft := g.sizeLeft - curSize
                    nextAddr := (g.nextAddr + curSize) % 2 ^ 64 })

variable {g}

theorem next_decreasing (h : g.next.2.done = false) : g.next.2.sizeLeft < g.sizeLeft := by
  rw [next] at h ⊢
  split_ifs at h ⊢ with hleft
  · simp [done] at h
  · have hpos := of_decide_eq_false h
    dsimp only at hpos ⊢
    omega

/-- The generator in every round of `for (gen; !gen.done(); gen.next())`. -/
def chunks (g : ChunkGenerator) : List ChunkGenerator :=
  if g.done then [] else g :: chunks g.next.2
termination_by if g.done then 0 else g.sizeLeft + 1
decreasing_by
  have hlt := @next_decreasing g
  split_ifs <;> simp_all

/-- The chunks are not empty, none crosses a multiple of the chunk size, together they are the
region in order, all but the first start and all but the last end at a multiple. In the round
of a chunk `complete` is the sum of the sizes before it and of those yielded earlier. -/
structure Tiles (chunkSize start size earlier : ℕ) (cs : List ChunkGenerator) : Prop where
  nonempty : ∀ x ∈ cs, x.curSize ≠ 0
  inside : ∀ x ∈ cs, ∀ m, ¬ (x.curAddr < m * chunkSize ∧ m * chunkSize < x.curAddr + x.curSize)
  region : cs.flatMap (fun x => range' x.curAddr x.curSize) = range' start size
  starts : ∀ x ∈ cs.tail, chunkSize ∣ x.curAddr
  ends : ∀ x ∈ cs.dropLast, chunkSize ∣ x.curAddr + x.curSize
  complete : ∀ i x, cs[i]? = some x → x.complete = earlier + ((cs.take i).map curSize).sum

/-- While bytes are left, the next chunk starts where the current one ends, at a multiple of
the chunk size. -/
structure Good (g : ChunkGenerator) : Prop where
  follow : g.sizeLeft ≠ 0 → g.nextAddr = g.curAddr + g.curSize ∧
    g.chunkSize ∣ g.curAddr + g.curSize ∧ g.curSize ≠ 0 ∧ g.chunkSize ≠ 0
  inside : ∀ m, ¬ (g.curAddr < m * g.chunkSize ∧ m * g.chunkSize < g.curAddr + g.curSize)
  top : g.curAddr + g.curSize + g.sizeLeft ≤ 2 ^ 64
  start : g.startAddr ≤ g.curAddr
  offset : g.curAddr + g.curSize + g.sizeLeft < g.startAddr + 2 ^ 32

theorem not_between {c a z : ℕ} (ha : c ∣ a) (hz : z ≤ c) (m : ℕ) :
    ¬ (a < m * c ∧ m * c < a + z) := by
  obtain ⟨q, rfl⟩ := ha
  rintro ⟨hlow, hhigh⟩
  rw [mul_comm m] at hlow hhigh
  have := Nat.mul_le_mul_left c (Nat.lt_of_mul_lt_mul_left hlow)
  rw [succ_eq_add_one, mul_add, mul_one] at this
  omega

theorem next_good (h : Good g) (hleft : g.sizeLeft ≠ 0) : Good g.next.2 ∧
    g.next.2.chunkSize = g.chunkSize ∧ g.next.2.curAddr = g.curAddr + g.curSize ∧
    g.chunkSize ∣ g.next.2.curAddr ∧ g.next.2.curSize ≠ 0 ∧
    g.next.2.curSize + g.next.2.sizeLeft = g.sizeLeft ∧
    g.next.2.complete = g.complete + g.curSize := by
  obtain ⟨hnext, hdvd, hsize, hchunk⟩ := h.follow hleft
  obtain ⟨-, -, htop, hstart, hoff⟩ := h
  rw [← hnext] at hdvd
  rw [next, if_neg hleft]
  refine ⟨⟨fun hl => ?_, not_between hdvd (by simp), ?_, ?_, ?_⟩, rfl, hnext, hdvd, ?_, ?_, ?_⟩ <;>
    dsimp only [complete, distance] at *
  · have hfull : min g.sizeLeft g.chunkSize = g.chunkSize := by omega
    rw [hfull] at hl ⊢
    exact ⟨by omega, hdvd.add dvd_rfl, hchunk, hchunk⟩
  all_goals omega

theorem chunks_cons (h : g.curSize ≠ 0) : chunks g = g :: chunks g.next.2 := by
  rw [chunks, if_neg (by simpa [done] using h)]

theorem chunks_of_size (h : g.curSize = 0) : chunks g = [] := by
  rw [chunks, if_pos (by simpa [done] using h)]

theorem tiles_cons (h : Good g) (hleft : g.sizeLeft ≠ 0)
    (ht : Tiles g.next.2.chunkSize g.next.2.curAddr (g.next.2.curSize + g.next.2.sizeLeft)
      g.next.2.complete (chunks g.next.2)) :
    Tiles g.chunkSize g.curAddr (g.curSize + g.sizeLeft) g.complete (g :: chunks g.next.2) := by
  obtain ⟨-, hchunk, haddr, hnext, hne, hsum, hcomplete⟩ := next_good h hleft
  obtain ⟨-, hdvd, hsize, -⟩ := h.follow hleft
  rw [hchunk, hsum, hcomplete, haddr] at ht
  have hrest := chunks_cons hne
  refine ⟨forall_mem_cons.mpr ⟨hsize, ht.nonempty⟩, forall_mem_cons.mpr ⟨h.inside, ht.inside⟩, ?_,
    ?_, ?_, ?_⟩
  · rw [flatMap_cons, ht.region, range'_append_1]
  · have hstarts := ht.starts
    rw [hrest] at hstarts
    rw [tail_cons, hrest]
    exact forall_mem_cons.mpr ⟨hnext, hstarts⟩
  · rw [dropLast_cons_of_ne_nil (by simp [hrest])]
    exact forall_mem_cons.mpr ⟨hdvd, ht.ends⟩
  · rintro (- | i) x hx
    · cases hx
      rw [take_zero, map_nil, sum_nil, add_zero]
    · rw [ht.complete i x hx, take_succ_cons, map_cons, sum_cons, add_assoc]

/-- The loop from a good state on, by induction on the bytes that are left. -/
theorem chunks_tiles (h : Good g) :
    Tiles g.chunkSize g.curAddr (g.curSize + g.sizeLeft) g.complete (chunks g) := by
  induction hn : g.sizeLeft using Nat.strong_induction_on generalizing g with
  | _ n ih =>
    subst hn
    by_cases hleft : g.sizeLeft = 0
    · by_cases hsize : g.curSize = 0
      · rw [chunks_of_size hsize]
        constructor <;> simp [hsize, hleft]
      · rw [chunks_cons hsize, chunks_of_size (by simp [next, hleft])]
        constructor <;> simp [hsize, hleft]
        · simpa using h.inside
        · rintro (- | i) x hx <;> simp_all
    · obtain ⟨hgood, -, -, -, hne, hsum, -⟩ := next_good h hleft
      rw [chunks_cons (h.follow hleft).2.2.1]
      exact tiles_cons h hleft (ih _ (by omega) hgood rfl)

theorem pred_add_mod {c : ℕ} (s : ℕ) (hc : 0 < c) :
    (s + (c - 1)) % c = if s % c = 0 then c - 1 else s % c - 1 := by
  have hlt := mod_lt s hc
  rw [add_mod, mod_eq_of_lt (a := c - 1) (by omega)]
  split_ifs with hs
  · rw [hs, zero_add, mod_eq_of_lt (by omega)]
  · rw [show s % c + (c - 1) = s % c - 1 + c by omega, add_mod_right, mod_eq_of_lt (by omega)]

/-- The boundary is the first multiple after the start, however the additions wrap. -/
theorem boundary {start c : ℕ} (hstart : start < 2 ^ 64) (hc : isPowerOf2 c) (hlt : c < 2 ^ 32) :
    (if start = roundUp start c then (roundUp start c + c) % 2 ^ 64 else roundUp start c) =
      (start + (c - start % c)) % 2 ^ 64 := by
  have hpow := isPowerOf2_eq hc
  have hdvd : c ∣ 2 ^ 64 := by
    rw [hpow] at hlt ⊢
    exact pow_dvd_pow 2 (((Nat.pow_lt_pow_iff_right one_lt_two).mp hlt).le.trans (by norm_num))
  have hpos : 0 < c := by
    rw [hpow]
    positivity
  have hround : roundUp start c = (start + (c - 1)) % 2 ^ 64 - (start + (c - 1)) % 2 ^ 64 % c := by
    rw [roundUp]
    conv_lhs => rw [hpow, Nat.and_two_pow_sub_one_eq_mod, ← hpow]
  have hfit := mod_le ((start + (c - 1)) % 2 ^ 64) c
  rw [Nat.mod_mod_of_dvd _ hdvd, pred_add_mod start hpos] at hround hfit
  have hle := mod_le start c
  have hmod := mod_lt start hpos
  rw [hround]
  by_cases hr : start % c = 0
  · rw [if_pos hr] at hfit ⊢
    split_ifs <;> omega
  · rw [if_neg hr] at hfit ⊢
    split_ifs <;> omega

theorem good_first {start total chunk left : ℕ} (hstart : start < 2 ^ 64) (htotal : total < 2 ^ 32)
    (htop : start + total ≤ 2 ^ 64) (hdvd : chunk ∣ start + left) (hpos : 0 < left)
    (hle : left ≤ chunk) :
    Good ⟨start, chunk, start, (start + left) % 2 ^ 64, min total left,
      total - min total left⟩ := by
  refine ⟨fun hl => ?_, fun m hm => ?_, ?_, le_rfl, ?_⟩ <;> dsimp only at *
  · have hfull : min total left = left := by omega
    rw [hfull] at hl ⊢
    exact ⟨by omega, hdvd, by omega, by omega⟩
  · -- the multiple before the end of the first chunk is not after its start
    have hbefore := le_of_dvd (by omega) hdvd
    have := not_between (Nat.dvd_sub hdvd dvd_rfl) le_rfl m
    omega
  all_goals omega

theorem create_good {start total chunk : ℕ} (hstart : start < 2 ^ 64) (htotal : total < 2 ^ 32)
    (hlt : chunk < 2 ^ 32) (hchunk : chunk = 0 ∨ isPowerOf2 chunk) (htop : start + total ≤ 2 ^ 64) :
    ∃ g, create start total chunk = .ok g ∧ Good g ∧ g.startAddr = start ∧ g.chunkSize = chunk ∧
      g.curAddr = start ∧ g.curSize + g.sizeLeft = total := by
  rw [create, require, if_pos hchunk]
  refine ⟨_, rfl, ?_, rfl, rfl, rfl, by dsimp only; omega⟩
  have hdist (left : ℕ) (h : left < 2 ^ 32) : distance ((start + left) % 2 ^ 64) start = left := by
    rw [distance]
    omega
  dsimp only
  by_cases hzero : chunk = 0
  · rw [if_pos hzero, hdist _ htotal, min_self, Nat.sub_self]
    exact ⟨fun hl => absurd rfl hl, by simp [hzero], htop, le_rfl, by dsimp only; omega⟩
  · have hmod := mod_lt start (Nat.pos_of_ne_zero hzero)
    have hdiv := div_add_mod start chunk
    rw [if_neg hzero, boundary hstart (hchunk.resolve_left hzero) hlt, hdist _ (by omega)]
    refine good_first hstart htotal htop ⟨start / chunk + 1, ?_⟩ (by omega) (by omega)
    rw [mul_add, mul_one]
    omega

theorem chunks_tile (start total chunk : ℕ) (hstart : start < 2 ^ 64) (htotal : total < 2 ^ 32)
    (hlt : chunk < 2 ^ 32) (hchunk : chunk = 0 ∨ isPowerOf2 chunk) (htop : start + total ≤ 2 ^ 64) :
    ∃ g, create start total chunk = .ok g ∧ Tiles chunk start total 0 (chunks g) := by
  obtain ⟨g, hg, hgood, hbase, rfl, rfl, rfl⟩ := create_good hstart htotal hlt hchunk htop
  have hzero : g.complete = 0 := by simp [complete, distance, hbase]
  exact ⟨g, hg, hzero ▸ chunks_tiles hgood⟩

theorem chunks_tile_top : ∃ g, create (2 ^ 64 - 150) 150 64 = .ok g ∧
    Tiles 64 (2 ^ 64 - 150) 150 0 (chunks g) :=
  chunks_tile _ _ _ (by norm_num) (by norm_num) (by norm_num) (.inr rfl) (by norm_num)

/-- After the last round `complete` does not count the last chunk. -/
theorem complete_omits_last : ∃ g, create 0 32 8 = .ok g ∧
    (iterate (·.next.2) g 4).map curSize = [8, 8, 8, 8] ∧
    ((·.next.2)^[4] g).done = true ∧ ((·.next.2)^[4] g).complete = 24 :=
  ⟨_, rfl, by decide, by decide, by decide⟩

end ChunkGenerator

end HetSim.Base
