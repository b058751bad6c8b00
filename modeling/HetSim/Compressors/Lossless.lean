import HetSim.Compressors.Dictionary

/-!
# Compression is lossless up to the width of the match location

Decompression rebuilds the dictionary. The location of a match is an `int` that comes back as
eight bits: a match behind the first 256 entries is decompressed with another entry, and a word
without a match with the entry 255, which may be outside.
-/

namespace HetSim.Compressors
open Checked Prefixes Transducers List BitVec Pattern Nat

variable {w : ℕ} {c : Compressor w} {d d' : Dictionary w} {v entry : BitVec w} {loc : ℤ}

/-! ## Patterns -/

theorem and_not_or_and (v mask : BitVec w) : v &&& ~~~mask ||| v &&& mask = v := by
  ext i
  simp only [getElem_or, getElem_and, getElem_not]
  cases v[i] <;> cases mask[i] <;> rfl

variable {n k i size : ℕ} {p : Pattern w} {line : List (BitVec 64)}

theorem getLsbD_repeat {r : ℕ} (hr : 0 < r) (u : BitVec w) (hu : ∀ j, r ≤ j → u.getLsbD j = false)
    (hk : k < w) : ((List.range n).foldl (fun (x : BitVec w) _ => x <<< r ||| u) 0).getLsbD k =
      (decide (k < n * r) && u.getLsbD (k % r)) := by
  induction n generalizing k with
  | zero => simp
  | succ n ih =>
    rw [range_succ, foldl_append, foldl_cons, foldl_nil, getLsbD_or,
      getLsbD_shiftLeft, Nat.succ_mul]
    by_cases hkr : k < r
    · have hlt : k < n * r + r := by omega
      simp [hkr, hlt, mod_eq_of_lt hkr]
    · have hmod : (k - r) % r = k % r := (mod_eq_sub_mod (not_lt.mp hkr)).symm
      have hiff : k - r < n * r ↔ k < n * r + r := by omega
      rw [ih (by omega), hu k (not_lt.mp hkr), hmod]
      simp [hkr, hk, hiff]

namespace Template

def Wf : Template w → Prop
  | repeatedValuePattern repBits => 0 < repBits ∧ repBits ∣ w
  | _ => True

instance : DecidablePred (Wf : Template w → Prop) := fun t => by
  cases t <;> unfold Wf <;> infer_instance

theorem decompress_repeated {r : ℕ} (hwf : (repeatedValuePattern r : Template w).Wf)
    (h : (repeatedValuePattern r).isPattern v entry loc = true) (dict : BitVec w) :
    (repeatedValuePattern r).decompress ((repeatedValuePattern r).store v) dict = v := by
  obtain ⟨hr, n, rfl⟩ := hwf
  rw [isPattern, Nat.mul_div_cancel_left n hr, all_eq_true] at h
  rw [decompress, store, Nat.mul_div_cancel_left n hr]
  apply eq_of_getLsbD_eq
  intro k hk
  have hlt : k % r < r := mod_lt k hr
  have hle : k % r < r * n := (mod_le k r).trans_lt hk
  rw [getLsbD_repeat hr _ (fun j hj => by simp [Nat.not_lt.mpr hj]) hk]
  -- The part of the word with the bit is equal to the first one.
  have hpart := eq_of_beq (h (k / r) (mem_range.mpr (Nat.div_lt_of_lt_mul hk)))
  have hbit := congrArg (BitVec.getLsbD · (k % r)) hpart
  simp only [getLsbD_setWidth, getLsbD_ushiftRight, hlt, decide_true, Bool.true_and,
    div_add_mod] at hbit
  simp only [getLsbD_setWidth, hlt, hle, Nat.mul_comm n r, hk, decide_true, Bool.true_and,
    ← hbit]

theorem decompress_store {t : Template w} {dict : BitVec w} (hwf : t.Wf)
    (h : t.isPattern v entry loc = true) (hdict : 0 ≤ loc → dict = entry) :
    t.decompress (t.store v) dict = v := by
  cases t with
  | uncompressedPattern => rfl
  | deltaPattern => rfl
  | repeatedValuePattern => exact decompress_repeated hwf h dict
  | maskedPattern mask =>
    simp only [isPattern, Bool.and_eq_true, decide_eq_true_eq, beq_iff_eq] at h
    rw [decompress, store, hdict h.1, ← h.2, and_not_or_and]
  | locatedMaskedPattern mask location =>
    simp only [isPattern, Bool.and_eq_true, decide_eq_true_eq, beq_iff_eq] at h
    rw [decompress, store, hdict h.2.1, ← h.2.2, and_not_or_and]
  | maskedValuePattern value mask =>
    rw [decompress, store, eq_of_beq h, and_not_or_and]

end Template

namespace Compressor

def patterns (c : Compressor w) : List (PatternClass w) := c.factory ++ [c.last]

theorem getPattern_spec (c : Compressor w) (v entry : BitVec w) (loc : ℤ) : ∃ q ∈ c.patterns,
    c.getPattern v entry loc = ⟨q, q.template.store v, loc⟩ ∧
      q.template.isPattern v entry loc = true ∧
      (c.patterns.Pairwise (fun q q' => q.getSizeBits ≤ q'.getSizeBits) →
        ∀ q' ∈ c.patterns, q'.template.isPattern v entry loc = true →
          q.getSizeBits ≤ q'.getSizeBits) := by
  unfold getPattern patterns
  induction c.factory with
  | nil =>
    refine ⟨c.last, mem_singleton_self _, rfl, rfl, fun _ q' hq' _ => ?_⟩
    rw [mem_singleton.mp hq']
  | cons q qs ih =>
    rw [getPatternFrom]
    by_cases hq : q.template.isPattern v entry loc = true
    · rw [if_pos hq]
      refine ⟨q, mem_cons_self, rfl, hq, fun hsorted q' hq' _ => ?_⟩
      rcases mem_cons.mp hq' with rfl | hq'
      · exact le_rfl
      · exact rel_of_pairwise_cons hsorted hq'
    · rw [if_neg hq]
      obtain ⟨q₀, hmem, heq, hpattern, hleast⟩ := ih
      refine ⟨q₀, mem_cons_of_mem q hmem, heq, hpattern, fun hsorted q' hq' hpattern' => ?_⟩
      rcases mem_cons.mp hq' with rfl | hq'
      · exact absurd hpattern' hq
      · exact hleast (List.Pairwise.of_cons hsorted) q' hq' hpattern'

theorem matchLocation_getPattern (c : Compressor w) (v entry : BitVec w) (loc : ℤ) :
    (c.getPattern v entry loc).matchLocation = loc := by
  obtain ⟨q, -, heq, -⟩ := c.getPattern_spec v entry loc
  rw [heq]

theorem bestPattern_cases (c : Compressor w) (d : Dictionary w) (v : BitVec w) (n : ℕ) :
    c.bestPattern d v n = c.getPattern v 0 (-1) ∨
      ∃ i < n, c.bestPattern d v n = c.getPattern v (d.dictionary.getD i 0) i := by
  induction n with
  | zero => exact .inl rfl
  | succ n ih =>
    rw [bestPattern]
    split_ifs
    · exact .inr ⟨n, n.lt_succ_self, rfl⟩
    · rcases ih with ih | ⟨i, hi, ih⟩
      · exact .inl ih
      · exact .inr ⟨i, hi.trans n.lt_succ_self, ih⟩

theorem bestPattern_le (c : Compressor w) (d : Dictionary w) (v : BitVec w) (hi : i < n) :
    (c.bestPattern d v n).getSizeBits ≤
      (c.getPattern v (d.dictionary.getD i 0) i).getSizeBits := by
  induction n with
  | zero => exact absurd hi i.not_lt_zero
  | succ n ih =>
    rw [bestPattern]
    rcases (Nat.lt_succ_iff.mp hi).eq_or_lt with rfl | hi
    · split_ifs with hlt
      · exact le_rfl
      · exact not_lt.mp hlt
    · split_ifs with hlt
      · exact hlt.le.trans (ih hi)
      · exact ih hi

/-- The words are compressed with the smallest pattern that goes with them and an entry. -/
def Minimal (c : Compressor w) (d : Dictionary w) (v : BitVec w) (p : Pattern w) : Prop :=
  ∀ q ∈ c.patterns, ∀ i < d.numEntries,
    q.template.isPattern v (d.dictionary.getD i 0) i = true → p.getSizeBits ≤ q.getSizeBits

def Sorted (c : Compressor w) : Prop :=
  c.patterns.Pairwise fun q q' => q.getSizeBits ≤ q'.getSizeBits

instance (c : Compressor w) : Decidable c.Sorted := inferInstanceAs (Decidable (List.Pairwise _ _))

theorem minimal_bestPattern (hsorted : c.Sorted) :
    c.Minimal d v (c.bestPattern d v d.numEntries) := by
  intro q hq i hi hpattern
  obtain ⟨q₀, -, heq, -, hleast⟩ := c.getPattern_spec v (d.dictionary.getD i 0) i
  have hle := c.bestPattern_le d v hi
  rw [heq] at hle
  exact hle.trans (hleast hsorted q hq hpattern)

theorem compressValue_eq (h : c.compressValue d v = .ok (p, d')) :
    p = c.bestPattern d v d.numEntries ∧ c.allocate p d v = .ok d' := by
  unfold compressValue at h
  obtain ⟨d₁, hd₁, h⟩ := bind_eq_ok.mp h
  cases pure_eq_ok.mp h
  exact ⟨rfl, hd₁⟩

theorem compressValue_total {P : Dictionary w → Prop}
    (hadd : ∃ d', c.addToDictionary d v = .ok d' ∧ P d') (hd : P d) :
    ∃ p d', c.compressValue d v = .ok (p, d') ∧ P d' := by
  have hallocate (p : Pattern w) : ∃ d', c.allocate p d v = .ok d' ∧ P d' := by
    unfold allocate
    split_ifs
    · exact hadd
    · exact ⟨d, rfl, hd⟩
  obtain ⟨d', hd', hP⟩ := hallocate (c.bestPattern d v d.numEntries)
  exact ⟨_, d', by rw [compressValue, hd']; rfl, hP⟩

def Wf (c : Compressor w) : Prop := ∀ q ∈ c.factory, q.template.Wf

instance (c : Compressor w) : Decidable c.Wf := inferInstanceAs (Decidable (∀ q ∈ _, _))

theorem decompressValue_compressValue (outside : ℕ → BitVec w) (hwf : c.Wf)
    (hcount : d.numEntries ≤ 256) (hlength : d.numEntries ≤ d.dictionary.length)
    (h : c.compressValue d v = .ok (p, d')) : c.decompressValue outside d p = .ok (v, d') := by
  obtain ⟨hp, hd'⟩ := compressValue_eq h
  have hinverse {entry dict : BitVec w} {loc : ℤ} (hdict : 0 ≤ loc → dict = entry) :
      (c.getPattern v entry loc).decompress dict = v := by
    obtain ⟨q, hq, heq, hpattern, -⟩ := c.getPattern_spec v entry loc
    rw [heq]
    refine Template.decompress_store ?_ hpattern hdict
    rcases mem_append.mp hq with hq | hq
    · exact hwf q hq
    · rw [mem_singleton.mp hq]
      trivial
  have hdata : p.decompress
      (d.dictionary.getD p.getMatchLocation (outside p.getMatchLocation)) = v := by
    rcases c.bestPattern_cases d v d.numEntries with hbest | ⟨i, hi, hbest⟩
    · rw [hp, hbest]
      exact hinverse fun hneg => absurd hneg (by decide)
    · have hloc : p.getMatchLocation = i := by
        rw [hp, hbest, getMatchLocation, matchLocation_getPattern]
        omega
      rw [hloc, hp, hbest]
      refine hinverse fun _ => ?_
      rw [getD_eq_getElem _ _ (hi.trans_le hlength),
        getD_eq_getElem _ _ (hi.trans_le hlength)]
  simp only [decompressValue, hdata, hd', ok_bind]
  rfl

/-! ## Lines -/

theorem getD_values {j : ℕ} (hi : i < line.length) (hj : j < 64 / w)
    (x : BitVec w) :
    (values line).getD (64 / w * i + j) x = (line.getD i 0).extractLsb' (w * j) w := by
  have hlt : 64 / w * i + j < 64 / w * line.length := by
    calc 64 / w * i + j < 64 / w * (i + 1) := by rw [Nat.mul_succ]; omega
      _ ≤ 64 / w * line.length := Nat.mul_le_mul_left _ hi
  rw [values, getD_eq_getElem _ _ (by simpa using hlt), getElem_map, getElem_range,
    mul_add_div (by omega), div_eq_of_lt hj, mul_add_mod, mod_eq_of_lt hj,
    Nat.add_zero]

theorem concatenate_values (line : List (BitVec 64)) :
    concatenate line.length (values line : List (BitVec 32)) = line := by
  apply ext_getElem
  · rw [concatenate, length_map, length_range]
  · intro i _ hi
    have hget (j : ℕ) (hj : j < 2) := getD_values (w := 32) hi (j := j) hj 0
    simp only [concatenate, getElem_map, getElem_range]
    rw [← getD_eq_getElem line 0 hi]
    show (0 ||| ((values line).getD (2 * i + 1) 0).setWidth 64 <<< (32 * 1)) |||
      ((values line).getD (2 * i + 0) 0).setWidth 64 <<< (32 * 0) = line.getD i 0
    rw [hget 0 (by decide), hget 1 (by decide)]
    apply eq_of_getLsbD_eq
    intro k hk
    by_cases h32 : k < 32
    · simp [h32, hk]
    · have hadd : 32 + (k - 32) = k := by omega
      have hlt : k - 32 < 32 := by omega
      simp [h32, hk, hadd, hlt]

/-- The line comes back, over the same dictionaries, and each word has a smallest pattern. -/
structure Faithful (c : Compressor w) (dictionarySize : ℕ) (line : List (BitVec 64))
    (entries : List (Pattern w)) : Prop where
  compressed : c.compress dictionarySize line = .ok entries
  decompressed : ∀ outside, c.decompress outside dictionarySize line.length entries = .ok line
  dictionaries : ∀ outside k, ∃ ps vs d,
    c.compressValues dictionarySize ((values line).take k) = .ok (ps, d) ∧
    c.decompressValues outside dictionarySize (entries.take k) = .ok (vs, d)
  minimal : ∀ k v p ps d, (values line)[k]? = some v → entries[k]? = some p →
    c.compressValues dictionarySize ((values line).take k) = .ok (ps, d) → c.Minimal d v p

theorem faithful {c : Compressor 32} {d : Dictionary 32}
    {I : Dictionary 32 → List (BitVec 32) → Prop} (hwf : c.Wf) (hsorted : c.Sorted)
    (hreset : c.resetDictionary size = .ok d) (h : I d (values line))
    (hadd : ∀ d v vs, I d (v :: vs) → I d vs ∧ ∃ d', c.addToDictionary d v = .ok d' ∧ I d' vs)
    (hcount : ∀ d v vs, I d (v :: vs) → d.numEntries ≤ 256 ∧ d.numEntries ≤ d.dictionary.length) :
    ∃ entries, Faithful c size line entries := by
  have hstep (outside : ℕ → BitVec 32) (d : Dictionary 32) (v : BitVec 32) (vs : List (BitVec 32))
      (hd : I d (v :: vs)) : ∃ p d', c.compressValue d v = .ok (p, d') ∧
        c.decompressValue outside d p = .ok (v, d') ∧ I d' vs := by
    obtain ⟨hskip, hadd⟩ := hadd d v vs hd
    obtain ⟨p, d', hp, hI⟩ := compressValue_total hadd hskip
    exact ⟨p, d', hp, decompressValue_compressValue outside hwf (hcount d v vs hd).1
      (hcount d v vs hd).2 hp, hI⟩
  obtain ⟨entries, hlength, htake⟩ := transduce_inverse (hstep 0) h
  have hall (outside : ℕ → BitVec 32) (k : ℕ) : ∃ d',
      transduce c.compressValue d ((values line).take k) = .ok (entries.take k, d') ∧
      transduce (c.decompressValue outside) d (entries.take k) =
        .ok ((values line).take k, d') := by
    obtain ⟨entries', -, htake'⟩ := transduce_inverse (hstep outside) h
    obtain ⟨d₀, hd₀, -⟩ := htake k
    obtain ⟨d', hd', hd''⟩ := htake' k
    obtain ⟨heq, rfl⟩ := Prod.mk.inj (Except.ok.inj (hd₀.symm.trans hd'))
    exact ⟨d₀, hd₀, heq ▸ hd''⟩
  have hfull := hall 0 (values line : List (BitVec 32)).length
  rw [take_length, ← hlength, take_length] at hfull
  obtain ⟨d', hd', -⟩ := hfull
  refine ⟨entries, ?_, fun outside => ?_, fun outside k => ?_, fun k v p ps d₁ hv hp hps => ?_⟩
  · rw [compress, compressValues, hreset, ok_bind, hd']
    rfl
  · obtain ⟨d'', -, hd''⟩ := hall outside (values line : List (BitVec 32)).length
    rw [take_length, ← hlength, take_length] at hd''
    rw [decompress, decompressValues, hreset, ok_bind, hd'', ok_bind, concatenate_values]
    rfl
  · obtain ⟨d'', hleft, hright⟩ := hall outside k
    exact ⟨_, _, d'', by rw [compressValues, hreset]; exact hleft,
      by rw [decompressValues, hreset]; exact hright⟩
  · obtain ⟨d₂, p', d₃, htake₂, hvalue, hp'⟩ := transduce_getElem hd' hv
    cases hp.symm.trans hp'
    rw [compressValues, hreset, ok_bind, htake₂] at hps
    cases hps
    rw [(compressValue_eq hvalue).1]
    exact minimal_bestPattern hsorted

end Compressor

open Compressor

theorem addToDictionary_append (hfifo : ¬ (c.fifo = true ∧ d.numEntries = 2))
    (hsize : d.dictionary.length = size) (hlt : d.numEntries < size) (v : BitVec w) :
    c.addToDictionary d v = .ok ⟨d.dictionary.set d.numEntries v, d.numEntries + 1⟩ := by
  have hrequire (f : Fault) : (require (d.numEntries < d.dictionary.length) f :
      Except Fault Unit) = .ok ⟨⟩ := if_pos (hsize ▸ hlt)
  rw [addToDictionary, if_neg hfifo, hrequire, ok_bind]
  rfl

theorem faithful_cPack (hsize : 2 * line.length ≤ size)
    (hline : 2 * line.length ≤ 256) : ∃ entries, Faithful cPack size line entries := by
  have hlength : (values line : List (BitVec 32)).length = 2 * line.length := by simp [values]
  refine faithful (I := fun d vs => d.dictionary.length = size ∧
    d.numEntries + vs.length ≤ 2 * line.length) (by decide) (by decide) rfl ?_ ?_ ?_
  · exact ⟨length_replicate, by rw [hlength, Nat.zero_add]⟩
  · intro d v vs h
    rw [length_cons] at h
    refine ⟨⟨h.1, by omega⟩, _, addToDictionary_append (by simp [cPack]) h.1 (by omega) v, ?_, ?_⟩
    · rw [length_set, h.1]
    · dsimp only
      omega
  · intro d v vs h
    rw [length_cons] at h
    omega

theorem faithful_fpcd (hsize : 2 ≤ size) (line : List (BitVec 64)) :
    ∃ entries, Faithful fpcd size line entries := by
  refine faithful (I := fun d _ => d.dictionary.length = size ∧ d.numEntries ≤ 2) (by decide)
    (by decide) rfl ⟨length_replicate, Nat.zero_le _⟩ (fun d v vs h => ⟨h, ?_⟩) fun d v vs h => ?_
  · by_cases htwo : d.numEntries = 2
    · refine ⟨_, if_pos ⟨rfl, htwo⟩, ?_, h.2⟩
      rw [length_set, length_set, h.1]
    · refine ⟨_, addToDictionary_append (fun hfull => htwo hfull.2) h.1 (by omega) v, ?_, ?_⟩
      · rw [length_set, h.1]
      · dsimp only
        omega
  · omega

/-! ## A match behind the first 256 entries -/

def spread (k : ℕ) : BitVec 32 := BitVec.ofNat 32 ((min k 256 + 1) * 65536)

theorem toNat_spread (k : ℕ) : (spread k).toNat = (min k 256 + 1) * 65536 := by
  rw [spread, toNat_ofNat, mod_eq_of_lt (by omega)]

theorem spread_and : spread k &&& 0xFFFF0000 = spread k := by
  have hall : ∀ j ≤ 256, BitVec.ofNat 32 ((j + 1) * 65536) &&& 0xFFFF0000 =
      BitVec.ofNat 32 ((j + 1) * 65536) := by decide +kernel
  exact hall _ (min_le_right k 256)

theorem spread_ne (h : min i 256 ≠ min k 256) : spread i ≠ spread k := by
  intro heq
  have hnat := congrArg BitVec.toNat heq
  rw [toNat_spread, toNat_spread] at hnat
  omega

theorem getPattern_spread {entry : BitVec 32} (hne : entry &&& 0xFFFF0000 ≠ spread k)
    (loc : ℤ) : cPack.getPattern (spread k) entry loc = ⟨cPack.last, spread k, loc⟩ := by
  have hand {m : BitVec 32} (hm : m &&& 0xFFFF0000 = 0xFFFF0000) (x : BitVec 32) :
      x &&& m &&& 0xFFFF0000 = x &&& 0xFFFF0000 := by rw [BitVec.and_assoc, hm]
  have hmasked {m : BitVec 32} (hm : m &&& 0xFFFF0000 = 0xFFFF0000) :
      (Template.maskedPattern m).isPattern (spread k) entry loc = false := by
    refine Bool.and_eq_false_imp.mpr fun _ => beq_false_of_ne fun heq => hne ?_
    rw [← hand hm, ← heq, hand hm, spread_and]
  have hvalue {m : BitVec 32} (hm : m &&& 0xFFFF0000 = 0xFFFF0000) :
      (Template.maskedValuePattern 0 m).isPattern (spread k) entry loc = false := by
    refine beq_false_of_ne fun heq => ?_
    have hzero : spread k = 0 &&& 0xFFFF0000 := by rw [← spread_and, ← hand hm, ← heq, hand hm]
    have hnat := congrArg BitVec.toNat hzero
    rw [toNat_spread] at hnat
    exact absurd hnat (by simp)
  simp only [getPattern, cPack, getPatternFrom, CPack.patternZZZZ, CPack.patternMMMM,
    CPack.patternZZZX, CPack.patternMMMX, CPack.patternMMXX, hmasked (m := 0xFFFFFFFF) (by decide),
    hmasked (m := 0xFFFFFF00) (by decide), hmasked (m := 0xFFFF0000) (by decide),
    hvalue (m := 0xFFFFFFFF) (by decide), hvalue (m := 0xFFFFFF00) (by decide),
    Bool.false_eq_true, if_false]
  rfl

/-- The dictionary behind the first `n` words. -/
structure Spread (size n : ℕ) (d : Dictionary 32) : Prop where
  length : d.dictionary.length = size
  count : d.numEntries = n
  entry : ∀ i < n, d.dictionary.getD i 0 = spread i

theorem bestPattern_spread {m : ℕ} {d : Dictionary 32} (hd : Spread size n d) (hm : m ≤ n)
    (hk : m ≤ min k 256) : cPack.bestPattern d (spread k) m = ⟨cPack.last, spread k, -1⟩ := by
  induction m with
  | zero =>
    refine getPattern_spread (fun heq => ?_) _
    have hnat := congrArg BitVec.toNat heq
    rw [toNat_spread] at hnat
    exact absurd hnat (by simp)
  | succ m ih =>
    have hne : spread m &&& 0xFFFF0000 ≠ spread k := by
      rw [spread_and]
      exact spread_ne (by omega)
    rw [bestPattern, ih (by omega) (by omega), hd.entry m (by omega), getPattern_spread hne]
    exact if_neg (lt_irrefl _)

theorem compress_spread {vs : List (BitVec 32)}
    (hvs : ∀ k < 258, vs[k]? = some (spread k)) (hn : n ≤ 257) (hsize : n ≤ size) : ∃ ps d,
      cPack.compressValues size (vs.take n) = .ok (ps, d) ∧ Spread size n d := by
  induction n with
  | zero => exact ⟨[], _, rfl, length_replicate, rfl, nofun⟩
  | succ n ih =>
    obtain ⟨ps, d, hps, hd⟩ := ih (by omega) (by omega)
    have hbest := bestPattern_spread hd le_rfl (k := n) (by omega)
    have hadd := addToDictionary_append (c := cPack) (by simp [cPack]) hd.length
      (by rw [hd.count]; omega) (spread n)
    have hvalue : cPack.compressValue d (spread n) = .ok (⟨cPack.last, spread n, -1⟩,
        ⟨d.dictionary.set d.numEntries (spread n), d.numEntries + 1⟩) := by
      rw [compressValue, hd.count, hbest]
      show (cPack.addToDictionary d (spread n) >>= _) = _
      rw [hadd, hd.count]
      rfl
    have hnext := transduce_concat hps hvalue
    rw [show vs.take n ++ [spread n] = vs.take (n + 1) by rw [take_add_one, hvs n (by omega)]; rfl]
      at hnext
    refine ⟨_, _, hnext, (length_set ..).trans hd.length, congrArg (· + 1) hd.count,
      fun i hi => ?_⟩
    dsimp only
    rw [hd.count, getD_eq_getElem?_getD]
    by_cases hin : i = n
    · rw [hin, List.getElem?_set_self (by rw [hd.length]; omega)]
      rfl
    · rw [List.getElem?_set_ne (Ne.symm hin), ← getD_eq_getElem?_getD]
      exact hd.entry i (by omega)

theorem not_faithful_of_spread {entries : List (Pattern 32)}
    (hline : ∀ k < 258, (values line)[k]? = some (spread k)) (hsize : 258 ≤ size) :
    ¬ Faithful cPack size line entries := by
  intro h
  obtain ⟨ps, d, hps, hd⟩ := compress_spread (n := 257) hline le_rfl (show 257 ≤ size by omega)
  obtain ⟨⟨es, dlast⟩, hes, heq⟩ := bind_eq_ok.mp h.compressed
  cases pure_eq_ok.mp heq
  obtain ⟨s₁, p, s₂, hs₁, hvalue, hp⟩ := transduce_getElem hes (hline 257 (by decide))
  cases hps.symm.trans hs₁
  obtain ⟨ps₁, vs₁, d₁, hc₁, hd₁⟩ := h.dictionaries 0 257
  cases hps.symm.trans hc₁
  have hadd := addToDictionary_append (c := cPack) (by simp [cPack]) hd.length
    (by rw [hd.count]; omega)
  rw [hd.count] at hadd
  -- The word is found at the location 256, which comes back as 0.
  obtain ⟨hbest, hallocate⟩ := compressValue_eq hvalue
  have hpattern : p = ⟨CPack.patternMMMM, 0, 256⟩ := by
    rw [hbest, hd.count, bestPattern, bestPattern_spread hd (by decide) (by decide),
      hd.entry 256 (by decide)]
    rfl
  have hs₂ : s₂ = ⟨d.dictionary.set 257 (spread 257), 258⟩ := by
    rw [hpattern] at hallocate
    exact (Except.ok.inj ((hadd (spread 257)).symm.trans hallocate)).symm
  have hentry : p.decompress (d.dictionary.getD p.getMatchLocation 0) = spread 0 := by
    rw [show p.getMatchLocation = 0 by rw [hpattern]; rfl, hd.entry 0 (by decide), hpattern]
    rfl
  have hwrong :
      cPack.decompressValue 0 d p = .ok (spread 0, ⟨d.dictionary.set 257 (spread 0), 258⟩) := by
    simp only [decompressValue, Pi.zero_apply, hentry]
    rw [hpattern]
    show (cPack.addToDictionary d (spread 0) >>= _) = _
    rw [hadd]
    rfl
  obtain ⟨ps₂, vs₂, d₂, hc₂, hd₂⟩ := h.dictionaries 0 258
  have hleft := transduce_concat hs₁ hvalue
  have hright := transduce_concat hd₁ hwrong
  rw [take_add_one, hline 257 (by decide)] at hc₂
  rw [take_add_one, hp] at hd₂
  cases hleft.symm.trans hc₂
  have hdict := (Prod.mk.inj (Except.ok.inj (hright.symm.trans hd₂))).2
  rw [hs₂] at hdict
  have hget := congrArg (fun d => d.dictionary[257]?) hdict
  dsimp only at hget
  rw [List.getElem?_set_self (by rw [hd.length]; omega),
    List.getElem?_set_self (by rw [hd.length]; omega)] at hget
  exact spread_ne (by decide) (Option.some.inj hget)

def spreadLine (n : ℕ) : List (BitVec 64) :=
  (List.range n).map fun i => spread (2 * i + 1) ++ spread (2 * i)

theorem values_spreadLine (hk : k < 2 * n) :
    (values (spreadLine n) : List (BitVec 32))[k]? = some (spread k) := by
  have hlength : (spreadLine n).length = n := by rw [spreadLine, length_map, length_range]
  have hlt : k / 2 < n := by omega
  have hword :
      (spreadLine n).getD (k / 2) 0 = spread (2 * (k / 2) + 1) ++ spread (2 * (k / 2)) := by
    rw [getD_eq_getElem _ _ (by rwa [hlength])]
    simp only [spreadLine, getElem_map, getElem_range]
  rw [values, List.getElem?_map, List.getElem?_range (by rw [hlength]; exact hk), Option.map_some]
  show some (((spreadLine n).getD (k / 2) 0).extractLsb' (32 * (k % 2)) 32) = _
  rw [hword]
  rcases mod_two_eq_zero_or_one k with hmod | hmod
  · rw [hmod, show 2 * (k / 2) = k by omega]
    exact congrArg some BitVec.extractLsb'_append_eq_right
  · rw [hmod, show 2 * (k / 2) + 1 = k by omega]
    exact congrArg some BitVec.extractLsb'_append_eq_left

open Compressor in
/-- `FPCD` is faithful; `CPack` is up to lines of 1024 bytes. -/
theorem compression_faithful_iff {blkSize dictionarySize : ℕ} (hblk : 8 ∣ blkSize) :
    (2 ≤ dictionarySize → ∀ line, line.length = blkSize / 8 →
      ∃ entries, Faithful fpcd dictionarySize line entries) ∧
    (blkSize / 4 ≤ dictionarySize → ((∀ line, line.length = blkSize / 8 →
      ∃ entries, Faithful cPack dictionarySize line entries) ↔ blkSize ≤ 1024)) := by
  obtain ⟨n, rfl⟩ := hblk
  rw [Nat.mul_div_cancel_left n (by decide)]
  refine ⟨fun hsize line _ => faithful_fpcd hsize line,
    fun hsize => ⟨fun h => ?_, fun hle line hline => ?_⟩⟩
  · by_contra hlt
    have hlength : (spreadLine n).length = n := by
      rw [spreadLine, length_map, length_range]
    obtain ⟨entries, hentries⟩ := h (spreadLine n) hlength
    exact not_faithful_of_spread (fun k hk => values_spreadLine (by omega)) (by omega) hentries
  · exact faithful_cPack (by omega) (by omega)

theorem compression_faithful_iff_line64 : 8 ∣ 64 ∧
    ∃ entries, Compressor.Faithful cPack 64 (List.replicate 8 0x123456781234) entries :=
  ⟨by decide, ((@compression_faithful_iff 64 64 (by decide)).2 (by decide)).mpr (by decide) _ rfl⟩

/-- The last of 258 words is found behind the first 256. -/
theorem cPack_loses_match :
    ¬ ∃ entries, Compressor.Faithful cPack 258 (spreadLine 129) entries := by
  rintro ⟨entries, h⟩
  exact not_faithful_of_spread (fun k hk => values_spreadLine hk) le_rfl h

/-! ## Reads outside of the dictionary -/

theorem getMatchLocation_neg (h : p.matchLocation = -1) : p.getMatchLocation = 255 := by
  rw [getMatchLocation, h]
  rfl

theorem reads_inside_of_empty {entries : List (Pattern w)}
    (hbases : c.bases = []) (hsize : size ≤ 255) (h : c.compress size line = .ok entries) :
    (∀ p ∈ entries, p.getMatchLocation < size) ↔ (values line : List (BitVec w)) = [] := by
  obtain ⟨⟨es, d⟩, hes, heq⟩ := bind_eq_ok.mp h
  cases pure_eq_ok.mp heq
  rw [compressValues, resetDictionary, hbases, foldlM_nil, pure_bind] at hes
  generalize (values line : List (BitVec w)) = vs at hes
  cases vs with
  | nil =>
    cases hes
    exact iff_of_true nofun rfl
  | cons v vs =>
    obtain ⟨p, d₁, ps, hp, -, rfl⟩ := transduce_cons_inv hes
    refine iff_of_false (fun hall => ?_) (cons_ne_nil v vs)
    have hlt := hall p mem_cons_self
    rw [getMatchLocation_neg] at hlt
    · omega
    · rw [(compressValue_eq hp).1]
      exact matchLocation_getPattern ..

theorem compressValue_baseDelta {bits : ℕ} (hw : 0 < w) (hcount : d.numEntries = 1)
    (hzero : d.dictionary.getD 0 0 = 0) (h : (baseDelta w bits).compressValue d v = .ok (p, d')) :
    if isValidDelta bits v 0 = true then p.matchLocation = 0 ∧
      d' = d else p.matchLocation = -1 := by
  obtain ⟨hp, hd'⟩ := compressValue_eq h
  rw [hcount, bestPattern, hzero] at hp
  have hnone : (baseDelta w bits).bestPattern d v 0 = ⟨(baseDelta w bits).last, v, -1⟩ := rfl
  have hmatch : (baseDelta w bits).getPattern v 0 (0 : ℕ) = if isValidDelta bits v 0 = true then
      ⟨⟨.deltaPattern bits, 1, false⟩, v, 0⟩ else ⟨(baseDelta w bits).last, v, 0⟩ := rfl
  rw [hmatch, hnone] at hp
  by_cases hvalid : isValidDelta bits v 0 = true
  · have hlt : getSizeBits ⟨⟨.deltaPattern bits, 1, false⟩, v, 0⟩ <
        getSizeBits ⟨(baseDelta w bits).last, v, -1⟩ := show bits + 1 < w + (1 + bits) by omega
    rw [if_pos hvalid, if_pos hlt] at hp
    rw [hp] at hd'
    rw [if_pos hvalid, hp]
    exact ⟨rfl, (Except.ok.inj hd').symm⟩
  · have hlt : ¬ getSizeBits ⟨(baseDelta w bits).last, v, 0⟩ <
        getSizeBits ⟨(baseDelta w bits).last, v, -1⟩ := lt_irrefl (w + (1 + bits))
    rw [if_neg hvalid, if_neg hlt] at hp
    rw [if_neg hvalid, hp]

theorem reads_inside_baseDelta {bits : ℕ}
    {entries : List (Pattern w)} (hw : 0 < w) (hsize : size ≤ 255)
    (h : (baseDelta w bits).compress size line = .ok entries) :
    (∀ p ∈ entries, p.getMatchLocation < size) ↔
      ∀ v ∈ (values line : List (BitVec w)), isValidDelta bits v 0 = true := by
  obtain ⟨⟨es, dlast⟩, hrun, heq⟩ := bind_eq_ok.mp h
  cases pure_eq_ok.mp heq
  obtain ⟨d, hd, hes⟩ := bind_eq_ok.mp hrun
  obtain ⟨hpos, hcount, hzero⟩ : 0 < size ∧ d.numEntries = 1 ∧ d.dictionary.getD 0 0 = 0 := by
    rw [resetDictionary, show (baseDelta w bits).bases = [0] from rfl, foldlM_cons] at hd
    obtain ⟨d₁, hadd, hd⟩ := bind_eq_ok.mp hd
    cases pure_eq_ok.mp hd
    rw [addToDictionary, if_neg (by simp [baseDelta])] at hadd
    obtain ⟨⟨⟩, hlt, hadd⟩ := bind_eq_ok.mp hadd
    have hlt := require_eq_ok.mp hlt
    cases pure_eq_ok.mp hadd
    refine ⟨by simpa using hlt, rfl, ?_⟩
    rw [getD_eq_getElem?_getD, List.getElem?_set_self hlt]
    rfl
  clear h heq hrun
  generalize (values line : List (BitVec w)) = vs at hes
  induction vs generalizing es with
  | nil =>
    cases hes
    exact iff_of_true nofun nofun
  | cons v vs ih =>
    obtain ⟨p, d₁, ps, hp, hps, rfl⟩ := transduce_cons_inv hes
    have hcases := compressValue_baseDelta hw hcount hzero hp
    rw [forall_mem_cons, forall_mem_cons]
    by_cases hvalid : isValidDelta bits v 0 = true
    · rw [if_pos hvalid] at hcases
      obtain ⟨hloc, rfl⟩ := hcases
      have hindex : p.getMatchLocation < size := by
        rw [getMatchLocation, hloc]
        exact hpos
      exact and_congr (iff_of_true hindex hvalid) (ih ps hps)
    · rw [if_neg hvalid] at hcases
      refine iff_of_false (fun hall => ?_) fun hall => hvalid hall.1
      have hlt := hall.1
      rw [getMatchLocation_neg hcases] at hlt
      omega

/-- Every word without a match is decompressed with the entry 255. Only the base-delta compressors
find a match for all words of a line: for words that differ little from the base zero. -/
theorem reads_inside_iff (t : CompressorType) {dictionarySize : ℕ} (hsize : dictionarySize ≤ 255)
    {line : List (BitVec 64)} {entries : List (Pattern t.width)}
    (h : t.compressor.compress dictionarySize line = .ok entries) :
    (∀ p ∈ entries, p.getMatchLocation < dictionarySize) ↔
      ∀ v ∈ (values line : List (BitVec t.width)),
        ∃ bits, t.deltaSizeBits = some bits ∧ isValidDelta bits v 0 = true := by
  have hnever {w : ℕ} (vs : List (BitVec w)) : vs = [] ↔ ∀ v ∈ vs, ∃ bits,
      (none : Option ℕ) = some bits ∧ isValidDelta bits v 0 = true := by
    rw [eq_nil_iff_forall_not_mem]
    simp
  have hbits {w bits : ℕ} (v : BitVec w) : isValidDelta bits v 0 = true ↔
      ∃ b, some bits = some b ∧ isValidDelta b v 0 = true := by simp
  cases t with
  | cPack => exact (reads_inside_of_empty rfl hsize h).trans (hnever _)
  | fpcd => exact (reads_inside_of_empty rfl hsize h).trans (hnever _)
  | repeatedQwords => exact (reads_inside_of_empty rfl hsize h).trans (hnever _)
  | zero => exact (reads_inside_of_empty rfl hsize h).trans (hnever _)
  | base64Delta8 | base64Delta16 | base64Delta32 | base32Delta8 | base32Delta16 | base16Delta8 =>
    refine (reads_inside_baseDelta (by decide) hsize h).trans ?_
    exact forall₂_congr fun v _ => hbits v

def nearZero : List (BitVec 64) := [0, 1, 100, 127, -1, -127, 7, -50]

theorem reads_inside_iff_nearZero : ∃ entries,
    CompressorType.base64Delta8.compressor.compress 64 nearZero = .ok entries ∧
      ∀ p ∈ entries, p.getMatchLocation < 64 := by
  have hvalid : (values nearZero : List (BitVec 64)).all (isValidDelta 8 · 0) = true := by
    decide +kernel
  have hok : (CompressorType.base64Delta8.compressor.compress 64 nearZero).isOk = true := by
    decide +kernel
  cases h : CompressorType.base64Delta8.compressor.compress 64 nearZero with
  | error f => exact absurd (h ▸ hok) nofun
  | ok entries =>
    exact ⟨entries, rfl, (reads_inside_iff .base64Delta8 (by decide) h).mpr fun v hv =>
      ⟨8, rfl, all_eq_true.mp hvalid v hv⟩⟩

/-- The first word of a line has no entry to match. -/
theorem first_word_reads_outside : ∃ entries,
    CompressorType.cPack.compressor.compress 64 (List.replicate 8 0) = .ok entries ∧
      ∃ p ∈ entries, ¬ p.getMatchLocation < 64 :=
  ⟨_, rfl, _, mem_cons_self, by decide⟩

end HetSim.Compressors
