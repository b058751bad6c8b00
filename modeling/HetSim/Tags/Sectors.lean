import HetSim.Cache.Separation
import HetSim.Library.Runs
import HetSim.Tags.Sector

/-!
# Sectors stay apart

A block is valid only under the tag and the security of its sector, whose counter counts its
valid blocks as long as they are fewer than 256.
-/

namespace HetSim.Tags
open Address Checked Cache Runs List Function BitVec Finset SectorBlk SectorLayout

namespace SectorLayout

variable {l : SectorLayout} {a a' : Addr} {K : ℕ}

def sectors (l : SectorLayout) : Finset ReplaceableEntry :=
  (Finset.range l.policy.base.numSets ×ˢ Finset.range l.policy.base.assoc).image
    fun x => ⟨BitVec.ofNat 32 x.1, x.2⟩

structure Regular (l : SectorLayout) (K : ℕ) : Prop where
  separates : l.policy.Separates
  setShift : l.policy.base.setShift = l.sectorShift + K
  numBlocksPerSector : l.numBlocksPerSector = 2 ^ K
  sectorMask : l.sectorMask = BitVec.ofNat 32 (2 ^ K - 1)
  small : K < 32

theorem regular {p : SectorParams} (h : create p = .ok l) :
    l.Regular (Nat.log2 l.numBlocksPerSector) := by
  simp only [create, bind_eq_ok, require_eq_ok, pure_eq_ok, mapError_eq_ok] at h
  obtain ⟨⟨⟩, hrange, policy, hpolicy, ⟨⟩, hpos, ⟨⟩, hblk, ⟨⟩, hsector, ⟨⟩, -, rfl⟩ := h
  have hblk := isPowerOf2_eq hblk.2
  have hsector := isPowerOf2_eq hsector
  constructor
  · exact IndexingPolicy.separates hpolicy
  · dsimp only
    rw [IndexingPolicy.setShift_eq hpolicy, SectorParams.entrySize]
    nth_rewrite 1 [hblk, hsector]
    rw [← pow_add, Nat.log2_two_pow]
  · exact hsector
  · dsimp only
    rw [← hsector]
  · have hle : p.numBlocksPerSector ≤ p.entrySize :=
      Nat.le_mul_of_pos_left _ (Nat.pos_of_ne_zero hpos.1)
    apply (Nat.pow_lt_pow_iff_right one_lt_two).mp
    rw [← hsector]
    omega

theorem mem_sectors (h : l.Regular K) {entry : ReplaceableEntry}
    (hentry : entry ∈ l.policy.getPossibleEntries a) : entry ∈ l.sectors := by
  obtain ⟨hset, hway⟩ := h.separates.bounded hentry
  apply mem_image.mpr
  refine ⟨(entry.set.toNat, entry.way), Finset.mem_product.mpr ⟨Finset.mem_range.mpr hset,
    Finset.mem_range.mpr hway⟩, ?_⟩
  dsimp only
  rw [ofNat_toNat, setWidth_eq]

theorem extractSectorOffset_lt (h : l.Regular K) :
    l.extractSectorOffset a < l.numBlocksPerSector := by
  have hmask : l.sectorMask.toNat = 2 ^ K - 1 := by
    rw [h.sectorMask, toNat_ofNat]
    apply Nat.mod_eq_of_lt
    have := Nat.pow_lt_pow_right one_lt_two h.small
    omega
  have hle : l.extractSectorOffset a ≤ l.sectorMask.toNat := by
    rw [extractSectorOffset, toNat_and, toNat_setWidth_of_le (by decide)]
    exact Nat.and_le_right
  have := Nat.two_pow_pos K
  rw [h.numBlocksPerSector]
  omega

theorem block_eq (h : l.Regular K)
    (hsector : a >>> l.policy.base.setShift = a' >>> l.policy.base.setShift)
    (hoffset : l.extractSectorOffset a = l.extractSectorOffset a') :
    a >>> l.sectorShift = a' >>> l.sectorShift := by
  apply eq_of_getLsbD_eq
  intro k hk
  by_cases hkK : k < K
  · have hbit := congrArg (·.getLsbD k) (eq_of_toNat_eq hoffset)
    have hone : (2 ^ K - 1).testBit k = true := by
      rw [Nat.testBit_two_pow_sub_one]
      exact decide_eq_true hkK
    have hsmall := h.small
    simpa only [h.sectorMask, getLsbD_and, getLsbD_setWidth, getLsbD_ofNat, hone,
      show k < 32 by omega, hk, decide_true, Bool.true_and, Bool.and_true] using hbit
  · have hbit := congrArg (·.getLsbD (k - K)) hsector
    simp only [h.setShift, getLsbD_ushiftRight] at hbit
    rw [getLsbD_ushiftRight, getLsbD_ushiftRight]
    rwa [show l.sectorShift + K + (k - K) = l.sectorShift + k by omega] at hbit

end SectorLayout

namespace SectorTags

variable {l : SectorLayout} {s t : SectorTags} {b blk : SubBlk} {S : ReplaceableEntry}
  {a addr tag : Addr}
  {isSecure : Bool} {K : ℕ}

theorem setValid_ok : s.setValid blk = .ok t ↔ (s.blks blk).isValid = false ∧
    t = { s with
      blks := update s.blks blk { s.blks blk with status.valid := true }
      sectors := update s.sectors blk.sector (s.sectors blk.sector).validateSubBlk } := by
  simp only [setValid, CacheBlk.setValid, bind_eq_ok, require_eq_ok, pure_eq_ok]
  constructor
  · rintro ⟨c, ⟨⟨⟩, hinvalid, rfl⟩, rfl⟩
    exact ⟨hinvalid, rfl⟩
  · rintro ⟨hinvalid, rfl⟩
    exact ⟨_, ⟨⟨⟩, hinvalid, rfl⟩, rfl⟩

theorem insertSubBlk_ok : s.insertSubBlk blk tag isSecure = .ok t ↔
    ¬ ((s.sectors blk.sector).isValid ∧ ((s.sectors blk.sector).tag ≠ tag ∨
      (s.sectors blk.sector).isSecure ≠ isSecure)) ∧ (s.blks blk).status = {} ∧
    t = { s with
      blks := update s.blks blk ⟨tag, { valid := true, secure := isSecure }⟩
      sectors := update s.sectors blk.sector
        ⟨(s.sectors blk.sector).validCounter + 1, tag,
          isSecure || (s.sectors blk.sector).secureBit⟩ } := by
  rw [insertSubBlk]
  simp only [bind_eq_ok, require_eq_ok, pure_eq_ok, exists_const, setValid_ok]
  apply and_congr_right
  intro _
  apply and_congr_right
  intro hclear
  cases isSecure with
  | false =>
    simp only [Bool.false_eq_true, if_false, setBlk, setSector, update_self,
      update_idem, CacheBlk.isValid, hclear, true_and, exists_eq_left,
      validateSubBlk, setTag, Bool.false_or]
    exact eq_comm
  | true =>
    simp only [if_true, setBlk, setSector, setSecure, CacheBlk.setSecure, update_self,
      update_idem, CacheBlk.isValid, hclear, true_and, exists_eq_left,
      validateSubBlk, setTag, setSecure, Bool.true_or]
    exact eq_comm

theorem invalidate_ok : s.invalidate blk = .ok t ↔ (s.blks blk).isValid = true ∧
    t = { blks := update s.blks blk {}
          sectors := update s.sectors blk.sector (s.sectors blk.sector).invalidateSubBlk
          tagsInUse := if (s.sectors blk.sector).invalidateSubBlk.isValid then s.tagsInUse
            else s.tagsInUse - 1 } := by
  rw [invalidate]
  simp only [bind_eq_ok, require_eq_ok, pure_eq_ok, exists_const]
  apply and_congr_right
  intro _
  simp only [invalidateSubBlk, setSector, setBlk, update_self, CacheBlk.invalidate]
  split_ifs <;> exact eq_comm

def numValid (l : SectorLayout) (s : SectorTags) (S : ReplaceableEntry) : ℕ :=
  ((Finset.range l.numBlocksPerSector).filter fun o => (s.blks ⟨S, o⟩).isValid).card

variable {v : CacheBlk} {sector : SectorBlk} {getVictim : ReplaceableEntry}

theorem numValid_other (ht : t.blks = update s.blks blk v)
    (hS : S ≠ blk.sector) : t.numValid l S = s.numValid l S := by
  rw [numValid, numValid, ht]
  congr 1
  apply Finset.filter_congr
  intro o _
  rw [update_of_ne (fun heq => hS (congrArg SubBlk.sector heq))]

theorem numValid_insert (ht : t.blks = update s.blks blk v)
    (hoffset : blk.offset < l.numBlocksPerSector) (hold : (s.blks blk).isValid = false)
    (hnew : v.isValid = true) : t.numValid l blk.sector = s.numValid l blk.sector + 1 := by
  have hfilter :
      (Finset.range l.numBlocksPerSector).filter (fun o => (t.blks ⟨blk.sector, o⟩).isValid)
      = insert blk.offset
        ((Finset.range l.numBlocksPerSector).filter fun o => (s.blks ⟨blk.sector, o⟩).isValid) := by
    ext o
    rw [mem_insert, Finset.mem_filter, Finset.mem_filter, ht]
    by_cases ho : o = blk.offset
    · subst ho
      rw [update_self]
      exact iff_of_true ⟨Finset.mem_range.mpr hoffset, hnew⟩ (Or.inl rfl)
    · rw [update_of_ne (fun heq => ho (congrArg SubBlk.offset heq))]
      exact ⟨Or.inr, fun h => h.resolve_left ho⟩
  rw [numValid, hfilter, card_insert_of_notMem]
  · rfl
  · intro hmem
    rw [Finset.mem_filter, hold] at hmem
    exact nomatch hmem.2

theorem numValid_erase (ht : t.blks = update s.blks blk v)
    (hoffset : blk.offset < l.numBlocksPerSector) (hold : (s.blks blk).isValid = true)
    (hnew : v.isValid = false) : t.numValid l blk.sector + 1 = s.numValid l blk.sector := by
  symm
  apply numValid_insert _ hoffset
  · rw [ht, update_self]
    exact hnew
  · exact hold
  · rw [ht, update_idem, update_eq_self]

theorem numValid_pos (hoffset : b.offset < l.numBlocksPerSector)
    (hvalid : (s.blks b).isValid = true) :
    0 < s.numValid l b.sector :=
  card_pos.mpr ⟨b.offset, Finset.mem_filter.mpr ⟨Finset.mem_range.mpr hoffset, hvalid⟩⟩

theorem exists_of_numValid_pos (h : 0 < s.numValid l S) :
    ∃ b : SubBlk, b.sector = S ∧ (s.blks b).isValid = true := by
  obtain ⟨o, ho⟩ := card_pos.mp h
  exact ⟨⟨S, o⟩, rfl, (Finset.mem_filter.mp ho).2⟩

def Locates (l : SectorLayout) (a : Addr) (b : SubBlk) : Prop :=
  b.sector ∈ l.policy.getPossibleEntries a ∧ b.offset = l.extractSectorOffset a

structure Sound (l : SectorLayout) (s : SectorTags) : Prop where
  counter : ∀ S, (s.sectors S).validCounter.toNat = s.numValid l S
  placed : ∀ b, (s.blks b).isValid = true →
    ∃ a, Locates l a b ∧ l.extractTag a = (s.sectors b.sector).tag
  agrees : ∀ b, (s.blks b).isValid = true → (s.blks b).tag = (s.sectors b.sector).tag ∧
    (s.blks b).isSecure = (s.sectors b.sector).isSecure
  insecure : ∀ S, (s.sectors S).isValid = false → (s.sectors S).isSecure = false
  clear : ∀ b, (s.blks b).isValid = false → (s.blks b).status = {}
  unique : ∀ a S S', S ∈ l.policy.getPossibleEntries a → S' ∈ l.policy.getPossibleEntries a →
    (s.sectors S).isValid = true → (s.sectors S').isValid = true →
    (s.sectors S).tag = l.extractTag a → (s.sectors S').tag = l.extractTag a →
    (s.sectors S).isSecure = (s.sectors S').isSecure → S = S'
  tagsInUse : s.tagsInUse = (l.sectors.filter fun S => (s.sectors S).isValid).card

theorem sector_isValid_iff (h : Sound l s) : (s.sectors S).isValid = true ↔ 0 < s.numValid l S := by
  rw [← h.counter, isValid, decide_eq_true_iff]
  exact lt_def

theorem Sound.offset_lt (hl : l.Regular K) (h : Sound l s) (hvalid : (s.blks b).isValid = true) :
    b.offset < l.numBlocksPerSector := by
  obtain ⟨a, hloc, -⟩ := h.placed b hvalid
  rw [hloc.2]
  exact extractSectorOffset_lt hl

theorem Sound.isValid_of_blk (hl : l.Regular K) (h : Sound l s)
    (hvalid : (s.blks b).isValid = true) :
    (s.sectors b.sector).isValid = true :=
  (sector_isValid_iff h).mpr (numValid_pos (h.offset_lt hl hvalid) hvalid)

theorem Sound.exists_blk (h : Sound l s) (hvalid : (s.sectors S).isValid = true) :
    ∃ b : SubBlk, b.sector = S ∧ (s.blks b).isValid = true :=
  exists_of_numValid_pos ((sector_isValid_iff h).mp hvalid)

theorem sound_init : Sound l init := by
  have hzero (S : ReplaceableEntry) : init.numValid l S = 0 := by
    apply card_eq_zero.mpr
    apply filter_eq_empty_iff.mpr
    intro o _
    exact nofun
  constructor
  · intro S
    rw [hzero]
    rfl
  · exact fun b hb => nomatch hb
  · exact fun b hb => nomatch hb
  · exact fun S _ => rfl
  · exact fun b _ => rfl
  · exact fun a S S' _ _ hS => nomatch hS
  · symm
    rw [show init.tagsInUse = ((0 : ℕ) : ℤ) from rfl, Nat.cast_inj]
    apply card_eq_zero.mpr
    apply filter_eq_empty_iff.mpr
    intro S _
    exact nofun

theorem invalidateSubBlk_valid (h : sector.invalidateSubBlk.isValid = true) :
    sector.invalidateSubBlk.isSecure = sector.isSecure := by
  have hne : sector.validCounter - 1 ≠ 0 := by
    intro hzero
    have hlt : 0 < sector.validCounter - 1 := of_decide_eq_true h
    rw [hzero] at hlt
    exact BitVec.lt_irrefl _ hlt
  exact if_neg hne

theorem invalidateSubBlk_invalid (h : sector.invalidateSubBlk.isValid = false) :
    sector.invalidateSubBlk.isSecure = false := by
  have hzero : sector.validCounter - 1 = 0 := by
    have hle : ¬ 0 < (sector.validCounter - 1).toNat := of_decide_eq_false h
    apply eq_of_toNat_eq
    exact Nat.eq_zero_of_not_pos hle
  exact if_pos hzero

variable {sectors sectors' : ReplaceableEntry → SectorBlk}

theorem card_validSectors_erase (hS : S ∈ l.sectors)
    (hvalid : (sectors S).isValid = true) (hother : ∀ S', S' ≠ S → sectors' S' = sectors S') :
    ((l.sectors.filter fun S => (sectors' S).isValid).card : ℤ) =
      if (sectors' S).isValid then ((l.sectors.filter fun S => (sectors S).isValid).card : ℤ)
      else (l.sectors.filter fun S => (sectors S).isValid).card - 1 := by
  split_ifs with hvalid'
  · congr 2
    apply Finset.filter_congr
    intro S' _
    by_cases heq : S' = S
    · rw [heq, hvalid, hvalid']
    · rw [hother S' heq]
  · have herase : (l.sectors.filter fun S => (sectors' S).isValid) =
        (l.sectors.filter fun S => (sectors S).isValid).erase S := by
      ext S'
      rw [Finset.mem_erase, Finset.mem_filter, Finset.mem_filter]
      by_cases heq : S' = S
      · subst heq
        exact iff_of_false (fun hmem => hvalid' hmem.2) (fun hmem => hmem.1 rfl)
      · rw [hother S' heq]
        exact ⟨fun hmem => ⟨heq, hmem⟩, And.right⟩
    have hmem : S ∈ l.sectors.filter fun S => (sectors S).isValid :=
      Finset.mem_filter.mpr ⟨hS, hvalid⟩
    have hpos := card_pos.mpr ⟨S, hmem⟩
    rw [herase, card_erase_of_mem hmem]
    omega

/-- One block and its sector change. The other valid blocks of the sector keep it as it is, and the
sector does not become one for addresses that another sector has. -/
theorem Sound.replace (h : Sound l s)
    (ht : t.blks = update s.blks blk v)
    (hsectors : t.sectors = update s.sectors blk.sector sector)
    (hcount : sector.validCounter.toNat = t.numValid l blk.sector)
    (hin : v.isValid = true → (∃ a, Locates l a blk ∧ l.extractTag a = sector.tag) ∧
      v.tag = sector.tag ∧ v.isSecure = sector.isSecure)
    (hclear : v.isValid = false → v.status = {})
    (hkept : ∀ b, b ≠ blk → b.sector = blk.sector → (s.blks b).isValid = true →
      sector.tag = (s.sectors blk.sector).tag ∧ sector.isSecure = (s.sectors blk.sector).isSecure)
    (hinsecure : sector.isValid = false → sector.isSecure = false)
    (honly : ∀ a S, S ≠ blk.sector → S ∈ l.policy.getPossibleEntries a →
      blk.sector ∈ l.policy.getPossibleEntries a → (s.sectors S).isValid = true →
      sector.isValid = true → (s.sectors S).tag = l.extractTag a → sector.tag = l.extractTag a →
      (s.sectors S).isSecure ≠ sector.isSecure)
    (htags : t.tagsInUse = (l.sectors.filter fun S => (t.sectors S).isValid).card) : Sound l t := by
  have hself : t.sectors blk.sector = sector := by rw [hsectors, update_self]
  have hother (S : ReplaceableEntry) (hS : S ≠ blk.sector) : t.sectors S = s.sectors S := by
    rw [hsectors, update_of_ne hS]
  have hblk : t.blks blk = v := by rw [ht, update_self]
  have hblks (b : SubBlk) (hb : b ≠ blk) : t.blks b = s.blks b := by rw [ht, update_of_ne hb]
  have hsame (b : SubBlk) (hb : b ≠ blk) (hvalid : (s.blks b).isValid = true) :
      (t.sectors b.sector).tag = (s.sectors b.sector).tag ∧
        (t.sectors b.sector).isSecure = (s.sectors b.sector).isSecure := by
    by_cases heq : b.sector = blk.sector
    · rw [heq, hself]
      exact hkept b hb heq hvalid
    · rw [hother _ heq]
      exact ⟨rfl, rfl⟩
  constructor
  · intro S
    by_cases hS : S = blk.sector
    · rw [hS, hself, hcount]
    · rw [hother S hS, numValid_other ht hS, h.counter]
  · intro b hb
    by_cases heq : b = blk
    · subst heq
      rw [hself]
      exact (hin (hblk ▸ hb)).1
    · rw [hblks b heq] at hb
      rw [(hsame b heq hb).1]
      exact h.placed b hb
  · intro b hb
    by_cases heq : b = blk
    · subst heq
      rw [hself, hblk]
      exact (hin (hblk ▸ hb)).2
    · rw [hblks b heq] at hb ⊢
      rw [(hsame b heq hb).1, (hsame b heq hb).2]
      exact h.agrees b hb
  · intro S hS
    by_cases heq : S = blk.sector
    · subst heq
      rw [hself] at hS ⊢
      exact hinsecure hS
    · rw [hother S heq] at hS ⊢
      exact h.insecure S hS
  · intro b hb
    by_cases heq : b = blk
    · subst heq
      rw [hblk] at hb ⊢
      exact hclear hb
    · rw [hblks b heq] at hb ⊢
      exact h.clear b hb
  · intro a S S' hS hS' hv hv' htag htag' hsec
    by_contra hne
    by_cases heq : S = blk.sector
    · subst heq
      rw [hself] at hv htag hsec
      rw [hother S' (Ne.symm hne)] at hv' htag' hsec
      exact honly a S' (Ne.symm hne) hS' hS hv' hv htag' htag hsec.symm
    · rw [hother S heq] at hv htag hsec
      by_cases heq' : S' = blk.sector
      · subst heq'
        rw [hself] at hv' htag' hsec
        exact honly a S heq hS hS' hv hv' htag htag' hsec
      · rw [hother S' heq'] at hv' htag' hsec
        exact hne (h.unique a S S' hS hS' hv hv' htag htag' hsec)
  · exact htags

theorem Sound.invalidate (hl : l.Regular K) (h : Sound l s) (hvalid : (s.blks blk).isValid = true) :
    Sound l { blks := update s.blks blk {}
              sectors := update s.sectors blk.sector (s.sectors blk.sector).invalidateSubBlk
              tagsInUse := if (s.sectors blk.sector).invalidateSubBlk.isValid then s.tagsInUse
                else s.tagsInUse - 1 } := by
  set t : SectorTags := { blks := update s.blks blk {}
                          sectors := update s.sectors blk.sector
                            (s.sectors blk.sector).invalidateSubBlk
                          tagsInUse := if (s.sectors blk.sector).invalidateSubBlk.isValid
                            then s.tagsInUse else s.tagsInUse - 1 } with ht
  have hold := h.isValid_of_blk hl hvalid
  have hcount :
      (s.sectors blk.sector).invalidateSubBlk.validCounter.toNat = t.numValid l blk.sector := by
    have hcount := numValid_erase (l := l) (t := t) rfl (h.offset_lt hl hvalid) hvalid rfl
    have hle : (1 : BitVec 8).toNat ≤ (s.sectors blk.sector).validCounter.toNat := by
      rw [h.counter]
      change 1 ≤ _
      omega
    refine (toNat_sub_of_le hle).trans ?_
    rw [h.counter, show (1 : BitVec 8).toNat = 1 from rfl]
    omega
  refine h.replace rfl rfl hcount nofun (fun _ => rfl) ?_ invalidateSubBlk_invalid ?_ ?_
  · -- a sector that is still valid has kept everything but its counter
    intro b hb hsector hvalidb
    have hpos : 0 < t.numValid l b.sector := by
      apply numValid_pos (h.offset_lt hl hvalidb)
      rwa [show t.blks b = s.blks b from update_of_ne hb ..]
    rw [hsector, ← hcount] at hpos
    exact ⟨rfl, invalidateSubBlk_valid (decide_eq_true (lt_def.mpr hpos))⟩
  · intro a S hne hS hblkS hv hv' htag htag' hsec
    rw [invalidateSubBlk_valid hv'] at hsec
    exact hne (h.unique a S blk.sector hS hblkS hv hold htag htag' hsec)
  · obtain ⟨a, hloc, -⟩ := h.placed blk hvalid
    rw [card_validSectors_erase (mem_sectors hl hloc.1) hold
      fun S hS => update_of_ne hS .., ← h.tagsInUse, show t.sectors blk.sector =
        _ from update_self ..]

theorem insertBlock_ok : s.insertBlock l blk addr isSecure = .ok t ↔ (s.blks blk).isValid = false ∧
    ¬ ((s.sectors blk.sector).isValid ∧ ((s.sectors blk.sector).tag ≠ l.extractTag addr ∨
      (s.sectors blk.sector).isSecure ≠ isSecure)) ∧ (s.blks blk).status = {} ∧
    t = { blks := update s.blks blk ⟨l.extractTag addr, { valid := true, secure := isSecure }⟩
          sectors := update s.sectors blk.sector
            ⟨(s.sectors blk.sector).validCounter + 1, l.extractTag addr,
              isSecure || (s.sectors blk.sector).secureBit⟩
          tagsInUse := if (s.sectors blk.sector).isValid then s.tagsInUse
            else s.tagsInUse + 1 } := by
  rw [insertBlock]
  split_ifs with hsector <;>
    simp only [bind_eq_ok, require_eq_ok, exists_const, insertSubBlk_ok, hsector]

theorem card_validSectors_insert (hS : S ∈ l.sectors)
    (hvalid : (sectors' S).isValid = true) (hother : ∀ S', S' ≠ S → sectors' S' = sectors S') :
    ((l.sectors.filter fun S => (sectors' S).isValid).card : ℤ) =
      if (sectors S).isValid then ((l.sectors.filter fun S => (sectors S).isValid).card : ℤ)
      else (l.sectors.filter fun S => (sectors S).isValid).card + 1 := by
  have herase := card_validSectors_erase hS hvalid fun S' hS' => (hother S' hS').symm
  split_ifs at herase ⊢ <;> omega

def Unheld (l : SectorLayout) (s : SectorTags) (addr : Addr) (isSecure : Bool) : Prop :=
  ∀ S ∈ l.policy.getPossibleEntries addr, (s.sectors S).isValid = true →
    (s.sectors S).tag = l.extractTag addr → (s.sectors S).isSecure ≠ isSecure

/-- A block goes into a sector that has the tag and the security of its address, or into one
without valid blocks if no sector has them. -/
structure Fits (l : SectorLayout) (s : SectorTags) (blk : SubBlk) (addr : Addr)
    (isSecure : Bool) : Prop where
  loc : Locates l addr blk
  same : (s.sectors blk.sector).isValid = true →
    (s.sectors blk.sector).tag = l.extractTag addr ∧ (s.sectors blk.sector).isSecure = isSecure
  fresh : (s.sectors blk.sector).isValid = false → Unheld l s addr isSecure

theorem Sound.insert (hl : l.Regular K) (h : Sound l s) (hinvalid : (s.blks blk).isValid = false)
    (hfits : Fits l s blk addr isSecure) (hroom : s.numValid l blk.sector < 255) :
    ∃ t, s.insertBlock l blk addr isSecure = .ok t ∧ Sound l t ∧
      t.blks = update s.blks blk
        ⟨l.extractTag addr, { valid := true, secure := isSecure }⟩ ∧
      (t.sectors blk.sector).tag = l.extractTag addr := by
  obtain ⟨hloc, hmatch, hfresh⟩ := hfits
  have hnot : ¬ ((s.sectors blk.sector).isValid ∧ ((s.sectors blk.sector).tag ≠ l.extractTag addr ∨
      (s.sectors blk.sector).isSecure ≠ isSecure)) := by
    rintro ⟨hvalid, hne⟩
    obtain ⟨htag, hsec⟩ := hmatch hvalid
    exact hne.elim (fun hne => hne htag) (fun hne => hne hsec)
  refine ⟨_, insertBlock_ok.mpr ⟨hinvalid, hnot, h.clear blk hinvalid, rfl⟩, ?_, rfl, ?_⟩
  swap
  · dsimp only
    rw [update_self]
  set t : SectorTags :=
    { blks := update s.blks blk ⟨l.extractTag addr, { valid := true, secure := isSecure }⟩
      sectors := update s.sectors blk.sector
        ⟨(s.sectors blk.sector).validCounter + 1, l.extractTag addr,
          isSecure || (s.sectors blk.sector).secureBit⟩
      tagsInUse := if (s.sectors blk.sector).isValid then s.tagsInUse else s.tagsInUse + 1 } with ht
  have hsecure : (isSecure || (s.sectors blk.sector).secureBit) = isSecure := by
    by_cases hvalid : (s.sectors blk.sector).isValid = true
    · rw [show (s.sectors blk.sector).secureBit = isSecure from (hmatch hvalid).2, Bool.or_self]
    · rw [show (s.sectors blk.sector).secureBit = false from
        h.insecure _ (Bool.eq_false_iff.mpr hvalid), Bool.or_false]
  have hnum : t.numValid l blk.sector = s.numValid l blk.sector + 1 :=
    numValid_insert rfl (hloc.2 ▸ extractSectorOffset_lt hl) hinvalid rfl
  have hcount : ((s.sectors blk.sector).validCounter + 1).toNat = t.numValid l blk.sector := by
    rw [hnum, toNat_add, h.counter, show (1 : BitVec 8).toNat = 1 from rfl]
    exact Nat.mod_eq_of_lt (by omega)
  have hnow : 0 < (s.sectors blk.sector).validCounter + 1 := by
    apply lt_def.mpr
    rw [hcount, hnum]
    exact Nat.succ_pos _
  refine h.replace rfl rfl hcount
    (fun _ => ⟨⟨addr, hloc, rfl⟩, rfl, hsecure.symm⟩) nofun ?_ ?_ ?_ ?_
  · intro b _ hsector hb
    obtain ⟨htag, hsec⟩ := hmatch (hsector ▸ h.isValid_of_blk hl hb)
    exact ⟨htag.symm, hsecure.trans hsec.symm⟩
  · exact fun hno => absurd (decide_eq_true hnow) (Bool.eq_false_iff.mp hno)
  · -- a second valid sector for the same address would have been found
    intro a S hne hS hblkS hv _ htag htag' hsec
    replace hsec := hsec.trans hsecure
    by_cases hold : (s.sectors blk.sector).isValid = true
    · obtain ⟨htagb, hsecb⟩ := hmatch hold
      exact hne (h.unique a S blk.sector hS hblkS hv hold htag (htagb.trans htag')
        (hsec.trans hsecb.symm))
    · have hshift := hl.separates.same hblkS hloc.1 htag'.symm
      rw [hl.separates.entries hshift] at hS
      exact hfresh (Bool.eq_false_iff.mpr hold) S hS hv (htag.trans htag'.symm) hsec
  · have hvalid : (t.sectors blk.sector).isValid = true := by
      rw [show t.sectors blk.sector = _ from update_self ..]
      exact decide_eq_true hnow
    rw [card_validSectors_insert (mem_sectors hl hloc.1) hvalid
      fun S hS => update_of_ne hS .., ← h.tagsInUse]

theorem Sound.findBlock (hl : l.Regular K) (h : Sound l s) (hloc : Locates l a b)
    (hvalid : (s.blks b).isValid = true) (htag : (s.sectors b.sector).tag = l.extractTag a) :
    s.findBlock l a (s.blks b).isSecure = some b := by
  rw [SectorTags.findBlock]
  cases hfind : List.find? (fun c : SubBlk => decide ((s.sectors c.sector).tag = l.extractTag a ∧
      (s.blks c).isValid = true ∧ (s.blks c).isSecure = (s.blks b).isSecure))
      ((l.policy.getPossibleEntries a).map fun sector => ⟨sector, l.extractSectorOffset a⟩) with
  | none =>
    have hmem : b ∈ (l.policy.getPossibleEntries a).map fun sector =>
        (⟨sector, l.extractSectorOffset a⟩ : SubBlk) :=
      List.mem_map.mpr ⟨b.sector, hloc.1, by rw [← hloc.2]⟩
    have hnot := List.find?_eq_none.mp hfind b hmem
    exact absurd (decide_eq_true ⟨htag, hvalid, rfl⟩) hnot
  | some c =>
    have hfound := List.find?_some hfind
    rw [decide_eq_true_iff] at hfound
    obtain ⟨htagc, hvalidc, hsecc⟩ := hfound
    obtain ⟨S, hS, rfl⟩ := List.mem_map.mp (List.mem_of_find?_eq_some hfind)
    have hsector : S = b.sector := by
      apply h.unique a S b.sector hS hloc.1 (h.isValid_of_blk hl hvalidc)
        (h.isValid_of_blk hl hvalid)
        htagc htag
      rw [← (h.agrees b hvalid).2, ← hsecc]
      exact (h.agrees _ hvalidc).2.symm
    rw [hsector, ← hloc.2]

theorem mem_validBlks : b ∈ s.validBlks l S ↔
    b.sector = S ∧ b.offset < l.numBlocksPerSector ∧ (s.blks b).isValid = true := by
  rw [validBlks, List.mem_filter, List.mem_map]
  constructor
  · rintro ⟨⟨o, ho, rfl⟩, hvalid⟩
    exact ⟨rfl, List.mem_range.mp ho, hvalid⟩
  · rintro ⟨rfl, ho, hvalid⟩
    exact ⟨⟨b.offset, List.mem_range.mpr ho, rfl⟩, hvalid⟩

/-- Of the blocks of the sector, those in `rest` are still valid. -/
def Evicting (l : SectorLayout) (s : SectorTags) (S : ReplaceableEntry) (rest : List SubBlk)
    (t : SectorTags) : Prop :=
  rest.Nodup ∧ Sound l t ∧ (∀ b, b ∈ rest ↔ b.sector = S ∧ (t.blks b).isValid = true) ∧
    ∀ S', S' ≠ S → t.sectors S' = s.sectors S'

theorem evict_spec (hl : l.Regular K) (h : Sound l s) :
    ∃ t, (s.validBlks l S).foldlM SectorTags.invalidate s = .ok t ∧ Sound l t ∧
      (t.sectors S).isValid = false ∧ ∀ S', S' ≠ S → t.sectors S' = s.sectors S' := by
  have hstart : Evicting l s S (s.validBlks l S) s := by
    refine ⟨?_, h, ?_, fun _ _ => rfl⟩
    · apply List.Nodup.filter
      apply List.Nodup.map _ nodup_range
      exact fun o o' heq => congrArg SubBlk.offset heq
    · intro b
      rw [mem_validBlks]
      exact ⟨fun hb => ⟨hb.1, hb.2.2⟩, fun hb => ⟨hb.1, h.offset_lt hl hb.2, hb.2⟩⟩
  have hkeep {t : SectorTags} {b : SubBlk} {rest : List SubBlk} (h : Evicting l s S (b :: rest) t) :
      ∃ t', t.invalidate b = .ok t' ∧ Evicting l s S rest t' := by
    obtain ⟨hnodup, hsound, hmem, hother⟩ := h
    obtain ⟨hb, hnodup⟩ := nodup_cons.mp hnodup
    obtain ⟨hsector, hvalid⟩ := (hmem b).mp List.mem_cons_self
    refine ⟨_, invalidate_ok.mpr ⟨hvalid, rfl⟩, hnodup, hsound.invalidate hl hvalid, ?_, ?_⟩
    · intro c
      by_cases hc : c = b
      · subst hc
        dsimp only
        rw [update_self]
        exact iff_of_false hb (fun hand => nomatch hand.2)
      · dsimp only
        rw [update_of_ne hc, ← hmem c, List.mem_cons]
        exact ⟨Or.inr, fun hor => hor.resolve_left hc⟩
    · intro S' hS'
      rw [← hother S' hS', hsector]
      exact update_of_ne hS' ..
  obtain ⟨t, ht, -, hsound, hmem, hother⟩ := run_consumes hkeep hstart
  refine ⟨t, ht, hsound, ?_, hother⟩
  rw [Bool.eq_false_iff]
  intro hvalid
  obtain ⟨b, hb⟩ := hsound.exists_blk hvalid
  exact not_mem_nil ((hmem b).mpr hb)

theorem findSector_some (h : s.findSector l addr isSecure = some S) :
    S ∈ l.policy.getPossibleEntries addr ∧ (s.sectors S).tag = l.extractTag addr ∧
      (s.sectors S).isValid = true ∧ (s.sectors S).isSecure = isSecure := by
  have hfound := List.find?_some h
  rw [decide_eq_true_iff] at hfound
  obtain ⟨htag, hvalid, hsec⟩ := hfound
  exact ⟨List.mem_of_find?_eq_some h, htag.symm, hvalid, hsec.symm⟩

theorem findSector_none (h : s.findSector l addr isSecure = none) :
    Unheld l s addr isSecure := by
  intro S hS hvalid htag hsec
  exact List.find?_eq_none.mp h S hS (decide_eq_true ⟨htag.symm, hvalid, hsec.symm⟩)

def Room (l : SectorLayout) (s : SectorTags) (addr : Addr) (isSecure : Bool) : Prop :=
  ∀ S ∈ l.policy.getPossibleEntries addr, (s.sectors S).tag = l.extractTag addr →
    (s.sectors S).isSecure = isSecure → s.numValid l S ≠ 255

theorem Sound.insert_found (hl : l.Regular K) (h : Sound l s)
    (hinvalid : (s.blks blk).isValid = false) (hfits : Fits l s blk addr isSecure)
    (hroom : s.numValid l blk.sector ≠ 255) :
    ∃ t, s.insertBlock l blk addr isSecure = .ok t ∧ Sound l t ∧
      t.findBlock l addr isSecure = some blk := by
  have hlt : s.numValid l blk.sector < 255 := by
    have hcounter := (s.sectors blk.sector).validCounter.isLt
    rw [h.counter] at hcounter
    omega
  obtain ⟨t, ht, hsound, hblks, htag⟩ := h.insert hl hinvalid hfits hlt
  have hblk : t.blks blk = ⟨l.extractTag addr, { valid := true, secure := isSecure }⟩ := by
    rw [hblks, update_self]
  have hfind := hsound.findBlock hl hfits.loc (by rw [hblk]; rfl) htag
  rw [hblk] at hfind
  exact ⟨t, ht, hsound, hfind⟩

theorem not_valid_of_miss (h : Sound l s) (hmiss : s.findBlock l addr isSecure = none)
    (hloc : Locates l addr blk) (htag : (s.sectors blk.sector).tag = l.extractTag addr)
    (hsec : (s.sectors blk.sector).isSecure = isSecure) : (s.blks blk).isValid = false := by
  rw [Bool.eq_false_iff]
  intro hvalid
  have hmem : blk ∈ (l.policy.getPossibleEntries addr).map fun sector =>
      (⟨sector, l.extractSectorOffset addr⟩ : SubBlk) :=
    List.mem_map.mpr ⟨blk.sector, hloc.1, by rw [← hloc.2]⟩
  exact List.find?_eq_none.mp hmiss blk hmem
    (decide_eq_true ⟨htag, hvalid, (h.agrees blk hvalid).2.trans hsec⟩)

theorem not_valid_of_sector (hl : l.Regular K) (h : Sound l s)
    (hsector : (s.sectors blk.sector).isValid = false) : (s.blks blk).isValid = false := by
  rw [Bool.eq_false_iff]
  intro hvalid
  rw [h.isValid_of_blk hl hvalid] at hsector
  exact nomatch hsector

theorem numValid_of_sector (h : Sound l s) (hsector : (s.sectors S).isValid = false) :
    s.numValid l S = 0 := by
  by_contra hne
  rw [(sector_isValid_iff h).mpr (Nat.pos_of_ne_zero hne)] at hsector
  exact nomatch hsector

theorem Sound.insert_empty (hl : l.Regular K) (h : Sound l s)
    (hsector : (s.sectors S).isValid = false) (hS : S ∈ l.policy.getPossibleEntries addr)
    (hfresh : Unheld l s addr isSecure) :
    ∃ t, s.insertBlock l ⟨S, l.extractSectorOffset addr⟩ addr isSecure = .ok t ∧ Sound l t ∧
      t.findBlock l addr isSecure = some ⟨S, l.extractSectorOffset addr⟩ :=
  h.insert_found hl (not_valid_of_sector hl h hsector)
    ⟨⟨hS, rfl⟩, fun hvalid => absurd hvalid (Bool.eq_false_iff.mp hsector), fun _ => hfresh⟩
    (by rw [numValid_of_sector h hsector]; decide)

theorem findVictim_match
    (hS : s.victimSector l addr isSecure getVictim = .ok S)
    (hmatch : l.extractTag addr = (s.sectors S).tag ∧ isSecure = (s.sectors S).isSecure)
    (hinvalid : (s.blks ⟨S, l.extractSectorOffset addr⟩).isValid = false) :
    s.findVictim l addr isSecure getVictim = .ok (⟨S, l.extractSectorOffset addr⟩, []) := by
  rw [findVictim, hS, ok_bind]
  dsimp only
  rw [if_pos hmatch, require, if_pos hinvalid]
  rfl

theorem findVictim_other
    (hS : s.victimSector l addr isSecure getVictim = .ok S)
    (hother : ¬ (l.extractTag addr = (s.sectors S).tag ∧ isSecure = (s.sectors S).isSecure)) :
    s.findVictim l addr isSecure getVictim =
      .ok (⟨S, l.extractSectorOffset addr⟩, s.validBlks l S) := by
  rw [findVictim, hS, ok_bind]
  dsimp only
  rw [if_neg hother]
  rfl

theorem allocate_eq {evictBlks : List SubBlk} {s' : SectorTags}
    (hvictim : s.findVictim l addr isSecure getVictim = .ok (blk, evictBlks))
    (hevict : evictBlks.foldlM SectorTags.invalidate s = .ok s')
    (hinsert : s'.insertBlock l blk addr isSecure = .ok t) :
    s.allocate l addr isSecure getVictim = .ok (blk, t) := by
  rw [allocate, hvictim, ok_bind]
  dsimp only
  rw [hevict, ok_bind, hinsert]
  rfl

theorem allocate_spec (hl : l.Regular K) (h : Sound l s)
    (hmiss : s.findBlock l addr isSecure = none)
    (hvictim : getVictim ∈ l.policy.getPossibleEntries addr) (hroom : s.Room l addr isSecure) :
    ∃ victim t, s.allocate l addr isSecure getVictim = .ok (victim, t) ∧ Sound l t ∧
      t.findBlock l addr isSecure = some victim := by
  cases hfind : s.findSector l addr isSecure with
  | some S =>
    -- The sector of the address is there, and the block is not.
    obtain ⟨hS, htag, hvalid, hsec⟩ := findSector_some hfind
    have hloc : Locates l addr ⟨S, l.extractSectorOffset addr⟩ := ⟨hS, rfl⟩
    have hinvalid := not_valid_of_miss h hmiss hloc htag hsec
    have hsector :
        s.victimSector l addr isSecure getVictim = .ok S := by rw [victimSector, hfind]; rfl
    obtain ⟨t, ht, hsound, hfound⟩ := h.insert_found hl hinvalid ⟨hloc, fun _ => ⟨htag, hsec⟩,
      fun hnot => absurd hvalid (Bool.eq_false_iff.mp hnot)⟩ (hroom S hS htag hsec)
    exact ⟨_, t, allocate_eq (findVictim_match hsector ⟨htag.symm, hsec.symm⟩ hinvalid) rfl ht,
      hsound, hfound⟩
  | none =>
    have hsector : s.victimSector l addr isSecure getVictim = .ok getVictim := by
      rw [victimSector, hfind]
      dsimp only
      rw [require, if_pos hvictim]
      rfl
    by_cases hold : l.extractTag addr = (s.sectors getVictim).tag ∧
        isSecure = (s.sectors getVictim).isSecure
    · -- The sector had the same tag when it was last valid.
      have hnot : (s.sectors getVictim).isValid = false := by
        rw [Bool.eq_false_iff]
        intro hvalid
        exact findSector_none hfind _ hvictim hvalid hold.1.symm hold.2.symm
      obtain ⟨t, ht, hsound, hfound⟩ := h.insert_empty hl hnot hvictim (findSector_none hfind)
      exact ⟨_, t, allocate_eq (findVictim_match hsector hold (not_valid_of_sector hl h hnot)) rfl
        ht, hsound, hfound⟩
    · obtain ⟨s', hs', hsound', hnot, hother⟩ := evict_spec (S := getVictim) hl h
      have hfresh : Unheld l s' addr isSecure := by
        intro S hS hvalid htag
        have hne : S ≠ getVictim := by
          rintro rfl
          rw [hnot] at hvalid
          cases hvalid
        rw [hother S hne] at hvalid htag ⊢
        exact findSector_none hfind S hS hvalid htag
      obtain ⟨t, ht, hsound, hfound⟩ := hsound'.insert_empty hl hnot hvictim hfresh
      exact ⟨_, t, allocate_eq (findVictim_other hsector hold) hs' ht, hsound, hfound⟩

structure Holds (l : SectorLayout) (s : SectorTags) (a : Addr) (isSecure : Bool) (b : SubBlk) :
    Prop where
  locates : Locates l a b
  valid : (s.blks b).isValid = true
  tag : (s.sectors b.sector).tag = l.extractTag a
  secure : (s.blks b).isSecure = isSecure

theorem Holds.of_block_eq (hl : l.Regular K) {a' : Addr} (h : Holds l s a isSecure b)
    (heq : a >>> l.sectorShift = a' >>> l.sectorShift) : Holds l s a' isSecure b := by
  have hshift : a >>> l.policy.base.setShift = a' >>> l.policy.base.setShift := by
    rw [hl.setShift, shiftRight_add, shiftRight_add, heq]
  have hoffset : l.extractSectorOffset a = l.extractSectorOffset a' := by
    rw [extractSectorOffset, extractSectorOffset, heq]
  refine ⟨⟨?_, h.locates.2.trans hoffset⟩, h.valid, ?_, h.secure⟩
  · rw [← hl.separates.entries hshift]
    exact h.locates.1
  · exact h.tag.trans (hl.separates.tag hshift)

/-- A cache allocates a block after a miss, and a sector with the tag and the security of the
block has fewer than 255 valid blocks. -/
def Within (l : SectorLayout) (s : SectorTags) : SectorCall → Prop
  | .allocate addr isSecure _ => s.findBlock l addr isSecure = none ∧ s.Room l addr isSecure
  | _ => True

instance (l : SectorLayout) (s : SectorTags) : ∀ c, Decidable (s.Within l c)
  | .allocate addr isSecure _ => inferInstanceAs (Decidable (s.findBlock l addr isSecure = none ∧
      ∀ S ∈ l.policy.getPossibleEntries addr, (s.sectors S).tag = l.extractTag addr →
        (s.sectors S).isSecure = isSecure → s.numValid l S ≠ 255))
  | .accessBlock .. | .invalidate .. => isTrue trivial

theorem call_sound {c : SectorCall} (hl : l.Regular K) (h : Sound l s) (hc : s.Within l c)
    (hcall : s.call l c = .ok t) : Sound l t := by
  cases c with
  | accessBlock addr isSecure =>
    obtain rfl : s = t := Except.ok.inj hcall
    exact h
  | invalidate blk =>
    obtain ⟨hvalid, rfl⟩ := invalidate_ok.mp hcall
    exact h.invalidate hl hvalid
  | allocate addr isSecure getVictim =>
    simp only [call, bind_eq_ok, pure_eq_ok] at hcall
    obtain ⟨⟨victim, t'⟩, hallocate, rfl⟩ := hcall
    -- If the address has a sector, it does not matter which one the policy would replace.
    by_cases hvictim : getVictim ∈ l.policy.getPossibleEntries addr
    · obtain ⟨victim', t'', ht, hsound, -⟩ := allocate_spec hl h hc.1 hvictim hc.2
      rw [hallocate] at ht
      cases ht
      exact hsound
    · cases hfind : s.findSector l addr isSecure with
      | none =>
        simp only [allocate, findVictim, victimSector, hfind, bind_eq_ok, require_eq_ok,
          hvictim] at hallocate
        obtain ⟨_, ⟨_, ⟨⟨⟩, hfalse, -⟩, -⟩, -⟩ := hallocate
        exact hfalse.elim
      | some S =>
        obtain ⟨hS, -⟩ := findSector_some hfind
        obtain ⟨victim', t'', ht, hsound, -⟩ := allocate_spec hl h hc.1 hS hc.2
        have hsame :
            s.victimSector l addr isSecure getVictim = s.victimSector l addr isSecure S := by
          rw [victimSector, victimSector, hfind]
        rw [allocate, findVictim, ← hsame] at ht
        rw [allocate, findVictim, ht] at hallocate
        cases hallocate
        exact hsound

end SectorTags

open SectorTags in
/-- In every run that allocates after a miss and never into a sector with 255 valid blocks, a sector
is valid when one of its blocks is, these have its tag and security, an allocated block is then
found, a block of memory is in one place, and the tags in use are the valid sectors. -/
theorem sectors_sound {p : SectorParams} {l : SectorLayout} {s : SectorTags}
    {calls : List SectorCall} (hcreate : SectorLayout.create p = .ok l)
    (h : run (SectorTags.call l) .init calls = .ok s)
    (hwithin : Meets (SectorTags.call l) (SectorTags.Within l) .init calls) :
    (∀ S, (s.sectors S).isValid = true ↔
      ∃ o < l.numBlocksPerSector, (s.blks ⟨S, o⟩).isValid = true) ∧
    (∀ b, (s.blks b).isValid = true → (s.blks b).tag = (s.sectors b.sector).tag ∧
      (s.blks b).isSecure = (s.sectors b.sector).isSecure) ∧
    (∀ addr isSecure, s.findBlock l addr isSecure = none → s.Room l addr isSecure →
      ∀ getVictim ∈ l.policy.getPossibleEntries addr, ∃ victim t,
        s.allocate l addr isSecure getVictim = .ok (victim, t) ∧
          t.findBlock l addr isSecure = some victim) ∧
    (∀ b, (s.blks b).isValid = true → ∃ a, Holds l s a (s.blks b).isSecure b) ∧
    (∀ a a' isSecure b b', Holds l s a isSecure b → Holds l s a' isSecure b' →
      (a >>> l.sectorShift = a' >>> l.sectorShift ↔ b = b')) ∧
    s.tagsInUse = (l.sectors.filter fun S => (s.sectors S).isValid).card := by
  have hl := regular hcreate
  have hs : Sound l s := Meets.invariant (call_sound hl) sound_init hwithin h
  refine ⟨fun S => ?_, hs.agrees, fun addr isSecure hmiss hroom getVictim hvictim => ?_,
    fun b hvalid => ?_, fun a a' isSecure b b' hb hb' => ?_, hs.tagsInUse⟩
  · constructor
    · intro hvalid
      obtain ⟨b, rfl, hb⟩ := hs.exists_blk hvalid
      exact ⟨b.offset, hs.offset_lt hl hb, hb⟩
    · rintro ⟨o, -, ho⟩
      exact hs.isValid_of_blk hl ho
  · obtain ⟨victim, t, ht, -, hfound⟩ := allocate_spec hl hs hmiss hvictim hroom
    exact ⟨victim, t, ht, hfound⟩
  · obtain ⟨a, hloc, htag⟩ := hs.placed b hvalid
    exact ⟨a, hloc, hvalid, htag.symm, rfl⟩
  · constructor
    · intro heq
      have hb := hb.of_block_eq hl heq
      have hfound := hs.findBlock hl hb.locates hb.valid hb.tag
      have hfound' := hs.findBlock hl hb'.locates hb'.valid hb'.tag
      rw [hb.secure] at hfound
      rw [hb'.secure, hfound] at hfound'
      exact Option.some.inj hfound'
    · rintro rfl
      apply block_eq hl
      · exact hl.separates.same hb.locates.1 hb'.locates.1 (hb.tag.symm.trans hb'.tag)
      · exact hb.locates.2.symm.trans hb'.locates.2

def longSector : SectorLayout := ⟨.setAssociative ⟨⟨1, 1, 10, 0, 10⟩⟩, 256, 2, 255⟩

def fillSector : List SectorCall :=
  (List.range 256).map fun i => .allocate (BitVec.ofNat 64 (4 * i)) false ⟨0, 0⟩

set_option maxRecDepth 100000 in
/-- With the last of 256 blocks the counter of the sector is zero again. -/
theorem sectors_sound_overflow : SectorLayout.create ⟨1024, 4, 256, 1, false⟩ = .ok longSector ∧
    Ends (SectorTags.call longSector) .init fillSector fun s =>
      (s.sectors ⟨0, 0⟩).isValid = false ∧ (s.blks ⟨⟨0, 0⟩, 0⟩).isValid = true := by
  constructor
  · decide +kernel
  · decide +kernel

def shortSectors : SectorLayout :=
  (SectorLayout.create ⟨1024, 64, 4, 2, false⟩).toOption.get (by decide +kernel)

def shortCalls : List SectorCall :=
  [.allocate 0 false ⟨0, 0⟩, .allocate 64 false ⟨0, 0⟩, .allocate 0x200 true ⟨0, 1⟩,
    .allocate 0x400 false ⟨0, 0⟩, .accessBlock 0x400 false, .invalidate ⟨⟨0, 0⟩, 0⟩]

theorem sectors_sound_short : ∃ s, run (SectorTags.call shortSectors) .init shortCalls = .ok s ∧
    s.tagsInUse = 1 ∧ (s.sectors ⟨0, 0⟩).isValid = false ∧
    ∃ o < 4, (s.blks ⟨⟨0, 1⟩, o⟩).isValid = true := by
  have hends : Ends (SectorTags.call shortSectors) .init shortCalls (fun s =>
      s.tagsInUse = 1 ∧ (s.sectors ⟨0, 0⟩).isValid = false ∧
        (s.sectors ⟨0, 1⟩).isValid = true) := by
    decide +kernel
  have hwithin : Meets (SectorTags.call shortSectors) (SectorTags.Within shortSectors) .init
      shortCalls := by
    decide +kernel
  obtain ⟨s, hs, htags, hempty, hvalid⟩ := hends
  have hsound := sectors_sound (eq_ok_get (by decide +kernel)) hs hwithin
  exact ⟨s, hs, htags, hempty, (hsound.1 _).mp hvalid⟩

end HetSim.Tags
