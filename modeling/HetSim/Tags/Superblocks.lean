import HetSim.Tags.Compressed
import HetSim.Tags.Sectors

/-!
# Superblocks do not hold more than a block

A valid block that is not compressed is alone in its superblock, and one that is has at most its
share. So all valid blocks of a superblock are compressed or none is.
-/

namespace HetSim.Tags
open Address Checked Cache Runs List Function SectorTags CompressedTags

namespace CompressedTags

variable {l : SectorLayout} {blkSize : ℕ} {s t : CompressedTags} {b blk : SubBlk}
  {S : ReplaceableEntry} {K : ℕ}

structure Shared (l : SectorLayout) (blkSize : ℕ) (s : CompressedTags) : Prop where
  offset_lt : ∀ b, (s.tags.blks b).isValid = true → b.offset < l.numBlocksPerSector
  small : ∀ b, (s.tags.blks b).isValid = true → s.isCompressedBlk b = true →
    s.sizeBits b ≤ blkSize * 8 / l.numBlocksPerSector
  alone : ∀ b b', (s.tags.blks b).isValid = true → (s.tags.blks b').isValid = true →
    b.sector = b'.sector → s.isCompressedBlk b = false → b = b'

theorem shared_init : Shared l blkSize init := ⟨nofun, nofun, nofun⟩

namespace Shared

theorem compressed_eq (h : Shared l blkSize s) {b' : SubBlk}
    (hb : (s.tags.blks b).isValid = true) (hb' : (s.tags.blks b').isValid = true)
    (hsector : b.sector = b'.sector) : s.isCompressedBlk b = s.isCompressedBlk b' := by
  cases hc : s.isCompressedBlk b with
  | false =>
    rw [← h.alone b b' hb hb' hsector hc]
    exact hc.symm
  | true =>
    by_contra hne
    have hc' := Bool.eq_false_iff.mpr (Ne.symm hne)
    rw [← h.alone b' b hb' hb hsector.symm hc', hc'] at hc
    exact nomatch hc

theorem isCompressed_eq (h : Shared l blkSize s) {ignoredBlk : Option SubBlk}
    (hb : b ∈ s.tags.validBlks l S) (hne : some b ≠ ignoredBlk) :
    s.isCompressed l S ignoredBlk = s.isCompressedBlk b := by
  unfold isCompressed
  cases hfind : (s.tags.validBlks l S).find? fun blk => some blk ≠ ignoredBlk with
  | none => exact absurd (decide_eq_true hne) (List.find?_eq_none.mp hfind b hb)
  | some c =>
    obtain ⟨hsector, -, hvalid⟩ := mem_validBlks.mp hb
    obtain ⟨hsector', -, hvalid'⟩ := mem_validBlks.mp (List.mem_of_find?_eq_some hfind)
    exact h.compressed_eq hvalid' hvalid (hsector'.trans hsector.symm)

theorem of_kept (h : Shared l blkSize s) (hsize : t.sizeBits = s.sizeBits)
    (hkept : ∀ b, (t.tags.blks b).isValid = true → t.tags.blks b = s.tags.blks b) :
    Shared l blkSize t := by
  have hvalid (b : SubBlk) (hb : (t.tags.blks b).isValid = true) :
      (s.tags.blks b).isValid = true ∧ t.isCompressedBlk b = s.isCompressedBlk b := by
    rw [isCompressedBlk, isCompressedBlk, hkept b hb]
    exact ⟨hkept b hb ▸ hb, rfl⟩
  refine ⟨fun b hb => h.offset_lt b (hvalid b hb).1, fun b hb hc => ?_, fun b b' hb hb' hS hc => ?_⟩
  · rw [hsize]
    exact h.small b (hvalid b hb).1 ((hvalid b hb).2 ▸ hc)
  · exact h.alone b b' (hvalid b hb).1 (hvalid b' hb').1 hS ((hvalid b hb).2 ▸ hc)

end Shared

variable {tags tags' : SectorTags} {addr : Addr} {isSecure : Bool} {size : ℕ}

theorem invalidate_tags (h : tags.invalidate blk = .ok tags')
    (hb : (tags'.blks b).isValid = true) : b ≠ blk ∧ tags'.blks b = tags.blks b := by
  obtain ⟨-, rfl⟩ := invalidate_ok.mp h
  dsimp only at hb ⊢
  have hne : b ≠ blk := by
    rintro rfl
    rw [update_self] at hb
    exact nomatch hb
  exact ⟨hne, update_of_ne hne ..⟩

variable {evictBlks : List SubBlk} {compressed : Bool}

theorem foldlM_invalidate
    (h : evictBlks.foldlM SectorTags.invalidate tags = .ok tags')
    (hb : (tags'.blks b).isValid = true) : b ∉ evictBlks ∧ tags'.blks b = tags.blks b := by
  induction evictBlks generalizing tags with
  | nil =>
    obtain rfl := pure_eq_ok.mp h
    exact ⟨not_mem_nil, rfl⟩
  | cons c evictBlks ih =>
    rw [foldlM_cons, bind_eq_ok] at h
    obtain ⟨tags₁, htags₁, h⟩ := h
    obtain ⟨hnot, heq⟩ := ih h
    obtain ⟨hne, heq₁⟩ := invalidate_tags htags₁ (heq ▸ hb)
    refine ⟨?_, heq.trans heq₁⟩
    rw [mem_cons, not_or]
    exact ⟨hne, hnot⟩

theorem Shared.invalidate (h : Shared l blkSize s) (ht : s.invalidate blk = .ok t) :
    Shared l blkSize t := by
  simp only [CompressedTags.invalidate, bind_eq_ok, pure_eq_ok] at ht
  obtain ⟨tags, htags, rfl⟩ := ht
  exact h.of_kept rfl fun b hb => (invalidate_tags htags hb).2

theorem evict_kept (h : s.evict evictBlks = .ok t) :
    t.sizeBits = s.sizeBits ∧ ∀ b, (t.tags.blks b).isValid = true →
      b ∉ evictBlks ∧ t.tags.blks b = s.tags.blks b := by
  simp only [evict, bind_eq_ok, pure_eq_ok] at h
  obtain ⟨tags, htags, rfl⟩ := h
  exact ⟨rfl, fun b hb => foldlM_invalidate htags hb⟩

theorem Shared.evict (h : Shared l blkSize s)
    (ht : s.evict evictBlks = .ok t) : Shared l blkSize t :=
  h.of_kept (evict_kept ht).1 fun b hb => ((evict_kept ht).2 b hb).2

theorem Shared.set (h : Shared l blkSize s) (hoffset : blk.offset < l.numBlocksPerSector)
    (hother : ∀ b, b ≠ blk → t.tags.blks b = s.tags.blks b ∧ t.sizeBits b = s.sizeBits b)
    (hsmall : t.isCompressedBlk blk = true → t.sizeBits blk ≤ blkSize * 8 / l.numBlocksPerSector)
    (hagree : ∀ b, b ≠ blk → b.sector = blk.sector → (s.tags.blks b).isValid = true →
      t.isCompressedBlk blk = true ∧ s.isCompressedBlk b = true) : Shared l blkSize t := by
  have hsame (b : SubBlk) (hb : b ≠ blk) : t.isCompressedBlk b = s.isCompressedBlk b := by
    rw [isCompressedBlk, isCompressedBlk, (hother b hb).1]
  constructor
  · intro b hb
    by_cases heq : b = blk
    · exact heq ▸ hoffset
    · exact h.offset_lt b ((hother b heq).1 ▸ hb)
  · intro b hb hc
    by_cases heq : b = blk
    · subst heq
      exact hsmall hc
    · rw [(hother b heq).2]
      exact h.small b ((hother b heq).1 ▸ hb) (hsame b heq ▸ hc)
  · intro b b' hb hb' hS hc
    by_contra hne
    by_cases heq : b = blk
    · subst heq
      have hb'' := (hother b' (Ne.symm hne)).1 ▸ hb'
      rw [(hagree b' (Ne.symm hne) hS.symm hb'').1] at hc
      exact nomatch hc
    · have hb'' := (hother b heq).1 ▸ hb
      rw [hsame b heq] at hc
      by_cases heq' : b' = blk
      · subst heq'
        rw [(hagree b heq hS hb'').2] at hc
        exact nomatch hc
      · exact hne (h.alone b b' hb'' ((hother b' heq').1 ▸ hb') hS hc)

theorem setCompressed_blk : (s.setCompressed blk compressed).isCompressedBlk blk = compressed := by
  simp only [isCompressedBlk, setCompressed, setBlk, update_self]

theorem setCompressed_other (hb : b ≠ blk) :
    (s.setCompressed blk compressed).tags.blks b = s.tags.blks b := update_of_ne hb ..

theorem Shared.insertBlock (h : Shared l blkSize s)
    (hoffset : blk.offset < l.numBlocksPerSector)
    (hroom : (∀ b, b.sector = blk.sector → (s.tags.blks b).isValid = false) ∨
      s.isCompressed l blk.sector none = true ∧ canCoAllocate l blkSize size = true)
    (ht : (s.setSizeBits blk size).insertBlock l blkSize blk addr isSecure = .ok t) :
    Shared l blkSize t := by
  have hsize : (s.setSizeBits blk size).sizeBits blk = size := update_self ..
  simp only [CompressedTags.insertBlock, bind_eq_ok, pure_eq_ok, hsize] at ht
  obtain ⟨tags, htags, rfl⟩ := ht
  obtain ⟨-, -, -, rfl⟩ := SectorTags.insertBlock_ok.mp htags
  refine h.set hoffset (fun b hb => ⟨?_, ?_⟩) (fun hc => ?_) (fun b hb hsector hvalid => ?_)
  · rw [setCompressed_other hb]
    exact update_of_ne hb ..
  · exact update_of_ne hb ..
  · rw [setCompressed_blk, Bool.and_eq_true] at hc
    exact hsize.trans_le (of_decide_eq_true hc.2)
  · obtain ⟨hcomp, hco⟩ := hroom.resolve_left fun hempty => by
      rw [hempty b hsector] at hvalid
      cases hvalid
    have hmem : b ∈ s.tags.validBlks l blk.sector :=
      mem_validBlks.mpr ⟨hsector, h.offset_lt b hvalid, hvalid⟩
    rw [setCompressed_blk]
    exact ⟨Bool.and_eq_true_iff.mpr ⟨hcomp, hco⟩,
      (h.isCompressed_eq hmem (Option.some_ne_none b)).symm.trans hcomp⟩

theorem Shared.allocate {compressedSize : ℕ}
    {getVictim : ReplaceableEntry} (hl : l.Regular K) (h : Shared l blkSize s)
    (ht : s.allocate l blkSize addr isSecure compressedSize getVictim = .ok t) :
    Shared l blkSize t := by
  simp only [CompressedTags.allocate, bind_eq_ok, Prod.exists] at ht
  obtain ⟨victim, evictBlks, hvictim, s₁, hs₁, ht⟩ := ht
  have hoffset := SectorLayout.extractSectorOffset_lt (a := addr) hl
  unfold findVictim at hvictim
  cases hfind : s.findSuperblock l blkSize addr isSecure compressedSize with
  | some superblock =>
    simp only [hfind, bind_eq_ok, require_eq_ok, pure_eq_ok, exists_const, Prod.mk.injEq] at hvictim
    obtain ⟨-, rfl, rfl⟩ := hvictim
    have hfound := List.find?_some hfind
    rw [decide_eq_true_iff] at hfound
    obtain ⟨-, -, -, -, hcomp, hco⟩ := hfound
    obtain rfl : s = s₁ := Except.ok.inj hs₁
    exact h.insertBlock hoffset (.inr ⟨hcomp, hco⟩) ht
  | none =>
    simp only [hfind, bind_eq_ok, require_eq_ok, pure_eq_ok, exists_const, Prod.mk.injEq] at hvictim
    obtain ⟨-, rfl, rfl⟩ := hvictim
    refine (h.evict hs₁).insertBlock hoffset (.inl fun b hb => ?_) ht
    -- All valid blocks of the superblock were evicted.
    rw [Bool.eq_false_iff]
    intro hvalid
    obtain ⟨hnot, heq⟩ := (evict_kept hs₁).2 b hvalid
    rw [heq] at hvalid
    exact hnot (mem_validBlks.mpr ⟨hb, h.offset_lt b hvalid, hvalid⟩)

theorem Shared.update (h : Shared l blkSize s)
    (hoffset : blk.offset < l.numBlocksPerSector)
    (hsmall : compressed = true → size ≤ blkSize * 8 / l.numBlocksPerSector)
    (hagree : ∀ b, b ≠ blk → b.sector = blk.sector → (s.tags.blks b).isValid = true →
      compressed = true ∧ s.isCompressedBlk b = true) :
    Shared l blkSize ((s.setCompressed blk compressed).setSizeBits blk size) := by
  refine h.set hoffset (fun b hb => ⟨?_, ?_⟩) (fun hc => ?_)
    (fun b hb hsector hvalid => ?_)
  · exact setCompressed_other hb
  · exact update_of_ne hb ..
  · rw [show (setSizeBits _ blk size).sizeBits blk = size from update_self ..]
    exact hsmall (setCompressed_blk.symm.trans hc)
  · exact ⟨setCompressed_blk.trans (hagree b hb hsector hvalid).1, (hagree b hb hsector hvalid).2⟩

theorem Shared.updateCompressionData {compressionSize : ℕ} {handleEvictions : Bool}
    (h : Shared l blkSize s)
    (ht : s.updateCompressionData l blkSize blk compressionSize handleEvictions = .ok t) :
    Shared l blkSize t := by
  simp only [CompressedTags.updateCompressionData, bind_eq_ok, require_eq_ok, exists_const] at ht
  obtain ⟨hvalid, ht⟩ := ht
  split_ifs at ht with hgrown hevictions
  · rw [bind_eq_ok] at ht
    obtain ⟨s₁, hs₁, ht⟩ := ht
    obtain rfl := pure_eq_ok.mp ht
    refine (h.evict hs₁).update (h.offset_lt blk hvalid) (by simp) fun b hb hsector hb₁ => ?_
    -- All other valid blocks of the superblock were evicted.
    obtain ⟨hnot, heq⟩ := (evict_kept hs₁).2 b hb₁
    rw [heq] at hb₁
    have hmem : b ∈ s.tags.validBlks l blk.sector :=
      mem_validBlks.mpr ⟨hsector, h.offset_lt b hb₁, hb₁⟩
    exact absurd (mem_filter.mpr ⟨hmem, by simpa using hb⟩) hnot
  · exact h.invalidate ht
  · obtain rfl := pure_eq_ok.mp ht
    refine h.update (h.offset_lt blk hvalid) (fun hc => ?_) fun b hb hsector hvalidb => ?_
    · exact of_decide_eq_true (Bool.and_eq_true_iff.mp hc).2
    · have hmem : b ∈ s.tags.validBlks l blk.sector :=
        mem_validBlks.mpr ⟨hsector, h.offset_lt b hvalidb, hvalidb⟩
      have hblk : s.isCompressedBlk blk = true := by
        by_contra hc
        exact hb (h.alone blk b hvalid hvalidb hsector.symm (Bool.eq_false_iff.mpr hc)).symm
      have hb' : s.isCompressedBlk b = true := (h.compressed_eq hvalidb hvalid hsector).trans hblk
      rw [hblk, Bool.true_and, Bool.not_eq_true', Bool.not_eq_false] at hgrown
      exact ⟨hgrown, hb'⟩

theorem Shared.call {c : CompressedCall} (hl : l.Regular K) (h : Shared l blkSize s)
    (ht : s.call l blkSize c = .ok t) : Shared l blkSize t := by
  cases c with
  | allocate addr isSecure compressedSize getVictim => exact h.allocate hl ht
  | updateCompressionData blk compressionSize handleEvictions => exact h.updateCompressionData ht
  | invalidate blk => exact h.invalidate ht

theorem length_validBlks_le : (s.tags.validBlks l S).length ≤ l.numBlocksPerSector := by
  refine (length_filter_le _ _).trans ?_
  rw [length_map, length_range]

theorem nodup_validBlks : (s.tags.validBlks l S).Nodup := by
  apply List.Nodup.filter
  apply List.Nodup.map _ nodup_range
  exact fun o o' heq => congrArg SubBlk.offset heq

theorem Shared.sum_le (h : Shared l blkSize s) :
    (((s.tags.validBlks l S).filter s.isCompressedBlk).map s.sizeBits).sum ≤ blkSize * 8 := by
  have hle : ∀ size ∈ ((s.tags.validBlks l S).filter s.isCompressedBlk).map s.sizeBits,
      size ≤ blkSize * 8 / l.numBlocksPerSector := by
    intro size hsize
    obtain ⟨b, hb, rfl⟩ := mem_map.mp hsize
    obtain ⟨hb, hc⟩ := mem_filter.mp hb
    exact h.small b (mem_validBlks.mp hb).2.2 hc
  calc (((s.tags.validBlks l S).filter s.isCompressedBlk).map s.sizeBits).sum
    _ ≤ (((s.tags.validBlks l S).filter s.isCompressedBlk).map s.sizeBits).length *
        (blkSize * 8 / l.numBlocksPerSector) := sum_le_card_nsmul _ _ hle
    _ ≤ l.numBlocksPerSector * (blkSize * 8 / l.numBlocksPerSector) := by
      apply Nat.mul_le_mul_right
      rw [length_map]
      exact (length_filter_le _ _).trans length_validBlks_le
    _ ≤ blkSize * 8 := Nat.mul_div_le _ _

theorem Shared.alone_or_small (h : Shared l blkSize s) :
    (s.tags.validBlks l S).length ≤ 1 ∨ ∀ b ∈ s.tags.validBlks l S, s.isCompressedBlk b = true ∧
      s.sizeBits b ≤ blkSize * 8 / l.numBlocksPerSector := by
  by_cases hall : ∀ b ∈ s.tags.validBlks l S, s.isCompressedBlk b = true
  · right
    intro b hb
    exact ⟨hall b hb, h.small b (mem_validBlks.mp hb).2.2 (hall b hb)⟩
  · left
    push Not at hall
    obtain ⟨b, hb, hc⟩ := hall
    obtain ⟨hsector, -, hvalid⟩ := mem_validBlks.mp hb
    have hsub : ∀ b' ∈ s.tags.validBlks l S, b' ∈ [b] := by
      intro b' hb'
      obtain ⟨hsector', -, hvalid'⟩ := mem_validBlks.mp hb'
      rw [h.alone b b' hvalid hvalid' (hsector.trans hsector'.symm) (Bool.eq_false_iff.mpr hc)]
      exact mem_singleton_self b'
    exact (nodup_validBlks.subperm hsub).length_le

theorem superblocks_share {p : SectorParams} {l : SectorLayout} {calls : List CompressedCall}
    {s : CompressedTags} (hcreate : SectorLayout.create p = .ok l)
    (h : run (call l p.blockSize) init calls = .ok s) (S : ReplaceableEntry) :
    ((s.tags.validBlks l S).length ≤ 1 ∨ ∀ b ∈ s.tags.validBlks l S, s.isCompressedBlk b = true ∧
      s.sizeBits b ≤ p.blockSize * 8 / l.numBlocksPerSector) ∧
    (((s.tags.validBlks l S).filter s.isCompressedBlk).map s.sizeBits).sum ≤ p.blockSize * 8 ∧
    ∀ b ∈ s.tags.validBlks l S, ∀ ignoredBlk, some b ≠ ignoredBlk →
      s.isCompressed l S ignoredBlk = s.isCompressedBlk b := by
  have hl := SectorLayout.regular hcreate
  have hs : Shared l p.blockSize s := run_keeps (fun hs he => hs.call hl he) shared_init h
  exact ⟨hs.alone_or_small, hs.sum_le, fun b hb _ hne => hs.isCompressed_eq hb hne⟩

def growingCalls : List CompressedCall :=
  [.allocate 0 false 100 ⟨0, 0⟩, .allocate 64 false 128 ⟨0, 0⟩, .allocate 128 false 90 ⟨0, 0⟩,
    .updateCompressionData ⟨⟨0, 0⟩, 2⟩ 120 true, .updateCompressionData ⟨⟨0, 0⟩, 0⟩ 300 true,
    .allocate 64 false 100 ⟨0, 1⟩, .allocate 192 false 100 ⟨0, 0⟩]

theorem superblocks_share_growing :
    Ends (call shortSectors 64) init growingCalls fun s =>
      (s.tags.validBlks shortSectors ⟨0, 1⟩).length = 2 ∧
        (((s.tags.validBlks shortSectors ⟨0, 1⟩).filter s.isCompressedBlk).map s.sizeBits).sum ≤
          512 := by
  have hends : Ends (call shortSectors 64) init growingCalls fun s =>
      (s.tags.validBlks shortSectors ⟨0, 1⟩).length = 2 := by
    decide +kernel
  obtain ⟨s, hs, hlength⟩ := hends
  have hshare := superblocks_share (p := ⟨1024, 64, 4, 2, false⟩) (eq_ok_get (by decide +kernel)) hs
    ⟨0, 1⟩
  exact ⟨s, hs, hlength, hshare.2.1⟩

end CompressedTags

end HetSim.Tags
