import HetSim.Process.MemState

/-!
# Parts of areas

An area that is cut or moved is a part of the old one: each address has the byte of the host that
an address of the old area had. Unmapping and remapping act on every address by a partial
function; what it makes of disjoint areas is settled from what it makes of one.
-/

namespace HetSim.Process
open Checked Nat

variable {B : Type} {p : PageSize} {v w u : VMA B} {a b c lo hi : ℕ}

theorem wrap_of_lt (h : a < 2 ^ 64) : wrap a = a := mod_eq_of_lt h

theorem sub_of_le (h : b ≤ a) (ha : a < 2 ^ 64) : sub a b = a - b := by
  have hsum : a + 2 ^ 64 - b = a - b + 2 ^ 64 := by omega
  rw [sub, hsum, add_mod_right, mod_eq_of_lt (by omega)]

theorem sub_wrap (hb : b ≤ a) (ha : a < 2 ^ 64) (hc : c + (a - b) < 2 ^ 64) :
    sub (wrap (c + a)) b = a - b + c := by
  rcases lt_or_ge (c + a) (2 ^ 64) with h | h
  · rw [wrap_of_lt h, sub_of_le (by omega) h]
    omega
  · have hwrap : wrap (c + a) = c + a - 2 ^ 64 := by
      rw [wrap, mod_eq_sub_mod h, mod_eq_of_lt (by omega)]
    rw [hwrap, sub, mod_eq_of_lt (by omega)]
    omega

theorem PageSize.bytes_pos (p : PageSize) : 0 < p.bytes := Nat.two_pow_pos _

theorem PageSize.bytes_dvd (p : PageSize) : p.bytes ∣ 2 ^ 64 := Nat.pow_dvd_pow _ p.lt.le

theorem roundDown_le (p : PageSize) (a : ℕ) : roundDown p a ≤ a := div_mul_le_self _ _

theorem lt_roundDown_add (p : PageSize) (a : ℕ) : a < roundDown p a + p.bytes := by
  have h := lt_div_mul_add p.bytes_pos (a := a)
  exact h

theorem dvd_roundDown (p : PageSize) (a : ℕ) : p.bytes ∣ roundDown p a := Dvd.intro_left _ rfl

theorem le_roundDown (h : p.bytes ∣ b) (hb : b ≤ a) : b ≤ roundDown p a := by
  obtain ⟨k, rfl⟩ := h
  rw [roundDown, mul_comm]
  exact Nat.mul_le_mul_right _ ((Nat.le_div_iff_mul_le p.bytes_pos).mpr (by rwa [mul_comm]))

theorem roundDown_lt (h : p.bytes ∣ b) (hb : roundDown p a < b) : a < b := by
  by_contra hle
  exact absurd (le_roundDown h (not_lt.mp hle)) (not_le.mpr hb)

theorem roundDown_of_dvd (h : p.bytes ∣ a) : roundDown p a = a := Nat.div_mul_cancel h

theorem roundDown_add_dvd (h : p.bytes ∣ b) : roundDown p (a + b) = roundDown p a + b := by
  obtain ⟨k, rfl⟩ := h
  rw [roundDown, roundDown, add_mul_div_left _ _ p.bytes_pos]
  ring

theorem roundDown_sub_dvd (h : p.bytes ∣ b) (hb : b ≤ a) :
    roundDown p (a - b) = roundDown p a - b := by
  have hsum := roundDown_add_dvd (a := a - b) h
  rw [Nat.sub_add_cancel hb] at hsum
  omega

def VMA.Has (v : VMA B) (a : ℕ) : Prop := v.start ≤ a ∧ a < v.end_

@[simp] theorem contains_iff : v.contains a = true ↔ v.Has a := by
  simp [VMA.contains, VMA.Has]

structure VMA.WF (p : PageSize) (v : VMA B) : Prop where
  lt : v.start < v.end_
  start_dvd : p.bytes ∣ v.start
  end_dvd : p.bytes ∣ v.end_
  bound : v.end_ < 2 ^ 64

theorem sanityCheck_of_wf (h : v.WF p) : v.sanityCheck p = .ok v := by
  have hne : v.start ≠ v.end_ := h.lt.ne
  have hs : v.start % p.bytes = 0 := mod_eq_zero_of_dvd h.start_dvd
  have he : v.end_ % p.bytes = 0 := mod_eq_zero_of_dvd h.end_dvd
  simp only [VMA.sanityCheck, require, if_pos hne, if_pos h.lt, if_pos hs, if_pos he]
  rfl

theorem wf_of_sanityCheck (h : v.sanityCheck p = .ok w) (hb : v.end_ < 2 ^ 64) :
    w = v ∧ v.WF p := by
  simp only [VMA.sanityCheck, bind_eq_ok, require_eq_ok, pure_eq_ok] at h
  obtain ⟨-, -, -, hlt, -, hs, -, he, rfl⟩ := h
  exact ⟨rfl, hlt, dvd_of_mod_eq_zero hs, dvd_of_mod_eq_zero he, hb⟩

theorem backing_eq (h : v.WF p) (ha : v.Has a) :
    v.backing p a = v.origHostBuf.bind fun buf =>
      if a - v.start < v.hostBufLen then some (buf, v.hostBuf + (a - v.start)) else none := by
  have hlow := le_roundDown h.start_dvd ha.1
  have hle := roundDown_le p a
  have hlt := lt_roundDown_add p a
  have hoff : sub (roundDown p a) v.start = roundDown p a - v.start :=
    sub_of_le hlow (by have := h.bound; have := ha.2; omega)
  rw [VMA.backing]
  congr 1
  funext buf
  rw [VMA.fillMemPages, hoff]
  by_cases hlen : roundDown p a - v.start < v.hostBufLen
  · rw [if_pos hlen, Option.bind_some]
    have hiff : a - roundDown p a < min (v.hostBufLen - (roundDown p a - v.start)) p.bytes ↔
        a - v.start < v.hostBufLen := by
      rw [lt_min_iff]
      omega
    have hsum : v.hostBuf + (roundDown p a - v.start) + (a - roundDown p a) =
        v.hostBuf + (a - v.start) := by omega
    simp only [hiff, hsum]
  · rw [if_neg hlen, Option.bind_none, if_neg (by omega)]

structure Part (p : PageSize) (v : VMA B) (lo hi b : ℕ) (w : VMA B) : Prop where
  wf : w.WF p
  start_eq : w.start = b
  end_eq : w.end_ = b + (hi - lo)
  low : v.start ≤ lo
  lt : lo < hi
  high : hi ≤ v.end_
  backing_eq : ∀ a, lo ≤ a → a < hi → w.backing p (a - lo + b) = v.backing p a

namespace Part

theorem self (h : v.WF p) : Part p v v.start v.end_ v.start v where
  wf := h
  start_eq := rfl
  end_eq := by have := h.lt; omega
  low := le_rfl
  lt := h.lt
  high := le_rfl
  backing_eq a ha _ := by rw [Nat.sub_add_cancel ha]

theorem cutRight (h : v.WF p) (ha : p.bytes ∣ a) (hlt : v.start < a) (hle : a ≤ v.end_) :
    Part p v v.start a v.start (v.cutRight a) := by
  have hb := h.bound
  have hw : (v.cutRight a).WF p := ⟨hlt, h.start_dvd, ha, hle.trans_lt hb⟩
  refine ⟨hw, rfl, (by show a = _; omega), le_rfl, hlt, hle, fun x hx hxa => ?_⟩
  rw [Nat.sub_add_cancel hx, Process.backing_eq h ⟨hx, hxa.trans_le hle⟩,
    Process.backing_eq hw ⟨hx, hxa⟩]
  cases hbuf : v.origHostBuf with
  | none => simp [VMA.cutRight, hbuf]
  | some buf =>
    have hlen : x - v.start < min v.hostBufLen (sub a v.start) ↔ x - v.start < v.hostBufLen := by
      rw [sub_of_le hlt.le (hle.trans_lt hb), lt_min_iff]
      omega
    simp [VMA.cutRight, VMA.hasHostBuf, hbuf, hlen]

theorem cutLeft (h : v.WF p) (ha : p.bytes ∣ a) (hle : v.start ≤ a) (hlt : a < v.end_) :
    Part p v a v.end_ a (v.cutLeft a) := by
  have hb := h.bound
  have hsub : sub a v.start = a - v.start := sub_of_le hle (hlt.trans hb)
  have hs : (v.cutLeft a).start = a := by
    simp only [VMA.cutLeft]
    split_ifs <;> rfl
  have he : (v.cutLeft a).end_ = v.end_ := by
    simp only [VMA.cutLeft]
    split_ifs <;> rfl
  have hw : (v.cutLeft a).WF p :=
    ⟨by rw [hs, he]; exact hlt, by rw [hs]; exact ha, by rw [he]; exact h.end_dvd,
      by rw [he]; exact hb⟩
  refine ⟨hw, hs, by rw [he]; omega, hle, hlt, le_rfl, fun x hx hxv => ?_⟩
  rw [Nat.sub_add_cancel hx, Process.backing_eq h ⟨hle.trans hx, hxv⟩,
    Process.backing_eq hw ⟨by rw [hs]; exact hx, by rw [he]; exact hxv⟩, hs]
  cases hbuf : v.origHostBuf with
  | none => simp [VMA.cutLeft, VMA.hasHostBuf, hbuf]
  | some buf =>
    by_cases hlen : v.hostBufLen ≤ a - v.start
    · have hx' : ¬ x - v.start < v.hostBufLen := by omega
      simp [VMA.cutLeft, VMA.hasHostBuf, hbuf, hsub, hlen, hx']
    · have hiff : x - a < v.hostBufLen - (a - v.start) ↔ x - v.start < v.hostBufLen := by omega
      have hsum : v.hostBuf + (a - v.start) + (x - a) = v.hostBuf + (x - v.start) := by omega
      simp [VMA.cutLeft, VMA.hasHostBuf, hbuf, hsub, hlen, hiff, hsum]

theorem moved (h : v.WF p) (ha : p.bytes ∣ a) (hb : a + (v.end_ - v.start) < 2 ^ 64) :
    Part p v v.start v.end_ a (v.moved a) := by
  have hlt := h.lt
  have he : (v.moved a).end_ = a + (v.end_ - v.start) := by
    show wrap (a + sub v.end_ v.start) = _
    rw [sub_of_le hlt.le h.bound, wrap_of_lt hb]
  have hdvd : p.bytes ∣ v.end_ - v.start := Nat.dvd_sub h.end_dvd h.start_dvd
  have hw : (v.moved a).WF p :=
    ⟨by rw [he]; show a < _; omega, ha, he ▸ ha.add hdvd, he ▸ hb⟩
  refine ⟨hw, rfl, he, le_rfl, hlt, le_rfl, fun x hx hxv => ?_⟩
  rw [Process.backing_eq h ⟨hx, hxv⟩,
    Process.backing_eq hw ⟨by show a ≤ _; omega, by rw [he]; omega⟩]
  have hoff : x - v.start + a - (v.moved a).start = x - v.start := by
    show x - v.start + a - a = _
    omega
  rw [hoff]
  rfl

theorem trans {lo' hi' : ℕ} (h : Part p v lo hi lo w) (h' : Part p w lo' hi' b u) :
    Part p v lo' hi' b u := by
  have hlow : lo ≤ lo' := h.start_eq ▸ h'.low
  have hhigh : hi' ≤ hi := by
    have := h'.high
    rw [h.end_eq] at this
    have := h.lt
    omega
  refine ⟨h'.wf, h'.start_eq, h'.end_eq, h.low.trans hlow, h'.lt, hhigh.trans h.high,
    fun x hx hxv => ?_⟩
  rw [h'.backing_eq x hx hxv, ← h.backing_eq x (hlow.trans hx) (hxv.trans_le hhigh),
    Nat.sub_add_cancel (hlow.trans hx)]

theorem has (h : Part p v lo hi b w) : w.Has a ↔ b ≤ a ∧ a < b + (hi - lo) := by
  rw [VMA.Has, h.start_eq, h.end_eq]

end Part

def Apart (v w : VMA B) : Prop := ∀ a, v.Has a → ¬ w.Has a

theorem Apart.symm (h : Apart v w) : Apart w v := fun a hw hv => h a hv hw

structure Regular (p : PageSize) (l : List (VMA B)) : Prop where
  apart : l.Pairwise Apart
  wf : ∀ v ∈ l, v.WF p

theorem Regular.perm {l l' : List (VMA B)} (h : Regular p l) (hp : l'.Perm l) : Regular p l' :=
  ⟨(hp.pairwise_iff Apart.symm).mpr h.apart, fun v hv => h.wf v (hp.subset hv)⟩

def Backed (p : PageSize) (l : List (VMA B)) (a : ℕ) (x : Option (B × ℕ)) : Prop :=
  ∃ v ∈ l, v.Has a ∧ v.backing p a = x

theorem Backed.perm {l l' : List (VMA B)} {x : Option (B × ℕ)} (hp : l'.Perm l) :
    Backed p l' a x ↔ Backed p l a x := by
  simp only [Backed, hp.mem_iff]

/-- The areas `ws` are what a partial function on addresses makes of the addresses of `v`
between `lo` and `hi`. -/
structure Carries (p : PageSize) (f : ℕ → Option ℕ) (v : VMA B) (lo hi : ℕ)
    (ws : List (VMA B)) : Prop where
  wf : ∀ w ∈ ws, w.WF p
  apart : ws.Pairwise Apart
  origin : ∀ w ∈ ws, ∀ b, w.Has b →
    ∃ a, (lo ≤ a ∧ a < hi) ∧ f a = some b ∧ w.backing p b = v.backing p a
  cover : ∀ a b, lo ≤ a → a < hi → f a = some b → ∃ w ∈ ws, w.Has b

namespace Carries

variable {f : ℕ → Option ℕ} {ws ws' : List (VMA B)} {mid : ℕ}

theorem drop (h : ∀ a, lo ≤ a → a < hi → f a = none) : Carries p f v lo hi [] where
  wf := by simp
  apart := .nil
  origin := by simp
  cover a b hlo hhi hf := by
    rw [h a hlo hhi] at hf
    exact nomatch hf

theorem part (h : Part p v lo hi c w) (hf : ∀ a, lo ≤ a → a < hi → f a = some (a - lo + c)) :
    Carries p f v lo hi [w] where
  wf := by
    rintro u hu
    rw [List.mem_singleton.mp hu]
    exact h.wf
  apart := List.pairwise_singleton _ _
  origin := by
    rintro u hu b hb
    rw [List.mem_singleton.mp hu] at hb ⊢
    rw [h.has] at hb
    have hback := h.backing_eq (b - c + lo) (by omega) (by omega)
    have hb' : b - c + lo - lo + c = b := by omega
    rw [hb'] at hback
    exact ⟨b - c + lo, ⟨by omega, by omega⟩, by rw [hf _ (by omega) (by omega), hb'], hback⟩
  cover a b hlo hhi hfa := by
    obtain rfl : a - lo + c = b := by
      rw [hf a hlo hhi] at hfa
      exact Option.some.inj hfa
    exact ⟨w, List.mem_singleton_self w, h.has.mpr ⟨by omega, by omega⟩⟩

theorem append (h : Carries p f v lo mid ws) (h' : Carries p f v mid hi ws') (hlo : lo ≤ mid)
    (hhi : mid ≤ hi) (hinj : ∀ a a' b, lo ≤ a → a < mid → mid ≤ a' → a' < hi → f a = some b →
      f a' ≠ some b) : Carries p f v lo hi (ws ++ ws') where
  wf w hw := (List.mem_append.mp hw).elim (h.wf w) (h'.wf w)
  apart := by
    refine List.pairwise_append.mpr ⟨h.apart, h'.apart, fun w hw w' hw' b hb hb' => ?_⟩
    obtain ⟨a, ⟨hla, hau⟩, hfa, -⟩ := h.origin w hw b hb
    obtain ⟨a', ⟨hla', hau'⟩, hfa', -⟩ := h'.origin w' hw' b hb'
    exact hinj a a' b hla hau hla' hau' hfa hfa'
  origin w hw b hb := by
    rcases List.mem_append.mp hw with hw | hw
    · obtain ⟨a, ⟨hla, hau⟩, ha⟩ := h.origin w hw b hb
      exact ⟨a, ⟨hla, by omega⟩, ha⟩
    · obtain ⟨a, ⟨hla, hau⟩, ha⟩ := h'.origin w hw b hb
      exact ⟨a, ⟨by omega, hau⟩, ha⟩
  cover a b hla hau hfa := by
    rcases lt_or_ge a mid with hmid | hmid
    · obtain ⟨w, hw, hb⟩ := h.cover a b hla hmid hfa
      exact ⟨w, List.mem_append_left _ hw, hb⟩
    · obtain ⟨w, hw, hb⟩ := h'.cover a b hmid hau hfa
      exact ⟨w, List.mem_append_right _ hw, hb⟩

theorem perm (h : Carries p f v lo hi ws) (hp : ws'.Perm ws) : Carries p f v lo hi ws' where
  wf w hw := h.wf w (hp.subset hw)
  apart := (hp.pairwise_iff Apart.symm).mpr h.apart
  origin w hw := h.origin w (hp.subset hw)
  cover a b hla hau hfa := by
    obtain ⟨w, hw, hb⟩ := h.cover a b hla hau hfa
    exact ⟨w, hp.symm.subset hw, hb⟩

end Carries

section Carried

variable {f : ℕ → Option ℕ} {pieces : VMA B → List (VMA B)} {l : List (VMA B)}

theorem Regular.carried (h : Regular p l) (hc : ∀ v ∈ l, Carries p f v v.start v.end_ (pieces v))
    (hinj : ∀ v ∈ l, ∀ w ∈ l, ∀ a a' b, v.Has a → w.Has a' → f a = some b → f a' = some b →
      a = a') : Regular p (l.flatMap pieces) := by
  refine ⟨List.pairwise_flatMap.mpr ⟨fun v hv => (hc v hv).apart, ?_⟩, fun w hw => ?_⟩
  · refine h.apart.imp_of_mem fun {v v'} hv hv' hvv w hw w' hw' b hb hb' => ?_
    obtain ⟨a, ha, hfa, -⟩ := (hc v hv).origin w hw b hb
    obtain ⟨a', ha', hfa', -⟩ := (hc v' hv').origin w' hw' b hb'
    obtain rfl := hinj v hv v' hv' a a' b ha ha' hfa hfa'
    exact hvv a ha ha'
  · obtain ⟨v, hv, hw⟩ := List.mem_flatMap.mp hw
    exact (hc v hv).wf w hw

theorem backed_carried (hc : ∀ v ∈ l, Carries p f v v.start v.end_ (pieces v))
    (hinj : ∀ v ∈ l, ∀ w ∈ l, ∀ a a' b, v.Has a → w.Has a' → f a = some b → f a' = some b →
      a = a') {x : Option (B × ℕ)} :
    Backed p (l.flatMap pieces) b x ↔ ∃ a, f a = some b ∧ Backed p l a x := by
  constructor
  · rintro ⟨w, hw, hb, rfl⟩
    obtain ⟨v, hv, hw⟩ := List.mem_flatMap.mp hw
    obtain ⟨a, ha, hfa, hback⟩ := (hc v hv).origin w hw b hb
    exact ⟨a, hfa, v, hv, ha, hback.symm⟩
  · rintro ⟨a, hfa, v, hv, ha, rfl⟩
    obtain ⟨w, hw, hb⟩ := (hc v hv).cover a b ha.1 ha.2 hfa
    obtain ⟨a', ha', hfa', hback⟩ := (hc v hv).origin w hw b hb
    obtain rfl := hinj v hv v hv a a' b ha ha' hfa hfa'
    exact ⟨w, List.mem_flatMap.mpr ⟨v, hv, hw⟩, hb, hback⟩

end Carried

end HetSim.Process
