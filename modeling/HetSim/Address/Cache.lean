import HetSim.Address.Lookup

/-!
# The look-up cache

At most one plain entry holds an address, and an entry that meets a range is next to its place
in the tree. So the cache may be looked at first, as long as its iterators belong to entries.
-/

namespace HetSim.Address
open Checked Runs List AddrRange AddrRangeMap

variable {V : Type} {r r' : AddrRange} {a : Addr} {n x y : Node V} {m : AddrRangeMap V}
  {tree pre post : List (Node V)} {cache : List ℕ} {maxCacheSize it : ℕ}

/-- A plain range that is not turned around. -/
structure Proper (r : AddrRange) : Prop where
  plain : ¬ r.interleaved
  le : r.start.toNat < r.end_.toNat ∨ r.start.toNat = r.end_.toNat ∧ r.intlvMatch = 0

structure Plain (tree : List (Node V)) : Prop where
  proper : ∀ n ∈ tree, Proper n.range
  apart : tree.Pairwise fun n n' => n.range.end_.toNat ≤ n'.range.start.toNat
  sorted : Sorted tree
  nodup : (tree.map Node.id).Nodup

theorem Plain.sublist {tree' : List (Node V)} (h : Plain tree) (hsub : tree'.Sublist tree) :
    Plain tree' :=
  ⟨fun n hn => h.proper n (hsub.subset hn), h.apart.sublist hsub, h.sorted.sublist hsub,
    h.nodup.sublist (hsub.map _)⟩

theorem Plain.eq_of_id (h : Plain tree) (hn : n ∈ tree) (hx : x ∈ tree) (hid : n.id = x.id) :
    n = x := inj_on_of_nodup_map h.nodup hn hx hid

/-! ## What the tree is searched for -/

def Crosses (r r' : AddrRange) : Bool :=
  r.start.toNat < r'.end_.toNat ∧ r'.start.toNat < r.end_.toNat

theorem crosses_iff : Crosses r r' ↔
    r.start.toNat < r'.end_.toNat ∧ r'.start.toNat < r.end_.toNat := decide_eq_true_iff

theorem intersects_plain (h : ¬ r.interleaved) (h' : ¬ r'.interleaved) :
    r.intersects r' = .ok (Crosses r r') := by
  rw [intersects]
  split_ifs with hout hplain
  · have hno : ¬ Crosses r r' := by
      rw [crosses_iff]
      simp only [BitVec.le_def] at hout
      omega
    rw [Bool.eq_false_iff.mpr hno]
    rfl
  · have hyes : Crosses r r' := by
      rw [crosses_iff]
      simp only [BitVec.le_def] at hout
      omega
    rw [hyes]
    rfl
  all_goals exact absurd (by simp [h, h']) hplain

theorem Plain.findTree_covers (h : Plain tree) (ha : a ≠ MaxAddr) (hn : n ∈ tree)
    (hc : Covers a n.range) :
    findTree (ofSize a 1).isSubset (ofSize a 1) tree = .ok (some n.id) := by
  have hcond : ∀ n ∈ tree, (ofSize a 1).isSubset n.range = .ok (Covers a n.range) :=
    fun n hn => isSubset_plain (h.proper n hn).plain ha
  rw [covers_iff] at hc
  obtain ⟨hapartB, hapartA, hacross⟩ :=
    pairwise_split (R := fun r r' => r.end_.toNat ≤ r'.start.toNat) (ofSize a 1) h.apart
  rcases mem_before_or_after (ofSize a 1) hn with hbefore | hafter
  · obtain ⟨pre, post, hsplit⟩ := append_of_mem hbefore
    have hnil : post = [] := by
      refine eq_nil_iff_forall_not_mem.mpr fun x hx => ?_
      have hxlt := (mem_before (hsplit ▸ mem_append_right pre (mem_cons_of_mem n hx) :
        x ∈ before (ofSize a 1) tree)).2
      rw [hsplit] at hapartB
      have hend := (pairwise_cons.mp (pairwise_append.mp hapartB).2.1).1 x hx
      rw [lt_iff] at hxlt
      change ¬ (a.toNat < _ ∨ _) at hxlt
      omega
    subst hnil
    refine findTree_before (P := Covers a) hcond (fun x hx => ?_) hsplit (covers_iff.mpr hc) nofun
    have hend := hacross n hbefore x (mem_of_mem_head? hx)
    rw [Bool.eq_false_iff, ne_eq, covers_iff]
    omega
  · cases hsplit : after (ofSize a 1) tree with
    | nil =>
      rw [hsplit] at hafter
      exact absurd hafter not_mem_nil
    | cons y post =>
      rw [hsplit] at hafter hapartA
      rcases mem_cons.mp hafter with rfl | hpost
      · exact findTree_after (P := Covers a) hcond hsplit (covers_iff.mpr hc)
      · -- An entry in between is empty, and its key is not above that of the address.
        obtain ⟨hy, hylt⟩ := mem_after h.sorted (hsplit ▸ mem_cons_self :
          y ∈ after (ofSize a 1) tree)
        have hend := (pairwise_cons.mp hapartA).1 n hpost
        rw [lt_iff] at hylt
        change a.toNat < _ ∨ a.toNat = _ ∧ 0 < _ at hylt
        rcases (h.proper y hy).le with hle | ⟨hle, hmatch⟩
        · omega
        · rw [hmatch] at hylt
          change a.toNat < _ ∨ a.toNat = _ ∧ 0 < 0 at hylt
          omega

theorem Plain.findTree_crosses (h : Plain tree) (hr : ¬ r.interleaved)
    (hany : ∃ n ∈ tree, Crosses r n.range) :
    ∃ n ∈ tree, Crosses r n.range ∧ findTree r.intersects r tree = .ok (some n.id) := by
  have hcond : ∀ n ∈ tree, r.intersects n.range = .ok (Crosses r n.range) :=
    fun n hn => intersects_plain hr (h.proper n hn).plain
  obtain ⟨n, hn, hc⟩ := hany
  have hcn := crosses_iff.mp hc
  obtain ⟨hapartB, hapartA, -⟩ :=
    pairwise_split (R := fun r r' => r.end_.toNat ≤ r'.start.toNat) r h.apart
  by_cases hhead : ∀ x ∈ (after r tree).head?, Crosses r x.range = false
  · rcases mem_before_or_after r hn with hbefore | hafter
    · obtain ⟨pre, post, hsplit⟩ := append_of_mem hbefore
      have hnil : post = [] := by
        refine eq_nil_iff_forall_not_mem.mpr fun x hx => ?_
        have hxlt := (mem_before (hsplit ▸ mem_append_right pre (mem_cons_of_mem n hx) :
          x ∈ before r tree)).2
        rw [hsplit] at hapartB
        have hend := (pairwise_cons.mp (pairwise_append.mp hapartB).2.1).1 x hx
        rw [lt_iff] at hxlt
        omega
      subst hnil
      exact ⟨n, hn, hc, findTree_before (P := Crosses r) hcond hhead hsplit hc nofun⟩
    · cases hsplit : after r tree with
      | nil =>
        rw [hsplit] at hafter
        exact absurd hafter not_mem_nil
      | cons y post =>
        have hno := hhead y (by rw [hsplit]; rfl)
        obtain ⟨hy, hylt⟩ := mem_after h.sorted (hsplit ▸ mem_cons_self : y ∈ after r tree)
        rw [hsplit] at hafter hapartA
        rcases mem_cons.mp hafter with rfl | hpost
        · rw [hc] at hno
          exact absurd hno.symm Bool.false_ne_true
        · have hend := (pairwise_cons.mp hapartA).1 n hpost
          rw [Bool.eq_false_iff, ne_eq, crosses_iff] at hno
          rw [lt_iff] at hylt
          rcases (h.proper y hy).le with hle | ⟨hle, hmatch⟩
          · omega
          · rw [hmatch] at hylt
            change _ ∨ _ ∧ _ < 0 at hylt
            omega
  · push Not at hhead
    obtain ⟨y, hy, hcy⟩ := hhead
    obtain ⟨post, hsplit⟩ := List.head?_eq_some_iff.mp hy
    have hyt := (mem_after h.sorted (hsplit ▸ mem_cons_self : y ∈ after r tree)).1
    have hcy : Crosses r y.range := by simpa using hcy
    exact ⟨y, hyt, hcy, findTree_after (P := Crosses r) hcond hsplit hcy⟩

/-! ## The cache -/

structure CacheOk (maxCacheSize : ℕ) (tree : List (Node V)) (cache : List ℕ) : Prop where
  valid : ∀ it ∈ cache, it ∈ tree.map Node.id
  nodup : cache.Nodup
  size : cache.length ≤ maxCacheSize

theorem CacheOk.promote (h : CacheOk maxCacheSize tree cache) (hit : it ∈ cache) :
    CacheOk maxCacheSize tree (it :: cache.erase it) := by
  refine ⟨fun it' hit' => ?_, ?_, ?_⟩
  · rcases mem_cons.mp hit' with rfl | hit'
    · exact h.valid _ hit
    · exact h.valid _ (mem_of_mem_erase hit')
  · exact nodup_cons.mpr ⟨h.nodup.not_mem_erase, h.nodup.erase it⟩
  · rw [length_cons, length_erase_of_mem hit, Nat.sub_add_cancel (length_pos_of_mem hit)]
    exact h.size

theorem CacheOk.add (h : CacheOk maxCacheSize tree cache) (hit : it ∈ tree.map Node.id)
    (hnew : it ∉ cache) : CacheOk maxCacheSize tree (addNewEntryToCache maxCacheSize it cache) := by
  have hsub := dropLast_sublist cache
  have hdrop : it ∉ cache.dropLast := fun hmem => hnew (hsub.subset hmem)
  rw [addNewEntryToCache]
  split_ifs with hzero hfull hone
  · refine ⟨forall_mem_cons.mpr ⟨hit, fun it' hit' => h.valid it' (hsub.subset hit')⟩,
      nodup_cons.mpr ⟨hdrop, h.nodup.sublist hsub⟩, ?_⟩
    rw [length_cons, length_dropLast]
    have := h.size
    omega
  · refine ⟨fun it' hit' => ?_, ?_, ?_⟩
    · rcases mem_append.mp hit' with hit' | hit'
      · exact h.valid it' (hsub.subset hit')
      · rwa [mem_singleton.mp hit']
    · rw [nodup_append]
      exact ⟨h.nodup.sublist hsub, nodup_singleton it, fun it' hit' it'' hit'' heq =>
        hdrop (mem_singleton.mp hit'' ▸ heq ▸ hit')⟩
    · rw [length_append, length_dropLast, length_singleton]
      have := h.size
      omega
  · refine ⟨forall_mem_cons.mpr ⟨hit, h.valid⟩, nodup_cons.mpr ⟨hnew, h.nodup⟩, ?_⟩
    rw [length_cons]
    omega
  · exact h

section Find

variable {cond : AddrRange → Except Fault Bool} {P : AddrRange → Bool}

theorem find?_id (hit : it ∈ tree.map Node.id) :
    ∃ n ∈ tree, n.id = it ∧ tree.find? (·.id = it) = some n := by
  obtain ⟨n, hn, rfl⟩ := mem_map.mp hit
  cases hfind : tree.find? (·.id = n.id) with
  | none => exact absurd (decide_eq_true rfl) (List.find?_eq_none.mp hfind n hn)
  | some x =>
    have hx := List.mem_of_find?_eq_some hfind
    have hid : x.id = n.id := by simpa using List.find?_some hfind
    exact ⟨x, hx, hid, rfl⟩

theorem findCached_spec (h : Plain tree) (hcond : ∀ n ∈ tree, cond n.range = .ok (P n.range))
    (hvalid : ∀ it ∈ cache, it ∈ tree.map Node.id) :
    (∃ n ∈ tree, n.id ∈ cache ∧ P n.range ∧ findCached cond tree cache = .ok (some n.id)) ∨
      (∀ n ∈ tree, n.id ∈ cache → P n.range = false) ∧ findCached cond tree cache = .ok none := by
  induction cache with
  | nil => exact Or.inr ⟨nofun, rfl⟩
  | cons it cache ih =>
    obtain ⟨n, hn, rfl, hfind⟩ := find?_id (hvalid it (by simp))
    have hstep : findCached cond tree (n.id :: cache) =
        if P n.range then .ok (some n.id) else findCached cond tree cache := by
      rw [findCached, hfind, demand, ok_bind, hcond n hn, ok_bind]
      rfl
    rw [hstep]
    cases hP : P n.range with
    | true => exact Or.inl ⟨n, hn, by simp, hP, rfl⟩
    | false =>
      rw [if_neg Bool.false_ne_true]
      rcases ih fun it hit => hvalid it (by simp [hit]) with
        ⟨x, hx, hxc, hPx, hfound⟩ | ⟨hnone, hfound⟩
      · exact Or.inl ⟨x, hx, by simp [hxc], hPx, hfound⟩
      · refine Or.inr ⟨fun x hx hxc => ?_, hfound⟩
        rcases mem_cons.mp hxc with hid | hxc
        · rw [h.eq_of_id hx hn hid, hP]
        · exact hnone x hx hxc

theorem find_spec (h : Plain m.tree) (hc : CacheOk maxCacheSize m.tree m.cache)
    (hcond : ∀ n ∈ m.tree, cond n.range = .ok (P n.range)) {found₀ : Option ℕ}
    (hfind : findTree cond r m.tree = .ok found₀)
    (hsound : ∀ it ∈ found₀, ∃ n ∈ m.tree, n.id = it ∧ P n.range)
    (hcomplete : (∃ n ∈ m.tree, P n.range) → found₀ ≠ none) :
    ∃ cache found, m.find maxCacheSize r cond = .ok (⟨m.tree, cache, m.fresh⟩, found) ∧
      CacheOk maxCacheSize m.tree cache ∧ (found = none ↔ found₀ = none) ∧
      ∀ it ∈ found, ∃ n ∈ m.tree, n.id = it ∧ P n.range := by
  rcases findCached_spec h hcond hc.valid with ⟨n, hn, hnc, hPn, hcached⟩ | ⟨hnone, hcached⟩
  · refine ⟨n.id :: m.cache.erase n.id, some n.id, ?_, hc.promote hnc, ?_, ?_⟩
    · rw [find, hcached]
      rfl
    · simpa using hcomplete ⟨n, hn, hPn⟩
    · rintro it ⟨⟩
      exact ⟨n, hn, rfl, hPn⟩
  · cases found₀ with
    | none =>
      refine ⟨m.cache, none, ?_, hc, Iff.rfl, (by simp)⟩
      rw [find, hcached, ok_bind, hfind]
      rfl
    | some it =>
      obtain ⟨n, hn, rfl, hPn⟩ := hsound it rfl
      have hnew : n.id ∉ m.cache := fun hmem => by
        rw [hnone n hn hmem] at hPn
        exact Bool.false_ne_true hPn
      refine ⟨addNewEntryToCache maxCacheSize n.id m.cache, some n.id, ?_,
        hc.add (mem_map_of_mem hn) hnew, by simp, ?_⟩
      · rw [find, hcached, ok_bind, hfind]
        rfl
      · rintro it ⟨⟩
        exact ⟨n, hn, rfl, hPn⟩

end Find

/-! ## One operation -/

theorem crosses_comm : Crosses r r' = Crosses r' r := by
  rw [Bool.eq_iff_iff, crosses_iff, crosses_iff, and_comm]

theorem Proper.apart (hr' : Proper r') (hno : ¬ Crosses r r') (hlt : r.lt r') :
    r.end_.toNat ≤ r'.start.toNat := by
  rw [crosses_iff] at hno
  rw [lt_iff] at hlt
  rcases hr'.le with hle | ⟨hle, hzero⟩
  · omega
  · rw [hzero] at hlt
    change _ ∨ _ ∧ _ < 0 at hlt
    omega

section Insert

variable (h : Plain tree) {fresh : ℕ} (hfresh : ∀ n ∈ tree, n.id < fresh) (hr : Proper r)
include h hfresh hr

theorem Plain.insertAt (hno : ∀ n ∈ tree, ¬ Crosses r n.range)
    (hkey : ∀ n ∈ tree, r.lt n.range ∨ n.range.lt r) (d : V) :
    Plain (before r tree ++ ⟨fresh, r, d⟩ :: after r tree) := by
  refine ⟨fun n hn => ?_, ?_, ?_, nodup_insertAt h.nodup hfresh⟩
  · rcases mem_insertAt.mp hn with rfl | hn
    · exact hr
    · exact h.proper n hn
  · refine pairwise_insertAt (R := fun r r' => r.end_.toNat ≤ r'.start.toNat) h.apart
      (fun n hn => ?_) fun n hn => ?_
    · obtain ⟨hmem, hlt⟩ := mem_before hn
      exact hr.apart (crosses_comm ▸ hno n hmem) ((hkey n hmem).resolve_left hlt)
    · obtain ⟨hmem, hlt⟩ := mem_after h.sorted hn
      exact (h.proper n hmem).apart (hno n hmem) hlt
  · refine pairwise_insertAt (R := fun r r' => r.lt r') h.sorted (fun n hn => ?_) fun n hn => ?_
    · obtain ⟨hmem, hlt⟩ := mem_before hn
      exact (hkey n hmem).resolve_left hlt
    · exact (mem_after h.sorted hn).2

theorem Plain.insertTree (hno : ∀ n ∈ tree, ¬ Crosses r n.range) (d : V) :
    ∃ tree' fresh' it, (∀ cache, AddrRangeMap.insertTree r d ⟨tree, cache, fresh⟩ =
        (⟨tree', cache, fresh'⟩, it)) ∧
      Plain tree' ∧ (∀ n ∈ tree', n.id < fresh') ∧ ∀ n ∈ tree, n ∈ tree' := by
  cases hfind : tree.find? fun n => !r.lt n.range && !n.range.lt r with
  | some n =>
    refine ⟨tree, fresh, n.id, fun cache => ?_, h, hfresh, fun _ hn => hn⟩
    rw [AddrRangeMap.insertTree, hfind]
  | none =>
    have hkey : ∀ n ∈ tree, r.lt n.range ∨ n.range.lt r := fun n hn => by
      have := List.find?_eq_none.mp hfind n hn
      simpa [or_iff_not_imp_left] using this
    refine ⟨_, fresh + 1, fresh, fun cache => insertTree_eq hkey, h.insertAt hfresh hr hno hkey d,
      fun n hn => ?_, fun n hn => mem_insertAt.mpr (Or.inr hn)⟩
    rcases mem_insertAt.mp hn with rfl | hn
    · exact Nat.lt_succ_self _
    · exact Nat.lt_succ_of_lt (hfresh n hn)

end Insert

theorem CacheOk.mono {tree' : List (Node V)} (h : CacheOk maxCacheSize tree cache)
    (hsub : ∀ n ∈ tree, n ∈ tree') : CacheOk maxCacheSize tree' cache :=
  ⟨fun it hit => map_subset Node.id hsub (h.valid it hit), h.nodup, h.size⟩

theorem CacheOk.filter {tree' : List (Node V)} (h : CacheOk maxCacheSize tree cache)
    (keep : ℕ → Bool) (hkeep : ∀ n ∈ tree, n.id ∈ cache → keep n.id → n ∈ tree') :
    CacheOk maxCacheSize tree' (cache.filter keep) := by
  refine ⟨fun it hit => ?_, h.nodup.filter keep, (length_filter_le keep cache).trans h.size⟩
  obtain ⟨hmem, hk⟩ := mem_filter.mp hit
  obtain ⟨n, hn, rfl⟩ := mem_map.mp (h.valid it hmem)
  exact mem_map_of_mem (hkeep n hn hmem hk)

theorem foldl_filter (l : List (Node V)) (f : ℕ → Bool) (cache : List ℕ) :
    l.foldl (fun cache _ => cache.filter f) cache = cache.filter fun it => l.isEmpty || f it := by
  induction l generalizing cache with
  | nil => simp
  | cons n l ih =>
    rw [foldl_cons, ih, filter_filter]
    refine filter_congr fun it _ => ?_
    cases hf : f it <;> simp

/-! ## Both maps together -/

structure Alike (maxCacheSize : ℕ) (s s' : Session V) : Prop where
  plain : Plain s.map.tree
  fresh : ∀ n ∈ s.map.tree, n.id < s.map.fresh
  cache : CacheOk maxCacheSize s.map.tree s.map.cache
  map : s'.map = ⟨s.map.tree, [], s.map.fresh⟩
  answers : s'.answers = s.answers

theorem Alike.split {s s' : Session V} (h : Alike maxCacheSize s s') :
    ∃ tree cache fresh answers, s = ⟨⟨tree, cache, fresh⟩, answers⟩ ∧
      s' = ⟨⟨tree, [], fresh⟩, answers⟩ := by
  obtain ⟨m', answers'⟩ := s'
  exact ⟨_, _, _, _, rfl, congrArg₂ Session.mk h.map h.answers⟩

/-- The operation returns in both maps, and leaves them alike. -/
def Agrees (maxCacheSize : ℕ) (s s' : Session V) (op : Op V) : Prop :=
  ∃ t t', step maxCacheSize s op = .ok t ∧ step 0 s' op = .ok t' ∧ Alike maxCacheSize t t'

def Uses (s : Session V) : Op V → Prop
  | .insert r _ => ¬ r.interleaved
  | .erase p => p ∈ s.map.tree.map Node.id
  | .eraseRange p q => isIterator p s.map.tree ∧
      isIterator q (s.map.tree.dropWhile fun n => some n.id ≠ p)
  | .clear => True
  | .contains _ => True

/-- No range is turned around, of the entries of an erased span only the first is cached,
and the last address is not asked for. -/
def Careful (s : Session V) : Op V → Prop
  | .insert r _ => r.start.toNat < r.end_.toNat ∨ r.start.toNat = r.end_.toNat ∧ r.intlvMatch = 0
  | .erase _ => True
  | .eraseRange p q => ∀ n ∈ span p q s.map.tree, n.id ∈ s.map.cache → some n.id = p
  | .clear => True
  | .contains a => a ≠ MaxAddr

section Step

variable {s s' : Session V} (h : Alike maxCacheSize s s')
include h

theorem Alike.insert (hr : Proper r) (d : V) : Agrees maxCacheSize s s' (.insert r d) := by
  obtain ⟨tree, cache, fresh, answers, rfl, rfl⟩ := h.split
  have hcond : ∀ n ∈ tree, r.intersects n.range = .ok (Crosses r n.range) :=
    fun n hn => intersects_plain hr.plain (h.plain.proper n hn).plain
  by_cases hany : ∃ n ∈ tree, Crosses r n.range
  · obtain ⟨n, hn, hc, hfind⟩ := h.plain.findTree_crosses hr.plain hany
    obtain ⟨cache', found, hfound, hcache', hnone, -⟩ := find_spec (P := Crosses r) h.plain h.cache
      hcond hfind (by rintro _ ⟨⟩; exact ⟨n, hn, rfl, hc⟩) (by simp)
    obtain ⟨it, rfl⟩ := Option.ne_none_iff_exists'.mp (mt hnone.mp (by simp))
    refine ⟨⟨⟨tree, cache', fresh⟩, answers ++ [none]⟩, ⟨⟨tree, [], fresh⟩, answers ++ [none]⟩,
      ?_, ?_, h.plain, h.fresh, hcache', rfl, rfl⟩
    · rw [step, AddrRangeMap.insert, hfound]
      rfl
    · rw [step, AddrRangeMap.insert, find_eq rfl, hfind]
      rfl
  · push Not at hany
    have hfind : findTree r.intersects r tree = .ok none :=
      findTree_none (P := Crosses r) hcond fun n hn => Bool.eq_false_iff.mpr (hany n hn)
    obtain ⟨cache', found, hfound, hcache', hnone, -⟩ := find_spec (P := Crosses r) h.plain h.cache
      hcond hfind (by simp) (by rintro ⟨n, hn, hc⟩; exact absurd hc (hany n hn))
    obtain rfl : found = none := hnone.mpr rfl
    obtain ⟨tree', fresh', it, hinsert, hplain, hfresh, hsub⟩ :=
      h.plain.insertTree h.fresh hr hany d
    refine ⟨⟨⟨tree', cache', fresh'⟩, answers ++ [some it]⟩,
      ⟨⟨tree', [], fresh'⟩, answers ++ [some it]⟩, ?_, ?_, hplain, hfresh,
      hcache'.mono hsub, rfl, rfl⟩
    · rw [step, AddrRangeMap.insert, hfound]
      change Except.ok (answered _ ((AddrRangeMap.insertTree r d ⟨tree, cache', fresh⟩).1,
        some (AddrRangeMap.insertTree r d ⟨tree, cache', fresh⟩).2)) = _
      rw [hinsert]
      rfl
    · rw [step, AddrRangeMap.insert, find_eq rfl, hfind]
      change Except.ok (answered _ ((AddrRangeMap.insertTree r d ⟨tree, [], fresh⟩).1,
        some (AddrRangeMap.insertTree r d ⟨tree, [], fresh⟩).2)) = _
      rw [hinsert]
      rfl

theorem Alike.contains (ha : a ≠ MaxAddr) : Agrees maxCacheSize s s' (.contains a) := by
  obtain ⟨tree, cache, fresh, answers, rfl, rfl⟩ := h.split
  have hcond : ∀ n ∈ tree, (ofSize a 1).isSubset n.range = .ok (Covers a n.range) :=
    fun n hn => isSubset_plain (h.plain.proper n hn).plain ha
  -- Both answers are the entry of the address, if there is one.
  suffices ∃ cache' found, find maxCacheSize (ofSize a 1)
        (ofSize a 1).isSubset ⟨tree, cache, fresh⟩ = .ok (⟨tree, cache', fresh⟩, found) ∧
      CacheOk maxCacheSize tree cache' ∧
      findTree (ofSize a 1).isSubset (ofSize a 1) tree = .ok found by
    obtain ⟨cache', found, hfound, hcache', hfind⟩ := this
    refine ⟨⟨⟨tree, cache', fresh⟩, answers ++ [found]⟩, ⟨⟨tree, [], fresh⟩, answers ++ [found]⟩,
      ?_, ?_, h.plain, h.fresh, hcache', rfl, rfl⟩
    · rw [step, AddrRangeMap.contains, hfound]
      rfl
    · rw [step, AddrRangeMap.contains, find_eq rfl, hfind]
      rfl
  by_cases hany : ∃ n ∈ tree, Covers a n.range
  · obtain ⟨n, hn, hc⟩ := hany
    have hfind := h.plain.findTree_covers ha hn hc
    obtain ⟨cache', found, hfound, hcache', hnone, hsome⟩ := find_spec (P := Covers a) h.plain
      h.cache hcond hfind (by rintro _ ⟨⟩; exact ⟨n, hn, rfl, hc⟩) (by simp)
    obtain ⟨it, rfl⟩ := Option.ne_none_iff_exists'.mp (mt hnone.mp (by simp))
    obtain ⟨x, hx, rfl, hcx⟩ := hsome it rfl
    exact ⟨cache', some x.id, hfound, hcache', h.plain.findTree_covers ha hx hcx⟩
  · push Not at hany
    have hfind : findTree (ofSize a 1).isSubset (ofSize a 1) tree = .ok none :=
      findTree_none (P := Covers a) hcond fun n hn => Bool.eq_false_iff.mpr (hany n hn)
    obtain ⟨cache', found, hfound, hcache', hnone, -⟩ := find_spec (P := Covers a) h.plain h.cache
      hcond hfind (by simp) (by rintro ⟨n, hn, hc⟩; exact absurd hc (hany n hn))
    obtain rfl : found = none := hnone.mpr rfl
    exact ⟨cache', none, hfound, hcache', hfind⟩

theorem Alike.erase {p : ℕ} (hp : p ∈ s.map.tree.map Node.id) :
    Agrees maxCacheSize s s' (.erase p) := by
  obtain ⟨tree, cache, fresh, answers, rfl, rfl⟩ := h.split
  have hsub := filter_sublist (p := fun n : Node V => decide (n.id ≠ p)) (l := tree)
  have hcache : CacheOk maxCacheSize (tree.filter (·.id ≠ p)) (cache.filter (· ≠ p)) :=
    h.cache.filter (· ≠ p) fun n hn _ hkeep => mem_filter.mpr ⟨hn, hkeep⟩
  refine ⟨⟨⟨_, _, fresh⟩, answers⟩, ⟨⟨_, [], fresh⟩, answers⟩, ?_, ?_, h.plain.sublist hsub,
    fun n hn => h.fresh n (hsub.subset hn), hcache, rfl, rfl⟩
  · rw [step, erase, require, if_pos hp]
    rfl
  · rw [step, erase, require, if_pos hp]
    rfl

theorem Alike.eraseRange {p q : Option ℕ} (huse : Uses s (.eraseRange p q))
    (hcare : Careful s (.eraseRange p q)) : Agrees maxCacheSize s s' (.eraseRange p q) := by
  obtain ⟨tree, cache, fresh, answers, rfl, rfl⟩ := h.split
  have hsub : ((tree.takeWhile fun n => some n.id ≠ p) ++
      (tree.dropWhile fun n => some n.id ≠ p).dropWhile fun n => some n.id ≠ q).Sublist tree := by
    conv_rhs => rw [← takeWhile_append_dropWhile (p := fun n => some n.id ≠ p) (l := tree)]
    exact (List.Sublist.refl _).append (dropWhile_sublist _)
  rw [Uses] at huse
  refine ⟨⟨⟨_, cache.filter fun it => (span p q tree).isEmpty || decide (some it ≠ p), fresh⟩,
    answers⟩, ⟨⟨_, [], fresh⟩, answers⟩, ?_, ?_, h.plain.sublist hsub,
    fun n hn => h.fresh n (hsub.subset hn), ?_, rfl, rfl⟩
  · rw [step, eraseRange, require, if_pos huse, ← foldl_filter]
    rfl
  · rw [step, eraseRange, require, if_pos huse]
    change Except.ok (Session.mk ⟨_, (span p q tree).foldl _ [], fresh⟩ answers) = _
    rw [foldl_filter]
    rfl
  · refine h.cache.filter _ fun n hn hcached hkeep => ?_
    rw [← takeWhile_append_dropWhile (p := fun n => some n.id ≠ p) (l := tree),
      mem_append] at hn
    refine mem_append.mpr (hn.imp_right fun hrest => ?_)
    rw [← takeWhile_append_dropWhile (p := fun n => some n.id ≠ q)
      (l := tree.dropWhile fun n => some n.id ≠ p), mem_append] at hrest
    refine hrest.resolve_left fun hspan => ?_
    have hp := hcare n hspan hcached
    have hne : (span p q tree).isEmpty = false := by
      rw [isEmpty_eq_false_iff]
      exact ne_nil_of_mem hspan
    simp [hne, hp] at hkeep

theorem Alike.step {op : Op V} (huse : Uses s op) (hcare : Careful s op) :
    Agrees maxCacheSize s s' op := by
  cases op with
  | insert r d => exact h.insert ⟨huse, hcare⟩ d
  | erase p => exact h.erase huse
  | eraseRange p q => exact h.eraseRange huse hcare
  | contains a => exact h.contains hcare
  | clear =>
    refine ⟨_, _, rfl, rfl, ⟨nofun, .nil, .nil, .nil⟩, nofun, ⟨nofun, .nil, Nat.zero_le _⟩, ?_,
      h.answers⟩
    rw [h.map]
    rfl

end Step

theorem alike_start (maxCacheSize : ℕ) :
    Alike maxCacheSize (Session.start : Session V) Session.start :=
  ⟨⟨nofun, .nil, .nil, .nil⟩, nofun, ⟨nofun, .nil, Nat.zero_le _⟩, rfl, rfl⟩

/-- In a careful run every operation answers as it does without a cache, and the iterators
in the cache are different, valid, and no more than allowed. -/
theorem cache_invisible (maxCacheSize : ℕ) (ops : List (Op V))
    (h : Meets (step maxCacheSize) (fun s op => Uses s op ∧ Careful s op) Session.start ops) :
    ∃ s s', run (step maxCacheSize) Session.start ops = .ok s ∧
      run (step 0) Session.start ops = .ok s' ∧ s.answers = s'.answers ∧
      s.map.tree = s'.map.tree ∧ (∀ it ∈ s.map.cache, it ∈ s.map.tree.map Node.id) ∧
      s.map.cache.Nodup ∧ s.map.cache.length ≤ maxCacheSize := by
  obtain ⟨s, s', hrun, hrun', hs⟩ := h.lockstep (step 0)
    (fun hs hop => hs.step hop.1 hop.2) (alike_start maxCacheSize)
  refine ⟨s, s', hrun, hrun', hs.answers.symm, ?_, hs.cache.valid, hs.cache.nodup, hs.cache.size⟩
  rw [hs.map]

instance (s : Session V) (op : Op V) : Decidable (Uses s op ∧ Careful s op) := by
  cases op <;> unfold Uses Careful <;> infer_instance

def twoRanges : List (Op Unit) :=
  [.insert ⟨0, 8, [], 0⟩ (), .insert ⟨8, 16, [], 0⟩ (), .contains 3, .contains 3, .contains 9,
    .eraseRange (some 0) (some 1), .contains 3, .contains 9]

/-- The second look-up is answered from the cache, and a span is erased. -/
theorem cache_invisible_two : ∃ s s', run (step 2) Session.start twoRanges = .ok s ∧
    run (step 0) Session.start twoRanges = .ok s' ∧ s.answers = s'.answers := by
  obtain ⟨s, s', hs, hs', hans, -⟩ := cache_invisible 2 twoRanges (by decide +kernel)
  exact ⟨s, s', hs, hs', hans⟩

/-- An entry behind the first of an erased span stays in the cache. Only the cache holds
on to an entry that is asked for the last address, or that a range turned around hides. -/
theorem cache_visible :
    Stops (step 2) Session.start [.insert ⟨0, 8, [], 0⟩ (), .insert ⟨8, 16, [], 0⟩ (),
      .contains 8, .eraseRange (some 0) none, .contains 8] .danglingIterator ∧
    (Ends (step 2) Session.start [.insert ⟨0, 8, [], 0⟩ (), .insert ⟨8, 16, [], 0⟩ (),
        .contains 0, .contains MaxAddr] (·.answers.getLast? = some (some 0)) ∧
      Ends (step 0) Session.start [.insert ⟨0, 8, [], 0⟩ (), .insert ⟨8, 16, [], 0⟩ (),
        .contains 0, .contains MaxAddr] (·.answers.getLast? = some (some 1))) ∧
    (Ends (step 2) Session.start [.insert ⟨0, 100, [], 0⟩ (), .contains 5,
        .insert ⟨50, 0, [], 0⟩ (), .contains 65] (·.answers.getLast? = some (some 0)) ∧
      Ends (step 0) Session.start [.insert ⟨0, 100, [], 0⟩ (), .contains 5,
        .insert ⟨50, 0, [], 0⟩ (), .contains 65] (·.answers.getLast? = some none)) := by
  decide +kernel

end HetSim.Address
